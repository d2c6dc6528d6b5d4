import NormalForm.Proofs.Command.Answers
import NormalForm.Proofs.CommandLine.Depth
import NormalForm.Proofs.CommandLine.Interleaved
import NormalForm.Proofs.Sampling.Recognized

namespace NormalForm.Command

open Arguments (AsksDepth Choice Chosen Interleaves)

variable {g : Grammar} {source : Source} {depth amount place next : Nat} {word : List Char}
  {words : List (List Char)}

/-- The settings are for the file and the words, with the chosen options. -/
structure Means (settings : Settings) (file : String) (words : List String) (chosen : Chosen) :
    Prop where
  file : settings.file = ⟨file⟩
  words : settings.words = words.map String.toList
  loadMode : settings.loadMode = ⟨chosen.start, !chosen.allowsStart⟩
  showsTable : settings.showsTable = chosen.showsTable
  amount : settings.amount = chosen.amount
  depth : settings.depth = chosen.depth.getD 8
  verbosity : settings.verbosity = min chosen.verbosity 255
  level : chosen.verbosity = 0 ∧ settings.level = .warn ∨
    chosen.verbosity = 1 ∧ settings.level = .info ∨
    chosen.verbosity = 2 ∧ settings.level = .debug ∨
    3 ≤ chosen.verbosity ∧ settings.level = .trace

theorem ofCount_of_three_le {count : Nat} (many : 3 ≤ count) :
    LogLevel.ofCount count = .trace := by
  obtain ⟨more, rfl⟩ := Nat.exists_eq_add_of_le' many
  rfl

/-- A count that is cut at a byte stands for the same level. -/
theorem level_of_count (count : Nat) :
    count = 0 ∧ LogLevel.ofCount (min count 255) = .warn ∨
      count = 1 ∧ LogLevel.ofCount (min count 255) = .info ∨
      count = 2 ∧ LogLevel.ofCount (min count 255) = .debug ∨
      3 ≤ count ∧ LogLevel.ofCount (min count 255) = .trace := by
  match count with
  | 0 => exact Or.inl ⟨rfl, rfl⟩
  | 1 => exact Or.inr (Or.inl ⟨rfl, rfl⟩)
  | 2 => exact Or.inr (Or.inr (Or.inl ⟨rfl, rfl⟩))
  | more + 3 =>
    have many : 3 ≤ min (more + 3) 255 := by omega
    exact Or.inr (Or.inr (Or.inr ⟨Nat.le_add_left 3 more, ofCount_of_three_le many⟩))

theorem means_of_interleaves {file : String} {words arguments : List String} {chosen : Chosen}
    {choices : List Choice} (inter : Interleaves (file :: words) choices arguments)
    (order : choices.Perm chosen.choices) (named : file ≠ "")
    (few : ∀ n, chosen.amount = some n → n < 2 ^ 32)
    (shallow : ∀ n, chosen.depth = some n → n ≤ 16) :
    ∃ settings, Arguments.read arguments = .ok settings ∧ Means settings file words chosen := by
  have within : ∀ n, chosen.amount = some n → n ≤ Arguments.largestAmount :=
    fun n asked => Nat.le_of_lt_succ (few n asked)
  refine ⟨_, Arguments.read_of_interleaves inter order named within shallow, ?_⟩
  exact ⟨rfl, rfl, rfl, rfl, rfl, rfl, rfl, level_of_count chosen.verbosity⟩

/-- The words that are sampled from a place on. An attempt that ends in an error adds none, and an
attempt without a result is the last. -/
inductive Samples (g : Grammar) (source : Source) (depth : Nat) :
    (amount place : Nat) → List (List Char) → Prop
  | done {place : Nat} : Samples g source depth 0 place []
  | halted {amount place : Nat} : g.sample source Source.patience depth place = none →
      Samples g source depth (amount + 1) place []
  | failed {amount place next : Nat} {e : SamplingError} {words : List (List Char)} :
      g.sample source Source.patience depth place = some (.error e, next) →
      Samples g source depth amount next words → Samples g source depth (amount + 1) place words
  | word {amount place next : Nat} {word : List Char} {words : List (List Char)} :
      g.sample source Source.patience depth place = some (.ok word, next) →
      Samples g source depth amount next words →
      Samples g source depth (amount + 1) place (word :: words)

theorem sample_length_le {patience : Nat}
    (h : g.sample source patience depth place = some (.ok word, next)) :
    word.length ≤ 2 ^ depth := by
  rcases Grammar.sample_eq_some_iff.mp h with ⟨_, failed, _⟩ | ⟨S, _, expansion⟩
  · cases failed
  · exact expansion.derivesWithin.length_le

theorem Samples.length_le (h : Samples g source depth amount place words) :
    ∀ word ∈ words, word.length ≤ 2 ^ depth := by
  induction h with
  | done | halted _ => nofun
  | failed _ _ ih => exact ih
  | word sampled _ ih => exact List.forall_mem_cons.mpr ⟨sample_length_le sampled, ih⟩

/-- Each sampled word is written on a line of its own, behind what was written before. -/
theorem addSamples_output (g : Grammar) (source : Source) (depth amount place : Nat)
    (report : Report) :
    ∃ words, Samples g source depth amount place words ∧
      (addSamples g source depth amount place report).output =
        report.output ++ String.ofList (words.flatMap (· ++ ['\n'])) := by
  -- Each attempt adds to the report, so the report before it is general.
  induction amount generalizing place report with
  | zero => exact ⟨[], .done, String.append_empty.symm⟩
  | succ amount ih =>
    rw [addSamples]
    rcases drawn : g.sample source Source.patience depth place with _ | ⟨result, next⟩
    · exact ⟨[], .halted drawn, rfl⟩
    · obtain ⟨words, samples, output⟩ := ih next (report.andThen (sampled result))
      cases result with
      | error e =>
        refine ⟨words, .failed drawn samples, ?_⟩
        rw [output, Report.andThen, sampled, String.append_empty]
      | ok word =>
        refine ⟨word :: words, .word drawn samples, ?_⟩
        rw [output, Report.andThen, sampled, List.flatMap_cons, String.ofList_append,
          String.ofList_append, String.append_assoc]

theorem work_output {settings : Settings} (asked : settings.amount = some amount) (g : Grammar)
    (source : Source) :
    ∃ generated, Samples g source settings.depth amount 0 generated ∧
      (work settings g source).output =
        String.ofList (settings.words.flatMap (block g settings.showsTable) ++
          generated.flatMap (· ++ ['\n'])) := by
  obtain ⟨generated, samples, output⟩ := addSamples_output g source settings.depth amount 0
    ((settings.words.map (answer g settings.showsTable)).foldr Report.andThen {})
  refine ⟨generated, samples, ?_⟩
  rw [String.ofList_append, ← answers_output, ← output]
  simp [work, asked]

/-- **Options may stand anywhere.** However the options of a command line are ordered and wherever
they stand among its words, it is read as the same settings. A depth above the largest is refused,
so what is read keeps within it, and no word that a command samples is longer than that allows. -/
theorem options_anywhere :
    (∀ (file : String) (words : List String) (chosen : Chosen) (choices : List Choice)
        (arguments : List String),
      file ≠ "" → (∀ n, chosen.amount = some n → n < 2 ^ 32) →
      (∀ n, chosen.depth = some n → n ≤ 16) → choices.Perm chosen.choices →
      Interleaves (file :: words) choices arguments →
      ∃ settings, Arguments.read arguments = .ok settings ∧ Means settings file words chosen) ∧
    (∀ arguments n, AsksDepth n arguments → 16 < n →
      ∃ stop, Arguments.read arguments = .error stop) ∧
    ∀ arguments settings, Arguments.read arguments = .ok settings →
      settings.depth ≤ 16 ∧
      ∀ read source g amount,
        Load.ofContents settings.file settings.loadMode (read settings.file) = .ok g →
        settings.amount = some amount →
        ∃ generated, Samples g source settings.depth amount 0 generated ∧
          (respond arguments read source).output =
            String.ofList (settings.words.flatMap (block g settings.showsTable) ++
              generated.flatMap (· ++ ['\n'])) ∧
          ∀ word ∈ generated, word.length ≤ 65536 := by
  refine ⟨?_, ?_, ?_⟩
  · intro file words chosen choices arguments named few shallow order inter
    exact means_of_interleaves inter order named few shallow
  · exact fun arguments n asked large => Arguments.read_of_asksDepth asked large
  · intro arguments settings asked
    have shallow := Arguments.read_depth_le asked
    refine ⟨shallow, fun read source g amount loaded wanted => ?_⟩
    obtain ⟨generated, samples, output⟩ := work_output wanted g source
    refine ⟨generated, samples, ?_, fun word drawn => ?_⟩
    · simp only [respond, asked, run, loaded, output]
    · exact Nat.le_trans (samples.length_le word drawn) (Nat.pow_le_pow_right (by decide) shallow)

/-- Every option, and the verbose flag in all its forms. -/
def busy : Chosen where
  start := some '='
  showsTable := true
  amount := some 7
  depth := some 16
  allowsStart := true
  verbosity := 3

def busyArguments : List String :=
  ["--verbose", "--max-depth=016", "toy.cnf", "-tv", "ab", "--start==", "", "--generate=+7", "ba",
    "--allow-start-on-rhs", "-v"]

theorem options_anywhere_busy :
    let choices : List Choice :=
      [.verbose, .depth 16, .table, .verbose, .start '=', .amount 7, .allowStart, .verbose]
    let source := Source.ofList []
    choices.Perm busy.choices ∧
      Interleaves ["toy.cnf", "ab", "", "ba"] choices busyArguments ∧
      (∃ settings, Arguments.read busyArguments = .ok settings ∧
        Means settings "toy.cnf" ["ab", "", "ba"] busy) ∧
      AsksDepth 17 ["toy.cnf", "--max-depth", "17"] ∧
      (∃ stop, Arguments.read ["toy.cnf", "--max-depth", "17"] = .error stop) ∧
      (respond ["ab", "--generate=2", "ba"] (fun _ => .ok abBytes) source).output =
        "ba: rejected\nab\nab\n" ∧
      ∃ generated, Samples ab source 8 2 0 generated ∧
        (respond ["ab", "--generate=2", "ba"] (fun _ => .ok abBytes) source).output =
          String.ofList ("ba: rejected\n".toList ++ generated.flatMap (· ++ ['\n'])) ∧
        ∀ word ∈ generated, word.length ≤ 65536 := by
  intro choices source
  obtain ⟨reads, refuses, generates⟩ := options_anywhere
  have order : choices.Perm busy.choices := by decide
  have few : ∀ n, busy.amount = some n → n < 2 ^ 32 := by
    rintro n ⟨⟩
    decide
  have shallow : ∀ n, busy.depth = some n → n ≤ 16 := by
    rintro n ⟨⟩
    decide
  have sixteen : Numeral.Spells "016".toList 16 := ⟨[], 1, .inl rfl, rfl⟩
  have seven : Numeral.Spells "+7".toList 7 := ⟨['+'], 0, .inr rfl, rfl⟩
  have inter : Interleaves ["toy.cnf", "ab", "", "ba"] choices busyArguments :=
    .option .verbose <| .option (.depth sixteen) <| .word (by decide) <|
    .option (@Arguments.Written.letters [.table, .verbose] ['t', 'v'] (by decide) rfl) <|
    .word (by decide) <| .option .start <| .word (by decide) <| .option (.amount seven) <|
    .word (by decide) <| .option .allowStart <|
    .option (@Arguments.Written.letters [.verbose] ['v'] (by decide) rfl) .nil
  have deep : AsksDepth 17 ["toy.cnf", "--max-depth", "17"] :=
    .later (by decide) (.apart (Numeral.spells_toString 17))
  obtain ⟨_, samples⟩ := generates ["ab", "--generate=2", "ba"] _ rfl
  exact ⟨order, inter, reads _ _ _ _ _ (by decide) few shallow order inter, deep,
    refuses _ 17 deep (by decide), by decide +kernel,
    samples (fun _ => .ok abBytes) source ab 2 rfl rfl⟩

end NormalForm.Command
