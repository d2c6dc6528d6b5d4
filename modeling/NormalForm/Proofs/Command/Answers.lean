import NormalForm.Command
import NormalForm.Proofs.Load.Grant
import NormalForm.Proofs.Table.Agreement

namespace NormalForm.Command

open Grammar (WellFormed)

variable {guardsStart showsTable : Bool} {g : Grammar} {word text : List Char}

/-- What is written for a word. -/
inductive Answers (g : Grammar) (showsTable : Bool) (word : List Char) : List Char → Prop
  | unanswered : word = [] ∨ g.start = none ∨ (∃ a ∈ word, a ∉ g.terminals) →
      Answers g showsTable word []
  | accepted {S : Char} {table : List Char} : word ≠ [] → g.start = some S →
      (∀ a ∈ word, a ∈ g.terminals) → g.Derives S word → g.tableText word = .ok table →
      Answers g showsTable word
        (word ++ ": accepted\n".toList ++ if showsTable then table else [])
  | rejected {S : Char} {table : List Char} : word ≠ [] → g.start = some S →
      (∀ a ∈ word, a ∈ g.terminals) → ¬ g.Derives S word → g.tableText word = .ok table →
      Answers g showsTable word
        (word ++ ": rejected\n".toList ++ if showsTable then table else [])

/-- The verdict on a word, or nothing if there is none. -/
def block (g : Grammar) (showsTable : Bool) (word : List Char) : List Char :=
  match verdict g showsTable word with
  | .ok text => text
  | .error _ => []

theorem block_of_refuses {e : WordError} (refused : g.Refuses word e) :
    block g showsTable word = [] := by
  have examined := Grammar.examine_eq_error_iff.mpr refused
  simp [block, verdict, examined, Except.map]

theorem block_of_startFor {S : Char} (looked : g.startFor word = .ok S) :
    block g showsTable word =
      word ++ (if (g.fill g.heads word (word.length - 1)).accepts S then ": accepted\n"
        else ": rejected\n").toList ++
        if showsTable then (g.fill g.heads word (word.length - 1)).text else [] := by
  simp [block, verdict, Grammar.examine_eq, looked, Except.map]

theorem exists_refuses_iff :
    (∃ e, g.Refuses word e) ↔ word = [] ∨ g.start = none ∨ ∃ a ∈ word, a ∉ g.terminals := by
  constructor
  · rintro ⟨_, empty | ⟨_, unset⟩ | @⟨before, after, a, _, split, _, unknown⟩⟩
    · exact Or.inl empty
    · exact Or.inr (Or.inl unset)
    · exact Or.inr (Or.inr ⟨a, by simp [split], unknown⟩)
  · intro unanswered
    cases looked : g.startFor word with
    | error e => exact ⟨e, Grammar.startFor_eq_error_iff.mp looked⟩
    | ok S =>
      obtain ⟨letters, start, known⟩ := Grammar.startFor_eq_ok_iff.mp looked
      rcases unanswered with empty | unset | ⟨a, ha, unknown⟩
      · exact absurd empty letters
      · rw [start] at unset
        cases unset
      · exact absurd (known a ha) unknown

/-- The table that is shown is the table that decides. -/
theorem tableText_eq_fill {table : List Char} (shown : g.tableText word = .ok table) :
    table = (g.fill g.heads word (word.length - 1)).text := by
  obtain ⟨t, ht, rfl⟩ := Grammar.tableText_eq_ok_iff.mp shown
  rw [(Grammar.table_eq_ok_iff.mp ht).2]

theorem block_correct (wf : WellFormed guardsStart g) (showsTable : Bool) (word : List Char) :
    Answers g showsTable word (block g showsTable word) := by
  cases looked : g.startFor word with
  | error e =>
    have refused := Grammar.startFor_eq_error_iff.mp looked
    rw [block_of_refuses refused]
    exact .unanswered (exists_refuses_iff.mp ⟨e, refused⟩)
  | ok S =>
    obtain ⟨letters, start, known⟩ := Grammar.startFor_eq_ok_iff.mp looked
    have shown : g.tableText word = .ok (g.fill g.heads word (word.length - 1)).text :=
      Grammar.tableText_eq_ok_iff.mpr ⟨_, Grammar.table_eq_ok_iff.mpr ⟨⟨S, looked⟩, rfl⟩, rfl⟩
    have decided := Grammar.accepts_iff wf letters S
    rw [block_of_startFor looked]
    split
    · rename_i accepts
      exact .accepted letters start known (decided.mp accepts) shown
    · rename_i refuses
      exact .rejected letters start known (fun derived => refuses (decided.mpr derived)) shown

theorem block_unique (wf : WellFormed guardsStart g) (h : Answers g showsTable word text) :
    text = block g showsTable word := by
  cases h with
  | unanswered unanswered =>
    obtain ⟨e, refused⟩ := exists_refuses_iff.mpr unanswered
    exact (block_of_refuses refused).symm
  | @accepted S table letters start known derived shown =>
    have looked := Grammar.startFor_eq_ok_iff.mpr ⟨letters, start, known⟩
    rw [block_of_startFor looked, if_pos ((Grammar.accepts_iff wf letters S).mpr derived),
      tableText_eq_fill shown]
  | @rejected S table letters start known underived shown =>
    have looked := Grammar.startFor_eq_ok_iff.mpr ⟨letters, start, known⟩
    rw [block_of_startFor looked, if_neg (mt (Grammar.accepts_iff wf letters S).mp underived),
      tableText_eq_fill shown]

theorem answer_output :
    (answer g showsTable word).output = String.ofList (block g showsTable word) := by
  unfold answer block
  cases verdict g showsTable word <;> rfl

theorem answer_failed :
    (answer g showsTable word).failed = true ↔ block g showsTable word = [] := by
  cases looked : g.startFor word with
  | error e =>
    have refused := Grammar.startFor_eq_error_iff.mp looked
    simp [answer, verdict, Grammar.examine_eq_error_iff.mpr refused, block_of_refuses refused,
      Except.map]
  | ok S =>
    have letters := (Grammar.startFor_eq_ok_iff.mp looked).1
    simp [answer, verdict, Grammar.examine_eq, looked, block_of_startFor looked, letters,
      Except.map]

theorem answers_output (words : List (List Char)) :
    ((words.map (answer g showsTable)).foldr Report.andThen {}).output =
      String.ofList (words.flatMap (block g showsTable)) := by
  induction words with
  | nil => rfl
  | cons word words ih =>
    rw [List.map_cons, List.foldr_cons, Report.andThen, ih, answer_output, List.flatMap_cons,
      String.ofList_append]

theorem answers_failed (words : List (List Char)) :
    ((words.map (answer g showsTable)).foldr Report.andThen {}).failed = true ↔
      ∃ word ∈ words, block g showsTable word = [] := by
  induction words with
  | nil => simp
  | cons word words ih =>
    rw [List.map_cons, List.foldr_cons, Report.andThen, Bool.or_eq_true, ih, answer_failed]
    simp only [List.mem_cons, exists_eq_or_imp]

theorem work_of_words {settings : Settings} (unsampled : settings.amount = none)
    (asked : settings.words ≠ []) (g : Grammar) (source : Source) :
    work settings g source =
      (settings.words.map (answer g settings.showsTable)).foldr Report.andThen {} := by
  simp [work, unsampled, asked, addSamples]

/-- **What a run answers.** A file that does not load shows its faults in order and answers nothing.
Otherwise each word gets the one block that its grammar has for it, whatever the other words are,
and the run succeeds exactly if no block is empty. -/
theorem run_answers_words (settings : Settings) (unsampled : settings.amount = none)
    (contents : Except FileError (List UInt8)) (source : Source) :
    (∀ arguments read, Arguments.read arguments = .ok settings → read settings.file = contents →
      respond arguments read source = run settings contents source) ∧
    (∀ faults, Load.ofContents settings.file settings.loadMode contents = .error faults →
      (run settings contents source).output = "" ∧ (run settings contents source).exit = 1 ∧
      (run settings contents source).errors =
        rulesRecord settings contents ++ String.join (faults.map (·.display ++ "\n"))) ∧
    ∀ g, Load.ofContents settings.file settings.loadMode contents = .ok g → settings.words ≠ [] →
      ∃ block : List Char → List Char,
        (∀ word text, Answers g settings.showsTable word text ↔ text = block word) ∧
        (run settings contents source).output = String.ofList (settings.words.flatMap block) ∧
        ((run settings contents source).exit = 0 ∨ (run settings contents source).exit = 1) ∧
        ((run settings contents source).exit = 0 ↔ ∀ word ∈ settings.words, block word ≠ []) := by
  refine ⟨fun arguments read asked known => ?_, fun faults failed => ?_, fun g loaded asked => ?_⟩
  · simp [respond, asked, known]
  · simp [run, failed]
  · have wf := (Load.reachable_of_ofContents loaded).wellFormed
    refine ⟨block g settings.showsTable, fun word text => ?_, ?_, ?_, ?_⟩
    · exact ⟨block_unique wf, fun same => same ▸ block_correct wf _ word⟩
    · simp only [run, loaded, work_of_words unsampled asked, answers_output]
    · simp only [run, loaded]
      split <;> simp
    · simp [run, loaded, work_of_words unsampled asked, answers_failed]

/-- The grammar of the one word `ab`. -/
def ab : Grammar where
  nonterminals := ['S', 'A', 'B']
  terminals := ['a', 'b']
  productions := [('S', [.pair 'A' 'B']), ('A', [.terminal 'a']), ('B', [.terminal 'b'])]
  start := some 'S'
  guardsStart := true

def abBytes : List UInt8 := "S ::= AB\nA ::= a\nB ::= b\n".toUTF8.data.toList

/-- Two words with a verdict around two without. -/
def mixed : Settings where
  file := ⟨"ab"⟩
  words := [['a', 'b'], [], ['a', 'c'], ['b', 'a']]
  start := none
  showsTable := true
  amount := none
  depth := 8
  guardsStart := true
  verbosity := 0

theorem run_answers_words_mixed :
    let source := Source.ofList []
    let response := run mixed (.ok abBytes) source
    mixed.amount = none ∧ mixed.words ≠ [] ∧
      Load.ofContents mixed.file mixed.loadMode (.ok abBytes) = .ok ab ∧
      respond ["-t", "ab", "ab", "", "ac", "ba"] (fun _ => .ok abBytes) source = response ∧
      response.output = "ab: accepted\n[A][B]\n[S]\nba: rejected\n[B][A]\n[-]\n" ∧
      (run mixed (.error .notFound) source).output = "" ∧
      ∃ block : List Char → List Char,
        (∀ word text, Answers ab true word text ↔ text = block word) ∧
        response.output = String.ofList (mixed.words.flatMap block) ∧
        ¬ ∀ word ∈ mixed.words, block word ≠ [] := by
  intro source response
  obtain ⟨responds, _, loads⟩ := run_answers_words mixed rfl (.ok abBytes) source
  obtain ⟨_, fails, _⟩ := run_answers_words mixed rfl (.error .notFound) source
  have asked : mixed.words ≠ [] := by decide
  obtain ⟨block, correct, output, _, exit⟩ := loads ab rfl asked
  have failed : response.exit ≠ 0 := by decide
  refine ⟨rfl, asked, rfl, responds _ (fun _ => .ok abBytes) rfl rfl, rfl, (fails _ rfl).1, ?_⟩
  exact ⟨block, correct, output, fun answered => failed (exit.mpr answered)⟩

end NormalForm.Command
