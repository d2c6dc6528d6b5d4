import NormalForm.Proofs.CommandLine.Advance
import NormalForm.Proofs.CommandLine.Numeral

/-! # Options between words

A command line as it is meant: a file, words, and options that may stand anywhere among them, in any
order. Whatever has been read of it, the draft holds the words that were met, in order, and the
options that were met, whose order cannot be told. So every command line that means the same is read
as the same settings. -/

namespace NormalForm.Arguments

inductive Choice where
  | start (letter : Char)
  | table
  | amount (n : Nat)
  | depth (n : Nat)
  | allowStart
  | verbose
  deriving DecidableEq

namespace Choice

def switch : Choice → Switch
  | start _ => .valued .start
  | table => .flag .table
  | amount _ => .valued .amount
  | depth _ => .valued .depth
  | allowStart => .flag .allowStart
  | verbose => .flag .verbose

/-- The letter of a flag that has one. -/
def letter? : Choice → Option Char
  | table => some 't'
  | verbose => some 'v'
  | _ => none

/-- The number of the choice is within its bound. -/
def Within : Choice → Prop
  | amount n => n ≤ largestAmount
  | depth n => n ≤ largestDepth
  | _ => True

/-- Only the verbose flag stands beside another of its kind. -/
def Bears (a b : Choice) : Prop := a.switch = b.switch → b = verbose

/-- The option, with the value as it is written, makes the choice. -/
inductive Takes : Choice → Valued → List Char → Prop
  | start {letter : Char} : Takes (start letter) .start [letter]
  | amount {n : Nat} {text : List Char} : Numeral.Spells text n → Takes (amount n) .amount text
  | depth {n : Nat} {text : List Char} : Numeral.Spells text n → Takes (depth n) .depth text

end Choice

/-- The choices that one argument makes. -/
inductive Written : List Choice → String → Prop
  | start {letter : Char} : Written [.start letter] ("--start=" ++ String.singleton letter)
  | amount {n : Nat} {text : String} : Numeral.Spells text.toList n →
      Written [.amount n] ("--generate=" ++ text)
  | depth {n : Nat} {text : String} : Numeral.Spells text.toList n →
      Written [.depth n] ("--max-depth=" ++ text)
  | table : Written [.table] "--table"
  | allowStart : Written [.allowStart] "--allow-start-on-rhs"
  | verbose : Written [.verbose] "--verbose"
  | letters {choices : List Choice} {letters : List Char} : letters ≠ [] →
      choices.map Choice.letter? = letters.map some →
      Written choices ("-" ++ String.ofList letters)

/-- The arguments are the words in their order, with arguments that make the choices among them. -/
inductive Interleaves : List String → List Choice → List String → Prop
  | nil : Interleaves [] [] []
  | word {word : String} {words : List String} {choices : List Choice} {arguments : List String} :
      word.toList.head? ≠ some '-' → Interleaves words choices arguments →
      Interleaves (word :: words) choices (word :: arguments)
  | option {argument : String} {words : List String} {these choices : List Choice}
      {arguments : List String} : Written these argument → Interleaves words choices arguments →
      Interleaves words (these ++ choices) (argument :: arguments)

/-- All options of a command line, each of them given or not. -/
structure Chosen where
  start : Option Char := none
  showsTable : Bool := false
  amount : Option Nat := none
  depth : Option Nat := none
  allowsStart : Bool := false
  /-- How many verbose flags there are. -/
  verbosity : Nat := 0

/-- The choices that are made at most once. -/
def Chosen.single (chosen : Chosen) : List Choice :=
  chosen.start.toList.map .start ++ (if chosen.showsTable then [.table] else []) ++
    chosen.amount.toList.map .amount ++ chosen.depth.toList.map .depth ++
    (if chosen.allowsStart then [.allowStart] else [])

/-- The choices, in one of their orders. -/
def Chosen.choices (chosen : Chosen) : List Choice :=
  chosen.single ++ List.replicate chosen.verbosity .verbose

variable {r : Reading} {d : Draft} {words more : List String} {word : String}
  {choices these : List Choice} {choice : Choice} {arguments : List String}

/-! ## Drafts -/

/-- The draft holds what the words and the choices come to, the first word being the file. -/
structure Draft.Holds (d : Draft) (words : List String) (choices : List Choice) : Prop where
  file : d.file = words.head?
  words : d.words = words.tail.map String.toList
  start : ∀ c, d.start = some c ↔ .start c ∈ choices
  showsTable : d.showsTable = true ↔ .table ∈ choices
  amount : ∀ n, d.amount = some n ↔ .amount n ∈ choices
  depth : ∀ n, d.depth = some n ↔ .depth n ∈ choices
  allowsStart : d.allowsStart = true ↔ .allowStart ∈ choices
  verbosity : d.verbosity = min (choices.count .verbose) 255

/-- The draft with one more choice. -/
def Draft.give (d : Draft) : Choice → Draft
  | .start c => { d with start := some c }
  | .table => { d with showsTable := true }
  | .amount n => { d with amount := some n }
  | .depth n => { d with depth := some n }
  | .allowStart => { d with allowsStart := true }
  | .verbose => { d with verbosity := min (d.verbosity + 1) 255 }

theorem Draft.Holds.give (h : d.Holds words choices) (fresh : ∀ b ∈ choices, b.Bears choice) :
    (d.give choice).Holds words (choices ++ [choice]) where
  file := by cases choice <;> exact h.file
  words := by cases choice <;> exact h.words
  start c := by
    cases choice with
    | start letter =>
      have absent : .start c ∉ choices := fun hc => nomatch fresh _ hc rfl
      simp [Draft.give, absent, eq_comm]
    | _ => simpa [Draft.give] using h.start c
  showsTable := by cases choice <;> simp [Draft.give, h.showsTable]
  amount n := by
    cases choice with
    | amount m =>
      have absent : .amount n ∉ choices := fun hc => nomatch fresh _ hc rfl
      simp [Draft.give, absent, eq_comm]
    | _ => simpa [Draft.give] using h.amount n
  depth n := by
    cases choice with
    | depth m =>
      have absent : .depth n ∉ choices := fun hc => nomatch fresh _ hc rfl
      simp [Draft.give, absent, eq_comm]
    | _ => simpa [Draft.give] using h.depth n
  allowsStart := by cases choice <;> simp [Draft.give, h.allowsStart]
  verbosity := by
    rw [List.count_append]
    cases choice with
    | verbose =>
      simp only [Draft.give, h.verbosity, List.count_singleton_self]
      omega
    | _ => simpa [Draft.give] using h.verbosity

/-- A valued option is accepted if no such option was met. -/
theorem Draft.Holds.assign_eq {option : Valued} {value : List Char} (h : d.Holds words choices)
    (takes : choice.Takes option value) (within : choice.Within)
    (fresh : ∀ b ∈ choices, b.Bears choice) : d.assign option value = .ok (d.give choice) := by
  rw [Draft.assign.eq_def]
  cases takes with
  | @start letter =>
    refine map_eq_ok_iff.mpr ⟨letter, once_eq_ok_iff.mpr ⟨?_, rfl⟩, rfl⟩
    exact Option.eq_none_iff_forall_ne_some.mpr fun c given =>
      nomatch fresh _ ((h.start c).mp given) rfl
  | @amount n _ spells =>
    refine map_eq_ok_iff.mpr ⟨n, once_eq_ok_iff.mpr ⟨?_, amount?_of_spells spells within⟩, rfl⟩
    exact Option.eq_none_iff_forall_ne_some.mpr fun m given =>
      nomatch fresh _ ((h.amount m).mp given) rfl
  | @depth n _ spells =>
    refine map_eq_ok_iff.mpr ⟨n, once_eq_ok_iff.mpr ⟨?_, depth?_of_spells spells within⟩, rfl⟩
    exact Option.eq_none_iff_forall_ne_some.mpr fun m given =>
      nomatch fresh _ ((h.depth m).mp given) rfl

/-- A flag is accepted if it was not met, and the verbose flag always. -/
theorem Draft.Holds.raise_eq {flag : Flag} (h : d.Holds words choices)
    (flagged : choice.switch = .flag flag) (fresh : ∀ b ∈ choices, b.Bears choice) :
    d.raise flag = .ok (d.give choice) := by
  cases choice with
  | start | amount | depth => cases flagged
  | verbose =>
    cases flagged
    rfl
  | table =>
    cases flagged
    have lowered : d.showsTable = false :=
      Bool.eq_false_iff.mpr fun given => nomatch fresh _ (h.showsTable.mp given) rfl
    simp [Draft.raise, onceFlag, lowered, Draft.give]
  | allowStart =>
    cases flagged
    have lowered : d.allowsStart = false :=
      Bool.eq_false_iff.mpr fun given => nomatch fresh _ (h.allowsStart.mp given) rfl
    simp [Draft.raise, onceFlag, lowered, Draft.give]

/-! ## Readings -/

/-- Once settled, what was read holds the words and the choices; nothing in it waits for a value. -/
structure Reading.Holds (r : Reading) (words : List String) (choices : List Choice) : Prop where
  literal : r.isLiteral = false
  hasFile : r.hasFile = !words.isEmpty
  ready : ∀ option, r.pending ≠ .waiting option
  settles : ∃ s, r.settle = .ok s ∧ s.draft.Holds words choices

/-- A settled reading with one more choice. -/
theorem Reading.Holds.given (h : r.Holds words choices) {s : Reading} (settled : r.settle = .ok s)
    (holds : s.draft.Holds words choices) (fresh : ∀ b ∈ choices, b.Bears choice) :
    ({ s with draft := s.draft.give choice } : Reading).Holds words (choices ++ [choice]) := by
  obtain ⟨nothing, hasFile, literal⟩ := Reading.settle_frame settled
  refine ⟨literal.trans h.literal, hasFile.trans h.hasFile, ?_,
    { s with draft := s.draft.give choice }, ?_, holds.give fresh⟩
  · simp [nothing]
  · simp only [Reading.settle, nothing]

theorem Reading.Holds.attach {option : Valued} {value : List Char} (h : r.Holds words choices)
    (takes : choice.Takes option value) (within : choice.Within)
    (fresh : ∀ b ∈ choices, b.Bears choice) :
    ∃ r', r.attach option value = .ok r' ∧ r'.Holds words (choices ++ [choice]) := by
  obtain ⟨s, settled, holds⟩ := h.settles
  exact ⟨_, attach_eq_ok_iff.mpr ⟨s, _, settled, holds.assign_eq takes within fresh, rfl⟩,
    h.given settled holds fresh⟩

theorem Reading.Holds.raise {flag : Flag} (h : r.Holds words choices)
    (flagged : choice.switch = .flag flag) (fresh : ∀ b ∈ choices, b.Bears choice) :
    ∃ r', r.raise flag = .ok r' ∧ r'.Holds words (choices ++ [choice]) := by
  obtain ⟨s, settled, holds⟩ := h.settles
  exact ⟨_, raise_eq_ok_iff.mpr ⟨s, _, settled, holds.raise_eq flagged fresh, rfl⟩,
    h.given settled holds fresh⟩

theorem Reading.Holds.short {letters : List Char} (h : r.Holds words choices)
    (lettered : these.map Choice.letter? = letters.map some)
    (fresh : (choices ++ these).Pairwise Choice.Bears) :
    ∃ r', r.short letters = .ok r' ∧ r'.Holds words (choices ++ these) := by
  -- The letters are raised one by one, each beside all choices before it.
  induction letters generalizing r choices these with
  | nil =>
    cases these with
    | nil => exact ⟨r, rfl, by simpa using h⟩
    | cons => cases lettered
  | cons letter letters ih =>
    cases these with
    | nil => cases lettered
    | cons choice these =>
      obtain ⟨named, lettered⟩ := List.cons.inj lettered
      obtain ⟨flag, flagged, known⟩ : ∃ flag, choice.switch = .flag flag ∧
          Switch.ofLetter? letter = some (.flag flag) := by
        cases choice <;> cases named
        · exact ⟨.table, rfl, rfl⟩
        · exact ⟨.verbose, rfl, rfl⟩
      obtain ⟨r', raised, holds⟩ := h.raise flagged fun b hb =>
        (List.pairwise_append.mp fresh).2.2 b hb choice List.mem_cons_self
      rw [List.append_cons] at fresh ⊢
      obtain ⟨r'', read, holds⟩ := ih holds lettered fresh
      refine ⟨r'', ?_, holds⟩
      simp only [Reading.short, known, raised, Except.bind, read]

theorem Reading.Holds.next_attached (h : r.Holds words choices) (name : String) {option : Valued}
    {value : List Char} (known : Switch.ofName? name.toList = some (.valued option))
    (unequal : '=' ∉ name.toList) (takes : choice.Takes option value) (within : choice.Within)
    (fresh : ∀ b ∈ choices, b.Bears choice) :
    ∃ r', r.next ('-' :: '-' :: (name.toList ++ '=' :: value)) = .ok r' ∧
      r'.Holds words (choices ++ [choice]) := by
  rw [Reading.next_long h.literal (by simp), Reading.long_attached known unequal]
  exact h.attach takes within fresh

theorem Reading.Holds.next_flag (h : r.Holds words choices) (name : String) {flag : Flag}
    (known : Switch.ofName? name.toList = some (.flag flag)) (named : name.toList ≠ [])
    (unequal : '=' ∉ name.toList) (flagged : choice.switch = .flag flag)
    (fresh : ∀ b ∈ choices, b.Bears choice) :
    ∃ r', r.next ('-' :: '-' :: name.toList) = .ok r' ∧
      r'.Holds words (choices ++ [choice]) := by
  rw [Reading.next_long h.literal named, Reading.long_flag known unequal]
  exact h.raise flagged fresh

/-- An argument that makes choices is accepted if none of them was met that bears no other. -/
theorem Reading.Holds.written {argument : String} (h : r.Holds words choices)
    (written : Written these argument) (within : ∀ choice ∈ these, choice.Within)
    (fresh : (choices ++ these).Pairwise Choice.Bears) :
    ∃ r', r.next argument.toList = .ok r' ∧ r'.Holds words (choices ++ these) := by
  have fresh_each := (List.pairwise_append.mp fresh).2.2
  have within_head {choice : Choice} (only : these = [choice]) : choice.Within :=
    within choice (only ▸ List.mem_cons_self)
  have fresh_head {choice : Choice} (only : these = [choice]) : ∀ b ∈ choices, b.Bears choice :=
    fun b hb => fresh_each b hb choice (only ▸ List.mem_cons_self)
  cases written with
  | @start letter =>
    rw [String.toList_append, String.toList_singleton]
    exact h.next_attached "start" rfl (by decide) .start trivial (fresh_head rfl)
  | @amount n text spells =>
    rw [String.toList_append]
    exact h.next_attached "generate" rfl (by decide) (.amount spells)
      (within_head rfl) (fresh_head rfl)
  | @depth n text spells =>
    rw [String.toList_append]
    exact h.next_attached "max-depth" rfl (by decide) (.depth spells)
      (within_head rfl) (fresh_head rfl)
  | table =>
    exact h.next_flag "table" rfl (by decide) (by decide) rfl (fresh_head rfl)
  | allowStart =>
    exact h.next_flag "allow-start-on-rhs" rfl (by decide) (by decide) rfl (fresh_head rfl)
  | verbose =>
    exact h.next_flag "verbose" rfl (by decide) (by decide) rfl (fresh_head rfl)
  | @letters _ letters nonempty lettered =>
    simp only [String.toList_append, String.toList_ofList]
    cases letters with
    | nil => exact absurd rfl nonempty
    | cons letter rest =>
      have single : letter ≠ '-' := by
        cases these with
        | nil => cases lettered
        | cons choice these =>
          have named := (List.cons.inj lettered).1
          rintro rfl
          cases choice <;> cases named
      change ∃ r', r.next ('-' :: letter :: rest) = .ok r' ∧ r'.Holds words (choices ++ these)
      rw [Reading.next_short h.literal single]
      exact h.short lettered fresh

theorem Draft.Holds.named (h : d.Holds [] choices) (file : String) :
    Draft.Holds { d with file := some file } [file] choices :=
  { h with file := rfl }

theorem Draft.Holds.worded {file : String} (h : d.Holds (file :: words) choices) (word : String) :
    Draft.Holds { d with words := d.words ++ [word.toList] } (file :: (words ++ [word])) choices :=
  { h with words := by simp [h.words] }

/-- An argument that is no option is the file or a word, whatever stands before it. -/
theorem Reading.Holds.place (h : r.Holds words choices) (plain : word.toList.head? ≠ some '-')
    (named : words = [] → word ≠ "") :
    ∃ r', r.next word.toList = .ok r' ∧ r'.Holds (words ++ [word]) choices := by
  -- No option waits, so none takes the word as its value.
  have placed : r.next word.toList = r.place word.toList := by
    rw [Reading.next_undashed h.literal plain]
    split
    · exact absurd (by assumption) (h.ready _)
    · rfl
  obtain ⟨s, settled, holds⟩ := h.settles
  rw [placed]
  cases words with
  | nil =>
    have filled : word.toList.isEmpty = false := by simpa using named rfl
    have literal := (Reading.settle_frame settled).2.2.trans h.literal
    refine ⟨_, Reading.place_file h.hasFile settled, literal, rfl, by simp,
      ⟨{ s.draft with file := some word }, .nothing, true, s.isLiteral⟩, ?_, holds.named word⟩
    simp only [Reading.settle, filled, Bool.false_eq_true, ↓reduceIte, String.ofList_toList]
  | cons file words =>
    obtain ⟨r', _, accepted, held, hasFile, literal, settled'⟩ :=
      Reading.place_word h.hasFile settled
    refine ⟨r', accepted, literal.trans h.literal, hasFile, ?_, _, settled', holds.worded word⟩
    simp [held]

/-! ## Command lines -/

theorem Interleaves.complete (inter : Interleaves more these arguments)
    (h : r.Holds words choices) (within : ∀ choice ∈ these, choice.Within)
    (fresh : (choices ++ these).Pairwise Choice.Bears)
    (named : (words ++ more).head? ≠ some "") :
    ∃ r' : Reading, r.complete arguments = r'.finish ∧
      r'.Holds (words ++ more) (choices ++ these) := by
  -- By induction on the interleaving, for every reading that holds what stands before.
  induction inter generalizing r words choices with
  | nil => exact ⟨r, rfl, by simpa using h⟩
  | @word word more these arguments plain _ ih =>
    have filled : words = [] → word ≠ "" := by
      rintro rfl rfl
      exact named rfl
    obtain ⟨r', next, holds⟩ := h.place plain filled
    rw [List.append_cons] at named ⊢
    obtain ⟨r'', rest, holds⟩ := ih holds within fresh named
    refine ⟨r'', ?_, holds⟩
    rw [Reading.complete_cons, next, ← rest]
    rfl
  | @option argument more these choices' arguments written _ ih =>
    rw [← List.append_assoc] at fresh ⊢
    obtain ⟨r', next, holds⟩ := h.written written
      (fun choice hc => within choice (List.mem_append_left _ hc)) (List.pairwise_append.mp fresh).1
    obtain ⟨r'', rest, holds⟩ := ih holds
      (fun choice hc => within choice (List.mem_append_right _ hc)) fresh named
    refine ⟨r'', ?_, holds⟩
    rw [Reading.complete_cons, next, ← rest]
    rfl

theorem Choice.Bears.symm {a b : Choice} (h : a.Bears b) : b.Bears a := by
  intro same
  have last := h same.symm
  subst last
  cases a <;> cases same
  rfl

theorem Chosen.single_nodup (chosen : Chosen) : (chosen.single.map Choice.switch).Nodup := by
  -- Each of the five parts has one switch at most, and the five switches differ.
  have start : ((chosen.start.toList.map Choice.start).map Choice.switch).Sublist
      [.valued .start] := by
    cases chosen.start <;> simp [Choice.switch]
  have table : ((if chosen.showsTable then [Choice.table] else []).map Choice.switch).Sublist
      [.flag .table] := by
    cases chosen.showsTable <;> simp [Choice.switch]
  have amount : ((chosen.amount.toList.map Choice.amount).map Choice.switch).Sublist
      [.valued .amount] := by
    cases chosen.amount <;> simp [Choice.switch]
  have depth : ((chosen.depth.toList.map Choice.depth).map Choice.switch).Sublist
      [.valued .depth] := by
    cases chosen.depth <;> simp [Choice.switch]
  have allowStart : ((if chosen.allowsStart then [Choice.allowStart] else []).map
      Choice.switch).Sublist [.flag .allowStart] := by
    cases chosen.allowsStart <;> simp [Choice.switch]
  have apart := (((start.append table).append amount).append depth).append allowStart
  simp only [← List.map_append] at apart
  exact List.Nodup.sublist apart (by decide)

/-- No two options of a command line are of one kind, except for the verbose flags. -/
theorem Chosen.bears (chosen : Chosen) : chosen.choices.Pairwise Choice.Bears := by
  refine List.pairwise_append.mpr ⟨?_, ?_, ?_⟩
  · exact (List.pairwise_map.mp chosen.single_nodup).imp fun differ same => absurd same differ
  · exact List.pairwise_replicate.mpr (Or.inr fun _ => rfl)
  · exact fun a _ b hb _ => List.eq_of_mem_replicate hb

theorem Chosen.count_verbose (chosen : Chosen) :
    chosen.choices.count .verbose = chosen.verbosity := by
  have silent : .verbose ∉ chosen.single := by simp [single]
  rw [choices, List.count_append, List.count_eq_zero_of_not_mem silent, List.count_replicate_self,
    Nat.zero_add]

theorem Draft.Holds.eq_chosen {chosen : Chosen} (h : d.Holds words choices)
    (order : choices.Perm chosen.choices) :
    d.start = chosen.start ∧ d.showsTable = chosen.showsTable ∧ d.amount = chosen.amount ∧
      d.depth = chosen.depth ∧ d.allowsStart = chosen.allowsStart ∧
      d.verbosity = min chosen.verbosity 255 := by
  refine ⟨?_, ?_, ?_, ?_, ?_, ?_⟩
  · apply Option.ext
    intro c
    rw [h.start, order.mem_iff]
    simp [Chosen.choices, Chosen.single]
  · rw [Bool.eq_iff_iff, h.showsTable, order.mem_iff]
    simp [Chosen.choices, Chosen.single]
  · apply Option.ext
    intro n
    rw [h.amount, order.mem_iff]
    simp [Chosen.choices, Chosen.single]
  · apply Option.ext
    intro n
    rw [h.depth, order.mem_iff]
    simp [Chosen.choices, Chosen.single]
  · rw [Bool.eq_iff_iff, h.allowsStart, order.mem_iff]
    simp [Chosen.choices, Chosen.single]
  · rw [h.verbosity, order.count_eq, chosen.count_verbose]

theorem Chosen.within {chosen : Chosen} (few : ∀ n, chosen.amount = some n → n ≤ largestAmount)
    (shallow : ∀ n, chosen.depth = some n → n ≤ largestDepth) :
    ∀ choice ∈ chosen.choices, choice.Within := by
  intro choice made
  cases choice with
  | amount n => exact few n (by simpa [Chosen.choices, Chosen.single] using made)
  | depth n => exact shallow n (by simpa [Chosen.choices, Chosen.single] using made)
  | start | table | allowStart | verbose => trivial

/-- Whatever stands between which words, and in whatever order, the same options and words are read
as the same settings. -/
theorem read_of_interleaves {file : String} {chosen : Chosen}
    (inter : Interleaves (file :: words) choices arguments) (order : choices.Perm chosen.choices)
    (named : file ≠ "") (few : ∀ n, chosen.amount = some n → n ≤ largestAmount)
    (shallow : ∀ n, chosen.depth = some n → n ≤ largestDepth) :
    read arguments = .ok
      { file := ⟨file⟩
        words := words.map String.toList
        start := chosen.start
        showsTable := chosen.showsTable
        amount := chosen.amount
        depth := chosen.depth.getD usualDepth
        guardsStart := !chosen.allowsStart
        verbosity := min chosen.verbosity 255 } := by
  have begun : ({} : Reading).Holds [] [] :=
    ⟨rfl, rfl, nofun, {}, rfl, ⟨rfl, rfl, by simp, by simp, by simp, by simp, by simp, rfl⟩⟩
  have within : ∀ choice ∈ choices, choice.Within := fun choice made =>
    Chosen.within few shallow choice (order.mem_iff.mp made)
  have apart : choices.Pairwise Choice.Bears :=
    (order.pairwise_iff Choice.Bears.symm).mpr chosen.bears
  obtain ⟨r, completed, holds⟩ := inter.complete begun within apart (by simpa using named)
  obtain ⟨s, settled, holds⟩ := holds.settles
  obtain ⟨start, showsTable, amount, depth, allowsStart, verbosity⟩ := holds.eq_chosen order
  refine completed.trans (Reading.finish_eq_ok_iff.mpr ⟨s, file, settled, holds.file, ?_⟩)
  rw [holds.words, start, showsTable, amount, depth, allowsStart, verbosity]
  rfl

end NormalForm.Arguments
