import NormalForm.Proofs.Load.Faults
import NormalForm.Proofs.Table.Inclusion

namespace NormalForm.Load

open Grammar (Reachable)

variable {start : Option Char} {rules : List Rule} {g : Grammar} {S : Char}

/-- The alternative is a pair of another nonterminal, and holds the start symbol. -/
def Alternative.Misuses (S : Char) (alternative : Alternative) : Prop :=
  alternative.head ≠ S ∧ alternative.text.length = 2 ∧ S ∈ alternative.text

instance (S : Char) : DecidablePred (Alternative.Misuses S) := fun _ =>
  inferInstanceAs (Decidable (_ ∧ _ ∧ _))

/-- Each alternative that misuses the start symbol, at the line of its rule. -/
def misuseFaults (S : Char) (rules : List Rule) : List Fault :=
  ((alternatives rules).filter (Alternative.Misuses S)).map fun alternative =>
    ⟨some alternative.line, .refused (.misplacedStart S)⟩

theorem flaw_guarded (chosen : chosenStart ⟨start, false⟩ rules = some S)
    (alternative : Alternative) :
    flaw? ⟨start, true⟩ rules alternative.head alternative.text =
      if alternative.Misuses S then some (.misplacedStart S)
      else flaw? ⟨start, false⟩ rules alternative.head alternative.text := by
  obtain ⟨line, head, text⟩ := alternative
  have chosen' : chosenStart ⟨start, true⟩ rules = some S := chosen
  rcases text with _ | ⟨B, _ | ⟨C, _ | ⟨D, rest⟩⟩⟩
  · simp [flaw?, Alternative.Misuses]
  · simp [flaw?, Alternative.Misuses]
  · simp [flaw?, chosen, chosen', Alternative.Misuses, eq_comm (a := S)]
  · simp [flaw?, Alternative.Misuses]

/-- A misuse comes before any other offence, and the guard adds no other. -/
theorem offence_guarded (chosen : chosenStart ⟨start, false⟩ rules = some S)
    (earlier : List Alternative) (alternative : Alternative) :
    offence? ⟨start, true⟩ rules earlier alternative =
      if alternative.Misuses S then some (.misplacedStart S)
      else offence? ⟨start, false⟩ rules earlier alternative := by
  rw [offence?, flaw_guarded chosen]
  split
  · rfl
  · rfl

theorem filterMap_ite {α β : Type} (p : α → Prop) [DecidablePred p] (f : α → β) (l : List α) :
    (l.filterMap fun a => if p a then some (f a) else none) = (l.filter p).map f := by
  induction l with
  | nil => rfl
  | cons a l ih =>
    by_cases h : p a
    · simp [h, ih]
    · simp [h, ih]

theorem productionFaults_guarded (chosen : chosenStart ⟨start, false⟩ rules = some S)
    (clean : productionFaults ⟨start, false⟩ rules = []) :
    productionFaults ⟨start, true⟩ rules = misuseFaults S rules := by
  have unrefused := List.filterMap_eq_nil_iff.mp clean
  calc
    productionFaults ⟨start, true⟩ rules
      = (alternatives rules).zipIdx.filterMap fun entry =>
          if entry.1.Misuses S then
            some ⟨some entry.1.line, .refused (.misplacedStart S)⟩
          else none := by
        apply List.filterMap_congr
        rintro ⟨alternative, i⟩ hn
        have quiet : offence? ⟨start, false⟩ rules ((alternatives rules).take i) alternative =
            none := Option.map_eq_none_iff.mp (unrefused _ hn)
        dsimp only
        rw [offence_guarded chosen, quiet]
        split <;> rfl
    _ = (alternatives rules).filterMap fun alternative =>
          if alternative.Misuses S then
            some ⟨some alternative.line, .refused (.misplacedStart S)⟩
          else none := by
        conv => rhs; rw [← List.zipIdx_map_fst 0 (alternatives rules), List.filterMap_map]
        rfl
    _ = misuseFaults S rules := filterMap_ite ..

/-- Without a start symbol there are no rules. -/
theorem rules_of_no_start {mode : LoadMode} (unset : chosenStart mode rules = none) :
    rules = [] := by
  cases rules with
  | nil => rfl
  | cons rule rest => cases hs : mode.start <;> simp [chosenStart, hs] at unset

/-- Rules are assembled if no stage finds anything. -/
theorem assembles_iff {mode : LoadMode} (filled : ∀ rule ∈ rules, [] ∉ rule.alternatives) :
    (∃ g, assemble mode rules = .ok g) ↔ undefinedFaults rules = [] ∧ caseFaults rules = [] ∧
      startFaults mode rules = [] ∧ productionFaults mode rules = [] := by
  constructor
  · rintro ⟨g, h⟩
    have never (faults : List Fault) : assemble mode rules ≠ .error faults := by simp [h]
    simp only [ne_eq, assemble_eq_error_iff filled] at never
    have undefined : undefinedFaults rules = [] := by
      by_contra faulty
      exact never _ ⟨faulty, Or.inl rfl⟩
    have upper : caseFaults rules = [] := by
      by_contra faulty
      exact never _ ⟨faulty, Or.inr ⟨undefined, Or.inl rfl⟩⟩
    have known : startFaults mode rules = [] := by
      by_contra faulty
      exact never _ ⟨faulty, Or.inr ⟨undefined, Or.inr ⟨upper, Or.inl rfl⟩⟩⟩
    have clean : productionFaults mode rules = [] := by
      by_contra faulty
      exact never _ ⟨faulty, Or.inr ⟨undefined, Or.inr ⟨upper, Or.inr ⟨known, rfl⟩⟩⟩⟩
    exact ⟨undefined, upper, known, clean⟩
  · rintro ⟨undefined, upper, known, clean⟩
    cases h : assemble mode rules with
    | ok g => exact ⟨g, rfl⟩
    | error faults =>
      obtain ⟨faulty, rfl | ⟨_, rfl | ⟨_, rfl | ⟨_, rfl⟩⟩⟩⟩ := (assemble_eq_error_iff filled).mp h
      · exact absurd undefined faulty
      · exact absurd upper faulty
      · exact absurd known faulty
      · exact absurd clean faulty

theorem Describes.reguard {before after : Bool} (h : Describes ⟨start, before⟩ rules g) :
    Describes ⟨start, after⟩ rules { g with guardsStart := after } :=
  ⟨h.nonterminals, h.terminals, h.keys, h.texts, h.start, rfl⟩

theorem assemble_unguarded (h : assemble ⟨start, true⟩ rules = .ok g) :
    assemble ⟨start, false⟩ rules = .ok { g with guardsStart := false } := by
  obtain ⟨loadable, describes⟩ := assemble_sound h
  exact assemble_of_loadable ⟨loadable.defined, loadable.upper, loadable.start, loadable.normal,
    loadable.distinct, nofun⟩ describes.reguard

theorem assemble_guarded (filled : ∀ rule ∈ rules, [] ∉ rule.alternatives)
    (h : assemble ⟨start, false⟩ rules = .ok g) :
    (∀ S, g.start = some S → misuseFaults S rules = []) ∧
      assemble ⟨start, true⟩ rules = .ok { g with guardsStart := true } ∨
    ∃ S, g.start = some S ∧ misuseFaults S rules ≠ [] ∧
      assemble ⟨start, true⟩ rules = .error (misuseFaults S rules) := by
  have describes := (assemble_sound h).2
  obtain ⟨undefined, upper, known, clean⟩ := (assembles_iff filled).mp ⟨g, h⟩
  -- The first three stages do not look at the guard.
  have known' : startFaults ⟨start, true⟩ rules = [] := known
  have assembled (clean' : productionFaults ⟨start, true⟩ rules = []) :
      assemble ⟨start, true⟩ rules = .ok { g with guardsStart := true } := by
    obtain ⟨g', h'⟩ := (assembles_iff filled).mpr ⟨undefined, upper, known', clean'⟩
    rw [h', describes.reguard.unique (assemble_sound h').2]
  rcases Option.eq_none_or_eq_some g.start with unset | ⟨S, chosen⟩
  · have empty : rules = [] := rules_of_no_start (describes.start.symm.trans unset)
    refine Or.inl ⟨fun S set => ?_, assembled (by rw [empty]; rfl)⟩
    cases unset.symm.trans set
  · have reported := productionFaults_guarded (describes.start.symm.trans chosen) clean
    by_cases misused : misuseFaults S rules = []
    · refine Or.inl ⟨fun T set => ?_, assembled (reported.trans misused)⟩
      cases chosen.symm.trans set
      exact misused
    · refine Or.inr ⟨S, chosen, misused, (assemble_eq_error_iff filled).mpr ⟨misused, ?_⟩⟩
      exact Or.inr ⟨undefined, Or.inr ⟨upper, Or.inr ⟨known', reported⟩⟩⟩

/-- **The guard of the start symbol only filters.** What loads with the guard loads without it, to
the same grammar but for the guard, which gives every word the same answers. What loads without the
guard loads to the same grammar with it, unless pairs of other nonterminals hold the start symbol:
then these are reported, each once and in the order of the file, and nothing else is. -/
theorem guard_only_filters (file : Path) (start : Option Char) (text : List Char) :
    (∀ g, ofText file ⟨start, true⟩ text = .ok g →
      ∃ g', ofText file ⟨start, false⟩ text = .ok g' ∧ g' = { g with guardsStart := false } ∧
        ∀ word, g'.table word = g.table word ∧ g'.recognizes word = g.recognizes word ∧
          g'.tableText word = g.tableText word) ∧
    (∀ g, ofText file ⟨start, false⟩ text = .ok g → ∃ rules, Spells text rules ∧
      ((∀ S, g.start = some S → misuseFaults S rules = []) ∧
        ofText file ⟨start, true⟩ text = .ok { g with guardsStart := true } ∨
      ∃ S, g.start = some S ∧ misuseFaults S rules ≠ [] ∧
        ofText file ⟨start, true⟩ text = .error ((misuseFaults S rules).map (⟨·, file⟩)))) := by
  constructor
  · intro g h
    obtain ⟨rules, spells, assembled⟩ := ofText_eq_ok_iff.mp h
    have h' : ofText file ⟨start, false⟩ text = .ok { g with guardsStart := false } :=
      ofText_eq_ok_iff.mpr ⟨rules, spells, assemble_unguarded assembled⟩
    refine ⟨_, h', rfl, fun word => Grammar.answers_of_table rfl ?_⟩
    exact Grammar.table_eq (reachable_of_ofText h').wellFormed (reachable_of_ofText h).wellFormed
      rfl (fun _ => Iff.rfl) (fun _ _ => Iff.rfl) word
  · intro g h
    obtain ⟨rules, spells, assembled⟩ := ofText_eq_ok_iff.mp h
    refine ⟨rules, spells, ?_⟩
    rcases assemble_guarded (fun rule hr => (spells.filled rule hr).2) assembled with
      ⟨unused, same⟩ | ⟨S, chosen, misused, reported⟩
    · exact Or.inl ⟨unused, ofText_eq_ok_iff.mpr ⟨rules, spells, same⟩⟩
    · refine Or.inr ⟨S, chosen, misused, ?_⟩
      rw [ofText, inFile_eq_error_iff, ofLines_of_spells spells]
      exact ⟨_, reported, rfl⟩

/-- A text in which other nonterminals hold the start symbol, twice on one line. -/
def misusing : List Char := "S ::= SS | AB\nA ::= SA | a | BS\n\nB ::= b\nB ::= SS".toList

theorem guard_only_filters_misusing :
    (∃ g, ofText ⟨"g"⟩ ⟨some 'S', true⟩ "S ::= SS | a".toList = .ok g ∧
      ofText ⟨"g"⟩ ⟨some 'S', false⟩ "S ::= SS | a".toList = .ok { g with guardsStart := false }) ∧
    (∃ g rules, ofText ⟨"g"⟩ ⟨none, false⟩ misusing = .ok g ∧ Spells misusing rules ∧
      g.start = some 'S' ∧ ofText ⟨"g"⟩ ⟨none, true⟩ misusing =
        .error ((misuseFaults 'S' rules).map (⟨·, ⟨"g"⟩⟩))) ∧
    ofText ⟨"g"⟩ ⟨none, true⟩ misusing =
      .error ([2, 2, 5].map fun line => ⟨⟨some line, .refused (.misplacedStart 'S')⟩, ⟨"g"⟩⟩) := by
  have reported : ofText ⟨"g"⟩ ⟨none, true⟩ misusing = .error
      ([2, 2, 5].map fun line => ⟨⟨some line, .refused (.misplacedStart 'S')⟩, ⟨"g"⟩⟩) := by
    decide +kernel
  refine ⟨?_, ?_, reported⟩
  · obtain ⟨g, loaded⟩ : ∃ g, ofText ⟨"g"⟩ ⟨some 'S', true⟩ "S ::= SS | a".toList = .ok g :=
      ⟨_, rfl⟩
    obtain ⟨_, without, rfl, _⟩ := (guard_only_filters ⟨"g"⟩ (some 'S') _).1 g loaded
    exact ⟨g, loaded, without⟩
  · obtain ⟨g, loaded, chosen⟩ :
        ∃ g, ofText ⟨"g"⟩ ⟨none, false⟩ misusing = .ok g ∧ g.start = some 'S' := ⟨_, rfl, rfl⟩
    obtain ⟨rules, spells, ⟨_, clean⟩ | ⟨S, chosen', _, found⟩⟩ :=
      (guard_only_filters ⟨"g"⟩ none misusing).2 g loaded
    · cases clean.symm.trans reported
    · cases chosen.symm.trans chosen'
      exact ⟨g, rules, loaded, spells, chosen, found⟩

end NormalForm.Load
