import NormalForm.Proofs.Load.Loadable
import NormalForm.Proofs.Load.Printed

/-! # Loading what was printed

The text of a grammar is loaded back as the grammar, except that the terminals come in the order in
which the text uses them. Nothing of the grammar may be missing from its text, and the guard of the
start symbol must hold, which it does for every grammar that was loaded. -/

namespace NormalForm

open Unicode
open Load

theorem Body.text_mem_iff (bodies : List Body) (body : Body) :
    body.text ∈ bodies.map Body.text ↔ body ∈ bodies := by
  constructor
  · intro h
    obtain ⟨other, ho, same⟩ := List.mem_map.mp h
    exact Grammar.text_injective same ▸ ho
  · exact List.mem_map_of_mem

/-- If no symbol has two rules, its alternatives are those of its rule. -/
theorem alternativesOf_of_nodup {rules : List Rule} (texts : Char → List (List Char))
    (nodup : (headsOf rules).Nodup) (each : ∀ rule ∈ rules, rule.alternatives = texts rule.head)
    (N : Char) : alternativesOf rules N = if N ∈ headsOf rules then texts N else [] := by
  induction rules with
  | nil => rfl
  | cons rule rest ih =>
    obtain ⟨new, nodup⟩ := List.nodup_cons.mp nodup
    obtain ⟨first, each⟩ := List.forall_mem_cons.mp each
    have ih := ih nodup each
    by_cases hN : rule.head = N
    · subst hN
      have new : rule.head ∉ headsOf rest := new
      rw [if_neg new] at ih
      have unshared : (rest.filter (·.head = rule.head)).flatMap Rule.alternatives = [] := ih
      simp [alternativesOf, headsOf, first, unshared]
    · have other : N ∈ headsOf (rule :: rest) ↔ N ∈ headsOf rest := by
        simp [headsOf, Ne.symm hN]
      simp only [other, ← ih, alternativesOf, List.filter_cons, hN, decide_false,
        Bool.false_eq_true, if_false]

namespace Grammar

variable {guardsStart : Bool} {g : Grammar}

theorem headsOf_rules (g : Grammar) : headsOf g.rules = g.nonterminals := by
  calc
    headsOf g.rules = (g.nonterminals.zipIdx 1).map Prod.fst := by
      rw [headsOf, rules, List.map_map]
      rfl
    _ = g.nonterminals := List.zipIdx_map_fst 1 _

theorem of_mem_rules {rule : Rule} (h : rule ∈ g.rules) :
    rule.head ∈ g.nonterminals ∧ rule.alternatives = (g.bodies rule.head).map Body.text := by
  obtain ⟨⟨A, number⟩, hA, rfl⟩ := List.mem_map.mp h
  exact ⟨List.fst_mem_of_mem_zipIdx hA, rfl⟩

theorem exists_rule {A : Char} (hA : A ∈ g.nonterminals) : ∃ rule ∈ g.rules, rule.head = A := by
  rw [← headsOf_rules] at hA
  exact List.mem_map.mp hA

theorem WellFormed.alternativesOf_rules (wf : WellFormed guardsStart g) (N : Char) :
    alternativesOf g.rules N = (g.bodies N).map Body.text := by
  have nodup : (headsOf g.rules).Nodup := by
    rw [headsOf_rules]
    exact wf.nonterminals_nodup
  rw [alternativesOf_of_nodup (fun A => (g.bodies A).map Body.text) nodup
    fun rule hr => (of_mem_rules hr).2]
  split
  · rfl
  · rename_i unknown
    rw [headsOf_rules] at unknown
    have bare : g.bodies N = [] := by
      apply List.eq_nil_iff_forall_not_mem.mpr
      intro body hb
      exact unknown (wf.mem_of_body hb)
    rw [bare, List.map_nil]

/-- The text of the grammar holds all of it, and the guard of its start symbol is kept. -/
structure Printable (g : Grammar) : Prop where
  productive : ∀ A ∈ g.nonterminals, g.bodies A ≠ []
  used : ∀ a ∈ g.terminals, ∃ A, .terminal a ∈ g.bodies A
  started : g.start ≠ none ∨ g = empty g.guardsStart
  /-- A pair that is older than the start symbol need not be as the guard asks. -/
  guarded : g.guardsStart = true → ∀ S, g.start = some S →
    ∀ A, A ≠ S → ∀ B C, .pair B C ∈ g.bodies A → B ≠ S ∧ C ≠ S

/-- How a grammar is to be loaded from its own text. -/
def ownMode (g : Grammar) : LoadMode := ⟨g.start, g.guardsStart⟩

/-- The grammar with its terminals in the order in which its text uses them. -/
def reordered (g : Grammar) : Grammar := { g with terminals := lettersOf g.rules }

/-- The first rule never has to give the start symbol. -/
theorem Printable.chosenStart_eq (printable : g.Printable) :
    chosenStart g.ownMode g.rules = g.start := by
  rcases printable.started with started | fresh
  · cases hs : g.start with
    | none => exact absurd hs started
    | some S => simp [chosenStart, ownMode, hs]
  · rw [fresh]
    rfl

theorem WellFormed.loadable_rules (wf : WellFormed guardsStart g) (printable : g.Printable) :
    Loadable g.ownMode g.rules where
  defined rule hr B C hp := by
    obtain ⟨_, alternatives⟩ := of_mem_rules hr
    rw [alternatives] at hp
    rw [headsOf_rules]
    exact wf.pair_known rule.head B C ((Body.text_mem_iff _ (.pair B C)).mp hp)
  upper rule hr := wf.nonterminals_upper rule.head (of_mem_rules hr).1
  start S hS := by
    rw [headsOf_rules]
    exact wf.start_known S hS
  normal rule hr text ht := by
    rw [(of_mem_rules hr).2] at ht
    obtain ⟨body, hb, rfl⟩ := List.mem_map.mp ht
    cases body with
    | terminal a => exact Or.inl ⟨a, rfl, wf.terminals_lower a (wf.letter_known rule.head a hb)⟩
    | pair B C => exact Or.inr ⟨B, C, rfl⟩
  distinct N := by
    rw [wf.alternativesOf_rules]
    exact wf.texts_nodup N
  guarded guards S hS rule hr apart B C hp := by
    rw [printable.chosenStart_eq] at hS
    rw [(of_mem_rules hr).2] at hp
    exact printable.guarded guards S hS rule.head apart B C
      ((Body.text_mem_iff _ (.pair B C)).mp hp)

theorem WellFormed.describes_rules (wf : WellFormed guardsStart g) (printable : g.Printable) :
    Describes g.ownMode g.rules g.reordered where
  nonterminals := by
    rw [headsOf_rules, eraseDups_of_nodup wf.nonterminals_nodup]
    rfl
  terminals := rfl
  keys := wf.keys
  texts N := (wf.alternativesOf_rules N).symm
  start := (printable.chosenStart_eq).symm
  guard := rfl

/-- Every terminal is in the text, and no other letter is. -/
theorem WellFormed.reordered_perm (wf : WellFormed guardsStart g) (printable : g.Printable) :
    g.reordered.terminals.Perm g.terminals := by
  apply (List.perm_ext_iff_of_nodup (nodup_eraseDups _) wf.terminals_nodup).mpr
  intro a
  refine mem_lettersOf.trans ⟨?_, ?_⟩
  · rintro ⟨rule, hr, ha⟩
    rw [(of_mem_rules hr).2] at ha
    exact wf.letter_known rule.head a ((Body.text_mem_iff _ (.terminal a)).mp ha)
  · intro ha
    obtain ⟨A, hA⟩ := printable.used a ha
    obtain ⟨rule, hr, rfl⟩ := exists_rule (wf.mem_of_body hA)
    refine ⟨rule, hr, ?_⟩
    rw [(of_mem_rules hr).2]
    exact (Body.text_mem_iff _ (.terminal a)).mpr hA

theorem WellFormed.loads_text (wf : WellFormed guardsStart g) (printable : g.Printable)
    (file : Path) : ofText file g.ownMode g.text = .ok g.reordered := by
  have spells := wf.spells_rules printable.productive
  have loadable := wf.loadable_rules printable
  have describes := wf.describes_rules printable
  exact ofText_eq_ok_iff.mpr ⟨g.rules, spells, assemble_of_loadable loadable describes⟩

theorem printable_of_loadable {mode : LoadMode} {rules : List Rule}
    (filled : ∀ rule ∈ rules, rule.alternatives ≠ []) (loadable : Loadable mode rules)
    (describes : Describes mode rules g) : g.Printable := by
  have body {A : Char} {text : List Char} (h : text ∈ alternativesOf rules A) :
      ∃ body ∈ g.bodies A, body.text = text :=
    List.mem_map.mp (describes.texts A ▸ h)
  constructor
  · intro A hA
    rw [describes.nonterminals, List.mem_eraseDups] at hA
    obtain ⟨rule, hr, rfl⟩ := List.mem_map.mp hA
    obtain ⟨text, ht⟩ := List.exists_mem_of_ne_nil _ (filled rule hr)
    obtain ⟨b, hb, _⟩ := body (mem_alternativesOf.mpr ⟨rule, hr, rfl, ht⟩)
    exact List.ne_nil_of_mem hb
  · intro a ha
    rw [describes.terminals] at ha
    obtain ⟨rule, hr, ha⟩ := mem_lettersOf.mp ha
    obtain ⟨b, hb, same⟩ := body (mem_alternativesOf.mpr ⟨rule, hr, rfl, ha⟩)
    have letter : b = .terminal a := text_injective same
    exact ⟨rule.head, letter ▸ hb⟩
  · cases rules with
    | nil =>
      cases hm : mode.start with
      | some S => exact absurd (loadable.start S hm) List.not_mem_nil
      | none =>
        right
        have blank : Describes mode [] (empty g.guardsStart) :=
          ⟨rfl, rfl, rfl, fun _ => rfl, by simp [chosenStart, hm, empty], describes.guard⟩
        exact blank.unique describes
    | cons rule rest =>
      left
      rw [describes.start]
      cases hm : mode.start <;> simp [chosenStart, hm]
  · exact describes.guarded loadable

theorem printable_of_ofText {file : Path} {mode : LoadMode} {text : List Char}
    (h : ofText file mode text = .ok g) : g.Printable := by
  obtain ⟨rules, spells, h⟩ := ofText_eq_ok_iff.mp h
  obtain ⟨loadable, describes⟩ := assemble_sound h
  exact printable_of_loadable (fun rule hr => (spells.filled rule hr).1) loadable describes

/-- **What was printed loads back.** The text of a printable grammar, and every loaded grammar is
one, loads to the grammar itself but for the order of the terminals, and from then on to exactly
the same grammar. -/
theorem text_loads_back
    (source : (∃ guardsStart, Reachable guardsStart g) ∧ g.Printable ∨
      ∃ file mode text, ofText file mode text = .ok g) (file : Path) :
    ∃ g', ofText file g.ownMode g.text = .ok g' ∧ g'.nonterminals = g.nonterminals ∧
      g'.productions = g.productions ∧ g'.start = g.start ∧ g'.guardsStart = g.guardsStart ∧
      g'.terminals.Perm g.terminals ∧ g'.text = g.text ∧
      ∀ file', ofText file' g'.ownMode g'.text = .ok g' := by
  have known : ∃ guardsStart, WellFormed guardsStart g ∧ g.Printable := by
    rcases source with ⟨⟨guardsStart, reach⟩, printable⟩ | ⟨_, mode, _, h⟩
    · exact ⟨guardsStart, reach.wellFormed, printable⟩
    · exact ⟨mode.guardsStart, (reachable_of_ofText h).wellFormed, printable_of_ofText h⟩
  obtain ⟨guardsStart, wf, printable⟩ := known
  have loads := wf.loads_text printable
  exact ⟨g.reordered, loads file, rfl, rfl, rfl, rfl, wf.reordered_perm printable, rfl, loads⟩

/-- A grammar that registers its terminals in another order than it uses them. -/
def latecomer : List Edit :=
  [ .terminal 'b', .terminal 'a', .nonterminal 'S', .production 'S' ['a'],
    .production 'S' ['S', 'S'], .production 'S' ['b'], .start 'S' ]

theorem text_loads_back_latecomer :
    let g := (empty true).afterAll latecomer
    g.terminals = ['b', 'a'] ∧ g.Printable ∧ ∀ file, ∃ g', ofText file g.ownMode g.text = .ok g' ∧
      g'.terminals = ['a', 'b'] ∧ g'.text = g.text ∧
      ∀ file', ofText file' g'.ownMode g'.text = .ok g' := by
  have reach : Reachable true ((empty true).afterAll latecomer) := ⟨latecomer, rfl⟩
  have printable : ((empty true).afterAll latecomer).Printable := by
    constructor
    · intro A hA
      have only : A = 'S' := List.mem_singleton.mp hA
      rw [only]
      decide
    · intro a ha
      have letters : a ∈ ['b', 'a'] := ha
      rcases List.mem_cons.mp letters with rfl | letters
      · exact ⟨'S', by decide⟩
      · rw [List.mem_singleton.mp letters]
        exact ⟨'S', by decide⟩
    · exact Or.inl (by decide)
    · intro _ S hS A apart B C hp
      have hA := reach.wellFormed.mem_of_body hp
      cases hS
      exact absurd (List.mem_singleton.mp hA) apart
  refine ⟨rfl, printable, fun file => ?_⟩
  obtain ⟨g', loaded, _, _, _, _, _, same, again⟩ :=
    text_loads_back (Or.inl ⟨⟨true, reach⟩, printable⟩) file
  refine ⟨g', loaded, ?_, same, again⟩
  cases loaded
  rfl

end Grammar

end NormalForm
