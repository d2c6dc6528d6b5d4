import Mathlib.Data.List.Basic
import NormalForm.Proofs.Load.Grant

/-! # Which texts load, and to what

The conditions on rules under which a text loads, and the grammar that it then loads to, both said
without the stages of loading. Symbols are registered before they are used, so it does not matter
where in the text a symbol is defined. -/

namespace NormalForm.Load

open Unicode
open Grammar (Run Step Reachable WellFormed)

/-! ## What rules describe -/

def headsOf (rules : List Rule) : List Char := rules.map Rule.head

/-- The alternatives of all rules of a nonterminal, in order. -/
def alternativesOf (rules : List Rule) (N : Char) : List (List Char) :=
  (rules.filter (·.head = N)).flatMap Rule.alternatives

/-- The letter of an alternative with one symbol. -/
def single? : List Char → Option Char
  | [a] => some a
  | _ => none

/-- The letters that are alternatives by themselves, each at its first appearance. -/
def lettersOf (rules : List Rule) : List Char :=
  ((rules.flatMap Rule.alternatives).filterMap single?).eraseDups

/-- The start symbol that is asked for, or else the head of the first rule. -/
def chosenStart (mode : LoadMode) (rules : List Rule) : Option Char :=
  mode.start.or (rules.head?.map Rule.head)

/-- Both symbols of every pair have a rule. -/
def Defined (rules : List Rule) : Prop :=
  ∀ rule ∈ rules, ∀ B C, [B, C] ∈ rule.alternatives → B ∈ headsOf rules ∧ C ∈ headsOf rules

/-- An alternative is one lowercase character or a pair. -/
def Normal (text : List Char) : Prop :=
  (∃ a, text = [a] ∧ isLowercase a = true) ∨ ∃ B C, text = [B, C]

/-- The rules make a grammar. -/
structure Loadable (mode : LoadMode) (rules : List Rule) : Prop where
  defined : Defined rules
  upper : ∀ rule ∈ rules, isUppercase rule.head = true
  start : ∀ S, mode.start = some S → S ∈ headsOf rules
  normal : ∀ rule ∈ rules, ∀ text ∈ rule.alternatives, Normal text
  /-- No nonterminal has an alternative twice, over all its rules together. -/
  distinct : ∀ N, (alternativesOf rules N).Nodup
  /-- A guarded start symbol stands in pairs of its own rules only. -/
  guarded : mode.guardsStart = true → ∀ S, chosenStart mode rules = some S →
    ∀ rule ∈ rules, rule.head ≠ S → ∀ B C, [B, C] ∈ rule.alternatives → B ≠ S ∧ C ≠ S

/-- The grammar that rules describe. -/
structure Describes (mode : LoadMode) (rules : List Rule) (g : Grammar) : Prop where
  nonterminals : g.nonterminals = (headsOf rules).eraseDups
  terminals : g.terminals = lettersOf rules
  keys : g.productions.map Prod.fst = g.nonterminals
  texts : ∀ N, (g.bodies N).map Body.text = alternativesOf rules N
  start : g.start = chosenStart mode rules
  guard : g.guardsStart = mode.guardsStart

theorem nodup_eraseDups (l : List Char) : l.eraseDups.Nodup := by
  cases l with
  | nil => simp
  | cons a rest =>
    rw [List.eraseDups_cons]
    apply List.nodup_cons.mpr
    constructor
    · simp [List.mem_eraseDups]
    · exact nodup_eraseDups (rest.filter fun b => !b == a)
termination_by l.length
decreasing_by exact Nat.lt_succ_of_le (List.length_filter_le _ _)

theorem eraseDups_of_nodup {l : List Char} (h : l.Nodup) : l.eraseDups = l := by
  induction l with
  | nil => rfl
  | cons a rest ih =>
    obtain ⟨new, h⟩ := List.nodup_cons.mp h
    have others : (rest.filter fun b => !b == a) = rest := by
      apply List.filter_eq_self.mpr
      intro b hb
      have differ : b ≠ a := fun same => new (same ▸ hb)
      simp [differ]
    rw [List.eraseDups_cons, others, ih h]

theorem eraseDups_filter (p : Char → Bool) (l : List Char) :
    (l.filter p).eraseDups = l.eraseDups.filter p := by
  cases l with
  | nil => simp
  | cons a rest =>
    have shorter := eraseDups_filter p (rest.filter fun b => !b == a)
    rw [List.filter_filter] at shorter
    by_cases ha : p a = true
    · rw [List.filter_cons_of_pos ha, List.eraseDups_cons, List.eraseDups_cons,
        List.filter_cons_of_pos ha, List.filter_filter, ← shorter]
      simp only [Bool.and_comm]
    · rw [List.filter_cons_of_neg ha, List.eraseDups_cons, List.filter_cons_of_neg ha, ← shorter]
      congr 1
      apply List.filter_congr
      intro b _
      by_cases hb : b = a
      · simp [hb, ha]
      · simp [hb]
termination_by l.length
decreasing_by exact Nat.lt_succ_of_le (List.length_filter_le _ _)

/-- Keeping the first element for each key keeps the first occurrence of each key. -/
theorem firstBy_map {α : Type} (key : α → Char) (l : List α) :
    (firstBy key l).map key = (l.map key).eraseDups := by
  induction l with
  | nil => rfl
  | cons a rest ih =>
    have kept : ((firstBy key rest).filter (key · != key a)).map key =
        ((firstBy key rest).map key).filter (· != key a) := by
      rw [List.filter_map]
      rfl
    rw [firstBy, List.map_cons, List.map_cons, List.eraseDups_cons, kept, ih, ← eraseDups_filter]
    rfl

variable {mode : LoadMode} {rules : List Rule} {g g' : Grammar}

theorem mem_lettersOf {a : Char} :
    a ∈ lettersOf rules ↔ ∃ rule ∈ rules, [a] ∈ rule.alternatives := by
  have alone (text : List Char) : single? text = some a ↔ text = [a] := by
    unfold single?
    split
    · simp
    · rename_i other
      simp only [reduceCtorEq, false_iff]
      intro same
      exact other a same
  simp only [lettersOf, List.mem_eraseDups, List.mem_filterMap, List.mem_flatMap, alone]
  constructor
  · rintro ⟨_, ⟨rule, hr, ha⟩, rfl⟩
    exact ⟨rule, hr, ha⟩
  · rintro ⟨rule, hr, ha⟩
    exact ⟨[a], ⟨rule, hr, ha⟩, rfl⟩

theorem mem_alternativesOf {N : Char} {text : List Char} :
    text ∈ alternativesOf rules N ↔ ∃ rule ∈ rules, rule.head = N ∧ text ∈ rule.alternatives := by
  simp only [alternativesOf, List.mem_flatMap, List.mem_filter, decide_eq_true_eq, and_assoc]

/-! ## Registering the symbols -/

/-- The terminals that rules register. -/
def newLetters (rules : List Rule) : List Char :=
  ((rules.flatMap Rule.alternatives).filterMap newTerminal?).eraseDups

/-- The grammar with all symbols of the rules and nothing else. -/
def registered (mode : LoadMode) (rules : List Rule) : Grammar where
  nonterminals := (headsOf rules).eraseDups
  terminals := newLetters rules
  productions := (headsOf rules).eraseDups.map (·, [])
  start := none
  guardsStart := mode.guardsStart

theorem newTerminal_eq_some_iff {text : List Char} {a : Char} :
    newTerminal? text = some a ↔ text = [a] ∧ isLowercase a = true := by
  unfold newTerminal?
  split
  · rename_i c
    split
    · rename_i lower
      simp only [Option.some.injEq, List.cons.injEq, and_true]
      constructor
      · rintro rfl; exact ⟨rfl, lower⟩
      · exact And.left
    · rename_i lower
      simp only [reduceCtorEq, List.cons.injEq, and_true, false_iff, not_and]
      rintro rfl
      exact lower
  · rename_i other
    simp only [reduceCtorEq, false_iff, not_and]
    intro single
    exact absurd single (other a)

theorem mem_newLetters {a : Char} :
    a ∈ newLetters rules ↔ (∃ rule ∈ rules, [a] ∈ rule.alternatives) ∧ isLowercase a = true := by
  simp only [newLetters, List.mem_eraseDups, List.mem_filterMap, List.mem_flatMap,
    newTerminal_eq_some_iff]
  constructor
  · rintro ⟨_, ⟨rule, hr, ha⟩, rfl, lower⟩
    exact ⟨⟨rule, hr, ha⟩, lower⟩
  · rintro ⟨⟨rule, hr, ha⟩, lower⟩
    exact ⟨[a], ⟨rule, hr, ha⟩, rfl, lower⟩

theorem letterRequests_edits (rules : List Rule) :
    ((firstBy Prod.snd (rules.flatMap newTerminals)).map fun (line, c) =>
      (⟨some line, .terminal c⟩ : Request)).map Request.edit =
        (newLetters rules).map .terminal := by
  have letters : (rules.flatMap newTerminals).map Prod.snd =
      (rules.flatMap Rule.alternatives).filterMap newTerminal? := by
    simp only [List.map_flatMap, List.filterMap_flatMap, newTerminals, List.map_map,
      Function.comp_def, List.map_id']
  rw [newLetters, ← letters, ← firstBy_map, List.map_map, List.map_map]
  rfl

theorem symbolRequests_edits (rules : List Rule) :
    (symbolRequests rules).map Request.edit =
      (headsOf rules).eraseDups.map .nonterminal ++ (newLetters rules).map .terminal := by
  rw [symbolRequests, List.map_append, letterRequests_edits, headsOf, ← firstBy_map, List.map_map,
    List.map_map]
  rfl

theorem run_symbols : Run (.empty mode.guardsStart) ((symbolRequests rules).map Request.edit) g ↔
    (∀ rule ∈ rules, isUppercase rule.head = true) ∧ g = registered mode rules := by
  have heads : (∀ A ∈ (headsOf rules).eraseDups, isUppercase A = true) ↔
      ∀ rule ∈ rules, isUppercase rule.head = true := by
    simp [headsOf, List.mem_eraseDups]
  have lowers : ∀ a ∈ newLetters rules, isLowercase a = true := fun a ha => (mem_newLetters.mp ha).2
  have fresh (l : List Char) : Grammar.Fresh [] l.eraseDups := ⟨nodup_eraseDups l, by simp⟩
  rw [symbolRequests_edits, Grammar.run_append]
  constructor
  · rintro ⟨m, first, second⟩
    obtain ⟨uppers, _, rfl⟩ := Grammar.run_nonterminals.mp first
    obtain ⟨_, _, rfl⟩ := Grammar.run_terminals.mp second
    exact ⟨heads.mp uppers, rfl⟩
  · rintro ⟨uppers, rfl⟩
    exact ⟨_, Grammar.run_nonterminals.mpr ⟨heads.mpr uppers, fresh _, rfl⟩,
      Grammar.run_terminals.mpr ⟨lowers, fresh _, rfl⟩⟩

/-! ## Setting the start symbol -/

theorem run_startRequests : Run (registered mode rules)
    ((startRequests mode rules).map Request.edit) g ↔
      (∀ S, mode.start = some S → S ∈ headsOf rules) ∧
        g = { registered mode rules with start := chosenStart mode rules } := by
  have known (S : Char) : S ∈ (registered mode rules).nonterminals ↔ S ∈ headsOf rules :=
    List.mem_eraseDups
  cases hm : mode.start with
  | some S =>
    simp only [startRequests, chosenStart, hm, List.map_cons, List.map_nil, Grammar.run_start,
      known, Option.some.injEq, forall_eq', Option.some_or]
  | none =>
    cases rules with
    | nil =>
      simp only [startRequests, chosenStart, hm, List.map_nil, List.head?_nil, Option.map_none,
        Option.none_or, reduceCtorEq, false_implies, implies_true, true_and]
      constructor
      · intro h; cases h; rfl
      · rintro rfl; exact .nil
    | cons rule rest =>
      simp only [startRequests, chosenStart, hm, List.map_cons, List.map_nil, Grammar.run_start,
        known, List.head?_cons, Option.map_some, Option.none_or, reduceCtorEq, false_implies,
        implies_true, true_and]
      exact and_iff_right (List.mem_cons_self ..)

/-! ## Adding the productions -/

/-- The productions of rules, in order, as heads with right-hand sides. -/
def productionsOf (rules : List Rule) : List (Char × List Char) :=
  rules.flatMap fun rule => rule.alternatives.map fun text => (rule.head, text)

theorem productionsOf_append (rules more : List Rule) :
    productionsOf (rules ++ more) = productionsOf rules ++ productionsOf more :=
  List.flatMap_append

theorem productionsOf_cons (rule : Rule) (rules : List Rule) : productionsOf (rule :: rules) =
    (rule.alternatives.map fun text => (rule.head, text)) ++ productionsOf rules :=
  List.flatMap_cons

theorem mem_productionsOf {p : Char × List Char} :
    p ∈ productionsOf rules ↔ ∃ rule ∈ rules, rule.head = p.1 ∧ p.2 ∈ rule.alternatives := by
  simp only [productionsOf, List.mem_flatMap, List.mem_map]
  constructor
  · rintro ⟨rule, hr, text, ht, rfl⟩
    exact ⟨rule, hr, rfl, ht⟩
  · rintro ⟨rule, hr, hp, ht⟩
    exact ⟨rule, hr, p.2, ht, by rw [hp]⟩

theorem productionRequests_edits (rules : List Rule) :
    (productionRequests rules).map Request.edit =
      (productionsOf rules).map fun p => .production p.1 p.2 := by
  simp only [productionRequests, productionsOf, List.map_flatMap, List.map_map, Function.comp_def]

theorem textsUnder_productionsOf (rules : List Rule) (N : Char) :
    Grammar.textsUnder (productionsOf rules) N = alternativesOf rules N := by
  induction rules with
  | nil => rfl
  | cons rule rest ih =>
    simp only [Grammar.textsUnder, productionsOf, alternativesOf, List.flatMap_cons,
      List.filter_append, List.map_append] at ih ⊢
    rw [ih]
    by_cases hN : rule.head = N
    · simp [hN, List.filter_map, Function.comp_def]
    · simp [hN, List.filter_map, Function.comp_def]

/-- The grammar with all symbols of the rules and the start symbol, but no productions. -/
def started (mode : LoadMode) (rules : List Rule) : Grammar :=
  { registered mode rules with start := chosenStart mode rules }

theorem bodies_started (mode : LoadMode) (rules : List Rule) (N : Char) :
    (started mode rules).bodies N = [] := by
  simp only [started, registered, Grammar.bodies]
  cases h : ((headsOf rules).eraseDups.map fun A => (A, ([] : List Body))).lookup N with
  | none => rfl
  | some bodies =>
    obtain ⟨before, after, split, _⟩ := List.lookup_eq_some_iff.mp h
    have member : (N, bodies) ∈ (headsOf rules).eraseDups.map fun A => (A, ([] : List Body)) := by
      rw [split]; simp
    obtain ⟨A, _, same⟩ := List.mem_map.mp member
    cases same
    rfl

theorem misplaced_eq_none_iff {head B C : Char} : g.misplaced? head B C = none ↔
    (g.guardsStart = true → ∀ S, g.start = some S → head ≠ S → B ≠ S ∧ C ≠ S) := by
  unfold Grammar.misplaced?
  cases hs : g.start with
  | none => simp
  | some S =>
    cases hg : g.guardsStart with
    | false => simp
    | true => simp [Option.filter]

/-- Which alternatives of a rule the grammar admits, once all pairs are defined. -/
theorem admits_started_iff (defined : Defined rules) {rule : Rule} (hr : rule ∈ rules)
    {text : List Char} (ht : text ∈ rule.alternatives) :
    (started mode rules).Admits rule.head text ↔ Normal text ∧
      (mode.guardsStart = true → ∀ S, chosenStart mode rules = some S → rule.head ≠ S →
        ∀ B C, text = [B, C] → B ≠ S ∧ C ≠ S) := by
  have known (A : Char) : A ∈ (started mode rules).nonterminals ↔ A ∈ headsOf rules :=
    List.mem_eraseDups
  constructor
  · rintro ⟨_, body, rfl, allowed⟩
    cases body with
    | terminal a =>
      refine ⟨Or.inl ⟨a, rfl, (mem_newLetters.mp allowed).2⟩, ?_⟩
      intro _ S _ _ B C clash
      simp [Body.text] at clash
    | pair B C =>
      refine ⟨Or.inr ⟨B, C, rfl⟩, ?_⟩
      intro guards S hS apart B' C' same
      cases same
      exact misplaced_eq_none_iff.mp allowed.2.2 guards S hS apart
  · rintro ⟨normal, guarded⟩
    refine ⟨(known _).mpr (List.mem_map_of_mem hr), ?_⟩
    rcases normal with ⟨a, rfl, lower⟩ | ⟨B, C, rfl⟩
    · exact ⟨.terminal a, rfl, mem_newLetters.mpr ⟨⟨rule, hr, ht⟩, lower⟩⟩
    · obtain ⟨hB, hC⟩ := defined rule hr B C ht
      refine ⟨.pair B C, rfl, (known B).mpr hB, (known C).mpr hC, ?_⟩
      exact misplaced_eq_none_iff.mpr fun guards S hS apart => guarded guards S hS apart B C rfl

theorem undefinedSymbols_eq_nil_iff : undefinedSymbols rules = [] ↔ Defined rules := by
  simp only [undefinedSymbols, List.flatMap_eq_nil_iff, List.map_eq_nil_iff,
    List.filter_eq_nil_iff, List.mem_flatMap, decide_not, Bool.not_eq_true',
    decide_eq_false_iff_not, Decidable.not_not]
  change (∀ rule ∈ rules, ∀ c, (∃ text ∈ rule.alternatives, c ∈ pairSymbols text) →
    c ∈ headsOf rules) ↔ _
  constructor
  · intro h rule hr B C hp
    exact ⟨h rule hr B ⟨[B, C], hp, by simp [pairSymbols]⟩,
      h rule hr C ⟨[B, C], hp, by simp [pairSymbols]⟩⟩
  · rintro h rule hr c ⟨text, ht, hc⟩
    unfold pairSymbols at hc
    split at hc
    · rename_i B C
      obtain ⟨hB, hC⟩ := h rule hr B C ht
      rcases List.mem_cons.mp hc with rfl | hc
      · exact hB
      · exact List.mem_singleton.mp hc ▸ hC
    · cases hc

theorem newLetters_eq (normal : ∀ rule ∈ rules, ∀ text ∈ rule.alternatives, Normal text) :
    newLetters rules = lettersOf rules := by
  unfold newLetters lettersOf
  congr 1
  apply List.filterMap_congr
  intro text ht
  obtain ⟨rule, hr, ht⟩ := List.mem_flatMap.mp ht
  rcases normal rule hr text ht with ⟨a, rfl, lower⟩ | ⟨B, C, rfl⟩
  · simp [newTerminal?, single?, lower]
  · rfl

/-- What loads is well formed, so the bodies of a nonterminal are its alternatives, each once. -/
theorem assemble_sound (h : assemble mode rules = .ok g) :
    Loadable mode rules ∧ Describes mode rules g := by
  obtain ⟨defined, m, n, first, second, third⟩ := assemble_eq_ok_iff.mp h
  rw [undefinedSymbols_eq_nil_iff] at defined
  have reach := second.reachable (first.reachable (Grammar.reachable_empty _))
  obtain ⟨upper, rfl⟩ := run_symbols.mp first
  obtain ⟨start, rfl⟩ := run_startRequests.mp second
  have wf := third.wellFormed reach.wellFormed
  rw [productionRequests_edits] at third
  obtain ⟨admits, ext⟩ := third.extends reach.wellFormed
  have texts (N : Char) : (g.bodies N).map Body.text = alternativesOf rules N := by
    rw [ext.texts, textsUnder_productionsOf]
    change ((started mode rules).bodies N).map Body.text ++ _ = _
    rw [bodies_started, List.map_nil, List.nil_append]
  have each (rule : Rule) (hr : rule ∈ rules) (text : List Char) (ht : text ∈ rule.alternatives) :=
    (admits_started_iff defined hr ht).mp
      (admits (rule.head, text) (mem_productionsOf.mpr ⟨rule, hr, rfl, ht⟩))
  have normal (rule : Rule) (hr : rule ∈ rules) (text : List Char)
      (ht : text ∈ rule.alternatives) := (each rule hr text ht).1
  constructor
  · refine ⟨defined, upper, start, normal, ?_, ?_⟩
    · intro N
      rw [← texts]
      exact wf.texts_nodup N
    · intro guards S hS rule hr apart B C ht
      exact (each rule hr _ ht).2 guards S hS apart B C rfl
  · exact ⟨ext.nonterminals, ext.terminals.trans (newLetters_eq normal), wf.keys, texts, ext.start,
      ext.guard⟩

/-- The bodies of a nonterminal are its alternatives, so the guard holds for them. -/
theorem Describes.guarded (describes : Describes mode rules g) (loadable : Loadable mode rules) :
    g.guardsStart = true → ∀ S, g.start = some S →
      ∀ A, A ≠ S → ∀ B C, .pair B C ∈ g.bodies A → B ≠ S ∧ C ≠ S := by
  intro guards S hS A apart B C hp
  have member : [B, C] ∈ alternativesOf rules A := by
    rw [← describes.texts]
    exact List.mem_map_of_mem hp
  obtain ⟨rule, hr, rfl, ht⟩ := mem_alternativesOf.mp member
  exact loadable.guarded (describes.guard ▸ guards) S (describes.start ▸ hS) rule hr apart B C ht

theorem Loadable.assembles (h : Loadable mode rules) : ∃ g, assemble mode rules = .ok g := by
  have first : Run (.empty mode.guardsStart) _ (registered mode rules) :=
    run_symbols.mpr ⟨h.upper, rfl⟩
  have second := run_startRequests.mpr ⟨h.start, rfl⟩
  have reach := second.reachable (first.reachable (Grammar.reachable_empty _))
  have admits : ∀ p ∈ productionsOf rules, (started mode rules).Admits p.1 p.2 := by
    intro p hp
    obtain ⟨rule, hr, hhead, ht⟩ := mem_productionsOf.mp hp
    rw [← hhead]
    refine (admits_started_iff h.defined hr ht).mpr ⟨h.normal rule hr _ ht, ?_⟩
    intro guards S hS apart B C same
    exact h.guarded guards S hS rule hr apart B C (same ▸ ht)
  obtain ⟨g, third⟩ := Grammar.exists_run_productions reach.wellFormed admits fun N => by
    change (((started mode rules).bodies N).map Body.text ++ _).Nodup
    rw [bodies_started, List.map_nil, List.nil_append, textsUnder_productionsOf]
    exact h.distinct N
  rw [← productionRequests_edits] at third
  exact ⟨g, assemble_eq_ok_iff.mpr
    ⟨undefinedSymbols_eq_nil_iff.mpr h.defined, _, _, first, second, third⟩⟩

/-- Rules describe one grammar at most. -/
theorem Describes.unique (h : Describes mode rules g) (h' : Describes mode rules g') : g' = g :=
  Grammar.eq_of_bodies (h'.nonterminals.trans h.nonterminals.symm)
    (h'.terminals.trans h.terminals.symm) (h'.start.trans h.start.symm)
    (h'.guard.trans h.guard.symm) (h.nonterminals ▸ nodup_eraseDups _) h.keys h'.keys
    fun N => (h'.texts N).trans (h.texts N).symm

theorem assemble_of_loadable (loadable : Loadable mode rules) (describes : Describes mode rules g) :
    assemble mode rules = .ok g := by
  obtain ⟨g', h⟩ := loadable.assembles
  rw [h, (assemble_sound h).2.unique describes]

theorem ofText_eq_ok_iff {file : Path} {text : List Char} : ofText file mode text = .ok g ↔
    ∃ rules, Spells text rules ∧ assemble mode rules = .ok g := by
  simp only [ofText, inFile_eq_ok_iff, ofLines_eq_ok_iff, readRules_eq_ok_iff]

/-- **Which texts load, and to what.** A text loads exactly if every line that holds a rule spells
one and the rules together can be loaded, and then to the one grammar that they describe. -/
theorem ofText_loads_described (file : Path) (mode : LoadMode) (text : List Char) (g : Grammar) :
    ofText file mode text = .ok g ↔
      ∃ rules, Spells text rules ∧ Loadable mode rules ∧ Describes mode rules g := by
  rw [ofText_eq_ok_iff]
  constructor
  · rintro ⟨rules, spells, h⟩
    exact ⟨rules, spells, assemble_sound h⟩
  · rintro ⟨rules, spells, loadable, describes⟩
    exact ⟨rules, spells, assemble_of_loadable loadable describes⟩

end NormalForm.Load
