import Mathlib.Data.List.Nodup
import NormalForm.Proofs.Grammar.Step
import NormalForm.Proofs.Unicode.Apart

/-! # Well-formed grammars

The invariant that ties the symbol lists, the productions and the start symbol of a grammar
together, and that every edit keeps. Most of its clauses need the others: productions stay within
the symbols because clearing drops both, and the entries stay one for each nonterminal because a
symbol is registered once. -/

namespace NormalForm.Grammar

open Unicode

structure WellFormed (guardsStart : Bool) (g : Grammar) : Prop where
  nonterminals_nodup : g.nonterminals.Nodup
  nonterminals_upper : ∀ A ∈ g.nonterminals, isUppercase A = true
  terminals_nodup : g.terminals.Nodup
  terminals_lower : ∀ a ∈ g.terminals, isLowercase a = true
  start_known : ∀ S, g.start = some S → S ∈ g.nonterminals
  /-- The entries are those of the nonterminals, in the same order. -/
  keys : g.productions.map Prod.fst = g.nonterminals
  bodies_nodup : ∀ A, (g.bodies A).Nodup
  letter_known : ∀ A a, .terminal a ∈ g.bodies A → a ∈ g.terminals
  pair_known : ∀ A B C, .pair B C ∈ g.bodies A → B ∈ g.nonterminals ∧ C ∈ g.nonterminals
  guard : g.guardsStart = guardsStart

theorem wellFormed_empty (guardsStart : Bool) : WellFormed guardsStart (empty guardsStart) := by
  constructor <;> simp [empty, bodies]

variable {guardsStart : Bool} {g g' : Grammar}

theorem WellFormed.addNonterminal {A : Char} (h : WellFormed guardsStart g)
    (upper : isUppercase A = true) (new : A ∉ g.nonterminals) :
    WellFormed guardsStart { g with
      nonterminals := g.nonterminals ++ [A], productions := g.productions ++ [(A, [])] } where
  nonterminals_nodup := List.concat_eq_append ▸ h.nonterminals_nodup.concat new
  nonterminals_upper := by
    intro B hB
    rcases List.mem_append.mp hB with hB | hB
    · exact h.nonterminals_upper B hB
    · rw [List.mem_singleton.mp hB]; exact upper
  terminals_nodup := h.terminals_nodup
  terminals_lower := h.terminals_lower
  start_known S hS := List.mem_append_left _ (h.start_known S hS)
  keys := by simp [h.keys]
  bodies_nodup B := by rw [bodies_register]; exact h.bodies_nodup B
  letter_known B a ha := by rw [bodies_register] at ha; exact h.letter_known B a ha
  pair_known B C D hp := by
    rw [bodies_register] at hp
    obtain ⟨hC, hD⟩ := h.pair_known B C D hp
    exact ⟨List.mem_append_left _ hC, List.mem_append_left _ hD⟩
  guard := h.guard

theorem WellFormed.addTerminal {a : Char} (h : WellFormed guardsStart g)
    (lower : isLowercase a = true) (new : a ∉ g.terminals) :
    WellFormed guardsStart { g with terminals := g.terminals ++ [a] } where
  nonterminals_nodup := h.nonterminals_nodup
  nonterminals_upper := h.nonterminals_upper
  terminals_nodup := List.concat_eq_append ▸ h.terminals_nodup.concat new
  terminals_lower := by
    intro b hb
    rcases List.mem_append.mp hb with hb | hb
    · exact h.terminals_lower b hb
    · rw [List.mem_singleton.mp hb]; exact lower
  start_known := h.start_known
  keys := h.keys
  bodies_nodup := h.bodies_nodup
  letter_known A b hb := List.mem_append_left _ (h.letter_known A b hb)
  pair_known := h.pair_known
  guard := h.guard

theorem WellFormed.setStart {A : Char} (h : WellFormed guardsStart g) (known : A ∈ g.nonterminals) :
    WellFormed guardsStart { g with start := some A } where
  nonterminals_nodup := h.nonterminals_nodup
  nonterminals_upper := h.nonterminals_upper
  terminals_nodup := h.terminals_nodup
  terminals_lower := h.terminals_lower
  start_known := by rintro S ⟨⟩; exact known
  keys := h.keys
  bodies_nodup := h.bodies_nodup
  letter_known := h.letter_known
  pair_known := h.pair_known
  guard := h.guard

theorem WellFormed.addBody {head : Char} {body : Body} (h : WellFormed guardsStart g)
    (known : head ∈ g.nonterminals) (allowed : g.Allows head body) (new : body ∉ g.bodies head) :
    WellFormed guardsStart (g.append head body) := by
  have self := bodies_append_self g body (h.keys ▸ known)
  have cases_mem {A : Char} {b : Body} (hb : b ∈ (g.append head body).bodies A) :
      b ∈ g.bodies A ∨ b = body := by
    by_cases hA : A = head
    · subst hA
      rw [self] at hb
      simpa using hb
    · rw [bodies_append_of_ne g body hA] at hb
      exact Or.inl hb
  exact {
    nonterminals_nodup := h.nonterminals_nodup
    nonterminals_upper := h.nonterminals_upper
    terminals_nodup := h.terminals_nodup
    terminals_lower := h.terminals_lower
    start_known := h.start_known
    keys := by rw [append_keys]; exact h.keys
    bodies_nodup := by
      intro A
      by_cases hA : A = head
      · subst hA
        rw [self]
        exact List.concat_eq_append ▸ (h.bodies_nodup A).concat new
      · rw [bodies_append_of_ne g body hA]
        exact h.bodies_nodup A
    letter_known := by
      intro A a ha
      rcases cases_mem ha with ha | rfl
      · exact h.letter_known A a ha
      · exact allowed
    pair_known := by
      intro A B C hp
      rcases cases_mem hp with hp | rfl
      · exact h.pair_known A B C hp
      · exact ⟨allowed.1, allowed.2.1⟩
    guard := h.guard }

theorem WellFormed.step {edit : Edit} (step : Step g edit g') (h : WellFormed guardsStart g) :
    WellFormed guardsStart g' := by
  cases step with
  | nonterminal upper new => exact h.addNonterminal upper new
  | terminal lower new => exact h.addTerminal lower new
  | start known => exact h.setStart known
  | production known allowed new => exact h.addBody known allowed new
  | clear => exact h.guard ▸ wellFormed_empty _

theorem Reachable.wellFormed (h : Reachable guardsStart g) : WellFormed guardsStart g := by
  obtain ⟨history, rfl⟩ := h
  exact afterAll_induction WellFormed.step (wellFormed_empty guardsStart) history

theorem WellFormed.mem_of_body (h : WellFormed guardsStart g) {A : Char} {body : Body}
    (hb : body ∈ g.bodies A) : A ∈ g.nonterminals :=
  h.keys ▸ mem_keys_of_mem_bodies hb

/-- No character has both roles. -/
theorem WellFormed.not_terminal (h : WellFormed guardsStart g) {A : Char}
    (hA : A ∈ g.nonterminals) : A ∉ g.terminals := by
  intro ha
  have upper := not_lowercase_of_uppercase (h.nonterminals_upper A hA)
  simp [h.terminals_lower A ha] at upper

/-- Looking at the terminals first hides no nonterminal. -/
theorem WellFormed.role_iff (h : WellFormed guardsStart g) (c : Char) :
    g.role? c = some (.nonterminal c) ↔ c ∈ g.nonterminals := by
  unfold role?
  split
  · rename_i ht
    simp only [Option.some.injEq, reduceCtorEq, false_iff]
    exact fun hc => h.not_terminal hc ht
  · split
    · rename_i hc
      simp [hc]
    · rename_i hc
      simp [hc]

theorem WellFormed.entry_iff (h : WellFormed guardsStart g) (A : Char) :
    (g.productions.lookup A).isSome = true ↔ A ∈ g.nonterminals := by
  rw [lookup_isSome, h.keys]

end NormalForm.Grammar
