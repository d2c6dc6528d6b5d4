import Mathlib.Data.List.Basic
import NormalForm.Proofs.Table.Recognition
import NormalForm.Proofs.Table.Shape

/-! # More productions, larger cells

A grammar with all productions of another has all symbols of the other's cells in its own. Where the
productions are the same, each table includes the other, so what a word is answered depends on the
start symbol and on the sets of terminals and of productions: not on the order in which they were
registered, not on the guard, and not on nonterminals without productions.
-/

namespace NormalForm

namespace Cell

variable {c d : Cell}

def Within (c d : Cell) : Prop := ∀ A, c.contains A = true → d.contains A = true

theorem nodup (c : Cell) : c.symbols.Nodup := by
  apply c.increasing.imp
  rintro a _ lt rfl
  exact Char.lt_irrefl a lt

/-- Equal sets are equal cells. -/
theorem Within.antisymm (h : c.Within d) (back : d.Within c) : c = d := by
  have members (A : Char) : A ∈ c.symbols ↔ A ∈ d.symbols :=
    ⟨fun hA => of_decide_eq_true (h A (decide_eq_true hA)),
      fun hA => of_decide_eq_true (back A (decide_eq_true hA))⟩
  have reordered := (List.perm_ext_iff_of_nodup c.nodup d.nodup).mpr members
  apply eq_of_symbols
  apply reordered.eq_of_pairwise _ c.increasing d.increasing
  intro a b _ _ below above
  exact absurd (Char.lt_trans below above) (Char.lt_irrefl a)

end Cell

namespace Table

/-- The tables have cells for the same spans, and each cell of the one lies in that of the other. -/
structure Within (t u : Table) : Prop where
  length_eq : t.length = u.length
  cells : ∀ start length, Option.Rel Cell.Within (t.cell start length) (u.cell start length)

variable {t u : Table}

theorem Within.of_cell (h : t.Within u) {start length : Nat} {c : Cell}
    (found : t.cell start length = some c) : ∃ d, u.cell start length = some d ∧ c.Within d := by
  have related := h.cells start length
  rw [found] at related
  generalize u.cell start length = other at related
  cases related with
  | some within => exact ⟨_, rfl, within⟩

theorem eq_of_cells (length_eq : t.length = u.length)
    (cells : ∀ start length, t.cell start length = u.cell start length) : t = u := by
  obtain ⟨rows⟩ := t
  obtain ⟨others⟩ := u
  congr 1
  apply List.ext_getElem length_eq
  intro r hr hr'
  apply List.ext_getElem?
  intro start
  have same := cells start (r + 1)
  simpa [cell, List.getElem?_eq_getElem hr, List.getElem?_eq_getElem hr'] using same

theorem Within.antisymm (h : t.Within u) (back : u.Within t) : t = u := by
  apply eq_of_cells h.length_eq
  intro start length
  cases found : t.cell start length with
  | none =>
    cases other : u.cell start length with
    | none => rfl
    | some d =>
      obtain ⟨c, impossible, _⟩ := back.of_cell other
      cases found.symm.trans impossible
  | some c =>
    obtain ⟨d, other, within⟩ := h.of_cell found
    obtain ⟨c', found', within'⟩ := back.of_cell other
    cases found.symm.trans found'
    rw [other, within.antisymm within']

theorem Within.accepts (h : t.Within u) {S : Char} (accepted : t.accepts S = true) :
    u.accepts S = true := by
  unfold Table.accepts at accepted ⊢
  split at accepted
  · rename_i c found
    obtain ⟨d, other, within⟩ := h.of_cell found
    rw [← h.length_eq, other]
    exact within S accepted
  · cases accepted

/-- Tables that grow by one row each. -/
theorem Within.concat (h : t.Within u) (starts : Nat) {f f' : Nat → Cell}
    (row : ∀ start, (f start).Within (f' start)) :
    Within ⟨t.rows ++ [(List.range starts).map f]⟩ ⟨u.rows ++ [(List.range starts).map f']⟩ where
  length_eq := by
    have heights : t.rows.length = u.rows.length := h.length_eq
    simp only [Table.length, List.length_append, List.length_singleton, heights]
  cells start length := by
    have heights : t.rows.length = u.rows.length := h.length_eq
    -- A span has its cell in an earlier row, in the last one, or in none.
    by_cases shorter : length ≤ t.rows.length
    · rw [cell_of_shorter shorter, cell_of_shorter (heights ▸ shorter)]
      exact h.cells start length
    by_cases last : length = t.rows.length + 1
    · rw [last, cell_of_last, heights, cell_of_last, List.getElem?_map, List.getElem?_map]
      by_cases inside : start < starts
      · rw [List.getElem?_range inside]
        exact .some (row start)
      · rw [List.getElem?_eq_none (by simpa using inside)]
        exact .none
    · have beyond {rows : List (List Cell)} (row : List Cell) (height : rows.length + 1 < length) :
          (Table.mk (rows ++ [row])).cell start length = none :=
        cell_of_longer (by simpa [Table.length] using height)
      rw [beyond _ (by omega), beyond _ (by omega)]
      exact .none

end Table

namespace Grammar

variable {guardsStart guardsOther : Bool} {g h : Grammar} {word : List Char}

theorem letterCell_within (wf : WellFormed guardsOther h) (more : ∀ A, g.bodies A ⊆ h.bodies A)
    (a : Char) : (g.letterCell a).Within (h.letterCell a) := by
  intro A hA
  have body := more A (contains_letterCell.mp hA).2
  exact contains_letterCell.mpr ⟨wf.mem_of_body body, body⟩

theorem cell_within (wf : WellFormed guardsOther h) (more : ∀ A, g.bodies A ⊆ h.bodies A)
    {t u : Table} (within : t.Within u) (start : Nat) :
    (g.heads.cell (t.splits start)).Within (h.heads.cell (u.splits start)) := by
  intro A hA
  obtain ⟨left, right, split, B, C, hB, hC, found⟩ := Heads.contains_cell.mp hA
  obtain ⟨k, hk, hleft, hright⟩ := Table.mem_splits.mp split
  obtain ⟨left', hleft', leftWithin⟩ := within.of_cell hleft
  obtain ⟨right', hright', rightWithin⟩ := within.of_cell hright
  rw [within.length_eq] at hk hright'
  have body := more A (mem_of_heads.mp found).2
  exact Heads.contains_cell.mpr ⟨left', right', Table.mem_splits.mpr ⟨k, hk, hleft', hright'⟩, B, C,
    leftWithin B hB, rightWithin C hC, mem_of_heads.mpr ⟨wf.mem_of_body body, body⟩⟩

/-- Each row is made from the rows before it, and larger cells before it make its cells larger. -/
theorem fill_within (wf : WellFormed guardsOther h) (more : ∀ A, g.bodies A ⊆ h.bodies A)
    (word : List Char) (longer : Nat) :
    (g.fill g.heads word longer).Within (h.fill h.heads word longer) := by
  induction longer with
  | zero =>
    refine ⟨rfl, fun start length => ?_⟩
    rcases length with _ | _ | length
    · exact .none
    · simp only [fill, Table.cell, List.getElem?_cons_zero, Option.bind_some, List.getElem?_map]
      cases word[start]? with
      | none => exact .none
      | some a => exact .some (letterCell_within wf more a)
    · exact .none
  | succ longer ih => exact ih.concat _ fun start => cell_within wf more ih start

theorem fill_eq (wf : WellFormed guardsStart g) (wf' : WellFormed guardsOther h)
    (same : ∀ A body, body ∈ g.bodies A ↔ body ∈ h.bodies A) (word : List Char) (longer : Nat) :
    g.fill g.heads word longer = h.fill h.heads word longer :=
  (fill_within wf' (fun A body => (same A body).mp) word longer).antisymm
    (fill_within wf (fun A body => (same A body).mpr) word longer)

theorem startFor_eq (start : g.start = h.start)
    (terminals : ∀ a, a ∈ g.terminals ↔ a ∈ h.terminals) (word : List Char) :
    g.startFor word = h.startFor word := by
  simp only [startFor, start, terminals]

theorem table_eq (wf : WellFormed guardsStart g) (wf' : WellFormed guardsOther h)
    (start : g.start = h.start) (terminals : ∀ a, a ∈ g.terminals ↔ a ∈ h.terminals)
    (same : ∀ A body, body ∈ g.bodies A ↔ body ∈ h.bodies A) (word : List Char) :
    g.table word = h.table word := by
  rw [table, startFor_eq start terminals, fill_eq wf wf' same, table]

/-- All answers to a word are read off its table and the start symbol. -/
theorem answers_of_table (start : g.start = h.start) (same : g.table word = h.table word) :
    g.table word = h.table word ∧ g.recognizes word = h.recognizes word ∧
      g.tableText word = h.tableText word := by
  refine ⟨same, ?_, ?_⟩
  · rw [recognizes, examine, same, start, recognizes, examine]
  · rw [tableText, same, tableText]

/-- **Only the sets of terminals and productions and the start symbol matter.** Grammars that agree
on these give every word the same table or refuse it for the same reason, and decide it alike,
whatever their histories and whether they guard the start symbol or not. -/
theorem answers_forget_history (reach : Reachable guardsStart g) (reach' : Reachable guardsOther h)
    (start : g.start = h.start) (terminals : ∀ a, a ∈ g.terminals ↔ a ∈ h.terminals)
    (productions : ∀ A body, body ∈ g.bodies A ↔ body ∈ h.bodies A) (word : List Char) :
    g.table word = h.table word ∧ g.recognizes word = h.recognizes word ∧
      g.tableText word = h.tableText word := by
  exact answers_of_table start
    (table_eq reach.wellFormed reach'.wellFormed start terminals productions word)

/-- The textbook grammar by another way: cleared once, with edits that are refused, with a
nonterminal more, and with everything in another order. -/
def shuffled : List Edit :=
  [ .terminal 'x', .nonterminal 'X', .clear, .nonterminal 'C', .nonterminal 'Z', .start 'C',
    .terminal 'b', .nonterminal 'B', .nonterminal 'A', .terminal 'a', .nonterminal 'S',
    .nonterminal 'B', .production 'C' ['a'], .production 'C' ['A', 'B'], .production 'B' ['b'],
    .production 'B' ['C', 'C'], .production 'A' ['a'], .production 'A' ['a'],
    .production 'A' ['B', 'A'], .production 'S' ['B', 'C'], .production 'S' ['A', 'B'], .start 'S' ]

theorem answers_forget_history_shuffled :
    let g := (empty true).afterAll textbook
    let h := (empty false).afterAll shuffled
    Reachable true g ∧ Reachable false h ∧ g.start = h.start ∧
      (∀ a, a ∈ g.terminals ↔ a ∈ h.terminals) ∧
      (∀ A body, body ∈ g.bodies A ↔ body ∈ h.bodies A) ∧ g ≠ h ∧
      h.recognizes ['b', 'a', 'a', 'b', 'a'] = .ok true ∧
      g.table ['b', 'x'] = h.table ['b', 'x'] := by
  intro g h
  have reach : Reachable true g := ⟨textbook, rfl⟩
  have reach' : Reachable false h := ⟨shuffled, rfl⟩
  have start : g.start = h.start := by decide +kernel
  have swapped : g.terminals.Perm h.terminals := by decide +kernel
  have terminals (a : Char) : a ∈ g.terminals ↔ a ∈ h.terminals := swapped.mem_iff
  -- Over lists: a quantifier over characters would be decided by trying every character.
  have there : g.nonterminals.all fun A => (g.bodies A).all (h.bodies A).contains := by
    decide +kernel
  have back : h.nonterminals.all fun A => (h.bodies A).all (g.bodies A).contains := by
    decide +kernel
  simp only [List.all_eq_true, List.contains_iff_mem] at there back
  have productions (A : Char) (body : Body) : body ∈ g.bodies A ↔ body ∈ h.bodies A :=
    ⟨fun hb => there A (reach.wellFormed.mem_of_body hb) body hb,
      fun hb => back A (reach'.wellFormed.mem_of_body hb) body hb⟩
  have same := answers_forget_history reach reach' start terminals productions
  refine ⟨reach, reach', start, terminals, productions, by decide +kernel, ?_, ?_⟩
  · exact (same _).2.1.symm.trans (by decide +kernel)
  · exact (same _).1

end Grammar

end NormalForm
