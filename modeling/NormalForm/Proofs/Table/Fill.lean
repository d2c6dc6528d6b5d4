import NormalForm.Proofs.Grammar.Derivation
import NormalForm.Proofs.Table.Heads

/-! # Filling the table

The cell of a span holds exactly the nonterminals that derive it. The proof is by induction on the
length of the longest spans in the table: a longer word is derived through a pair, whose halves
derive the two parts of one of its splits, and both parts are shorter spans. -/

namespace NormalForm

namespace Grammar

variable {g : Grammar}

theorem Derives.ne_nil {A : Char} {word : List Char} (h : g.Derives A word) : word ≠ [] := by
  obtain ⟨tree, _, _, rfl⟩ := derives_iff_tree.mp h
  exact word_ne_nil tree

theorem derives_letter_iff {A a : Char} : g.Derives A [a] ↔ .terminal a ∈ g.bodies A := by
  rw [derives_iff_tree]
  constructor
  · rintro ⟨tree, ht, rfl, hw⟩
    cases ht with
    | leaf hb =>
      cases hw
      exact hb
    | @node A left right _ _ _ =>
      have long := congrArg List.length hw
      have hl := List.length_pos_iff.mpr (word_ne_nil left)
      have hr := List.length_pos_iff.mpr (word_ne_nil right)
      simp only [Tree.word, List.length_append, List.length_singleton] at long
      omega
  · intro hb
    exact ⟨.leaf A a, .leaf hb, rfl, rfl⟩

/-- A word of two letters or more is derived through a pair whose halves derive its two parts. -/
theorem derives_pair_iff {A : Char} {word : List Char} (long : 2 ≤ word.length) :
    g.Derives A word ↔ ∃ B C u v, .pair B C ∈ g.bodies A ∧ word = u ++ v ∧
      g.Derives B u ∧ g.Derives C v := by
  rw [derives_iff_tree]
  constructor
  · rintro ⟨tree, ht, rfl, rfl⟩
    cases ht with
    | leaf _ => simp [Tree.word] at long
    | @node A left right hb hl hr =>
      exact ⟨left.head, right.head, left.word, right.word, hb, rfl, derives_of_tree hl,
        derives_of_tree hr⟩
  · rintro ⟨B, C, u, v, hb, rfl, hB, hC⟩
    obtain ⟨left, hl, rfl, rfl⟩ := derives_iff_tree.mp hB
    obtain ⟨right, hr, rfl, rfl⟩ := derives_iff_tree.mp hC
    exact ⟨.node A left right, .node hb hl hr, rfl, rfl⟩

end Grammar

/-- The letters of a span. -/
def span (word : List Char) (start length : Nat) : List Char := (word.drop start).take length

theorem span_length {word : List Char} {start length : Nat} (h : start + length ≤ word.length) :
    (span word start length).length = length := by
  simp only [span, List.length_take, List.length_drop]
  omega

theorem span_append (word : List Char) (start k m : Nat) :
    span word start (k + m) = span word start k ++ span word (start + k) m := by
  simp only [span, List.take_add, List.drop_drop]

theorem span_whole (word : List Char) : span word 0 word.length = word := by
  simp [span]

theorem span_one {word : List Char} {start : Nat} (h : start < word.length) :
    span word start 1 = [word[start]] := by
  rw [span, List.drop_eq_getElem_cons h, List.take_succ_cons, List.take_zero]

/-- The two parts of a span are its spans before and after the cut. -/
theorem span_parts {word u v : List Char} {start length : Nat}
    (h : start + length ≤ word.length) (parts : span word start length = u ++ v) :
    u = span word start u.length ∧ v = span word (start + u.length) v.length := by
  have total : length = u.length + v.length := by
    rw [← List.length_append, ← parts, span_length h]
  rw [total, span_append] at parts
  have left : (span word start u.length).length = u.length := span_length (by omega)
  obtain ⟨hu, hv⟩ := List.append_inj parts left
  exact ⟨hu.symm, hv.symm⟩

namespace Table

variable {rows : List (List Cell)} {row : List Cell}

theorem cell_of_shorter {start length : Nat} (h : length ≤ rows.length) :
    (Table.mk (rows ++ [row])).cell start length = (Table.mk rows).cell start length := by
  cases length with
  | zero => rfl
  | succ length => simp only [cell, List.getElem?_append_left (show length < rows.length from h)]

theorem cell_of_last (start : Nat) :
    (Table.mk (rows ++ [row])).cell start (rows.length + 1) = row[start]? := by
  simp [cell]

theorem mem_splits {t : Table} {start : Nat} {left right : Cell} :
    (left, right) ∈ t.splits start ↔ ∃ k, k < t.length ∧ t.cell start (k + 1) = some left ∧
      t.cell (start + (k + 1)) (t.length - k) = some right := by
  simp only [splits, List.mem_filterMap, List.mem_range]
  constructor
  · rintro ⟨k, hk, h⟩
    cases hl : t.cell start (k + 1) with
    | none => simp [hl] at h
    | some l =>
      cases hr : t.cell (start + (k + 1)) (t.length - k) with
      | none => simp [hl, hr] at h
      | some r =>
        simp only [hl, hr, Option.bind_eq_bind, Option.bind_some, Option.pure_def,
          Option.some.injEq, Prod.mk.injEq] at h
        exact ⟨k, hk, by rw [hl, h.1], by rw [hr, h.2]⟩
  · rintro ⟨k, hk, hl, hr⟩
    exact ⟨k, hk, by simp [hl, hr]⟩

end Table

namespace Grammar

variable {guardsStart : Bool} {g : Grammar} {word : List Char} {t : Table}

/-- Every span that is not longer than the table goes has a cell, which holds the nonterminals that
derive the span. -/
def Filled (g : Grammar) (word : List Char) (t : Table) : Prop :=
  ∀ start length, 1 ≤ length → length ≤ t.length → start + length ≤ word.length →
    ∃ cell, t.cell start length = some cell ∧
      ∀ A, cell.contains A = true ↔ g.Derives A (span word start length)

theorem filled_letters (wf : WellFormed guardsStart g) (word : List Char) :
    Filled g word ⟨[word.map g.letterCell]⟩ := by
  intro start length lo hi inside
  obtain rfl : length = 1 := Nat.le_antisymm hi lo
  have hs : start < word.length := inside
  refine ⟨g.letterCell word[start], by simp [Table.cell, hs], ?_⟩
  intro A
  rw [contains_letterCell, span_one hs, derives_letter_iff]
  exact ⟨And.right, fun hb => ⟨wf.mem_of_body hb, hb⟩⟩

/-- The cell made from the splits of a span that is one longer than the table goes. -/
theorem Filled.contains_iff (wf : WellFormed guardsStart g) (h : Filled g word t)
    (positive : 1 ≤ t.length) {start : Nat} (inside : start + (t.length + 1) ≤ word.length)
    (A : Char) : (g.heads.cell (t.splits start)).contains A = true ↔
      g.Derives A (span word start (t.length + 1)) := by
  rw [Heads.contains_cell, derives_pair_iff (by rw [span_length inside]; omega)]
  constructor
  · rintro ⟨left, right, hs, B, C, hB, hC, hA⟩
    obtain ⟨k, hk, hl, hr⟩ := Table.mem_splits.mp hs
    obtain ⟨l, hl', hBd⟩ := h start (k + 1) (by omega) (by omega) (by omega)
    obtain ⟨r, hr', hCd⟩ := h (start + (k + 1)) (t.length - k) (by omega) (by omega) (by omega)
    obtain rfl : l = left := Option.some.inj (hl'.symm.trans hl)
    obtain rfl : r = right := Option.some.inj (hr'.symm.trans hr)
    refine ⟨B, C, _, _, (mem_of_heads.mp hA).2, ?_, (hBd B).mp hB, (hCd C).mp hC⟩
    rw [← span_append]
    congr 1
    omega
  · rintro ⟨B, C, u, v, hb, parts, hB, hC⟩
    have hu := List.length_pos_iff.mpr hB.ne_nil
    have hv := List.length_pos_iff.mpr hC.ne_nil
    have total : t.length + 1 = u.length + v.length := by
      rw [← List.length_append, ← parts, span_length inside]
    obtain ⟨hu', hv'⟩ := span_parts inside parts
    obtain ⟨left, hl, hBd⟩ := h start u.length hu (by omega) (by omega)
    obtain ⟨right, hr, hCd⟩ := h (start + u.length) v.length hv (by omega) (by omega)
    refine ⟨left, right, ?_, B, C, (hBd B).mpr (hu' ▸ hB), (hCd C).mpr (hv' ▸ hC),
      mem_of_heads.mpr ⟨wf.mem_of_body hb, hb⟩⟩
    have cut : u.length - 1 + 1 = u.length := by omega
    have rest : t.length - (u.length - 1) = v.length := by omega
    exact Table.mem_splits.mpr ⟨u.length - 1, by omega, by rw [cut]; exact hl,
      by rw [cut, rest]; exact hr⟩

theorem Filled.extend (wf : WellFormed guardsStart g) (h : Filled g word t)
    (positive : 1 ≤ t.length) :
    Filled g word ⟨t.rows ++ [(List.range (word.length - t.length)).map fun start =>
      g.heads.cell (t.splits start)]⟩ := by
  intro start length lo hi inside
  simp only [Table.length, List.length_append, List.length_singleton] at hi
  by_cases shorter : length ≤ t.rows.length
  · rw [Table.cell_of_shorter shorter]
    exact h start length lo shorter inside
  · obtain rfl : length = t.rows.length + 1 := by omega
    have hs : start < word.length - t.length := by simp only [Table.length]; omega
    rw [Table.cell_of_last]
    refine ⟨g.heads.cell (t.splits start), by simp [hs], ?_⟩
    exact h.contains_iff wf positive inside

theorem fill_length (g : Grammar) (heads : Heads) (word : List Char) (longer : Nat) :
    (g.fill heads word longer).length = longer + 1 := by
  induction longer with
  | zero => rfl
  | succ longer ih =>
    simp only [Table.length] at ih
    simp [fill, Table.length, ih]

theorem fill_filled (wf : WellFormed guardsStart g) (word : List Char) (longer : Nat) :
    Filled g word (g.fill g.heads word longer) := by
  induction longer with
  | zero => exact filled_letters wf word
  | succ longer ih =>
    have next := ih.extend wf (by rw [fill_length]; omega)
    rw [fill_length] at next
    exact next

end Grammar

end NormalForm
