import Mathlib.Algebra.Group.Nat.Defs
import Mathlib.Data.List.Perm.Subperm
import NormalForm.Proofs.Grammar.WellFormed

namespace NormalForm

namespace Unicode

/-- Different characters of a table are no more than its code points. -/
theorem length_le_of_holds {table : List Span} {letters : List Char} (distinct : letters.Nodup)
    (held : ∀ c ∈ letters, holds table c = true) :
    letters.length ≤ (table.flatMap Span.codes).length := by
  have codes_distinct : (letters.map Char.toNat).Nodup := by
    apply List.pairwise_map.mpr
    exact distinct.imp fun differ same => differ (Char.toNat_inj.mp same)
  have codes_held : letters.map Char.toNat ⊆ table.flatMap Span.codes := by
    intro code mem
    obtain ⟨c, hc, rfl⟩ := List.mem_map.mp mem
    obtain ⟨s, hs, hsc⟩ := List.any_eq_true.mp (held c hc)
    exact List.mem_flatMap.mpr ⟨s, hs, Span.mem_codes hsc⟩
  have few := (codes_distinct.subperm codes_held).length_le
  rwa [List.length_map] at few

theorem uppercase_few : (uppercase.flatMap Span.codes).length < 2 ^ 11 := by decide +kernel

theorem lowercase_few : (lowercase.flatMap Span.codes).length < 2 ^ 12 := by decide +kernel

end Unicode

namespace Grammar

open Unicode

variable {guardsStart : Bool} {g : Grammar}

theorem WellFormed.nonterminals_few (wf : WellFormed guardsStart g) :
    g.nonterminals.length < 2 ^ 11 :=
  Nat.lt_of_le_of_lt (length_le_of_holds wf.nonterminals_nodup wf.nonterminals_upper) uppercase_few

theorem WellFormed.terminals_few (wf : WellFormed guardsStart g) : g.terminals.length < 2 ^ 12 :=
  Nat.lt_of_le_of_lt (length_le_of_holds wf.terminals_nodup wf.terminals_lower) lowercase_few

/-- Every body that the symbols of a grammar make up. -/
def allBodies (g : Grammar) : List Body :=
  g.terminals.map .terminal ++ g.nonterminals.flatMap fun B => g.nonterminals.map (.pair B)

theorem length_allBodies (g : Grammar) :
    g.allBodies.length = g.terminals.length + g.nonterminals.length * g.nonterminals.length := by
  simp [allBodies, List.length_flatMap]

theorem WellFormed.bodies_subset (wf : WellFormed guardsStart g) (A : Char) :
    g.bodies A ⊆ g.allBodies := by
  intro body hb
  cases body with
  | terminal a => exact List.mem_append_left _ (List.mem_map.mpr ⟨a, wf.letter_known A a hb, rfl⟩)
  | pair B C =>
    obtain ⟨hB, hC⟩ := wf.pair_known A B C hb
    apply List.mem_append_right
    exact List.mem_flatMap.mpr ⟨B, hB, List.mem_map.mpr ⟨C, hC, rfl⟩⟩

theorem WellFormed.bodies_few (wf : WellFormed guardsStart g) (A : Char) :
    (g.bodies A).length < 2 ^ 32 := by
  have within := ((wf.bodies_nodup A).subperm (wf.bodies_subset A)).length_le
  rw [length_allBodies] at within
  have letters := wf.terminals_few
  have heads := wf.nonterminals_few
  have pairs := Nat.mul_le_mul (Nat.le_of_lt heads) (Nat.le_of_lt heads)
  omega

end Grammar

end NormalForm
