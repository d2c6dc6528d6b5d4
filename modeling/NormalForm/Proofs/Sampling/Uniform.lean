import NormalForm.Proofs.Sampling.Draws
import NormalForm.Proofs.Table.Agreement

/-! # Choices are uniform

A number that is drawn for a body either selects one of the eligible ones, whatever is drawn after
it, or is rejected and leaves the choice to the next. Each eligible body is selected by equally many
numbers, and at least half of all numbers select one. -/

namespace NormalForm.Grammar

variable {guardsStart : Bool} {g : Grammar} {depth : Nat} {A : Char} {v : UInt32} {body : Body}

/-- Wherever the number is drawn, it alone chooses the body. -/
def Selects (g : Grammar) (depth : Nat) (A : Char) (v : UInt32) (body : Body) : Prop :=
  ∀ (source : Source) (patience place : Nat), 1 ≤ patience → source place = v →
    (g.chooseBody source patience depth A).run.run place = some (.ok body, place + 1)

/-- Wherever the number is drawn, the choice is left to the numbers after it. -/
def Rejects (g : Grammar) (depth : Nat) (A : Char) (v : UInt32) : Prop :=
  ∀ (source : Source) (patience place : Nat), source place = v →
    (g.chooseBody source (patience + 1) depth A).run.run place =
      (g.chooseBody source patience depth A).run.run (place + 1)

theorem selects_iff : g.Selects depth A v body ↔
    Source.usable (g.eligible A depth).length v.toNat = true ∧
      (g.eligible A depth)[Source.index (g.eligible A depth).length v.toNat]? = some body := by
  constructor
  · intro selects
    have chosen := selects (fun _ => v) 1 0 (Nat.le_refl 1) rfl
    obtain ⟨i, picked, hi⟩ := chooseBody_ok_iff.mp chosen
    rw [Source.pick] at picked
    split at picked
    · rename_i usable
      cases picked
      exact ⟨usable, hi⟩
    · cases picked
  · rintro ⟨usable, named⟩ source patience place willing drawn
    obtain ⟨patience, rfl⟩ := Nat.exists_eq_add_of_le' willing
    refine chooseBody_ok_iff.mpr ⟨_, ?_, named⟩
    simp only [Source.pick, drawn, usable, ↓reduceIte]

/-- A number selects some body exactly if it is usable. -/
theorem exists_selects_iff (filled : g.eligible A depth ≠ []) :
    (∃ body, g.Selects depth A v body) ↔
      Source.usable (g.eligible A depth).length v.toNat = true := by
  constructor
  · rintro ⟨body, selects⟩
    exact (selects_iff.mp selects).1
  · intro usable
    have inside := Source.index_lt (List.length_pos_iff.mpr filled) v.toNat_lt
    exact ⟨_, selects_iff.mpr ⟨usable, List.getElem?_eq_getElem inside⟩⟩

theorem rejects_of_unusable (filled : g.eligible A depth ≠ [])
    (unusable : Source.usable (g.eligible A depth).length v.toNat = false) :
    g.Rejects depth A v := by
  intro source patience place drawn
  have later : source.pick (g.eligible A depth).length place (patience + 1) =
      source.pick (g.eligible A depth).length (place + 1) patience := by
    simp only [Source.pick, drawn, unusable, Bool.false_eq_true, ↓reduceIte]
  have bodied : g.bodies A ≠ [] := fun bare =>
    filled (List.sublist_nil.mp (bare ▸ g.eligible_sublist A depth))
  apply Option.ext
  rintro ⟨result, next⟩
  simp only [chooseBody_eq_some_iff, Source.Picks, later, bodied, filled, false_and, and_false,
    false_or]

/-- A number is rejected exactly if it selects nothing. -/
theorem rejects_iff (filled : g.eligible A depth ≠ []) :
    g.Rejects depth A v ↔ ¬ ∃ body, g.Selects depth A v body := by
  constructor
  · rintro rejects ⟨body, selects⟩
    have chosen := selects (fun _ => v) 1 0 (Nat.le_refl 1) rfl
    rw [rejects (fun _ => v) 0 0 rfl, chooseBody_eq_none filled rfl] at chosen
    cases chosen
  · intro unselected
    rw [exists_selects_iff filled, Bool.not_eq_true] at unselected
    exact rejects_of_unusable filled unselected

theorem WellFormed.eligible_nodup (wf : WellFormed guardsStart g) (A : Char) (depth : Nat) :
    (g.eligible A depth).Nodup :=
  (wf.bodies_nodup A).sublist (g.eligible_sublist A depth)

theorem WellFormed.ncard_selects (wf : WellFormed guardsStart g)
    (mem : body ∈ g.eligible A depth) :
    {v : UInt32 | g.Selects depth A v body}.ncard =
      2 ^ (31 - (g.eligible A depth).length.log2) := by
  obtain ⟨i, hi, rfl⟩ := List.mem_iff_getElem.mp mem
  have only (j : Nat) : (g.eligible A depth)[j]? = some (g.eligible A depth)[i] ↔ j = i := by
    rw [← List.getElem?_eq_getElem hi, eq_comm, List.getElem?_inj hi (wf.eligible_nodup A depth),
      eq_comm]
  rw [← Source.ncard_names hi (wf.eligible_few A depth)]
  simp only [selects_iff, only]

/-- **Choices are uniform.** The eligible bodies are fewer than the values of a draw, and no two of
them are alike. A number is used, and names an index, by the rule of 32-bit words. Each eligible
body is selected by `2 ^ k` numbers, `k` being the leading zeros of how many there are, and nothing
else is ever selected. A number that selects nothing is rejected for the one after it, and at least
half of all numbers are not. -/
theorem choices_uniform (reach : Reachable guardsStart g) (depth : Nat) (A : Char)
    (filled : g.eligible A depth ≠ []) :
    let n := BitVec.ofNat 32 (g.eligible A depth).length
    (g.eligible A depth).length < 2 ^ 32 ∧ (g.eligible A depth).Nodup ∧
    (∀ v body, g.Selects depth A v body ↔
      Source.accepts n v.toBitVec = true ∧
        (g.eligible A depth)[Source.upperHalf n v.toBitVec]? = some body) ∧
    (∀ body ∈ g.eligible A depth,
      {v : UInt32 | g.Selects depth A v body}.ncard = 2 ^ n.clz.toNat) ∧
    (∀ v body, g.Selects depth A v body → body ∈ g.eligible A depth) ∧
    (∀ v, g.Rejects depth A v ↔ ¬ ∃ body, g.Selects depth A v body) ∧
    2 ^ 31 ≤ {v : UInt32 | ∃ body, g.Selects depth A v body}.ncard := by
  have wf := reach.wellFormed
  have few := wf.eligible_few A depth
  have positive := List.length_pos_iff.mpr filled
  refine ⟨few, wf.eligible_nodup A depth, ?_, ?_, ?_, fun v => rejects_iff filled, ?_⟩
  · intro v body
    rw [selects_iff, Source.usable_eq_accepts positive few, Source.index_eq_upperHalf few]
  · intro body mem
    rw [wf.ncard_selects mem, Source.clz_word positive few]
  · intro v body selects
    exact List.mem_of_getElem? (selects_iff.mp selects).2
  · simp only [exists_selects_iff filled]
    rw [Source.ncard_usable positive few]
    exact Source.half_le_zone positive few

theorem choices_uniform_synonymous :
    let g := (empty true).afterAll synonymous
    Reachable true g ∧ (g.eligible 'A' 1).length = 3 ∧
      (∀ body ∈ g.eligible 'A' 1, {v : UInt32 | g.Selects 1 'A' v body}.ncard = 2 ^ 30) ∧
      g.Selects 1 'A' 0x80000000 (.terminal 'a') ∧ g.Rejects 1 'A' 0x40000000 := by
  have reach : Reachable true ((empty true).afterAll synonymous) := ⟨synonymous, rfl⟩
  obtain ⟨_, _, rule, counted, _, rejects, _⟩ := choices_uniform reach 1 'A' (by decide)
  refine ⟨reach, rfl, counted, (rule _ _).mpr ⟨by decide, by decide⟩, (rejects _).mpr ?_⟩
  rintro ⟨body, selects⟩
  exact absurd ((rule _ body).mp selects).1 (by decide)

end NormalForm.Grammar
