import NormalForm.Recognition

namespace NormalForm

namespace Heads

theorem of_file (heads : Heads) (pair key : Char × Char) (A : Char) :
    (heads.file pair A).of key = if key = pair then heads.of key ++ [A] else heads.of key := by
  induction heads with
  | nil =>
    by_cases hk : key = pair
    · simp [file, of, hk]
    · have hb : (key == pair) = false := by simpa using hk
      simp [file, of, List.lookup_cons, hk, hb]
  | cons entry rest ih =>
    obtain ⟨first, found⟩ := entry
    by_cases hf : first = pair
    · subst hf
      by_cases hk : key = first
      · simp [file, of, hk]
      · have hb : (key == first) = false := by simpa using hk
        simp [file, of, List.lookup_cons, hk, hb]
    · by_cases hk : key = first
      · subst hk
        simp [file, of, hf]
      · have hb : (key == first) = false := by simpa using hk
        simpa [file, of, List.lookup_cons, hf, hb] using ih

theorem mem_of_fileBody {heads : Heads} {A X B C : Char} {body : Body} :
    X ∈ (heads.fileBody A body).of (B, C) ↔ X ∈ heads.of (B, C) ∨ X = A ∧ body = .pair B C := by
  cases body with
  | terminal a => simp [fileBody]
  | pair B' C' =>
    simp only [fileBody, of_file, Prod.mk.injEq, Body.pair.injEq]
    split
    · rename_i same
      obtain ⟨rfl, rfl⟩ := same
      simp
    · rename_i differ
      have other : ¬(B' = B ∧ C' = C) := fun ⟨hB, hC⟩ => differ ⟨hB.symm, hC.symm⟩
      simp [other]

theorem mem_of_fileBodies {heads : Heads} {A X B C : Char} {bodies : List Body} :
    X ∈ (bodies.foldl (·.fileBody A) heads).of (B, C) ↔
      X ∈ heads.of (B, C) ∨ X = A ∧ .pair B C ∈ bodies := by
  induction bodies generalizing heads with
  | nil => simp
  | cons body rest ih =>
    rw [List.foldl_cons, ih, mem_of_fileBody, List.mem_cons]
    constructor
    · rintro ((h | ⟨hX, hb⟩) | ⟨hX, hb⟩)
      · exact Or.inl h
      · exact Or.inr ⟨hX, Or.inl hb.symm⟩
      · exact Or.inr ⟨hX, Or.inr hb⟩
    · rintro (h | ⟨hX, hb | hb⟩)
      · exact Or.inl (Or.inl h)
      · exact Or.inl (Or.inr ⟨hX, hb.symm⟩)
      · exact Or.inr ⟨hX, hb⟩

/-- A nonterminal is in a cell of the index if it is found for a pair between the two halves of some
split. -/
theorem contains_cell {heads : Heads} {splits : List (Cell × Cell)} {X : Char} :
    (heads.cell splits).contains X = true ↔
      ∃ left right, (left, right) ∈ splits ∧ ∃ B C, left.contains B = true ∧
        right.contains C = true ∧ X ∈ heads.of (B, C) := by
  simp only [cell, Cell.contains, decide_eq_true_eq, Cell.mem_ofList, List.mem_flatMap]
  constructor
  · rintro ⟨⟨left, right⟩, hs, B, hB, C, hC, hX⟩
    exact ⟨left, right, hs, B, C, hB, hC, hX⟩
  · rintro ⟨left, right, hs, B, C, hB, hC, hX⟩
    exact ⟨(left, right), hs, B, hB, C, hC, hX⟩

end Heads

namespace Grammar

/-- Looking a pair up gives the nonterminals that have it as a body. -/
theorem mem_of_heads {g : Grammar} {X B C : Char} :
    X ∈ g.heads.of (B, C) ↔ X ∈ g.nonterminals ∧ .pair B C ∈ g.bodies X := by
  have run (heads : Heads) (As : List Char) :
      X ∈ (As.foldl (fun heads A => (g.bodies A).foldl (·.fileBody A) heads) heads).of (B, C) ↔
        X ∈ heads.of (B, C) ∨ X ∈ As ∧ .pair B C ∈ g.bodies X := by
    induction As generalizing heads with
    | nil => simp
    | cons A rest ih =>
      rw [List.foldl_cons, ih, Heads.mem_of_fileBodies, List.mem_cons]
      constructor
      · rintro ((h | ⟨rfl, hb⟩) | ⟨hX, hb⟩)
        · exact Or.inl h
        · exact Or.inr ⟨Or.inl rfl, hb⟩
        · exact Or.inr ⟨Or.inr hX, hb⟩
      · rintro (h | ⟨rfl | hX, hb⟩)
        · exact Or.inl (Or.inl h)
        · exact Or.inl (Or.inr ⟨rfl, hb⟩)
        · exact Or.inr ⟨hX, hb⟩
  have whole := run [] g.nonterminals
  simpa [heads, Heads.of] using whole

theorem contains_letterCell {g : Grammar} {a X : Char} :
    (g.letterCell a).contains X = true ↔ X ∈ g.nonterminals ∧ .terminal a ∈ g.bodies X := by
  simp [letterCell, Cell.contains, Cell.mem_ofList]

end Grammar

end NormalForm
