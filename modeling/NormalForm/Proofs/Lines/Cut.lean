import Mathlib.Data.List.Induction
import NormalForm.Lines

namespace NormalForm.Lines

variable {α : Type} [DecidableEq α] {newline carriage : α} {line text rest : List α}
  {lines : List (List α)}

/-- What stands before a newline, without a carriage at its end. -/
def strip (carriage : α) (line : List α) : List α :=
  if line.getLast? = some carriage then line.dropLast else line

inductive Cuts (newline carriage : α) : List α → List (List α) → Prop
  | nothing : Cuts newline carriage [] []
  | last {line : List α} : line ≠ [] → newline ∉ line → Cuts newline carriage line [line]
  | next {line rest : List α} {lines : List (List α)} : newline ∉ line →
      Cuts newline carriage rest lines →
      Cuts newline carriage (line ++ newline :: rest) (strip carriage line :: lines)

theorem strip_cons (c : α) (nonempty : line ≠ []) :
    strip carriage (c :: line) = c :: strip carriage line := by
  obtain ⟨d, line, rfl⟩ := List.exists_cons_of_ne_nil nonempty
  by_cases ends : (d :: line).getLast? = some carriage
  · simp [strip, ends, List.getLast?_cons_cons]
  · simp [strip, ends, List.getLast?_cons_cons]

/-- A line is what is left of it, or that and a carriage. -/
theorem eq_strip_or (carriage : α) (line : List α) :
    strip carriage line = line ∨ line = strip carriage line ++ [carriage] := by
  by_cases ends : line.getLast? = some carriage
  · obtain ⟨kept, rfl⟩ := List.getLast?_eq_some_iff.mp ends
    right
    simp [strip]
  · exact Or.inl (if_neg ends)

theorem split_last (nonempty : line ≠ []) (whole : newline ∉ line) :
    split newline carriage line = [line] := by
  induction line with
  | nil => exact absurd rfl nonempty
  | cons c line ih =>
    have notNewline : c ≠ newline := (List.ne_of_not_mem_cons whole).symm
    cases line with
    | nil => simp [split, notNewline]
    | cons d line =>
      have whole := List.not_mem_of_not_mem_cons whole
      have other : d ≠ newline := (List.ne_of_not_mem_cons whole).symm
      rw [split, if_neg notNewline, if_neg fun both => other both.2,
        ih (List.cons_ne_nil _ _) whole]

theorem split_next (whole : newline ∉ line) (rest : List α) :
    split newline carriage (line ++ newline :: rest) =
      strip carriage line :: split newline carriage rest := by
  induction line with
  | nil => cases rest <;> simp [split, strip]
  | cons c line ih =>
    have notNewline : c ≠ newline := (List.ne_of_not_mem_cons whole).symm
    have whole := List.not_mem_of_not_mem_cons whole
    cases line with
    | nil =>
      by_cases carried : c = carriage
      · subst carried
        simp [split, strip, notNewline]
      · have tail := ih whole
        rw [List.nil_append] at tail
        rw [List.cons_append, List.nil_append, split, if_neg notNewline,
          if_neg fun both => carried both.1, tail]
        simp [strip, carried]
    | cons d line =>
      have other : d ≠ newline := (List.ne_of_not_mem_cons whole).symm
      have tail := ih whole
      rw [List.cons_append] at tail
      rw [List.cons_append, List.cons_append, split, if_neg notNewline,
        if_neg fun both => other both.2, tail, strip_cons c (List.cons_ne_nil _ _)]

/-- Lines without breaks, each ended by a newline, are found again. -/
theorem split_lines {lines : List (List Char)}
    (h : ∀ line ∈ lines, ∀ c ∈ line, c ≠ '\n' ∧ c ≠ '\r') :
    split '\n' '\r' (lines.flatMap (· ++ ['\n'])) = lines := by
  induction lines with
  | nil => rfl
  | cons line lines ih =>
    obtain ⟨first, h⟩ := List.forall_mem_cons.mp h
    have whole : '\n' ∉ line := fun mem => (first _ mem).1 rfl
    have uncarried : strip '\r' line = line :=
      if_neg fun ends => (first _ (List.mem_of_getLast? ends)).2 rfl
    rw [List.flatMap_cons, List.append_assoc, List.singleton_append, split_next whole, uncarried,
      ih h]

/-- A text is cut into the lines that are found. -/
theorem cuts_split (newline carriage : α) (text : List α) :
    Cuts newline carriage text (split newline carriage text) := by
  by_cases more : newline ∈ text
  · obtain ⟨line, rest, same, whole⟩ := List.eq_append_cons_of_mem more
    have shorter : rest.length < text.length := by simp [same]; omega
    rw [same, split_next whole]
    exact .next whole (cuts_split newline carriage rest)
  · cases text with
    | nil => exact .nothing
    | cons c text =>
      rw [split_last (List.cons_ne_nil _ _) more]
      exact .last (List.cons_ne_nil _ _) more
termination_by text.length

/-- Line by line: a last line may be empty, and no newline follows it. -/
@[elab_as_elim]
theorem line_induction (newline : α) {motive : List α → Prop}
    (last : ∀ line, newline ∉ line → motive line)
    (next : ∀ line rest, newline ∉ line → motive rest → motive (line ++ newline :: rest))
    (text : List α) : motive text := by
  -- The carriage matters to the lines that are found, not to where they are cut.
  obtain ⟨lines, cuts⟩ : ∃ lines, Cuts newline newline text lines :=
    ⟨_, cuts_split newline newline text⟩
  induction cuts with
  | nothing => exact last [] (by simp)
  | last _ whole => exact last _ whole
  | next whole _ ih => exact next _ _ whole ih

theorem Cuts.split_eq (h : Cuts newline carriage text lines) :
    split newline carriage text = lines := by
  induction h with
  | nothing => rfl
  | last nonempty whole => exact split_last nonempty whole
  | next whole _ ih => rw [split_next whole, ih]

/-- Nothing, or lines that all end in a newline. -/
def Closed (newline : α) (text : List α) : Prop := text = [] ∨ text.getLast? = some newline

theorem split_append {above : List α} (closed : Closed newline above) (rest : List α) :
    split newline carriage (above ++ rest) =
      split newline carriage above ++ split newline carriage rest := by
  induction above using line_induction newline with
  | last line whole =>
    rcases closed with rfl | ends
    · rfl
    · exact absurd (List.mem_of_getLast? ends) whole
  | next line below whole ih =>
    have closed : Closed newline below := by
      rcases closed with empty | ends
      · simp at empty
      · cases below with
        | nil => exact Or.inl rfl
        | cons c below =>
          exact Or.inr (by simpa [List.getLast?_append, List.getLast?_cons_cons] using ends)
    rw [List.append_assoc, List.cons_append, split_next whole, ih closed, split_next whole,
      List.cons_append]

/-- What stands before a place in its line, and the lines above it. -/
theorem exists_closed (newline : α) (text : List α) : ∃ above before, text = above ++ before ∧
    Closed newline above ∧ newline ∉ before := by
  induction text using List.reverseRecOn with
  | nil => exact ⟨[], [], rfl, Or.inl rfl, by simp⟩
  | append_singleton text c ih =>
    by_cases ends : c = newline
    · exact ⟨text ++ [c], [], by simp, Or.inr (by simp [ends]), by simp⟩
    · obtain ⟨above, before, rfl, closed, whole⟩ := ih
      exact ⟨above, before ++ [c], by simp, closed, by simp [whole, Ne.symm ends]⟩

/-- What stands after a place in its line, and whether a newline ends the line. -/
theorem exists_after (newline : α) (text : List α) : ∃ after below, text = after ++ below ∧
    newline ∉ after ∧ (below = [] ∨ ∃ rest, below = newline :: rest) := by
  by_cases more : newline ∈ text
  · obtain ⟨after, rest, same, whole⟩ := List.eq_append_cons_of_mem more
    exact ⟨after, newline :: rest, same, whole, Or.inr ⟨rest, rfl⟩⟩
  · exact ⟨text, [], by simp, more, Or.inl rfl⟩

end NormalForm.Lines
