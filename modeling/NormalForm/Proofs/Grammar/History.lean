import Mathlib.Data.List.Induction
import NormalForm.Proofs.Grammar.Run

namespace NormalForm.Grammar

variable {guardsStart : Bool} {g g' : Grammar} {edit : Edit} {history before after : List Edit}

/-- The edit is accepted after the history. -/
def Accepts (g : Grammar) (history : List Edit) (edit : Edit) : Prop :=
  ∃ g', (g.afterAll history).apply edit = .ok g'

/-- The edit stands in the history between others and is accepted there, and nothing is cleared
after it. -/
structure Lasting (g : Grammar) (history before : List Edit) (edit : Edit)
    (after : List Edit) : Prop where
  split : history = before ++ edit :: after
  accepted : g.Accepts before edit
  kept : .clear ∉ after

theorem afterAll_concat (g : Grammar) (history : List Edit) (edit : Edit) :
    g.afterAll (history ++ [edit]) = (g.afterAll history).after edit := by
  simp [afterAll, List.foldl_append]

theorem lasting_last (accepted : g.Accepts history edit) :
    g.Lasting (history ++ [edit]) history edit [] :=
  ⟨rfl, accepted, List.not_mem_nil⟩

theorem Lasting.concat (h : g.Lasting history before edit after) {last : Edit}
    (kept : last ≠ .clear) : g.Lasting (history ++ [last]) before edit (after ++ [last]) where
  split := by rw [h.split, List.append_assoc, List.cons_append]
  accepted := h.accepted
  kept := by
    intro cleared
    rcases List.mem_append.mp cleared with cleared | cleared
    · exact h.kept cleared
    · exact kept (List.mem_singleton.mp cleared).symm

/-- The last edit of a history steps, or it is refused and changes nothing. -/
theorem last_cases (g : Grammar) (history : List Edit) (edit : Edit) :
    Step (g.afterAll history) edit (g.afterAll (history ++ [edit])) ∧ g.Accepts history edit ∨
    g.afterAll (history ++ [edit]) = g.afterAll history ∧ edit ≠ .clear ∧
      ¬ g.Accepts history edit := by
  rw [afterAll_concat]
  unfold after Accepts
  cases h : (g.afterAll history).apply edit with
  | ok next => exact Or.inl ⟨step_of_apply h, next, rfl⟩
  | error e =>
    refine Or.inr ⟨rfl, ?_, by simp⟩
    rintro rfl
    cases h

/-- A body is there before a step, or the step adds it. -/
theorem WellFormed.body_cases (wf : WellFormed guardsStart g) (step : Step g edit g') {A : Char}
    {body : Body} (h : body ∈ g'.bodies A) :
    edit ≠ .clear ∧ (body ∈ g.bodies A ∨ edit = .production A body.text) := by
  cases step with
  | nonterminal => rw [bodies_register] at h; exact ⟨nofun, Or.inl h⟩
  | terminal => exact ⟨nofun, Or.inl h⟩
  | start => exact ⟨nofun, Or.inl h⟩
  | @production head added known _ _ =>
    refine ⟨nofun, ?_⟩
    by_cases hA : A = head
    · subst hA
      rw [bodies_append_self g added (wf.keys ▸ known)] at h
      rcases List.mem_append.mp h with h | h
      · exact Or.inl h
      · exact Or.inr (by rw [List.mem_singleton.mp h])
    · rw [bodies_append_of_ne g added hA] at h
      exact Or.inl h
  | clear => cases h

/-- A start symbol is there before a step, or the step sets it. -/
theorem Step.start_cases (step : Step g edit g') {S : Char} (h : g'.start = some S) :
    edit = .start S ∨ edit ≠ .clear ∧ (∀ T, edit ≠ .start T) ∧ g.start = some S := by
  cases step with
  | nonterminal => exact Or.inr ⟨nofun, nofun, h⟩
  | terminal => exact Or.inr ⟨nofun, nofun, h⟩
  | production => exact Or.inr ⟨nofun, nofun, h⟩
  | start => cases h; exact Or.inl rfl
  | clear => cases h

theorem reachable_afterAll (guardsStart : Bool) (history : List Edit) :
    Reachable guardsStart ((empty guardsStart).afterAll history) :=
  ⟨history, rfl⟩

/-- Every body was added, and nothing was cleared since. -/
theorem exists_added {A : Char} {body : Body}
    (h : body ∈ ((empty guardsStart).afterAll history).bodies A) :
    ∃ before after, (empty guardsStart).Lasting history before (.production A body.text) after := by
  induction history using List.reverseRecOn with
  | nil => cases h
  | append_singleton history edit ih =>
    rcases last_cases (empty guardsStart) history edit with ⟨step, accepted⟩ | ⟨same, kept, _⟩
    · have wf := (reachable_afterAll guardsStart history).wellFormed
      obtain ⟨kept, old | rfl⟩ := wf.body_cases step h
      · obtain ⟨before, after, added⟩ := ih old
        exact ⟨before, after ++ [edit], added.concat kept⟩
      · exact ⟨history, [], lasting_last accepted⟩
    · obtain ⟨before, after, added⟩ := ih (same ▸ h)
      exact ⟨before, after ++ [edit], added.concat kept⟩

end NormalForm.Grammar
