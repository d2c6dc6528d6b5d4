namespace NormalForm

variable {α β ε ε' : Type} {outcome : Except ε α}

theorem map_eq_ok_iff {f : α → β} {b : β} :
    outcome.map f = .ok b ↔ ∃ a, outcome = .ok a ∧ f a = b := by
  cases outcome <;> simp [Except.map]

theorem map_eq_error_iff {f : α → β} {e : ε} : outcome.map f = .error e ↔ outcome = .error e := by
  cases outcome <;> simp [Except.map]

@[simp] theorem mapError_ok (f : ε → ε') (a : α) :
    (Except.ok a : Except ε α).mapError f = .ok a := rfl

@[simp] theorem mapError_error (f : ε → ε') (e : ε) :
    (Except.error e : Except ε α).mapError f = .error (f e) := rfl

theorem mapError_eq_ok_iff {f : ε → ε'} {a : α} : outcome.mapError f = .ok a ↔ outcome = .ok a := by
  cases outcome <;> simp

theorem mapError_eq_error_iff {f : ε → ε'} {e' : ε'} :
    outcome.mapError f = .error e' ↔ ∃ e, outcome = .error e ∧ f e = e' := by
  cases outcome <;> simp

theorem bind_eq_ok_iff {next : α → Except ε β} {b : β} :
    outcome.bind next = .ok b ↔ ∃ a, outcome = .ok a ∧ next a = .ok b := by
  cases outcome <;> simp [Except.bind]

section

variable {σ : Type} {s s' : σ} {first : ExceptT ε (StateM σ) α} {next : α → ExceptT ε (StateM σ) β}

/-- A failed first part ends the whole, and what it did to the state stays. -/
theorem run_bind : (first >>= next).run.run s =
    match first.run.run s with
    | (.ok a, s') => (next a).run.run s'
    | (.error e, s') => (.error e, s') := by
  rw [ExceptT.run_bind, StateT.run_bind]
  rcases first.run.run s with ⟨_ | _, _⟩ <;> rfl

theorem run_bind_ok {a : α} (h : first.run.run s = (.ok a, s')) :
    (first >>= next).run.run s = (next a).run.run s' := by
  rw [run_bind, h]

theorem run_bind_error {e : ε} (h : first.run.run s = (.error e, s')) :
    (first >>= next).run.run s = (.error e, s') := by
  rw [run_bind, h]

end

section

variable {f : α → Except ε β} {as : List α}

theorem mapM_eq_ok_iff {bs : List β} : as.mapM f = .ok bs ↔ as.map f = bs.map .ok := by
  induction as generalizing bs with
  | nil => cases bs <;> simp [pure, Except.pure]
  | cons a as ih =>
    cases ha : f a with
    | error e => cases bs <;> simp [List.mapM_cons, ha, bind, Except.bind]
    | ok b =>
      cases hm : as.mapM f with
      | error e => cases bs <;> simp [List.mapM_cons, ha, hm, bind, Except.bind, ← ih]
      | ok more =>
        cases bs <;> simp [List.mapM_cons, ha, hm, bind, Except.bind, pure, Except.pure, ← ih]

/-- The first error is the outcome. -/
theorem mapM_eq_error_iff {e : ε} : as.mapM f = .error e ↔ ∃ (before after : List α) (a : α)
    (bs : List β), as = before ++ a :: after ∧ before.map f = bs.map .ok ∧ f a = .error e := by
  constructor
  · intro h
    induction as with
    | nil => cases h
    | cons a as ih =>
      rw [List.mapM_cons] at h
      cases ha : f a with
      | error e' =>
        rw [ha] at h
        cases h
        exact ⟨[], as, a, [], rfl, rfl, ha⟩
      | ok b =>
        cases hm : as.mapM f with
        | ok bs =>
          rw [ha, hm] at h
          cases h
        | error e' =>
          rw [ha, hm] at h
          cases h
          obtain ⟨before, after, bad, bs, rfl, fine, fails⟩ := ih hm
          exact ⟨a :: before, after, bad, b :: bs, rfl, by simp [ha, fine], fails⟩
  · rintro ⟨before, after, a, bs, rfl, fine, fails⟩
    rw [List.mapM_append, mapM_eq_ok_iff.mpr fine, List.mapM_cons, fails]
    rfl

end

end NormalForm
