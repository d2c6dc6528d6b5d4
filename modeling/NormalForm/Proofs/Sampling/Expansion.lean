import NormalForm.Proofs.Sampling.Numbers
import NormalForm.Sampling

/-! # Expansions

All that an expansion can do, said once as a relation with one case for each way it ends. Later
proofs go by induction on the relation, and unfold no computation. -/

namespace NormalForm

namespace Source

variable {source : Source} {patience : Nat}

theorem pick_lt {n place i next : Nat} (positive : 0 < n)
    (h : source.pick n place patience = some (i, next)) : i < n := by
  induction patience generalizing place with
  | zero => cases h
  | succ patience ih =>
    rw [pick] at h
    split at h
    · cases h
      exact index_lt positive (source place).toNat_lt
    · exact ih h

/-- An element of a list is the one that the draws from a place on pick. -/
def Picks (source : Source) (patience : Nat) {α : Type} (choices : List α) (place : Nat) (a : α)
    (next : Nat) : Prop :=
  ∃ i, source.pick choices.length place patience = some (i, next) ∧ choices[i]? = some a

theorem Picks.mem {α : Type} {choices : List α} {place next : Nat} {a : α}
    (h : source.Picks patience choices place a next) : a ∈ choices := by
  obtain ⟨i, _, hi⟩ := h
  exact List.mem_of_getElem? hi

theorem Picks.unique {α : Type} {choices : List α} {place next next' : Nat} {a a' : α}
    (h : source.Picks patience choices place a next)
    (h' : source.Picks patience choices place a' next') : a' = a ∧ next' = next := by
  obtain ⟨i, picked, hi⟩ := h
  obtain ⟨j, picked', hj⟩ := h'
  cases picked.symm.trans picked'
  cases hi.symm.trans hj
  exact ⟨rfl, rfl⟩

end Source

namespace Sampling

variable {α β : Type} {place next : Nat}

/-- A failed first part ends the whole, and the second part goes on from where the first ended. -/
theorem bind_eq_some_iff {first : Sampling α} {second : α → Sampling β}
    {result : Except SamplingError β} :
    (first >>= second).run.run place = some (result, next) ↔
      (∃ e, first.run.run place = some (.error e, next) ∧ result = .error e) ∨
      ∃ a middle, first.run.run place = some (.ok a, middle) ∧
        (second a).run.run middle = some (result, next) := by
  have opened : (first >>= second).run.run place =
      (first.run.run place).bind fun (outcome, middle) =>
        match outcome with
        | .ok a => (second a).run.run middle
        | .error e => some (.error e, middle) := by
    simp only [ExceptT.run_bind, StateT.run_bind]
    congr 1
    funext ⟨outcome, middle⟩
    cases outcome <;> rfl
  rw [opened]
  cases first.run.run place with
  | none => simp
  | some pair =>
    obtain ⟨outcome, middle⟩ := pair
    cases outcome with
    | ok a => simp [and_assoc]
    | error e => simp [and_assoc, eq_comm, and_comm]

theorem pure_eq_some_iff {a : α} {result : Except SamplingError α} :
    (pure a : Sampling α).run.run place = some (result, next) ↔ result = .ok a ∧ next = place := by
  change some (Except.ok a, place) = some (result, next) ↔ _
  simp [eq_comm]

theorem throw_eq_some_iff {e : SamplingError} {result : Except SamplingError α} :
    (throw e : Sampling α).run.run place = some (result, next) ↔
      result = .error e ∧ next = place := by
  change some (Except.error e, place) = some (result, next) ↔ _
  simp [eq_comm]

/-- All that choosing promises: an element of the list, and none only if there is none. -/
theorem choose_eq_some_iff {source : Source} {patience : Nat} {choices : List α}
    {result : Except SamplingError (Option α)} :
    (choose source patience choices).run.run place = some (result, next) ↔
      (choices = [] ∧ result = .ok none ∧ next = place) ∨
      ∃ a, result = .ok (some a) ∧ source.Picks patience choices place a next := by
  cases choices with
  | nil =>
    change some (Except.ok none, place) = some (result, next) ↔ _
    simp [Source.Picks, eq_comm]
  | cons c rest =>
    change (source.pick (c :: rest).length place patience).map
      (fun picked => (Except.ok (c :: rest)[picked.1]?, picked.2)) = some (result, next) ↔ _
    simp only [Option.map_eq_some_iff, Prod.exists, Prod.mk.injEq, reduceCtorEq, false_and,
      false_or, Source.Picks]
    constructor
    · rintro ⟨i, _, picked, rfl, rfl⟩
      have inside : i < (c :: rest).length := Source.pick_lt (Nat.succ_pos _) picked
      exact ⟨(c :: rest)[i], by rw [List.getElem?_eq_getElem inside], i, picked,
        List.getElem?_eq_getElem inside⟩
    · rintro ⟨a, rfl, i, picked, hi⟩
      exact ⟨i, next, picked, by rw [hi], rfl⟩

end Sampling

namespace Grammar

open Sampling

variable {g : Grammar} {source : Source} {patience depth place next : Nat} {A : Char}

theorem eligible_sublist (g : Grammar) (A : Char) (depth : Nat) :
    (g.eligible A depth).Sublist (g.bodies A) := by
  cases depth with
  | zero => exact List.filter_sublist
  | succ depth => exact List.Sublist.refl _

/-- With depth left, every body is eligible. -/
theorem nothingEligible_eq (filled : g.bodies A ≠ []) (nothing : g.eligible A depth = []) :
    SamplingError.nothingEligible A depth = .outOfDepth A := by
  cases depth with
  | zero => rfl
  | succ depth => exact absurd nothing filled

theorem chooseBody_eq_some_iff {result : Except SamplingError Body} :
    (g.chooseBody source patience depth A).run.run place = some (result, next) ↔
      (g.bodies A = [] ∧ result = .error (.noBodies A) ∧ next = place) ∨
      (g.bodies A ≠ [] ∧ g.eligible A depth = [] ∧ result = .error (.outOfDepth A) ∧
        next = place) ∨
      ∃ body, result = .ok body ∧ source.Picks patience (g.eligible A depth) place body next := by
  unfold chooseBody
  split
  · rename_i empty
    have bare : g.bodies A = [] := List.isEmpty_iff.mp empty
    have nothing : g.eligible A depth = [] :=
      List.sublist_nil.mp (bare ▸ g.eligible_sublist A depth)
    simp only [bind_eq_some_iff, throw_eq_some_iff, Except.error.injEq, reduceCtorEq, false_and,
      exists_false, or_false, bare, nothing, ne_eq, not_true_eq_false, true_and, false_or]
    constructor
    · rintro ⟨e, ⟨rfl, same⟩, result⟩
      exact Or.inl ⟨result, same⟩
    · rintro (⟨result, same⟩ | ⟨_, _, picks⟩)
      · exact ⟨_, ⟨rfl, same⟩, result⟩
      · exact absurd picks.mem List.not_mem_nil
  · rename_i occupied
    have filled : g.bodies A ≠ [] := fun bare => occupied (List.isEmpty_iff.mpr bare)
    simp only [bind_eq_some_iff, choose_eq_some_iff]
    constructor
    · rintro (⟨e, (⟨_, clash, _⟩ | ⟨_, clash, _⟩), _⟩ | ⟨chosen, middle, chosen_eq, rest⟩)
      · cases clash
      · cases clash
      · rcases chosen_eq with ⟨nothing, same, rfl⟩ | ⟨body, same, picks⟩
        · cases same
          rw [nothingEligible_eq filled nothing] at rest
          exact Or.inr (Or.inl ⟨filled, nothing, throw_eq_some_iff.mp rest⟩)
        · cases same
          obtain ⟨result, rfl⟩ := pure_eq_some_iff.mp rest
          exact Or.inr (Or.inr ⟨body, result, picks⟩)
    · rintro (⟨bare, _⟩ | ⟨_, nothing, result, rfl⟩ | ⟨body, result, picks⟩)
      · exact absurd bare filled
      · refine Or.inr ⟨_, _, Or.inl ⟨nothing, rfl, rfl⟩, ?_⟩
        rw [nothingEligible_eq filled nothing]
        exact throw_eq_some_iff.mpr ⟨result, rfl⟩
      · exact Or.inr ⟨_, _, Or.inr ⟨body, rfl, picks⟩, pure_eq_some_iff.mpr ⟨result, rfl⟩⟩

/-- How a nonterminal expands with the draws from a place on, and the place after them. -/
inductive Expansion (g : Grammar) (source : Source) (patience : Nat) :
    (depth : Nat) → (A : Char) → (place : Nat) → Except SamplingError (List Char) →
      (next : Nat) → Prop
  | noBodies {depth place : Nat} {A : Char} : g.bodies A = [] →
      Expansion g source patience depth A place (.error (.noBodies A)) place
  | outOfDepth {depth place : Nat} {A : Char} : g.bodies A ≠ [] → g.eligible A depth = [] →
      Expansion g source patience depth A place (.error (.outOfDepth A)) place
  | letter {depth place next : Nat} {A a : Char} :
      source.Picks patience (g.eligible A depth) place (.terminal a) next →
      Expansion g source patience depth A place (.ok [a]) next
  | leftFails {depth place middle next : Nat} {A B C : Char} {e : SamplingError} :
      source.Picks patience (g.eligible A (depth + 1)) place (.pair B C) middle →
      Expansion g source patience depth B middle (.error e) next →
      Expansion g source patience (depth + 1) A place (.error e) next
  | rightFails {depth place first second next : Nat} {A B C : Char} {left : List Char}
      {e : SamplingError} :
      source.Picks patience (g.eligible A (depth + 1)) place (.pair B C) first →
      Expansion g source patience depth B first (.ok left) second →
      Expansion g source patience depth C second (.error e) next →
      Expansion g source patience (depth + 1) A place (.error e) next
  | pair {depth place first second next : Nat} {A B C : Char} {left right : List Char} :
      source.Picks patience (g.eligible A (depth + 1)) place (.pair B C) first →
      Expansion g source patience depth B first (.ok left) second →
      Expansion g source patience depth C second (.ok right) next →
      Expansion g source patience (depth + 1) A place (.ok (left ++ right)) next

theorem chooseBody_ok_iff {body : Body} :
    (g.chooseBody source patience depth A).run.run place = some (.ok body, next) ↔
      source.Picks patience (g.eligible A depth) place body next := by
  rw [chooseBody_eq_some_iff]
  simp

theorem chooseBody_error_iff {e : SamplingError} :
    (g.chooseBody source patience depth A).run.run place = some (.error e, next) ↔
      (g.bodies A = [] ∧ e = .noBodies A ∧ next = place) ∨
      (g.bodies A ≠ [] ∧ g.eligible A depth = [] ∧ e = .outOfDepth A ∧ next = place) := by
  rw [chooseBody_eq_some_iff]
  simp

theorem chooseBody_eq_none (eligible : g.eligible A depth ≠ [])
    (unpicked : source.pick (g.eligible A depth).length place patience = none) :
    (g.chooseBody source patience depth A).run.run place = none := by
  apply Option.eq_none_iff_forall_ne_some.mpr
  rintro ⟨result, next⟩ chosen
  rcases chooseBody_eq_some_iff.mp chosen with ⟨bare, _⟩ | ⟨_, nothing, _⟩ | ⟨_, _, _, picked, _⟩
  · exact eligible (List.sublist_nil.mp (bare ▸ g.eligible_sublist A depth))
  · exact eligible nothing
  · cases unpicked.symm.trans picked

/-- The choice of a body fails, or the rest of the expansion goes on with it. -/
theorem expand_cases {result : Except SamplingError (List Char)}
    (h : (g.expand source patience depth A).run.run place = some (result, next)) :
    (∃ e, (g.chooseBody source patience depth A).run.run place = some (.error e, next) ∧
      result = .error e) ∨
    ∃ body middle, source.Picks patience (g.eligible A depth) place body middle ∧
      ((∃ a, body = .terminal a ∧ result = .ok [a] ∧ next = middle) ∨
      ∃ shallower B C, depth = shallower + 1 ∧ body = .pair B C ∧
        (do
          let left ← g.expand source patience shallower B
          let right ← g.expand source patience shallower C
          return left ++ right : Sampling (List Char)).run.run middle = some (result, next)) := by
  cases depth with
  | zero =>
    rw [expand] at h
    rcases bind_eq_some_iff.mp h with failed | ⟨body, middle, chosen, rest⟩
    · exact Or.inl failed
    · have picks := chooseBody_ok_iff.mp chosen
      refine Or.inr ⟨body, middle, picks, ?_⟩
      cases body with
      | terminal a => exact Or.inl ⟨a, rfl, pure_eq_some_iff.mp rest⟩
      | pair B C =>
        -- without depth only letters are eligible
        cases (List.mem_filter.mp picks.mem).2
  | succ depth =>
    rw [expand] at h
    rcases bind_eq_some_iff.mp h with failed | ⟨body, middle, chosen, rest⟩
    · exact Or.inl failed
    · refine Or.inr ⟨body, middle, chooseBody_ok_iff.mp chosen, ?_⟩
      cases body with
      | terminal a => exact Or.inl ⟨a, rfl, pure_eq_some_iff.mp rest⟩
      | pair B C => exact Or.inr ⟨depth, B, C, rfl, rfl, rest⟩

theorem expansion_of_expand {result : Except SamplingError (List Char)}
    (h : (g.expand source patience depth A).run.run place = some (result, next)) :
    Expansion g source patience depth A place result next := by
  induction depth using Nat.strongRecOn generalizing A place result next with
  | ind depth ih =>
    rcases expand_cases h with ⟨e, failed, rfl⟩ |
      ⟨body, middle, picks, ⟨a, rfl, rfl, rfl⟩ | ⟨shallower, B, C, rfl, rfl, rest⟩⟩
    · rcases chooseBody_error_iff.mp failed with ⟨bare, rfl, rfl⟩ | ⟨filled, nothing, rfl, rfl⟩
      · exact .noBodies bare
      · exact .outOfDepth filled nothing
    · exact .letter picks
    · have less := Nat.lt_succ_self shallower
      rcases bind_eq_some_iff.mp rest with ⟨e, hl, rfl⟩ | ⟨left, second, hl, rest⟩
      · exact .leftFails picks (ih shallower less hl)
      · rcases bind_eq_some_iff.mp rest with ⟨e, hr, rfl⟩ | ⟨right, last, hr, rest⟩
        · exact .rightFails picks (ih shallower less hl) (ih shallower less hr)
        · obtain ⟨rfl, rfl⟩ := pure_eq_some_iff.mp rest
          exact .pair picks (ih shallower less hl) (ih shallower less hr)

theorem expand_of_error {e : SamplingError}
    (h : (g.chooseBody source patience depth A).run.run place = some (.error e, next)) :
    (g.expand source patience depth A).run.run place = some (.error e, next) := by
  cases depth with
  | zero => rw [expand]; exact bind_eq_some_iff.mpr (Or.inl ⟨e, h, rfl⟩)
  | succ depth => rw [expand]; exact bind_eq_some_iff.mpr (Or.inl ⟨e, h, rfl⟩)

theorem expand_of_pair {B C : Char} {middle : Nat} {result : Except SamplingError (List Char)}
    (picks : source.Picks patience (g.eligible A (depth + 1)) place (.pair B C) middle)
    (rest : (do
      let left ← g.expand source patience depth B
      let right ← g.expand source patience depth C
      return left ++ right : Sampling (List Char)).run.run middle = some (result, next)) :
    (g.expand source patience (depth + 1) A).run.run place = some (result, next) := by
  rw [expand]
  exact bind_eq_some_iff.mpr (Or.inr ⟨_, _, chooseBody_ok_iff.mpr picks, rest⟩)

theorem Expansion.expand_eq {result : Except SamplingError (List Char)}
    (h : Expansion g source patience depth A place result next) :
    (g.expand source patience depth A).run.run place = some (result, next) := by
  induction h with
  | noBodies bare =>
    exact expand_of_error (chooseBody_error_iff.mpr (Or.inl ⟨bare, rfl, rfl⟩))
  | outOfDepth filled nothing =>
    exact expand_of_error (chooseBody_error_iff.mpr (Or.inr ⟨filled, nothing, rfl, rfl⟩))
  | @letter depth place next A a picks =>
    have chosen := chooseBody_ok_iff.mpr picks
    have done : (return [a] : Sampling (List Char)).run.run next = some (.ok [a], next) := rfl
    cases depth with
    | zero => rw [expand]; exact bind_eq_some_iff.mpr (Or.inr ⟨_, _, chosen, done⟩)
    | succ depth => rw [expand]; exact bind_eq_some_iff.mpr (Or.inr ⟨_, _, chosen, done⟩)
  | leftFails picks _ ihl =>
    exact expand_of_pair picks (bind_eq_some_iff.mpr (Or.inl ⟨_, ihl, rfl⟩))
  | rightFails picks _ _ ihl ihr =>
    refine expand_of_pair picks (bind_eq_some_iff.mpr (Or.inr ⟨_, _, ihl, ?_⟩))
    exact bind_eq_some_iff.mpr (Or.inl ⟨_, ihr, rfl⟩)
  | pair picks _ _ ihl ihr =>
    refine expand_of_pair picks (bind_eq_some_iff.mpr (Or.inr ⟨_, _, ihl, ?_⟩))
    exact bind_eq_some_iff.mpr (Or.inr ⟨_, _, ihr, pure_eq_some_iff.mpr ⟨rfl, rfl⟩⟩)

/-- A run ends with a result exactly if there is an expansion that does. -/
theorem sampleFrom_eq_some_iff {result : Except SamplingError (List Char)} :
    g.sampleFrom source patience depth A place = some (result, next) ↔
      Expansion g source patience depth A place result next :=
  ⟨expansion_of_expand, Expansion.expand_eq⟩

theorem Expansion.unique {result result' : Except SamplingError (List Char)} {next' : Nat}
    (h : Expansion g source patience depth A place result next)
    (h' : Expansion g source patience depth A place result' next') :
    result' = result ∧ next' = next := by
  have same := (sampleFrom_eq_some_iff.mpr h).symm.trans (sampleFrom_eq_some_iff.mpr h')
  simpa [eq_comm] using same

theorem sample_eq_some_iff {result : Except SamplingError (List Char)} :
    g.sample source patience depth place = some (result, next) ↔
      (g.start = none ∧ result = .error .noStart ∧ next = place) ∨
      ∃ S, g.start = some S ∧ Expansion g source patience depth S place result next := by
  unfold sample
  cases hs : g.start with
  | none => simp [eq_comm]
  | some S => simp [sampleFrom_eq_some_iff]

end Grammar

end NormalForm
