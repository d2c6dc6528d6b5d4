import NormalForm.Proofs.Sampling.Draws

namespace NormalForm

namespace Source

variable {source : Source} {patience place middle next : Nat}

/-- The numbers from a place up to a later one fix a fact about a source, a patience and two places:
it holds wherever a source goes through them, with no less patience. -/
def Fixes (source : Source) (patience place next : Nat)
    (fact : Source → (patience place next : Nat) → Prop) : Prop :=
  ∃ draws : List UInt32, next = place + draws.length ∧ source.Begins place draws ∧
    ∀ (source' : Source) (patience' place' : Nat), patience ≤ patience' →
      source'.Begins place' draws → fact source' patience' place' (place' + draws.length)

theorem fixes_nothing {fact : Source → Nat → Nat → Nat → Prop}
    (holds : ∀ source patience place, fact source patience place place) :
    source.Fixes patience place place fact :=
  ⟨[], rfl, by simp [Begins], fun source' patience' place' _ _ => holds source' patience' place'⟩

/-- Two stretches of numbers, one after the other, fix the two facts that each of them fixes. -/
theorem Fixes.andThen {first second : Source → Nat → Nat → Nat → Prop}
    (before : source.Fixes patience place middle first)
    (after : source.Fixes patience middle next second) :
    source.Fixes patience place next fun source patience place next =>
      ∃ middle, first source patience place middle ∧ second source patience middle next := by
  obtain ⟨draws, rfl, begins, holds⟩ := before
  obtain ⟨more, rfl, begins_more, holds_more⟩ := after
  refine ⟨draws ++ more, ?_, begins_append.mpr ⟨begins, begins_more⟩, ?_⟩
  · rw [List.length_append, Nat.add_assoc]
  · intro source' patience' place' enough begins'
    obtain ⟨begins', begins_more'⟩ := begins_append.mp begins'
    refine ⟨_, holds _ _ _ enough begins', ?_⟩
    rw [List.length_append, ← Nat.add_assoc]
    exact holds_more _ _ _ enough begins_more'

theorem Fixes.mono {fact weaker : Source → Nat → Nat → Nat → Prop}
    (h : source.Fixes patience place next fact)
    (follows : ∀ source patience place next, fact source patience place next →
      weaker source patience place next) : source.Fixes patience place next weaker := by
  obtain ⟨draws, same, begins, holds⟩ := h
  exact ⟨draws, same, begins, fun source' patience' place' enough begins' =>
    follows _ _ _ _ (holds source' patience' place' enough begins')⟩

/-- What a source fixes holds of it, however much more patience there is. -/
theorem Fixes.patient {fact : Source → Nat → Nat → Nat → Prop}
    (h : source.Fixes patience place next fact) {patience' : Nat} (enough : patience ≤ patience') :
    fact source patience' place next := by
  obtain ⟨draws, rfl, begins, holds⟩ := h
  exact holds source patience' place enough begins

theorem pick_fixes {n i : Nat} (h : source.pick n place patience = some (i, next)) :
    source.Fixes patience place next fun source patience place next =>
      source.pick n place patience = some (i, next) := by
  induction patience generalizing place with
  | zero => cases h
  | succ patience ih =>
    rw [pick] at h
    split at h
    · rename_i usable
      cases h
      refine ⟨[source place], rfl, begins_cons.mpr ⟨rfl, by simp [Begins]⟩, ?_⟩
      intro source' patience' place' enough begins
      obtain ⟨drawn, _⟩ := begins_cons.mp begins
      obtain ⟨patience', rfl⟩ := Nat.exists_eq_add_of_le' (Nat.le_trans (Nat.succ_pos _) enough)
      rw [pick, drawn, if_pos usable]
      rfl
    · rename_i refused
      obtain ⟨draws, rfl, begins, picks⟩ := ih h
      refine ⟨source place :: draws, ?_, begins_cons.mpr ⟨rfl, begins⟩, ?_⟩
      · rw [List.length_cons, Nat.add_assoc, Nat.add_comm 1]
      · intro source' patience' place' enough begins'
        obtain ⟨drawn, begins'⟩ := begins_cons.mp begins'
        obtain ⟨patience', rfl⟩ := Nat.exists_eq_add_of_le' (Nat.le_trans (Nat.succ_pos _) enough)
        rw [pick, drawn, if_neg refused, picks _ _ _ (Nat.le_of_succ_le_succ enough) begins',
          List.length_cons, Nat.add_assoc, Nat.add_comm 1]

theorem Picks.fixes {α : Type} {choices : List α} {a : α}
    (h : source.Picks patience choices place a next) :
    source.Fixes patience place next fun source patience place next =>
      source.Picks patience choices place a next := by
  obtain ⟨i, picked, hi⟩ := h
  exact (pick_fixes picked).mono fun _ _ _ _ picked => ⟨i, picked, hi⟩

end Source

namespace Grammar

variable {g : Grammar} {source : Source} {patience depth place next : Nat} {A : Char}

theorem Expansion.fixes {result : Except SamplingError (List Char)}
    (h : Expansion g source patience depth A place result next) :
    source.Fixes patience place next fun source patience place next =>
      Expansion g source patience depth A place result next := by
  induction h with
  | noBodies bare => exact Source.fixes_nothing fun _ _ _ => .noBodies bare
  | outOfDepth filled nothing => exact Source.fixes_nothing fun _ _ _ => .outOfDepth filled nothing
  | letter picks => exact picks.fixes.mono fun _ _ _ _ => .letter
  | leftFails picks _ ihl =>
    refine (picks.fixes.andThen ihl).mono ?_
    rintro _ _ _ _ ⟨_, picks, left⟩
    exact .leftFails picks left
  | rightFails picks _ _ ihl ihr =>
    refine (picks.fixes.andThen (ihl.andThen ihr)).mono ?_
    rintro _ _ _ _ ⟨_, picks, _, left, right⟩
    exact .rightFails picks left right
  | pair picks _ _ ihl ihr =>
    refine (picks.fixes.andThen (ihl.andThen ihr)).mono ?_
    rintro _ _ _ _ ⟨_, picks, _, left, right⟩
    exact .pair picks left right

/-- With more patience an expansion ends as it did. -/
theorem Expansion.patient {result : Except SamplingError (List Char)}
    (h : Expansion g source patience depth A place result next) {patience' : Nat}
    (enough : patience ≤ patience') : Expansion g source patience' depth A place result next :=
  h.fixes.patient enough

end Grammar

end NormalForm
