import NormalForm.Proofs.Outcome
import NormalForm.Proofs.Sampling.Expansion
import NormalForm.Sampling.Recorded

namespace NormalForm

namespace Record

/-- The record after numbers that were all refused. -/
def waste (r : Record) (misses : Nat) : Record :=
  { r with place := r.place + misses, refused := r.refused + misses }

/-- The record after numbers that were refused, and one that was not. -/
def settle (r : Record) (misses : Nat) : Record :=
  { r with place := r.place + misses + 1, refused := r.refused + misses }

def choose (r : Record) (misses : Nat) (body : Body) : Record :=
  { r.settle misses with chosen := r.chosen ++ [body] }

def write (r : Record) (letter : Char) : Record := { r with word := r.word ++ [letter] }

theorem waste_waste (r : Record) (misses more : Nat) :
    (r.waste misses).waste more = r.waste (more + misses) := by
  simp only [waste, Nat.add_assoc, Nat.add_comm misses]

theorem settle_waste (r : Record) (misses more : Nat) :
    (r.waste misses).settle more = r.settle (more + misses) := by
  simp only [waste, settle, Nat.add_assoc, Nat.add_comm misses]

end Record

namespace Recording

theorem run_pick (source : Source) (n patience : Nat) (r : Record) :
    (∃ i misses, source.pick n r.place patience = some (i, r.place + misses + 1) ∧
      (pick source n patience).run.run r = (.ok i, r.settle misses)) ∨
    source.pick n r.place patience = none ∧
      (pick source n patience).run.run r = (.error .impatient, r.waste patience) := by
  induction patience generalizing r with
  | zero => exact Or.inr ⟨rfl, rfl⟩
  | succ patience ih =>
    have drawn : (draw source).run.run r =
        (.ok (source r.place), { r with place := r.place + 1 }) := rfl
    rw [Source.pick, pick, run_bind_ok drawn]
    split
    · exact Or.inl ⟨_, 0, rfl, rfl⟩
    · have refused : (modify fun r => { r with refused := r.refused + 1 } : Recording Unit).run.run
          { r with place := r.place + 1 } = (.ok (), r.waste 1) := rfl
      rw [run_bind_ok refused]
      rcases ih (r.waste 1) with ⟨i, misses, picked, run⟩ | ⟨unpicked, run⟩
      · refine Or.inl ⟨i, misses + 1, ?_, by rw [run, Record.settle_waste]⟩
        rw [Nat.add_comm misses, ← Nat.add_assoc]
        exact picked
      · exact Or.inr ⟨unpicked, by rw [run, Record.waste_waste]⟩

theorem run_choose {α : Type} (source : Source) (patience : Nat) (choices : List α) (r : Record) :
    (choices = [] ∧ (choose source patience choices).run.run r = (.ok none, r)) ∨
    (choices ≠ [] ∧ source.pick choices.length r.place patience = none ∧
      (choose source patience choices).run.run r = (.error .impatient, r.waste patience)) ∨
    ∃ a misses, source.Picks patience choices r.place a (r.place + misses + 1) ∧
      (choose source patience choices).run.run r = (.ok (some a), r.settle misses) := by
  by_cases empty : choices = []
  · exact Or.inl ⟨empty, by simp only [choose, empty]; rfl⟩
  · have nonempty : choices.isEmpty = false := List.isEmpty_eq_false_iff.mpr empty
    right
    simp only [choose, nonempty, Bool.false_eq_true, if_false]
    rcases run_pick source choices.length patience r with
      ⟨i, misses, picked, run⟩ | ⟨unpicked, run⟩
    · have inside := Source.pick_lt (List.length_pos_iff.mpr empty) picked
      have found := List.getElem?_eq_getElem inside
      refine Or.inr ⟨choices[i], misses, ⟨i, picked, found⟩, ?_⟩
      rw [run_bind_ok run, found]
      rfl
    · exact Or.inl ⟨empty, unpicked, run_bind_error run⟩

end Recording

namespace Grammar

variable {g : Grammar} {source : Source} {patience depth : Nat} {A : Char} {r r' : Record}
  {ending : Except Halt Unit}

theorem run_recordBody (g : Grammar) (source : Source) (patience depth : Nat) (A : Char)
    (r : Record) :
    (∃ e, (g.chooseBody source patience depth A).run.run r.place = some (.error e, r.place) ∧
      (g.recordBody source patience depth A).run.run r = (.error (.failed e), r)) ∨
    ((g.chooseBody source patience depth A).run.run r.place = none ∧
      (g.recordBody source patience depth A).run.run r = (.error .impatient, r.waste patience)) ∨
    ∃ body misses,
      source.Picks patience (g.eligible A depth) r.place body (r.place + misses + 1) ∧
      (g.recordBody source patience depth A).run.run r = (.ok body, r.choose misses body) := by
  by_cases bare : g.bodies A = []
  · refine Or.inl ⟨_, chooseBody_error_iff.mpr (Or.inl ⟨bare, rfl, rfl⟩), ?_⟩
    simp only [recordBody, bare]
    rfl
  · have occupied : (g.bodies A).isEmpty = false := List.isEmpty_eq_false_iff.mpr bare
    simp only [recordBody, occupied, Bool.false_eq_true, if_false]
    rcases Recording.run_choose source patience (g.eligible A depth) r with
      ⟨nothing, run⟩ | ⟨something, unpicked, run⟩ | ⟨body, misses, picks, run⟩
    · refine Or.inl ⟨_, chooseBody_error_iff.mpr (Or.inr ⟨bare, nothing, rfl, rfl⟩), ?_⟩
      rw [run_bind_ok run, ← nothingEligible_eq bare nothing]
      rfl
    · exact Or.inr (Or.inl ⟨chooseBody_eq_none something unpicked, run_bind_error run⟩)
    · refine Or.inr (Or.inr ⟨body, misses, picks, ?_⟩)
      rw [run_bind_ok run]
      rfl

/-- How an expansion ends that starts on a record, and the record that it leaves. -/
inductive Spelling (g : Grammar) (source : Source) (patience : Nat) :
    (depth : Nat) → (A : Char) → Record → Except Halt Unit → Record → Prop
  | fails {depth : Nat} {A : Char} {r : Record} {e : SamplingError} :
      (g.chooseBody source patience depth A).run.run r.place = some (.error e, r.place) →
      Spelling g source patience depth A r (.error (.failed e)) r
  | runsOut {depth : Nat} {A : Char} {r : Record} :
      (g.chooseBody source patience depth A).run.run r.place = none →
      Spelling g source patience depth A r (.error .impatient) (r.waste patience)
  | letter {depth misses : Nat} {A a : Char} {r : Record} :
      source.Picks patience (g.eligible A depth) r.place (.terminal a) (r.place + misses + 1) →
      Spelling g source patience depth A r (.ok ()) ((r.choose misses (.terminal a)).write a)
  | leftHalts {depth misses : Nat} {A B C : Char} {r r' : Record} {halt : Halt} :
      source.Picks patience (g.eligible A (depth + 1)) r.place (.pair B C)
        (r.place + misses + 1) →
      Spelling g source patience depth B (r.choose misses (.pair B C)) (.error halt) r' →
      Spelling g source patience (depth + 1) A r (.error halt) r'
  | pair {depth misses : Nat} {A B C : Char} {r r' r'' : Record} {ending : Except Halt Unit} :
      source.Picks patience (g.eligible A (depth + 1)) r.place (.pair B C)
        (r.place + misses + 1) →
      Spelling g source patience depth B (r.choose misses (.pair B C)) (.ok ()) r' →
      Spelling g source patience depth C r' ending r'' →
      Spelling g source patience (depth + 1) A r ending r''

/-- Every expansion ends, in one of these ways. -/
theorem spelling_spell (g : Grammar) (source : Source) (patience depth : Nat) (A : Char)
    (r : Record) : ∃ ending r',
      (g.spell source patience depth (.nonterminal A)).run.run r = (ending, r') ∧
        Spelling g source patience depth A r ending r' := by
  induction depth using Nat.strongRecOn generalizing A r with
  | ind depth ih =>
    rw [spell]
    rcases run_recordBody g source patience depth A r with
      ⟨e, failed, run⟩ | ⟨unchosen, run⟩ | ⟨body, misses, picks, run⟩
    · exact ⟨_, _, run_bind_error run, .fails failed⟩
    · exact ⟨_, _, run_bind_error run, .runsOut unchosen⟩
    · rw [run_bind_ok run]
      cases body with
      | terminal a => exact ⟨_, _, rfl, .letter picks⟩
      | pair B C =>
        cases depth with
        | zero => cases (List.mem_filter.mp picks.mem).2
        | succ depth =>
          have less := Nat.lt_succ_self depth
          obtain ⟨ending, r', left, hl⟩ := ih depth less B (r.choose misses (.pair B C))
          cases ending with
          | error halt => exact ⟨_, _, run_bind_error left, .leftHalts picks hl⟩
          | ok =>
            obtain ⟨ending, r'', right, hr⟩ := ih depth less C r'
            exact ⟨ending, r'', (run_bind_ok left).trans right, .pair picks hl hr⟩

/-- Nothing is taken from a depth of zero. -/
theorem Spelling.not_belowZero (h : Spelling g source patience depth A r ending r') :
    ending ≠ .error .belowZero := by
  induction h with
  | fails _ => nofun
  | runsOut _ => nofun
  | letter _ => nofun
  | leftHalts _ _ ih => exact ih
  | pair _ _ _ _ ihr => exact ihr

theorem Spelling.expansion (h : Spelling g source patience depth A r (.ok ()) r') :
    ∃ word, r'.word = r.word ++ word ∧
      Expansion g source patience depth A r.place (.ok word) r'.place := by
  generalize hending : Except.ok () = ending at h
  induction h with
  | fails _ => cases hending
  | runsOut _ => cases hending
  | @letter _ _ _ a _ picks => exact ⟨[a], rfl, .letter picks⟩
  | leftHalts _ _ _ => cases hending
  | pair picks _ _ ihl ihr =>
    obtain ⟨left, hl, left_expands⟩ := ihl rfl
    obtain ⟨right, hr, right_expands⟩ := ihr hending
    refine ⟨left ++ right, ?_, .pair picks left_expands right_expands⟩
    rw [hr, hl, List.append_assoc]
    rfl

theorem Spelling.failure {e : SamplingError}
    (h : Spelling g source patience depth A r (.error (.failed e)) r') :
    Expansion g source patience depth A r.place (.error e) r'.place := by
  generalize hending : Except.error (Halt.failed e) = ending at h
  induction h with
  | fails failed =>
    cases hending
    rcases chooseBody_error_iff.mp failed with ⟨bare, rfl, _⟩ | ⟨filled, nothing, rfl, _⟩
    · exact .noBodies bare
    · exact .outOfDepth filled nothing
  | runsOut _ => cases hending
  | letter _ => cases hending
  | leftHalts picks _ ih =>
    exact .leftFails picks (ih hending)
  | pair picks hl _ _ ihr =>
    cases hending
    obtain ⟨left, _, left_expands⟩ := hl.expansion
    exact .rightFails picks left_expands (ihr rfl)

/-- An expansion that chooses a pair goes on with its left half, and then with its right half unless
the left one fails. -/
theorem Expansion.pair_cases {place middle next : Nat} {B C : Char}
    {result : Except SamplingError (List Char)}
    (picks : source.Picks patience (g.eligible A (depth + 1)) place (.pair B C) middle)
    (h : Expansion g source patience (depth + 1) A place result next) :
    (∃ e, Expansion g source patience depth B middle (.error e) next) ∨
      ∃ left second outcome, Expansion g source patience depth B middle (.ok left) second ∧
        Expansion g source patience depth C second outcome next := by
  cases h with
  | noBodies bare =>
    have member := (g.eligible_sublist A (depth + 1)).subset picks.mem
    exact absurd member (bare ▸ List.not_mem_nil)
  | outOfDepth _ nothing => exact absurd picks.mem (nothing ▸ List.not_mem_nil)
  | letter picks' => cases (picks.unique picks').1
  | leftFails picks' hl =>
    obtain ⟨⟨⟩, rfl⟩ := picks.unique picks'
    exact Or.inl ⟨_, hl⟩
  | rightFails picks' hl hr =>
    obtain ⟨⟨⟩, rfl⟩ := picks.unique picks'
    exact Or.inr ⟨_, _, _, hl, hr⟩
  | pair picks' hl hr =>
    obtain ⟨⟨⟩, rfl⟩ := picks.unique picks'
    exact Or.inr ⟨_, _, _, hl, hr⟩

theorem Spelling.no_expansion (h : Spelling g source patience depth A r (.error .impatient) r')
    (result : Except SamplingError (List Char)) (next : Nat) :
    ¬ Expansion g source patience depth A r.place result next := by
  generalize hending : Except.error Halt.impatient = ending at h
  induction h generalizing result next with
  | fails _ => cases hending
  | runsOut unchosen =>
    intro expansion
    rcases expand_cases expansion.expand_eq with ⟨_, failed, _⟩ | ⟨_, _, picks, _⟩
    · cases unchosen.symm.trans failed
    · cases unchosen.symm.trans (chooseBody_ok_iff.mpr picks)
  | letter _ => cases hending
  | leftHalts picks _ ih =>
    intro expansion
    rcases expansion.pair_cases picks with ⟨_, hl⟩ | ⟨_, _, _, hl, _⟩
    · exact ih _ _ hending hl
    · exact ih _ _ hending hl
  | pair picks hl _ _ ihr =>
    intro expansion
    obtain ⟨left, _, left_expands⟩ := hl.expansion
    rcases expansion.pair_cases picks with ⟨_, fails⟩ | ⟨_, _, _, hl', hr'⟩
    · cases (left_expands.unique fails).1
    · obtain ⟨_, rfl⟩ := left_expands.unique hl'
      exact ihr _ _ hending hr'

/-- The record comes to the answer of the expansion that keeps none. -/
theorem sampleFrom_eq_answer (g : Grammar) (source : Source) (patience depth : Nat) (A : Char)
    (place : Nat) : g.sampleFrom source patience depth A place =
      (g.recorded source patience depth A place).2.answer
        (g.recorded source patience depth A place).1 := by
  obtain ⟨ending, r', run, h⟩ :=
    spelling_spell g source patience depth A ⟨place, [], 0, []⟩
  have recorded : g.recorded source patience depth A place = (ending, r') := run
  rw [recorded]
  match ending, h with
  | .ok (), h =>
    obtain ⟨word, same, expansion⟩ := h.expansion
    rw [sampleFrom_eq_some_iff.mpr expansion, Record.answer, same]
    rfl
  | .error (.failed e), h => exact sampleFrom_eq_some_iff.mpr h.failure
  | .error .impatient, h =>
    apply Option.eq_none_iff_forall_ne_some.mpr
    rintro ⟨result, next⟩ sampled
    exact h.no_expansion result next (sampleFrom_eq_some_iff.mp sampled)
  | .error .belowZero, h => exact absurd rfl h.not_belowZero

end Grammar

end NormalForm
