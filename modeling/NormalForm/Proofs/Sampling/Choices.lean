import NormalForm.Proofs.Sampling.Fixed
import NormalForm.Proofs.Sampling.Recorded

namespace NormalForm

namespace Record

/-- How many of the choices were letters. -/
def letters (r : Record) : Nat := r.chosen.countP fun body => body.letter?.isSome

/-- How many of the choices were pairs. -/
def pairs (r : Record) : Nat := r.chosen.countP fun body => !body.letter?.isSome

/-- The word is the letters that were chosen, in order. -/
def Spelled (r : Record) : Prop := r.word = r.chosen.filterMap Body.letter?

theorem letters_add_pairs (r : Record) : r.letters + r.pairs = r.chosen.length := by
  rw [List.length_eq_countP_add_countP fun body : Body => body.letter?.isSome, letters, pairs]
  simp only [Bool.not_eq_true, Bool.decide_eq_false]

theorem Spelled.letters_eq {r : Record} (h : r.Spelled) : r.letters = r.word.length := by
  rw [h, List.length_filterMap_eq_countP, letters]

theorem Spelled.letter {r : Record} (h : r.Spelled) (misses : Nat) (a : Char) :
    ((r.choose misses (.terminal a)).write a).Spelled := by
  have word : r.word = r.chosen.filterMap Body.letter? := h
  simp only [Spelled, write, choose, settle, word, List.filterMap_append]
  rfl

theorem Spelled.pair {r : Record} (h : r.Spelled) (misses : Nat) (B C : Char) :
    (r.choose misses (.pair B C)).Spelled := by
  have word : r.word = r.chosen.filterMap Body.letter? := h
  simp only [Spelled, choose, settle, word, List.filterMap_append]
  simp [Body.letter?]

end Record

namespace Grammar

variable {g : Grammar} {source : Source} {patience depth : Nat} {A : Char} {r r' : Record}
  {ending : Except Halt Unit}

theorem Spelling.spelled (h : Spelling g source patience depth A r ending r')
    (before : r.Spelled) : r'.Spelled := by
  induction h with
  | fails _ => exact before
  | runsOut _ => exact before
  | letter _ => exact before.letter _ _
  | leftHalts _ _ ih => exact ih (before.pair _ _ _)
  | pair _ _ _ ihl ihr => exact ihr (ihl (before.pair _ _ _))

/-- Every number that is drawn is used for a choice or refused. -/
theorem Spelling.drawn (h : Spelling g source patience depth A r ending r') :
    r'.place + (r.chosen.length + r.refused) = r.place + (r'.chosen.length + r'.refused) := by
  induction h with
  | fails _ => rfl
  | runsOut _ => simp only [Record.waste]; omega
  | letter _ =>
    simp only [Record.write, Record.choose, Record.settle, List.length_append,
      List.length_singleton]
    omega
  | leftHalts _ _ ih =>
    simp only [Record.choose, Record.settle, List.length_append, List.length_singleton] at ih
    omega
  | pair _ _ _ ihl ihr =>
    simp only [Record.choose, Record.settle, List.length_append, List.length_singleton] at ihl
    omega

/-- A level of depth doubles the choices at most, with one more on top. -/
theorem Spelling.choices_lt (h : Spelling g source patience depth A r ending r') :
    r'.chosen.length < r.chosen.length + 2 ^ (depth + 1) := by
  induction h with
  | fails _ => exact Nat.lt_add_of_pos_right (Nat.two_pow_pos _)
  | runsOut _ => exact Nat.lt_add_of_pos_right (Nat.two_pow_pos _)
  | @letter depth =>
    have positive := Nat.two_pow_pos depth
    simp only [Record.write, Record.choose, List.length_append, List.length_singleton,
      Nat.pow_succ]
    omega
  | @leftHalts depth _ _ _ _ _ _ _ _ _ ih =>
    have positive := Nat.two_pow_pos (depth + 1)
    simp only [Record.choose, List.length_append, List.length_singleton] at ih
    rw [Nat.pow_succ]
    omega
  | pair _ _ _ ihl ihr =>
    simp only [Record.choose, List.length_append, List.length_singleton] at ihl
    rw [Nat.pow_succ]
    omega

/-- A whole word takes two choices for each letter, but for one. -/
theorem Spelling.balanced (h : Spelling g source patience depth A r (.ok ()) r') :
    r'.chosen.length + 1 + 2 * r.word.length = r.chosen.length + 2 * r'.word.length := by
  generalize hending : Except.ok () = ending at h
  induction h with
  | fails _ => cases hending
  | runsOut _ => cases hending
  | letter _ =>
    simp only [Record.write, Record.choose, Record.settle, List.length_append,
      List.length_singleton]
    omega
  | leftHalts _ _ _ => cases hending
  | pair _ _ _ ihl ihr =>
    have left := ihl rfl
    have right := ihr hending
    simp only [Record.choose, Record.settle, List.length_append, List.length_singleton] at left
    omega

/-- **Choices are counted exactly.** Sampling on record comes to the same answer. It draws one
number for each choice, besides those that are refused, and the depth bounds the choices, however
it ends. A sampled word took as many choices of a letter as it has letters, and one less of a pair.
And the numbers that were drawn fix the answer, whatever else the source holds. -/
theorem choices_counted (g : Grammar) (source : Source) (patience depth : Nat) (A : Char)
    (place : Nat) :
    let ended := g.recorded source patience depth A place
    let record := ended.2
    g.sampleFrom source patience depth A place = record.answer ended.1 ∧
    record.place = place + (record.chosen.length + record.refused) ∧
    record.chosen.length ≤ 2 ^ (depth + 1) - 1 ∧
    (∀ word next, g.sampleFrom source patience depth A place = some (.ok word, next) →
      record.letters = word.length ∧ record.pairs = word.length - 1 ∧
      record.chosen.length = 2 * word.length - 1 ∧
      next = place + (2 * word.length - 1 + record.refused)) ∧
    ∀ result next, g.sampleFrom source patience depth A place = some (result, next) →
      source.Fixes patience place next fun source patience place next =>
        g.sampleFrom source patience depth A place = some (result, next) := by
  obtain ⟨ending, r', run, h⟩ := spelling_spell g source patience depth A ⟨place, [], 0, []⟩
  have recorded : g.recorded source patience depth A place = (ending, r') := run
  have answer := sampleFrom_eq_answer g source patience depth A place
  have drawn : r'.place + 0 = place + (r'.chosen.length + r'.refused) := h.drawn
  rw [recorded] at answer ⊢
  dsimp only at answer ⊢
  refine ⟨answer, drawn, ?_, ?_, ?_⟩
  · have few := h.choices_lt
    simp only [List.length_nil] at few
    omega
  · intro word next sampled
    rw [answer] at sampled
    match ending, h, sampled with
    | .ok (), h, sampled =>
      cases sampled
      have balanced := h.balanced
      have letters := (h.spelled rfl).letters_eq
      have sum := r'.letters_add_pairs
      simp only [List.length_nil] at balanced
      omega
  · intro result next sampled
    refine (sampleFrom_eq_some_iff.mp sampled).fixes.mono fun _ _ _ _ expansion => ?_
    exact sampleFrom_eq_some_iff.mpr expansion

theorem choices_counted_hesitant :
    let g := (empty true).afterAll textbook
    let record := (g.recorded hesitant 2 2 'S' 0).2
    g.sampleFrom hesitant 2 2 'S' 0 = some (.ok ['a', 'a', 'a', 'b'], 8) ∧
      record.letters = 4 ∧ record.pairs = 3 ∧ record.refused = 1 ∧ record.place = 8 ∧
      hesitant.Fixes 2 0 8 fun source patience place next =>
        g.sampleFrom source patience 2 'S' place = some (.ok ['a', 'a', 'a', 'b'], next) := by
  obtain ⟨_, drawn, _, counts, fixed⟩ :=
    choices_counted ((empty true).afterAll textbook) hesitant 2 2 'S' 0
  obtain ⟨letters, pairs, chosen, next⟩ := counts ['a', 'a', 'a', 'b'] 8 rfl
  simp only [List.length_cons, List.length_nil, Nat.zero_add] at letters pairs chosen next drawn
  have refused : (((empty true).afterAll textbook).recorded hesitant 2 2 'S' 0).2.refused = 1 := by
    omega
  refine ⟨rfl, letters, pairs, refused, ?_, fixed _ 8 rfl⟩
  omega

end Grammar

end NormalForm
