import NormalForm.Proofs.Sampling.Fixed
import NormalForm.Proofs.Sampling.Recorded

/-! # What a sampling error means

An expansion that fails names the nonterminal where it got stuck, and how far below the first one
that is. A level of depth is spent on every step down, so a nonterminal without bodies is found
within the depth, and one whose bodies are all pairs at the very bottom of it. Where no nonterminal
is like that, nothing fails. -/

namespace NormalForm

namespace Source

variable {source : Source}

/-- From every place on, a number comes that may be used to pick among `n`. -/
def Relents (source : Source) : Prop :=
  ∀ n place, 0 < n → n < range → ∃ later, usable n (source (place + later)).toNat = true

theorem relents_ofList (numbers : List UInt32) : (ofList numbers).Relents := by
  intro n place positive _
  refine ⟨numbers.length, ?_⟩
  have zero : ofList numbers (place + numbers.length) = 0 := by simp [ofList]
  simp only [usable, zero, UInt32.toNat_zero, Nat.zero_mul, Nat.zero_mod, decide_eq_true_eq]
  exact Nat.lt_of_lt_of_le positive (le_zone n)

theorem pick_of_usable {n place later : Nat}
    (h : usable n (source (place + later)).toNat = true) :
    ∃ i next, source.pick n place (later + 1) = some (i, next) := by
  induction later generalizing place with
  | zero => exact ⟨_, _, if_pos h⟩
  | succ later ih =>
    rw [pick]
    split
    · exact ⟨_, _, rfl⟩
    · rw [Nat.add_comm later, ← Nat.add_assoc] at h
      exact ih h

theorem Relents.picks (relents : source.Relents) {α : Type} {choices : List α}
    (nonempty : choices ≠ []) (few : choices.length < range) (place : Nat) :
    ∃ patience a next, source.Picks patience choices place a next := by
  have positive := List.length_pos_iff.mpr nonempty
  obtain ⟨later, usable⟩ := relents choices.length place positive few
  obtain ⟨i, next, picked⟩ := pick_of_usable usable
  have inside := pick_lt positive picked
  exact ⟨later + 1, choices[i], next, i, picked, List.getElem?_eq_getElem inside⟩

end Source

namespace Grammar

variable {guardsStart : Bool} {g : Grammar} {source : Source} {patience depth place next : Nat}
  {A : Char}

/-- Once both halves of a pair have ended, so has the pair. -/
theorem Expansion.pair_ends {B C : Char} {first second last : Nat}
    {left right : Except SamplingError (List Char)}
    (picks : source.Picks patience (g.eligible A (depth + 1)) place (.pair B C) first)
    (hl : Expansion g source patience depth B first left second)
    (hr : Expansion g source patience depth C second right last) :
    ∃ result next, Expansion g source patience (depth + 1) A place result next := by
  cases left with
  | error e => exact ⟨_, _, .leftFails picks hl⟩
  | ok left =>
    cases right with
    | error e => exact ⟨_, _, .rightFails picks hl hr⟩
    | ok right => exact ⟨_, _, .pair picks hl hr⟩

/-- From a source that relents every expansion ends, with patience enough. -/
theorem WellFormed.expansion_ends (wf : WellFormed guardsStart g) (relents : source.Relents)
    (depth : Nat) (A : Char) (place : Nat) :
    ∃ patience result next, Expansion g source patience depth A place result next := by
  induction depth using Nat.strongRecOn generalizing A place with
  | ind depth ih =>
    by_cases bare : g.bodies A = []
    · exact ⟨0, _, _, .noBodies bare⟩
    by_cases nothing : g.eligible A depth = []
    · exact ⟨0, _, _, .outOfDepth bare nothing⟩
    obtain ⟨patience, body, first, picks⟩ :=
      relents.picks nothing (wf.eligible_few A depth) place
    cases body with
    | terminal a => exact ⟨patience, _, _, .letter picks⟩
    | pair B C =>
      cases depth with
      | zero => cases (List.mem_filter.mp picks.mem).2
      | succ depth =>
        obtain ⟨forLeft, left, second, hl⟩ := ih depth (Nat.lt_succ_self depth) B first
        obtain ⟨forRight, right, last, hr⟩ := ih depth (Nat.lt_succ_self depth) C second
        -- the three stretches are joined at the greatest of their patiences
        let enough := max patience (max forLeft forRight)
        obtain ⟨result, next, whole⟩ := Expansion.pair_ends
          (picks.fixes.patient (by omega : patience ≤ enough))
          (hl.patient (by omega)) (hr.patient (by omega))
        exact ⟨enough, result, next, whole⟩

/-- Steps from a nonterminal to a half of one of its pairs, and on from there. -/
inductive Chain (g : Grammar) : (steps : Nat) → (A M : Char) → Prop
  | here {A : Char} : Chain g 0 A A
  | left {steps : Nat} {A B C M : Char} : .pair B C ∈ g.bodies A → Chain g steps B M →
      Chain g (steps + 1) A M
  | right {steps : Nat} {A B C M : Char} : .pair B C ∈ g.bodies A → Chain g steps C M →
      Chain g (steps + 1) A M

/-- Where an expansion within a depth has to get stuck to fail with an error. -/
def Stuck (g : Grammar) (depth : Nat) (A : Char) : SamplingError → Prop
  | .noStart => False
  | .noBodies M => g.bodies M = [] ∧ ∃ steps ≤ depth, g.Chain steps A M
  | .outOfDepth M =>
    g.bodies M ≠ [] ∧ (∀ body ∈ g.bodies M, ∃ B C, body = .pair B C) ∧ g.Chain depth A M

/-- Being stuck below a half of a pair is being stuck one level further below the pair. -/
theorem Stuck.above {B : Char} {e : SamplingError} (h : g.Stuck depth B e)
    (step : ∀ {steps M}, g.Chain steps B M → g.Chain (steps + 1) A M) :
    g.Stuck (depth + 1) A e := by
  match e, h with
  | .noBodies M, ⟨empty, steps, few, chain⟩ =>
    exact ⟨empty, steps + 1, Nat.succ_le_succ few, step chain⟩
  | .outOfDepth M, ⟨filled, pairs, chain⟩ => exact ⟨filled, pairs, step chain⟩

theorem pairs_of_eligible_zero (nothing : g.eligible A 0 = []) :
    ∀ body ∈ g.bodies A, ∃ B C, body = .pair B C := by
  intro body hb
  cases body with
  | terminal a => exact absurd (letter_mem_eligible hb 0) (nothing ▸ List.not_mem_nil)
  | pair B C => exact ⟨B, C, rfl⟩

theorem Expansion.stuck {e : SamplingError}
    (h : Expansion g source patience depth A place (.error e) next) : g.Stuck depth A e := by
  generalize hresult : Except.error e = result at h
  induction h with
  | noBodies bare =>
    cases hresult
    exact ⟨bare, 0, Nat.zero_le _, .here⟩
  | @outOfDepth depth _ _ filled nothing =>
    cases hresult
    cases depth with
    | zero => exact ⟨filled, pairs_of_eligible_zero nothing, .here⟩
    | succ depth => exact absurd nothing filled
  | letter _ => cases hresult
  | leftFails picks _ ih => exact (ih hresult).above (.left picks.mem)
  | rightFails picks _ _ _ ih => exact (ih hresult).above (.right picks.mem)
  | pair _ _ _ _ _ => cases hresult

/-- Every nonterminal within the depth has a body, and those at its bottom have a letter. -/
structure Ample (g : Grammar) (depth : Nat) (A : Char) : Prop where
  bodies_ne_nil : ∀ steps ≤ depth, ∀ M, g.Chain steps A M → g.bodies M ≠ []
  letter_mem : ∀ M, g.Chain depth A M → ∃ a, .terminal a ∈ g.bodies M

theorem Ample.not_stuck (ample : g.Ample depth A) (e : SamplingError) : ¬ g.Stuck depth A e := by
  match e with
  | .noStart => exact id
  | .noBodies M =>
    rintro ⟨bare, steps, few, chain⟩
    exact ample.bodies_ne_nil steps few M chain bare
  | .outOfDepth M =>
    rintro ⟨_, pairs, chain⟩
    obtain ⟨a, letter⟩ := ample.letter_mem M chain
    obtain ⟨B, C, clash⟩ := pairs _ letter
    cases clash

theorem Ample.samples (ample : g.Ample depth A) {result : Except SamplingError (List Char)}
    (h : Expansion g source patience depth A place result next) : ∃ word, result = .ok word := by
  cases result with
  | ok word => exact ⟨word, rfl⟩
  | error e => exact absurd h.stuck (ample.not_stuck e)

/-- **Errors are located exactly.** An expansion fails only where it gets stuck: below its
nonterminal, within the depth, if it names one without bodies, and exactly at the bottom, if it
names one whose bodies are all pairs. Where nothing can get stuck, every run that ends comes to a
word, and from a source that relents one does end. That there is no start symbol is said exactly if
there is none. And no depth is ever taken from a depth of zero. -/
theorem errors_located (reach : Reachable guardsStart g) (depth : Nat) (A : Char) :
    (∀ source patience place next e,
      g.sampleFrom source patience depth A place = some (.error e, next) → g.Stuck depth A e) ∧
    (g.Ample depth A →
      (∀ source patience place result next,
        g.sampleFrom source patience depth A place = some (result, next) →
        ∃ word, result = .ok word) ∧
      ∀ (source : Source) (place : Nat), source.Relents → ∃ patience word next,
        g.sampleFrom source patience depth A place = some (.ok word, next)) ∧
    (∀ source patience place next,
      g.sample source patience depth place = some (.error .noStart, next) ↔
        g.start = none ∧ next = place) ∧
    ∀ source patience place,
      let ended := g.recorded source patience depth A place
      g.sampleFrom source patience depth A place = ended.2.answer ended.1 ∧
        ended.1 ≠ .error .belowZero := by
  refine ⟨?_, fun ample => ⟨?_, ?_⟩, ?_, ?_⟩
  · intro source patience place next e failed
    exact (sampleFrom_eq_some_iff.mp failed).stuck
  · intro source patience place result next ended
    exact ample.samples (sampleFrom_eq_some_iff.mp ended)
  · intro source place relents
    obtain ⟨patience, result, next, expansion⟩ :=
      reach.wellFormed.expansion_ends relents depth A place
    obtain ⟨word, rfl⟩ := ample.samples expansion
    exact ⟨patience, word, next, sampleFrom_eq_some_iff.mpr expansion⟩
  · intro source patience place next
    rw [sample_eq_some_iff]
    constructor
    · rintro (⟨unset, _, same⟩ | ⟨S, _, expansion⟩)
      · exact ⟨unset, same⟩
      · cases expansion.stuck
    · rintro ⟨unset, same⟩
      exact Or.inl ⟨unset, rfl, same⟩
  · intro source patience place
    obtain ⟨ending, r', run, spelling⟩ :=
      spelling_spell g source patience depth A ⟨place, [], 0, []⟩
    have recorded : g.recorded source patience depth A place = (ending, r') := run
    exact ⟨sampleFrom_eq_answer g source patience depth A place,
      recorded ▸ spelling.not_belowZero⟩

/-- The grammar `S ::= AB`, `A ::= a`, `B ::= CD | b`, `C ::= AB`, in which `D` has no bodies. -/
def impasse : List Edit :=
  [ .nonterminal 'S', .nonterminal 'A', .nonterminal 'B', .nonterminal 'C', .nonterminal 'D',
    .terminal 'a', .terminal 'b', .start 'S', .production 'S' ['A', 'B'], .production 'A' ['a'],
    .production 'B' ['C', 'D'], .production 'B' ['b'], .production 'C' ['A', 'B'] ]

/-- Always the first body. -/
def zeros : Source := Source.ofList []

theorem impasse_chain_one {M : Char} (h : ((empty true).afterAll impasse).Chain 1 'S' M) :
    M = 'A' ∨ M = 'B' := by
  cases h with
  | left hb rest =>
    cases rest
    cases List.mem_singleton.mp hb
    exact Or.inl rfl
  | right hb rest =>
    cases rest
    cases List.mem_singleton.mp hb
    exact Or.inr rfl

theorem impasse_ample : ((empty true).afterAll impasse).Ample 1 'S' where
  bodies_ne_nil steps few M chain := by
    match steps, few with
    | 0, _ => cases chain; decide
    | 1, _ => rcases impasse_chain_one chain with rfl | rfl <;> decide
  letter_mem M chain := by
    rcases impasse_chain_one chain with rfl | rfl
    · exact ⟨'a', by decide⟩
    · exact ⟨'b', by decide⟩

theorem errors_located_impasse :
    let g := (empty true).afterAll impasse
    Reachable true g ∧
      g.sampleFrom zeros 1 2 'S' 0 = some (.error (.outOfDepth 'C'), 3) ∧ g.Chain 2 'S' 'C' ∧
      g.sampleFrom zeros 1 3 'S' 0 = some (.error (.noBodies 'D'), 6) ∧
      (∃ steps ≤ 3, g.Chain steps 'S' 'D') ∧
      g.Ample 1 'S' ∧ zeros.Relents ∧
      ∃ patience word next, g.sampleFrom zeros patience 1 'S' 0 = some (.ok word, next) := by
  have reach : Reachable true ((empty true).afterAll impasse) := ⟨impasse, rfl⟩
  have relents : zeros.Relents := Source.relents_ofList []
  obtain ⟨_, _, outOfDepth⟩ := (errors_located reach 2 'S').1 zeros 1 0 3 (.outOfDepth 'C') rfl
  obtain ⟨_, noBodies⟩ := (errors_located reach 3 'S').1 zeros 1 0 6 (.noBodies 'D') rfl
  exact ⟨reach, rfl, outOfDepth, rfl, noBodies, impasse_ample, relents,
    ((errors_located reach 1 'S').2.1 impasse_ample).2 zeros 0 relents⟩

end Grammar

end NormalForm
