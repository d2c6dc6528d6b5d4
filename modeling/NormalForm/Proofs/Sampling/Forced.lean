import NormalForm.Proofs.Sampling.Errors

/-! # Forced choices

Where no nonterminal has more than one body, nothing is left to chance. Every expansion ends like
the one that takes the first body each time, whatever its source holds and however many numbers are
refused on the way. A nonterminal is the root of one tree at most, so a word that is sampled is the
only one that its nonterminal derives, and more depth changes nothing. -/

namespace NormalForm.Grammar

variable {guardsStart : Bool} {g : Grammar} {source : Source} {patience depth place next : Nat}
  {A : Char}

/-- No nonterminal has more than one body. -/
def Forced (g : Grammar) : Prop := ∀ A, (g.bodies A).length ≤ 1

theorem WellFormed.forced (wf : WellFormed guardsStart g)
    (single : ∀ A ∈ g.nonterminals, (g.bodies A).length ≤ 1) : g.Forced := by
  intro A
  by_cases bare : g.bodies A = []
  · rw [bare]
    exact Nat.zero_le 1
  · obtain ⟨body, hb⟩ := List.exists_mem_of_ne_nil _ bare
    exact single A (wf.mem_of_body hb)

theorem Forced.bodies_eq (forced : g.Forced) {body : Body} (hb : body ∈ g.bodies A) :
    g.bodies A = [body] := by
  have few := forced A
  match h : g.bodies A with
  | [] => simp [h] at hb
  | [only] => rw [h, List.mem_singleton] at hb; rw [hb]
  | _ :: _ :: _ => simp [h] at few

/-- What a nonterminal comes to if each choice falls on its first body. -/
def outcome (g : Grammar) : (depth : Nat) → Char → Except SamplingError (List Char)
  | 0, A =>
    match g.bodies A with
    | [] => .error (.noBodies A)
    | .terminal a :: _ => .ok [a]
    | .pair _ _ :: _ => .error (.outOfDepth A)
  | depth + 1, A =>
    match g.bodies A with
    | [] => .error (.noBodies A)
    | .terminal a :: _ => .ok [a]
    | .pair B C :: _ => do
      let left ← outcome g depth B
      let right ← outcome g depth C
      return left ++ right

theorem outcome_of_none (bare : g.bodies A = []) (depth : Nat) :
    g.outcome depth A = .error (.noBodies A) := by
  cases depth <;> simp only [outcome, bare]

theorem outcome_of_letter {a : Char} (only : g.bodies A = [.terminal a]) (depth : Nat) :
    g.outcome depth A = .ok [a] := by
  cases depth <;> simp only [outcome, only]

theorem outcome_of_pair {B C : Char} (only : g.bodies A = [.pair B C]) (depth : Nat) :
    g.outcome (depth + 1) A = (do
      let left ← g.outcome depth B
      let right ← g.outcome depth C
      return left ++ right) := by
  simp only [outcome, only]

/-- Numbers drawn and refused put two expansions out of step, but neither has anything to choose. -/
theorem Expansion.eq_outcome (forced : g.Forced) {result : Except SamplingError (List Char)}
    (h : Expansion g source patience depth A place result next) : result = g.outcome depth A := by
  induction h with
  | noBodies bare => exact (outcome_of_none bare _).symm
  | @outOfDepth depth _ A filled nothing =>
    cases depth with
    | succ depth => exact absurd nothing filled
    | zero =>
      obtain ⟨body, hb⟩ := List.exists_mem_of_ne_nil _ filled
      obtain ⟨B, C, rfl⟩ := pairs_of_eligible_zero nothing body hb
      simp only [outcome, forced.bodies_eq hb]
  | letter picks =>
    have hb := (g.eligible_sublist _ _).subset picks.mem
    exact (outcome_of_letter (forced.bodies_eq hb) _).symm
  | leftFails picks _ ihl =>
    rw [outcome_of_pair (forced.bodies_eq picks.mem), ← ihl]
    rfl
  | rightFails picks _ _ ihl ihr =>
    rw [outcome_of_pair (forced.bodies_eq picks.mem), ← ihl, ← ihr]
    rfl
  | pair picks _ _ ihl ihr =>
    rw [outcome_of_pair (forced.bodies_eq picks.mem), ← ihl, ← ihr]
    rfl

theorem Forced.tree_unique (forced : g.Forced) {tree tree' : Tree} (h : tree.Follows g)
    (h' : tree'.Follows g) (same : tree'.head = tree.head) : tree' = tree := by
  induction h generalizing tree' with
  | leaf hb =>
    have only := forced.bodies_eq hb
    cases h' with
    | leaf hb' =>
      cases same
      rw [only] at hb'
      cases List.mem_singleton.mp hb'
      rfl
    | node hb' _ _ =>
      cases same
      rw [only] at hb'
      cases List.mem_singleton.mp hb'
  | node hb _ _ ihl ihr =>
    have only := forced.bodies_eq hb
    cases h' with
    | leaf hb' =>
      cases same
      rw [only] at hb'
      cases List.mem_singleton.mp hb'
    | node hb' hl hr =>
      cases same
      rw [only, List.mem_singleton, Body.pair.injEq] at hb'
      rw [ihl hl hb'.1, ihr hr hb'.2]

theorem Forced.derives_iff (forced : g.Forced) {word : List Char} (h : g.Derives A word)
    (other : List Char) : g.Derives A other ↔ other = word := by
  constructor
  · intro h'
    obtain ⟨tree, ht, rfl, rfl⟩ := derives_iff_tree.mp h
    obtain ⟨tree', ht', same, rfl⟩ := derives_iff_tree.mp h'
    rw [forced.tree_unique ht ht' same]
  · rintro rfl
    exact h

/-- Drawn for from a place of the source on, a word of the nonterminal or an error is the result,
once there is enough patience. -/
def Ends (g : Grammar) (source : Source) (place depth : Nat) (A : Char)
    (result : Except SamplingError (List Char)) : Prop :=
  ∃ patience next, g.sampleFrom source patience depth A place = some (result, next)

theorem Forced.eq_outcome_of_ends (forced : g.Forced) {result : Except SamplingError (List Char)}
    (h : g.Ends source place depth A result) : result = g.outcome depth A := by
  obtain ⟨patience, next, sampled⟩ := h
  exact (sampleFrom_eq_some_iff.mp sampled).eq_outcome forced

theorem WellFormed.exists_ends (wf : WellFormed guardsStart g) (relents : source.Relents)
    (place depth : Nat) (A : Char) : ∃ result, g.Ends source place depth A result := by
  obtain ⟨patience, result, next, expansion⟩ := wf.expansion_ends relents depth A place
  exact ⟨result, patience, next, sampleFrom_eq_some_iff.mpr expansion⟩

/-- Some draws sample the word, and so nothing else comes of any others. -/
theorem Forced.outcome_eq (forced : g.Forced) (wf : WellFormed guardsStart g) {word : List Char}
    (h : g.DerivesWithin depth A word) : g.outcome depth A = .ok word := by
  obtain ⟨draws, _, sampled⟩ := wf.exists_sampledBy h
  have ends := sampled _ 1 0 (Nat.le_refl 1) (Source.begins_ofList draws)
  exact (forced.eq_outcome_of_ends ⟨_, _, ends⟩).symm

/-- **Forced choices leave nothing to the source.** If no nonterminal has more than one body, then
from any two sources where sampling ends it ends with the same word or the same error. A word is
also what it ends with at every greater depth, from every source that relents; and it is the only
word that the nonterminal derives, and the only one recognized with the nonterminal as the start
symbol. -/
theorem forced_sampling (reach : Reachable guardsStart g)
    (single : ∀ A ∈ g.nonterminals, (g.bodies A).length ≤ 1) (depth : Nat) (A : Char) :
    (∀ source source' place place' result result', g.Ends source place depth A result →
      g.Ends source' place' depth A result' → result' = result) ∧
    ∀ source place word, g.Ends source place depth A (.ok word) →
      (∀ deeper, depth ≤ deeper →
        (∀ source place result, g.Ends source place deeper A result → result = .ok word) ∧
        ∀ source place, source.Relents → g.Ends source place deeper A (.ok word)) ∧
      (∀ other, g.Derives A other ↔ other = word) ∧
      ∃ copy, g.withStart A = .ok copy ∧
        ∀ other, copy.recognizes other = .ok true ↔ other = word := by
  have wf := reach.wellFormed
  have forced := wf.forced single
  refine ⟨fun _ _ _ _ result result' ends ends' => ?_, fun source place word ends => ?_⟩
  · rw [forced.eq_outcome_of_ends ends, forced.eq_outcome_of_ends ends']
  obtain ⟨patience, next, sampled⟩ := ends
  have within := (sampleFrom_eq_some_iff.mp sampled).derivesWithin
  have only := forced.derives_iff within.derives
  refine ⟨fun deeper deep => ?_, only, ?_⟩
  · have word_eq := forced.outcome_eq wf (within.mono deep)
    have same {source place result} (ends : g.Ends source place deeper A result) :
        result = .ok word := (forced.eq_outcome_of_ends ends).trans word_eq
    refine ⟨fun _ _ _ => same, fun source place relents => ?_⟩
    obtain ⟨result, ends⟩ := wf.exists_ends relents place deeper A
    exact same ends ▸ ends
  · have known := wf.derives_known within.derives
    refine ⟨{ g with start := some A }, by simp [withStart, known], fun other => ?_⟩
    rw [wf.recognizes_started known, only]

/-- The grammar `S ::= AB`, `A ::= BB`, `B ::= b`, `C ::= CA`, in which nothing stops `C`. -/
def lockstep : List Edit :=
  [ .nonterminal 'S', .nonterminal 'A', .nonterminal 'B', .nonterminal 'C', .terminal 'b',
    .production 'S' ['A', 'B'], .production 'A' ['B', 'B'], .production 'B' ['b'],
    .production 'C' ['C', 'A'] ]

theorem forced_sampling_lockstep :
    let g := (empty true).afterAll lockstep
    Reachable true g ∧ (∀ A ∈ g.nonterminals, (g.bodies A).length ≤ 1) ∧
      g.sampleFrom hesitant 3 2 'S' 0 = some (.ok ['b', 'b', 'b'], 7) ∧
      (∀ source place result, g.Ends source place 2 'S' result →
        result = .ok ['b', 'b', 'b']) ∧
      (∀ place, g.Ends zeros place 9 'S' (.ok ['b', 'b', 'b'])) ∧
      (∀ word, g.Derives 'S' word ↔ word = ['b', 'b', 'b']) ∧
      ∀ source place result, g.Ends source place 4 'C' result →
        result = .error (.outOfDepth 'C') := by
  have reach : Reachable true ((empty true).afterAll lockstep) := ⟨lockstep, rfl⟩
  have single : ∀ A ∈ ((empty true).afterAll lockstep).nonterminals,
      (((empty true).afterAll lockstep).bodies A).length ≤ 1 := by
    intro A hA
    have all : (((empty true).afterAll lockstep).nonterminals.all fun A =>
        (((empty true).afterAll lockstep).bodies A).length ≤ 1) = true := rfl
    exact of_decide_eq_true (List.all_eq_true.mp all A hA)
  have sampled : ((empty true).afterAll lockstep).Ends hesitant 0 2 'S' (.ok ['b', 'b', 'b']) :=
    ⟨3, 7, rfl⟩
  have stuck : ((empty true).afterAll lockstep).Ends zeros 0 4 'C' (.error (.outOfDepth 'C')) :=
    ⟨1, 4, rfl⟩
  obtain ⟨agree, words⟩ := forced_sampling reach single 2 'S'
  obtain ⟨deeper, only, _⟩ := words hesitant 0 _ sampled
  refine ⟨reach, single, rfl, fun source place result => agree _ _ _ _ _ _ sampled, ?_, only, ?_⟩
  · exact fun place => (deeper 9 (by decide)).2 zeros place (Source.relents_ofList [])
  · exact fun source place result => (forced_sampling reach single 4 'C').1 _ _ _ _ _ _ stuck

end NormalForm.Grammar
