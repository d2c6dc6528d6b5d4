import NormalForm.Proofs.Grammar.Size
import NormalForm.Proofs.Sampling.Recognized

namespace NormalForm

namespace Source

/-- Every element of a list has a number that picks it at once. -/
theorem exists_number_picks {α : Type} {choices : List α} {a : α} (mem : a ∈ choices)
    (few : choices.length < range) :
    ∃ v : UInt32, ∀ (source : Source) (patience place : Nat), 1 ≤ patience → source place = v →
      source.Picks patience choices place a (place + 1) := by
  obtain ⟨i, hi, rfl⟩ := List.mem_iff_getElem.mp mem
  obtain ⟨v, usable, names⟩ := exists_number hi few
  refine ⟨v, fun source patience place willing drawn => ⟨i, ?_, List.getElem?_eq_getElem hi⟩⟩
  obtain ⟨patience, rfl⟩ := Nat.exists_eq_add_of_le' willing
  simp only [pick, drawn, usable, names, ↓reduceIte]

/-- From a place on, the source goes through the draws. -/
def Begins (source : Source) (place : Nat) (draws : List UInt32) : Prop :=
  ∀ i v, draws[i]? = some v → source (place + i) = v

theorem begins_ofList (draws : List UInt32) : (ofList draws).Begins 0 draws := by
  intro i v hv
  simp [ofList, hv]

variable {source : Source} {place : Nat}

theorem begins_cons {v : UInt32} {draws : List UInt32} :
    source.Begins place (v :: draws) ↔ source place = v ∧ source.Begins (place + 1) draws := by
  constructor
  · intro h
    refine ⟨h 0 v rfl, fun i w hw => ?_⟩
    rw [Nat.add_assoc, Nat.add_comm 1]
    exact h (i + 1) w hw
  · rintro ⟨first, rest⟩ i w hw
    cases i with
    | zero =>
      cases hw
      exact first
    | succ i =>
      rw [Nat.add_comm i, ← Nat.add_assoc]
      exact rest i w hw

theorem begins_append {first second : List UInt32} :
    source.Begins place (first ++ second) ↔
      source.Begins place first ∧ source.Begins (place + first.length) second := by
  induction first generalizing place with
  | nil => simp [Begins]
  | cons v first ih =>
    rw [List.cons_append, begins_cons, begins_cons, ih, and_assoc, List.length_cons,
      Nat.add_comm first.length, Nat.add_assoc]

end Source

/-- A tree nests less deeply than its word is long. -/
theorem Tree.nesting_lt (tree : Tree) : tree.nesting < tree.word.length := by
  induction tree with
  | leaf A a => exact Nat.zero_lt_one
  | node A left right ihl ihr =>
    simp only [nesting, word, List.length_append]
    omega

namespace Grammar

variable {guardsStart : Bool} {g : Grammar}

theorem WellFormed.eligible_few (wf : WellFormed guardsStart g) (A : Char) (depth : Nat) :
    (g.eligible A depth).length < Source.range :=
  Nat.lt_of_le_of_lt (g.eligible_sublist A depth).length_le (wf.bodies_few A)

theorem letter_mem_eligible {A a : Char} (hb : .terminal a ∈ g.bodies A) (depth : Nat) :
    .terminal a ∈ g.eligible A depth := by
  cases depth with
  | zero => exact List.mem_filter.mpr ⟨hb, rfl⟩
  | succ depth => exact hb

/-- The draws of a tree: one for the root, then those of its left half, then those of its right. -/
theorem WellFormed.exists_draws (wf : WellFormed guardsStart g) {tree : Tree}
    (ht : tree.Follows g) {depth : Nat} (shallow : tree.nesting ≤ depth) :
    ∃ draws : List UInt32, draws.length + 1 = 2 * tree.word.length ∧
      ∀ (source : Source) (patience place : Nat), 1 ≤ patience → source.Begins place draws →
        Expansion g source patience depth tree.head place (.ok tree.word)
          (place + draws.length) := by
  induction ht generalizing depth with
  | @leaf A a hb =>
    obtain ⟨v, picks⟩ := Source.exists_number_picks (letter_mem_eligible hb depth)
      (wf.eligible_few A depth)
    refine ⟨[v], rfl, fun source patience place willing begins => ?_⟩
    exact .letter (picks source patience place willing (Source.begins_cons.mp begins).1)
  | @node A left right hb _ _ ihl ihr =>
    cases depth with
    | zero => cases shallow
    | succ depth =>
      have halves := Nat.max_le.mp (Nat.le_of_succ_le_succ shallow)
      obtain ⟨v, picks⟩ := Source.exists_number_picks hb (wf.bodies_few A)
      obtain ⟨first, length_first, left_expands⟩ := ihl halves.1
      obtain ⟨second, length_second, right_expands⟩ := ihr halves.2
      refine ⟨v :: (first ++ second), ?_, fun source patience place willing begins => ?_⟩
      · simp only [Tree.word, List.length_cons, List.length_append]
        omega
      · obtain ⟨drawn, begins⟩ := Source.begins_cons.mp begins
        obtain ⟨begins_first, begins_second⟩ := Source.begins_append.mp begins
        have whole := Expansion.pair (picks source patience place willing drawn)
          (left_expands source patience _ willing begins_first)
          (right_expands source patience _ willing begins_second)
        have last : place + (v :: (first ++ second)).length =
            place + 1 + first.length + second.length := by
          simp only [List.length_cons, List.length_append]
          omega
        rw [last]
        exact whole

/-- The draws sample the word: wherever a source goes through them, exactly they are spent. -/
def SampledBy (g : Grammar) (depth : Nat) (A : Char) (word : List Char)
    (draws : List UInt32) : Prop :=
  ∀ (source : Source) (patience place : Nat), 1 ≤ patience → source.Begins place draws →
    g.sampleFrom source patience depth A place = some (.ok word, place + draws.length)

theorem WellFormed.exists_sampledBy (wf : WellFormed guardsStart g) {depth : Nat} {A : Char}
    {word : List Char} (h : g.DerivesWithin depth A word) :
    ∃ draws, draws.length = 2 * word.length - 1 ∧ g.SampledBy depth A word draws := by
  obtain ⟨tree, ht, rfl, rfl, shallow⟩ := h
  obtain ⟨draws, length_draws, expands⟩ := wf.exists_draws ht shallow
  refine ⟨draws, by omega, fun source patience place willing begins => ?_⟩
  exact sampleFrom_eq_some_iff.mpr (expands source patience place willing begins)

theorem Derives.within {A : Char} {word : List Char} (h : g.Derives A word) {depth : Nat}
    (deep : word.length - 1 ≤ depth) : g.DerivesWithin depth A word := by
  obtain ⟨tree, ht, rfl, rfl⟩ := derives_iff_tree.mp h
  exact ⟨tree, ht, rfl, rfl, by have := tree.nesting_lt; omega⟩

/-- **Every recognized word can be sampled.** A word that a nonterminal derives within a depth has
draws that sample it at that depth, one for each node of its tree. A recognized word is derived
within every depth from one less than its length on. And nothing else is ever sampled: at each
depth, the words that can be are exactly those that are derived within it. -/
theorem recognized_sampled (reach : Reachable guardsStart g) (depth : Nat) (word : List Char) :
    (∀ A, g.DerivesWithin depth A word →
      ∃ draws : List UInt32, draws.length = 2 * word.length - 1 ∧
        g.SampledBy depth A word draws) ∧
    (g.recognizes word = .ok true → word.length - 1 ≤ depth →
      ∃ draws : List UInt32, draws.length = 2 * word.length - 1 ∧
        ∀ (source : Source) (patience place : Nat), 1 ≤ patience → source.Begins place draws →
          g.sample source patience depth place = some (.ok word, place + draws.length)) ∧
    (∀ A, (∃ source patience place next,
        g.sampleFrom source patience depth A place = some (.ok word, next)) ↔
      g.DerivesWithin depth A word) := by
  have wf := reach.wellFormed
  refine ⟨fun A => wf.exists_sampledBy, ?_, fun A => ⟨?_, ?_⟩⟩
  · intro recognized deep
    obtain ⟨S, start, derived⟩ := (recognizes_true_iff wf).mp recognized
    obtain ⟨draws, length_draws, sampled⟩ := wf.exists_sampledBy (derived.within deep)
    refine ⟨draws, length_draws, fun source patience place willing begins => ?_⟩
    simp only [sample, start]
    exact sampled source patience place willing begins
  · rintro ⟨source, patience, place, next, h⟩
    exact (sampleFrom_eq_some_iff.mp h).derivesWithin
  · intro h
    obtain ⟨draws, _, sampled⟩ := wf.exists_sampledBy h
    exact ⟨Source.ofList draws, 1, 0, _, sampled _ 1 0 (Nat.le_refl 1) (Source.begins_ofList draws)⟩

theorem recognized_sampled_textbook :
    let g := (empty true).afterAll textbook
    Reachable true g ∧
      (∃ draws : List UInt32, draws.length = 7 ∧
        g.SampledBy 2 'A' ['a', 'a', 'b', 'a'] draws) ∧
      (∃ draws : List UInt32, draws.length = 9 ∧
        ∀ (source : Source) (patience place : Nat), 1 ≤ patience → source.Begins place draws →
          g.sample source patience 4 place =
            some (.ok ['b', 'a', 'a', 'b', 'a'], place + draws.length)) := by
  have reach : Reachable true ((empty true).afterAll textbook) := ⟨textbook, rfl⟩
  have aaba : ((empty true).afterAll textbook).DerivesWithin 2 'A' ['a', 'a', 'b', 'a'] :=
    ⟨.node 'A' (.node 'B' (.leaf 'C' 'a') (.leaf 'C' 'a'))
        (.node 'A' (.leaf 'B' 'b') (.leaf 'A' 'a')),
      .node (by decide)
        (.node (by decide) (.leaf (by decide)) (.leaf (by decide)))
        (.node (by decide) (.leaf (by decide)) (.leaf (by decide))),
      rfl, rfl, by decide⟩
  have baaba := recognized_sampled reach 4 ['b', 'a', 'a', 'b', 'a']
  exact ⟨reach, (recognized_sampled reach 2 _).1 'A' aaba, baaba.2.1 rfl (by decide)⟩

end Grammar

end NormalForm
