import Mathlib.Algebra.Group.Nat.Defs
import NormalForm.Proofs.Sampling.Expansion
import NormalForm.Proofs.Table.Recognition

namespace NormalForm

namespace Tree

/-- Every level of nesting at most doubles the word. -/
theorem word_length_le (tree : Tree) : tree.word.length ≤ 2 ^ tree.nesting := by
  induction tree with
  | leaf A a => exact Nat.le_refl 1
  | node A left right ihl ihr =>
    have hl : 2 ^ left.nesting ≤ 2 ^ max left.nesting right.nesting :=
      Nat.pow_le_pow_right (by decide) (Nat.le_max_left _ _)
    have hr : 2 ^ right.nesting ≤ 2 ^ max left.nesting right.nesting :=
      Nat.pow_le_pow_right (by decide) (Nat.le_max_right _ _)
    simp only [word, nesting, List.length_append, Nat.pow_succ]
    omega

theorem Follows.mono {g g' : Grammar} (more : ∀ A, g.bodies A ⊆ g'.bodies A) {tree : Tree}
    (h : tree.Follows g) : tree.Follows g' := by
  induction h with
  | leaf hb => exact .leaf (more _ hb)
  | node hb _ _ ihl ihr => exact .node (more _ hb) ihl ihr

end Tree

namespace Grammar

variable {guardsStart : Bool} {g : Grammar} {source : Source} {patience depth place next : Nat}
  {A : Char} {word : List Char}

theorem WellFormed.head_known (wf : WellFormed guardsStart g) {tree : Tree}
    (h : tree.Follows g) : tree.head ∈ g.nonterminals := by
  cases h with
  | leaf hb => exact wf.mem_of_body hb
  | node hb _ _ => exact wf.mem_of_body hb

/-- The nonterminal derives the word by a tree that nests no deeper than the depth. -/
def DerivesWithin (g : Grammar) (depth : Nat) (A : Char) (word : List Char) : Prop :=
  ∃ tree : Tree, tree.Follows g ∧ tree.head = A ∧ tree.word = word ∧ tree.nesting ≤ depth

theorem Expansion.derivesWithin (h : Expansion g source patience depth A place (.ok word) next) :
    g.DerivesWithin depth A word := by
  generalize hr : Except.ok word = result at h
  induction h generalizing word with
  | noBodies _ => cases hr
  | outOfDepth _ _ => cases hr
  | @letter depth _ _ A a picks =>
    cases hr
    have body := (g.eligible_sublist A depth).subset picks.mem
    exact ⟨.leaf A a, .leaf body, rfl, rfl, Nat.zero_le _⟩
  | leftFails _ _ _ => cases hr
  | rightFails _ _ _ _ _ => cases hr
  | @pair depth _ _ _ _ A B C _ _ picks _ _ ihl ihr =>
    cases hr
    obtain ⟨left, hl, rfl, rfl, nl⟩ := ihl rfl
    obtain ⟨right, hr, rfl, rfl, nr⟩ := ihr rfl
    exact ⟨.node A left right, .node picks.mem hl hr, rfl, rfl,
      Nat.succ_le_succ (Nat.max_le.mpr ⟨nl, nr⟩)⟩

theorem DerivesWithin.mono {deeper : Nat} (h : g.DerivesWithin depth A word)
    (deep : depth ≤ deeper) : g.DerivesWithin deeper A word := by
  obtain ⟨tree, ht, head, spelled, nesting⟩ := h
  exact ⟨tree, ht, head, spelled, Nat.le_trans nesting deep⟩

theorem DerivesWithin.length_le (h : g.DerivesWithin depth A word) : word.length ≤ 2 ^ depth := by
  obtain ⟨tree, _, _, rfl, nesting⟩ := h
  exact Nat.le_trans tree.word_length_le (Nat.pow_le_pow_right (by decide) nesting)

theorem DerivesWithin.derives (h : g.DerivesWithin depth A word) : g.Derives A word := by
  obtain ⟨tree, ht, rfl, rfl, _⟩ := h
  exact derives_of_tree ht

theorem WellFormed.derives_known (wf : WellFormed guardsStart g) (h : g.Derives A word) :
    A ∈ g.nonterminals := by
  obtain ⟨tree, ht, rfl, _⟩ := derives_iff_tree.mp h
  exact wf.head_known ht

/-- With a nonterminal as the start symbol, a grammar recognizes what the nonterminal derives. -/
theorem WellFormed.recognizes_started (wf : WellFormed guardsStart g) (known : A ∈ g.nonterminals) :
    ({ g with start := some A } : Grammar).recognizes word = .ok true ↔ g.Derives A word := by
  rw [recognizes_true_iff (wf.setStart known)]
  simp only [Option.some.injEq, exists_eq_left', derives_iff_tree]
  constructor
  · rintro ⟨tree, ht, spells⟩
    refine ⟨tree, ht.mono ?_, spells⟩
    exact fun _ => List.Subset.refl _
  · rintro ⟨tree, ht, spells⟩
    refine ⟨tree, ht.mono ?_, spells⟩
    exact fun _ => List.Subset.refl _

theorem WellFormed.recognizes_withStart (wf : WellFormed guardsStart g) (h : g.Derives A word) :
    ∃ copy, g.withStart A = .ok copy ∧ copy.recognizes word = .ok true := by
  have known := wf.derives_known h
  exact ⟨{ g with start := some A }, by simp [withStart, known],
    (wf.recognizes_started known).mpr h⟩

/-- **Every sampled word is recognized.** Whatever is drawn, a word that a nonterminal is expanded
to is a word of terminals that is not longer than the depth allows, and the grammar recognizes it
once the nonterminal is its start symbol. A word sampled from the start symbol is recognized at
once. -/
theorem sampled_recognized (reach : Reachable guardsStart g) (source : Source)
    (patience depth place next : Nat) (word : List Char) :
    (∀ A, g.sampleFrom source patience depth A place = some (.ok word, next) →
      A ∈ g.nonterminals ∧ word ≠ [] ∧ (∀ a ∈ word, a ∈ g.terminals) ∧ word.length ≤ 2 ^ depth ∧
        ∃ copy, g.withStart A = .ok copy ∧ copy.recognizes word = .ok true) ∧
    (g.sample source patience depth place = some (.ok word, next) →
      g.recognizes word = .ok true) := by
  have wf := reach.wellFormed
  constructor
  · intro A h
    have within := (sampleFrom_eq_some_iff.mp h).derivesWithin
    have short := within.length_le
    have recognized := wf.recognizes_withStart within.derives
    obtain ⟨tree, ht, rfl, rfl, _⟩ := within
    exact ⟨wf.head_known ht, word_ne_nil tree, wf.letters_known ht, short, recognized⟩
  · intro h
    rcases sample_eq_some_iff.mp h with ⟨_, clash, _⟩ | ⟨S, start, expansion⟩
    · cases clash
    · exact (recognizes_true_iff wf).mpr ⟨S, start, expansion.derivesWithin.derives⟩

/-- A source whose first number is unusable for two choices. -/
def hesitant : Source := Source.ofList [0xC0000000, 0x80000000]

theorem sampled_recognized_hesitant :
    let g := (empty true).afterAll textbook
    Reachable true g ∧
      g.sampleFrom hesitant 2 2 'A' 2 = some (.ok ['a', 'a', 'b', 'a'], 9) ∧
      (∃ copy, g.withStart 'A' = .ok copy ∧ copy.recognizes ['a', 'a', 'b', 'a'] = .ok true) ∧
      g.sample hesitant 2 2 0 = some (.ok ['a', 'a', 'a', 'b'], 8) ∧
      g.recognizes ['a', 'a', 'a', 'b'] = .ok true := by
  have reach : Reachable true ((empty true).afterAll textbook) := ⟨textbook, rfl⟩
  obtain ⟨_, _, _, _, recognized⟩ := (sampled_recognized reach hesitant 2 2 2 9 _).1 'A' rfl
  exact ⟨reach, rfl, recognized, rfl, (sampled_recognized reach hesitant 2 2 0 8 _).2 rfl⟩

end Grammar

end NormalForm
