import NormalForm.Proofs.Table.Fill

namespace NormalForm.Grammar

variable {guardsStart : Bool} {g : Grammar} {word : List Char}

theorem startFor_eq_ok_iff {S : Char} :
    g.startFor word = .ok S ↔ word ≠ [] ∧ g.start = some S ∧ ∀ a ∈ word, a ∈ g.terminals := by
  unfold startFor
  cases word with
  | nil => simp
  | cons a rest =>
    cases hs : g.start with
    | none => simp
    | some S' =>
      cases hf : (a :: rest).find? (· ∉ g.terminals) with
      | some b =>
        have known : b ∉ g.terminals := by simpa using List.find?_some hf
        have mem := List.mem_of_find?_eq_some hf
        simp only [List.isEmpty_cons, Bool.false_eq_true, ↓reduceIte, reduceCtorEq, false_iff,
          not_and]
        exact fun _ _ all => known (all b mem)
      | none =>
        have all : ∀ b ∈ a :: rest, b ∈ g.terminals := by
          simpa using List.find?_eq_none.mp hf
        simp only [List.isEmpty_cons, Bool.false_eq_true, ↓reduceIte, Except.ok.injEq,
          Option.some.injEq, ne_eq, reduceCtorEq, not_false_eq_true, true_and]
        exact ⟨fun h => ⟨h, all⟩, And.left⟩

/-- A table is the one that filling gives, and the word may be looked at. -/
theorem table_eq_ok_iff {t : Table} :
    g.table word = .ok t ↔
      (∃ S, g.startFor word = .ok S) ∧ t = g.fill g.heads word (word.length - 1) := by
  unfold table
  cases g.startFor word with
  | error e => simp [Except.map]
  | ok S => simp [Except.map, eq_comm]

/-- A word with a table has a start symbol, so looking it up again cannot fail. -/
theorem examine_eq (g : Grammar) (word : List Char) :
    g.examine word =
      (g.startFor word).map fun S => (g.fill g.heads word (word.length - 1), S) := by
  unfold examine table
  cases looked : g.startFor word with
  | error e => rfl
  | ok S =>
    have start := (startFor_eq_ok_iff.mp looked).2.1
    simp [Except.map, Except.bind, start]

theorem recognizes_eq_ok_iff {verdict : Bool} :
    g.recognizes word = .ok verdict ↔ ∃ S, g.startFor word = .ok S ∧
      (g.fill g.heads word (word.length - 1)).accepts S = verdict := by
  rw [recognizes, examine_eq]
  cases g.startFor word with
  | error e => simp [Except.map]
  | ok S => simp [Except.map]

/-- The cell of the whole word answers for the start symbol. -/
theorem accepts_iff (wf : WellFormed guardsStart g) (letters : word ≠ []) (A : Char) :
    (g.fill g.heads word (word.length - 1)).accepts A = true ↔ g.Derives A word := by
  have positive := List.length_pos_iff.mpr letters
  have whole : (g.fill g.heads word (word.length - 1)).length = word.length := by
    rw [fill_length]; omega
  obtain ⟨cell, hc, holds⟩ := fill_filled wf word (word.length - 1) 0 word.length positive
    (by omega) (by omega)
  rw [span_whole] at holds
  unfold Table.accepts
  rw [whole, hc]
  exact holds A

/-- A word that a registered start symbol derives may be looked at. -/
theorem startFor_of_derives (wf : WellFormed guardsStart g) {S : Char} (hS : g.start = some S)
    (h : g.Derives S word) : g.startFor word = .ok S := by
  apply startFor_eq_ok_iff.mpr
  obtain ⟨tree, ht, _, rfl⟩ := derives_iff_tree.mp h
  exact ⟨word_ne_nil tree, hS, wf.letters_known ht⟩

theorem recognizes_true_iff (wf : WellFormed guardsStart g) :
    g.recognizes word = .ok true ↔ ∃ S, g.start = some S ∧ g.Derives S word := by
  rw [recognizes_eq_ok_iff]
  constructor
  · rintro ⟨S, hS, accepted⟩
    obtain ⟨letters, start, _⟩ := startFor_eq_ok_iff.mp hS
    exact ⟨S, start, (accepts_iff wf letters S).mp accepted⟩
  · rintro ⟨S, start, derived⟩
    exact ⟨S, startFor_of_derives wf start derived, (accepts_iff wf derived.ne_nil S).mpr derived⟩

theorem recognizes_false_iff (wf : WellFormed guardsStart g) :
    g.recognizes word = .ok false ↔ word ≠ [] ∧ (∀ a ∈ word, a ∈ g.terminals) ∧
      ∃ S, g.start = some S ∧ ¬ g.Derives S word := by
  rw [recognizes_eq_ok_iff]
  constructor
  · rintro ⟨S, hS, refused⟩
    obtain ⟨letters, start, known⟩ := startFor_eq_ok_iff.mp hS
    refine ⟨letters, known, S, start, fun derived => ?_⟩
    rw [(accepts_iff wf letters S).mpr derived] at refused
    cases refused
  · rintro ⟨letters, known, S, start, underived⟩
    refine ⟨S, startFor_eq_ok_iff.mpr ⟨letters, start, known⟩, ?_⟩
    exact Bool.eq_false_iff.mpr fun accepted =>
      underived ((accepts_iff wf letters S).mp accepted)

/-- **The table is sound and complete.** In every grammar in reach, the cell of every span of a word
with a table holds a character exactly if the character derives the span. So the word is recognized
exactly if the start symbol derives it, and refused exactly if it could have been. -/
theorem cells_hold_derivers (reach : Reachable guardsStart g) (word : List Char) :
    (∀ t, g.table word = .ok t → ∀ start length, 1 ≤ length → start + length ≤ word.length →
      ∃ cell, t.cell start length = some cell ∧
        ∀ A, cell.contains A = true ↔ g.Derives A ((word.drop start).take length)) ∧
    (g.recognizes word = .ok true ↔ ∃ S, g.start = some S ∧ g.Derives S word) ∧
    (g.recognizes word = .ok false ↔ word ≠ [] ∧ (∀ a ∈ word, a ∈ g.terminals) ∧
      ∃ S, g.start = some S ∧ ¬ g.Derives S word) := by
  have wf := reach.wellFormed
  refine ⟨?_, recognizes_true_iff wf, recognizes_false_iff wf⟩
  intro t ht start length lo inside
  obtain ⟨_, rfl⟩ := table_eq_ok_iff.mp ht
  exact fill_filled wf word _ start length lo (by rw [fill_length]; omega) inside

/-- The textbook grammar: `S ::= AB | BC`, `A ::= BA | a`, `B ::= CC | b`, `C ::= AB | a`. -/
def textbook : List Edit :=
  [ .nonterminal 'S', .nonterminal 'A', .nonterminal 'B', .nonterminal 'C', .terminal 'a',
    .terminal 'b', .start 'S', .production 'S' ['A', 'B'], .production 'S' ['B', 'C'],
    .production 'A' ['B', 'A'], .production 'A' ['a'], .production 'B' ['C', 'C'],
    .production 'B' ['b'], .production 'C' ['A', 'B'], .production 'C' ['a'] ]

theorem cells_hold_derivers_textbook :
    let g := (empty true).afterAll textbook
    Reachable true g ∧ g.Derives 'B' ['a', 'a', 'b'] ∧
      g.Derives 'S' ['b', 'a', 'a', 'b', 'a'] ∧ ¬ g.Derives 'S' ['b', 'b'] := by
  have reach : Reachable true ((empty true).afterAll textbook) := ⟨textbook, rfl⟩
  have baaba := cells_hold_derivers reach ['b', 'a', 'a', 'b', 'a']
  refine ⟨reach, ?_, ?_, ?_⟩
  · obtain ⟨cell, hc, holds⟩ := baaba.1 _ rfl 1 3 (by decide) (by decide)
    cases hc
    exact (holds 'B').mp rfl
  · obtain ⟨S, start, derived⟩ := baaba.2.1.mp rfl
    cases start
    exact derived
  · obtain ⟨_, _, S, start, underived⟩ := (cells_hold_derivers reach ['b', 'b']).2.2.mp rfl
    cases start
    exact underived

end NormalForm.Grammar
