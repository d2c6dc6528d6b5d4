import NormalForm.Proofs.Outcome
import NormalForm.Proofs.Table.Recognition
import NormalForm.Proofs.Table.Shape
import NormalForm.Proofs.Table.Text

namespace NormalForm.Grammar

open Unicode

variable {guardsStart : Bool} {g : Grammar} {word : List Char}

/-- Why a word is refused. The reasons exclude one another: each is for words without the ones
before it. -/
inductive Refuses (g : Grammar) (word : List Char) : WordError → Prop
  | empty : word = [] → Refuses g word .empty
  | noStart : word ≠ [] → g.start = none → Refuses g word .noStart
  | unknownLetter {before after : List Char} {a : Char} : g.start ≠ none →
      word = before ++ a :: after → (∀ b ∈ before, b ∈ g.terminals) → a ∉ g.terminals →
      Refuses g word (.unknownLetter a)

theorem startFor_eq_error_iff {e : WordError} : g.startFor word = .error e ↔ g.Refuses word e := by
  constructor
  · intro h
    unfold startFor at h
    split at h
    · rename_i letterless
      cases h
      exact .empty (List.isEmpty_iff.mp letterless)
    · rename_i nonempty
      have letters : word ≠ [] := fun letterless => nonempty (List.isEmpty_iff.mpr letterless)
      split at h
      · rename_i unset
        cases h
        exact .noStart letters unset
      · rename_i S start
        split at h
        · rename_i a found
          cases h
          obtain ⟨unknown, before, after, rfl, known⟩ := List.find?_eq_some_iff_append.mp found
          exact .unknownLetter (by simp [start]) rfl (by simpa using known) (by simpa using unknown)
        · cases h
  · intro h
    cases h with
    | empty letterless => simp [startFor, letterless]
    | noStart letters unset => simp [startFor, letters, unset]
    | @unknownLetter before after a set split known unknown =>
      obtain ⟨S, start⟩ := Option.ne_none_iff_exists'.mp set
      have found : word.find? (· ∉ g.terminals) = some a :=
        List.find?_eq_some_iff_append.mpr
          ⟨by simpa using unknown, before, after, split, by simpa using known⟩
      have letters : word ≠ [] := by simp [split]
      simp only [startFor, List.isEmpty_iff, letters, ↓reduceIte, start, found]

theorem examine_eq_error_iff {e : WordError} : g.examine word = .error e ↔ g.Refuses word e := by
  rw [examine_eq, map_eq_error_iff, startFor_eq_error_iff]

theorem table_eq_error_iff {e : WordError} : g.table word = .error e ↔ g.Refuses word e := by
  rw [table, map_eq_error_iff, startFor_eq_error_iff]

/-- The cells hold nonterminals only. -/
theorem fill_nonterminals (longer : Nat) :
    ∀ row ∈ (g.fill g.heads word longer).rows, ∀ cell ∈ row, ∀ A ∈ cell.symbols,
      A ∈ g.nonterminals := by
  induction longer with
  | zero =>
    intro row hrow cell hcell A hA
    rw [List.mem_singleton.mp hrow] at hcell
    obtain ⟨a, _, rfl⟩ := List.mem_map.mp hcell
    exact (contains_letterCell.mp (decide_eq_true hA)).1
  | succ longer ih =>
    intro row hrow
    rcases List.mem_append.mp hrow with hrow | hrow
    · exact ih row hrow
    · intro cell hcell A hA
      rw [List.mem_singleton.mp hrow] at hcell
      obtain ⟨start, _, rfl⟩ := List.mem_map.mp hcell
      obtain ⟨_, _, _, _, _, _, _, found⟩ := Heads.contains_cell.mp (decide_eq_true hA)
      exact (mem_of_heads.mp found).1

theorem WellFormed.fill_upper (wf : WellFormed guardsStart g) (word : List Char) (longer : Nat) :
    (g.fill g.heads word longer).Upper :=
  fun row hrow cell hcell A hA =>
    wf.nonterminals_upper A (fill_nonterminals longer row hrow cell hcell A hA)

theorem tableText_eq_ok_iff {text : List Char} :
    g.tableText word = .ok text ↔ ∃ t, g.table word = .ok t ∧ text = t.text := by
  rw [tableText, map_eq_ok_iff]
  simp only [eq_comm]

theorem WellFormed.table_upper (wf : WellFormed guardsStart g) {t : Table}
    (h : g.table word = .ok t) : t.Upper := by
  obtain ⟨_, rfl⟩ := table_eq_ok_iff.mp h
  exact wf.fill_upper word _

theorem WellFormed.table_shows (wf : WellFormed guardsStart g) {t : Table}
    (h : g.table word = .ok t) : t.Shows word.length t.lines := by
  obtain ⟨⟨S, looked⟩, rfl⟩ := table_eq_ok_iff.mp h
  have positive := List.length_pos_iff.mpr (startFor_eq_ok_iff.mp looked).1
  apply (wf.fill_upper word _).shows
  · rw [fill_length]
    omega
  · exact fill_triangular g.heads (word.length - 1)

theorem WellFormed.mem_last_line_iff (wf : WellFormed guardsStart g) {S : Char}
    (looked : g.startFor word = .ok S) :
    ∃ last, (g.fill g.heads word (word.length - 1)).lines.getLast? = some last ∧
      (S ∈ last ↔ g.recognizes word = .ok true) := by
  obtain ⟨letters, start, _⟩ := startFor_eq_ok_iff.mp looked
  have upper := wf.nonterminals_upper S (wf.start_known S start)
  obtain ⟨cell, rows, whole⟩ := fill_last_row g.heads letters
  refine ⟨cell.text, by rw [Table.lines, List.getLast?_map, rows]; simp, ?_⟩
  rw [Cell.mem_text_iff upper, recognizes_eq_ok_iff]
  simp only [looked, Except.ok.injEq, Table.accepts, whole]
  simp [Cell.contains]

/-- **The decision, the table and its text agree, and the text loses nothing.** A word is refused by
all three or by none, and for the same reason. Otherwise the text is one line for each length of a
span, with all cells of the table in it; the word is recognized exactly if the start symbol is in
the last line; and no other table, whatever its grammar and its word, has the same text. -/
theorem tableText_shows (reach : Reachable guardsStart g) (word : List Char) :
    (∀ e, (g.recognizes word = .error e ↔ g.Refuses word e) ∧
      (g.table word = .error e ↔ g.Refuses word e) ∧
      (g.tableText word = .error e ↔ g.Refuses word e)) ∧
    (∀ text, g.tableText word = .ok text →
      ∃ t S lines last, g.table word = .ok t ∧ g.start = some S ∧
        text = lines.flatMap (· ++ ['\n']) ∧ t.Shows word.length lines ∧
        lines.getLast? = some last ∧ (S ∈ last ↔ g.recognizes word = .ok true)) ∧
    (∀ text guardsOther other (v : List Char), Reachable guardsOther other →
      g.tableText word = .ok text → other.tableText v = .ok text →
      ∃ t, g.table word = .ok t ∧ other.table v = .ok t) := by
  have wf := reach.wellFormed
  refine ⟨fun e => ⟨?_, ?_, ?_⟩, ?_, ?_⟩
  · rw [recognizes, map_eq_error_iff, examine_eq_error_iff]
  · exact table_eq_error_iff
  · rw [tableText, map_eq_error_iff, table_eq_error_iff]
  · intro text h
    obtain ⟨t, ht, rfl⟩ := tableText_eq_ok_iff.mp h
    obtain ⟨⟨S, looked⟩, rfl⟩ := table_eq_ok_iff.mp ht
    obtain ⟨last, hlast, decided⟩ := wf.mem_last_line_iff looked
    exact ⟨_, S, _, last, ht, (startFor_eq_ok_iff.mp looked).2.1, Table.text_eq_lines _,
      wf.table_shows ht, hlast, decided⟩
  · intro text guardsOther other v reach' h h'
    obtain ⟨t, ht, rfl⟩ := tableText_eq_ok_iff.mp h
    obtain ⟨u, hu, same⟩ := tableText_eq_ok_iff.mp h'
    have equal := (wf.table_upper ht).text_inj (reach'.wellFormed.table_upper hu) same
    exact ⟨t, ht, equal ▸ hu⟩

/-- The textbook grammar with one more letter for `A` and `C`. -/
def synonymous : List Edit :=
  textbook ++ [.terminal 'c', .production 'A' ['c'], .production 'C' ['c']]

theorem tableText_shows_synonymous :
    let g := (empty true).afterAll textbook
    let other := (empty true).afterAll synonymous
    let shown := ['[', 'B', ']', '[', 'A', 'C', ']', '\n', '[', 'A', 'S', ']', '\n']
    Reachable true g ∧ Reachable true other ∧ g.Refuses ['b', 'c', 'd'] (.unknownLetter 'c') ∧
      g.tableText ['b', 'a'] = .ok shown ∧ other.tableText ['b', 'c'] = .ok shown ∧
      ∃ t, g.table ['b', 'a'] = .ok t ∧ other.table ['b', 'c'] = .ok t := by
  have reach : Reachable true ((empty true).afterAll textbook) := ⟨textbook, rfl⟩
  have reachOther : Reachable true ((empty true).afterAll synonymous) := ⟨synonymous, rfl⟩
  have refused := ((tableText_shows reach ['b', 'c', 'd']).1 (.unknownLetter 'c')).2.2.mp rfl
  have same := (tableText_shows reach ['b', 'a']).2.2 _ true _ ['b', 'c'] reachOther rfl rfl
  exact ⟨reach, reachOther, refused, rfl, rfl, same⟩

end NormalForm.Grammar
