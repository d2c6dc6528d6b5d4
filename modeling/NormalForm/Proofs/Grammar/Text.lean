import Mathlib.Data.List.Forall2
import NormalForm.Grammar.Text
import NormalForm.Proofs.Grammar.Run
import NormalForm.Proofs.Lines.Cut

/-! # What the text of a grammar tells

Each nonterminal with bodies has one line in the text, and at its bars the line falls back into the
bodies, because no symbol is a bar or blank. A nonterminal without a line has no bodies. So the text
tells all that the lists of symbols, the start symbol and its guard leave open. -/

namespace NormalForm.Grammar

open Unicode

variable {guardsStart : Bool} {g : Grammar}

theorem barred_eq_intercalate (texts : List (List Char)) :
    barred texts = ['|'].intercalate texts := by
  induction texts with
  | nil => rfl
  | cons text more ih =>
    cases more with
    | nil => simp [barred, List.intercalate]
    | cons next more =>
      rw [barred, ih]
      · simp [List.intercalate]
      · simp

theorem splitOn_barred {texts : List (List Char)} (nonempty : texts ≠ [])
    (h : ∀ text ∈ texts, '|' ∉ text) : (barred texts).splitOn '|' = texts := by
  rw [barred_eq_intercalate]
  exact List.splitOn_intercalate '|' h nonempty

/-- There is one bar less than there are texts. -/
theorem count_barred {texts : List (List Char)} (nonempty : texts ≠ [])
    (h : ∀ text ∈ texts, '|' ∉ text) : (barred texts).count '|' + 1 = texts.length := by
  induction texts with
  | nil => exact absurd rfl nonempty
  | cons text more ih =>
    obtain ⟨first, h⟩ := List.forall_mem_cons.mp h
    cases more with
    | nil => simp [barred, List.count_eq_zero.mpr first]
    | cons next more =>
      have rest := ih (List.cons_ne_nil _ _) h
      rw [barred]
      · simp only [List.count_append, List.count_cons_self, List.count_eq_zero.mpr first,
          List.length_cons] at rest ⊢
        omega
      · simp

theorem mem_barred {texts : List (List Char)} {c : Char} (h : c ∈ barred texts) :
    c = '|' ∨ ∃ text ∈ texts, c ∈ text := by
  induction texts with
  | nil => simp [barred] at h
  | cons text more ih =>
    cases more with
    | nil => exact Or.inr ⟨text, by simp, h⟩
    | cons next more =>
      rw [barred] at h
      · rcases List.mem_append.mp h with h | h
        · exact Or.inr ⟨text, by simp, h⟩
        · rcases List.mem_cons.mp h with h | h
          · exact Or.inl h
          · rcases ih h with h | ⟨other, ho, h⟩
            · exact Or.inl h
            · exact Or.inr ⟨other, List.mem_cons_of_mem _ ho, h⟩
      · simp

theorem ruleText_of_ne_nil {A : Char} (filled : g.bodies A ≠ []) :
    g.ruleText A = A :: ':' :: ':' :: '=' :: barred ((g.bodies A).map Body.text) := by
  unfold ruleText
  split
  · rename_i bare
    exact absurd bare filled
  · rfl

/-- The symbols of a body are registered, so they have a case. -/
theorem WellFormed.body_cased (wf : WellFormed guardsStart g) (A : Char) :
    ∀ text ∈ (g.bodies A).map Body.text, ∀ c ∈ text, isCased c = true := by
  intro text ht c hc
  obtain ⟨body, hb, rfl⟩ := List.mem_map.mp ht
  cases body with
  | terminal a =>
    rw [List.mem_singleton.mp hc]
    exact isCased_of_lowercase (wf.terminals_lower a (wf.letter_known A a hb))
  | pair B C =>
    obtain ⟨hB, hC⟩ := wf.pair_known A B C hb
    rcases List.mem_cons.mp hc with rfl | hc
    · exact isCased_of_uppercase (wf.nonterminals_upper _ hB)
    · rw [List.mem_singleton.mp hc]
      exact isCased_of_uppercase (wf.nonterminals_upper C hC)

theorem WellFormed.head_cased (wf : WellFormed guardsStart g) {A : Char}
    (hA : A ∈ g.nonterminals) : isCased A = true :=
  isCased_of_uppercase (wf.nonterminals_upper A hA)

theorem WellFormed.body_unbarred (wf : WellFormed guardsStart g) (A : Char) :
    ∀ text ∈ (g.bodies A).map Body.text, '|' ∉ text :=
  fun text ht bar => ne_of_cased (wf.body_cased A text ht '|' bar) (by decide) rfl

/-- The line is the rule of a nonterminal: what follows `::=` falls into its bodies at the bars, of
which the line has no others, and nothing in the line is blank. -/
structure Shows (g : Grammar) (line : List Char) (A : Char) : Prop where
  split : ∃ right, line = A :: ':' :: ':' :: '=' :: right ∧
    right.splitOn '|' = (g.bodies A).map Body.text
  bars : line.count '|' + 1 = (g.bodies A).length
  unblank : ∀ c ∈ line, isBlank c = false

theorem WellFormed.shows (wf : WellFormed guardsStart g) {A : Char} (filled : g.bodies A ≠ []) :
    g.Shows (g.ruleText A) A := by
  obtain ⟨body, hb⟩ := List.exists_mem_of_ne_nil _ filled
  have head := wf.head_cased (wf.mem_of_body hb)
  have texts : (g.bodies A).map Body.text ≠ [] := by simpa using filled
  rw [ruleText_of_ne_nil filled]
  constructor
  · exact ⟨_, rfl, splitOn_barred texts (wf.body_unbarred A)⟩
  · have notBar : A ≠ '|' := ne_of_cased head (by decide)
    have bars := count_barred texts (wf.body_unbarred A)
    rw [List.length_map] at bars
    simpa [List.count_cons, notBar] using bars
  · intro c hc
    simp only [List.mem_cons] at hc
    rcases hc with rfl | rfl | rfl | rfl | hc
    · exact not_blank_of_cased head
    · decide
    · decide
    · decide
    · rcases mem_barred hc with rfl | ⟨text, ht, hc⟩
      · decide
      · exact not_blank_of_cased (wf.body_cased A text ht c hc)

/-- A line is the rule of one nonterminal only, and tells its bodies. -/
theorem Shows.bodies_eq {h : Grammar} {line : List Char} {A B : Char} (first : g.Shows line A)
    (second : h.Shows line B) : B = A ∧ h.bodies B = g.bodies A := by
  obtain ⟨right, same, bodies⟩ := first.split
  obtain ⟨right', same', bodies'⟩ := second.split
  rw [same] at same'
  simp only [List.cons.injEq, true_and] at same'
  obtain ⟨rfl, rfl⟩ := same'
  have texts := bodies'.symm.trans bodies
  exact ⟨rfl, (List.map_inj_right fun _ _ => text_injective).mp texts⟩

theorem lines_eq (g : Grammar) :
    g.lines = (g.nonterminals.filter fun A => g.bodies A ≠ []).map g.ruleText := by
  rw [lines, List.filter_map]
  congr 1
  apply List.filter_congr
  intro A _
  by_cases bare : g.bodies A = []
  · simp [ruleText, bare]
  · simp [ruleText_of_ne_nil bare, bare]

theorem WellFormed.lines_show (wf : WellFormed guardsStart g) :
    List.Forall₂ g.Shows g.lines (g.nonterminals.filter fun A => g.bodies A ≠ []) := by
  rw [lines_eq, List.forall₂_map_left_iff]
  apply List.forall₂_same.mpr
  intro A hA
  exact wf.shows (by simpa using (List.mem_filter.mp hA).2)

theorem WellFormed.split_text (wf : WellFormed guardsStart g) :
    Lines.split '\n' '\r' g.text = g.lines := by
  apply Lines.split_lines
  intro line hl c hc
  rw [lines_eq] at hl
  obtain ⟨A, hA, rfl⟩ := List.mem_map.mp hl
  have filled : g.bodies A ≠ [] := by simpa using (List.mem_filter.mp hA).2
  have visible := (wf.shows filled).unblank c hc
  constructor <;> rintro rfl <;> exact absurd visible (by decide)

theorem mem_lines {A : Char} (known : A ∈ g.nonterminals) (filled : g.bodies A ≠ []) :
    g.ruleText A ∈ g.lines := by
  rw [lines_eq]
  exact List.mem_map_of_mem (List.mem_filter.mpr ⟨known, by simpa using filled⟩)

/-- The bodies of a nonterminal are in every grammar with the same lines. -/
theorem WellFormed.bodies_eq_of_lines {guardsOther : Bool} {other : Grammar}
    (wf : WellFormed guardsStart g) (wf' : WellFormed guardsOther other)
    (same : other.lines = g.lines) {A : Char} (filled : g.bodies A ≠ []) :
    other.bodies A = g.bodies A := by
  obtain ⟨body, hb⟩ := List.exists_mem_of_ne_nil _ filled
  have line := mem_lines (wf.mem_of_body hb) filled
  rw [← same, lines_eq] at line
  obtain ⟨B, hB, line⟩ := List.mem_map.mp line
  have filled' : other.bodies B ≠ [] := by simpa using (List.mem_filter.mp hB).2
  obtain ⟨rfl, bodies⟩ := (wf.shows filled).bodies_eq (line ▸ wf'.shows filled')
  exact bodies

/-- **The text determines the grammar.** It is one line for each nonterminal with bodies, in order
of registration, and the line is the rule of the nonterminal. No other grammar in reach has the same
text together with the same symbols in the same order, start symbol and guard. -/
theorem text_determines (reach : Reachable guardsStart g) :
    (∃ lines, g.text = lines.flatMap (· ++ ['\n']) ∧
      List.Forall₂ g.Shows lines (g.nonterminals.filter fun A => g.bodies A ≠ [])) ∧
    ∀ guardsOther other, Reachable guardsOther other → other.nonterminals = g.nonterminals →
      other.terminals = g.terminals → other.start = g.start → other.guardsStart = g.guardsStart →
      other.text = g.text → other = g := by
  have wf := reach.wellFormed
  refine ⟨⟨g.lines, rfl, wf.lines_show⟩, ?_⟩
  intro guardsOther other reach' nonterminals terminals start guard same
  have wf' := reach'.wellFormed
  have lines : other.lines = g.lines := by rw [← wf'.split_text, ← wf.split_text, same]
  apply eq_of_bodies nonterminals terminals start guard wf.nonterminals_nodup wf.keys wf'.keys
  intro A
  by_cases bare : g.bodies A = []
  · by_cases bare' : other.bodies A = []
    · rw [bare, bare']
    · rw [wf'.bodies_eq_of_lines wf lines.symm bare']
  · rw [wf.bodies_eq_of_lines wf' lines bare]

/-- A history without detours. -/
def forthright : List Edit :=
  [ .nonterminal 'S', .nonterminal 'A', .nonterminal 'D', .terminal 'a', .start 'S',
    .production 'S' ['A', 'A'], .production 'S' ['a'], .production 'A' ['a'] ]

/-- A history that clears, sets another start symbol, repeats a production and changes the order
between nonterminals. -/
def roundabout : List Edit :=
  [ .nonterminal 'X', .clear, .terminal 'a', .nonterminal 'S', .nonterminal 'A', .nonterminal 'D',
    .start 'A', .production 'A' ['a'], .start 'S', .production 'S' ['A', 'A'],
    .production 'S' ['A', 'A'], .production 'S' ['a'] ]

theorem text_determines_roundabout :
    let g := (empty true).afterAll forthright
    let other := (empty true).afterAll roundabout
    Reachable true g ∧ Reachable true other ∧ g.text = "S::=AA|a\nA::=a\n".toList ∧
      (∃ lines, g.text = lines.flatMap (· ++ ['\n']) ∧ List.Forall₂ g.Shows lines ['S', 'A']) ∧
      other = g := by
  have reach : Reachable true ((empty true).afterAll forthright) := ⟨forthright, rfl⟩
  have reach' : Reachable true ((empty true).afterAll roundabout) := ⟨roundabout, rfl⟩
  obtain ⟨lines, determined⟩ := text_determines reach
  exact ⟨reach, reach', by decide, lines, determined true _ reach' rfl rfl rfl rfl rfl⟩

end NormalForm.Grammar
