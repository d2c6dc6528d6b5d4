import NormalForm.Proofs.Grammar.Text
import NormalForm.Proofs.Load.Lines
import NormalForm.Proofs.Token.Pieces

namespace NormalForm

open Unicode

namespace Token

theorem scan_symbol {c : Char} (h : isCased c = true) (rest : List Char) :
    scan (c :: rest) = (scan rest).map (symbol c :: ·) := by
  have notColon : c ≠ ':' := ne_of_cased h (by decide)
  have notBar : c ≠ '|' := ne_of_cased h (by decide)
  have plain : (symbol c).isPlain = true :=
    isPlain_symbol.mpr ⟨notColon, notBar, not_blank_of_cased h⟩
  exact scan_token plain rest

theorem scan_symbols {letters : List Char} (h : ∀ c ∈ letters, isCased c = true)
    (rest : List Char) :
    scan (letters ++ rest) = (scan rest).map (letters.map symbol ++ ·) := by
  induction letters with
  | nil =>
    rw [List.nil_append]
    cases scan rest <;> rfl
  | cons c letters ih =>
    obtain ⟨first, h⟩ := List.forall_mem_cons.mp h
    rw [List.cons_append, scan_symbol first, ih h]
    cases scan rest <;> rfl

/-- The tokens of several alternatives with bars between neighbours. -/
def barred : List (List Char) → List Token
  | [] => []
  | [text] => text.map symbol
  | text :: more => text.map symbol ++ bar :: barred more

theorem scan_barred {texts : List (List Char)}
    (h : ∀ text ∈ texts, ∀ c ∈ text, isCased c = true) :
    scan (Grammar.barred texts) = .ok (barred texts) := by
  induction texts with
  | nil => rfl
  | cons text more ih =>
    obtain ⟨first, h⟩ := List.forall_mem_cons.mp h
    cases more with
    | nil =>
      have alone := scan_symbols first []
      simpa [Grammar.barred, barred, scan, Except.map] using alone
    | cons next more =>
      rw [Grammar.barred, scan_symbols first, scan, ih h]
      · rfl
      all_goals simp

end Token

namespace Rule

theorem readAlternatives_symbols (letters current : List Char) (rest : List Token) :
    readAlternatives current (letters.map .symbol ++ rest) =
      readAlternatives (letters.reverse ++ current) rest := by
  induction letters generalizing current with
  | nil => rfl
  | cons c letters ih =>
    rw [List.map_cons, List.cons_append, readAlternatives, ih]
    simp

theorem readAlternatives_barred {texts : List (List Char)} (nonempty : texts ≠ [])
    (h : ∀ text ∈ texts, text ≠ []) : readAlternatives [] (Token.barred texts) = .ok texts := by
  induction texts with
  | nil => exact absurd rfl nonempty
  | cons text more ih =>
    obtain ⟨first, h⟩ := List.forall_mem_cons.mp h
    cases more with
    | nil =>
      have alone := readAlternatives_symbols text [] []
      simp only [List.append_nil] at alone
      simp [Token.barred, alone, readAlternatives, first]
    | cons next more =>
      rw [Token.barred, readAlternatives_symbols, readAlternatives, ih (List.cons_ne_nil _ _) h]
      · simp [first, Except.map]
      · simp

theorem isWritten_of_cased {head : Char} (cased : isCased head = true) (rest : List Char) :
    isWritten (head :: rest) = true := by
  have notSemicolon : head ≠ ';' := ne_of_cased cased (by decide)
  simp [isWritten, not_blank_of_cased cased, notSemicolon]

/-- A printed rule is read back as it was. -/
theorem ofText_barred (number : Nat) {head : Char} {texts : List (List Char)}
    (cased : isCased head = true) (nonempty : texts ≠ []) (h : ∀ text ∈ texts, text ≠ [])
    (letters : ∀ text ∈ texts, ∀ c ∈ text, isCased c = true) :
    ofText number (head :: ':' :: ':' :: '=' :: Grammar.barred texts) =
      .ok ⟨number, head, texts⟩ := by
  have tokens : Token.scan (head :: ':' :: ':' :: '=' :: Grammar.barred texts) =
      .ok (.symbol head :: .defines :: Token.barred texts) := by
    rw [Token.scan_symbol cased, Token.scan, Token.scan_barred letters]
    rfl
  rw [ofText, tokens]
  change (readAlternatives [] (Token.barred texts)).map _ = _
  rw [readAlternatives_barred nonempty h]
  rfl

end Rule

namespace Grammar

variable {guardsStart : Bool} {g : Grammar}

/-- The rules that a grammar is printed as, if all its nonterminals have bodies. -/
def rules (g : Grammar) : List Rule :=
  (g.nonterminals.zipIdx 1).map fun (A, number) => ⟨number, A, (g.bodies A).map Body.text⟩

theorem lines_of_productive (productive : ∀ A ∈ g.nonterminals, g.bodies A ≠ []) :
    g.lines = g.nonterminals.map g.ruleText := by
  rw [lines_eq]
  congr 1
  apply List.filter_eq_self.mpr
  intro A hA
  exact decide_eq_true (productive A hA)

/-- The text of a grammar spells its rules. -/
theorem WellFormed.spells_rules (wf : WellFormed guardsStart g)
    (productive : ∀ A ∈ g.nonterminals, g.bodies A ≠ []) : Load.Spells g.text g.rules := by
  have cut : Lines.split '\n' '\r' g.text = g.nonterminals.map g.ruleText :=
    wf.split_text.trans (lines_of_productive productive)
  have written : Load.writtenLines g.text =
      (g.nonterminals.zipIdx 1).map fun (A, number) => (g.ruleText A, number) := by
    rw [Load.writtenLines, cut, List.zipIdx_map]
    apply List.filter_eq_self.mpr
    intro line hl
    obtain ⟨⟨A, number⟩, hA, rfl⟩ := List.mem_map.mp hl
    have hA := List.fst_mem_of_mem_zipIdx hA
    simp only [Prod.map, ruleText_of_ne_nil (productive A hA)]
    exact Rule.isWritten_of_cased (wf.head_cased hA) _
  rw [Load.Spells, written, rules, List.map_map, List.map_map]
  apply List.map_congr_left
  rintro ⟨A, number⟩ hA
  have hA := List.fst_mem_of_mem_zipIdx hA
  have bodied := productive A hA
  have filled : ∀ text ∈ (g.bodies A).map Body.text, text ≠ [] := by
    intro text ht
    obtain ⟨body, _, rfl⟩ := List.mem_map.mp ht
    cases body <;> simp [Body.text]
  simp only [Function.comp_apply, ruleText_of_ne_nil bodied]
  exact Rule.ofText_barred number (wf.head_cased hA) (by simpa using bodied) filled
    (wf.body_cased A)

end Grammar

end NormalForm
