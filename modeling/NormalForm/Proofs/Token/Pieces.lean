import NormalForm.Proofs.Outcome
import NormalForm.Token

/-! # The pieces of a line

A line that scans is put together from blank characters and tokens as they are written, in one way
only, and its tokens are those of the pieces. Nothing else scans, so blanks may stand anywhere
between tokens and the first character of a piece decides which piece it is. -/

namespace NormalForm.Token

open Unicode

/-- The token as it is written. -/
def text : Token → List Char
  | defines => [':', ':', '=']
  | bar => ['|']
  | symbol c => [c]

/-- Whether the token is written as nothing else is: a symbol is no mark and not blank. -/
def isPlain : Token → Bool
  | symbol c => c != ':' && c != '|' && !isBlank c
  | _ => true

/-- The first character of the token. -/
def mark : Token → Char
  | defines => ':'
  | bar => '|'
  | symbol c => c

theorem isPlain_symbol {c : Char} :
    (symbol c).isPlain = true ↔ c ≠ ':' ∧ c ≠ '|' ∧ isBlank c = false := by
  simp [isPlain, and_assoc]

theorem mark_not_blank {t : Token} (plain : t.isPlain = true) : isBlank t.mark = false := by
  cases t with
  | defines => decide
  | bar => decide
  | symbol c => exact (isPlain_symbol.mp plain).2.2

theorem eq_of_mark {t u : Token} (ht : t.isPlain = true) (hu : u.isPlain = true)
    (same : t.mark = u.mark) : t = u := by
  cases t <;> cases u <;> grind [isPlain, mark]

/-- A blank character, or a token. -/
inductive Piece where
  | blank (c : Char) (white : isBlank c = true)
  | token (t : Token) (plain : t.isPlain = true)

namespace Piece

def text : Piece → List Char
  | blank c _ => [c]
  | token t _ => t.text

def token? : Piece → Option Token
  | blank _ _ => none
  | token t _ => some t

def mark : Piece → Char
  | blank c _ => c
  | token t _ => t.mark

theorem head_text (p : Piece) (rest : List Char) : (p.text ++ rest).head? = some p.mark := by
  rcases p with ⟨c, _⟩ | ⟨t, _⟩
  · rfl
  · cases t <;> rfl

theorem eq_of_mark {p q : Piece} (same : p.mark = q.mark) : p = q := by
  rcases p with ⟨c, hc⟩ | ⟨t, ht⟩
  · rcases q with ⟨d, hd⟩ | ⟨u, hu⟩
    · cases same
      rfl
    · have other := mark_not_blank hu
      rw [← show c = u.mark from same, hc] at other
      cases other
  · rcases q with ⟨d, hd⟩ | ⟨u, hu⟩
    · have other := mark_not_blank ht
      rw [show t.mark = d from same, hd] at other
      cases other
    · cases Token.eq_of_mark ht hu same
      rfl

theorem text_append_inj {p q : Piece} {rest others : List Char}
    (same : p.text ++ rest = q.text ++ others) : p = q ∧ rest = others := by
  have marks := congrArg List.head? same
  rw [head_text, head_text] at marks
  obtain rfl := eq_of_mark (Option.some.inj marks)
  exact ⟨rfl, List.append_cancel_left same⟩

/-- A line is put together from pieces in one way at most. -/
theorem flatMap_text_inj {pieces others : List Piece}
    (same : pieces.flatMap text = others.flatMap text) : pieces = others := by
  induction pieces generalizing others with
  | nil =>
    cases others with
    | nil => rfl
    | cons q others =>
      have marks := congrArg List.head? same
      rw [List.flatMap_cons, head_text] at marks
      cases marks
  | cons p pieces ih =>
    cases others with
    | nil =>
      have marks := congrArg List.head? same
      rw [List.flatMap_cons, head_text] at marks
      cases marks
    | cons q others =>
      rw [List.flatMap_cons, List.flatMap_cons] at same
      obtain ⟨rfl, rest⟩ := text_append_inj same
      rw [ih rest]

end Piece

theorem scan_blank {c : Char} (h : isBlank c = true) (rest : List Char) :
    scan (c :: rest) = scan rest := by
  have differs (mark : Char) (visible : isBlank mark = false) : c ≠ mark := by
    rintro rfl
    rw [h] at visible
    cases visible
  have notColon := differs ':' (by decide)
  rw [scan, if_pos h]
  · intro _ same
    exact absurd same notColon
  · exact notColon
  · exact differs '|' (by decide)

theorem scan_token {t : Token} (h : t.isPlain = true) (rest : List Char) :
    scan (t.text ++ rest) = (scan rest).map (t :: ·) := by
  cases t with
  | defines => rfl
  | bar => rfl
  | symbol c =>
    obtain ⟨notColon, notBar, visible⟩ := isPlain_symbol.mp h
    change scan (c :: rest) = _
    rw [scan, visible]
    · rfl
    · intro _ same
      exact absurd same notColon
    · exact notColon
    · exact notBar

theorem scan_pieces (pieces : List Piece) :
    scan (pieces.flatMap Piece.text) = .ok (pieces.filterMap Piece.token?) := by
  induction pieces with
  | nil => rfl
  | cons p pieces ih =>
    rw [List.flatMap_cons]
    rcases p with ⟨c, h⟩ | ⟨t, h⟩
    · exact (scan_blank h _).trans ih
    · exact (scan_token h _).trans (by rw [ih]; rfl)

/-- A line that scans has pieces. -/
theorem exists_pieces {line : List Char} {tokens : List Token} (h : scan line = .ok tokens) :
    ∃ pieces : List Piece, pieces.flatMap Piece.text = line := by
  fun_induction scan line generalizing tokens with
  | case1 => exact ⟨[], rfl⟩
  | case2 rest ih =>
    obtain ⟨found, hr, _⟩ := map_eq_ok_iff.mp h
    obtain ⟨pieces, rfl⟩ := ih hr
    exact ⟨.token defines rfl :: pieces, rfl⟩
  | case3 => cases h
  | case4 rest ih =>
    obtain ⟨found, hr, _⟩ := map_eq_ok_iff.mp h
    obtain ⟨pieces, rfl⟩ := ih hr
    exact ⟨.token bar rfl :: pieces, rfl⟩
  | case5 c rest _ notColon notBar blank ih =>
    obtain ⟨pieces, rfl⟩ := ih h
    exact ⟨.blank c blank :: pieces, rfl⟩
  | case6 c rest _ notColon notBar visible ih =>
    obtain ⟨found, hr, _⟩ := map_eq_ok_iff.mp h
    obtain ⟨pieces, rfl⟩ := ih hr
    have plain : (symbol c).isPlain = true :=
      isPlain_symbol.mpr ⟨notColon, notBar, by simpa using visible⟩
    exact ⟨.token (symbol c) plain :: pieces, rfl⟩

theorem scan_error {line : List Char} {e : RuleError} (h : scan line = .error e) :
    e = .strayColon := by
  fun_induction scan line with
  | case1 => cases h
  | case2 rest ih => exact ih (map_eq_error_iff.mp h)
  | case3 => cases h; rfl
  | case4 rest ih => exact ih (map_eq_error_iff.mp h)
  | case5 c rest _ _ _ _ ih => exact ih h
  | case6 c rest _ _ _ _ ih => exact ih (map_eq_error_iff.mp h)

/-- Tokens as they may stand on a line: blanks in front of them, and blanks after each. -/
def spaced (blanks : List Char) (tokens : List (Token × List Char)) : List Char :=
  blanks ++ tokens.flatMap fun (token, after) => token.text ++ after

theorem scan_blanks {blanks : List Char} (h : ∀ c ∈ blanks, isBlank c = true)
    (rest : List Char) : scan (blanks ++ rest) = scan rest := by
  induction blanks with
  | nil => rfl
  | cons c blanks ih =>
    obtain ⟨first, h⟩ := List.forall_mem_cons.mp h
    rw [List.cons_append, scan_blank first, ih h]

theorem scan_spaced {blanks : List Char} {tokens : List (Token × List Char)}
    (blank : ∀ c ∈ blanks, isBlank c = true)
    (each : ∀ p ∈ tokens, p.1.isPlain = true ∧ ∀ c ∈ p.2, isBlank c = true) :
    scan (spaced blanks tokens) = .ok (tokens.map Prod.fst) := by
  rw [spaced, scan_blanks blank]
  induction tokens with
  | nil => rfl
  | cons p tokens ih =>
    obtain ⟨⟨plain, after⟩, each⟩ := List.forall_mem_cons.mp each
    rw [List.flatMap_cons, List.append_assoc, scan_token plain, scan_blanks after, ih each]
    rfl

/-- **A line scans exactly if it is put together from pieces.** The pieces are then the only ones,
and the tokens are those among them, in order; a line without pieces has a colon that does not open
`::=`. So tokens are read back from any line that has blanks only around them. -/
theorem scan_reads_pieces (line : List Char) :
    (∀ tokens, scan line = .ok tokens ↔ ∃ pieces : List Piece,
      pieces.flatMap Piece.text = line ∧ pieces.filterMap Piece.token? = tokens) ∧
    (∀ pieces others : List Piece, pieces.flatMap Piece.text = line →
      others.flatMap Piece.text = line → pieces = others) ∧
    ((¬ ∃ pieces : List Piece, pieces.flatMap Piece.text = line) ↔
      scan line = .error .strayColon) ∧
    (∀ blanks tokens, line = spaced blanks tokens → (∀ c ∈ blanks, isBlank c = true) →
      (∀ p ∈ tokens, p.1.isPlain = true ∧ ∀ c ∈ p.2, isBlank c = true) →
        scan line = .ok (tokens.map Prod.fst)) := by
  refine ⟨fun tokens => ⟨?_, ?_⟩, ?_, ⟨?_, ?_⟩, ?_⟩
  · intro h
    obtain ⟨pieces, rfl⟩ := exists_pieces h
    exact ⟨pieces, rfl, Except.ok.inj ((scan_pieces pieces).symm.trans h)⟩
  · rintro ⟨pieces, rfl, rfl⟩
    exact scan_pieces pieces
  · intro pieces others first second
    exact Piece.flatMap_text_inj (first.trans second.symm)
  · intro undivided
    cases h : scan line with
    | error e => rw [scan_error h]
    | ok tokens => exact absurd (exists_pieces h) undivided
  · rintro h ⟨pieces, rfl⟩
    rw [scan_pieces] at h
    cases h
  · rintro blanks tokens rfl blank each
    exact scan_spaced blank each

/-- Tokens without blanks between some of them, and a colon too many. -/
theorem scan_reads_pieces_crowded :
    scan [' ', 'S', ':', ':', '=', '|', '\u3000', 'a'] =
        .ok [.symbol 'S', .defines, .bar, .symbol 'a'] ∧
      (∀ pieces : List Piece, pieces.flatMap Piece.text = [' ', '|'] →
        pieces = [.blank ' ' rfl, .token .bar rfl]) ∧
      (¬ ∃ pieces : List Piece, pieces.flatMap Piece.text = ['S', ':', ':', ':', '=']) := by
  refine ⟨?_, fun pieces same => ?_, ?_⟩
  · apply (scan_reads_pieces _).2.2.2 [' ']
      [(.symbol 'S', []), (.defines, []), (.bar, ['\u3000']), (.symbol 'a', [])] rfl
    · exact List.forall_mem_singleton.mpr rfl
    · simp only [List.forall_mem_cons, List.not_mem_nil, false_implies, implies_true, and_true]
      decide
  · exact (scan_reads_pieces [' ', '|']).2.1 pieces _ same rfl
  · exact (scan_reads_pieces ['S', ':', ':', ':', '=']).2.2.1.mpr rfl

end NormalForm.Token
