import NormalForm.Proofs.Lines.Cut
import NormalForm.Proofs.Token.Pieces
import NormalForm.Rule.Basic

namespace NormalForm

open Unicode

namespace Token

/-- Inside a `::=` that is a token: the scan comes to its first colon, and the place is behind the
first or the second one. -/
inductive Divides : List Char → List Char → Prop
  | first (pieces : List Piece) (rest : List Char) :
      Divides (pieces.flatMap Piece.text ++ [':']) (':' :: '=' :: rest)
  | second (pieces : List Piece) (rest : List Char) :
      Divides (pieces.flatMap Piece.text ++ [':', ':']) ('=' :: rest)

theorem Divides.after {before after : List Char} (p : Piece) (h : Divides before after) :
    Divides (p.text ++ before) after := by
  cases h with
  | first pieces rest =>
    rw [← List.append_assoc]
    exact .first (p :: pieces) rest
  | second pieces rest =>
    rw [← List.append_assoc]
    exact .second (p :: pieces) rest

theorem scan_colon {rest : List Char} (stray : ∀ more, rest ≠ ':' :: '=' :: more) :
    scan (':' :: rest) = .error .strayColon := by
  rw [scan]
  exact stray

/-- A colon is stray behind which no part of `::=` is completed. -/
theorem stray_append {before after : List Char} (stray : ∀ more, before ≠ ':' :: '=' :: more)
    (whole : before = [] → ∀ more, after ≠ ':' :: '=' :: more)
    (half : before = [':'] → ∀ more, after ≠ '=' :: more) :
    ∀ more, before ++ after ≠ ':' :: '=' :: more := by
  intro more same
  rcases before with _ | ⟨d, _ | ⟨e, before⟩⟩
  · exact whole rfl more same
  · simp only [List.cons_append, List.nil_append, List.cons.injEq] at same
    exact half (by rw [same.1]) more same.2
  · simp only [List.cons_append, List.cons.injEq] at same
    exact stray before (by rw [same.1, same.2.1])

theorem scan_piece (p : Piece) (rest : List Char) :
    scan (p.text ++ rest) = (scan rest).map (p.token?.toList ++ ·) := by
  rcases p with ⟨c, white⟩ | ⟨t, plain⟩
  · change scan (c :: rest) = _
    rw [scan_blank white]
    cases scan rest <;> rfl
  · exact scan_token plain rest

/-- A line starts with a piece or with a stray colon. -/
theorem piece_or_colon (c : Char) (line : List Char) :
    (∃ (p : Piece) (rest : List Char), c :: line = p.text ++ rest) ∨
      (c = ':' ∧ ∀ more, line ≠ ':' :: '=' :: more) := by
  by_cases colon : c = ':'
  · by_cases opens : ∃ more, line = ':' :: '=' :: more
    · obtain ⟨more, rfl⟩ := opens
      exact Or.inl ⟨.token .defines rfl, more, by rw [colon]; rfl⟩
    · exact Or.inr ⟨colon, fun more same => opens ⟨more, same⟩⟩
  · left
    by_cases isBar : c = '|'
    · exact ⟨.token .bar rfl, line, by rw [isBar]; rfl⟩
    · by_cases white : isBlank c = true
      · exact ⟨.blank c white, line, rfl⟩
      · have plain : (symbol c).isPlain = true :=
          isPlain_symbol.mpr ⟨colon, isBar, by simpa using white⟩
        exact ⟨.token (symbol c) plain, line, rfl⟩

theorem scan_insert {blank : Char} (white : isBlank blank = true) {before after : List Char}
    (outside : ¬ Divides before after) :
    scan (before ++ blank :: after) = scan (before ++ after) := by
  cases before with
  | nil => exact scan_blank white after
  | cons c before =>
    rcases piece_or_colon c before with ⟨p, rest, split⟩ | ⟨rfl, stray⟩
    · have shorter : rest.length < (c :: before).length := by
        rw [split, List.length_append]
        have nonempty : p.text ≠ [] := fun empty => by simpa [empty] using Piece.head_text p []
        have := List.length_pos_iff.mpr nonempty
        omega
      rw [split] at outside ⊢
      rw [List.append_assoc, List.append_assoc, scan_piece, scan_piece,
        scan_insert white fun divides => outside (divides.after p)]
    · have notColon : blank ≠ ':' := by rintro rfl; exact absurd white (by decide)
      have notEqual : blank ≠ '=' := by rintro rfl; exact absurd white (by decide)
      rw [List.cons_append, List.cons_append, scan_colon, scan_colon]
      · apply stray_append stray
        · rintro rfl more rfl
          exact outside (.first [] more)
        · rintro rfl more rfl
          exact outside (.second [] more)
      · apply stray_append stray
        · exact fun _ more same => notColon (List.cons.inj same).1
        · exact fun _ more same => notEqual (List.cons.inj same).1
termination_by before.length

end Token

namespace Rule

theorem isWritten_blank {c : Char} (white : isBlank c = true) (line : List Char) :
    isWritten (c :: line) = isWritten line := by
  rw [isWritten, List.dropWhile_cons_of_pos white]
  rfl

theorem isWritten_visible {c : Char} (visible : isBlank c = false) (line : List Char) :
    isWritten (c :: line) = (c != ';') := by
  rw [isWritten, List.dropWhile_cons_of_neg (by simp [visible])]

theorem not_written_of_blank {line : List Char} (blank : ∀ c ∈ line, isBlank c = true) :
    isWritten line = false := by
  induction line with
  | nil => rfl
  | cons c line ih =>
    obtain ⟨first, blank⟩ := List.forall_mem_cons.mp blank
    rw [isWritten_blank first, ih blank]

theorem isWritten_insert {blank : Char} (white : isBlank blank = true)
    (before after : List Char) :
    isWritten (before ++ blank :: after) = isWritten (before ++ after) := by
  induction before with
  | nil => exact isWritten_blank white after
  | cons c before ih =>
    rw [List.cons_append, List.cons_append]
    cases hc : isBlank c with
    | true => rw [isWritten_blank hc, isWritten_blank hc, ih]
    | false => rw [isWritten_visible hc, isWritten_visible hc]

/-- What stands behind a visible character does not matter. -/
theorem isWritten_append {before : List Char} (shown : ∃ c ∈ before, isBlank c = false)
    (after : List Char) : isWritten (before ++ after) = isWritten before := by
  induction before with
  | nil => simp at shown
  | cons c before ih =>
    rw [List.cons_append]
    cases hc : isBlank c with
    | true =>
      obtain ⟨d, hd, visible⟩ := shown
      have later : d ∈ before := by
        rcases List.mem_cons.mp hd with rfl | hd
        · rw [hc] at visible
          cases visible
        · exact hd
      rw [isWritten_blank hc, isWritten_blank hc, ih ⟨d, later, visible⟩]
    | false => rw [isWritten_visible hc, isWritten_visible hc]

/-- The first token of a line shows whether it holds a rule. -/
theorem isWritten_of_scan {line : List Char} {head : Char} {rest : List Token}
    (scanned : Token.scan line = .ok (.symbol head :: rest)) :
    isWritten line = (head != ';') := by
  induction line with
  | nil => cases scanned
  | cons c line ih =>
    cases hc : isBlank c with
    | true =>
      rw [Token.scan_blank hc] at scanned
      rw [isWritten_blank hc, ih scanned]
    | false =>
      rw [isWritten_visible hc]
      rcases Token.piece_or_colon c line with ⟨p, more, split⟩ | ⟨rfl, stray⟩
      · rw [split, Token.scan_piece] at scanned
        obtain ⟨tokens, _, same⟩ := map_eq_ok_iff.mp scanned
        have first : p.mark = c := by
          have marks := congrArg List.head? split
          rw [Token.Piece.head_text] at marks
          exact (Option.some.inj marks).symm
        rcases p with ⟨d, white⟩ | ⟨t, plain⟩
        · change d = c at first
          rw [first, hc] at white
          cases white
        · obtain ⟨rfl, _⟩ := List.cons.inj same
          change head = c at first
          rw [first]
      · rw [Token.scan_colon stray] at scanned
        cases scanned

/-- The lines hold the same tokens, or neither holds a rule. -/
structure Alike (line other : List Char) : Prop where
  written : isWritten other = isWritten line
  tokens : isWritten line = true → Token.scan other = Token.scan line

theorem Alike.refl (line : List Char) : Alike line line := ⟨rfl, fun _ => rfl⟩

theorem Alike.symm {line other : List Char} (h : Alike line other) : Alike other line :=
  ⟨h.written.symm, fun written => (h.tokens (h.written ▸ written)).symm⟩

theorem alike_idle {line other : List Char} (idle : isWritten line = false)
    (idle' : isWritten other = false) : Alike line other :=
  ⟨idle'.trans idle.symm, fun written => by simp [idle] at written⟩

theorem alike_insert {blank : Char} (white : isBlank blank = true) (before after : List Char)
    (outside : isWritten before = true → ¬ Token.Divides before after) :
    Alike (before ++ after) (before ++ blank :: after) where
  written := isWritten_insert white before after
  tokens written := by
    apply Token.scan_insert white
    intro divides
    have colon : ':' ∈ before := by cases divides <;> simp
    rw [isWritten_append ⟨':', colon, by decide⟩] at written
    exact outside written divides

/-- A blank at the end of a line divides nothing. -/
theorem alike_concat {blank : Char} (white : isBlank blank = true) (line : List Char) :
    Alike line (line ++ [blank]) := by
  have alike := alike_insert white line [] fun _ divides => by cases divides
  rwa [List.append_nil] at alike

theorem alike_strip (line : List Char) : Alike line (Lines.strip '\r' line) := by
  rcases Lines.eq_strip_or '\r' line with same | same
  · rw [same]
    exact .refl line
  · conv => lhs; rw [same]
    exact (alike_concat (by decide) _).symm

end Rule

end NormalForm
