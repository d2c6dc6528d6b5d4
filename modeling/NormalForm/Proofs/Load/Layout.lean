import Mathlib.Algebra.GroupWithZero.Nat
import NormalForm.Proofs.Load.Lines
import NormalForm.Proofs.Load.Renumbered
import NormalForm.Proofs.Rule.Loose

/-! # The layout of a text

Blanks between tokens, the way lines end, and lines without rules do not change what a text is
loaded to. Lines without rules only move the faults below them. -/

namespace NormalForm

open Unicode
open Lines (Closed)
open Rule (Alike)

namespace Load

theorem scanLines_append (number : Nat) (lines : List (List Char))
    (rest : List (Option (List Char))) :
    scanLines number (lines.map some ++ rest) =
      scanLines number (lines.map some) ++ scanLines (number + lines.length) rest := by
  induction lines generalizing number with
  | nil => rfl
  | cons line lines ih =>
    have next : number + 1 + lines.length = number + (lines.length + 1) := by omega
    by_cases written : Rule.isWritten line = true
    · simp [scanLines, written, ih, next]
    · simp [scanLines, written, ih, next]

/-- What a line holds, which is nothing unless it should hold a rule. -/
def lineOutcome (number : Nat) (line : List Char) : List (Except Fault Rule) :=
  if Rule.isWritten line then [scanLine number line] else []

theorem lineOutcome_alike {number : Nat} {line other : List Char} (alike : Alike line other) :
    lineOutcome number other = lineOutcome number line := by
  unfold lineOutcome
  rw [alike.written]
  split
  · rename_i written
    rw [scanLine, scanLine, Rule.ofText, Rule.ofText, alike.tokens written]
  · rfl

theorem lineOutcome_moved (move : Nat → Nat) (number : Nat) (line : List Char) :
    lineOutcome (move number) line = (lineOutcome number line).map (movedOutcome move) := by
  unfold lineOutcome
  split
  · rw [scanLine_moved]
    rfl
  · rfl

theorem scanLines_last (number : Nat) {line : List Char} (whole : '\n' ∉ line) :
    scanLines number (Lines.ofText line) = lineOutcome number line := by
  cases line with
  | nil => rfl
  | cons c line =>
    rw [Lines.ofText, Lines.split_last (List.cons_ne_nil c line) whole, lineOutcome]
    rfl

theorem scanLines_next (number : Nat) {line : List Char} (whole : '\n' ∉ line) (rest : List Char) :
    scanLines number (Lines.ofText (line ++ '\n' :: rest)) =
      lineOutcome number line ++ scanLines (number + 1) (Lines.ofText rest) := by
  rw [Lines.ofText, Lines.split_next whole, ← lineOutcome_alike (Rule.alike_strip line),
    List.map_cons, scanLines, lineOutcome, ← Lines.ofText]
  split <;> rfl

theorem scanLines_above (number : Nat) {above : List Char} (closed : Closed '\n' above)
    (rest : List Char) : scanLines number (Lines.ofText (above ++ rest)) =
      scanLines number (Lines.ofText above) ++
        scanLines (number + (Lines.ofText above).length) (Lines.ofText rest) := by
  rw [Lines.ofText, Lines.split_append closed, List.map_append, scanLines_append, Lines.ofText,
    List.length_map]
  rfl

/-- Texts that differ in one line do not differ in their outcomes if the line is alike. -/
theorem scanLines_line {above line other below : List Char} (closed : Closed '\n' above)
    (whole : '\n' ∉ line) (whole' : '\n' ∉ other)
    (ends : below = [] ∨ ∃ rest, below = '\n' :: rest) (alike : Alike line other) :
    scanLines 1 (Lines.ofText (above ++ (other ++ below))) =
      scanLines 1 (Lines.ofText (above ++ (line ++ below))) := by
  rw [scanLines_above 1 closed, scanLines_above 1 closed]
  congr 1
  rcases ends with rfl | ⟨rest, rfl⟩
  · rw [List.append_nil, List.append_nil, scanLines_last _ whole, scanLines_last _ whole',
      lineOutcome_alike alike]
  · rw [scanLines_next _ whole, scanLines_next _ whole', lineOutcome_alike alike]

/-! ## Blanks -/

/-- Inside a `::=` that is a token of a line with a rule. -/
def DividesToken (before after : List Char) : Prop :=
  ∃ above line, before = above ++ line ∧ Closed '\n' above ∧ '\n' ∉ line ∧
    Rule.isWritten line = true ∧ Token.Divides line after

/-- Only a place between two marks of `::=` divides a token. -/
theorem DividesToken.marks {before after : List Char} (h : DividesToken before after) :
    before.getLast? = some ':' ∧ (after.head? = some ':' ∨ after.head? = some '=') := by
  obtain ⟨above, line, rfl, _, _, _, inside⟩ := h
  cases inside <;> simp [List.getLast?_append]

theorem scanLines_blank {blank : Char} (white : isBlank blank = true) (other : blank ≠ '\n')
    {before after : List Char} (outside : ¬ DividesToken before after) :
    scanLines 1 (Lines.ofText (before ++ blank :: after)) =
      scanLines 1 (Lines.ofText (before ++ after)) := by
  obtain ⟨above, front, rfl, closed, whole⟩ := Lines.exists_closed '\n' before
  obtain ⟨back, below, rfl, whole', ends⟩ := Lines.exists_after '\n' after
  have alike : Alike (front ++ back) (front ++ blank :: back) := by
    apply Rule.alike_insert white
    intro written divides
    refine outside ⟨above, front, rfl, closed, whole, written, ?_⟩
    cases divides with
    | first pieces rest => exact .first pieces (rest ++ below)
    | second pieces rest => exact .second pieces (rest ++ below)
  have same := scanLines_line closed (by simp [whole, whole'])
    (by simp [whole, whole', Ne.symm other]) ends alike
  simpa only [List.append_assoc, List.cons_append] using same

/-- What a text may become, from a place on, if blanks that are no newlines are put into it, but
none inside a `::=` that is a token. -/
inductive Loosens : List Char → List Char → List Char → Prop
  | done {before : List Char} : Loosens before [] []
  | keep {before text other : List Char} {c : Char} : Loosens (before ++ [c]) text other →
      Loosens before (c :: text) (c :: other)
  | blank {before text other : List Char} {c : Char} : isBlank c = true → c ≠ '\n' →
      ¬ DividesToken before text → Loosens before text other → Loosens before text (c :: other)

theorem Loosens.visible {before text other : List Char} (h : Loosens before text other)
    {mark : Char} (visible : isBlank mark = false) {rest : List Char}
    (starts : other = mark :: rest) : ∃ more, text = mark :: more ∧
      Loosens (before ++ [mark]) more rest := by
  cases h with
  | done => cases starts
  | keep kept =>
    cases starts
    exact ⟨_, rfl, kept⟩
  | blank white =>
    cases starts
    rw [visible] at white
    cases white

/-- A place that does not divide a token before blanks are put in does not do so afterwards. -/
theorem Loosens.divides {before text other : List Char} (h : Loosens before text other)
    (divides : DividesToken before other) : DividesToken before text := by
  obtain ⟨above, line, split, closed, whole, written, inside⟩ := divides
  refine ⟨above, line, split, closed, whole, written, ?_⟩
  cases inside with
  | first pieces rest =>
    obtain ⟨middle, rfl, next⟩ := h.visible (by decide) rfl
    obtain ⟨more, rfl, _⟩ := next.visible (by decide) rfl
    exact .first pieces more
  | second pieces rest =>
    obtain ⟨more, rfl, _⟩ := h.visible (by decide) rfl
    exact .second pieces more

theorem Loosens.scanLines_eq {before text other : List Char} (h : Loosens before text other) :
    scanLines 1 (Lines.ofText (before ++ other)) = scanLines 1 (Lines.ofText (before ++ text)) := by
  induction h with
  | done => rfl
  | keep _ ih => simpa only [List.append_assoc, List.singleton_append] using ih
  | blank white other outside loosens ih =>
    rw [scanLines_blank white other (mt loosens.divides outside), ih]

/-! ## The ends of lines -/

/-- The text with a carriage return before each newline. -/
def withCarriages (text : List Char) : List Char :=
  text.flatMap fun c => if c = '\n' then ['\r', '\n'] else [c]

theorem withCarriages_whole {line : List Char} (whole : '\n' ∉ line) :
    withCarriages line = line := by
  induction line with
  | nil => rfl
  | cons c line ih =>
    have other : c ≠ '\n' := (List.ne_of_not_mem_cons whole).symm
    have rest := ih (List.not_mem_of_not_mem_cons whole)
    rw [withCarriages] at rest ⊢
    rw [List.flatMap_cons, if_neg other, rest]
    rfl

theorem withCarriages_next {line : List Char} (whole : '\n' ∉ line) (rest : List Char) :
    withCarriages (line ++ '\n' :: rest) = line ++ ['\r'] ++ '\n' :: withCarriages rest := by
  have first := withCarriages_whole whole
  rw [withCarriages] at first ⊢
  rw [List.flatMap_append, first]
  simp [withCarriages]

theorem scanLines_withCarriages (number : Nat) (text : List Char) :
    scanLines number (Lines.ofText (withCarriages text)) =
      scanLines number (Lines.ofText text) := by
  induction text using Lines.line_induction '\n' generalizing number with
  | last line whole => rw [withCarriages_whole whole]
  | next line rest whole ih =>
    rw [withCarriages_next whole, scanLines_next _ (by simp [whole]), scanLines_next _ whole, ih,
      lineOutcome_alike (Rule.alike_concat (by decide) line)]

theorem scanLines_newline (number : Nat) (text : List Char) :
    scanLines number (Lines.ofText (text ++ ['\n'])) = scanLines number (Lines.ofText text) := by
  induction text using Lines.line_induction '\n' generalizing number with
  | last line whole =>
    rw [scanLines_next _ whole, scanLines_last _ whole]
    exact List.append_nil _
  | next line rest whole ih =>
    rw [List.append_assoc, List.cons_append, scanLines_next _ whole, scanLines_next _ whole, ih]

/-! ## Lines without rules -/

/-- A blank line or a comment. -/
structure Idle (line : List Char) : Prop where
  whole : '\n' ∉ line
  idle : Rule.isWritten line = false

/-- Lines as they are written one after the other. -/
def written (lines : List (List Char)) : List Char := lines.flatMap (· ++ ['\n'])

theorem scanLines_idle (number : Nat) {lines : List (List Char)} (idle : ∀ line ∈ lines, Idle line)
    (rest : List Char) : scanLines number (Lines.ofText (written lines ++ rest)) =
      scanLines (number + lines.length) (Lines.ofText rest) := by
  induction lines generalizing number with
  | nil => rfl
  | cons line lines ih =>
    obtain ⟨first, idle⟩ := List.forall_mem_cons.mp idle
    have next : number + (line :: lines).length = number + 1 + lines.length := by
      rw [List.length_cons]
      omega
    have split : written (line :: lines) ++ rest = line ++ '\n' :: (written lines ++ rest) := by
      simp [written]
    rw [split, scanLines_next _ first.whole, ih _ idle, next, lineOutcome, if_neg]
    · rfl
    · simp [first.idle]

/-- The text with lines put in behind the newline of each line from the given number on. -/
def padFrom (gaps : Nat → List (List Char)) (number : Nat) : List Char → List Char
  | [] => []
  | c :: rest =>
    if c = '\n' then '\n' :: (written (gaps number) ++ padFrom gaps (number + 1) rest)
    else c :: padFrom gaps number rest

/-- The text with the lines `gaps 0` above its first line and `gaps n` below its `n`-th. -/
def padded (gaps : Nat → List (List Char)) (text : List Char) : List Char :=
  written (gaps 0) ++ padFrom gaps 1 text

/-- Where a line comes to stand, below all that is put in above it. -/
def lowered (gaps : Nat → List (List Char)) (number : Nat) : Nat :=
  number + ((List.range number).map fun i => (gaps i).length).sum

theorem lowered_succ (gaps : Nat → List (List Char)) (number : Nat) :
    lowered gaps (number + 1) = lowered gaps number + 1 + (gaps number).length := by
  simp only [lowered, List.range_succ, List.map_append, List.sum_append, List.map_cons,
    List.map_nil, List.sum_cons, List.sum_nil]
  omega

variable {gaps : Nat → List (List Char)}

theorem padFrom_whole (number : Nat) {line : List Char} (whole : '\n' ∉ line) :
    padFrom gaps number line = line := by
  induction line with
  | nil => rfl
  | cons c line ih =>
    have other : c ≠ '\n' := (List.ne_of_not_mem_cons whole).symm
    rw [padFrom, if_neg other, ih (List.not_mem_of_not_mem_cons whole)]

theorem padFrom_next (number : Nat) {line : List Char} (whole : '\n' ∉ line) (rest : List Char) :
    padFrom gaps number (line ++ '\n' :: rest) =
      line ++ '\n' :: (written (gaps number) ++ padFrom gaps (number + 1) rest) := by
  induction line with
  | nil => rfl
  | cons c line ih =>
    have other : c ≠ '\n' := (List.ne_of_not_mem_cons whole).symm
    rw [List.cons_append, padFrom, if_neg other, ih (List.not_mem_of_not_mem_cons whole)]
    rfl

theorem scanLines_padFrom (idle : ∀ n, ∀ line ∈ gaps n, Idle line) (number : Nat)
    (text : List Char) :
    scanLines (lowered gaps number) (Lines.ofText (padFrom gaps number text)) =
      (scanLines number (Lines.ofText text)).map (movedOutcome (lowered gaps)) := by
  induction text using Lines.line_induction '\n' generalizing number with
  | last line whole =>
    rw [padFrom_whole _ whole, scanLines_last _ whole, scanLines_last _ whole, lineOutcome_moved]
  | next line rest whole ih =>
    rw [padFrom_next _ whole, scanLines_next _ whole, scanLines_idle _ (idle number),
      ← lowered_succ, ih, scanLines_next _ whole, List.map_append, lineOutcome_moved]

theorem scanLines_padded (idle : ∀ n, ∀ line ∈ gaps n, Idle line) (text : List Char) :
    scanLines 1 (Lines.ofText (padded gaps text)) =
      (scanLines 1 (Lines.ofText text)).map (movedOutcome (lowered gaps)) := by
  rw [padded, scanLines_idle 1 (idle 0), ← scanLines_padFrom idle 1]
  simp [lowered]

theorem ofText_of_scanLines {mode : LoadMode} {text other : List Char}
    (same : scanLines 1 (Lines.ofText other) = scanLines 1 (Lines.ofText text)) (file : Path) :
    ofText file mode other = ofText file mode text := by
  rw [ofText, ofLines, readRules, same, ofText, ofLines, readRules]

/-- **Layout does not matter.** A text is loaded to the same grammar, or with the same faults at the
same lines, if blanks are put in outside of `::=`, if all lines end in a carriage return too, if a
last newline is added, or if a line without a rule is replaced by another. If lines without rules
are put in, it is loaded to the same, but for the faults at lines, which move down with them. -/
theorem ofText_layout (file : Path) (mode : LoadMode) :
    (∀ text other, Loosens [] text other → ofText file mode other = ofText file mode text) ∧
    (∀ text, ofText file mode (withCarriages text) = ofText file mode text) ∧
    (∀ text, ofText file mode (text ++ ['\n']) = ofText file mode text) ∧
    (∀ above line other below, Closed '\n' above → Idle line → Idle other →
      (below = [] ∨ ∃ rest, below = '\n' :: rest) →
      ofText file mode (above ++ other ++ below) = ofText file mode (above ++ line ++ below)) ∧
    (∀ gaps text, (∀ n, ∀ line ∈ gaps n, Idle line) → ofText file mode (padded gaps text) =
      (ofText file mode text).mapError (List.map (FileFault.moved (lowered gaps)))) := by
  refine ⟨fun text other loosens => ?_, fun text => ?_, fun text => ?_, ?_,
    fun gaps text idle => ?_⟩
  · exact ofText_of_scanLines loosens.scanLines_eq file
  · exact ofText_of_scanLines (scanLines_withCarriages 1 text) file
  · exact ofText_of_scanLines (scanLines_newline 1 text) file
  · intro above line other below closed idle idle' ends
    rw [List.append_assoc, List.append_assoc]
    apply ofText_of_scanLines
    exact scanLines_line closed idle.whole idle'.whole ends (Rule.alike_idle idle.idle idle'.idle)
  · rw [ofText, ofLines_moved _ (scanLines_padded idle text), inFile_moved, ofText]

/-- Blanks around the tokens of a rule; a comment in place of a blank line; and a colon that is
reported at its line below the lines that are put in. -/
theorem ofText_layout_loosened :
    ofText ⟨"g"⟩ {} " S ::=\ta".toList = ofText ⟨"g"⟩ {} "S::=a".toList ∧
    ofText ⟨"g"⟩ {} "S::=a\n; a\nS::=b".toList = ofText ⟨"g"⟩ {} "S::=a\n \nS::=b".toList ∧
    ofText ⟨"g"⟩ {} "\n; a\nS : a".toList =
      .error [⟨⟨some 3, .malformed .strayColon⟩, ⟨"g"⟩⟩] := by
  obtain ⟨blanks, _, _, replaced, inserted⟩ := ofText_layout ⟨"g"⟩ {}
  refine ⟨blanks _ _ ?_, ?_, ?_⟩
  · change Loosens [] ['S', ':', ':', '=', 'a'] [' ', 'S', ' ', ':', ':', '=', '\t', 'a']
    refine .blank (by decide) (by decide) (mt DividesToken.marks (by decide)) (.keep ?_)
    refine .blank (by decide) (by decide) (mt DividesToken.marks (by decide)) ?_
    refine .keep (.keep (.keep ?_))
    exact .blank (by decide) (by decide) (mt DividesToken.marks (by decide)) (.keep .done)
  · exact replaced "S::=a\n".toList [' '] "; a".toList "\nS::=b".toList (Or.inr rfl)
      ⟨by decide, by decide⟩ ⟨by decide, by decide⟩ (Or.inr ⟨_, rfl⟩)
  · have idle (n : Nat) : ∀ line ∈ if n = 0 then [[], "; a".toList] else [], Idle line := by
      by_cases first : n = 0
      · rw [if_pos first, List.forall_mem_cons, List.forall_mem_singleton]
        exact ⟨⟨by decide, by decide⟩, ⟨by decide, by decide⟩⟩
      · rw [if_neg first]
        exact List.forall_mem_nil _
    exact (inserted _ "S : a".toList idle).trans (by decide)

end Load

end NormalForm
