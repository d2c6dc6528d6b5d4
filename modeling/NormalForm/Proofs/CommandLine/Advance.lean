import Mathlib.Data.List.TakeWhile
import NormalForm.CommandLine.Arguments
import NormalForm.Proofs.CommandLine.Numeral
import NormalForm.Proofs.Outcome

namespace NormalForm.Arguments

variable {r r' s : Reading} {argument text name value : List Char} {n : Nat}

theorem once_eq_ok_iff {α : Type} {stored value : Option α} {a : α} :
    once stored value = .ok a ↔ stored = none ∧ value = some a := by
  cases stored <;> cases value <;> simp [once]

theorem amount?_of_spells (spells : Numeral.Spells text n) (within : n ≤ largestAmount) :
    amount? text = some n := by
  have within : (n : Int) ≤ (largestAmount : Int) := Int.ofNat_le.mpr within
  simp [amount?, spells.integer?, within]

theorem depth?_of_spells (spells : Numeral.Spells text n) (within : n ≤ largestDepth) :
    depth? text = some n := by
  simp [depth?, spells.natural?, within]

theorem depth?_of_large (spells : Numeral.Spells text n) (large : largestDepth < n) :
    depth? text = none := by
  simp [depth?, spells.natural?, large]

namespace Reading

theorem raise_eq_ok_iff {flag : Flag} : r.raise flag = .ok r' ↔
    ∃ s d, r.settle = .ok s ∧ s.draft.raise flag = .ok d ∧ { s with draft := d } = r' := by
  change (r.settle.bind fun s =>
    (s.draft.raise flag).bind fun d => .ok { s with draft := d }) = _ ↔ _
  simp only [bind_eq_ok_iff, Except.ok.injEq, exists_and_left]

theorem attach_eq_ok_iff {option : Valued} : r.attach option value = .ok r' ↔
    ∃ s d, r.settle = .ok s ∧ s.draft.assign option value = .ok d ∧ { s with draft := d } = r' := by
  change (r.settle.bind fun s =>
    (s.draft.assign option value).bind fun d => .ok { s with draft := d }) = _ ↔ _
  simp only [bind_eq_ok_iff, Except.ok.injEq, exists_and_left]

theorem await_eq_ok_iff {option : Valued} : r.await option = .ok r' ↔
    ∃ s, r.settle = .ok s ∧ { s with pending := .waiting option } = r' := by
  change (r.settle.bind fun s => .ok { s with pending := .waiting option }) = _ ↔ _
  simp only [bind_eq_ok_iff, Except.ok.injEq]

theorem finish_eq_ok_iff {settings : Settings} : r.finish = .ok settings ↔
    ∃ s file, r.settle = .ok s ∧ s.draft.file = some file ∧
      settings = ⟨⟨file⟩, s.draft.words, s.draft.start, s.draft.showsTable, s.draft.amount,
        s.draft.depth.getD usualDepth, !s.draft.allowsStart, s.draft.verbosity⟩ := by
  change r.settle.bind _ = _ ↔ _
  rw [bind_eq_ok_iff]
  apply exists_congr
  rintro ⟨d, pending, hasFile, isLiteral⟩
  dsimp only
  cases d.file with
  | none => simp
  | some file => simp [pure, Except.pure, eq_comm]

/-- Settling leaves nothing held back, and stores nothing but what was. -/
theorem settle_frame (h : r.settle = .ok s) :
    s.pending = .nothing ∧ s.hasFile = r.hasFile ∧ s.isLiteral = r.isLiteral := by
  unfold settle at h
  split at h
  · cases h
    exact ⟨by assumption, rfl, rfl⟩
  · cases h
  · obtain ⟨d, _, rfl⟩ := map_eq_ok_iff.mp h
    exact ⟨rfl, rfl, rfl⟩
  · split at h
    · cases h
    · cases h
      exact ⟨rfl, rfl, rfl⟩
  · cases h
    exact ⟨rfl, rfl, rfl⟩

theorem next_undashed (literal : r.isLiteral = false) (plain : argument.head? ≠ some '-') :
    r.next argument = match r.pending with
      | .waiting option => .ok { r with pending := .valued option argument }
      | _ => r.place argument := by
  simp only [next, literal, Bool.false_eq_true, ↓reduceIte]
  split
  · simp at plain
  · simp at plain
  · simp at plain
  · rfl

/-- The first argument of no option is held back as the file. -/
theorem place_file (first : r.hasFile = false) (settled : r.settle = .ok s) :
    r.place argument = .ok { s with pending := .file argument, hasFile := true } := by
  simp [place, first, settled, bind, Except.bind, pure, Except.pure]

/-- Any other is held back as a word, alone or behind the words before it. -/
theorem place_word (later : r.hasFile = true) (settled : r.settle = .ok s) :
    ∃ r' words, r.place argument = .ok r' ∧ r'.pending = .words words ∧ r'.hasFile = true ∧
      r'.isLiteral = r.isLiteral ∧
      r'.settle = .ok
        { s with draft := { s.draft with words := s.draft.words ++ [argument] } } := by
  obtain ⟨nothing, hasFile, literal⟩ := settle_frame settled
  simp only [place, later, Bool.not_true, Bool.false_eq_true, ↓reduceIte]
  split
  · rename_i words held
    simp only [settle, held, Except.ok.injEq] at settled
    refine ⟨_, words ++ [argument], rfl, rfl, rfl, rfl, ?_⟩
    simp only [settle, ← settled, later, List.append_assoc]
  · refine ⟨{ s with pending := .words [argument] }, [argument], ?_, rfl, hasFile.trans later,
      literal, ?_⟩
    · simp [settled, bind, Except.bind, pure, Except.pure]
    · simp only [settle, nothing]

theorem next_long (literal : r.isLiteral = false) (named : text ≠ []) :
    r.next ('-' :: '-' :: text) = r.long text := by
  simp [next, literal]

theorem next_short {letter : Char} {rest : List Char} (literal : r.isLiteral = false)
    (single : letter ≠ '-') : r.next ('-' :: letter :: rest) = r.short (letter :: rest) := by
  simp [next, literal, single]

theorem forall_bne (unequal : '=' ∉ name) : ∀ c ∈ name, (c != '=') = true := by
  intro c hc
  rw [bne_iff_ne]
  rintro rfl
  exact unequal hc

theorem long_attached {option : Valued} (known : Switch.ofName? name = some (.valued option))
    (unequal : '=' ∉ name) : r.long (name ++ '=' :: value) = r.attach option value := by
  have taken : (name ++ '=' :: value).takeWhile (· != '=') = name := by
    simp [List.takeWhile_append_of_pos (forall_bne unequal)]
  have dropped : (name ++ '=' :: value).dropWhile (· != '=') = '=' :: value := by
    simp [List.dropWhile_append_of_pos (forall_bne unequal)]
  simp only [long, taken, dropped, known]

theorem takeWhile_name (unequal : '=' ∉ name) : name.takeWhile (· != '=') = name :=
  List.takeWhile_eq_self_iff.mpr (forall_bne unequal)

theorem dropWhile_name (unequal : '=' ∉ name) : name.dropWhile (· != '=') = [] :=
  List.dropWhile_eq_nil_iff.mpr (forall_bne unequal)

theorem long_flag {flag : Flag} (known : Switch.ofName? name = some (.flag flag))
    (unequal : '=' ∉ name) : r.long name = r.raise flag := by
  simp only [long, takeWhile_name unequal, dropWhile_name unequal, known]

theorem long_awaited {option : Valued} (known : Switch.ofName? name = some (.valued option))
    (unequal : '=' ∉ name) : r.long name = r.await option := by
  simp only [long, takeWhile_name unequal, dropWhile_name unequal, known]

end Reading

/-- What the options of one argument do, each after settling what was held back before it. -/
inductive Opts : Reading → Reading → Prop
  | raise {r s : Reading} {flag : Flag} {d : Draft} : r.settle = .ok s →
      s.draft.raise flag = .ok d → Opts r { s with draft := d }
  | attach {r s : Reading} {option : Valued} {value : List Char} {d : Draft} : r.settle = .ok s →
      s.draft.assign option value = .ok d → Opts r { s with draft := d }
  | await {r s : Reading} {option : Valued} : r.settle = .ok s →
      Opts r { s with pending := .waiting option }
  | andThen {r s t : Reading} : Opts r s → Opts s t → Opts r t

/-- What an argument does that is accepted. -/
inductive Advance (r : Reading) (argument : List Char) : Reading → Prop
  | dashes : argument = ['-', '-'] → Advance r argument { r with isLiteral := true }
  | options {r' : Reading} : Opts r r' → Advance r argument r'
  | value {option : Valued} : r.pending = .waiting option →
      Advance r argument { r with pending := .valued option argument }
  | file {s : Reading} : r.settle = .ok s →
      Advance r argument { s with pending := .file argument, hasFile := true }
  | firstWord {s : Reading} : r.settle = .ok s →
      Advance r argument { s with pending := .words [argument] }
  | nextWord {words : List (List Char)} : r.pending = .words words →
      Advance r argument { r with pending := .words (words ++ [argument]) }

namespace Reading

theorem raise_opts {flag : Flag} (h : r.raise flag = .ok r') : Opts r r' := by
  obtain ⟨s, d, settled, raised, rfl⟩ := raise_eq_ok_iff.mp h
  exact .raise settled raised

theorem attach_opts {option : Valued} (h : r.attach option value = .ok r') : Opts r r' := by
  obtain ⟨s, d, settled, assigned, rfl⟩ := attach_eq_ok_iff.mp h
  exact .attach settled assigned

theorem await_opts {option : Valued} (h : r.await option = .ok r') : Opts r r' := by
  obtain ⟨s, settled, rfl⟩ := await_eq_ok_iff.mp h
  exact .await settled

theorem long_opts (h : r.long text = .ok r') : Opts r r' := by
  unfold long at h
  extract_lets name value? at h
  split at h
  · cases h
  · cases h
  · exact raise_opts h
  · exact attach_opts h
  · exact await_opts h

theorem short_opts {letter : Char} {rest : List Char} (h : r.short (letter :: rest) = .ok r') :
    Opts r r' := by
  induction rest generalizing r letter with
  | nil =>
    rw [short] at h
    split at h
    · cases h
    · obtain ⟨s, raised, last⟩ := bind_eq_ok_iff.mp h
      cases last
      exact raise_opts raised
    · exact await_opts h
  | cons next rest ih =>
    rw [short] at h
    split at h
    · cases h
    · obtain ⟨s, raised, read⟩ := bind_eq_ok_iff.mp h
      exact .andThen (raise_opts raised) (ih read)
    · split at h
      · exact await_opts h
      · exact attach_opts h
      · exact attach_opts h

theorem place_advance (h : r.place argument = .ok r') : Advance r argument r' := by
  unfold place at h
  split at h
  · obtain ⟨s, settled, held⟩ := bind_eq_ok_iff.mp h
    cases held
    exact .file settled
  · split at h
    · cases h
      exact .nextWord (by assumption)
    · obtain ⟨s, settled, held⟩ := bind_eq_ok_iff.mp h
      cases held
      exact .firstWord settled

theorem next_advance (h : r.next argument = .ok r') : Advance r argument r' := by
  unfold next at h
  split at h
  · exact place_advance h
  · split at h
    · cases h
      exact .dashes rfl
    · exact .options (long_opts h)
    · exact .options (short_opts h)
    · split at h
      · cases h
        exact .value (by assumption)
      · exact place_advance h

end Reading

theorem Opts.settles (h : Opts r r') : ∃ s, r.settle = .ok s := by
  induction h with
  | raise settled _ => exact ⟨_, settled⟩
  | attach settled _ => exact ⟨_, settled⟩
  | await settled => exact ⟨_, settled⟩
  | andThen _ _ ih _ => exact ih

theorem Opts.isLiteral_eq (h : Opts r r') : r'.isLiteral = r.isLiteral := by
  induction h with
  | raise settled _ => exact (Reading.settle_frame settled).2.2
  | attach settled _ => exact (Reading.settle_frame settled).2.2
  | await settled => exact (Reading.settle_frame settled).2.2
  | andThen _ _ ih ih' => exact ih'.trans ih

theorem Advance.isLiteral_eq (h : Advance r argument r') (undashed : argument ≠ ['-', '-']) :
    r'.isLiteral = r.isLiteral := by
  cases h with
  | dashes dashed => exact absurd dashed undashed
  | options h => exact h.isLiteral_eq
  | value _ => rfl
  | file settled => exact (Reading.settle_frame settled).2.2
  | firstWord settled => exact (Reading.settle_frame settled).2.2
  | nextWord _ => rfl

/-- The settings that more arguments lead to. -/
def Reading.complete (r : Reading) (arguments : List String) : Except Stop Settings :=
  ((arguments.map String.toList).foldlM Reading.next r).bind Reading.finish

theorem Reading.complete_cons (r : Reading) (argument : String) (arguments : List String) :
    r.complete (argument :: arguments) =
      (r.next argument.toList).bind fun r' => r'.complete arguments := by
  simp only [complete, List.map_cons, List.foldlM_cons]
  cases r.next argument.toList <;> rfl

/-- What every accepted argument keeps is there when the settings are taken. -/
theorem Reading.complete_keeps {Keeps : Reading → Prop}
    (step : ∀ {r r' argument}, Keeps r → Advance r argument r' → Keeps r') {r : Reading}
    (start : Keeps r) {arguments : List String} {settings : Settings}
    (h : r.complete arguments = .ok settings) : ∃ r', Keeps r' ∧ r'.finish = .ok settings := by
  induction arguments generalizing r with
  | nil => exact ⟨r, start, h⟩
  | cons argument arguments ih =>
    rw [complete_cons] at h
    obtain ⟨r', next, rest⟩ := bind_eq_ok_iff.mp h
    exact ih (step start (next_advance next)) rest

end NormalForm.Arguments
