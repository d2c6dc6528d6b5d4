import NormalForm.Proofs.Lines.Encoded
import NormalForm.Proofs.Load.Faults

namespace NormalForm.Load

open Lines (Cuts utf8)

variable {file : Path} {mode : LoadMode} {bytes : List UInt8}

/-- The fault of a file that is not text. -/
def notText : Fault := ⟨none, .unreadable .notText⟩

theorem scanLines_stop (number : Nat) (texts : List (List Char))
    (rest : List (Option (List Char))) :
    scanLines number (texts.map some ++ none :: rest) =
      scanLines number (texts.map some) ++ [.error notText] := by
  induction texts generalizing number with
  | nil => rfl
  | cons text texts ih =>
    by_cases written : Rule.isWritten text = true
    · simp [scanLines, written, ih]
    · simp [scanLines, written, ih]

theorem readRules_stop (texts : List (List Char)) (rest : List (Option (List Char))) :
    readRules (texts.map some ++ none :: rest) =
      .error (lineFaults texts ++ [notText]) := by
  rw [readRules, gather_eq_error_iff, scanLines_stop, ← errorsOf_scanLines]
  exact ⟨by simp, errorsOf_append ..⟩

theorem ofBytes_eq {texts : List (List Char)} {bad : List UInt8} {rest : List (List UInt8)}
    (cut : Cuts 0x0A 0x0D bytes (texts.map utf8 ++ bad :: rest))
    (broken : ¬ bad.toByteArray.IsValidUTF8) :
    Lines.ofBytes bytes = texts.map some ++ none :: rest.map Lines.decode := by
  rw [Lines.ofBytes, cut.split_eq, List.map_append, List.map_map, List.map_cons,
    Lines.decode_of_not_valid broken]
  congr 1
  exact List.map_congr_left fun text _ => Lines.decode_utf8 text

theorem ofContents_stop {texts : List (List Char)} {bad : List UInt8} {rest : List (List UInt8)}
    (cut : Cuts 0x0A 0x0D bytes (texts.map utf8 ++ bad :: rest))
    (broken : ¬ bad.toByteArray.IsValidUTF8) : ofContents file mode (.ok bytes) =
      .error ((lineFaults texts ++ [notText]).map (⟨·, file⟩)) := by
  rw [ofContents, ofLines, ofBytes_eq cut broken, readRules_stop]
  rfl

theorem exists_texts {lines : List (List UInt8)}
    (each : ∀ line ∈ lines, line.toByteArray.IsValidUTF8) :
    ∃ texts : List (List Char), texts.map utf8 = lines := by
  induction lines with
  | nil => exact ⟨[], rfl⟩
  | cons line lines ih =>
    obtain ⟨first, others⟩ := List.forall_mem_cons.mp each
    obtain ⟨text, rfl⟩ := Lines.valid_iff.mp first
    obtain ⟨texts, rfl⟩ := ih others
    exact ⟨text :: texts, rfl⟩

theorem exists_broken {lines : List (List UInt8)}
    (invalid : ¬ ∀ line ∈ lines, line.toByteArray.IsValidUTF8) :
    ∃ (texts : List (List Char)) (bad : List UInt8) (rest : List (List UInt8)),
      lines = texts.map utf8 ++ bad :: rest ∧ ¬ bad.toByteArray.IsValidUTF8 := by
  induction lines with
  | nil => exact absurd (by simp) invalid
  | cons line lines ih =>
    by_cases first : line.toByteArray.IsValidUTF8
    · obtain ⟨texts, bad, rest, rfl, broken⟩ :=
        ih fun each => invalid (List.forall_mem_cons.mpr ⟨first, each⟩)
      obtain ⟨text, rfl⟩ := Lines.valid_iff.mp first
      exact ⟨text :: texts, bad, rest, rfl, broken⟩
    · exact ⟨[], line, lines, rfl, first⟩

theorem ofContents_utf8 (text : List Char) :
    ofContents file mode (.ok (utf8 text)) = ofText file mode text := by
  rw [ofContents, Lines.ofBytes_utf8, ofText]

/-- Nothing that is wrong with a text keeps it from being read. -/
theorem Reports.readable {text : List Char} {found : List Fault} (h : Reports mode text found) :
    ∀ fault ∈ found, ∀ e, fault.cause ≠ .unreadable e := by
  intro fault hf e
  cases h with
  | malformed =>
    obtain ⟨line, _, hl⟩ := List.mem_filterMap.mp hf
    split at hl <;> cases hl
    exact nofun
  | undefinedSymbols spells =>
    obtain ⟨alternative, _, ha⟩ := List.mem_flatMap.mp hf
    split at ha
    · obtain ⟨c, _, rfl⟩ := List.mem_map.mp ha
      exact nofun
    · cases ha
  | wrongCase spells =>
    obtain ⟨A, _, rfl⟩ := List.mem_map.mp hf
    exact nofun
  | unknownStart spells =>
    obtain ⟨S, _, rfl⟩ := List.mem_map.mp hf
    exact nofun
  | productions spells =>
    obtain ⟨p, _, hp⟩ := List.mem_filterMap.mp hf
    obtain ⟨offence, _, rfl⟩ := Option.map_eq_some_iff.mp hp
    exact nofun

theorem readable_of_ofText {text : List Char} {faults : List FileFault}
    (h : ofText file mode text = .error faults) :
    ∀ fault ∈ faults, ∀ e, fault.cause ≠ .unreadable e := by
  obtain ⟨found, failed, rfl⟩ := inFile_eq_error_iff.mp h
  intro fault hf
  obtain ⟨inner, hi, rfl⟩ := List.mem_map.mp hf
  exact (reports_of_ofLines failed).2.readable inner hi

/-- **What is read of a file.** If all its lines are text, the file is loaded as its text is.
Otherwise the malformed lines above the first that is not text are reported, each at its number
among all lines, and then that the file is not text, and nothing else. So this is reported exactly
if the file as a whole is not text. -/
theorem ofContents_reads_lines (file : Path) (mode : LoadMode) (bytes : List UInt8)
    (lines : List (List UInt8)) (cut : Cuts 0x0A 0x0D bytes lines) :
    ((∀ line ∈ lines, line.toByteArray.IsValidUTF8) → ∃ text, utf8 text = bytes ∧
      ofContents file mode (.ok bytes) = ofText file mode text) ∧
    (∀ before bad rest, lines = before ++ bad :: rest →
      (∀ line ∈ before, line.toByteArray.IsValidUTF8) → ¬ bad.toByteArray.IsValidUTF8 →
      ∃ texts : List (List Char), texts.map utf8 = before ∧ ofContents file mode (.ok bytes) =
        .error ((lineFaults texts ++ [notText]).map (⟨·, file⟩))) ∧
    ((∃ faults, ofContents file mode (.ok bytes) = .error faults ∧
      ∃ fault ∈ faults, fault.cause = .unreadable .notText) ↔
        ¬ bytes.toByteArray.IsValidUTF8) := by
  refine ⟨fun each => ?_, fun before bad rest split each broken => ?_, ?_, fun broken => ?_⟩
  · obtain ⟨text, rfl⟩ := Lines.valid_iff.mp (cut.valid each)
    exact ⟨text, rfl, ofContents_utf8 text⟩
  · obtain ⟨texts, rfl⟩ := exists_texts each
    exact ⟨texts, rfl, ofContents_stop (split ▸ cut) broken⟩
  · rintro ⟨faults, failed, fault, hf, unreadable⟩ valid
    obtain ⟨text, rfl⟩ := Lines.valid_iff.mp valid
    rw [ofContents_utf8] at failed
    exact readable_of_ofText failed fault hf _ unreadable
  · obtain ⟨texts, bad, rest, rfl, bad_broken⟩ := exists_broken (mt cut.valid broken)
    exact ⟨_, ofContents_stop cut bad_broken, ⟨notText, file⟩, by simp, rfl⟩

/-- The third line is malformed and the fourth is no text; the fifth is not looked at. -/
theorem ofContents_reads_lines_broken :
    ofContents ⟨"g"⟩ {} (.ok (utf8 "\n; a\n S : a\n".toList ++ [0xC3, 0x0A, 0x3A])) =
      .error [⟨⟨some 3, .malformed .strayColon⟩, ⟨"g"⟩⟩, ⟨notText, ⟨"g"⟩⟩] := by
  have cut := Lines.cuts_split 0x0A 0x0D
    (utf8 "\n; a\n S : a\n".toList ++ [0xC3, 0x0A, 0x3A])
  obtain ⟨texts, same, stops⟩ := (ofContents_reads_lines ⟨"g"⟩ {} _ _ cut).2.1
    (["", "; a", " S : a"].map (utf8 ·.toList)) [0xC3] [[0x3A]] (by decide) (by decide) (by decide)
  have texts_eq : texts = ["", "; a", " S : a"].map String.toList := by
    apply List.map_injective_iff.mpr Lines.utf8_injective
    rw [same]
    rfl
  rw [stops, texts_eq]
  decide

end NormalForm.Load
