import NormalForm.Proofs.Lines.Cut

namespace NormalForm.Lines

/-- The bytes of a text. -/
def utf8 (text : List Char) : List UInt8 := text.flatMap String.utf8EncodeChar

theorem utf8_append (text more : List Char) : utf8 (text ++ more) = utf8 text ++ utf8 more :=
  List.flatMap_append ..

theorem toByteArray_inj {bytes others : List UInt8}
    (same : bytes.toByteArray = others.toByteArray) : bytes = others := by
  have data := congrArg (·.data.toList) same
  simpa [List.data_toByteArray] using data

theorem valid_iff {bytes : List UInt8} :
    bytes.toByteArray.IsValidUTF8 ↔ ∃ text, utf8 text = bytes := by
  constructor
  · rintro ⟨text, same⟩
    exact ⟨text, (toByteArray_inj same).symm⟩
  · rintro ⟨text, rfl⟩
    exact ⟨text, rfl⟩

theorem decode_utf8 (text : List Char) : decode (utf8 text) = some text := by
  have valid : (utf8 text).toByteArray.IsValidUTF8 := valid_iff.mpr ⟨text, rfl⟩
  have same : String.fromUTF8 _ valid = String.ofList text := rfl
  rw [decode, String.fromUTF8?, dif_pos valid, Option.map_some, same, String.toList_ofList]

theorem utf8_injective : Function.Injective utf8 := fun text more same =>
  Option.some.inj (by rw [← decode_utf8 text, ← decode_utf8 more, same])

theorem decode_of_not_valid {bytes : List UInt8} (h : ¬ bytes.toByteArray.IsValidUTF8) :
    decode bytes = none := by
  rw [decode, String.fromUTF8?, dif_neg h, Option.map_none]

theorem utf8EncodeChar_of_ascii {mark : Char} (ascii : mark.toNat ≤ 127) :
    String.utf8EncodeChar mark = [UInt8.ofNat mark.toNat] := by
  rw [String.utf8EncodeChar]
  exact if_pos ascii

/-- A byte of an ASCII character is in the encoding of no other character. -/
theorem mem_utf8EncodeChar (mark : Char) {c : Char} (ascii : mark.toNat ≤ 127) :
    UInt8.ofNat mark.toNat ∈ String.utf8EncodeChar c ↔ c = mark := by
  constructor
  · intro h
    have small : (UInt8.ofNat mark.toNat).toNat = mark.toNat := by
      rw [UInt8.toNat_ofNat']
      omega
    have unlike {n : Nat} (high : 128 ≤ n % 256) : UInt8.ofNat mark.toNat ≠ UInt8.ofNat n := by
      intro same
      have value := congrArg UInt8.toNat same
      rw [small, UInt8.toNat_ofNat'] at value
      omega
    rw [String.utf8EncodeChar] at h
    split at h
    · rename_i low
      have value := congrArg UInt8.toNat (List.mem_singleton.mp h)
      rw [small, UInt8.toNat_ofNat'] at value
      apply Char.toNat_inj.mp
      change c.val.toNat = mark.toNat
      omega
    · exfalso
      split at h
      · simp only [List.mem_cons, List.not_mem_nil, or_false] at h
        rcases h with h | h <;> exact unlike (by omega) h
      · split at h
        · simp only [List.mem_cons, List.not_mem_nil, or_false] at h
          rcases h with h | h | h <;> exact unlike (by omega) h
        · simp only [List.mem_cons, List.not_mem_nil, or_false] at h
          rcases h with h | h | h | h <;> exact unlike (by omega) h
  · rintro rfl
    simp [utf8EncodeChar_of_ascii ascii]

theorem newline_mem_utf8 {text : List Char} : 0x0A ∈ utf8 text ↔ '\n' ∈ text := by
  have each (c : Char) : 0x0A ∈ String.utf8EncodeChar c ↔ c = '\n' :=
    mem_utf8EncodeChar '\n' (by decide)
  simp [utf8, each]

theorem utf8_next (line rest : List Char) :
    utf8 (line ++ '\n' :: rest) = utf8 line ++ 0x0A :: utf8 rest := by
  rw [utf8_append]
  rfl

theorem strip_utf8 (line : List Char) : strip 0x0D (utf8 line) = utf8 (strip '\r' line) := by
  by_cases ends : line.getLast? = some '\r'
  · obtain ⟨kept, rfl⟩ := List.getLast?_eq_some_iff.mp ends
    have last : utf8 (kept ++ ['\r']) = utf8 kept ++ [0x0D] := utf8_append kept ['\r']
    simp [strip, last]
  · have other : (utf8 line).getLast? ≠ some 0x0D := by
      intro h
      rcases List.eq_nil_or_concat line with rfl | ⟨kept, c, rfl⟩
      · cases h
      · rw [List.concat_eq_append] at h ends
        have last : utf8 (kept ++ [c]) = utf8 kept ++ String.utf8EncodeChar c := by simp [utf8]
        rw [last, List.getLast?_append] at h
        cases hb : (String.utf8EncodeChar c).getLast? with
        | none => exact absurd (List.getLast?_eq_none_iff.mp hb) String.utf8EncodeChar_ne_nil
        | some b =>
          rw [hb] at h
          cases h
          have same := (mem_utf8EncodeChar '\r' (by decide)).mp (List.mem_of_getLast? hb)
          simp [same] at ends
    rw [strip, if_neg other, strip, if_neg ends]

theorem Cuts.utf8 {text : List Char} {lines : List (List Char)} (h : Cuts '\n' '\r' text lines) :
    Cuts 0x0A 0x0D (utf8 text) (lines.map utf8) := by
  induction h with
  | nothing => exact .nothing
  | @last line nonempty whole =>
    refine .last ?_ (mt newline_mem_utf8.mp whole)
    obtain ⟨c, line, rfl⟩ := List.exists_cons_of_ne_nil nonempty
    simp [Lines.utf8, String.utf8EncodeChar_ne_nil]
  | @next line rest lines whole _ ih =>
    rw [utf8_next, List.map_cons, ← strip_utf8]
    exact .next (mt newline_mem_utf8.mp whole) ih

theorem ofBytes_utf8 (text : List Char) : ofBytes (utf8 text) = ofText text := by
  rw [ofBytes, (cuts_split '\n' '\r' text).utf8.split_eq, List.map_map, ofText]
  exact List.map_congr_left fun line _ => decode_utf8 line

/-- Bytes are a text if each of their lines is one. -/
theorem Cuts.valid {bytes : List UInt8} {lines : List (List UInt8)} (h : Cuts 0x0A 0x0D bytes lines)
    (each : ∀ line ∈ lines, line.toByteArray.IsValidUTF8) : bytes.toByteArray.IsValidUTF8 := by
  rw [valid_iff]
  induction h with
  | nothing => exact ⟨[], rfl⟩
  | last nonempty whole => exact valid_iff.mp (each _ (List.mem_singleton_self _))
  | @next line rest lines whole _ ih =>
    obtain ⟨first, each⟩ := List.forall_mem_cons.mp each
    obtain ⟨text, first⟩ := valid_iff.mp first
    obtain ⟨more, rfl⟩ := ih each
    rcases eq_strip_or 0x0D line with same | same
    · exact ⟨text ++ '\n' :: more, by rw [utf8_next, first, same]⟩
    · refine ⟨text ++ ['\r'] ++ '\n' :: more, ?_⟩
      rw [utf8_next, utf8_append, first]
      conv => rhs; rw [same]
      rfl

end NormalForm.Lines
