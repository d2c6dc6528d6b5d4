import NormalForm.Unicode.Blank
import NormalForm.Unicode.Lowercase
import NormalForm.Unicode.Uppercase

/-! # Classes without a common character

A finite check on the spans of two tables shows that no character is in both. No character has both
cases, and none of those with a case is blank, so a registered symbol never reads as anything else
in a rule. -/

namespace NormalForm.Unicode

/-- The code points of the span, in order. -/
def Span.codes (s : Span) : List Nat := (List.range s.size).map fun i => s.first + i * s.stride

/-- Two spans without a common code point: their ranges do not meet, or no code point of the first
is in the second. -/
def Span.apart (s t : Span) : Bool :=
  s.last.blt t.first || t.last.blt s.first || s.codes.all (!t.contains ·)

def apart (T U : List Span) : Bool := T.all fun s => U.all s.apart

theorem Span.mem_codes {s : Span} {code : Nat} (h : s.contains code = true) : code ∈ s.codes := by
  obtain ⟨lo, hi, hr⟩ := (s.contains_iff code).mp h
  refine List.mem_map.mpr ⟨(code - s.first) / s.stride, List.mem_range.mpr ?_, ?_⟩
  · have := Nat.div_le_div_right (c := s.stride) (show code - s.first ≤ s.last - s.first by omega)
    exact Nat.lt_succ_of_le this
  · have := Nat.div_mul_cancel (Nat.dvd_of_mod_eq_zero hr)
    omega

theorem Span.not_contains_of_apart {s t : Span} (h : s.apart t = true) {code : Nat}
    (hs : s.contains code = true) : t.contains code = false := by
  simp only [apart, Bool.or_eq_true, Nat.blt_eq, List.all_eq_true, Bool.not_eq_true'] at h
  rcases h with (low | high) | hall
  · cases ht : t.contains code
    · rfl
    · have := (s.contains_iff code).mp hs
      have := (t.contains_iff code).mp ht
      omega
  · cases ht : t.contains code
    · rfl
    · have := (s.contains_iff code).mp hs
      have := (t.contains_iff code).mp ht
      omega
  · exact hall code (mem_codes hs)

theorem not_holds_of_apart {T U : List Span} (h : apart T U = true) {c : Char}
    (hc : holds T c = true) : holds U c = false := by
  obtain ⟨s, hs, hsc⟩ := List.any_eq_true.mp hc
  apply List.any_eq_false.mpr
  intro t ht
  have hst := List.all_eq_true.mp (List.all_eq_true.mp h s hs) t ht
  simp [Span.not_contains_of_apart hst hsc]

theorem uppercase_apart_lowercase : apart uppercase lowercase = true := by decide +kernel

theorem uppercase_apart_blank : apart uppercase blank = true := by decide +kernel

theorem lowercase_apart_blank : apart lowercase blank = true := by decide +kernel

/-- No character has both cases. -/
theorem not_lowercase_of_uppercase {c : Char} (h : isUppercase c = true) : isLowercase c = false :=
  not_holds_of_apart uppercase_apart_lowercase h

/-- Whether a character can be registered as a symbol. -/
def isCased (c : Char) : Bool := isUppercase c || isLowercase c

theorem isCased_of_uppercase {c : Char} (h : isUppercase c = true) : isCased c = true := by
  simp [isCased, h]

theorem isCased_of_lowercase {c : Char} (h : isLowercase c = true) : isCased c = true := by
  simp [isCased, h]

theorem not_blank_of_cased {c : Char} (h : isCased c = true) : isBlank c = false := by
  rcases Bool.or_eq_true_iff.mp h with h | h
  · exact not_holds_of_apart uppercase_apart_blank h
  · exact not_holds_of_apart lowercase_apart_blank h

/-- A character with a case differs from every mark of the file format. -/
theorem ne_of_cased {c mark : Char} (h : isCased c = true) (hm : isCased mark = false) :
    c ≠ mark := by
  rintro rfl
  simp [h] at hm

end NormalForm.Unicode
