import NormalForm.CommandLine.Numeral

namespace NormalForm.Numeral

variable {text : List Char} {n : Nat}

/-- The text is a decimal spelling of the number. -/
def Spells (text : List Char) (n : Nat) : Prop :=
  ∃ sign zeros, (sign = [] ∨ sign = ['+']) ∧
    text = sign ++ (List.replicate zeros '0' ++ (toString n).toList)

theorem spells_toString (n : Nat) : Spells (toString n).toList n :=
  ⟨[], 0, Or.inl rfl, rfl⟩

theorem digits?_of_all (nonempty : text ≠ []) (digit : ∀ c ∈ text, isDigit c = true) :
    digits? text = some (Nat.ofDigitChars 10 text 0) := by
  simp [digits?, Nat.ofDigitChars_eq_foldl, nonempty, List.all_eq_true.mpr digit]

theorem digits?_decimal (zeros n : Nat) :
    digits? (List.replicate zeros '0' ++ Nat.toDigits 10 n) = some n := by
  have digit : ∀ c ∈ List.replicate zeros '0' ++ Nat.toDigits 10 n, isDigit c = true := by
    intro c hc
    rcases List.mem_append.mp hc with hc | hc
    · rw [List.eq_of_mem_replicate hc]
      rfl
    · exact Nat.isDigit_of_mem_toDigits (by decide) (by decide) hc
  rw [digits?_of_all (by simp) digit, Nat.ofDigitChars_append, Nat.ofDigitChars_replicate_zero,
    Nat.mul_zero, Nat.ofDigitChars_ten_toDigits]

/-- No sign stands before what is read without one. -/
theorem digits?_cons_of_not_digit {c : Char} (sign : isDigit c = false) (rest : List Char) :
    digits? (c :: rest) = none := by
  simp [digits?, sign]

theorem natural?_of_digits? (h : digits? text = some n) : natural? text = some n := by
  unfold natural?
  split
  · rw [digits?_cons_of_not_digit rfl] at h
    cases h
  · exact h

theorem Spells.natural? (h : Spells text n) : natural? text = some n := by
  obtain ⟨sign, zeros, rfl | rfl, rfl⟩ := h
  · rw [Nat.toString_eq_repr, Nat.toList_repr]
    exact natural?_of_digits? (digits?_decimal zeros n)
  · rw [Nat.toString_eq_repr, Nat.toList_repr]
    exact digits?_decimal zeros n

theorem Spells.head?_ne (h : Spells text n) : text.head? ≠ some '-' := by
  have read := h.natural?
  cases text with
  | nil => nofun
  | cons c rest =>
    rintro ⟨⟩
    cases read

theorem Spells.integer? (h : Spells text n) : integer? text = some (n : Int) := by
  unfold Numeral.integer?
  split
  · exact absurd rfl h.head?_ne
  · rw [h.natural?]
    rfl

end NormalForm.Numeral
