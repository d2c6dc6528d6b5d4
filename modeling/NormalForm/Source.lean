/-! # Sources of random numbers

A source is the endless sequence of its 32-bit numbers, and a place in it is how many were drawn. An
index below `n` is picked by scaling: the number `v` names the index `v * n / 2 ^ 32`, and it is
refused if the remainder is not below the largest `n * 2 ^ k` that is less than `2 ^ 32`, so that
every index is named by equally many numbers. -/

namespace NormalForm

abbrev Source := Nat → UInt32

namespace Source

/-- How many values a draw has. -/
def range : Nat := 0x100000000

/-- The largest `n * 2 ^ k` below `range`, for a positive `n` below `range`. -/
def zone (n : Nat) : Nat := n <<< (31 - n.log2)

/-- Whether a number may be used to pick among `n`. -/
def usable (n v : Nat) : Bool := v * n % range < zone n

/-- The index below `n` that a number names. -/
def index (n v : Nat) : Nat := v * n / range

/-- Draws from `place` on until a number is usable, at most `patience` numbers, and gives the index
and the place after it. -/
def pick (source : Source) (n place : Nat) : (patience : Nat) → Option (Nat × Nat)
  | 0 => none
  | patience + 1 =>
    let v := (source place).toNat
    if usable n v then some (index n v, place + 1) else pick source n (place + 1) patience

/-- The numbers of a list, then zero for ever. -/
def ofList (numbers : List UInt32) : Source := fun place => numbers.getD place 0

/-- The map `x ↦ factor * x + offset` on 32-bit numbers. -/
structure Affine where
  factor : UInt32
  offset : UInt32

namespace Affine

def apply (f : Affine) (x : UInt32) : UInt32 := f.factor * x + f.offset

/-- First `f`, then `h`. -/
def andThen (f h : Affine) : Affine := ⟨h.factor * f.factor, h.factor * f.offset + h.offset⟩

/-- The map `times` times in a row, by squaring. -/
def power (f : Affine) (times : Nat) : Affine :=
  if times = 0 then ⟨1, 0⟩
  else if times % 2 = 0 then power (f.andThen f) (times / 2)
  else f.andThen (power (f.andThen f) (times / 2))
termination_by times
decreasing_by all_goals omega

theorem apply_andThen (f h : Affine) (x : UInt32) :
    (f.andThen h).apply x = h.apply (f.apply x) := by
  simp only [apply, andThen]
  grind

theorem repeat_first (f : α → α) (times : Nat) (a : α) :
    Nat.repeat f times (f a) = Nat.repeat f (times + 1) a := by
  induction times with
  | zero => rfl
  | succ n ih => simp only [Nat.repeat] at ih ⊢; rw [ih]

theorem repeat_twice (f : α → α) (times : Nat) (a : α) :
    Nat.repeat (fun a => f (f a)) times a = Nat.repeat f (2 * times) a := by
  induction times with
  | zero => rfl
  | succ n ih => simp only [Nat.repeat, ih, Nat.mul_succ]

/-- Squaring comes to the same as going step by step. -/
theorem apply_power (f : Affine) (times : Nat) (x : UInt32) :
    (f.power times).apply x = Nat.repeat f.apply times x := by
  induction times using Nat.strongRecOn generalizing f x with
  | ind times ih =>
    rw [power]
    split
    · rename_i zero
      simp [zero, apply, Nat.repeat]
    · have half (y : UInt32) :
          ((f.andThen f).power (times / 2)).apply y = Nat.repeat f.apply (2 * (times / 2)) y := by
        rw [ih (times / 2) (by omega), ← repeat_twice]
        congr 1
        funext z
        exact apply_andThen f f z
      split
      · rw [half]
        congr 1
        omega
      · rw [apply_andThen, half, repeat_first]
        congr 1
        omega

end Affine

/-- The step of the congruential source; its period is the whole of `range`. -/
def step : Affine := ⟨1664525, 1013904223⟩

/-- The source in which each number is `step` of the one before it, starting from the seed. -/
def congruential (seed : UInt32) : Source := fun place => (step.power (place + 1)).apply seed

theorem congruential_succ (seed : UInt32) (place : Nat) :
    congruential seed (place + 1) = step.apply (congruential seed place) := by
  simp only [congruential, Affine.apply_power, Nat.repeat]

/-- Patience that outlasts both sources: each of them draws zero, which is usable, at least once in
any so many draws. -/
def patience : Nat := range

end Source

end NormalForm
