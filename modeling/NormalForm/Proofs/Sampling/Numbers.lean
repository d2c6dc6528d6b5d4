import Mathlib.Data.Set.Card
import Mathlib.Order.Interval.Finset.Nat
import NormalForm.Source

/-! # The numbers of a draw

The usable numbers that name an index among `n` are an interval of `2 ^ k` numbers, where `k` is how
often `n` can be doubled below `range`. So every index has equally many, and since `n` is doubled
until it passes half of `range`, at least half of all numbers are usable. -/

namespace NormalForm

namespace Source

variable {n i v : Nat}

theorem index_lt (positive : 0 < n) (h : v < range) : index n v < n := by
  apply Nat.div_lt_of_lt_mul
  exact Nat.mul_lt_mul_of_pos_right h positive

/-- The rule by which a number may be used, in words of 32 bits. -/
def accepts (n v : BitVec 32) : Bool := decide (v * n ≤ (n <<< n.clz) - 1#32)

/-- The index that a number names: the upper half of a product of 64 bits. -/
def upperHalf (n v : BitVec 32) : Nat := ((v.setWidth 64 * n.setWidth 64) >>> 32).toNat

theorem log2_le (positive : 0 < n) (few : n < range) : n.log2 ≤ 31 :=
  Nat.le_of_lt_succ ((Nat.log2_lt (Nat.ne_of_gt positive)).mpr few)

theorem toNat_word (few : n < range) : (BitVec.ofNat 32 n).toNat = n := Nat.mod_eq_of_lt few

theorem clz_word (positive : 0 < n) (few : n < range) :
    (BitVec.ofNat 32 n).clz.toNat = 31 - n.log2 := by
  have nonzero : BitVec.ofNat 32 n ≠ 0#32 := by
    intro zero
    have same := toNat_word few
    rw [zero] at same
    exact absurd same (Nat.ne_of_lt positive)
  have leading : (BitVec.ofNat 32 n).clz.toNat < 32 :=
    BitVec.lt_def.mp (BitVec.clz_lt_iff_ne_zero.mpr nonzero)
  have least := BitVec.two_pow_sub_clz_le_toNat_of_ne_zero (by decide) nonzero
  have below := BitVec.toNat_lt_two_pow_sub_clz (x := BitVec.ofNat 32 n)
  rw [toNat_word few] at least below
  have log : n.log2 = 31 - (BitVec.ofNat 32 n).clz.toNat := by
    refine (Nat.log2_eq_iff (Nat.ne_of_gt positive)).mpr ⟨least, ?_⟩
    rwa [← Nat.sub_add_comm (Nat.le_of_lt_succ leading)]
  omega

theorem zone_eq (n : Nat) : zone n = n * 2 ^ (31 - n.log2) := Nat.shiftLeft_eq n _

theorem le_zone (n : Nat) : n ≤ zone n := by
  rw [zone_eq]
  exact Nat.le_mul_of_pos_right n (Nat.two_pow_pos _)

theorem zone_lt (positive : 0 < n) (few : n < range) : zone n < range := by
  have few_bits := log2_le positive few
  calc zone n = n * 2 ^ (31 - n.log2) := zone_eq n
    _ < 2 ^ (n.log2 + 1) * 2 ^ (31 - n.log2) :=
      Nat.mul_lt_mul_of_pos_right Nat.lt_log2_self (Nat.two_pow_pos _)
    _ = 2 ^ 32 := by
      rw [← Nat.pow_add]
      congr 1
      omega

theorem half_le_zone (positive : 0 < n) (few : n < range) : 2 ^ 31 ≤ zone n := by
  calc 2 ^ 31 = 2 ^ n.log2 * 2 ^ (31 - n.log2) := by
        rw [← Nat.pow_add, Nat.add_sub_cancel' (log2_le positive few)]
    _ ≤ n * 2 ^ (31 - n.log2) :=
      Nat.mul_le_mul_right _ (Nat.log2_self_le (Nat.ne_of_gt positive))
    _ = zone n := (zone_eq n).symm

theorem usable_eq_accepts (positive : 0 < n) (few : n < range) (v : UInt32) :
    usable n v.toNat = accepts (BitVec.ofNat 32 n) v.toBitVec := by
  have zone_pos := Nat.lt_of_lt_of_le positive (le_zone n)
  have product : (v.toBitVec * BitVec.ofNat 32 n).toNat = v.toNat * n % range := by
    rw [BitVec.toNat_mul, toNat_word few]
    rfl
  have shifted : (BitVec.ofNat 32 n <<< (BitVec.ofNat 32 n).clz).toNat = zone n := by
    rw [BitVec.shiftLeft_eq', BitVec.toNat_shiftLeft, toNat_word few, clz_word positive few]
    exact Nat.mod_eq_of_lt (zone_lt positive few)
  have last : (BitVec.ofNat 32 n <<< (BitVec.ofNat 32 n).clz - 1#32).toNat = zone n - 1 := by
    rw [BitVec.toNat_sub_of_le, shifted]
    · rfl
    · rw [BitVec.le_def, shifted]
      exact zone_pos
  simp only [usable, accepts, BitVec.le_def, product, last]
  exact decide_eq_decide.mpr (Nat.lt_iff_le_pred zone_pos)

theorem index_eq_upperHalf (few : n < range) (v : UInt32) :
    index n v.toNat = upperHalf (BitVec.ofNat 32 n) v.toBitVec := by
  have whole : v.toNat * n < 2 ^ 64 :=
    (Nat.mul_lt_mul'' v.toNat_lt few : v.toNat * n < 2 ^ 32 * range)
  have wide (m : Nat) (h : m < range) : m % 2 ^ 64 = m :=
    Nat.mod_eq_of_lt (Nat.lt_trans h (by decide))
  rw [upperHalf, BitVec.toNat_ushiftRight, BitVec.toNat_mul, BitVec.toNat_setWidth,
    BitVec.toNat_setWidth, toNat_word few, UInt32.toNat_toBitVec, wide _ v.toNat_lt, wide _ few,
    Nat.mod_eq_of_lt whole, Nat.shiftRight_eq_div_pow]
  rfl

/-- The least number that names an index. -/
def least (n i : Nat) : Nat := (i * range + (n - 1)) / n

theorem least_le_iff (positive : 0 < n) : least n i ≤ v ↔ i * range ≤ n * v := by
  rw [least, Nat.div_le_iff_le_mul_add_pred positive]
  exact Nat.add_le_add_iff_right

theorem least_add_le_iff (positive : 0 < n) (k : Nat) :
    least n i + k ≤ v ↔ i * range + n * k ≤ n * v := by
  have moved : least n i + k = (i * range + n * k + (n - 1)) / n := by
    rw [least, ← Nat.add_mul_div_left _ _ positive]
    congr 1
    omega
  rw [moved, Nat.div_le_iff_le_mul_add_pred positive]
  exact Nat.add_le_add_iff_right

/-- The usable numbers that name an index. -/
def names (n i : Nat) : Finset Nat := Finset.Ico (least n i) (least n i + 2 ^ (31 - n.log2))

theorem mem_names (positive : 0 < n) (few : n < range) :
    v ∈ names n i ↔ usable n v = true ∧ index n v = i := by
  have zone_lt := zone_lt positive few
  rw [names, Finset.mem_Ico, ← Nat.not_le, least_le_iff positive, least_add_le_iff positive,
    ← zone_eq, usable, decide_eq_true_eq, index, Nat.mul_comm n v]
  have whole := Nat.div_add_mod (v * n) range
  rw [Nat.mul_comm] at whole
  constructor
  · rintro ⟨low, high⟩
    have quotient : v * n / range = i := by
      refine Nat.div_eq_of_lt_le low ?_
      rw [Nat.succ_mul]
      omega
    rw [quotient] at whole
    exact ⟨by omega, quotient⟩
  · rintro ⟨small, rfl⟩
    omega

theorem names_below (inside : i < n) (few : n < range) (h : v ∈ names n i) : v < range := by
  have positive := Nat.zero_lt_of_lt inside
  have zone_lt := zone_lt positive few
  rw [names, Finset.mem_Ico, ← Nat.not_le (b := v), least_add_le_iff positive, ← zone_eq] at h
  have scaled : n * v < n * range := by
    have room := Nat.mul_le_mul_right range (Nat.succ_le_of_lt inside)
    rw [Nat.succ_mul] at room
    omega
  exact Nat.lt_of_mul_lt_mul_left scaled

/-- The least number that names an index is usable. -/
theorem exists_number (inside : i < n) (few : n < range) :
    ∃ v : UInt32, usable n v.toNat = true ∧ index n v.toNat = i := by
  have first : least n i ∈ names n i :=
    Finset.mem_Ico.mpr ⟨Nat.le_refl _, Nat.lt_add_of_pos_right (Nat.two_pow_pos _)⟩
  have same : (UInt32.ofNat (least n i)).toNat = least n i :=
    UInt32.toNat_ofNat_of_lt (names_below inside few first)
  refine ⟨UInt32.ofNat (least n i), ?_⟩
  rw [same]
  exact (mem_names (Nat.zero_lt_of_lt inside) few).mp first

theorem card_names (n i : Nat) : (names n i).card = 2 ^ (31 - n.log2) := by
  rw [names, Nat.card_Ico, Nat.add_sub_cancel_left]

/-- A set of naturals below `range` holds as many 32-bit numbers as it has elements. -/
theorem ncard_toNat_mem (s : Finset Nat) (below : ∀ v ∈ s, v < range) :
    {v : UInt32 | v.toNat ∈ s}.ncard = s.card := by
  have injective : Function.Injective UInt32.toNat := fun _ _ => UInt32.toNat_inj.mp
  have covered : (s : Set Nat) ⊆ Set.range UInt32.toNat :=
    fun v hv => ⟨UInt32.ofNat v, UInt32.toNat_ofNat_of_lt (below v hv)⟩
  exact (Set.ncard_preimage_of_injective_subset_range injective covered).trans
    (Set.ncard_coe_finset s)

theorem ncard_names (inside : i < n) (few : n < range) :
    {v : UInt32 | usable n v.toNat = true ∧ index n v.toNat = i}.ncard =
      2 ^ (31 - n.log2) := by
  have positive := Nat.zero_lt_of_lt inside
  have counted := ncard_toNat_mem (names n i) fun _ => names_below inside few
  simp only [mem_names positive few] at counted
  rw [counted, card_names]

theorem names_disjoint (positive : 0 < n) (few : n < range) :
    (Finset.range n : Set Nat).PairwiseDisjoint (names n) := by
  intro i _ j _ different
  refine Finset.disjoint_left.mpr fun v hi hj => different ?_
  exact ((mem_names positive few).mp hi).2.symm.trans ((mem_names positive few).mp hj).2

theorem ncard_usable (positive : 0 < n) (few : n < range) :
    {v : UInt32 | usable n v.toNat = true}.ncard = zone n := by
  have below : ∀ v ∈ (Finset.range n).biUnion (names n), v < range := by
    intro v hv
    obtain ⟨i, hi, hv⟩ := Finset.mem_biUnion.mp hv
    exact names_below (Finset.mem_range.mp hi) few hv
  have covered (v : UInt32) :
      v.toNat ∈ (Finset.range n).biUnion (names n) ↔ usable n v.toNat = true := by
    simp only [Finset.mem_biUnion, Finset.mem_range, mem_names positive few]
    constructor
    · rintro ⟨_, _, usable, _⟩
      exact usable
    · exact fun usable => ⟨_, index_lt positive v.toNat_lt, usable, rfl⟩
  have counted := ncard_toNat_mem _ below
  simp only [covered] at counted
  rw [counted, Finset.card_biUnion (names_disjoint positive few),
    Finset.sum_const_nat fun i _ => card_names n i, Finset.card_range, zone_eq]

end Source

end NormalForm
