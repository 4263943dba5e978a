import Mathlib.Algebra.Order.Ring.Nat
import Mathlib.Data.Nat.Bitwise
import Mathlib.Data.Nat.Size

/-!
# Bit slices of a number

A number below `2 ^ (w * n + l)` is determined by its low `l` bits and its `n` slices of `w` bits
above them.

* `slice w x j` — the `j`-th slice of `w` bits, by shift and mask as a program computes it.
* `eq_of_slices` — equal slices, equal numbers.
* `eq_of_low_of_slices` — the same above `l` low bits.
* `Smeared n x y` — a bit of `y` is set iff one of the `n` bits of `x` from there on is. Smearing
  doubles `n` by one shift (`Smeared.double`), and ends in a power of two less one (`Smeared.eq`).
-/

namespace Parsec.Lib

/-- The `j`-th slice of `w` bits. -/
def slice (w x j : ℕ) : ℕ := (x >>> (w * j)) % 2 ^ w

/-- Masking with `2 ^ w - 1` is the remainder. -/
theorem and_mask (x w : ℕ) : x &&& ((1 <<< w) - 1) = x % 2 ^ w := by
  rw [Nat.one_shiftLeft, Nat.and_two_pow_sub_one_eq_mod]

/-- Numbers with equal slices agree below the slices' end. -/
theorem mod_eq_of_slices {w n x y : ℕ} (h : ∀ j < n, slice w x j = slice w y j) :
    x % 2 ^ (w * n) = y % 2 ^ (w * n) := by
  induction n with
  | zero => simp [Nat.mod_one]
  | succ n ih =>
      have hlow := ih fun j hj => h j (Nat.lt_succ_of_lt hj)
      have htop := h n (Nat.lt_succ_self n)
      unfold slice at htop
      rw [Nat.shiftRight_eq_div_pow, Nat.shiftRight_eq_div_pow] at htop
      rw [Nat.mul_succ, pow_add, Nat.mod_mul, Nat.mod_mul, hlow, htop]

/-- Numbers below the slices' end with equal slices are equal. -/
theorem eq_of_slices {w n x y : ℕ} (hx : x < 2 ^ (w * n)) (hy : y < 2 ^ (w * n))
    (h : ∀ j < n, slice w x j = slice w y j) : x = y := by
  have hmod := mod_eq_of_slices h
  rwa [Nat.mod_eq_of_lt hx, Nat.mod_eq_of_lt hy] at hmod

/-- Numbers with equal low bits and equal slices above them are equal. -/
theorem eq_of_low_of_slices {w n l x y : ℕ} (hx : x < 2 ^ (w * n + l)) (hy : y < 2 ^ (w * n + l))
    (hlow : x % 2 ^ l = y % 2 ^ l) (h : ∀ j < n, slice w (x >>> l) j = slice w (y >>> l) j) :
    x = y := by
  have hhigh : x >>> l = y >>> l := by
    refine eq_of_slices ?_ ?_ h
    all_goals
      rw [Nat.shiftRight_eq_div_pow, Nat.div_lt_iff_lt_mul (Nat.two_pow_pos l), ← pow_add]
      assumption
  rw [Nat.shiftRight_eq_div_pow, Nat.shiftRight_eq_div_pow] at hhigh
  rw [← Nat.div_add_mod x (2 ^ l), ← Nat.div_add_mod y (2 ^ l), hlow, hhigh]

/-- Clearing the low `k` bits of a number of `w` bits. -/
theorem and_high {w k x : ℕ} (hk : k ≤ w) (hx : x < 2 ^ w) :
    x &&& (2 ^ w - 2 ^ k) = x / 2 ^ k * 2 ^ k := by
  have hm : 2 ^ w - 2 ^ k = (2 ^ (w - k) - 1) <<< k := by
    rw [Nat.shiftLeft_eq, Nat.sub_mul, ← pow_add, Nat.sub_add_cancel hk, one_mul]
  rw [hm, ← Nat.shiftRight_eq_div_pow, ← Nat.shiftLeft_eq]
  apply Nat.eq_of_testBit_eq
  intro i
  rw [Nat.testBit_and, Nat.testBit_shiftLeft, Nat.testBit_shiftLeft, Nat.testBit_two_pow_sub_one,
    Nat.testBit_shiftRight]
  by_cases hi : k ≤ i
  · rw [show k + (i - k) = i by omega]
    by_cases hw : i < w
    · simp [hi, show i - k < w - k by omega]
    · rw [Nat.testBit_lt_two_pow
        (lt_of_lt_of_le hx (Nat.pow_le_pow_right (by decide) (by omega)))]
      simp
  · simp [hi]

/-! ## Smearing the highest bit -/

/-- A bit is set where one of the next `n` bits of `x` is. -/
def Smeared (n x y : ℕ) : Prop := ∀ i, y.testBit i = true ↔ ∃ j < n, x.testBit (i + j) = true

/-- A number is smeared by one bit. -/
theorem smeared_one (x : ℕ) : Smeared 1 x x := by
  intro i
  constructor
  · exact fun h => ⟨0, Nat.one_pos, h⟩
  · rintro ⟨j, hj, h⟩
    rwa [Nat.lt_one_iff.mp hj] at h

/-- Shifting by `n` doubles what is smeared. -/
theorem Smeared.double {n x y : ℕ} (h : Smeared n x y) : Smeared (2 * n) x (y ||| y >>> n) := by
  intro i
  rw [Nat.testBit_or, Nat.testBit_shiftRight, Bool.or_eq_true, h, h]
  constructor
  · rintro (⟨j, hj, hb⟩ | ⟨j, hj, hb⟩)
    · exact ⟨j, by omega, hb⟩
    · refine ⟨n + j, by omega, ?_⟩
      rwa [show i + (n + j) = n + i + j by omega]
  · rintro ⟨j, hj, hb⟩
    by_cases hjn : j < n
    · exact .inl ⟨j, hjn, hb⟩
    · refine .inr ⟨j - n, by omega, ?_⟩
      rwa [show n + i + (j - n) = i + j by omega]

/-- A number that is smeared over all its bits. -/
theorem Smeared.eq {n x y : ℕ} (h : Smeared n x y) (hx : x < 2 ^ n) : y = 2 ^ x.size - 1 := by
  apply Nat.eq_of_testBit_eq
  intro i
  rw [Nat.testBit_two_pow_sub_one, Bool.eq_iff_iff, h, decide_eq_true_eq, Nat.lt_size]
  constructor
  · rintro ⟨j, -, hb⟩
    by_contra hlt
    have hle : x < 2 ^ (i + j) :=
      lt_of_lt_of_le (not_le.mp hlt) (Nat.pow_le_pow_right (by decide) (Nat.le_add_right ..))
    rw [Nat.testBit_lt_two_pow hle] at hb
    cases hb
  · intro hle
    obtain ⟨j, hj, hb⟩ := Nat.exists_ge_and_testBit_of_ge_two_pow hle
    refine ⟨j - i, ?_, by rwa [show i + (j - i) = j by omega]⟩
    have := Nat.ge_two_pow_of_testBit hb
    have hjn : j < n := (Nat.pow_lt_pow_iff_right (by decide)).mp (this.trans_lt hx)
    omega

end Parsec.Lib
