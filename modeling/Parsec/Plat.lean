import Mathlib.Algebra.Order.Ring.Nat
import Parsec.Lib.Digits

/-!
# The platform: word sizes and the conversions of C

The two architectures under `plat/arch`, and the integer conversions the code goes through when it
passes a byte size as a `u32_t` or an `int`.

* `psWord` — `PS_WORD`, which is also the size of a pointer and of an `unsigned long`.
* `toU32`, `toInt` — conversion to `u32_t` and to `int`; `subU32` — the difference of two `u32_t`s;
  `predWord`, `negWord` — `n - 1` and `-n` of a word.
* `psRndup` — `PS_RNDUP`, which rounds a size up to whole words (`psRndup_spec`).
* `psRndpow2` — `ps_rndpow2`, which rounds a size up to a power of two (`leastPow2_psRndpow2`).
-/

namespace Parsec

/-- The architectures the repository configures for.
Source: `configure`, `plat/arch` -/
inductive Arch
  | x86
  | x86_64
  deriving DecidableEq, Repr

/-- `PS_WORD`, in bytes.
Source: `plat/arch/x86/ps_arch_x86_common.h`, `PS_WORD` -/
def psWord : Arch → ℕ
  | .x86 => 4
  | .x86_64 => 8

/-- The bits of an `unsigned long`. -/
def wordBits (a : Arch) : ℕ := psWord a * 8

/-- A word has bytes. -/
theorem psWord_pos (a : Arch) : 0 < psWord a := by cases a <;> decide

/-- A word has at most eight bytes. -/
theorem psWord_le (a : Arch) : psWord a ≤ 8 := by cases a <;> decide

/-- Conversion to `u32_t`. -/
def toU32 (n : ℕ) : ℕ := n % 2 ^ 32

/-- Conversion of a `u32_t` to `int`. -/
def toInt (n : ℕ) : ℤ := if n < 2 ^ 31 then n else (n : ℤ) - 2 ^ 32

/-- A number that fits in a `u32_t` is converted to itself. -/
theorem toU32_of_lt {n : ℕ} (h : n < 2 ^ 32) : toU32 n = n := Nat.mod_eq_of_lt h

/-- A `u32_t` is less than `2 ^ 32`. -/
theorem toU32_lt (n : ℕ) : toU32 n < 2 ^ 32 := Nat.mod_lt _ (Nat.two_pow_pos 32)

/-- A number that fits in an `int` is converted to itself. -/
theorem toInt_of_lt {n : ℕ} (h : n < 2 ^ 31) : toInt n = n := if_pos h

/-- A `u32_t` that does not fit in an `int` becomes negative. -/
theorem toInt_neg {n : ℕ} (h : 2 ^ 31 ≤ n) (h' : n < 2 ^ 32) : toInt n < 0 := by
  unfold toInt
  rw [if_neg (by omega)]
  omega

/-- The difference of two `u32_t`s, which wraps around. -/
def subU32 (a b : ℕ) : ℕ := toU32 (a + 2 ^ 32 - b)

/-- A difference that is not negative. -/
theorem subU32_of_le {a b : ℕ} (h : b ≤ a) (ha : a < 2 ^ 32) : subU32 a b = a - b := by
  unfold subU32 toU32
  omega

/-- A difference that wraps around. -/
theorem subU32_of_lt {a b : ℕ} (h : a < b) (hb : b < 2 ^ 32) : subU32 a b = a + 2 ^ 32 - b := by
  unfold subU32 toU32
  omega

/-- `n - 1` for a `size_t`. -/
def predWord (a : Arch) (n : ℕ) : ℕ := if n = 0 then 2 ^ wordBits a - 1 else n - 1

/-- The word before one that is not zero. -/
theorem predWord_of_ne {a : Arch} {n : ℕ} (h : n ≠ 0) : predWord a n = n - 1 := if_neg h

/-- `-x` for an `unsigned long`. -/
def negWord (a : Arch) (x : ℕ) : ℕ := (2 ^ wordBits a - x % 2 ^ wordBits a) % 2 ^ wordBits a

/-- `-(-(v) & -(k))`.
Source: `plat/arch/x86/ps_arch_x86_common.h`, `PS_RNDUP` -/
def psRndup (a : Arch) (v k : ℕ) : ℕ := negWord a (negWord a v &&& negWord a k)

/-- A word has a power of two of bytes. -/
theorem exists_psWord_eq (a : Arch) : ∃ k, psWord a = 2 ^ k ∧ k ≤ wordBits a := by
  cases a
  · exact ⟨2, rfl, by decide⟩
  · exact ⟨3, rfl, by decide⟩

/-- The negative of a word that is not zero. -/
theorem negWord_eq {a : Arch} {x : ℕ} (hx : 0 < x) (hlt : x < 2 ^ wordBits a) :
    negWord a x = 2 ^ wordBits a - x := by
  unfold negWord
  rw [Nat.mod_eq_of_lt hlt, Nat.mod_eq_of_lt (by omega)]

/-- `PS_RNDUP` rounds up to whole words. -/
theorem psRndup_spec {a : Arch} {v : ℕ} (hv : 0 < v) (h : v + psWord a ≤ 2 ^ wordBits a) :
    psWord a ∣ psRndup a v (psWord a) ∧ v ≤ psRndup a v (psWord a) ∧
      psRndup a v (psWord a) < v + psWord a := by
  obtain ⟨k, hk, hkw⟩ := exists_psWord_eq a
  have hpos : 0 < 2 ^ k := Nat.two_pow_pos k
  rw [hk] at h ⊢
  unfold psRndup
  rw [negWord_eq hv (by omega), negWord_eq hpos (by omega), Lib.and_high hkw (by omega)]
  obtain ⟨d, hd⟩ : 2 ^ k ∣ 2 ^ wordBits a := pow_dvd_pow 2 hkw
  have hq := Nat.div_add_mod (2 ^ wordBits a - v) (2 ^ k)
  have hr := Nat.mod_lt (2 ^ wordBits a - v) hpos
  rw [Nat.mul_comm] at hq
  have hq₀ : 0 < (2 ^ wordBits a - v) / 2 ^ k := Nat.div_pos (by omega) hpos
  have hq₁ : 2 ^ k ≤ (2 ^ wordBits a - v) / 2 ^ k * 2 ^ k := Nat.le_mul_of_pos_left _ hq₀
  rw [negWord_eq (by omega) (by omega)]
  exact ⟨Nat.dvd_sub ⟨d, hd⟩ (Nat.dvd_mul_left _ _), by omega, by omega⟩

/-- `PS_RNDUP` leaves whole words alone. -/
theorem psRndup_of_dvd {a : Arch} {v : ℕ} (hv : 0 < v) (h : v + psWord a ≤ 2 ^ wordBits a)
    (hdvd : psWord a ∣ v) : psRndup a v (psWord a) = v := by
  obtain ⟨⟨j, hj⟩, hge, hlt⟩ := psRndup_spec hv h
  obtain ⟨l, rfl⟩ := hdvd
  rw [hj] at hge hlt ⊢
  rw [← Nat.mul_succ] at hlt
  have hlj := Nat.le_of_mul_le_mul_left hge (psWord_pos _)
  have hjl := Nat.lt_of_mul_lt_mul_left hlt
  congr 1
  omega

/-- Source: `ps_global.h`, `ps_rndpow2`; `plat/arch/x86/ps_arch.h`, `plat/arch/x86_64/ps_arch.h`,
`PS_PLAT_SHIFTR32` -/
def psRndpow2 (a : Arch) (v : ℕ) : ℕ :=
  let v := (v + 2 ^ wordBits a - 1) % 2 ^ wordBits a
  let v := v ||| v >>> 1
  let v := v ||| v >>> 2
  let v := v ||| v >>> 4
  let v := v ||| v >>> 8
  let v := v ||| v >>> 16
  let v := match a with
    | .x86 => v
    | .x86_64 => v ||| v >>> 32
  (v + 1) % 2 ^ wordBits a

/-- `ps_rndpow2` rounds up to a power of two: the least one, that has a bit more than `v - 1`. -/
theorem psRndpow2_eq {a : Arch} {v : ℕ} (hv : 0 < v) (h : v ≤ 2 ^ (wordBits a - 1)) :
    (v - 1).size < wordBits a ∧ psRndpow2 a v = 2 ^ (v - 1).size := by
  have hbits : 0 < wordBits a := by cases a <;> decide
  have hlt : v - 1 < 2 ^ (wordBits a - 1) := by omega
  have hsz : (v - 1).size < wordBits a := by
    have := Nat.size_le.mpr hlt
    omega
  have hpow : 2 ^ (v - 1).size < 2 ^ wordBits a := Nat.pow_lt_pow_right (by decide) hsz
  have hpos := Nat.two_pow_pos (v - 1).size
  have hx : (v + 2 ^ wordBits a - 1) % 2 ^ wordBits a = v - 1 := by
    rw [show v + 2 ^ wordBits a - 1 = v - 1 + 2 ^ wordBits a by omega, Nat.add_mod_right]
    exact Nat.mod_eq_of_lt (hlt.trans (Nat.pow_lt_pow_right (by decide) (by omega)))
  refine ⟨hsz, ?_⟩
  have h32 := (Lib.smeared_one (v - 1)).double.double.double.double.double
  unfold psRndpow2
  rw [hx]
  -- the two architectures differ in the last shift only
  cases a with
  | x86 =>
      have hy := h32.eq (hlt.trans (by decide))
      simp only [Nat.reduceMul] at hy
      simp only [hy]
      rw [Nat.sub_add_cancel hpos, Nat.mod_eq_of_lt hpow]
  | x86_64 =>
      have hy := h32.double.eq (hlt.trans (by decide))
      simp only [Nat.reduceMul] at hy
      simp only [hy]
      rw [Nat.sub_add_cancel hpos, Nat.mod_eq_of_lt hpow]

/-- The least power of two that is not below a number. -/
def LeastPow2 (v p : ℕ) : Prop := (∃ k, p = 2 ^ k) ∧ v ≤ p ∧ ∀ j, v ≤ 2 ^ j → p ≤ 2 ^ j

/-- `ps_rndpow2` is the least power of two that is no less. -/
theorem leastPow2_psRndpow2 {a : Arch} {v : ℕ} (hv : 0 < v) (h : v ≤ 2 ^ (wordBits a - 1)) :
    LeastPow2 v (psRndpow2 a v) := by
  rw [(psRndpow2_eq hv h).2]
  refine ⟨⟨_, rfl⟩, ?_, fun j hj => ?_⟩
  · have := Nat.lt_size_self (v - 1)
    omega
  · exact Nat.pow_le_pow_right (by decide) (Nat.size_le.mpr (by omega))

end Parsec
