import Parsec.Ertrie.Basic
import Parsec.Slab.Inv

/-!
# Slabs that are leaves of a trie

The sizes that `PS_NS_CREATE` computes for its slabs and for the leaves of its trie, from the size of
a slot: a slot takes `stride` bytes in both, and a slab has as many slots as a leaf has ids.

* `stride`, `nsObjsz`, `maxNobjs`, `objsoff` — the formulas of the source.
* `Agrees` — that they agree; `agrees_iff` says for which sizes of a slot.
-/

namespace Parsec.Nsptr

open Ertrie Slab

/-! ## The formulas -/

section Defs

variable (a : Arch) (nodesz o : ℕ)

/-- `last_sz`, before it is passed as a `u32_t`: a size rounded up to words, and to a power of two.
Source: `ps_ns.h`, `PS_NS_CREATE`: `ps_rndpow2(__ps_slab_objmemsz(nodesz))` -/
def stride : ℕ := psRndpow2 a (objmemsz a nodesz)

/-- The `obj_sz` of the slab allocator.
Source: `ps_ns.h`, `__PS_NS_TYPE_CREATE` -/
def nsObjsz : ℕ := (stride a nodesz + 2 ^ wordBits a - mheadSz a) % 2 ^ wordBits a

/-- Source: `ps_slab.h`, `__ps_slab_max_nobjs` -/
def maxNobjs (objSz allocsz headoff : ℕ) : ℕ := (allocsz - headoff) / objmemsz a objSz

/-- The number of an object in its slab.
Source: `ps_slab.h`, `__ps_slab_objsoff` -/
def objsoff (objSz headoff : ℕ) (h : Obj) : ℕ := (h.off - headoff) / objmemsz a objSz

/-- The `k`th header that `__ps_slab_init` lays out in block `b`, with no head of the slab's own.
Source: `ps_slab.c`, `__ps_slab_init` -/
def header (b k : ℕ) : Obj := ⟨b, 0 + k * objmemsz a (nsObjsz a nodesz)⟩

/-- The layouts of a slab and of a leaf node agree. -/
structure Agrees : Prop where
  pow2 : LeastPow2 (objmemsz a nodesz) (psRndpow2 a (objmemsz a nodesz))
  stride_eq : objmemsz a (nsObjsz a nodesz) = toU32 (stride a nodesz)
  nobjs : maxNobjs a (nsObjsz a nodesz) (stride a nodesz * (1 <<< o)) 0 = 1 <<< o
  walk : ∀ c : Consts, c.lastOrder = o → c.lastSz = toU32 (stride a nodesz) → ∀ start b k,
    2 ^ o ∣ start → k < 2 ^ o → (Addr.ext b 0).plus (walkOff c (start + k) 1) =
      .ext (header a nodesz b k).blk (header a nodesz b k).off
  objsoff : ∀ b k, k < 2 ^ o → objsoff a (nsObjsz a nodesz) 0 (header a nodesz b k) = k
  room : mheadSz a + nodesz ≤ objmemsz a (nsObjsz a nodesz)

end Defs

/-! ## A slot that fits in half of the address space -/

section Fits

variable {a : Arch} {nodesz o : ℕ} (hsz : nodesz + mheadSz a ≤ 2 ^ (wordBits a - 1))

/-- A header has bytes. -/
theorem mheadSz_pos (a : Arch) : 0 < mheadSz a := by
  unfold mheadSz
  omega

/-- Twice half of the address space is all of it. -/
theorem two_mul_half (a : Arch) : 2 * 2 ^ (wordBits a - 1) = 2 ^ wordBits a := by
  rw [← pow_succ']
  congr 1
  cases a <;> rfl

/-- A word is less than half of the address space. -/
theorem psWord_le_half (a : Arch) : psWord a ≤ 2 ^ (wordBits a - 1) := by cases a <;> decide

include hsz

/-- Rounding up to words does not overflow, and stays in the half. -/
theorem objmemsz_nodesz :
    nodesz + mheadSz a ≤ objmemsz a nodesz ∧ objmemsz a nodesz ≤ 2 ^ (wordBits a - 1) := by
  have htwo := two_mul_half a
  have hword := psWord_le_half a
  have hpos := mheadSz_pos a
  obtain ⟨hdvd, hge, hlt⟩ :=
    psRndup_spec (by omega) (by omega : nodesz + mheadSz a + psWord a ≤ 2 ^ wordBits a)
  refine ⟨hge, ?_⟩
  have hhalf : psWord a ∣ 2 ^ (wordBits a - 1) := by cases a <;> decide
  obtain ⟨i, hi⟩ := hdvd
  obtain ⟨j, hj⟩ := hhalf
  unfold objmemsz
  rw [hi] at hlt ⊢
  rw [hj] at hsz ⊢
  have hlt' : psWord a * i < psWord a * (j + 1) := by
    rw [Nat.mul_succ]
    omega
  have := Nat.lt_of_mul_lt_mul_left hlt'
  exact Nat.mul_le_mul_left _ (by omega)

/-- The stride is the least power of two that has room for an object with its header. -/
theorem leastPow2_stride : LeastPow2 (objmemsz a nodesz) (stride a nodesz) := by
  obtain ⟨hge, hle⟩ := objmemsz_nodesz hsz
  have hpos := mheadSz_pos a
  exact leastPow2_psRndpow2 (by omega) hle

/-- The stride has room for the object and its header. -/
theorem mheadSz_le_stride : mheadSz a + nodesz ≤ stride a nodesz := by
  have hge := (objmemsz_nodesz hsz).1
  have hle := (leastPow2_stride hsz).2.1
  omega

/-- The stride is not zero. -/
theorem stride_pos : 0 < stride a nodesz := by
  have hle := mheadSz_le_stride hsz
  have hpos := mheadSz_pos a
  omega

/-- The stride is at most half of the address space. -/
theorem stride_le : stride a nodesz ≤ 2 ^ (wordBits a - 1) :=
  (leastPow2_stride hsz).2.2 _ (objmemsz_nodesz hsz).2

/-- The stride is of whole words. -/
theorem psWord_dvd_stride : psWord a ∣ stride a nodesz := by
  obtain ⟨⟨k, hk⟩, -, -⟩ := leastPow2_stride hsz
  obtain ⟨j, hj, -⟩ := exists_psWord_eq a
  have hle := mheadSz_le_stride hsz
  rw [hk] at hle ⊢
  rw [hj]
  refine pow_dvd_pow 2 ?_
  have hlt : 2 ^ j ≤ 2 ^ k := by
    rw [← hj]
    unfold mheadSz at hle
    omega
  exact (Nat.pow_le_pow_iff_right (by decide)).mp hlt

/-- Rounding the stride up to whole words does not overflow. -/
theorem stride_add_le : stride a nodesz + psWord a ≤ 2 ^ wordBits a := by
  have hle := stride_le hsz
  have htwo := two_mul_half a
  have hword := psWord_le_half a
  omega

/-- The size of a slab object without its header. -/
theorem nsObjsz_eq : nsObjsz a nodesz = stride a nodesz - mheadSz a := by
  have hle := mheadSz_le_stride hsz
  have hle' := stride_add_le hsz
  have hpos := mheadSz_pos a
  unfold nsObjsz
  rw [show stride a nodesz + 2 ^ wordBits a - mheadSz a = stride a nodesz - mheadSz a +
    2 ^ wordBits a by omega, Nat.add_mod_right, Nat.mod_eq_of_lt (by omega)]

/-- A slab object with its header takes up a slot: whole words, as many as a power of two. -/
theorem objmemsz_nsObjsz : objmemsz a (nsObjsz a nodesz) = stride a nodesz := by
  have hle := mheadSz_le_stride hsz
  unfold objmemsz
  rw [nsObjsz_eq hsz, Nat.sub_add_cancel (by omega)]
  exact psRndup_of_dvd (stride_pos hsz) (stride_add_le hsz) (psWord_dvd_stride hsz)

/-- The two layouts agree where a slab has less than 2 GiB. -/
theorem agrees_of_le (hB : stride a nodesz * 2 ^ o < 2 ^ 31) : Agrees a nodesz o := by
  have hpos := stride_pos hsz
  have hlt : stride a nodesz < 2 ^ 31 := by
    have := Nat.le_mul_of_pos_right (stride a nodesz) (Nat.two_pow_pos o)
    omega
  have hu32 : toU32 (stride a nodesz) = stride a nodesz := toU32_of_lt (by omega)
  refine ⟨leastPow2_stride hsz, ?_, ?_, fun c ho hs start b k hstart hk => ?_, fun b k hk => ?_, ?_⟩
  · rw [hu32, objmemsz_nsObjsz hsz]
  · unfold maxNobjs
    rw [objmemsz_nsObjsz hsz, Nat.sub_zero]
    exact Nat.mul_div_cancel_left _ hpos
  · have hm : ertM (start + k) o = k := by
      obtain ⟨j, rfl⟩ := hstart
      unfold ertM
      rw [Lib.and_mask, Nat.mul_add_mod, Nat.mod_eq_of_lt hk]
    have hmul : k * stride a nodesz < 2 ^ 32 := by
      have := Nat.mul_le_mul_right (stride a nodesz) hk.le
      rw [Nat.mul_comm (2 ^ o)] at this
      omega
    unfold header
    rw [walkOff_one, ho, hs, hm, hu32, objmemsz_nsObjsz hsz, toU32_of_lt hmul]
    rfl
  · unfold Nsptr.objsoff header
    simp only [Nat.zero_add, Nat.sub_zero]
    rw [objmemsz_nsObjsz hsz]
    exact Nat.mul_div_cancel _ hpos
  · rw [objmemsz_nsObjsz hsz]
    exact mheadSz_le_stride hsz

end Fits

/-- **The layouts agree exactly where a slot with its header fits in half of the address space**: for
a greater one the sizes wrap around. -/
theorem agrees_iff (a : Arch) (nodesz o : ℕ) (hB : stride a nodesz * 2 ^ o < 2 ^ 31) :
    Agrees a nodesz o ↔ nodesz + mheadSz a ≤ 2 ^ (wordBits a - 1) := by
  constructor
  · intro h
    have hroom := h.room
    have hle : toU32 (stride a nodesz) ≤ stride a nodesz := Nat.mod_le ..
    have hmul := Nat.le_mul_of_pos_right (stride a nodesz) (Nat.two_pow_pos o)
    have hword : 2 ^ 31 ≤ 2 ^ (wordBits a - 1) := by cases a <;> decide
    rw [h.stride_eq] at hroom
    omega
  · intro hsz
    exact agrees_of_le hsz hB

/-- Slots of 40 bytes, in slabs of 64, on x86. -/
theorem agrees_forty : Agrees .x86 40 6 := (agrees_iff .x86 40 6 (by decide)).mpr (by decide)

/-- A slot of all but 8 bytes of the address space gets 16. -/
theorem not_agrees_wrapped : stride .x86_64 (2 ^ 64 - 8) * 2 ^ 6 < 2 ^ 31 ∧
    ¬ Agrees .x86_64 (2 ^ 64 - 8) 6 := by
  have hB : stride .x86_64 (2 ^ 64 - 8) * 2 ^ 6 < 2 ^ 31 := by decide
  refine ⟨hB, fun h => ?_⟩
  have hroom := h.room
  rw [h.stride_eq] at hroom
  revert hroom
  decide

end Parsec.Nsptr
