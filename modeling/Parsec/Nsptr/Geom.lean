import Parsec.Ns.Geom
import Parsec.Nsptr.Layout

/-!
# The parameters of a namespace with its slabs

What `PS_NS_CREATE` and `PS_NSSLAB_CREATE` make of their arguments: the trie of `Parsec.Ns.Geom` and
a slab allocator whose headers are not in the slabs' memory. A slot has `stride` bytes, a power of
two, in the slab as in the leaf node that the slab is.

* `Params` — the arguments; `Params.ert` and `Params.slab` — the two parts.
* `objmemsz_slab`, `nobjs_slab` — the slots of a slab are `stride` bytes apart, and are as many as
  the ids of a leaf.
* `slabTrie` — the trie above the leaves, whose ids are the numbers of ranges.
-/

namespace Parsec.Nsptr

open Ns

/-- The arguments of `PS_NS_CREATE`, where frees are deferred, or of `PS_NSSLAB_CREATE`, the machine
and the configuration. A slot is a C object with its header, and a slab has a size.
Source: `ps_ns.h`, `PS_NS_CREATE`, `PS_NSSLAB_CREATE`, `__PS_NS_TYPE_CREATE` -/
structure Params where
  arch : Arch
  deferred : Bool
  nodesz : ℕ
  depth : ℕ
  order : ℕ
  leaforder : ℕ
  numCores : ℕ
  numLocalities : ℕ
  locality : ℕ → ℕ
  remoteBatch : ℕ
  qlistBatch : ℕ
  two_le_depth : 2 ≤ depth
  depth_lt : depth + 1 < 2 ^ 32
  order_le : order ≤ 30
  leaforder_le : leaforder ≤ 30
  bits_lt : order * (depth - 1) + leaforder < wordBits arch
  nodesz_le : nodesz + Slab.mheadSz arch + psWord arch ≤ 2 ^ (wordBits arch - 1)
  allocsz_lt : psRndpow2 arch (Slab.objmemsz arch nodesz) * 2 ^ leaforder < 2 ^ wordBits arch
  locality_lt : ∀ c, locality c < numLocalities
  qlistBatch_pos : 0 < qlistBatch

namespace Params

variable (p : Params)

/-- The bytes from one slot of a slab to the next.
Source: `ps_ns.h`, `__PS_NS_TYPE_CREATE`: `ps_rndpow2(__ps_slab_objmemsz((objsz)))` -/
def stride : ℕ := Nsptr.stride p.arch p.nodesz

/-- A slot's object with its header has at most half of the address space. -/
theorem nodesz_le_half : p.nodesz + Slab.mheadSz p.arch ≤ 2 ^ (wordBits p.arch - 1) :=
  le_of_add_le_left p.nodesz_le

/-- A slot has room for its header. -/
theorem mheadSz_le_stride : Slab.mheadSz p.arch ≤ p.stride :=
  le_of_add_le_left (Nsptr.mheadSz_le_stride p.nodesz_le_half)

/-- Slots have bytes. -/
theorem stride_pos : 0 < p.stride := Nsptr.stride_pos p.nodesz_le_half

/-- Rounding a slot up to whole words does not overflow. -/
theorem stride_add_le : p.stride + psWord p.arch ≤ 2 ^ wordBits p.arch :=
  Nsptr.stride_add_le p.nodesz_le_half

/-- Slots take up whole words. -/
theorem psRndup_stride : psRndup p.arch p.stride (psWord p.arch) = p.stride :=
  psRndup_of_dvd p.stride_pos p.stride_add_le (psWord_dvd_stride p.nodesz_le_half)

/-- The trie of a namespace. `last_sz` is a `u32_t`.
Source: `ps_ns.h`, `PS_NS_CREATE`, `PS_NSSLAB_CREATE`; `ps_ertrie.h`, `ERT_CONST_PARAMS` -/
def ert : NsGeom where
  arch := p.arch
  depth := p.depth
  order := p.order
  lastOrder := p.leaforder
  lastSz := toU32 p.stride
  depth_pos := by have := p.two_le_depth; omega
  depth_lt := p.depth_lt
  order_le := p.order_le
  lastOrder_le := p.leaforder_le
  lastSz_lt := toU32_lt _
  bits_lt := p.bits_lt
  two_le_depth := p.two_le_depth

/-- The slabs of a namespace.
Source: `ps_ns.h`, `__PS_NS_TYPE_CREATE` -/
def slab : Slab.Geom where
  arch := p.arch
  objSz := p.stride - Slab.mheadSz p.arch
  allocsz := p.stride * (1 <<< p.leaforder)
  headoff := 0
  numCores := p.numCores
  numLocalities := p.numLocalities
  locality := p.locality
  remoteBatch := p.remoteBatch
  qlistBatch := p.qlistBatch
  objSz_le := by
    rw [Nat.sub_add_cancel p.mheadSz_le_stride]
    exact p.stride_add_le
  allocsz_lt := by
    rw [Nat.one_shiftLeft]
    exact p.allocsz_lt
  fits := by
    unfold Slab.objmemsz
    rw [Nat.sub_add_cancel p.mheadSz_le_stride, p.psRndup_stride, Nat.add_zero, Nat.one_shiftLeft]
    exact Nat.le_mul_of_pos_right _ (Nat.two_pow_pos _)
  locality_lt := p.locality_lt
  qlistBatch_pos := p.qlistBatch_pos

/-- The slabs of a namespace have no header in their memory. -/
@[simp] theorem slab_headoff : p.slab.headoff = 0 := rfl

/-- The cores of a namespace are those of its slabs. -/
@[simp] theorem slab_numCores : p.slab.numCores = p.numCores := rfl

/-- The slots of a slab are `stride` bytes apart. -/
theorem objmemsz_slab : Slab.objmemsz p.slab.arch p.slab.objSz = p.stride := by
  show psRndup p.arch (p.stride - Slab.mheadSz p.arch + Slab.mheadSz p.arch) (psWord p.arch) = _
  rw [Nat.sub_add_cancel p.mheadSz_le_stride, p.psRndup_stride]

/-- A slab has as many slots as a leaf has ids. -/
theorem nobjs_slab : p.slab.nobjs = p.ert.range := by
  unfold Slab.Shape.nobjs
  rw [p.objmemsz_slab, slab_headoff, Nat.sub_zero]
  exact Nat.mul_div_cancel_left _ p.stride_pos

/-- The counters of slabs do not overflow. -/
theorem nobjs_lt : p.slab.nobjs < 2 ^ 32 := by
  rw [p.nobjs_slab, p.ert.range_eq]
  exact Nat.pow_lt_pow_right (by decide) (lt_of_le_of_lt p.leaforder_le (by decide))

/-- The slot with number `i` of the slab in block `b`. -/
theorem obj_slab (b i : ℕ) : p.slab.obj b i = ⟨b, i * p.stride⟩ := by
  unfold Slab.Shape.obj
  rw [p.objmemsz_slab, slab_headoff, Nat.zero_add]

end Params

end Parsec.Nsptr
