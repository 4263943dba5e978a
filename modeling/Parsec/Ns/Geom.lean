import Parsec.Ertrie.Rep

/-!
# The trie of a namespace

What `PS_NS_CREATE` and `PS_NSSLAB_CREATE` pass to `ERT_CREATE`: internal nodes come from
`ps_plat_alloc`, and the leaf nodes are the memory of the slabs, so that a leaf entry is the header
of an object.

* `NsGeom` — the parameters of a namespace, its `range` of ids per slab and its greatest id.
* `nsFns` — the functions passed to the trie.
* `slotPath` — the path from the root to the entry that leads to the leaf of an id; ids of one
  range share it, and ids of different ranges do not (`slotPath_eq_iff`).
-/

namespace Parsec.Ns

open Lib Ertrie

/-- The parameters of a namespace: a trie of at least two levels, whose leaf order is the `nobjord`
of its slabs.
Source: `ps_ns.h`, `PS_NS_CREATE`, `PS_NSSLAB_CREATE` -/
structure NsGeom extends Ertrie.Geom where
  two_le_depth : 2 ≤ depth

namespace NsGeom

variable (g : NsGeom)

/-- The constants of the namespace's trie. -/
def consts : Consts := g.toGeom.consts

/-- The ids of one slab.
Source: `ps_ns.h`, `ps_ns_init_##name`: `1<<nobjord` -/
def range : ℕ := 1 <<< g.lastOrder

/-- `ns_info.desc_max`.
Source: `ps_ns.h`, `PS_NS_CREATE`: `name##_maxid()` -/
def descMax : ℕ := ertMaxid g.consts

/-- The internal levels below the root: the hops from the root to the node whose entries lead to
leaves. -/
def inner : ℕ := g.depth - 2

/-- The hops of a lookup: those between internal nodes, and one to the leaf. -/
theorem hops_eq : g.hops = g.inner + 1 := by
  have := g.two_le_depth
  unfold Geom.hops inner
  omega

/-- The depth, by the levels of internal nodes below the root. -/
theorem depth_eq' : g.depth = g.inner + 2 := by
  have := g.two_le_depth
  unfold inner
  omega

/-- The ids of a leaf, as a power of two. -/
theorem range_eq : g.range = 2 ^ g.lastOrder := Nat.one_shiftLeft _

/-- A leaf has ids. -/
theorem range_pos : 0 < g.range := by
  rw [range_eq]
  exact Nat.two_pow_pos _

/-- The ids of a namespace, as a power of two. -/
theorem descMax_eq : g.descMax = 2 ^ (g.order * g.hops + g.lastOrder) := by
  have h : ∀ id, id < g.descMax ↔ id < 2 ^ (g.order * g.hops + g.lastOrder) :=
    fun _ => lt_ertMaxid_iff g.toGeom
  exact le_antisymm (not_lt.mp fun hlt => lt_irrefl _ ((h _).mp hlt))
    (not_lt.mp fun hlt => lt_irrefl _ ((h _).mpr hlt))

/-- The ids below the greatest come in whole ranges. -/
theorem range_dvd_descMax : g.range ∣ g.descMax := by
  rw [range_eq, descMax_eq]
  exact pow_dvd_pow 2 (Nat.le_add_left ..)

/-- The greatest id fits the machine word. -/
theorem descMax_lt : g.descMax < 2 ^ wordBits g.arch := by
  rw [descMax_eq]
  exact Nat.pow_lt_pow_right (by decide) g.bits_lt

/-- Machine words come in whole ranges. -/
theorem range_dvd_word : g.range ∣ 2 ^ wordBits g.arch := by
  rw [range_eq]
  exact pow_dvd_pow 2 (by have := g.bits_lt; omega)

end NsGeom

/-- A namespace of two levels: two slabs of two objects, of 32 bytes each. -/
def twoLevels : NsGeom where
  arch := .x86_64
  depth := 2
  order := 1
  lastOrder := 1
  lastSz := 32
  depth_pos := by decide
  depth_lt := by decide
  order_le := Nat.le_add_left _ _
  lastOrder_le := Nat.le_add_left _ _
  lastSz_lt := by decide
  bits_lt := by decide
  two_le_depth := by decide

/-! ## The functions -/

/-- The functions a namespace passes: `memctxt` is the slab memory that becomes a leaf node, beside
what says which calls of `ps_plat_alloc` succeed. `isfree` reads the header at an address.
Source: `ps_ns.h`, `__ps_ns_alloc_intern`, `__ps_ns_setleaf_intern`, `__ps_ns_getleaf_intern`,
`__ps_ns_resolve_intern`, `__ps_ns_init_intern` -/
def nsFns (a : Arch) (isfree : Addr → Option Bool) : Fns (Ptr × (ℕ → Bool)) where
  initfn m e isleaf := if isleaf then some m else (defFns a).initfn m e false
  allocfn m ctx sz isleaf := if isleaf then (ctx.1, m) else (defFns a).allocfn m ctx.2 sz false
  setleaffn _ _ _ := none
  getleaffn _ _ := none
  resolvefn _ e leaf := if leaf then (isfree e).map fun b => !b else some true

variable {g : NsGeom} {isfree : Addr → Option Bool}

/-- Internal nodes are initialised as in any trie. -/
theorem ertInit_internal (m : Mem) (p : Ptr) :
    ertInit g.consts (nsFns g.arch isfree) m p false = ertInit g.consts g.toGeom.fns m p false := by
  have hloop : ∀ a k m, initLoop g.consts (nsFns g.arch isfree) a false k m =
      initLoop g.consts g.toGeom.fns a false k m := by
    intro a k m
    induction k with
    | zero => rfl
    | succ k ih =>
        simp only [initLoop, ih]
        rfl
  cases p with
  | none => rfl
  | some a => exact hloop a _ m

/-- A leaf node is initialised by the slab allocator. -/
theorem ertInit_leaf (m : Mem) (a : Addr) :
    ertInit g.consts (nsFns g.arch isfree) m (some a) true = some m := by
  have hloop : ∀ k, initLoop g.consts (nsFns g.arch isfree) a true k m = some m := by
    intro k
    induction k with
    | zero => rfl
    | succ k ih =>
        rw [initLoop, ih]
        rfl
  exact hloop _

/-! ## Paths -/

/-- The path from the root to the entry that leads to the leaf of an id. -/
def slotPath (g : NsGeom) (id : ℕ) : List ℕ := path g.consts id (g.inner + 1)

/-- Ids of one range share their path, up to the last entry. -/
theorem path_congr {id id' : ℕ} (h : id / g.range = id' / g.range) (k : ℕ) :
    path g.consts id k = path g.consts id' k := by
  have hshift : id >>> g.lastOrder = id' >>> g.lastOrder := by
    rwa [Nat.shiftRight_eq_div_pow, Nat.shiftRight_eq_div_pow, ← g.range_eq]
  refine List.map_congr_left fun i _ => ?_
  rw [hop_eq_slice, hop_eq_slice]
  exact congrArg (fun x => slice g.order x (g.depth - i - 2)) hshift

/-- Ids of different ranges have different paths to their leaves. -/
theorem slotPath_inj {id id' : ℕ} (hid : id < g.descMax) (hid' : id' < g.descMax)
    (h : slotPath g id = slotPath g id') : id / g.range = id' / g.range := by
  rw [g.descMax_eq, g.hops_eq] at hid hid'
  have hlt : ∀ x, x < 2 ^ (g.order * (g.inner + 1) + g.lastOrder) →
      x >>> g.lastOrder < 2 ^ (g.order * (g.inner + 1)) := by
    intro x hx
    rwa [Nat.shiftRight_eq_div_pow, Nat.div_lt_iff_lt_mul (Nat.two_pow_pos _), ← pow_add]
  have heq : id >>> g.lastOrder = id' >>> g.lastOrder := by
    refine eq_of_slices (hlt id hid) (hlt id' hid') fun j hj => ?_
    have hhop := List.map_inj_left.mp h (g.inner - j) (List.mem_range.mpr (by omega))
    rw [hop_eq_slice, hop_eq_slice] at hhop
    have hdepth : g.consts.depth - (g.inner - j) - 2 = j := by
      have : g.consts.depth = g.inner + 2 := g.depth_eq'
      omega
    rw [hdepth] at hhop
    exact hhop
  rwa [Nat.shiftRight_eq_div_pow, Nat.shiftRight_eq_div_pow, ← g.range_eq] at heq

/-- An id is in the range that starts at a multiple `start` of the range iff they agree above the
leaf bits. -/
theorem div_range_eq_iff {id start : ℕ} (hs : g.range ∣ start) :
    id / g.range = start / g.range ↔ start ≤ id ∧ id < start + g.range := by
  obtain ⟨k, rfl⟩ := hs
  rw [Nat.mul_div_cancel_left _ g.range_pos, Nat.div_eq_iff g.range_pos]
  rw [Nat.mul_comm k g.range]
  have := g.range_pos
  omega

/-- A range that starts below the greatest id ends at or below it. -/
theorem add_range_le {start : ℕ} (hs : g.range ∣ start) (hlt : start < g.descMax) :
    start + g.range ≤ g.descMax := by
  obtain ⟨k, rfl⟩ := hs
  obtain ⟨j, hj⟩ := g.range_dvd_descMax
  rw [hj] at hlt ⊢
  have hk : k < j := Nat.lt_of_mul_lt_mul_left hlt
  rw [← Nat.mul_succ]
  exact Nat.mul_le_mul_left _ hk

/-! ## The freelist of headers -/

/-- Adding a slab to the freelist of a namespace, which is the list of its ring, from the head: it
goes behind the head, and becomes the head.
Source: `ps_slab.h`, `__slab_freelist_add` -/
def flAdd (fl : List ℕ) (s : ℕ) : List ℕ :=
  match fl with
  | [] => [s]
  | h :: t => s :: (t ++ [h])

/-- What is added to a freelist is on it. -/
theorem flAdd_perm (fl : List ℕ) (s : ℕ) : (flAdd fl s).Perm (s :: fl) := by
  cases fl with
  | nil => exact .refl _
  | cons h t => exact .cons _ (List.perm_append_singleton h t)

end Parsec.Ns
