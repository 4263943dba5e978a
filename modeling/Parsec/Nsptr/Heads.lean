import Parsec.Nsptr.Geom
import Parsec.Slab.Mem

/-!
# The headers of slabs

Namespaces get the headers of their slabs from `slabhead`, a slab allocator of pages that all of them
share. Its own headers are in the pages.

* `Params.slabhead` — its slabs; `headFns` — `ps_slab_defalloc` and `ps_slab_deffree`, which get pages
  that are zeroed, and give them back.
* `Heads` — its state. The field `memory` of a header that is freed stays as it was, until the page is
  given back.
* `HeadsInv` — the invariant; `HeadsInv.alloc` and `HeadsInv.free` say what the two calls do.
* `Zeroed` — no header that can be allocated has memory.
-/

namespace Parsec.Nsptr

open Function Slab

/-! ## The allocator -/

/-- `sizeof(struct ps_slab)`, which is packed: a cache line, and four words.
Source: `ps_slab.h`, `struct ps_slab`; `plat/arch/x86/ps_arch_x86_common.h`, `PS_CACHE_LINE` -/
def slabSz (a : Arch) : ℕ := 64 + 4 * psWord a

/-- Source: `plat/arch/x86/ps_arch_x86_common.h`, `PS_PAGE_SIZE` -/
def pageSz : ℕ := 4096

/-- A header with its own header fits in the address space. -/
theorem slabSz_le (a : Arch) : slabSz a + mheadSz a + psWord a ≤ 2 ^ wordBits a := by
  cases a <;> decide

/-- So does a page. -/
theorem pageSz_lt (a : Arch) : pageSz < 2 ^ wordBits a := by
  cases a <;> decide

/-- A page has room for its header and another one. -/
theorem slabSz_fits (a : Arch) : objmemsz a (slabSz a) + slabSz a ≤ pageSz := by
  cases a <;> decide

/-- The slabs of headers.
Source: `ps_ns.c`, `PS_SLAB_CREATE_DEF(slabhead, sizeof(struct ps_slab))` -/
def Params.slabhead (p : Params) : Slab.Geom where
  arch := p.arch
  objSz := slabSz p.arch
  allocsz := pageSz
  headoff := slabSz p.arch
  numCores := p.numCores
  numLocalities := p.numLocalities
  locality := p.locality
  remoteBatch := p.remoteBatch
  qlistBatch := p.qlistBatch
  objSz_le := slabSz_le p.arch
  allocsz_lt := pageSz_lt p.arch
  fits := slabSz_fits p.arch
  locality_lt := p.locality_lt
  qlistBatch_pos := p.qlistBatch_pos

/-- The field `memory` of the headers that are not allocated. -/
abbrev Left := Obj → Option ℕ

/-- A page that `ps_plat_alloc` returns is zeroed, and is the slab with its address; or NULL is
returned.
Source: `ps_slab.c`, `ps_slab_defalloc`, `ps_slab_deffree` -/
def headFns : Slab.Fns Left (Option ℕ) where
  afn w _sz _coreid pg := match pg with
    | none => some (none, w)
    | some b => some (some b, { w with
        memory := update w.memory b (some b)
        tscFree := fun o => if o.blk = b then 0 else w.tscFree o
        slab := fun o => if o.blk = b then none else w.slab o
        next := fun o => if o.blk = b then none else w.next o
        env := fun o => if o.blk = b then none else w.env o })
  ffn w _s _sz _coreid := some w

/-- The allocator, and which headers are allocated; no function reads that.
Source: `ps_ns.c`, `slabhead` -/
structure Heads where
  w : World Left
  held : Obj → Bool

/-- The address of a header. -/
def headAddr (o : Obj) : ℕ := o.blk * pageSz + o.off

/-- The header at an address. -/
def headObj (s : ℕ) : Obj := ⟨s / pageSz, s % pageSz⟩

/-- A header in a page is at one address. -/
theorem headObj_headAddr {o : Obj} (h : o.off < pageSz) : headObj (headAddr o) = o := by
  have hpos : 0 < pageSz := by decide
  unfold headObj headAddr
  rw [Nat.add_comm, Nat.add_mul_div_right _ _ hpos, Nat.div_eq_of_lt h, Nat.zero_add,
    Nat.add_mul_mod_self_right, Nat.mod_eq_of_lt h]

/-- Different addresses are of different headers. -/
theorem headObj_inj {s s' : ℕ} (h : headObj s = headObj s') : s = s' := by
  obtain ⟨hdiv, hmod⟩ := Obj.mk.inj h
  rw [← Nat.div_add_mod s pageSz, hdiv, hmod, Nat.div_add_mod]

/-- Whether the header at an address is allocated. -/
def Heads.has (h : Heads) (s : ℕ) : Prop := h.held (headObj s) = true

/-! ## The invariant -/

section Invariant

variable {p : Params} {h : Heads} {w : World Left} {c : ℕ} {pg : Option ℕ} {a : Obj}

/-- Pages are what `ps_plat_alloc` has returned. -/
def OwnPages (w : World Left) : Prop := ∀ s, w.slabs s = true → w.memory s = some s

/-- **The invariant**: that of the slab allocator, where the headers that are allocated are held. -/
structure HeadsInv (p : Params) (h : Heads) : Prop where
  inv : ∃ cont, Inv p.slabhead h.w (fun _ => True) (fun _ => none) {o | h.held o = true} cont
  pages : OwnPages h.w

/-- No header that can be allocated has memory. -/
def Zeroed (p : Params) (held : Obj → Bool) (w : World Left) : Prop :=
  ∀ s o, InSlab p.slabhead w s o → held o = false → w.env o = none

/-- A page that is returned is not in use. -/
def PageFree (p : Params) (h : Heads) (c : ℕ) (pg : Option ℕ) : Prop :=
  ∀ w, allocPrep p.slabhead headFns h.w c = some w → w.flist c = none →
    ∀ b, pg = some b → w.slabs b = false

/-- Pages have few headers. -/
theorem countFits_slabhead (p : Params) : CountFits p.slabhead :=
  .inl ((Nat.div_le_self ..).trans_lt ((Nat.sub_le ..).trans_lt (show pageSz < 2 ^ 32 by decide)))

/-- A header is in its page. -/
theorem off_lt_pageSz {s : ℕ} {o : Obj} (hs : InSlab p.slabhead w s o) : o.off < pageSz := by
  obtain ⟨-, b, i, -, hi, rfl⟩ := hs
  have hle := obj_nobjs_le p.slabhead b
  have hpos := objmemsz_pos p.slabhead
  have hmul := Nat.mul_lt_mul_of_pos_right hi hpos
  exact (Nat.add_lt_add_left hmul _).trans_le hle

/-- `ps_slab_defalloc` and `ps_slab_deffree` are what the allocator relies on. -/
theorem backing_headFns (p : Params) : Backing p.slabhead headFns
    (fun w _ pg => ∀ b, pg = some b → w.slabs b = false) OwnPages := by
  constructor
  · rintro w w' ⟨hm, -, -, hs, -⟩ hK s h
    rw [hm]
    exact hK s (hs ▸ h)
  · intro w s sz c hK hE
    refine ⟨_, rfl, ?_, fun s' h => hK s' (update_false_iff.mp h).2⟩
    constructor <;> intros <;> rfl
  · rintro w sz c (_ | b) hK hA
    · refine ⟨none, w, rfl, ?_, hK⟩
      constructor <;> intros <;> rfl
    · have hb := hA b rfl
      have hne : ∀ s', w.slabs s' = true → s' ≠ b := fun s' h => ne_of_not_slabs hb h
      have hblk : ∀ s' o, InSlab p.slabhead w s' o → o.blk ≠ b := by
        rintro s' o ⟨hs', b', i, hb', -, rfl⟩ he
        rw [hK s' hs'] at hb'
        exact hne s' hs' ((Option.some.inj hb').trans he)
      refine ⟨some b, _, rfl, ?_, ⟨hb, b, update_self .., fun s' hs' => ?_, fun i => if_pos rfl⟩,
        fun s' hs' => ?_⟩
      · constructor
        · exact fun s' o ho => if_neg (hblk s' o ho)
        · exact fun s' o ho => if_neg (hblk s' o ho)
        · exact fun s' o ho => if_neg (hblk s' o ho)
        · exact fun s' hs' => update_of_ne (hne s' hs') ..
        all_goals intros; rfl
      · show update w.memory b (some b) s' ≠ some b
        rw [update_of_ne (hne s' hs'), hK s' hs']
        exact fun he => hne s' hs' (Option.some.inj he)
      · show update w.memory b (some b) s' = some s'
        rcases update_true_iff.mp hs' with rfl | hs'
        · exact update_self ..
        · rw [update_of_ne (hne s' hs')]
          exact hK s' hs'

/-- What is kept besides: the headers that are not in `held` have no memory. -/
theorem backing_zeroed (p : Params) (held : Obj → Bool) : Backing p.slabhead headFns
    (fun w _ pg => ∀ b, pg = some b → w.slabs b = false) fun w => OwnPages w ∧ Zeroed p held w := by
  refine (backing_headFns p).and (fun _ _ h => h) ?_ ?_ ?_
  · intro w w' hw hZ s o ho hh
    have ho : InSlab p.slabhead w s o := by
      unfold InSlab at *
      rwa [hw.slabs, hw.memory] at ho
    rw [hw.env]
    exact hZ s o ho hh
  · rintro w w' s sz c - hZ - hrun s' o ⟨hs', ho⟩ hh
    cases hrun
    exact hZ s' o ⟨(update_false_iff.mp hs').2, ho⟩ hh
  · intro w w' sz c pg r hK hZ hA hrun
    rcases pg with _ | b
    · cases hrun
      exact hZ
    · cases hrun
      rintro s o ⟨hs, b', i, hb', hi, rfl⟩ hh
      show (if b' = b then none else w.env (p.slabhead.obj b' i)) = none
      by_cases he : b' = b
      · exact if_pos he
      · rw [if_neg he]
        have hne : s ≠ b := by
          rintro rfl
          have hb' : update w.memory s (some s) s = some b' := hb'
          rw [update_self] at hb'
          exact he (Option.some.inj hb').symm
        have hb' : update w.memory b (some b) s = some b' := hb'
        rw [update_of_ne hne] at hb'
        refine hZ s _ ⟨?_, b', i, hb', hi, rfl⟩ hh
        exact (update_true_iff.mp hs).resolve_left hne

/-! ## The calls -/

/-- **`ps_slab_alloc_slabhead`**: what it returns was not allocated, and is then. -/
theorem HeadsInv.alloc {r : Option Obj} (hI : HeadsInv p h) (hc : c < p.numCores)
    (hpg : PageFree p h c pg) (hrun : memAlloc p.slabhead headFns h.w c pg = some (r, w)) :
    (r = none ∧ HeadsInv p ⟨w, h.held⟩) ∨
      ∃ a s, r = some a ∧ h.held a = false ∧ InSlab p.slabhead w s a ∧
        HeadsInv p ⟨w, update h.held a true⟩ := by
  obtain ⟨⟨cont, hI⟩, hK⟩ := hI
  rcases memAlloc_spec (backing_headFns p) (countFits_slabhead p) hc hI hK hpg hrun with
    ⟨rfl, cont', hI', hK', -⟩ | ⟨a, cont', rfl, hoff, hI', hK', -⟩
  · exact .inl ⟨rfl, ⟨cont', hI'⟩, hK'⟩
  · obtain ⟨s, hs⟩ := (hI'.members.held a (Set.mem_insert a _)).inSlab
    refine .inr ⟨a, s, rfl, Bool.eq_false_of_not_eq_true hoff, hs, ⟨cont', ?_⟩, hK'⟩
    rwa [← setOf_update_true] at hI'

/-- It returns, where the headers that wait for the core are counted. -/
theorem HeadsInv.alloc_ne_none (hI : HeadsInv p h) (hc : c < p.numCores) (hpg : PageFree p h c pg)
    (hC : Counted h.w c) : memAlloc p.slabhead headFns h.w c pg ≠ none := by
  obtain ⟨⟨cont, hI⟩, hK⟩ := hI
  exact memAlloc_ne_none (backing_headFns p) (countFits_slabhead p) hc hI hK hpg hC

/-- The headers that it does not return have no memory either. -/
theorem Zeroed.alloc {r : Option Obj} (hZ : Zeroed p h.held h.w) (hI : HeadsInv p h)
    (hc : c < p.numCores) (hpg : PageFree p h c pg)
    (hrun : memAlloc p.slabhead headFns h.w c pg = some (r, w)) : Zeroed p h.held w := by
  obtain ⟨⟨cont, hI⟩, hK⟩ := hI
  rcases memAlloc_spec (backing_zeroed p h.held) (countFits_slabhead p) hc hI ⟨hK, hZ⟩ hpg hrun with
    ⟨-, -, -, hK', -⟩ | ⟨-, -, -, -, -, hK', -⟩
  · exact hK'.2
  · exact hK'.2

/-- Nor do they once one more header is allocated. -/
theorem Zeroed.take (hZ : Zeroed p h.held w) (a : Obj) : Zeroed p (update h.held a true) w := by
  intro s o hs hh
  have hne : o ≠ a := by
    rintro rfl
    rw [update_self] at hh
    cases hh
  rw [update_of_ne hne] at hh
  exact hZ s o hs hh

/-- The invariant does not look at `memory`. -/
theorem HeadsInv.setLeft (hI : HeadsInv p h) (e : Left) : HeadsInv p ⟨{ h.w with env := e }, h.held⟩ := by
  obtain ⟨⟨cont, hI⟩, hK⟩ := hI
  have hU : Untouched p.slabhead h.w { h.w with env := e } := by
    constructor <;> intros <;> rfl
  exact ⟨⟨cont, hU.inv hI⟩, hK⟩

/-- **`ps_slab_free_slabhead`** does not fail. -/
theorem HeadsInv.free (hI : HeadsInv p h) (hc : c < p.numCores) (ha : h.held a = true) :
    ∃ w, memFree p.slabhead headFns h.w a c = some w ∧ HeadsInv p ⟨w, update h.held a false⟩ := by
  obtain ⟨⟨cont, hI⟩, hK⟩ := hI
  obtain ⟨w, cont', hrun, hI', hK', -⟩ := memFree_spec (backing_headFns p) (countFits_slabhead p) hI
    hK ha hc fun _ _ => .inr trivial
  refine ⟨w, hrun, ⟨cont', ?_⟩, hK'⟩
  rwa [← setOf_update_false] at hI'

/-- The other headers of its page are on the freelist of the page, which is of core `c`. -/
def Alone (p : Params) (w : World Left) (a : Obj) (c : ℕ) : Prop :=
  ∃ s ∈ w.slab a, w.coreid s = c ∧ w.nfree s + 1 = p.slabhead.nobjs

/-- A page is given back with its last header. -/
theorem HeadsInv.not_inSlab (hI : HeadsInv p h) (ha : h.held a = true) (hA : Alone p h.w a c)
    (hrun : memFree p.slabhead headFns h.w a c = some w) (s : ℕ) : ¬ InSlab p.slabhead w s a := by
  obtain ⟨⟨cont, hI⟩, hK⟩ := hI
  obtain ⟨⟨s₀, hs₀⟩, ht, -⟩ := hI.members.held a ha
  obtain ⟨s₁, hs₁, hcore, hn⟩ := hA
  obtain rfl : s₀ = s₁ := Option.some.inj ((hI.slabs.slab s₀ a hs₀).symm.trans hs₁)
  have hfit : toU32 p.slabhead.nobjs = p.slabhead.nobjs := toU32_of_lt
    ((Nat.div_le_self ..).trans_lt ((Nat.sub_le ..).trans_lt (show pageSz < 2 ^ 32 by decide)))
  have hself : (pushFree h.w a s₀).nfree s₀ = toU32 p.slabhead.nobjs :=
    (update_self ..).trans (hn.trans hfit.symm)
  have hw : w.slabs = update h.w.slabs s₀ false ∧ w.memory = h.w.memory := by
    unfold memFree at hrun
    rw [if_pos ⟨p.slabhead.fits, ht⟩, hs₁] at hrun
    simp only [hcore, ne_eq, not_true_eq_false, if_false, hself, if_true] at hrun
    cases hrun
    unfold freelistRem
    split <;> exact ⟨rfl, rfl⟩
  rintro ⟨hs, b, i, hb, -, he⟩
  obtain ⟨hs₀, b₀, i₀, hb₀, -, he₀⟩ := hs₀
  rw [hw.1, update_false_iff] at hs
  rw [hw.2, hK s hs.2] at hb
  rw [hK s₀ hs₀] at hb₀
  have hbb := (obj_inj (he.symm.trans he₀)).1
  exact hs.1 ((Option.some.inj hb).trans (hbb.trans (Option.some.inj hb₀).symm))

/-- A header that is freed has no memory, or its page is given back. -/
theorem Zeroed.free (hZ : Zeroed p h.held h.w) (hI : HeadsInv p h) (hc : c < p.numCores)
    (ha : h.held a = true) {m : Option ℕ} (hm : m = none ∨ Alone p h.w a c)
    (hrun : memFree p.slabhead headFns { h.w with env := update h.w.env a m } a c = some w) :
    Zeroed p (update h.held a false) w := by
  have hI₁ := hI.setLeft (update h.w.env a m)
  obtain ⟨⟨cont, hI'⟩, hK⟩ := hI₁
  have hZ₁ : Zeroed p h.held { h.w with env := update h.w.env a m } := by
    intro s o hs hh
    have hne : o ≠ a := by
      rintro rfl
      rw [ha] at hh
      cases hh
    exact (update_of_ne hne ..).trans (hZ s o hs hh)
  rcases hm with rfl | hA
  · have hZ₂ : Zeroed p (update h.held a false) { h.w with env := update h.w.env a none } := by
      intro s o hs hh
      by_cases he : o = a
      · rw [he]
        exact update_self ..
      · rw [update_of_ne he] at hh
        exact hZ₁ s o hs hh
    obtain ⟨w', -, hrun', -, hK', -⟩ := memFree_spec (backing_zeroed p _) (countFits_slabhead p) hI'
      ⟨hK, hZ₂⟩ ha hc fun _ _ => .inr trivial
    obtain rfl : w' = w := Option.some.inj (hrun'.symm.trans hrun)
    exact hK'.2
  · obtain ⟨w', -, hrun', -, hK', -⟩ := memFree_spec (backing_zeroed p _) (countFits_slabhead p) hI'
      ⟨hK, hZ₁⟩ ha hc fun _ _ => .inr trivial
    obtain rfl : w' = w := Option.some.inj (hrun'.symm.trans hrun)
    have hout := (hI.setLeft (update h.w.env a m)).not_inSlab ha hA hrun
    intro s o hs hh
    have hne : o ≠ a := by
      rintro rfl
      exact hout s hs
    rw [update_of_ne hne] at hh
    exact hK'.2 s o hs hh

end Invariant

/-- A new allocator of headers: no header is allocated.
Source: `ps_ns.c`, `ps_ns_init`: `ps_slab_init_slabhead` -/
structure HeadsInit (h : Heads) : Prop where
  w : ∃ w, h.w = slabptrInit w
  held : ∀ o, h.held o = false

/-- A new allocator has no pages. -/
theorem HeadsInit.inv {h : Heads} (hh : HeadsInit h) (p : Params) :
    HeadsInv p h ∧ Zeroed p h.held h.w := by
  obtain ⟨⟨w, hw⟩, hheld⟩ := hh
  have hset : {o | h.held o = true} = ∅ := by simp [hheld]
  have hslabs : ∀ s, h.w.slabs s ≠ true := by
    intro s hs
    rw [hw] at hs
    cases hs
  refine ⟨⟨⟨fun _ => [], ?_⟩, fun s hs => absurd hs (hslabs s)⟩,
    fun s o hs => absurd hs.1 (hslabs s)⟩
  rw [hset, hw]
  exact inv_new (fun _ => rfl) (fun _ => rfl) (fun _ => rfl) (fun _ => rfl) (fun _ => rfl)
    (fun _ => rfl) (fun _ => rfl) (fun _ => rfl) fun c hc => by cases hc

end Parsec.Nsptr
