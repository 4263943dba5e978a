import Mathlib.Data.List.Perm.Subperm
import Mathlib.Data.Set.Insert
import Parsec.Lib.Chain
import Parsec.Slab.Freelist

/-!
# The invariant of the slab allocator

Every object of a slab is held, by a caller or by a call in progress, or is on exactly one of the
lists that share the `next` field (`Key`).

* `Slabs`, `Freelists`, `Members`, `Counters` — the groups of the invariant `Inv`. The lists are
  given by what is on them (`cont`), `H` is the set of objects held, and `P` says which cores free
  objects of other cores.
* `Backing` — what the functions that supply slab memory are relied on for, with the invariant `K`
  of their own part of the world.
-/

namespace Parsec.Slab

open Function Lib

/-! ## Lists of objects -/

/-- The lists of objects: the freelist of a slab, the quiescence queue of a core, a list of remotely
freed objects, and what a core has left of such a list while it drains it. -/
inductive Key
  | free (s : ℕ)
  | queue (c : ℕ)
  | remote (k : ℕ × ℕ × ℕ)
  | drain (c : ℕ)
  deriving DecidableEq

section Defs

variable {ε : Type} (g : Geom) (w : World ε)

/-- Where the lists start. A slab of a single object has no freelist that is ever read. -/
def heads (h : ℕ → Option Obj) : Key → Option Obj
  | .free s => if w.slabs s = true ∧ 2 ≤ g.nobjs then w.freelist s else none
  | .queue c => w.qscHead c
  | .remote k => w.remoteFrees k
  | .drain c => h c

/-- An object of a slab that is not released. -/
def InSlab (s : ℕ) (o : Obj) : Prop :=
  w.slabs s = true ∧ ∃ b i, w.memory s = some b ∧ i < g.nobjs ∧ o = g.obj b i

/-! ## The groups -/

/-- The slabs: each has memory of its own, and its objects lead to it. A core counts its slabs. -/
structure Slabs : Prop where
  memory : ∀ s, w.slabs s = true → ∃ b, w.memory s = some b
  inj : ∀ s s' b, w.slabs s = true → w.slabs s' = true → w.memory s = some b →
    w.memory s' = some b → s = s'
  slab : ∀ s o, InSlab g w s o → w.slab o = some s
  core : ∀ s, w.slabs s = true → w.coreid s < g.numCores
  owned : ∀ c, ∃ l : List ℕ, l.Nodup ∧ (∀ s, s ∈ l ↔ w.slabs s = true ∧ w.coreid s = c) ∧
    l.length = w.nslabs c

/-- The freelists of slabs: the slabs of a core that have a free object. The others lead to
themselves. -/
structure Freelists (cont : Key → List Obj) : Prop where
  nfree : ∀ s, w.slabs s = true → (cont (.free s)).length = w.nfree s
  lt : g.nobjs < 2 ^ 32 → ∀ s, w.slabs s = true → w.nfree s < g.nobjs
  lists : OnLists w.listN w.listP w.flist fun c s =>
    w.slabs s = true ∧ w.coreid s = c ∧ w.nfree s ≠ 0
  single : ∀ s, w.slabs s = true → w.nfree s = 0 → w.listN s = s ∧ w.listP s = s

/-- What is known of an object on a list. The header of an object on its way home reads as not
free. -/
def Listed (P : ℕ → Prop) (k : Key) (o : Obj) : Prop :=
  ∃ s, InSlab g w s o ∧
    match k with
    | .free s' => s = s' ∧ w.tscFree o ≠ 0
    | .queue c => c < g.numCores ∧ (w.coreid s = c ∨ P c) ∧ w.tscFree o ≠ 0
    | .remote k => w.coreid s = k.1 ∧ w.tscFree o = 0 ∧
        ∃ c, c < g.numCores ∧ P c ∧ c ≠ k.1 ∧ k = remoteKey g c k.1
    | .drain c => w.coreid s = c ∧ w.tscFree o = 0

/-- An object that is held: it is of a slab, and its header reads as not free. -/
structure Held (o : Obj) : Prop where
  inSlab : ∃ s, InSlab g w s o
  tscFree : w.tscFree o = 0
  next : w.next o = none

/-- Where objects are. -/
structure Members (P : ℕ → Prop) (H : Set Obj) (cont : Key → List Obj) : Prop where
  listed : ∀ k, ∀ o ∈ cont k, Listed g w P k o
  held : ∀ o ∈ H, Held g w o
  off : ∀ o ∈ H, ∀ k, o ∉ cont k
  total : ∀ s o, InSlab g w s o → o ∈ H ∨ ∃ k, o ∈ cont k

/-- The ends and lengths of queues, and the tokens. -/
structure Counters (cont : Key → List Obj) : Prop where
  tail : ∀ c, w.qscTail c = (cont (.queue c)).getLast?
  cnt : ∀ c, w.qmemcnt c = (cont (.queue c)).length
  target : ∀ c, w.ps c = true → g.qlistBatch ≤ w.qmemtarget c
  pushed : ∀ k, (cont (.remote k)).length ≤ w.pushed
  token : ∀ c, w.remoteToken c < g.numLocalities

/-- **The invariant.** -/
structure Inv (P : ℕ → Prop) (h : ℕ → Option Obj) (H : Set Obj) (cont : Key → List Obj) : Prop where
  chains : Chains w.next (heads g w h) cont
  slabs : Slabs g w
  freelists : Freelists g w cont
  members : Members g w P H cont
  counters : Counters g w cont

end Defs

/-! ## Geometry -/

section Geometry

variable (g : Geom)

/-- An object has bytes. -/
theorem objmemsz_pos : 0 < objmemsz g.arch g.objSz := by
  have hle := g.objSz_le
  have hpos : 0 < g.objSz + mheadSz g.arch := by
    unfold mheadSz
    omega
  have := (psRndup_spec hpos hle).2.1
  unfold objmemsz
  omega

/-- A slab has room for an object. -/
theorem nobjs_pos : 0 < g.nobjs := by
  have hfits := g.fits
  exact Nat.div_pos (by omega) (objmemsz_pos g)

/-- The assertion of `__ps_slab_mem_alloc`. -/
theorem objSz_le_allocsz (g : Geom) : g.objSz + g.headoff ≤ g.allocsz := by
  have hle := g.objSz_le
  have hpos : 0 < g.objSz + mheadSz g.arch := by
    unfold mheadSz
    omega
  have hle' := (psRndup_spec hpos hle).2.1
  have hfits := g.fits
  unfold objmemsz at hfits
  omega

/-- The objects of a slab end where its memory does, or before. -/
theorem obj_nobjs_le (b : ℕ) : (g.obj b g.nobjs).off ≤ g.allocsz := by
  have hmul : g.nobjs * objmemsz g.arch g.objSz ≤ g.allocsz - g.headoff :=
    Nat.div_mul_le_self ..
  have hfits := g.fits
  show g.headoff + g.nobjs * objmemsz g.arch g.objSz ≤ g.allocsz
  omega

variable {g}

/-- Objects are different in different blocks, and at different places. -/
theorem obj_inj {b b' i i' : ℕ} (h : g.obj b i = g.obj b' i') : b = b' ∧ i = i' := by
  unfold Shape.obj at h
  rw [Obj.mk.injEq] at h
  exact ⟨h.1, Nat.eq_of_mul_eq_mul_right (objmemsz_pos g) (by omega)⟩

end Geometry

/-! ## What steps leave alone -/

section Congr

variable {ε : Type} {g : Geom} {w w' : World ε} {P : ℕ → Prop} {hd : ℕ → Option Obj} {H : Set Obj}
  {cont cont' : Key → List Obj}

/-- Worlds that agree on what a supplier of slab memory looks at. -/
structure SameEnv (w w' : World ε) : Prop where
  memory : w'.memory = w.memory
  start : w'.start = w.start
  end_ : w'.end_ = w.end_
  slabs : w'.slabs = w.slabs
  env : w'.env = w.env

/-- Worlds that agree on the slabs. -/
structure SameSlabs (w w' : World ε) : Prop extends SameEnv w w' where
  slab : w'.slab = w.slab
  coreid : w'.coreid = w.coreid
  nslabs : w'.nslabs = w.nslabs

/-- An object is in one slab. -/
theorem Slabs.eq_of_inSlab (hS : Slabs g w) {s s' : ℕ} {o : Obj} (h : InSlab g w s o)
    (h' : InSlab g w s' o) : s = s' :=
  Option.some.inj ((hS.slab s o h).symm.trans (hS.slab s' o h'))

namespace SameSlabs

/-- What is in a slab depends on the slabs only. -/
theorem inSlab (hw : SameSlabs w w') {s : ℕ} {o : Obj} :
    InSlab g w' s o ↔ InSlab g w s o := by
  unfold InSlab
  rw [hw.slabs, hw.memory]

/-- The slabs are well formed where nothing of them changes. -/
theorem slabs_of (hw : SameSlabs w w') (hS : Slabs g w) : Slabs g w' := by
  constructor
  · rw [hw.slabs, hw.memory]
    exact hS.memory
  · rw [hw.slabs, hw.memory]
    exact hS.inj
  · intro s o ho
    rw [hw.slab]
    exact hS.slab s o (hw.inSlab.mp ho)
  · rw [hw.slabs, hw.coreid]
    exact hS.core
  · rw [hw.slabs, hw.coreid, hw.nslabs]
    exact hS.owned

/-- An object is on a list where neither it nor its slab changes. -/
theorem listed (hw : SameSlabs w w') {k : Key} {o : Obj} (ht : w'.tscFree o = w.tscFree o)
    (ho : Listed g w P k o) : Listed g w' P k o := by
  obtain ⟨s, hs, h⟩ := ho
  refine ⟨s, hw.inSlab.mpr hs, ?_⟩
  rw [hw.coreid, ht]
  exact h

/-- An object is held where neither it nor its slab changes. -/
theorem held (hw : SameSlabs w w') {o : Obj} (ht : w'.tscFree o = w.tscFree o)
    (hx : w'.next o = w.next o) (ho : Held g w o) : Held g w' o := by
  obtain ⟨⟨s, hs⟩, h₁, h₂⟩ := ho
  exact ⟨⟨s, hw.inSlab.mpr hs⟩, ht.trans h₁, hx.trans h₂⟩

end SameSlabs

/-- An object that is held, or on a list, is of a slab in use. -/
theorem Members.exists_inSlab (hM : Members g w P H cont) {o : Obj} (h : o ∈ H ∨ ∃ k, o ∈ cont k) :
    ∃ s, InSlab g w s o := by
  rcases h with h | ⟨k, hk⟩
  · exact (hM.held o h).inSlab
  · obtain ⟨s, hs, -⟩ := hM.listed k o hk
    exact ⟨s, hs⟩

/-- An object that is held goes on a list. -/
theorem Members.put (hM : Members g w P H cont) (hw : SameSlabs w w') {n : Obj} (hn : n ∈ H)
    {k : Key} {l : List Obj} (hl : ∀ a, a ∈ l ↔ a = n ∨ a ∈ cont k)
    (ht : ∀ o, o ≠ n → w'.tscFree o = w.tscFree o)
    (hx : ∀ o ∈ H, o ≠ n → w'.next o = w.next o) (hon : Listed g w' P k n) :
    Members g w' P (H \ {n}) (update cont k l) := by
  have hmem : ∀ k' o, o ∈ update cont k l k' ↔ (k' = k ∧ o = n) ∨ o ∈ cont k' := by
    intro k' o
    by_cases hk : k' = k
    · subst hk
      rw [update_self, hl]
      simp
    · rw [update_of_ne hk]
      simp [hk]
  constructor
  · intro k' o ho
    rcases (hmem k' o).mp ho with ⟨rfl, rfl⟩ | ho
    · exact hon
    · have hne : o ≠ n := fun e => hM.off n hn k' (e ▸ ho)
      exact hw.listed (ht o hne) (hM.listed k' o ho)
  · rintro o ⟨ho, hne⟩
    exact hw.held (ht o hne) (hx o ho hne) (hM.held o ho)
  · rintro o ⟨ho, hne⟩ k' hk
    rcases (hmem k' o).mp hk with ⟨-, rfl⟩ | hk
    · exact hne rfl
    · exact hM.off o ho k' hk
  · intro s o ho
    by_cases hne : o = n
    · exact .inr ⟨k, (hmem k o).mpr (.inl ⟨rfl, hne⟩)⟩
    rcases hM.total s o (hw.inSlab.mp ho) with hH | ⟨k', hk⟩
    · exact .inl ⟨hH, hne⟩
    · exact .inr ⟨k', (hmem k' o).mpr (.inr hk)⟩

/-- The first object of a list is taken from it, to be held. -/
theorem Members.take (hM : Members g w P H cont) (hC : Chains w.next (heads g w hd) cont)
    (hw : SameSlabs w w') {k : Key} {a : Obj} {l : List Obj} (hk : cont k = a :: l)
    (ht : ∀ o, o ≠ a → w'.tscFree o = w.tscFree o)
    (hx : ∀ o, o ≠ a → w'.next o = w.next o) (ha : Held g w' a) :
    Members g w' P (insert a H) (update cont k l) := by
  have hoff := hC.notMem_of_pop hk
  have hsub : ∀ k' o, o ∈ update cont k l k' → o ∈ cont k' := by
    intro k' o ho
    by_cases hk' : k' = k
    · subst hk'
      rw [update_self] at ho
      exact hk ▸ List.mem_cons_of_mem _ ho
    · rwa [update_of_ne hk'] at ho
  have haH : a ∉ H := fun h => hM.off a h k (hk ▸ List.mem_cons_self)
  constructor
  · intro k' o ho
    have hne : o ≠ a := fun e => hoff k' (e ▸ ho)
    exact hw.listed (ht o hne) (hM.listed k' o (hsub k' o ho))
  · rintro o (rfl | ho)
    · exact ha
    · have hne : o ≠ a := fun e => haH (e ▸ ho)
      exact hw.held (ht o hne) (hx o hne) (hM.held o ho)
  · rintro o (rfl | ho) k' hm
    · exact hoff k' hm
    · exact hM.off o ho k' (hsub k' o hm)
  · intro s o ho
    by_cases hne : o = a
    · exact .inl (.inl hne)
    rcases hM.total s o (hw.inSlab.mp ho) with hH | ⟨k', hm⟩
    · exact .inl (.inr hH)
    · refine .inr ⟨k', ?_⟩
      by_cases hk' : k' = k
      · subst hk'
        rw [hk] at hm
        rw [update_self]
        exact (List.mem_cons.mp hm).resolve_left hne
      · rwa [update_of_ne hk']

/-- The ends and lengths, where queues and tokens stay. -/
theorem Counters.congr (hN : Counters g w cont) (hqt : w'.qscTail = w.qscTail)
    (hqc : w'.qmemcnt = w.qmemcnt) (hqm : w'.qmemtarget = w.qmemtarget) (hps : w'.ps = w.ps)
    (htk : w'.remoteToken = w.remoteToken) (hp : w.pushed ≤ w'.pushed)
    (hq : ∀ c, cont' (.queue c) = cont (.queue c))
    (hr : ∀ k, (cont' (.remote k)).length ≤ (cont (.remote k)).length) : Counters g w' cont' := by
  constructor
  · intro c
    rw [hqt, hq]
    exact hN.tail c
  · intro c
    rw [hqc, hq]
    exact hN.cnt c
  · rw [hqm, hps]
    exact hN.target
  · intro k
    exact (hr k).trans ((hN.pushed k).trans hp)
  · rw [htk]
    exact hN.token

/-- No part of the invariant looks at the count of allocations. -/
theorem Inv.setToken (hI : Inv g w P hd H cont) {n t : ℕ → ℕ} (ht : ∀ c, t c < g.numLocalities) :
    Inv g { w with salloccnt := n, remoteToken := t } P hd H cont := by
  have hw : SameSlabs w { w with salloccnt := n, remoteToken := t } :=
    ⟨⟨rfl, rfl, rfl, rfl, rfl⟩, rfl, rfl, rfl⟩
  refine ⟨hI.chains, hw.slabs_of hI.slabs, ?_, ?_, ?_⟩
  · exact ⟨hI.freelists.nfree, hI.freelists.lt, hI.freelists.lists, hI.freelists.single⟩
  · exact ⟨hI.members.listed, fun o ho => hw.held rfl rfl (hI.members.held o ho), hI.members.off,
      hI.members.total⟩
  · exact ⟨hI.counters.tail, hI.counters.cnt, hI.counters.target, hI.counters.pushed, ht⟩

end Congr

/-! ## Counting the objects of a slab -/

section Count

variable {ε : Type} {g : Geom} {w : World ε} {s : ℕ} {o : Obj} {l : List Obj}

/-- Objects of a slab, without duplicates, are a part of its objects. -/
theorem subperm_of_inSlab {b : ℕ} (hb : w.memory s = some b) (hnd : l.Nodup)
    (hl : ∀ a ∈ l, InSlab g w s a) : l.Subperm ((List.range g.nobjs).map (g.obj b)) := by
  refine List.subperm_of_subset hnd fun a ha => ?_
  obtain ⟨-, b', i, hb', hi, rfl⟩ := hl a ha
  obtain rfl : b' = b := Option.some.inj (hb'.symm.trans hb)
  exact List.mem_map_of_mem (List.mem_range.mpr hi)

/-- There are no more objects of a slab than fit. -/
theorem length_le_nobjs (hs : ∃ b, w.memory s = some b) (hnd : l.Nodup)
    (hl : ∀ a ∈ l, InSlab g w s a) : l.length ≤ g.nobjs := by
  obtain ⟨b, hb⟩ := hs
  have := (subperm_of_inSlab hb hnd hl).length_le
  rwa [List.length_map, List.length_range] at this

/-- As many objects of a slab as fit are all of them. -/
theorem mem_of_length (hnd : l.Nodup) (hl : ∀ a ∈ l, InSlab g w s a) (hlen : l.length = g.nobjs)
    (ho : InSlab g w s o) : o ∈ l := by
  obtain ⟨-, b, i, hb, hi, rfl⟩ := ho
  have hperm := (subperm_of_inSlab hb hnd hl).perm_of_length_le (by simp [hlen])
  exact hperm.mem_iff.mpr (List.mem_map_of_mem (List.mem_range.mpr hi))

end Count

/-! ## What supplies slab memory -/

section Backing

variable {ε ι : Type} (g : Geom) (f : Fns ε ι)

/-- What a supplier of slab memory leaves alone: all but the memory of slabs that are not in use. -/
structure Untouched (w w' : World ε) : Prop where
  tscFree : ∀ s o, InSlab g w s o → w'.tscFree o = w.tscFree o
  slab : ∀ s o, InSlab g w s o → w'.slab o = w.slab o
  next : ∀ s o, InSlab g w s o → w'.next o = w.next o
  memory : ∀ s, w.slabs s = true → w'.memory s = w.memory s
  start : ∀ s, w.slabs s = true → w'.start s = w.start s
  end_ : ∀ s, w.slabs s = true → w'.end_ s = w.end_ s
  coreid : w'.coreid = w.coreid
  freelist : w'.freelist = w.freelist
  nfree : w'.nfree = w.nfree
  slabs : w'.slabs = w.slabs
  listN : ∀ s, w.slabs s = true → w'.listN s = w.listN s
  listP : ∀ s, w.slabs s = true → w'.listP s = w.listP s
  flist : w'.flist = w.flist
  nslabs : w'.nslabs = w.nslabs
  ps : w'.ps = w.ps
  remoteToken : w'.remoteToken = w.remoteToken
  remoteFrees : w'.remoteFrees = w.remoteFrees
  pushed : w'.pushed = w.pushed
  qscHead : w'.qscHead = w.qscHead
  qscTail : w'.qscTail = w.qscTail
  qmemcnt : w'.qmemcnt = w.qmemcnt
  qmemtarget : w'.qmemtarget = w.qmemtarget

/-- A slab that has just been supplied: it is not in use, and neither is its memory, which is
zeroed. -/
structure Fresh (w : World ε) (s : ℕ) : Prop where
  slabs : w.slabs s = false
  memory : ∃ b, w.memory s = some b ∧ (∀ s', w.slabs s' = true → w.memory s' ≠ some b) ∧
    ∀ i, w.next (g.obj b i) = none

/-- A slab that is about to be released: all its objects are on its freelist, and it is on no
freelist of slabs. -/
structure Emptied (w : World ε) (s : ℕ) : Prop where
  slabs : w.slabs s = true
  objs : ∃ b, w.memory s = some b ∧
    (follow w.next g.nobjs (w.freelist s)).Perm ((List.range g.nobjs).map (g.obj b))
  listN : w.listN s = s
  listP : w.listP s = s

/-- What is relied on of the functions that supply slab memory, where `afn` is called with `A`. -/
structure Backing (A : World ε → ℕ → ι → Prop) (K : World ε → Prop) : Prop where
  congr : ∀ {w w'}, SameEnv w w' → K w → K w'
  ffn : ∀ {w : World ε} {s} (sz c), K w → Emptied g w s →
    ∃ w', f.ffn { w with slabs := update w.slabs s false } s sz c = some w' ∧
      Untouched g { w with slabs := update w.slabs s false } w' ∧ K w'
  afn : ∀ {w : World ε} (sz c) {i}, K w → A w c i → ∃ o w', f.afn w sz c i = some (o, w') ∧
    Untouched g w w' ∧ match o with
      | none => K w'
      | some s => Fresh g w' s ∧ K { w' with slabs := update w'.slabs s true }

/-- No slab is touched in two steps. -/
theorem Untouched.trans {g : Geom} {w w' w'' : World ε} (h : Untouched g w w') (h' : Untouched g w' w'') :
    Untouched g w w'' := by
  have hin : ∀ {s o}, InSlab g w s o → InSlab g w' s o := by
    rintro s o ⟨hs, b, i, hb, hi, ho⟩
    exact ⟨h.slabs ▸ hs, b, i, (h.memory s hs).trans hb, hi, ho⟩
  have hsl : ∀ {s}, w.slabs s = true → w'.slabs s = true := fun hs => h.slabs ▸ hs
  constructor
  · exact fun s o ho => (h'.tscFree s o (hin ho)).trans (h.tscFree s o ho)
  · exact fun s o ho => (h'.slab s o (hin ho)).trans (h.slab s o ho)
  · exact fun s o ho => (h'.next s o (hin ho)).trans (h.next s o ho)
  · exact fun s hs => (h'.memory s (hsl hs)).trans (h.memory s hs)
  · exact fun s hs => (h'.start s (hsl hs)).trans (h.start s hs)
  · exact fun s hs => (h'.end_ s (hsl hs)).trans (h.end_ s hs)
  · exact h'.coreid.trans h.coreid
  · exact h'.freelist.trans h.freelist
  · exact h'.nfree.trans h.nfree
  · exact h'.slabs.trans h.slabs
  · exact fun s hs => (h'.listN s (hsl hs)).trans (h.listN s hs)
  · exact fun s hs => (h'.listP s (hsl hs)).trans (h.listP s hs)
  · exact h'.flist.trans h.flist
  · exact h'.nslabs.trans h.nslabs
  · exact h'.ps.trans h.ps
  · exact h'.remoteToken.trans h.remoteToken
  · exact h'.remoteFrees.trans h.remoteFrees
  · exact h'.pushed.trans h.pushed
  · exact h'.qscHead.trans h.qscHead
  · exact h'.qscTail.trans h.qscTail
  · exact h'.qmemcnt.trans h.qmemcnt
  · exact h'.qmemtarget.trans h.qmemtarget

/-- A supplier that keeps something more, where that is relied on. -/
theorem Backing.and {g : Geom} {f : Fns ε ι} {A A' : World ε → ℕ → ι → Prop} {K X : World ε → Prop}
    (hB : Backing g f A K) (hA : ∀ {w c i}, K w → X w → A' w c i → A w c i)
    (hcongr : ∀ {w w'}, SameEnv w w' → X w → X w')
    (hffn : ∀ {w w' : World ε} {s sz c}, K w → X w → Emptied g w s →
      f.ffn { w with slabs := update w.slabs s false } s sz c = some w' → X w')
    (hafn : ∀ {w w' : World ε} {sz c i o}, K w → X w → A' w c i → f.afn w sz c i = some (o, w') →
      match o with
      | none => X w'
      | some s => X { w' with slabs := update w'.slabs s true }) :
    Backing g f A' fun w => K w ∧ X w := by
  constructor
  · rintro w w' hw ⟨hK, hX⟩
    exact ⟨hB.congr hw hK, hcongr hw hX⟩
  · rintro w s sz c ⟨hK, hX⟩ hE
    obtain ⟨w', hrun, hU, hK'⟩ := hB.ffn sz c hK hE
    exact ⟨w', hrun, hU, hK', hffn hK hX hE hrun⟩
  · rintro w sz c i ⟨hK, hX⟩ hi
    obtain ⟨o, w', hrun, hU, ho⟩ := hB.afn sz c hK (hA hK hX hi)
    have hX' := hafn hK hX hi hrun
    refine ⟨o, w', hrun, hU, ?_⟩
    cases o with
    | none => exact ⟨ho, hX'⟩
    | some s => exact ⟨ho.1, ho.2, hX'⟩

end Backing

end Parsec.Slab
