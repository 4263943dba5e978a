import Parsec.Slab.Places

/-!
# Release of slabs, and emptiness

* `slabptrIsempty` — what a memory answers when asked whether it is empty. It looks at the counts of
  slabs, and at part of the lists of remotely freed objects.
* `releasedExact_iff` — slabs are released exactly when their last object is back, and emptiness is
  reported exactly, along every run, if and only if a slab has fewer objects than an `unsigned int`
  counts.
-/

namespace Parsec.Slab

open Function Lib

variable {g : Geom} {s : St}

/-! ## The code -/

section Code

variable {ε : Type} (g : Geom) (w : World ε)

/-- A core's part of the answer. The arrays `remote_frees` have `NUM_REMOTE_LIST` elements; a load
past the end of one is a fault.
Source: `ps_slab.c`, `ps_slabptr_isempty` -/
def coreIsempty (i : ℕ) : Option Bool :=
  if w.nslabs i ≠ 0 then some false
  else (List.range g.numLocalities).allM fun j => (List.range g.numLocalities).allM fun k =>
    if k < numRemoteList g.arch then some (w.remoteFrees (i, j, k)).isNone else none

/-- Source: `ps_slab.c`, `ps_slabptr_isempty` -/
def slabptrIsempty : Option Bool := (List.range g.numCores).allM (coreIsempty g w)

end Code

/-- A test of all elements that never fails. -/
theorem allM_some {α : Type} {p : α → Option Bool} {q : α → Bool} :
    ∀ {l : List α}, (∀ a ∈ l, p a = some (q a)) → l.allM p = some (l.all q)
  | [], _ => rfl
  | a :: l, h => by
      have ha := h a List.mem_cons_self
      have hl := allM_some fun a' h' => h a' (List.mem_cons_of_mem a h')
      rw [List.allM, ha, List.all_cons]
      cases hq : q a
      · rfl
      · exact hl

/-- What the answer is, where no load is past the end of an array. -/
theorem slabptrIsempty_eq {ε : Type} {w : World ε} (hloc : g.numLocalities ≤ numRemoteList g.arch) :
    ∃ b, slabptrIsempty g w = some b ∧ (b = true ↔ ∀ i < g.numCores, w.nslabs i = 0 ∧
      ∀ j < g.numLocalities, ∀ k < g.numLocalities, w.remoteFrees (i, j, k) = none) := by
  have hk : ∀ i j, (List.range g.numLocalities).allM (fun k =>
      if k < numRemoteList g.arch then some (w.remoteFrees (i, j, k)).isNone else none) =
        some ((List.range g.numLocalities).all fun k => (w.remoteFrees (i, j, k)).isNone) :=
    fun i j => allM_some fun k hk => if_pos ((List.mem_range.mp hk).trans_le hloc)
  have hcore : ∀ i, coreIsempty g w i = some (decide (w.nslabs i = 0) &&
      (List.range g.numLocalities).all fun j => (List.range g.numLocalities).all fun k =>
        (w.remoteFrees (i, j, k)).isNone) := by
    intro i
    unfold coreIsempty
    by_cases h : w.nslabs i = 0
    · rw [if_neg (not_not.mpr h), allM_some fun j _ => hk i j]
      simp [h]
    · rw [if_pos h]
      simp [h]
  refine ⟨_, allM_some fun i _ => hcore i, ?_⟩
  simp [List.all_eq_true, Option.isNone_iff_eq_none]

/-! ## Release -/

/-- An object is not back: it is with a caller, on a quiescence queue, or on a list of remotely freed
objects. -/
def Out (s : St) (o : Obj) : Prop := ∃ p, (∀ sl, p ≠ .free sl) ∧ At s o p

/-- Slabs are released with all their objects back, once, and as soon as that is so; and what is
counted and reported is that. -/
structure ReleasedExact (g : Geom) (s : St) : Prop where
  balanced : Balanced g s.w.env
  out : ∀ sl b, given s.w.env sl = some b → ∃ i < g.nobjs, Out s (g.obj b i)
  of_out : ∀ o, Out s o → ∃ sl b i, given s.w.env sl = some b ∧ i < g.nobjs ∧ o = g.obj b i
  nslabs : ∀ c, ∃ l : List ℕ, l.Nodup ∧
    (∀ sl, sl ∈ l ↔ given s.w.env sl ≠ none ∧ s.w.coreid sl = c) ∧ l.length = s.w.nslabs c
  isempty : ∃ b, slabptrIsempty g s.w = some b ∧ (b = true ↔ ∀ o, ¬ Out s o)

section Proofs

variable {P : ℕ → Prop} {cont : Key → List Obj}

/-- The objects that are out: live, or on a list that is not a slab's. -/
theorem Inv.out_iff (hI : Inv g s.w P (fun _ => none) {o | s.live o = true} cont) {o : Obj} :
    Out s o ↔ s.live o = true ∨ ∃ k, (∀ sl, k ≠ .free sl) ∧ o ∈ cont k := by
  constructor
  · rintro ⟨p, hp, hat⟩
    rcases hI.at_iff.mp hat with ⟨-, h⟩ | ⟨k, rfl, -, hk⟩
    · exact .inl h
    · exact .inr ⟨k, fun sl h => hp sl (h ▸ rfl), hk⟩
  · rintro (h | ⟨k, hk, ho⟩)
    · exact ⟨.live, by simp, h⟩
    · have hd : ∀ c, k ≠ .drain c := by
        rintro c rfl
        rw [hI.drain_nil] at ho
        cases ho
      refine ⟨k.place, fun sl h => ?_, hI.at_iff.mpr (.inr ⟨k, rfl, hd, ho⟩)⟩
      cases k <;> cases h
      exact hk _ rfl

/-- A slab has an object that is not back iff it has fewer free objects than objects. -/
theorem Inv.exists_out_iff (hI : Inv g s.w P (fun _ => none) {o | s.live o = true} cont) {sl b : ℕ}
    (hs : s.w.slabs sl = true) (hb : s.w.memory sl = some b) :
    (∃ i < g.nobjs, Out s (g.obj b i)) ↔ s.w.nfree sl < g.nobjs := by
  have hin : ∀ {i}, i < g.nobjs → InSlab g s.w sl (g.obj b i) := fun {i} hi => ⟨hs, b, i, hb, hi, rfl⟩
  have hnf := hI.freelists.nfree sl hs
  have hfree : ∀ a ∈ cont (.free sl), InSlab g s.w sl a := by
    intro a ha
    obtain ⟨sl', ha', rfl, -⟩ := hI.members.listed _ a ha
    exact ha'
  constructor
  · rintro ⟨i, hi, hout⟩
    by_contra hge
    have hle := length_le_nobjs ⟨b, hb⟩ (hI.chains.nodup (.free sl)) hfree
    have hmem := mem_of_length (hI.chains.nodup (.free sl)) hfree (by omega) (hin hi)
    rcases hI.out_iff.mp hout with h | ⟨k, hk, ho⟩
    · exact hI.members.off _ h _ hmem
    · exact hk sl (hI.chains.disjoint ho hmem)
  · intro hlt
    by_contra hno
    have hall : ∀ a ∈ (List.range g.nobjs).map (g.obj b), a ∈ cont (.free sl) := by
      intro a ha
      obtain ⟨i, hi, rfl⟩ := List.mem_map.mp ha
      have hi := List.mem_range.mp hi
      have hout : ¬ Out s (g.obj b i) := fun h => hno ⟨i, hi, h⟩
      rw [hI.out_iff] at hout
      rcases hI.members.total sl _ (hin hi) with h | ⟨k, hk⟩
      · exact absurd (.inl h) hout
      · by_cases hkf : ∃ sl', k = .free sl'
        · obtain ⟨sl', rfl⟩ := hkf
          obtain ⟨sl₁, hs₁, rfl, -⟩ := hI.members.listed _ _ hk
          rwa [hI.slabs.eq_of_inSlab (hin hi) hs₁]
        · exact absurd (.inr ⟨k, fun sl' h => hkf ⟨sl', h⟩, hk⟩) hout
    have hnd : ((List.range g.nobjs).map (g.obj b)).Nodup :=
      List.nodup_range.map fun i j h => (obj_inj h).2
    have hle := (List.subperm_of_subset hnd hall).length_le
    rw [List.length_map, List.length_range] at hle
    omega

/-- An object that is not back is of a slab in use. -/
theorem Inv.inSlab_of_out (hI : Inv g s.w P (fun _ => none) {o | s.live o = true} cont) {o : Obj}
    (h : Out s o) : ∃ sl, InSlab g s.w sl o :=
  hI.members.exists_inSlab ((hI.out_iff.mp h).imp_right fun ⟨k, _, hk⟩ => ⟨k, hk⟩)

/-- While an object is not back, its slab is counted. -/
theorem Inv.not_out_of_nslabs (hI : Inv g s.w P (fun _ => none) {o | s.live o = true} cont)
    (h : ∀ i < g.numCores, s.w.nslabs i = 0) (o : Obj) : ¬ Out s o := by
  intro hout
  obtain ⟨sl, hs, -⟩ := hI.inSlab_of_out hout
  obtain ⟨l, -, hm, hlen⟩ := hI.slabs.owned (s.w.coreid sl)
  rw [h _ (hI.slabs.core sl hs), List.length_eq_zero_iff] at hlen
  have hmem := (hm sl).mpr ⟨hs, rfl⟩
  rw [hlen] at hmem
  cases hmem

/-- A memory reports that it is empty iff every object is back, where slabs whose objects are all back
have been released. -/
theorem Inv.isempty_iff (hI : Inv g s.w P (fun _ => none) {o | s.live o = true} cont)
    (hlt : ∀ sl, s.w.slabs sl = true → s.w.nfree sl < g.nobjs)
    (hloc : g.numLocalities ≤ numRemoteList g.arch) :
    ∃ b, slabptrIsempty g s.w = some b ∧ (b = true ↔ ∀ o, ¬ Out s o) := by
  obtain ⟨b, hb, hiff⟩ := slabptrIsempty_eq (w := s.w) hloc
  refine ⟨b, hb, hiff.trans ?_⟩
  constructor
  · exact fun h => hI.not_out_of_nslabs fun i hi => (h i hi).1
  · intro h
    have hno : ∀ sl, s.w.slabs sl ≠ true := by
      intro sl hs
      obtain ⟨b', hb'⟩ := hI.slabs.memory sl hs
      obtain ⟨i, -, hout⟩ := (hI.exists_out_iff hs hb').mpr (hlt sl hs)
      exact h _ hout
    intro i _
    obtain ⟨l, -, hm, hlen⟩ := hI.slabs.owned i
    have hnil : l = [] := List.eq_nil_iff_forall_not_mem.mpr fun sl hsl => hno sl ((hm sl).mp hsl).1
    refine ⟨by rw [← hlen, hnil]; rfl, fun j _ k _ => ?_⟩
    have hch : Chain s.w.next (s.w.remoteFrees (i, j, k)) (cont (.remote (i, j, k))) :=
      hI.chains.chain (.remote (i, j, k))
    have hnil : cont (.remote (i, j, k)) = [] := List.eq_nil_iff_forall_not_mem.mpr fun o ho =>
      h o (hI.out_iff.mpr (.inr ⟨_, by simp, ho⟩))
    rw [hnil] at hch
    exact hch

/-- The invariant says that slabs are released exactly when nothing of them is out. -/
theorem MemInv.releasedExact (hM : MemInv g P s cont) (hlt : g.nobjs < 2 ^ 32)
    (hloc : g.numLocalities ≤ numRemoteList g.arch) : ReleasedExact g s := by
  have hI := hM.inv
  have hlog := hM.log
  constructor
  · exact hlog.balanced
  · intro sl b h
    have hs : s.w.slabs sl = true := (hlog.slabs sl).mpr (by simp [h])
    exact (hI.exists_out_iff hs (hlog.memory sl b h)).mpr (hI.freelists.lt hlt sl hs)
  · intro o hout
    obtain ⟨sl, hs, b, i, hb, hi, rfl⟩ := hI.inSlab_of_out hout
    obtain ⟨b', hb'⟩ := Option.ne_none_iff_exists'.mp ((hlog.slabs sl).mp hs)
    obtain rfl : b' = b := Option.some.inj ((hlog.memory sl b' hb').symm.trans hb)
    exact ⟨sl, b', i, hb', hi, rfl⟩
  · intro c
    obtain ⟨l, hl, hm, hlen⟩ := hI.slabs.owned c
    refine ⟨l, hl, fun sl => ?_, hlen⟩
    rw [hm, hlog.slabs]
  · exact hI.isempty_iff (hI.freelists.lt hlt) hloc

end Proofs

/-- A slab with all its objects back is not released where it has more objects than are counted. -/
theorem exists_not_releasedExact (hge : 2 ^ 32 ≤ g.nobjs) (hcore : 0 < g.numCores) :
    ∃ s, (memLts g).Reach (Ok g) s ∧ ¬ ReleasedExact g s := by
  obtain ⟨s, cont, hs, hI, hlog, h0, hnf⟩ := exists_full hge hcore
  refine ⟨s, hs, fun h => ?_⟩
  obtain ⟨b, hb⟩ := Option.ne_none_iff_exists'.mp ((hlog.slabs 0).mp h0)
  exact absurd hnf ((hI.exists_out_iff h0 (hlog.memory 0 b hb)).mp (h.out 0 b hb)).ne

/-- **Slabs are released exactly when they empty, and emptiness is reported exactly**, along every
run, iff a slab has fewer objects than an `unsigned int` counts. -/
theorem releasedExact_iff (hcore : 0 < g.numCores) (hloc : g.numLocalities ≤ numRemoteList g.arch) :
    (∀ s, (memLts g).Reach (Ok g) s → ReleasedExact g s) ↔ g.nobjs < 2 ^ 32 := by
  constructor
  · intro h
    by_contra hge
    obtain ⟨s, hs, hnot⟩ := exists_not_releasedExact (not_lt.mp hge) hcore
    exact hnot (h s hs)
  · intro hlt s hs
    obtain ⟨cont, hM⟩ := exists_memInv_of_reach (.inl hlt) hs
    exact hM.releasedExact hlt hloc

/-- Pages of words are released exactly. -/
theorem releasedExact_page : 0 < page.numCores ∧ page.numLocalities ≤ numRemoteList page.arch ∧
    ∀ s, (memLts page).Reach (Ok page) s → ReleasedExact page s :=
  ⟨by decide, by decide, (releasedExact_iff (by decide) (by decide)).mpr (by decide)⟩

/-- Where the count of a slab's objects is one, a slab is released too early. -/
theorem not_releasedExact_wide :
    ¬ ∀ s, (memLts wide).Reach (Ok wide) s → ReleasedExact wide s := by
  intro h
  obtain ⟨s, hs, hnot⟩ := exists_not_releasedExact (g := wide) (by rw [nobjs_wide]; omega) two_pos
  exact hnot (h s hs)

end Parsec.Slab
