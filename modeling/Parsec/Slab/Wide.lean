import Parsec.Slab.Fill

/-!
# Slabs with more objects than an `unsigned int` counts

`__ps_slab_mem_free` keeps the number of a slab's objects in an `unsigned int`. Where that is one, the
first object that comes back releases its slab.

* `wide` — such a geometry: a slab has `2 ^ 32 + 1` objects.
* `exists_released` — a run in which all objects of a slab are allocated, one of them is freed, and
  the slab is released. `Released.memAlloc` — the next allocation returns an object that is live.
-/

namespace Parsec.Slab

open Function Lib

/-! ## A free that releases a slab early -/

section First

variable {g : Geom} {c : ℕ}

/-- Core `c` frees an object of a slab without free objects, where the count of a slab's objects is
one. -/
theorem memFree_first {w : World (List Ev)} {o : Obj} {sl : ℕ} (h1 : toU32 g.nobjs = 1)
    (ht : w.tscFree o = 0) (hs : w.slab o = some sl) (hc : w.coreid sl = c) (h0 : w.nfree sl = 0)
    (hne : w.flist c ≠ some sl) (hn : w.listN sl = sl) (hp : w.listP sl = sl) :
    memFree g (supplier g) w o c = some { pushFree w o sl with
      nslabs := update w.nslabs c (w.nslabs c - 1)
      slabs := update w.slabs sl false
      env := .freed sl (follow (update w.next o (w.freelist sl)) g.nobjs (some o)) :: w.env } := by
  have hguard : objmemsz g.arch g.objSz + g.headoff ≤ g.allocsz ∧ w.tscFree o = 0 := ⟨g.fits, ht⟩
  have hnf : (pushFree w o sl).nfree sl = toU32 g.nobjs := by
    rw [h1]
    show update w.nfree sl (w.nfree sl + 1) sl = 1
    rw [update_self, h0]
  have hrem := freelistRem_off (w := { pushFree w o sl with
    nslabs := update w.nslabs c (w.nslabs c - 1) }) (c := c) hne hn hp
  have hfree : (pushFree w o sl).freelist sl = some o := update_self ..
  unfold memFree
  rw [if_pos hguard, hs]
  simp only [hc, ne_eq, not_true_eq_false, if_false, if_pos hnf]
  unfold releaseSlab
  have hns : (pushFree w o sl).nslabs = w.nslabs := rfl
  simp only [hns, hrem, supplier, hfree]
  rfl

/-- Core `c` frees an object, deferred, where batches are of one object and its queue is empty. The
object has quiesced, and its slab has no free objects. -/
theorem smrFree_first {w : World (List Ev)} {o : Obj} {sl : ℕ} (tsc : ℕ) (h1 : toU32 g.nobjs = 1)
    (hs : w.slab o = some sl) (hc : w.coreid sl = c) (h0 : w.nfree sl = 0)
    (hne : w.flist c ≠ some sl) (hn : w.listN sl = sl) (hp : w.listP sl = sl)
    (hb : g.qlistBatch = 1) (htail : w.qscTail c = none) (hcnt : w.qmemcnt c = 0)
    (htg : w.qmemtarget c = 1) (hps : w.ps c = true) (ht : tsc ≠ 0) :
    ∃ w', smrFree g (supplier g) w o c tsc tsc false = some w' ∧
      w'.slabs = update w.slabs sl false ∧ w'.slab = w.slab ∧ w'.coreid = w.coreid ∧
      w'.nslabs = update w.nslabs c (w.nslabs c - 1) ∧ w'.remoteFrees = w.remoteFrees ∧
      w'.remoteToken = w.remoteToken ∧ w'.flist = w.flist ∧ w'.ps = w.ps ∧
      w'.qmemtarget = w.qmemtarget ∧ w'.qmemcnt c = 0 ∧ w'.qscTail c = none ∧
      w'.env = .freed sl (follow (update w.next o (w.freelist sl)) g.nobjs (some o)) :: w.env := by
  obtain ⟨w₂, hw₂⟩ : ∃ w₂ : World (List Ev), w₂ = { w with
      tscFree := update w.tscFree o 0
      next := update w.next o none
      qscHead := update w.qscHead c (w.next o)
      qscTail := update w.qscTail c none
      qmemcnt := update w.qmemcnt c 0 } := ⟨_, rfl⟩
  have hfree := memFree_first (g := g) (c := c) (w := w₂) (o := o) h1
    (by rw [hw₂]; exact update_self ..) (by rw [hw₂]; exact hs) (by rw [hw₂]; exact hc)
    (by rw [hw₂]; exact h0) (by rw [hw₂]; exact hne) (by rw [hw₂]; exact hn) (by rw [hw₂]; exact hp)
  refine ⟨{ pushFree w₂ o sl with
    nslabs := update w₂.nslabs c (w₂.nslabs c - 1)
    slabs := update w₂.slabs sl false
    env := .freed sl (follow (update w₂.next o (w₂.freelist sl)) g.nobjs (some o)) :: w₂.env },
    ?_, ?_⟩
  · unfold smrFree smrReclaim
    simp only [qscEnqueue, htail, hcnt, htg, hps, hb, update_self, reclaimLoop, qscDequeue,
      update_idem]
    simp only [zero_add, le_refl, if_true, ne_eq, reduceCtorEq, not_false_eq_true, and_self,
      ht, if_false, lt_irrefl, Nat.sub_self]
    rw [hw₂] at hfree
    simp only [hfree, Option.bind_eq_bind, Option.bind_some]
    rw [hw₂]
    rfl
  · rw [hw₂]
    refine ⟨rfl, rfl, rfl, rfl, rfl, rfl, rfl, rfl, rfl, update_self .., update_self .., ?_⟩
    show Ev.freed sl (follow (update (update w.next o none) o (w.freelist sl)) g.nobjs (some o)) ::
      w.env = _
    rw [update_idem]

/-- An allocation where there are no slabs. -/
theorem memAlloc_empty {w : World (List Ev)} (hs : ∀ sl, w.slabs sl = false)
    (hr : ∀ k, w.remoteFrees k = none) (htok : w.remoteToken c < g.numLocalities)
    (hfl : ∀ c, w.flist c = none) :
    (∀ w', allocPrep g (supplier g) w c = some w' → w'.flist c = none → Unused w' (some (0, 0))) ∧
    ∃ w', memAlloc g (supplier g) w c (some (0, 0)) = some (some (g.obj 0 0), w') ∧
      (∀ i, 0 < i → i + 1 < g.nobjs → w'.next (g.obj 0 i) = some (g.obj 0 (i + 1))) ∧
      w'.qscTail = w.qscTail ∧ w'.qmemcnt = w.qmemcnt ∧ w'.qmemtarget = w.qmemtarget ∧
      w'.ps = w.ps := by
  obtain ⟨n, t, hprep, -⟩ := allocPrep_idle (f := supplier g) hr htok
  refine ⟨fun w' hw' _ => ?_, ?_⟩
  · rw [hprep] at hw'
    obtain rfl := Option.some.inj hw'
    rintro sl b h
    obtain ⟨rfl, rfl⟩ : 0 = sl ∧ 0 = b := by simpa using h
    refine ⟨hs 0, fun s' h => ?_⟩
    have h : w.slabs s' = true := h
    rw [hs] at h
    cases h
  · obtain ⟨w₁, hw₁⟩ : ∃ w₁ : World (List Ev), w₁ = { w with
        salloccnt := n
        remoteToken := t
        memory := update w.memory 0 (some 0)
        tscFree := fun o => if o.blk = 0 then 0 else w.tscFree o
        slab := fun o => if o.blk = 0 then none else w.slab o
        next := fun o => if o.blk = 0 then none else w.next o
        env := .got 0 0 :: w.env } := ⟨_, rfl⟩
    have hmem : w₁.memory 0 = some 0 := by
      simp [hw₁]
    have hlists : OnLists w₁.listN w₁.listP w₁.flist fun _ _ => False := by
      have hfl' : w₁.flist = fun _ => none := by
        rw [hw₁]
        exact funext hfl
      rw [hfl']
      exact ⟨fun _ => [], Rings.empty, fun _ _ => by simp⟩
    obtain ⟨w', hrun, hN⟩ := newSlab_run (g := g) hlists (fun _ => id) hmem c
    obtain ⟨-, -, -, -, -, -, -, hps, -, hqt, hqc, hqm⟩ := hN.rest
    refine ⟨w', ?_, hN.next, ?_, ?_, ?_, ?_⟩
    · unfold memAlloc
      rw [if_pos (objSz_le_allocsz g), hprep]
      simp only [Option.bind_eq_bind, Option.bind_some, hfl, supplier]
      rw [hw₁] at hrun
      exact hrun
    · rw [hqt, hw₁]
    · rw [hqc, hw₁]
    · rw [hqm, hw₁]
    · rw [hps, hw₁]

end First

/-! ## The geometry -/

/-- A slab has `2 ^ 32 + 1` objects of eight bytes, and there are two cores. -/
def wide : Geom where
  arch := .x86_64
  objSz := 8
  allocsz := 32 * (2 ^ 32 + 1)
  headoff := 0
  numCores := 2
  numLocalities := 1
  locality := fun _ => 0
  remoteBatch := 64
  qlistBatch := 1
  objSz_le := page.objSz_le
  allocsz_lt := by decide
  fits := by decide
  locality_lt := fun _ => Nat.one_pos
  qlistBatch_pos := Nat.one_pos

/-- The objects of a wide slab. -/
theorem nobjs_wide : wide.nobjs = 2 ^ 32 + 1 := by decide

/-- The slab whose objects were all live has been released with the first of them that came back. -/
structure Released (c : ℕ) (s : St) : Prop where
  slabs : ∀ sl, s.w.slabs sl = false
  live : ∀ i < wide.nobjs, i ≠ 1 → s.live (wide.obj 0 i) = true
  home : ∀ i < wide.nobjs, s.w.slab (wide.obj 0 i) = some 0
  coreid : s.w.coreid 0 = c
  nslabs : ∀ c', s.w.nslabs c' = 0
  remoteFrees : ∀ k, s.w.remoteFrees k = none
  remoteToken : ∀ c', s.w.remoteToken c' < wide.numLocalities
  flist : ∀ c', s.w.flist c' = none
  ps : ∀ c' < 2, s.w.ps c' = true
  qmemtarget : s.w.qmemtarget c = 1
  qmemcnt : s.w.qmemcnt c = 0
  qscTail : s.w.qscTail c = none
  now : s.now = 1
  env : ∃ l, s.w.env = .freed 0 [wide.obj 0 1] :: l

/-- A run in which a slab has been released while its objects are live. -/
theorem exists_released {c : ℕ} (hc : c < 2) :
    ∃ s, (memLts wide).Reach (Ok wide) s ∧ Released c s := by
  have h2 : wide.nobjs - 1 + 1 = wide.nobjs := by
    rw [nobjs_wide]
    omega
  obtain ⟨s, hs, hF⟩ := exists_filling (g := wide) (k := wide.nobjs - 1) hc (by rw [nobjs_wide]; omega)
  rw [h2] at hF
  obtain ⟨cont, hI, hqueue⟩ := hF.inv
  have h00 : s.w.slabs 0 = true := (hF.slabs 0).mpr rfl
  have h1 : 1 < wide.nobjs := by
    rw [nobjs_wide]
    omega
  have h0 : s.w.nfree 0 = 0 := by
    have := hF.nfree
    omega
  have hslab : ∀ {i}, i < wide.nobjs → s.w.slab (wide.obj 0 i) = some 0 := fun {i} hi =>
    hI.slabs.slab 0 _ ⟨h00, 0, i, hF.memory, hi, rfl⟩
  obtain ⟨hn, hp⟩ := hI.freelists.single 0 h00 h0
  have hfl : ∀ c', s.w.flist c' = none := by
    intro c'
    rcases h : s.w.flist c' with _ | sl
    · rfl
    · obtain ⟨hsl, -, hnf⟩ := hI.freelists.lists.head_some h
      rw [(hF.slabs sl).mp hsl] at hnf
      exact absurd h0 hnf
  have hlive := hF.live h1
  have hfree : s.w.freelist 0 = none := by
    have hch := hI.chains.chain (.free 0)
    have hlen := hI.freelists.nfree 0 h00
    rw [h0, List.length_eq_zero_iff] at hlen
    have h2' : 2 ≤ wide.nobjs := h1
    have hh : heads wide s.w (fun _ => none) (.free 0) = s.w.freelist 0 := by
      simp [heads, h00, h2']
    rw [hlen, hh] at hch
    exact hch
  have htail : s.w.qscTail c = none := by rw [hI.counters.tail, hqueue]; rfl
  have hcnt : s.w.qmemcnt c = 0 := by rw [hI.counters.cnt, hqueue]; rfl
  have htg : s.w.qmemtarget c = 1 := hF.qmemtarget c hc
  obtain ⟨w, hrun, hs₁, hs₂, hs₃, hs₄, hs₅, hs₆, hs₇, hs₈, hs₉, hs₁₀, hs₁₁, hs₁₂⟩ :=
    smrFree_first (g := wide) 1 (by rw [nobjs_wide]; rfl) (hslab h1) hF.coreid h0
      (by rw [hfl]; simp) hn hp rfl htail hcnt htg (hF.ps c hc) one_ne_zero
  have hfollow : follow (update s.w.next (wide.obj 0 1) (s.w.freelist 0)) wide.nobjs
      (some (wide.obj 0 1)) = [wide.obj 0 1] := by
    have hc : Chain (update s.w.next (wide.obj 0 1) (s.w.freelist 0)) (some (wide.obj 0 1))
        [wide.obj 0 1] := by
      refine ⟨rfl, ?_⟩
      rw [update_self, hfree]
      rfl
    exact hc.follow_eq h1.le
  rw [hfollow] at hs₁₂
  have hstep : step wide s (.smrFree c (wide.obj 0 1) 1 1 false) =
      some { w := w, live := update s.live (wide.obj 0 1) false, now := 1 } := by
    simp only [step, hrun, Option.map_some]
  have hok : Ok wide s (.smrFree c (wide.obj 0 1) 1 1 false) :=
    ⟨hc, hlive, by rw [hF.now]; exact one_pos, hF.ps c hc⟩
  refine ⟨_, hs.step hok hstep, ⟨fun sl => ?_, fun i hi hne => ?_, fun i hi => ?_, ?_, fun c' => ?_,
    fun k => ?_, fun c' => ?_, fun c' => ?_, fun c' hc' => ?_, hs₉ ▸ htg, hs₁₀, hs₁₁, rfl, ⟨_, hs₁₂⟩⟩⟩
  · show w.slabs sl = false
    rw [hs₁]
    by_cases h : sl = 0
    · rw [h, update_self]
    · rw [update_of_ne h]
      exact Bool.eq_false_iff.mpr fun h' => h ((hF.slabs sl).mp h')
  · show update s.live (wide.obj 0 1) false (wide.obj 0 i) = true
    rw [update_of_ne fun h => hne (obj_inj h).2]
    exact hF.live hi
  · exact hs₂ ▸ hslab hi
  · exact hs₃ ▸ hF.coreid
  · obtain ⟨l, hl, hm, hlen⟩ := hI.slabs.owned c'
    show w.nslabs c' = 0
    rw [hs₄]
    have hsub : l ⊆ [0] := fun sl h => List.mem_singleton.mpr ((hF.slabs sl).mp ((hm sl).mp h).1)
    have hone : l.length ≤ 1 := (List.subperm_of_subset hl hsub).length_le
    by_cases hcc : c' = c
    · subst hcc
      rw [update_self]
      omega
    · have hnil : l = [] := by
        refine List.eq_nil_iff_forall_not_mem.mpr fun sl h => hcc ?_
        obtain ⟨hsl, hcore⟩ := (hm sl).mp h
        rw [(hF.slabs sl).mp hsl, hF.coreid] at hcore
        exact hcore.symm
      rw [update_of_ne hcc, ← hlen, hnil]
      rfl
  · exact hs₅ ▸ (hI.remote_nil k).2
  · exact hs₆ ▸ hI.counters.token c'
  · exact hs₇ ▸ hfl c'
  · exact hs₈ ▸ hF.ps c' hc'

/-- After the release, an object that is live is allocated again, and those behind it are on the
slab's freelist. -/
theorem Released.memAlloc {c : ℕ} {s : St} (hc : c < 2) (hR : Released c s) :
    Ok wide s (.alloc c (some (0, 0))) ∧
    ∃ w, memAlloc wide (supplier wide) s.w c (some (0, 0)) = some (some (wide.obj 0 0), w) ∧
      w.next (wide.obj 0 2) = some (wide.obj 0 3) ∧ w.qscTail = s.w.qscTail ∧
      w.qmemcnt = s.w.qmemcnt ∧ w.qmemtarget = s.w.qmemtarget ∧ w.ps = s.w.ps := by
  obtain ⟨hu, w, hrun, hnext, hrest⟩ :=
    memAlloc_empty (g := wide) hR.slabs hR.remoteFrees (hR.remoteToken c) hR.flist
  exact ⟨⟨hc, hu⟩, w, hrun, hnext 2 two_pos (by rw [nobjs_wide]; omega), hrest⟩

end Parsec.Slab
