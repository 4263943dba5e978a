import Parsec.Slab.Mem

/-!
# Runs of allocations alone

* `allocPrep_idle`, `memAlloc_new`, `memAlloc_pop` — what an allocation does where nothing has been
  freed remotely.
* `exists_filling` — a run in which one core has allocated the first objects of one slab, and
  `Filling.live`, that all are live once the slab is full.
* `exists_pending`, `exists_mixed` — runs that go on from there, with frees by another core, and a
  deferred free.
* `page` — the default geometry: a page of objects of one word.
-/

namespace Parsec.Slab

open Function Lib

/-! ## Allocations alone -/

section Idle

variable {ε ι : Type} {g : Geom} {f : Fns ε ι} {w : World ε} {c : ℕ}

/-- An empty list is drained at once. -/
@[simp] theorem drain_none (k : ℕ) (w : World ε) (ret : ℕ) :
    drain g f c k w none ret = some (w, ret) := by
  cases k <;> rfl

/-- There is nothing to drain where nothing has been freed remotely. -/
theorem clearLoop_idle (hr : ∀ k, w.remoteFrees k = none) (loc k : ℕ) :
    clearLoop g f c loc k w = some (w, 0) := by
  induction k with
  | zero => rfl
  | succ i ih =>
      have hself : update w.remoteFrees (c, loc, i) none = w.remoteFrees :=
        update_eq_self_iff.mpr (hr _).symm
      simp only [clearLoop, ih, Option.bind_eq_bind, Option.bind_some, hself, hr, drain_none]

/-- Where nothing has been freed remotely, an allocation starts by moving its token at most. -/
theorem allocPrep_idle (hr : ∀ k, w.remoteFrees k = none) (htok : w.remoteToken c < g.numLocalities) :
    ∃ n t, allocPrep g f w c = some { w with salloccnt := n, remoteToken := t } ∧
      ∀ c', t c' = w.remoteToken c' ∨ t c' < g.numLocalities := by
  have hloop : ∀ k w loc, 0 < k → (∀ k, w.remoteFrees k = none) →
      (∃ j, j + k = g.numLocalities ∧ loc = (w.remoteToken c + j) % g.numLocalities) →
      w.remoteToken c < g.numLocalities →
      ∃ loc', processLoop g f c k w loc = some (w, loc') ∧ loc' < g.numLocalities := by
    intro k
    induction k with
    | zero => exact fun w loc h => absurd h (by omega)
    | succ k ih =>
        rintro w loc - hr ⟨j, hj, hloc⟩ htok
        have hclear : memRemoteClear g f w c loc = some (w, 0) := clearLoop_idle hr loc _
        simp only [processLoop, hclear, Option.bind_eq_bind, Option.bind_some, true_and]
        have hnext : (loc + 1) % g.numLocalities = (w.remoteToken c + (j + 1)) % g.numLocalities := by
          rw [hloc, Nat.mod_add_mod, Nat.add_assoc]
        by_cases hgo : (loc + 1) % g.numLocalities ≠ w.remoteToken c
        · have hk : 0 < k := by
            rcases Nat.eq_zero_or_pos k with rfl | hk
            · have hj' : j + 1 = g.numLocalities := hj
              rw [hnext, hj', Nat.add_mod_right, Nat.mod_eq_of_lt htok] at hgo
              exact absurd rfl hgo
            · exact hk
          rw [if_pos hgo]
          exact ih w _ hk hr ⟨j + 1, by omega, hnext⟩ htok
        · rw [if_neg hgo]
          exact ⟨_, rfl, Nat.mod_lt _ (by omega)⟩
  have hpos : 0 < g.numLocalities := by omega
  unfold allocPrep
  by_cases hb : update w.salloccnt c ((w.salloccnt c + 1) % 2 ^ wordBits g.arch) c %
      g.remoteBatch = 0
  · obtain ⟨loc, hrun, hlt⟩ := hloop g.numLocalities { w with
      salloccnt := update w.salloccnt c ((w.salloccnt c + 1) % 2 ^ wordBits g.arch) }
      (w.remoteToken c) hpos hr ⟨0, Nat.zero_add _, by rw [Nat.add_zero, Nat.mod_eq_of_lt htok]⟩ htok
    refine ⟨update w.salloccnt c ((w.salloccnt c + 1) % 2 ^ wordBits g.arch),
      update w.remoteToken c loc, ?_, fun c' => ?_⟩
    · simp only [if_pos hb, memRemoteProcess, hrun, Option.bind_eq_bind, Option.bind_some]
    · by_cases hcc : c' = c
      · rw [hcc, update_self]
        exact .inr hlt
      · exact .inl (update_of_ne hcc ..)
  · exact ⟨update w.salloccnt c ((w.salloccnt c + 1) % 2 ^ wordBits g.arch), w.remoteToken,
      by simp only [if_neg hb], fun _ => .inl rfl⟩

end Idle

/-! ## Filling a slab -/

section Filling

variable {g : Geom} {s : St} {c k : ℕ}

/-- Core `c` has allocated `k` objects, all from slab `0`, in block `0`. -/
structure Filling (g : Geom) (c k : ℕ) (s : St) : Prop where
  inv : ∃ cont, Inv g s.w (fun _ => False) (fun _ => none) {o | s.live o = true} cont ∧
    ∀ c, cont (.queue c) = []
  log : Logged g s.w
  slabs : ∀ sl, s.w.slabs sl = true ↔ sl = 0
  memory : s.w.memory 0 = some 0
  coreid : s.w.coreid 0 = c
  nfree : s.w.nfree 0 + k = g.nobjs
  now : s.now = 0
  ps : ∀ c < g.numCores, s.w.ps c = true
  qmemtarget : ∀ c < g.numCores, s.w.qmemtarget c = g.qlistBatch

/-- Where every core frees its own objects only, nothing is freed remotely. -/
theorem Inv.remote_nil {ε : Type} {w : World ε} {H : Set Obj} {hd : ℕ → Option Obj}
    {cont : Key → List Obj} (hI : Inv g w (fun _ => False) hd H cont) (k : ℕ × ℕ × ℕ) :
    cont (.remote k) = [] ∧ w.remoteFrees k = none := by
  have hnil : cont (.remote k) = [] := by
    refine List.eq_nil_iff_forall_not_mem.mpr fun o ho => ?_
    obtain ⟨_, _, _, _, _, _, h, _⟩ := hI.members.listed _ o ho
    exact h
  have hch := hI.chains.chain (.remote k)
  rw [hnil] at hch
  exact ⟨hnil, hch⟩

/-- An allocation by a core without a free object, where nothing has been freed remotely. -/
theorem memAlloc_new {w : World (List Ev)} {P : ℕ → Prop} {H : Set Obj} {cont : Key → List Obj}
    (sl b : ℕ) (hI : Inv g w P (fun _ => none) H cont) (hlog : Logged g w) (hc : c < g.numCores)
    (hr : ∀ k, w.remoteFrees k = none) (hfl : w.flist c = none) (hu : Unused w (some (sl, b))) :
    ∃ w', memAlloc g (supplier g) w c (some (sl, b)) = some (some (g.obj b 0), w') ∧
      Inv g w' P (fun _ => none) (insert (g.obj b 0) H) (update cont (.free sl) (newFree g b)) ∧
      Logged g w' ∧ SameQueues w w' cont (update cont (.free sl) (newFree g b)) ∧
      w'.slabs = update w.slabs sl true ∧ w'.memory = update w.memory sl (some b) ∧
      w'.coreid = update w.coreid sl c ∧ w'.nfree = update w.nfree sl (g.nobjs - 1) := by
  have hB := backing_supplier g
  obtain ⟨n, t, hprep, ht⟩ := allocPrep_idle (f := supplier g) hr (hI.counters.token c)
  obtain ⟨w₁, hw₁⟩ : ∃ w₁ : World (List Ev), w₁ = { w with salloccnt := n, remoteToken := t } :=
    ⟨_, rfl⟩
  have hI₁ : Inv g w₁ P (fun _ => none) H cont := by
    rw [hw₁]
    exact hI.setToken fun c' => (ht c').elim (fun h => h ▸ hI.counters.token c') id
  have hsame : SameEnv w w₁ ∧ Unused w₁ (some (sl, b)) ∧ w₁.flist c = none ∧
      SameQueues w w₁ cont cont ∧ w₁.coreid = w.coreid ∧ w₁.nfree = w.nfree := by
    subst hw₁
    exact ⟨⟨rfl, rfl, rfl, rfl, rfl⟩, hu, hfl, ⟨fun _ => rfl, fun _ _ _ => rfl, rfl, rfl, rfl⟩, rfl,
      rfl⟩
  obtain ⟨hw, hu₁, hfl₁, hq₁, hcore, hnf⟩ := hsame
  obtain ⟨o, w₂, hafn, hU, ho⟩ := hB.afn g.allocsz c (hB.congr hw hlog) hu₁
  obtain ⟨rfl, hw₂⟩ : o = some sl ∧ w₂.memory = update w₁.memory sl (some b) := by
    have h := (Prod.mk.inj (Option.some.inj hafn))
    exact ⟨h.1.symm, by rw [← h.2]⟩
  have hI₂ := hU.inv hI₁
  obtain ⟨⟨hs, b', hb', hbs, hz⟩, hK⟩ := ho
  obtain rfl : b' = b := by
    rw [hw₂, update_self] at hb'
    exact (Option.some.inj hb').symm
  obtain ⟨w', hrun, hN⟩ := newSlab_run hI₂.freelists.lists (fun c h => by rw [hs] at h; cases h.1)
    hb' c
  obtain ⟨-, hI', hq'⟩ := inv_newSlab hI₂ hs hb' hbs hz hc hN
  obtain ⟨h₁, h₂, h₃, h₄, -⟩ := hN.rest
  have hw' : SameEnv { w₂ with slabs := update w₂.slabs sl true } w' := ⟨h₁, h₂, h₃, hN.slabs, h₄⟩
  refine ⟨w', ?_, hI', hB.congr hw' hK, (hq₁.trans (hU.kept hI₁).toSameQueues).trans hq', ?_, ?_, ?_,
    ?_⟩
  · unfold memAlloc
    rw [← hw₁] at hprep
    simp only [if_pos (objSz_le_allocsz g), hprep, Option.bind_eq_bind, Option.bind_some, hfl₁, hafn]
    exact hrun
  · rw [hN.slabs, hU.slabs, hw.slabs]
  · rw [h₁, hw₂, hw.memory]
  · rw [hN.coreid, hU.coreid, hcore]
  · rw [hN.nfree, hU.nfree, hnf]

/-- An allocation by a core with a free object, where nothing has been freed remotely. -/
theorem memAlloc_pop {w : World (List Ev)} {P : ℕ → Prop} {H : Set Obj} {cont : Key → List Obj}
    {sl : ℕ} (hI : Inv g w P (fun _ => none) H cont) (hlog : Logged g w)
    (hr : ∀ k, w.remoteFrees k = none) (hfl : w.flist c = some sl) (i : Option (ℕ × ℕ)) :
    ∃ o w' cont', memAlloc g (supplier g) w c i = some (some o, w') ∧
      Inv g w' P (fun _ => none) (insert o H) cont' ∧ Logged g w' ∧ SameQueues w w' cont cont' ∧
      SameSlabs w w' ∧ w'.nfree = update w.nfree sl (w.nfree sl - 1) := by
  obtain ⟨n, t, hprep, ht⟩ := allocPrep_idle (f := supplier g) hr (hI.counters.token c)
  obtain ⟨w₁, hw₁⟩ : ∃ w₁ : World (List Ev), w₁ = { w with salloccnt := n, remoteToken := t } :=
    ⟨_, rfl⟩
  have hI₁ : Inv g w₁ P (fun _ => none) H cont := by
    rw [hw₁]
    exact hI.setToken fun c' => (ht c').elim (fun h => h ▸ hI.counters.token c') id
  have hsame : SameSlabs w w₁ ∧ w₁.flist c = some sl ∧ SameQueues w w₁ cont cont ∧
      w₁.nfree = w.nfree := by
    subst hw₁
    exact ⟨⟨⟨rfl, rfl, rfl, rfl, rfl⟩, rfl, rfl, rfl⟩, hfl,
      ⟨fun _ => rfl, fun _ _ _ => rfl, rfl, rfl, rfl⟩, rfl⟩
  obtain ⟨hw, hfl₁, hq₁, hnf⟩ := hsame
  obtain ⟨hs, hcore, h0⟩ := hI₁.freelists.lists.head_some hfl₁
  obtain ⟨o, w', cont', hrun, -, hI', hK', hq', hw', hnf'⟩ := popFree_spec (backing_supplier g) hI₁
    ((backing_supplier g).congr hw.toSameEnv hlog) hs hcore h0
  refine ⟨o, w', cont', ?_, hI', hK', hq₁.trans hq', ?_, by rw [hnf', hnf]⟩
  · unfold memAlloc
    rw [← hw₁] at hprep
    simp only [if_pos (objSz_le_allocsz g), hprep, Option.bind_eq_bind, Option.bind_some, hfl₁, hrun,
      Option.map_some]
  · exact ⟨⟨hw'.memory.trans hw.memory, hw'.start.trans hw.start, hw'.end_.trans hw.end_,
      hw'.slabs.trans hw.slabs, hw'.env.trans hw.env⟩, hw'.slab.trans hw.slab,
      hw'.coreid.trans hw.coreid, hw'.nslabs.trans hw.nslabs⟩

/-- A memory with deferred frees that has just been set up. -/
def start (g : Geom) : St where
  w := memptrInit g (slabptrInit
    { tscFree := fun _ => 0, slab := fun _ => none, next := fun _ => none, memory := fun _ => none,
      start := fun _ => 0, end_ := fun _ => 0, memsz := fun _ => 0, coreid := fun _ => 0,
      freelist := fun _ => none, nfree := fun _ => 0, slabs := fun _ => false, listN := fun _ => 0,
      listP := fun _ => 0, flist := fun _ => none, salloccnt := fun _ => 0,
      remoteToken := fun _ => 0, nslabs := fun _ => 0, remoteFrees := fun _ => none, pushed := 0,
      ps := fun _ => false, qscHead := fun _ => none, qscTail := fun _ => none,
      qmemcnt := fun _ => 0, qmemtarget := fun _ => 0, env := [] })
  live := fun _ => false
  now := 0

/-- A memory that has just been set up is one. -/
theorem start_init (g : Geom) : (memLts g).init (start g) := ⟨_, rfl, .inr rfl, fun _ => rfl⟩

/-- The first allocation of a core, which sets up a slab. -/
theorem exists_filling_first (hc : c < g.numCores) :
    ∃ s, (memLts g).Reach (Ok g) s ∧ Filling g c 1 s ∧ s.live (g.obj 0 0) = true := by
  have hM : MemInv g (fun _ => False) (start g) fun _ => [] := memInv_init (start_init g)
  obtain ⟨w, hrun, hI, hlog, hq, hs, hm, hcore, hnf⟩ := memAlloc_new 0 0 hM.inv hM.log
    hc (fun _ => rfl) rfl fun s b _ => ⟨rfl, fun s' h => by cases h⟩
  have hstep : step g (start g) (.alloc c (some (0, 0))) =
      some { start g with w := w, live := update (start g).live (g.obj 0 0) true } := by
    simp only [step, hrun, Option.map_some]
  have hok : Ok g (start g) (.alloc c (some (0, 0))) := by
    refine ⟨hc, fun w₁ hprep _ sl b _ => ?_⟩
    obtain ⟨n, t, hprep', -⟩ := allocPrep_idle (g := g) (f := supplier g) (c := c)
      (w := (start g).w) (fun _ => rfl) (hM.inv.counters.token c)
    rw [hprep] at hprep'
    rw [Option.some.inj hprep']
    exact ⟨rfl, fun s' h => by cases h⟩
  refine ⟨{ start g with w := w, live := update (start g).live (g.obj 0 0) true },
    (Lts.Reach.init (start_init g)).step hok hstep,
    ⟨⟨update (fun _ => []) (.free 0) (newFree g 0), ?_, fun c' => ?_⟩, hlog, ?_, ?_, ?_, ?_, rfl,
      fun c' hc' => ?_, fun c' hc' => ?_⟩, update_self ..⟩
  · rw [← setOf_update_true] at hI
    exact hI
  · exact update_of_ne (by simp) ..
  · intro sl
    show w.slabs sl = true ↔ sl = 0
    rw [hs, update_apply]
    by_cases h : sl = 0
    · simp [h]
    · simp [h, start, memptrInit, slabptrInit]
  · show w.memory 0 = some 0
    rw [hm, update_self]
  · show w.coreid 0 = c
    rw [hcore, update_self]
  · show w.nfree 0 + 1 = g.nobjs
    have hpos := nobjs_pos g
    rw [hnf, update_self]
    omega
  · show w.ps c' = true
    rw [hq.ps]
    exact if_pos hc'
  · show w.qmemtarget c' = g.qlistBatch
    rw [hq.qmemtarget]
    exact if_pos hc'

/-- A core goes on to allocate from its slab. -/
theorem exists_filling (hc : c < g.numCores) (hk : k < g.nobjs) :
    ∃ s, (memLts g).Reach (Ok g) s ∧ Filling g c (k + 1) s := by
  induction k with
  | zero =>
      obtain ⟨s, hs, hF, -⟩ := exists_filling_first hc
      exact ⟨s, hs, hF⟩
  | succ k ih =>
      obtain ⟨s, hs, hF⟩ := ih (by omega)
      obtain ⟨cont, hI, hqueue⟩ := hF.inv
      have hnf := hF.nfree
      have hr : ∀ k, s.w.remoteFrees k = none := fun k => (hI.remote_nil k).2
      have hfl : s.w.flist c = some 0 := by
        have hon : s.w.slabs 0 = true ∧ s.w.coreid 0 = c ∧ s.w.nfree 0 ≠ 0 :=
          ⟨(hF.slabs 0).mpr rfl, hF.coreid, by omega⟩
        rcases h : s.w.flist c with _ | sl
        · exact absurd hon (hI.freelists.lists.head_none h)
        · rw [(hF.slabs sl).mp (hI.freelists.lists.head_some h).1]
      obtain ⟨o, w, cont', hrun, hI', hlog, hq, hw, hnf'⟩ := memAlloc_pop hI hF.log hr hfl none
      have hstep : step g s (.alloc c none) = some { s with w := w, live := update s.live o true } := by
        simp only [step, hrun, Option.map_some]
      have hok : Ok g s (.alloc c none) := ⟨hc, fun _ _ _ _ _ h => by cases h⟩
      refine ⟨{ s with w := w, live := update s.live o true }, hs.step hok hstep,
        ⟨⟨cont', ?_, fun c' => ?_⟩, hlog, ?_, ?_, ?_, ?_, hF.now, fun c' hc' => ?_,
          fun c' hc' => ?_⟩⟩
      · rw [← setOf_update_true] at hI'
        exact hI'
      · rw [hq.queue, hqueue]
      · exact hw.slabs ▸ hF.slabs
      · exact hw.memory ▸ hF.memory
      · exact hw.coreid ▸ hF.coreid
      · show w.nfree 0 + (k + 1 + 1) = g.nobjs
        rw [hnf', update_self]
        omega
      · exact hq.ps ▸ hF.ps c' hc'
      · exact hq.qmemtarget ▸ hF.qmemtarget c' hc'

/-- All objects of a slab are live. -/
theorem Filling.live (hF : Filling g c g.nobjs s) {i : ℕ} (hi : i < g.nobjs) :
    s.live (g.obj 0 i) = true := by
  obtain ⟨cont, hI, hqueue⟩ := hF.inv
  have h0 : s.w.nfree 0 = 0 := by
    have := hF.nfree
    omega
  have hin : InSlab g s.w 0 (g.obj 0 i) := ⟨(hF.slabs 0).mpr rfl, 0, i, hF.memory, hi, rfl⟩
  rcases hI.members.total 0 _ hin with h | ⟨k, hk⟩
  · exact h
  · cases k with
    | free sl =>
        have hlen := hI.freelists.nfree 0 ((hF.slabs 0).mpr rfl)
        obtain ⟨sl', hs', rfl, -⟩ := hI.members.listed _ _ hk
        have he := hI.slabs.eq_of_inSlab hin hs'
        subst he
        rw [h0] at hlen
        exact absurd (List.length_pos_of_mem hk) (by omega)
    | queue c =>
        rw [hqueue] at hk
        cases hk
    | remote k =>
        rw [(hI.remote_nil k).1] at hk
        cases hk
    | drain c =>
        rw [hI.drain_nil] at hk
        cases hk

/-! ## Objects in all places -/

/-- Core 0 has allocated all objects of a slab, and core 1 has freed the first `m` of them. -/
structure Pending (g : Geom) (m : ℕ) (s : St) : Prop where
  slabs : s.w.slabs 0 = true
  memory : s.w.memory 0 = some 0
  coreid : s.w.coreid 0 = 0
  live : ∀ i, m ≤ i → i < g.nobjs → s.live (g.obj 0 i) = true
  chain : Chain s.w.next (s.w.remoteFrees (remoteKey g 1 0)) ((List.range m).map (g.obj 0)).reverse
  others : ∀ k, k ≠ remoteKey g 1 0 → s.w.remoteFrees k = none
  queue : ∀ c, s.w.qscHead c = none ∧ s.w.qscTail c = none ∧ s.w.qmemcnt c = 0
  now : s.now = 0
  ps : ∀ c < g.numCores, s.w.ps c = true
  qmemtarget : ∀ c < g.numCores, s.w.qmemtarget c = g.qlistBatch

/-- A run in which a core has freed objects of another one. -/
theorem exists_pending (hfit : CountFits g) (hc : 1 < g.numCores) {m : ℕ} (hm : m ≤ g.nobjs) :
    ∃ s, (memLts g).Reach (Ok g) s ∧ Pending g m s := by
  induction m with
  | zero =>
      have hpos := nobjs_pos g
      obtain ⟨s, hs, hF⟩ := exists_filling (g := g) (c := 0) (k := g.nobjs - 1) (by omega) (by omega)
      have h1 : g.nobjs - 1 + 1 = g.nobjs := by omega
      rw [h1] at hF
      obtain ⟨cont, hI, hqueue⟩ := hF.inv
      refine ⟨s, hs, (hF.slabs 0).mpr rfl, hF.memory, hF.coreid, fun i _ hi => hF.live hi, ?_,
        fun k _ => (hI.remote_nil k).2, fun c => ⟨?_, ?_, ?_⟩, hF.now, hF.ps, hF.qmemtarget⟩
      · exact (hI.remote_nil _).2
      · have hch := hI.chains.chain (.queue c)
        rw [hqueue] at hch
        exact hch
      · have htail := hI.counters.tail c
        rw [hqueue] at htail
        exact htail
      · rw [hI.counters.cnt, hqueue]
        rfl
  | succ m ih =>
      obtain ⟨s, hs, hP⟩ := ih (by omega)
      obtain ⟨cont, hM⟩ := exists_memInv_of_reach hfit hs
      have hlive := hP.live m le_rfl (by omega)
      have hslab := hM.inv.slabs.slab 0 (g.obj 0 m) ⟨hP.slabs, 0, m, hP.memory, by omega, rfl⟩
      have hrun : memFree g (supplier g) s.w (g.obj 0 m) 1 =
          some (memRemoteFree g s.w (g.obj 0 m) 1 0) := by
        unfold memFree
        rw [if_pos ⟨g.fits, (hM.inv.members.held _ hlive).tscFree⟩, hslab]
        simp [hP.coreid]
      have hstep : step g s (.free 1 (g.obj 0 m)) = some { s with
          w := memRemoteFree g s.w (g.obj 0 m) 1 0
          live := update s.live (g.obj 0 m) false } := by
        simp only [step, hrun, Option.map_some]
      have hok : Ok g s (.free 1 (g.obj 0 m)) := ⟨hc, hlive⟩
      refine ⟨_, hs.step hok hstep, hP.slabs, hP.memory, hP.coreid, fun i hi hin => ?_, ?_,
        fun k hk => ?_, hP.queue, hP.now, hP.ps, hP.qmemtarget⟩
      · have hne : g.obj 0 i ≠ g.obj 0 m := fun he => by
          have := (obj_inj he).2
          omega
        exact (update_of_ne hne ..).trans (hP.live i (by omega) hin)
      · have hoff := hM.inv.members.off _ hlive (.remote (remoteKey g 1 0))
        have hlist := hP.chain.unique (hM.inv.chains.chain (.remote (remoteKey g 1 0)))
        rw [← hlist] at hoff
        have hpush := hP.chain.push hoff
        rw [List.range_succ, List.map_append, List.reverse_append]
        simpa [memRemoteFree] using hpush
      · exact (update_of_ne hk ..).trans (hP.others k hk)

/-- Of a slab of core 0, the first object is on a remote list, the next one on the quiescence queue,
and the third one is live. -/
structure Mixed (g : Geom) (s : St) : Prop where
  remote : s.w.remoteFrees (remoteKey g 1 0) = some (g.obj 0 0) ∧ s.w.next (g.obj 0 0) = none
  others : ∀ k, k ≠ remoteKey g 1 0 → s.w.remoteFrees k = none
  queue : s.w.qscHead 0 = some (g.obj 0 1)
  live : s.live (g.obj 0 2) = true
  ps : ∀ c < g.numCores, s.w.ps c = true

/-- A run in which a core has freed an object of another one, and that one has freed an object that
has not quiesced. -/
theorem exists_mixed (hfit : CountFits g) (hc : 1 < g.numCores) (hn : 2 < g.nobjs)
    (hq : 1 < g.qlistBatch) : ∃ s, (memLts g).Reach (Ok g) s ∧ Mixed g s := by
  obtain ⟨s, hs, hP⟩ := exists_pending (m := 1) hfit hc (by omega)
  have h0 : 0 < g.numCores := by omega
  have hlive := hP.live 1 le_rfl (by omega)
  obtain ⟨hhead, htail, hcnt⟩ := hP.queue 0
  obtain ⟨hremote, hlast⟩ := hP.chain
  obtain ⟨w, hw⟩ : ∃ w, w = { s.w with
      tscFree := update s.w.tscFree (g.obj 0 1) 1
      qscHead := update s.w.qscHead 0 (some (g.obj 0 1))
      qscTail := update s.w.qscTail 0 (some (g.obj 0 1))
      qmemcnt := update s.w.qmemcnt 0 1 } := ⟨_, rfl⟩
  have hrun : smrFree g (supplier g) s.w (g.obj 0 1) 0 1 0 false = some w := by
    have hlt : ¬ s.w.qmemtarget 0 ≤ 1 := by
      rw [hP.qmemtarget 0 h0]
      exact not_le.mpr hq
    simp only [smrFree, qscEnqueue, htail, hcnt, update_self, Nat.zero_add, if_neg hlt, hw]
  have hstep : step g s (.smrFree 0 (g.obj 0 1) 1 0 false) = some
      { w := w, live := update s.live (g.obj 0 1) false, now := 1 } := by
    simp only [step, hrun, Option.map_some]
  have hok : Ok g s (.smrFree 0 (g.obj 0 1) 1 0 false) := by
    refine ⟨h0, hlive, ?_, hP.ps 0 h0⟩
    rw [hP.now]
    exact Nat.one_pos
  have hne : g.obj 0 2 ≠ g.obj 0 1 := fun he => by
    have := (obj_inj he).2
    omega
  have hsame : w.remoteFrees = s.w.remoteFrees ∧ w.next = s.w.next ∧ w.ps = s.w.ps := by
    rw [hw]
    exact ⟨rfl, rfl, rfl⟩
  obtain ⟨hrf, hnext, hps⟩ := hsame
  refine ⟨_, hs.step hok hstep, ⟨?_, ?_⟩, fun k hk => ?_, ?_, ?_, fun c hc => ?_⟩
  · exact (congrFun hrf _).trans hremote
  · exact (congrFun hnext _).trans hlast
  · exact (congrFun hrf k).trans (hP.others k hk)
  · rw [hw]
    show update s.w.qscHead 0 (some (g.obj 0 1)) 0 = _
    exact update_self ..
  · show update s.live (g.obj 0 1) false (g.obj 0 2) = true
    rw [update_of_ne hne]
    exact hP.live 2 (by omega) hn
  · exact (congrFun hps c).trans (hP.ps c hc)

end Filling

/-- `PS_SLAB_CREATE_DEF(name, 8)` on x86-64, in the default configuration.
Source: `ps_slab.h`, `PS_SLAB_CREATE_DEF`, `struct ps_slab`; `ps_config.h` -/
def page : Geom where
  arch := .x86_64
  objSz := 8
  allocsz := 4096
  headoff := 96
  numCores := 4
  numLocalities := 1
  locality := fun _ => 0
  remoteBatch := 64
  qlistBatch := 128
  objSz_le := by decide
  allocsz_lt := by decide
  fits := by decide
  locality_lt := fun _ => Nat.one_pos
  qlistBatch_pos := by decide

/-- The objects of a page. -/
theorem nobjs_page : page.nobjs = 125 := by decide

end Parsec.Slab
