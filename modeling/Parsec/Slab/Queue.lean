import Parsec.Slab.Wide

/-!
# Quiescence queues over whole runs

* `queuesExact_of_reach` — a quiescence queue is a list that ends at its tail, ordered by the times
  of the frees, of as many objects as are counted; and a reclamation takes from it exactly the
  objects that have quiesced, a batch at most.
-/

namespace Parsec.Slab

open Function Lib

variable {g : Geom} {s : St}

/-- The quiescence queue of core `c`. -/
def OnQueue {ε : Type} (w : World ε) (c : ℕ) (l : List Obj) : Prop :=
  Chain w.next (w.qscHead c) l ∧ w.qscTail c = l.getLast?

/-- The queues of a memory with deferred frees are ordered and accounted for, and a deferred free that
starts a reclamation does not fail. -/
structure QueuesExact (g : Geom) (s : St) : Prop where
  queue : ∀ c, s.w.ps c = true → ∃ l, OnQueue s.w c l ∧ l.length = s.w.qmemcnt c ∧
    l.Pairwise fun a b => s.w.tscFree a < s.w.tscFree b
  lt : ∀ c, s.w.ps c = true → s.w.qmemcnt c < s.w.qmemtarget c
  target : ∀ c, s.w.ps c = true → g.qlistBatch ≤ s.w.qmemtarget c
  reclaim : ∀ c o tsc qsc busy l, Ok g s (.smrFree c o tsc qsc busy) → OnQueue s.w c l →
    s.w.qmemtarget c ≤ (l ++ [o]).length → g.qlistBatch ≤ (l ++ [o]).length ∧
      ∃ s', step g s (.smrFree c o tsc qsc busy) = some s' ∧ OnQueue s'.w c ((l ++ [o]).drop
        (reclaimable (update s.w.tscFree o tsc) qsc g.qlistBatch (l ++ [o])).length)

section Proofs

variable {P : ℕ → Prop} {cont : Key → List Obj}

/-- The queue of a core, from the invariant. -/
theorem Inv.onQueue {w : World (List Ev)} {H : Set Obj} (hI : Inv g w P (fun _ => none) H cont)
    (c : ℕ) : OnQueue w c (cont (.queue c)) :=
  ⟨hI.chains.chain (.queue c), hI.counters.tail c⟩

/-- The invariant says that the queues are ordered and accounted for. -/
theorem MemInv.queuesExact (hfit : CountFits g) (hM : MemInv g (fun _ => True) s cont) :
    QueuesExact g s := by
  have hI := hM.inv
  constructor
  · exact fun c _ => ⟨_, hI.onQueue c, (hI.counters.cnt c).symm, hM.queues.sorted c⟩
  · exact hM.queues.lt
  · exact hI.counters.target
  · rintro c o tsc qsc busy l ⟨hc, ho, hnow, hps⟩ hl hge
    obtain rfl : l = cont (.queue c) := hl.1.unique (hI.onQueue c).1
    have ht : tsc ≠ 0 := Nat.ne_of_gt ((Nat.zero_le _).trans_lt hnow)
    obtain ⟨w', cont', hrun, hI', -, hq⟩ := smrFree_spec (backing_supplier g) hfit hI hM.log ho hc
      (fun _ _ => .inr trivial) ht hps qsc busy
    have hge' : s.w.qmemtarget c ≤ (queued cont c o).length := hge
    rw [if_pos hge'] at hq
    refine ⟨(hI.counters.target c hps).trans hge, { w := w', live := update s.live o false, now := tsc },
      ?_, ?_⟩
    · simp only [step, hrun, Option.map_some]
    · have hon := hI'.onQueue c
      rw [hq.1.self] at hon
      exact hon

end Proofs

/-- **The queues stay ordered and accounted for** along every run, if a slab has fewer objects than an
`unsigned int` counts, or a multiple of that. -/
theorem queuesExact_of_reach (hfit : CountFits g) (h : (memLts g).Reach (Ok g) s) :
    QueuesExact g s := by
  obtain ⟨cont, hM⟩ := exists_memInv_of_reach hfit h
  exact hM.queuesExact hfit

/-- Core 0 has freed an object that has not quiesced, and core 1 one of core 0's. -/
theorem queuesExact_page : ∃ s, (memLts page).Reach (Ok page) s ∧
    s.w.qscHead 0 = some (page.obj 0 1) ∧
    s.w.remoteFrees (remoteKey page 1 0) = some (page.obj 0 0) ∧ QueuesExact page s := by
  have hfit : CountFits page := .inl (by decide)
  obtain ⟨s, hs, hX⟩ := exists_mixed (g := page) hfit (by decide) (by decide) (by decide)
  exact ⟨s, hs, hX.queue, hX.remote.1, queuesExact_of_reach hfit hs⟩

/-- A deferred free where batches are of one object and the queue is empty, of an object that has not
quiesced. -/
theorem smrFree_early {w : World (List Ev)} {o : Obj} {c : ℕ} (tsc qsc : ℕ) (hb : g.qlistBatch = 1)
    (htail : w.qscTail c = none) (hcnt : w.qmemcnt c = 0) (htg : w.qmemtarget c = 1)
    (hps : w.ps c = true) (hlt : qsc < tsc) :
    ∃ w', smrFree g (supplier g) w o c tsc qsc false = some w' ∧ w'.qscHead c = some o ∧
      w'.next = w.next ∧ w'.qmemcnt c = 1 ∧ w'.ps = w.ps := by
  have ht : tsc ≠ 0 := by omega
  refine ⟨{ w with
    tscFree := update w.tscFree o tsc
    qscHead := update w.qscHead c (some o)
    qscTail := update w.qscTail c (some o)
    qmemcnt := update w.qmemcnt c 1
    qmemtarget := update w.qmemtarget c (w.qmemtarget c + 1) }, ?_, update_self .., rfl, update_self .., rfl⟩
  unfold smrFree smrReclaim
  simp only [qscEnqueue, htail, hcnt, htg, hps, hb, update_self, reclaimLoop]
  simp [ht, hlt, htg]

/-- Where the count of a slab's objects is one, a queue of one object does not end behind it. -/
theorem not_queuesExact_wide :
    ¬ ∀ s, (memLts wide).Reach (Ok wide) s → QueuesExact wide s := by
  intro h
  obtain ⟨s, hs, hR⟩ := exists_released two_pos
  obtain ⟨hok, w, hrun, hnext, htail, hcnt, htg, hps⟩ := hR.memAlloc two_pos
  have hstep : step wide s (.alloc 0 (some (0, 0))) =
      some { s with w := w, live := update s.live (wide.obj 0 0) true } := by
    simp only [step, hrun, Option.map_some]
  have hps0 := hR.ps 0 two_pos
  obtain ⟨w', hrun', hhead, hnext', hcnt', hps'⟩ := smrFree_early (g := wide) (w := w) (o := wide.obj 0 2)
    2 0 rfl (htail ▸ hR.qscTail) (hcnt ▸ hR.qmemcnt) (htg ▸ hR.qmemtarget)
    (hps ▸ hps0) two_pos
  have hlive : update s.live (wide.obj 0 0) true (wide.obj 0 2) = true := by
    rw [update_of_ne fun h => by simpa using (obj_inj h).2]
    exact hR.live 2 (by rw [nobjs_wide]; omega) (by omega)
  have hok' : Ok wide { s with w := w, live := update s.live (wide.obj 0 0) true }
      (.smrFree 0 (wide.obj 0 2) 2 0 false) :=
    ⟨two_pos, hlive, by show s.now < 2; rw [hR.now]; omega, hps ▸ hps0⟩
  have hstep' : step wide { s with w := w, live := update s.live (wide.obj 0 0) true }
      (.smrFree 0 (wide.obj 0 2) 2 0 false) = some
        { w := w', live := update (update s.live (wide.obj 0 0) true) (wide.obj 0 2) false, now := 2 }
      := by
    simp only [step, hrun', Option.map_some]
  obtain ⟨l, hl, hlen, -⟩ :=
    (h _ ((hs.step hok hstep).step hok' hstep')).queue 0 (by rw [hps', hps]; exact hps0)
  -- the object was behind others on its slab's freelist when it was enqueued
  have hch : Chain w'.next (w'.qscHead 0) l := hl.1
  rw [hhead, chain_some_iff] at hch
  obtain ⟨l', rfl, hch⟩ := hch
  rw [hnext', hnext, chain_some_iff] at hch
  obtain ⟨l'', rfl, -⟩ := hch
  have hlen : l''.length + 1 + 1 = w'.qmemcnt 0 := hlen
  omega

end Parsec.Slab
