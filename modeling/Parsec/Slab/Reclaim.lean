import Parsec.Slab.Alloc

/-!
# Deferred frees keep the invariant

An object that is freed goes to the end of the queue of the core that frees it (`inv_enqueue`). When
the queue is long enough, its core takes objects from the front (`inv_dequeue`), and frees them
(`reclaimLoop_spec`, an induction on the rounds of the loop). `smrFree_spec` is the call, and says
what is left of the queue: `reclaimable` is what the loop takes.
-/

namespace Parsec.Slab

open Function Lib

variable {ε ι : Type} {g : Geom} {f : Fns ε ι} {A : World ε → ℕ → ι → Prop} {K : World ε → Prop}
  {P : ℕ → Prop} {w w' : World ε} {hd : ℕ → Option Obj} {H : Set Obj} {cont : Key → List Obj}
  {o : Obj} {c tsc qsc : ℕ}

/-! ## The two ends of a queue -/

/-- A held object goes to the end of a queue. -/
theorem inv_enqueue (hI : Inv g w P hd H cont) (ho : o ∈ H) (hc : c < g.numCores)
    (hP : ∀ s, InSlab g w s o → w.coreid s = c ∨ P c) (ht : tsc ≠ 0)
    (hw' : w' = { qscEnqueue { w with tscFree := update w.tscFree o tsc } c o with
      qmemcnt := update w.qmemcnt c (w.qmemcnt c + 1) }) :
    Inv g w' P hd (H \ {o}) (update cont (.queue c) (cont (.queue c) ++ [o])) := by
  obtain ⟨⟨s, hs⟩, -, hx⟩ := hI.members.held o ho
  have hoff := hI.members.off o ho
  have htail := hI.counters.tail c
  have htsc : w'.tscFree = update w.tscFree o tsc := by
    rw [hw']
    unfold qscEnqueue
    split <;> rfl
  have hw : SameSlabs w w' := by
    subst hw'
    unfold qscEnqueue
    split <;> exact ⟨⟨rfl, rfl, rfl, rfl, rfl⟩, rfl, rfl, rfl⟩
  have hqt : w'.qscTail = update w.qscTail c (some o) := by
    rw [hw']
    unfold qscEnqueue
    split <;> rfl
  have hqc : w'.qmemcnt = update w.qmemcnt c (w.qmemcnt c + 1) := by rw [hw']
  have hlists : w'.nfree = w.nfree ∧ w'.listN = w.listN ∧ w'.listP = w.listP ∧
      w'.flist = w.flist := by
    subst hw'
    unfold qscEnqueue
    split <;> exact ⟨rfl, rfl, rfl, rfl⟩
  have hrest : w'.qmemtarget = w.qmemtarget ∧ w'.ps = w.ps ∧ w'.pushed = w.pushed ∧
      w'.remoteToken = w.remoteToken := by
    subst hw'
    unfold qscEnqueue
    split <;> exact ⟨rfl, rfl, rfl, rfl⟩
  -- a queue that is not empty leads from its last object to the new one
  have hchains : Chains w'.next (heads g w' hd)
      (update cont (.queue c) (cont (.queue c) ++ [o])) ∧
      ∀ a ∈ H, a ≠ o → w'.next a = w.next a := by
    rcases hq : w.qscTail c with _ | t
    · rw [hq] at htail
      have hnil : cont (.queue c) = [] := List.getLast?_eq_none_iff.mp htail.symm
      have hnext : w'.next = w.next := by
        rw [hw']
        simp only [qscEnqueue, hq]
      have hh : heads g w' hd = update (heads g w hd) (.queue c) (some o) := by
        rw [hw']
        simp only [qscEnqueue, hq]
        exact heads_queue rfl rfl rfl rfl
      rw [hh, hnext, hnil]
      exact ⟨hI.chains.singleton hoff hnil hx, fun _ _ _ => rfl⟩
    · rw [hq] at htail
      obtain ⟨p, hp⟩ := List.getLast?_eq_some_iff.mp htail.symm
      have hnext : w'.next = update w.next t (some o) := by
        rw [hw']
        simp only [qscEnqueue, hq]
      have hh : heads g w' hd = heads g w hd := by
        rw [hw']
        simp only [qscEnqueue, hq]
        exact heads_congr rfl rfl rfl rfl
      have ht : t ∈ cont (.queue c) := by simp [hp]
      rw [hh, hnext, hp, List.append_assoc]
      refine ⟨hI.chains.snoc hoff hp hx, fun a ha _ => update_of_ne ?_ ..⟩
      rintro rfl
      exact hI.members.off _ ha _ ht
  obtain ⟨hchains, hxx⟩ := hchains
  obtain ⟨h₁, h₂, h₃, h₄⟩ := hlists
  obtain ⟨h₅, h₆, h₇, h₈⟩ := hrest
  refine ⟨hchains, hw.slabs_of hI.slabs, ⟨?_, ?_, ?_, ?_⟩, ?_, ⟨?_, ?_, ?_, ?_, ?_⟩⟩
  · intro s' hs'
    rw [update_of_ne (by simp), h₁]
    exact hI.freelists.nfree s' (hw.slabs ▸ hs')
  · rw [hw.slabs, h₁]
    exact hI.freelists.lt
  · rw [h₂, h₃, h₄, hw.slabs, hw.coreid, h₁]
    exact hI.freelists.lists
  · rw [h₂, h₃, hw.slabs, h₁]
    exact hI.freelists.single
  · refine hI.members.put hw ho (by simp [or_comm]) (fun a hne => ?_) hxx ?_
    · rw [htsc, update_of_ne hne]
    · refine ⟨s, hw.inSlab.mpr hs, hc, ?_, ?_⟩
      · rw [hw.coreid]
        exact hP s hs
      · rw [htsc, update_self]
        exact ht
  · intro c'
    rw [hqt]
    by_cases hcc : c' = c
    · subst hcc
      rw [update_self, update_self]
      simp
    · rw [update_of_ne hcc, update_of_ne (by simp [hcc])]
      exact hI.counters.tail c'
  · intro c'
    rw [hqc]
    by_cases hcc : c' = c
    · subst hcc
      rw [update_self, update_self, hI.counters.cnt, List.length_append, List.length_singleton]
    · rw [update_of_ne hcc, update_of_ne (by simp [hcc])]
      exact hI.counters.cnt c'
  · rw [h₅, h₆]
    exact hI.counters.target
  · intro k
    rw [update_of_ne (by simp), h₇]
    exact hI.counters.pushed k
  · rw [h₈]
    exact hI.counters.token

/-- The first object of a queue is taken, to be freed. -/
theorem inv_dequeue (hI : Inv g w P hd H cont) {l : List Obj} (hl : cont (.queue c) = o :: l)
    (hw' : w' = { qscDequeue w c o with
      tscFree := update w.tscFree o 0
      next := update (qscDequeue w c o).next o none
      qmemcnt := update w.qmemcnt c (w.qmemcnt c - 1) }) :
    Inv g w' P hd (insert o H) (update cont (.queue c) l) := by
  have ho : o ∈ cont (.queue c) := hl ▸ List.mem_cons_self
  obtain ⟨s, hs, -⟩ := hI.members.listed _ o ho
  have hw : SameSlabs w w' := by
    subst hw'
    exact ⟨⟨rfl, rfl, rfl, rfl, rfl⟩, rfl, rfl, rfl⟩
  have hnext : w'.next = update w.next o none := by
    rw [hw']
    exact update_idem ..
  have htsc : w'.tscFree = update w.tscFree o 0 := by rw [hw']
  have hh : heads g w' hd = update (heads g w hd) (.queue c) (w.next o) := by
    subst hw'
    exact heads_queue rfl rfl rfl rfl
  have hnd := hI.chains.nodup (.queue c)
  rw [hl] at hnd
  have htail := hI.counters.tail c
  have hcnt := hI.counters.cnt c
  rw [hl] at htail hcnt
  constructor
  · rw [hnext, hh]
    exact hI.chains.pop hl none
  · exact hw.slabs_of hI.slabs
  · subst hw'
    constructor
    · intro s' hs'
      rw [update_of_ne (by simp)]
      exact hI.freelists.nfree s' hs'
    · exact hI.freelists.lt
    · exact hI.freelists.lists
    · exact hI.freelists.single
  · refine hI.members.take hI.chains hw hl (fun a hne => ?_) (fun a hne => ?_)
      ⟨⟨s, hw.inSlab.mpr hs⟩, ?_, ?_⟩
    · rw [htsc, update_of_ne hne]
    · rw [hnext, update_of_ne hne]
    · rw [htsc, update_self]
    · rw [hnext, update_self]
  · have hqt : w'.qscTail = if w.qscTail c = some o then update w.qscTail c none else w.qscTail := by
      rw [hw']
      rfl
    have hqc : w'.qmemcnt = update w.qmemcnt c (w.qmemcnt c - 1) := by rw [hw']
    constructor
    · intro c'
      rw [hqt]
      by_cases hcc : c' = c
      · subst hcc
        rw [update_self]
        rcases l with _ | ⟨a, l⟩
        · have ht : w.qscTail c' = some o := htail
          rw [if_pos ht, update_self]
          rfl
        · have ht : w.qscTail c' = (a :: l).getLast? := htail.trans List.getLast?_cons_cons
          have hne : w.qscTail c' ≠ some o := by
            rw [ht]
            intro h
            exact (List.nodup_cons.mp hnd).1 (List.mem_of_getLast? h)
          rw [if_neg hne, ht]
      · rw [update_of_ne (by simp [hcc])]
        split_ifs
        · rw [update_of_ne hcc]
          exact hI.counters.tail c'
        · exact hI.counters.tail c'
    · intro c'
      rw [hqc]
      by_cases hcc : c' = c
      · subst hcc
        rw [update_self, update_self, hcnt, List.length_cons, Nat.add_sub_cancel]
      · rw [update_of_ne hcc, update_of_ne (by simp [hcc])]
        exact hI.counters.cnt c'
    · subst hw'
      exact hI.counters.target
    · intro k
      rw [update_of_ne (by simp)]
      subst hw'
      exact hI.counters.pushed k
    · subst hw'
      exact hI.counters.token

/-! ## The loop -/

/-- What `k` rounds of the loop of `__ps_smr_reclaim` take of a queue: the objects in front that were
freed at `qsc` or before. -/
def reclaimable (ts : Obj → ℕ) (qsc k : ℕ) (l : List Obj) : List Obj :=
  (l.take k).takeWhile fun a => ts a ≤ qsc

/-- What happens to the queues: what is left of one of them, and that the rest stays. -/
structure Requeued (w w' : World ε) (ts : Obj → ℕ) (c : ℕ) (cont cont' : Key → List Obj)
    (q : List Obj) : Prop where
  self : cont' (.queue c) = q
  queue : ∀ c', c' ≠ c → cont' (.queue c') = cont (.queue c')
  tscFree : ∀ c', ∀ a ∈ cont' (.queue c'), w'.tscFree a = ts a
  ps : w'.ps = w.ps

/-- The batch loop frees what has quiesced from the front of the queue, and keeps the invariant. -/
theorem reclaimLoop_spec (hB : Backing g f A K) (hfit : CountFits g) {ts : Obj → ℕ} {k : ℕ}
    (hI : Inv g w P hd H cont) (hK : K w) (hk : k ≤ (cont (.queue c)).length)
    (hts : ∀ c, ∀ a ∈ cont (.queue c), w.tscFree a = ts a) (qsc : ℕ) (inc : Bool) :
    ∃ w' inc' cont', reclaimLoop g f c qsc k w inc = some (w', inc') ∧ Inv g w' P hd H cont' ∧
      K w' ∧ Requeued w w' ts c cont cont'
        ((cont (.queue c)).drop (reclaimable ts qsc k (cont (.queue c))).length) ∧
      (inc' = true ↔ inc = true ∨ (reclaimable ts qsc k (cont (.queue c))).length < k) ∧
      w'.qmemtarget = w.qmemtarget := by
  induction k generalizing w cont inc with
  | zero => exact ⟨w, inc, cont, rfl, hI, hK, ⟨rfl, fun _ _ => rfl, hts, rfl⟩, by simp, rfl⟩
  | succ k ih =>
      rcases hl : cont (.queue c) with _ | ⟨a, l⟩
      · rw [hl] at hk
        simp at hk
      have ha : a ∈ cont (.queue c) := hl ▸ List.mem_cons_self
      have hhead : w.qscHead c = some a := by
        have hch := hI.chains.chain (.queue c)
        rw [hl] at hch
        exact hch.1
      obtain ⟨s, hs, hc, hPs, ht0⟩ := hI.members.listed _ a ha
      have hta := hts c a ha
      by_cases hq : qsc < w.tscFree a
      · -- the first object has not quiesced
        have hnil : reclaimable ts qsc (k + 1) (a :: l) = [] := by
          simp [reclaimable, ← hta, hq]
        refine ⟨w, true, cont, ?_, hI, hK, ?_, ?_, rfl⟩
        · simp only [reclaimLoop, hhead, if_neg ht0, if_pos hq]
        · rw [hnil]
          exact ⟨hl, fun _ _ => rfl, hts, rfl⟩
        · simp [hnil]
      have hcons : reclaimable ts qsc (k + 1) (a :: l) = a :: reclaimable ts qsc k l := by
        have hle : ts a ≤ qsc := by omega
        simp [reclaimable, hle]
      obtain ⟨w₁, hw₁⟩ : ∃ w₁ : World ε, w₁ = { qscDequeue w c a with
        tscFree := update w.tscFree a 0
        next := update (qscDequeue w c a).next a none
        qmemcnt := update w.qmemcnt c (w.qmemcnt c - 1) } := ⟨_, rfl⟩
      have hI₁ := inv_dequeue hI hl hw₁
      have hK₁ : K w₁ := by
        have hw : SameEnv w w₁ := by
          subst hw₁
          exact ⟨rfl, rfl, rfl, rfl, rfl⟩
        exact hB.congr hw hK
      have hfacts : w₁.qmemtarget = w.qmemtarget ∧ w₁.ps = w.ps ∧
          w₁.tscFree = update w.tscFree a 0 ∧ ∀ s, InSlab g w₁ s a → w₁.coreid s = c ∨ P c := by
        subst hw₁
        refine ⟨rfl, rfl, rfl, fun s' hs' => ?_⟩
        have he : s' = s := hI.slabs.eq_of_inSlab hs' hs
        subst he
        exact hPs
      obtain ⟨hqm₁, hps₁, htsc₁, hP₁⟩ := hfacts
      obtain ⟨w₂, cont₂, hrun, hI₂, hK₂, hkept, -⟩ :=
        memFree_spec hB hfit hI₁ hK₁ (Set.mem_insert a H) hc hP₁
      have haH : a ∉ H := fun h => hI.members.off a h _ ha
      rw [Set.insert_sdiff_self_of_notMem haH] at hI₂
      have hl₂ : cont₂ (.queue c) = l := by rw [hkept.queue, update_self]
      have hother : ∀ c', c' ≠ c → cont₂ (.queue c') = cont (.queue c') := by
        intro c' hcc
        rw [hkept.queue, update_of_ne (by simp [hcc])]
      have hts₂ : ∀ c', ∀ x ∈ cont₂ (.queue c'), w₂.tscFree x = ts x := by
        intro c' x hx
        have hx₁ : x ∈ update cont (.queue c) l (.queue c') := by rwa [hkept.queue] at hx
        have hxa : x ≠ a := fun e => hI.chains.notMem_of_pop hl _ (e ▸ hx₁)
        have hx₀ : x ∈ cont (.queue c') := by
          by_cases hcc : c' = c
          · subst hcc
            rw [update_self] at hx₁
            exact hl ▸ List.mem_cons_of_mem _ hx₁
          · rwa [update_of_ne (by simp [hcc])] at hx₁
        rw [hkept.tscFree c' x hx₁, htsc₁, update_of_ne hxa]
        exact hts c' x hx₀
      obtain ⟨w', inc', cont', hrun', hI', hK', hreq, hinc, hqm⟩ := ih hI₂ hK₂
        (by rw [hl₂]; rw [hl] at hk; simpa using hk) hts₂ inc
      rw [hl₂] at hreq hinc
      refine ⟨w', inc', cont', ?_, hI', hK', ?_, ?_, ?_⟩
      · simp only [reclaimLoop, hhead, if_neg ht0, if_neg hq]
        subst hw₁
        refine (congrArg (· >>= fun w => reclaimLoop g f c qsc k w inc) hrun).trans ?_
        exact hrun'
      · rw [hcons, List.length_cons, List.drop_succ_cons]
        refine ⟨hreq.self, fun c' hcc => (hreq.queue c' hcc).trans (hother c' hcc), hreq.tscFree, ?_⟩
        rw [hreq.ps, hkept.ps, hps₁]
      · rw [hcons, List.length_cons, Nat.succ_lt_succ_iff]
        exact hinc
      · rw [hqm, hkept.qmemtarget, hqm₁]

/-! ## The call -/

/-- `__ps_smr_reclaim` returns, and takes what has quiesced. The target grows if that is less than a
batch. -/
theorem smrReclaim_spec (hB : Backing g f A K) (hfit : CountFits g) {ts : Obj → ℕ}
    (hI : Inv g w P hd H cont) (hK : K w) (hps : w.ps c = true)
    (hk : g.qlistBatch ≤ (cont (.queue c)).length)
    (hts : ∀ c, ∀ a ∈ cont (.queue c), w.tscFree a = ts a) (qsc : ℕ) (busy : Bool) :
    ∃ w' cont', smrReclaim g f w c qsc busy = some w' ∧ Inv g w' P hd H cont' ∧ K w' ∧
      Requeued w w' ts c cont cont'
        ((cont (.queue c)).drop (reclaimable ts qsc g.qlistBatch (cont (.queue c))).length) ∧
      w'.qmemtarget = update w.qmemtarget c (w.qmemtarget c +
        if busy = true ∨ (reclaimable ts qsc g.qlistBatch (cont (.queue c))).length < g.qlistBatch
        then g.qlistBatch else 0) := by
  obtain ⟨w₁, inc, cont', hrun, hI₁, hK₁, hreq, hinc, hqm⟩ :=
    reclaimLoop_spec hB hfit hI hK hk hts qsc busy
  have hhead : w.qscHead c ≠ none := by
    intro hnone
    have hch := hI.chains.chain (.queue c)
    have hh : heads g w hd (.queue c) = none := hnone
    rw [hh, chain_none_iff] at hch
    rw [hch] at hk
    exact absurd hk (Nat.not_le.mpr g.qlistBatch_pos)
  unfold smrReclaim
  rw [if_pos ⟨hps, hhead⟩]
  simp only [hrun, Option.bind_eq_bind, Option.bind_some]
  by_cases hi : inc = true
  · rw [if_pos hi, if_pos (hinc.mp hi)]
    refine ⟨_, cont', rfl, ?_, ?_, ⟨hreq.self, hreq.queue, hreq.tscFree, hreq.ps⟩, ?_⟩
    · have hw : SameSlabs w₁ { w₁ with
          qmemtarget := update w₁.qmemtarget c (w₁.qmemtarget c + g.qlistBatch) } :=
        ⟨⟨rfl, rfl, rfl, rfl, rfl⟩, rfl, rfl, rfl⟩
      refine ⟨hI₁.chains, hw.slabs_of hI₁.slabs, ⟨hI₁.freelists.nfree, hI₁.freelists.lt,
        hI₁.freelists.lists, hI₁.freelists.single⟩, ⟨hI₁.members.listed,
        fun o ho => hw.held rfl rfl (hI₁.members.held o ho), hI₁.members.off, hI₁.members.total⟩,
        ⟨hI₁.counters.tail, hI₁.counters.cnt, fun c' hps' => ?_, hI₁.counters.pushed,
        hI₁.counters.token⟩⟩
      have htarget := hI₁.counters.target c' hps'
      show g.qlistBatch ≤ update w₁.qmemtarget c (w₁.qmemtarget c + g.qlistBatch) c'
      by_cases hcc : c' = c
      · subst hcc
        rw [update_self]
        omega
      · rw [update_of_ne hcc]
        exact htarget
    · have hw : SameEnv w₁ { w₁ with
          qmemtarget := update w₁.qmemtarget c (w₁.qmemtarget c + g.qlistBatch) } :=
        ⟨rfl, rfl, rfl, rfl, rfl⟩
      exact hB.congr hw hK₁
    · rw [hqm]
  · have hi' : ¬ (busy = true ∨
        (reclaimable ts qsc g.qlistBatch (cont (.queue c))).length < g.qlistBatch) :=
      fun h => hi (hinc.mpr h)
    rw [if_neg hi, if_neg hi', Nat.add_zero, update_eq_self]
    exact ⟨w₁, cont', rfl, hI₁, hK₁, hreq, hqm⟩

/-- The queue of core `c`, with an object that it frees. -/
def queued (cont : Key → List Obj) (c : ℕ) (o : Obj) : List Obj := cont (.queue c) ++ [o]

/-- A deferred free returns. The object is at the end of its queue, unless the queue is long enough
for what has quiesced to be taken from it. -/
theorem smrFree_spec (hB : Backing g f A K) (hfit : CountFits g) (hI : Inv g w P hd H cont)
    (hK : K w) (ho : o ∈ H) (hc : c < g.numCores)
    (hP : ∀ s, InSlab g w s o → w.coreid s = c ∨ P c) (ht : tsc ≠ 0) (hps : w.ps c = true)
    (qsc : ℕ) (busy : Bool) :
    ∃ w' cont', smrFree g f w o c tsc qsc busy = some w' ∧ Inv g w' P hd (H \ {o}) cont' ∧ K w' ∧
      if w.qmemtarget c ≤ (queued cont c o).length then
        Requeued w w' (update w.tscFree o tsc) c cont cont' ((queued cont c o).drop
          (reclaimable (update w.tscFree o tsc) qsc g.qlistBatch (queued cont c o)).length) ∧
        w'.qmemtarget = update w.qmemtarget c (w.qmemtarget c + if busy = true ∨
          (reclaimable (update w.tscFree o tsc) qsc g.qlistBatch (queued cont c o)).length <
            g.qlistBatch then g.qlistBatch else 0)
      else
        Requeued w w' (update w.tscFree o tsc) c cont cont' (queued cont c o) ∧
        w'.qmemtarget = w.qmemtarget := by
  obtain ⟨w₁, hw₁⟩ : ∃ w₁ : World ε, w₁ =
    { qscEnqueue { w with tscFree := update w.tscFree o tsc } c o with
      qmemcnt := update w.qmemcnt c (w.qmemcnt c + 1) } := ⟨_, rfl⟩
  have hI₁ := inv_enqueue hI ho hc hP ht hw₁
  have hq : (qscEnqueue { w with tscFree := update w.tscFree o tsc } c o).qmemcnt = w.qmemcnt := by
    unfold qscEnqueue
    split <;> rfl
  have hsame : SameEnv w w₁ ∧ w₁.tscFree = update w.tscFree o tsc ∧
      w₁.qmemtarget = w.qmemtarget ∧ w₁.ps = w.ps := by
    subst hw₁
    unfold qscEnqueue
    split <;> exact ⟨⟨rfl, rfl, rfl, rfl, rfl⟩, rfl, rfl, rfl⟩
  obtain ⟨hw, htsc, hqm, hps₁⟩ := hsame
  have hK₁ := hB.congr hw hK
  have hself : update cont (.queue c) (cont (.queue c) ++ [o]) (.queue c) = queued cont c o :=
    update_self ..
  have hother : ∀ c', c' ≠ c → update cont (.queue c) (cont (.queue c) ++ [o]) (.queue c') =
      cont (.queue c') := fun c' hcc => update_of_ne (by simp [hcc]) ..
  have hts : ∀ c', ∀ a ∈ update cont (.queue c) (cont (.queue c) ++ [o]) (.queue c'),
      w₁.tscFree a = update w.tscFree o tsc a := fun _ _ _ => by rw [htsc]
  have hcnt : w₁.qmemcnt c = (queued cont c o).length := by
    rw [← hself]
    exact hI₁.counters.cnt c
  have hrun₁ : smrFree g f w o c tsc qsc busy =
      if w₁.qmemtarget c ≤ w₁.qmemcnt c then smrReclaim g f w₁ c qsc busy else some w₁ := by
    unfold smrFree
    simp only [hq]
    subst hw₁
    rfl
  rw [hrun₁, hqm, hcnt]
  by_cases hge : w.qmemtarget c ≤ (queued cont c o).length
  · simp only [if_pos hge]
    have hk : g.qlistBatch ≤ (update cont (.queue c) (cont (.queue c) ++ [o]) (.queue c)).length := by
      rw [hself]
      exact (hI.counters.target c hps).trans hge
    obtain ⟨w', cont', hrun, hI', hK', hreq, hqm'⟩ :=
      smrReclaim_spec hB hfit hI₁ hK₁ (hps₁ ▸ hps) hk hts qsc busy
    rw [hself] at hreq hqm'
    rw [hqm] at hqm'
    refine ⟨w', cont', hrun, hI', hK', ⟨hreq.self, fun c' hcc => ?_, hreq.tscFree, ?_⟩, hqm'⟩
    · exact (hreq.queue c' hcc).trans (hother c' hcc)
    · exact hreq.ps.trans hps₁
  · simp only [if_neg hge]
    exact ⟨w₁, _, rfl, hI₁, hK₁, ⟨hself, hother, hts, hps₁⟩, hqm⟩

end Parsec.Slab
