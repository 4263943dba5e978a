import Parsec.Parslab.Machine

/-!
# The memories carry out the protocol

A run of the memories and their parsec is a run of calls of the parsec protocol: the linked queues of
the memories are its lists, and what a reclamation frees is what the protocol hands over.

* `psTryQuiesce_attach` — quiescence does not look at queues.
* `psBatchLoop_map` — the batch loop on a list takes what `reclaimable` says.
* `ParInv` — the invariant; `memptrFree_spec` — what a deferred free does to it.
-/

namespace Parsec.Parslab

open Function Lib Slab

/-! ## A parsec, with and without queues -/

section Attach

variable {N : ℕ} {M : Type} {clk : Smr.Clock} {ps : Smr.St N Empty} {q : M → Fin N → Smr.SmrInfo}
  {c : Fin N} {k : ℕ}

/-- The locals of a quiescence that no reclamation asked for. -/
def alone (q : Smr.Quiesce M) : Smr.Quiesce Empty where
  timeCheck := q.timeCheck
  blocking := q.blocking
  inlibCurr := q.inlibCurr
  minKnownQsc := q.minKnownQsc
  i := q.i
  firstTry := q.firstTry
  qsc := q.qsc
  caller := none

/-- What a quiescence returns, with the queues in the state. -/
def attached (q : M → Fin N → Smr.SmrInfo) (R : Smr.Quiesced N Empty) : Smr.Quiesced N M :=
  ⟨R.ret, R.qsc, R.updates, attach R.st q⟩

/-- A refresh does not look at the queues. -/
theorem psTimingUpdateRemote_attach (r : Fin N) :
    Smr.psTimingUpdateRemote clk (attach ps q) c r =
      attach (Smr.psTimingUpdateRemote clk ps c r) q := by
  unfold Smr.psTimingUpdateRemote
  rw [apply_ite (attach · q)]
  rfl

/-- The end of `ps_quiesce` does not look at the queues. -/
theorem psQuiesceEnd_attach (x : Smr.Quiesce M) (us : List (Fin N)) :
    Smr.psQuiesceEnd (attach ps q) c x us = (Smr.psQuiesceEnd ps c (alone x) us).map (attached q) := by
  unfold Smr.psQuiesceEnd
  rw [apply_ite (Option.map (attached q))]
  simp only [apply_ite (Option.map (attached q))]
  rfl

/-- The loop of `ps_quiesce` does not look at the queues. -/
theorem psQuiesceLoop_attach (x : Smr.Quiesce M) (us : List (Fin N)) :
    Smr.psQuiesceLoop clk c k (attach ps q) x us =
      (Smr.psQuiesceLoop clk c k ps (alone x) us).map (attached q) := by
  induction k generalizing ps x us with
  | zero => rfl
  | succ k ih =>
      unfold Smr.psQuiesceLoop
      simp only [psQuiesceEnd_attach, psTimingUpdateRemote_attach, ih,
        apply_ite (Option.map (attached q))]
      rfl

/-- **Quiescence does not look at queues.** -/
theorem psQuiesce_attach (caller : Option M) (tsc : ℕ) (b : Bool) :
    Smr.psQuiesce clk k (attach ps q) c caller tsc b =
      (Smr.psQuiesce clk k ps c none tsc b).map (attached q) := by
  unfold Smr.psQuiesce
  simp only [psQuiesceLoop_attach, apply_ite (Option.map (attached q))]
  rfl

/-- `ps_try_quiesce` does not look at the queues. -/
theorem psTryQuiesce_attach {tsc : ℕ} {R : Smr.Quiesced N Empty}
    (h : Smr.psTryQuiesce clk ps c none tsc = some R) (q : M → Fin N → Smr.SmrInfo)
    (caller : Option M) :
    Smr.psTryQuiesce clk (attach ps q) c caller tsc = some (attached q R) := by
  unfold Smr.psTryQuiesce at *
  rw [psQuiesce_attach, h]
  rfl

/-- A call on the parsec alone is one of the protocol. -/
def onParsec : Smr.Call N Empty → Smr.Call N M
  | .enter c => .enter c
  | .exit c => .exit c
  | .tryQuiesce c tsc => .tryQuiesce c tsc
  | .quiesceWait c tsc k => .quiesceWait c tsc k
  | .smrFree _ m _ => m.elim

/-- The calls on the parsec do not look at the queues. -/
theorem call_attach [DecidableEq M] {B : ℕ} {a : Smr.Call N Empty} {ps' : Smr.St N Empty}
    (h : Smr.call 1 ps (a, clk) = some ps') :
    Smr.call B (attach ps q) (onParsec a, clk) = some (attach ps' q) := by
  cases a with
  | enter c =>
      simp only [Smr.call] at h
      split at h
      · rename_i hn
        cases h
        have hn : (attach ps q).sect c = none := hn
        simp only [onParsec, Smr.call, hn]
        rfl
      · cases h
  | exit c =>
      simp only [Smr.call] at h
      split at h
      · rename_i d hd
        cases h
        have hd : (attach ps q).sect c = some d := hd
        simp only [onParsec, Smr.call, hd]
        rfl
      · cases h
  | tryQuiesce c tsc =>
      obtain ⟨R, hR, rfl⟩ := Option.map_eq_some_iff.mp h
      exact congrArg (Option.map Smr.Quiesced.st) (psTryQuiesce_attach hR q none)
  | quiesceWait c tsc k =>
      obtain ⟨R, hR, rfl⟩ := Option.map_eq_some_iff.mp h
      show (Smr.psQuiesce clk k (attach ps q) c none tsc true).map _ = _
      rw [psQuiesce_attach, hR]
      rfl
  | smrFree c m obj => exact m.elim

end Attach

/-! ## A queue, as a list -/

section Queue

/-- **The batch loop on a list** takes what is reclaimable. -/
theorem psBatchLoop_map {ts : Obj → ℕ} {qsc k n t : ℕ} {l : List Obj} (hk : k ≤ l.length)
    (h₀ : ∀ a ∈ l, ts a ≠ 0) (b : Bool) :
    Smr.psBatchLoop qsc k ⟨l.map (item ts), n, t⟩ b =
      some ((reclaimable ts qsc k l).map (item ts),
        ⟨(l.drop (reclaimable ts qsc k l).length).map (item ts),
          n - (reclaimable ts qsc k l).length, t⟩,
        b || decide ((reclaimable ts qsc k l).length < k)) := by
  induction k generalizing n l with
  | zero => simp [Smr.psBatchLoop, reclaimable]
  | succ k ih =>
      rcases l with _ | ⟨a, l⟩
      · cases hk
      have ha : (item ts a).tscFree ≠ 0 := h₀ a List.mem_cons_self
      unfold Smr.psBatchLoop
      simp only [List.map_cons, if_neg ha]
      by_cases hq : ts a > qsc
      · -- the first object has not quiesced
        have hnil : reclaimable ts qsc (k + 1) (a :: l) = [] := by
          have hq : ¬ ts a ≤ qsc := not_le.mpr hq
          simp [reclaimable, hq]
        rw [if_pos (show (item ts a).tscFree > qsc from hq), hnil]
        simp
      · have hcons : reclaimable ts qsc (k + 1) (a :: l) = a :: reclaimable ts qsc k l := by
          have hq : ts a ≤ qsc := not_lt.mp hq
          simp [reclaimable, hq]
        rw [if_neg (show ¬ (item ts a).tscFree > qsc from hq), hcons,
          ih (Nat.le_of_succ_le_succ hk) fun x hx => h₀ x (List.mem_cons_of_mem _ hx)]
        simp [Nat.sub_sub, Nat.add_comm 1]

variable {ε : Type} {g : Geom} {w : World ε} {P : ℕ → Prop} {H : Set Obj} {cont : Key → List Obj}
  {o : Obj} {c tsc : ℕ}

/-- What a deferred free asks for, where the queue is given as a list. -/
theorem asksFor_eq (hI : Inv g w P (fun _ => none) H cont) (ho : o ∈ H) (hc : c < g.numCores)
    (hP : ∀ s, InSlab g w s o → w.coreid s = c ∨ P c) (ht : tsc ≠ 0) :
    asksFor w o c tsc = if w.qmemtarget c ≤ (queued cont c o).length then
      (queued cont c o).head?.map (update w.tscFree o tsc) else none := by
  have hI₁ := inv_enqueue hI ho hc hP ht rfl
  have hhead := (hI₁.chains.chain (.queue c)).head_eq
  rw [update_self] at hhead
  have hlen : (queued cont c o).length = w.qmemcnt c + 1 := by
    rw [hI.counters.cnt, queued, List.length_append, List.length_singleton]
  have hsame : (qscEnqueue { w with tscFree := update w.tscFree o tsc } c o).qmemtarget =
        w.qmemtarget ∧
      (qscEnqueue { w with tscFree := update w.tscFree o tsc } c o).qmemcnt = w.qmemcnt ∧
      (qscEnqueue { w with tscFree := update w.tscFree o tsc } c o).tscFree =
        update w.tscFree o tsc := by
    unfold qscEnqueue
    split <;> exact ⟨rfl, rfl, rfl⟩
  obtain ⟨h₁, h₂, h₃⟩ := hsame
  have hhead : (qscEnqueue { w with tscFree := update w.tscFree o tsc } c o).qscHead c =
      (queued cont c o).head? := hhead
  unfold asksFor
  simp only
  rw [h₁, h₂, h₃, hhead, hlen]

end Queue

/-! ## The invariant -/

section Invariant

variable {N B : ℕ} {M ε ι : Type} [DecidableEq M] {g : M → Geom} {f : M → Fns ε ι}
  {A : M → World ε → ℕ → ι → Prop} {K : M → World ε → Prop} {s s' : St N M ε}
  {cont : M → Key → List Obj} {clk : Smr.Clock}

/-- The memories are of the machine with `N` cores and batches of `B` objects, and their slabs have
no more objects than are counted. -/
structure Fits (N B : ℕ) (g : M → Geom) : Prop where
  cores : ∀ m, (g m).numCores = N
  batch : ∀ m, (g m).qlistBatch = B
  count : ∀ m, CountFits (g m)

/-- **The invariant**: that of every memory; and the protocol has reached the state that the memories
and the parsec stand for. -/
structure ParInv (B : ℕ) (g : M → Geom) (K : M → World ε → Prop) (s : St N M ε)
    (cont : M → Key → List Obj) : Prop where
  inv : ∀ m, Inv (g m) (s.mem m) (fun _ => True) (fun _ => none) {o | s.live m o = true} (cont m)
  supply : ∀ m, K m (s.mem m)
  ps : ∀ m c, c < N → (s.mem m).ps c = true
  calls : (Smr.calls N M B).Reach (fun _ _ => True) (s.calls cont)

/-- The objects of the memory that is written. -/
theorem put_self (p : M → Obj → Bool) (m : M) (o : Obj) (b : Bool) :
    put p m o b m = update (p m) o b := update_self ..

/-- The object that is written. -/
theorem put_same (p : M → Obj → Bool) (m : M) (o : Obj) (b : Bool) : put p m o b m o = b := by
  rw [put_self, update_self]

/-- The objects of other memories stay. -/
theorem put_ne {p : M → Obj → Bool} {m m' : M} (h : m' ≠ m) (o : Obj) (b : Bool) :
    put p m o b m' = p m' := update_of_ne h ..

/-- A call on one memory. -/
theorem ParInv.change (h : ParInv B g K s cont) {m : M} {w : World ε} {cont' : Key → List Obj}
    (hmem : s'.mem = update s.mem m w) (hlive : ∀ m', m' ≠ m → s'.live m' = s.live m')
    (hI : Inv (g m) w (fun _ => True) (fun _ => none) {o | s'.live m o = true} cont') (hK : K m w)
    (hps : w.ps = (s.mem m).ps)
    (hr : (Smr.calls N M B).Reach (fun _ _ => True) (s'.calls (update cont m cont'))) :
    ParInv B g K s' (update cont m cont') := by
  refine ⟨fun m' => ?_, fun m' => ?_, fun m' c hc => ?_, hr⟩ <;> rw [hmem]
  · by_cases hm : m' = m
    · subst hm
      rw [update_self, update_self]
      exact hI
    · rw [update_of_ne hm, update_of_ne hm, hlive m' hm]
      exact h.inv m'
  · by_cases hm : m' = m
    · subst hm
      rw [update_self]
      exact hK
    · rw [update_of_ne hm]
      exact h.supply m'
  · by_cases hm : m' = m
    · subst hm
      rw [update_self, hps]
      exact h.ps m' c hc
    · rw [update_of_ne hm]
      exact h.ps m' c hc

/-- Writing one queue. -/
def setQueue (q : M → Fin N → Smr.SmrInfo) (m : M) (c : Fin N) (si : Smr.SmrInfo) :
    M → Fin N → Smr.SmrInfo :=
  update q m (update (q m) c si)

/-- The queue that is written. -/
theorem setQueue_self (q : M → Fin N → Smr.SmrInfo) (m : M) (c : Fin N) (si : Smr.SmrInfo) :
    setQueue q m c si m c = si := by
  rw [setQueue, update_self, update_self]

/-- The last write of a queue counts. -/
theorem setQueue_idem (q : M → Fin N → Smr.SmrInfo) (m : M) (c : Fin N) (si si' : Smr.SmrInfo) :
    setQueue (setQueue q m c si) m c si' = setQueue q m c si' := by
  unfold setQueue
  rw [update_self, update_idem, update_idem]

/-- The queues of the memories. -/
def St.queues (s : St N M ε) (cont : M → Key → List Obj) : M → Fin N → Smr.SmrInfo :=
  fun m c => smrInfo (s.mem m) (cont m) c

omit [DecidableEq M] in
/-- The queues are the same where their objects and counters are. -/
theorem smrInfo_same {w w' : World ε} {q q' : Key → List Obj} (h : SameQueues w w' q q')
    (c : Fin N) : smrInfo w' q' c = smrInfo w q c := by
  unfold smrInfo
  rw [h.queue, h.qmemcnt, h.qmemtarget, List.map_congr_left fun a ha => ?_]
  rw [item, item, h.tscFree c a ha]

/-- The protocol after a call on memory `m` that leaves its queues alone. -/
theorem calls_same {m : M} {w : World ε} {cont' : Key → List Obj} (hmem : s'.mem = update s.mem m w)
    (hps : s'.ps = s.ps) (h : SameQueues (s.mem m) w (cont m) cont') :
    s'.calls (update cont m cont') = s.calls cont := by
  unfold St.calls
  rw [hps, hmem]
  refine congrArg (attach s.ps) (funext fun m' => funext fun c => ?_)
  by_cases hm : m' = m
  · subst hm
    rw [update_self, update_self]
    exact smrInfo_same h c
  · rw [update_of_ne hm, update_of_ne hm]

/-- A call on one memory that leaves its queues alone. -/
theorem ParInv.same (h : ParInv B g K s cont) {m : M} {w : World ε} {cont' : Key → List Obj}
    (hmem : s'.mem = update s.mem m w) (hlive : ∀ m', m' ≠ m → s'.live m' = s.live m')
    (hI : Inv (g m) w (fun _ => True) (fun _ => none) {o | s'.live m o = true} cont') (hK : K m w)
    (hps : s'.ps = s.ps) (hq : SameQueues (s.mem m) w (cont m) cont') :
    ParInv B g K s' (update cont m cont') := by
  refine h.change hmem hlive hI hK hq.ps ?_
  rw [calls_same hmem hps hq]
  exact h.calls

/-- The protocol after a call that changes one queue of memory `m`. -/
theorem calls_requeued {m : M} {w : World ε} {cont' : Key → List Obj} {ts : Obj → ℕ} {c : Fin N}
    {l : List Obj} {t : ℕ} {H : Set Obj} (hmem : s'.mem = update s.mem m w)
    (hI : Inv (g m) (s.mem m) (fun _ => True) (fun _ => none) H (cont m)) {H' : Set Obj}
    (hI' : Inv (g m) w (fun _ => True) (fun _ => none) H' cont')
    (hts : ∀ c', ∀ a ∈ cont m (.queue c'), ts a = (s.mem m).tscFree a)
    (hq : Requeued (s.mem m) w ts c (cont m) cont' l)
    (ht : w.qmemtarget = update (s.mem m).qmemtarget c t) :
    s'.calls (update cont m cont') =
      attach s'.ps (setQueue (s.queues cont) m c ⟨l.map (item ts), l.length, t⟩) := by
  unfold St.calls setQueue St.queues
  rw [hmem]
  refine congrArg (attach s'.ps) (funext fun m' => funext fun c' => ?_)
  by_cases hm : m' = m
  swap
  · rw [update_of_ne hm, update_of_ne hm, update_of_ne hm]
  subst hm
  rw [update_self, update_self, update_self]
  have hitem : (cont' (.queue c')).map (item w.tscFree) = (cont' (.queue c')).map (item ts) :=
    List.map_congr_left fun a ha => by rw [item, item, hq.tscFree c' a ha]
  unfold smrInfo
  rw [hitem, hI'.counters.cnt, ht]
  by_cases hc : c' = c
  · subst hc
    rw [update_self, update_self, hq.self]
  · have hc : (c' : ℕ) ≠ c := fun e => hc (Fin.ext e)
    rw [update_of_ne hc, update_of_ne (fun e => hc (congrArg Fin.val e)), hq.queue c' hc,
      ← hI.counters.cnt, List.map_congr_left fun a ha => ?_]
    rw [item, item, hts c' a ha]

/-! ## A deferred free -/

/-- The queue of the protocol when the object has been enqueued. -/
theorem enqueued_calls {m : M} {c : Fin N} {o : Obj} {tsc : ℕ} (htsc : tsc = clk.read s.ps.clock)
    (ho : ∀ a ∈ cont m (.queue c), a ≠ o) :
    Smr.enqueued clk (s.calls cont) m c (Nat.pair o.blk o.off) = attach (s.ps.setClock tsc)
      (setQueue (s.queues cont) m c ⟨(queued (cont m) c o).map (item (update (s.mem m).tscFree o tsc)),
        (s.mem m).qmemcnt c + 1, (s.mem m).qmemtarget c⟩) := by
  have hq : (queued (cont m) c o).map (item (update (s.mem m).tscFree o tsc)) =
      (cont m (.queue c)).map (item (s.mem m).tscFree) ++ [⟨Nat.pair o.blk o.off, tsc⟩] := by
    rw [queued, List.map_append, List.map_congr_left fun a ha => ?_]
    · rw [List.map_singleton, item, update_self]
    · rw [item, item, update_of_ne (ho a ha)]
  rw [hq, htsc]
  rfl

/-- What the protocol does in a reclamation. -/
theorem psReclaim_attach {m : M} {c : Fin N} {ps : Smr.St N Empty} {q : M → Fin N → Smr.SmrInfo}
    {ts : Obj → ℕ} {l : List Obj} {a : Obj} {n t : ℕ} {R : Smr.Quiesced N Empty}
    (hq : q m c = ⟨l.map (item ts), n, t⟩) (ha : l.head? = some a) (hB : B ≤ l.length)
    (h₀ : ∀ a ∈ l, ts a ≠ 0) (hR : Smr.psTryQuiesce clk ps c none (ts a) = some R) :
    Smr.psReclaim clk B (attach ps q) m c =
      some ((reclaimable ts R.qsc B l).map (item ts), attach R.st (setQueue q m c
        ⟨(l.drop (reclaimable ts R.qsc B l).length).map (item ts),
          n - (reclaimable ts R.qsc B l).length,
          t + if R.ret ≠ 0 ∨ (reclaimable ts R.qsc B l).length < B then B else 0⟩)) := by
  have hhead : ((attach ps q).smrInfo m c).qscList.head? = some (item ts a) := by
    show (q m c).qscList.head? = _
    rw [hq]
    simp [ha]
  have htry := psTryQuiesce_attach hR q (some m)
  have hbatch := @psBatchLoop_map ts R.qsc B n t l hB h₀ (decide (R.ret ≠ 0))
  rw [← hq] at hbatch
  unfold Smr.psReclaim
  simp only [hhead, Option.bind_eq_bind, Option.bind_some, item, htry]
  show (Smr.psBatchLoop R.qsc B (q m c) (decide (R.ret ≠ 0))).bind _ = _
  have hor : (decide (R.ret ≠ 0) || decide ((reclaimable ts R.qsc B l).length < B)) = true ↔
      R.ret ≠ 0 ∨ (reclaimable ts R.qsc B l).length < B := by simp
  rw [hbatch, Option.bind_some]
  simp only [hor, add_ite, add_zero]
  rfl

/-- **A deferred free** carries out that of the protocol. The queue is left with the object at its end,
or with what had not quiesced when every core that was in a section had entered it. -/
theorem memptrFree_spec (hB : ∀ m, Backing (g m) (f m) (A m) (K m)) (hfit : Fits N B g)
    (h : ParInv B g K s cont) {c : Fin N} {m : M} {o : Obj} (ho : s.live m o = true)
    (hrun : memptrFree g f clk s c m o = some s') :
    ∃ w cont' l, s'.mem = update s.mem m w ∧ s'.live = put s.live m o false ∧ s'.seen = s.seen ∧
      s'.ps.sect = s.ps.sect ∧ ParInv B g K s' (update cont m cont') ∧
      Smr.call B (s.calls cont) (.smrFree c m (Nat.pair o.blk o.off), clk) =
        some (s'.calls (update cont m cont')) ∧
      Requeued (s.mem m) w (update (s.mem m).tscFree o (clk.read s.ps.clock)) c (cont m) cont' l ∧
      (l = queued (cont m) c o ∨ ∃ qsc, (∀ r d, s.ps.sect r = some d → qsc ≤ d) ∧
        l = (queued (cont m) c o).drop (reclaimable
          (update (s.mem m).tscFree o (clk.read s.ps.clock)) qsc B (queued (cont m) c o)).length) := by
  obtain ⟨tsc, htsc⟩ : ∃ tsc, tsc = clk.read s.ps.clock := ⟨_, rfl⟩
  have hI := h.inv m
  have hc : (c : ℕ) < (g m).numCores := (hfit.cores m).symm ▸ c.isLt
  have hpos : 0 < tsc := htsc ▸ (Nat.zero_le _).trans_lt (clk.lt_read _)
  have hne : ∀ c', ∀ a ∈ cont m (.queue c'), a ≠ o := by
    rintro c' a ha rfl
    exact hI.members.off a ho _ ha
  have hts : ∀ c', ∀ a ∈ cont m (.queue c'),
      update (s.mem m).tscFree o tsc a = (s.mem m).tscFree a := fun c' a ha =>
    update_of_ne (hne c' a ha) ..
  have hnz : ∀ a ∈ queued (cont m) c o, update (s.mem m).tscFree o tsc a ≠ 0 := by
    intro a ha
    rcases List.mem_append.mp ha with ha | ha
    · rw [hts c a ha]
      obtain ⟨-, -, -, -, h₀⟩ := hI.members.listed _ a ha
      exact h₀
    · rw [List.mem_singleton.mp ha, update_self]
      exact hpos.ne'
  have hask := asksFor_eq hI ho hc (fun _ _ => .inr trivial) hpos.ne'
  have hlen : (queued (cont m) c o).length = (s.mem m).qmemcnt c + 1 := by
    rw [hI.counters.cnt, queued, List.length_append, List.length_singleton]
  have henq := enqueued_calls htsc (hne c)
  -- the call of the protocol
  have hcall : ∀ {l' st}, Smr.psSmrFree clk B (s.calls cont) m c (Nat.pair o.blk o.off) = some (l', st) →
      Smr.call B (s.calls cont) (.smrFree c m (Nat.pair o.blk o.off), clk) = some st := fun hf =>
    congrArg (Option.map Prod.snd) hf
  unfold memptrFree at hrun
  simp only [Option.bind_eq_bind] at hrun
  obtain ⟨⟨ps, qsc, busy⟩, hps, hrun⟩ := Option.bind_eq_some_iff.mp hrun
  obtain ⟨w, hw, hrun⟩ := Option.bind_eq_some_iff.mp hrun
  cases hrun
  rw [← htsc] at hps hw
  obtain ⟨w', cont', hw', hI', hK', hq⟩ := smrFree_spec (hB m) (hfit.count m) hI (h.supply m) ho hc
    (fun _ _ => .inr trivial) hpos.ne' (h.ps m c c.isLt) qsc busy
  obtain rfl : w' = w := Option.some.inj (hw'.symm.trans hw)
  rw [← htsc]
  rw [Smr.psSmrFree_eq, henq] at hcall
  have hlive : {a | put s.live m o false m a = true} = {a | s.live m a = true} \ {o} := by
    rw [put_self, setOf_update_false]
  obtain ⟨Q, hQ⟩ : ∃ Q, Q = setQueue (s.queues cont) m c
      ⟨(queued (cont m) c o).map (item (update (s.mem m).tscFree o tsc)),
        (s.mem m).qmemcnt c + 1, (s.mem m).qmemtarget c⟩ := ⟨_, rfl⟩
  rw [← hQ] at hcall
  have hself : Q m c = ⟨(queued (cont m) c o).map (item (update (s.mem m).tscFree o tsc)),
      (s.mem m).qmemcnt c + 1, (s.mem m).qmemtarget c⟩ := by rw [hQ, setQueue_self]
  have htrig : (attach (s.ps.setClock tsc) Q).smrInfo m c = Q m c := rfl
  rw [htrig, hself, ← hlen] at hcall
  have hchange : ∀ {ps : Smr.St N Empty} {l : List Obj},
      Requeued (s.mem m) w' (update (s.mem m).tscFree o tsc) c (cont m) cont' l →
      Smr.call B (s.calls cont) (.smrFree c m (Nat.pair o.blk o.off), clk) = some (St.calls
        { s with ps := ps, mem := update s.mem m w', live := put s.live m o false }
          (update cont m cont')) →
      ParInv B g K { s with ps := ps, mem := update s.mem m w', live := put s.live m o false }
        (update cont m cont') := by
    intro ps l hreq hr
    refine h.change rfl (fun m' hm => put_ne hm ..) ?_ hK' hreq.ps
      (h.calls.step (a := (.smrFree c m (Nat.pair o.blk o.off), clk)) trivial hr)
    show Inv (g m) w' _ _ {a | put s.live m o false m a = true} cont'
    rw [hlive]
    exact hI'
  by_cases hge : (s.mem m).qmemtarget c ≤ (queued (cont m) c o).length
  · rw [if_pos hge] at hq hask hcall
    obtain ⟨a, ha⟩ : ∃ a, (queued (cont m) c o).head? = some a := by
      rw [← Option.isSome_iff_exists, List.isSome_head?]
      simp [queued]
    rw [hask, ha] at hps
    obtain ⟨R, hR, hps⟩ := Option.map_eq_some_iff.mp hps
    cases hps
    simp only [hfit.batch m, decide_eq_true_eq] at hq
    have hbatch : B ≤ (queued (cont m) c o).length :=
      (hfit.batch m ▸ hI.counters.target c (h.ps m c c.isLt)).trans hge
    have hrec := psReclaim_attach hself ha hbatch hnz hR
    have hr := hcall hrec
    have he : St.calls { s with ps := R.st, mem := update s.mem m w', live := put s.live m o false }
        (update cont m cont') = _ := calls_requeued rfl hI hI' hts hq.1 hq.2
    rw [hQ, setQueue_idem, ← hlen, ← List.length_drop, ← he] at hr
    refine ⟨w', cont', _, rfl, rfl, rfl, ?_, hchange hq.1 hr, hr, hq.1, .inr ⟨R.qsc, ?_, rfl⟩⟩
    · exact (Smr.psQuiesce_same hR).2.2
    · -- the protocol asks the same
      intro r d hd
      rw [← hQ] at henq
      have hhead : ((Smr.enqueued clk (s.calls cont) m c (Nat.pair o.blk o.off)).smrInfo m
          c).qscList.head? = some (item (update (s.mem m).tscFree o tsc) a) := by
        rw [henq, htrig, hself]
        simp [ha]
      have hA := Smr.asking_of_enqueued h.calls (c := c) (hge.trans hlen.le) hhead
      rw [henq] at hA
      exact hA.qsc_le (psTryQuiesce_attach hR Q (some m)) hd
  · rw [if_neg hge] at hq hask hcall
    rw [hask] at hps
    cases hps
    have hr := hcall rfl
    have he : St.calls { s with ps := s.ps.setClock tsc, mem := update s.mem m w'
                                live := put s.live m o false } (update cont m cont') = _ :=
      calls_requeued rfl hI hI' hts hq.1 (by rw [hq.2, update_eq_self])
    rw [hQ, ← hlen, ← he] at hr
    exact ⟨w', cont', _, rfl, rfl, rfl, rfl, hchange hq.1 hr, hr, hq.1, .inl rfl⟩

end Invariant

end Parsec.Parslab
