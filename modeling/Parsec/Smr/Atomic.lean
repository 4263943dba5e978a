import Parsec.Smr.Safety

/-!
# The parsec protocol, one call at a time

The functions of `ps_smr.h` and `ps_smr.c` as functions on the state, for runs in which calls do not
overlap. They are on the states of the machine of interleaved steps, between two calls.

* `Clock` — what the clock shows at the next read.
* `psQuiesce`, `psReclaim`, `psSmrFree` — the calls, with what they return; `calls` — the system.
* `reach_of_calls` — a run of calls is a run of the machine's steps, and one that meets the condition
  under which reclamation is safe. So what the machine's invariant says of a core holds here.
-/

namespace Parsec.Smr

open Function Lib

/-! ## The functions -/

/-- The global clock: what a read shows, after the last read. -/
structure Clock where
  read : ℕ → ℕ
  lt_read : ∀ t, t < read t

/-- The clock that is read at every tick. -/
def Clock.ticks : Clock := ⟨Nat.succ, Nat.lt_succ_self⟩

section Functions

variable {N : ℕ} {M : Type} (clk : Clock)

/-- Source: `ps_smr.c`, `__ps_timing_update_remote` -/
def psTimingUpdateRemote (s : St N M) (c r : Fin N) : St N M :=
  let t := s.timing r
  let s := (s.setClock (clk.read s.clock)).setOther c r ⟨t.timeIn, t.timeOut, clk.read s.clock⟩
  if (s.timing c).lastKnownQuiescence < t.lastKnownQuiescence then
    s.setTiming c { s.timing c with lastKnownQuiescence := t.lastKnownQuiescence }
  else s

/-- What a call of `ps_quiesce` returns, with `*qsc`, and the cores that it called
`__ps_timing_update_remote` for. -/
structure Quiesced (N : ℕ) (M : Type) where
  ret : ℤ
  qsc : ℕ
  updates : List (Fin N)
  st : St N M

/-- The part of `ps_quiesce` after its loop.
Source: `ps_smr.c`, `ps_quiesce` -/
def psQuiesceEnd (s : St N M) (c : Fin N) (q : Quiesce M) (us : List (Fin N)) :
    Option (Quiesced N M) :=
  let t := s.timing c
  if 1 < N ∧ q.i = N then
    let minKnownQsc :=
      if q.inlibCurr = true ∧ q.minKnownQsc > t.timeIn then t.timeIn else q.minKnownQsc
    if minKnownQsc < tscMax then
      if t.lastKnownQuiescence < minKnownQsc then
        some ⟨0, minKnownQsc, us, s.setTiming c { t with lastKnownQuiescence := minKnownQsc }⟩
      else some ⟨0, q.qsc, us, s⟩
    else none
  else some ⟨0, q.qsc, us, s⟩

/-- The loop of `ps_quiesce`, from its head or from `re_check`, `k` times at most.
Source: `ps_smr.c`, `ps_quiesce` -/
def psQuiesceLoop (c : Fin N) : ℕ → St N M → Quiesce M → List (Fin N) → Option (Quiesced N M)
  | 0, _, _, _ => none
  | k + 1, s, q, us =>
      let r := qscCpu c q.i
      if q.i < N then
        if q.timeCheck < (s.timing c).lastKnownQuiescence then psQuiesceEnd s c q us
        else if q.doneI (s.timingOthers c r) = true then
          psQuiesceLoop c k s (q.next (s.timingOthers c r)) us
        else if q.firstTry = true ∨ q.blocking = true then
          psQuiesceLoop c k (psTimingUpdateRemote clk s c r) { q with firstTry := false } (us ++ [r])
        else some ⟨-1, q.qsc, us, s⟩
      else psQuiesceEnd s c q us

/-- A call of `ps_quiesce`, for itself or in a reclamation of the memory `caller`.
Source: `ps_smr.c`, `ps_quiesce` -/
def psQuiesce (k : ℕ) (s : St N M) (c : Fin N) (caller : Option M) (tsc : ℕ) (blocking : Bool) :
    Option (Quiesced N M) :=
  let t := s.timing c
  let inlibCurr := psInLib t
  if tsc > t.timeIn ∧ inlibCurr = true then some ⟨negEQUIESCENCE, t.lastKnownQuiescence, [], s⟩
  else psQuiesceLoop clk c k s
    { timeCheck := tsc, blocking := blocking, inlibCurr := inlibCurr, minKnownQsc := tscMax, i := 1,
      firstTry := true, qsc := t.lastKnownQuiescence, caller := caller } []

/-- Every core is looked at twice at most.
Source: `ps_smr.c`, `ps_try_quiesce` -/
def psTryQuiesce (s : St N M) (c : Fin N) (caller : Option M) (tsc : ℕ) : Option (Quiesced N M) :=
  psQuiesce clk (2 * N) s c caller tsc false

/-- The batch loop of `__ps_smr_reclaim`, `k` rounds, with what is handed to the slab free function.
Source: `ps_smr.c`, `__ps_smr_reclaim` -/
def psBatchLoop (qsc : ℕ) : ℕ → SmrInfo → Bool → Option (List Item × SmrInfo × Bool)
  | 0, si, backlog => some ([], si, backlog)
  | k + 1, si, backlog =>
      match si.qscList with
      | [] => none
      | a :: rest =>
          if a.tscFree = 0 then none
          else if a.tscFree > qsc then some ([], si, true)
          else (psBatchLoop qsc k { si with qscList := rest, qmemcnt := si.qmemcnt - 1 } backlog).map
            fun r => (a :: r.1, r.2)

/-- Source: `ps_smr.c`, `__ps_smr_reclaim` -/
def psReclaim [DecidableEq M] (B : ℕ) (s : St N M) (m : M) (c : Fin N) :
    Option (List Item × St N M) := do
  let a ← (s.smrInfo m c).qscList.head?
  let r ← psTryQuiesce clk s c (some m) a.tscFree
  let (l, si, backlog) ← psBatchLoop r.qsc B (r.st.smrInfo m c) (decide (r.ret ≠ 0))
  some (l, r.st.setSmr m c
    { si with qmemtarget := if backlog then si.qmemtarget + B else si.qmemtarget })

/-- Whether a free by core `c` of an object of memory `m` starts a reclamation.
Source: `ps_smr.h`, `__ps_smr_free` -/
def Triggers (s : St N M) (m : M) (c : Fin N) : Prop :=
  (s.smrInfo m c).qmemtarget ≤ (s.smrInfo m c).qmemcnt + 1

/-- Source: `ps_smr.h`, `__ps_smr_free` -/
def psSmrFree [DecidableEq M] (B : ℕ) (s : St N M) (m : M) (c : Fin N) (obj : ℕ) :
    Option (List Item × St N M) :=
  let now := clk.read s.clock
  let si := psSmrEnqueue (s.smrInfo m c) ⟨obj, now⟩
  let s := (s.setClock now).setSmr m c si
  if si.qmemcnt ≥ si.qmemtarget then psReclaim clk B s m c else some ([], s)

end Functions

/-! ## The system -/

/-- The calls, by core. `k` bounds the rounds of a call that waits. -/
inductive Call (N : ℕ) (M : Type)
  | enter (c : Fin N)
  | exit (c : Fin N)
  | tryQuiesce (c : Fin N) (tsc : ℕ)
  | quiesceWait (c : Fin N) (tsc k : ℕ)
  | smrFree (c : Fin N) (m : M) (obj : ℕ)

section System

variable {N : ℕ} {M : Type} [DecidableEq M]

/-- The state after a call that returns. `ps_enter` and `ps_exit` alternate.
Source: `ps_smr.h`, `ps_enter`, `ps_exit`; `ps_smr.c`, `ps_try_quiesce`, `ps_quiesce_wait` -/
def call (B : ℕ) (s : St N M) : Call N M × Clock → Option (St N M)
  | (.enter c, clk) =>
      match s.sect c with
      | none =>
          let now := clk.read s.clock
          some (((s.setClock now).setTiming c { s.timing c with timeIn := now }).setSect c (some now))
      | some _ => none
  | (.exit c, _) =>
      match s.sect c with
      | some _ =>
          some ((s.setTiming c { s.timing c with timeOut := (s.timing c).timeIn + 1 }).setSect c
            none)
      | none => none
  | (.tryQuiesce c tsc, clk) => (psTryQuiesce clk s c none tsc).map Quiesced.st
  | (.quiesceWait c tsc k, clk) => (psQuiesce clk k s c none tsc true).map Quiesced.st
  | (.smrFree c m obj, clk) => (psSmrFree clk B s m c obj).map Prod.snd

/-- The runs of calls, after `ps_init` and `__ps_memptr_init`. -/
def calls (N : ℕ) (M : Type) [DecidableEq M] (B : ℕ) : Lts (St N M) (Call N M × Clock) where
  init := fun s => ∃ now, s = psInit N M B now
  step := call B

end System

/-! ## A run of calls is a run of steps -/

section Refinement

variable {N : ℕ} {M : Type} [DecidableEq M] {B : ℕ} {s : St N M} {c : Fin N} {clk : Clock}

attribute [local simp] St.setPc St.setTiming St.setOther St.setSmr St.setClock St.setSect

/-- A round of the loop is a step of the machine. -/
theorem reach_scan {q : Quiesce M} (h : (lts N M B).Reach Settled (s.setPc c (.scan q))) :
    (lts N M B).Reach Settled (s.setPc c (psQuiesceScan c (s.timing c) (s.timingOthers c) q)) := by
  refine h.step (a := .tick c 0) (fun q' hq' => ?_) ?_
  · simp [Pc.atClockRead] at hq'
  · simp [lts, step, tick]

/-- The steps of `__ps_timing_update_remote`. The remote core makes none in between. -/
theorem reach_update {q : Quiesce M} (h : (lts N M B).Reach Settled (s.setPc c (.updIn q))) :
    (lts N M B).Reach Settled
      ((psTimingUpdateRemote clk s c (qscCpu c q.i)).setPc c (.scan q)) := by
  obtain ⟨r, hr⟩ : ∃ r, r = qscCpu c q.i := ⟨_, rfl⟩
  rw [← hr]
  have h₁ : (lts N M B).Reach Settled ((s.setOther c r
      { s.timingOthers c r with timeIn := (s.timing r).timeIn }).setPc c (.updOut q)) := by
    refine h.step (a := .tick c 0) (fun q' hq' => ?_) ?_
    · simp [Pc.atClockRead] at hq'
    · simp [lts, step, tick, hr]
  have h₂ : (lts N M B).Reach Settled ((s.setOther c r { s.timingOthers c r with
      timeIn := (s.timing r).timeIn, timeOut := (s.timing r).timeOut }).setPc c (.updTime q)) := by
    refine h₁.step (a := .tick c 0) (fun q' hq' => ?_) ?_
    · simp [Pc.atClockRead] at hq'
    · simp [lts, step, tick, hr]
  have h₃ : (lts N M B).Reach Settled (((s.setClock (clk.read s.clock)).setOther c r
      ⟨(s.timing r).timeIn, (s.timing r).timeOut, clk.read s.clock⟩).setPc c (.updLkqTest q)) := by
    refine h₂.step (a := .tick c (clk.read s.clock)) (fun q' hq' => ?_) ?_
    · obtain rfl : q = q' := by simpa [Pc.atClockRead] using hq'
      intro hlt
      simp [← hr] at hlt
      simpa [psInLib, ← hr] using hlt
    · simp [lts, step, tick, ← hr, clk.lt_read]
  by_cases hlt : (s.timing c).lastKnownQuiescence < (s.timing r).lastKnownQuiescence
  · have h₄ : (lts N M B).Reach Settled (((s.setClock (clk.read s.clock)).setOther c r
        ⟨(s.timing r).timeIn, (s.timing r).timeOut, clk.read s.clock⟩).setPc c (.updLkqCopy q)) := by
      refine h₃.step (a := .tick c 0) (fun q' hq' => ?_) ?_
      · simp [Pc.atClockRead] at hq'
      · simp [lts, step, tick, ← hr, hlt]
    refine h₄.step (a := .tick c 0) (fun q' hq' => ?_) ?_
    · simp [Pc.atClockRead] at hq'
    · simp [lts, step, tick, ← hr, psTimingUpdateRemote, hlt]
  · refine h₃.step (a := .tick c 0) (fun q' hq' => ?_) ?_
    · simp [Pc.atClockRead] at hq'
    · simp [lts, step, tick, ← hr, psTimingUpdateRemote, hlt]

/-- The end of `ps_quiesce` is a step of the machine. -/
theorem reach_end {q : Quiesce M} {us : List (Fin N)} {R : Quiesced N M}
    (h : (lts N M B).Reach Settled (s.setPc c (.finish q))) (hR : psQuiesceEnd s c q us = some R) :
    (lts N M B).Reach Settled (R.st.setPc c (psQuiesceReturn q.caller R.ret R.qsc)) := by
  refine h.step (a := .tick c 0) (fun q' hq' => ?_) ?_
  · simp [Pc.atClockRead] at hq'
  · unfold psQuiesceEnd at hR
    simp only [lts, step, tick, St.setPc, update_self, psQuiesceFinish]
    split at hR
    · rename_i hN
      rw [if_pos hN]
      simp only at hR
      generalize (if q.inlibCurr = true ∧ q.minKnownQsc > (s.timing c).timeIn
        then (s.timing c).timeIn else q.minKnownQsc) = m at hR ⊢
      split_ifs at hR with h₁ h₂ <;> cases hR <;> simp [h₁, h₂]
    · rename_i hN
      cases hR
      simp [hN]

/-- The loop of `ps_quiesce` as steps of the machine. -/
theorem reach_loop {k : ℕ} {q : Quiesce M} {us : List (Fin N)} {R : Quiesced N M}
    (h : (lts N M B).Reach Settled (s.setPc c (.scan q)))
    (hR : psQuiesceLoop clk c k s q us = some R) :
    (lts N M B).Reach Settled (R.st.setPc c (psQuiesceReturn q.caller R.ret R.qsc)) := by
  induction k generalizing s q us with
  | zero => cases hR
  | succ k ih =>
      have hs := reach_scan h
      unfold psQuiesceScan at hs
      unfold psQuiesceLoop at hR
      simp only at hR hs
      by_cases hi : q.i < N
      swap
      · rw [if_neg hi] at hR hs
        exact reach_end hs hR
      rw [if_pos hi] at hR hs
      by_cases hlkq : q.timeCheck < (s.timing c).lastKnownQuiescence
      · rw [if_pos hlkq] at hR hs
        exact reach_end hs hR
      rw [if_neg hlkq] at hR hs
      by_cases hdone : q.doneI (s.timingOthers c (qscCpu c q.i)) = true
      · rw [if_pos hdone] at hR hs
        exact ih (q := q.next _) hs hR
      rw [if_neg hdone] at hR hs
      by_cases hfirst : q.firstTry = true
      · rw [if_pos hfirst] at hs
        rw [if_pos (.inl hfirst)] at hR
        exact ih (q := { q with firstTry := false }) (reach_update hs) hR
      have hq : { q with firstTry := false } = q := by
        rw [← Bool.not_eq_true _ |>.mp hfirst]
      rw [if_neg hfirst] at hs
      by_cases hb : q.blocking = true
      · rw [if_neg (by simp [hb])] at hs
        rw [if_pos (.inr hb), hq] at hR
        exact ih (reach_update hs) hR
      · rw [if_pos (by simp [hb])] at hs
        rw [if_neg (by simp [hfirst, hb])] at hR
        cases hR
        exact hs

omit [DecidableEq M] in
/-- A core that stays where it is. -/
theorem setPc_self {p : Pc M} (h : s.pc c = p) : s.setPc c p = s := by
  rw [St.setPc, ← h, update_eq_self]

/-- A queue that stays as it is. -/
theorem setSmr_self {m : M} : s.setSmr m c (s.smrInfo m c) = s := by simp

/-- The steps of a call of `ps_quiesce`. -/
theorem reach_quiesce {k tsc : ℕ} {caller : Option M} {b : Bool} {R : Quiesced N M}
    (h : (lts N M B).Reach Settled (s.setPc c (.quiesceStart caller tsc b)))
    (hR : psQuiesce clk k s c caller tsc b = some R) :
    (lts N M B).Reach Settled (R.st.setPc c (psQuiesceReturn caller R.ret R.qsc)) := by
  have hs : (lts N M B).Reach Settled (s.setPc c (psQuiesceStart (s.timing c) caller tsc b)) := by
    refine h.step (a := .tick c 0) (fun q' hq' => ?_) ?_
    · simp [Pc.atClockRead] at hq'
    · simp [lts, step, tick]
  unfold psQuiesceStart at hs
  unfold psQuiesce at hR
  simp only at hs hR
  split_ifs at hs hR with h₁
  · cases hR
    exact hs
  · exact reach_loop hs hR

/-- The batch loop as steps of the machine. -/
theorem reach_batch {m : M} {qsc k i : ℕ} {si si' : SmrInfo} {backlog backlog' : Bool} {l : List Item}
    (hi : i + k = B)
    (h : (lts N M B).Reach Settled ((s.setSmr m c si).setPc c (.reclaim m i qsc backlog)))
    (hR : psBatchLoop qsc k si backlog = some (l, si', backlog')) :
    (lts N M B).Reach Settled ((s.setSmr m c
      { si' with qmemtarget := if backlog' then si'.qmemtarget + B else si'.qmemtarget }).setPc c
        .idle) := by
  induction k generalizing i si l with
  | zero =>
      cases hR
      refine h.step (a := .tick c 0) (fun q' hq' => ?_) ?_
      · simp [Pc.atClockRead] at hq'
      · have hB : ¬ i < B := by omega
        simp [lts, step, tick, psSmrReclaim, hB]
  | succ k ih =>
      have hB : i < B := by omega
      unfold psBatchLoop at hR
      split at hR
      · cases hR
      · rename_i a rest hl
        split_ifs at hR with h₀ hgt
        · cases hR
          refine h.step (a := .tick c 0) (fun q' hq' => ?_) ?_
          · simp [Pc.atClockRead] at hq'
          · simp [lts, step, tick, psSmrReclaim, hB, hl, h₀, hgt]
        · obtain ⟨⟨l', r⟩, hR', he⟩ := Option.map_eq_some_iff.mp hR
          cases he
          refine ih (i := i + 1) (by omega) ?_ hR'
          refine h.step (a := .tick c 0) (fun q' hq' => ?_) ?_
          · simp [Pc.atClockRead] at hq'
          · simp [lts, step, tick, psSmrReclaim, hB, hl, h₀, hgt]

omit [DecidableEq M] in
/-- A call of `ps_quiesce` leaves the queues and the program points alone. -/
theorem psQuiesceLoop_same {k : ℕ} {q : Quiesce M} {us : List (Fin N)} {R : Quiesced N M}
    (hR : psQuiesceLoop clk c k s q us = some R) :
    R.st.smrInfo = s.smrInfo ∧ R.st.pc = s.pc ∧ R.st.sect = s.sect := by
  have hend : ∀ {s : St N M} {q : Quiesce M} {us}, psQuiesceEnd s c q us = some R →
      R.st.smrInfo = s.smrInfo ∧ R.st.pc = s.pc ∧ R.st.sect = s.sect := by
    intro s q us h
    unfold psQuiesceEnd at h
    simp only at h
    split_ifs at h <;> cases h <;> exact ⟨rfl, rfl, rfl⟩
  induction k generalizing s q us with
  | zero => cases hR
  | succ k ih =>
      unfold psQuiesceLoop at hR
      simp only at hR
      split_ifs at hR
      · exact hend hR
      · exact ih hR
      · obtain ⟨h₁, h₂, h₃⟩ := ih hR
        rw [h₁, h₂, h₃]
        unfold psTimingUpdateRemote
        simp only
        split <;> exact ⟨rfl, rfl, rfl⟩
      · cases hR
        exact ⟨rfl, rfl, rfl⟩
      · exact hend hR

omit [DecidableEq M] in
/-- `ps_quiesce` leaves queues and sections alone. -/
theorem psQuiesce_same {k tsc : ℕ} {caller : Option M} {b : Bool} {R : Quiesced N M}
    (hR : psQuiesce clk k s c caller tsc b = some R) :
    R.st.smrInfo = s.smrInfo ∧ R.st.pc = s.pc ∧ R.st.sect = s.sect := by
  unfold psQuiesce at hR
  simp only at hR
  split_ifs at hR
  · cases hR
    exact ⟨rfl, rfl, rfl⟩
  · exact psQuiesceLoop_same hR

/-- A reclamation, from the point where it asks for the time of the head. -/
theorem reach_reclaim {m : M} {l : List Item} {s' : St N M} {a : Item}
    (ha : (s.smrInfo m c).qscList.head? = some a)
    (h : (lts N M B).Reach Settled (s.setPc c (.quiesceStart (some m) a.tscFree false)))
    (hR : psReclaim clk B s m c = some (l, s')) :
    (lts N M B).Reach Settled (s'.setPc c .idle) ∧ s'.pc = s.pc := by
  unfold psReclaim at hR
  simp only [ha, Option.bind_eq_bind, Option.bind_some] at hR
  obtain ⟨R, hq, hR⟩ := Option.bind_eq_some_iff.mp hR
  obtain ⟨⟨l', si, backlog⟩, hb, hR⟩ := Option.bind_eq_some_iff.mp hR
  cases hR
  refine ⟨reach_batch (i := 0) (Nat.zero_add B) ?_ hb, (psQuiesce_same hq).2.1⟩
  have hs := reach_quiesce h hq
  rwa [← setSmr_self (s := R.st) (m := m) (c := c)] at hs

/-- The state in which `__ps_smr_free` has enqueued the object. -/
def enqueued (clk : Clock) (s : St N M) (m : M) (c : Fin N) (obj : ℕ) : St N M :=
  (s.setClock (clk.read s.clock)).setSmr m c
    (psSmrEnqueue (s.smrInfo m c) ⟨obj, clk.read s.clock⟩)

/-- A free enqueues, and reclaims when the target is reached. -/
theorem psSmrFree_eq {m : M} {obj : ℕ} : psSmrFree clk B s m c obj =
    if ((enqueued clk s m c obj).smrInfo m c).qmemcnt ≥
        ((enqueued clk s m c obj).smrInfo m c).qmemtarget then
      psReclaim clk B (enqueued clk s m c obj) m c
    else some ([], enqueued clk s m c obj) := by
  simp [psSmrFree, enqueued]

/-- The queue with the object that has been freed. -/
theorem enqueued_smrInfo {m : M} {obj : ℕ} : (enqueued clk s m c obj).smrInfo m c =
    psSmrEnqueue (s.smrInfo m c) ⟨obj, clk.read s.clock⟩ := by
  simp [enqueued]

/-- The steps of `__ps_smr_free`, up to the point where it returns or starts a reclamation. -/
theorem reach_enqueued (clk : Clock) {m : M} (obj : ℕ) {p : Pc M} (h : (lts N M B).Reach Settled s)
    (hpc : s.pc c = .idle)
    (hp : psSmrFreeNext m ((enqueued clk s m c obj).smrInfo m c) = some p) :
    (lts N M B).Reach Settled ((enqueued clk s m c obj).setPc c p) := by
  rw [enqueued_smrInfo] at hp
  have h₁ : (lts N M B).Reach Settled
      ((s.setClock (clk.read s.clock)).setPc c (.smrFree m ⟨obj, clk.read s.clock⟩)) :=
    h.step (a := .free c m obj (clk.read s.clock)) trivial (by simp [lts, step, hpc, clk.lt_read])
  refine h₁.step (a := .tick c 0) (fun q hq => ?_) ?_
  · simp [Pc.atClockRead] at hq
  · simp [lts, step, tick, hp, enqueued]

/-- **A call is a run of steps**: if it is made when no core is in a function, none is after it. -/
theorem reach_call {a : Call N M × Clock} {s' : St N M} (h : (lts N M B).Reach Settled s)
    (hpc : ∀ c, s.pc c = .idle) (hs : call B s a = some s') :
    (lts N M B).Reach Settled s' ∧ s'.pc = s.pc := by
  obtain ⟨a, clk⟩ := a
  have hquiesce : ∀ {c tsc k b R}, psQuiesce clk k s c none tsc b = some R →
      (lts N M B).Reach Settled R.st ∧ R.st.pc = s.pc := by
    intro c tsc k b R hR
    have hpc' := (psQuiesce_same hR).2.1
    have h₁ : (lts N M B).Reach Settled (s.setPc c (.quiesceStart none tsc b)) :=
      h.step (a := .quiesce c tsc b) trivial (by simp [lts, step, hpc])
    have h₂ := reach_quiesce h₁ hR
    rw [psQuiesceReturn, setPc_self (by rw [hpc', hpc])] at h₂
    exact ⟨h₂, hpc'⟩
  cases a with
  | enter c =>
      simp only [call] at hs
      split at hs
      · rename_i hn
        cases hs
        have h₁ : (lts N M B).Reach Settled
            ((s.setClock (clk.read s.clock)).setPc c (.enterStore (clk.read s.clock))) :=
          h.step (a := .enter c (clk.read s.clock)) trivial
            (by simp [lts, step, hpc, hn, clk.lt_read])
        refine ⟨h₁.step (a := .tick c 0) (fun q hq => ?_) ?_, rfl⟩
        · simp [Pc.atClockRead] at hq
        · have hself : update s.pc c .idle = s.pc := by rw [← hpc c, update_eq_self]
          simp [lts, step, tick, hself]
      · cases hs
  | exit c =>
      simp only [call] at hs
      split at hs
      · rename_i d hd
        cases hs
        refine ⟨h.step (a := .exit c) trivial ?_, rfl⟩
        simp [lts, step, hpc, hd]
      · cases hs
  | tryQuiesce c tsc =>
      obtain ⟨R, hR, rfl⟩ := Option.map_eq_some_iff.mp hs
      exact hquiesce hR
  | quiesceWait c tsc k =>
      obtain ⟨R, hR, rfl⟩ := Option.map_eq_some_iff.mp hs
      exact hquiesce hR
  | smrFree c m obj =>
      obtain ⟨⟨l, s'⟩, hR, rfl⟩ := Option.map_eq_some_iff.mp hs
      have hpc₁ : (enqueued clk s m c obj).pc = s.pc := rfl
      rw [psSmrFree_eq] at hR
      split_ifs at hR with hge
      · have hR' := hR
        unfold psReclaim at hR'
        obtain ⟨a, ha, -⟩ := Option.bind_eq_some_iff.mp hR'
        obtain ⟨h₂, hpc₂⟩ := reach_reclaim ha
          (reach_enqueued _ _ h (hpc c) (by rw [psSmrFreeNext, if_pos hge, ha]; rfl)) hR
        rw [setPc_self (by rw [hpc₂, hpc₁, hpc])] at h₂
        exact ⟨h₂, hpc₂.trans hpc₁⟩
      · cases hR
        have h₂ := reach_enqueued clk obj h (hpc c)
          (by rw [psSmrFreeNext, if_neg hge])
        rw [setPc_self (by rw [hpc₁, hpc])] at h₂
        exact ⟨h₂, hpc₁⟩

/-- A run of calls is a run of settled steps, and between calls no core is in a function. -/
theorem reach_of_calls (h : (calls N M B).Reach (fun _ _ => True) s) :
    (lts N M B).Reach Settled s ∧ ∀ c, s.pc c = .idle := by
  induction h with
  | init h =>
      obtain ⟨now, rfl⟩ := h
      exact ⟨.init ⟨now, rfl⟩, fun _ => rfl⟩
  | step _ _ hs ih =>
      obtain ⟨h, hpc⟩ := reach_call ih.1 ih.2 hs
      exact ⟨h, fun c => by rw [hpc, ih.2]⟩

end Refinement

end Parsec.Smr
