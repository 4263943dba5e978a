import Mathlib.Algebra.Order.Ring.Nat
import Mathlib.Data.Fin.Basic
import Mathlib.Data.Option.Basic
import Parsec.Lib.Lts

/-!
# The parsec protocol as a machine of interleaved steps

`ps_smr.h` and `ps_smr.c` with every access to another core's memory, and every clock read, a step
of its own. `N` cores (`PS_NUMCORES`) share one `struct parsec`; the memories attached to it are
the elements of `M`, and each has a quiescence queue on every core.

* A core is `idle` (in or out of a parallel section), or inside one of `ps_enter`,
  `__ps_smr_free`, `ps_quiesce`, `__ps_timing_update_remote`, `__ps_smr_reclaim`; the constructors
  of `Pc` are the points of these functions between two steps and carry their locals.
* Steps that touch only memory which no other core writes (the core's own `timing` and
  `timing_others`, its own queues) are merged with their neighbours; the loads of a remote core's
  `time_in`, `time_out` and `last_known_quiescence` and the clock read into `time_updated` are
  separate, in source order.
* Time is the value of one global clock. A label carries the value a clock read returns, which has
  to exceed all values read before.
* `St.sect` is a ghost: for a core inside a parallel section, the clock when its `ps_enter`
  completed. No step of the code reads it; `ps_enter` and `ps_exit` are enabled only in alternation.
-/

namespace Parsec.Smr

open Function

/-! ## The data -/

/-- A core's own timing information: the `time_in` and `time_out` of its last `ps_enter` and
`ps_exit`, and the furthest time for which it knows quiescence.
Source: `ps_smr.h`, `struct ps_quiescence_timing` -/
structure QuiescenceTiming where
  timeIn : Nat
  timeOut : Nat
  lastKnownQuiescence : Nat
  deriving DecidableEq, Repr

/-- What one core remembers of another core's timing, and when it looked.
Source: `ps_smr.h`, `struct __ps_other_core` -/
structure OtherCore where
  timeIn : Nat
  timeOut : Nat
  timeUpdated : Nat
  deriving DecidableEq, Repr

/-- A freed object on a quiescence queue, with the time its `ps_mheader` carries.
Source: `ps_global.h`, `struct ps_mheader` -/
structure Item where
  obj : Nat
  tscFree : Nat
  deriving DecidableEq, Repr

/-- The quiescence queue of one memory on one core, from head to tail.
Source: `ps_global.h`, `struct ps_smr_info` -/
structure SmrInfo where
  qscList : List Item
  qmemcnt : Nat
  qmemtarget : Nat
  deriving DecidableEq, Repr

/-- The locals of one call of `ps_quiesce`; `qsc` is the cell `*qsc` of the caller, and `caller`
the memory whose `__ps_smr_reclaim` made the call, if one did.
Source: `ps_smr.c`, `ps_quiesce` -/
structure Quiesce (M : Type) where
  timeCheck : Nat
  blocking : Bool
  inlibCurr : Bool
  minKnownQsc : Nat
  i : Nat
  firstTry : Bool
  qsc : Nat
  caller : Option M

/-- The point at which a core is, with the locals of the function it is in.
Source: `ps_smr.h`, `ps_smr.c` -/
inductive Pc (M : Type)
  /-- In no function of the library. -/
  | idle
  /-- `ps_enter`, the clock read and `time_in` not yet stored. -/
  | enterStore (currTime : Nat)
  /-- `__ps_smr_free`, the clock read and the object not yet enqueued. -/
  | smrFree (m : M) (it : Item)
  /-- `ps_quiesce`, nothing done yet. -/
  | quiesceStart (caller : Option M) (tsc : Nat) (blocking : Bool)
  /-- The loop of `ps_quiesce`, at its head or at `re_check`. -/
  | scan (q : Quiesce M)
  /-- `__ps_timing_update_remote`, before the load of `time_in`. -/
  | updIn (q : Quiesce M)
  /-- Before the load of `time_out`. -/
  | updOut (q : Quiesce M)
  /-- Before the clock read into `time_updated`. -/
  | updTime (q : Quiesce M)
  /-- Before the comparison of the two `last_known_quiescence`. -/
  | updLkqTest (q : Quiesce M)
  /-- Before the second load of the remote `last_known_quiescence`. -/
  | updLkqCopy (q : Quiesce M)
  /-- `ps_quiesce`, after its loop. -/
  | finish (q : Quiesce M)
  /-- The loop of `__ps_smr_reclaim` with its `i`, `qsc` and `increase_backlog`. -/
  | reclaim (m : M) (i : Nat) (qsc : Nat) (increaseBacklog : Bool)

/-- The shared state, the program points, and the ghost that records the parallel sections. The
array `timing_info` of `struct parsec` is split by the fields of `struct ps_smr_percore`: a core's
own timing, and its copies of the other cores' timing. -/
structure St (N : Nat) (M : Type) where
  clock : Nat
  timing : Fin N → QuiescenceTiming
  timingOthers : Fin N → Fin N → OtherCore
  smrInfo : M → Fin N → SmrInfo
  pc : Fin N → Pc M
  /-- Ghost: the clock at which the core completed the `ps_enter` it has not yet left. -/
  sect : Fin N → Option Nat

/-- The largest `ps_tsc_t`, written `(unsigned long long)(-1)`. -/
def tscMax : Nat := 2 ^ 64 - 1

/-! ## The functions -/

section Functions

variable {N : Nat} {M : Type}

/-- Whether a core is in a parallel section, as its own timing says.
Source: `ps_smr.c`, `__ps_in_lib` -/
def psInLib (t : QuiescenceTiming) : Bool := decide (t.timeOut ≤ t.timeIn)

/-- The core looked at in round `i` of the loop of `ps_quiesce`.
Source: `ps_smr.c`, `ps_quiesce`, `qsc_cpu` -/
def qscCpu (c : Fin N) (i : Nat) : Fin N := ⟨(c.val + i) % N, Nat.mod_lt _ c.pos⟩

/-- Where a core goes when `ps_quiesce` returns: back to its caller, or into the batch loop of
`__ps_smr_reclaim`, which notes a non-zero result in `increase_backlog`. -/
def psQuiesceReturn (caller : Option M) (ret : Int) (qsc : Nat) : Pc M :=
  match caller with
  | none => .idle
  | some m => .reclaim m 0 qsc (decide (ret ≠ 0))

/-- `-EQUIESCENCE`. Source: `ps_global.h` -/
def negEQUIESCENCE : Int := -200

/-- The part of `ps_quiesce` before its loop.
Source: `ps_smr.c`, `ps_quiesce` -/
def psQuiesceStart (timing : QuiescenceTiming) (caller : Option M) (tsc : Nat) (blocking : Bool) :
    Pc M :=
  let inlibCurr := psInLib timing
  let qsc := timing.lastKnownQuiescence
  if tsc > timing.timeIn ∧ inlibCurr = true then psQuiesceReturn caller negEQUIESCENCE qsc
  else .scan
    { timeCheck := tsc, blocking := blocking, inlibCurr := inlibCurr, minKnownQsc := tscMax,
      i := 1, firstTry := true, qsc := qsc, caller := caller }

/-- The test `done_i`: the cached copy shows the other core quiescent for `time_check`. -/
def Quiesce.doneI (q : Quiesce M) (o : OtherCore) : Bool :=
  decide (q.timeCheck < o.timeIn) ||
    (decide (q.timeCheck < o.timeUpdated) && decide (o.timeIn < o.timeOut))

/-- The update of `min_known_qsc` from a copy that passed the test, and the next round. -/
def Quiesce.next (q : Quiesce M) (o : OtherCore) : Quiesce M :=
  let v := if o.timeIn < o.timeOut then o.timeUpdated else o.timeIn
  { q with minKnownQsc := if q.minKnownQsc > v then v else q.minKnownQsc, i := q.i + 1,
           firstTry := true }

/-- One evaluation of the loop body of `ps_quiesce`, from its head or from `re_check`.
Source: `ps_smr.c`, `ps_quiesce` -/
def psQuiesceScan (c : Fin N) (timing : QuiescenceTiming) (timingOthers : Fin N → OtherCore)
    (q : Quiesce M) : Pc M :=
  if q.i < N then
    let o := timingOthers (qscCpu c q.i)
    if q.timeCheck < timing.lastKnownQuiescence then .finish q
    else if q.doneI o then .scan (q.next o)
    else if q.firstTry then .updIn { q with firstTry := false }
    else if !q.blocking then psQuiesceReturn q.caller (-1) q.qsc
    else .updIn q
  else .finish q

/-- The part of `ps_quiesce` after its loop: the new `last_known_quiescence` and where the core
goes. `none` is a failed assertion.
Source: `ps_smr.c`, `ps_quiesce` -/
def psQuiesceFinish (N : Nat) (timing : QuiescenceTiming) (q : Quiesce M) : Option (Nat × Pc M) :=
  let lkq := timing.lastKnownQuiescence
  if 1 < N ∧ q.i = N then
    let minKnownQsc :=
      if q.inlibCurr = true ∧ q.minKnownQsc > timing.timeIn then timing.timeIn
      else q.minKnownQsc
    if minKnownQsc < tscMax then
      if lkq < minKnownQsc then
        some (minKnownQsc, psQuiesceReturn q.caller 0 minKnownQsc)
      else some (lkq, psQuiesceReturn q.caller 0 q.qsc)
    else none
  else some (lkq, psQuiesceReturn q.caller 0 q.qsc)

/-- The queue after `__ps_smr_free` has enqueued an object.
Source: `ps_smr.h`, `__ps_smr_free` -/
def psSmrEnqueue (si : SmrInfo) (it : Item) : SmrInfo :=
  { si with qscList := si.qscList ++ [it], qmemcnt := si.qmemcnt + 1 }

/-- Where a core goes after the enqueue: `__ps_smr_reclaim` runs once the target is reached, and
asks for the time of the head.
Source: `ps_smr.h`, `__ps_smr_free`; `ps_smr.c`, `__ps_smr_reclaim` -/
def psSmrFreeNext (m : M) (si : SmrInfo) : Option (Pc M) :=
  if si.qmemcnt ≥ si.qmemtarget then
    si.qscList.head?.map fun a => .quiesceStart (some m) a.tscFree false
  else some .idle

/-- One round of the batch loop of `__ps_smr_reclaim`, or its exit. `none` is a failed assertion.
Source: `ps_smr.c`, `__ps_smr_reclaim` -/
def psSmrReclaim (B : Nat) (m : M) (si : SmrInfo) (i qsc : Nat) (increaseBacklog : Bool) :
    Option (SmrInfo × Pc M) :=
  let leave (backlog : Bool) : SmrInfo × Pc M :=
    ({ si with qmemtarget := if backlog then si.qmemtarget + B else si.qmemtarget }, .idle)
  if i < B then
    match si.qscList with
    | [] => none
    | a :: rest =>
        if a.tscFree = 0 then none
        else if a.tscFree > qsc then some (leave true)
        else some ({ si with qscList := rest, qmemcnt := si.qmemcnt - 1 },
          .reclaim m (i + 1) qsc increaseBacklog)
  else some (leave increaseBacklog)

end Functions

/-! ## Steps -/

namespace St

variable {N : Nat} {M : Type}

/-- Core `c` moves to another program point. -/
def setPc (s : St N M) (c : Fin N) (p : Pc M) : St N M := { s with pc := update s.pc c p }

/-- Core `c` writes its own timing. -/
def setTiming (s : St N M) (c : Fin N) (t : QuiescenceTiming) : St N M :=
  { s with timing := update s.timing c t }

/-- Core `c` writes its copy of core `r`'s timing. -/
def setOther (s : St N M) (c r : Fin N) (o : OtherCore) : St N M :=
  { s with timingOthers := update s.timingOthers c (update (s.timingOthers c) r o) }

/-- Core `c` writes its queue of memory `m`. -/
def setSmr [DecidableEq M] (s : St N M) (m : M) (c : Fin N) (si : SmrInfo) : St N M :=
  { s with smrInfo := update s.smrInfo m (update (s.smrInfo m) c si) }

/-- The global clock shows a new value. -/
def setClock (s : St N M) (now : Nat) : St N M := { s with clock := now }

/-- The ghost: core `c` completes `ps_enter` (now) or leaves its section. -/
def setSect (s : St N M) (c : Fin N) (d : Option Nat) : St N M :=
  { s with sect := update s.sect c d }

end St

/-- The labels: a call of a function by an idle core, or one more step of the function the core is
in. `now` is the value of the clock read the step makes, if it makes one. -/
inductive Act (N : Nat) (M : Type)
  | enter (c : Fin N) (now : Nat)
  | exit (c : Fin N)
  | free (c : Fin N) (m : M) (obj : Nat) (now : Nat)
  | quiesce (c : Fin N) (tsc : Nat) (blocking : Bool)
  | tick (c : Fin N) (now : Nat)

section Step

variable {N : Nat} {M : Type} [DecidableEq M]

/-- One step of the function that core `c` is in.
Source: `ps_smr.h`, `ps_smr.c` -/
def tick (B : Nat) (s : St N M) (c : Fin N) (now : Nat) : Option (St N M) :=
  match s.pc c with
  | .idle => none
  | .enterStore t =>
      some (((s.setTiming c { s.timing c with timeIn := t }).setSect c (some s.clock)).setPc c .idle)
  | .smrFree m it =>
      let si := psSmrEnqueue (s.smrInfo m c) it
      (psSmrFreeNext m si).map fun p => (s.setSmr m c si).setPc c p
  | .quiesceStart caller tsc blocking =>
      some (s.setPc c (psQuiesceStart (s.timing c) caller tsc blocking))
  | .scan q => some (s.setPc c (psQuiesceScan c (s.timing c) (s.timingOthers c) q))
  | .updIn q =>
      let r := qscCpu c q.i
      some ((s.setOther c r { s.timingOthers c r with timeIn := (s.timing r).timeIn }).setPc c
        (.updOut q))
  | .updOut q =>
      let r := qscCpu c q.i
      some ((s.setOther c r { s.timingOthers c r with timeOut := (s.timing r).timeOut }).setPc c
        (.updTime q))
  | .updTime q =>
      let r := qscCpu c q.i
      if s.clock < now then
        some (((s.setClock now).setOther c r { s.timingOthers c r with timeUpdated := now }).setPc c
          (.updLkqTest q))
      else none
  | .updLkqTest q =>
      let r := qscCpu c q.i
      if (s.timing c).lastKnownQuiescence < (s.timing r).lastKnownQuiescence then
        some (s.setPc c (.updLkqCopy q))
      else some (s.setPc c (.scan q))
  | .updLkqCopy q =>
      let r := qscCpu c q.i
      some ((s.setTiming c
        { s.timing c with lastKnownQuiescence := (s.timing r).lastKnownQuiescence }).setPc c
        (.scan q))
  | .finish q =>
      (psQuiesceFinish N (s.timing c) q).map fun r =>
        (s.setTiming c { s.timing c with lastKnownQuiescence := r.1 }).setPc c r.2
  | .reclaim m i qsc backlog =>
      (psSmrReclaim B m (s.smrInfo m c) i qsc backlog).map fun r =>
        (s.setSmr m c r.1).setPc c r.2

/-- A step of the machine. A call needs an idle core; `ps_enter` and `ps_exit` alternate.
Source: `ps_smr.h`, `ps_enter`, `ps_exit`, `__ps_smr_free`; `ps_smr.c`, `ps_quiesce` -/
def step (B : Nat) (s : St N M) : Act N M → Option (St N M)
  | .enter c now =>
      match s.pc c, s.sect c with
      | .idle, none =>
          if s.clock < now then some ((s.setClock now).setPc c (.enterStore now)) else none
      | _, _ => none
  | .exit c =>
      match s.pc c, s.sect c with
      | .idle, some _ =>
          some ((s.setTiming c { s.timing c with timeOut := (s.timing c).timeIn + 1 }).setSect c
            none)
      | _, _ => none
  | .free c m obj now =>
      match s.pc c with
      | .idle =>
          if s.clock < now then some ((s.setClock now).setPc c (.smrFree m ⟨obj, now⟩)) else none
      | _ => none
  | .quiesce c tsc blocking =>
      match s.pc c with
      | .idle => some (s.setPc c (.quiesceStart none tsc blocking))
      | _ => none
  | .tick c now => tick B s c now

end Step

/-- The state `ps_init` and `__ps_memptr_init` leave when the clock shows `now`: every core outside
of all sections, every queue empty.
Source: `ps_smr.c`, `ps_init`, `__ps_memptr_init` -/
def psInit (N : Nat) (M : Type) (B now : Nat) : St N M where
  clock := now
  timing := fun _ => ⟨now, now + 1, now⟩
  timingOthers := fun _ _ => ⟨now, now + 1, now⟩
  smrInfo := fun _ _ => ⟨[], 0, B⟩
  pc := fun _ => .idle
  sect := fun _ => none

/-- The machine with `N` cores, memories `M`, and `PS_QLIST_BATCH = B`. -/
def lts (N : Nat) (M : Type) [DecidableEq M] (B : Nat) : Lib.Lts (St N M) (Act N M) where
  init := fun s => ∃ now, s = psInit N M B now
  step := step B

/-- The item that core `c`'s next step hands to the slab free function, if it is about to hand one.
Source: `ps_smr.c`, `__ps_smr_reclaim` -/
def handsOver {N : Nat} {M : Type} (B : Nat) (s : St N M) (c : Fin N) : Option Item :=
  match s.pc c with
  | .reclaim m i qsc _ =>
      match (s.smrInfo m c).qscList with
      | a :: _ => if i < B ∧ a.tscFree ≠ 0 ∧ a.tscFree ≤ qsc then some a else none
      | [] => none
  | _ => none

/-- **Safe reclamation**: whatever item is about to be handed to the slab free function, no core is
inside a parallel section whose `ps_enter` completed before the item was freed. -/
def SafeReclaim {N : Nat} {M : Type} (B : Nat) (s : St N M) : Prop :=
  ∀ c, ∀ it ∈ handsOver B s c, ∀ r, ∀ d ∈ s.sect r, ¬ d < it.tscFree

instance {N : Nat} {M : Type} (B : Nat) (s : St N M) : Decidable (SafeReclaim B s) :=
  inferInstanceAs (Decidable (∀ c, ∀ it ∈ handsOver B s c, ∀ r, ∀ d ∈ s.sect r, ¬ d < it.tscFree))

end Parsec.Smr
