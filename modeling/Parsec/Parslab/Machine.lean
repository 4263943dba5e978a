import Mathlib.Data.Nat.Pairing
import Parsec.Slab.Mem
import Parsec.Smr.Exact

/-!
# Memories that share a parsec

The slab allocator and the parsec protocol put together: a deferred free reads the clock, enqueues the
object, and where it starts a reclamation asks the parsec whether the time of the first object of the
queue has quiesced. Any number of memories are attached to one parsec, and each call is one step.

* `asksFor`, `ask`, `memptrFree` — the deferred free; `step`, `lts` — the system.
* `St.seen` is a ghost: the objects that have been live since a core entered the section it is in, and
  that it may hold references to.
* `St.calls` — the state of the parsec protocol that a state stands for, with the queues as lists.
-/

namespace Parsec.Parslab

open Function Lib Slab

/-! ## The state -/

/-- A parsec that counts no memories of its own, the memories that are attached to it, and their
objects that callers have. -/
structure St (N : ℕ) (M ε : Type) where
  ps : Smr.St N Empty
  mem : M → World ε
  live : M → Obj → Bool
  /-- Ghost: the objects that have been live since the core entered its section. -/
  seen : Fin N → M → Obj → Bool

/-- The calls: those on the parsec alone, allocations with what the supplier returns, and frees. -/
inductive Op (N : ℕ) (M ι : Type)
  | par (a : Smr.Call N Empty)
  | alloc (c : Fin N) (m : M) (i : ι)
  | free (c : Fin N) (m : M) (o : Obj)

section Step

variable {N : ℕ} {M ε ι : Type} [DecidableEq M]

/-- Marking an object of a memory, or taking the mark from it. -/
def put (p : M → Obj → Bool) (m : M) (o : Obj) (b : Bool) : M → Obj → Bool :=
  update p m (update (p m) o b)

/-- The time for which a free by core `c` asks whether it has quiesced, if it starts a reclamation:
that of the first object of the queue.
Source: `ps_smr.h`, `__ps_smr_free`; `ps_smr.c`, `__ps_smr_reclaim` -/
def asksFor (w : World ε) (o : Obj) (c tsc : ℕ) : Option ℕ :=
  let w := qscEnqueue { w with tscFree := update w.tscFree o tsc } c o
  if w.qmemtarget c ≤ w.qmemcnt c + 1 then (w.qscHead c).map w.tscFree else none

/-- The parsec after it has been asked for a time, and what it reports: how far it has quiesced, and
whether the time itself has not.
Source: `ps_smr.c`, `__ps_smr_reclaim` -/
def ask (clk : Smr.Clock) (ps : Smr.St N Empty) (c : Fin N) :
    Option ℕ → Option (Smr.St N Empty × ℕ × Bool)
  | none => some (ps, 0, false)
  | some t => (Smr.psTryQuiesce clk ps c none t).map fun R => (R.st, R.qsc, decide (R.ret ≠ 0))

variable (g : M → Geom) (f : M → Fns ε ι)

/-- Core `c` frees an object of memory `m`, once no core can refer to it.
Source: `ps_smr.h`, `ps_memptr_free`, `__ps_smr_free` -/
def memptrFree (clk : Smr.Clock) (s : St N M ε) (c : Fin N) (m : M) (o : Obj) :
    Option (St N M ε) := do
  let tsc := clk.read s.ps.clock
  let (ps, qsc, busy) ← ask clk (s.ps.setClock tsc) c (asksFor (s.mem m) o c tsc)
  let w ← smrFree (g m) (f m) (s.mem m) o c tsc qsc busy
  some { s with ps := ps, mem := update s.mem m w, live := put s.live m o false }

/-- What a core may refer to, after a call on the parsec. -/
def St.see (s : St N M ε) : Smr.Call N Empty → Fin N → M → Obj → Bool
  | .enter c => update s.seen c s.live
  | .exit c => update s.seen c fun _ _ => false
  | .tryQuiesce _ _ | .quiesceWait _ _ _ | .smrFree _ _ _ => s.seen

/-- A call. The clock is read in those that need the time.
Source: `ps_smr.h`, `ps_enter`, `ps_exit`, `ps_memptr_alloc`, `ps_memptr_free` -/
def step (s : St N M ε) : Op N M ι × Smr.Clock → Option (St N M ε)
  | (.par a, clk) => (Smr.call 1 s.ps (a, clk)).map fun ps => { s with ps := ps, seen := s.see a }
  | (.alloc c m i, _) => (memAlloc (g m) (f m) (s.mem m) c i).map fun
      | (none, w) => { s with mem := update s.mem m w }
      | (some o, w) => { s with
          mem := update s.mem m w
          live := put s.live m o true
          seen := fun c' => put (s.seen c') m o true }
  | (.free c m o, clk) => memptrFree g f clk s c m o

/-- A parsec, and memories that have just been attached to it, over suppliers with `K`. -/
def lts (K : M → World ε → Prop) : Lts (St N M ε) (Op N M ι × Smr.Clock) where
  init s := (∃ now, s.ps = Smr.psInit N Empty 1 now) ∧
    (∀ m, (∃ w, s.mem m = memptrInit (g m) (slabptrInit w)) ∧ K m (s.mem m)) ∧
    ∀ m o, s.live m o = false
  step := step g f

/-- What is relied on: an object that is freed is live, and a supplier is called where it may be. -/
def Ok (A : M → World ε → ℕ → ι → Prop) (s : St N M ε) : Op N M ι × Smr.Clock → Prop
  | (.par _, _) => True
  | (.alloc c m i, _) =>
      ∀ w, allocPrep (g m) (f m) (s.mem m) c = some w → w.flist c = none → A m w c i
  | (.free _ m o, _) => s.live m o = true

end Step

/-! ## The protocol that it carries out -/

section Calls

variable {N : ℕ} {M ε : Type}

/-- The parsec with the queues of the memories that are attached to it. -/
def attach (ps : Smr.St N Empty) (q : M → Fin N → Smr.SmrInfo) : Smr.St N M where
  clock := ps.clock
  timing := ps.timing
  timingOthers := ps.timingOthers
  smrInfo := q
  pc := fun _ => .idle
  sect := ps.sect

/-- An object on a queue, by a number for its address. -/
def item (ts : Obj → ℕ) (o : Obj) : Smr.Item := ⟨Nat.pair o.blk o.off, ts o⟩

/-- The quiescence queue of core `c`, as a list. -/
def smrInfo (w : World ε) (cont : Key → List Obj) (c : Fin N) : Smr.SmrInfo where
  qscList := (cont (.queue c)).map (item w.tscFree)
  qmemcnt := w.qmemcnt c
  qmemtarget := w.qmemtarget c

/-- The state of the protocol. -/
def St.calls (s : St N M ε) (cont : M → Key → List Obj) : Smr.St N M :=
  attach s.ps fun m c => smrInfo (s.mem m) (cont m) c

end Calls

end Parsec.Parslab
