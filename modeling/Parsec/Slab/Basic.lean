import Mathlib.Logic.Function.Basic
import Parsec.Plat

/-!
# The slab allocator and deferred frees

`ps_slab.h`, `ps_slab.c` and the freeing half of `ps_smr.h`, `ps_smr.c`: allocation of objects from
slabs, frees on the home core and on others, and the quiescence queue. Each call is a function on
the world; a fault or a failed assertion is `none`.

* An object is known by the address of its header, a byte offset in a block of slab memory. The
  headers of all objects share one `next` field, in which the freelists of slabs, the lists of
  remotely freed objects and the quiescence queues are linked.
* A slab is known by the address of its `struct ps_slab`, which is also the address of the links
  (`struct ps_list`) in it.
* Where slab memory comes from is the parameter `Fns`: `afn` and `ffn` act on the part `env` of the
  world. Which cores and times the hardware reports, and what `ps_try_quiesce` finds, are arguments.
* Counters are natural numbers, except where the code reads one modulo something, and the counts of
freed objects, which are in an `int`.
-/

namespace Parsec.Slab

open Function

/-! ## Parameters -/

/-- `sizeof(struct ps_mheader)`, which is packed.
Source: `ps_global.h`, `struct ps_mheader` -/
def mheadSz (a : Arch) : ℕ := 8 + psWord a + psWord a

/-- The size of an object with its header.
Source: `ps_slab.h`, `__ps_slab_objmemsz` -/
def objmemsz (a : Arch) (objSz : ℕ) : ℕ := psRndup a (objSz + mheadSz a) (psWord a)

/-- The lists of remotely freed objects for each locality.
Source: `ps_global.h`, `NUM_REMOTE_LIST` -/
def numRemoteList (a : Arch) : ℕ := 64 / psWord a

/-- The parameters of `PS_SLAB_CREATE_AFNS`, the configuration and the machine. `objSz` is the size
of a C object, so that rounding it up with its header does not overflow.
Source: `ps_slab.h`, `PS_SLAB_PARAMS`; `ps_config.h`, `PS_NUMCORES`, `PS_NUMLOCALITIES`,
`PS_REMOTE_BATCH`; `ps_smr.h`, `PS_QLIST_BATCH` -/
structure Shape where
  arch : Arch
  objSz : ℕ
  allocsz : ℕ
  headoff : ℕ
  numCores : ℕ
  numLocalities : ℕ
  locality : ℕ → ℕ
  remoteBatch : ℕ
  qlistBatch : ℕ
  objSz_le : objSz + mheadSz arch + psWord arch ≤ 2 ^ wordBits arch
  allocsz_lt : allocsz < 2 ^ wordBits arch
  locality_lt : ∀ c, locality c < numLocalities
  qlistBatch_pos : 0 < qlistBatch

/-- Slabs that have room for an object: `fits` is the assertion of `__ps_slab_mem_free`. -/
structure Geom extends Shape where
  fits : objmemsz arch objSz + headoff ≤ allocsz

instance : Coe Geom Shape := ⟨Geom.toShape⟩

/-- The address of an object's header. -/
structure Obj where
  blk : ℕ
  off : ℕ
  deriving DecidableEq

namespace Shape

variable (g : Shape)

/-- The objects of a slab.
Source: `ps_slab.h`, `__ps_slab_max_nobjs` -/
def nobjs : ℕ := (g.allocsz - g.headoff) / objmemsz g.arch g.objSz

/-- The address of the `i`th object of a slab.
Source: `ps_slab.c`, `__ps_slab_init`: `alloc` -/
def obj (b i : ℕ) : Obj := ⟨b, g.headoff + i * objmemsz g.arch g.objSz⟩

end Shape

/-! ## The state -/

/-- The headers of objects, the slabs, and `struct ps_mem`. `slabs` marks the slabs between their
initialisation and their release; no function reads it.
Source: `ps_global.h`, `struct ps_mheader`, `struct ps_mem`; `ps_slab.h`, `struct ps_slab` -/
structure World (ε : Type) where
  tscFree : Obj → ℕ
  slab : Obj → Option ℕ
  next : Obj → Option Obj
  memory : ℕ → Option ℕ
  start : ℕ → ℕ
  end_ : ℕ → ℕ
  memsz : ℕ → ℕ
  coreid : ℕ → ℕ
  freelist : ℕ → Option Obj
  nfree : ℕ → ℕ
  slabs : ℕ → Bool
  listN : ℕ → ℕ
  listP : ℕ → ℕ
  flist : ℕ → Option ℕ
  salloccnt : ℕ → ℕ
  remoteToken : ℕ → ℕ
  nslabs : ℕ → ℕ
  remoteFrees : ℕ × ℕ × ℕ → Option Obj
  pushed : ℕ
  ps : ℕ → Bool
  qscHead : ℕ → Option Obj
  qscTail : ℕ → Option Obj
  qmemcnt : ℕ → ℕ
  qmemtarget : ℕ → ℕ
  env : ε

/-- The functions that a use of `PS_SLAB_CREATE_AFNS` passes. `ι` is what is outside of the code's
control in an allocation; `afn` may return NULL.
Source: `ps_global.h`, `ps_alloc_fn_t`, `ps_free_fn_t` -/
structure Fns (ε ι : Type) where
  afn : World ε → ℕ → ℕ → ι → Option (Option ℕ × World ε)
  ffn : World ε → ℕ → ℕ → ℕ → Option (World ε)

/-! ## Freelists of slabs -/

section Freelist

variable {ε : Type}

/-- Source: `ps_list.h`, `ps_list_ll_add` -/
def listAdd (w : World ε) (l new : ℕ) : World ε :=
  { w with
    listN := update (update w.listN new (w.listN l)) l new
    listP := update (update w.listP new l) (w.listN l) new }

/-- Source: `ps_list.h`, `ps_list_ll_rem` -/
def listRem (w : World ε) (l : ℕ) : World ε :=
  let p := update w.listP (w.listN l) (w.listP l)
  { w with
    listN := update (update w.listN (p l) (w.listN l)) l l
    listP := update p l l }

/-- Adding a slab to the freelist of a core: it goes behind the first one, and becomes the first.
Source: `ps_slab.h`, `__slab_freelist_add` -/
def freelistAdd (w : World ε) (c s : ℕ) : Option (World ε) :=
  if w.listN s = s ∧ w.flist c ≠ some s then
    let w := match w.flist c with
      | some h => listAdd w h s
      | none => w
    some { w with flist := update w.flist c (some s) }
  else none

/-- Removing a slab from the freelist of a core: if it was the first one, the next one is then.
Source: `ps_slab.h`, `__slab_freelist_rem` -/
def freelistRem (w : World ε) (c s : ℕ) : World ε :=
  let w := if w.flist c = some s then
      { w with flist := update w.flist c (if w.listN s = s then none else some (w.listN s)) }
    else w
  listRem w s

end Freelist

/-! ## Frees -/

section Free

variable {ε ι : Type} (g : Shape) (f : Fns ε ι)

/-- The list of remotely freed objects of core `target` that core `c` pushes to.
Source: `ps_slab.c`, `__ps_slab_mem_remote_free` -/
def remoteKey (c target : ℕ) : ℕ × ℕ × ℕ := (target, g.locality c, c % numRemoteList g.arch)

/-- Core `c` frees an object of another core's slab. The load of the head, the write of `next` and
the compare-and-swap are one step.
Source: `ps_slab.c`, `__ps_slab_mem_remote_free`; `ps_global.h`, `__ps_rfl_stack_push` -/
def memRemoteFree (w : World ε) (h : Obj) (c target : ℕ) : World ε :=
  { w with
    next := update w.next h (w.remoteFrees (remoteKey g c target))
    remoteFrees := update w.remoteFrees (remoteKey g c target) (some h)
    pushed := w.pushed + 1 }

/-- Core `c` frees an object of a slab of its own: it goes to the front of the slab's freelist.
Source: `ps_slab.h`, `__ps_slab_mem_free` -/
def pushFree (w : World ε) (h : Obj) (s : ℕ) : World ε :=
  { w with
    tscFree := update w.tscFree h 1
    freelist := update w.freelist s (some h)
    next := update w.next h (w.freelist s)
    nfree := update w.nfree s (w.nfree s + 1) }

/-- A slab all of whose objects are free is released.
Source: `ps_slab.h`, `__ps_slab_mem_free` -/
def releaseSlab (w : World ε) (s c : ℕ) : Option (World ε) :=
  let w := freelistRem { w with nslabs := update w.nslabs c (w.nslabs c - 1) } c s
  f.ffn { w with slabs := update w.slabs s false } s (w.memsz s) c

/-- Core `c` frees an object. `max_nobjs` is an `unsigned int`.
Source: `ps_slab.h`, `__ps_slab_mem_free` -/
def memFree (w : World ε) (h : Obj) (c : ℕ) : Option (World ε) :=
  if objmemsz g.arch g.objSz + g.headoff ≤ g.allocsz ∧ w.tscFree h = 0 then
    match w.slab h with
    | none => none
    | some s =>
        if w.coreid s ≠ c then some (memRemoteFree g w h c (w.coreid s))
        else
          let w := pushFree w h s
          if w.nfree s = toU32 g.nobjs then releaseSlab f w s c
          else if w.nfree s = 1 then
            if w.listN s = s ∧ w.memory s ≠ none ∧ w.freelist s ≠ none then freelistAdd w c s
            else none
          else some w
  else none

/-- The inner loop of `__ps_slab_mem_remote_clear`, from the object `h`, with the number of objects
freed so far, an `int`. The list is not longer than the number of pushes so far.
Source: `ps_slab.c`, `__ps_slab_mem_remote_clear` -/
def drain (c : ℕ) : ℕ → World ε → Option Obj → ℕ → Option (World ε × ℕ)
  | _, w, none, ret => some (w, ret)
  | 0, _, some _, _ => none
  | k + 1, w, some h, ret => do
      let n := w.next h
      let w ← memFree g f { w with next := update w.next h none } h c
      if ret + 1 < 2 ^ 31 then drain c k w n (ret + 1) else none

/-- The first `k` rounds of the loop of `__ps_slab_mem_remote_clear`.
Source: `ps_slab.c`, `__ps_slab_mem_remote_clear`; `ps_global.h`, `__ps_rfl_stack_remove_all` -/
def clearLoop (c loc : ℕ) : ℕ → World ε → Option (World ε × ℕ)
  | 0, w => some (w, 0)
  | i + 1, w => do
      let (w, ret) ← clearLoop c loc i w
      let h := w.remoteFrees (c, loc, i)
      let w := { w with remoteFrees := update w.remoteFrees (c, loc, i) none }
      drain g f c w.pushed w h ret

/-- Core `c` frees what other cores of one locality have freed for it.
Source: `ps_slab.c`, `__ps_slab_mem_remote_clear` -/
def memRemoteClear (w : World ε) (c loc : ℕ) : Option (World ε × ℕ) :=
  clearLoop g f c loc (numRemoteList g.arch) w

/-- The loop of `__ps_slab_mem_remote_process`, with the locality it ends with: every locality is
visited at most once.
Source: `ps_slab.c`, `__ps_slab_mem_remote_process` -/
def processLoop (c : ℕ) : ℕ → World ε → ℕ → Option (World ε × ℕ)
  | 0, _, _ => none
  | k + 1, w, loc => do
      let (w, ret) ← memRemoteClear g f w c loc
      let loc := (loc + 1) % g.numLocalities
      if ret = 0 ∧ loc ≠ w.remoteToken c then processLoop c k w loc else some (w, loc)

/-- Source: `ps_slab.c`, `__ps_slab_mem_remote_process` -/
def memRemoteProcess (w : World ε) (c : ℕ) : Option (World ε) := do
  let (w, loc) ← processLoop g f c g.numLocalities w (w.remoteToken c)
  some { w with remoteToken := update w.remoteToken c loc }

end Free

/-! ## Allocation -/

section Alloc

variable {ε ι : Type} (g : Shape) (f : Fns ε ι)

/-- The first `k` rounds of the loop of `__ps_slab_init`, in block `b`: `alloc` is the object of the
round, and `prev` the one before it, or the first.
Source: `ps_slab.c`, `__ps_slab_init`; `ps_global.h`, `__ps_mhead_init` -/
def initLoop (s b : ℕ) : ℕ → World ε → World ε
  | 0, w => w
  | i + 1, w =>
      let w := initLoop s b i w
      let alloc := g.obj b i
      let prev := g.obj b (i - 1)
      { w with
        slab := update w.slab alloc (some s)
        tscFree := update w.tscFree alloc 1
        next := update w.next prev (some alloc) }

/-- Core `c` sets up a slab whose memory has been allocated.
Source: `ps_slab.c`, `__ps_slab_init` -/
def slabInit (w : World ε) (s c : ℕ) : Option (World ε) :=
  match w.memory s with
  | none => none
  | some b =>
      let w := { w with
        nfree := update w.nfree s g.nobjs
        memsz := update w.memsz s g.allocsz
        coreid := update w.coreid s c
        freelist := update w.freelist s (some (g.obj b 0)) }
      let w := initLoop g s b g.nobjs w
      if (g.obj b g.nobjs).off ≤ g.allocsz then
        freelistAdd { w with listN := update w.listN s s, listP := update w.listP s s } c s
      else none

/-- Taking the first object of a slab's freelist.
Source: `ps_slab.h`, `__ps_slab_mem_alloc` -/
def popFree (w : World ε) (s c : ℕ) : Option (Obj × World ε) :=
  match w.freelist s with
  | none => none
  | some h =>
      let w := { w with
        freelist := update w.freelist s (w.next h)
        next := update w.next h none
        nfree := update w.nfree s (predWord g.arch (w.nfree s))
        tscFree := update w.tscFree h 0 }
      if w.nfree s = 0 then
        let w := freelistRem w c s
        if w.listN s = s ∧ w.tscFree h = 0 then some (h, w) else none
      else if w.tscFree h = 0 then some (h, w)
      else none

/-- Core `c` takes an object from a slab that it has just been given.
Source: `ps_slab.h`, `__ps_slab_mem_alloc` -/
def newSlab (w : World ε) (s c : ℕ) : Option (Option Obj × World ε) := do
  let w ← slabInit g { w with slabs := update w.slabs s true } s c
  let w := { w with nslabs := update w.nslabs c (w.nslabs c + 1) }
  if w.memory s ≠ none ∧ w.freelist s ≠ none then
    (popFree g w s c).map fun (h, w) => (some h, w)
  else none

/-- What core `c` does before it picks a slab: at times, it frees what other cores have freed for it.
Source: `ps_slab.h`, `__ps_slab_mem_alloc` -/
def allocPrep (w : World ε) (c : ℕ) : Option (World ε) :=
  let w := { w with salloccnt := update w.salloccnt c ((w.salloccnt c + 1) % 2 ^ wordBits g.arch) }
  if w.salloccnt c % g.remoteBatch = 0 then memRemoteProcess g f w c else some w

/-- Core `c` allocates an object, or gets NULL.
Source: `ps_slab.h`, `__ps_slab_mem_alloc` -/
def memAlloc (w : World ε) (c : ℕ) (i : ι) : Option (Option Obj × World ε) :=
  if g.objSz + g.headoff ≤ g.allocsz then do
    let w ← allocPrep g f w c
    match w.flist c with
    | some s => (popFree g w s c).map fun (h, w) => (some h, w)
    | none =>
        match ← f.afn w g.allocsz c i with
        | (none, w) => some (none, w)
        | (some s, w) => newSlab g w s c
  else none

end Alloc

/-! ## Deferred frees -/

section Smr

variable {ε ι : Type} (g : Shape) (f : Fns ε ι)

/-- Source: `ps_global.h`, `__ps_qsc_enqueue` -/
def qscEnqueue (w : World ε) (c : ℕ) (n : Obj) : World ε :=
  match w.qscTail c with
  | some t => { w with next := update w.next t (some n), qscTail := update w.qscTail c (some n) }
  | none =>
      { w with
        qscHead := update w.qscHead c (some n)
        qscTail := update w.qscTail c (some n) }

/-- Removing the first object of a queue that is not empty.
Source: `ps_global.h`, `__ps_qsc_dequeue` -/
def qscDequeue (w : World ε) (c : ℕ) (a : Obj) : World ε :=
  { w with
    qscHead := update w.qscHead c (w.next a)
    qscTail := if w.qscTail c = some a then update w.qscTail c none else w.qscTail
    next := update w.next a none }

/-- The loop of `__ps_smr_reclaim`, `k` rounds, with `increase_backlog`.
Source: `ps_smr.c`, `__ps_smr_reclaim`; `ps_global.h`, `__ps_mhead_reset` -/
def reclaimLoop (c qsc : ℕ) : ℕ → World ε → Bool → Option (World ε × Bool)
  | 0, w, inc => some (w, inc)
  | k + 1, w, inc =>
      match w.qscHead c with
      | none => none
      | some a =>
          if w.tscFree a = 0 then none
          else if qsc < w.tscFree a then some (w, true)
          else do
            let w := qscDequeue w c a
            let w ← memFree g f { w with
              tscFree := update w.tscFree a 0
              next := update w.next a none
              qmemcnt := update w.qmemcnt c (w.qmemcnt c - 1) } a c
            reclaimLoop c qsc k w inc

/-- Core `c` frees what has quiesced: `busy` and `qsc` are what `ps_try_quiesce` returns.
Source: `ps_smr.c`, `__ps_smr_reclaim` -/
def smrReclaim (w : World ε) (c qsc : ℕ) (busy : Bool) : Option (World ε) :=
  if w.ps c = true ∧ w.qscHead c ≠ none then do
    let (w, inc) ← reclaimLoop g f c qsc g.qlistBatch w busy
    some (if inc then
      { w with qmemtarget := update w.qmemtarget c (w.qmemtarget c + g.qlistBatch) } else w)
  else none

/-- Core `c` frees an object at time `tsc`, once it has quiesced.
Source: `ps_smr.h`, `__ps_smr_free` -/
def smrFree (w : World ε) (m : Obj) (c tsc qsc : ℕ) (busy : Bool) : Option (World ε) :=
  let w := qscEnqueue { w with tscFree := update w.tscFree m tsc } c m
  let w := { w with qmemcnt := update w.qmemcnt c (w.qmemcnt c + 1) }
  if w.qmemtarget c ≤ w.qmemcnt c then smrReclaim g f w c qsc busy else some w

end Smr

end Parsec.Slab
