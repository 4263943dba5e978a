import Parsec.Nsptr.Heads

/-!
# Namespaces

`ps_ns.c` and the functions of `ps_ns.h`, on the slab allocator of `Parsec.Slab.Basic` and the trie
of `Parsec.Ertrie.Basic`. Each call is a function on the world; a fault or a failed assertion is
`none`.

* `nsalloc`, `nsfree` — `ps_slab_nsalloc` and `ps_slab_nsfree`, which supply slabs with their
  memory. The headers of slabs come from the allocator of `Parsec.Nsptr.Heads`, which all namespaces
  share: a header has its `memory` as it was left, or NULL.
* `nsptrAlloc`, `nsptrFree`, `nsptrFreedesc`, `nsptrLkup` — the interface.
* `sys` — any number of namespaces, called in any order. It records which slots are live, their
  descriptors, and which descriptors have been freed since they were last returned.

A slot is known by the address of its header in slab memory, as objects are there.
-/

namespace Parsec.Nsptr

open Function Ertrie Ns Slab

/-! ## The state -/

/-- The trie of a namespace, `ns_info` with its freelist in ring order, and the allocator of headers.
Source: `ps_global.h`, `struct ps_ns_info`; `ps_ns.c`, `slabhead` -/
structure NsEnv where
  mem : Ertrie.Mem
  root : ℕ
  fl : List ℕ
  frontier : ℕ
  heads : Heads

/-- What is outside of the code's control in an allocation: the blocks that `ps_plat_alloc` returns for
a page of headers and for a slab, and which of the internal nodes it returns. -/
structure Oracle where
  pg : Option ℕ
  blk : Option ℕ
  oks : ℕ → Bool

/-- The times of a free that may be deferred, and whether `ps_try_quiesce` finds all to be
quiescent. -/
structure Time where
  tsc : ℕ
  qsc : ℕ
  busy : Bool

/-! ## The code -/

section Code

variable (p : Params)

/-- Whether the header at an address reads free.
Source: `ps_global.h`, `__ps_mhead_isfree` -/
def isfree (w : World NsEnv) : Addr → Option Bool
  | .ext b off => some (decide (w.tscFree ⟨b, off⟩ ≠ 0))
  | .vect _ | .cell _ _ | .null _ => none

/-- Source: `ps_ertrie.h`, `name##_lkupan`; `ps_ns.c`: `nsi->lkupfn` -/
def lkupfn (w : World NsEnv) (id dlimit : ℕ) : Option Ptr :=
  ertLookup p.ert.consts (nsFns p.ert.arch (isfree w)) w.env.mem (some (.cell w.env.root 0)) id 0
    dlimit

/-- Source: `ps_ertrie.h`, `name##_expandn`; `ps_ns.c`: `nsi->expandfn` -/
def expandfn (w : World NsEnv) (id dlimit : ℕ) (mem : Addr) (oks : ℕ → Bool) :
    Option (ℤ × Ertrie.Mem) :=
  ertExpand p.ert.consts (nsFns p.ert.arch (isfree w)) w.env.mem (some (.cell w.env.root 0)) id 0
    dlimit (some mem, oks) none

/-- The allocator of headers is written. -/
def setHeads (w : World NsEnv) (h : Heads) : World NsEnv :=
  { w with env := { w.env with heads := h } }

/-- Core `c` gets a header, with its `memory` as it is there, or NULL.
Source: `ps_ns.c`, `ps_slab_alloc_slabhead` -/
def slabheadAlloc (w : World NsEnv) (c : ℕ) (pg : Option ℕ) : Option (Option ℕ × World NsEnv) :=
  (memAlloc p.slabhead headFns w.env.heads.w c pg).map fun
    | (none, h) => (none, setHeads w ⟨h, w.env.heads.held⟩)
    | (some a, h) => (some (headAddr a), setHeads
        { w with memory := update w.memory (headAddr a) (h.env a) }
        ⟨h, update w.env.heads.held a true⟩)

/-- Core `c` frees a header, whose `memory` stays as it is.
Source: `ps_ns.c`, `ps_slab_free_slabhead` -/
def slabheadFree (w : World NsEnv) (s c : ℕ) : Option (World NsEnv) :=
  let h := w.env.heads.w
  (memFree p.slabhead headFns { h with env := update h.env (headObj s) (w.memory s) } (headObj s) c).map
    fun h => setHeads w ⟨h, update w.env.heads.held (headObj s) false⟩

/-- A header from the namespace's freelist, or a new one, with its id.
Source: `ps_ns.c`, `ps_slab_nsalloc` -/
def takeHeader (w : World NsEnv) (c : ℕ) (o : Oracle) :
    Option (Option (ℕ × Option ℕ) × World NsEnv) :=
  match w.env.fl with
  | s :: fl => some (some (s, none), { w with env := { w.env with fl := fl } })
  | [] =>
      let id := w.env.frontier
      let w := { w with env := { w.env with
        frontier := (id + p.ert.range) % 2 ^ wordBits p.arch } }
      if p.ert.descMax ≤ id then some (none, w)
      else (slabheadAlloc p w c o.pg).map fun
        | (none, w) => (none, w)
        | (some s, w) => (some (s, some id), { w with
            start := update w.start s id
            end_ := update w.end_ s ((id + p.ert.range) % 2 ^ wordBits p.arch) })

/-- The label `reset_frontier`: `new` is the id of a new header.
Source: `ps_ns.c`, `ps_slab_nsalloc` -/
def resetFrontier (w : World NsEnv) (new : Option ℕ) : World NsEnv :=
  match new with
  | none => w
  | some id => { w with env := { w.env with
      frontier := if w.env.frontier = (id + p.ert.range) % 2 ^ wordBits p.arch then id
        else w.env.frontier } }

/-- The labels `free_slab` and `reset_frontier`.
Source: `ps_ns.c`, `ps_slab_nsalloc` -/
def freeSlab (w : World NsEnv) (s : ℕ) (new : Option ℕ) (c : ℕ) : Option (World NsEnv) :=
  (slabheadFree p w s c).map fun w => resetFrontier p w new

/-- The memory of a slab is allocated and zeroed.
Source: `ps_ns.c`, `ps_slab_nsalloc` -/
def giveMemory (w : World NsEnv) (s b : ℕ) : World NsEnv :=
  { w with
    memory := update w.memory s (some b)
    tscFree := fun o => if o.blk = b then 0 else w.tscFree o
    slab := fun o => if o.blk = b then none else w.slab o
    next := fun o => if o.blk = b then none else w.next o }

/-- The trie is written. -/
def setMem (w : World NsEnv) (mem : Ertrie.Mem) : World NsEnv :=
  { w with env := { w.env with mem := mem } }

/-- A header is backed by memory, which becomes a leaf of the trie. Where the trie cannot be
expanded the memory is freed, but the header still points to it.
Source: `ps_ns.c`, `ps_slab_nsalloc` -/
def backHeader (w : World NsEnv) (s : ℕ) (new : Option ℕ) (c : ℕ) (o : Oracle) :
    Option (Option ℕ × World NsEnv) :=
  if w.memory s = none then
    match o.blk with
    | none => (freeSlab p w s new c).map fun w => (none, w)
    | some b =>
        let w := giveMemory w s b
        if lkupfn p w (w.start s) p.depth = some none then do
          let (r, mem) ← expandfn p w (w.start s) p.depth (.ext b 0) o.oks
          let w := setMem w mem
          if r ≠ 0 then (freeSlab p w s new c).map fun w => (none, w)
          else if lkupfn p w (w.start s) p.depth = some (some (.ext b 0)) then some (some s, w)
          else none
        else none
  else none

/-- Source: `ps_ns.c`, `ps_slab_nsalloc` -/
def nsalloc (w : World NsEnv) (_sz coreid : ℕ) (o : Oracle) :
    Option (Option ℕ × World NsEnv) := do
  match ← takeHeader p w coreid o with
  | (none, w) => some (none, w)
  | (some (s, new), w) => backHeader p w s new coreid o

/-- The depth is more than one.
Source: `ps_ns.c`, `ps_slab_nsfree` -/
def nsfree (w : World NsEnv) (s _sz _coreid : ℕ) : Option (World NsEnv) := do
  let n ← lkupfn p w (w.start s) (p.depth - 1)
  let intern ← n
  let next ← w.env.mem.load (psWord p.arch) intern
  if next = (w.memory s).map fun b => .ext b 0 then
    let mem ← w.env.mem.store (psWord p.arch) intern none
    let w := setMem w mem
    if lkupfn p w (w.start s) p.depth = some none then
      some { w with
        memory := update w.memory s none
        env := { w.env with fl := flAdd w.env.fl s } }
    else none
  else none

/-- What the slab allocator of a namespace is given.
Source: `ps_ns.h`, `__PS_NS_TYPE_CREATE` -/
def fns : Slab.Fns NsEnv Oracle where
  afn := nsalloc p
  ffn := nsfree p

/-- The descriptor of a slot: `ps_slab_objoff` returns an `unsigned int`.
Source: `ps_ns.h`, `ps_ns_desc_##name`; `ps_slab.h`, `ps_slab_objoff_##name` -/
def nsDesc (w : World NsEnv) (a : Obj) : Option ℕ := do
  let s ← w.slab a
  let b ← w.memory s
  if a.blk = b then
    some ((w.start s + toU32 (a.off / objmemsz p.slab.arch p.slab.objSz)) % 2 ^ wordBits p.arch)
  else none

/-- Source: `ps_ns.h`, `ps_nsptr_lkup_##name` -/
def nsptrLkup (w : World NsEnv) (desc : ℕ) : Option (Option Obj) := do
  match ← lkupfn p w desc p.depth with
  | none => some none
  | some (.ext b off) => some (some ⟨b, off⟩)
  | some _ => none

/-- Core `c` allocates a slot, and gets its descriptor.
Source: `ps_ns.h`, `ps_nsptr_alloc_##name` -/
def nsptrAlloc (w : World NsEnv) (c : ℕ) (o : Oracle) : Option (Option (Obj × ℕ) × World NsEnv) := do
  match ← memAlloc p.slab (fns p) w c o with
  | (none, w) => some (none, w)
  | (some a, w) => (nsDesc p w a).map fun d => (some (a, d), w)

/-- Core `c` frees a slot: `ps_memptr_free` or `ps_slabptr_free`.
Source: `ps_ns.h`, `ps_nsptr_free_##name` -/
def nsptrFree (w : World NsEnv) (a : Obj) (c : ℕ) (t : Time) : Option (World NsEnv) :=
  if p.deferred then smrFree p.slab (fns p) w a c t.tsc t.qsc t.busy
  else memFree p.slab (fns p) w a c

/-- Core `c` frees the slot of a descriptor, if it has one.
Source: `ps_ns.h`, `ps_nsptr_freedesc_##name` -/
def nsptrFreedesc (w : World NsEnv) (desc c : ℕ) (t : Time) : Option (World NsEnv) := do
  match ← nsptrLkup p w desc with
  | none => some w
  | some a => nsptrFree p w a c t

end Code

/-! ## The system -/

/-- A namespace, with the slots that callers have, the descriptors they got with them, and the
descriptors that have been freed and not been returned since. -/
structure NsSt where
  w : World NsEnv
  live : Obj → Bool
  desc : Obj → ℕ
  freed : ℕ → Bool

/-- The calls of core `c`. -/
inductive Op
  | alloc (c : ℕ) (o : Oracle)
  | free (c : ℕ) (a : Obj) (t : Time)
  | freedesc (c desc : ℕ) (t : Time)
  | lkup (desc : ℕ)

/-- A slot is freed. -/
def NsSt.release (n : NsSt) (a : Obj) (d : ℕ) (w : World NsEnv) : NsSt :=
  { n with w := w, live := update n.live a false, freed := update n.freed d true }

/-- A call on one namespace. -/
def NsSt.step (p : Params) (n : NsSt) : Op → Option NsSt
  | .alloc c o => (nsptrAlloc p n.w c o).map fun
      | (none, w) => { n with w := w }
      | (some (a, d), w) =>
          { w := w
            live := update n.live a true
            desc := update n.desc a d
            freed := update n.freed d false }
  | .free c a t => (nsptrFree p n.w a c t).map (n.release a (n.desc a))
  | .freedesc c d t => do
      let w ← nsptrFreedesc p n.w d c t
      match ← nsptrLkup p n.w d with
      | none => some { n with w := w }
      | some a => some (n.release a d w)
  | .lkup d => (nsptrLkup p n.w d).map fun _ => n

/-- A new namespace: it has a trie, and a memory, with deferred frees if its frees are.
Source: `ps_ns.h`, `ps_nsptr_create_##name`; `ps_ns.c`, `ps_ns_init` -/
structure NsInit (p : Params) (n : NsSt) : Prop where
  memory : ∃ w, n.w = memptrInit p.slab (slabptrInit w) ∨
    p.deferred = false ∧ n.w = slabptrInit w
  ert : ∃ m oks, ertAlloc p.ert.consts (nsFns p.ert.arch fun _ => none) m (none, oks) =
    some (some (.cell n.w.env.root 0), n.w.env.mem)
  fl : n.w.env.fl = []
  frontier : n.w.env.frontier = 0
  live : ∀ a, n.live a = false
  freed : ∀ d, n.freed d = false

/-- Namespaces, and the allocator of headers. -/
structure St (I : Type) where
  ns : I → NsSt
  heads : Heads

section System

variable {I : Type} [DecidableEq I]

/-- One namespace, with the allocator of headers that all share. -/
def St.view (s : St I) (i : I) : NsSt := { s.ns i with w := setHeads (s.ns i).w s.heads }

/-- The state after a call on one namespace. -/
def St.put (s : St I) (i : I) (n : NsSt) : St I where
  ns := update s.ns i n
  heads := n.w.env.heads

/-- Any number of namespaces, all new, with a new allocator of headers. They are configured alike. -/
def sys (P : I → Params) : Lib.Lts (St I) (I × Op) where
  init s := (∀ i, NsInit (P i) (s.ns i)) ∧ HeadsInit s.heads ∧ ∀ i j, (P i).slabhead = (P j).slabhead
  step s a := ((s.view a.1).step (P a.1) a.2).map (s.put a.1)

end System

/-! ## What is relied on -/

section Rely

variable (p : Params)

/-- What `ps_plat_alloc` returns is not in use. -/
structure Supplied (w : World NsEnv) (c : ℕ) (o : Oracle) : Prop where
  blk : ∀ b, o.blk = some b → ∀ s, w.slabs s = true → w.memory s ≠ some b
  pg : PageFree p w.env.heads c o.pg

/-- What holds whenever an allocation asks for a slab. -/
def AtSlab (w : World NsEnv) (c : ℕ) (A : World NsEnv → Prop) : Prop :=
  ∀ w', allocPrep p.slab (fns p) w c = some w' → w'.flist c = none → A w'

/-- A core is one of the machine's, descriptors are below the greatest, a slot that is freed is live,
and time is not zero. -/
def NsSt.Ok (n : NsSt) : Op → Prop
  | .alloc c o => c < p.numCores ∧ AtSlab p n.w c fun w => Supplied p w c o
  | .free c a t => c < p.numCores ∧ n.live a = true ∧ t.tsc ≠ 0
  | .freedesc c d t => c < p.numCores ∧ d < p.ert.descMax ∧ t.tsc ≠ 0
  | .lkup d => d < p.ert.descMax

/-- The slot of a descriptor that is freed is live. -/
def NsSt.Proper (n : NsSt) : Op → Prop
  | .freedesc _ d _ => ∀ a, nsptrLkup p n.w d = some (some a) → n.live a = true
  | .alloc _ _ | .free _ _ _ | .lkup _ => True

end Rely

end Parsec.Nsptr
