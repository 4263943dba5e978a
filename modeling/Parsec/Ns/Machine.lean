import Parsec.Lib.Lts
import Parsec.Ns.Geom

/-!
# Slab registration in a namespace, step by step

`ps_slab_nsalloc`, `ps_slab_nsfree` and `ps_nsptr_lkup` on one namespace, called by any number of
threads `τ`, with every load and store of the trie, every allocation, every locked section and
every atomic instruction a step of its own.

* A thread is at a program point `Pc`, which carries its locals. The loops of `__ert_lookup` and
  `__ert_expand` are the points `test`, `hop` and `expWalk` to `expSet`; the lookups inside
  assertions are stepped through like any other, and a step whose assertion fails is not enabled.
* An entry is loaded to test it and again to walk on from it. Where it has become NULL in between,
  the walk comes to an offset from NULL, and the step that inspects a header there is a fault.
* A slab header `s` is one that `ps_slab_alloc_slabhead` may return: any that is not allocated, with
  its `memory` as last left or zero.
* A block of slab memory is one allocation: what `ps_plat_alloc` returns was never returned before,
  so that `St.live` tells whether a block has been given back.
* What a header in slab memory holds is not part of this machine: the outcome of a load of its
  `tsc_free` is in the label.
-/

namespace Parsec.Ns

open Function Ertrie

/-! ## The data -/

/-- Who is looking an id up: `ps_nsptr_lkup`; the assertions of `ps_slab_nsalloc` before and after
the expansion, for a slab `s` whose id is `new` if it was taken from the frontier;
`ps_slab_nsfree`, for the entry of slab `s`, and its assertion after clearing it. -/
inductive Caller
  | user
  | absent (s : ℕ) (new : Option ℕ)
  | present (s : ℕ) (new : Option ℕ)
  | unlink (s : ℕ)
  | gone (s : ℕ)
  deriving DecidableEq

/-- The program points. `new` is the id taken from the frontier when `newslab` is set; `n` is the
local `n` of the trie functions, `i` their loop counter, `node` the local `new` of `__ert_expand`.
Source: `ps_ns.c`, `ps_slab_nsalloc`, `ps_slab_nsfree`; `ps_ertrie.h`, `__ert_lookup`,
`__ert_expand` -/
inductive Pc
  | idle
  | pop
  | faa
  | header (id : ℕ)
  | memory (s : ℕ) (new : Option ℕ)
  | test (k : Caller) (id limit i : ℕ) (n : Addr)
  | hop (k : Caller) (id limit i : ℕ) (n : Addr)
  | resolve (k : Caller) (id limit : ℕ) (n : Addr)
  | expWalk (s : ℕ) (new : Option ℕ) (i : ℕ) (n : Addr)
  | expTest (s : ℕ) (new : Option ℕ) (i : ℕ) (n : Addr)
  | expAlloc (s : ℕ) (new : Option ℕ) (i : ℕ) (n : Addr)
  | expInit (s : ℕ) (new : Option ℕ) (i : ℕ) (n node : Addr)
  | expSet (s : ℕ) (new : Option ℕ) (i : ℕ) (n node : Addr)
  | freeMem (s : ℕ) (new : Option ℕ)
  | freeHeader (s : ℕ) (new : Option ℕ)
  | reset (id : ℕ)
  | platFree (s : ℕ)
  | check (s : ℕ) (n : Addr)
  | clear (s : ℕ) (n : Addr)
  | forget (s : ℕ)
  | push (s : ℕ)
  deriving DecidableEq

/-- The namespace: `ns_info` with its freelist in ring order, the slab headers, the trie, the
blocks of slab memory, and the threads. `inUse` marks the slabs that `ps_slab_nsalloc` has returned
and that have not been passed to `ps_slab_nsfree` since.
Source: `ps_global.h`, `struct ps_ns_info`; `ps_slab.h`, `struct ps_slab` -/
structure St (τ : Type) where
  fl : List ℕ
  frontier : ℕ
  start : ℕ → ℕ
  end_ : ℕ → ℕ
  memory : ℕ → Option ℕ
  header : ℕ → Bool
  inUse : ℕ → Bool
  mem : Mem
  root : ℕ
  blocks : ℕ
  live : ℕ → Bool
  pc : τ → Pc

namespace St

variable {τ : Type} [DecidableEq τ]

/-- Thread `t` moves to another program point. -/
def setPc (s : St τ) (t : τ) (p : Pc) : St τ := { s with pc := update s.pc t p }

end St

/-- What is outside of the code's control in a step: whether an allocation succeeds or a header
reads free (`ok`), and which header `ps_slab_alloc_slabhead` returns. -/
structure Oracle where
  ok : Bool
  hdr : Option ℕ

/-- The labels: a call by an idle thread, or the next step of a thread. -/
inductive Act (τ : Type)
  | nsalloc (t : τ)
  | nsfree (t : τ) (s : ℕ)
  | lkup (t : τ) (id : ℕ)
  | step (t : τ) (o : Oracle)

/-! ## Parts of the steps -/

/-- An address that is an offset from NULL: what a walk from a NULL entry computes. -/
def isNull : Addr → Bool
  | .null _ => true
  | _ => false

section Functions

variable {τ : Type} (g : NsGeom)

/-- The memory context of the expansion for a slab: its memory, and the outcome of the internal
allocation. -/
def memctxt (s : St τ) (h : ℕ) (o : Oracle) : Ptr × (ℕ → Bool) :=
  ((s.memory h).map fun m => .ext m 0, fun _ => o.ok)

/-- The functions of the namespace's trie. The headers are not looked at here. -/
def fns : Fns (Ptr × (ℕ → Bool)) := nsFns g.arch fun _ => none

/-- Where a lookup of all levels starts. -/
def lookupStart (s : St τ) (k : Caller) (id limit : ℕ) : Pc := .test k id limit 0 (.vect s.root)

/-- The end of a round of the expansion: the next one, or the assertion after it.
Source: `ps_ertrie.h`, `__ert_expand`; `ps_ns.c`, `ps_slab_nsalloc` -/
def expNext (s : St τ) (h : ℕ) (new : Option ℕ) (i : ℕ) (n : Addr) : Pc :=
  if i + 1 < g.depth - 1 then .expWalk h new (i + 1) n
  else lookupStart s (.present h new) (s.start h) g.depth

/-- After the labels of `ps_slab_nsalloc` that free what was allocated.
Source: `ps_ns.c`, `ps_slab_nsalloc` -/
def resetFrontier : Option ℕ → Pc
  | some id => .reset id
  | none => .idle

/-- What a caller does with a lookup that returned NULL. Assertions and the `intern->next` of
`ps_slab_nsfree` need more than that, or just that.
Source: `ps_ns.c`, `ps_slab_nsalloc`, `ps_slab_nsfree`; `ps_ns.h`, `ps_nsptr_lkup_##name` -/
def lookupNull (s : St τ) : Caller → Option Pc
  | .user => some .idle
  | .absent h new => some (.expWalk h new 0 (.vect s.root))
  | .gone h => some (.forget h)
  | .present _ _ | .unlink _ => none

end Functions

/-! ## Steps -/

section Step

variable {τ : Type} [DecidableEq τ] (g : NsGeom)

/-- What a caller does with an entry that a lookup returned.
Source: `ps_ns.c`, `ps_slab_nsalloc`, `ps_slab_nsfree`; `ps_ns.h`, `ps_nsptr_lkup_##name` -/
def lookupFound (s : St τ) (t : τ) (n : Addr) : Caller → Option (St τ)
  | .user => some (s.setPc t .idle)
  | .present h _ =>
      if (s.memory h).map (fun m => Addr.ext m 0) = some n then
        some ({ s with inUse := update s.inUse h true }.setPc t .idle)
      else none
  | .unlink h => some (s.setPc t (.check h n))
  | .absent _ _ | .gone _ => none

/-- One step of the function a thread is in.
Source: `ps_ns.c`, `ps_slab_nsalloc`, `ps_slab_nsfree`; `ps_ertrie.h`, `__ert_lookup`,
`__ert_expand` -/
def tick (s : St τ) (t : τ) (o : Oracle) : Option (St τ) :=
  match s.pc t with
  | .idle => none
  | .pop =>
      match s.fl with
      | [] => some (s.setPc t .faa)
      | h :: fl => some ({ s with fl := fl }.setPc t (.memory h none))
  | .faa =>
      let id := s.frontier
      some ({ s with frontier := (id + g.range) % 2 ^ wordBits g.arch }.setPc t
        (if g.descMax ≤ id then .idle else .header id))
  | .header id =>
      match o.hdr with
      | none => some (s.setPc t .idle)
      | some h =>
          if s.header h = false then
            some ({ s with
              header := update s.header h true
              start := update s.start h id
              end_ := update s.end_ h ((id + g.range) % 2 ^ wordBits g.arch)
              memory := if o.ok then update s.memory h none else s.memory }.setPc t
                (.memory h (some id)))
          else none
  | .memory h new =>
      if s.memory h = none then
        if o.ok then
          some ({ s with
            memory := update s.memory h (some s.blocks)
            live := update s.live s.blocks true
            blocks := s.blocks + 1 }.setPc t (lookupStart s (.absent h new) (s.start h) g.depth))
        else some (s.setPc t (.freeHeader h new))
      else none
  | .test k id limit i n => do
      let p ← s.mem.load (psWord g.arch) n
      if p = none then (lookupNull s k).map fun pc => s.setPc t pc
      else some (s.setPc t (.hop k id limit i n))
  | .hop k id limit i n => do
      let n ← ertWalk g.consts s.mem n id (g.depth - i)
      some (s.setPc t (if i + 1 < limit then .test k id limit (i + 1) n else .resolve k id limit n))
  | .resolve k _ limit n =>
      -- a header at an offset from NULL cannot be inspected
      if limit = g.depth ∧ isNull n = true then none
      else if limit = g.depth ∧ o.ok = false then (lookupNull s k).map fun pc => s.setPc t pc
      else lookupFound s t n k
  | .expWalk h new i n => do
      let n ← ertWalk g.consts s.mem n (s.start h) (g.depth - i)
      some (s.setPc t (.expTest h new i n))
  | .expTest h new i n => do
      let p ← s.mem.load (psWord g.arch) n
      some (s.setPc t (if p ≠ none then expNext g s h new i n else .expAlloc h new i n))
  | .expAlloc h new i n =>
      let isleaf := decide (g.depth ≤ i + 2)
      match (fns g).allocfn s.mem (memctxt s h o) (nodeSz g.consts isleaf) isleaf with
      | (none, m) => some ({ s with mem := m }.setPc t (.freeMem h new))
      | (some node, m) => some ({ s with mem := m }.setPc t (.expInit h new i n node))
  | .expInit h new i n node => do
      let m ← ertInit g.consts (fns g) s.mem (some node) (decide (g.depth ≤ i + 2))
      some ({ s with mem := m }.setPc t (.expSet h new i n node))
  | .expSet h new i n node => do
      let m ← s.mem.store (psWord g.arch) n (some node)
      some ({ s with mem := m }.setPc t (expNext g s h new i n))
  | .freeMem h new => do
      let m ← s.memory h
      some ({ s with live := update s.live m false }.setPc t (.freeHeader h new))
  | .freeHeader h new =>
      some ({ s with header := update s.header h false }.setPc t (resetFrontier new))
  | .reset id =>
      some ({ s with
        frontier := if s.frontier = (id + g.range) % 2 ^ wordBits g.arch then id
          else s.frontier }.setPc t .idle)
  | .platFree h => do
      let m ← s.memory h
      some ({ s with live := update s.live m false }.setPc t
        (lookupStart s (.unlink h) (s.start h) (g.depth - 1)))
  | .check h n => do
      let p ← s.mem.load (psWord g.arch) n
      if p = (s.memory h).map (fun m => Addr.ext m 0) then some (s.setPc t (.clear h n)) else none
  | .clear h n => do
      let m ← s.mem.store (psWord g.arch) n none
      some ({ s with mem := m }.setPc t (lookupStart s (.gone h) (s.start h) g.depth))
  | .forget h => some ({ s with memory := update s.memory h none }.setPc t (.push h))
  | .push h => some ({ s with fl := flAdd s.fl h }.setPc t .idle)

/-- A step of the machine. A slab is passed to `ps_slab_nsfree` once it was returned, and once.
Source: `ps_ns.c`, `ps_slab_nsalloc`, `ps_slab_nsfree`; `ps_ns.h`, `ps_nsptr_lkup_##name` -/
def step (s : St τ) : Act τ → Option (St τ)
  | .nsalloc t => if s.pc t = .idle then some (s.setPc t .pop) else none
  | .nsfree t h =>
      if s.pc t = .idle ∧ s.inUse h = true then
        some ({ s with inUse := update s.inUse h false }.setPc t (.platFree h))
      else none
  | .lkup t id =>
      if s.pc t = .idle ∧ id < g.descMax then
        some (s.setPc t (lookupStart s .user id g.depth))
      else none
  | .step t o => tick g s t o

end Step

/-- A namespace as `ps_nsptr_create` makes it: a trie from `ert_alloc`, the frontier at 0, no slab
and nobody in a call.
Source: `ps_ns.h`, `ps_nsptr_create_##name`; `ps_ns.c`, `ps_ns_init` -/
def nsInit (τ : Type) (g : NsGeom) (s : St τ) : Prop :=
  (∃ m ctx, ertAlloc g.consts (fns g) m ctx = some (some (.cell s.root 0), s.mem)) ∧
    s.fl = [] ∧ s.frontier = 0 ∧ (∀ h, s.header h = false) ∧ (∀ h, s.inUse h = false) ∧
    (∀ h, s.memory h = none) ∧ (∀ m, s.live m = false) ∧ ∀ t, s.pc t = .idle

/-- The state of a new namespace whose trie is at `root`. -/
def St.new (τ : Type) (mem : Mem) (root : ℕ) : St τ where
  fl := []
  frontier := 0
  start _ := 0
  end_ _ := 0
  memory _ := none
  header _ := false
  inUse _ := false
  mem := mem
  root := root
  blocks := 0
  live _ := false
  pc _ := .idle

/-- The memory after `ert_alloc` on an empty one, if it succeeds. -/
def trieMem (g : NsGeom) : Mem :=
  let m : Mem := ⟨0, fun _ => 0, fun _ _ => none⟩
  ((ertAlloc g.consts (fns g) m (none, fun _ => true)).map Prod.snd).getD m

/-- A new namespace, whose trie has just been allocated. -/
theorem nsInit_new {τ : Type} {g : NsGeom} {m mem : Mem} (ctx : Ptr × (ℕ → Bool)) {root : ℕ}
    (h : ertAlloc g.consts (fns g) m ctx = some (some (.cell root 0), mem)) :
    nsInit τ g (St.new τ mem root) :=
  ⟨⟨m, ctx, h⟩, rfl, rfl, fun _ => rfl, fun _ => rfl, fun _ => rfl, fun _ => rfl, fun _ => rfl⟩

/-- The machine. -/
def lts (τ : Type) [DecidableEq τ] (g : NsGeom) : Lib.Lts (St τ) (Act τ) where
  init := nsInit τ g
  step := step g

end Parsec.Ns
