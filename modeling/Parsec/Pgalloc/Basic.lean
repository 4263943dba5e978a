import Mathlib.Data.List.Perm.Basic
import Parsec.Lib.Chain
import Parsec.Lib.Lts

/-!
# The page allocator, by one thread

`ps_pgalloc.h`: pages that have been freed wait on a list, and the platform is asked for one only
while the list is empty.

* `World` — the freelist, the `next` fields in the pages, and what the platform has given and got.
* `sys` — calls in any order by one thread, which frees pages it holds and writes to them. The ghost
  `peak` is the greatest number of pages held at once.
* `recycles_of_reach` — as many pages as this have been obtained, each is held or waits on the list,
  once, and at last each is given back.
-/

namespace Parsec.Pgalloc

open Function Lib

/-! ## The code -/

/-- The freelist, the field `next` of the pages, and ghosts: the pages that `ps_plat_alloc` has
returned, and what `ps_plat_free` was called with.
Source: `ps_pgalloc.h`, `struct ps_freelist` -/
structure World (P : Type) where
  pgsize : ℕ
  flNext : Option P
  next : P → Option P
  obtained : List P
  released : List (P × ℕ)

section Code

variable {P : Type} [DecidableEq P] (w : World P)

omit [DecidableEq P] in
/-- The platform has the page `p`, or no memory. -/
def psPlatAlloc (p : Option P) : World P × Option P :=
  ({ w with obtained := p.toList ++ w.obtained }, p)

/-- What is in a page that the platform has back is the platform's. -/
def psPlatFree (junk : P → Option P) (p : P) (sz : ℕ) : World P :=
  { w with next := update w.next p (junk p), released := (p, sz) :: w.released }

omit [DecidableEq P] in
/-- Source: `ps_pgalloc.h`, `ps_pgalloc_init` -/
def psPgallocInit (pgsize : ℕ) : World P := { w with pgsize := pgsize, flNext := none }

/-- Source: `ps_arch_x86_common.h`, `ps_cas`, on `fl->next` -/
def psCas (old updated : Option P) : Bool × World P :=
  if w.flNext = old then (true, { w with flNext := updated }) else (false, w)

/-- Source: `ps_pgalloc.h`, `ps_pgalloc` -/
def psPgalloc (p : Option P) : ℕ → World P → Option (World P × Option P)
  | 0, _ => none
  | fuel + 1, w =>
      match w.flNext with
      | some n =>
          match psCas w (some n) (w.next n) with
          | (true, w) => some ({ w with next := update w.next n none }, some n)
          | (false, w) => psPgalloc p fuel w
      | none => some (psPlatAlloc w p)

/-- Source: `ps_pgalloc.h`, `ps_pgfree` -/
def psPgfree (l : P) : ℕ → World P → Option (World P)
  | 0, _ => none
  | fuel + 1, w =>
      let n := w.flNext
      let w := { w with next := update w.next l n }
      match psCas w n (some l) with
      | (true, w) => some w
      | (false, w) => psPgfree l fuel w

def destroyLoop (junk : P → Option P) : ℕ → World P → Option P → Option (World P)
  | _, w, none => some w
  | 0, _, some _ => none
  | fuel + 1, w, some l =>
      let n := w.next l
      destroyLoop junk fuel (psPlatFree w junk l w.pgsize) n

/-- Source: `ps_pgalloc.h`, `ps_pgalloc_destroy` -/
def psPgallocDestroy (junk : P → Option P) (fuel : ℕ) : Option (World P) :=
  destroyLoop junk fuel w w.flNext

/-! ## What the code does -/

/-- Alone, the compare-and-swap does not fail. -/
theorem psPgalloc_some {p : Option P} {n : P} {fuel : ℕ} (h : w.flNext = some n) :
    psPgalloc p (fuel + 1) w =
      some ({ w with flNext := w.next n, next := update w.next n none }, some n) := by
  unfold psPgalloc psCas
  simp [h]

/-- Where the freelist is empty, the page is one from the platform. -/
theorem psPgalloc_none {p : Option P} {fuel : ℕ} (h : w.flNext = none) :
    psPgalloc p (fuel + 1) w = some ({ w with obtained := p.toList ++ w.obtained }, p) := by
  unfold psPgalloc
  simp [h, psPlatAlloc]

/-- A page that is freed goes to the front of the freelist. -/
theorem psPgfree_eq {l : P} {fuel : ℕ} : psPgfree l (fuel + 1) w =
    some { w with flNext := some l, next := update w.next l w.flNext } := by
  unfold psPgfree psCas
  simp

/-- Every page of the list is given back, in order. -/
theorem destroyLoop_eq (junk : P → Option P) {h : Option P} {l : List P} {fuel : ℕ}
    (hc : Chain w.next h l) (hf : l.length ≤ fuel) : ∃ w', destroyLoop junk fuel w h = some w' ∧
      w'.released = (l.map fun p => (p, w.pgsize)).reverse ++ w.released := by
  induction l generalizing w h fuel with
  | nil =>
      rw [chain_nil] at hc
      subst hc
      exact ⟨w, by cases fuel <;> rfl, rfl⟩
  | cons a l ih =>
      have hnd := hc.nodup
      obtain ⟨rfl, hc⟩ := hc
      obtain ⟨fuel, rfl⟩ := Nat.exists_eq_add_one_of_ne_zero (Nat.ne_zero_of_lt hf)
      have hrest : Chain (psPlatFree w junk a w.pgsize).next (w.next a) l :=
        hc.update_of_notMem (List.nodup_cons.mp hnd).1
      obtain ⟨w', hw', hr⟩ := ih _ hrest (Nat.le_of_succ_le_succ hf)
      refine ⟨w', hw', ?_⟩
      rw [hr]
      simp [psPlatFree]

end Code

/-! ## Runs -/

/-- A call: `alloc p` is `ps_pgalloc` where the platform has the page `p`. -/
inductive Call (P : Type)
  | alloc (p : P)
  | free (p : P)
  | write (p : P) (v : Option P)

structure St (P : Type) where
  w : World P
  held : List P
  peak : ℕ

variable {P : Type} [DecidableEq P]

/-- The calls of one thread, which do not retry. The platform returns a page that it has not returned
before, and only pages that are held are freed and written to. -/
def sys (P : Type) [DecidableEq P] : Lts (St P) (Call P) where
  init s := ∃ w pgsize, w.obtained = [] ∧ w.released = [] ∧
    s = { w := psPgallocInit w pgsize, held := [], peak := 0 }
  step s
    | .alloc p =>
        if p ∈ s.w.obtained then none
        else (psPgalloc (some p) 1 s.w).bind fun r => r.2.map fun a =>
          { w := r.1, held := a :: s.held, peak := max s.peak (a :: s.held).length }
    | .free p =>
        if p ∈ s.held then (psPgfree p 1 s.w).map fun w => { s with w := w, held := s.held.erase p }
        else none
    | .write p v =>
        if p ∈ s.held then some { s with w := { s.w with next := update s.w.next p v } } else none

/-- Pages are recycled: as many have been obtained as were held at once, each is held or on the list,
once, and destroying the list while none is held gives each back once. -/
structure Recycles (s : St P) : Prop where
  count : s.w.obtained.length = s.peak
  nodup : s.w.obtained.Nodup
  place : ∃ l, Chain s.w.next s.w.flNext l ∧ (s.held ++ l).Perm s.w.obtained
  destroy : s.held = [] → ∀ junk fuel, s.w.obtained.length ≤ fuel →
    ∃ w', psPgallocDestroy s.w junk fuel = some w' ∧
      w'.released.Perm (s.w.obtained.map fun p => (p, s.w.pgsize))

/-- The pages of a run: those held and those on the list `l` are the ones obtained. -/
structure Inv (s : St P) (l : List P) : Prop where
  chain : Chain s.w.next s.w.flNext l
  perm : (s.held ++ l).Perm s.w.obtained
  nodup : s.w.obtained.Nodup
  count : s.w.obtained.length = s.peak
  released : s.w.released = []

namespace Inv

variable {s s' : St P} {l : List P} {p : P}

omit [DecidableEq P] in
/-- A page that is held is not free. -/
theorem notMem (h : Inv s l) (hp : p ∈ s.held) : p ∉ l := by
  have hnd := h.perm.nodup_iff.mpr h.nodup
  exact fun hl => (List.nodup_append.mp hnd).2.2 p hp p hl rfl

omit [DecidableEq P] in
/-- The pages that were obtained are held or free. -/
theorem length_eq (h : Inv s l) : s.held.length + l.length = s.peak := by
  rw [← h.count, ← h.perm.length_eq, List.length_append]

/-- An allocation keeps the invariant. -/
theorem alloc (h : Inv s l) (hs : (sys P).step s (.alloc p) = some s') : ∃ l, Inv s' l := by
  have hlen := h.length_eq
  simp only [sys] at hs
  split at hs
  · cases hs
  rename_i hp
  cases l with
  | nil =>
      -- the platform is asked, and more pages are held than ever before
      rw [psPgalloc_none s.w h.chain] at hs
      obtain rfl := Option.some.inj hs
      refine ⟨[], h.chain, ?_, List.nodup_cons.mpr ⟨hp, h.nodup⟩, ?_, h.released⟩
      · simpa using h.perm
      · simp only [Option.toList, List.singleton_append, List.length_cons, List.length_nil] at hlen ⊢
        rw [h.count]
        omega
  | cons n l =>
      obtain ⟨hn, hc⟩ := h.chain
      rw [psPgalloc_some s.w hn] at hs
      obtain rfl := Option.some.inj hs
      have hnd : (n :: l).Nodup := h.chain.nodup
      refine ⟨l, hc.update_of_notMem (List.nodup_cons.mp hnd).1, ?_, h.nodup, ?_, h.released⟩
      · exact List.perm_middle.symm.trans h.perm
      · simp only [List.length_cons] at hlen ⊢
        rw [h.count]
        omega

/-- A free keeps the invariant. -/
theorem free (h : Inv s l) (hs : (sys P).step s (.free p) = some s') : ∃ l, Inv s' l := by
  simp only [sys] at hs
  split at hs
  · rename_i hp
    rw [psPgfree_eq s.w] at hs
    obtain rfl := Option.some.inj hs
    refine ⟨p :: l, h.chain.push (h.notMem hp), ?_, h.nodup, h.count, h.released⟩
    refine List.perm_middle.trans (.trans ?_ h.perm)
    exact ((List.perm_cons_erase hp).append_right l).symm
  · cases hs

/-- A holder that writes its page keeps the invariant. -/
theorem write {v : Option P} (h : Inv s l) (hs : (sys P).step s (.write p v) = some s') :
    Inv s' l := by
  simp only [sys] at hs
  split at hs
  · rename_i hp
    obtain rfl := Option.some.inj hs
    exact ⟨h.chain.update_of_notMem (h.notMem hp), h.perm, h.nodup, h.count, h.released⟩
  · cases hs

/-- The invariant says that pages are recycled. -/
theorem recycles (h : Inv s l) : Recycles s := by
  refine ⟨h.count, h.nodup, ⟨l, h.chain, h.perm⟩, fun hh junk fuel hf => ?_⟩
  have hperm : l.Perm s.w.obtained := by
    have := h.perm
    rwa [hh] at this
  obtain ⟨w', hw', hr⟩ := destroyLoop_eq s.w junk h.chain (hperm.length_eq ▸ hf)
  refine ⟨w', hw', ?_⟩
  rw [hr, h.released, List.append_nil]
  exact (List.reverse_perm _).trans (hperm.map _)

end Inv

/-- The invariant holds along every run. -/
theorem exists_inv {s : St P} (h : (sys P).Reach (fun _ _ => True) s) : ∃ l, Inv s l := by
  refine Lts.invariant (I := fun s => ∃ l, Inv s l) ?_ ?_ h
  · rintro s ⟨w, sz, ho, hr, rfl⟩
    refine ⟨[], rfl, ?_, ?_, ?_, hr⟩ <;> simp [psPgallocInit, ho]
  · rintro s a s' ⟨l, hI⟩ - hs
    cases a with
    | alloc p => exact hI.alloc hs
    | free p => exact hI.free hs
    | write p v => exact ⟨l, hI.write hs⟩

end Parsec.Pgalloc
