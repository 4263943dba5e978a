import Mathlib.Tactic.Ring
import Parsec.Slab.Empty

/-!
# Deletion of memories

The memories and namespaces of a program, and the parsec that some of them are attached to.

* `memptrDelete` — a memory that is attached is deleted only if it is empty and nothing is queued; one
  that is not attached is deleted whatever it holds.
* `deletesExact_iff`, `refcntExact_iff` — when deletion is safe, and when the reference count says
  whether a memory is attached.
-/

namespace Parsec.Slab

open Function Lib

/-! ## No call attaches or detaches a memory -/

section Ps

variable {ε ι : Type} {g : Geom} {f : Fns ε ι} {w w' : World ε} {c : ℕ}

/-- What supplies slab memory does not touch `smr_info`. -/
structure KeepsPs (f : Fns ε ι) : Prop where
  afn : ∀ {w sz c i o w'}, f.afn w sz c i = some (o, w') → w'.ps = w.ps
  ffn : ∀ {w s sz c w'}, f.ffn w s sz c = some w' → w'.ps = w.ps

/-- The supplier leaves the pointers to the parsec alone. -/
theorem keepsPs_supplier (g : Geom) : KeepsPs (supplier g) := by
  constructor
  · rintro w sz c (_ | ⟨s, b⟩) o w' h <;> cases h <;> rfl
  · intro w s sz c w' h
    cases h
    rfl

/-- A slab is added to a freelist: the pointers to the parsec stay. -/
theorem freelistAdd_ps {s : ℕ} (h : freelistAdd w c s = some w') : w'.ps = w.ps := by
  unfold freelistAdd at h
  split_ifs at h
  cases h
  simp only
  split <;> rfl

/-- A slab is removed from a freelist: the pointers to the parsec stay. -/
theorem freelistRem_ps {s : ℕ} : (freelistRem w c s).ps = w.ps := by
  unfold freelistRem listRem
  simp only
  split <;> rfl

variable (hf : KeepsPs f)
include hf

/-- A free leaves the pointers to the parsec alone. -/
theorem memFree_ps {h : Obj} (hr : memFree g f w h c = some w') : w'.ps = w.ps := by
  unfold memFree at hr
  split_ifs at hr
  split at hr
  · cases hr
  · simp only at hr
    split_ifs at hr
    · cases hr
      rfl
    · unfold releaseSlab at hr
      rw [hf.ffn hr]
      exact freelistRem_ps
    · have hadd := freelistAdd_ps hr
      exact hadd
    · cases hr
      rfl

/-- Draining a list of remotely freed objects leaves the pointers to the parsec alone. -/
theorem drain_ps {k ret ret' : ℕ} {o : Option Obj} (h : drain g f c k w o ret = some (w', ret')) :
    w'.ps = w.ps := by
  induction k generalizing w o ret with
  | zero =>
      cases o with
      | none =>
          cases h
          rfl
      | some a => cases h
  | succ k ih =>
      cases o with
      | none =>
          cases h
          rfl
      | some a =>
          obtain ⟨w₁, h₁, h₂⟩ := Option.bind_eq_some_iff.mp h
          have hfree := memFree_ps hf h₁
          split_ifs at h₂
          exact (ih h₂).trans hfree

/-- Draining the lists of a locality leaves the pointers to the parsec alone. -/
theorem clearLoop_ps {loc k ret : ℕ} (h : clearLoop g f c loc k w = some (w', ret)) :
    w'.ps = w.ps := by
  induction k generalizing w' ret with
  | zero =>
      cases h
      rfl
  | succ k ih =>
      obtain ⟨⟨w₁, r⟩, h₁, h₂⟩ := Option.bind_eq_some_iff.mp h
      have hdrain := drain_ps hf h₂
      have hclear := ih h₁
      exact hdrain.trans hclear

/-- Draining localities in turn leaves the pointers to the parsec alone. -/
theorem processLoop_ps {k loc loc' : ℕ} (h : processLoop g f c k w loc = some (w', loc')) :
    w'.ps = w.ps := by
  induction k generalizing w loc with
  | zero => cases h
  | succ k ih =>
      obtain ⟨⟨w₁, r⟩, h₁, h₂⟩ := Option.bind_eq_some_iff.mp h
      have h₁ := clearLoop_ps hf h₁
      simp only at h₂
      split_ifs at h₂
      · exact (ih h₂).trans h₁
      · cases h₂
        exact h₁

/-- What an allocation does first leaves the pointers to the parsec alone. -/
theorem allocPrep_ps (h : allocPrep g f w c = some w') : w'.ps = w.ps := by
  unfold allocPrep at h
  simp only at h
  split_ifs at h
  · obtain ⟨⟨w₁, r⟩, h₁, h₂⟩ := Option.bind_eq_some_iff.mp h
    have hloop := processLoop_ps hf h₁
    cases h₂
    exact hloop
  · cases h
    rfl

omit hf in
/-- An object is taken: the pointers to the parsec stay. -/
theorem popFree_ps {s : ℕ} {o : Obj} (h : popFree g w s c = some (o, w')) : w'.ps = w.ps := by
  unfold popFree at h
  split at h
  · cases h
  · simp only at h
    split_ifs at h <;> cases h
    · exact freelistRem_ps
    · rfl

omit hf in
/-- Objects are set up: the pointers to the parsec stay. -/
theorem initLoop_ps {s b k : ℕ} : (initLoop g s b k w).ps = w.ps := by
  induction k with
  | zero => rfl
  | succ k ih => exact ih

omit hf in
/-- A slab is set up: the pointers to the parsec stay. -/
theorem slabInit_ps {s : ℕ} (h : slabInit g w s c = some w') : w'.ps = w.ps := by
  unfold slabInit at h
  split at h
  · cases h
  · simp only at h
    split_ifs at h
    have hadd := freelistAdd_ps h
    refine hadd.trans ?_
    exact initLoop_ps

omit hf in
/-- A slab is set up, and an object is taken: the pointers to the parsec stay. -/
theorem newSlab_ps {s : ℕ} {o : Option Obj} (h : newSlab g w s c = some (o, w')) : w'.ps = w.ps := by
  obtain ⟨w₁, h₁, h₂⟩ := Option.bind_eq_some_iff.mp h
  have hinit := slabInit_ps h₁
  simp only at h₂
  split_ifs at h₂
  obtain ⟨⟨o', w₂⟩, h₃, h₄⟩ := Option.map_eq_some_iff.mp h₂
  cases h₄
  exact (popFree_ps h₃).trans hinit

/-- An allocation leaves the pointers to the parsec alone. -/
theorem memAlloc_ps {i : ι} {o : Option Obj} (h : memAlloc g f w c i = some (o, w')) :
    w'.ps = w.ps := by
  unfold memAlloc at h
  split_ifs at h
  obtain ⟨w₁, h₁, h₂⟩ := Option.bind_eq_some_iff.mp h
  have h₁ := allocPrep_ps hf h₁
  split at h₂
  · obtain ⟨⟨o', w₂⟩, h₃, h₄⟩ := Option.map_eq_some_iff.mp h₂
    cases h₄
    exact (popFree_ps h₃).trans h₁
  · obtain ⟨⟨s, w₂⟩, h₃, h₄⟩ := Option.bind_eq_some_iff.mp h₂
    have hafn := hf.afn h₃
    cases s with
    | none =>
        cases h₄
        exact hafn.trans h₁
    | some s => exact (newSlab_ps h₄).trans (hafn.trans h₁)

/-- Reclaiming leaves the pointers to the parsec alone. -/
theorem reclaimLoop_ps {qsc k : ℕ} {inc inc' : Bool}
    (h : reclaimLoop g f c qsc k w inc = some (w', inc')) : w'.ps = w.ps := by
  induction k generalizing w with
  | zero =>
      cases h
      rfl
  | succ k ih =>
      unfold reclaimLoop at h
      split at h
      · cases h
      · split_ifs at h
        · cases h
          rfl
        · obtain ⟨w₁, h₁, h₂⟩ := Option.bind_eq_some_iff.mp h
          have hfree := memFree_ps hf h₁
          exact (ih h₂).trans hfree

/-- A deferred free leaves the pointers to the parsec alone. -/
theorem smrFree_ps {m : Obj} {tsc qsc : ℕ} {busy : Bool}
    (h : smrFree g f w m c tsc qsc busy = some w') : w'.ps = w.ps := by
  have hq : ∀ w : World ε, (qscEnqueue w c m).ps = w.ps := by
    intro w
    unfold qscEnqueue
    split <;> rfl
  unfold smrFree at h
  simp only at h
  split_ifs at h
  · unfold smrReclaim at h
    split_ifs at h
    obtain ⟨⟨w₁, inc⟩, h₁, h₂⟩ := Option.bind_eq_some_iff.mp h
    have h₁ := reclaimLoop_ps hf h₁
    cases h₂
    split
    · exact h₁.trans (hq _)
    · exact h₁.trans (hq _)
  · cases h
    exact hq _

end Ps

/-- A call leaves the pointers to the parsec alone. -/
theorem step_ps {g : Geom} {s s' : St} {a : Op} (h : step g s a = some s') : s'.w.ps = s.w.ps := by
  have hf := keepsPs_supplier g
  cases a with
  | alloc c i =>
      obtain ⟨⟨o, w⟩, h₁, h₂⟩ := Option.map_eq_some_iff.mp h
      have hw := memAlloc_ps hf h₁
      cases o <;> cases h₂ <;> exact hw
  | free c o =>
      obtain ⟨w, h₁, rfl⟩ := Option.map_eq_some_iff.mp h
      exact memFree_ps hf h₁
  | smrFree c o tsc qsc busy =>
      obtain ⟨w, h₁, rfl⟩ := Option.map_eq_some_iff.mp h
      exact smrFree_ps hf h₁

/-! ## The memories of a program -/

/-- The memories, and the reference count of the parsec that memories are attached to: an `int`, none
once it has overflowed. No function reads the others: `detached` counts the memories that were
attached and have been deleted, `count` is what the reference count would be without a bound, and
`peak` the greatest that it has been.
Source: `ps_smr.h`, `struct parsec` -/
structure Mems (I : Type) where
  refcnt : Option ℤ
  mem : I → Option St
  detached : ℕ
  count : ℕ
  peak : ℕ

/-- A parsec that nothing was attached to.
Source: `ps_smr.c`, `ps_init` -/
def psInit (I : Type) : Mems I where
  refcnt := some 0
  mem _ := none
  detached := 0
  count := 0
  peak := 0

/-- A sum of `int`s. -/
def intAdd (n : Option ℤ) (k : ℤ) : Option ℤ :=
  n.bind fun n => if -2 ^ 31 ≤ n + k ∧ n + k < 2 ^ 31 then some (n + k) else none

/-- The calls on memories. A creation carries the memory that `ps_plat_alloc` returns, if it does;
that of a namespace also whether it gets a parsec, and whether the root of its trie is allocated. -/
inductive MemsOp (I : Type)
  | create (i : I) (m : Option (World (List Ev)))
  | nsCreate (i : I) (m : Option (World (List Ev))) (attach root : Bool)
  | call (i : I) (a : Op)
  | delete (i : I)

section System

variable {I : Type} [DecidableEq I] (geo : I → Geom)

/-- Source: `ps_slab.h`, `ps_slabptr_create` -/
def slabptrCreate (t : Mems I) (i : I) (w : World (List Ev)) : Mems I :=
  { t with mem := update t.mem i (some ⟨slabptrInit w, fun _ => false, 0⟩) }

/-- Every core counts once.
Source: `ps_smr.h`, `ps_memptr_create`; `ps_smr.c`, `__ps_memptr_init` -/
def memptrCreate (t : Mems I) (i : I) (w : World (List Ev)) : Mems I :=
  { t with
    refcnt := intAdd t.refcnt (geo i).numCores
    mem := update t.mem i (some ⟨memptrInit (geo i) (slabptrInit w), fun _ => false, 0⟩)
    count := t.count + (geo i).numCores
    peak := max t.peak (t.count + (geo i).numCores) }

/-- What is returned, and the reference count.
Source: `ps_smr.c`, `__ps_memptr_delete` -/
def memptrDelete (g : Geom) (w : World (List Ev)) (refcnt : Option ℤ) : Option (ℤ × Option ℤ) :=
  if w.ps 0 = true then do
    let empty ← slabptrIsempty g w
    if empty = true then
      if (List.range g.numCores).any fun i => (w.qscHead i).isSome then some (-1, refcnt)
      else some (0, intAdd refcnt (-1))
    else some (-1, refcnt)
  else some (0, refcnt)

/-- What is returned, and the memories.
Source: `ps_smr.h`, `ps_memptr_delete`; `ps_ns.h`, `ps_nsptr_delete` -/
def psMemptrDelete (t : Mems I) (i : I) : Option (ℤ × Mems I) := do
  let s ← t.mem i
  let (ret, refcnt) ← memptrDelete (geo i) s.w t.refcnt
  some (if ret = 0 then
    (0, { t with
      refcnt := refcnt
      mem := update t.mem i none
      detached := t.detached + if s.w.ps 0 then 1 else 0
      count := t.count - if s.w.ps 0 then 1 else 0 })
  else (-1, { t with refcnt := refcnt }))

/-- A namespace whose root is not allocated is deleted. What `ps_ns_init` then writes to its memory,
which has been freed, is not here.
Source: `ps_ns.h`, `ps_nsptr_create` -/
def nsptrCreate (t : Mems I) (i : I) (w : World (List Ev)) (attach root : Bool) : Option (Mems I) :=
  let t := if attach then memptrCreate geo t i w else slabptrCreate t i w
  if root then some t else (psMemptrDelete geo t i).map Prod.snd

def memsStep (t : Mems I) : MemsOp I → Option (Mems I)
  | .create _ none | .nsCreate _ none _ _ => some t
  | .create i (some w) => some (memptrCreate geo t i w)
  | .nsCreate i (some w) attach root => nsptrCreate geo t i w attach root
  | .call i a => do
      let s ← t.mem i
      let s ← step (geo i) s a
      some { t with mem := update t.mem i (some s) }
  | .delete i => (psMemptrDelete geo t i).map Prod.snd

/-- The memories of a program that starts with a new parsec. -/
def memsLts : Lts (Mems I) (MemsOp I) where
  init t := t = psInit I
  step := memsStep geo

/-- What is relied on: a memory is not created in the place of another one, and a call is as it is to
be on its memory. -/
def MemsOk (t : Mems I) : MemsOp I → Prop
  | .create i m | .nsCreate i m _ _ => t.mem i = none ∧ ∀ w, m = some w → w.env = []
  | .call i a => ∀ s, t.mem i = some s → Ok (geo i) s a
  | .delete _ => True

/-- A memory that has been created, with the parsec, and not been deleted. -/
def Attached (t : Mems I) (i : I) : Prop := ∃ s, t.mem i = some s ∧ s.w.ps 0 = true

end System

/-! ## Steps -/

section Steps

variable {I : Type} [DecidableEq I] {geo : I → Geom} {t t' : Mems I} {i : I} {a : MemsOp I}

/-- What a deletion finds: an attached memory that it refuses or takes, or one that is not attached. -/
theorem memptrDelete_cases {g : Geom} {w : World (List Ev)} {n n' : Option ℤ} {r : ℤ}
    (h : memptrDelete g w n = some (r, n')) :
    (r = -1 ∧ n' = n ∧ w.ps 0 = true) ∨ (r = 0 ∧ n' = n ∧ w.ps 0 = false) ∨
      (r = 0 ∧ n' = intAdd n (-1) ∧ w.ps 0 = true ∧ slabptrIsempty g w = some true) := by
  unfold memptrDelete at h
  by_cases hps : w.ps 0 = true
  · rw [if_pos hps] at h
    obtain ⟨e, he, h⟩ := Option.bind_eq_some_iff.mp h
    by_cases hemp : e = true
    · rw [if_pos hemp] at h
      split at h <;> cases h
      · exact .inl ⟨rfl, rfl, hps⟩
      · exact .inr (.inr ⟨rfl, rfl, hps, hemp ▸ he⟩)
    · rw [if_neg hemp] at h
      cases h
      exact .inl ⟨rfl, rfl, hps⟩
  · rw [if_neg hps] at h
    cases h
    exact .inr (.inl ⟨rfl, rfl, by simpa using hps⟩)

/-- An attached memory is taken away. -/
def Mems.detach (t : Mems I) (i : I) : Mems I :=
  { t with
    refcnt := intAdd t.refcnt (-1)
    mem := update t.mem i none
    detached := t.detached + 1
    count := t.count - 1 }

/-- What a deletion does: nothing, or it takes the memory away; and if the memory was attached, the
parsec counts one less. -/
theorem psMemptrDelete_cases {r : ℤ} (h : psMemptrDelete geo t i = some (r, t')) :
    ∃ s, t.mem i = some s ∧ ((r = -1 ∧ t' = t) ∨
      (r = 0 ∧ s.w.ps 0 = false ∧ t' = { t with mem := update t.mem i none }) ∨
      (r = 0 ∧ s.w.ps 0 = true ∧ slabptrIsempty (geo i) s.w = some true ∧ t' = t.detach i)) := by
  obtain ⟨s, hs, h⟩ := Option.bind_eq_some_iff.mp h
  obtain ⟨⟨ret, refcnt⟩, hd, h⟩ := Option.bind_eq_some_iff.mp h
  refine ⟨s, hs, ?_⟩
  rcases memptrDelete_cases hd with ⟨rfl, rfl, -⟩ | ⟨rfl, rfl, hps⟩ | ⟨rfl, rfl, hps, he⟩
  · cases h
    exact .inl ⟨rfl, rfl⟩
  · cases h
    exact .inr (.inl ⟨rfl, hps, by simp [hps]⟩)
  · cases h
    exact .inr (.inr ⟨rfl, hps, he, by simp [Mems.detach, hps]⟩)

/-- What a step does to the memories: it creates one, makes a call on one, or deletes one. -/
inductive MemsChange (geo : I → Geom) (t : Mems I) : Mems I → Prop
  | same : MemsChange geo t t
  | unattached (i w) : t.mem i = none → w.env = [] → MemsChange geo t (slabptrCreate t i w)
  | attached (i w) : t.mem i = none → w.env = [] → MemsChange geo t (memptrCreate geo t i w)
  | call (i a s s') : t.mem i = some s → Ok (geo i) s a → step (geo i) s a = some s' →
      MemsChange geo t { t with mem := update t.mem i (some s') }
  | freed (i s) : t.mem i = some s → s.w.ps 0 = false →
      MemsChange geo t { t with mem := update t.mem i none }
  | detached (i s) : t.mem i = some s → s.w.ps 0 = true → slabptrIsempty (geo i) s.w = some true →
      MemsChange geo t (t.detach i)

/-- A deletion changes one memory. -/
theorem change_of_delete {r : ℤ} (h : psMemptrDelete geo t i = some (r, t')) :
    MemsChange geo t t' := by
  obtain ⟨s, hs, ⟨-, rfl⟩ | ⟨-, hps, rfl⟩ | ⟨-, hps, he, rfl⟩⟩ := psMemptrDelete_cases h
  · exact .same
  · exact .freed i s hs hps
  · exact .detached i s hs hps he

/-- A step is one change, or two. -/
theorem memsStep_cases (hok : MemsOk geo t a) (h : memsStep geo t a = some t') :
    ∃ t₁, MemsChange geo t t₁ ∧ MemsChange geo t₁ t' := by
  cases a with
  | create i m =>
      cases m with
      | none =>
          cases h
          exact ⟨t, .same, .same⟩
      | some w =>
          cases h
          exact ⟨t, .same, .attached i w hok.1 (hok.2 w rfl)⟩
  | nsCreate i m attach root =>
      cases m with
      | none =>
          cases h
          exact ⟨t, .same, .same⟩
      | some w =>
          simp only [memsStep, nsptrCreate] at h
          have hnew : MemsChange geo t
              (if attach = true then memptrCreate geo t i w else slabptrCreate t i w) := by
            split
            · exact .attached i w hok.1 (hok.2 w rfl)
            · exact .unattached i w hok.1 (hok.2 w rfl)
          refine ⟨_, hnew, ?_⟩
          cases root with
          | true =>
              cases h
              exact .same
          | false =>
              obtain ⟨⟨r, t₂⟩, hd, rfl⟩ := Option.map_eq_some_iff.mp h
              exact change_of_delete hd
  | call i a =>
      obtain ⟨s, hs, h⟩ := Option.bind_eq_some_iff.mp h
      obtain ⟨s', hs', h⟩ := Option.bind_eq_some_iff.mp h
      cases h
      exact ⟨t, .same, .call i a s s' hs (hok s hs) hs'⟩
  | delete i =>
      obtain ⟨⟨r, t₂⟩, hd, rfl⟩ := Option.map_eq_some_iff.mp h
      exact ⟨t, .same, change_of_delete hd⟩

/-- What every change keeps, every run does. -/
theorem mems_invariant {J : Mems I → Prop} (h₀ : J (psInit I))
    (h₁ : ∀ t t', J t → MemsChange geo t t' → J t') (h : (memsLts geo).Reach (MemsOk geo) t) :
    J t := by
  refine Lts.invariant (fun t ht => ?_) (fun t a t' hJ hok hs => ?_) h
  · rw [show t = _ from ht]
    exact h₀
  · obtain ⟨t₁, hc₁, hc₂⟩ := memsStep_cases hok hs
    exact h₁ t₁ t' (h₁ t t₁ hJ hc₁) hc₂

/-- Each memory is in a state that its own calls lead to. -/
theorem mem_reach (h : (memsLts geo).Reach (MemsOk geo) t) :
    ∀ i s, t.mem i = some s → (memLts (geo i)).Reach (Ok (geo i)) s := by
  refine mems_invariant
    (J := fun t => ∀ i s, t.mem i = some s → (memLts (geo i)).Reach (Ok (geo i)) s)
    (fun i s hs => by cases hs) (fun t t' hJ hc => ?_) h
  have hupd : ∀ {i : I} {m : Option St}, (∀ s, m = some s → (memLts (geo i)).Reach (Ok (geo i)) s) →
      ∀ j s, update t.mem i m j = some s → (memLts (geo j)).Reach (Ok (geo j)) s := by
    intro i m hm j s hs
    by_cases hj : j = i
    · subst hj
      rw [update_self] at hs
      exact hm s hs
    · rw [update_of_ne hj] at hs
      exact hJ j s hs
  cases hc with
  | same => exact hJ
  | unattached i w _ henv =>
      refine hupd fun s hs => ?_
      cases hs
      exact .init ⟨w, henv, .inl rfl, fun _ => rfl⟩
  | attached i w _ henv =>
      refine hupd fun s hs => ?_
      cases hs
      exact .init ⟨w, henv, .inr rfl, fun _ => rfl⟩
  | call i a s s' hs hok hstep =>
      refine hupd fun s₁ hs₁ => ?_
      cases hs₁
      exact (hJ i s hs).step hok hstep
  | freed i s _ _ => exact hupd fun s hs => by cases hs
  | detached i s _ _ _ => exact hupd fun s hs => by cases hs

end Steps

/-! ## Outstanding objects -/

section Outstanding

variable {I : Type} [DecidableEq I] {geo : I → Geom} {t : Mems I} {i : I} {s : St}

/-- A deletion returns 0, and frees the memory, which has no object that is not back; or it returns -1
and changes nothing. -/
def DeletesExact (geo : I → Geom) (t : Mems I) (i : I) : Prop :=
  ∃ r t', psMemptrDelete geo t i = some (r, t') ∧
    ((r = 0 ∧ t'.mem i = none ∧ ∀ s, t.mem i = some s → ∀ o, ¬ Out s o) ∨ (r = -1 ∧ t' = t))

/-- A memory that is not attached is deleted. -/
theorem psMemptrDelete_unattached (hs : t.mem i = some s) (hps : s.w.ps 0 = false) :
    psMemptrDelete geo t i = some (0, { t with mem := update t.mem i none }) := by
  have hd : memptrDelete (geo i) s.w t.refcnt = some (0, t.refcnt) := if_neg (by simp [hps])
  unfold psMemptrDelete
  simp only [hs, hd, Option.bind_eq_bind, Option.bind_some, hps]
  rfl

/-- **Deletion discards no outstanding object** iff the memory is attached to a parsec, or has none:
along every run, where the number of objects of a slab and the localities are counted. -/
theorem deletesExact_iff (hfit : CountFits (geo i))
    (hloc : (geo i).numLocalities ≤ numRemoteList (geo i).arch)
    (h : (memsLts geo).Reach (MemsOk geo) t) (hs : t.mem i = some s) :
    DeletesExact geo t i ↔ s.w.ps 0 = true ∨ ∀ o, ¬ Out s o := by
  obtain ⟨cont, hM⟩ := exists_memInv_of_reach hfit (mem_reach h i s hs)
  constructor
  · rintro ⟨r, t', hd, hret⟩
    by_cases hps : s.w.ps 0 = true
    · exact .inl hps
    · rw [psMemptrDelete_unattached hs (by simpa using hps)] at hd
      cases hd
      rcases hret with ⟨-, -, hout⟩ | ⟨hr, -⟩
      · exact .inr (hout s hs)
      · cases hr
  · intro hor
    by_cases hps : s.w.ps 0 = true
    swap
    · refine ⟨_, _, psMemptrDelete_unattached hs (by simpa using hps),
        .inl ⟨rfl, update_self .., fun s' hs' => ?_⟩⟩
      rw [hs] at hs'
      cases hs'
      exact hor.resolve_left hps
    -- attached: what empties the answer of `ps_slabptr_isempty` is that no slab is counted
    obtain ⟨e, he, hemp⟩ := slabptrIsempty_eq (g := geo i) (w := s.w) hloc
    obtain ⟨⟨r, n⟩, hd⟩ : ∃ x, memptrDelete (geo i) s.w t.refcnt = some x := by
      unfold memptrDelete
      rw [if_pos hps, he]
      simp only [Option.bind_eq_bind, Option.bind_some]
      split_ifs <;> exact ⟨_, rfl⟩
    obtain ⟨⟨r', t'⟩, hd'⟩ : ∃ x, psMemptrDelete geo t i = some x := by
      unfold psMemptrDelete
      simp only [hs, hd, Option.bind_eq_bind, Option.bind_some]
      exact ⟨_, rfl⟩
    refine ⟨r', t', hd', ?_⟩
    obtain ⟨s', hs', hcases⟩ := psMemptrDelete_cases hd'
    rw [hs] at hs'
    cases hs'
    rcases hcases with ⟨rfl, rfl⟩ | ⟨-, hnps, -⟩ | ⟨rfl, -, hemp', rfl⟩
    · exact .inr ⟨rfl, rfl⟩
    · rw [hps] at hnps
      cases hnps
    · refine .inl ⟨rfl, update_self .., fun s' hs' => ?_⟩
      rw [hs] at hs'
      cases hs'
      rw [he] at hemp'
      exact hM.inv.not_out_of_nslabs fun c hc => (hemp.mp (Option.some.inj hemp') c hc).1

/-- A memory on its own is one that has been created, and whose calls start at time 0. -/
theorem exists_mems {g : Geom} (h : (memLts g).Reach (Ok g) s) :
    ∃ t s', (memsLts fun _ : Unit => g).Reach (MemsOk fun _ => g) t ∧ t.mem () = some s' ∧
      s'.w = s.w ∧ s'.live = s.live ∧ s'.now ≤ s.now := by
  induction h with
  | @init s h₀ =>
      obtain ⟨w, henv, hw, hlive⟩ := h₀
      have hlive : (fun _ => false) = s.live := (funext hlive).symm
      rcases hw with hw | hw
      · refine ⟨slabptrCreate (psInit Unit) () w, _,
          .step (a := .nsCreate () (some w) false true) (.init rfl) ⟨rfl, ?_⟩ rfl, rfl, hw.symm,
          hlive, Nat.zero_le _⟩
        rintro w' hw'
        cases hw'
        exact henv
      · refine ⟨memptrCreate (fun _ => g) (psInit Unit) () w, _,
          .step (a := .create () (some w)) (.init rfl) ⟨rfl, ?_⟩ rfl, rfl, hw.symm, hlive,
          Nat.zero_le _⟩
        rintro w' hw'
        cases hw'
        exact henv
  | @step s s₁ a _ hok hs ih =>
      obtain ⟨t, s', ht, hmem, hw, hlive, hnow⟩ := ih
      -- the call does the same, and ends no later
      have hok' : Ok g s' a := by
        cases a with
        | alloc c i => exact ⟨hok.1, hw ▸ hok.2⟩
        | free c o => exact ⟨hok.1, hlive ▸ hok.2⟩
        | smrFree c o tsc qsc busy =>
            exact ⟨hok.1, hlive ▸ hok.2.1, hnow.trans_lt hok.2.2.1, hw ▸ hok.2.2.2⟩
      obtain ⟨s₂, hs₂, hw₂, hlive₂, hnow₂⟩ : ∃ s₂, step g s' a = some s₂ ∧ s₂.w = s₁.w ∧
          s₂.live = s₁.live ∧ s₂.now ≤ s₁.now := by
        cases a with
        | alloc c i =>
            obtain ⟨⟨r, w⟩, hrun, rfl⟩ := Option.map_eq_some_iff.mp hs
            rw [← hw] at hrun
            simp only [step, hrun, Option.map_some]
            cases r with
            | none => exact ⟨_, rfl, rfl, hlive, hnow⟩
            | some o => exact ⟨_, rfl, rfl, by rw [hlive], hnow⟩
        | free c o =>
            obtain ⟨w, hrun, rfl⟩ := Option.map_eq_some_iff.mp hs
            rw [← hw] at hrun
            simp only [step, hrun, Option.map_some]
            exact ⟨_, rfl, rfl, by rw [hlive], hnow⟩
        | smrFree c o tsc qsc busy =>
            obtain ⟨w, hrun, rfl⟩ := Option.map_eq_some_iff.mp hs
            rw [← hw] at hrun
            simp only [step, hrun, Option.map_some]
            exact ⟨_, rfl, rfl, by rw [hlive], le_rfl⟩
      refine ⟨{ t with mem := update t.mem () (some s₂) }, s₂,
        ht.step (a := .call () a) (fun s₃ hs₃ => ?_) ?_, rfl, hw₂, hlive₂, hnow₂⟩
      · rw [hmem] at hs₃
        cases hs₃
        exact hok'
      · show memsStep (fun _ => g) t (.call () a) = _
        simp only [memsStep, hmem, hs₂, Option.bind_eq_bind, Option.bind_some]

/-- A memory with a live object, one on a quiescence queue and one on a remote list is not deleted. -/
theorem deletesExact_page : ∃ t s, (memsLts fun _ : Unit => page).Reach (MemsOk fun _ => page) t ∧
    t.mem () = some s ∧ s.w.remoteFrees (remoteKey page 1 0) = some (page.obj 0 0) ∧
    s.w.qscHead 0 = some (page.obj 0 1) ∧ s.live (page.obj 0 2) = true ∧
    psMemptrDelete (fun _ => page) t () = some (-1, t) := by
  have hfit : CountFits page := .inl (by decide)
  obtain ⟨s, hs, hX⟩ := exists_mixed (g := page) hfit (by decide) (by decide) (by decide)
  obtain ⟨t, s', ht, hmem, hw, hlive, -⟩ := exists_mems hs
  have hps : s'.w.ps 0 = true := by
    rw [hw]
    exact hX.ps 0 (by decide)
  have hlive₂ : s'.live (page.obj 0 2) = true := hlive ▸ hX.live
  refine ⟨t, s', ht, hmem, hw ▸ hX.remote.1, hw ▸ hX.queue, hlive₂, ?_⟩
  obtain ⟨r, t', hd, ⟨-, -, hout⟩ | ⟨rfl, rfl⟩⟩ :=
    (deletesExact_iff hfit (by decide) ht hmem).mpr (.inl hps)
  · exact absurd ⟨.live, nofun, hlive₂⟩ (hout s' hmem (page.obj 0 2))
  · exact hd

/-- A namespace without a parsec is deleted while one of its objects is live. -/
theorem not_deletesExact : ∃ t s, (memsLts fun _ : Unit => page).Reach (MemsOk fun _ => page) t ∧
    t.mem () = some s ∧ s.live (page.obj 0 0) = true ∧
    psMemptrDelete (fun _ => page) t () = some (0, { t with mem := update t.mem () none }) ∧
    ¬ DeletesExact (fun _ => page) t () := by
  have h : (memsLts fun _ : Unit => page).Reach (MemsOk fun _ => page)
      (slabptrCreate (psInit Unit) () (start page).w) := by
    refine .step (a := .nsCreate () (some (start page).w) false true) (.init rfl)
      ⟨rfl, fun w hw => ?_⟩ rfl
    cases hw
    rfl
  obtain ⟨hu, w, hrun, -, -, -, -, hps⟩ := memAlloc_empty (g := page) (c := 0)
    (w := slabptrInit (start page).w) (fun _ => rfl) (fun _ => rfl) Nat.one_pos (fun _ => rfl)
  obtain ⟨s, hs⟩ : ∃ s : St, s = ⟨w, update (fun _ => false) (page.obj 0 0) true, 0⟩ := ⟨_, rfl⟩
  have hstep : step page ⟨slabptrInit (start page).w, fun _ => false, 0⟩ (.alloc 0 (some (0, 0))) =
      some s := by
    simp only [step, hrun, Option.map_some, hs]
  have hlive : s.live (page.obj 0 0) = true := by
    rw [hs]
    exact update_self (page.obj 0 0) true fun _ => false
  have hps : s.w.ps 0 = false := by
    rw [hs, hps]
    rfl
  obtain ⟨t, ht⟩ : ∃ t : Mems Unit, t = { psInit Unit with mem := fun _ => some s } := ⟨_, rfl⟩
  have hmem : t.mem () = some s := by rw [ht]
  have hdel : psMemptrDelete (fun _ => page) t () = some (0, { t with mem := update t.mem () none }) :=
    psMemptrDelete_unattached hmem hps
  refine ⟨t, s, h.step (a := .call () (.alloc 0 (some (0, 0)))) ?_ ?_, hmem, hlive, hdel, ?_⟩
  · intro s' hs'
    cases hs'
    exact ⟨by decide, hu⟩
  · have hupd : ∀ m : Unit → Option St, update m () (some s) = fun _ => some s := fun m =>
      funext fun _ => rfl
    simp only [memsLts, memsStep, slabptrCreate, update_self, Option.bind_eq_bind, Option.bind_some,
      hstep, hupd, ht]
  · rintro ⟨r, t', hd, ⟨-, -, hout⟩ | ⟨rfl, -⟩⟩
    · exact hout s hmem _ ⟨.live, by simp, hlive⟩
    · rw [hdel] at hd
      cases hd

end Outstanding

/-! ## The reference count -/

section Refcnt

variable {I : Type} [DecidableEq I] {geo : I → Geom} {t : Mems I}

/-- Source: `ps_smr.c`, `ps_free` -/
def psFree (refcnt : Option ℤ) : Option ℤ := refcnt.map fun n => if n > 0 then -1 else 0

/-- The parsec can be freed exactly if no memory is attached to it, and the reference count is not
negative. -/
structure RefcntExact (t : Mems I) : Prop where
  free : psFree t.refcnt = some 0 ↔ ¬ ∃ i, Attached t i
  nonneg : ∃ n, t.refcnt = some n ∧ 0 ≤ n

/-- What the reference count is: each of the memories in `l`, which are those that are attached,
counts once for each core; what is left of that after its deletion stays. -/
structure Tally (N : ℕ) (t : Mems I) (l : List I) : Prop where
  nodup : l.Nodup
  mem : ∀ i, i ∈ l ↔ Attached t i
  count : t.count = N * l.length + (N - 1) * t.detached
  le : t.count ≤ t.peak
  refcnt : t.refcnt = if t.peak < 2 ^ 31 then some (t.count : ℤ) else none

/-- A sum that an `int` holds. -/
theorem intAdd_of_lt {n k : ℤ} (hle : -2 ^ 31 ≤ n + k) (hlt : n + k < 2 ^ 31) :
    intAdd (some n) k = some (n + k) := if_pos ⟨hle, hlt⟩

omit [DecidableEq I] in
/-- A change that attaches and detaches nothing. -/
theorem Tally.keep {N : ℕ} {l : List I} (hJ : Tally N t l) {mem : I → Option St}
    (hatt : ∀ i, Attached { t with mem := mem } i ↔ Attached t i) :
    Tally N { t with mem := mem } l where
  nodup := hJ.nodup
  mem i := (hJ.mem i).trans (hatt i).symm
  count := hJ.count
  le := hJ.le
  refcnt := hJ.refcnt

/-- A change of one memory leaves the others as they are. -/
theorem attached_update {i j : I} {m : Option St} (hj : j ≠ i) :
    Attached { t with mem := update t.mem i m } j ↔ Attached t j := by
  unfold Attached
  rw [show ({ t with mem := update t.mem i m } : Mems I).mem j = t.mem j from update_of_ne hj ..]

/-- A memory is attached. -/
theorem Tally.attach {N : ℕ} (hN : 0 < N) {l : List I} (hJ : Tally N t l) {i : I}
    (hgeo : (geo i).numCores = N) (hn : t.mem i = none) (w : World (List Ev)) :
    Tally N (memptrCreate geo t i w) (i :: l) where
  nodup := by
    refine List.nodup_cons.mpr ⟨?_, hJ.nodup⟩
    rw [hJ.mem]
    simp [Attached, hn]
  mem j := by
    by_cases hj : j = i
    · subst hj
      simp [Attached, memptrCreate, memptrInit, hgeo, hN]
    · rw [List.mem_cons, or_iff_right hj]
      exact (hJ.mem j).trans (attached_update hj).symm
  count := by
    simp only [memptrCreate, hJ.count, hgeo, List.length_cons]
    ring
  le := le_max_right _ _
  refcnt := by
    have hle := hJ.le
    simp only [memptrCreate, hJ.refcnt, hgeo, max_lt_iff]
    by_cases hpeak : t.peak < 2 ^ 31
    · rw [if_pos hpeak]
      by_cases hlt : t.count + N < 2 ^ 31
      · rw [if_pos ⟨hpeak, hlt⟩, intAdd_of_lt (by omega) (by exact_mod_cast hlt)]
        push_cast
        rfl
      · rw [if_neg fun h => hlt h.2, intAdd, Option.bind_some, if_neg (by omega)]
    · rw [if_neg hpeak, if_neg fun h => hpeak h.1]
      rfl

/-- An attached memory is deleted. -/
theorem Tally.detach {N : ℕ} (hN : 0 < N) {l : List I} (hJ : Tally N t l) {i : I}
    (hi : Attached t i) : Tally N (t.detach i) (l.erase i) := by
  have hmem : i ∈ l := (hJ.mem i).mpr hi
  have hlen := List.length_pos_of_mem hmem
  have hpos : 0 < t.count := by
    rw [hJ.count]
    exact Nat.add_pos_left (Nat.mul_pos hN hlen) _
  refine ⟨hJ.nodup.erase i, fun j => ?_, ?_, (Nat.sub_le _ _).trans hJ.le, ?_⟩
  · rw [hJ.nodup.mem_erase_iff]
    by_cases hj : j = i
    · subst hj
      simp [Attached, Mems.detach]
    · rw [hJ.mem, and_iff_right hj]
      exact (attached_update hj).symm
  · rw [List.length_erase_of_mem hmem]
    show t.count - 1 = _ + _ * (t.detached + 1)
    rw [hJ.count]
    obtain ⟨n, hn⟩ := Nat.exists_eq_add_of_le' hlen
    obtain ⟨N, rfl⟩ := Nat.exists_eq_add_of_le' hN
    simp only [hn, Nat.add_sub_cancel]
    ring_nf
    omega
  · have hle := hJ.le
    simp only [Mems.detach, hJ.refcnt]
    split
    · rw [intAdd_of_lt (by omega) (by omega)]
      congr 1
      omega
    · rfl

/-- The reference count of every program. -/
theorem exists_tally {N : ℕ} (hN : 0 < N) (hgeo : ∀ i, (geo i).numCores = N)
    (h : (memsLts geo).Reach (MemsOk geo) t) : ∃ l, Tally N t l := by
  refine mems_invariant (J := fun t => ∃ l, Tally N t l) ?_ (fun t t' hJ hc => ?_) h
  · exact ⟨[], List.nodup_nil, fun i => by simp [Attached, psInit], rfl, le_rfl, rfl⟩
  obtain ⟨l, hJ⟩ := hJ
  -- a change of one memory that leaves it attached, or not
  have hkeep : ∀ {i : I} {m : Option St},
      ((∃ s, m = some s ∧ s.w.ps 0 = true) ↔ Attached t i) →
      ∃ l, Tally N { t with mem := update t.mem i m } l := by
    intro i m hm
    refine ⟨l, hJ.keep fun j => ?_⟩
    by_cases hj : j = i
    · subst hj
      simpa [Attached] using hm
    · exact attached_update hj
  cases hc with
  | same => exact ⟨l, hJ⟩
  | unattached i w hn _ => exact hkeep (by simp [Attached, slabptrInit, hn])
  | attached i w hn _ => exact ⟨i :: l, hJ.attach hN (hgeo i) hn w⟩
  | call i a s s' hs _ hstep => exact hkeep (by simp [Attached, hs, step_ps hstep])
  | freed i s hs hps => exact hkeep (by simp [Attached, hs, hps])
  | detached i s hs hps _ => exact ⟨l.erase i, hJ.detach hN ⟨s, hs, hps⟩⟩

omit [DecidableEq I] in
/-- The reference count is 0 where no memory is attached, and nothing is left of those that were. -/
theorem Tally.count_eq_zero {N : ℕ} (hN : 0 < N) {l : List I} (hJ : Tally N t l) :
    t.count = 0 ↔ l = [] ∧ (N = 1 ∨ t.detached = 0) := by
  rw [hJ.count, Nat.add_eq_zero_iff, Nat.mul_eq_zero, Nat.mul_eq_zero, List.length_eq_zero_iff]
  have h₁ : (N = 0 ∨ l = []) ↔ l = [] := or_iff_right (by omega)
  have h₂ : N - 1 = 0 ↔ N = 1 := by omega
  rw [h₁, h₂]

omit [DecidableEq I] in
/-- Memories are attached where the list of them is not empty. -/
theorem Tally.attached {N : ℕ} {l : List I} (hJ : Tally N t l) :
    (∃ i, Attached t i) ↔ l ≠ [] := by
  constructor
  · rintro ⟨i, hi⟩
    exact List.ne_nil_of_mem ((hJ.mem i).mpr hi)
  · intro hl
    obtain ⟨i, hi⟩ := List.exists_mem_of_ne_nil l hl
    exact ⟨i, (hJ.mem i).mp hi⟩

/-- The memory of a program with two memories, on four cores, one of which has been deleted. -/
def oneLeft : Mems Bool :=
  (memptrCreate (fun _ => page) (memptrCreate (fun _ => page) (psInit Bool) false (start page).w) true
    (start page).w).detach false

/-- The program gets there. -/
theorem reach_oneLeft : (memsLts fun _ : Bool => page).Reach (MemsOk fun _ => page) oneLeft := by
  have hok : ∀ w : World (List Ev), some (start page).w = some w → w.env = [] := by
    intro w hw
    cases hw
    rfl
  have h₀ : (memsLts fun _ : Bool => page).Reach (MemsOk fun _ => page)
      (memptrCreate (fun _ => page) (psInit Bool) false (start page).w) :=
    .step (a := .create false (some (start page).w)) (.init rfl) ⟨rfl, hok⟩ rfl
  have h₁ : (memsLts fun _ : Bool => page).Reach (MemsOk fun _ => page)
      (memptrCreate (fun _ => page)
        (memptrCreate (fun _ => page) (psInit Bool) false (start page).w) true (start page).w) :=
    h₀.step (a := .create true (some (start page).w)) ⟨rfl, hok⟩ rfl
  exact h₁.step (a := .delete false) trivial rfl

end Refcnt

end Parsec.Slab
