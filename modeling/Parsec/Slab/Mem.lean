import Parsec.Lib.Lts
import Parsec.Slab.Reclaim

/-!
# A memory over whole runs

The calls on one `struct ps_mem`, from any cores in any order: allocations, frees, and deferred frees.
Slab memory comes from a supplier that returns NULL, or fresh and zeroed memory, and that keeps a log.

* `memLts` — the system, and `Ok`, what the callers and the supplier are relied on for.
* `MemInv` — the invariant along runs (`exists_memInv`): that of the allocator, that the log is
  balanced, and that the queues are ordered. Its step lemma says that no call fails.
-/

namespace Parsec.Slab

open Function Lib

/-! ## The supplier of slab memory -/

/-- What the supplier is called for: a block for a slab; and a slab that is given back, with the
objects on its freelist. -/
inductive Ev
  | got (s b : ℕ)
  | freed (s : ℕ) (l : List Obj)

/-- A supplier that returns what it is told to. -/
def supplier (g : Geom) : Fns (List Ev) (Option (ℕ × ℕ)) where
  afn w _ _ i := match i with
    | none => some (none, w)
    | some (s, b) => some (some s, { w with
        memory := update w.memory s (some b)
        tscFree := fun o => if o.blk = b then 0 else w.tscFree o
        slab := fun o => if o.blk = b then none else w.slab o
        next := fun o => if o.blk = b then none else w.next o
        env := .got s b :: w.env })
  ffn w s _ _ := some { w with env := .freed s (follow w.next g.nobjs (w.freelist s)) :: w.env }

/-- The block that the supplier has given for a slab, and not got back. -/
def given : List Ev → ℕ → Option ℕ
  | [], _ => none
  | .got s b :: l, s' => if s' = s then some b else given l s'
  | .freed s _ :: l, s' => if s' = s then none else given l s'

/-- A slab is given back with all its objects on its freelist, and once only. -/
def Balanced (g : Geom) : List Ev → Prop
  | [] => True
  | .got s _ :: l => given l s = none ∧ Balanced g l
  | .freed s os :: l => (∃ b, given l s = some b ∧
      os.Perm ((List.range g.nobjs).map (g.obj b))) ∧ Balanced g l

/-- The supplier has given the memory of the slabs in use. -/
structure Logged (g : Geom) (w : World (List Ev)) : Prop where
  slabs : ∀ s, w.slabs s = true ↔ given w.env s ≠ none
  memory : ∀ s b, given w.env s = some b → w.memory s = some b
  balanced : Balanced g w.env

/-- What is returned is not in use. -/
def Unused (w : World (List Ev)) (i : Option (ℕ × ℕ)) : Prop :=
  ∀ s b, i = some (s, b) → w.slabs s = false ∧ ∀ s', w.slabs s' = true → w.memory s' ≠ some b

/-- The supplier that is told what to return is what the allocator relies on. -/
theorem backing_supplier (g : Geom) : Backing g (supplier g) (fun w _ => Unused w) (Logged g) := by
  constructor
  · rintro w w' ⟨hm, -, -, hs, he⟩ ⟨h₁, h₂, h₃⟩
    exact ⟨by rwa [hs, he], by rwa [hm, he], by rwa [he]⟩
  · rintro w s sz c ⟨h₁, h₂, h₃⟩ ⟨hs, ⟨b, hb, hperm⟩, -, -⟩
    have hgiven : given w.env s = some b := by
      obtain ⟨b', hb'⟩ := Option.ne_none_iff_exists'.mp ((h₁ s).mp hs)
      rw [hb', ← hb, h₂ s b' hb']
    refine ⟨_, rfl, ?_, ?_, ?_, ⟨b, hgiven, hperm⟩, h₃⟩
    · constructor <;> intros <;> rfl
    · intro s'
      show update w.slabs s false s' = true ↔ (if s' = s then none else given w.env s') ≠ none
      rw [update_false_iff, h₁]
      by_cases he : s' = s <;> simp [he]
    · intro s' b' h
      have h : (if s' = s then none else given w.env s') = some b' := h
      split_ifs at h
      exact h₂ s' b' h
  · rintro w sz c (_ | ⟨s, b⟩) hK hA
    · refine ⟨none, w, rfl, ?_, hK⟩
      constructor <;> intros <;> rfl
    · obtain ⟨hs, hbs⟩ := hA s b rfl
      obtain ⟨h₁, h₂, h₃⟩ := hK
      have hblk : ∀ s' o, InSlab g w s' o → o.blk ≠ b := by
        rintro s' o ⟨hs', b', i, hb', -, rfl⟩ he
        exact hbs s' hs' (hb'.trans (congrArg some he))
      have hne : ∀ s', w.slabs s' = true → s' ≠ s := by
        rintro s' hs' rfl
        rw [hs] at hs'
        cases hs'
      have hnone : given w.env s = none := by
        by_contra h
        exact hne s ((h₁ s).mpr h) rfl
      refine ⟨some s, _, rfl, ?_, ?_, ?_, ?_, ⟨hnone, h₃⟩⟩
      · constructor
        · exact fun s' o ho => if_neg (hblk s' o ho)
        · exact fun s' o ho => if_neg (hblk s' o ho)
        · exact fun s' o ho => if_neg (hblk s' o ho)
        · exact fun s' hs' => update_of_ne (hne s' hs') ..
        all_goals intros; rfl
      · refine ⟨hs, b, update_self .., fun s' hs' => ?_, fun i => if_pos rfl⟩
        show update w.memory s (some b) s' ≠ some b
        rw [update_of_ne (hne s' hs')]
        exact hbs s' hs'
      · intro s'
        show update w.slabs s true s' = true ↔ (if s' = s then some b else given w.env s') ≠ none
        by_cases he : s' = s
        · simp [he]
        · rw [update_of_ne he, h₁, if_neg he]
      · intro s' b' h
        have h : (if s' = s then some b else given w.env s') = some b' := h
        show update w.memory s (some b) s' = some b'
        by_cases he : s' = s
        · rw [if_pos he] at h
          rw [he, update_self, h]
        · rw [if_neg he] at h
          rw [update_of_ne he]
          exact h₂ s' b' h

/-! ## The system -/

section System

variable (g : Geom)

/-- Source: `ps_slab.c`, `ps_slabptr_init` -/
def slabptrInit {ε : Type} (w : World ε) : World ε :=
  { w with
    slabs := fun _ => false
    flist := fun _ => none
    salloccnt := fun _ => 0
    remoteToken := fun _ => 0
    nslabs := fun _ => 0
    remoteFrees := fun _ => none
    pushed := 0
    ps := fun _ => false
    qscHead := fun _ => none
    qscTail := fun _ => none
    qmemcnt := fun _ => 0
    qmemtarget := fun _ => 0 }

/-- The part of `__ps_memptr_init` that is about the memory.
Source: `ps_smr.c`, `__ps_memptr_init` -/
def memptrInit {ε : Type} (w : World ε) : World ε :=
  { w with
    qmemtarget := fun c => if c < g.numCores then g.qlistBatch else w.qmemtarget c
    qmemcnt := fun c => if c < g.numCores then 0 else w.qmemcnt c
    ps := fun c => if c < g.numCores then true else w.ps c }

/-- A memory, with the objects that callers have, and the clock. -/
structure St where
  w : World (List Ev)
  live : Obj → Bool
  now : ℕ

/-- The calls of core `c`, with what the supplier returns, the object, the time of the call, and what
`ps_try_quiesce` finds. -/
inductive Op
  | alloc (c : ℕ) (i : Option (ℕ × ℕ))
  | free (c : ℕ) (o : Obj)
  | smrFree (c : ℕ) (o : Obj) (tsc qsc : ℕ) (busy : Bool)

def step (s : St) : Op → Option St
  | .alloc c i => (memAlloc g (supplier g) s.w c i).map fun
      | (none, w) => { s with w := w }
      | (some o, w) => { s with w := w, live := update s.live o true }
  | .free c o => (memFree g (supplier g) s.w o c).map fun w =>
      { s with w := w, live := update s.live o false }
  | .smrFree c o tsc qsc busy => (smrFree g (supplier g) s.w o c tsc qsc busy).map fun w =>
      { w := w, live := update s.live o false, now := tsc }

/-- A memory that has just been set up, with deferred frees or without. -/
def memLts : Lts St Op where
  init s := ∃ w, w.env = [] ∧
    (s.w = slabptrInit w ∨ s.w = memptrInit g (slabptrInit w)) ∧ (∀ o, s.live o = false)
  step := step g

/-- What is relied on: a core is one of the machine's, an object that is freed is live, time goes on,
deferred frees are of memories set up for them, and what is supplied is not in use. -/
def Ok (s : St) : Op → Prop
  | .alloc c i => c < g.numCores ∧
      ∀ w, allocPrep g (supplier g) s.w c = some w → w.flist c = none → Unused w i
  | .free c o => c < g.numCores ∧ s.live o = true
  | .smrFree c o tsc _ _ => c < g.numCores ∧ s.live o = true ∧ s.now < tsc ∧ s.w.ps c = true

/-- The object of a free is of a slab of the core that frees it, unless that core is one with `P`. -/
def FreedBy (P : ℕ → Prop) (s : St) : Op → Prop
  | .alloc _ _ => True
  | .free c o => ∀ sl, InSlab g s.w sl o → s.w.coreid sl = c ∨ P c
  | .smrFree c o _ _ _ => ∀ sl, InSlab g s.w sl o → s.w.coreid sl = c ∨ P c

end System

/-! ## The invariant -/

section Invariant

variable {g : Geom} {P : ℕ → Prop} {s s' : St} {cont : Key → List Obj} {a : Op}

/-- The queues are ordered by the times of the frees, and shorter than what starts a reclamation. -/
structure Queues (w : World (List Ev)) (now : ℕ) (cont : Key → List Obj) : Prop where
  sorted : ∀ c, (cont (.queue c)).Pairwise fun a b => w.tscFree a < w.tscFree b
  le_now : ∀ c, ∀ o ∈ cont (.queue c), w.tscFree o ≤ now
  lt : ∀ c, w.ps c = true → w.qmemcnt c < w.qmemtarget c

/-- **The invariant along runs.** -/
structure MemInv (g : Geom) (P : ℕ → Prop) (s : St) (cont : Key → List Obj) : Prop where
  inv : Inv g s.w P (fun _ => none) {o | s.live o = true} cont
  log : Logged g s.w
  queues : Queues s.w s.now cont

/-- The queues stay ordered where they are the same. -/
theorem SameQueues.queues {w w' : World (List Ev)} {now : ℕ} {cont' : Key → List Obj}
    (h : SameQueues w w' cont cont') (hQ : Queues w now cont) : Queues w' now cont' := by
  constructor
  · intro c
    rw [h.queue]
    refine (hQ.sorted c).imp_of_mem fun ha hb hab => ?_
    rwa [h.tscFree c _ ha, h.tscFree c _ hb]
  · intro c o ho
    rw [h.queue] at ho
    rw [h.tscFree c o ho]
    exact hQ.le_now c o ho
  · rw [h.ps, h.qmemcnt, h.qmemtarget]
    exact hQ.lt

/-- The live objects after an allocation. -/
theorem setOf_update_true {p : Obj → Bool} {o : Obj} :
    {a | update p o true a = true} = insert o {a | p a = true} := by
  ext a
  by_cases h : a = o <;> simp [h]

/-- The live objects after a free. -/
theorem setOf_update_false {p : Obj → Bool} {o : Obj} :
    {a | update p o false a = true} = {a | p a = true} \ {o} := by
  ext a
  by_cases h : a = o <;> simp [h]

/-- A new memory has no slabs. -/
theorem inv_new {ε : Type} {w : World ε} (hs : ∀ s, w.slabs s = false)
    (hf : ∀ c, w.flist c = none) (hn : ∀ c, w.nslabs c = 0) (hr : ∀ k, w.remoteFrees k = none)
    (hqh : ∀ c, w.qscHead c = none) (hqt : ∀ c, w.qscTail c = none) (hqc : ∀ c, w.qmemcnt c = 0)
    (htk : ∀ c, w.remoteToken c = 0) (htg : ∀ c, w.ps c = true → g.qlistBatch ≤ w.qmemtarget c) :
    Inv g w P (fun _ => none) ∅ fun _ => [] := by
  have hin : ∀ {s o}, ¬ InSlab g w s o := by
    rintro s o ⟨h, -⟩
    rw [hs] at h
    cases h
  have hsl : ∀ s, ¬ w.slabs s = true := by
    intro s h
    rw [hs] at h
    cases h
  refine ⟨⟨fun k => ?_, fun h => by cases h⟩, ⟨?_, ?_, ?_, ?_, ?_⟩, ⟨?_, ?_, ?_, ?_⟩,
    ⟨?_, ?_, ?_, ?_⟩, ⟨?_, ?_, htg, ?_, ?_⟩⟩
  · cases k <;> simp [heads, hs, hqh, hr]
  · exact fun s h => absurd h (hsl s)
  · exact fun s _ _ h => absurd h (hsl s)
  · exact fun s o h => absurd h hin
  · exact fun s h => absurd h (hsl s)
  · exact fun c => ⟨[], List.nodup_nil, by simp [hs], (hn c).symm⟩
  · exact fun s h => absurd h (hsl s)
  · exact fun _ s h => absurd h (hsl s)
  · have hfl : w.flist = fun _ => none := funext hf
    rw [hfl]
    exact ⟨fun _ => [], Rings.empty, by simp [hs]⟩
  · exact fun s h => absurd h (hsl s)
  · exact fun k o h => absurd h List.not_mem_nil
  · exact fun o h => absurd h (Set.notMem_empty o)
  · exact fun o h => absurd h (Set.notMem_empty o)
  · exact fun s o h => absurd h hin
  · exact fun c => hqt c
  · exact fun c => hqc c
  · exact fun k => Nat.zero_le _
  · intro c
    rw [htk]
    exact (Nat.zero_le _).trans_lt (g.locality_lt 0)

/-- The invariant of a memory that has just been set up. -/
theorem memInv_init (h : (memLts g).init s) : MemInv g P s fun _ => [] := by
  obtain ⟨w, henv, hw, hlive⟩ := h
  have hH : {o | s.live o = true} = ∅ := by simp [hlive]
  have hfacts : (∀ sl, s.w.slabs sl = false) ∧ s.w.env = [] ∧ (∀ c, s.w.qmemcnt c = 0) ∧
      (∀ c, s.w.ps c = true → g.qlistBatch ≤ s.w.qmemtarget c) := by
    rcases hw with hw | hw
    · rw [hw]
      exact ⟨fun _ => rfl, henv, fun _ => rfl, fun c h => by cases h⟩
    · rw [hw]
      refine ⟨fun _ => rfl, henv, fun c => ite_self 0, fun c h => ?_⟩
      have h : (if c < g.numCores then true else false) = true := h
      show g.qlistBatch ≤ if c < g.numCores then g.qlistBatch else 0
      split_ifs at h ⊢
      exact le_rfl
  obtain ⟨hs, he, hqc, htg⟩ := hfacts
  refine ⟨?_, ⟨?_, ?_, ?_⟩, ⟨fun _ => .nil, fun c o h => absurd h List.not_mem_nil, fun c h => ?_⟩⟩
  · rw [hH]
    refine inv_new hs ?_ ?_ ?_ ?_ ?_ hqc ?_ htg <;> rcases hw with hw | hw <;> rw [hw] <;>
      exact fun _ => rfl
  · simp [hs, he, given]
  · simp [he, given]
  · rw [he]
    trivial
  · rw [hqc]
    exact g.qlistBatch_pos.trans_le (htg c h)

/-- The queues after a deferred free. -/
theorem queues_smrFree {w w' : World (List Ev)} {H : Set Obj} {cont' : Key → List Obj} {now c tsc : ℕ}
    {o : Obj} {r : ℕ} {b : Prop} [Decidable b] (hI : Inv g w P (fun _ => none) H cont)
    (hI' : Inv g w' P (fun _ => none) (H \ {o}) cont') (hQ : Queues w now cont) (ho : o ∈ H)
    (hnow : now < tsc) (hr : r ≤ g.qlistBatch) (hps : w.ps c = true)
    (hreq : Requeued w w' (update w.tscFree o tsc) c cont cont' ((queued cont c o).drop r))
    (hqm : (w.qmemtarget c ≤ (queued cont c o).length ∧ w'.qmemtarget = update w.qmemtarget c
        (w.qmemtarget c + if b ∨ r < g.qlistBatch then g.qlistBatch else 0)) ∨
      ((queued cont c o).length < w.qmemtarget c ∧ w'.qmemtarget = w.qmemtarget)) :
    Queues w' tsc cont' := by
  have hne : ∀ c', ∀ x ∈ cont (.queue c'), x ≠ o := by
    rintro c' x hx rfl
    exact hI.members.off _ ho _ hx
  have hts : ∀ c', ∀ x ∈ cont (.queue c'), update w.tscFree o tsc x = w.tscFree x :=
    fun c' x hx => update_of_ne (hne c' x hx) ..
  have hsorted : (queued cont c o).Pairwise fun a b =>
      update w.tscFree o tsc a < update w.tscFree o tsc b := by
    refine List.pairwise_append.mpr ⟨?_, List.pairwise_singleton _ _, fun a ha b hb => ?_⟩
    · refine (hQ.sorted c).imp_of_mem fun ha hb hab => ?_
      rwa [hts c _ ha, hts c _ hb]
    · rw [List.mem_singleton.mp hb, update_self, hts c a ha]
      exact (hQ.le_now c a ha).trans_lt hnow
  have hle : ∀ a ∈ queued cont c o, update w.tscFree o tsc a ≤ tsc := by
    intro a ha
    rcases List.mem_append.mp ha with ha | ha
    · rw [hts c a ha]
      exact (hQ.le_now c a ha).trans hnow.le
    · rw [List.mem_singleton.mp ha, update_self]
  constructor
  · intro c'
    by_cases hcc : c' = c
    · subst hcc
      have hd := hsorted.sublist (List.drop_sublist r _)
      rw [← hreq.self] at hd
      refine hd.imp_of_mem fun ha hb hab => ?_
      rwa [hreq.tscFree _ _ ha, hreq.tscFree _ _ hb]
    · have hq := hreq.queue c' hcc
      rw [hq]
      refine (hQ.sorted c').imp_of_mem fun ha hb hab => ?_
      rwa [hreq.tscFree c' _ (hq ▸ ha), hreq.tscFree c' _ (hq ▸ hb), hts c' _ ha, hts c' _ hb]
  · intro c' a ha
    rw [hreq.tscFree c' a ha]
    by_cases hcc : c' = c
    · subst hcc
      rw [hreq.self] at ha
      exact hle a (List.mem_of_mem_drop ha)
    · rw [hreq.queue c' hcc] at ha
      rw [hts c' a ha]
      exact (hQ.le_now c' a ha).trans hnow.le
  · intro c' hps'
    have hcnt := hI'.counters.cnt c'
    rw [hreq.ps] at hps'
    have hlt := hQ.lt c' hps'
    rw [hI.counters.cnt] at hlt
    rw [hcnt]
    by_cases hcc : c' = c
    · subst hcc
      have hpos := g.qlistBatch_pos
      have hlen : (queued cont c' o).length = (cont (.queue c')).length + 1 := by simp [queued]
      rw [hreq.self, List.length_drop]
      rcases hqm with ⟨-, hqm⟩ | ⟨hlt', hqm⟩
      · rw [hqm, update_self]
        split_ifs with h
        · omega
        · have : r = g.qlistBatch := by
            by_contra hr'
            exact h (.inr (by omega))
          omega
      · rw [hqm]
        omega
    · rw [hreq.queue c' hcc]
      rcases hqm with ⟨-, hqm⟩ | ⟨-, hqm⟩
      · rw [hqm, update_of_ne hcc]
        exact hlt
      · rw [hqm]
        exact hlt

/-- No more than a batch is reclaimed. -/
theorem reclaimable_length_le (ts : Obj → ℕ) (qsc k : ℕ) (l : List Obj) :
    (reclaimable ts qsc k l).length ≤ k :=
  ((List.takeWhile_prefix _).length_le.trans (List.length_take_le ..))

/-- An allocation keeps the invariant. -/
theorem step_alloc (hfit : CountFits g) (hM : MemInv g P s cont) {c : ℕ} {i : Option (ℕ × ℕ)}
    (hok : Ok g s (.alloc c i)) (hs : step g s (.alloc c i) = some s') :
    ∃ cont', MemInv g P s' cont' := by
  obtain ⟨hc, hi⟩ := hok
  obtain ⟨⟨r, w'⟩, hrun, rfl⟩ := Option.map_eq_some_iff.mp hs
  rcases memAlloc_spec (backing_supplier g) hfit hc hM.inv hM.log hi hrun with
    ⟨rfl, cont', hI, hK, hq⟩ | ⟨o, cont', rfl, ho, hI, hK, hq⟩
  · exact ⟨cont', hI, hK, hq.queues hM.queues⟩
  · refine ⟨cont', ?_, hK, hq.queues hM.queues⟩
    rw [← setOf_update_true] at hI
    exact hI

/-- A free does not fail, and keeps the invariant. -/
theorem step_free (hfit : CountFits g) (hM : MemInv g P s cont) (hok : Ok g s a)
    (hP : FreedBy g P s a) (ha : ∀ c i, a ≠ .alloc c i) :
    ∃ s' cont', step g s a = some s' ∧ MemInv g P s' cont' := by
  have hB := backing_supplier g
  cases a with
  | alloc c i => exact absurd rfl (ha c i)
  | free c o =>
      obtain ⟨hc, ho⟩ := hok
      obtain ⟨w', cont', hrun, hI, hK, hq, -⟩ := memFree_spec hB hfit hM.inv hM.log ho hc hP
      refine ⟨{ s with w := w', live := update s.live o false }, cont', ?_, ?_, hK,
        hq.toSameQueues.queues hM.queues⟩
      · simp only [step, hrun, Option.map_some]
      · rw [← setOf_update_false] at hI
        exact hI
  | smrFree c o tsc qsc busy =>
      obtain ⟨hc, ho, hnow, hps⟩ := hok
      have ht : tsc ≠ 0 := Nat.ne_of_gt ((Nat.zero_le _).trans_lt hnow)
      obtain ⟨w', cont', hrun, hI, hK, hq⟩ := smrFree_spec hB hfit hM.inv hM.log ho hc hP
        ht hps qsc busy
      refine ⟨{ w := w', live := update s.live o false, now := tsc }, cont', ?_, ?_, hK, ?_⟩
      · simp only [step, hrun, Option.map_some]
      · have hI' := hI
        rw [← setOf_update_false] at hI'
        exact hI'
      · by_cases hge : s.w.qmemtarget c ≤ (queued cont c o).length
        · rw [if_pos hge] at hq
          exact queues_smrFree hM.inv hI hM.queues ho hnow (reclaimable_length_le ..) hps hq.1
            (.inl ⟨hge, hq.2⟩)
        · rw [if_neg hge] at hq
          refine queues_smrFree (r := 0) (b := False) hM.inv hI hM.queues ho hnow (Nat.zero_le _) hps
            ?_ (.inr ⟨by omega, hq.2⟩)
          exact hq.1

/-- **A call keeps the invariant.** -/
theorem step_spec (hfit : CountFits g) (hM : MemInv g P s cont) (hok : Ok g s a)
    (hP : FreedBy g P s a) (hs : step g s a = some s') : ∃ cont', MemInv g P s' cont' := by
  by_cases ha : ∃ c i, a = .alloc c i
  · obtain ⟨c, i, rfl⟩ := ha
    exact step_alloc hfit hM hok hs
  · obtain ⟨s'', cont', hs', hM'⟩ := step_free hfit hM hok hP fun c i h => ha ⟨c, i, h⟩
    obtain rfl : s'' = s' := Option.some.inj (hs'.symm.trans hs)
    exact ⟨cont', hM'⟩

/-- **A call does not fail**, where an allocation can count what waits for its core. -/
theorem step_ne_none (hfit : CountFits g) (hM : MemInv g P s cont) (hok : Ok g s a)
    (hP : FreedBy g P s a) (hC : ∀ c i, a = .alloc c i → Counted s.w c) : step g s a ≠ none := by
  by_cases ha : ∃ c i, a = .alloc c i
  · obtain ⟨c, i, rfl⟩ := ha
    have hrun := memAlloc_ne_none (backing_supplier g) hfit hok.1 hM.inv hM.log hok.2 (hC c i rfl)
    simpa [step] using hrun
  · obtain ⟨s', cont', hs', -⟩ := step_free hfit hM hok hP fun c i h => ha ⟨c, i, h⟩
    rw [hs']
    exact Option.some_ne_none _

/-- Every run keeps the invariant. -/
theorem exists_memInv (hfit : CountFits g)
    (h : (memLts g).Reach (fun s a => Ok g s a ∧ FreedBy g P s a) s) : ∃ cont, MemInv g P s cont := by
  refine Lts.invariant (I := fun s => ∃ cont, MemInv g P s cont) (fun s h₀ => ⟨_, memInv_init h₀⟩)
    (fun s a s' hM hg hs => ?_) h
  obtain ⟨cont, hM⟩ := hM
  exact step_spec hfit hM hg.1 hg.2 hs

/-- Any core may free where all cores are with `P`. -/
theorem freedBy_true (s : St) (a : Op) : FreedBy g (fun _ => True) s a := by
  cases a <;> simp [FreedBy]

/-- Every run keeps the invariant, whatever cores free what objects. -/
theorem exists_memInv_of_reach (hfit : CountFits g) (h : (memLts g).Reach (Ok g) s) :
    ∃ cont, MemInv g (fun _ => True) s cont :=
  exists_memInv hfit (h.mono fun s a hok => ⟨hok, freedBy_true s a⟩)

end Invariant

end Parsec.Slab
