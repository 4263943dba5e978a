import Parsec.Lib.Lock
import Parsec.Lib.Ring
import Parsec.Ns.Release

/-!
# The freelist of a namespace, under its lock

`ps_slab_nsalloc` and `ps_slab_nsfree` take slabs from the freelist of a namespace, and put them there,
under a spin lock. Here every attempt to take the lock is a step, and every statement under it that
reads or writes the freelist or the links of slabs; in `Parsec.Ns.Machine` the whole is one step, on a
list.

* `program` — the calls, as threads that share the freelist under a lock.
* `Listed` — the slabs that the links lead along, from the head of the freelist; `Listed.pop` and
  `Listed.push` are the two sections.
* `Stands`, `locked_of_reach` — every run is one of the machine in which a section is a step. A section
  that has been entered ends: no assertion in it fails.
-/

namespace Parsec.Ns

open Function Ertrie Lib

/-! ## The code -/

/-- The freelist, and the links of slabs. Those of slabs that are in use are as the freelists of cores
leave them, which they are taken from before.
Source: `ps_global.h`, `struct ps_slab_freelist`; `ps_slab.h`, `struct ps_slab` -/
structure Freelist where
  list : Option ℕ
  n : ℕ → ℕ
  p : ℕ → ℕ

/-- The program points under the lock: those of `__slab_freelist_rem` for the slab `s` at the head, and
of `__slab_freelist_add` for a slab `s`, where `a` is at the head. -/
inductive Sect
  | popLoad
  | popTest (s : ℕ)
  | popHead (s : ℕ)
  | remPrev (s : ℕ)
  | remNext (s : ℕ)
  | remSelf (s : ℕ)
  | popped (s : Option ℕ)
  | pushTest (s : ℕ)
  | addNext (s a : ℕ)
  | addPrev (s a : ℕ)
  | addLink (s a : ℕ)
  | addBack (s : ℕ)
  | pushHead (s : ℕ)
  | pushed
  deriving DecidableEq

/-- A step under the lock.
Source: `ps_ns.c`, `ps_slab_nsalloc`, `ps_slab_nsfree`; `ps_slab.h`, `__slab_freelist_rem`,
`__slab_freelist_add`; `ps_list.h`, `ps_list_ll_rem`, `ps_list_ll_add` -/
def sectStep (fl : Freelist) : Sect → Option (Freelist × Sect)
  | .popLoad => some (fl, match fl.list with
      | none => .popped none
      | some s => .popTest s)
  | .popTest s => some (fl, if fl.list = some s then .popHead s else .remPrev s)
  | .popHead s =>
      some ({ fl with list := if fl.n s = s then none else some (fl.n s) }, .remPrev s)
  | .remPrev s => some ({ fl with p := update fl.p (fl.n s) (fl.p s) }, .remNext s)
  | .remNext s => some ({ fl with n := update fl.n (fl.p s) (fl.n s) }, .remSelf s)
  | .remSelf s => some ({ fl with n := update fl.n s s, p := update fl.p s s }, .popped (some s))
  | .pushTest s =>
      if fl.n s = s ∧ fl.list ≠ some s then
        some (fl, match fl.list with
          | none => .pushHead s
          | some a => .addNext s a)
      else none
  | .addNext s a => some ({ fl with n := update fl.n s (fl.n a) }, .addPrev s a)
  | .addPrev s a => some ({ fl with p := update fl.p s a }, .addLink s a)
  | .addLink s a => some ({ fl with n := update fl.n a s }, .addBack s)
  | .addBack s => some ({ fl with p := update fl.p (fl.n s) s }, .pushHead s)
  | .pushHead s => some ({ fl with list := some s }, .pushed)
  | .popped _ | .pushed => none

/-- Where `ps_lock_release` comes next. -/
def Sect.last : Sect → Bool
  | .popped _ | .pushed => true
  | _ => false

section Program

variable {τ : Type} [DecidableEq τ]

/-- Whose step it is. -/
def Act.who : Act τ → τ
  | .nsalloc t | .nsfree t _ | .lkup t _ | .step t _ => t

omit [DecidableEq τ] in
/-- What a thread that is at the lock does under it. -/
def atLock (s : St τ) (t : τ) : Option Sect :=
  match s.pc t with
  | .pop => some .popLoad
  | .push h => some (.pushTest h)
  | _ => none

/-- How a thread goes on.
Source: `ps_ns.c`, `ps_slab_nsalloc`, `ps_slab_nsfree` -/
def afterLock (s : St τ) (t : τ) : Sect → St τ
  | .popped none => s.setPc t .faa
  | .popped (some h) => s.setPc t (.memory h none)
  | .pushed => s.setPc t .idle
  | _ => s

/-- A step outside of the lock. -/
def outside (g : NsGeom) (s : St τ) (a : Act τ) : Option (St τ) :=
  if (atLock s a.who).isNone then step g s a else none

/-- A step moves its thread. -/
theorem step_pc {g : NsGeom} {s s' : St τ} {a : Act τ} (hs : step g s a = some s') :
    ∃ p, s'.pc = update s.pc a.who p := by
  cases a with
  | nsalloc t | nsfree t h | lkup t id =>
      simp only [step, Option.ite_none_right_eq_some, Option.some.injEq] at hs
      obtain ⟨-, rfl⟩ := hs
      exact ⟨_, rfl⟩
  | step t o =>
      obtain ⟨p, hp, -⟩ := tick_pc hs
      exact ⟨p, hp⟩

omit [DecidableEq τ] in
/-- The program points at which a thread takes the lock. -/
theorem atLock_eq_some {s : St τ} {t : τ} {b : Sect} (h : atLock s t = some b) :
    s.pc t = .pop ∧ b = .popLoad ∨ ∃ x, s.pc t = .push x ∧ b = .pushTest x := by
  unfold atLock at h
  split at h
  · rename_i hp
    cases h
    exact .inl ⟨hp, rfl⟩
  · rename_i x hp
    cases h
    exact .inr ⟨x, hp, rfl⟩
  · cases h

/-- Another thread moves: this one is at the lock or not, as before. -/
theorem atLock_setPc_ne {s : St τ} {t t' : τ} {p : Pc} (h : t' ≠ t) :
    atLock (s.setPc t p) t' = atLock s t' := by
  unfold atLock
  rw [setPc_pc_ne h]

/-- The calls of a namespace, with its freelist under a lock. A namespace is new, and the links of slabs
lead to themselves, as `ps_list_init` leaves them.
Source: `ps_ns.c` -/
def program (τ : Type) [DecidableEq τ] (g : NsGeom) : Program τ Freelist (St τ) (Act τ) Sect where
  init fl s := nsInit τ g s ∧ fl.list = none ∧ ∀ h, fl.n h = h ∧ fl.p h = h
  who := Act.who
  out := outside g
  entry := atLock
  body := sectStep
  last := Sect.last
  exit := afterLock
  entry_out s a s' t hs hne := by
    obtain ⟨-, hs⟩ := Option.ite_none_right_eq_some.mp hs
    obtain ⟨p, hp⟩ := step_pc hs
    unfold atLock
    rw [hp, update_of_ne hne]
  entry_exit s t b t' hne := by
    unfold afterLock
    split <;> first | exact atLock_setPc_ne hne | rfl

end Program

/-! ## Only sections look at the freelist -/

section Freelist

variable {τ : Type} {g : NsGeom} {s s' : St τ} {t : τ} {n : Addr}

/-- A state with another freelist. -/
def withFl (l : List ℕ) (s : St τ) : St τ := { s with fl := l }

/-- What is done with a lookup that finds nothing does not depend on the freelist. -/
theorem lookupNull_withFl (l : List ℕ) (k : Caller) :
    lookupNull (withFl l s) k = lookupNull s k := by
  cases k <;> rfl

variable [DecidableEq τ]

/-- What is done with a lookup that finds a node does not depend on the freelist. -/
theorem lookupFound_withFl (l : List ℕ) (k : Caller) :
    lookupFound (withFl l s) t n k = (lookupFound s t n k).map (withFl l) := by
  cases k with
  | present h new =>
      unfold lookupFound
      rw [apply_ite (Option.map (withFl l))]
      rfl
  | user | absent _ _ | unlink _ | gone _ => rfl

/-- Only under the lock is the freelist looked at. -/
theorem step_withFl {a : Act τ} (l : List ℕ)
    (hout : atLock s a.who = none) : step g (withFl l s) a = (step g s a).map (withFl l) := by
  cases a with
  | nsalloc t | nsfree t h | lkup t id =>
      unfold step
      rw [apply_ite (Option.map (withFl l))]
      rfl
  | step t o =>
      have hout : atLock s t = none := hout
      have hpc : (withFl l s).pc t = s.pc t := rfl
      unfold atLock at hout
      show tick g (withFl l s) t o = (tick g s t o).map (withFl l)
      unfold tick
      rw [hpc]
      cases ht : s.pc t with
      | pop | push h => rw [ht] at hout; cases hout
      | idle | faa | freeHeader h new | reset id | forget h => rfl
      | header id =>
          rcases o.hdr with _ | x
          · rfl
          · simp only [apply_ite (Option.map (withFl l))]
            rfl
      | memory h new =>
          simp only [apply_ite (Option.map (withFl l))]
          rfl
      | test k id limit i n =>
          simp only [Option.bind_eq_bind, Option.map_bind, lookupNull_withFl]
          refine congrArg _ (funext fun p => ?_)
          simp only [comp_apply, apply_ite (Option.map (withFl l)), Option.map_map]
          rfl
      | resolve k id limit n =>
          simp only [lookupNull_withFl, lookupFound_withFl, apply_ite (Option.map (withFl l)), Option.map_map]
          rfl
      | expAlloc h new i n =>
          have hctx : memctxt (withFl l s) h o = memctxt s h o := rfl
          have hmem : (withFl l s).mem = s.mem := rfl
          simp only [hctx, hmem]
          split <;> rfl
      | hop _ _ _ _ _ | expWalk _ _ _ _ | expTest _ _ _ _ | expInit _ _ _ _ _ | expSet _ _ _ _ _ | freeMem _ _
      | platFree _ | clear _ _ =>
          simp only [Option.bind_eq_bind, Option.map_bind]
          rfl
      | check h n =>
          simp only [Option.bind_eq_bind, Option.map_bind]
          refine congrArg _ (funext fun p => ?_)
          simp only [comp_apply, apply_ite (Option.map (withFl l))]
          rfl

/-- A step outside of the lock is the same whatever the freelist, and leaves it alone. -/
theorem step_of_withFl {a : Act τ} {l : List ℕ} {r : St τ} (hout : atLock s a.who = none)
    (hs : step g (withFl l s) a = some r) :
    ∃ s', step g s a = some s' ∧ r = withFl l s' ∧ s'.fl = s.fl := by
  rw [step_withFl l hout] at hs
  obtain ⟨s', hs', rfl⟩ := Option.map_eq_some_iff.mp hs
  refine ⟨s', hs', rfl, ?_⟩
  have h := step_withFl (g := g) s.fl hout
  have he : withFl s.fl s = s := rfl
  rw [he, hs', Option.map_some, Option.some.injEq] at h
  rw [h]
  rfl

end Freelist

/-! ## The freelist, as a list -/

section Listed

/-- The slabs that the links lead along, from the head, are those of `l`; the links of others lead to
themselves. -/
structure Listed (fl : Freelist) (l : List ℕ) : Prop where
  ring : Rings fl.n fl.p (fun _ : Unit => fl.list) fun _ => l
  off : ∀ h, h ∉ l → fl.n h = h ∧ fl.p h = h

variable (τ : Type) [DecidableEq τ] (g : NsGeom) {fl : Freelist} {l : List ℕ} {h : ℕ}

/-- Writing the only element of an array. -/
theorem update_unit {α : Type} (a b : α) : update (fun _ : Unit => a) () b = fun _ => b :=
  funext fun _ => update_self ..

/-- The pointer to the list is to its first element. -/
theorem Listed.head_eq (hL : Listed fl l) : fl.list = l.head? := hL.ring.head_eq ()

/-- **A slab is taken** from the freelist, if there is one. -/
theorem Listed.pop (hL : Listed fl l) : ∃ k ≤ 6, ∃ fl',
    (program τ g).runBody k fl .popLoad = some (fl', .popped l.head?) ∧ Listed fl' l.tail := by
  have hhead := hL.head_eq
  cases l with
  | nil =>
      have hnone : fl.list = none := hhead
      refine ⟨1, by omega, fl, ?_, hL⟩
      simp [Program.runBody, program, sectStep, Sect.last, hnone]
  | cons s l =>
      have hsome : fl.list = some s := hhead
      have hs : s ∈ s :: l := List.mem_cons_self
      have hr := hL.ring.rem (k := ()) (e := s) hs
      rw [update_unit, update_unit, if_pos hsome, List.erase_cons_head] at hr
      refine ⟨6, le_rfl, ⟨if fl.n s = s then none else some (fl.n s),
        update (update fl.n (update fl.p (fl.n s) (fl.p s) s) (fl.n s)) s s,
        update (update fl.p (fl.n s) (fl.p s)) s s⟩, ?_, hr, fun h hh => ?_⟩
      · simp [Program.runBody, program, sectStep, Sect.last, hsome]
      · show update (update fl.n _ _) s s h = h ∧ update (update fl.p _ _) s s h = h
        by_cases he : h = s
        · rw [he]
          exact ⟨update_self .., update_self ..⟩
        · have hl : h ∉ s :: l := fun hm => (List.mem_cons.mp hm).elim he hh
          have hn : h ≠ fl.n s := fun e => hl (e ▸ (hL.ring.ring ()).next_mem hs)
          have hp : h ≠ fl.p s := fun e => hl (e ▸ (hL.ring.ring ()).prev_mem hs)
          rw [update_of_ne he, update_of_ne he, update_self_or, update_of_ne hn, update_of_ne hp]
          exact hL.off h hl

/-- **A slab is put** on the freelist: no assertion fails. -/
theorem Listed.push (hL : Listed fl l) (hh : h ∉ l) : ∃ k ≤ 6, ∃ fl',
    (program τ g).runBody k fl (.pushTest h) = some (fl', .pushed) ∧ Listed fl' (flAdd l h) := by
  have hhead := hL.head_eq
  obtain ⟨hn, hp⟩ := hL.off h hh
  have hoff : ∀ k : Unit, h ∉ (fun _ => l) k := fun _ => hh
  cases l with
  | nil =>
      have hnone : fl.list = none := hhead
      have hr := hL.ring.addFirst (k := ()) hn hp hoff
      rw [update_unit, update_unit] at hr
      refine ⟨2, by omega, { fl with list := some h }, ?_, hr, fun h' _ => hL.off h' List.not_mem_nil⟩
      simp [Program.runBody, program, sectStep, Sect.last, hnone, hn]
  | cons a l =>
      have hsome : fl.list = some a := hhead
      have ha : a ≠ h := fun e => hh (e ▸ List.mem_cons_self)
      have hr := hL.ring.add (k := ()) rfl hoff
      rw [update_unit, update_unit] at hr
      refine ⟨6, le_rfl, ⟨some h, update (update fl.n h (fl.n a)) a h,
        update (update fl.p h a) (fl.n a) h⟩, ?_, hr, fun h' hh' => ?_⟩
      · simp [Program.runBody, program, sectStep, Sect.last, hsome, hn, ha, update_of_ne ha.symm]
      · have hl : h' ≠ h ∧ h' ∉ a :: l := by
          have hmem := (flAdd_perm (a :: l) h).mem_iff (a := h')
          rw [hmem, List.mem_cons] at hh'
          exact not_or.mp hh'
        have hna : h' ≠ fl.n a := fun e => hl.2 (e ▸ (hL.ring.ring ()).next_mem List.mem_cons_self)
        have ha' : h' ≠ a := fun e => hl.2 (e ▸ List.mem_cons_self)
        show update (update fl.n _ _) a h h' = h' ∧ update (update fl.p _ _) (fl.n a) h h' = h'
        rw [update_of_ne ha', update_of_ne hl.1, update_of_ne hna, update_of_ne hl.1]
        exact hL.off h' hl.2

end Listed

/-! ## The refinement -/

section Refinement

variable {τ : Type} [DecidableEq τ] {g : NsGeom} {G : St τ → Act τ → Prop}

/-- The machine's state, where sections are one step. -/
structure Matches (x : Freelist × St τ) (s : St τ) : Prop where
  listed : Listed x.1 s.fl
  rest : x.2 = withFl [] s

/-- A slab that is put on the freelist is not on it. -/
theorem notMem_of_push {s : St τ} {t : τ} {h : ℕ} (hr : (lts τ g).Reach G s) (ht : s.pc t = .push h) :
    h ∉ s.fl := by
  obtain ⟨tag, hI⟩ := exists_inv hr
  have hheld : (s.pc t).hdr = some h := by rw [ht]; rfl
  exact (hI.headers.held t h hheld).2.2

/-- **A section ends**, and is a step of the machine. -/
theorem Listed.section {fl : Freelist} {s : St τ} {t : τ} {b₀ : Sect} (hL : Listed fl s.fl)
    (hr : (lts τ g).Reach G s) (hb₀ : atLock s t = some b₀) : ∃ k ≤ 6, ∃ fl' b s',
      (program τ g).runBody k fl b₀ = some (fl', b) ∧ b.last = true ∧ Listed fl' s'.fl ∧
        afterLock (withFl [] s) t b = withFl [] s' ∧
        ∀ o, (lts τ g).step s (.step t o) = some s' := by
  rcases atLock_eq_some hb₀ with ⟨ht, rfl⟩ | ⟨h, ht, rfl⟩
  · obtain ⟨k, hk, fl', hrun, hL'⟩ := hL.pop τ g
    refine ⟨k, hk, fl', _, { s with fl := s.fl.tail }.setPc t
      (s.fl.head?.elim .faa fun h => .memory h none), hrun, rfl, hL', ?_, fun o => ?_⟩
    · rcases hfl : s.fl with _ | ⟨a, l⟩ <;> rfl
    · show tick g s t o = _
      unfold tick
      rw [ht]
      rcases hfl : s.fl with _ | ⟨a, l⟩
      · have he : { s with fl := [] } = s := by rw [← hfl]
        exact congrArg (fun s' => some (St.setPc s' t .faa)) he.symm
      · rfl
  · obtain ⟨k, hk, fl', hrun, hL'⟩ := hL.push τ g (notMem_of_push hr ht)
    refine ⟨k, hk, fl', _, { s with fl := flAdd s.fl h }.setPc t .idle, hrun, rfl, hL', rfl, fun o => ?_⟩
    show tick g s t o = _
    unfold tick
    rw [ht]

/-- A section that is one step is a step of the machine. -/
theorem Matches.section {x x' : Freelist × St τ} {s : St τ} {t : τ} {k : ℕ} (h : Matches x s)
    (hr : (lts τ g).Reach G s) (hs : (program τ g).coarse.step x (.inr (t, k)) = some x') (o : Oracle) :
    ∃ s', (lts τ g).step s (.step t o) = some s' ∧ Matches x' s' := by
  obtain ⟨fl, r⟩ := x
  obtain ⟨hL, hrest⟩ := h
  have hrest : r = withFl [] s := hrest
  subst hrest
  obtain ⟨b₀, hb₀, hs⟩ := Option.bind_eq_some_iff.mp hs
  obtain ⟨⟨fl₁, b⟩, hrun, hs⟩ := Option.bind_eq_some_iff.mp hs
  obtain ⟨hl, hs⟩ := Option.ite_none_right_eq_some.mp hs
  cases hs
  have hat : atLock s t = some b₀ := hb₀
  obtain ⟨j, -, fl', b', s', hj, hl', hL', hafter, hstep⟩ := hL.section hr hat
  obtain ⟨rfl, rfl⟩ := Prod.mk.inj (Program.runBody_unique hj hl' hrun hl)
  exact ⟨s', hstep o, hL', hafter⟩

/-- Where the lock is a step of the machine. -/
theorem exists_matches (hG : ∀ s a, G (withFl [] s) a → G s a)
    (hlock : ∀ s t o, atLock s t ≠ none → G s (.step t o)) {x : Freelist × St τ}
    (h : (program τ g).coarse.Reach (Program.onCoarse G) x) :
    ∃ s, (lts τ g).Reach G s ∧ Matches x s := by
  refine Lts.invariant (I := fun x => ∃ s, (lts τ g).Reach G s ∧ Matches x s) ?_ ?_ h
  · rintro ⟨fl, s⟩ ⟨hs, hnone, hself⟩
    have hfl : s.fl = [] := hs.2.1
    refine ⟨s, .init hs, ?_, ?_⟩
    · have hhead : (fun _ : Unit => fl.list) = fun _ => none := funext fun _ => hnone
      rw [hfl]
      exact ⟨hhead ▸ Rings.empty, fun h _ => hself h⟩
    · show s = { s with fl := [] }
      rw [← hfl]
  · rintro ⟨fl, r⟩ a x' ⟨s, hr, hM⟩ hg hs
    cases a with
    | inl a =>
        obtain ⟨hL, hrest⟩ := hM
        have hrest : r = withFl [] s := hrest
        subst hrest
        obtain ⟨r', hr', rfl⟩ := Option.map_eq_some_iff.mp hs
        obtain ⟨hout, hr'⟩ := Option.ite_none_right_eq_some.mp hr'
        obtain ⟨s', hs', rfl, hfl⟩ :=
          step_of_withFl (Option.isNone_iff_eq_none.mp hout : atLock s a.who = none) hr'
        exact ⟨s', hr.step (hG s a hg) hs', hfl ▸ hL, rfl⟩
    | inr tk =>
        obtain ⟨t, k⟩ := tk
        obtain ⟨s', hs', hM'⟩ := hM.section hr hs ⟨true, none⟩
        refine ⟨s', hr.step (hlock s t _ fun hnone => ?_) hs', hM'⟩
        obtain ⟨b₀, hb₀, -⟩ := Option.bind_eq_some_iff.mp hs
        have hat : (program τ g).entry r t = atLock s t := by
          have hrest : r = withFl [] s := hM.rest
          rw [hrest]
          rfl
        rw [hat, hnone] at hb₀
        cases hb₀

/-- What a namespace with its lock stands for. -/
structure Stands (g : NsGeom) (s : Fine τ Freelist (St τ) Sect) (a : St τ) : Prop where
  rest : s.rest = withFl [] a
  /-- Where the lock is free, the links lead along the freelist. -/
  free : s.lock = 0 → Listed s.data a.fl
  /-- One thread at a time has it. -/
  exclusive : ∀ t t' b b', s.place t = some b → s.place t' = some b' → t = t'
  /-- Whoever has it gives it back: no assertion fails before. -/
  ends : ∀ t b, s.place t = some b →
    ∃ k ≤ 6, ∃ fl b', (program τ g).runBody k s.data b = some (fl, b') ∧ b'.last = true

/-- **The locked freelist is a list**: every run of the calls of a namespace with its lock is one of the
machine in which a section is one step. -/
theorem locked_of_reach {s : Fine τ Freelist (St τ) Sect}
    (h : (program τ g).fine.Reach (Program.onFine (NoWrap g)) s) :
    ∃ a, (lts τ g).Reach (NoWrap g) a ∧ Stands g s a := by
  obtain ⟨fl, hr, hA⟩ := Program.exists_abstracts h
  have hG : ∀ (s : St τ) a, NoWrap g (withFl [] s) a → NoWrap g s a := by
    intro s a h
    cases a with
    | step t o => exact h
    | nsalloc t | nsfree t h | lkup t id => trivial
  have hlock : ∀ (s : St τ) t o, atLock s t ≠ none → NoWrap g s (.step t o) := by
    intro s t o hne hfaa
    refine absurd ?_ hne
    unfold atLock
    rw [hfaa]
  obtain ⟨a, ha, hL, hrest⟩ := exists_matches hG hlock hr
  obtain ⟨hexcl, hfree⟩ := Program.mutex_of_reach h
  refine ⟨a, ha, hrest, fun h0 => ?_, hexcl, fun t b ht => ?_⟩
  · rw [(hA.free (hfree.mp h0)).2]
    exact hL
  · obtain ⟨-, -, b₀, j, hentry, hrun⟩ := hA.held t b ht
    have hentry : atLock a t = some b₀ := by
      have hrest : s.rest = withFl [] a := hrest
      rw [hrest] at hentry
      exact hentry
    obtain ⟨k, hk, fl', b', -, hrun', hl, -⟩ := hL.section ha hentry
    obtain ⟨i, hi, hrest'⟩ := Program.runBody_ends hrun' hl hrun
    exact ⟨i, by omega, fl', b', hrest', hl⟩

end Refinement

/-! ## A run of two threads -/

/-- A namespace of two levels, with its lock. -/
def newFine : Fine (Fin 2) Freelist (St (Fin 2)) Sect where
  lock := 0
  data := ⟨none, id, id⟩
  rest := St.new (Fin 2) (trieMem twoLevels) 0
  place _ := none

/-- Thread 0 has given a slab back and is at the lock again, while thread 1 takes the slab under it. -/
theorem locked_of_reach_spin : ∃ s,
    (program (Fin 2) twoLevels).fine.Reach (Program.onFine (NoWrap twoLevels)) s ∧ s.lock = 1 ∧
      s.rest.pc 0 = .pop ∧ s.place 1 = some (.remPrev 0) ∧
      ∃ a, (lts (Fin 2) twoLevels).Reach (NoWrap twoLevels) a ∧ Stands twoLevels s a := by
  have hinit : (program (Fin 2) twoLevels).fine.init newFine :=
    ⟨⟨nsInit_twoLevels, rfl, fun _ => ⟨rfl, rfl⟩⟩, rfl, fun _ => rfl⟩
  obtain ⟨s, hs, hp⟩ := Lts.exists_reach_of_execWhen (G := Program.onFine (NoWrap twoLevels)) hinit
    ([.inl (.nsalloc 0)] ++ List.replicate 3 (.inr 0) ++
      List.replicate 16 (.inl (.step 0 ⟨true, some 0⟩)) ++ [.inl (.nsfree 0 0)] ++
      List.replicate 10 (.inl (.step 0 ⟨true, none⟩)) ++ List.replicate 4 (.inr 0) ++
      [.inl (.nsalloc 0), .inl (.nsalloc 1)] ++ List.replicate 4 (.inr 1) ++ [.inr 0])
    (p := fun s => decide (s.lock = 1 ∧ s.rest.pc 0 = .pop ∧ s.place 1 = some (.remPrev 0)))
    (by decide +kernel)
  obtain ⟨h₁, h₂, h₃⟩ := of_decide_eq_true hp
  exact ⟨s, hs, h₁, h₂, h₃, locked_of_reach hs⟩

end Parsec.Ns
