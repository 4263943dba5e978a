import Mathlib.Data.List.TakeWhile
import Parsec.Parslab.Refine
import Parsec.Slab.Fill
import Parsec.Slab.Queue

/-!
# What a section refers to stays

A core inside a section may hold references to any object that has been live since it entered. Such an
object may be freed, by any core, but then stays on a quiescence queue until the section is left: it is
not handed out again, and its slab is not released.

* `Sheltered` — why: an object that such a section refers to is live, or was freed after the section
  was entered and is still on a queue. A reclamation takes nothing that was freed after that.
* `exists_step`, `exists_parInv` — the invariant along runs, over any suppliers of slab memory.
* `simulates`, `stays_of_reach` — the results, for memories with the default supplier.
-/

namespace Parsec.Parslab

open Function Lib Slab

variable {N B : ℕ} {M ε ι : Type} [DecidableEq M] {g : M → Geom} {f : M → Fns ε ι}
  {A : M → World ε → ℕ → ι → Prop} {K : M → World ε → Prop} {s s' : St N M ε}
  {cont : M → Key → List Obj} {clk : Smr.Clock}

/-! ## The invariant -/

/-- What a core that is inside a section may refer to is live, or was freed since. -/
def Sheltered (s : St N M ε) (cont : M → Key → List Obj) : Prop :=
  ∀ c d m o, s.ps.sect c = some d → s.seen c m o = true →
    s.live m o = true ∨ ∃ c', o ∈ cont m (.queue c') ∧ d < (s.mem m).tscFree o

omit [DecidableEq M] in
/-- A section was entered before the clock shows more. -/
theorem ParInv.sect_lt [DecidableEq M] (h : ParInv B g K s cont) {c : Fin N} {d : ℕ}
    (hd : s.ps.sect c = some d) : d < clk.read s.ps.clock := by
  have hT := Smr.timed_of_calls h.calls
  have hin : (s.ps.timing c).timeIn = d := hT.inside c d hd
  have hle : (s.ps.timing c).timeIn ≤ s.ps.clock := hT.le c
  exact (hin ▸ hle).trans_lt (clk.lt_read _)

/-- What a reclamation leaves. -/
theorem mem_drop_reclaimable {ts : Obj → ℕ} {qsc k : ℕ} {l : List Obj} {a : Obj} (ha : a ∈ l)
    (hlt : qsc < ts a) : a ∈ l.drop (reclaimable ts qsc k l).length := by
  have hpre : reclaimable ts qsc k l <+: l :=
    (List.takeWhile_prefix _).trans (List.take_prefix k l)
  rw [← List.prefix_iff_eq_append.mp hpre] at ha
  refine (List.mem_append.mp ha).resolve_left fun hm => ?_
  have hle := List.mem_takeWhile_imp (p := fun a => decide (ts a ≤ qsc)) hm
  rw [decide_eq_true_eq] at hle
  omega

omit [DecidableEq M] in
/-- What a call on the parsec does to sections, and to what they refer to. -/
theorem sect_par {a : Smr.Call N Empty} {ps : Smr.St N Empty}
    (hs : Smr.call 1 s.ps (a, clk) = some ps) :
    (∃ c now, a = .enter c ∧ s.ps.sect c = none ∧ ps.sect = update s.ps.sect c (some now) ∧
        s.see a = update s.seen c s.live) ∨
      (∃ c, a = .exit c ∧ ps.sect = update s.ps.sect c none ∧
        s.see a = update s.seen c fun _ _ => false) ∨
      ps.sect = s.ps.sect ∧ s.see a = s.seen := by
  cases a with
  | enter c =>
      simp only [Smr.call] at hs
      split at hs
      · rename_i hnone
        cases hs
        exact .inl ⟨c, _, rfl, hnone, rfl, rfl⟩
      · cases hs
  | exit c =>
      simp only [Smr.call] at hs
      split at hs
      · cases hs
        exact .inr (.inl ⟨c, rfl, rfl, rfl⟩)
      · cases hs
  | tryQuiesce c tsc =>
      obtain ⟨R, hR, rfl⟩ := Option.map_eq_some_iff.mp hs
      exact .inr (.inr ⟨(Smr.psQuiesce_same hR).2.2, rfl⟩)
  | quiesceWait c tsc k =>
      obtain ⟨R, hR, rfl⟩ := Option.map_eq_some_iff.mp hs
      exact .inr (.inr ⟨(Smr.psQuiesce_same hR).2.2, rfl⟩)
  | smrFree c m obj => exact m.elim

omit [DecidableEq M] in
/-- A call on the parsec. -/
theorem Sheltered.par {a : Smr.Call N Empty} {ps : Smr.St N Empty} (h : Sheltered s cont)
    (hs : Smr.call 1 s.ps (a, clk) = some ps) :
    Sheltered { s with ps := ps, seen := s.see a } cont := by
  intro c' d m o hd ho
  have hd : ps.sect c' = some d := hd
  have ho : s.see a c' m o = true := ho
  rcases sect_par hs with ⟨c, now, -, -, hsect, hsee⟩ | ⟨c, -, hsect, hsee⟩ | ⟨hsect, hsee⟩ <;>
    rw [hsect] at hd <;> rw [hsee] at ho
  · by_cases hc : c' = c
    · rw [hc, update_self] at ho
      exact .inl ho
    · rw [update_of_ne hc] at hd ho
      exact h c' d m o hd ho
  · by_cases hc : c' = c
    · rw [hc, update_self] at hd
      cases hd
    · rw [update_of_ne hc] at hd ho
      exact h c' d m o hd ho
  · exact h c' d m o hd ho

/-- What is sheltered by a queue of a memory whose queues stay. -/
theorem shelter_same {m m' : M} {w : World ε} {cont' : Key → List Obj} {c' d : ℕ} {o : Obj}
    (hq : SameQueues (s.mem m) w (cont m) cont') (ho : o ∈ cont m' (.queue c'))
    (hd : d < (s.mem m').tscFree o) :
    o ∈ update cont m cont' m' (.queue c') ∧ d < (update s.mem m w m').tscFree o := by
  by_cases hm : m' = m
  · subst hm
    rw [update_self, update_self, hq.queue, hq.tscFree c' o ho]
    exact ⟨ho, hd⟩
  · rw [update_of_ne hm, update_of_ne hm]
    exact ⟨ho, hd⟩

/-- The objects that are not written stay. -/
theorem put_of_ne {p : M → Obj → Bool} {m m' : M} {o o' : Obj} (h : ¬ (m' = m ∧ o' = o)) (b : Bool) :
    put p m o b m' o' = p m' o' := by
  by_cases hm : m' = m
  · subst hm
    rw [put_self, update_of_ne fun ho => h ⟨rfl, ho⟩]
  · rw [put_ne hm]

/-- What a call does to the protocol: calls on the parsec and deferred frees are calls of it, and
allocations leave it alone. -/
def Carries (B : ℕ) (t t' : Smr.St N M) (a : Op N M ι) (clk : Smr.Clock) : Prop :=
  match a with
  | .par a => Smr.call B t (onParsec a, clk) = some t'
  | .alloc _ _ _ => t' = t
  | .free c m o => Smr.call B t (.smrFree c m (Nat.pair o.blk o.off), clk) = some t'

/-- An object that a core frees while others, or it itself, are inside a section. -/
theorem Sheltered.free (hB : ∀ m, Backing (g m) (f m) (A m) (K m)) (hfit : Fits N B g)
    (hP : ParInv B g K s cont) (h : Sheltered s cont) {c : Fin N} {m : M} {o : Obj}
    (ho : s.live m o = true) (hrun : memptrFree g f clk s c m o = some s') :
    ∃ cont', ParInv B g K s' cont' ∧ Sheltered s' cont' ∧
      Carries B (s.calls cont) (s'.calls cont') (.free c m o : Op N M ι) clk := by
  obtain ⟨w, cont', l, hmem, hlive, hseen, hsect, hP', hcall, hq, hl⟩ :=
    memptrFree_spec hB hfit hP ho hrun
  refine ⟨_, hP', fun c' d m' o' hd ho' => ?_, hcall⟩
  rw [hsect] at hd
  rw [hseen] at ho'
  rw [hlive, hmem]
  have hlt : d < clk.read s.ps.clock := hP.sect_lt hd
  by_cases hm : m' = m
  swap
  · rw [put_ne hm, update_of_ne hm, update_of_ne hm]
    exact h c' d m' o' hd ho'
  subst hm
  rw [update_self, update_self, put_self]
  have hI := hP.inv m'
  have hne : ∀ c'', ∀ a ∈ cont m' (.queue c''), a ≠ o := by
    rintro c'' a ha rfl
    exact hI.members.off a ho _ ha
  -- nothing that was freed after `d` is taken from the queue
  have hleft : ∀ a ∈ queued (cont m') c o,
      d < update (s.mem m').tscFree o (clk.read s.ps.clock) a → a ∈ cont' (.queue c) := by
    intro a ha hda
    rw [hq.self]
    rcases hl with rfl | ⟨qsc, hqsc, rfl⟩
    · exact ha
    · exact mem_drop_reclaimable ha ((hqsc c' d hd).trans_lt hda)
  have hon : ∀ a, a ∈ cont' (.queue c) →
      d < update (s.mem m').tscFree o (clk.read s.ps.clock) a →
      ∃ c'', a ∈ cont' (.queue c'') ∧ d < w.tscFree a := fun a ha hda =>
    ⟨c, ha, by rwa [hq.tscFree c a ha]⟩
  by_cases hoo : o' = o
  · subst hoo
    have hts : d < update (s.mem m').tscFree o' (clk.read s.ps.clock) o' := by rwa [update_self]
    exact .inr (hon o' (hleft o' (List.mem_append_right _ (List.mem_singleton_self o')) hts) hts)
  · rw [update_of_ne hoo]
    refine (h c' d m' o' hd ho').imp_right ?_
    rintro ⟨c'', hc'', hda⟩
    have hts : d < update (s.mem m').tscFree o (clk.read s.ps.clock) o' := by
      rwa [update_of_ne hoo]
    by_cases hcc : c'' = c
    · subst hcc
      exact hon o' (hleft o' (List.mem_append_left _ hc'') hts) hts
    · refine ⟨c'', (hq.queue c'' hcc).symm ▸ hc'', ?_⟩
      rwa [hq.tscFree c'' o' ((hq.queue c'' hcc).symm ▸ hc'')]

/-- **A call keeps the invariant**, and what is sheltered. -/
theorem exists_step (hB : ∀ m, Backing (g m) (f m) (A m) (K m)) (hfit : Fits N B g)
    (hP : ParInv B g K s cont) (h : Sheltered s cont) {a : Op N M ι × Smr.Clock}
    (hok : Ok g f A s a) (hs : step g f s a = some s') :
    ∃ cont', ParInv B g K s' cont' ∧ Sheltered s' cont' ∧
      Carries B (s.calls cont) (s'.calls cont') a.1 a.2 := by
  obtain ⟨a, clk⟩ := a
  cases a with
  | par a =>
      obtain ⟨ps, hps, rfl⟩ := Option.map_eq_some_iff.mp hs
      exact ⟨cont, ⟨hP.inv, hP.supply, hP.ps, hP.calls.step (a := (onParsec a, clk)) trivial
        (call_attach hps)⟩, h.par hps, call_attach hps⟩
  | alloc c m i =>
      have hc : (c : ℕ) < (g m).numCores := (hfit.cores m).symm ▸ c.isLt
      obtain ⟨⟨r, w⟩, hrun, rfl⟩ := Option.map_eq_some_iff.mp hs
      rcases memAlloc_spec (hB m) (hfit.count m) hc (hP.inv m) (hP.supply m) hok hrun with
        ⟨rfl, cont', hI, hK, hq⟩ | ⟨o, cont', rfl, ho, hI, hK, hq⟩
      · refine ⟨_, hP.same rfl (fun _ _ => rfl) hI hK rfl hq, fun c' d m' o hd ho => ?_,
          calls_same rfl rfl hq⟩
        refine (h c' d m' o hd ho).imp_right ?_
        rintro ⟨c'', hc'', hlt⟩
        exact ⟨c'', shelter_same hq hc'' hlt⟩
      · refine ⟨_, hP.same rfl (fun m' hm => put_ne hm ..) ?_ hK rfl hq, fun c' d m' o' hd ho' => ?_,
          calls_same rfl rfl hq⟩
        · show Inv (g m) w _ _ {a | put s.live m o true m a = true} cont'
          rw [put_self, setOf_update_true]
          exact hI
        · show put s.live m o true m' o' = true ∨ _
          have ho' : put (s.seen c') m o true m' o' = true := ho'
          by_cases he : m' = m ∧ o' = o
          · obtain ⟨rfl, rfl⟩ := he
            rw [put_self, update_self]
            exact .inl rfl
          · rw [put_of_ne he] at ho' ⊢
            refine (h c' d m' o' hd ho').imp_right ?_
            rintro ⟨c'', hc'', hlt⟩
            exact ⟨c'', shelter_same hq hc'' hlt⟩
  | free c m o => exact h.free hB hfit hP hok hs

/-- The start. -/
theorem parInv_init (hfit : Fits N B g) (h : (lts g f K).init s) :
    ParInv B g K s (fun _ _ => []) ∧ Sheltered s fun _ _ => [] := by
  obtain ⟨⟨now, hps⟩, hmem, hlive⟩ := h
  refine ⟨⟨fun m => ?_, fun m => (hmem m).2, fun m c hc => ?_, .init ⟨now, ?_⟩⟩, fun c d m o hd => ?_⟩
  · obtain ⟨⟨w, hw⟩, -⟩ := hmem m
    have hH : {o | s.live m o = true} = ∅ := by simp [hlive]
    rw [hH, hw]
    refine inv_new (fun _ => rfl) (fun _ => rfl) (fun _ => rfl) (fun _ => rfl) (fun _ => rfl)
      (fun _ => rfl) (fun _ => ite_self 0) (fun _ => rfl) fun c hc => ?_
    have hc : (if c < (g m).numCores then true else false) = true := hc
    show (g m).qlistBatch ≤ if c < (g m).numCores then (g m).qlistBatch else 0
    split_ifs at hc ⊢
    exact le_rfl
  · obtain ⟨⟨w, hw⟩, -⟩ := hmem m
    rw [hw]
    exact if_pos ((hfit.cores m).symm ▸ hc)
  · unfold St.calls attach Smr.psInit
    rw [hps]
    refine congrArg (Smr.St.mk now _ _ · _ _) (funext fun m => funext fun c => ?_)
    obtain ⟨⟨w, hw⟩, -⟩ := hmem m
    have hc : (c : ℕ) < (g m).numCores := (hfit.cores m).symm ▸ c.isLt
    simp [smrInfo, hw, memptrInit, slabptrInit, hc, hfit.batch m]
  · rw [hps] at hd
    cases hd

/-- **Every run keeps the invariant.** -/
theorem exists_parInv (hB : ∀ m, Backing (g m) (f m) (A m) (K m)) (hfit : Fits N B g)
    (h : (lts g f K).Reach (Ok g f A) s) : ∃ cont, ParInv B g K s cont ∧ Sheltered s cont := by
  refine Lts.invariant (I := fun s => ∃ cont, ParInv B g K s cont ∧ Sheltered s cont)
    (fun s h₀ => ⟨_, parInv_init hfit h₀⟩) (fun s a s' hI hok hs => ?_) h
  obtain ⟨cont, hP, hS⟩ := hI
  obtain ⟨cont', hP', hS', -⟩ := exists_step hB hfit hP hS hok hs
  exact ⟨cont', hP', hS'⟩

/-! ## The results -/

/-- The state of the protocol that the memories and their parsec stand for: the lists are those that
the links of the queues lead along. -/
structure Implements (s : St N M ε) (t : Smr.St N M) : Prop where
  clock : t.clock = s.ps.clock
  timing : t.timing = s.ps.timing
  timingOthers : t.timingOthers = s.ps.timingOthers
  sect : t.sect = s.ps.sect
  pc : t.pc = fun _ => .idle
  queue : ∀ m (c : Fin N), ∃ l, OnQueue (s.mem m) c l ∧
    t.smrInfo m c = ⟨l.map (item (s.mem m).tscFree), (s.mem m).qmemcnt c, (s.mem m).qmemtarget c⟩

/-- The queue of a core, from the invariant. -/
theorem ParInv.onQueue (h : ParInv B g K s cont) (m : M) (c : ℕ) :
    OnQueue (s.mem m) c (cont m (.queue c)) :=
  ⟨(h.inv m).chains.chain (.queue c), (h.inv m).counters.tail c⟩

/-- What a state implements is the parsec with the queues of its memories. -/
theorem ParInv.implements_iff (h : ParInv B g K s cont) {t : Smr.St N M} :
    Implements s t ↔ t = s.calls cont := by
  constructor
  · intro ht
    obtain ⟨h₁, h₂, h₃, h₄, h₅, hq⟩ := ht
    have hqueue : t.smrInfo = s.queues cont := by
      funext m c
      obtain ⟨l, hl, he⟩ := hq m c
      rw [he, hl.1.unique (h.onQueue m c).1]
      rfl
    cases t
    subst h₁ h₂ h₃ h₄ h₅ hqueue
    rfl
  · rintro rfl
    exact ⟨rfl, rfl, rfl, rfl, rfl, fun m c => ⟨_, h.onQueue m c, rfl⟩⟩

/-- Memories with the default functions for slab memory. -/
def memories (N : ℕ) (g : M → Geom) : Lts (St N M (List Ev)) (Op N M (Option (ℕ × ℕ)) × Smr.Clock) :=
  lts g (fun m => supplier (g m)) fun m => Logged (g m)

/-- What is relied on of their callers, and of what supplies them. -/
def Proper (N : ℕ) (g : M → Geom) (s : St N M (List Ev))
    (a : Op N M (Option (ℕ × ℕ)) × Smr.Clock) : Prop :=
  Ok g (fun m => supplier (g m)) (fun _ w _ => Unused w) s a

/-- **The memories carry out the parsec protocol**: a run of theirs is a run of its calls, and so is
every call that goes on from there. -/
theorem simulates {s : St N M (List Ev)} (hfit : Fits N B g)
    (h : (memories N g).Reach (Proper N g) s) :
    ∃ t, (Smr.calls N M B).Reach (fun _ _ => True) t ∧ Implements s t ∧
      ∀ a s', Proper N g s a → (memories N g).step s a = some s' →
        ∃ t', Implements s' t' ∧ Carries B t t' a.1 a.2 := by
  have hB := fun m => backing_supplier (g m)
  obtain ⟨cont, hP, hS⟩ := exists_parInv hB hfit h
  refine ⟨s.calls cont, hP.calls, hP.implements_iff.mpr rfl, fun a s' hok hs => ?_⟩
  obtain ⟨cont', hP', -, hc⟩ := exists_step hB hfit hP hS hok hs
  exact ⟨_, hP'.implements_iff.mpr rfl, hc⟩

/-- An object stays: it is live, or on a queue of its memory; its slab is in use; and no core is
handed it. -/
structure Stays (g : M → Geom) (s : St N M (List Ev)) (m : M) (o : Obj) : Prop where
  somewhere : s.live m o = true ∨ ∃ c l, OnQueue (s.mem m) c l ∧ o ∈ l
  slab : ∃ sl, InSlab (g m) (s.mem m) sl o
  not_given : ∀ c i clk o' w, Proper N g s (.alloc c m i, clk) →
    memAlloc (g m) (supplier (g m)) (s.mem m) c i = some (some o', w) → o' ≠ o

omit [DecidableEq M] in
/-- An object that is allocated was neither held nor on a queue. -/
theorem memAlloc_ne {g : Geom} {f : Fns ε ι} {A : World ε → ℕ → ι → Prop} {K : World ε → Prop}
    {w w' : World ε} {P : ℕ → Prop} {H : Set Obj} {cont : Key → List Obj} {c : ℕ} {i : ι} {o o' : Obj}
    (hB : Backing g f A K) (hfit : CountFits g) (hc : c < g.numCores)
    (hI : Inv g w P (fun _ => none) H cont) (hK : K w)
    (hA : ∀ w₁, allocPrep g f w c = some w₁ → w₁.flist c = none → A w₁ c i)
    (hrun : memAlloc g f w c i = some (some o', w')) (ho : o ∈ H ∨ ∃ c', o ∈ cont (.queue c')) :
    o' ≠ o := by
  rintro rfl
  rcases memAlloc_spec hB hfit hc hI hK hA hrun with
    ⟨hr, -⟩ | ⟨o₁, cont₁, hr, hoff, hI₁, -, hq⟩ <;> cases hr
  rcases ho with ho | ⟨c', ho⟩
  · exact hoff ho
  · exact hI₁.members.off o' (Set.mem_insert o' H) (.queue c') ((hq.queue c').symm ▸ ho)

/-- **What a section refers to stays**: along every run, an object that has been live since a core
entered the section it is inside. -/
theorem stays_of_reach {s : St N M (List Ev)} (hfit : Fits N B g)
    (h : (memories N g).Reach (Proper N g) s) {c : Fin N} {d : ℕ} {m : M} {o : Obj}
    (hc : s.ps.sect c = some d) (ho : s.seen c m o = true) : Stays g s m o := by
  have hB := fun m => backing_supplier (g m)
  obtain ⟨cont, hP, hS⟩ := exists_parInv hB hfit h
  have hI := hP.inv m
  have hat := (hS c d m o hc ho).imp_right fun ⟨c', h, _⟩ => (⟨c', h⟩ : ∃ c', o ∈ cont m (.queue c'))
  refine ⟨hat.imp_right fun ⟨c', h⟩ => ⟨c', _, hP.onQueue m c', h⟩, ?_, ?_⟩
  · exact hI.members.exists_inSlab (hat.imp_right fun ⟨c', hq⟩ => ⟨_, hq⟩)
  · intro c' i clk o' w hok hrun
    have hc' : (c' : ℕ) < (g m).numCores := (hfit.cores m).symm ▸ c'.isLt
    exact memAlloc_ne (hB m) (hfit.count m) hc' hI (hP.supply m) hok hrun hat

/-! ## On two cores of a machine with four -/

/-- The default pages fit. -/
theorem fits_page : Fits 4 128 fun _ : Unit => page :=
  ⟨fun _ => rfl, fun _ => rfl, fun _ => .inl (by rw [nobjs_page]; decide)⟩

/-- While core 0 is inside a section, core 1 allocates an object, and frees it. -/
theorem exists_waiting : ∃ s, (memories 4 fun _ : Unit => page).Reach (Proper 4 fun _ => page) s ∧
    s.ps.sect 0 = some 6 ∧ s.seen 0 () (page.obj 0 0) = true ∧
    s.live () (page.obj 0 0) = false := by
  have hB := backing_supplier page
  have hM : MemInv page (fun _ => True) (start page) fun _ => [] := memInv_init (start_init page)
  obtain ⟨s₁, hs₁⟩ : ∃ s₁ : St 4 Unit (List Ev), s₁ =
    { ps := (((Smr.psInit 4 Empty 1 5).setClock 6).setTiming 0 ⟨6, 6, 5⟩).setSect 0 (some 6)
      mem := fun _ => (start page).w
      live := fun _ _ => false
      seen := update (fun _ _ _ => false) 0 fun _ _ => false } := ⟨_, rfl⟩
  have h₁ : (memories 4 fun _ : Unit => page).Reach (Proper 4 fun _ => page) s₁ := by
    refine Lts.Reach.step (s := { ps := Smr.psInit 4 Empty 1 5, mem := fun _ => (start page).w
                                  live := fun _ _ => false, seen := fun _ _ _ => false })
      (a := (.par (.enter 0), .ticks)) (.init ⟨⟨5, rfl⟩, fun _ => ⟨⟨_, rfl⟩, hM.log⟩, fun _ _ => rfl⟩)
      trivial ?_
    rw [hs₁]
    rfl
  -- the allocation
  obtain ⟨w, hrun, hI, hlog, hq, -⟩ := memAlloc_new 0 0 hM.inv hM.log (c := 1) (by decide)
    (fun _ => rfl) rfl fun s b _ => ⟨rfl, fun s' h => by cases h⟩
  have hmem : s₁.mem () = (start page).w := by rw [hs₁]
  obtain ⟨s₂, hs₂⟩ : ∃ s₂ : St 4 Unit (List Ev), s₂ = { s₁ with
    mem := update s₁.mem () w
    live := put s₁.live () (page.obj 0 0) true
    seen := fun c' => put (s₁.seen c') () (page.obj 0 0) true } := ⟨_, rfl⟩
  have h₂ : (memories 4 fun _ : Unit => page).Reach (Proper 4 fun _ => page) s₂ := by
    refine h₁.step (a := (.alloc 1 () (some (0, 0)), .ticks)) (fun w₁ hprep _ sl b _ => ?_) ?_
    · obtain ⟨n, t, hprep', -⟩ := allocPrep_idle (g := page) (f := supplier page) (c := 1)
        (w := (start page).w) (fun _ => rfl) (hM.inv.counters.token 1)
      rw [hmem] at hprep
      rw [Option.some.inj (hprep.symm.trans hprep')]
      exact ⟨rfl, fun s' h => by cases h⟩
    · rw [hs₂]
      show Option.map _ (memAlloc page.toShape (supplier page) (s₁.mem ()) 1 (some (0, 0))) = _
      rw [hmem, hrun]
      rfl
  -- the free
  have ht : asksFor w (page.obj 0 0) (1 : Fin 4) 7 = none := by
    have hlt : ¬ w.qmemtarget (1 : Fin 4) ≤ (queued (fun _ => []) (1 : Fin 4) (page.obj 0 0)).length := by
      rw [hq.qmemtarget]
      decide
    rw [asksFor_eq hI (Set.mem_insert ..) (by decide) (fun _ _ => .inr trivial) (by decide)]
    exact if_neg hlt
  obtain ⟨w', -, hfree, -⟩ := smrFree_spec hB (fits_page.count ()) hI hlog (Set.mem_insert ..)
    (c := (1 : Fin 4)) (by decide) (fun _ _ => .inr trivial) (by decide : 7 ≠ 0) (by rw [hq.ps]; rfl) 0 false
  have hfree' : memptrFree (fun _ => page) (fun _ => supplier page) .ticks s₂ 1 () (page.obj 0 0) =
      some { s₂ with ps := s₂.ps.setClock 7, mem := update s₂.mem () w'
                     live := put s₂.live () (page.obj 0 0) false } := by
    have hw : s₂.mem () = w := by rw [hs₂]; exact update_self () w s₁.mem
    have hclk : Smr.Clock.ticks.read s₂.ps.clock = 7 := by rw [hs₂, hs₁]; rfl
    unfold memptrFree
    rw [hclk, hw]
    simp only [ht, ask, Option.bind_eq_bind, Option.bind_some, hfree]
  have hlive : s₂.live () (page.obj 0 0) = true := by
    rw [hs₂]
    exact put_same s₁.live () (page.obj 0 0) true
  have hseen : s₂.seen 0 () (page.obj 0 0) = true := by
    rw [hs₂]
    exact put_same (s₁.seen 0) () (page.obj 0 0) true
  have hsect : s₂.ps.sect 0 = some 6 := by
    rw [hs₂, hs₁]
    rfl
  exact ⟨_, h₂.step (a := (.free 1 () (page.obj 0 0), .ticks)) hlive hfree', hsect, hseen,
    put_same s₂.live () (page.obj 0 0) false⟩

/-- There the object stays. -/
theorem stays_page : ∃ s, (memories 4 fun _ : Unit => page).Reach (Proper 4 fun _ => page) s ∧
    s.live () (page.obj 0 0) = false ∧ Stays (fun _ => page) s () (page.obj 0 0) := by
  obtain ⟨s, hs, hd, ho, hl⟩ := exists_waiting
  exact ⟨s, hs, hl, stays_of_reach fits_page hs hd ho⟩

/-- The protocol is carried out there. -/
theorem simulates_page : ∃ s, (memories 4 fun _ : Unit => page).Reach (Proper 4 fun _ => page) s ∧
    s.live () (page.obj 0 0) = false ∧
    ∃ t, (Smr.calls 4 Unit 128).Reach (fun _ _ => True) t ∧ Implements s t ∧
      ∀ a s', Proper 4 (fun _ => page) s a → (memories 4 fun _ => page).step s a = some s' →
        ∃ t', Implements s' t' ∧ Carries 128 t t' a.1 a.2 := by
  obtain ⟨s, hs, -, -, hl⟩ := exists_waiting
  exact ⟨s, hs, hl, simulates fits_page hs⟩

end Parsec.Parslab
