import Parsec.Ertrie.Map
import Parsec.Nsptr.Slots
import Parsec.Slab.Frame

/-!
# Namespaces over whole runs

The invariant along the runs of any number of namespaces that share the allocator of headers: in each
namespace that of the slab allocator, with what backs its slabs; and that no header is of two
namespaces.

* `backing` — `ps_slab_nsalloc` and `ps_slab_nsfree` are what the slab allocator relies on.
* `NsInv` — the invariant of one namespace; `NsInv.step` is its step lemma, for whatever else is kept
  of what backs the slabs.
* `Backs` — what is relied on in all namespaces, and kept there besides.
* `SysInv` — the invariant of all of them, with `exists_sysInv` for runs.
-/

namespace Parsec.Nsptr

open Function Ertrie Ns Slab Lib

/-! ## What the slab allocator is given -/

section Supply

variable {p : Params} {w w' : World NsEnv} {A : World NsEnv → ℕ → Oracle → Prop}
  {K : World NsEnv → Prop} {S : Set ℕ} {c : ℕ} {o : Oracle}

/-- An allocation of a slab that is requested, and in which no assertion fails. -/
structure Asked (p : Params) (w : World NsEnv) (c : ℕ) (o : Oracle) : Prop extends
    Requested p w c o where
  runs : nsalloc p w p.slab.allocsz c o ≠ none

/-- What backs the slabs is about the environment, and the headers of slabs. -/
theorem Backed.congr (hw : SameEnv w w') (hK : Backed p w) : Backed p w' := by
  have hown : ∀ {s}, Owned w' s → Owned w s := by
    intro s h
    unfold Owned at *
    rwa [hw.slabs, hw.env] at h
  refine hK.change (congrArg _ hw.env) (congrArg _ hw.env) hw.slabs (hw.env ▸ .refl _)
    (fun s _ => congrFun hw.memory s) (fun s _ => congrFun hw.start s)
    (fun s _ => congrFun hw.end_ s) (hw.env ▸ hK.heads) (fun s h => ?_) (hw.env ▸ hK.frontier)
  rw [hw.env]
  exact hK.held s (hown h)

/-- **The two functions are what the slab allocator relies on**, where no assertion fails. -/
theorem backing (p : Params) : Backing p.slab (fns p) (Asked p) (Backed p) := by
  constructor
  · exact Backed.congr
  · intro w s sz c hK hE
    obtain ⟨w', hrun, hU, hK', -⟩ := nsfree_spec hK hE.slabs sz c
    exact ⟨w', hrun, hU, hK'⟩
  · intro w sz c o hK hA
    obtain ⟨⟨r, w'⟩, hrun⟩ := Option.ne_none_iff_exists'.mp hA.runs
    obtain ⟨hU, hr⟩ := nsalloc_spec hK hA.toRequested hrun
    refine ⟨r, w', hrun, hU, ?_⟩
    cases r with
    | none => exact hr
    | some s => exact hr

/-- What is relied on, where nothing else is kept. -/
theorem backing_true (p : Params) :
    Backing p.slab (fns p) (Asked p) fun w => Backed p w ∧ True := by
  refine (backing p).and (fun _ _ h => h) (fun _ _ => trivial) (fun _ _ _ _ => trivial) ?_
  intro w w' sz c o r _ _ _ _
  cases r <;> trivial

/-- What holds of the headers of a namespace stays, as no others come to it. -/
theorem within_nsfree (hK : Backed p w) {s : ℕ} (sz c : ℕ) (hs : w.slabs s = true)
    (hrun : nsfree p { w with slabs := update w.slabs s false } s sz c = some w')
    (hS : Within w S) : Within w' S := by
  obtain ⟨w'', hrun', -, -, hfl, hheads, -, hsl, -⟩ := nsfree_spec hK hs sz c
  obtain rfl : w'' = w' := Option.some.inj (hrun'.symm.trans hrun)
  rintro s' ((h | h) | h)
  · rw [hsl] at h
    exact hS s' (.inl (.inl (update_false_iff.mp h).2))
  · rw [hfl, (flAdd_perm w.env.fl s).mem_iff] at h
    rcases List.mem_cons.mp h with rfl | h
    · exact hS s' (.inl (.inl hs))
    · exact hS s' (.inl (.inr h))
  · rw [hheads] at h
    exact hS s' (.inr h)

/-- A header that is taken is one of the namespace's, or of those that are not allocated. -/
theorem HeaderStep.within {x : Option (ℕ × Option ℕ)} (hS : Within w S)
    (h : HeaderStep p w c o x w') : Within w' S ∧ ∀ s new, x = some (s, new) → s ∈ S := by
  cases h with
  | pop s fl hfl =>
      refine ⟨?_, fun s' new he => ?_⟩
      · rintro s' ((h | h) | h)
        · exact hS s' (.inl (.inl h))
        · exact hS s' (.inl (.inr (hfl ▸ List.mem_cons_of_mem _ h)))
        · exact hS s' (.inr h)
      · cases he
        exact hS s (.inl (.inr (hfl ▸ List.mem_cons_self)))
  | none h _ _ _ hheld =>
      refine ⟨?_, fun s' new he => by cases he⟩
      rintro s' ((ho | ho) | ho)
      · exact hS s' (.inl (.inl ho))
      · exact hS s' (.inl (.inr ho))
      · refine hS s' (.inr fun hs => ho ?_)
        show h.held (headObj s') = true
        rw [hheld]
        exact hs
  | new s left h _ _ _ _ hs hheld =>
      refine ⟨?_, fun s' new he => ?_⟩
      · rintro s' ((ho | ho) | ho)
        · exact hS s' (.inl (.inl ho))
        · exact hS s' (.inl (.inr ho))
        · refine hS s' (.inr fun hs' => ho ?_)
          show h.held (headObj s') = true
          rw [hheld, update_apply]
          split
          · rfl
          · exact hs'
      · cases he
        exact hS s (.inr hs)

/-- The headers after one has been freed that was taken. -/
theorem within_givenBack {s : ℕ} {h : Heads} (hS : Within w S) (hs : s ∈ S)
    (hG : GivenBack p w s c h) (new : Option ℕ) :
    Within (resetFrontier p (setHeads w h) new) S := by
  intro s' ho
  unfold Owned at ho
  rw [heads_resetFrontier, fl_resetFrontier, slabs_resetFrontier] at ho
  rcases ho with ho | ho
  · exact hS s' (.inl ho)
  · by_cases he : s' = s
    · exact he ▸ hs
    · refine hS s' (.inr fun hs' => ho ?_)
      show h.held (headObj s') = true
      rw [hG.held, update_of_ne fun he' => he (headObj_inj he')]
      exact hs'

/-- The headers after an allocation of a slab, the one that it returns included. -/
theorem within_nsalloc {r : Option ℕ} (sz : ℕ) (hK : Backed p w) (hR : Requested p w c o)
    (hS : Within w S) (hrun : nsalloc p w sz c o = some (r, w')) :
    Within w' S ∧ ∀ s, r = some s → s ∈ S := by
  rcases nsalloc_cases hrun with ⟨rfl, htake⟩ | ⟨s, new, w₁, htake, hback⟩
  · exact ⟨((hK.headerStep hR htake).within hS).1, fun s he => by cases he⟩
  have hstep := hK.headerStep hR htake
  obtain ⟨hS₁, hs⟩ := hstep.within hS
  have hs := hs s new rfl
  have hT := hstep.taken hK
  have hfree : ∀ w₂ : World NsEnv, w₂.env.heads = w₁.env.heads → w₂.env.fl = w₁.env.fl →
      w₂.slabs = w₁.slabs → freeSlab p w₂ s new c = some w' → Within w' S := by
    intro w₂ hh hf hsl hfree
    have hS₂ : Within w₂ S := by
      unfold Within Owned
      rw [hh, hf, hsl]
      exact hS₁
    obtain ⟨h, hrun', hG⟩ := exists_givenBack (w := w₂) (hh ▸ hT.backed.heads) hR.core
      (hh ▸ hT.held) new
    obtain rfl := Option.some.inj (hrun'.symm.trans hfree)
    exact within_givenBack hS₂ hs hG new
  obtain ⟨-, ⟨-, rfl, hf⟩ | ⟨b, z, mem, -, -, -, ⟨-, rfl, hf⟩ | ⟨-, rfl, rfl, -⟩⟩⟩ :=
    backHeader_cases hback
  · exact ⟨hfree w₁ rfl rfl rfl hf, fun s he => by cases he⟩
  · exact ⟨hfree (linked w₁ s b mem) rfl rfl rfl hf, fun s he => by cases he⟩
  · refine ⟨hS₁, fun s' he => ?_⟩
    cases he
    exact hs

/-- The headers of a namespace stay in `S`, whatever else is kept. -/
theorem backing_within (hB : Backing p.slab (fns p) A K) (hA : ∀ w c o, A w c o → Requested p w c o)
    (hK : ∀ w, K w → Backed p w) (S : Set ℕ) :
    Backing p.slab (fns p) A fun w => K w ∧ Within w S := by
  refine hB.and (fun _ _ h => h) ?_ ?_ ?_
  · intro w w' hw hS s h
    unfold Owned at h
    rw [hw.slabs, hw.env] at h
    exact hS s h
  · intro w w' s sz c hk hS hE hrun
    exact within_nsfree (hK w hk) sz c hE.slabs hrun hS
  · intro w w' sz c o r hk hS ho hrun
    obtain ⟨hS', hr⟩ := within_nsalloc sz (hK w hk) (hA w c o ho) hS hrun
    cases r with
    | none => exact hS'
    | some s =>
        rintro s' ((h | h) | h)
        · have h : update w'.slabs s true s' = true := h
          by_cases he : s' = s
          · exact he ▸ hr s rfl
          · rw [update_of_ne he] at h
            exact hS' s' (.inl (.inl h))
        · exact hS' s' (.inl (.inr h))
        · exact hS' s' (.inr h)

end Supply

/-! ## One namespace -/

section Namespace

variable {p : Params} {A : World NsEnv → ℕ → Oracle → Prop} {K : World NsEnv → Prop} {Q : ℕ → Prop}
  {n n' : NsSt} {cont : Key → List Obj} {op : Op}

/-- **The invariant of a namespace.** `K` is what is kept of what backs its slabs, and `Q` says which
cores free slots of other cores. -/
structure NsInv (p : Params) (Q : ℕ → Prop) (K : World NsEnv → Prop) (n : NsSt)
    (cont : Key → List Obj) : Prop where
  inv : Inv p.slab n.w Q (fun _ => none) {a | n.live a = true} cont
  supply : K n.w
  ps : p.deferred = true → ∀ c < p.numCores, n.w.ps c = true
  desc : ∀ a, n.live a = true → nsDesc p n.w a = some (n.desc a)
  freed : ∀ a, n.live a = true → n.freed (n.desc a) = false
  freed_lt : ∀ d, n.freed d = true → d < p.ert.descMax

/-- What an allocation of a slab is relied on for, if the call asks for one. -/
def AtCall (p : Params) (A : World NsEnv → ℕ → Oracle → Prop) (n : NsSt) : Op → Prop
  | .alloc c o => AtSlab p n.w c fun w => A w c o
  | .free _ _ _ | .freedesc _ _ _ | .lkup _ => True

/-- A slot that is freed is of a slab of the core that frees it, unless that core is one with `Q`. -/
def FreedOn (p : Params) (Q : ℕ → Prop) (n : NsSt) : Op → Prop
  | .free c a _ => ∀ s, InSlab p.slab n.w s a → n.w.coreid s = c ∨ Q c
  | .freedesc c d _ => ∀ a, n.live a = true → n.desc a = d → ∀ s, InSlab p.slab n.w s a →
      n.w.coreid s = c ∨ Q c
  | .alloc _ _ | .lkup _ => True

/-- A descriptor that is freed has a live slot, or none. -/
def Sound (p : Params) (n : NsSt) : Op → Prop
  | .freedesc c d t => Addressable p ∧ n.Proper p (.freedesc c d t)
  | .alloc _ _ | .free _ _ _ | .lkup _ => True

/-- The slots of a slab fit in its counter. -/
theorem countFits (p : Params) : CountFits p.slab := .inl p.nobjs_lt

namespace NsInv

variable (hN : NsInv p Q K n cont) (hK : ∀ w, K w → Backed p w)

include hN hK

/-- A live slot has a place, which its descriptor tells. -/
theorem slot {a : Obj} (ha : n.live a = true) :
    ∃ s k, SlotOf p n.w s k a ∧ n.desc a = n.w.start s + k := by
  obtain ⟨s, hs⟩ := (hN.inv.members.held a ha).inSlab
  obtain ⟨k, hk⟩ := inSlab_iff.mp hs
  refine ⟨s, k, hk, ?_⟩
  have he := nsDesc_eq (hK _ hN.supply) (hN.inv.slabs.slab s a hs) hk
  exact Option.some.inj ((hN.desc a ha).symm.trans he)

/-- Live slots have different descriptors. -/
theorem inj {a a' : Obj} (ha : n.live a = true) (ha' : n.live a' = true)
    (he : n.desc a = n.desc a') : a = a' := by
  obtain ⟨s, k, hk, hd⟩ := hN.slot hK ha
  obtain ⟨s', k', hk', hd'⟩ := hN.slot hK ha'
  exact desc_inj (hK _ hN.supply) hk hk' (by omega)

/-- The descriptor of a live slot is what it was, in a world where its slab stays. -/
theorem desc_steady {w : World NsEnv} {H : Set Obj} {cont' : Key → List Obj}
    (hI : Inv p.slab w Q (fun _ => none) H cont') (hw : K w) {H' : Set Obj}
    (hS : Steady p.slab n.w w H') {a : Obj} (ha : n.live a = true) (ha' : a ∈ H') :
    nsDesc p w a = some (n.desc a) := by
  obtain ⟨s, k, hk, hd⟩ := hN.slot hK ha
  obtain ⟨hs, hstart⟩ := hS a ha' s hk.inSlab
  obtain ⟨k', hk'⟩ := inSlab_iff.mp hs
  obtain ⟨hu, hlt, b, hb, rfl⟩ := id hk
  have he := nsDesc_eq (hK _ hw) (hI.slabs.slab s _ hs) hk'
  obtain ⟨-, -, b', -, hobj⟩ := id hk'
  obtain ⟨-, hmul⟩ := Obj.mk.inj hobj
  have hkk : k = k' := Nat.eq_of_mul_eq_mul_right p.stride_pos hmul
  rw [he, hd, hstart, hkk]

/-- A slot has been freed. -/
theorem release {w : World NsEnv} {cont' : Key → List Obj} {a : Obj}
    (hI : Inv p.slab w Q (fun _ => none) ({a | n.live a = true} \ {a}) cont') (hw : K w)
    (hps : w.ps = n.w.ps) (hS : Steady p.slab n.w w ({a | n.live a = true} \ {a}))
    (ha : n.live a = true) : NsInv p Q K (n.release a (n.desc a) w) cont' := by
  have hlive : ∀ {a'}, update n.live a false a' = true → n.live a' = true ∧ a' ≠ a := by
    intro a' h
    by_cases he : a' = a
    · rw [he, update_self] at h
      cases h
    · rw [update_of_ne he] at h
      exact ⟨h, he⟩
  refine ⟨?_, hw, fun hd c hc => ?_, fun a' h => ?_, fun a' h => ?_, fun d h => ?_⟩
  · show Inv p.slab w Q _ {a' | update n.live a false a' = true} cont'
    rw [setOf_update_false]
    exact hI
  · exact (congrFun hps c).trans (hN.ps hd c hc)
  · obtain ⟨h, hne⟩ := hlive h
    exact hN.desc_steady hK hI hw hS h ⟨h, hne⟩
  · obtain ⟨h, hne⟩ := hlive h
    show update n.freed (n.desc a) true (n.desc a') = false
    rw [update_of_ne fun he => hne (hN.inj hK h ha he)]
    exact hN.freed a' h
  · have h : update n.freed (n.desc a) true d = true := h
    by_cases he : d = n.desc a
    · obtain ⟨s, k, hk, hd⟩ := hN.slot hK ha
      rw [he, hd]
      exact hk.lt (hK _ hN.supply)
    · rw [update_of_ne he] at h
      exact hN.freed_lt d h

/-- The free of a live slot. -/
theorem nsptrFree_spec (hB : Backing p.slab (fns p) A K) {a : Obj} {c : ℕ} {t : Time}
    (hc : c < p.numCores) (ha : n.live a = true) (ht : t.tsc ≠ 0)
    (hP : ∀ s, InSlab p.slab n.w s a → n.w.coreid s = c ∨ Q c) :
    ∃ w cont', nsptrFree p n.w a c t = some w ∧ NsInv p Q K (n.release a (n.desc a) w) cont' := by
  unfold nsptrFree
  by_cases hd : p.deferred = true
  · rw [if_pos hd]
    obtain ⟨w, cont', hrun, hI, hw, hps, hS⟩ := smrFree_steady hB (countFits p) hN.inv hN.supply ha hc
      hP ht (hN.ps hd c hc) t.qsc t.busy
    exact ⟨w, cont', hrun, hN.release hK hI hw hps hS ha⟩
  · rw [if_neg hd]
    obtain ⟨w, cont', hrun, hI, hw, hps, hS⟩ := memFree_steady hB (countFits p) hN.inv hN.supply ha hc
      hP
    exact ⟨w, cont', hrun, hN.release hK hI hw hps hS ha⟩

/-- The descriptor of a slot that has been allocated. -/
theorem exists_nsDesc (hB : Backing p.slab (fns p) A K) {c : ℕ} {o : Oracle} (hc : c < p.numCores)
    (hA : AtSlab p n.w c fun w => A w c o) {a : Obj} {w : World NsEnv}
    (hrun : memAlloc p.slab (fns p) n.w c o = some (some a, w)) :
    ∃ s k, SlotOf p w s k a ∧ nsDesc p w a = some (w.start s + k) := by
  rcases memAlloc_spec hB (countFits p) hc hN.inv hN.supply hA hrun with
    ⟨hr, -⟩ | ⟨a', cont', hr, -, hI, hw, -⟩ <;> cases hr
  obtain ⟨s, hs⟩ := (hI.members.held a (Set.mem_insert a _)).inSlab
  obtain ⟨k, hk⟩ := inSlab_iff.mp hs
  exact ⟨s, k, hk, nsDesc_eq (hK w hw) (hI.slabs.slab s a hs) hk⟩

/-- An allocation, which may return NULL. -/
theorem step_alloc (hB : Backing p.slab (fns p) A K) {c : ℕ} {o : Oracle} (hc : c < p.numCores)
    (hA : AtSlab p n.w c fun w => A w c o) (hstep : n.step p (.alloc c o) = some n') :
    ∃ cont', NsInv p Q K n' cont' := by
  obtain ⟨x, hx, rfl⟩ := Option.map_eq_some_iff.mp hstep
  obtain ⟨⟨r, w⟩, hrun, hx⟩ := Option.bind_eq_some_iff.mp hx
  have hS := memAlloc_steady hB (countFits p) hN.inv hN.supply hA hrun
  rcases memAlloc_spec hB (countFits p) hc hN.inv hN.supply hA hrun with
    ⟨rfl, cont', hI, hw, hq⟩ | ⟨a, cont', rfl, hoff, hI, hw, hq⟩
  · cases hx
    refine ⟨cont', hI, hw, ?_, fun a ha => ?_, hN.freed, hN.freed_lt⟩
    · exact fun hd c hc => (congrFun hq.ps c).trans (hN.ps hd c hc)
    · exact hN.desc_steady hK hI hw hS ha ha
  · obtain ⟨s, k, -, hd⟩ := hN.exists_nsDesc hK hB hc hA hrun
    have hlive : ∀ {a'}, update n.live a true a' = true → a' ≠ a → n.live a' = true := by
      intro a' h hne
      rwa [update_of_ne hne] at h
    simp only [hd, Option.map_some, Option.some.injEq] at hx
    subst hx
    refine ⟨cont', ?_, hw, ?_, fun a' h => ?_, fun a' h => ?_, fun d' h => ?_⟩
    · rw [← setOf_update_true] at hI
      exact hI
    · exact fun hd c hc => (congrFun hq.ps c).trans (hN.ps hd c hc)
    · show nsDesc p w a' = some (update n.desc a (w.start s + k) a')
      by_cases he : a' = a
      · rw [he, update_self, hd]
      · rw [update_of_ne he]
        exact hN.desc_steady hK hI hw hS (hlive h he) (hlive h he)
    · show update n.freed (w.start s + k) false (update n.desc a (w.start s + k) a') = false
      by_cases he : update n.desc a (w.start s + k) a' = w.start s + k
      · rw [he, update_self]
      · rw [update_of_ne he]
        have hne : a' ≠ a := fun h => he (by rw [h, update_self])
        rw [update_of_ne hne]
        exact hN.freed a' (hlive h hne)
    · have h : update n.freed (w.start s + k) false d' = true := h
      by_cases he : d' = w.start s + k
      · rw [he, update_self] at h
        cases h
      · rw [update_of_ne he] at h
        exact hN.freed_lt d' h

/-- A call that allocates nothing does not fail, and keeps the invariant. -/
theorem step_other (hB : Backing p.slab (fns p) A K) (hok : n.Ok p op) (hP : FreedOn p Q n op)
    (hD : Sound p n op) (hop : ∀ c o, op ≠ .alloc c o) :
    ∃ n' cont', n.step p op = some n' ∧ NsInv p Q K n' cont' := by
  cases op with
  | alloc c o => exact absurd rfl (hop c o)
  | free c a t =>
      obtain ⟨hc, ha, ht⟩ := hok
      obtain ⟨w, cont', hrun, hN'⟩ := hN.nsptrFree_spec hK hB hc ha ht hP
      exact ⟨_, cont', by simp only [NsSt.step, hrun, Option.map_some], hN'⟩
  | freedesc c d t =>
      obtain ⟨hc, hlt, ht⟩ := hok
      obtain ⟨hF, hlive⟩ := hD
      obtain ⟨r, hr⟩ := Option.ne_none_iff_exists'.mp (nsptrLkup_ne_none (hK _ hN.supply) hlt)
      rcases r with _ | a
      · refine ⟨n, cont, ?_, hN⟩
        simp only [NsSt.step, nsptrFreedesc, hr, Option.bind_eq_bind, Option.bind_some]
      · have ha := hlive a hr
        -- the slot that is found is the one of the descriptor
        have hd : n.desc a = d := by
          obtain ⟨s, k, hk, rfl, -⟩ := slot_of_lkup hF (hK _ hN.supply) hlt hr
          have he := nsDesc_eq (hK _ hN.supply) (hN.inv.slabs.slab s a hk.inSlab) hk
          exact Option.some.inj ((hN.desc a ha).symm.trans he)
        obtain ⟨w, cont', hrun, hN'⟩ := hN.nsptrFree_spec hK hB hc ha ht (hP a ha hd)
        rw [hd] at hN'
        refine ⟨_, cont', ?_, hN'⟩
        simp only [NsSt.step, nsptrFreedesc, hr, hrun, Option.bind_eq_bind, Option.bind_some]
  | lkup d =>
      obtain ⟨r, hr⟩ := Option.ne_none_iff_exists'.mp (nsptrLkup_ne_none (hK _ hN.supply) hok)
      exact ⟨n, cont, by simp only [NsSt.step, hr, Option.map_some], hN⟩

/-- **A call keeps the invariant.** -/
theorem step (hB : Backing p.slab (fns p) A K) (hok : n.Ok p op) (hA : AtCall p A n op)
    (hP : FreedOn p Q n op) (hD : Sound p n op) (hstep : n.step p op = some n') :
    ∃ cont', NsInv p Q K n' cont' := by
  by_cases hop : ∃ c o, op = .alloc c o
  · obtain ⟨c, o, rfl⟩ := hop
    exact hN.step_alloc hK hB hok.1 hA hstep
  · obtain ⟨n'', cont', hs, hN'⟩ := hN.step_other hK hB hok hP hD fun c o h => hop ⟨c, o, h⟩
    obtain rfl : n'' = n' := Option.some.inj (hs.symm.trans hstep)
    exact ⟨cont', hN'⟩

/-- **A call does not fail**, where the allocation of a slab does not and an allocation can count what
waits for its core. -/
theorem step_ne_none (hB : Backing p.slab (fns p) A K) (hok : n.Ok p op) (hA : AtCall p A n op)
    (hP : FreedOn p Q n op) (hD : Sound p n op) (hC : ∀ c o, op = .alloc c o → Counted n.w c) :
    n.step p op ≠ none := by
  by_cases hop : ∃ c o, op = .alloc c o
  · obtain ⟨c, o, rfl⟩ := hop
    obtain ⟨⟨r, w⟩, hrun⟩ := Option.ne_none_iff_exists'.mp
      (memAlloc_ne_none hB (countFits p) hok.1 hN.inv hN.supply hA (hC c o rfl))
    simp only [NsSt.step, nsptrAlloc, hrun, Option.bind_eq_bind, Option.bind_some]
    cases r with
    | none => simp
    | some a =>
        obtain ⟨s, k, -, hd⟩ := hN.exists_nsDesc hK hB hok.1 hA hrun
        simp [hd]
  · obtain ⟨n'', cont', hs, -⟩ := hN.step_other hK hB hok hP hD fun c o h => hop ⟨c, o, h⟩
    rw [hs]
    exact Option.some_ne_none _

end NsInv

/-- The calls of a run: what an allocation of a slab is relied on for is that it fails no assertion,
which is so where the call returns. -/
theorem atCall_asked (hok : n.Ok p op) (hstep : n.step p op = some n') : AtCall p (Asked p) n op := by
  cases op with
  | alloc c o =>
      intro w hprep hfl
      refine ⟨⟨hok.2 w hprep hfl, hok.1⟩, fun hnone => ?_⟩
      have hguard := objSz_le_allocsz p.slab
      have hnone : (fns p).afn w p.slab.allocsz c o = none := hnone
      simp only [NsSt.step, nsptrAlloc, memAlloc, if_pos hguard, hprep, hfl, hnone,
        Option.bind_eq_bind, Option.bind_some, Option.bind_none, Option.map_none] at hstep
      cases hstep
  | free c a t => trivial
  | freedesc c d t => trivial
  | lkup d => trivial

/-- The slabs of a new namespace: there are none. -/
theorem NsInit.slab (h : NsInit p n) :
    Inv p.slab n.w Q (fun _ => none) ∅ (fun _ => []) ∧ (∀ s, n.w.slabs s = false) ∧
      (p.deferred = true → ∀ c < p.numCores, n.w.ps c = true) := by
  obtain ⟨w, hw | ⟨hd, hw⟩⟩ := h.memory
  · rw [hw]
    refine ⟨inv_new (fun _ => rfl) (fun _ => rfl) (fun _ => rfl) (fun _ => rfl) (fun _ => rfl)
      (fun _ => rfl) (fun _ => ite_self 0) (fun _ => rfl) fun c hc => ?_, fun _ => rfl,
      fun _ c hc => if_pos hc⟩
    have hc : (if c < p.slab.numCores then true else false) = true := hc
    show p.slab.qlistBatch ≤ if c < p.slab.numCores then p.slab.qlistBatch else 0
    split_ifs at hc ⊢
    exact le_rfl
  · rw [hw]
    refine ⟨inv_new (fun _ => rfl) (fun _ => rfl) (fun _ => rfl) (fun _ => rfl) (fun _ => rfl)
      (fun _ => rfl) (fun _ => rfl) (fun _ => rfl) fun c hc => ?_, fun _ => rfl, fun h => ?_⟩
    · cases hc
    · rw [hd] at h
      cases h

/-- The trie of a new namespace holds no slabs, and there are no headers. -/
theorem NsInit.backed (h : NsInit p n) {hd : Heads} (hH : HeadsInv p hd) :
    Backed p (setHeads n.w hd) ∧ ∀ s, ¬ Owned n.w s := by
  obtain ⟨m, oks, hal⟩ := h.ert
  rw [ertAlloc_slabTrie] at hal
  obtain ⟨hR, hval⟩ := rep_of_ertAlloc hal
  obtain ⟨-, hsl, -⟩ := h.slab (Q := fun _ => True)
  have hown : ∀ s, ¬ Owned n.w s := by
    rintro s (hs | hs)
    · exact Bool.false_ne_true ((hsl s).symm.trans hs)
    · rw [h.fl] at hs
      cases hs
  refine ⟨⟨hR, fun s hs => absurd (.inl hs) (hown s), fun k _ hk => absurd (hval k) hk, ?_, ?_, ?_,
    ?_, ?_, ?_, hH, ?_, ?_⟩, hown⟩
  · show n.w.env.fl.Nodup
    rw [h.fl]
    exact List.nodup_nil
  · exact fun s hs => absurd (.inr hs) (hown s)
  · exact fun s hs => absurd hs (hown s)
  · exact fun s hs => absurd hs (hown s)
  · exact fun s hs => absurd hs (hown s)
  · exact fun s _ hs => absurd hs (hown s)
  · exact fun s hs => absurd hs (hown s)
  · show p.ert.range ∣ n.w.env.frontier
    rw [h.frontier]
    exact Nat.dvd_zero _

end Namespace

/-! ## All namespaces -/

section System

variable {I : Type} [DecidableEq I] {P : I → Params} {A : I → World NsEnv → ℕ → Oracle → Prop}
  {Y : I → World NsEnv → Prop} {Q : ℕ → Prop} {s s' : St I} {i j : I}

/-- The namespace that was called. -/
@[simp] theorem view_put_self (s : St I) (i : I) (n : NsSt) : (s.put i n).view i = n := by
  unfold St.view St.put
  simp only [update_self]
  rfl

/-- The other namespaces see the allocator of headers that it has left. -/
theorem view_put_of_ne (h : j ≠ i) (n : NsSt) :
    (s.put i n).view j = { s.view j with w := setHeads (s.view j).w n.w.env.heads } := by
  unfold St.view St.put
  simp only [update_of_ne h]
  rfl

/-- A call is on one namespace. -/
theorem exists_put {a : I × Op} (h : (sys P).step s a = some s') : ∃ n, s' = s.put a.1 n := by
  obtain ⟨n, -, rfl⟩ := Option.map_eq_some_iff.mp h
  exact ⟨n, rfl⟩

/-- **The invariant of the system**, with what else is kept in each namespace. -/
structure SysInv (P : I → Params) (Q : ℕ → Prop) (Y : I → World NsEnv → Prop) (s : St I) : Prop where
  ns : ∀ i, ∃ cont, NsInv (P i) Q (fun w => Backed (P i) w ∧ Y i w) (s.view i) cont
  disjoint : ∀ i j, i ≠ j → ∀ h, Owned (s.view i).w h → ¬ Owned (s.view j).w h
  same : ∀ i j, (P i).slabhead = (P j).slabhead

/-- Namespaces that are configured alike share the allocator of headers. -/
theorem HeadsInv.congr {p p' : Params} (hp : p.slabhead = p'.slabhead) {h : Heads}
    (hH : HeadsInv p h) : HeadsInv p' h :=
  ⟨hp ▸ hH.inv, hH.pages⟩

/-- The headers of others are no concern of a namespace. -/
theorem Backed.setHeads {p : Params} {w : World NsEnv} {h : Heads} (hK : Backed p w)
    (hH : HeadsInv p h) (hheld : ∀ s, Owned w s → h.has s) : Backed p (setHeads w h) :=
  hK.change rfl rfl rfl (.refl _) (fun _ _ => rfl) (fun _ _ => rfl) (fun _ _ => rfl) hH hheld
    hK.frontier

/-- The slabs of a namespace do not depend on the allocator of headers. -/
theorem NsInv.setHeads {p : Params} {K : World NsEnv → Prop} {n : NsSt} {cont : Key → List Obj}
    (hN : NsInv p Q K n cont) {h : Heads} (hw : K (setHeads n.w h)) :
    NsInv p Q K { n with w := Nsptr.setHeads n.w h } cont :=
  ⟨(untouched_env p.slab n.w _).inv hN.inv, hw, hN.ps, hN.desc, hN.freed, hN.freed_lt⟩

/-- New namespaces have no slabs, and no headers. -/
theorem sysInv_init (hY : ∀ i, Y i (s.view i).w) (h : (sys P).init s) : SysInv P Q Y s := by
  obtain ⟨hns, hheads, hsame⟩ := h
  have hK : ∀ i, Backed (P i) (s.view i).w ∧ ∀ h, ¬ Owned (s.view i).w h :=
    fun i => (hns i).backed (hheads.inv (P i)).1
  refine ⟨fun i => ⟨fun _ => [], ?_⟩, fun i j _ h hi => absurd hi ((hK i).2 h), hsame⟩
  obtain ⟨hI, -, hps⟩ := (hns i).slab (Q := Q)
  have hlive : {a | (s.view i).live a = true} = ∅ := by
    have : (s.view i).live = (s.ns i).live := rfl
    simp [this, (hns i).live]
  refine ⟨?_, ⟨(hK i).1, hY i⟩, hps, fun a ha => ?_, fun a ha => ?_, fun d hd => ?_⟩
  · rw [hlive]
    exact (untouched_env (P i).slab (s.ns i).w _).inv hI
  · rw [show (s.view i).live a = (s.ns i).live a from rfl, (hns i).live] at ha
    cases ha
  · rw [show (s.view i).live a = (s.ns i).live a from rfl, (hns i).live] at ha
    cases ha
  · rw [show (s.view i).freed d = (s.ns i).freed d from rfl, (hns i).freed] at hd
    cases hd

/-- What is relied on in a run of all namespaces. -/
structure Guard (P : I → Params) (A : I → World NsEnv → ℕ → Oracle → Prop) (Q : ℕ → Prop) (s : St I)
    (a : I × Op) : Prop where
  ok : (s.view a.1).Ok (P a.1) a.2
  atCall : AtCall (P a.1) (A a.1) (s.view a.1) a.2
  freedOn : FreedOn (P a.1) Q (s.view a.1) a.2
  sound : Sound (P a.1) (s.view a.1) a.2

/-- What backs the slabs of each namespace, with what else is kept there: that stays as well where
another namespace has called the allocator of headers. -/
structure Backs (P : I → Params) (A : I → World NsEnv → ℕ → Oracle → Prop)
    (Y : I → World NsEnv → Prop) : Prop where
  backing : ∀ i, Backing (P i).slab (fns (P i)) (A i) fun w => Backed (P i) w ∧ Y i w
  requested : ∀ i w c o, A i w c o → Requested (P i) w c o
  setHeads : ∀ i j w w', (P i).slabhead = (P j).slabhead → Y i w → Y j w' →
    Y j (setHeads w' w.env.heads)

/-- **A call on one namespace** keeps the invariant of all. -/
theorem SysInv.step (hB : Backs P A Y) (hS : SysInv P Q Y s) {a : I × Op} (hG : Guard P A Q s a)
    (hs : (sys P).step s a = some s') : SysInv P Q Y s' := by
  obtain ⟨i, op⟩ := a
  obtain ⟨n, hrun, rfl⟩ := Option.map_eq_some_iff.mp hs
  obtain ⟨cont, hN⟩ := hS.ns i
  have hN₀ : NsInv (P i) Q (fun w => (Backed (P i) w ∧ Y i w) ∧ Within w
      {h | Owned (s.view i).w h ∨ ¬ (s.view i).w.env.heads.has h}) (s.view i) cont :=
    ⟨hN.inv, ⟨hN.supply, fun _ h => h⟩, hN.ps, hN.desc, hN.freed, hN.freed_lt⟩
  obtain ⟨cont', hN'⟩ := hN₀.step (fun _ h => h.1.1)
    (backing_within (hB.backing i) (hB.requested i) (fun _ h => h.1) _) hG.ok hG.atCall hG.freedOn
    hG.sound hrun
  have hheads : ∀ j, (s.view j).w.env.heads = s.heads := fun _ => rfl
  -- a header of another namespace was not allocated to this one
  have hother : ∀ j ≠ i, ∀ h, Owned (s.view j).w h → (Owned n.w h ∨ ¬ n.w.env.heads.has h) → False := by
    intro j hj h ho hn
    obtain ⟨contj, hNj⟩ := hS.ns j
    rcases hN'.supply.2 h hn with hi | hp
    · exact hS.disjoint i j (Ne.symm hj) h hi ho
    · exact hp (hNj.supply.1.held h ho)
  refine ⟨fun j => ?_, ?_, hS.same⟩
  · by_cases hj : j = i
    · subst hj
      rw [view_put_self]
      exact ⟨cont', hN'.inv, hN'.supply.1, hN'.ps, hN'.desc, hN'.freed, hN'.freed_lt⟩
    · obtain ⟨contj, hNj⟩ := hS.ns j
      rw [view_put_of_ne hj]
      refine ⟨contj, hNj.setHeads ⟨hNj.supply.1.setHeads ?_ fun h ho => ?_, ?_⟩⟩
      · exact hN'.supply.1.1.heads.congr (hS.same i j)
      · by_contra hne
        exact hother j hj h ho (.inr hne)
      · exact hB.setHeads i j _ _ (hS.same i j) hN'.supply.1.2 hNj.supply.2
  · have hown : ∀ {j h}, j ≠ i → Owned ((s.put i n).view j).w h → Owned (s.view j).w h := by
      intro j h hj ho
      rw [view_put_of_ne hj] at ho
      exact ho
    have hself : ∀ {j h}, j ≠ i → Owned n.w h → ¬ Owned (s.view j).w h :=
      fun hj ho ho' => hother _ hj _ ho' (.inl ho)
    intro j k hjk h hj hk
    by_cases hji : j = i
    · subst hji
      rw [view_put_self] at hj
      exact hself (Ne.symm hjk) hj (hown (Ne.symm hjk) hk)
    · by_cases hki : k = i
      · subst hki
        rw [view_put_self] at hk
        exact hself hji hk (hown hji hj)
      · exact hS.disjoint j k hjk h (hown hji hj) (hown hki hk)

/-- A call on one namespace returns. -/
theorem SysInv.step_ne_none (hB : Backs P A Y) (hS : SysInv P Q Y s) {a : I × Op}
    (hG : Guard P A Q s a) (hC : ∀ c o, a.2 = .alloc c o → Counted (s.view a.1).w c) :
    (sys P).step s a ≠ none := by
  obtain ⟨cont, hN⟩ := hS.ns a.1
  have hrun := hN.step_ne_none (fun _ h => h.1) (hB.backing a.1) hG.ok hG.atCall hG.freedOn hG.sound
    hC
  simpa [sys] using hrun

/-- **The invariant holds along runs.** -/
theorem exists_sysInv {G : St I → I × Op → Prop} (hB : Backs P A Y)
    (h₀ : ∀ s, (sys P).init s → ∀ i, Y i (s.view i).w)
    (hG : ∀ s a s', SysInv P Q Y s → G s a → (sys P).step s a = some s' → Guard P A Q s a)
    (h : (sys P).Reach G s) : SysInv P Q Y s := by
  refine Lts.invariant (fun s h => sysInv_init (h₀ s h) h) (fun s a s' hS hg hs => ?_) h
  exact hS.step hB (hG s a s' hS hg hs) hs

omit [DecidableEq I] in
/-- Where nothing else is kept. -/
theorem backs_true (P : I → Params) : Backs P (fun i => Asked (P i)) fun _ _ => True :=
  ⟨fun i => backing_true (P i), fun _ _ _ _ h => h.toRequested, fun _ _ _ _ _ _ _ => trivial⟩

end System

/-! ## New namespaces -/

section New

variable {p : Params} {w : World NsEnv} {c : ℕ}

def emptyMem : Ertrie.Mem := ⟨0, fun _ => 0, fun _ _ => none⟩

/-- `ert_alloc` of a namespace, in a memory with no nodes. -/
def newTrie (p : Params) : Option (Ptr × Ertrie.Mem) :=
  ertAlloc p.ert.consts (nsFns p.ert.arch fun _ => none) emptyMem (none, fun _ => true)

/-- A world that is zero. -/
def zeroWorld {ε : Type} (e : ε) : World ε where
  tscFree _ := 0
  slab _ := none
  next _ := none
  memory _ := none
  start _ := 0
  end_ _ := 0
  memsz _ := 0
  coreid _ := 0
  freelist _ := none
  nfree _ := 0
  slabs _ := false
  listN _ := 0
  listP _ := 0
  flist _ := none
  salloccnt _ := 0
  remoteToken _ := 0
  nslabs _ := 0
  remoteFrees _ := none
  pushed := 0
  ps _ := false
  qscHead _ := none
  qscTail _ := none
  qmemcnt _ := 0
  qmemtarget _ := 0
  env := e

/-- A new allocator of headers. -/
def newHeads : Heads := ⟨slabptrInit (zeroWorld fun _ => none), fun _ => false⟩

/-- A new namespace, in a world that is zero. -/
def newNs (p : Params) : NsSt where
  w := memptrInit p.slab (slabptrInit
    (zeroWorld ⟨((newTrie p).map Prod.snd).getD emptyMem, 0, [], 0, newHeads⟩))
  live _ := false
  desc _ := 0
  freed _ := false

/-- New namespaces, with a new allocator of headers. -/
def newSt {I : Type} (P : I → Params) : St I := ⟨fun i => newNs (P i), newHeads⟩

/-- New namespaces are a first state. -/
theorem init_newSt {I : Type} [DecidableEq I] {P : I → Params}
    (hP : ∀ i j, (P i).slabhead = (P j).slabhead)
    (h : ∀ i, (newTrie (P i)).map Prod.fst = some (some (.cell 0 0))) : (sys P).init (newSt P) := by
  refine ⟨fun i => ⟨⟨_, .inl rfl⟩, ?_, rfl, rfl, fun _ => rfl, fun _ => rfl⟩, ⟨⟨_, rfl⟩, fun _ => rfl⟩,
    hP⟩
  obtain ⟨⟨x, m⟩, hrun, hx⟩ := Option.map_eq_some_iff.mp (h i)
  refine ⟨emptyMem, fun _ => true, ?_⟩
  show newTrie (P i) = some (some (.cell 0 0), ((newTrie (P i)).map Prod.snd).getD emptyMem)
  rw [hrun, ← hx]
  rfl

/-- Where there are no slabs, the memory that is supplied is not in use. -/
theorem atSlab_new {o : Oracle} (hs : ∀ s, w.slabs s = false) (hpg : PageFree p w.env.heads c o.pg)
    (hc : (w.salloccnt c + 1) % 2 ^ wordBits p.slab.arch % p.slab.remoteBatch ≠ 0) :
    AtSlab p w c fun w => Supplied p w c o := by
  intro w' hprep _
  simp only [allocPrep, update_self] at hprep
  rw [if_neg hc] at hprep
  cases hprep
  refine ⟨fun b _ s hs' => ?_, hpg⟩
  exact absurd hs' (by rw [show World.slabs _ s = w.slabs s from rfl, hs]; exact Bool.false_ne_true)

/-- Where there are no pages of headers, the page that is supplied is not in use. -/
theorem pageFree_new {h : Heads} {pg : Option ℕ} (hs : ∀ s, h.w.slabs s = false)
    (hc : (h.w.salloccnt c + 1) % 2 ^ wordBits p.slabhead.arch % p.slabhead.remoteBatch ≠ 0) :
    PageFree p h c pg := by
  intro w' hprep _ b _
  simp only [allocPrep, update_self] at hprep
  rw [if_neg hc] at hprep
  cases hprep
  exact hs b

/-- A call that asks for no slab, and is relied on to be what it is to be. -/
def NsSt.Plain (p : Params) (n : NsSt) : Op → Prop
  | .alloc c _ => c < p.numCores ∧
      (allocPrep p.slab (fns p) n.w c).all (fun w => (w.flist c).isSome) = true
  | .free c a t => c < p.numCores ∧ n.live a = true ∧ t.tsc ≠ 0
  | .freedesc c d t => c < p.numCores ∧ d < p.ert.descMax ∧ t.tsc ≠ 0
  | .lkup d => d < p.ert.descMax

instance (p : Params) (n : NsSt) : ∀ op, Decidable (n.Plain p op)
  | .alloc c _ => inferInstanceAs (Decidable (c < p.numCores ∧
      (allocPrep p.slab (fns p) n.w c).all (fun w => (w.flist c).isSome) = true))
  | .free c a t => inferInstanceAs (Decidable (c < p.numCores ∧ n.live a = true ∧ t.tsc ≠ 0))
  | .freedesc c d t => inferInstanceAs (Decidable (c < p.numCores ∧ d < p.ert.descMax ∧ t.tsc ≠ 0))
  | .lkup d => inferInstanceAs (Decidable (d < p.ert.descMax))

/-- Such a call is relied on to be what it is to be. -/
theorem NsSt.Plain.ok {n : NsSt} {op : Op} (h : n.Plain p op) : n.Ok p op := by
  cases op with
  | alloc c o =>
      refine ⟨h.1, fun w hprep hfl => ?_⟩
      have hall := h.2
      rw [hprep, Option.all_some, hfl] at hall
      cases hall
  | free c a t => exact h
  | freedesc c d t => exact h
  | lkup d => exact h

end New

end Parsec.Nsptr
