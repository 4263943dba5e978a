import Parsec.Nsptr.Space

/-!
# Allocations that failed, and are tried again

No assertion of `ps_slab_nsalloc` and `ps_slab_nsfree` fails, whichever allocations have failed before
(`returns_of_reach`), but for one: where a node of the trie is not allocated for a new header, the
header is freed while its `memory` is still what it was given. Unless its page is given back with it,
who gets the header then fails (`not_returns`).

* `NoWrap` — the frontier does not wrap around.
* `Recovers` — the nodes that are missing for a new header are allocated, or the other headers of its
  page are all free.
* `Clean` — the invariant: no header that can be allocated has memory.
-/

namespace Parsec.Nsptr

open Function Ertrie Ns Slab Lib

/-! ## The conditions -/

section Defs

variable (p : Params) (w : World NsEnv)

/-- The frontier does not wrap around. -/
def NoWrap (_ : ℕ) (_ : Oracle) : Prop :=
  w.env.fl = [] → w.env.frontier + p.ert.range < 2 ^ wordBits p.arch

/-- Where a new header gets memory, the nodes that are missing for it are allocated, or the other
headers of its page are all free. -/
def Recovers (c : ℕ) (o : Oracle) : Prop :=
  w.env.fl = [] → w.env.frontier < p.ert.descMax → o.blk ≠ none →
    ∀ x ∈ headerAlloc p w c o, ∀ a ∈ x.1, Granted p w o w.env.frontier ∨ Alone p x.2 a c

/-- **The invariant**: headers that can be allocated have no memory, and those of the namespace have
ranges below the frontier, with their nodes. -/
structure Clean : Prop where
  zeroed : Zeroed p w.env.heads.held w.env.heads.w
  le : ∀ h, Owned w h → w.start h + p.ert.range ≤ w.env.frontier
  reaches : ∀ h, Owned w h → Reaches p w (w.start h)

end Defs

/-! ## What the two functions keep -/

section Steps

variable {p : Params} {w w' : World NsEnv} {c : ℕ} {o : Oracle} {r : Option ℕ} {s sz : ℕ}

/-- A world with no more headers. -/
theorem Clean.congr (hX : Clean p w) (hown : ∀ h, Owned w' h → Owned w h)
    (hst : ∀ h, Owned w h → w'.start h = w.start h) (hfr : w.env.frontier ≤ w'.env.frontier)
    (hZ : Zeroed p w'.env.heads.held w'.env.heads.w)
    (hre : ∀ id, Reaches p w id → Reaches p w' id) : Clean p w' := by
  refine ⟨hZ, fun h ho => ?_, fun h ho => ?_⟩
  · rw [hst h (hown h ho)]
    exact (hX.le h (hown h ho)).trans hfr
  · rw [hst h (hown h ho)]
    exact hre _ (hX.reaches h (hown h ho))

/-- The invariant is about the environment, and the ids of headers. -/
theorem Clean.sameEnv (hw : SameEnv w w') (hX : Clean p w) : Clean p w' := by
  refine hX.congr (fun h ho => ?_) (fun h _ => congrFun hw.start h) (hw.env ▸ le_rfl)
    (hw.env ▸ hX.zeroed) fun id hid => ?_
  · unfold Owned at *
    rwa [hw.slabs, hw.env] at ho
  · unfold Reaches at *
    rwa [hw.env]

/-- A slab is released: its header waits, with its nodes. -/
theorem clean_nsfree (hK : Backed p w) (hX : Clean p w) (hs : w.slabs s = true)
    (hrun : nsfree p { w with slabs := update w.slabs s false } s sz c = some w') : Clean p w' := by
  obtain ⟨w'', hrun', -, -, hfl, hheads, hfr, hsl, hst, -, hre⟩ := nsfree_spec hK hs sz c
  obtain rfl : w'' = w' := Option.some.inj (hrun'.symm.trans hrun)
  refine hX.congr (fun h ho => ?_) (fun h _ => by rw [hst]) hfr.ge (hheads ▸ hX.zeroed) hre
  unfold Owned at ho
  rw [hsl, hfl, (flAdd_perm w.env.fl s).mem_iff, update_false_iff, List.mem_cons] at ho
  rcases ho with ⟨-, ho⟩ | rfl | ho
  · exact .inl ho
  · exact .inl hs
  · exact .inr ho

/-- A header is freed that has no memory, or with its page. -/
theorem zeroed_freeSlab {new : Option ℕ} (hH : HeadsInv p w.env.heads) (hs : w.env.heads.has s)
    (hc : c < p.numCores) (hZ : Zeroed p w.env.heads.held w.env.heads.w)
    (hm : w.memory s = none ∨ Alone p w.env.heads.w (headObj s) c)
    (hrun : freeSlab p w s new c = some w') : Zeroed p w'.env.heads.held w'.env.heads.w := by
  obtain ⟨h, hrun', hG⟩ := exists_givenBack hH hc hs new
  obtain rfl := Option.some.inj (hrun'.symm.trans hrun)
  rw [heads_resetFrontier]
  exact hG.zeroed hZ hm

/-- **An allocation of a slab** leaves no memory in headers that can be allocated, where it recovers
from its failures. -/
theorem nsalloc_zeroed (hK : Backed p w) (hX : Clean p w) (hE : Recovers p w c o)
    (hR : Requested p w c o) (hrun : nsalloc p w sz c o = some (r, w')) :
    Zeroed p w'.env.heads.held w'.env.heads.w := by
  rcases nsalloc_cases hrun with ⟨rfl, htake⟩ | ⟨s, new, w₁, htake, hback⟩
  · cases hK.headerStep hR htake with
    | none h _ _ _ _ hZ => exact hZ hX.zeroed
  have hstep := hK.headerStep hR htake
  have hT := hstep.taken hK
  obtain ⟨hm, hcase⟩ := backHeader_cases hback
  cases hstep with
  | pop _ fl hfl =>
      have hown : Owned w s := .inr (hfl ▸ List.mem_cons_self)
      have hZ : Zeroed p w.env.heads.held w.env.heads.w := hX.zeroed
      rcases hcase with ⟨-, -, hfree⟩ | ⟨b, z, mem, -, -, hexp, ⟨hne, -, -⟩ | ⟨-, -, rfl, -⟩⟩
      · exact zeroed_freeSlab hT.backed.heads hT.held hR.core hZ (.inl hm) hfree
      · obtain ⟨-, hz⟩ := reaches_linked hT.backed hT.lt hexp
        exact absurd (hz (Reaches.granted (hX.reaches s hown))) hne
      · exact hZ
  | new _ left h hfl hlt hal _ _ _ hnew =>
      obtain ⟨hZ, -⟩ := hnew hX.zeroed
      rcases hcase with ⟨-, -, hfree⟩ | ⟨b, z, mem, hb, -, hexp, ⟨hne, -, hfree⟩ | ⟨-, -, rfl, -⟩⟩
      · exact zeroed_freeSlab hT.backed.heads hT.held hR.core hZ (.inl hm) hfree
      · -- the header keeps its memory, and goes with its page
        have hstart : (newHeader p w s left h).start s = w.env.frontier := update_self ..
        obtain ⟨-, hz⟩ := reaches_linked hT.backed hT.lt hexp
        rw [hstart] at hz
        have hA : Alone p h.w (headObj s) c := by
          have hblk : o.blk ≠ none := by rw [hb]; exact Option.some_ne_none _
          rcases hE hfl hlt hblk _ hal _ rfl with hG | hA
          · exact absurd (hz hG) hne
          · exact hA
        exact zeroed_freeSlab (w := linked (newHeader p w s left h) s b mem) hT.backed.heads hT.held
          hR.core hZ (.inr hA) hfree
      · exact hZ

/-- **An allocation of a slab** keeps the invariant where it recovers from its failures. -/
theorem nsalloc_clean (hK : Backed p w) (hX : Clean p w) (hno : NoWrap p w c o)
    (hE : Recovers p w c o) (hR : Requested p w c o) (hrun : nsalloc p w sz c o = some (r, w')) :
    match r with
    | none => Clean p w'
    | some s => Clean p { w' with slabs := update w'.slabs s true } := by
  have hZ := nsalloc_zeroed hK hX hE hR hrun
  obtain ⟨hre, hout⟩ := nsalloc_outcome hK hX.reaches hR hrun
  have hne : ∀ {s h}, ¬ Owned w s → Owned w h → h ≠ s := by
    rintro s h hs ho rfl
    exact hs ho
  cases hout with
  | none h hfl _ he =>
      subst he
      refine hX.congr (fun h ho => ho) (fun _ _ => rfl) ?_ hZ hre
      show _ ≤ (w.env.frontier + p.ert.range) % 2 ^ wordBits p.arch
      rw [Nat.mod_eq_of_lt (hno hfl)]
      exact Nat.le_add_right ..
  | lost s fl h hfl _ he =>
      subst he
      refine hX.congr (fun h ho => ?_) (fun _ _ => rfl) le_rfl hZ hre
      exact ho.imp_right fun ho => hfl ▸ List.mem_cons_of_mem _ ho
  | undone s hfl hlt hs hsl hfl' hfr hst =>
      refine hX.congr (fun h ho => ?_) (fun h ho => ?_) hfr.ge hZ hre
      · unfold Owned at *
        rwa [hsl, hfl', ← hfl] at ho
      · rw [hst, update_of_ne (hne hs ho)]
  | again s fl hfl hsl hfl' hfr hst =>
      refine hX.congr (fun h ho => ?_) (fun h _ => congrFun hst h) hfr.ge hZ hre
      unfold Owned at *
      rw [hfl', hsl, update_true_iff] at ho
      rw [hfl, List.mem_cons]
      tauto
  | fresh s hfl hlt hs hsl hfl' hfr hst hnew =>
      have hown : ∀ h, Owned { w' with slabs := update w'.slabs s true } h → h = s ∨ Owned w h := by
        intro h ho
        unfold Owned at *
        rw [hfl', hsl, update_true_iff] at ho
        tauto
      refine ⟨hZ, fun h ho => ?_, fun h ho => ?_⟩
      · show w'.start h + _ ≤ w'.env.frontier
        rw [hst, hfr]
        rcases hown h ho with rfl | ho
        · rw [update_self]
        · rw [update_of_ne (hne hs ho)]
          exact (hX.le h ho).trans (Nat.le_add_right ..)
      · show Reaches p w' (w'.start h)
        rw [hst]
        rcases hown h ho with rfl | ho
        · rwa [update_self]
        · rw [update_of_ne (hne hs ho)]
          exact hre _ (hX.reaches h ho)

/-- A header is taken, or there is none. -/
theorem takeHeader_ne_none (hK : Backed p w) (hR : Requested p w c o) (hC : Counted w.env.heads.w c) :
    takeHeader p w c o ≠ none := by
  have hal := hK.heads.alloc_ne_none hR.core hR.pg hC
  unfold takeHeader
  split
  · exact Option.some_ne_none _
  · dsimp only
    split
    · exact Option.some_ne_none _
    · simpa [slabheadAlloc] using hal

/-- **No assertion of `ps_slab_nsalloc` fails.** -/
theorem nsalloc_ne_none (hK : Backed p w) (hX : Clean p w) (hR : Requested p w c o)
    (hC : Counted w.env.heads.w c) : nsalloc p w sz c o ≠ none := by
  -- no slab in use has the range of a header that is taken
  have hstored : ∀ {id}, id < p.ert.descMax → p.ert.range ∣ id →
      (∀ h, w.slabs h = true → w.start h ≠ id) → stored p w (id / p.ert.range) = none := by
    intro id hlt hdvd hne
    by_contra hv
    obtain ⟨h, hs, hq⟩ := hK.slab _ (div_range_lt hlt) hv
    exact hne h hs ((Nat.div_left_inj (hK.dvd h (.inl hs)) hdvd).mp hq)
  obtain ⟨⟨x, w₁⟩, htake⟩ := Option.ne_none_iff_exists'.mp (takeHeader_ne_none hK hR hC)
  unfold nsalloc
  rw [Option.bind_eq_bind, htake, Option.bind_some]
  rcases x with _ | ⟨s, new⟩
  · exact Option.some_ne_none _
  have hstep := hK.headerStep hR htake
  have hT := hstep.taken hK
  cases hstep with
  | pop _ fl hfl =>
      have hmem : s ∈ w.env.fl := hfl ▸ List.mem_cons_self
      obtain ⟨hsl, hm⟩ := hK.free s hmem
      refine backHeader_ne_none hT hR.core hm (hstored hT.lt hT.dvd fun h hh he => ?_)
      obtain rfl := hK.inj h s (.inl hh) (.inr hmem) he
      rw [hsl] at hh
      cases hh
  | new _ left h hfl hlt _ _ _ _ hnew =>
      have hstart : (newHeader p w s left h).start s = w.env.frontier := update_self ..
      have hm : (newHeader p w s left h).memory s = none := (update_self ..).trans (hnew hX.zeroed).2
      refine backHeader_ne_none hT hR.core hm ?_
      rw [hstart]
      refine hstored hlt hK.frontier fun h hh he => ?_
      have hle := hX.le h (.inl hh)
      have hpos := p.ert.range_pos
      omega

/-- What is relied on, with the invariant that is kept where allocations recover. -/
theorem backing_clean (p : Params) :
    Backing p.slab (fns p) (fun w c o => Asked p w c o ∧ NoWrap p w c o ∧ Recovers p w c o) fun w =>
      Backed p w ∧ Clean p w := by
  refine (backing p).and (fun _ _ h => h.1) (fun hw hX => hX.sameEnv hw) ?_ ?_
  · intro w w' s sz c hK hX hE hrun
    have hrun : nsfree p { w with slabs := update w.slabs s false } s sz c = some w' := hrun
    exact clean_nsfree hK hX hE.slabs hrun
  · intro w w' sz c o r hK hX hA hrun
    have hrun : nsalloc p w sz c o = some (r, w') := hrun
    have h := nsalloc_clean hK hX hA.2.1 hA.2.2 hA.1.toRequested hrun
    cases r with
    | none => exact h
    | some s => exact h

/-- Slabs that are released leave the allocator of headers. -/
theorem backing_heads (p : Params) (h : Heads) : Backing p.slab (fns p) (fun _ _ _ => False) fun w =>
    (Backed p w ∧ Clean p w) ∧ w.env.heads = h := by
  refine (backing_clean p).and (fun _ _ h => h.elim) (fun hw he => hw.env ▸ he) ?_
    fun _ _ h => h.elim
  rintro w w' s sz c ⟨hK, -⟩ he hE hrun
  obtain ⟨w'', hrun', -, -, -, hheads, -⟩ := nsfree_spec hK hE.slabs sz c
  obtain rfl : w'' = w' := Option.some.inj (hrun'.symm.trans hrun)
  exact hheads.trans he

end Steps

/-! ## Runs -/

section Runs

variable {I : Type} [DecidableEq I] {P : I → Params} {s : St I}

/-- No assertion fails in the next call that asks for a slab. -/
theorem NsInv.asked {p : Params} {Q : ℕ → Prop} {n : NsSt} {cont : Key → List Obj} {op : Op}
    (hN : NsInv p Q (fun w => Backed p w ∧ Clean p w) n cont) (hok : n.Ok p op)
    (hC : ∀ c o, op = .alloc c o → Counted n.w.env.heads.w c) : AtCall p (Asked p) n op := by
  cases op with
  | alloc c o =>
      intro w hprep hfl
      obtain ⟨cont', -, ⟨⟨hK, hX⟩, hheads⟩, -⟩ := allocPrep_kept (backing_heads p n.w.env.heads)
        (countFits p) hN.inv ⟨hN.supply, rfl⟩ hprep
      have hR : Requested p w c o := ⟨hok.2 w hprep hfl, hok.1⟩
      exact ⟨hR, nsalloc_ne_none hK hX hR (hheads ▸ hC c o rfl)⟩
  | free c a t => trivial
  | freedesc c d t => trivial
  | lkup d => trivial

omit [DecidableEq I] in
/-- What is relied on in all namespaces. -/
theorem backs_clean (P : I → Params) : Backs P (fun i w c o => Asked (P i) w c o ∧
    NoWrap (P i) w c o ∧ Recovers (P i) w c o) fun i => Clean (P i) := by
  refine ⟨fun i => backing_clean (P i), fun _ _ _ _ h => h.1.toRequested, fun i j w w' hp hX hX' => ?_⟩
  refine hX'.congr (fun _ ho => ho) (fun _ _ => rfl) le_rfl ?_ fun _ h => h
  have hZ := hX.zeroed
  unfold Zeroed at *
  rwa [hp] at hZ

/-- The invariant along runs in which allocations recover. -/
theorem sysInv_of_recovers
    (h : (sys P).Reach (fun s a => (s.view a.1).Ok (P a.1) a.2 ∧ Sound (P a.1) (s.view a.1) a.2 ∧
      AtCall (P a.1) (fun w c o => NoWrap (P a.1) w c o ∧ Recovers (P a.1) w c o) (s.view a.1) a.2) s) :
    SysInv P (fun _ => True) (fun i => Clean (P i)) s := by
  refine exists_sysInv (backs_clean P) (fun s hs i => ?_) (fun s a s' _ hg hs => ?_) h
  · obtain ⟨hH, hZ⟩ := hs.2.1.inv (P i)
    obtain ⟨-, hown⟩ := (hs.1 i).backed hH
    exact ⟨hZ, fun h ho => absurd ho (hown h), fun h ho => absurd ho (hown h)⟩
  · obtain ⟨n, hn, -⟩ := Option.map_eq_some_iff.mp hs
    exact ⟨hg.1, (atCall_asked hg.1 hn).and hg.2.2, freedOn_true .., hg.2.1⟩

/-- **No assertion fails**: every call returns, in every state of every run in which the frontier does
not wrap around and allocations recover from their failures. -/
theorem returns_of_reach
    (h : (sys P).Reach (fun s a => (s.view a.1).Ok (P a.1) a.2 ∧ Sound (P a.1) (s.view a.1) a.2 ∧
      AtCall (P a.1) (fun w c o => NoWrap (P a.1) w c o ∧ Recovers (P a.1) w c o) (s.view a.1) a.2) s)
    (a : I × Op) (hok : (s.view a.1).Ok (P a.1) a.2) (hsound : Sound (P a.1) (s.view a.1) a.2)
    (hC : ∀ c o, a.2 = .alloc c o → Counted (s.view a.1).w c ∧ Counted s.heads.w c) :
    (sys P).step s a ≠ none := by
  have hS := sysInv_of_recovers h
  obtain ⟨cont, hN⟩ := hS.ns a.1
  have hS' : SysInv P (fun _ => True) (fun _ _ => True) s := by
    refine ⟨fun i => ?_, hS.disjoint, hS.same⟩
    obtain ⟨cont, hN⟩ := hS.ns i
    exact ⟨cont, hN.inv, ⟨hN.supply.1, trivial⟩, hN.ps, hN.desc, hN.freed, hN.freed_lt⟩
  exact hS'.step_ne_none (backs_true P) ⟨hok, hN.asked hok fun c o ho => (hC c o ho).2,
    freedOn_true .., hsound⟩ fun c o ho => (hC c o ho).1

/-! ## Runs of namespaces with a trie of three levels -/

/-- A trie with one more level of nodes, which are allocated. -/
def tall : Params := { quad with
  depth := 3
  two_le_depth := Nat.le_add_left _ _
  depth_lt := narrowTrie.depth_lt
  bits_lt := by decide }

instance (p : Params) (w : World NsEnv) (c : ℕ) (o : Oracle) : Decidable (NoWrap p w c o) :=
  inferInstanceAs (Decidable (_ → _))

instance (p : Params) (w : World NsEnv) (o : Oracle) (id : ℕ) : Decidable (Granted p w o id) :=
  inferInstanceAs (Decidable (∀ j < _, _))

instance (p : Params) (w : World Left) (a : Obj) (c : ℕ) : Decidable (Alone p w a c) :=
  inferInstanceAs (Decidable (∃ s ∈ w.slab a, _))

instance (p : Params) (w : World NsEnv) (c : ℕ) (o : Oracle) : Decidable (Recovers p w c o) :=
  inferInstanceAs (Decidable (_ → _ → _ → ∀ x ∈ headerAlloc p w c o, ∀ a ∈ x.1, _))

instance (p : Params) (h : Heads) (c : ℕ) (pg : Option ℕ) : Decidable (PageFree p h c pg) :=
  inferInstanceAs (Decidable (∀ w ∈ allocPrep p.slabhead headFns h.w c, w.flist c = none →
    ∀ b ∈ pg, w.slabs b = false))

/-- A call recovers from its failures. -/
abbrev Recovering (s : St Bool) (a : Bool × Op) : Prop :=
  AtCall tall (fun w c o => NoWrap tall w c o ∧ Recovers tall w c o) (s.view a.1) a.2

/-- What `ps_plat_alloc` returns where the nodes of a trie are not allocated: block `b` for a slab. -/
def supplyLeaf (pg : Option ℕ) (b : ℕ) : Oracle := ⟨pg, some b, fun _ => false⟩

/-- A node of the trie of one namespace is not allocated; its header is freed with the page of headers,
which the slab of another namespace gets. An allocation in the first then returns. -/
theorem returns_tall : ∃ s : St Bool, (s.view true).live ⟨7, 32⟩ = true ∧
    (s.view true).w.slab ⟨7, 0⟩ = some 96 ∧ (s.view false).w.memory 96 = some 7 ∧
    (sys fun _ : Bool => tall).step s (false, .alloc 0 noSupply) ≠ none := by
  have h₀ : (sys fun _ : Bool => tall).init (newSt fun _ => tall) :=
    init_newSt (fun _ _ => rfl) fun _ => by decide +kernel
  have hbatch : 1 % 2 ^ wordBits tall.slab.arch % tall.slab.remoteBatch ≠ 0 := by decide
  have hok₀ : ((newSt fun _ : Bool => tall).view false).Ok tall (.alloc 0 (supplyLeaf (some 0) 7)) :=
    ⟨by decide, atSlab_new (fun _ => rfl) (pageFree_new (fun _ => rfl) hbatch) hbatch⟩
  obtain ⟨hE₀, s₁, hs₁, ⟨hE₁, hpg⟩, s₂, hs₂, ⟨hE₂, hplain⟩, s, hs₃, hlive, hslab, hmem, hpushed, hheads⟩ :
      Recovering (newSt fun _ => tall) (false, .alloc 0 (supplyLeaf (some 0) 7)) ∧
      ∃ s₁ ∈ (sys fun _ : Bool => tall).step (newSt fun _ => tall)
        (false, .alloc 0 (supplyLeaf (some 0) 7)),
      (Recovering s₁ (true, .alloc 0 supply) ∧ PageFree tall s₁.heads 0 supply.pg) ∧
      ∃ s₂ ∈ (sys fun _ : Bool => tall).step s₁ (true, .alloc 0 supply),
      (Recovering s₂ (true, .alloc 0 supply) ∧ (s₂.view true).Plain tall (.alloc 0 supply)) ∧
      ∃ s ∈ (sys fun _ : Bool => tall).step s₂ (true, .alloc 0 supply),
        (s.view true).live ⟨7, 32⟩ = true ∧ (s.view true).w.slab ⟨7, 0⟩ = some 96 ∧
        (s.view false).w.memory 96 = some 7 ∧ (s.view false).w.pushed = 0 ∧ s.heads.w.pushed = 0 := by
    decide +kernel
  rw [Option.mem_def] at hs₁ hs₂ hs₃
  have hok₁ : (s₁.view true).Ok tall (.alloc 0 supply) := by
    obtain ⟨n, rfl⟩ := exists_put hs₁
    rw [view_put_of_ne (Bool.false_ne_true).symm]
    exact ⟨by decide, atSlab_new (fun _ => rfl) hpg hbatch⟩
  have hsound : ∀ n o, Sound tall n (.alloc 0 o) := fun _ _ => trivial
  have hreach : (sys fun _ : Bool => tall).Reach (fun s a => (s.view a.1).Ok tall a.2 ∧
      Sound tall (s.view a.1) a.2 ∧ Recovering s a) s :=
    .step (.step (.step (.init h₀) ⟨hok₀, hsound _ _, hE₀⟩ hs₁) ⟨hok₁, hsound _ _, hE₁⟩ hs₂)
      ⟨hplain.ok, hsound _ _, hE₂⟩ hs₃
  have hC : ∀ c o, Op.alloc 0 noSupply = .alloc c o →
      Counted (s.view false).w c ∧ Counted s.heads.w c := by
    intro c o _
    obtain ⟨cont, hN⟩ := (sysInv_of_recovers hreach).ns false
    obtain ⟨cont', hI⟩ := hN.supply.1.heads.inv
    refine ⟨hN.inv.counted_of_pushed ?_, Inv.counted_of_pushed (w := s.heads.w) hI ?_⟩
    · rw [hpushed]
      decide
    · rw [hheads]
      decide
  have hok : (s.view false).Ok tall (.alloc 0 noSupply) :=
    ⟨by decide, fun w _ _ => supplied_noSupply tall w 0⟩
  exact ⟨s, hlive, hslab, hmem, returns_of_reach hreach (false, .alloc 0 noSupply) hok trivial hC⟩

/-- One namespace has a slab. Another gets a header and memory, but a node of its trie is not
allocated; as the first header is in the same page, the second is allocated again, and has memory. -/
theorem not_returns : ∃ s, (sys fun _ : Bool => tall).Reach (fun s a => (s.view a.1).Ok tall a.2 ∧
      a.2.NoFree ∧ AtCall tall (NoWrap tall) (s.view a.1) a.2) s ∧
    ∃ o, (s.view true).Ok tall (.alloc 0 o) ∧
      (sys fun _ : Bool => tall).step s (true, .alloc 0 o) = none := by
  have h₀ : (sys fun _ : Bool => tall).init (newSt fun _ => tall) :=
    init_newSt (fun _ _ => rfl) fun _ => by decide +kernel
  have hbatch : 1 % 2 ^ wordBits tall.slab.arch % tall.slab.remoteBatch ≠ 0 := by decide
  have hw₀ : AtCall tall (NoWrap tall) ((newSt fun _ : Bool => tall).view false) (.alloc 0 supply) := by
    decide +kernel
  have hok₀ : ((newSt fun _ : Bool => tall).view false).Ok tall (.alloc 0 supply) :=
    ⟨by decide, atSlab_new (fun _ => rfl) (pageFree_new (fun _ => rfl) hbatch) hbatch⟩
  obtain ⟨s₁, hs₁, hw₁, s₂, hs₂, hfault⟩ : ∃ s₁ ∈ (sys fun _ : Bool => tall).step (newSt fun _ => tall)
      (false, .alloc 0 supply), AtCall tall (NoWrap tall) (s₁.view true) (.alloc 0 (supplyLeaf none 8)) ∧
        ∃ s₂ ∈ (sys fun _ : Bool => tall).step s₁ (true, .alloc 0 (supplyLeaf none 8)),
          (sys fun _ : Bool => tall).step s₂ (true, .alloc 0 noSupply) = none := by decide +kernel
  rw [Option.mem_def] at hs₁ hs₂
  -- the other namespace is still as it was made
  have hok₁ : (s₁.view true).Ok tall (.alloc 0 (supplyLeaf none 8)) := by
    obtain ⟨n, rfl⟩ := exists_put hs₁
    rw [view_put_of_ne (Bool.false_ne_true).symm]
    exact ⟨by decide, atSlab_new (fun _ => rfl)
      (fun _ _ _ b hb => (Option.some_ne_none b hb.symm).elim) hbatch⟩
  have hfree : ∀ o, (Op.alloc 0 o).NoFree := fun _ => trivial
  refine ⟨s₂, .step (.step (.init h₀) ⟨hok₀, hfree _, hw₀⟩ hs₁) ⟨hok₁, hfree _, hw₁⟩ hs₂, noSupply, ?_,
    hfault⟩
  exact ⟨by decide, fun w _ _ => supplied_noSupply tall w 0⟩

end Runs

end Parsec.Nsptr
