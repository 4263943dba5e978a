import Mathlib.Logic.Relation
import Parsec.Nsptr.Resolve
import Parsec.Parslab.Shelter

/-!
# Descriptors in a section

A namespace whose slots are freed through a parsec. While a core is inside a section, the descriptor of
a slot that has been live since it entered finds that slot while it is live, and nothing after it has
been freed: the descriptor is not that of another slot, whatever other cores allocate and free.

* `sect_step`, `step_steady` — the section stays, and with it the slabs of what it refers to.
* `names` — the namespace with its parsec; `names_stay` is the result.
-/

namespace Parsec.Parslab

open Function Lib Slab
open Nsptr (Params NsEnv Oracle Asked AtSlab Supplied Backed Addressable SlotOf fns nsDesc nsptrLkup)

/-! ## Within a section -/

section Section

variable {N B : ℕ} {M ε ι : Type} [DecidableEq M] {g : M → Geom} {f : M → Fns ε ι}
  {A : M → World ε → ℕ → ι → Prop} {K : M → World ε → Prop} {s s' : St N M ε}
  {cont : M → Key → List Obj} {clk : Smr.Clock}

/-- What a deferred free changes. -/
theorem memptrFree_run {c : Fin N} {m : M} {o : Obj} (hrun : memptrFree g f clk s c m o = some s') :
    s'.ps.sect = s.ps.sect ∧ s'.seen = s.seen ∧ ∃ w qsc busy, s'.mem = update s.mem m w ∧
      smrFree (g m) (f m) (s.mem m) o c (clk.read s.ps.clock) qsc busy = some w := by
  unfold memptrFree at hrun
  simp only [Option.bind_eq_bind] at hrun
  obtain ⟨⟨ps, qsc, busy⟩, hps, hrun⟩ := Option.bind_eq_some_iff.mp hrun
  obtain ⟨w, hw, hrun⟩ := Option.bind_eq_some_iff.mp hrun
  cases hrun
  refine ⟨?_, rfl, w, qsc, busy, rfl, hw⟩
  show ps.sect = s.ps.sect
  rcases h : asksFor (s.mem m) o c (clk.read s.ps.clock) with _ | t <;> rw [h] at hps
  · cases hps
    rfl
  · obtain ⟨R, hR, hps⟩ := Option.map_eq_some_iff.mp hps
    cases hps
    exact (Smr.psQuiesce_same hR).2.2

/-- A section stays until its core leaves it, with what the core may refer to. -/
theorem sect_step {a : Op N M ι × Smr.Clock} {c : Fin N} {d : ℕ} (hs : step g f s a = some s')
    (hne : a.1 ≠ .par (.exit c)) (hd : s.ps.sect c = some d) :
    s'.ps.sect c = some d ∧ ∀ m o, s.seen c m o = true → s'.seen c m o = true := by
  obtain ⟨a, clk⟩ := a
  cases a with
  | par a =>
      obtain ⟨ps, hps, rfl⟩ := Option.map_eq_some_iff.mp hs
      show ps.sect c = some d ∧ ∀ m o, s.seen c m o = true → s.see a c m o = true
      rcases sect_par hps with ⟨c', now, rfl, hnone, hsect, hsee⟩ | ⟨c', rfl, hsect, hsee⟩ |
        ⟨hsect, hsee⟩ <;> rw [hsect, hsee]
      · have hc : c ≠ c' := by
          rintro rfl
          rw [hnone] at hd
          cases hd
        rw [update_of_ne hc, update_of_ne hc]
        exact ⟨hd, fun _ _ h => h⟩
      · have hc : c ≠ c' := by
          rintro rfl
          exact hne rfl
        rw [update_of_ne hc, update_of_ne hc]
        exact ⟨hd, fun _ _ h => h⟩
      · exact ⟨hd, fun _ _ h => h⟩
  | alloc c' m i =>
      obtain ⟨⟨r, w⟩, hrun, rfl⟩ := Option.map_eq_some_iff.mp hs
      rcases r with _ | o
      · exact ⟨hd, fun _ _ h => h⟩
      · refine ⟨hd, fun m' o' h => ?_⟩
        show put (s.seen c) m o true m' o' = true
        by_cases he : m' = m ∧ o' = o
        · obtain ⟨rfl, rfl⟩ := he
          exact put_same ..
        · rw [put_of_ne he]
          exact h
  | free c' m o =>
      obtain ⟨hsect, hseen, -⟩ := memptrFree_run hs
      exact ⟨hsect ▸ hd, fun _ _ h => hseen ▸ h⟩

/-- The slab of an object that a section refers to. -/
theorem Sheltered.inSlab (hP : ParInv B g K s cont) (hS : Sheltered s cont) {c : Fin N} {d : ℕ} {m : M}
    {o : Obj} (hd : s.ps.sect c = some d) (ho : s.seen c m o = true) :
    ∃ sl, InSlab (g m) (s.mem m) sl o := by
  refine (hP.inv m).members.exists_inSlab ((hS c d m o hd ho).imp_right ?_)
  rintro ⟨c', hq, -⟩
  exact ⟨_, hq⟩

/-- **A call leaves the slabs alone** of the objects that a section refers to. -/
theorem step_steady (hB : ∀ m, Backing (g m) (f m) (A m) (K m)) (hfit : Fits N B g)
    (hP : ParInv B g K s cont) (hS : Sheltered s cont) {a : Op N M ι × Smr.Clock}
    (hok : Ok g f A s a) (hs : step g f s a = some s') {c : Fin N} {d : ℕ} {m : M} {o : Obj}
    (hd : s.ps.sect c = some d) (ho : s.seen c m o = true)
    (hout : ∃ sl, InSlab (g m) (s'.mem m) sl o) : Steady (g m) (s.mem m) (s'.mem m) {o} := by
  have hI := hP.inv m
  have hsame : ∀ {w : World ε} {m' : M}, m ≠ m' →
      Steady (g m) (s.mem m) (update s.mem m' w m) {o} := by
    intro w m' hm
    rw [update_of_ne hm]
    exact fun _ _ _ h => ⟨h, rfl⟩
  obtain ⟨a, clk⟩ := a
  cases a with
  | par a =>
      obtain ⟨ps, -, rfl⟩ := Option.map_eq_some_iff.mp hs
      exact fun _ _ _ h => ⟨h, rfl⟩
  | alloc c' m' i =>
      obtain ⟨⟨r, w⟩, hrun, hmem⟩ := Option.map_eq_some_iff.mp hs
      have hmem : s'.mem = update s.mem m' w := by
        rw [← hmem]
        rcases r with _ | o' <;> rfl
      rw [hmem]
      by_cases hm : m = m'
      · subst hm
        rw [update_self]
        have hat : s.live m o = true ∨ ∃ c'', o ∈ cont m (.queue c'') :=
          (hS c d m o hd ho).imp_right fun ⟨c'', h, _⟩ => ⟨c'', h⟩
        have hst := memAlloc_steady_queued (hB m) (hfit.count m) hI (hP.supply m) hok hrun
        rintro _ rfl
        exact hst _ hat
      · exact hsame hm
  | free c' m' o' =>
      obtain ⟨-, -, w, qsc, busy, hmem, hrun⟩ := memptrFree_run hs
      rw [hmem] at hout ⊢
      by_cases hm : m = m'
      · subst hm
        rw [update_self] at hout ⊢
        have hpos : clk.read s.ps.clock ≠ 0 := ((Nat.zero_le _).trans_lt (clk.lt_read _)).ne'
        have hc : (c' : ℕ) < (g m).numCores := (hfit.cores m).symm ▸ c'.isLt
        have hF := smrFree_frame (hB m) (hfit.count m) hI (hP.supply m) hok hc
          (fun _ _ => .inr trivial) hpos (hP.ps m c' c'.isLt) hrun
        refine hF.steady hI ?_
        rintro _ rfl
        exact hout
      · exact hsame hm

end Section

/-! ## A namespace -/

/-- A new namespace: it has a trie, and no slabs.
Source: `ps_ns.h`, `ps_nsptr_create_##name`; `ps_ns.c`, `ps_ns_init` -/
structure NewNs (p : Params) (w : World NsEnv) : Prop where
  ert : ∃ m oks, Ertrie.ertAlloc p.ert.consts (Ns.nsFns p.ert.arch fun _ => none) m (none, oks) =
    some (some (.cell w.env.root 0), w.env.mem)
  fl : w.env.fl = []
  frontier : w.env.frontier = 0
  heads : Nsptr.HeadsInit w.env.heads

/-- A namespace, and its parsec.
Source: `ps_ns.h`, `PS_NS_CREATE` -/
def names (p : Params) : Lts (St p.numCores Unit NsEnv) (Op p.numCores Unit Oracle × Smr.Clock) :=
  lts (fun _ => p.slab) (fun _ => fns p) fun _ => NewNs p

section Names

variable {p : Params} {s s' : St p.numCores Unit NsEnv} {a : Op p.numCores Unit Oracle × Smr.Clock}
  {c : Fin p.numCores} {d : ℕ} {o : Obj}

/-- What is relied on: what the allocators return is not in use, and a slot that is freed is live. -/
def Rely (p : Params) (s : St p.numCores Unit NsEnv) :
    Op p.numCores Unit Oracle × Smr.Clock → Prop
  | (.par _, _) => True
  | (.alloc c m i, _) => AtSlab p (s.mem m) c fun w => Supplied p w c i
  | (.free _ m o, _) => s.live m o = true

/-- Calls while core `c` stays in its section. -/
def During (p : Params) (c : Fin p.numCores) :
    St p.numCores Unit NsEnv → St p.numCores Unit NsEnv → Prop :=
  Relation.ReflTransGen fun s s' =>
    ∃ a, Rely p s a ∧ a.1 ≠ .par (.exit c) ∧ (names p).step s a = some s'

/-- The slabs of a namespace fit. -/
theorem fits_names (p : Params) : Fits p.numCores p.qlistBatch fun _ : Unit => p.slab :=
  ⟨fun _ => rfl, fun _ => rfl, fun _ => Nsptr.countFits p⟩

/-- A call that returns has failed no assertion. -/
theorem ok_of_rely (hok : Rely p s a) (hs : (names p).step s a = some s') :
    Ok (fun _ => p.slab) (fun _ => fns p) (fun _ => Asked p) s a := by
  obtain ⟨a, clk⟩ := a
  cases a with
  | par a => trivial
  | free c m o => exact hok
  | alloc c m i =>
      intro w hprep hfl
      refine ⟨⟨hok w hprep hfl, c.isLt⟩, fun hnone => ?_⟩
      have hguard := objSz_le_allocsz p.slab
      have hnone : (fns p).afn w p.slab.allocsz c i = none := hnone
      obtain ⟨_, hrun, -⟩ := Option.map_eq_some_iff.mp hs
      simp only [memAlloc, if_pos hguard, hprep, hfl, hnone, Option.bind_eq_bind, Option.bind_some,
        Option.bind_none] at hrun
      cases hrun

/-- The invariant along runs. -/
theorem exists_names (h : (names p).Reach (Rely p) s) :
    ∃ cont, ParInv p.qlistBatch (fun _ => p.slab) (fun _ => Backed p) s cont ∧ Sheltered s cont := by
  refine Lts.invariant (I := fun s => ∃ cont,
    ParInv p.qlistBatch (fun _ => p.slab) (fun _ => Backed p) s cont ∧ Sheltered s cont) ?_ ?_ h
  · rintro s ⟨hps, hmem, hlive⟩
    refine ⟨_, parInv_init (f := fun _ => fns p) (fits_names p) ⟨hps, fun m => ⟨(hmem m).1, ?_⟩, hlive⟩⟩
    obtain ⟨⟨w, hw⟩, hert, hfl, hfr, hheads⟩ := hmem m
    have hN : Nsptr.NsInit p ⟨s.mem m, fun _ => false, fun _ => 0, fun _ => false⟩ :=
      ⟨⟨w, .inl hw⟩, hert, hfl, hfr, fun _ => rfl, fun _ => rfl⟩
    exact (hN.backed (hheads.inv p).1).1
  · rintro s a s' ⟨cont, hP, hS⟩ hok hs
    obtain ⟨cont', hP', hS', -⟩ :=
      exists_step (fun _ => Nsptr.backing p) (fits_names p) hP hS (ok_of_rely hok hs) hs
    exact ⟨cont', hP', hS'⟩

/-- The slab of a slot that a section refers to stays, with its ids. -/
theorem During.steady (h : During p c s s') (hs : (names p).Reach (Rely p) s)
    (hd : s.ps.sect c = some d) (ho : s.seen c () o = true) :
    (names p).Reach (Rely p) s' ∧ s'.ps.sect c = some d ∧ s'.seen c () o = true ∧
      Steady p.slab (s.mem ()) (s'.mem ()) {o} := by
  induction h with
  | refl => exact ⟨hs, hd, ho, fun _ _ _ h => ⟨h, rfl⟩⟩
  | tail _ hstep ih =>
      obtain ⟨a, hok, hne, hstep⟩ := hstep
      obtain ⟨hs₁, hd₁, ho₁, hst⟩ := ih
      have hs' := hs₁.step hok hstep
      obtain ⟨hd', ho'⟩ := sect_step hstep hne hd₁
      obtain ⟨cont, hP, hS⟩ := exists_names hs₁
      obtain ⟨cont', hP', hS'⟩ := exists_names hs'
      refine ⟨hs', hd', ho' () o ho₁, hst.trans ?_⟩
      exact step_steady (fun _ => Nsptr.backing p) (fits_names p) hP hS (ok_of_rely hok hstep) hstep hd₁
        ho₁ (hS'.inSlab hP' hd' (ho' () o ho₁))

/-- **Descriptors in a section**: while a core stays in a section, the descriptor of a slot that has
been live since it entered stays its descriptor, and finds the slot while it is live, and nothing when
it is not. -/
theorem names_stay (hF : Addressable p) (h : (names p).Reach (Rely p) s) (hrun : During p c s s')
    (hd : s.ps.sect c = some d) (ho : s.seen c () o = true) :
    ∃ k, k < p.ert.descMax ∧ nsDesc p (s.mem ()) o = some k ∧ nsDesc p (s'.mem ()) o = some k ∧
      nsptrLkup p (s'.mem ()) k = some (if s'.live () o = true then some o else none) := by
  obtain ⟨h', hd', ho', hst⟩ := hrun.steady h hd ho
  obtain ⟨cont, hP, hS⟩ := exists_names h
  obtain ⟨cont', hP', hS'⟩ := exists_names h'
  obtain ⟨sl, hsl⟩ := hS.inSlab hP hd ho
  obtain ⟨hsl', hstart⟩ := hst o rfl sl hsl
  have hK := hP.supply ()
  have hK' := hP'.supply ()
  obtain ⟨k, hk⟩ := Nsptr.inSlab_iff.mp hsl
  obtain ⟨k', hk'⟩ := Nsptr.inSlab_iff.mp hsl'
  have hkk : k' = k := by
    obtain ⟨-, -, b, -, he⟩ := hk
    obtain ⟨-, -, b', -, he'⟩ := hk'
    have hoff : k * p.stride = k' * p.stride := congrArg Obj.off (he.symm.trans he')
    exact (Nat.eq_of_mul_eq_mul_right p.stride_pos hoff).symm
  subst hkk
  have hlk := Nsptr.nsptrLkup_slot hF hK' hk'
  rw [hstart] at hlk
  refine ⟨_, hk.lt hK, Nsptr.nsDesc_eq hK ((hP.inv ()).slabs.slab sl o hsl) hk, ?_, ?_⟩
  · rw [Nsptr.nsDesc_eq hK' ((hP'.inv ()).slabs.slab sl o hsl') hk', hstart]
  · rw [hlk]
    rcases hS' c d () o hd' ho' with hl | ⟨c', hq, -⟩
    · have h0 : (s'.mem ()).tscFree o = 0 := ((hP'.inv ()).members.held o hl).tscFree
      rw [if_pos hl, if_neg (not_not_intro h0)]
    · obtain ⟨-, -, -, -, h0⟩ := (hP'.inv ()).members.listed _ o hq
      have hl : ¬ s'.live () o = true := fun hl => (hP'.inv ()).members.off o hl _ hq
      rw [if_neg hl, if_pos h0]

end Names

/-! ## On two cores -/

/-- Whether a call is one that gets no slab. -/
def plain {N : ℕ} (s : St N Unit NsEnv) : Op N Unit Oracle × Smr.Clock → Bool
  | (.par _, _) => true
  | (.alloc _ _ _, _) => false
  | (.free _ m o, _) => s.live m o

/-- A new namespace of three cores, with its parsec. -/
def newNames : St 3 Unit NsEnv where
  ps := Smr.psInit 3 Empty 1 5
  mem _ := (Nsptr.newNs Nsptr.quad).w
  live _ _ := false
  seen _ _ _ := false

/-- A new namespace in a new parsec. -/
theorem init_newNames : (names Nsptr.quad).init newNames := by
  refine ⟨⟨5, rfl⟩, fun _ => ⟨⟨_, rfl⟩, ⟨Nsptr.emptyMem, fun _ => true, ?_⟩, rfl, rfl,
    ⟨⟨_, rfl⟩, fun _ => rfl⟩⟩, fun _ _ => rfl⟩
  have hp : (Nsptr.newTrie Nsptr.quad).map Prod.fst = some (some (.cell 0 0)) := by decide +kernel
  obtain ⟨⟨x, m⟩, hrun, hx⟩ := Option.map_eq_some_iff.mp hp
  show Nsptr.newTrie Nsptr.quad =
    some (some (.cell 0 0), ((Nsptr.newTrie Nsptr.quad).map Prod.snd).getD Nsptr.emptyMem)
  rw [hrun, ← hx]
  rfl

/-- Core 0 gets a slot, and frees it while core 1 is inside a section. -/
theorem names_stay_quad : ∃ s s', (names Nsptr.quad).Reach (Rely Nsptr.quad) s ∧
    During Nsptr.quad (1 : Fin 3) s s' ∧ s.live () ⟨7, 0⟩ = true ∧ s'.live () ⟨7, 0⟩ = false ∧
    ∃ k, k < Nsptr.quad.ert.descMax ∧ nsDesc Nsptr.quad (s.mem ()) ⟨7, 0⟩ = some k ∧
      nsDesc Nsptr.quad (s'.mem ()) ⟨7, 0⟩ = some k ∧
      nsptrLkup Nsptr.quad (s'.mem ()) k =
        some (if s'.live () ⟨7, 0⟩ = true then some ⟨7, 0⟩ else none) := by
  have hrun : (((names Nsptr.quad).step newNames (.alloc (0 : Fin 3) () Nsptr.supply, .ticks)).bind fun s =>
      (names Nsptr.quad).execWhen (fun s a => plain s a = true) s [(.par (.enter (1 : Fin 3)), .ticks)]).any
        (fun s => s.live () ⟨7, 0⟩ = true ∧ s.seen (1 : Fin 3) () ⟨7, 0⟩ = true ∧
          (s.ps.sect (1 : Fin 3)).isSome = true ∧
          ((names Nsptr.quad).step s (.free (0 : Fin 3) () ⟨7, 0⟩, .ticks)).any
            (fun s' => s'.live () ⟨7, 0⟩ = false)) = true := by decide +kernel
  obtain ⟨s, hs, hq⟩ := (Option.any_eq_true _ _).mp hrun
  obtain ⟨s₁, hs₁, hs⟩ := Option.bind_eq_some_iff.mp hs
  obtain ⟨hl, ho, hd, hf⟩ := of_decide_eq_true hq
  obtain ⟨d, hd⟩ := Option.isSome_iff_exists.mp hd
  obtain ⟨s', hs', hl'⟩ := (Option.any_eq_true _ _).mp hf
  have hfirst : Rely Nsptr.quad newNames (.alloc (0 : Fin 3) () Nsptr.supply, .ticks) :=
    Nsptr.atSlab_new (fun _ => rfl) (Nsptr.pageFree_new (fun _ => rfl) (by decide)) (by decide)
  have h : (names Nsptr.quad).Reach (Rely Nsptr.quad) s := by
    refine Lts.Reach.execWhen (fun s a h => ?_) (.step (.init init_newNames) hfirst hs₁) hs
    obtain ⟨a, clk⟩ := a
    cases a with
    | par a => trivial
    | alloc c m i => cases h
    | free c m o => exact h
  have hduring : During Nsptr.quad (1 : Fin 3) s s' := by
    refine .single ⟨(.free (0 : Fin 3) () ⟨7, 0⟩, .ticks), hl, fun h => ?_, hs'⟩
    cases h
  exact ⟨s, s', h, hduring, hl, of_decide_eq_true hl',
    names_stay Nsptr.addressable_quad h hduring hd ho⟩

end Parsec.Parslab
