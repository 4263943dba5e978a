import Parsec.Nsptr.System

/-!
# What descriptors resolve to

Along the runs of any number of namespaces, from any cores, the live slots and their descriptors
correspond (`corresponds_of_reach`), as long as no slot that is on its way home is freed by its
descriptor; and a descriptor that has been freed does not resolve (`unresolved_of_reach`) as long as
slots are freed by the cores of their slabs. For the header of a slot on a list of remotely freed
objects reads as not free: `resolves_iff` says what a lookup finds, exactly.

* `Pending` — a slot on a list of remotely freed objects.
* `Corresponds`, `Unresolved` — the two properties.
-/

namespace Parsec.Nsptr

open Function Ertrie Ns Slab Lib

/-! ## The properties -/

section Defs

variable (p : Params)

/-- A slot that another core has freed, and that its core has not taken home. -/
def Pending (w : World NsEnv) (a : Obj) : Prop := ∃ k l, Chain w.next (w.remoteFrees k) l ∧ a ∈ l

/-- A descriptor that is freed is not that of a slot on its way home. -/
def NsSt.Spares (n : NsSt) : Op → Prop
  | .freedesc _ d _ => ∀ a, Pending n.w a → nsDesc p n.w a ≠ some d
  | .alloc _ _ | .free _ _ _ | .lkup _ => True

/-- Live slots and their descriptors correspond. -/
structure Corresponds (n : NsSt) : Prop where
  desc : ∀ a, n.live a = true → nsDesc p n.w a = some (n.desc a)
  lt : ∀ a, n.live a = true → n.desc a < p.ert.descMax
  lkup : ∀ a, n.live a = true → nsptrLkup p n.w (n.desc a) = some (some a)
  inj : ∀ a a', n.live a = true → n.live a' = true → n.desc a = n.desc a' → a = a'

/-- Descriptors that have been freed, and not been returned since, do not resolve, and freeing them
does nothing. -/
def Unresolved (n : NsSt) : Prop :=
  ∀ d, n.freed d = true → nsptrLkup p n.w d = some none ∧
    ∀ c t, nsptrFreedesc p n.w d c t = some n.w

end Defs

/-! ## What a lookup finds -/

section Lookup

variable {p : Params} {K : World NsEnv → Prop} {Q : ℕ → Prop} {n : NsSt} {cont : Key → List Obj}
  {op : Op} {a : Obj} {d : ℕ}

/-- What is pending is on a list of remotely freed slots. -/
theorem NsInv.pending_iff (hN : NsInv p Q K n cont) :
    Pending n.w a ↔ ∃ k, a ∈ cont (.remote k) := by
  constructor
  · rintro ⟨k, l, hl, ha⟩
    have hc : Chain n.w.next (n.w.remoteFrees k) (cont (.remote k)) :=
      hN.inv.chains.chain (.remote k)
    exact ⟨k, hl.unique hc ▸ ha⟩
  · rintro ⟨k, ha⟩
    exact ⟨k, _, hN.inv.chains.chain (.remote k), ha⟩

/-- A slot of a slab whose header does not read free is live, or on its way home. -/
theorem NsInv.live_or_pending (hN : NsInv p Q K n cont) {s : ℕ} (hs : InSlab p.slab n.w s a)
    (h0 : n.w.tscFree a = 0) : n.live a = true ∨ Pending n.w a := by
  rcases hN.inv.members.total s a hs with ha | ⟨k, hk⟩
  · exact .inl ha
  · right
    obtain ⟨s', -, h⟩ := hN.inv.members.listed k a hk
    cases k with
    | free s => exact absurd h0 h.2
    | queue c => exact absurd h0 h.2.2
    | remote k => exact hN.pending_iff.mpr ⟨k, hk⟩
    | drain c =>
        rw [hN.inv.drain_nil c] at hk
        cases hk

/-- What a lookup finds has the descriptor, and is live or on its way home. -/
theorem NsInv.of_lkup (hN : NsInv p Q K n cont) (hK : ∀ w, K w → Backed p w) (hF : Addressable p)
    (hd : d < p.ert.descMax) (h : nsptrLkup p n.w d = some (some a)) :
    nsDesc p n.w a = some d ∧ (n.live a = true ∨ Pending n.w a) := by
  obtain ⟨s, k, hk, rfl, h0⟩ := slot_of_lkup hF (hK _ hN.supply) hd h
  exact ⟨nsDesc_eq (hK _ hN.supply) (hN.inv.slabs.slab s a hk.inSlab) hk,
    hN.live_or_pending hk.inSlab h0⟩

/-- The slots that are found are those that are live or on their way home. -/
theorem NsInv.lkup_of_slot (hN : NsInv p Q K n cont) (hK : ∀ w, K w → Backed p w)
    (hF : Addressable p) (ha : n.live a = true ∨ Pending n.w a) :
    ∃ d, nsDesc p n.w a = some d ∧ d < p.ert.descMax ∧ nsptrLkup p n.w d = some (some a) := by
  obtain ⟨s, hs, h0⟩ : ∃ s, InSlab p.slab n.w s a ∧ n.w.tscFree a = 0 := by
    rcases ha with ha | ha
    · have hheld := hN.inv.members.held a ha
      exact ⟨_, hheld.inSlab.choose_spec, hheld.tscFree⟩
    · obtain ⟨k, hk⟩ := hN.pending_iff.mp ha
      obtain ⟨s, hs, -, h0, -⟩ := hN.inv.members.listed (.remote k) a hk
      exact ⟨s, hs, h0⟩
  obtain ⟨k, hk⟩ := inSlab_iff.mp hs
  refine ⟨_, nsDesc_eq (hK _ hN.supply) (hN.inv.slabs.slab s a hs) hk, hk.lt (hK _ hN.supply), ?_⟩
  rw [nsptrLkup_slot hF (hK _ hN.supply) hk, if_neg (not_not_intro h0)]

/-- Where no slot on its way home is freed, a descriptor that is freed has a live slot, or none. -/
theorem NsInv.sound (hN : NsInv p Q K n cont) (hK : ∀ w, K w → Backed p w) (hF : Addressable p)
    (hok : n.Ok p op) (hsp : n.Spares p op) : Sound p n op := by
  cases op with
  | freedesc c d t =>
      refine ⟨hF, fun a ha => ?_⟩
      obtain ⟨hd, hlive | hp⟩ := hN.of_lkup hK hF hok.2.1 ha
      · exact hlive
      · exact absurd hd (hsp a hp)
  | alloc c o => trivial
  | free c a t => trivial
  | lkup d => trivial

/-- The invariant says that descriptors correspond to slots. -/
theorem NsInv.corresponds (hN : NsInv p Q K n cont) (hK : ∀ w, K w → Backed p w)
    (hF : Addressable p) : Corresponds p n := by
  have hlk : ∀ a, n.live a = true →
      n.desc a < p.ert.descMax ∧ nsptrLkup p n.w (n.desc a) = some (some a) := by
    intro a ha
    obtain ⟨d, hd, hlt, hlk⟩ := hN.lkup_of_slot hK hF (.inl ha)
    obtain rfl : d = n.desc a := Option.some.inj (hd.symm.trans (hN.desc a ha))
    exact ⟨hlt, hlk⟩
  exact ⟨hN.desc, fun a ha => (hlk a ha).1, fun a ha => (hlk a ha).2, fun a a' => hN.inj hK⟩

/-- Where no core frees slots of others, no slot is on its way home. -/
theorem NsInv.not_pending (hN : NsInv p (fun _ => False) K n cont) : ¬ Pending n.w a := by
  intro ha
  obtain ⟨k, hk⟩ := hN.pending_iff.mp ha
  obtain ⟨s, -, -, -, c, -, hc, -⟩ := hN.inv.members.listed (.remote k) a hk
  exact hc

/-- Where slots are freed on their home cores, none is pending. -/
theorem NsInv.spares_of_home (hN : NsInv p (fun _ => False) K n cont) (op : Op) : n.Spares p op := by
  cases op with
  | freedesc c d t => exact fun a ha => absurd ha hN.not_pending
  | alloc c o => trivial
  | free c a t => trivial
  | lkup d => trivial

/-- Freed descriptors are not resolved, where slots are freed on their home cores. -/
theorem NsInv.unresolved (hN : NsInv p (fun _ => False) K n cont) (hK : ∀ w, K w → Backed p w)
    (hF : Addressable p) : Unresolved p n := by
  intro d hd
  have hlt := hN.freed_lt d hd
  have hlk : nsptrLkup p n.w d = some none := by
    obtain ⟨r, hr⟩ := Option.ne_none_iff_exists'.mp (nsptrLkup_ne_none (hK _ hN.supply) hlt)
    rcases r with _ | a
    · exact hr
    · obtain ⟨hdesc, hlive | hp⟩ := hN.of_lkup hK hF hlt hr
      · obtain rfl : n.desc a = d := Option.some.inj ((hN.desc a hlive).symm.trans hdesc)
        rw [hN.freed a hlive] at hd
        cases hd
      · exact absurd hp hN.not_pending
  refine ⟨hlk, fun c t => ?_⟩
  unfold nsptrFreedesc
  rw [hlk]
  rfl

end Lookup

/-! ## Runs -/

section Runs

variable {I : Type} [DecidableEq I] {P : I → Params} {s : St I}

/-- Any core may free where all cores are with `Q`. -/
theorem freedOn_true (p : Params) (n : NsSt) (op : Op) : FreedOn p (fun _ => True) n op := by
  cases op <;> simp [FreedOn]

/-- The invariant along runs in which no slot on its way home is freed by its descriptor. -/
theorem sysInv_of_spares (hF : ∀ i, Addressable (P i))
    (h : (sys P).Reach (fun s a => (s.view a.1).Ok (P a.1) a.2 ∧ (s.view a.1).Spares (P a.1) a.2) s) :
    SysInv P (fun _ => True) (fun _ _ => True) s := by
  refine exists_sysInv (backs_true P) (fun _ _ _ => trivial) (fun s a s' hS hg hs => ?_) h
  obtain ⟨cont, hN⟩ := hS.ns a.1
  obtain ⟨n, hn, -⟩ := Option.map_eq_some_iff.mp hs
  exact ⟨hg.1, atCall_asked hg.1 hn, freedOn_true .., hN.sound (fun _ h => h.1) (hF a.1) hg.1 hg.2⟩

/-- The invariant along runs in which slots are freed by the cores of their slabs. -/
theorem sysInv_of_home (hF : ∀ i, Addressable (P i))
    (h : (sys P).Reach (fun s a => (s.view a.1).Ok (P a.1) a.2 ∧
      FreedOn (P a.1) (fun _ => False) (s.view a.1) a.2) s) :
    SysInv P (fun _ => False) (fun _ _ => True) s := by
  refine exists_sysInv (backs_true P) (fun _ _ _ => trivial) (fun s a s' hS hg hs => ?_) h
  obtain ⟨cont, hN⟩ := hS.ns a.1
  obtain ⟨n, hn, -⟩ := Option.map_eq_some_iff.mp hs
  exact ⟨hg.1, atCall_asked hg.1 hn, hg.2,
    hN.sound (fun _ h => h.1) (hF a.1) hg.1 (hN.spares_of_home a.2)⟩

/-- **Live slots and their descriptors correspond**, in every state of every run in which no slot on
its way home is freed by its descriptor, where the offsets of slots fit. -/
theorem corresponds_of_reach (hF : ∀ i, Addressable (P i))
    (h : (sys P).Reach (fun s a => (s.view a.1).Ok (P a.1) a.2 ∧ (s.view a.1).Spares (P a.1) a.2) s)
    (i : I) : Corresponds (P i) (s.view i) := by
  obtain ⟨cont, hN⟩ := (sysInv_of_spares hF h).ns i
  exact hN.corresponds (fun _ h => h.1) (hF i)

/-- **Descriptors that have been freed do not resolve**, in every state of every run in which slots
are freed by the cores of their slabs, where the offsets of slots fit. -/
theorem unresolved_of_reach (hF : ∀ i, Addressable (P i))
    (h : (sys P).Reach (fun s a => (s.view a.1).Ok (P a.1) a.2 ∧
      FreedOn (P a.1) (fun _ => False) (s.view a.1) a.2) s) (i : I) : Unresolved (P i) (s.view i) := by
  obtain ⟨cont, hN⟩ := (sysInv_of_home hF h).ns i
  exact hN.unresolved (fun _ h => h.1) (hF i)

/-- **What a lookup finds**: the slots that are live, and those that are on their way home. -/
theorem resolves_iff (hF : ∀ i, Addressable (P i))
    (h : (sys P).Reach (fun s a => (s.view a.1).Ok (P a.1) a.2 ∧ (s.view a.1).Spares (P a.1) a.2) s)
    (i : I) {d : ℕ} (hd : d < (P i).ert.descMax) (a : Obj) :
    nsptrLkup (P i) (s.view i).w d = some (some a) ↔
      nsDesc (P i) (s.view i).w a = some d ∧
        ((s.view i).live a = true ∨ Pending (s.view i).w a) := by
  obtain ⟨cont, hN⟩ := (sysInv_of_spares hF h).ns i
  constructor
  · exact hN.of_lkup (fun _ h => h.1) (hF i) hd
  · rintro ⟨hdesc, ha⟩
    obtain ⟨d', hd', -, hlk⟩ := hN.lkup_of_slot (fun _ h => h.1) (hF i) ha
    obtain rfl : d' = d := Option.some.inj (hd'.symm.trans hdesc)
    exact hlk

end Runs

/-! ## Runs that break the properties -/

section Broken

/-- Slots of 8 bytes, four a slab, with three cores. -/
def quad : Params where
  arch := .x86_64
  deferred := false
  nodesz := 8
  depth := 2
  order := 1
  leaforder := 2
  numCores := 3
  numLocalities := 1
  locality := fun _ => 0
  remoteBatch := 5
  qlistBatch := 1
  two_le_depth := le_rfl
  depth_lt := twoLevels.depth_lt
  order_le := show 0 < 30 by decide
  leaforder_le := by decide
  bits_lt := by decide
  nodesz_le := by decide
  allocsz_lt := by decide
  locality_lt := fun _ => by decide
  qlistBatch_pos := by decide

/-- Slots of 4 GiB, of which only the first has an offset that fits. -/
def quadWide : Params := { quad with
  nodesz := 2 ^ 32 - 24
  nodesz_le := by decide
  allocsz_lt := by decide }

/-- What `ps_plat_alloc` returns: page 0 for headers, and block 7 for a slab. -/
def supply : Oracle := ⟨some 0, some 7, fun _ => true⟩

/-- A run of one namespace: core 0 gets a slot of a first slab, and calls follow that get no slab, and
for which more may be checked. -/
theorem exists_run {p : Params} (E : St Unit → Unit × Op → Prop) [∀ s a, Decidable (E s a)]
    (hp : (newTrie p).map Prod.fst = some (some (.cell 0 0))) (hcore : 0 < p.numCores)
    (hbatch : 1 % 2 ^ wordBits p.slab.arch % p.slab.remoteBatch ≠ 0)
    (hE : E (newSt fun _ => p) ((), .alloc 0 supply)) (ops : List (Unit × Op)) {q : St Unit → Bool}
    (hrun : (((sys fun _ : Unit => p).step (newSt fun _ => p) ((), .alloc 0 supply)).bind fun s =>
      (sys fun _ : Unit => p).execWhen (fun s a => (s.view a.1).Plain p a.2 ∧ E s a) s ops).any q =
        true) :
    ∃ s, (sys fun _ : Unit => p).Reach (fun s a => (s.view a.1).Ok p a.2 ∧ E s a) s ∧ q s = true := by
  obtain ⟨s, hs, hq⟩ := (Option.any_eq_true q _).mp hrun
  obtain ⟨s₁, hs₁, hs⟩ := Option.bind_eq_some_iff.mp hs
  have hok : ((newSt fun _ : Unit => p).view ()).Ok p (.alloc 0 supply) :=
    ⟨hcore, atSlab_new (fun _ => rfl) (pageFree_new (fun _ => rfl) hbatch) hbatch⟩
  have hfirst : (sys fun _ : Unit => p).Reach (fun s a => (s.view a.1).Ok p a.2 ∧ E s a) s₁ :=
    .step (.init (init_newSt (fun _ _ => rfl) fun _ => hp)) ⟨hok, hE⟩ hs₁
  exact ⟨s, hfirst.execWhen (fun s a h => ⟨h.1.ok, h.2⟩) hs, hq⟩

/-- Whether a call frees nothing. -/
def Op.NoFree : Op → Prop
  | .alloc _ _ | .lkup _ => True
  | .free _ _ _ | .freedesc _ _ _ => False

instance : ∀ op : Op, Decidable op.NoFree
  | .alloc _ _ | .lkup _ => .isTrue trivial
  | .free _ _ _ | .freedesc _ _ _ => .isFalse id

/-- A call that frees nothing frees nothing that is pending. -/
theorem Op.NoFree.spares {p : Params} {n : NsSt} {op : Op} (h : op.NoFree) : n.Spares p op := by
  cases op with
  | alloc c o => trivial
  | lkup d => trivial
  | free c a t => exact h.elim
  | freedesc c d t => exact h.elim

/-- A call that frees nothing frees no dead slot. -/
theorem Op.NoFree.sound {p : Params} {n : NsSt} {op : Op} (h : op.NoFree) : Sound p n op := by
  cases op with
  | alloc c o => trivial
  | lkup d => trivial
  | free c a t => exact h.elim
  | freedesc c d t => exact h.elim

/-- A call that frees nothing frees on the home core. -/
theorem Op.NoFree.freedOn {p : Params} {Q : ℕ → Prop} {n : NsSt} {op : Op} (h : op.NoFree) :
    FreedOn p Q n op := by
  cases op with
  | alloc c o => trivial
  | lkup d => trivial
  | free c a t => exact h.elim
  | freedesc c d t => exact h.elim

/-- The slots of four words are addressable. -/
theorem addressable_quad : Addressable quad := by
  unfold Addressable
  decide

/-- Two slots. -/
theorem corresponds_quad : ∃ s : St Unit, (s.view ()).live ⟨7, 0⟩ = true ∧ (s.view ()).live ⟨7, 32⟩ = true ∧
    (s.view ()).desc ⟨7, 32⟩ = 1 ∧ Corresponds quad (s.view ()) := by
  obtain ⟨s, hs, hq⟩ := exists_run (p := quad) (fun _ a => a.2.NoFree) (by decide +kernel)
    (by decide) (by decide) trivial [((), .alloc 0 supply)]
    (q := fun s => (s.view ()).live ⟨7, 0⟩ ∧ (s.view ()).live ⟨7, 32⟩ ∧ (s.view ()).desc ⟨7, 32⟩ = 1)
    (by decide +kernel)
  obtain ⟨h₀, h₁, hd⟩ := of_decide_eq_true hq
  refine ⟨s, h₀, h₁, hd, corresponds_of_reach (fun _ => addressable_quad)
    (hs.mono fun _ _ h => ⟨h.1, h.2.spares⟩) ()⟩

/-- Whether a call frees by a descriptor. -/
def Op.byDesc : Op → Bool
  | .freedesc _ _ _ => true
  | .alloc _ _ | .free _ _ _ | .lkup _ => false

/-- A call that frees by address frees nothing that is pending. -/
theorem Op.spares_of_byDesc {p : Params} {n : NsSt} {op : Op} (h : op.byDesc = false) :
    n.Spares p op := by
  cases op with
  | freedesc c d t => cases h
  | alloc c o => trivial
  | free c a t => trivial
  | lkup d => trivial

/-- A slot that core 1 has freed, and that core 0 has not taken home, is found. -/
theorem resolves_iff_quad : ∃ s : St Unit, (s.view ()).live ⟨7, 32⟩ = false ∧
    (s.view ()).freed 1 = true ∧
    (nsptrLkup quad (s.view ()).w 1 = some (some ⟨7, 32⟩) ↔
      nsDesc quad (s.view ()).w ⟨7, 32⟩ = some 1 ∧
        ((s.view ()).live ⟨7, 32⟩ = true ∨ Pending (s.view ()).w ⟨7, 32⟩)) := by
  obtain ⟨s, hs, hq⟩ := exists_run (p := quad) (fun _ a => a.2.byDesc = false) (by decide +kernel)
    (by decide) (by decide) rfl [((), .alloc 0 supply), ((), .free 1 ⟨7, 32⟩ ⟨1, 0, false⟩)]
    (q := fun s => (s.view ()).live ⟨7, 32⟩ = false ∧ (s.view ()).freed 1 = true) (by decide +kernel)
  obtain ⟨hl, hf⟩ := of_decide_eq_true hq
  exact ⟨s, hl, hf, resolves_iff (fun _ => addressable_quad)
    (hs.mono fun _ _ h => ⟨h.1, Op.spares_of_byDesc h.2⟩) () (by decide) ⟨7, 32⟩⟩

/-- Core 0 allocates three slots, core 1 frees the first and core 2 the second; core 0 frees the first
by its descriptor, and gets it again. As it takes home what others have freed, the first reads free,
while it is live. -/
theorem not_corresponds :
    (∃ s, (sys fun _ : Unit => quad).Reach (fun s a => (s.view a.1).Ok quad a.2) s ∧
      Addressable quad ∧ ¬ Corresponds quad (s.view ())) ∧
    ∃ s, (sys fun _ : Unit => quadWide).Reach (fun s a => (s.view a.1).Ok quadWide a.2) s ∧
      ¬ Corresponds quadWide (s.view ()) := by
  constructor
  · obtain ⟨s, hs, hq⟩ := exists_run (p := quad) (fun _ _ => True) (by decide +kernel) (by decide) (by decide)
      trivial [((), .alloc 0 supply), ((), .alloc 0 supply), ((), .free 1 ⟨7, 0⟩ ⟨1, 0, false⟩),
        ((), .free 2 ⟨7, 32⟩ ⟨1, 0, false⟩), ((), .freedesc 0 0 ⟨1, 0, false⟩),
        ((), .alloc 0 supply), ((), .alloc 0 supply)]
      (q := fun s => (s.view ()).live ⟨7, 0⟩ ∧ (s.view ()).desc ⟨7, 0⟩ = 0 ∧
        nsptrLkup quad (s.view ()).w 0 = some none) (by decide +kernel)
    obtain ⟨hlive, hdesc, hlk⟩ := of_decide_eq_true hq
    refine ⟨s, hs.mono fun _ _ h => h.1, addressable_quad, fun h => ?_⟩
    have hlk' := h.lkup _ hlive
    rw [hdesc, hlk] at hlk'
    cases hlk'
  · obtain ⟨s, hs, hq⟩ := exists_run (p := quadWide) (fun _ _ => True) (by decide +kernel) (by decide) (by decide)
      trivial [((), .alloc 0 supply)]
      (q := fun s => (s.view ()).live ⟨7, 2 ^ 32⟩ ∧ (s.view ()).desc ⟨7, 2 ^ 32⟩ = 1 ∧
        nsptrLkup quadWide (s.view ()).w 1 = some (some ⟨7, 0⟩)) (by decide +kernel)
    obtain ⟨hlive, hdesc, hlk⟩ := of_decide_eq_true hq
    refine ⟨s, hs.mono fun _ _ h => h.1, fun h => ?_⟩
    have hlk' := h.lkup _ hlive
    rw [hdesc, hlk] at hlk'
    cases hlk'

/-- The first slot is freed by the core of its slab. -/
theorem unresolved_quad : ∃ s : St Unit, (s.view ()).freed 0 = true ∧ Unresolved quad (s.view ()) := by
  obtain ⟨s, hs, hq⟩ := exists_run (p := quad) (fun _ a => a.2.NoFree) (by decide +kernel)
    (by decide) (by decide) trivial [((), .alloc 0 supply)]
    (q := fun s => (s.view ()).live ⟨7, 0⟩ ∧ (s.view ()).desc ⟨7, 0⟩ = 0 ∧
      (s.view ()).w.slab ⟨7, 0⟩ = some 96 ∧ (s.view ()).w.coreid 96 = 0) (by decide +kernel)
  obtain ⟨hlive, hdesc, hslab, hcore⟩ := of_decide_eq_true hq
  have hF : ∀ _ : Unit, Addressable quad := fun _ => addressable_quad
  have hs' : (sys fun _ : Unit => quad).Reach (fun s a => (s.view a.1).Ok quad a.2 ∧
      FreedOn quad (fun _ => False) (s.view a.1) a.2) s :=
    hs.mono fun _ _ h => ⟨h.1, h.2.freedOn⟩
  have hI := sysInv_of_home hF hs'
  obtain ⟨cont, hN⟩ := hI.ns ()
  have hok : (s.view ()).Ok quad (.free 0 ⟨7, 0⟩ ⟨1, 0, false⟩) := ⟨by decide, hlive, by decide⟩
  have hon : FreedOn quad (fun _ => False) (s.view ()) (.free 0 ⟨7, 0⟩ ⟨1, 0, false⟩) := by
    intro sl hsl
    have he := hN.inv.slabs.slab sl _ hsl
    rw [hslab] at he
    cases he
    exact .inl hcore
  obtain ⟨w, cont', hrun, -⟩ := hN.nsptrFree_spec (fun _ h => h.1)
    (backing_true quad) hok.1 hlive hok.2.2 hon
  have hstep : (sys fun _ : Unit => quad).step s ((), .free 0 ⟨7, 0⟩ ⟨1, 0, false⟩) =
      some (s.put () ((s.view ()).release ⟨7, 0⟩ 0 w)) := by
    show ((s.view ()).step quad (.free 0 ⟨7, 0⟩ ⟨1, 0, false⟩)).map (s.put ()) = _
    simp only [NsSt.step, hrun, hdesc, Option.map_some]
  have hfreed : ((s.put () ((s.view ()).release ⟨7, 0⟩ 0 w)).view ()).freed 0 = true := by
    rw [view_put_self]
    exact update_self 0 true (s.view ()).freed
  exact ⟨_, hfreed, unresolved_of_reach hF (.step hs' ⟨hok, hon⟩ hstep) ()⟩

/-- Core 1 frees a slot of core 0; or a slot is freed that is found at the offset of another. -/
theorem not_unresolved :
    (∃ s, (sys fun _ : Unit => quad).Reach (fun s a => (s.view a.1).Ok quad a.2) s ∧
      Addressable quad ∧ ¬ Unresolved quad (s.view ())) ∧
    ∃ s, (sys fun _ : Unit => quadWide).Reach (fun s a => (s.view a.1).Ok quadWide a.2) s ∧
      ¬ Unresolved quadWide (s.view ()) := by
  constructor
  · obtain ⟨s, hs, hq⟩ := exists_run (p := quad) (fun _ _ => True) (by decide +kernel) (by decide)
      (by decide) trivial [((), .free 1 ⟨7, 0⟩ ⟨1, 0, false⟩)]
      (q := fun s => (s.view ()).freed 0 ∧ nsptrLkup quad (s.view ()).w 0 = some (some ⟨7, 0⟩))
      (by decide +kernel)
    obtain ⟨hfreed, hlk⟩ := of_decide_eq_true hq
    refine ⟨s, hs.mono fun _ _ h => h.1, addressable_quad, fun h => ?_⟩
    rw [(h 0 hfreed).1] at hlk
    cases hlk
  · obtain ⟨s, hs, hq⟩ := exists_run (p := quadWide) (fun _ _ => True) (by decide +kernel)
      (by decide) (by decide) trivial
      [((), .alloc 0 supply), ((), .free 0 ⟨7, 2 ^ 32⟩ ⟨1, 0, false⟩)]
      (q := fun s => (s.view ()).freed 1 ∧ nsptrLkup quadWide (s.view ()).w 1 = some (some ⟨7, 0⟩))
      (by decide +kernel)
    obtain ⟨hfreed, hlk⟩ := of_decide_eq_true hq
    refine ⟨s, hs.mono fun _ _ h => h.1, fun h => ?_⟩
    rw [(h 1 hfreed).1] at hlk
    cases hlk

end Broken

end Parsec.Nsptr
