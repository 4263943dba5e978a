import Parsec.Ertrie.Partial
import Parsec.Lib.Frontier
import Parsec.Nsptr.Resolve

/-!
# The space of descriptors

The ranges of ids of a namespace's headers, those that back memory and those on the freelist,
partition what is below the frontier (`space_of_reach`), as long as no range is lost: where the
freelist is empty there are ids left and a header is allocated, and where it is not, memory is.

* `Lossless` — that condition on an allocation of a slab.
* `SpaceExact`, `KeepsSpace` — the property of a state, and of an allocation of a slab that fails.
* `Spaced` — the invariant, on the claims of `Parsec.Lib.Frontier`. A header that waits on the freelist
  has the nodes on the way to its leaf already, so that its expansion does not fail.
-/

namespace Parsec.Nsptr

open Function Ertrie Ns Slab Lib

/-! ## The properties -/

section Defs

variable (p : Params) (w : World NsEnv)

/-- The ranges of the headers, in use or on the freelist, partition the ids below the frontier. -/
structure SpaceExact : Prop where
  le : w.env.frontier ≤ p.ert.descMax
  block : ∀ h, Owned w h → w.end_ h = w.start h + p.ert.range ∧ w.end_ h ≤ w.env.frontier
  partition : ∀ id < w.env.frontier, ∃! h, Owned w h ∧ w.start h ≤ id ∧ id < w.end_ h

/-- An allocation of a slab that fails leaves the frontier, and the ranges that wait. -/
def KeepsSpace (c : ℕ) (o : Oracle) : Prop :=
  ∀ sz w', nsalloc p w sz c o = some (none, w') →
    w'.env.frontier = w.env.frontier ∧ w'.env.fl = w.env.fl

/-- Where no header waits, there are ids left and a header is allocated; else the memory is. -/
def Lossless (c : ℕ) (o : Oracle) : Prop :=
  match w.env.fl with
  | [] => w.env.frontier < p.ert.descMax ∧ GetsHeader p w c o
  | _ :: _ => o.blk ≠ none

end Defs

/-! ## The nodes above a leaf -/

section Nodes

variable {g : NsGeom} {m m' : Mem} {v id : ℕ}

/-- Nodes that are kept lead where they led. -/
theorem entryAt_kept (h : Kept (slabTrie g) v m m') (he : entryAt g m v id ≠ none) :
    entryAt g m' v id ≠ none := by
  unfold entryAt at *
  obtain ⟨a, ha⟩ := Option.ne_none_iff_exists'.mp he
  obtain ⟨b, hb, -⟩ := Option.map_eq_some_iff.mp ha
  rw [h _ b (length_path ..).le hb]
  exact Option.some_ne_none _

/-- How many nodes are missing on the way to the leaf of an id. -/
def missingAt (g : NsGeom) (m : Mem) (v id : ℕ) : ℕ :=
  missing (slabTrie g) m v (id / g.range) 0 (slabTrie g).hops

/-- No node is missing where all are there. -/
theorem missingAt_eq_zero (he : entryAt g m v id ≠ none) : missingAt g m v id = 0 := by
  obtain ⟨a, ha⟩ := Option.ne_none_iff_exists'.mp he
  obtain ⟨b, hb, -⟩ := Option.map_eq_some_iff.mp ha
  refine missing_eq_zero (b := b) ?_
  rw [Nat.zero_add]
  exact hb

/-- An expansion keeps the nodes, and does not fail where those that are missing are allocated. -/
theorem expand_kept {isfree : Addr → Option Bool} (hR : Rep (slabTrie g) m v) {leaf : Addr}
    {oks : ℕ → Bool} (hid : id < g.descMax) {r : ℤ}
    (hrun : ertExpand g.consts (nsFns g.arch isfree) m (some (.cell v 0)) id 0 g.depth
      (some leaf, oks) none = some (r, m')) :
    Kept (slabTrie g) v m m' ∧
      ((∀ j < missingAt g m v id, oks (m.brk + j) = true) → r = 0) := by
  have hid' := div_range_lt hid
  have hpos : 1 ≤ (slabTrie g).depth + 1 := Nat.le_add_left ..
  rw [ertExpand_eq leaf oks hid] at hrun
  obtain ⟨⟨z, m₁⟩, hexp, hr⟩ := Option.map_eq_some_iff.mp hrun
  obtain ⟨hz, rfl⟩ := Prod.mk.inj hr
  refine ⟨(hR.expandn hid' hpos le_rfl hexp).2, fun hoks => ?_⟩
  rcases hR.expandn_granted (nodeOk_slabTrie hR) hid' hoks hexp with rfl | rfl
  · exact hz.symm
  · exact hz.symm

end Nodes

/-! ## What an allocation of a slab does -/

section Outcomes

variable {p : Params} {w w' : World NsEnv} {c : ℕ} {o : Oracle} {r : Option ℕ}

/-- The nodes that are missing on the way to the leaf of an id are allocated. -/
def Granted (p : Params) (w : World NsEnv) (o : Oracle) (id : ℕ) : Prop :=
  ∀ j < missingAt p.ert w.env.mem w.env.root id, o.oks (w.env.mem.brk + j) = true

/-- **What an allocation of a slab does** to the headers and their ranges. -/
inductive Outcome (p : Params) (w : World NsEnv) (c : ℕ) (o : Oracle) (w' : World NsEnv) :
    Option ℕ → Prop
  /-- There is no header. -/
  | none (h : Heads) : w.env.fl = [] → p.ert.descMax ≤ w.env.frontier ∨ ¬ GetsHeader p w c o →
      w' = setHeads (advance p w) h → Outcome p w c o w' none
  /-- A header that waits gets no memory, and is freed. -/
  | lost (s : ℕ) (fl : List ℕ) (h : Heads) : w.env.fl = s :: fl → o.blk = none →
      w' = setHeads (popHeader w fl) h → Outcome p w c o w' none
  /-- A new header gets no memory, or the trie is not expanded; its range is given back. -/
  | undone (s : ℕ) : w.env.fl = [] → w.env.frontier < p.ert.descMax → ¬ Owned w s →
      w'.slabs = w.slabs → w'.env.fl = [] → w'.env.frontier = w.env.frontier →
      w'.start = update w.start s w.env.frontier → Outcome p w c o w' none
  /-- A header that waits gets memory. -/
  | again (s : ℕ) (fl : List ℕ) : w.env.fl = s :: fl → w'.slabs = w.slabs → w'.env.fl = fl →
      w'.env.frontier = w.env.frontier → w'.start = w.start → Outcome p w c o w' (some s)
  /-- A new header gets memory, and the range at the frontier. -/
  | fresh (s : ℕ) : w.env.fl = [] → w.env.frontier < p.ert.descMax → ¬ Owned w s →
      w'.slabs = w.slabs → w'.env.fl = [] → w'.env.frontier = w.env.frontier + p.ert.range →
      w'.start = update w.start s w.env.frontier → Reaches p w' w.env.frontier →
      Outcome p w c o w' (some s)

/-- The nodes after a header has been linked. -/
theorem reaches_linked {s b : ℕ} {z : ℤ} {mem : Ertrie.Mem} (hK : Backed p w)
    (hlt : w.start s < p.ert.descMax)
    (hexp : expandfn p (giveMemory w s b) (w.start s) p.depth (.ext b 0) o.oks = some (z, mem)) :
    (∀ id, Reaches p w id → Reaches p (linked w s b mem) id) ∧
      (Granted p w o (w.start s) → z = 0) := by
  obtain ⟨hkept, hz⟩ := expand_kept hK.rep hlt hexp
  exact ⟨fun id h => entryAt_kept hkept h, hz⟩

/-- What is found has nodes above it. -/
theorem reaches_of_lkup {id : ℕ} {a : Addr} (hR : Rep (slabTrie p.ert) w.env.mem w.env.root) (hid : id < p.ert.descMax)
    (h : lkupfn p w id p.depth = some (some a)) : Reaches p w id := by
  intro hnone
  have hv : stored p w (id / p.ert.range) = none := valueAt_of_entry_none hnone
  rw [lkupfn_none hR hid hv] at h
  cases h

/-- Where no node is missing, all that are missing are allocated. -/
theorem Reaches.granted {id : ℕ} (h : Reaches p w id) : Granted p w o id := by
  intro j hj
  rw [missingAt_eq_zero h] at hj
  exact absurd hj (Nat.not_lt_zero j)

/-- What is left of a header that has been freed. -/
theorem exists_freed {s : ℕ} {new : Option ℕ} (hH : HeadsInv p w.env.heads) (hs : w.env.heads.has s)
    (hc : c < p.numCores) (h : freeSlab p w s new c = some w') :
    ∃ h, w' = resetFrontier p (setHeads w h) new := by
  obtain ⟨h', hrun, -⟩ := exists_givenBack hH hc hs new
  exact ⟨h', Option.some.inj (h.symm.trans hrun)⟩

/-- Where the headers that wait have their nodes, these are all that it does. -/
theorem nsalloc_outcome (hK : Backed p w) (hre : ∀ h, Owned w h → Reaches p w (w.start h)) {sz : ℕ}
    (hR : Requested p w c o) (hrun : nsalloc p w sz c o = some (r, w')) :
    (∀ id, Reaches p w id → Reaches p w' id) ∧ Outcome p w c o w' r := by
  obtain ⟨-, hsup⟩ := nsalloc_spec hK hR hrun
  rcases nsalloc_cases hrun with ⟨rfl, htake⟩ | ⟨s, new, w₁, htake, hback⟩
  · cases hK.headerStep hR htake with
    | none h hfl hno => exact ⟨fun _ h => h, .none h hfl hno rfl⟩
  have hstep := hK.headerStep hR htake
  have hT := hstep.taken hK
  obtain ⟨hm, hcase⟩ := backHeader_cases hback
  cases hstep with
  | pop _ fl hfl =>
      -- a header from the freelist, whose nodes are there
      have hown : Owned w s := .inr (hfl ▸ List.mem_cons_self)
      rcases hcase with ⟨hb, rfl, hfree⟩ | ⟨b, z, mem, hb, -, hexp, hend⟩
      · obtain ⟨h, rfl⟩ := exists_freed hT.backed.heads hT.held hR.core hfree
        exact ⟨fun _ h => h, .lost s fl h hfl hb rfl⟩
      obtain ⟨hkept, hz⟩ := reaches_linked hT.backed hT.lt hexp
      rcases hend with ⟨hne, -, -⟩ | ⟨-, rfl, rfl, -⟩
      · exact absurd (hz (Reaches.granted (hre s hown))) hne
      · exact ⟨hkept, .again s fl hfl rfl rfl rfl rfl⟩
  | new _ left h hfl hlt _ hH hs hheld =>
      have hs' : ¬ Owned w s := fun ho => hs (hK.held s ho)
      have hmod : (w.env.frontier + p.ert.range) % 2 ^ wordBits p.arch =
          w.env.frontier + p.ert.range :=
        Nat.mod_eq_of_lt ((add_range_le hK.frontier hlt).trans_lt p.ert.descMax_lt)
      rcases hcase with ⟨-, rfl, hfree⟩ | ⟨b, z, mem, hb, -, hexp, hend⟩
      · obtain ⟨h', rfl⟩ := exists_freed hT.backed.heads hT.held hR.core hfree
        exact ⟨fun _ h => h, .undone s hfl hlt hs' rfl hfl (if_pos rfl) rfl⟩
      obtain ⟨hkept, -⟩ := reaches_linked hT.backed hT.lt hexp
      rcases hend with ⟨hne, rfl, hfree⟩ | ⟨-, rfl, rfl, hlk⟩
      · obtain ⟨h', rfl⟩ := exists_freed (w := linked (newHeader p w s left h) s b mem)
          hT.backed.heads hT.held hR.core hfree
        exact ⟨hkept, .undone s hfl hlt hs' rfl hfl (if_pos rfl) rfl⟩
      · refine ⟨hkept, .fresh s hfl hlt hs' rfl hfl hmod rfl ?_⟩
        have hstart : (newHeader p w s left h).start s = w.env.frontier := update_self ..
        rw [hstart] at hlk
        exact reaches_of_lkup hsup.2.rep hlt hlk

end Outcomes

/-! ## The invariant -/

section Invariant

variable {p : Params} {w w' : World NsEnv} {c : ℕ} {o : Oracle} {r : Option ℕ}

open Classical in
/-- What a header of the namespace claims. -/
noncomputable def claim (w : World NsEnv) (h : ℕ) : Option ℕ :=
  if Owned w h then some (w.start h) else none

/-- A header claims the id it starts with. -/
theorem claim_eq_some {h id : ℕ} : claim w h = some id ↔ Owned w h ∧ w.start h = id := by
  unfold claim
  by_cases hown : Owned w h <;> simp [hown]

/-- **The invariant**: the claims are of all ranges below the frontier, and the nodes on the way to
their leaves are there. -/
structure Spaced (p : Params) (w : World NsEnv) : Prop where
  le : w.env.frontier ≤ p.ert.descMax
  claims : Claims p.ert.range (claim w) w.env.frontier
  covered : Covered p.ert.range (claim w) w.env.frontier
  reaches : ∀ h, Owned w h → Reaches p w (w.start h)

/-- What the property says follows. -/
theorem Spaced.exact (hX : Spaced p w) (hK : Backed p w) : SpaceExact p w := by
  refine ⟨hX.le, fun h hown => ?_, fun id hid => ?_⟩
  · rw [hK.end_ h hown]
    exact ⟨rfl, hX.claims.le h _ (claim_eq_some.mpr ⟨hown, rfl⟩)⟩
  · obtain ⟨h, ⟨id', hcl, hle, hlt⟩, huniq⟩ :=
      hX.claims.existsUnique hX.covered p.ert.range_pos hid
    obtain ⟨hown, rfl⟩ := claim_eq_some.mp hcl
    refine ⟨h, ⟨hown, hle, by rwa [hK.end_ h hown]⟩, ?_⟩
    rintro h' ⟨hown', hle', hlt'⟩
    rw [hK.end_ h' hown'] at hlt'
    exact huniq h' ⟨_, claim_eq_some.mpr ⟨hown', rfl⟩, hle', hlt'⟩

/-- A world with the same headers, in use or waiting. -/
theorem Spaced.congr (hX : Spaced p w) (hown : ∀ h, Owned w' h ↔ Owned w h)
    (hst : ∀ h, Owned w h → w'.start h = w.start h) (hfr : w'.env.frontier = w.env.frontier)
    (hre : ∀ id, Reaches p w id → Reaches p w' id) : Spaced p w' := by
  have hclaim : claim w' = claim w := by
    funext h
    unfold claim
    by_cases ho : Owned w h
    · rw [if_pos ho, if_pos ((hown h).mpr ho), hst h ho]
    · rw [if_neg ho, if_neg fun h' => ho ((hown h).mp h')]
  refine ⟨hfr ▸ hX.le, ?_, ?_, fun h ho => ?_⟩
  · rw [hclaim, hfr]
    exact hX.claims
  · rw [hclaim, hfr]
    exact hX.covered
  · have ho := (hown h).mp ho
    rw [hst h ho]
    exact hre _ (hX.reaches h ho)

/-- A slab is released: its header waits. -/
theorem spaced_nsfree (hK : Backed p w) (hX : Spaced p w) {s : ℕ} (sz c : ℕ)
    (hs : w.slabs s = true)
    (hrun : nsfree p { w with slabs := update w.slabs s false } s sz c = some w') : Spaced p w' := by
  obtain ⟨w'', hrun', -, -, hfl, -, hfr, hsl, hst, -, hre⟩ := nsfree_spec hK hs sz c
  obtain rfl : w'' = w' := Option.some.inj (hrun'.symm.trans hrun)
  refine hX.congr (fun h => ?_) (fun h _ => by rw [hst]) hfr hre
  unfold Owned
  rw [hsl, hfl, (flAdd_perm w.env.fl s).mem_iff, update_false_iff, List.mem_cons]
  by_cases he : h = s <;> simp [he, hs]

/-- A new header claims the range at the frontier. -/
theorem spaced_new (hK : Backed p w) (hX : Spaced p w) {s : ℕ} (hlt : w.env.frontier < p.ert.descMax)
    (hs : ¬ Owned w s) (hown : ∀ h, Owned w' h ↔ h = s ∨ Owned w h)
    (hself : w'.start s = w.env.frontier) (hst : ∀ h, Owned w h → w'.start h = w.start h)
    (hfr : w'.env.frontier = w.env.frontier + p.ert.range)
    (hre : ∀ id, Reaches p w id → Reaches p w' id) (hnew : Reaches p w' w.env.frontier) :
    Spaced p w' := by
  have hle := add_range_le hK.frontier hlt
  have hW : w.env.frontier + p.ert.range < 2 ^ wordBits p.ert.arch := hle.trans_lt p.ert.descMax_lt
  have hclaim : ∀ h id, claim w' h = some id ↔ h = s ∧ w.env.frontier = id ∨ claim w h = some id := by
    intro h id
    rw [claim_eq_some, claim_eq_some, hown]
    by_cases he : h = s
    · subst he
      simp [hs, hself]
    · constructor
      · rintro ⟨ho, h'⟩
        have ho := ho.resolve_left he
        exact .inr ⟨ho, by rw [← hst h ho, h']⟩
      · rintro (⟨h', -⟩ | ⟨ho, h'⟩)
        · exact absurd h' he
        · exact ⟨.inr ho, by rw [hst h ho, h']⟩
  have hnone : claim w s = none := if_neg hs
  have htake : Take p.ert.range (2 ^ wordBits p.ert.arch) (claim w) w.env.frontier s (claim w')
      w'.env.frontier := by
    refine ⟨by rw [hfr, Nat.mod_eq_of_lt hW], fun id h => ?_, fun h id hne h' => ?_⟩
    · rcases (hclaim s id).mp h with ⟨-, he⟩ | h
      · exact he.symm
      · rw [hnone] at h
        cases h
    · exact ((hclaim h id).mp h').resolve_left fun h => hne h.1
  refine ⟨hfr ▸ hle, htake.claims hX.claims hK.frontier p.ert.range_pos hW, ?_, fun h ho => ?_⟩
  · exact htake.covered hX.covered hW ((hclaim s _).mpr (.inl ⟨rfl, rfl⟩))
      (fun h id _ h' => (hclaim h id).mpr (.inr h')) hnone
  · rcases (hown h).mp ho with rfl | ho
    · rw [hself]
      exact hnew
    · rw [hst h ho]
      exact hre _ (hX.reaches h ho)

/-- **An allocation of a slab that loses no range** keeps the invariant; one that fails leaves the
frontier, and the ranges that wait. -/
theorem nsalloc_lossless (hK : Backed p w) (hX : Spaced p w) (hA : Lossless p w c o) {sz : ℕ}
    (hR : Requested p w c o) (hrun : nsalloc p w sz c o = some (r, w')) :
    match r with
    | none => Spaced p w' ∧ w'.env.frontier = w.env.frontier ∧ w'.env.fl = w.env.fl
    | some s => Spaced p { w' with slabs := update w'.slabs s true } := by
  obtain ⟨hre, hout⟩ := nsalloc_outcome hK hX.reaches hR hrun
  unfold Lossless at hA
  have hne : ∀ {s h}, ¬ Owned w s → Owned w h → h ≠ s := by
    rintro s h hs ho rfl
    exact hs ho
  cases hout with
  | none h hfl hno _ =>
      rw [hfl] at hA
      rcases hno with hno | hno
      · exact absurd hA.1 (by omega)
      · exact absurd hA.2 hno
  | lost _ _ _ hfl hb _ =>
      rw [hfl] at hA
      exact absurd hb hA
  | undone s hfl hlt hs hsl hfl' hfr hst =>
      refine ⟨hX.congr (fun h => ?_) (fun h ho => ?_) hfr hre, hfr, hfl'.trans hfl.symm⟩
      · unfold Owned
        rw [hsl, hfl', hfl]
      · rw [hst, update_of_ne (hne hs ho)]
  | again s fl hfl hsl hfl' hfr hst =>
      refine hX.congr (fun h => ?_) (fun h _ => congrFun hst h) hfr hre
      unfold Owned
      rw [hfl, hfl', hsl, List.mem_cons, update_true_iff]
      tauto
  | fresh s hfl hlt hs hsl hfl' hfr hst hnew =>
      refine spaced_new hK hX hlt hs (fun h => ?_) (by rw [hst, update_self])
        (fun h ho => by rw [hst, update_of_ne (hne hs ho)]) hfr hre hnew
      unfold Owned
      rw [hfl, hfl', hsl, update_true_iff]
      tauto

/-- The invariant is about the environment, and the ids of headers. -/
theorem Spaced.sameEnv (hw : SameEnv w w') (hX : Spaced p w) : Spaced p w' := by
  refine hX.congr (fun h => ?_) (fun h _ => congrFun hw.start h) (congrArg _ hw.env) fun id hid => ?_
  · unfold Owned
    rw [hw.slabs, hw.env]
  · unfold Reaches at *
    rwa [hw.env]

/-- A world where there are no headers. -/
theorem spaced_none (hown : ∀ h, ¬ Owned w h) (hfr : w.env.frontier = 0) : Spaced p w := by
  have hclaim : ∀ h id, claim w h ≠ some id := fun h id he => hown h (claim_eq_some.mp he).1
  refine ⟨hfr ▸ Nat.zero_le _, ⟨fun h id he => ?_, fun h id he => ?_, fun h h' id he => ?_⟩,
    ⟨hfr ▸ Nat.dvd_zero _, fun id _ hlt => ?_⟩, fun h ho => absurd ho (hown h)⟩
  · exact absurd he (hclaim h id)
  · exact absurd he (hclaim h id)
  · exact absurd he (hclaim h id)
  · rw [hfr] at hlt
    exact absurd hlt (Nat.not_lt_zero id)

/-- What is relied on, with the space that is kept where no range is lost. -/
theorem backing_spaced (p : Params) :
    Backing p.slab (fns p) (fun w c o => Asked p w c o ∧ Lossless p w c o) fun w =>
      Backed p w ∧ Spaced p w := by
  refine (backing p).and (fun _ _ h => h.1) (fun hw hX => hX.sameEnv hw) ?_ ?_
  · intro w w' s sz c hK hX hE hrun
    exact spaced_nsfree hK hX sz c hE.slabs hrun
  · intro w w' sz c o r hK hX hA hrun
    have hrun : nsalloc p w sz c o = some (r, w') := hrun
    have h := nsalloc_lossless hK hX hA.2 hA.1.toRequested hrun
    cases r with
    | none => exact h.1
    | some s => exact h

end Invariant

/-! ## Runs -/

section Runs

variable {I : Type} [DecidableEq I] {P : I → Params} {s : St I}

/-- Two conditions on what is asked for. -/
theorem AtCall.and {p : Params} {A A' : World NsEnv → ℕ → Oracle → Prop} {n : NsSt} {op : Op}
    (h : AtCall p A n op) (h' : AtCall p A' n op) : AtCall p (fun w c o => A w c o ∧ A' w c o) n op := by
  cases op with
  | alloc c o => exact fun w hprep hfl => ⟨h w hprep hfl, h' w hprep hfl⟩
  | free c a t => trivial
  | freedesc c d t => trivial
  | lkup d => trivial

omit [DecidableEq I] in
/-- What is relied on in all namespaces. -/
theorem backs_spaced (P : I → Params) :
    Backs P (fun i w c o => Asked (P i) w c o ∧ Lossless (P i) w c o) fun i => Spaced (P i) :=
  ⟨fun i => backing_spaced (P i), fun _ _ _ _ h => h.1.toRequested,
    fun _ _ _ _ _ _ hX => hX.congr (fun _ => .rfl) (fun _ _ => rfl) rfl fun _ h => h⟩

/-- The invariant along runs in which no range is lost. -/
theorem sysInv_of_lossless
    (h : (sys P).Reach (fun s a => (s.view a.1).Ok (P a.1) a.2 ∧ Sound (P a.1) (s.view a.1) a.2 ∧
      AtCall (P a.1) (Lossless (P a.1)) (s.view a.1) a.2) s) :
    SysInv P (fun _ => True) (fun i => Spaced (P i)) s := by
  refine exists_sysInv (backs_spaced P) (fun s hs i => ?_) (fun s a s' _ hg hs => ?_) h
  · exact spaced_none ((hs.1 i).backed (hs.2.1.inv (P i)).1).2 (hs.1 i).frontier
  · obtain ⟨n, hn, -⟩ := Option.map_eq_some_iff.mp hs
    exact ⟨hg.1, (atCall_asked hg.1 hn).and hg.2.2, freedOn_true .., hg.2.1⟩

/-- **The space of descriptors is neither lost nor overrun**, in every state of every run in which no
range is lost; and the calls that fail then leave it as it was. -/
theorem space_of_reach
    (h : (sys P).Reach (fun s a => (s.view a.1).Ok (P a.1) a.2 ∧ Sound (P a.1) (s.view a.1) a.2 ∧
      AtCall (P a.1) (Lossless (P a.1)) (s.view a.1) a.2) s) (i : I) :
    SpaceExact (P i) (s.view i).w ∧ ∀ c o, (s.view i).Ok (P i) (.alloc c o) →
      AtCall (P i) (Lossless (P i)) (s.view i) (.alloc c o) →
      AtCall (P i) (KeepsSpace (P i)) (s.view i) (.alloc c o) := by
  obtain ⟨cont, hN⟩ := (sysInv_of_lossless h).ns i
  refine ⟨hN.supply.2.exact hN.supply.1, fun c o hok hA w hprep hfl sz w' hrun => ?_⟩
  obtain ⟨cont₁, -, ⟨hK, hX⟩, -⟩ := allocPrep_kept (backing_spaced (P i)) (countFits (P i)) hN.inv
    hN.supply hprep
  exact (nsalloc_lossless hK hX (hA w hprep hfl) ⟨hok.2 w hprep hfl, hok.1⟩ hrun).2

/-! ## Runs of one namespace -/

instance (p : Params) (w : World NsEnv) (c : ℕ) (o : Oracle) : Decidable (GetsHeader p w c o) :=
  inferInstanceAs (Decidable (_ = true))

instance (p : Params) (w : World NsEnv) (c : ℕ) (o : Oracle) : Decidable (Lossless p w c o) := by
  unfold Lossless
  exact match w.env.fl with
    | [] => inferInstanceAs (Decidable (_ ∧ _))
    | _ :: _ => inferInstanceAs (Decidable (_ ≠ _))

instance (p : Params) (A : World NsEnv → ℕ → Oracle → Prop) [∀ w c o, Decidable (A w c o)] (n : NsSt) :
    ∀ op, Decidable (AtCall p A n op)
  | .alloc c o => inferInstanceAs (Decidable (∀ w ∈ allocPrep p.slab (fns p) n.w c,
      w.flist c = none → A w c o))
  | .free _ _ _ | .freedesc _ _ _ | .lkup _ => .isTrue trivial

/-- A slab of four slots, all in use. -/
theorem space_quad : ∃ s : St Unit, (s.view ()).w.env.frontier = 4 ∧ (s.view ()).live ⟨7, 96⟩ = true ∧
    SpaceExact quad (s.view ()).w := by
  obtain ⟨s, hs, hq⟩ := exists_run (p := quad)
    (fun s a => a.2.NoFree ∧ AtCall quad (Lossless quad) (s.view a.1) a.2) (by decide +kernel)
    (by decide) (by decide) (by decide +kernel)
    [((), .alloc 0 supply), ((), .alloc 0 supply), ((), .alloc 0 supply)]
    (q := fun s => (s.view ()).w.env.frontier = 4 ∧ (s.view ()).live ⟨7, 96⟩) (by decide +kernel)
  obtain ⟨hfr, hlive⟩ := of_decide_eq_true hq
  refine ⟨s, hfr, hlive, (space_of_reach (hs.mono fun s a h => ⟨h.1, ?_, h.2.2⟩) ()).1⟩
  exact h.2.1.sound

/-- Nothing that is asked for is allocated. -/
def noSupply : Oracle := ⟨none, none, fun _ => false⟩

/-- An allocation that is given nothing is given nothing that is in use. -/
theorem supplied_noSupply (p : Params) (w : World NsEnv) (c : ℕ) : Supplied p w c noSupply :=
  ⟨fun b h => (Option.some_ne_none b h.symm).elim, fun _ _ _ b h => (Option.some_ne_none b h.symm).elim⟩

/-- No header is allocated: the frontier has moved, and no header has the range. -/
theorem not_space : ∃ s, (sys fun _ : Unit => quad).Reach
    (fun s a => (s.view a.1).Ok quad a.2 ∧ a.2.NoFree) s ∧ ¬ SpaceExact quad (s.view ()).w := by
  obtain ⟨s, hs⟩ : ∃ s, (sys fun _ : Unit => quad).step (newSt fun _ => quad)
      ((), .alloc 0 noSupply) = some s := ⟨_, rfl⟩
  have hok : ((newSt fun _ : Unit => quad).view ()).Ok quad (.alloc 0 noSupply) :=
    ⟨by decide, fun w _ _ => supplied_noSupply quad w 0⟩
  have hfree : (Op.alloc 0 noSupply).NoFree := trivial
  refine ⟨s, .step (.init (init_newSt (fun _ _ => rfl) fun _ => by decide +kernel)) ⟨hok, hfree⟩ hs,
    fun h => ?_⟩
  cases hs
  obtain ⟨h, ⟨ho | ho, -⟩, -⟩ := h.partition 0 (by decide +kernel)
  · cases ho
  · cases ho

end Runs

end Parsec.Nsptr
