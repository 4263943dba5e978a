import Parsec.Ertrie.Rep
import Parsec.Lib.Lts

/-!
# The radix trie is a finite map, where its node sizes fit

The tries made by `ERT_CREATE_DEF`, driven by calls of `__ert_expand` with a limit past the leaf.

* `trie`, `FiniteMap` — the runs of calls, beside an abstract map; no call faults, lookups agree
  with the map, and calls return what they should.
* `Sim` — the memory represents the abstract map; every call keeps this (`Sim.step`).
* `finiteMap_iff_sizesFit` — the trie is a finite map exactly where no node size wraps around: a
  size is computed in 32 bits, so that for a node of `2 ^ 32` bytes none are allocated.
-/

namespace Parsec.Ertrie

open Function Lib

variable {g : Geom}

/-! ## The trie as a system, and what it should be -/

/-- A call of `name_expand` with a limit past the leaf. -/
structure Op where
  id : ℕ
  data : Ptr
  oks : ℕ → Bool

/-- The trie, its root, and the abstract map. -/
structure TrieSt where
  mem : Mem
  root : ℕ
  map : ℕ → Ptr

/-- The lookup past the leaf. -/
def lkup (g : Geom) (m : Mem) (v id : ℕ) : Option Ptr :=
  ertLookup g.consts g.fns m (some (.cell v 0)) id 0 (g.depth + 1)

/-- The expansion past the leaf. -/
def expand (g : Geom) (m : Mem) (v : ℕ) (op : Op) : Option (ℤ × Mem) :=
  ertExpand g.consts g.fns m (some (.cell v 0)) op.id 0 (g.depth + 1) op.oks op.data

/-- A trie that `ert_alloc` has made, and calls on it. A call that returns 0 sets its id in the
abstract map. -/
def trie (g : Geom) : Lts TrieSt Op where
  init s := (∃ m oks, ertAlloc g.consts g.fns m oks = some (some (.cell s.root 0), s.mem)) ∧
    ∀ id, s.map id = none
  step s op :=
    if op.id < ertMaxid g.consts then
      (expand g s.mem s.root op).map fun (r, m) =>
        { s with mem := m, map := if r = 0 then update s.map op.id op.data else s.map }
    else none

/-- Lookups agree with the abstract map, and the next call returns what it should, without a
fault. -/
structure IsMap (g : Geom) (s : TrieSt) : Prop where
  lkup : ∀ id < ertMaxid g.consts, lkup g s.mem s.root id = some (s.map id)
  expand : ∀ op : Op, op.id < ertMaxid g.consts →
    ∃ r m, expand g s.mem s.root op = some (r, m) ∧ (r = 0 ∨ r = 1 ∨ r = -1) ∧
      (r = 1 ↔ op.data ≠ none ∧ s.map op.id ≠ none) ∧
      (r = -1 → AllocFailed g m op.oks) ∧
      (r ≠ 0 → ∀ id < ertMaxid g.consts,
        Ertrie.lkup g m s.root id = Ertrie.lkup g s.mem s.root id)

/-- **The trie is a finite map**: it is made without a fault, and every run of calls keeps it one. -/
def FiniteMap (g : Geom) : Prop :=
  (∀ m oks, ertAlloc g.consts g.fns m oks ≠ none) ∧
    ∀ s, (trie g).Reach (fun _ _ => True) s → IsMap g s

/-- The simulation: the memory represents the abstract map. -/
def Sim (g : Geom) (s : TrieSt) : Prop :=
  Rep g s.mem s.root ∧ ∀ id < ertMaxid g.consts, valueAt g s.mem s.root id = s.map id

/-- A trie that represents its abstract map is one. -/
theorem Sim.isMap (hS : SizesFit g) {s : TrieSt} (h : Sim g s) : IsMap g s := by
  obtain ⟨hR, hmap⟩ := h
  refine ⟨fun id hid => ?_, fun op hid => ?_⟩
  · rw [lkup, hR.ertLookup_eq hid, hmap id hid]
  · obtain ⟨r, m, hrun, hR', hend⟩ := hR.ertExpand_spec hS op.oks hid op.data
    rw [hmap op.id hid] at hend
    refine ⟨r, m, hrun, ?_, ?_, ?_, fun hr id hid' => ?_⟩
    · rcases hend with ⟨h, -⟩ | ⟨⟨h, -⟩ | ⟨h, -⟩, -⟩ <;> simp [h]
    · rcases hend with ⟨rfl, h, -⟩ | ⟨⟨rfl, h⟩ | ⟨rfl, h, -⟩, -⟩
      · exact ⟨fun h₀ => absurd h₀ (by decide), fun h₁ => absurd h₁ h⟩
      · exact ⟨fun _ => h, fun _ => rfl⟩
      · exact ⟨fun h₀ => absurd h₀ (by decide), fun h₁ => absurd h h₁.2⟩
    · rintro rfl
      rcases hend with ⟨h, -⟩ | ⟨⟨h, -⟩ | ⟨-, -, hfail⟩, -⟩
      · cases h
      · cases h
      · exact hfail
    · rcases hend with ⟨rfl, -⟩ | ⟨-, hval⟩
      · exact absurd rfl hr
      · rw [lkup, lkup, hR'.ertLookup_eq hid', hR.ertLookup_eq hid', hval]

/-- A call keeps the simulation. -/
theorem Sim.step (hS : SizesFit g) {s s' : TrieSt} {op : Op} (h : Sim g s)
    (hs : (trie g).step s op = some s') : Sim g s' := by
  obtain ⟨hR, hmap⟩ := h
  simp only [trie, Option.ite_none_right_eq_some] at hs
  obtain ⟨hid, hs⟩ := hs
  obtain ⟨r, m, hrun, hR', hend⟩ := hR.ertExpand_spec hS op.oks hid op.data
  rw [expand, hrun, Option.map_some, Option.some.injEq] at hs
  subst hs
  refine ⟨hR', fun id hid' => ?_⟩
  rcases hend with ⟨rfl, -, hval⟩ | ⟨hr, hval⟩
  · simp only [hval id hid', if_true]
    by_cases hne : id = op.id
    · subst hne
      simp
    · rw [if_neg hne, update_of_ne hne, hmap id hid']
  · have hne : r ≠ 0 := by
      rcases hr with ⟨rfl, -⟩ | ⟨rfl, -⟩ <;> decide
    simp only [hval id, if_neg hne]
    exact hmap id hid'

/-- Where the sizes fit, the trie is a finite map. -/
theorem finiteMap_of_sizesFit (hS : SizesFit g) : FiniteMap g := by
  refine ⟨fun m oks => ?_, fun s hr => (Lts.invariant (I := Sim g) ?_ ?_ hr).isMap hS⟩
  · obtain ⟨p, m', hrun, -⟩ := ertAlloc_spec hS m oks
    rw [hrun]
    exact Option.some_ne_none _
  · rintro s ⟨⟨m, oks, hrun⟩, hmap⟩
    obtain ⟨p, m', hrun', hR⟩ := ertAlloc_spec hS m oks
    rw [hrun, Option.some.injEq, Prod.mk.injEq] at hrun'
    obtain ⟨rfl, rfl⟩ := hrun'
    obtain ⟨hR, hval⟩ := hR s.root rfl
    exact ⟨hR, fun id _ => by rw [hval, hmap]⟩
  · intro s op s' h _ hs
    exact h.step hS hs

/-! ## Where a size wraps around -/

/-- An allocation that is told to succeed, of a size that is not negative, does. -/
theorem allocfn_true {isleaf : Bool} (hneg : ¬ NodeNeg g isleaf) (m : Mem) :
    g.fns.allocfn m (fun _ => true) (nodeSz g.consts isleaf) isleaf =
      (some (.cell m.brk 0), { m with
        brk := m.brk + 1, size := update m.size m.brk (nodeSz g.consts isleaf).toNat }) := by
  refine if_pos ⟨rfl, ?_⟩
  rw [nodeSz_of_not_neg hneg]
  exact Int.natCast_nonneg _

/-- `__ert_init` of a node whose size wraps around faults: it writes outside of the block. -/
theorem ertInit_eq_none {isleaf : Bool} (hok : ¬ NodeOk g isleaf) (hneg : ¬ NodeNeg g isleaf)
    {m : Mem} {b : ℕ} (hsize : m.size b = (nodeSz g.consts isleaf).toNat) :
    ertInit g.consts g.fns m (some (.cell b 0)) isleaf = none := by
  obtain ⟨i, hi, hout⟩ := exists_initOff_out hok hneg
  refine initLoop_eq_none hi fun off hoff => ?_
  rw [hsize, nodeSz_of_not_neg hneg, Int.toNat_natCast]
  exact hout off hoff

/-- A root whose size wraps around faults. -/
theorem ertAlloc_eq_none (hok : ¬ NodeOk g (decide (g.consts.depth = 1)))
    (hneg : ¬ NodeNeg g (decide (g.consts.depth = 1))) (m : Mem) :
    ertAlloc g.consts g.fns m (fun _ => true) = none := by
  unfold ertAlloc
  rw [if_pos (ertAlloc_assert g)]
  simp only [allocfn_true hneg]
  rw [ertInit_eq_none hok hneg (by simp)]
  rfl

/-- A trie that `ert_alloc` returns has nothing stored. -/
theorem rep_of_ertAlloc {m m' : Mem} {oks : ℕ → Bool} {v : ℕ}
    (h : ertAlloc g.consts g.fns m oks = some (some (.cell v 0), m')) :
    Rep g m' v ∧ ∀ id, valueAt g m' v id = none := by
  rcases allocfn_cases (g := g) m oks (decide (g.consts.depth = 1)) with hal | ⟨hneg, hal⟩
  · unfold ertAlloc at h
    rw [if_pos (ertAlloc_assert g)] at h
    simp only [hal] at h
    cases h
  · have hok : NodeOk g (decide (g.consts.depth = 1)) := by
      by_contra hok
      unfold ertAlloc at h
      rw [if_pos (ertAlloc_assert g)] at h
      simp only [hal] at h
      rw [ertInit_eq_none hok hneg (by simp)] at h
      cases h
    obtain ⟨m₁, hrun, hR, hval, -⟩ := ertAlloc_of_some oks (decide_root g ▸ hok) hal
      (Nat.lt_succ_self _) (by rw [hok.nodeSz_eq, decide_root]; simp)
    rw [hrun] at h
    cases h
    exact ⟨hR, hval⟩

/-- An expansion that comes to allocate a leaf node whose size wraps around faults. -/
theorem expandLoop_eq_none (hok : ¬ NodeOk g true) (hneg : ¬ NodeNeg g true) {m : Mem}
    {v id k i b : ℕ} {e : Addr} (hR : Rep g m v) (hk : i + (k + 1) = g.hops)
    (he : Holds g m v id i e) (hb : nodeAt g m v (path g.consts id i) = some b)
    (hnone : nodeAt g m v (path g.consts id (i + 1)) = none) :
    expandLoop g.consts g.fns (fun _ => true) id (k + 1) i e m = none := by
  have hnull : ∀ {i b : ℕ} {m : Mem}, Rep g m v → i < g.hops →
      nodeAt g m v (path g.consts id i) = some b →
      nodeAt g m v (path g.consts id (i + 1)) = none →
      m.word b (hop g.consts id i * psWord g.arch) = none := by
    intro i b m hR hi hb hnone
    have hlen : (path g.consts id i).length < g.hops := by rwa [length_path]
    refine (hR.shape _ b _ hlen hb (hop_lt g.consts id i)).resolve_right fun ⟨b', hw⟩ => ?_
    rw [nodeAt_path_succ hb, child_of_word (hop_lt g.consts id i) hw] at hnone
    cases hnone
  induction k generalizing i e b m with
  | zero =>
      rw [hR.expandLoop_null (by omega) he hb hnone, decide_eq_true (by omega),
        allocfn_true hneg]
      dsimp only
      rw [ertInit_eq_none hok hneg (by simp)]
      rfl
  | succ k ih =>
      have hi : i < g.hops := by omega
      have hlen : (path g.consts id i).length < g.hops := by rwa [length_path]
      have hokI : NodeOk g false := by
        have hroot := hR.ok [] v (Nat.zero_le _) rfl
        rwa [decide_eq_false (by simp; omega)] at hroot
      have hnegI : ¬ NodeNeg g false := by
        intro h
        have h₁ := h.nodeSz_neg
        rw [hokI.nodeSz_eq] at h₁
        omega
      have hbrk := hR.lt _ b hlen.le hb
      obtain ⟨m₁, m₂, h₁, h₂, hL⟩ := exists_linked hokI hbrk.ne (hR.hop_le hi hb).2
      rw [hR.expandLoop_null hi he hb hnone, decide_eq_false (by omega), allocfn_true hnegI]
      simp only [h₁, h₂, Option.bind_some]
      have hleaf : decide ((path g.consts id i).length + 1 = g.hops) = false :=
        decide_eq_false (by rw [length_path]; omega)
      rw [← hleaf] at hokI hL
      have hword := hnull hR hi hb hnone
      obtain ⟨hnew, hheld⟩ := hR.holds_linked hi hb hword hL
      refine ih (hR.link hlen hb (hop_lt g.consts id i) hword hokI hL) (by omega) hheld hnew ?_
      have hne : path g.consts id (i + 1 + 1) ≠ path g.consts id i ++ [hop g.consts id i] := by
        intro h
        have := congrArg List.length h
        simp at this
      rw [hR.nodeAt_linked hlen hb (hop_lt g.consts id i) hword hL (by rw [length_path]; omega),
        if_neg hne]
      exact nodeAt_path_of_none hnone (by omega)

/-- Where the sizes do not fit, some run faults. -/
theorem sizesFit_of_finiteMap (h : FiniteMap g) : SizesFit g := by
  have hroot : NodeNeg g (decide (g.depth = 1)) ∨ NodeOk g (decide (g.depth = 1)) := by
    by_contra hbad
    rw [not_or] at hbad
    exact h.1 ⟨0, fun _ => 0, fun _ _ => none⟩ _ (ertAlloc_eq_none hbad.2 hbad.1 _)
  refine ⟨hroot, fun hdepth hokI => ?_⟩
  by_contra hbad
  rw [not_or] at hbad
  -- a new trie, and a call for id 0 in which every allocation succeeds
  have hleaf : decide (g.consts.depth = 1) = false :=
    decide_eq_false (by rw [Geom.consts_depth]; omega)
  have hnegI : ¬ NodeNeg g false := by
    intro hneg
    have h₁ := hneg.nodeSz_neg
    rw [hokI.nodeSz_eq] at h₁
    omega
  obtain ⟨m, hrun, hR, -, hpath⟩ := ertAlloc_of_some (g := g) (fun _ => true)
    (m := ⟨0, fun _ => 0, fun _ _ => none⟩) (v := 0)
    (by rw [← decide_root, hleaf]; exact hokI) (by rw [hleaf]; exact allocfn_true hnegI _)
    (Nat.lt_succ_self _) (by rw [← decide_root, hleaf, hokI.nodeSz_eq]; simp)
  have hreach : (trie g).Reach (fun _ _ => True) ⟨m, 0, fun _ => none⟩ :=
    .init ⟨⟨_, _, hrun⟩, fun _ => rfl⟩
  have hid : 0 < ertMaxid g.consts := (lt_ertMaxid_iff g).mpr (Nat.two_pow_pos _)
  obtain ⟨r, m', hexp, -⟩ := (h.2 _ hreach).expand ⟨0, none, fun _ => true⟩ hid
  have hloop := expandLoop_eq_none (k := g.hops - 1) hbad.2 hbad.1 hR
    (by have := g.depth_eq; omega) (holds_vect g m 0 0) rfl
    (hpath _ (by rw [path_succ]; simp) (by rw [length_path]; have := g.depth_eq; omega))
  have hpos : 0 < g.consts.depth := g.depth_pos
  have hpast := ertExpand_past (c := g.consts) (f := g.fns) (m := m) (v := 0) (fun _ => true) none
    hid hpos g.depth_lt_u32
  rw [Geom.consts_depth] at hpast
  rw [show g.hops - 1 + 1 = g.depth - 1 - 0 by have := g.depth_eq; omega] at hloop
  rw [expand, hpast, hloop] at hexp
  cases hexp

/-- **The trie is a finite map exactly where its node sizes fit.** -/
theorem finiteMap_iff_sizesFit (g : Geom) : FiniteMap g ↔ SizesFit g :=
  ⟨sizesFit_of_finiteMap, finiteMap_of_sizesFit⟩

/-- A trie of one level of `2 ^ 30` entries of 8 bytes: its `2 ^ 33` bytes are 0 as a `u32_t`. -/
def wideTrie : Geom where
  arch := .x86_64
  depth := 1
  order := 1
  lastOrder := 30
  lastSz := 8
  depth_pos := by decide
  depth_lt := by decide
  order_le := by decide
  lastOrder_le := by decide
  lastSz_lt := by decide
  bits_lt := by decide

/-- Such a trie is no finite map: making it already faults. -/
theorem not_finiteMap_wideTrie : ¬ FiniteMap wideTrie := by
  intro h
  have hfit := (sizesFit_of_finiteMap h).1
  revert hfit
  decide

end Parsec.Ertrie
