import Parsec.Ertrie.Limits
import Parsec.Ertrie.Map

/-!
# Partial walks

Lookups and expansions down to some level, and from a node of some level, in tries of
`ERT_CREATE_DEF` that any such expansions have made.

* `lkupani`, `expandni` and `lkupan`, `expandn` — the calls.
* `Stands` — an address that a walk of an id can have come to.
* `expandLoop_again` — what a loop of `__ert_expand` has expanded, it finds when it is run again.
* `partialTrie`, `Composes` — the runs of calls, and that a walk may be made in parts: each part
  returns, and the results agree.
* `composes_iff` — it may, in every trie reached, exactly where a leaf node that is allocated can be
  initialised.
-/

namespace Parsec.Ertrie

open Function Lib

/-! ## The calls -/

/-- Source: `ps_ertrie.h`, `ERT_CREATE`: `name##_lkupani` -/
def lkupani (g : Geom) (m : Mem) (v : Ptr) (id dstart dlimit : ℕ) : Option Ptr :=
  ertLookup g.consts g.fns m v id dstart dlimit

/-- Source: `ps_ertrie.h`, `ERT_CREATE`: `name##_lkupan` -/
def lkupan (g : Geom) (m : Mem) (v : Ptr) (id dlimit : ℕ) : Option Ptr :=
  lkupani g m v id 0 dlimit

/-- Source: `ps_ertrie.h`, `ERT_CREATE`: `name##_expandni` -/
def expandni (g : Geom) (m : Mem) (v : Ptr) (id dstart dlimit : ℕ) (oks : ℕ → Bool) (data : Ptr) :
    Option (ℤ × Mem) :=
  ertExpand g.consts g.fns m v id dstart dlimit oks data

/-- Source: `ps_ertrie.h`, `ERT_CREATE`: `name##_expandn` -/
def expandn (g : Geom) (m : Mem) (v : Ptr) (id dlimit : ℕ) (oks : ℕ → Bool) (data : Ptr) :
    Option (ℤ × Mem) :=
  expandni g m v id 0 dlimit oks data

variable {g : Geom} {m m' : Mem} {v id : ℕ}

/-! ## Where walks come to -/

/-- An address whose `next` leads to the node `i` hops down the path of an id, or is NULL where
there is none: a local entry for the node, or the entry of the node above. -/
def Stands (g : Geom) (m : Mem) (v id i : ℕ) (e : Addr) : Prop :=
  (∃ b, nodeAt g m v (path g.consts id i) = some b ∧ e = .vect b) ∨
    ∃ j b, i = j + 1 ∧ nodeAt g m v (path g.consts id j) = some b ∧
      e = .cell b (hop g.consts id j * psWord g.arch)

/-- A lookup stands at the root at first. -/
theorem stands_root (g : Geom) (m : Mem) (v id : ℕ) : Stands g m v id 0 (.vect v) :=
  .inl ⟨v, rfl, rfl⟩

/-- The nodes of a trie are still there. -/
def Kept (g : Geom) (v : ℕ) (m m' : Mem) : Prop :=
  ∀ q b, q.length ≤ g.hops → nodeAt g m v q = some b → nodeAt g m' v q = some b

/-- Nothing is lost where nothing changes. -/
theorem Kept.refl (g : Geom) (v : ℕ) (m : Mem) : Kept g v m m := fun _ _ _ h => h

/-- Nothing is lost in two steps that lose nothing. -/
theorem Kept.trans {m'' : Mem} (h : Kept g v m m') (h' : Kept g v m' m'') : Kept g v m m'' :=
  fun q b hq hb => h' q b hq (h q b hq hb)

/-- A node on the way to an id stays. -/
theorem Kept.path (h : Kept g v m m') {i b : ℕ} (hi : i ≤ g.hops)
    (hb : nodeAt g m v (path g.consts id i) = some b) :
    nodeAt g m' v (path g.consts id i) = some b := h _ b (by rwa [length_path]) hb

/-- Where a lookup stands in a memory, it stands after an expansion. -/
theorem Kept.stands (h : Kept g v m m') {i : ℕ} {e : Addr} (hi : i ≤ g.hops)
    (he : Stands g m v id i e) : Stands g m' v id i e := by
  rcases he with ⟨b, hb, rfl⟩ | ⟨j, b, rfl, hb, rfl⟩
  · exact .inl ⟨b, h.path hi hb, rfl⟩
  · exact .inr ⟨j, b, rfl, h.path (by omega) hb, rfl⟩

namespace Rep

/-- What such an address holds. -/
theorem holds (hR : Rep g m v) {i : ℕ} {e : Addr} (hi : i ≤ g.hops) (he : Stands g m v id i e) :
    Holds g m v id i e := by
  rcases he with ⟨b, hb, rfl⟩ | ⟨j, b, rfl, hb, rfl⟩
  · exact ⟨by rw [hb]; rfl⟩
  · have hvect : Holds g m v id j (.vect b) := ⟨by rw [hb]; rfl⟩
    exact (hR.ertWalk_hop hvect hi hb).2

/-- A round of `__ert_expand` that finds a node. -/
theorem expandLoop_some (hR : Rep g m v) {oks : ℕ → Bool} {k i b b' : ℕ} {e : Addr}
    (hi : i < g.hops) (he : Holds g m v id i e)
    (hb : nodeAt g m v (path g.consts id i) = some b)
    (hsome : nodeAt g m v (path g.consts id (i + 1)) = some b') :
    expandLoop g.consts g.fns oks id (k + 1) i e m =
      expandLoop g.consts g.fns oks id k (i + 1) (.cell b (hop g.consts id i * psWord g.arch)) m := by
  obtain ⟨hwalk, hnext⟩ := hR.ertWalk_hop he hi hb
  have hload := hnext.load
  rw [hsome, Option.map_some] at hload
  have hlt : i < g.consts.depth := lt_of_lt_of_le hi g.hops_le
  rw [← Geom.consts_depth] at hwalk
  rw [expandLoop_succ _ _ _ _ _ hlt g.depth_lt]
  simp only [Geom.consts_arch, hwalk, hload, Option.bind_some, ne_eq, reduceCtorEq,
    not_false_eq_true, if_true]

/-- What a loop of `__ert_expand` has expanded, it finds when it is run again: the trie is still one
with the nodes it had, the loop has come to a node below, and it would come there again without
writing. -/
theorem expandLoop_again (hR : Rep g m v) {oks : ℕ → Bool} {k i b : ℕ} {e : Addr} {r : Ptr}
    (hik : i + k ≤ g.hops) (he : Stands g m v id i e)
    (hb : nodeAt g m v (path g.consts id i) = some b)
    (hrun : expandLoop g.consts g.fns oks id k i e m = some (r, m')) :
    Rep g m' v ∧ Kept g v m m' ∧ expandLoop g.consts g.fns oks id k i e m' = some (r, m') ∧
      ∀ e', r = some e' → Stands g m' v id (i + k) e' ∧
        ∃ b', nodeAt g m' v (path g.consts id (i + k)) = some b' := by
  induction k generalizing i e b m with
  | zero =>
      cases hrun
      refine ⟨hR, .refl _ _ _, rfl, fun e' he' => ?_⟩
      cases he'
      exact ⟨he, b, hb⟩
  | succ k ih =>
      have hi : i < g.hops := by omega
      have hlen : (path g.consts id i).length < g.hops := by rwa [length_path]
      have hhop : hop g.consts id i < 2 ^ g.order := hop_lt g.consts id i
      have hheld := hR.holds hi.le he
      have hindex : i + (k + 1) = i + 1 + k := by omega
      -- once the node is there, the rest of the run and the run again are those of the next round
      have hnext : ∀ {m₁ : Mem} {b' : ℕ}, Rep g m₁ v → Kept g v m m₁ →
          nodeAt g m₁ v (path g.consts id (i + 1)) = some b' →
          expandLoop g.consts g.fns oks id k (i + 1)
            (.cell b (hop g.consts id i * psWord g.arch)) m₁ = some (r, m') →
          Rep g m' v ∧ Kept g v m m' ∧
            expandLoop g.consts g.fns oks id (k + 1) i e m' = some (r, m') ∧
            ∀ e', r = some e' → Stands g m' v id (i + (k + 1)) e' ∧
              ∃ b', nodeAt g m' v (path g.consts id (i + (k + 1))) = some b' := by
        intro m₁ b' hR₁ hkept hsome hrun
        have hstands : Stands g m₁ v id (i + 1) (.cell b (hop g.consts id i * psWord g.arch)) :=
          .inr ⟨i, b, rfl, hkept.path hi.le hb, rfl⟩
        obtain ⟨hR', hkept', hagain, hend⟩ := ih hR₁ (by omega) hstands hsome hrun
        have hkept'' := hkept.trans hkept'
        refine ⟨hR', hkept'', ?_, ?_⟩
        · rw [hR'.expandLoop_some hi (hR'.holds hi.le (hkept''.stands hi.le he))
            (hkept''.path hi.le hb) (hkept'.path hi hsome), hagain]
        · rw [hindex]
          exact hend
      rcases hR.shape _ b _ hlen hb hhop with hnull | ⟨b', hw⟩
      · have hnone : nodeAt g m v (path g.consts id (i + 1)) = none := by
          rw [nodeAt_path_succ hb]
          exact child_of_null hnull
        rw [hR.expandLoop_null hi hheld hb hnone] at hrun
        rcases allocfn_cases (g := g) m oks (decide (i + 1 = g.hops)) with hal | ⟨hneg, hal⟩
        · -- the allocation fails, as it would again
          rw [hal] at hrun
          cases hrun
          refine ⟨hR, .refl _ _ _, ?_, fun e' he' => by cases he'⟩
          rw [hR.expandLoop_null hi hheld hb hnone, hal]
        · rw [hal] at hrun
          by_cases hok : NodeOk g (decide (i + 1 = g.hops))
          · -- a fresh node is linked
            have hbrk := hR.lt _ b hlen.le hb
            obtain ⟨m₁, m₂, h₁, h₂, hL⟩ := exists_linked hok hbrk.ne (hR.hop_le hi hb).2
            simp only [h₁, h₂, Option.bind_some] at hrun
            have hleaf : decide (i + 1 = g.hops) =
                decide ((path g.consts id i).length + 1 = g.hops) := by rw [length_path]
            rw [hleaf] at hok hL
            have hkept : Kept g v m m₂ := by
              intro q c hq hc
              rw [hR.nodeAt_linked hlen hb hhop hnull hL hq, if_neg, hc]
              rintro rfl
              rw [path_succ] at hnone
              rw [hc] at hnone
              cases hnone
            exact hnext (hR.link hlen hb hhop hnull hok hL) hkept
              (hR.holds_linked hi hb hnull hL).1 hrun
          · -- a node whose size wraps around is not initialised
            dsimp only at hrun
            rw [ertInit_eq_none hok hneg (by simp)] at hrun
            cases hrun
      · have hsome : nodeAt g m v (path g.consts id (i + 1)) = some b' := by
          rw [nodeAt_path_succ hb]
          exact child_of_word hhop hw
        rw [hR.expandLoop_some hi hheld hb hsome] at hrun
        exact hnext hR (.refl g v m) hsome hrun

end Rep

/-! ## Calls in parts -/

section Calls

variable {id k d dstart : ℕ} {oks : ℕ → Bool} {data : Ptr}

/-- What an expansion does after its loop: past the leaf it sets the leaf entry.
Source: `ps_ertrie.h`, `__ert_expand` -/
def expandEnd (g : Geom) (id dlimit : ℕ) (data : Ptr) : Ptr × Mem → Option (ℤ × Mem)
  | (none, m) => some (-1, m)
  | (some n, m) =>
      if dlimit = g.depth + 1 then
        (ertWalk g.consts m n id 1).bind fun n =>
          (m.load (psWord g.arch) n).bind fun p =>
            if data ≠ none ∧ p ≠ none then some (1, m)
            else (g.fns.setleaffn m n data).map fun m => (0, m)
      else some (0, m)

/-- An expansion is its loop, and the end. -/
theorem expandni_eq (hid : id < ertMaxid g.consts) (hs : dstart < g.depth) (hsd : dstart ≤ d)
    (hpos : 1 ≤ d) (hle : d ≤ g.depth + 1) :
    expandni g m (some (.cell v 0)) id dstart d oks data =
      (expandLoop g.consts g.fns oks id (min d g.depth - 1 - dstart) dstart (.vect v) m).bind
        (expandEnd g id d data) := by
  have hdepth := g.depth_lt_u32
  unfold expandni
  by_cases hpast : d = g.depth + 1
  · subst hpast
    have hrun := ertExpand_past (f := g.fns) (m := m) (v := v) oks data hid hs hdepth
    rw [Geom.consts_depth] at hrun
    rw [hrun, Nat.min_eq_right (Nat.le_succ _)]
    congr 1
    funext r
    obtain ⟨_ | n, m₁⟩ := r
    · rfl
    · exact (if_pos rfl).symm
  · have hd : d ≤ g.depth := by omega
    rw [ertExpand_inner (c := g.consts) oks data hid hsd hpos hd hdepth, Nat.min_eq_left hd,
      Option.map_eq_bind]
    congr 1
    funext r
    obtain ⟨_ | n, m₁⟩ := r
    · rfl
    · exact (if_neg hpast).symm

/-- An expansion to a depth is the loop with what it ends with. -/
theorem expandn_eq (hid : id < ertMaxid g.consts) (hpos : 1 ≤ d) (hle : d ≤ g.depth + 1) :
    expandn g m (some (.cell v 0)) id d oks data =
      (expandLoop g.consts g.fns oks id (min d g.depth - 1) 0 (.vect v) m).bind
        (expandEnd g id d data) := by
  refine (expandni_eq hid (Nat.lt_of_lt_of_le Nat.zero_lt_one g.depth_pos) (Nat.zero_le d) hpos
    hle).trans ?_
  rw [Nat.sub_zero]

/-- An expansion that stops above the leaf, and one that goes further, are the one that goes
further. -/
theorem Rep.expandn_twice (hR : Rep g m v) {d₁ : ℕ} (hid : id < ertMaxid g.consts) (hpos : 1 ≤ d₁)
    (hlt : d₁ < d) (hle : d ≤ g.depth + 1) (data₁ : Ptr) :
    ((expandn g m (some (.cell v 0)) id d₁ oks data₁).bind fun r =>
        expandn g r.2 (some (.cell v 0)) id d oks data) =
      expandn g m (some (.cell v 0)) id d oks data := by
  have hd₁ : d₁ ≤ g.depth := by omega
  obtain ⟨j, hj⟩ : ∃ j, min d g.depth - 1 = d₁ - 1 + j := ⟨min d g.depth - d₁, by omega⟩
  rw [expandn_eq hid hpos (by omega), Nat.min_eq_left hd₁, expandn_eq hid (by omega) hle, hj]
  cases hrun : expandLoop g.consts g.fns oks id (d₁ - 1) 0 (.vect v) m with
  | none =>
      rw [expandLoop_add, hrun]
      rfl
  | some r =>
      obtain ⟨n, m₁⟩ := r
      have hhops : 0 + (d₁ - 1) ≤ g.hops := by
        have := g.depth_eq
        omega
      obtain ⟨-, -, hagain, -⟩ := hR.expandLoop_again hhops (stands_root g m v id) rfl hrun
      -- both go on from where the first loop has come to
      have hend : ∃ z, expandEnd g id d₁ data₁ (n, m₁) = some (z, m₁) := by
        cases n with
        | none => exact ⟨-1, rfl⟩
        | some n => exact ⟨0, if_neg (by omega)⟩
      obtain ⟨z, hz⟩ := hend
      rw [Option.bind_some, hz, Option.bind_some, expandn_eq hid (by omega) hle, hj, expandLoop_add,
        hagain, expandLoop_add, hrun]

/-- The end of an expansion keeps the representation, and the nodes. -/
theorem Rep.expandEnd (hR : Rep g m v) {i : ℕ} {e : Ptr} {r : ℤ}
    (hpast : d = g.depth + 1 → i = g.hops)
    (he : ∀ e', e = some e' →
      Stands g m v id i e' ∧ ∃ b, nodeAt g m v (path g.consts id i) = some b)
    (hrun : expandEnd g id d data (e, m) = some (r, m')) : Rep g m' v ∧ Kept g v m m' := by
  cases e with
  | none =>
      cases hrun
      exact ⟨hR, .refl _ _ _⟩
  | some e =>
      obtain ⟨hstands, b, hb⟩ := he e rfl
      unfold Ertrie.expandEnd at hrun
      dsimp only at hrun
      split at hrun
      · rename_i h
        obtain rfl := hpast h
        obtain ⟨hwalk, hload⟩ := hR.ertWalk_last (hR.holds le_rfl hstands) hb
        rw [hwalk, Option.bind_some, hload, Option.bind_some] at hrun
        split at hrun
        · cases hrun
          exact ⟨hR, .refl _ _ _⟩
        · rw [show g.fns.setleaffn m (.cell b (walkOff g.consts id 1)) data =
            some (m.set b (walkOff g.consts id 1) data) from store_of_le (hR.last_le hb).2] at hrun
          cases hrun
          refine ⟨(hR.set_leaf data hb).1, fun q c hq hc => ?_⟩
          rw [hR.nodeAt_set data hb hq, hc]
      · cases hrun
        exact ⟨hR, .refl _ _ _⟩

/-- An expansion from a node on the path of its id keeps the representation, and the nodes. -/
theorem Rep.expandni (hR : Rep g m v) {b : ℕ} {r : ℤ} (hid : id < ertMaxid g.consts)
    (hs : dstart < g.depth) (hsd : dstart ≤ d) (hpos : 1 ≤ d) (hle : d ≤ g.depth + 1)
    (hb : nodeAt g m v (path g.consts id dstart) = some b)
    (hrun : expandni g m (some (.cell b 0)) id dstart d oks data = some (r, m')) :
    Rep g m' v ∧ Kept g v m m' := by
  have hdepth := g.depth_eq
  rw [expandni_eq hid hs hsd hpos hle, Option.bind_eq_some_iff] at hrun
  obtain ⟨⟨e, m₁⟩, hloop, hend⟩ := hrun
  obtain ⟨hR₁, hkept, -, hcome⟩ := hR.expandLoop_again (by omega) (.inl ⟨b, hb, rfl⟩) hb hloop
  obtain ⟨hR', hkept'⟩ := hR₁.expandEnd (by omega) hcome hend
  exact ⟨hR', hkept.trans hkept'⟩

/-- An expansion keeps the trie and its nodes. -/
theorem Rep.expandn (hR : Rep g m v) {r : ℤ} (hid : id < ertMaxid g.consts) (hpos : 1 ≤ d)
    (hle : d ≤ g.depth + 1)
    (hrun : expandn g m (some (.cell v 0)) id d oks data = some (r, m')) :
    Rep g m' v ∧ Kept g v m m' :=
  hR.expandni hid (Nat.lt_of_lt_of_le Nat.zero_lt_one g.depth_pos) (Nat.zero_le d) hpos hle rfl hrun

/-! ## Nodes that are allocated -/

/-- How many nodes are missing on the way of an id, on the `k` levels below `i`. -/
def missing (g : Geom) (m : Mem) (v id i k : ℕ) : ℕ :=
  (List.range' (i + 1) k).countP fun j => (nodeAt g m v (path g.consts id j)).isNone

/-- No more nodes are missing than there are hops left. -/
theorem missing_le (g : Geom) (m : Mem) (v id i k : ℕ) : missing g m v id i k ≤ k := by
  have h := List.countP_le_length (l := List.range' (i + 1) k)
    (p := fun j => (nodeAt g m v (path g.consts id j)).isNone)
  rwa [List.length_range'] at h

/-- A node that is there is not missing. -/
theorem missing_of_some {i k b : ℕ} (h : nodeAt g m v (path g.consts id (i + 1)) = some b) :
    missing g m v id i (k + 1) = missing g m v id (i + 1) k := by
  unfold missing
  rw [List.range'_succ, List.countP_cons, h]
  rfl

/-- Below a node that is missing, all are. -/
theorem missing_of_none {i k : ℕ} (h : nodeAt g m v (path g.consts id (i + 1)) = none) :
    missing g m v id i (k + 1) = k + 1 := by
  unfold missing
  rw [List.countP_eq_length.mpr, List.length_range']
  intro j hj
  obtain ⟨hle, -⟩ := List.mem_range'_1.mp hj
  rw [nodeAt_path_of_none h hle]
  rfl

/-- Above a node that is there, none is missing. -/
theorem missing_eq_zero {i k b : ℕ} (h : nodeAt g m v (path g.consts id (i + k)) = some b) :
    missing g m v id i k = 0 := by
  unfold missing
  rw [List.countP_eq_zero]
  intro j hj hnone
  obtain ⟨-, hlt⟩ := List.mem_range'_1.mp hj
  rw [nodeAt_path_of_none (Option.isNone_iff_eq_none.mp hnone) (by omega)] at h
  cases h

/-- The loop of `__ert_expand` comes to its end where the nodes that are missing are allocated. -/
theorem Rep.expandLoop_granted (hok : ∀ isleaf, NodeOk g isleaf) (hR : Rep g m v) {i k b : ℕ}
    {e : Addr} (hik : i + k ≤ g.hops) (he : Holds g m v id i e)
    (hb : nodeAt g m v (path g.consts id i) = some b)
    (hoks : ∀ j < missing g m v id i k, oks (m.brk + j) = true) :
    ∃ e' m', expandLoop g.consts g.fns oks id k i e m = some (some e', m') := by
  induction k generalizing i e b m with
  | zero => exact ⟨e, m, rfl⟩
  | succ k ih =>
      have hi : i < g.hops := by omega
      have hlen : (path g.consts id i).length < g.hops := by rwa [length_path]
      have hhop : hop g.consts id i < 2 ^ g.order := hop_lt g.consts id i
      rcases hR.shape _ b _ hlen hb hhop with hnull | ⟨b', hw⟩
      · have hnone : nodeAt g m v (path g.consts id (i + 1)) = none := by
          rw [nodeAt_path_succ hb]
          exact child_of_null hnull
        rw [missing_of_none hnone] at hoks
        have hal : g.fns.allocfn m oks (nodeSz g.consts (decide (i + 1 = g.hops)))
            (decide (i + 1 = g.hops)) = _ := if_pos ⟨hoks 0 k.succ_pos, by
              rw [(hok _).nodeSz_eq]
              exact Int.natCast_nonneg _⟩
        have hbrk := hR.lt _ b hlen.le hb
        obtain ⟨m₁, m₂, h₁, h₂, hL⟩ := exists_linked (hok (decide (i + 1 = g.hops))) hbrk.ne
          (hR.hop_le hi hb).2
        rw [hR.expandLoop_null hi he hb hnone, hal]
        simp only [h₁, h₂, Option.bind_some]
        have hleaf : decide (i + 1 = g.hops) =
            decide ((path g.consts id i).length + 1 = g.hops) := by rw [length_path]
        rw [hleaf] at hL
        obtain ⟨hnew, hheld⟩ := hR.holds_linked hi hb hnull hL
        refine ih (hR.link hlen hb hhop hnull (hok _) hL) (by omega) hheld hnew fun j hj => ?_
        have hlt := hj.trans_le (missing_le g m₂ v id (i + 1) k)
        rw [hL.brk, show m.brk + 1 + j = m.brk + (j + 1) by omega]
        exact hoks (j + 1) (Nat.succ_lt_succ hlt)
      · have hsome : nodeAt g m v (path g.consts id (i + 1)) = some b' := by
          rw [nodeAt_path_succ hb]
          exact child_of_word hhop hw
        rw [hR.expandLoop_some hi he hb hsome]
        rw [missing_of_some hsome] at hoks
        exact ih hR (by omega) (hR.ertWalk_hop he hi hb).2 hsome hoks

/-- An expansion past the leaf does not fail where the nodes that are missing are allocated. -/
theorem Rep.expandn_granted (hok : ∀ isleaf, NodeOk g isleaf) (hR : Rep g m v)
    (hid : id < ertMaxid g.consts) (hoks : ∀ j < missing g m v id 0 g.hops, oks (m.brk + j) = true)
    {r : ℤ} (hrun : Ertrie.expandn g m (some (.cell v 0)) id (g.depth + 1) oks data = some (r, m')) :
    r = 0 ∨ r = 1 := by
  have hdepth := g.depth_eq
  rw [expandn_eq hid (by omega) le_rfl, Nat.min_eq_right (Nat.le_succ _),
    show g.depth - 1 = g.hops from rfl] at hrun
  obtain ⟨e, m₁, hloop⟩ := hR.expandLoop_granted hok (Nat.zero_add _).le (holds_vect g m v id) rfl
    hoks
  obtain ⟨hR₁, -, -, hend⟩ := hR.expandLoop_again (Nat.zero_add _).le (.inl ⟨v, rfl, rfl⟩) rfl hloop
  obtain ⟨he, b, hb⟩ := hend e rfl
  rw [Nat.zero_add] at he hb
  obtain ⟨hwalk, hload⟩ := hR₁.ertWalk_last (hR₁.holds le_rfl he) hb
  rw [hloop, Option.bind_some] at hrun
  unfold Ertrie.expandEnd at hrun
  dsimp only at hrun
  rw [if_pos rfl, hwalk, Option.bind_some, hload, Option.bind_some] at hrun
  split at hrun
  · cases hrun
    exact .inr rfl
  · rw [show g.fns.setleaffn m₁ (.cell b (walkOff g.consts id 1)) data =
      some (m₁.set b (walkOff g.consts id 1) data) from store_of_le (hR₁.last_le hb).2] at hrun
    cases hrun
    exact .inl rfl

/-! ## Expansions in a row -/

/-- Expansions with one limit after the other; the result is that of the last. -/
def expandAll (g : Geom) (v id : ℕ) (oks : ℕ → Bool) (data : Ptr) :
    Mem → ℕ → List ℕ → Option (ℤ × Mem)
  | m, d, [] => Ertrie.expandn g m (some (.cell v 0)) id d oks data
  | m, d, d' :: ds => (Ertrie.expandn g m (some (.cell v 0)) id d oks data).bind fun r =>
      expandAll g v id oks data r.2 d' ds

/-- Expansions with increasing limits are the last of them. -/
theorem Rep.expandAll_eq (hR : Rep g m v) (hid : id < ertMaxid g.consts) {ds : List ℕ}
    (hpos : 1 ≤ d) (hinc : (d :: ds).Pairwise (· < ·))
    (hle : (d :: ds).getLast (List.cons_ne_nil d ds) ≤ g.depth + 1) :
    expandAll g v id oks data m d ds = Ertrie.expandn g m (some (.cell v 0)) id
      ((d :: ds).getLast (List.cons_ne_nil d ds)) oks data := by
  induction ds generalizing d m with
  | nil => rfl
  | cons d' ds ih =>
      rw [List.getLast_cons (List.cons_ne_nil d' ds)] at hle ⊢
      obtain ⟨hfirst, hrest⟩ := List.pairwise_cons.mp hinc
      have hdd' : d < d' := hfirst d' List.mem_cons_self
      have hlast := hfirst _ (List.getLast_mem (List.cons_ne_nil d' ds))
      rw [expandAll, ← hR.expandn_twice hid hpos hlast hle data]
      cases hrun : Ertrie.expandn g m (some (.cell v 0)) id d oks data with
      | none => rfl
      | some r =>
          obtain ⟨z, m₁⟩ := r
          rw [Option.bind_some, Option.bind_some]
          exact ih (hR.expandn hid hpos (by omega) hrun).1 (by omega) hrest hle

/-! ## Lookups in parts -/

/-- What a lookup does after its loop: past the leaf it loads the leaf entry.
Source: `ps_ertrie.h`, `__ert_lookup` -/
def lookupEnd (g : Geom) (m : Mem) (dlimit : ℕ) : Ptr → Option Ptr
  | none => some none
  | some n => if dlimit = g.depth + 1 then m.load (psWord g.arch) n else some (some n)

/-- A lookup is its loop, and the end. -/
theorem lkupani_eq (hid : id < ertMaxid g.consts) (hsd : dstart ≤ d) (hle : d ≤ g.depth + 1) :
    lkupani g m (some (.cell v 0)) id dstart d =
      (lookupLoop g.consts m id (min d g.depth - dstart) dstart (.vect v)).bind
        (lookupEnd g m d) := by
  have hlimit : (if d < g.consts.depth then d else g.consts.depth) = min d g.depth := by
    rw [Geom.consts_depth]
    split <;> omega
  have hc : id < ertMaxid g.consts ∧ d ≤ g.consts.depth + 1 ∧ dstart ≤ d := ⟨hid, hle, hsd⟩
  unfold lkupani ertLookup
  simp only [if_pos hc, hlimit]
  rcases lookupLoop g.consts m id (min d g.depth - dstart) dstart (.vect v) with _ | _ | n
  · rfl
  · rfl
  · have hres : ∀ leaf, g.fns.resolvefn m n leaf = some true := fun _ => rfl
    simp only [hres, ite_self, Option.bind_eq_bind, Option.bind_some]
    rfl

/-- A walk reads the entry that it starts from, and nothing else. -/
theorem ertWalk_congr {e e' : Addr} (h : m.load (psWord g.arch) e = m.load (psWord g.arch) e')
    (id lvl : ℕ) : ertWalk g.consts m e id lvl = ertWalk g.consts m e' id lvl := by
  unfold ertWalk
  rw [Geom.consts_arch, h]

/-- A lookup depends on what its first entry holds only. -/
theorem lookupLoop_congr {e e' : Addr} (h : m.load (psWord g.arch) e = m.load (psWord g.arch) e')
    (id j i : ℕ) : lookupLoop g.consts m id (j + 1) i e = lookupLoop g.consts m id (j + 1) i e' := by
  rw [lookupLoop, lookupLoop, Geom.consts_arch, h, ertWalk_congr h]

/-- An expansion depends on what its first entry holds only. -/
theorem expandLoop_congr {e e' : Addr} (h : m.load (psWord g.arch) e = m.load (psWord g.arch) e')
    (id j i : ℕ) : expandLoop g.consts g.fns oks id (j + 1) i e m =
      expandLoop g.consts g.fns oks id (j + 1) i e' m := by
  rw [expandLoop, expandLoop, ertWalk_congr h]

/-- A lookup of some levels comes to an address on the path of its id, or finds NULL. -/
theorem Rep.lookupLoop_cases (hR : Rep g m v) {i : ℕ} {e : Addr} (hik : i + k ≤ g.hops)
    (he : Stands g m v id i e) :
    (lookupLoop g.consts m id k i e = some none ∧
      nodeAt g m v (path g.consts id (i + k)) = none) ∨
    ∃ e', lookupLoop g.consts m id k i e = some (some e') ∧ Stands g m v id (i + k) e' := by
  induction k generalizing i e with
  | zero => exact .inr ⟨e, rfl, he⟩
  | succ k ih =>
      have hheld := hR.holds (by omega) he
      have hload := hheld.load
      have hle : i ≤ g.consts.depth := le_trans (by omega) g.hops_le
      rw [lookupLoop_succ _ _ _ _ hle g.depth_lt_u32, Geom.consts_arch, hload, Option.bind_some]
      cases hb : nodeAt g m v (path g.consts id i) with
      | none => exact .inl ⟨rfl, nodeAt_path_of_none hb (by omega)⟩
      | some b =>
          obtain ⟨hwalk, -⟩ := hR.ertWalk_hop hheld (by omega) hb
          rw [Geom.consts_depth, hwalk]
          have hnext := ih (by omega) (.inr ⟨i, b, rfl, hb, rfl⟩ : Stands g m v id (i + 1) _)
          rwa [show i + 1 + k = i + (k + 1) by omega] at hnext

/-- A lookup that ends above the leaf entries is its loop. -/
theorem lkupan_above (hid : id < ertMaxid g.consts) (hkd : k < g.depth) :
    lkupan g m (some (.cell v 0)) id k = lookupLoop g.consts m id k 0 (.vect v) := by
  unfold lkupan
  rw [lkupani_eq hid (Nat.zero_le k) (by omega), Nat.min_eq_left hkd.le, Nat.sub_zero]
  rcases lookupLoop g.consts m id k 0 (.vect v) with _ | _ | n
  · rfl
  · rfl
  · rw [Option.bind_some, lookupEnd, if_neg (by omega)]

/-- A lookup from the root does not fault. -/
theorem Rep.lkupan_returns (hR : Rep g m v) (hid : id < ertMaxid g.consts)
    (hle : d ≤ g.depth + 1) : ∃ r, lkupan g m (some (.cell v 0)) id d = some r := by
  have hdepth := g.depth_eq
  unfold lkupan
  rw [lkupani_eq hid (Nat.zero_le d) hle, Nat.sub_zero]
  by_cases hd : d ≤ g.hops
  · rw [Nat.min_eq_left (by omega)]
    rcases hR.lookupLoop_cases (k := d) (by omega) (stands_root g m v id) with ⟨h, -⟩ | ⟨e, h, -⟩
    · exact ⟨none, by rw [h]; rfl⟩
    · refine ⟨some e, ?_⟩
      rw [h, Option.bind_some, lookupEnd, if_neg (by omega)]
  · rw [Nat.min_eq_right (by omega), hdepth,
      hR.lookupLoop_eq (Nat.zero_add _) (holds_vect g m v id), Option.bind_some]
    cases hb : nodeAt g m v (path g.consts id g.hops) with
    | none => exact ⟨none, rfl⟩
    | some b =>
        rw [Option.map_some, lookupEnd, load_of_le (hR.last_le hb).2]
        split
        · exact ⟨_, rfl⟩
        · exact ⟨_, rfl⟩

/-- A lookup down to a level, and one from there, are one lookup. -/
theorem Rep.lkupan_compose (hR : Rep g m v) (hid : id < ertMaxid g.consts) (hkd : k < g.depth)
    (hlt : k < d) (hle : d ≤ g.depth + 1) :
    (lkupan g m (some (.cell v 0)) id k = some none ∧
      lkupan g m (some (.cell v 0)) id d = some none) ∨
    ∃ e p, lkupan g m (some (.cell v 0)) id k = some (some e) ∧
      m.load (psWord g.arch) e = some p ∧
      (p = none → lkupan g m (some (.cell v 0)) id d = some none) ∧
      (p ≠ none → lkupan g m (some (.cell v 0)) id d = lkupani g m p id k d) := by
  have hhops : 0 + k ≤ g.hops := by
    have := g.depth_eq
    omega
  obtain ⟨j, hj⟩ : ∃ j, min d g.depth = k + (j + 1) := ⟨min d g.depth - k - 1, by omega⟩
  have hlook := lkupan_above (m := m) (v := v) hid hkd
  have hwhole : lkupan g m (some (.cell v 0)) id d =
      (lookupLoop g.consts m id (k + (j + 1)) 0 (.vect v)).bind (lookupEnd g m d) := by
    unfold lkupan
    rw [lkupani_eq hid (Nat.zero_le d) hle, Nat.sub_zero, hj]
  rw [lookupLoop_add, Nat.zero_add] at hwhole
  rcases hR.lookupLoop_cases hhops (stands_root g m v id) with ⟨hnone, -⟩ | ⟨e, hsome, hstands⟩
  · refine .inl ⟨hlook.trans hnone, ?_⟩
    rw [hwhole, hnone]
    rfl
  · have hload := (hR.holds hhops hstands).load
    rw [Nat.zero_add] at hload
    refine .inr ⟨e, _, hlook.trans hsome, hload, fun hp => ?_, fun hp => ?_⟩
    · rw [hwhole, hsome, Option.bind_some]
      dsimp only
      rw [lookupLoop, Geom.consts_arch, hload]
      simp only [hp, Option.bind_eq_bind, Option.bind_some, if_true]
      rfl
    · cases hb : nodeAt g m v (path g.consts id k) with
      | none =>
          rw [hb] at hp
          exact absurd rfl hp
      | some b =>
          rw [hb, Option.map_some] at hload
          have hvect : m.load (psWord g.arch) e = m.load (psWord g.arch) (.vect b) := hload
          rw [hwhole, hsome, Option.bind_some, Option.map_some, lkupani_eq hid hlt.le hle, hj,
            Nat.add_sub_cancel_left]
          dsimp only
          rw [lookupLoop_congr hvect]

/-- An expansion down to a level, and one from the node that it has reached there, are one
expansion. -/
theorem Rep.expandn_resume (hR : Rep g m v) (data : Ptr) (hid : id < ertMaxid g.consts)
    (hkd : k < g.depth) (hlt : k + 2 ≤ d) (hle : d ≤ g.depth + 1) {data₁ : Ptr} {z : ℤ} {m₁ : Mem}
    (hrun : Ertrie.expandn g m (some (.cell v 0)) id (k + 1) oks data₁ = some (z, m₁))
    (hz : z ≠ -1) :
    ∃ e p, lkupan g m₁ (some (.cell v 0)) id k = some (some e) ∧
      m₁.load (psWord g.arch) e = some p ∧ p ≠ none ∧
      Ertrie.expandni g m₁ p id k d oks data =
        Ertrie.expandn g m (some (.cell v 0)) id d oks data := by
  have hhops : 0 + k ≤ g.hops := by
    have := g.depth_eq
    omega
  rw [expandn_eq hid (by omega) (by omega), Nat.min_eq_left (by omega), Nat.add_sub_cancel,
    Option.bind_eq_some_iff] at hrun
  obtain ⟨⟨n, m₂⟩, hloop, hend⟩ := hrun
  cases n with
  | none =>
      cases hend
      exact absurd rfl hz
  | some n =>
      unfold Ertrie.expandEnd at hend
      dsimp only at hend
      rw [if_neg (by omega)] at hend
      cases hend
      obtain ⟨hR₁, -, -, hcome⟩ := hR.expandLoop_again hhops (stands_root g m v id) rfl hloop
      obtain ⟨hstands, b, hb⟩ := hcome n rfl
      have hn := (hR₁.holds hhops hstands).load
      rw [hb] at hn
      obtain ⟨e, hlook, he⟩ := (hR₁.lookupLoop_cases hhops (stands_root g m₁ v id)).resolve_left
        fun h => by rw [hb] at h; cases h.2
      have hload := (hR₁.holds hhops he).load
      rw [hb] at hload
      refine ⟨e, _, (lkupan_above hid hkd).trans hlook, hload, Option.some_ne_none _, ?_⟩
      obtain ⟨j, hj⟩ : ∃ j, min d g.depth - 1 = k + j := ⟨min d g.depth - 1 - k, by omega⟩
      have hvect : m₁.load (psWord g.arch) n = m₁.load (psWord g.arch) (.vect b) := hn
      rw [Option.map_some, expandni_eq hid hkd (by omega) (by omega) hle,
        expandn_eq hid (by omega) hle, hj, Nat.add_sub_cancel_left, expandLoop_add, hloop,
        Option.bind_some]
      dsimp only
      rw [Nat.zero_add]
      cases j with
      | zero =>
          -- what is left is to set the leaf entry
          have hpast : d = g.depth + 1 := by omega
          simp only [expandLoop, Option.bind_some, Ertrie.expandEnd, if_pos hpast,
            ertWalk_congr hvect]
      | succ j => rw [expandLoop_congr hvect]

end Calls

/-! ## Tries that expansions make -/

/-- A trie and its root. -/
structure PartSt where
  mem : Mem
  root : ℕ

/-- Expansions down to some level, from the root or from the node of a level that a lookup finds. -/
inductive PartOp
  | expandn (id dlimit : ℕ) (oks : ℕ → Bool) (data : Ptr)
  | expandni (id dstart dlimit : ℕ) (oks : ℕ → Bool) (data : Ptr)

/-- A trie that `ert_alloc` has made, and expansions of it. A limit of 0 is none: with it the loop of
`__ert_expand` leaves the trie (`not_walksInside`). -/
def partialTrie (g : Geom) : Lts PartSt PartOp where
  init s := ∃ m oks, ertAlloc g.consts g.fns m oks = some (some (.cell s.root 0), s.mem)
  step s
    | .expandn id d oks data =>
        if id < ertMaxid g.consts ∧ 1 ≤ d ∧ d ≤ g.depth + 1 then
          (expandn g s.mem (some (.cell s.root 0)) id d oks data).map
            fun r => { s with mem := r.2 }
        else none
    | .expandni id k d oks data =>
        if id < ertMaxid g.consts ∧ k < g.depth ∧ k ≤ d ∧ 1 ≤ d ∧ d ≤ g.depth + 1 then do
          let p ← lkupan g s.mem (some (.cell s.root 0)) id k
          let e ← p
          let q ← s.mem.load (psWord g.arch) e
          (expandni g s.mem q id k d oks data).map fun r => { s with mem := r.2 }
        else none

/-- Every trie reached is one. -/
theorem rep_of_reach {s : PartSt} (h : (partialTrie g).Reach (fun _ _ => True) s) :
    Rep g s.mem s.root := by
  refine Lts.invariant (I := fun s => Rep g s.mem s.root) ?_ ?_ h
  · rintro s ⟨m, oks, hrun⟩
    exact (rep_of_ertAlloc hrun).1
  · intro s op s' hR _ hs
    cases op with
    | expandn id d oks data =>
        simp only [partialTrie, Option.ite_none_right_eq_some, Option.map_eq_some_iff] at hs
        obtain ⟨⟨hid, hpos, hle⟩, ⟨z, m₁⟩, hrun, rfl⟩ := hs
        exact (hR.expandn hid hpos hle hrun).1
    | expandni id k d oks data =>
        simp only [partialTrie, Option.ite_none_right_eq_some, Option.bind_eq_bind,
          Option.bind_eq_some_iff, Option.map_eq_some_iff] at hs
        obtain ⟨⟨hid, hkd, hsd, hpos, hle⟩, p, hlook, e, rfl, q, hload, ⟨z, m₁⟩, hrun, rfl⟩ := hs
        have hhops : 0 + k ≤ g.hops := by
          have := g.depth_eq
          omega
        rw [lkupan_above hid hkd] at hlook
        -- the address found leads to the node of the level, or is NULL
        rcases hR.lookupLoop_cases hhops (stands_root g s.mem s.root id) with ⟨h, -⟩ | ⟨e', h, he⟩
        · rw [hlook] at h
          cases h
        · rw [hlook] at h
          cases h
          have hheld := (hR.holds hhops he).load
          rw [hload, Nat.zero_add] at hheld
          cases hb : nodeAt g s.mem s.root (path g.consts id k) with
          | none =>
              rw [hb] at hheld
              cases hheld
              cases hrun
          | some b =>
              rw [hb] at hheld
              cases hheld
              exact (hR.expandni hid hkd hsd hpos hle hb hrun).1

/-- **Walks may be made in parts**: a lookup down to a level and one from there are one lookup;
expansions with increasing limits are the last of them, whatever allocations fail; and an expansion
down to a level with one from there is one expansion, where no allocation fails. All calls return,
the results agree, and the memory with them. -/
structure Composes (g : Geom) (m : Mem) (v : ℕ) : Prop where
  lookup : ∀ {id k d}, id < ertMaxid g.consts → 1 ≤ k → k < g.depth → k < d → d ≤ g.depth + 1 →
    (lkupan g m (some (.cell v 0)) id k = some none ∧
      lkupan g m (some (.cell v 0)) id d = some none) ∨
    ∃ e p, lkupan g m (some (.cell v 0)) id k = some (some e) ∧
      m.load (psWord g.arch) e = some p ∧
      (p = none → lkupan g m (some (.cell v 0)) id d = some none) ∧
      (p ≠ none → ∃ r, lkupan g m (some (.cell v 0)) id d = some r ∧
        lkupani g m p id k d = some r)
  stages : ∀ {id d} (ds : List ℕ) (oks : ℕ → Bool) (data : Ptr), id < ertMaxid g.consts → 2 ≤ d →
    (d :: ds).Pairwise (· < ·) → (d :: ds).getLast (List.cons_ne_nil d ds) ≤ g.depth + 1 →
    ∃ r, expandn g m (some (.cell v 0)) id ((d :: ds).getLast (List.cons_ne_nil d ds)) oks data =
        some r ∧
      expandAll g v id oks data m d ds = some r
  resume : ∀ {id k d} (oks : ℕ → Bool) (data data₁ : Ptr),
    id < ertMaxid g.consts → 1 ≤ k → k < g.depth → k + 2 ≤ d → d ≤ g.depth + 1 →
    ∃ z m₁, expandn g m (some (.cell v 0)) id (k + 1) oks data₁ = some (z, m₁) ∧ (z ≠ -1 →
      ∃ e p r, lkupan g m₁ (some (.cell v 0)) id k = some (some e) ∧
        m₁.load (psWord g.arch) e = some p ∧ p ≠ none ∧
        expandn g m (some (.cell v 0)) id d oks data = some r ∧
        expandni g m₁ p id k d oks data = some r)

section Returns

variable {d k i b : ℕ} {oks : ℕ → Bool} {data : Ptr} {e : Addr}

/-- The root of a trie of more than one level is in reach. -/
theorem Rep.internal_ok (hR : Rep g m v) (htwo : 2 ≤ g.depth) : NodeOk g false := by
  have hroot := hR.ok [] v (Nat.zero_le _) rfl
  have hdepth := g.depth_eq
  rwa [decide_eq_false (by rw [List.length_nil]; omega)] at hroot

/-- The sizes fit where a leaf node that is allocated can be initialised. -/
theorem Rep.sizesFit (hR : Rep g m v) (htwo : 2 ≤ g.depth)
    (hleaf : NodeNeg g true ∨ NodeOk g true) : SizesFit g := by
  refine ⟨.inr ?_, fun _ _ => hleaf⟩
  rw [decide_eq_false (by omega)]
  exact hR.internal_ok htwo

/-- The loop of an expansion returns: what it would do down to the leaf, it does in part. -/
theorem Rep.expandLoop_returns (hS : SizesFit g) (hR : Rep g m v) (id : ℕ) (oks : ℕ → Bool)
    (hk : k ≤ g.hops) :
    ∃ r, expandLoop g.consts g.fns oks id k 0 (.vect v) m = some r := by
  obtain ⟨r, m', hrun, -⟩ := hR.expandLoop_spec hS oks (Nat.zero_add _) (holds_vect g m v id) rfl
  rw [show g.hops = k + (g.hops - k) by omega, expandLoop_add, Option.bind_eq_some_iff] at hrun
  obtain ⟨r₁, hrun₁, -⟩ := hrun
  exact ⟨r₁, hrun₁⟩

/-- An expansion returns where the sizes fit. -/
theorem Rep.expandn_returns (hS : SizesFit g) (hR : Rep g m v) (oks : ℕ → Bool) (data : Ptr)
    (hid : id < ertMaxid g.consts) (hpos : 1 ≤ d) (hle : d ≤ g.depth + 1) :
    ∃ r, Ertrie.expandn g m (some (.cell v 0)) id d oks data = some r := by
  have hdepth := g.depth_eq
  by_cases hpast : d = g.depth + 1
  · subst hpast
    obtain ⟨r, m', hrun, -⟩ := hR.ertExpand_spec hS oks hid data
    exact ⟨(r, m'), hrun⟩
  · obtain ⟨⟨e, m₁⟩, hloop⟩ :=
      hR.expandLoop_returns hS id oks (show min d g.depth - 1 ≤ g.hops by omega)
    rw [expandn_eq hid hpos hle, hloop, Option.bind_some]
    cases e with
    | none => exact ⟨_, rfl⟩
    | some n => exact ⟨_, if_neg hpast⟩

/-- An expansion down to a leaf node that cannot be initialised faults, where all allocations
succeed: it finds the nodes that are there, and none is a leaf node. -/
theorem Rep.expandLoop_faults (hok : ¬ NodeOk g true) (hneg : ¬ NodeNeg g true) (hR : Rep g m v)
    (hk : i + (k + 1) = g.hops) (he : Holds g m v id i e)
    (hb : nodeAt g m v (path g.consts id i) = some b) :
    expandLoop g.consts g.fns (fun _ => true) id (k + 1) i e m = none := by
  induction k generalizing i e b with
  | zero =>
      refine expandLoop_eq_none hok hneg hR hk he hb ?_
      by_contra hsome
      obtain ⟨b', hb'⟩ := Option.ne_none_iff_exists'.mp hsome
      have hleaf := hR.ok _ b' (by rw [length_path]; omega) hb'
      rw [decide_eq_true (by rw [length_path]; omega)] at hleaf
      exact hok hleaf
  | succ k ih =>
      cases hnext : nodeAt g m v (path g.consts id (i + 1)) with
      | none => exact expandLoop_eq_none hok hneg hR hk he hb hnext
      | some b' =>
          rw [hR.expandLoop_some (by omega) he hb hnext]
          exact ih (by omega) (hR.ertWalk_hop he (by omega) hb).2 hnext

/-- So does an expansion past it. -/
theorem Rep.expandn_faults (hok : ¬ NodeOk g true) (hneg : ¬ NodeNeg g true) (hR : Rep g m v)
    (htwo : 2 ≤ g.depth) (hid : id < ertMaxid g.consts) :
    Ertrie.expandn g m (some (.cell v 0)) id (g.depth + 1) (fun _ => true) data = none := by
  have hdepth := g.depth_eq
  rw [expandn_eq hid (by omega) le_rfl, Nat.min_eq_right (Nat.le_succ _),
    show g.depth - 1 = g.hops - 1 + 1 by omega,
    hR.expandLoop_faults hok hneg (by omega) (holds_vect g m v id) rfl, Option.bind_none]

end Returns

/-- In a trie, walks may be made in parts where a leaf node that is allocated can be initialised. -/
theorem Rep.composes (hR : Rep g m v) (htwo : 2 ≤ g.depth)
    (hleaf : NodeNeg g true ∨ NodeOk g true) : Composes g m v := by
  have hS := hR.sizesFit htwo hleaf
  refine ⟨fun {id k d} hid _ hkd hlt hle => ?_, fun {id d} ds oks data hid htwo hinc hle => ?_,
    fun {id k d} oks data data₁ hid _ hkd hlt hle => ?_⟩
  · rcases hR.lkupan_compose hid hkd hlt hle with h | ⟨e, p, hlook, hload, hnull, hrest⟩
    · exact .inl h
    · refine .inr ⟨e, p, hlook, hload, hnull, fun hp => ?_⟩
      obtain ⟨r, hr⟩ := hR.lkupan_returns hid hle
      exact ⟨r, hr, (hrest hp).symm.trans hr⟩
  · have hfirst : d ≤ (d :: ds).getLast (List.cons_ne_nil d ds) := by
      rcases List.mem_cons.mp (List.getLast_mem (List.cons_ne_nil d ds)) with h | h
      · exact h.ge
      · exact ((List.pairwise_cons.mp hinc).1 _ h).le
    obtain ⟨r, hr⟩ := hR.expandn_returns hS oks data hid (le_trans (by omega) hfirst) hle
    exact ⟨r, hr, (hR.expandAll_eq hid (by omega) hinc hle).trans hr⟩
  · obtain ⟨⟨z, m₁⟩, hrun⟩ := hR.expandn_returns hS oks data₁ hid (Nat.succ_pos k)
      (show k + 1 ≤ g.depth + 1 by omega)
    refine ⟨z, m₁, hrun, fun hz => ?_⟩
    obtain ⟨e, p, hlook, hload, hp, hrest⟩ := hR.expandn_resume data hid hkd hlt hle hrun hz
    obtain ⟨r, hr⟩ := hR.expandn_returns hS oks data hid (by omega) hle
    exact ⟨e, p, r, hlook, hload, hp, hr, hrest.trans hr⟩

/-- Where walks may be made in parts, a leaf node that is allocated can be initialised. -/
theorem Rep.leaf_of_composes (hR : Rep g m v) (htwo : 2 ≤ g.depth) (h : Composes g m v) :
    NodeNeg g true ∨ NodeOk g true := by
  by_contra hbad
  rw [not_or] at hbad
  have hid : 0 < ertMaxid g.consts := (lt_ertMaxid_iff g).mpr (Nat.two_pow_pos _)
  obtain ⟨r, hrun, -⟩ := h.stages [] (fun _ => true) none hid (d := g.depth + 1) (by omega)
    (List.pairwise_singleton _ _) le_rfl
  rw [List.getLast_singleton, hR.expandn_faults hbad.2 hbad.1 htwo hid] at hrun
  cases hrun

/-- **In every trie reached, walks may be made in parts exactly where a leaf node that is allocated
can be initialised.** -/
theorem composes_iff {s : PartSt} (htwo : 2 ≤ g.depth)
    (h : (partialTrie g).Reach (fun _ _ => True) s) :
    Composes g s.mem s.root ↔ NodeNeg g true ∨ NodeOk g true :=
  ⟨(rep_of_reach h).leaf_of_composes htwo, (rep_of_reach h).composes htwo⟩

/-- A trie of three levels of two entries, of 8 bytes each. -/
def narrowTrie : Geom where
  arch := .x86_64
  depth := 3
  order := 1
  lastOrder := 1
  lastSz := 8
  depth_pos := by decide
  depth_lt := by decide
  order_le := wideTrie.order_le
  lastOrder_le := wideTrie.order_le
  lastSz_lt := wideTrie.lastSz_lt
  bits_lt := by decide

/-- The trie as it is made. -/
def narrowNew : Mem :=
  (ertAlloc narrowTrie.consts narrowTrie.fns ⟨0, fun _ => 0, fun _ _ => none⟩ fun _ => true).elim
    ⟨0, fun _ => 0, fun _ _ => none⟩ Prod.snd

/-- The trie after it is expanded half way, for one id. -/
def narrowMem : Mem :=
  (expandn narrowTrie narrowNew (some (.cell 0 0)) 5 2 (fun _ => true) none).elim narrowNew Prod.snd

/-- Walks in it may be made in parts. -/
theorem composes_narrowMem : lkupan narrowTrie narrowMem (some (.cell 0 0)) 5 1 =
      some (some (.cell 0 8)) ∧
    narrowMem.load 8 (.cell 0 8) = some (some (.cell 1 0)) ∧
    lkupan narrowTrie narrowMem (some (.cell 0 0)) 5 3 = some none ∧
    Composes narrowTrie narrowMem 0 := by
  have hnew : (partialTrie narrowTrie).Reach (fun _ _ => True) ⟨narrowNew, 0⟩ :=
    .init ⟨⟨0, fun _ => 0, fun _ _ => none⟩, fun _ => true, rfl⟩
  have hreach : (partialTrie narrowTrie).Reach (fun _ _ => True) ⟨narrowMem, 0⟩ :=
    .step (a := .expandn 5 2 (fun _ => true) none) hnew trivial rfl
  exact ⟨by decide, by decide, by decide,
    (composes_iff (by decide) hreach).mpr (.inr ⟨by decide, by decide⟩)⟩

/-- A trie of two levels of two entries, with leaf entries of 4 bytes: they hold no pointer. -/
def tightTrie : Geom where
  arch := .x86_64
  depth := 2
  order := 1
  lastOrder := 1
  lastSz := 4
  depth_pos := Nat.le_add_left _ _
  depth_lt := show 3 < 2 ^ 32 by decide
  order_le := wideTrie.order_le
  lastOrder_le := wideTrie.order_le
  lastSz_lt := show 2 * 2 < 2 ^ 32 by decide
  bits_lt := show 2 < 64 by decide

/-- The trie as it is made. -/
def tightNew : Mem :=
  (ertAlloc tightTrie.consts tightTrie.fns ⟨0, fun _ => 0, fun _ _ => none⟩ fun _ => true).elim
    ⟨0, fun _ => 0, fun _ _ => none⟩ Prod.snd

/-- **An expansion past the leaf of such a trie does not return**: the second entry of the leaf node
is written past its 8 bytes. -/
theorem not_composes : (partialTrie tightTrie).Reach (fun _ _ => True) ⟨tightNew, 0⟩ ∧
    expandn tightTrie tightNew (some (.cell 0 0)) 0 3 (fun _ => true) none = none ∧
    ¬ Composes tightTrie tightNew 0 := by
  have hreach : (partialTrie tightTrie).Reach (fun _ _ => True) ⟨tightNew, 0⟩ :=
    .init ⟨⟨0, fun _ => 0, fun _ _ => none⟩, fun _ => true, rfl⟩
  have hrun : expandn tightTrie tightNew (some (.cell 0 0)) 0 3 (fun _ => true) none = none :=
    (rep_of_reach hreach).expandn_faults (by decide) (by decide) (by decide) (by decide)
  refine ⟨hreach, hrun, fun h => ?_⟩
  have hid : 0 < ertMaxid tightTrie.consts := by decide
  have htwo : 2 ≤ 3 := Nat.le_succ 2
  obtain ⟨r, hr, -⟩ := h.stages [] (fun _ => true) none hid htwo (List.pairwise_singleton _ _)
    (by decide)
  rw [List.getLast_singleton, hrun] at hr
  cases hr

end Parsec.Ertrie
