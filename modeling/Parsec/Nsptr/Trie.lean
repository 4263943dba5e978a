import Parsec.Ns.Geom

/-!
# The trie of a namespace as a trie of slabs

The leaf nodes of a namespace's trie are the memory of its slabs, so that the trie above them is a
trie of `ERT_CREATE_DEF` of one level less, whose ids are the numbers of ranges and whose values are
leaf nodes.

* `slabTrie` — that trie.
* `lookup_entry`, `lookup_slot` — the lookups of `ps_slab_nsfree` and `ps_nsptr_lkup`, in terms of
  what is stored in it.
* `ertExpand_eq` — the expansion of `ps_slab_nsalloc` is an expansion of it past its leaves;
  `expand_spec` says what becomes of the slabs stored.
-/

namespace Parsec.Nsptr

open Ertrie Ns

/-! ## The trie above the leaves -/

/-- The trie above the leaves of a namespace's. -/
def slabTrie (g : NsGeom) : Ertrie.Geom where
  arch := g.arch
  depth := g.depth - 1
  order := g.order
  lastOrder := g.order
  lastSz := psWord g.arch
  depth_pos := by have := g.two_le_depth; omega
  depth_lt := by have := g.depth_lt; omega
  order_le := g.order_le
  lastOrder_le := g.order_le
  lastSz_lt := lt_of_le_of_lt (psWord_le _) (by decide)
  bits_lt := by
    have hlt := g.bits_lt
    have htwo := g.two_le_depth
    have hmul : g.order * (g.depth - 1) = g.order * (g.depth - 1 - 1) + g.order := by
      rw [← Nat.mul_succ]
      congr 1
      omega
    omega

section Geometry

variable (g : NsGeom)

/-- The hops of the trie above the leaves. -/
theorem slabTrie_hops : (slabTrie g).hops = g.inner := by
  unfold Geom.hops NsGeom.inner slabTrie
  simp only
  omega

/-- The depth of the trie above the leaves. -/
theorem slabTrie_depth : (slabTrie g).depth = g.inner + 1 := by
  rw [(slabTrie g).depth_eq, slabTrie_hops]

variable {g}

/-- The number of an id's range is below the number of ranges. -/
theorem div_range_lt {id : ℕ} (hid : id < g.descMax) :
    id / g.range < ertMaxid (slabTrie g).consts := by
  rw [lt_ertMaxid_iff, slabTrie_hops, g.range_eq, Nat.div_lt_iff_lt_mul (Nat.two_pow_pos _)]
  rw [g.descMax_eq, g.hops_eq] at hid
  rwa [show (slabTrie g).order = g.order from rfl, show (slabTrie g).lastOrder = g.order from rfl,
    ← pow_add, ← Nat.mul_succ]

/-- The entries of an id on the way to its leaf are those of its range. -/
theorem walkOff_slabTrie (id : ℕ) {i : ℕ} (hi : i ≤ g.inner) :
    walkOff g.consts id (g.depth - i) =
      walkOff (slabTrie g).consts (id / g.range) ((slabTrie g).depth - i) := by
  have hshift : id / g.range = id >>> g.lastOrder := by
    rw [g.range_eq, Nat.shiftRight_eq_div_pow]
  have hdepth : g.depth - i = g.inner - i + 2 := by
    have := g.depth_eq'
    omega
  have hdepth' : (slabTrie g).depth - i = g.inner - i + 1 := by
    rw [slabTrie_depth]
    omega
  have hlt := g.depth_lt_u32
  have hbits : g.order * (g.inner - i) + g.lastOrder < 2 ^ 32 := by
    refine lt_of_le_of_lt (Nat.add_le_add_right (Nat.mul_le_mul_left _ ?_) _) g.bits_lt_u32
    omega
  have hoff : walkOff g.consts id (g.inner - i + 2) =
      toU32 (ertM (id >>> (g.order * (g.inner - i) + g.lastOrder)) g.order * psWord g.arch) :=
    walkOff_of_two_le (c := g.consts) (Nat.le_add_left ..) (by omega) hbits
  rw [hdepth, hdepth', hshift, hoff]
  cases hj : g.inner - i with
  | zero =>
      rw [walkOff_one, Nat.mul_zero, Nat.zero_add]
      rfl
  | succ j =>
      rw [hj, Nat.mul_succ] at hbits
      have hoff' : walkOff (slabTrie g).consts (id >>> g.lastOrder) (j + 1 + 1) =
          toU32 (ertM (id >>> g.lastOrder >>> (g.order * j + g.order)) g.order *
            psWord g.arch) :=
        walkOff_of_two_le (c := (slabTrie g).consts) (Nat.le_add_left ..) (by omega)
          (lt_of_le_of_lt (Nat.le_add_right _ g.lastOrder) hbits)
      rw [hoff', ← Nat.shiftRight_add, Nat.mul_succ, Nat.add_comm g.lastOrder]

/-- A walk above the leaves is one in the trie of ranges. -/
theorem ertWalk_slabTrie (m : Mem) (n : Addr) (id : ℕ) {i : ℕ} (hi : i ≤ g.inner) :
    ertWalk g.consts m n id (g.depth - i) =
      ertWalk (slabTrie g).consts m n (id / g.range) ((slabTrie g).depth - i) := by
  unfold ertWalk
  rw [walkOff_slabTrie id hi]
  rfl

end Geometry

/-! ## Lookups -/

section Lookup

variable {g : NsGeom} {m : Mem} {v id : ℕ}

/-- A lookup above the leaves. -/
theorem lookupLoop_slabTrie {k i : ℕ} {n : Addr} (hk : i + k ≤ g.inner + 1) :
    lookupLoop g.consts m id k i n = lookupLoop (slabTrie g).consts m (id / g.range) k i n := by
  induction k generalizing i n with
  | zero => rfl
  | succ k ih =>
      have hi : i ≤ g.consts.depth := by
        have : g.consts.depth = g.inner + 2 := g.depth_eq'
        omega
      have hi' : i ≤ (slabTrie g).consts.depth := by
        rw [Geom.consts_depth, slabTrie_depth]
        omega
      rw [lookupLoop_succ _ _ _ _ hi g.depth_lt_u32,
        lookupLoop_succ _ _ _ _ hi' (slabTrie g).depth_lt_u32,
        show g.consts.depth = g.depth from rfl, Geom.consts_depth,
        ertWalk_slabTrie m n id (by omega)]
      simp only [ih (by omega : i + 1 + k ≤ g.inner + 1)]
      rfl

/-- The entry that leads to the leaf of an id, if the nodes above it are there. -/
def entryAt (g : NsGeom) (m : Mem) (v id : ℕ) : Ptr :=
  (nodeAt (slabTrie g) m v (path (slabTrie g).consts (id / g.range) (slabTrie g).hops)).map
    fun b => .cell b (walkOff (slabTrie g).consts (id / g.range) 1)

variable (hR : Rep (slabTrie g) m v)

include hR

/-- What a lookup above the leaves finds. -/
theorem lookupLoop_entry :
    lookupLoop g.consts m id (g.inner + 1) 0 (.vect v) = some (entryAt g m v id) := by
  have hloop := hR.lookupLoop_eq (k := (slabTrie g).hops) (Nat.zero_add _)
    (holds_vect (slabTrie g) m v (id / g.range))
  rw [slabTrie_hops] at hloop
  rw [lookupLoop_slabTrie (by omega), hloop, entryAt, slabTrie_hops]

/-- The entry that leads to a leaf holds what is stored for the range. -/
theorem load_entry {n : Addr} (hn : entryAt g m v id = some n) :
    m.load (psWord g.arch) n = some (valueAt (slabTrie g) m v (id / g.range)) := by
  unfold entryAt at hn
  obtain ⟨b, hb, rfl⟩ := Option.map_eq_some_iff.mp hn
  rw [valueAt, hb, Option.bind_some]
  exact load_of_le (hR.last_le hb).2

omit hR in
/-- Where no node leads to a leaf, there is no slab. -/
theorem valueAt_of_entry_none (hn : entryAt g m v id = none) :
    valueAt (slabTrie g) m v (id / g.range) = none := by
  unfold entryAt at hn
  rw [valueAt, Option.map_eq_none_iff.mp hn]
  rfl

/-- The lookup of `ps_slab_nsfree`, of all levels but the last. -/
theorem lookup_entry (isfree : Addr → Option Bool) (hid : id < g.descMax) :
    ertLookup g.consts (nsFns g.arch isfree) m (some (.cell v 0)) id 0 (g.depth - 1) =
      some (entryAt g m v id) := by
  have hdepth : g.consts.depth = g.inner + 2 := g.depth_eq'
  have hlimit : g.depth - 1 = g.inner + 1 := by
    have := g.depth_eq'
    omega
  unfold ertLookup
  rw [hlimit, hdepth]
  have hc : id < ertMaxid g.consts ∧ g.inner + 1 ≤ g.inner + 2 + 1 ∧ 0 ≤ g.inner + 1 :=
    ⟨hid, by omega, Nat.zero_le _⟩
  simp only [hc, and_self, if_true, Nat.zero_max, Nat.sub_zero,
    show g.inner + 1 < g.inner + 2 by omega, lookupLoop_entry hR, Option.bind_eq_bind,
    Option.bind_some]
  cases entryAt g m v id with
  | none => rfl
  | some n => simp [nsFns]

/-- The lookup of all levels: to the header of the id's slot in its slab, if there is one and it
does not read free. -/
theorem lookup_slot (isfree : Addr → Option Bool) (hid : id < g.descMax) :
    ertLookup g.consts (nsFns g.arch isfree) m (some (.cell v 0)) id 0 g.depth =
      match valueAt (slabTrie g) m v (id / g.range) with
      | none => some none
      | some a => (isfree (a.plus (walkOff g.consts id 1))).map fun b =>
          if b then none else some (a.plus (walkOff g.consts id 1)) := by
  have hdepth : g.consts.depth = g.inner + 2 := g.depth_eq'
  have hlimit : g.depth = g.inner + 2 := g.depth_eq'
  -- the last round, from the entry
  have hloop : lookupLoop g.consts m id (g.inner + 2) 0 (.vect v) =
      some ((valueAt (slabTrie g) m v (id / g.range)).map fun a =>
        a.plus (walkOff g.consts id 1)) := by
    rw [lookupLoop_add _ _ _ _ 1, lookupLoop_entry hR, Option.bind_some]
    cases hn : entryAt g m v id with
    | none =>
        rw [valueAt_of_entry_none hn]
        rfl
    | some n =>
        have hload := load_entry hR hn
        show lookupLoop g.consts m id 1 (0 + (g.inner + 1)) n = _
        rw [lookupLoop_succ _ _ _ _ (by omega) g.depth_lt_u32, hdepth]
        simp only [show psWord g.consts.arch = psWord g.arch from rfl, hload, Option.bind_some,
          ertWalk]
        cases valueAt (slabTrie g) m v (id / g.range) with
        | none => rfl
        | some a =>
            rw [show g.inner + 2 - (0 + (g.inner + 1)) = 1 by omega]
            rfl
  unfold ertLookup
  rw [hlimit, hdepth]
  have hc : id < ertMaxid g.consts ∧ g.inner + 2 ≤ g.inner + 2 + 1 ∧ 0 ≤ g.inner + 2 :=
    ⟨hid, by omega, Nat.zero_le _⟩
  simp only [hc, and_self, if_true, Nat.zero_max, Nat.sub_zero, lt_irrefl, if_false, hloop,
    Option.bind_eq_bind, Option.bind_some]
  cases valueAt (slabTrie g) m v (id / g.range) with
  | none => rfl
  | some a =>
      simp only [Option.map_some, nsFns, if_true]
      cases isfree (a.plus (walkOff g.consts id 1)) with
      | none => rfl
      | some b => cases b <;> simp

end Lookup

/-! ## Expansion -/

section Expand

variable {g : NsGeom} {isfree : Addr → Option Bool} {m : Mem} {v id : ℕ}

/-- Nodes of the trie above the leaves are as internal nodes are. -/
theorem nodeBase_slabTrie (isleaf : Bool) :
    nodeBase (slabTrie g).consts isleaf = nodeBase g.consts false := by
  cases isleaf <;> rfl

/-- The entries of the trie above the leaves are those of internal nodes. -/
theorem entrySz_slabTrie (isleaf : Bool) :
    entrySz (slabTrie g).consts isleaf = entrySz g.consts false := by
  cases isleaf <;> rfl

/-- The nodes of the trie above the leaves have the size of internal nodes. -/
theorem nodeSz_slabTrie (isleaf : Bool) :
    nodeSz (slabTrie g).consts isleaf = nodeSz g.consts false := by
  unfold nodeSz
  rw [nodeBase_slabTrie, entrySz_slabTrie]

/-- The nodes of the trie above the leaves are initialised as internal nodes. -/
theorem ertInit_slabTrie (isfree : Addr → Option Bool) (m : Mem) (n : Ptr) (isleaf : Bool) :
    ertInit (slabTrie g).consts (slabTrie g).fns m n isleaf =
      ertInit g.consts (nsFns g.arch isfree) m n false := by
  rw [ertInit_internal]
  have hoff : ∀ i, initOff (slabTrie g).consts isleaf i = initOff g.consts false i := by
    intro i
    unfold initOff
    rw [entrySz_slabTrie]
  have hinit : ∀ m e, (slabTrie g).fns.initfn m e isleaf = g.toGeom.fns.initfn m e false :=
    fun _ _ => rfl
  have hloop : ∀ a k m, initLoop (slabTrie g).consts (slabTrie g).fns a isleaf k m =
      initLoop g.consts g.toGeom.fns a false k m := by
    intro a k m
    induction k with
    | zero => rfl
    | succ k ih =>
        simp only [initLoop, ih, hoff, hinit]
  unfold ertInit
  simp only [nodeBase_slabTrie, hloop]

/-- An expansion above the leaves. -/
theorem expandLoop_slabTrie (ctx : Ptr × (ℕ → Bool)) {k i : ℕ} {n : Addr} (hk : i + k ≤ g.inner) :
    expandLoop g.consts (nsFns g.arch isfree) ctx id k i n m =
      expandLoop (slabTrie g).consts (slabTrie g).fns ctx.2 (id / g.range) k i n m := by
  induction k generalizing i n m with
  | zero => rfl
  | succ k ih =>
      have hleaf : decide (g.consts.depth ≤ i + 2) = false := by
        have : g.consts.depth = g.inner + 2 := g.depth_eq'
        exact decide_eq_false (by omega)
      have hi : i < g.consts.depth := by
        have : g.consts.depth = g.inner + 2 := g.depth_eq'
        omega
      have hi' : i < (slabTrie g).consts.depth := by
        rw [Geom.consts_depth, slabTrie_depth]
        omega
      rw [expandLoop_succ _ _ _ _ _ hi g.depth_lt,
        expandLoop_succ _ _ _ _ _ hi' (slabTrie g).depth_lt, hleaf,
        show g.consts.depth = g.depth from rfl, Geom.consts_depth,
        ertWalk_slabTrie m n id (by omega)]
      simp only [ih (by omega : i + 1 + k ≤ g.inner), ertInit_slabTrie isfree, nodeSz_slabTrie]
      rfl

/-- An expansion down to the slabs is one of the trie above the leaves, past its own. -/
theorem ertExpand_eq (leaf : Addr) (oks : ℕ → Bool) (hid : id < g.descMax) :
    ertExpand g.consts (nsFns g.arch isfree) m (some (.cell v 0)) id 0 g.depth (some leaf, oks)
        none =
      (ertExpand (slabTrie g).consts (slabTrie g).fns m (some (.cell v 0)) (id / g.range) 0
        ((slabTrie g).depth + 1) oks (some leaf)).map fun (r, m) => (if r = 1 then 0 else r, m) := by
  have hdepth : g.consts.depth = g.inner + 2 := g.depth_eq'
  have hlimit : g.depth = g.inner + 2 := g.depth_eq'
  have hpos : 0 < (slabTrie g).consts.depth := (slabTrie g).depth_pos
  have hpast := ertExpand_past (f := (slabTrie g).fns) (m := m) (v := v) oks (some leaf)
    (div_range_lt hid) hpos (slabTrie g).depth_lt_u32
  rw [Geom.consts_depth, show (slabTrie g).depth - 1 - 0 = g.inner by rw [slabTrie_depth]; omega]
    at hpast
  have hinner := ertExpand_inner (c := g.consts) (f := nsFns g.arch isfree) (m := m) (v := v)
    (some leaf, oks) none hid (Nat.zero_le _) g.depth_pos le_rfl g.depth_lt_u32
  rw [hpast, hinner, hlimit, show g.inner + 2 - 1 - 0 = g.inner + 1 from rfl,
    expandLoop_add _ _ _ 1, expandLoop_slabTrie _ (Nat.zero_add _).le, Nat.zero_add]
  rcases expandLoop (slabTrie g).consts (slabTrie g).fns oks (id / g.range) g.inner 0 (.vect v) m
    with _ | ⟨_ | n, m₁⟩
  · rfl
  · rfl
  -- the last round, which links the slab
  have hone := expandLoop_succ (c := g.consts) (f := nsFns g.arch isfree) (some leaf, oks) id 0 n
    m₁ (by omega : g.inner < g.consts.depth) g.depth_lt
  simp only [Option.bind_some]
  rw [hone]
  simp only [expandLoop, hdepth]
  have hwalk := ertWalk_slabTrie m₁ n id (le_refl g.inner)
  rw [hlimit, slabTrie_depth, show g.inner + 1 - g.inner = 1 by omega] at hwalk
  rw [hwalk]
  cases ertWalk (slabTrie g).consts m₁ n (id / g.range) 1 with
  | none => rfl
  | some n' =>
      simp only [Option.bind_some, show psWord (slabTrie g).consts.arch = psWord g.consts.arch
        from rfl]
      cases m₁.load (psWord g.consts.arch) n' with
      | none => rfl
      | some q =>
          simp only [Option.bind_some]
          by_cases hq : q = none
          · have hleaf : decide (g.inner + 2 ≤ g.inner + 2) = true := decide_eq_true le_rfl
            have hinit : ertInit g.consts (nsFns g.arch isfree) m₁ (some leaf) true = some m₁ :=
              ertInit_leaf m₁ leaf
            have halloc : (nsFns g.arch isfree).allocfn m₁ (some leaf, oks)
                (nodeSz g.consts true) true = (some leaf, m₁) := rfl
            simp only [hq, hleaf, halloc, hinit, ne_eq, not_true_eq_false, and_false, if_false,
              Option.bind_some]
            rw [show (slabTrie g).fns.setleaffn m₁ n' (some leaf) =
              m₁.store (psWord g.consts.arch) n' (some leaf) from rfl]
            cases m₁.store (psWord g.consts.arch) n' (some leaf) <;> simp
          · simp [hq]

/-- Nodes are of one size, so that they are in reach where the root is. -/
theorem nodeOk_slabTrie (hR : Rep (slabTrie g) m v) (isleaf : Bool) : NodeOk (slabTrie g) isleaf := by
  have hroot := hR.ok [] v (Nat.zero_le _) rfl
  generalize decide (([] : List ℕ).length = (slabTrie g).hops) = isleaf' at hroot
  cases isleaf <;> cases isleaf' <;> exact hroot

/-- The sizes of the nodes above the leaves fit. -/
theorem sizesFit_slabTrie (hR : Rep (slabTrie g) m v) : SizesFit (slabTrie g) :=
  ⟨.inr (nodeOk_slabTrie hR _), fun _ _ => .inr (nodeOk_slabTrie hR _)⟩

/-- What an expansion does: the slab is stored for its range, where none was. If an allocation fails,
or there was one, what is stored stays. -/
theorem expand_spec (isfree : Addr → Option Bool) (hR : Rep (slabTrie g) m v) (leaf : Addr) (oks : ℕ → Bool)
    (hid : id < g.descMax) :
    ∃ r m', ertExpand g.consts (nsFns g.arch isfree) m (some (.cell v 0)) id 0 g.depth
        (some leaf, oks) none = some (r, m') ∧ Rep (slabTrie g) m' v ∧
      ((r = 0 ∧ valueAt (slabTrie g) m v (id / g.range) = none ∧
          ∀ k < ertMaxid (slabTrie g).consts, valueAt (slabTrie g) m' v k =
            if k = id / g.range then some leaf else valueAt (slabTrie g) m v k) ∨
        ((r ≠ 0 ∨ valueAt (slabTrie g) m v (id / g.range) ≠ none) ∧
          ∀ k, valueAt (slabTrie g) m' v k = valueAt (slabTrie g) m v k)) := by
  obtain ⟨r, m', hrun, hR', hend⟩ :=
    hR.ertExpand_spec (sizesFit_slabTrie hR) oks (div_range_lt hid) (some leaf)
  rw [ertExpand_eq leaf oks hid, hrun]
  refine ⟨_, m', rfl, hR', ?_⟩
  rcases hend with ⟨rfl, hkeep, hval⟩ | ⟨⟨-, -, h⟩ | ⟨rfl, -, -⟩, hval⟩
  · refine .inl ⟨rfl, ?_, hval⟩
    by_contra h
    exact hkeep ⟨by simp, h⟩
  · exact .inr ⟨.inr h, hval⟩
  · exact .inr ⟨.inl (by decide), hval⟩

/-- The trie of a new namespace is a new trie of slabs. -/
theorem ertAlloc_slabTrie (isfree : Addr → Option Bool) (m : Mem) (leaf : Ptr) (oks : ℕ → Bool) :
    ertAlloc g.consts (nsFns g.arch isfree) m (leaf, oks) =
      ertAlloc (slabTrie g).consts (slabTrie g).fns m oks := by
  have hassert : g.consts.order * (g.consts.depth - 1) + g.consts.lastOrder <
      wordBits g.consts.arch ∧ 1 ≤ g.consts.depth := ertAlloc_assert g.toGeom
  have hroot : decide (g.consts.depth = 1) = false := by
    have : g.consts.depth = g.inner + 2 := g.depth_eq'
    exact decide_eq_false (by omega)
  unfold ertAlloc
  rw [if_pos hassert, if_pos (ertAlloc_assert (slabTrie g)), hroot]
  generalize decide ((slabTrie g).consts.depth = 1) = isleaf
  have hal : (nsFns g.arch isfree).allocfn m (leaf, oks) (nodeSz g.consts false) false =
      (slabTrie g).fns.allocfn m oks (nodeSz (slabTrie g).consts isleaf) isleaf := by
    rw [nodeSz_slabTrie]
    rfl
  simp only [hal, ertInit_slabTrie isfree]

end Expand

/-! ## Unlinking a slab -/

/-- The entry that leads to a slab is cleared. -/
theorem clear_entry {g : NsGeom} {m : Mem} {v id : ℕ} {n : Addr} (hR : Rep (slabTrie g) m v)
    (hid : id < g.descMax) (hn : entryAt g m v id = some n) :
    ∃ m', m.store (psWord g.arch) n none = some m' ∧ Rep (slabTrie g) m' v ∧
      (∀ k < ertMaxid (slabTrie g).consts, valueAt (slabTrie g) m' v k =
        if k = id / g.range then none else valueAt (slabTrie g) m v k) ∧
      ∀ id', entryAt g m' v id' = entryAt g m v id' := by
  unfold entryAt at hn
  obtain ⟨b, hb, rfl⟩ := Option.map_eq_some_iff.mp hn
  obtain ⟨hR', hval⟩ := hR.set_leaf none hb
  refine ⟨_, store_of_le (hR.last_le hb).2, hR', fun k hk => hval k hk (div_range_lt hid), ?_⟩
  intro id'
  unfold entryAt
  rw [hR.nodeAt_set none hb (length_path ..).le]

end Parsec.Nsptr
