import Parsec.Ertrie.Path

/-!
# The trie of `ERT_CREATE_DEF`: representation and calls

* `Geom` — the parameters of a trie, with the bounds its creation asserts.
* `NodeOk`, `NodeNeg` — whether a node's size fits in an `int`, and whether the `int` asked for is
  negative; `SizesFit` puts this together for the levels of a trie.
* `Rep` — the representation invariant: the nodes form a tree, each in a block of its size.
* `valueAt` — what is stored for an id.
* `Rep.ertLookup_eq`, `Rep.ertExpand_spec`, `ertAlloc_spec` — what the code does, in terms of it.
-/

namespace Parsec.Ertrie

open Function Lib

/-- The parameters of a trie made by `ERT_CREATE_DEF`: `depth` and the limit `depth + 1` are
`u32_t`, and so is `last_sz`.
Source: `ps_ertrie.h`, `ERT_CREATE_DEF`, `ert_alloc` -/
structure Geom where
  arch : Arch
  depth : ℕ
  order : ℕ
  lastOrder : ℕ
  lastSz : ℕ
  depth_pos : 1 ≤ depth
  depth_lt : depth + 1 < 2 ^ 32
  order_le : order ≤ 30
  lastOrder_le : lastOrder ≤ 30
  lastSz_lt : lastSz < 2 ^ 32
  bits_lt : order * (depth - 1) + lastOrder < wordBits arch

namespace Geom

/-- What `ERT_CREATE_DEF` passes: internal entries are a pointer wide. -/
def consts (g : Geom) : Consts where
  arch := g.arch
  depth := g.depth
  order := g.order
  internSz := psWord g.arch
  lastOrder := g.lastOrder
  lastSz := g.lastSz

/-- The functions that `ERT_CREATE_DEF` passes. -/
def fns (g : Geom) : Fns (ℕ → Bool) := defFns g.arch

/-- The hops of a lookup, before the last level. -/
def hops (g : Geom) : ℕ := g.depth - 1

variable (g : Geom)

/-- The machine of the constants. -/
@[simp] theorem consts_arch : g.consts.arch = g.arch := rfl

/-- The depth of the constants. -/
@[simp] theorem consts_depth : g.consts.depth = g.depth := rfl

/-- The last level is that of the leaves. -/
theorem depth_eq : g.depth = g.hops + 1 := (Nat.sub_add_cancel g.depth_pos).symm

/-- There are no more hops than levels. -/
theorem hops_le : g.hops ≤ g.depth := Nat.sub_le _ _

/-- After all hops one level is left. -/
theorem depth_sub_hops : g.depth - g.hops = 1 := by
  rw [g.depth_eq]
  omega

/-- The depth fits in a `u32_t`. -/
theorem depth_lt_u32 : g.depth < 2 ^ 32 := Nat.lt_of_succ_lt g.depth_lt

/-- The bits of an id are counted by a `u32_t`. -/
theorem bits_lt_u32 : g.order * (g.depth - 1) + g.lastOrder < 2 ^ 32 := by
  have := psWord_le g.arch
  have := g.bits_lt
  unfold wordBits at this
  omega

end Geom

/-- The ids of a trie are the numbers of its bits. -/
theorem lt_ertMaxid_iff (g : Geom) {id : ℕ} :
    id < ertMaxid g.consts ↔ id < 2 ^ (g.order * g.hops + g.lastOrder) := by
  have hmax : ertMaxid g.consts = 1 <<< (g.order * g.hops + g.lastOrder) :=
    if_neg (not_lt.mpr g.bits_lt.le)
  rw [hmax, Nat.one_shiftLeft]

/-! ## Node sizes -/

/-- The bytes that a node needs. -/
def nodeBytes (c : Consts) (isleaf : Bool) : ℕ := nodeBase c isleaf * entrySz c isleaf

/-- The node is in reach: its size is an `int`, and its entries hold a pointer. -/
def NodeOk (g : Geom) (isleaf : Bool) : Prop :=
  nodeBytes g.consts isleaf < 2 ^ 31 ∧ psWord g.arch ≤ entrySz g.consts isleaf

/-- The allocation function is asked for a negative number of bytes. -/
def NodeNeg (g : Geom) (isleaf : Bool) : Prop := 2 ^ 31 ≤ toU32 (nodeBytes g.consts isleaf)

instance (g : Geom) (isleaf : Bool) : Decidable (NodeOk g isleaf) :=
  inferInstanceAs (Decidable (_ ∧ _))

instance (g : Geom) (isleaf : Bool) : Decidable (NodeNeg g isleaf) :=
  inferInstanceAs (Decidable (_ ≤ _))

variable {g : Geom}

/-- The entries of an internal node. -/
theorem nodeBase_internal (g : Geom) : nodeBase g.consts false = 2 ^ g.order :=
  Nat.one_shiftLeft _

/-- The entries of a leaf. -/
theorem nodeBase_leaf (g : Geom) : nodeBase g.consts true = 2 ^ g.lastOrder :=
  Nat.one_shiftLeft _

/-- A node has entries. -/
theorem nodeBase_pos (c : Consts) (isleaf : Bool) : 0 < nodeBase c isleaf := by
  unfold nodeBase
  split <;> simp [Nat.one_shiftLeft]

/-- The size of an entry fits in a `u32_t`. -/
theorem entrySz_lt (g : Geom) (isleaf : Bool) : entrySz g.consts isleaf < 2 ^ 32 := by
  unfold entrySz
  split
  · exact g.lastSz_lt
  · exact lt_of_le_of_lt (psWord_le g.arch) (by decide)

/-- An entry of a node in reach starts and ends inside the node. -/
theorem entry_le {base sz i w : ℕ} (hi : i < base) (hw : w ≤ sz) : i * sz + w ≤ base * sz := by
  have hmul : (i + 1) * sz ≤ base * sz := Nat.mul_le_mul_right sz hi
  rw [Nat.succ_mul] at hmul
  omega

/-- The size of a node that fits is that of its entries. -/
theorem NodeOk.nodeSz_eq {isleaf : Bool} (h : NodeOk g isleaf) :
    nodeSz g.consts isleaf = nodeBytes g.consts isleaf := by
  have hlt := h.1
  unfold nodeSz
  rw [← nodeBytes, toU32_of_lt (by omega), toInt_of_lt hlt]

/-- A size that is not negative is that of the entries, in a `u32_t`. -/
theorem nodeSz_of_not_neg {isleaf : Bool} (h : ¬ NodeNeg g isleaf) :
    nodeSz g.consts isleaf = toU32 (nodeBytes g.consts isleaf) := toInt_of_lt (not_le.mp h)

/-- A size that an `int` does not hold is negative. -/
theorem NodeNeg.nodeSz_neg {isleaf : Bool} (h : NodeNeg g isleaf) :
    nodeSz g.consts isleaf < 0 := by
  unfold nodeSz
  exact toInt_neg h (toU32_lt _)

/-- In a node in reach the offsets of `__ert_init` do not overflow. -/
theorem NodeOk.initOff_eq {isleaf : Bool} (h : NodeOk g isleaf) {i : ℕ}
    (hi : i < nodeBase g.consts isleaf) :
    initOff g.consts isleaf i = some (i * entrySz g.consts isleaf) := by
  have hpos := psWord_pos g.arch
  have hlt : i * entrySz g.consts isleaf < 2 ^ 31 := by
    have := entry_le hi h.2
    have := h.1
    unfold nodeBytes at this
    omega
  have hsz : entrySz g.consts isleaf < 2 ^ 31 := by
    have hle : entrySz g.consts isleaf ≤ nodeBytes g.consts isleaf :=
      Nat.le_mul_of_pos_left _ (nodeBase_pos _ _)
    exact lt_of_le_of_lt hle h.1
  have hcast : toInt (entrySz g.consts isleaf) * i = ((i * entrySz g.consts isleaf : ℕ) : ℤ) := by
    rw [toInt_of_lt hsz, mul_comm]
    push_cast
    rfl
  unfold initOff
  rw [hcast, if_pos ⟨by omega, by exact_mod_cast hlt⟩, Int.toNat_natCast]

/-- A node that is neither in reach nor asked for with a negative size has an entry outside of
the block that is allocated for it. -/
theorem exists_initOff_out {isleaf : Bool} (hok : ¬ NodeOk g isleaf) (hneg : ¬ NodeNeg g isleaf) :
    ∃ i < nodeBase g.consts isleaf, ∀ off, initOff g.consts isleaf i = some off →
      toU32 (nodeBytes g.consts isleaf) < off + psWord g.arch := by
  have hB := nodeBase_pos g.consts isleaf
  have hS := entrySz_lt g isleaf
  have hword := psWord_le g.arch
  unfold NodeOk at hok
  unfold NodeNeg nodeBytes at *
  unfold initOff
  generalize nodeBase g.consts isleaf = B at *
  generalize entrySz g.consts isleaf = S at *
  obtain ⟨B, rfl⟩ : ∃ k, B = k + 1 := ⟨B - 1, by omega⟩
  have hmul : (B + 1) * S = B * S + S := Nat.succ_mul B S
  have hlast : ∀ {off : ℕ}, S < 2 ^ 31 →
      (if 0 ≤ toInt S * (B : ℤ) ∧ toInt S * (B : ℤ) < 2 ^ 31 then
        some (toInt S * (B : ℤ)).toNat else none) = some off → off = B * S ∧ off < 2 ^ 31 := by
    intro off hlt hoff
    have hcast : toInt S * (B : ℤ) = ((B * S : ℕ) : ℤ) := by
      rw [toInt_of_lt hlt, mul_comm]
      push_cast
      rfl
    rw [hcast] at hoff
    split at hoff
    · rename_i hb
      rw [Int.toNat_natCast, Option.some.injEq] at hoff
      exact ⟨hoff.symm, by exact_mod_cast hoff ▸ hb.2⟩
    · cases hoff
  by_cases hsmall : (B + 1) * S < 2 ^ 31
  · -- the size is right, and the last entry is narrower than a pointer
    have hnarrow : S < psWord g.arch := by
      by_contra hle
      exact hok ⟨hsmall, by omega⟩
    refine ⟨B, by omega, fun off hoff => ?_⟩
    obtain ⟨rfl, -⟩ := hlast (by omega) hoff
    rw [toU32_of_lt (by omega)]
    omega
  · -- the size wraps around
    have hbig : 2 ^ 32 ≤ (B + 1) * S := by
      by_contra hlt
      exact hneg (by rw [toU32_of_lt (by omega)]; omega)
    by_cases hneg : 2 ^ 31 ≤ S
    · have hB2 : B ≠ 0 := by
        rintro rfl
        omega
      refine ⟨1, by omega, fun off hoff => ?_⟩
      have htoInt := toInt_neg hneg hS
      rw [if_neg (by simp; omega)] at hoff
      cases hoff
    · refine ⟨B, by omega, fun off hoff => ?_⟩
      obtain ⟨rfl, hlt⟩ := hlast (by omega) hoff
      omega

/-! ## Initialisation and allocation -/

/-- A store inside its block. -/
theorem store_of_le {w b off : ℕ} {m : Mem} {p : Ptr} (h : off + w ≤ m.size b) :
    m.store w (.cell b off) p = some (m.set b off p) := if_pos h

/-- A load inside its block. -/
theorem load_of_le {w b off : ℕ} {m : Mem} (h : off + w ≤ m.size b) :
    m.load w (.cell b off) = some (m.word b off) := if_pos h

/-- A store moves no block. -/
theorem store_frame {w : ℕ} {m m' : Mem} {a : Addr} {p : Ptr} (h : m.store w a p = some m') :
    m'.brk = m.brk ∧ m'.size = m.size := by
  cases a with
  | cell b off =>
      simp only [Mem.store, Option.ite_none_right_eq_some, Option.some.injEq] at h
      obtain ⟨-, rfl⟩ := h
      exact ⟨rfl, rfl⟩
  | vect v => cases h
  | ext d off => cases h
  | null off => cases h

/-- `__ert_init` moves no block. -/
theorem initLoop_frame {isleaf : Bool} {a : Addr} {k : ℕ} {m m' : Mem}
    (h : initLoop g.consts g.fns a isleaf k m = some m') :
    m'.brk = m.brk ∧ m'.size = m.size := by
  induction k generalizing m' with
  | zero =>
      cases h
      exact ⟨rfl, rfl⟩
  | succ k ih =>
      simp only [initLoop, Geom.fns, defFns, Option.bind_eq_bind, Option.bind_eq_some_iff] at h
      obtain ⟨m₁, h₁, a', -, h₂⟩ := h
      have hfr := store_frame h₂
      have hih := ih h₁
      exact ⟨hfr.1.trans hih.1, hfr.2.trans hih.2⟩

/-- The loop of `__ert_init` on a node in reach sets its entries to NULL. -/
theorem initLoop_spec {isleaf : Bool} (hok : NodeOk g isleaf) {b : ℕ} {m : Mem}
    (hsize : m.size b = nodeBytes g.consts isleaf) {k : ℕ} (hk : k ≤ nodeBase g.consts isleaf) :
    ∃ m', initLoop g.consts g.fns (.cell b 0) isleaf k m = some m' ∧ m'.brk = m.brk ∧
      m'.size = m.size ∧ (∀ b' ≠ b, m'.word b' = m.word b') ∧
      ∀ i < k, m'.word b (i * entrySz g.consts isleaf) = none := by
  induction k with
  | zero => exact ⟨m, rfl, rfl, rfl, fun _ _ => rfl, fun i hi => absurd hi (Nat.not_lt_zero i)⟩
  | succ k ih =>
      obtain ⟨m₁, h₁, hbrk, hsz, hother, hnull⟩ := ih (by omega)
      have hle : k * entrySz g.consts isleaf + psWord g.arch ≤ m₁.size b := by
        rw [hsz, hsize]
        exact entry_le (by omega) hok.2
      refine ⟨m₁.set b (k * entrySz g.consts isleaf) none, ?_, hbrk, hsz, fun b' hb' => ?_,
        fun i hi => ?_⟩
      · simp only [initLoop, h₁, hok.initOff_eq (show k < _ by omega), Option.bind_eq_bind,
          Option.bind_some, Option.map_some, Addr.plus, Nat.zero_add]
        exact store_of_le hle
      · rw [Mem.set_word_of_ne hb']
        exact hother b' hb'
      · by_cases hik : i * entrySz g.consts isleaf = k * entrySz g.consts isleaf
        · rw [hik, Mem.set_word_self]
        · rw [Mem.set_word_of_off_ne hik]
          refine hnull i (lt_of_le_of_ne (by omega) ?_)
          rintro rfl
          exact hik rfl

/-- The loop of `__ert_init` faults where an entry is not in the block. -/
theorem initLoop_eq_none {isleaf : Bool} {b : ℕ} {m : Mem} {k i : ℕ} (hi : i < k)
    (hout : ∀ off, initOff g.consts isleaf i = some off → m.size b < off + psWord g.arch) :
    initLoop g.consts g.fns (.cell b 0) isleaf k m = none := by
  rw [Option.eq_none_iff_forall_not_mem]
  intro m' hm'
  induction k generalizing m' with
  | zero => exact absurd hi (Nat.not_lt_zero i)
  | succ k ih =>
      simp only [initLoop, Option.bind_eq_bind, Option.mem_def, Option.bind_eq_some_iff] at hm'
      obtain ⟨m₁, h₁, h₂⟩ := hm'
      by_cases hik : i = k
      · subst hik
        simp only [Geom.fns, defFns, Option.bind_eq_some_iff, Option.map_eq_some_iff] at h₂
        obtain ⟨a, ⟨off, hoff, rfl⟩, h₂⟩ := h₂
        have hlt := hout off hoff
        rw [← (initLoop_frame h₁).2] at hlt
        simp only [Addr.plus, Nat.zero_add, Mem.store] at h₂
        rw [if_neg (by omega)] at h₂
        cases h₂
      · exact ih (by omega) m₁ h₁

/-- `__ert_init` of a node in reach. -/
theorem ertInit_spec {isleaf : Bool} (hok : NodeOk g isleaf) {b : ℕ} {m : Mem}
    (hsize : m.size b = nodeBytes g.consts isleaf) :
    ∃ m', ertInit g.consts g.fns m (some (.cell b 0)) isleaf = some m' ∧ m'.brk = m.brk ∧
      m'.size = m.size ∧ (∀ b' ≠ b, m'.word b' = m.word b') ∧
      ∀ i < nodeBase g.consts isleaf, m'.word b (i * entrySz g.consts isleaf) = none :=
  initLoop_spec hok hsize le_rfl

/-- An allocation function returns NULL, and the memory as it was, or a block not handed out
before. -/
theorem allocfn_cases (m : Mem) (oks : ℕ → Bool) (isleaf : Bool) :
    g.fns.allocfn m oks (nodeSz g.consts isleaf) isleaf = (none, m) ∨
    (¬ NodeNeg g isleaf ∧ g.fns.allocfn m oks (nodeSz g.consts isleaf) isleaf =
      (some (.cell m.brk 0), { m with
        brk := m.brk + 1, size := update m.size m.brk (nodeSz g.consts isleaf).toNat })) := by
  by_cases h : oks m.brk = true ∧ 0 ≤ nodeSz g.consts isleaf
  · refine .inr ⟨fun hneg => ?_, if_pos h⟩
    have := hneg.nodeSz_neg
    omega
  · exact .inl (if_neg h)

/-! ## The representation -/

/-- The node at the end of a path. -/
abbrev nodeAt (g : Geom) (m : Mem) (v : ℕ) (p : List ℕ) : Option ℕ := walk (child g.consts m) v p

/-- The nodes form a tree, each in a block of its size, and the entries of internal nodes are NULL
or lead to a node. -/
structure Rep (g : Geom) (m : Mem) (v : ℕ) : Prop where
  inj : WalkInj (child g.consts m) v g.hops
  lt : ∀ p b, p.length ≤ g.hops → nodeAt g m v p = some b → b < m.brk
  ok : ∀ p b, p.length ≤ g.hops → nodeAt g m v p = some b → NodeOk g (decide (p.length = g.hops))
  size : ∀ p b, p.length ≤ g.hops → nodeAt g m v p = some b →
    m.size b = nodeBytes g.consts (decide (p.length = g.hops))
  shape : ∀ p b k, p.length < g.hops → nodeAt g m v p = some b → k < 2 ^ g.order →
    m.word b (k * psWord g.arch) = none ∨
      ∃ b', m.word b (k * psWord g.arch) = some (.cell b' 0)

/-- What is stored for an id. -/
def valueAt (g : Geom) (m : Mem) (v id : ℕ) : Ptr :=
  (nodeAt g m v (path g.consts id g.hops)).bind fun b => m.word b (walkOff g.consts id 1)

/-- The node one hop further. -/
theorem nodeAt_path_succ {m : Mem} {v id i b : ℕ}
    (hb : nodeAt g m v (path g.consts id i) = some b) :
    nodeAt g m v (path g.consts id (i + 1)) = child g.consts m b (hop g.consts id i) := by
  rw [path_succ, nodeAt, walk_snoc, show walk (child g.consts m) v _ = some b from hb,
    Option.bind_some]

namespace Rep

variable {m : Mem} {v : ℕ}

/-- A hop's entry is inside its node. -/
theorem hop_le (hR : Rep g m v) {id i b : ℕ} (hi : i < g.hops)
    (hb : nodeAt g m v (path g.consts id i) = some b) :
    walkOff g.consts id (g.depth - i) = hop g.consts id i * psWord g.arch ∧
      hop g.consts id i * psWord g.arch + psWord g.arch ≤ m.size b := by
  have hlen : ¬ (path g.consts id i).length = g.hops := by rw [length_path]; omega
  have hle : (path g.consts id i).length ≤ g.hops := by rw [length_path]; omega
  have hok := hR.ok _ b hle hb
  have hsz := hR.size _ b hle hb
  rw [decide_eq_false hlen] at hok hsz
  have hbytes : nodeBytes g.consts false = 2 ^ g.order * psWord g.arch := by
    rw [nodeBytes, nodeBase_internal]
    rfl
  have hlt := hok.1
  rw [hbytes] at hlt hsz
  refine ⟨walkOff_hop (c := g.consts) (by simp only [Geom.consts]; omega) g.depth_lt_u32
    g.bits_lt_u32 ?_, ?_⟩
  · rw [Geom.consts_depth, g.depth_eq]
    omega
  · rw [hsz]
    exact entry_le (hop_lt g.consts id i) le_rfl

/-- The last entry is inside its node. -/
theorem last_le (hR : Rep g m v) {id b : ℕ}
    (hb : nodeAt g m v (path g.consts id g.hops) = some b) :
    walkOff g.consts id 1 = ertM id g.lastOrder * g.lastSz ∧
      walkOff g.consts id 1 + psWord g.arch ≤ m.size b := by
  have hok := hR.ok _ b (length_path ..).le hb
  have hsz := hR.size _ b (length_path ..).le hb
  rw [decide_eq_true (length_path ..)] at hok hsz
  have hbytes : nodeBytes g.consts true = 2 ^ g.lastOrder * g.lastSz := by
    rw [nodeBytes, nodeBase_leaf]
    rfl
  have hlt := hok.1
  have hw : psWord g.arch ≤ g.lastSz := hok.2
  have hpos := psWord_pos g.arch
  rw [hbytes] at hlt hsz
  have hoff : walkOff g.consts id 1 = ertM id g.lastOrder * g.lastSz :=
    walkOff_last (c := g.consts) (by simp only [Geom.consts]; omega)
      (by simp only [Geom.consts]; omega) id
  refine ⟨hoff, ?_⟩
  rw [hoff, hsz]
  exact entry_le (ertM_lt id _) hw

end Rep

/-- Where the path of an id breaks off, the rest of it is missing too. -/
theorem nodeAt_path_of_none {m : Mem} {v id i j : ℕ}
    (h : nodeAt g m v (path g.consts id i) = none) (hij : i ≤ j) :
    nodeAt g m v (path g.consts id j) = none := by
  have hsplit : path g.consts id j = path g.consts id i ++
      (List.range (j - i)).map fun l => hop g.consts id (i + l) := by
    simp only [path]
    rw [show j = i + (j - i) by omega, List.range_add, List.map_append, List.map_map]
    simp [Function.comp_def]
  rw [hsplit]
  exact walk_append_eq_none h _

/-! ## Lookups -/

/-- What an entry holds `i` hops down the path of an id: a pointer to the node there, or NULL where
there is none. -/
structure Holds (g : Geom) (m : Mem) (v id i : ℕ) (e : Addr) : Prop where
  load : m.load (psWord g.arch) e =
    some ((nodeAt g m v (path g.consts id i)).map fun b => .cell b 0)

/-- The local entry that `__ert_lookup` and `__ert_expand` start from. -/
theorem holds_vect (g : Geom) (m : Mem) (v id : ℕ) : Holds g m v id 0 (.vect v) := ⟨rfl⟩

namespace Rep

variable {m : Mem} {v : ℕ}

/-- One hop of a walk. -/
theorem ertWalk_hop (hR : Rep g m v) {id i b : ℕ} {e : Addr} (he : Holds g m v id i e)
    (hi : i < g.hops) (hb : nodeAt g m v (path g.consts id i) = some b) :
    ertWalk g.consts m e id (g.depth - i) = some (.cell b (hop g.consts id i * psWord g.arch)) ∧
      Holds g m v id (i + 1) (.cell b (hop g.consts id i * psWord g.arch)) := by
  obtain ⟨hoff, hle⟩ := hR.hop_le hi hb
  have hload := he.load
  rw [hb] at hload
  refine ⟨?_, ⟨?_⟩⟩
  · rw [ertWalk_of_load (c := g.consts) hload, hoff, Addr.plus, Nat.zero_add]
  · rw [load_of_le hle, nodeAt_path_succ hb]
    have hk : hop g.consts id i < 2 ^ g.order := hop_lt g.consts id i
    rcases hR.shape _ b _ (by rwa [length_path]) hb hk with hw | ⟨b', hw⟩
    · rw [child_of_null hw, hw]
      rfl
    · rw [child_of_word hk hw, hw]
      rfl

/-- The last hop of a walk. -/
theorem ertWalk_last (hR : Rep g m v) {id b : ℕ} {e : Addr} (he : Holds g m v id g.hops e)
    (hb : nodeAt g m v (path g.consts id g.hops) = some b) :
    ertWalk g.consts m e id 1 = some (.cell b (walkOff g.consts id 1)) ∧
      m.load (psWord g.arch) (.cell b (walkOff g.consts id 1)) =
        some (m.word b (walkOff g.consts id 1)) := by
  have hload := he.load
  rw [hb] at hload
  refine ⟨?_, load_of_le (hR.last_le hb).2⟩
  rw [ertWalk_of_load (c := g.consts) hload, Addr.plus, Nat.zero_add]

/-- The loop of `__ert_lookup` ends at the id's leaf entry, or at NULL where there is none. -/
theorem lookupLoop_eq (hR : Rep g m v) {id k i : ℕ} {e : Addr} (hk : i + k = g.hops)
    (he : Holds g m v id i e) :
    lookupLoop g.consts m id (k + 1) i e =
      some ((nodeAt g m v (path g.consts id g.hops)).map
        fun b => .cell b (walkOff g.consts id 1)) := by
  induction k generalizing i e with
  | zero =>
      rw [Nat.add_zero] at hk
      subst hk
      have hload := he.load
      rw [lookupLoop_succ _ _ _ _ g.hops_le g.depth_lt_u32]
      simp only [lookupLoop, Geom.consts_arch, Geom.consts_depth, g.depth_sub_hops, hload,
        Option.bind_some, Option.map_eq_none_iff]
      cases hb : nodeAt g m v (path g.consts id g.hops) with
      | none => simp
      | some b => simp [(hR.ertWalk_last he hb).1]
  | succ k ih =>
      have hload := he.load
      have hle : i ≤ g.consts.depth := le_trans (by omega) g.hops_le
      rw [lookupLoop_succ _ _ _ _ hle g.depth_lt_u32]
      simp only [Geom.consts_arch, Geom.consts_depth, hload, Option.bind_some,
        Option.map_eq_none_iff]
      cases hb : nodeAt g m v (path g.consts id i) with
      | none =>
          rw [if_pos rfl]
          rw [nodeAt_path_of_none hb (by omega), Option.map_none]
      | some b =>
          obtain ⟨hwalk, hnext⟩ := hR.ertWalk_hop he (by omega) hb
          rw [if_neg (by simp), hwalk, Option.bind_some]
          exact ih (by omega) hnext

/-- A lookup past the leaf returns what is stored for the id. -/
theorem ertLookup_eq (hR : Rep g m v) {id : ℕ} (hid : id < ertMaxid g.consts) :
    ertLookup g.consts g.fns m (some (.cell v 0)) id 0 (g.depth + 1) =
      some (valueAt g m v id) := by
  have hloop := hR.lookupLoop_eq (k := g.hops) (Nat.zero_add _) (holds_vect g m v id)
  rw [← g.depth_eq] at hloop
  have hpast := ertLookup_past (f := g.fns) (m := m) (v := v) hid
  rw [Geom.consts_depth] at hpast
  rw [hpast, hloop]
  cases hb : nodeAt g m v (path g.consts id g.hops) with
  | none => simp [valueAt, hb]
  | some b =>
      have hload := load_of_le (hR.last_le hb).2
      simp [valueAt, hb, Geom.fns, defFns, hload]

end Rep

/-! ## Expansion -/

/-- A fresh node, with its entries NULL, was linked at entry `k` of node `b`. -/
structure Linked (g : Geom) (m m' : Mem) (b k : ℕ) (isleaf : Bool) : Prop where
  brk : m'.brk = m.brk + 1
  size_new : m'.size m.brk = nodeBytes g.consts isleaf
  size_old : ∀ c, c ≠ m.brk → m'.size c = m.size c
  word_link : m'.word b (k * psWord g.arch) = some (.cell m.brk 0)
  word_old : ∀ c off, c ≠ m.brk → (c ≠ b ∨ off ≠ k * psWord g.arch) → m'.word c off = m.word c off
  word_new : ∀ i < nodeBase g.consts isleaf, m'.word m.brk (i * entrySz g.consts isleaf) = none

/-- The round of `__ert_expand` that finds NULL, when the allocation succeeds. -/
theorem exists_linked {isleaf : Bool} (hok : NodeOk g isleaf) {m : Mem} {b k : ℕ} (hb : b ≠ m.brk)
    (hle : k * psWord g.arch + psWord g.arch ≤ m.size b) :
    ∃ m₁ m', ertInit g.consts g.fns { m with
          brk := m.brk + 1, size := update m.size m.brk (nodeSz g.consts isleaf).toNat }
        (some (.cell m.brk 0)) isleaf = some m₁ ∧
      m₁.store (psWord g.arch) (.cell b (k * psWord g.arch)) (some (.cell m.brk 0)) = some m' ∧
      Linked g m m' b k isleaf := by
  obtain ⟨m₁, h₁, hbrk, hsize, hother, hnull⟩ := ertInit_spec (g := g) hok (b := m.brk)
    (m := ⟨m.brk + 1, update m.size m.brk (nodeSz g.consts isleaf).toNat, m.word⟩)
    (by rw [hok.nodeSz_eq]; simp)
  have hle' : k * psWord g.arch + psWord g.arch ≤ m₁.size b := by
    rw [hsize]
    simpa [update_of_ne hb] using hle
  refine ⟨m₁, m₁.set b (k * psWord g.arch) (some (.cell m.brk 0)), h₁, store_of_le hle', hbrk, ?_,
    fun c hc => ?_, Mem.set_word_self, fun c off hc hne => ?_, fun i hi => ?_⟩
  · rw [Mem.set_size, hsize, hok.nodeSz_eq]
    simp
  · rw [Mem.set_size, hsize]
    exact update_of_ne hc _ _
  · by_cases hcb : c = b
    · subst hcb
      rw [Mem.set_word_of_off_ne (hne.resolve_left fun h => h rfl), hother c hc]
    · rw [Mem.set_word_of_ne hcb, hother c hc]
  · rw [Mem.set_word_of_ne hb.symm]
    exact hnull i hi

namespace Rep

variable {m m' : Mem} {v b k : ℕ} {p : List ℕ}

/-- The nodes after a fresh one is linked where there was none. -/
theorem nodeAt_linked (hR : Rep g m v) (hp : p.length < g.hops) (hb : nodeAt g m v p = some b)
    (hk : k < 2 ^ g.order) (hnull : m.word b (k * psWord g.arch) = none)
    (hL : Linked g m m' b k (decide (p.length + 1 = g.hops))) {q : List ℕ}
    (hq : q.length ≤ g.hops) :
    nodeAt g m' v q = if q = p ++ [k] then some m.brk else nodeAt g m v q := by
  have hold : ∀ q c, q.length ≤ g.hops → nodeAt g m v q = some c → c ≠ m.brk :=
    fun q c hq hc => (hR.lt q c hq hc).ne
  refine walk_link hR.inj hp hb (child_of_null hnull) (child_of_word hk hL.word_link)
    (fun e he => ?_) (fun q c e hq hc hne => ?_) hq
  · by_cases hek : e < 2 ^ g.order
    · refine child_of_null ?_
      have hnew := hL.word_new
      rw [decide_eq_false (by omega)] at hnew
      exact hnew e (by rwa [nodeBase_internal])
    · exact if_neg hek
  · unfold child
    rw [hL.word_old c _ (hold q c hq.le hc)]
    refine hne.imp id fun hek h => hek ?_
    exact Nat.eq_of_mul_eq_mul_right (psWord_pos g.arch) h

/-- Linking a fresh node keeps the representation. -/
theorem link (hR : Rep g m v) (hp : p.length < g.hops) (hb : nodeAt g m v p = some b)
    (hk : k < 2 ^ g.order) (hnull : m.word b (k * psWord g.arch) = none)
    (hok : NodeOk g (decide (p.length + 1 = g.hops)))
    (hL : Linked g m m' b k (decide (p.length + 1 = g.hops))) : Rep g m' v := by
  have hnode := fun q hq => hR.nodeAt_linked hp hb hk hnull hL (q := q) hq
  have hlen : (p ++ [k]).length = p.length + 1 := by simp
  refine ⟨hR.inj.link (fun q hq h => (hR.lt q _ hq h).false) hnode, fun q c hq hc => ?_,
    fun q c hq hc => ?_, fun q c hq hc => ?_, fun q c e hq hc he => ?_⟩
  · rw [hnode q hq] at hc
    rw [hL.brk]
    split at hc
    · cases hc
      omega
    · have := hR.lt q c hq hc
      omega
  · rw [hnode q hq] at hc
    split at hc
    · rename_i h
      rw [h, hlen]
      exact hok
    · exact hR.ok q c hq hc
  · rw [hnode q hq] at hc
    split at hc
    · rename_i h
      cases hc
      rw [h, hlen]
      exact hL.size_new
    · rw [hL.size_old c (hR.lt q c hq hc).ne]
      exact hR.size q c hq hc
  · rw [hnode q hq.le] at hc
    split at hc
    · rename_i h
      cases hc
      rw [h, hlen] at hq
      left
      have hnew := hL.word_new
      rw [decide_eq_false (by omega)] at hnew
      exact hnew e (by rwa [nodeBase_internal])
    · by_cases hce : c = b ∧ e = k
      · obtain ⟨rfl, rfl⟩ := hce
        exact .inr ⟨m.brk, hL.word_link⟩
      · rw [hL.word_old c _ (hR.lt q c hq.le hc).ne]
        · exact hR.shape q c e hq hc he
        · by_cases hcb : c = b
          · refine .inr fun h => hce ⟨hcb, ?_⟩
            exact Nat.eq_of_mul_eq_mul_right (psWord_pos g.arch) h
          · exact .inl hcb

/-- Linking a fresh node changes no stored value. -/
theorem valueAt_linked (hR : Rep g m v) (hp : p.length < g.hops) (hb : nodeAt g m v p = some b)
    (hk : k < 2 ^ g.order) (hnull : m.word b (k * psWord g.arch) = none)
    (hok : NodeOk g (decide (p.length + 1 = g.hops)))
    (hL : Linked g m m' b k (decide (p.length + 1 = g.hops))) (id : ℕ) :
    valueAt g m' v id = valueAt g m v id := by
  have hR' := hR.link hp hb hk hnull hok hL
  have hnode := hR.nodeAt_linked hp hb hk hnull hL (q := path g.consts id g.hops)
    (length_path ..).le
  unfold valueAt
  by_cases hq : path g.consts id g.hops = p ++ [k]
  · -- the id's last node is the fresh one: nothing is stored there yet, as before
    rw [if_pos hq] at hnode
    have hold : nodeAt g m v (path g.consts id g.hops) = none := by
      rw [hq, nodeAt, walk_snoc, show walk (child g.consts m) v p = some b from hb]
      exact child_of_null hnull
    have hlen : p.length + 1 = g.hops := by
      have := congrArg List.length hq
      simpa using this.symm
    have hnew := hL.word_new
    rw [decide_eq_true hlen] at hnew
    rw [hnode, hold, Option.bind_some, Option.bind_none, (hR'.last_le hnode).1]
    exact hnew _ (by rw [nodeBase_leaf]; exact ertM_lt id g.lastOrder)
  · rw [if_neg hq] at hnode
    rw [hnode]
    cases hc : nodeAt g m v (path g.consts id g.hops) with
    | none => rfl
    | some c =>
        have hcb : c ≠ b := by
          rintro rfl
          have := hR.inj _ _ c (length_path ..).le hp.le hc hb
          have := congrArg List.length this
          rw [length_path] at this
          omega
        exact hL.word_old c _ (hR.lt _ c (length_path ..).le hc).ne (.inl hcb)

/-- The entry of the node above a fresh one leads to it. -/
theorem holds_linked (hR : Rep g m v) {id i : ℕ} (hi : i < g.hops)
    (hb : nodeAt g m v (path g.consts id i) = some b)
    (hnull : m.word b (hop g.consts id i * psWord g.arch) = none)
    (hL : Linked g m m' b (hop g.consts id i)
      (decide ((path g.consts id i).length + 1 = g.hops))) :
    nodeAt g m' v (path g.consts id (i + 1)) = some m.brk ∧
      Holds g m' v id (i + 1) (.cell b (hop g.consts id i * psWord g.arch)) := by
  have hlen : (path g.consts id i).length < g.hops := by rwa [length_path]
  have hnew : nodeAt g m' v (path g.consts id (i + 1)) = some m.brk := by
    rw [hR.nodeAt_linked hlen hb (hop_lt g.consts id i) hnull hL (by rw [length_path]; omega),
      if_pos (path_succ ..)]
  have hle := (hR.hop_le hi hb).2
  rw [← hL.size_old b (hR.lt _ b hlen.le hb).ne] at hle
  refine ⟨hnew, ⟨?_⟩⟩
  rw [load_of_le hle, hL.word_link, hnew]
  rfl

end Rep

/-- The exact condition on the parameters: a node's size does not wrap around, or is negative, so
that the node is never allocated. Leaf nodes matter where a leaf node can come to be allocated. -/
def SizesFit (g : Geom) : Prop :=
  (NodeNeg g (decide (g.depth = 1)) ∨ NodeOk g (decide (g.depth = 1))) ∧
    (1 < g.depth → NodeOk g false → NodeNeg g true ∨ NodeOk g true)

/-- The last allocation of a call returned NULL. -/
def AllocFailed (g : Geom) (m : Mem) (oks : ℕ → Bool) : Prop :=
  ∃ isleaf, (g.fns.allocfn m oks (nodeSz g.consts isleaf) isleaf).1 = none

namespace Rep

variable {m : Mem} {v : ℕ}

/-- A node below the root that can be allocated is in reach. -/
theorem ok_or_neg (hR : Rep g m v) (hS : SizesFit g) {i : ℕ} (hi : i < g.hops) :
    NodeNeg g (decide (i + 1 = g.hops)) ∨ NodeOk g (decide (i + 1 = g.hops)) := by
  have hroot := hR.ok [] v (Nat.zero_le _) rfl
  rw [decide_eq_false (by simp; omega)] at hroot
  by_cases hlast : i + 1 = g.hops
  · rw [decide_eq_true hlast]
    exact hS.2 (by rw [g.depth_eq]; omega) hroot
  · rw [decide_eq_false hlast]
    exact .inr hroot

/-- A round of `__ert_expand` that finds NULL. -/
theorem expandLoop_null (hR : Rep g m v) {oks : ℕ → Bool} {id k i b : ℕ} {e : Addr}
    (hi : i < g.hops) (he : Holds g m v id i e)
    (hb : nodeAt g m v (path g.consts id i) = some b)
    (hnone : nodeAt g m v (path g.consts id (i + 1)) = none) :
    expandLoop g.consts g.fns oks id (k + 1) i e m =
      match g.fns.allocfn m oks (nodeSz g.consts (decide (i + 1 = g.hops)))
        (decide (i + 1 = g.hops)) with
      | (none, m) => some (none, m)
      | (some new, m) => (ertInit g.consts g.fns m (some new) (decide (i + 1 = g.hops))).bind
          fun m => (m.store (psWord g.arch) (.cell b (hop g.consts id i * psWord g.arch))
            (some new)).bind fun m =>
              expandLoop g.consts g.fns oks id k (i + 1)
                (.cell b (hop g.consts id i * psWord g.arch)) m := by
  obtain ⟨hwalk, hnext⟩ := hR.ertWalk_hop he hi hb
  have hload := hnext.load
  rw [hnone, Option.map_none] at hload
  have hleaf : decide (g.consts.depth ≤ i + 2) = decide (i + 1 = g.hops) := by
    rw [Geom.consts_depth, g.depth_eq]
    exact decide_eq_decide.mpr (by omega)
  rw [← Geom.consts_depth] at hwalk
  have hlt : i < g.consts.depth := lt_of_lt_of_le hi g.hops_le
  rewrite [expandLoop_succ _ _ _ _ _ hlt g.depth_lt, Geom.consts_arch, hwalk, Option.bind_some,
    hload, Option.bind_some, if_neg (not_not_intro rfl), hleaf]
  rfl

/-- The loop of `__ert_expand`: the path of the id is there afterwards, or an allocation failed and
nothing is stored for the id; in both cases no stored value has changed. -/
theorem expandLoop_spec (hS : SizesFit g) (oks : ℕ → Bool) {id k i b : ℕ} {e : Addr}
    (hR : Rep g m v) (hk : i + k = g.hops) (he : Holds g m v id i e)
    (hb : nodeAt g m v (path g.consts id i) = some b) :
    ∃ r m', expandLoop g.consts g.fns oks id k i e m = some (r, m') ∧ Rep g m' v ∧
      (∀ id', valueAt g m' v id' = valueAt g m v id') ∧
      ((r = none ∧ valueAt g m v id = none ∧ AllocFailed g m' oks) ∨
        ∃ e' b', r = some e' ∧ Holds g m' v id g.hops e' ∧
          nodeAt g m' v (path g.consts id g.hops) = some b') := by
  induction k generalizing i e b m with
  | zero =>
      rw [Nat.add_zero] at hk
      subst hk
      exact ⟨some e, m, rfl, hR, fun _ => rfl, .inr ⟨e, b, rfl, he, hb⟩⟩
  | succ k ih =>
      have hi : i < g.hops := by omega
      have hlen : (path g.consts id i).length < g.hops := by rwa [length_path]
      have hsucc := nodeAt_path_succ hb
      have hhop : hop g.consts id i < 2 ^ g.order := hop_lt g.consts id i
      rcases hR.shape _ b _ hlen hb hhop with hnull | ⟨b', hw⟩
      · have hnone : nodeAt g m v (path g.consts id (i + 1)) = none := by
          rw [hsucc]
          exact child_of_null hnull
        rw [hR.expandLoop_null hi he hb hnone]
        rcases allocfn_cases (g := g) m oks (decide (i + 1 = g.hops)) with hal | ⟨hneg, hal⟩
        · -- the allocation fails
          refine ⟨none, m, by rw [hal], hR, fun _ => rfl, .inl ⟨rfl, ?_, ⟨_, by rw [hal]⟩⟩⟩
          rw [valueAt, nodeAt_path_of_none hnone (by omega)]
          rfl
        · -- a fresh node is linked
          have hok := (hR.ok_or_neg hS hi).resolve_left hneg
          have hbrk := hR.lt _ b hlen.le hb
          obtain ⟨m₁, m₂, h₁, h₂, hL⟩ := exists_linked hok hbrk.ne (hR.hop_le hi hb).2
          rw [hal]
          simp only [h₁, h₂, Option.bind_some]
          have hleaf : decide (i + 1 = g.hops) =
              decide ((path g.consts id i).length + 1 = g.hops) := by rw [length_path]
          rw [hleaf] at hok hL
          have hR₂ := hR.link hlen hb hhop hnull hok hL
          have hval := hR.valueAt_linked hlen hb hhop hnull hok hL
          obtain ⟨hnew, hheld⟩ := hR.holds_linked hi hb hnull hL
          obtain ⟨r, m', hrun, hR', hval', hend⟩ := ih hR₂ (by omega) hheld hnew
          refine ⟨r, m', hrun, hR', fun id' => (hval' id').trans (hval id'), ?_⟩
          rwa [hval id] at hend
      · -- the node is there
        have hsome : nodeAt g m v (path g.consts id (i + 1)) = some b' := by
          rw [hsucc]
          exact child_of_word hhop hw
        obtain ⟨hwalk, hnext⟩ := hR.ertWalk_hop he hi hb
        have hload := hnext.load
        rw [hsome, Option.map_some] at hload
        rw [← Geom.consts_depth] at hwalk
        have hlt : i < g.consts.depth := lt_of_lt_of_le hi g.hops_le
        rw [expandLoop_succ _ _ _ _ _ hlt g.depth_lt]
        simp only [Geom.consts_arch, hwalk, hload, Option.bind_some, ne_eq, reduceCtorEq,
          not_false_eq_true, if_true]
        exact ih hR (by omega) hnext hsome

/-- The words above the last level are not those of a leaf node. -/
theorem child_set (hR : Rep g m v) {id b : ℕ} (data : Ptr)
    (hb : nodeAt g m v (path g.consts id g.hops) = some b) {q : List ℕ} {c : ℕ}
    (hq : q.length < g.hops) (hc : nodeAt g m v q = some c) :
    c ≠ b ∧ ∀ k, child g.consts (m.set b (walkOff g.consts id 1) data) c k =
      child g.consts m c k := by
  have hne : c ≠ b := by
    rintro rfl
    have := hR.inj _ _ c hq.le (length_path ..).le hc hb
    rw [this, length_path] at hq
    omega
  exact ⟨hne, child_congr (Mem.set_word_of_ne hne)⟩

/-- The nodes stay where a value is stored at a leaf entry. -/
theorem nodeAt_set (hR : Rep g m v) {id b : ℕ} (data : Ptr)
    (hb : nodeAt g m v (path g.consts id g.hops) = some b) {q : List ℕ} (hq : q.length ≤ g.hops) :
    nodeAt g (m.set b (walkOff g.consts id 1) data) v q = nodeAt g m v q :=
  walk_congr (fun _ _ hq hc => (hR.child_set data hb hq hc).2) hq

/-- Storing a value at the leaf entry of an id. -/
theorem set_leaf (hR : Rep g m v) {id b : ℕ} (data : Ptr)
    (hb : nodeAt g m v (path g.consts id g.hops) = some b) :
    Rep g (m.set b (walkOff g.consts id 1) data) v ∧
      ∀ id' < ertMaxid g.consts, id < ertMaxid g.consts →
        valueAt g (m.set b (walkOff g.consts id 1) data) v id' =
          if id' = id then data else valueAt g m v id' := by
  have hne : ∀ q c, q.length < g.hops → nodeAt g m v q = some c → c ≠ b :=
    fun q c hq hc => (hR.child_set data hb hq hc).1
  have hnode : ∀ q, q.length ≤ g.hops →
      nodeAt g (m.set b (walkOff g.consts id 1) data) v q = nodeAt g m v q :=
    fun q hq => hR.nodeAt_set data hb hq
  refine ⟨⟨hR.inj.congr fun q c hq hc => (hR.child_set data hb hq hc).2, ?_, ?_, ?_, ?_⟩,
    fun id' hid' hid => ?_⟩
  · intro q c hq hc
    rw [hnode q hq] at hc
    exact hR.lt q c hq hc
  · intro q c hq hc
    rw [hnode q hq] at hc
    exact hR.ok q c hq hc
  · intro q c hq hc
    rw [hnode q hq] at hc
    exact hR.size q c hq hc
  · intro q c k hq hc hk
    rw [hnode q hq.le] at hc
    rw [Mem.set_word_of_ne (hne q c hq hc)]
    exact hR.shape q c k hq hc hk
  · unfold valueAt
    rw [hnode _ (length_path ..).le]
    split
    · rename_i h
      rw [h, hb, Option.bind_some, Mem.set_word_self]
    · rename_i hidne
      cases hc : nodeAt g m v (path g.consts id' g.hops) with
      | none => rfl
      | some c =>
          rw [Option.bind_some, Option.bind_some]
          by_cases hcb : c = b
          · subst hcb
            rw [Mem.set_word_of_off_ne]
            intro hoff
            have hpath := hR.inj _ _ c (length_path ..).le (length_path ..).le hc hb
            rw [(hR.last_le hc).1, (hR.last_le hb).1] at hoff
            refine hidne (eq_of_path_eq (c := g.consts) g.depth_eq ?_ ?_ ?_ hpath)
            · exact (lt_ertMaxid_iff g).mp hid'
            · exact (lt_ertMaxid_iff g).mp hid
            · have hpos : 0 < g.lastSz := by
                have hok := hR.ok _ c (length_path ..).le hb
                rw [decide_eq_true (length_path ..)] at hok
                exact lt_of_lt_of_le (psWord_pos g.arch) hok.2
              exact Nat.eq_of_mul_eq_mul_right hpos hoff
          · rw [Mem.set_word_of_ne hcb]

end Rep

/-- What `__ert_expand` past the leaf does to the stored values. -/
theorem Rep.ertExpand_spec (hS : SizesFit g) {m : Mem} {v : ℕ} (hR : Rep g m v)
    (oks : ℕ → Bool) {id : ℕ} (hid : id < ertMaxid g.consts) (data : Ptr) :
    ∃ r m', ertExpand g.consts g.fns m (some (.cell v 0)) id 0 (g.depth + 1) oks data =
        some (r, m') ∧ Rep g m' v ∧
      ((r = 0 ∧ ¬ (data ≠ none ∧ valueAt g m v id ≠ none) ∧ ∀ id' < ertMaxid g.consts,
          valueAt g m' v id' = if id' = id then data else valueAt g m v id') ∨
        ((r = 1 ∧ (data ≠ none ∧ valueAt g m v id ≠ none) ∨
          r = -1 ∧ valueAt g m v id = none ∧ AllocFailed g m' oks) ∧
          ∀ id', valueAt g m' v id' = valueAt g m v id')) := by
  obtain ⟨r, m₁, hrun, hR₁, hval, hend⟩ := hR.expandLoop_spec hS oks (k := g.hops)
    (Nat.zero_add _) (holds_vect g m v id) rfl
  have hpos : 0 < g.consts.depth := g.depth_pos
  have hpast := ertExpand_past (f := g.fns) (m := m) (v := v) oks data hid hpos g.depth_lt_u32
  rw [Geom.consts_depth] at hpast
  rw [hpast, show g.depth - 1 - 0 = g.hops from rfl, hrun]
  rcases hend with ⟨rfl, hnone, hfail⟩ | ⟨e, b, rfl, he, hb⟩
  · exact ⟨-1, m₁, rfl, hR₁, .inr ⟨.inr ⟨rfl, hnone, hfail⟩, hval⟩⟩
  · obtain ⟨hwalk, hload⟩ := hR₁.ertWalk_last he hb
    have hstored : valueAt g m v id = m₁.word b (walkOff g.consts id 1) := by
      rw [← hval id, valueAt, hb, Option.bind_some]
    simp only [Option.bind_some, hwalk, hload, Geom.consts_arch, ← hstored]
    by_cases hkeep : data ≠ none ∧ valueAt g m v id ≠ none
    · rw [if_pos hkeep]
      exact ⟨1, m₁, rfl, hR₁, .inr ⟨.inl ⟨rfl, hkeep⟩, hval⟩⟩
    · rw [if_neg hkeep]
      obtain ⟨hR₂, hset⟩ := hR₁.set_leaf data hb
      refine ⟨0, m₁.set b (walkOff g.consts id 1) data, ?_, hR₂, .inl ⟨rfl, hkeep, ?_⟩⟩
      · rw [show g.fns.setleaffn m₁ (.cell b (walkOff g.consts id 1)) data =
          some (m₁.set b (walkOff g.consts id 1) data) from store_of_le (hR₁.last_le hb).2]
        rfl
      · intro id' hid'
        rw [hset id' hid' hid, hval id']

/-- A root with its entries NULL is a trie with nothing stored. -/
theorem rep_root {m : Mem} {v : ℕ} (hlt : v < m.brk)
    (hok : NodeOk g (decide (([] : List ℕ).length = g.hops)))
    (hsize : m.size v = nodeBytes g.consts (decide (([] : List ℕ).length = g.hops)))
    (hnull : ∀ i < nodeBase g.consts (decide (([] : List ℕ).length = g.hops)),
      m.word v (i * entrySz g.consts (decide (([] : List ℕ).length = g.hops))) = none) :
    Rep g m v ∧ (∀ id, valueAt g m v id = none) ∧
      ∀ p, p ≠ [] → p.length ≤ g.hops → nodeAt g m v p = none := by
  have hpath : ∀ p, p ≠ [] → p.length ≤ g.hops → nodeAt g m v p = none := by
    intro p hp hlen
    cases p with
    | nil => exact absurd rfl hp
    | cons k q =>
        rw [List.length_cons] at hlen
        rw [decide_eq_false (by simp; omega)] at hnull
        have hk : walk (child g.consts m) v [k] = none := by
          by_cases hk : k < 2 ^ g.order
          · exact child_of_null (hnull k (by rwa [nodeBase_internal]))
          · exact if_neg hk
        rw [← List.singleton_append, nodeAt, walk_append_eq_none hk]
  have hnode : ∀ {p b}, p.length ≤ g.hops → nodeAt g m v p = some b → p = [] ∧ b = v := by
    intro p b hp hb
    by_cases hnil : p = []
    · subst hnil
      exact ⟨rfl, (Option.some.inj hb).symm⟩
    · rw [hpath p hnil hp] at hb
      cases hb
  have hR : Rep g m v := by
    refine ⟨fun p q b hp hq hwp hwq => ?_, fun p b hp hb => ?_, fun p b hp hb => ?_,
      fun p b hp hb => ?_, fun p b k hp hb hk => ?_⟩
    · rw [(hnode hp hwp).1, (hnode hq hwq).1]
    · exact (hnode hp hb).2 ▸ hlt
    · exact (hnode hp hb).1 ▸ hok
    · obtain ⟨rfl, rfl⟩ := hnode hp hb
      exact hsize
    · obtain ⟨rfl, rfl⟩ := hnode hp.le hb
      rw [decide_eq_false hp.ne] at hnull
      exact .inl (hnull k (by rwa [nodeBase_internal]))
  refine ⟨hR, fun id => ?_, hpath⟩
  unfold valueAt
  cases hb : nodeAt g m v (path g.consts id g.hops) with
  | none => rfl
  | some b =>
      obtain ⟨hnil, rfl⟩ := hnode (length_path ..).le hb
      have hlen : ([] : List ℕ).length = g.hops := by rw [← hnil, length_path]
      rw [decide_eq_true hlen] at hnull
      rw [Option.bind_some, (hR.last_le hb).1]
      exact hnull _ (by rw [nodeBase_leaf]; exact ertM_lt id g.lastOrder)

/-- Whether the root is a leaf node. -/
theorem decide_root (g : Geom) :
    decide (g.consts.depth = 1) = decide (([] : List ℕ).length = g.hops) := by
  refine decide_eq_decide.mpr ?_
  rw [Geom.consts_depth, g.depth_eq, List.length_nil]
  omega

/-- The assertions of `ert_alloc` hold. -/
theorem ertAlloc_assert (g : Geom) :
    g.consts.order * (g.consts.depth - 1) + g.consts.lastOrder < wordBits g.consts.arch ∧
      1 ≤ g.consts.depth := ⟨g.bits_lt, g.depth_pos⟩

/-- `ert_alloc` with a root in reach, when the allocation succeeds: nothing is stored. -/
theorem ertAlloc_of_some {m m₁ : Mem} (oks : ℕ → Bool) {v : ℕ}
    (hok : NodeOk g (decide (([] : List ℕ).length = g.hops)))
    (hal : g.fns.allocfn m oks (nodeSz g.consts (decide (g.consts.depth = 1)))
      (decide (g.consts.depth = 1)) = (some (.cell v 0), m₁))
    (hlt : v < m₁.brk)
    (hsize : m₁.size v = nodeBytes g.consts (decide (([] : List ℕ).length = g.hops))) :
    ∃ m', ertAlloc g.consts g.fns m oks = some (some (.cell v 0), m') ∧ Rep g m' v ∧
      (∀ id, valueAt g m' v id = none) ∧
      ∀ p, p ≠ [] → p.length ≤ g.hops → nodeAt g m' v p = none := by
  obtain ⟨m', hinit, hbrk, hsz, -, hnull⟩ := ertInit_spec hok hsize
  refine ⟨m', ?_, rep_root (hbrk ▸ hlt) hok (hsz ▸ hsize) hnull⟩
  unfold ertAlloc
  rw [if_pos (ertAlloc_assert g)]
  simp only [hal]
  rw [decide_root, hinit]
  rfl

/-- `ert_alloc` returns NULL, or a trie with nothing stored. -/
theorem ertAlloc_spec (hS : SizesFit g) (m : Mem) (oks : ℕ → Bool) :
    ∃ p m', ertAlloc g.consts g.fns m oks = some (p, m') ∧
      ∀ v, p = some (.cell v 0) → Rep g m' v ∧ ∀ id, valueAt g m' v id = none := by
  rcases allocfn_cases (g := g) m oks (decide (g.consts.depth = 1)) with hal | ⟨hneg, hal⟩
  · refine ⟨none, m, ?_, fun v hv => by cases hv⟩
    unfold ertAlloc
    rw [if_pos (ertAlloc_assert g)]
    simp only [hal]
  · have hok : NodeOk g (decide (g.consts.depth = 1)) := hS.1.resolve_left hneg
    obtain ⟨m', hrun, hR, hval, -⟩ := ertAlloc_of_some oks (decide_root g ▸ hok) hal
      (Nat.lt_succ_self _) (by rw [hok.nodeSz_eq, decide_root]; simp)
    refine ⟨_, m', hrun, fun v hv => ?_⟩
    cases hv
    exact ⟨hR, hval⟩

end Parsec.Ertrie
