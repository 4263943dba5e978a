import Parsec.Lib.Digits
import Parsec.Plat

/-!
# The embedded radix trie

The functions of `ps_ertrie.h`, over a memory of blocks. A block has a size in bytes; a load or a
store of a `next` field is of a word at a byte offset, and one that is not inside its block is a
fault (`none`), as is a failed assertion. The macro `ERT_CREATE` passes `ert_defget`,
`ert_defisnull` and `ert_defset` in every use of it, so those are not parameters; the functions that
differ between uses are the fields of `Fns`.

* `Addr`, `Mem` — addresses, and the blocks that node allocations have returned.
* `ertMaxid`, `ertInit`, `ertAlloc`, `ertWalk`, `ertLookup`, `ertExpand` — the code.
* `defFns` — what `ERT_CREATE_DEF` passes, with an allocation function that fails where it is told
  to and where it is asked for a negative number of bytes.
-/

namespace Parsec.Ertrie

open Function Lib

/-! ## Memory -/

/-- An address: of a local `struct ert_intern` whose `next` is the vector at the start of a block,
of a byte in a block of the trie, in memory that is not the trie's, or an offset from NULL. -/
inductive Addr
  | vect (v : ℕ)
  | cell (b off : ℕ)
  | ext (d off : ℕ)
  | null (off : ℕ)
  deriving DecidableEq, Repr

/-- A `void *`: `none` is `NULL`. -/
abbrev Ptr := Option Addr

/-- `(char *)a + k`. -/
def Addr.plus : Addr → ℕ → Addr
  | .vect v, _ => .vect v
  | .cell b off, k => .cell b (off + k)
  | .ext d off, k => .ext d (off + k)
  | .null off, k => .null (off + k)

/-- The blocks handed out so far, their sizes, and the word at each byte offset. -/
structure Mem where
  brk : ℕ
  size : ℕ → ℕ
  word : ℕ → ℕ → Ptr

namespace Mem

/-- The memory after a word is written. -/
def set (m : Mem) (b off : ℕ) (p : Ptr) : Mem :=
  { m with word := update m.word b (update (m.word b) off p) }

variable {m : Mem} {b off : ℕ} {p : Ptr}

/-- A write allocates nothing. -/
@[simp] theorem set_brk : (m.set b off p).brk = m.brk := rfl

/-- A write leaves the sizes of blocks alone. -/
@[simp] theorem set_size : (m.set b off p).size = m.size := rfl

/-- What has been written is there. -/
@[simp] theorem set_word_self : (m.set b off p).word b off = p := by simp [set]

/-- A write leaves other blocks alone. -/
theorem set_word_of_ne {b' : ℕ} (h : b' ≠ b) : (m.set b off p).word b' = m.word b' := by
  simp [set, update_of_ne h]

/-- A write leaves the other words of its block alone. -/
theorem set_word_of_off_ne {off' : ℕ} (h : off' ≠ off) :
    (m.set b off p).word b off' = m.word b off' := by
  simp [set, update_of_ne h]

/-- The entries of nodes after one of them is written. -/
theorem set_entry {w : ℕ} (hw : 0 < w) {b' k k' : ℕ} : (m.set b (k * w) p).word b' (k' * w) =
    if b' = b ∧ k' = k then p else m.word b' (k' * w) := by
  by_cases hb : b' = b
  · subst hb
    by_cases hk : k' = k
    · subst hk
      simp
    · rw [set_word_of_off_ne fun he => hk (Nat.eq_of_mul_eq_mul_right hw he), if_neg fun h => hk h.2]
  · rw [set_word_of_ne hb, if_neg fun h => hb h.1]

end Mem

/-- The load `a->next`. -/
def Mem.load (w : ℕ) (m : Mem) : Addr → Option Ptr
  | .vect v => some (some (.cell v 0))
  | .cell b off => if off + w ≤ m.size b then some (m.word b off) else none
  | .ext _ _ | .null _ => none

/-- The store `a->next = p`. -/
def Mem.store (w : ℕ) (m : Mem) : Addr → Ptr → Option Mem
  | .cell b off, p => if off + w ≤ m.size b then some (m.set b off p) else none
  | .vect _, _ | .ext _ _, _ | .null _, _ => none

/-! ## Parameters -/

/-- The constants of `ERT_CONST_PARAMS` and the machine word.
Source: `ps_ertrie.h`, `ERT_CONST_PARAMS` -/
structure Consts where
  arch : Arch
  depth : ℕ
  order : ℕ
  internSz : ℕ
  lastOrder : ℕ
  lastSz : ℕ

/-- The functions that uses of `ERT_CREATE` pass. `μ` is the type of `memctxt`; the address passed
to `initfn` is `none` where computing it overflows.
Source: `ps_ertrie.h`, `ert_initval_fn_t`, `ert_alloc_fn_t`, `ert_setleaf_fn_t`,
`ert_getleaf_fn_t`, `ert_resolve_fn_t` -/
structure Fns (μ : Type) where
  initfn : Mem → Option Addr → Bool → Option Mem
  allocfn : Mem → μ → ℤ → Bool → Ptr × Mem
  setleaffn : Mem → Addr → Ptr → Option Mem
  getleaffn : Mem → Addr → Option Ptr
  resolvefn : Mem → Addr → Bool → Option Bool

/-! ## The code -/

section Code

variable {μ : Type} (c : Consts) (f : Fns μ)

/-- One more than the greatest id.
Source: `ps_ertrie.h`, `__ert_maxid` -/
def ertMaxid : ℕ :=
  let off := c.order * (c.depth - 1) + c.lastOrder
  if wordBits c.arch < off then 1 <<< wordBits c.arch else 1 <<< off

/-- The number of entries of a node.
Source: `ps_ertrie.h`, `__ert_init` -/
def nodeBase (isleaf : Bool) : ℕ := if isleaf then 1 <<< c.lastOrder else 1 <<< c.order

/-- The size of an entry.
Source: `ps_ertrie.h`, `__ert_init` -/
def entrySz (isleaf : Bool) : ℕ := if isleaf then c.lastSz else c.internSz

/-- What an allocation function is asked for: `(1<<order) * intern_sz` is a `u32_t`, passed as an
`int`.
Source: `ps_ertrie.h`, `ert_alloc`, `__ert_expand` -/
def nodeSz (isleaf : Bool) : ℤ := toInt (toU32 (nodeBase c isleaf * entrySz c isleaf))

/-- The offset `sz * i` of `__ert_init`, a product of two `int`s: none where it is negative or
overflows.
Source: `ps_ertrie.h`, `__ert_init` -/
def initOff (isleaf : Bool) (i : ℕ) : Option ℕ :=
  let off := toInt (entrySz c isleaf) * i
  if 0 ≤ off ∧ off < 2 ^ 31 then some off.toNat else none

/-- The first `k` rounds of the loop of `__ert_init`.
Source: `ps_ertrie.h`, `__ert_init` -/
def initLoop (vi : Addr) (isleaf : Bool) : ℕ → Mem → Option Mem
  | 0, m => some m
  | i + 1, m => do
      let m ← initLoop vi isleaf i m
      f.initfn m ((initOff c isleaf i).map vi.plus) isleaf

/-- Initialise a level in the trie.
Source: `ps_ertrie.h`, `__ert_init` -/
def ertInit (m : Mem) (vi : Ptr) (isleaf : Bool) : Option Mem := do
  let a ← vi
  initLoop c f a isleaf (nodeBase c isleaf) m

/-- Make a trie: the address of its vector, or NULL.
Source: `ps_ertrie.h`, `ert_alloc` -/
def ertAlloc (m : Mem) (memctxt : μ) : Option (Ptr × Mem) :=
  if c.order * (c.depth - 1) + c.lastOrder < wordBits c.arch ∧ 1 ≤ c.depth then
    let isleaf := decide (c.depth = 1)
    match f.allocfn m memctxt (nodeSz c isleaf) isleaf with
    | (none, m) => some (none, m)
    | (some v, m) => (ertInit c f m (some v) isleaf).map fun m => (some v, m)
  else none

/-- The low `o` bits of an id.
Source: `ps_ertrie.h`, `ERT_M` -/
def ertM (id o : ℕ) : ℕ := id &&& ((1 <<< o) - 1)

/-- By how much an id is shifted in a level that is not the last.
Source: `ps_ertrie.h`, `__ert_walk` -/
def walkShift (lvl : ℕ) : ℕ := toU32 (c.order * subU32 lvl 2 + c.lastOrder)

/-- The offset of an id's entry in its node at a level: a `u32_t`.
Source: `ps_ertrie.h`, `__ert_walk` -/
def walkOff (id lvl : ℕ) : ℕ :=
  toU32 (if subU32 lvl 1 = 0 then ertM id c.lastOrder * c.lastSz
    else ertM (id >>> walkShift c lvl) c.order * c.internSz)

/-- From an entry to the id's entry in the next node; from a NULL entry, to an offset from NULL.
Source: `ps_ertrie.h`, `__ert_walk` -/
def ertWalk (m : Mem) (vi : Addr) (id lvl : ℕ) : Option Addr :=
  (m.load (psWord c.arch) vi).map fun p => (p.getD (.null 0)).plus (walkOff c id lvl)

/-- The loop of `__ert_lookup`: `k` rounds from `i`. NULL is `some none`.
Source: `ps_ertrie.h`, `__ert_lookup` -/
def lookupLoop (m : Mem) (id : ℕ) : ℕ → ℕ → Addr → Option Ptr
  | 0, _, n => some (some n)
  | k + 1, i, n => do
      let p ← m.load (psWord c.arch) n
      if p = none then some none
      else
        let n ← ertWalk c m n id (subU32 c.depth i)
        lookupLoop m id k (i + 1) n

/-- Look an id up, down to a depth limit.
Source: `ps_ertrie.h`, `__ert_lookup` -/
def ertLookup (m : Mem) (v : Ptr) (id dstart dlimit : ℕ) : Option Ptr :=
  match v with
  | some (.cell v 0) =>
      if id < ertMaxid c ∧ dlimit ≤ c.depth + 1 ∧ dstart ≤ dlimit then do
        let limit := if dlimit < c.depth then dlimit else c.depth
        let i := max dstart limit
        match ← lookupLoop c m id (limit - dstart) dstart (.vect v) with
        | none => some none
        | some n => do
            let ok ← if i = c.depth then f.resolvefn m n true
              else if i < c.depth then f.resolvefn m n false
              else some true
            if ok = false then some none
            else if dlimit = c.depth + 1 then f.getleaffn m n
            else some (some n)
      else none
  | _ => none

/-- The loop of `__ert_expand`: `k` rounds from `i`. The entry reached, or NULL where an
allocation failed.
Source: `ps_ertrie.h`, `__ert_expand` -/
def expandLoop (memctxt : μ) (id : ℕ) : ℕ → ℕ → Addr → Mem → Option (Ptr × Mem)
  | 0, _, n, m => some (some n, m)
  | k + 1, i, n, m => do
      let n ← ertWalk c m n id (subU32 c.depth i)
      let p ← m.load (psWord c.arch) n
      if p ≠ none then expandLoop memctxt id k (i + 1) n m
      else
        let isleaf := decide (c.depth ≤ toU32 (i + 2))
        match f.allocfn m memctxt (nodeSz c isleaf) isleaf with
        | (none, m) => some (none, m)
        | (some new, m) => do
            let m ← ertInit c f m (some new) isleaf
            let m ← m.store (psWord c.arch) n (some new)
            expandLoop memctxt id k (i + 1) n m

/-- Expand the trie along an id, and set its leaf entry where the limit is past the leaf.
Source: `ps_ertrie.h`, `__ert_expand` -/
def ertExpand (m : Mem) (v : Ptr) (id dstart dlimit : ℕ) (memctxt : μ) (data : Ptr) :
    Option (ℤ × Mem) :=
  match v with
  | some (.cell v 0) =>
      if id < ertMaxid c ∧ dlimit ≤ c.depth + 1 ∧ dstart ≤ dlimit then do
        let limit := if dlimit < c.depth then dlimit else c.depth
        let i := max dstart (subU32 limit 1)
        match ← expandLoop c f memctxt id (subU32 limit 1 - dstart) dstart (.vect v) m with
        | (none, m) => some (-1, m)
        | (some n, m) =>
            if dlimit = c.depth + 1 then do
              let n ← ertWalk c m n id (subU32 c.depth i)
              let p ← m.load (psWord c.arch) n
              if data ≠ none ∧ p ≠ none then some (1, m)
              else (f.setleaffn m n data).map fun m => (0, m)
            else some (0, m)
      else none
  | _ => none

/-! ## What the limits come to -/

variable {c f}

/-- A walk from an entry that is not NULL. -/
theorem ertWalk_of_load {m : Mem} {vi a : Addr} (h : m.load (psWord c.arch) vi = some (some a))
    (id lvl : ℕ) : ertWalk c m vi id lvl = some (a.plus (walkOff c id lvl)) := by
  rw [ertWalk, h]
  rfl

/-- The shift of a level that is not the last. -/
theorem walkShift_eq {lvl : ℕ} (h : 2 ≤ lvl) (hlvl : lvl < 2 ^ 32)
    (hbits : c.order * (lvl - 2) + c.lastOrder < 2 ^ 32) :
    walkShift c lvl = c.order * (lvl - 2) + c.lastOrder := by
  unfold walkShift
  rw [subU32_of_le h hlvl, toU32_of_lt hbits]

/-- The offset in the last level. -/
theorem walkOff_one (c : Consts) (id : ℕ) :
    walkOff c id 1 = toU32 (ertM id c.lastOrder * c.lastSz) := by
  unfold walkOff
  rw [if_pos (subU32_of_le le_rfl (by decide))]

/-- The offset in a level that is not the last. -/
theorem walkOff_of_two_le {id lvl : ℕ} (h : 2 ≤ lvl) (hlvl : lvl < 2 ^ 32)
    (hbits : c.order * (lvl - 2) + c.lastOrder < 2 ^ 32) :
    walkOff c id lvl =
      toU32 (ertM (id >>> (c.order * (lvl - 2) + c.lastOrder)) c.order * c.internSz) := by
  unfold walkOff
  rw [subU32_of_le (by omega) hlvl, if_neg (by omega), walkShift_eq h hlvl hbits]

/-- What a walk has loaded. -/
theorem load_of_ertWalk {m : Mem} {vi n : Addr} {id lvl : ℕ} (h : ertWalk c m vi id lvl = some n) :
    ∃ p, m.load (psWord c.arch) vi = some p ∧ n = (p.getD (.null 0)).plus (walkOff c id lvl) := by
  obtain ⟨p, hp, rfl⟩ := Option.map_eq_some_iff.mp h
  exact ⟨p, hp, rfl⟩

/-- A round of the loop of `__ert_lookup`, at a level that the trie has. -/
theorem lookupLoop_succ (m : Mem) (id k : ℕ) {i : ℕ} (n : Addr) (hi : i ≤ c.depth)
    (hlt : c.depth < 2 ^ 32) :
    lookupLoop c m id (k + 1) i n = (m.load (psWord c.arch) n).bind fun p =>
      if p = none then some none
      else (ertWalk c m n id (c.depth - i)).bind fun n => lookupLoop c m id k (i + 1) n := by
  rw [lookupLoop, subU32_of_le hi hlt]
  rfl

/-- A round of the loop of `__ert_expand`, at a level that the trie has. -/
theorem expandLoop_succ (memctxt : μ) (id k : ℕ) {i : ℕ} (n : Addr) (m : Mem)
    (hi : i < c.depth) (hlt : c.depth + 1 < 2 ^ 32) :
    expandLoop c f memctxt id (k + 1) i n m = (ertWalk c m n id (c.depth - i)).bind fun n =>
      (m.load (psWord c.arch) n).bind fun p =>
        if p ≠ none then expandLoop c f memctxt id k (i + 1) n m
        else
          match f.allocfn m memctxt (nodeSz c (decide (c.depth ≤ i + 2)))
            (decide (c.depth ≤ i + 2)) with
          | (none, m) => some (none, m)
          | (some new, m) => (ertInit c f m (some new) (decide (c.depth ≤ i + 2))).bind fun m =>
              (m.store (psWord c.arch) n (some new)).bind fun m =>
                expandLoop c f memctxt id k (i + 1) n m := by
  rw [expandLoop, subU32_of_le hi.le (Nat.lt_of_succ_lt hlt), toU32_of_lt (by omega)]
  rfl

/-- A lookup in two parts. -/
theorem lookupLoop_add (c : Consts) (m : Mem) (id k j i : ℕ) (n : Addr) :
    lookupLoop c m id (k + j) i n = (lookupLoop c m id k i n).bind fun
      | none => some none
      | some n => lookupLoop c m id j (i + k) n := by
  induction k generalizing i n with
  | zero =>
      rw [Nat.zero_add]
      rfl
  | succ k ih =>
      rw [Nat.succ_add, lookupLoop, lookupLoop]
      cases m.load (psWord c.arch) n with
      | none => rfl
      | some q =>
          simp only [Option.bind_eq_bind, Option.bind_some]
          split
          · rfl
          · cases ertWalk c m n id (subU32 c.depth i) with
            | none => rfl
            | some n' =>
                simp only [Option.bind_some]
                rw [ih, Nat.add_right_comm, Nat.add_assoc]

/-- An expansion in two parts. -/
theorem expandLoop_add (memctxt : μ) (id k j i : ℕ) (n : Addr) (m : Mem) :
    expandLoop c f memctxt id (k + j) i n m = (expandLoop c f memctxt id k i n m).bind fun
      | (none, m) => some (none, m)
      | (some n, m) => expandLoop c f memctxt id j (i + k) n m := by
  induction k generalizing i n m with
  | zero =>
      rw [Nat.zero_add]
      rfl
  | succ k ih =>
      have hih : ∀ n m, expandLoop c f memctxt id (k + j) (i + 1) n m =
          (expandLoop c f memctxt id k (i + 1) n m).bind fun
            | (none, m) => some (none, m)
            | (some n, m) => expandLoop c f memctxt id j (i + (k + 1)) n m := by
        intro n m
        rw [ih, show i + 1 + k = i + (k + 1) by omega]
      rw [Nat.succ_add, expandLoop, expandLoop]
      cases ertWalk c m n id (subU32 c.depth i) with
      | none => rfl
      | some n' =>
          simp only [Option.bind_eq_bind, Option.bind_some]
          cases m.load (psWord c.arch) n' with
          | none => rfl
          | some q =>
              simp only [Option.bind_some]
              split
              · exact hih n' m
              · rcases f.allocfn m memctxt (nodeSz c (decide (c.depth ≤ toU32 (i + 2))))
                  (decide (c.depth ≤ toU32 (i + 2))) with ⟨_ | a, m₁⟩
                · rfl
                · simp only
                  cases ertInit c f m₁ (some a) (decide (c.depth ≤ toU32 (i + 2))) with
                  | none => rfl
                  | some m₂ =>
                      simp only [Option.bind_some]
                      cases m₂.store (psWord c.arch) n' (some a) with
                      | none => rfl
                      | some m₃ => exact hih n' m₃

/-- An expansion down to a level of the trie. -/
theorem ertExpand_inner {m : Mem} {v id dstart dlimit : ℕ} (memctxt : μ) (data : Ptr)
    (hid : id < ertMaxid c) (hs : dstart ≤ dlimit) (hpos : 1 ≤ dlimit) (hle : dlimit ≤ c.depth)
    (hdepth : c.depth < 2 ^ 32) :
    ertExpand c f m (some (.cell v 0)) id dstart dlimit memctxt data =
      (expandLoop c f memctxt id (dlimit - 1 - dstart) dstart (.vect v) m).map
        fun (r, m) => (if r = none then -1 else 0, m) := by
  have hlimit : (if dlimit < c.depth then dlimit else c.depth) = dlimit := by
    split <;> omega
  have hsub : subU32 dlimit 1 = dlimit - 1 := subU32_of_le hpos (by omega)
  have hne : ¬ dlimit = c.depth + 1 := by omega
  have hc : id < ertMaxid c ∧ dlimit ≤ c.depth + 1 ∧ dstart ≤ dlimit := ⟨hid, by omega, hs⟩
  unfold ertExpand
  simp only [if_pos hc, hlimit, hsub, if_neg hne]
  rcases expandLoop c f memctxt id (dlimit - 1 - dstart) dstart (.vect v) m with
    _ | ⟨_ | n, m₁⟩ <;> rfl

/-- An expansion past the leaf entry. -/
theorem ertExpand_past {m : Mem} {v id dstart : ℕ} (memctxt : μ) (data : Ptr)
    (hid : id < ertMaxid c) (hs : dstart < c.depth) (hdepth : c.depth < 2 ^ 32) :
    ertExpand c f m (some (.cell v 0)) id dstart (c.depth + 1) memctxt data =
      (expandLoop c f memctxt id (c.depth - 1 - dstart) dstart (.vect v) m).bind fun
        | (none, m) => some (-1, m)
        | (some n, m) => (ertWalk c m n id 1).bind fun n =>
            (m.load (psWord c.arch) n).bind fun p =>
              if data ≠ none ∧ p ≠ none then some (1, m)
              else (f.setleaffn m n data).map fun m => (0, m) := by
  have hlimit : (if c.depth + 1 < c.depth then c.depth + 1 else c.depth) = c.depth :=
    if_neg (by omega)
  have hsub : subU32 c.depth 1 = c.depth - 1 := subU32_of_le (by omega) hdepth
  have hmax : max dstart (c.depth - 1) = c.depth - 1 := Nat.max_eq_right (by omega)
  have hlast : subU32 c.depth (c.depth - 1) = 1 := by
    rw [subU32_of_le (Nat.sub_le _ _) hdepth]
    omega
  have hc : id < ertMaxid c ∧ c.depth + 1 ≤ c.depth + 1 ∧ dstart ≤ c.depth + 1 :=
    ⟨hid, le_rfl, by omega⟩
  unfold ertExpand
  simp only [if_pos hc, hlimit, hsub, hmax, hlast, if_true]
  rcases expandLoop c f memctxt id (c.depth - 1 - dstart) dstart (.vect v) m with
    _ | ⟨_ | n, m₁⟩ <;> rfl

/-- A lookup of all levels, and past the leaf entry. -/
theorem ertLookup_past {m : Mem} {v id : ℕ} (hid : id < ertMaxid c) :
    ertLookup c f m (some (.cell v 0)) id 0 (c.depth + 1) =
      (lookupLoop c m id c.depth 0 (.vect v)).bind fun
        | none => some none
        | some n => (f.resolvefn m n true).bind fun ok =>
            if ok = false then some none else f.getleaffn m n := by
  have hlt : ¬ c.depth + 1 < c.depth := by omega
  simp only [ertLookup, hid, hlt, le_refl, Nat.zero_le, and_self, if_true, if_false, Nat.sub_zero,
    Nat.zero_max, Option.bind_eq_bind]

end Code

/-! ## The default functions -/

/-- What `ERT_CREATE_DEF` passes. The caller's allocation function `allocfn` is any function that
returns NULL or a block of the given number of bytes not handed out before, whatever it holds; it
cannot satisfy a negative number. `memctxt` says which allocations succeed.
Source: `ps_ertrie.h`, `ert_definit`, `ert_defsetleaf`, `ert_defgetleaf`, `ert_defresolve` -/
def defFns (a : Arch) : Fns (ℕ → Bool) where
  initfn m e _ := e.bind fun e => m.store (psWord a) e none
  allocfn m oks sz _ :=
    if oks m.brk = true ∧ 0 ≤ sz then
      (some (.cell m.brk 0),
        { m with brk := m.brk + 1, size := update m.size m.brk sz.toNat })
    else (none, m)
  setleaffn m e data := m.store (psWord a) e data
  getleaffn m e := m.load (psWord a) e
  resolvefn _ _ _ := some true

end Parsec.Ertrie
