import Parsec.Ertrie.Basic
import Parsec.Lib.NodeTree

/-!
# The path of an id

* `hop`, `path` — the entries `__ert_walk` picks for an id, level by level.
* `walkOff_hop`, `walkOff_last` — the byte offsets it computes, where they fit in 32 bits.
* `eq_of_path_eq` — ids with the same path and the same last entry are equal.
* `child` — the node that an entry of an internal node leads to; paths are walked with
  `Lib.walk`.
-/

namespace Parsec.Ertrie

open Lib

variable {c : Consts}

/-- The entry that an id has in its node `i` hops from the root. -/
def hop (c : Consts) (id i : ℕ) : ℕ :=
  ertM (id >>> (c.order * (c.depth - i - 2) + c.lastOrder)) c.order

/-- The first `k` hops of an id. -/
def path (c : Consts) (id k : ℕ) : List ℕ := (List.range k).map (hop c id)

/-- A path has as many hops as asked for. -/
@[simp] theorem length_path (c : Consts) (id k : ℕ) : (path c id k).length = k := by
  simp [path]

/-- The root has the empty path. -/
@[simp] theorem path_zero (c : Consts) (id : ℕ) : path c id 0 = [] := rfl

/-- The last hop of a path. -/
theorem path_succ (c : Consts) (id k : ℕ) : path c id (k + 1) = path c id k ++ [hop c id k] := by
  simp [path, List.range_succ]

/-- A hop is an index of an internal node. -/
theorem hop_lt (c : Consts) (id i : ℕ) : hop c id i < 2 ^ c.order := by
  unfold hop ertM
  rw [and_mask]
  exact Nat.mod_lt _ (Nat.two_pow_pos _)

/-- The last bits of an id. -/
theorem ertM_lt (id o : ℕ) : ertM id o < 2 ^ o := by
  unfold ertM
  rw [and_mask]
  exact Nat.mod_lt _ (Nat.two_pow_pos _)

/-- The offset of an internal entry. -/
theorem walkOff_hop (hfit : 2 ^ c.order * c.internSz < 2 ^ 32) (hdepth : c.depth < 2 ^ 32)
    (hbits : c.order * (c.depth - 1) + c.lastOrder < 2 ^ 32) {id i : ℕ} (hi : i + 1 < c.depth) :
    walkOff c id (c.depth - i) = hop c id i * c.internSz := by
  have hle : hop c id i * c.internSz ≤ 2 ^ c.order * c.internSz :=
    Nat.mul_le_mul_right _ (hop_lt c id i).le
  have hmul : c.order * (c.depth - i - 2) ≤ c.order * (c.depth - 1) :=
    Nat.mul_le_mul_left _ (by omega)
  rw [walkOff_of_two_le (by omega) (by omega) (by omega), ← hop, toU32_of_lt (by omega)]

/-- The offset of a leaf entry. -/
theorem walkOff_last (hfit : 2 ^ c.lastOrder * c.lastSz ≤ 2 ^ 32) (hpos : 0 < c.lastSz) (id : ℕ) :
    walkOff c id 1 = ertM id c.lastOrder * c.lastSz := by
  have hlt : ertM id c.lastOrder * c.lastSz < 2 ^ c.lastOrder * c.lastSz :=
    Nat.mul_lt_mul_of_pos_right (ertM_lt id _) hpos
  rw [walkOff_one, toU32_of_lt (by omega)]

/-- A hop is a slice of the id. -/
theorem hop_eq_slice (id i : ℕ) :
    hop c id i = slice c.order (id >>> c.lastOrder) (c.depth - i - 2) := by
  unfold hop ertM slice
  rw [and_mask, Nat.add_comm, Nat.shiftRight_add]

/-- Ids with the same path and the same last entry are equal. -/
theorem eq_of_path_eq {id id' n : ℕ} (hn : c.depth = n + 1)
    (hid : id < 2 ^ (c.order * n + c.lastOrder)) (hid' : id' < 2 ^ (c.order * n + c.lastOrder))
    (hlast : ertM id c.lastOrder = ertM id' c.lastOrder) (hpath : path c id n = path c id' n) :
    id = id' := by
  unfold ertM at hlast
  rw [and_mask, and_mask] at hlast
  refine eq_of_low_of_slices hid hid' hlast fun j hj => ?_
  have hhop := List.map_inj_left.mp hpath (n - 1 - j) (List.mem_range.mpr (by omega))
  rw [hop_eq_slice, hop_eq_slice] at hhop
  rwa [show c.depth - (n - 1 - j) - 2 = j by omega] at hhop

/-- The node that an entry of an internal node leads to. -/
def child (c : Consts) (m : Mem) (b k : ℕ) : Option ℕ :=
  if k < 2 ^ c.order then
    match m.word b (k * c.internSz) with
    | some (.cell b' 0) => some b'
    | _ => none
  else none

/-- An entry that holds the address of a node is the way to it. -/
theorem child_of_word {m : Mem} {b k b' : ℕ} (hk : k < 2 ^ c.order)
    (h : m.word b (k * c.internSz) = some (.cell b' 0)) : child c m b k = some b' := by
  simp [child, hk, h]

/-- An entry that is null leads nowhere. -/
theorem child_of_null {m : Mem} {b k : ℕ} (h : m.word b (k * c.internSz) = none) :
    child c m b k = none := by
  simp [child, h]

/-- Nodes with the same words have the same children. -/
theorem child_congr {m m' : Mem} {b : ℕ} (h : m'.word b = m.word b) (k : ℕ) :
    child c m' b k = child c m b k := by
  unfold child
  rw [h]

end Parsec.Ertrie
