import Parsec.Slab.Fill

/-!
# The freelist of a new slab

`__ps_slab_init` links the objects of a slab in a loop in which `prev` is one object behind `alloc`,
and is `alloc` itself in the first round. With two objects or more the chain visits all of them, in
order, and ends in the zeroed memory of the last one. A slab of a single object leads to itself.

* `checkWalk` — the walk of `__ps_slab_check_consistency`.
* `ProperChain` — what a new slab's freelist is to be; `initsChain_iff` says for which geometries it
  is.
-/

namespace Parsec.Slab

open Function Lib

variable {ε : Type} {w : World ε} {s b c : ℕ}

/-! ## What is claimed -/

/-- The walk of `__ps_slab_check_consistency` from `h`, of at most `k` objects: the final `i`, an
`unsigned int`, which is then compared with `nfree`.
Source: `ps_slab.h`, `__ps_slab_check_consistency` -/
def checkWalk (w : World ε) (s : ℕ) : ℕ → Option Obj → ℕ → Option ℕ
  | _, none, i => some i
  | 0, some _, _ => none
  | k + 1, some h, i =>
      if w.slab h = some s ∧ w.tscFree h ≠ 0 then checkWalk w s k (w.next h) (toU32 (i + 1))
      else none

/-- The freelist of a slab in block `b` visits its objects in order. -/
structure ProperChain (g : Shape) (w : World ε) (s b : ℕ) : Prop where
  nfree : w.nfree s = g.nobjs
  chain : Chain w.next (w.freelist s) ((List.range g.nobjs).map (g.obj b))
  nodup : ((List.range g.nobjs).map (g.obj b)).Nodup
  header : ∀ i < g.nobjs, w.slab (g.obj b i) = some s ∧ w.tscFree (g.obj b i) ≠ 0
  check : ∃ k, checkWalk w s k (w.freelist s) 0 = some (w.nfree s)

/-- Slabs in zeroed memory are set up with a proper chain. -/
def InitsChain (g : Geom) : Prop :=
  ∀ {ε : Type} (w : World ε) (s b c : ℕ), w.memory s = some b →
    (∀ o : Obj, o.blk = b → w.slab o = none ∧ w.tscFree o = 0 ∧ w.next o = none) →
      w.flist c ≠ some s → ∃ w', slabInit g w s c = some w' ∧ ProperChain g w' s b

/-! ## What the code does -/

/-- Adding a slab whose links have been set up does not fail. The first slab's links stay. -/
theorem freelistAdd_run (hn : w.listN s = s) (hne : w.flist c ≠ some s) :
    ∃ n p, freelistAdd w c s =
        some { w with listN := n, listP := p, flist := update w.flist c (some s) } ∧
      (w.flist c = none → n = w.listN ∧ p = w.listP) := by
  have hguard : w.listN s = s ∧ w.flist c ≠ some s := ⟨hn, hne⟩
  unfold freelistAdd
  rw [if_pos hguard]
  cases w.flist c with
  | none => exact ⟨_, _, rfl, fun _ => ⟨rfl, rfl⟩⟩
  | some h => exact ⟨_, _, rfl, fun h => by cases h⟩

/-- A slab before the loop. -/
def sized (g : Shape) (w : World ε) (s b c : ℕ) : World ε :=
  { w with
    nfree := update w.nfree s g.nobjs
    memsz := update w.memsz s g.allocsz
    coreid := update w.coreid s c
    freelist := update w.freelist s (some (g.obj b 0)) }

/-- Setting up objects leaves the freelists of slabs alone. -/
theorem initLoop_flist (g : Shape) (s b k : ℕ) (w : World ε) :
    (initLoop g s b k w).flist = w.flist := by
  induction k with
  | zero => rfl
  | succ k ih => exact ih

/-- `__ps_slab_init` writes what its loop writes, and the links. -/
theorem slabInit_run (g : Shape) (hb : w.memory s = some b)
    (hend : (g.obj b g.nobjs).off ≤ g.allocsz) (hne : w.flist c ≠ some s) :
    ∃ n p, slabInit g w s c = some { initLoop g s b g.nobjs (sized g w s b c) with
        listN := n
        listP := p
        flist := update w.flist c (some s) } ∧
      (w.flist c = none → n s = s ∧ p s = s) := by
  have hfl : (initLoop g s b g.nobjs (sized g w s b c)).flist = w.flist := initLoop_flist ..
  obtain ⟨n, p, hadd, hlinks⟩ := freelistAdd_run (s := s) (c := c)
    (w := { initLoop g s b g.nobjs (sized g w s b c) with
      listN := update (initLoop g s b g.nobjs (sized g w s b c)).listN s s
      listP := update (initLoop g s b g.nobjs (sized g w s b c)).listP s s })
    (update_self ..) (hfl ▸ hne)
  refine ⟨n, p, ?_, fun hc => ?_⟩
  · unfold slabInit
    rw [hb]
    simp only
    rw [if_pos hend]
    refine hadd.trans ?_
    simp only [hfl]
  · obtain ⟨rfl, rfl⟩ := hlinks (hfl ▸ hc)
    exact ⟨update_self .., update_self ..⟩

/-! ## The chain -/

/-- The walk along a chain of good headers counts them, as an `unsigned int`. -/
theorem checkWalk_eq {l : List Obj} {h : Option Obj} (hc : Chain w.next h l)
    (hl : ∀ o ∈ l, w.slab o = some s ∧ w.tscFree o ≠ 0) (k i : ℕ) :
    checkWalk w s (l.length + k) h (toU32 i) = some (toU32 (i + l.length)) := by
  induction l generalizing h i with
  | nil =>
      rw [chain_nil] at hc
      subst hc
      cases k <;> rfl
  | cons a l ih =>
      obtain ⟨rfl, hc⟩ := hc
      have hsucc : toU32 (toU32 i + 1) = toU32 (i + 1) := Nat.mod_add_mod ..
      have hlen : (a :: l).length + k = l.length + k + 1 := Nat.add_right_comm ..
      rw [hlen, checkWalk, if_pos (hl a List.mem_cons_self), hsucc,
        ih hc fun o ho => hl o (List.mem_cons_of_mem _ ho)]
      rw [List.length_cons, Nat.add_right_comm, Nat.add_assoc]

/-- More rounds do not change where the walk ends. -/
theorem checkWalk_mono {h : Option Obj} {i k k' r r' : ℕ} (hr : checkWalk w s k h i = some r)
    (hr' : checkWalk w s k' h i = some r') : r = r' := by
  induction k generalizing h i k' with
  | zero =>
      cases h with
      | none =>
          cases hr
          cases k' <;> exact Option.some.inj hr'
      | some a => cases hr
  | succ k ih =>
      cases h with
      | none =>
          cases hr
          cases k' <;> exact Option.some.inj hr'
      | some a =>
          cases k' with
          | zero => cases hr'
          | succ k' =>
              rw [checkWalk] at hr hr'
              split at hr
              · rename_i hg
                rw [if_pos hg] at hr'
                exact ih hr hr'
              · cases hr

/-- The objects of a slab are different. -/
theorem nodup_objs (g : Shape) (hpos : 0 < objmemsz g.arch g.objSz) (b : ℕ) :
    ((List.range g.nobjs).map (g.obj b)).Nodup := by
  refine List.Nodup.map (fun i j h => ?_) List.nodup_range
  have hoff : (g.obj b i).off = (g.obj b j).off := congrArg Obj.off h
  exact Nat.eq_of_mul_eq_mul_right hpos (Nat.add_left_cancel hoff)

/-- A slab of two objects or more, set up in zeroed memory. -/
theorem chain_initLoop {g : Geom} (h2 : 2 ≤ g.nobjs)
    (hz : w.next (g.obj b (g.nobjs - 1)) = none) :
    Chain (initLoop g s b g.nobjs w).next (some (g.obj b 0))
      ((List.range g.nobjs).map (g.obj b)) := by
  obtain ⟨sl, ts, nx, hrun, -, -, hnext, hlast⟩ := initLoop_spec (g := g) s b g.nobjs w
  rw [hrun, List.range_eq_range']
  refine chain_range' (if_neg (by omega)).symm (fun j _ hj => hnext j (by omega)) fun _ => ?_
  rw [Nat.zero_add]
  exact (hlast h2).trans hz

/-- The first round of the loop links the first object to itself. -/
theorem initLoop_one (g : Shape) (s b : ℕ) (w : World ε) :
    (initLoop g s b 1 w).next (g.obj b 0) = some (g.obj b 0) := update_self ..

/-! ## For which geometries -/

section Exact

variable {g : Geom}

/-- Two objects or more, and no more than an `unsigned int` counts, are chained. -/
theorem initsChain_of_lt (h2 : 2 ≤ g.nobjs) (hlt : g.nobjs < 2 ^ 32) : InitsChain g := by
  intro ε w s b c hb hz hne
  obtain ⟨n, p, hrun, -⟩ := slabInit_run g hb (obj_nobjs_le g b) hne
  refine ⟨_, hrun, ?_⟩
  obtain ⟨sl, ts, nx, hloop, -, hon, -, -⟩ := initLoop_spec (g := g) s b g.nobjs (sized g w s b c)
  have hchain : Chain (initLoop g s b g.nobjs (sized g w s b c)).next (some (g.obj b 0))
      ((List.range g.nobjs).map (g.obj b)) := chain_initLoop h2 (hz _ rfl).2.2
  rw [hloop] at hchain ⊢
  have hheader : ∀ i < g.nobjs, sl (g.obj b i) = some s ∧ ts (g.obj b i) ≠ 0 := by
    intro i hi
    obtain ⟨h₁, h₂⟩ := hon i hi
    exact ⟨h₁, by rw [h₂]; exact Nat.one_ne_zero⟩
  have hfree : update w.freelist s (some (g.obj b 0)) s = some (g.obj b 0) := update_self ..
  have hnfree : update w.nfree s g.nobjs s = g.nobjs := update_self ..
  constructor
  · exact hnfree
  · exact (congrArg (Chain nx · _) hfree).mpr hchain
  · exact nodup_objs g (objmemsz_pos g) b
  · exact hheader
  · refine ⟨g.nobjs, ?_⟩
    show checkWalk _ s g.nobjs (update w.freelist s _ s) 0 = some (update w.nfree s g.nobjs s)
    rw [hfree, hnfree]
    have hwalk := checkWalk_eq (w := { sized g w s b c with
      slab := sl, tscFree := ts, next := nx, listN := n, listP := p,
      flist := update w.flist c (some s) }) (s := s) hchain ?_ 0 0
    · rw [List.length_map, List.length_range, Nat.zero_add, toU32_of_lt hlt] at hwalk
      exact hwalk
    · intro o ho
      obtain ⟨i, hi, rfl⟩ := List.mem_map.mp ho
      exact hheader i (List.mem_range.mp hi)

/-- A slab that is set up in a world that is empty but for its memory. -/
theorem exists_initsChain (h : InitsChain g) : ∃ (w w' : World (List Ev)) (n p : ℕ → ℕ)
    (fl : ℕ → Option ℕ), ProperChain g w' 0 0 ∧ w' = { initLoop g 0 0 g.nobjs (sized g w 0 0 0) with
      listN := n
      listP := p
      flist := fl } := by
  obtain ⟨w, hw⟩ : ∃ w : World (List Ev), w = { (start g).w with memory := fun _ => some 0 } :=
    ⟨_, rfl⟩
  have hb : w.memory 0 = some 0 := by rw [hw]
  have hne : w.flist 0 ≠ some 0 := by simp [hw, start, memptrInit, slabptrInit]
  obtain ⟨w', hrun, hC⟩ := h w 0 0 0 hb (fun _ _ => by rw [hw]; exact ⟨rfl, rfl, rfl⟩) hne
  obtain ⟨n, p, hrun', -⟩ := slabInit_run g hb (obj_nobjs_le g 0) hne
  exact ⟨w, w', n, p, _, hC, Option.some.inj (hrun.symm.trans hrun')⟩

/-- A slab of a single object leads to itself. -/
theorem not_initsChain_of_one (hone : g.nobjs = 1) : ¬ InitsChain g := by
  intro h
  obtain ⟨w, w', n, p, fl, hC, he⟩ := exists_initsChain h
  have hchain := hC.chain
  rw [hone] at hchain
  have hnil : w'.next (g.obj 0 0) = none := hchain.2
  rw [he, hone] at hnil
  exact absurd ((initLoop_one ..).symm.trans hnil) (by simp)

/-- The walk along a chain that is longer than an `unsigned int` counts ends with another number. -/
theorem lt_of_initsChain (h : InitsChain g) : g.nobjs < 2 ^ 32 := by
  obtain ⟨w, w', n, p, fl, hC, -⟩ := exists_initsChain h
  obtain ⟨k, hk⟩ := hC.check
  have hwalk : checkWalk w' 0 _ (w'.freelist 0) (toU32 0) = _ := checkWalk_eq hC.chain (fun o ho => by
    obtain ⟨i, hi, rfl⟩ := List.mem_map.mp ho
    exact hC.header i (List.mem_range.mp hi)) 0 0
  have hn := checkWalk_mono hk hwalk
  rw [List.length_map, List.length_range, Nat.zero_add, hC.nfree] at hn
  rw [hn]
  exact toU32_lt g.nobjs

/-- **A slab is set up with a proper chain exactly where it has two objects or more**, and no more
than the consistency check counts. -/
theorem initsChain_iff (g : Geom) : InitsChain g ↔ 2 ≤ g.nobjs ∧ g.nobjs < 2 ^ 32 := by
  constructor
  · intro h
    refine ⟨?_, lt_of_initsChain h⟩
    by_contra hlt
    have hpos := nobjs_pos g
    exact not_initsChain_of_one (by omega) h
  · intro h
    exact initsChain_of_lt h.1 h.2

end Exact

/-- `PS_SLAB_CREATE_DEF(name, 2048)` on x86-64, in the default configuration.
Source: `ps_slab.h`, `PS_SLAB_CREATE_DEF`, `struct ps_slab`; `ps_config.h` -/
def halfPage : Geom where
  arch := .x86_64
  objSz := 2048
  allocsz := 4096
  headoff := 96
  numCores := 4
  numLocalities := 1
  locality := fun _ => 0
  remoteBatch := 64
  qlistBatch := 128
  objSz_le := by decide
  allocsz_lt := page.allocsz_lt
  fits := by decide
  locality_lt := fun _ => Nat.one_pos
  qlistBatch_pos := page.qlistBatch_pos

/-- A page has room for one object of half a page, which leads to itself. -/
theorem not_initsChain_halfPage : ¬ InitsChain halfPage := not_initsChain_of_one (by decide)

end Parsec.Slab
