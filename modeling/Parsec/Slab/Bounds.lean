import Parsec.Slab.Init

/-!
# The objects of one slab

A slab of a core's own, from its initialisation in zeroed memory to its release, and the objects that
are allocated from it. The allocation asserts that an object fits without its header and without
rounding, the free that it fits with both: where only the first holds, a slab has no objects, and one
is handed out.

* `oneSlab` — the calls on the slab; a run ends where the slab is released.
* `LaidOut` — objects are inside the slab and apart, and no more than fit; `laidOut_iff` says where.
-/

namespace Parsec.Slab

open Function Lib

/-! ## The system -/

/-- What releases slabs fails, so that a run ends with its slab. -/
def endless : Fns Unit Unit where
  afn _ _ _ _ := none
  ffn _ _ _ _ := none

/-- The world, and the objects of the slab that callers have. -/
structure SlabSt where
  w : World Unit
  live : Obj → Bool

/-- The calls of the slab's core. -/
inductive SlabOp
  | alloc
  | free (o : Obj)

/-- A slab `s` in block `b` of core `c`. An allocation takes from the slab while it is the first one
on the freelist of its core; an object that is freed is live.
Source: `ps_slab.h`, `__ps_slab_mem_alloc`, `__ps_slab_mem_free` -/
def oneSlab (g : Shape) (s b c : ℕ) : Lts SlabSt SlabOp where
  init t := (∃ w, w.memory s = some b ∧ (∀ o : Obj, o.blk = b → w.slab o = none ∧ w.tscFree o = 0 ∧
    w.next o = none) ∧ w.flist c = none ∧ slabInit g w s c = some t.w) ∧ ∀ o, t.live o = false
  step t
    | .alloc => if t.w.flist c = some s then
        (popFree g t.w s c).map fun (o, w) => { w := w, live := update t.live o true } else none
    | .free o => if t.live o = true then
        (memFree g endless t.w o c).map fun w => { w := w, live := update t.live o false } else none

/-! ## What is claimed -/

section Claim

variable (g : Shape)

/-- The bytes of an object, with its header, are inside the memory of the slab. -/
def Inside (b : ℕ) (o : Obj) : Prop :=
  o.blk = b ∧ g.headoff ≤ o.off ∧ o.off + mheadSz g.arch + g.objSz ≤ g.allocsz

/-- Two objects have no byte in common. -/
def Apart (o o' : Obj) : Prop :=
  o.off + mheadSz g.arch + g.objSz ≤ o'.off ∨ o'.off + mheadSz g.arch + g.objSz ≤ o.off

/-- The objects handed out are inside the slab and apart, `nfree` does not go below zero, and no more
objects are out than the slab has. -/
def LaidOut : Prop :=
  ∀ s b c t, (oneSlab g s b c).Reach (fun _ _ => True) t →
    (∀ o, t.live o = true → Inside g b o) ∧
    (∀ t', (oneSlab g s b c).Reach (fun _ _ => True) t' → ∀ o o', t.live o = true →
      t'.live o' = true → o ≠ o' → Apart g o o') ∧
    (∀ t', (oneSlab g s b c).step t .alloc = some t' → t.w.nfree s ≠ 0) ∧
    ∃ l : List Obj, l.Nodup ∧ (∀ o, o ∈ l ↔ t.live o = true) ∧ l.length ≤ g.nobjs

end Claim

/-! ## The invariant -/

section Invariant

variable {g : Geom} {s b c : ℕ} {t t' : SlabSt}

/-- The objects of the slab are live, or on its freelist `l`, and the slab is on the freelist of its
core while `l` is not empty. A single object leads to itself. -/
structure Lone (g : Geom) (s b c : ℕ) (t : SlabSt) (l : List Obj) : Prop where
  memory : t.w.memory s = some b
  coreid : t.w.coreid s = c
  slab : ∀ i < g.nobjs, t.w.slab (g.obj b i) = some s
  nfree : t.w.nfree s = l.length
  chain : 2 ≤ g.nobjs → Chain t.w.next (t.w.freelist s) l
  single : g.nobjs = 1 → l ≠ [] → l = [g.obj b 0] ∧ t.w.freelist s = some (g.obj b 0)
  nodup : l.Nodup
  mem : ∀ o, t.live o = true ∨ o ∈ l ↔ ∃ i < g.nobjs, o = g.obj b i
  off : ∀ o, t.live o = true → o ∉ l
  tscFree : ∀ o, t.live o = true → t.w.tscFree o = 0
  flist : t.w.flist c = if l = [] then none else some s
  links : t.w.listN s = s ∧ t.w.listP s = s

/-- A new slab. -/
theorem lone_init (h : (oneSlab g s b c).init t) :
    Lone g s b c t ((List.range g.nobjs).map (g.obj b)) := by
  obtain ⟨⟨w, hb, hz, hfl, hrun⟩, hlive⟩ := h
  obtain ⟨n, p, hrun', hlinks⟩ := slabInit_run g hb (obj_nobjs_le g b) (by simp [hfl] : w.flist c ≠ some s)
  obtain ⟨sl, ts, nx, hloop, -, hon, -, -⟩ := initLoop_spec (g := g) s b g.nobjs (sized g w s b c)
  have hw := Option.some.inj (hrun.symm.trans hrun')
  have hpos := nobjs_pos g
  have hchain : 2 ≤ g.nobjs → Chain (initLoop g s b g.nobjs (sized g w s b c)).next
      (some (g.obj b 0)) ((List.range g.nobjs).map (g.obj b)) :=
    fun h2 => chain_initLoop h2 (hz _ rfl).2.2
  rw [hloop] at hchain hw
  have hfree : t.w.freelist s = some (g.obj b 0) := by
    rw [hw]
    exact update_self ..
  constructor
  · rw [hw]
    exact hb
  · rw [hw]
    exact update_self ..
  · rw [hw]
    exact fun i hi => (hon i hi).1
  · rw [hw, List.length_map, List.length_range]
    exact update_self ..
  · intro h2
    rw [hfree, hw]
    exact hchain h2
  · intro hone _
    rw [hone]
    exact ⟨rfl, hfree⟩
  · exact nodup_objs g (objmemsz_pos g) b
  · intro o
    simp [hlive, eq_comm]
  · intro o ho
    rw [hlive] at ho
    cases ho
  · intro o ho
    rw [hlive] at ho
    cases ho
  · have hne : (List.range g.nobjs).map (g.obj b) ≠ [] := by simp [hpos.ne']
    rw [if_neg hne, hw]
    exact update_self ..
  · rw [hw]
    exact hlinks hfl

/-- Removing the only slab on a freelist. -/
theorem freelistRem_only {ε : Type} {w : World ε} (hfl : w.flist c = some s) (hn : w.listN s = s)
    (hp : w.listP s = s) : freelistRem w c s = { w with flist := update w.flist c none } := by
  have hN : update w.listN s s = w.listN := update_eq_self_iff.mpr hn.symm
  have hP : update w.listP s s = w.listP := update_eq_self_iff.mpr hp.symm
  unfold freelistRem listRem
  simp only [if_pos hfl, hn, hp, hN, hP, if_true]

/-- The first object of the freelist. -/
theorem Lone.freelist {o : Obj} {l : List Obj} (hL : Lone g s b c t (o :: l)) :
    t.w.freelist s = some o := by
  by_cases h2 : 2 ≤ g.nobjs
  · exact (hL.chain h2).head_eq
  · have hpos := nobjs_pos g
    obtain ⟨he, hfree⟩ := hL.single (by omega) (List.cons_ne_nil _ _)
    rw [hfree]
    exact congrArg some (List.cons.inj he).1.symm

/-- An object that is allocated is the first one of the freelist. -/
theorem lone_alloc {l : List Obj} (hL : Lone g s b c t l)
    (hs : (oneSlab g s b c).step t .alloc = some t') :
    ∃ o l', l = o :: l' ∧ t'.live = update t.live o true ∧ Lone g s b c t' l' := by
  simp only [oneSlab] at hs
  split at hs
  swap
  · cases hs
  rename_i hfl
  rcases l with _ | ⟨o, l⟩
  · rw [hL.flist, if_pos rfl] at hfl
    cases hfl
  refine ⟨o, l, rfl, ?_⟩
  have hfree := hL.freelist
  have hnf : predWord g.arch (t.w.nfree s) = l.length := by
    rw [hL.nfree, predWord_of_ne (by simp)]
    rfl
  obtain ⟨w', hw'⟩ : ∃ w' : World Unit, w' = { t.w with
      freelist := update t.w.freelist s (t.w.next o)
      next := update t.w.next o none
      nfree := update t.w.nfree s l.length
      tscFree := update t.w.tscFree o 0
      flist := update t.w.flist c (if l = [] then none else some s) } := ⟨_, rfl⟩
  -- the slab leaves the freelist of its core with its last object
  have hpop : popFree g t.w s c = some (o, w') := by
    unfold popFree
    rw [hfree]
    simp only [hnf, update_self]
    by_cases hl : l = []
    · have hrem := freelistRem_only (w := { t.w with
        freelist := update t.w.freelist s (t.w.next o)
        next := update t.w.next o none
        nfree := update t.w.nfree s l.length
        tscFree := update t.w.tscFree o 0 }) hfl hL.links.1 hL.links.2
      rw [if_pos (by rw [hl]; rfl), hrem, if_pos ⟨hL.links.1, update_self ..⟩, hw', if_pos hl]
    · have hlen : l.length ≠ 0 := by simpa using hl
      have hupd : update t.w.flist c (some s) = t.w.flist := update_eq_self_iff.mpr hfl.symm
      rw [if_neg hlen, if_pos trivial, hw', if_neg hl, hupd]
  rw [hpop] at hs
  obtain rfl := Option.some.inj hs
  refine ⟨rfl, ?_⟩
  obtain ⟨hol, hnd⟩ := List.nodup_cons.mp hL.nodup
  have hlive : ∀ o', update t.live o true o' = true ↔ o' = o ∨ t.live o' = true := by
    intro o'
    by_cases he : o' = o <;> simp [he]
  subst hw'
  constructor
  · exact hL.memory
  · exact hL.coreid
  · exact hL.slab
  · exact update_self ..
  · intro h2
    have hc := (hL.chain h2).2
    show Chain (update t.w.next o none) (update t.w.freelist s (t.w.next o) s) l
    rw [update_self]
    exact hc.update_of_notMem hol
  · intro hone hl
    obtain ⟨he, -⟩ := hL.single hone (List.cons_ne_nil _ _)
    exact absurd (List.cons.inj he).2 hl
  · exact hnd
  · intro o'
    rw [← hL.mem o', hlive, List.mem_cons]
    tauto
  · intro o' ho'
    rcases (hlive o').mp ho' with rfl | ho'
    · exact hol
    · exact fun h => hL.off o' ho' (List.mem_cons_of_mem _ h)
  · intro o' ho'
    show update t.w.tscFree o 0 o' = 0
    by_cases he : o' = o
    · rw [he, update_self]
    · rw [update_of_ne he]
      exact hL.tscFree o' (((hlive o').mp ho').resolve_left he)
  · exact update_self ..
  · exact hL.links

/-- An object that is freed is the first one of the freelist then. -/
theorem lone_free {l : List Obj} {o : Obj} (hL : Lone g s b c t l)
    (hs : (oneSlab g s b c).step t (.free o) = some t') :
    t'.live = update t.live o false ∧ Lone g s b c t' (o :: l) := by
  simp only [oneSlab] at hs
  split at hs
  swap
  · cases hs
  rename_i ho
  have hol := hL.off o ho
  obtain ⟨i, hi, rfl⟩ := (hL.mem o).mp (.inl ho)
  have hslab := hL.slab i hi
  have hguard : objmemsz g.arch g.objSz + g.headoff ≤ g.allocsz ∧ t.w.tscFree (g.obj b i) = 0 :=
    ⟨g.fits, hL.tscFree _ ho⟩
  obtain ⟨w', hw', rfl⟩ := Option.map_eq_some_iff.mp hs
  refine ⟨rfl, ?_⟩
  -- the slab is not released, so that it has another object
  have hpush : w' = { pushFree t.w (g.obj b i) s with flist := update t.w.flist c (some s) } ∧
      2 ≤ g.nobjs := by
    unfold memFree at hw'
    rw [if_pos hguard, hslab] at hw'
    have hcore : ¬ t.w.coreid s ≠ c := not_not_intro hL.coreid
    have hnf : (pushFree t.w (g.obj b i) s).nfree s = t.w.nfree s + 1 := update_self ..
    simp only [if_neg hcore, hnf] at hw'
    split at hw'
    · rename_i hmax
      exact absurd hw' (by simp [releaseSlab, endless])
    · rename_i hmax
      have h2 : 2 ≤ g.nobjs := by
        by_contra hlt
        have hpos := nobjs_pos g
        have hone : g.nobjs = 1 := by omega
        have hnil : l = [] := by
          by_contra hl
          obtain ⟨he, -⟩ := hL.single hone hl
          have hi0 : i = 0 := by omega
          rw [he, hi0] at hol
          exact hol List.mem_cons_self
        have hzero : t.w.nfree s = 0 := by rw [hL.nfree, hnil]; rfl
        exact hmax (by rw [hzero, hone]; rfl)
      refine ⟨?_, h2⟩
      split at hw'
      · rename_i h1
        have hnil : l = [] := List.length_eq_zero_iff.mp (by rw [← hL.nfree]; omega)
        have hfl : t.w.flist c = none := by rw [hL.flist, if_pos hnil]
        split at hw'
        swap
        · cases hw'
        obtain ⟨n, p, hadd, hlinks⟩ := freelistAdd_run (w := pushFree t.w (g.obj b i) s) (s := s)
          (c := c) hL.links.1 (by rw [show (pushFree t.w (g.obj b i) s).flist c = none from hfl]; simp)
        obtain ⟨rfl, rfl⟩ := hlinks hfl
        exact Option.some.inj (hw'.symm.trans hadd)
      · rename_i h1
        have hne : l ≠ [] := by
          rintro rfl
          exact h1 (by rw [hL.nfree]; rfl)
        have hfl : t.w.flist c = some s := by rw [hL.flist, if_neg hne]
        have hupd : update t.w.flist c (some s) = t.w.flist := update_eq_self_iff.mpr hfl.symm
        rw [hupd]
        exact (Option.some.inj hw').symm
  obtain ⟨rfl, h2⟩ := hpush
  have hlive : ∀ o', update t.live (g.obj b i) false o' = true ↔ o' ≠ g.obj b i ∧ t.live o' = true := by
    intro o'
    by_cases he : o' = g.obj b i <;> simp [he]
  constructor
  · exact hL.memory
  · exact hL.coreid
  · exact hL.slab
  · show update t.w.nfree s (t.w.nfree s + 1) s = _
    rw [update_self, hL.nfree]
    rfl
  · intro _
    show Chain (update t.w.next (g.obj b i) (t.w.freelist s))
      (update t.w.freelist s (some (g.obj b i)) s) (g.obj b i :: l)
    rw [update_self]
    exact (hL.chain h2).push hol
  · intro hone
    omega
  · exact List.nodup_cons.mpr ⟨hol, hL.nodup⟩
  · intro o'
    rw [← hL.mem o', hlive, List.mem_cons]
    by_cases he : o' = g.obj b i
    · simp [he, ho]
    · simp [he]
  · intro o' ho'
    obtain ⟨hne, ho'⟩ := (hlive o').mp ho'
    rw [List.mem_cons]
    rintro (h | h)
    · exact hne h
    · exact hL.off o' ho' h
  · intro o' ho'
    obtain ⟨hne, ho'⟩ := (hlive o').mp ho'
    exact (update_of_ne hne ..).trans (hL.tscFree o' ho')
  · show update t.w.flist c (some s) c = _
    rw [update_self, if_neg (List.cons_ne_nil _ _)]
  · exact hL.links

/-- The slab is in order until it is released. -/
theorem exists_lone (h : (oneSlab g s b c).Reach (fun _ _ => True) t) : ∃ l, Lone g s b c t l := by
  refine Lts.invariant (I := fun t => ∃ l, Lone g s b c t l) (fun t h₀ => ⟨_, lone_init h₀⟩)
    (fun t a t' hL _ hs => ?_) h
  obtain ⟨l, hL⟩ := hL
  cases a with
  | alloc =>
      obtain ⟨o, l', -, -, hL'⟩ := lone_alloc hL hs
      exact ⟨l', hL'⟩
  | free o => exact ⟨o :: l, (lone_free hL hs).2⟩

end Invariant

/-! ## For which sizes -/

section Exact

variable {g : Shape}

/-- Objects of a slab that has room for them. -/
theorem laidOut_of_fits (g : Geom) : LaidOut g := by
  intro s b c t ht
  obtain ⟨l, hL⟩ := exists_lone ht
  have hsz : mheadSz g.arch + g.objSz ≤ objmemsz g.arch g.objSz := by
    have hpos : 0 < g.objSz + mheadSz g.arch := by
      unfold mheadSz
      omega
    rw [Nat.add_comm]
    exact (psRndup_spec hpos g.objSz_le).2.1
  refine ⟨fun o ho => ?_, fun t' ht' o o' ho ho' hne => ?_, fun t' hs => ?_, ?_⟩
  · obtain ⟨i, hi, rfl⟩ := (hL.mem o).mp (.inl ho)
    have hmul : (i + 1) * objmemsz g.arch g.objSz ≤ g.nobjs * objmemsz g.arch g.objSz :=
      Nat.mul_le_mul_right _ hi
    rw [Nat.succ_mul] at hmul
    have hend : g.headoff + g.nobjs * objmemsz g.arch g.objSz ≤ g.allocsz := obj_nobjs_le g b
    refine ⟨rfl, Nat.le_add_right .., ?_⟩
    show g.headoff + i * objmemsz g.arch g.objSz + mheadSz g.arch + g.objSz ≤ g.allocsz
    omega
  · obtain ⟨l', hL'⟩ := exists_lone ht'
    obtain ⟨i, hi, rfl⟩ := (hL.mem o).mp (.inl ho)
    obtain ⟨j, hj, rfl⟩ := (hL'.mem o').mp (.inl ho')
    have hij : i ≠ j := fun h => hne (h ▸ rfl)
    unfold Apart Shape.obj
    simp only
    rcases Nat.lt_or_gt_of_ne hij with h | h
    · have hmul : (i + 1) * objmemsz g.arch g.objSz ≤ j * objmemsz g.arch g.objSz :=
        Nat.mul_le_mul_right _ h
      rw [Nat.succ_mul] at hmul
      exact .inl (by omega)
    · have hmul : (j + 1) * objmemsz g.arch g.objSz ≤ i * objmemsz g.arch g.objSz :=
        Nat.mul_le_mul_right _ h
      rw [Nat.succ_mul] at hmul
      exact .inr (by omega)
  · obtain ⟨o, l', rfl, -, -⟩ := lone_alloc hL hs
    rw [hL.nfree]
    simp
  · refine ⟨((List.range g.nobjs).map (g.obj b)).filter fun o => t.live o, ?_, fun o => ?_, ?_⟩
    · exact (nodup_objs g (objmemsz_pos g) b).filter _
    · rw [List.mem_filter]
      refine ⟨And.right, fun ho => ⟨?_, ho⟩⟩
      obtain ⟨i, hi, rfl⟩ := (hL.mem o).mp (.inl ho)
      exact List.mem_map_of_mem (List.mem_range.mpr hi)
    · refine (List.length_filter_le ..).trans ?_
      rw [List.length_map, List.length_range]

/-- A world without slabs, whose memory is zero. -/
def blank : World Unit where
  tscFree := fun _ => 0
  slab := fun _ => none
  next := fun _ => none
  memory := fun _ => some 0
  start := fun _ => 0
  end_ := fun _ => 0
  memsz := fun _ => 0
  coreid := fun _ => 0
  freelist := fun _ => none
  nfree := fun _ => 0
  slabs := fun _ => false
  listN := fun _ => 0
  listP := fun _ => 0
  flist := fun _ => none
  salloccnt := fun _ => 0
  remoteToken := fun _ => 0
  nslabs := fun _ => 0
  remoteFrees := fun _ => none
  pushed := 0
  ps := fun _ => false
  qscHead := fun _ => none
  qscTail := fun _ => none
  qmemcnt := fun _ => 0
  qmemtarget := fun _ => 0
  env := ()

/-- A slab that has no room for an object hands one out. -/
theorem not_laidOut (h : g.objSz + g.headoff ≤ g.allocsz)
    (hfits : ¬ objmemsz g.arch g.objSz + g.headoff ≤ g.allocsz) : ¬ LaidOut g := by
  intro hlaid
  have hzero : g.nobjs = 0 := Nat.div_eq_of_lt (by omega)
  have hend : (g.obj 0 g.nobjs).off ≤ g.allocsz := by
    rw [hzero]
    show g.headoff + 0 * _ ≤ _
    omega
  have hfl : blank.flist 0 ≠ some 0 := by simp [blank]
  obtain ⟨n, p, hrun, -⟩ := slabInit_run (w := blank) (s := 0) (b := 0) g rfl hend hfl
  rw [hzero] at hrun
  obtain ⟨w', hw'⟩ : ∃ w' : World Unit, w' = { sized g blank 0 0 0 with
    listN := n, listP := p, flist := update blank.flist 0 (some 0) } := ⟨_, rfl⟩
  have hrun : slabInit g blank 0 0 = some w' := by rw [hw']; exact hrun
  have hinit : (oneSlab g 0 0 0).init ⟨w', fun _ => false⟩ :=
    ⟨⟨blank, rfl, fun _ _ => ⟨rfl, rfl, rfl⟩, rfl, hrun⟩, fun _ => rfl⟩
  have hnf : w'.nfree 0 = 0 := by
    rw [hw']
    show update blank.nfree 0 g.nobjs 0 = 0
    rw [update_self, hzero]
  have hstep : ∃ t', (oneSlab g 0 0 0).step ⟨w', fun _ => false⟩ .alloc = some t' ∧
      t'.live (g.obj 0 0) = true := by
    have hfl' : w'.flist 0 = some 0 := by
      rw [hw']
      rfl
    have hfree : w'.freelist 0 = some (g.obj 0 0) := by
      rw [hw']
      rfl
    have hword : predWord g.arch 0 ≠ 0 := by cases g.arch <;> decide
    simp only [oneSlab, hfl', if_true]
    unfold popFree
    simp only [hfree, hnf, update_self, hword, if_false, if_true, Option.map_some]
    exact ⟨_, rfl, update_self (f := fun _ => false) ..⟩
  obtain ⟨t', hs, hlive⟩ := hstep
  obtain ⟨-, -, -, l, -, hmem, hlen⟩ := hlaid 0 0 0 t' ((Lts.Reach.init hinit).step trivial hs)
  have hpos := List.length_pos_of_mem ((hmem _).mpr hlive)
  omega

/-- **Objects lie inside their slab, apart and no more than fit, exactly where there is room for one
with its header, rounded up.** -/
theorem laidOut_iff (g : Shape) (h : g.objSz + g.headoff ≤ g.allocsz) :
    LaidOut g ↔ objmemsz g.arch g.objSz + g.headoff ≤ g.allocsz := by
  constructor
  · intro hlaid
    by_contra hfits
    exact not_laidOut h hfits hlaid
  · intro hfits
    exact laidOut_of_fits { g with fits := hfits }

/-- `PS_SLAB_CREATE_DEF(name, 4000)` on x86-64, in the default configuration.
Source: `ps_slab.h`, `PS_SLAB_CREATE_DEF`, `struct ps_slab`; `ps_config.h` -/
def fullPage : Shape where
  arch := .x86_64
  objSz := 4000
  allocsz := 4096
  headoff := 96
  numCores := 4
  numLocalities := 1
  locality := fun _ => 0
  remoteBatch := 64
  qlistBatch := 128
  objSz_le := by decide
  allocsz_lt := halfPage.allocsz_lt
  locality_lt := fun _ => Nat.one_pos
  qlistBatch_pos := halfPage.qlistBatch_pos

/-- The objects of the default pages are laid out in them. -/
theorem laidOut_page : LaidOut page :=
  (laidOut_iff page (by decide)).mpr (by decide)

/-- An object that fills a page but for the slab's own header does not fit with the object's. -/
theorem not_laidOut_fullPage : ¬ LaidOut fullPage := not_laidOut (by decide) (by decide)

end Exact

end Parsec.Slab
