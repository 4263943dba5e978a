import Mathlib.Data.Set.Card
import Parsec.Slab.Places

/-!
# Slab statistics

* `slabptrStats` — what `ps_slabptr_stats` reports for a core. It walks the core's freelist of slabs,
  and part of its lists of remotely freed objects.
* `CoreExact` — what is reported is the true counts, which add up to the objects of the core's slabs.
* `coreExact_iff` — so it is iff no object is on a list of remotely freed objects that is not read.
-/

namespace Parsec.Slab

open Function Lib

variable {g : Geom} {s : St}

/-! ## The code -/

section Code

variable {ε : Type} (g : Geom) (w : World ε)

/-- Source: `ps_slab.h`, `struct ps_slab_stats` -/
structure CoreStats where
  nslabs : ℕ
  npartslabs : ℕ
  nfree : ℕ
  nremote : ℕ

/-- The loop of `__ps_remote_free_cnt`, from the object `t`, with `ret` counted so far. The count is
an `int`; a list is not longer than the number of pushes so far.
Source: `ps_slab.c`, `__ps_remote_free_cnt` -/
def remoteFreeCnt : ℕ → Option Obj → ℕ → Option ℕ
  | _, none, ret => some ret
  | 0, some _, _ => none
  | k + 1, some t, ret => if ret + 1 < 2 ^ 31 then remoteFreeCnt k (w.next t) (ret + 1) else none

/-- The loop over a freelist of slabs that starts with `h`, from the slab `sl`. The list is not
longer than the number of the core's slabs.
Source: `ps_slab.c`, `ps_slabptr_stats` -/
def partLoop (h : ℕ) : ℕ → ℕ → ℕ → ℕ → Option (ℕ × ℕ)
  | 0, _, _, _ => none
  | k + 1, sl, np, nf =>
      if w.listN sl = h then some (np + 1, nf + w.nfree sl)
      else partLoop h k (w.listN sl) (np + 1) (nf + w.nfree sl)

/-- The first `k` rounds of a loop that adds up. -/
def sumLoop (f : ℕ → Option ℕ) : ℕ → Option ℕ
  | 0 => some 0
  | k + 1 => do
      let n ← sumLoop f k
      let m ← f k
      some (n + m)

/-- The objects counted on the lists of core `i`. A load past the end of an array is a fault.
Source: `ps_slab.c`, `ps_slabptr_stats` -/
def remoteCnt (i : ℕ) : Option ℕ :=
  sumLoop (fun j => sumLoop (fun k =>
    if k < numRemoteList g.arch then remoteFreeCnt w w.pushed (w.remoteFrees (i, j, k)) 0 else none)
    g.numLocalities) g.numLocalities

/-- The slabs with free objects of core `i`, and their free objects.
Source: `ps_slab.c`, `ps_slabptr_stats` -/
def partCnt (i : ℕ) : Option (ℕ × ℕ) :=
  match w.flist i with
  | none => some (0, 0)
  | some h => partLoop w h (w.nslabs i) h 0 0

/-- What is reported for core `i`.
Source: `ps_slab.c`, `ps_slabptr_stats` -/
def slabptrStats (i : ℕ) : Option CoreStats := do
  let (np, nf) ← partCnt w i
  let n ← remoteCnt g w i
  some { nslabs := w.nslabs i, npartslabs := np, nfree := nf, nremote := n }

end Code

/-! ## The loops -/

section Loops

variable {ε : Type} {w : World ε}

/-- The count of a list, which is an `int`. -/
theorem remoteFreeCnt_eq {l : List Obj} {h : Option Obj} (hc : Chain w.next h l) {k ret : ℕ}
    (hk : l.length ≤ k) (hret : ret < 2 ^ 31) : remoteFreeCnt w k h ret =
      if ret + l.length < 2 ^ 31 then some (ret + l.length) else none := by
  induction l generalizing h k ret with
  | nil =>
      obtain rfl := chain_nil.mp hc
      cases k <;> simp only [remoteFreeCnt, List.length_nil, Nat.add_zero, if_pos hret]
  | cons a l ih =>
      obtain ⟨rfl, hc'⟩ := chain_cons.mp hc
      obtain ⟨k, rfl⟩ := Nat.exists_eq_add_one.mpr ((Nat.succ_pos _).trans_le hk)
      have hlen : (a :: l).length = l.length + 1 := rfl
      unfold remoteFreeCnt
      by_cases h1 : ret + 1 < 2 ^ 31
      · rw [if_pos h1, ih hc' (by omega) h1]
        have he : ret + 1 + l.length = ret + (a :: l).length := by omega
        rw [he]
      · rw [if_neg h1, if_neg (by omega)]

/-- The loop over the partial slabs counts them and their free objects. -/
theorem partLoop_eq {h sl : ℕ} {l : List ℕ} (hseg : Seg w.listN w.listP sl l h) (hh : h ∉ l) {k : ℕ}
    (hk : l.length < k) (np nf : ℕ) : partLoop w h k sl np nf =
      some (np + (sl :: l).length, nf + ((sl :: l).map w.nfree).sum) := by
  induction l generalizing sl k np nf with
  | nil =>
      obtain ⟨k, rfl⟩ := Nat.exists_eq_add_one.mpr hk
      simp [partLoop, (seg_nil.mp hseg).1]
  | cons a l ih =>
      obtain ⟨k, rfl⟩ := Nat.exists_eq_add_one.mpr ((Nat.zero_le _).trans_lt hk)
      obtain ⟨hn, -, hseg⟩ := seg_cons.mp hseg
      obtain ⟨hne, hh⟩ := not_or.mp (fun h' => hh (List.mem_cons.mpr h'))
      have hk' : l.length < k := Nat.lt_of_succ_lt_succ hk
      rw [partLoop, hn, if_neg (Ne.symm hne), ih hseg hh hk']
      simp only [List.length_cons, List.map_cons, List.sum_cons, Option.some.injEq, Prod.mk.injEq]
      omega

/-- A sum of counts. -/
theorem sumLoop_eq_some {f : ℕ → Option ℕ} {k n : ℕ} : sumLoop f k = some n ↔
    ∃ q : ℕ → ℕ, (∀ i < k, f i = some (q i)) ∧ n = ((List.range k).map q).sum := by
  induction k generalizing n with
  | zero => simp [sumLoop, eq_comm]
  | succ k ih =>
      simp only [sumLoop, Option.bind_eq_bind, Option.bind_eq_some_iff, Option.some.injEq, ih]
      constructor
      · rintro ⟨m, ⟨q, hq, rfl⟩, m', hm', rfl⟩
        refine ⟨update q k m', fun i hi => ?_, ?_⟩
        · by_cases he : i = k
          · rw [he, update_self, hm']
          · rw [update_of_ne he]
            exact hq i (by omega)
        · rw [List.range_succ, List.map_append, List.sum_append]
          have hcongr : (List.range k).map (update q k m') = (List.range k).map q :=
            List.map_congr_left fun i hi => update_of_ne (List.mem_range.mp hi).ne ..
          simp [hcongr]
      · rintro ⟨q, hq, rfl⟩
        refine ⟨_, ⟨q, fun i hi => hq i (by omega), rfl⟩, q k, hq k (by omega), ?_⟩
        simp [List.range_succ]

end Loops

/-! ## The true counts -/

/-- An object of a slab of core `i`. -/
def Homed (g : Geom) (s : St) (i : ℕ) (o : Obj) : Prop :=
  ∃ sl, InSlab g s.w sl o ∧ s.w.coreid sl = i

/-- What is reported for core `i` is the true counts. -/
structure CoreExact (g : Geom) (s : St) (i : ℕ) (st : CoreStats) : Prop where
  nslabs : {sl | s.w.slabs sl = true ∧ s.w.coreid sl = i}.encard = st.nslabs
  npartslabs : {sl | s.w.slabs sl = true ∧ s.w.coreid sl = i ∧ ∃ o, At s o (.free sl)}.encard =
    st.npartslabs
  nfree : {o | Homed g s i o ∧ ∃ sl, At s o (.free sl)}.encard = st.nfree
  nremote : {o | Homed g s i o ∧ ∃ k, At s o (.remote k)}.encard = st.nremote
  total : (st.nslabs * g.nobjs : ℕ∞) = st.nfree + st.nremote +
    {o | Homed g s i o ∧ At s o .live}.encard + {o | Homed g s i o ∧ ∃ c, At s o (.queue c)}.encard

/-- All that is pending for core `i` is on lists that are read, and short enough to be counted. -/
structure AllRead (g : Geom) (s : St) (i : ℕ) : Prop where
  bound : g.numLocalities ≤ numRemoteList g.arch
  read : ∀ j k, g.numLocalities ≤ k → s.w.remoteFrees (i, j, k) = none
  short : ∀ j k l, Chain s.w.next (s.w.remoteFrees (i, j, k)) l → l.length < 2 ^ 31

/-- The elements of a list without repetition. -/
theorem encard_eq_length {α : Type} {l : List α} {p : Set α} (hnd : l.Nodup) (hm : ∀ a, a ∈ l ↔ a ∈ p) :
    p.encard = l.length := by
  classical
  have hp : p = ↑l.toFinset := by
    ext a
    rw [← hm, Finset.mem_coe, List.mem_toFinset]
  rw [hp, Set.encard_coe_eq_coe_finsetCard, List.toFinset_card_of_nodup hnd]

section Proofs

variable {P : ℕ → Prop} {cont : Key → List Obj} {i : ℕ}

/-- The objects that are on the freelist of a slab. -/
theorem Inv.at_free_iff (hI : Inv g s.w P (fun _ => none) {o | s.live o = true} cont) {o : Obj}
    {sl : ℕ} : At s o (.free sl) ↔ o ∈ cont (.free sl) := by
  rw [hI.at_iff]
  constructor
  · rintro (⟨h, -⟩ | ⟨k, hk, -, ho⟩)
    · cases h
    · cases k <;> cases hk
      exact ho
  · exact fun h => .inr ⟨.free sl, rfl, by simp, h⟩

/-- The objects that are on a remote list. -/
theorem Inv.at_remote_iff (hI : Inv g s.w P (fun _ => none) {o | s.live o = true} cont) {o : Obj}
    {k : ℕ × ℕ × ℕ} : At s o (.remote k) ↔ o ∈ cont (.remote k) := by
  rw [hI.at_iff]
  constructor
  · rintro (⟨h, -⟩ | ⟨k', hk, -, ho⟩)
    · cases h
    · cases k' <;> cases hk
      exact ho
  · exact fun h => .inr ⟨.remote k, rfl, by simp, h⟩

/-- The objects of a core's slabs. -/
theorem Inv.encard_homed (hI : Inv g s.w P (fun _ => none) {o | s.live o = true} cont) :
    {o | Homed g s i o}.encard = (s.w.nslabs i * g.nobjs : ℕ) := by
  obtain ⟨L, hL, hm, hlen⟩ := hI.slabs.owned i
  have hnd : (L.flatMap fun sl => (List.range g.nobjs).map (g.obj ((s.w.memory sl).getD 0))).Nodup := by
    refine List.nodup_flatMap.mpr ⟨fun sl _ => List.nodup_range.map fun a b h => (obj_inj h).2, ?_⟩
    refine hL.pairwise_of_forall_ne fun sl h sl' h' hne o ho ho' => ?_
    obtain ⟨j, -, rfl⟩ := List.mem_map.mp ho
    obtain ⟨j', -, he⟩ := List.mem_map.mp ho'
    obtain ⟨b, hb⟩ := hI.slabs.memory sl ((hm sl).mp h).1
    obtain ⟨b', hb'⟩ := hI.slabs.memory sl' ((hm sl').mp h').1
    rw [hb, hb'] at he
    obtain rfl : b' = b := (obj_inj he).1
    exact hne (hI.slabs.inj sl sl' b' ((hm sl).mp h).1 ((hm sl').mp h').1 hb hb')
  rw [encard_eq_length hnd fun o => ?_, List.length_flatMap]
  · simp [← hlen]
  · simp only [List.mem_flatMap, List.mem_map, List.mem_range, Set.mem_ofPred_eq, Homed]
    constructor
    · rintro ⟨sl, hsl, j, hj, rfl⟩
      obtain ⟨hs, hc⟩ := (hm sl).mp hsl
      obtain ⟨b, hb⟩ := hI.slabs.memory sl hs
      exact ⟨sl, ⟨hs, b, j, hb, hj, by rw [hb]; rfl⟩, hc⟩
    · rintro ⟨sl, ⟨hs, b, j, hb, hj, rfl⟩, hc⟩
      exact ⟨sl, (hm sl).mpr ⟨hs, hc⟩, j, hj, by rw [hb]; rfl⟩

/-- Each object of a core's slabs is in one of four kinds of place. -/
theorem MemInv.encard_homed (hfit : CountFits g) (hM : MemInv g P s cont) :
    {o | Homed g s i o}.encard = {o | Homed g s i o ∧ ∃ sl, At s o (.free sl)}.encard +
      {o | Homed g s i o ∧ ∃ k, At s o (.remote k)}.encard +
      {o | Homed g s i o ∧ At s o .live}.encard +
      {o | Homed g s i o ∧ ∃ c, At s o (.queue c)}.encard := by
  have hone : ∀ {o p p'}, Homed g s i o → At s o p → At s o p' → p = p' := by
    rintro o p p' ⟨sl, hs, -⟩ h h'
    exact ((hM.partitioned hfit).one sl o hs).unique h h'
  rw [← Set.encard_union_eq, ← Set.encard_union_eq, ← Set.encard_union_eq]
  · congr 1
    ext o
    constructor
    · intro ho
      obtain ⟨sl, hs, hc⟩ := ho
      obtain ⟨p, hp, -⟩ := (hM.partitioned hfit).one sl o hs
      have ho : Homed g s i o := ⟨sl, hs, hc⟩
      cases p with
      | live => exact .inl (.inr ⟨ho, hp⟩)
      | queue c => exact .inr ⟨ho, c, hp⟩
      | remote k => exact .inl (.inl (.inr ⟨ho, k, hp⟩))
      | free sl' => exact .inl (.inl (.inl ⟨ho, sl', hp⟩))
    · rintro (((h | h) | h) | h) <;> exact h.1
  · rw [Set.disjoint_left]
    rintro o ((⟨ho, _, h⟩ | ⟨-, _, h⟩) | ⟨-, h⟩) ⟨ho, _, h'⟩ <;> cases hone ho h h'
  · rw [Set.disjoint_left]
    rintro o (⟨ho, _, h⟩ | ⟨-, _, h⟩) ⟨ho, h'⟩ <;> cases hone ho h h'
  · rw [Set.disjoint_left]
    rintro o ⟨ho, _, h⟩ ⟨-, _, h'⟩
    cases hone ho h h'

/-- The walk over a core's freelist of slabs counts its free objects. -/
theorem MemInv.partCnt_exact (hM : MemInv g P s cont) : ∃ np nf, partCnt s.w i = some (np, nf) ∧
      {sl | s.w.slabs sl = true ∧ s.w.coreid sl = i ∧ ∃ o, At s o (.free sl)}.encard = (np : ℕ) ∧
      {o | Homed g s i o ∧ ∃ sl, At s o (.free sl)}.encard = (nf : ℕ) := by
  have hI := hM.inv
  obtain ⟨ring, hR, hm⟩ := hI.freelists.lists
  obtain ⟨L, hL, hmL, hlen⟩ := hI.slabs.owned i
  have hnd := (hR.ring i).nodup
  have hle : (ring i).length ≤ s.w.nslabs i := by
    rw [← hlen]
    refine (List.subperm_of_subset hnd fun sl h => (hmL sl).mpr ?_).length_le
    exact ⟨((hm i sl).mp h).1, ((hm i sl).mp h).2.1⟩
  refine ⟨(ring i).length, ((ring i).map s.w.nfree).sum, ?_, encard_eq_length hnd fun sl => ?_, ?_⟩
  · have hring := hR.ring i
    unfold partCnt
    rw [hR.head_eq i]
    cases hc : ring i with
    | nil => rfl
    | cons a l =>
        rw [hc] at hring hle
        show partLoop s.w a (s.w.nslabs i) a 0 0 = _
        rw [partLoop_eq hring.2 (List.nodup_cons.mp hring.1).1 hle, Nat.zero_add, Nat.zero_add]
  · rw [hm]
    constructor
    · rintro ⟨hs, hc, h0⟩
      rw [← hI.freelists.nfree sl hs] at h0
      obtain ⟨o, ho⟩ := List.exists_mem_of_length_pos (Nat.pos_of_ne_zero h0)
      exact ⟨hs, hc, o, hI.at_free_iff.mpr ho⟩
    · rintro ⟨hs, hc, o, ho⟩
      refine ⟨hs, hc, ?_⟩
      rw [← hI.freelists.nfree sl hs]
      exact Nat.ne_of_gt (List.length_pos_of_mem (hI.at_free_iff.mp ho))
  · have hfl : ((ring i).flatMap fun sl => cont (.free sl)).Nodup := by
      refine List.nodup_flatMap.mpr ⟨fun sl _ => hI.chains.nodup _, ?_⟩
      refine hnd.pairwise_of_forall_ne fun sl _ sl' _ hne o ho ho' => hne ?_
      exact Key.free.inj (hI.chains.disjoint ho ho')
    rw [encard_eq_length hfl fun o => ?_, List.length_flatMap]
    · congr 2
      exact List.map_congr_left fun sl h => hI.freelists.nfree sl ((hm i sl).mp h).1
    · rw [List.mem_flatMap]
      constructor
      · rintro ⟨sl, hsl, ho⟩
        obtain ⟨sl', hs, rfl, -⟩ := hI.members.listed _ o ho
        exact ⟨⟨sl', hs, ((hm i sl').mp hsl).2.1⟩, sl', hI.at_free_iff.mpr ho⟩
      · rintro ⟨⟨sl, hs, hc⟩, sl', hat⟩
        have ho := hI.at_free_iff.mp hat
        obtain ⟨sl₁, hs₁, rfl, -⟩ := hI.members.listed _ o ho
        have he := hI.slabs.eq_of_inSlab hs hs₁
        subst he
        refine ⟨_, (hm i _).mpr ⟨hs.1, hc, ?_⟩, ho⟩
        rw [← hI.freelists.nfree _ hs.1]
        exact Nat.ne_of_gt (List.length_pos_of_mem ho)

/-- The objects on the first `n` lists of remotely freed objects of core `i`, for each locality. -/
def pending (g : Geom) (cont : Key → List Obj) (i n : ℕ) : List Obj :=
  (List.range g.numLocalities).flatMap fun j =>
    (List.range n).flatMap fun k => cont (.remote (i, j, k))

/-- What is pending for a core is on one of its lists. -/
theorem mem_pending {o : Obj} {n : ℕ} : o ∈ pending g cont i n ↔
    ∃ j < g.numLocalities, ∃ k < n, o ∈ cont (.remote (i, j, k)) := by
  simp [pending]

/-- No object is pending twice. -/
theorem Inv.pending_nodup {w : World (List Ev)} {H : Set Obj}
    (hI : Inv g w P (fun _ => none) H cont) (n : ℕ) : (pending g cont i n).Nodup := by
  refine List.nodup_flatMap.mpr ⟨fun j _ => hI.waiting_nodup, ?_⟩
  refine List.nodup_range.pairwise_of_forall_ne fun j _ j' _ hne o ho ho' => hne ?_
  obtain ⟨k, -, ho⟩ := List.mem_flatMap.mp ho
  obtain ⟨k', -, ho'⟩ := List.mem_flatMap.mp ho'
  have he := hI.chains.disjoint ho ho'
  simp only [Key.remote.injEq, Prod.mk.injEq, true_and] at he
  exact he.1

/-- What is pending for a core. -/
theorem Inv.encard_remote (hI : Inv g s.w P (fun _ => none) {o | s.live o = true} cont) :
    {o | Homed g s i o ∧ ∃ k, At s o (.remote k)}.encard =
      (pending g cont i (numRemoteList g.arch)).length := by
  refine encard_eq_length (hI.pending_nodup _) fun o => ?_
  rw [mem_pending]
  constructor
  · rintro ⟨j, -, k, -, ho⟩
    obtain ⟨sl, hs, hc, -⟩ := hI.members.listed _ o ho
    exact ⟨⟨sl, hs, hc⟩, (i, j, k), hI.at_remote_iff.mpr ho⟩
  · rintro ⟨⟨sl, hs, hc⟩, ⟨i', j, k⟩, hat⟩
    have ho := hI.at_remote_iff.mp hat
    obtain ⟨sl', hs', hc', -⟩ := hI.members.listed _ o ho
    have he := hI.slabs.eq_of_inSlab hs hs'
    subst he
    have hc' : s.w.coreid sl = i' := hc'
    obtain rfl : i' = i := hc'.symm.trans hc
    obtain ⟨hj, hk⟩ := hI.remote_lt ho
    exact ⟨j, hj, k, hk, ho⟩

/-- What is counted of what is pending for a core. -/
theorem Inv.remoteCnt_eq_some {w : World (List Ev)} {H : Set Obj}
    (hI : Inv g w P (fun _ => none) H cont) {n : ℕ} : remoteCnt g w i = some n ↔
      g.numLocalities ≤ numRemoteList g.arch ∧
      (∀ j < g.numLocalities, ∀ k < g.numLocalities, (cont (.remote (i, j, k))).length < 2 ^ 31) ∧
      n = (pending g cont i g.numLocalities).length := by
  have hcnt : ∀ j k m, (if k < numRemoteList g.arch then
      remoteFreeCnt w w.pushed (w.remoteFrees (i, j, k)) 0 else none) = some m ↔
        k < numRemoteList g.arch ∧ (cont (.remote (i, j, k))).length < 2 ^ 31 ∧
          m = (cont (.remote (i, j, k))).length := by
    intro j k m
    have hch : Chain w.next (w.remoteFrees (i, j, k)) (cont (.remote (i, j, k))) :=
      hI.chains.chain (.remote (i, j, k))
    rw [remoteFreeCnt_eq hch (hI.counters.pushed _) (Nat.two_pow_pos 31), Nat.zero_add]
    split_ifs with h₁ h₂
    · simp [h₁, eq_comm]
      omega
    · simp only [h₂, false_and, and_false]
    · simp only [h₁, false_and]
  have hlen : ∀ n', (pending g cont i n').length = ((List.range g.numLocalities).map fun j =>
      ((List.range n').map fun k => (cont (.remote (i, j, k))).length).sum).sum := by
    intro n'
    rw [pending, List.length_flatMap]
    congr 1
    exact List.map_congr_left fun j _ => List.length_flatMap
  have hpos : 0 < g.numLocalities := (Nat.zero_le _).trans_lt (g.locality_lt 0)
  unfold remoteCnt
  rw [sumLoop_eq_some, hlen]
  constructor
  · rintro ⟨q, hq, rfl⟩
    have hin : ∀ j < g.numLocalities, ∀ k < g.numLocalities,
        k < numRemoteList g.arch ∧ (cont (.remote (i, j, k))).length < 2 ^ 31 := by
      intro j hj k hk
      obtain ⟨q', hq', -⟩ := sumLoop_eq_some.mp (hq j hj)
      obtain ⟨h₁, h₂, -⟩ := (hcnt j k _).mp (hq' k hk)
      exact ⟨h₁, h₂⟩
    refine ⟨?_, fun j hj k hk => (hin j hj k hk).2, ?_⟩
    · have := (hin 0 hpos (g.numLocalities - 1) (by omega)).1
      omega
    · congr 1
      refine List.map_congr_left fun j hj => ?_
      obtain ⟨q', hq', he⟩ := sumLoop_eq_some.mp (hq j (List.mem_range.mp hj))
      rw [he]
      congr 1
      exact List.map_congr_left fun k hk => ((hcnt j k _).mp (hq' k (List.mem_range.mp hk))).2.2
  · rintro ⟨hle, hshort, rfl⟩
    refine ⟨_, fun j hj => sumLoop_eq_some.mpr ⟨_, fun k hk => ?_, rfl⟩, rfl⟩
    exact (hcnt j k _).mpr ⟨hk.trans_le hle, hshort j hj k hk, rfl⟩

/-- An object on a list that is not read is not counted. -/
theorem Inv.allRead_of_encard (hI : Inv g s.w P (fun _ => none) {o | s.live o = true} cont) {n : ℕ}
    (hn : remoteCnt g s.w i = some n)
    (he : {o | Homed g s i o ∧ ∃ k, At s o (.remote k)}.encard = n) : AllRead g s i := by
  obtain ⟨hle, hshort, rfl⟩ := hI.remoteCnt_eq_some.mp hn
  rw [hI.encard_remote, Nat.cast_inj] at he
  have hch : ∀ j k, Chain s.w.next (s.w.remoteFrees (i, j, k)) (cont (.remote (i, j, k))) := fun j k =>
    hI.chains.chain (.remote (i, j, k))
  have hread : ∀ j k, g.numLocalities ≤ k → cont (.remote (i, j, k)) = [] := by
    intro j k hk
    refine List.eq_nil_iff_forall_not_mem.mpr fun o ho => ?_
    obtain ⟨hj, hk'⟩ := hI.remote_lt ho
    have hnot : o ∉ pending g cont i g.numLocalities := by
      intro h
      obtain ⟨j', -, k', hlt, ho'⟩ := mem_pending.mp h
      have he := hI.chains.disjoint ho ho'
      simp only [Key.remote.injEq, Prod.mk.injEq, true_and] at he
      omega
    have hsub : o :: pending g cont i g.numLocalities ⊆ pending g cont i (numRemoteList g.arch) := by
      refine List.cons_subset.mpr ⟨mem_pending.mpr ⟨j, hj, k, hk', ho⟩, fun a ha => ?_⟩
      obtain ⟨j', hj', k', hlt, ha'⟩ := mem_pending.mp ha
      exact mem_pending.mpr ⟨j', hj', k', hlt.trans_le hle, ha'⟩
    have hlen := (List.subperm_of_subset (List.nodup_cons.mpr ⟨hnot, hI.pending_nodup _⟩) hsub).length_le
    rw [List.length_cons] at hlen
    omega
  refine ⟨hle, fun j k hk => ?_, fun j k l hl => ?_⟩
  · have h := hch j k
    rwa [hread j k hk] at h
  · rw [hl.unique (hch j k)]
    by_cases hk : k < g.numLocalities
    · by_cases hj : j < g.numLocalities
      · exact hshort j hj k hk
      · have hnil : cont (.remote (i, j, k)) = [] := List.eq_nil_iff_forall_not_mem.mpr fun o ho =>
          hj (hI.remote_lt ho).1
        rw [hnil]
        exact Nat.two_pow_pos 31
    · rw [hread j k (not_lt.mp hk)]
      exact Nat.two_pow_pos 31

/-- Where all lists are read, what is counted is what is pending. -/
theorem Inv.encard_of_allRead (hI : Inv g s.w P (fun _ => none) {o | s.live o = true} cont)
    (hA : AllRead g s i) : ∃ n : ℕ, remoteCnt g s.w i = some n ∧
      {o | Homed g s i o ∧ ∃ k, At s o (.remote k)}.encard = n := by
  have hch : ∀ j k, Chain s.w.next (s.w.remoteFrees (i, j, k)) (cont (.remote (i, j, k))) := fun j k =>
    hI.chains.chain (.remote (i, j, k))
  refine ⟨_, hI.remoteCnt_eq_some.mpr ⟨hA.bound, fun j _ k _ => hA.short j k _ (hch j k), rfl⟩, ?_⟩
  have hiff : ∀ o, o ∈ pending g cont i (numRemoteList g.arch) ↔
      o ∈ pending g cont i g.numLocalities := by
    intro o
    rw [mem_pending, mem_pending]
    constructor
    · rintro ⟨j, hj, k, -, ho⟩
      refine ⟨j, hj, k, ?_, ho⟩
      by_contra hk
      have h := hch j k
      rw [hA.read j k (not_lt.mp hk), chain_none_iff] at h
      rw [h] at ho
      cases ho
    · rintro ⟨j, hj, k, hk, ho⟩
      exact ⟨j, hj, k, hk.trans_le hA.bound, ho⟩
  have hperm := (List.perm_ext_iff_of_nodup (hI.pending_nodup _) (hI.pending_nodup _)).mpr hiff
  rw [hI.encard_remote, hperm.length_eq]

/-- The statistics of a core are exact iff all that is pending for it is read. -/
theorem MemInv.coreExact (hfit : CountFits g) (hM : MemInv g P s cont) :
    (∃ st, slabptrStats g s.w i = some st ∧ CoreExact g s i st) ↔ AllRead g s i := by
  have hI := hM.inv
  obtain ⟨np, nf, hpart, hnp, hnf⟩ := hM.partCnt_exact (i := i)
  constructor
  · rintro ⟨st, hst, hE⟩
    simp only [slabptrStats, hpart, Option.bind_eq_bind, Option.bind_some] at hst
    obtain ⟨n, hn, hst⟩ := Option.bind_eq_some_iff.mp hst
    obtain rfl := Option.some.inj hst
    exact hI.allRead_of_encard hn hE.nremote
  · intro hA
    obtain ⟨n, hn, hrem⟩ := hI.encard_of_allRead hA
    refine ⟨⟨s.w.nslabs i, np, nf, n⟩, ?_, ⟨?_, hnp, hnf, hrem, ?_⟩⟩
    · simp only [slabptrStats, hpart, hn, Option.bind_eq_bind, Option.bind_some]
    · obtain ⟨L, hL, hm, hlen⟩ := hI.slabs.owned i
      exact (encard_eq_length hL hm).trans (congrArg _ hlen)
    · have htotal := hM.encard_homed hfit (i := i)
      rw [hI.encard_homed, hnf, hrem] at htotal
      rw [← htotal, Nat.cast_mul]

end Proofs

/-- **What is reported for a core is the true counts**, in every state that is reached, iff all that is
pending for it is on lists that are read, if a slab has fewer objects than an `unsigned int` counts, or
a multiple of that. -/
theorem coreExact_iff (hfit : CountFits g) (h : (memLts g).Reach (Ok g) s) (i : ℕ) :
    (∃ st, slabptrStats g s.w i = some st ∧ CoreExact g s i st) ↔ AllRead g s i := by
  obtain ⟨cont, hM⟩ := exists_memInv_of_reach hfit h
  exact hM.coreExact hfit

/-- Cores alternate between two localities. -/
theorem alternate_lt (c : ℕ) : c % 2 < 2 := Nat.mod_lt c Nat.two_pos

/-- The same slabs, on two localities, between which cores alternate. -/
def Geom.alternate (g : Geom) : Geom := { g with
  numLocalities := 2
  locality := fun c => c % 2
  locality_lt := alternate_lt }

/-- Pages of words on two localities.
Source: `ps_slab.h`, `PS_SLAB_CREATE_DEF`; `ps_config.h`, `PS_NUMLOCALITIES` -/
def twoNodes : Geom := page.alternate

/-- Core 1 has freed an object of core 0, and core 0 one that has not quiesced. -/
theorem coreExact_twoNodes : ∃ s, (memLts twoNodes).Reach (Ok twoNodes) s ∧
    s.w.remoteFrees (0, 1, 1) = some (twoNodes.obj 0 0) ∧
    s.w.qscHead 0 = some (twoNodes.obj 0 1) ∧ s.live (twoNodes.obj 0 2) = true ∧
    ∃ st, slabptrStats twoNodes s.w 0 = some st ∧ CoreExact twoNodes s 0 st := by
  have hfit : CountFits twoNodes := .inl (by decide)
  obtain ⟨s, hs, hX⟩ := exists_mixed (g := twoNodes) hfit (by decide) (by decide) (by decide)
  obtain ⟨hremote, hlast⟩ := hX.remote
  refine ⟨s, hs, hremote, hX.queue, hX.live, (coreExact_iff hfit hs 0).mpr ⟨by decide, ?_, ?_⟩⟩
  · intro j k hk
    refine hX.others (0, j, k) fun he => ?_
    have hk1 : k = 1 := congrArg (fun k => k.2.2) he
    rw [hk1] at hk
    exact absurd hk (by decide)
  · intro j k l hl
    by_cases he : (0, j, k) = remoteKey twoNodes 1 0
    · have hone : Chain s.w.next (s.w.remoteFrees (0, j, k)) [twoNodes.obj 0 0] := by
        rw [he]
        exact ⟨hremote, hlast⟩
      rw [hl.unique hone]
      decide
    · rw [hX.others _ he, chain_none_iff] at hl
      rw [hl]
      exact Nat.two_pow_pos 31

/-- In the default configuration, core 1 frees an object of core 0. -/
theorem not_coreExact_page : ¬ ∀ s, (memLts page).Reach (Ok page) s → ∀ i < page.numCores,
    ∃ st, slabptrStats page s.w i = some st ∧ CoreExact page s i st := by
  intro h
  have hfit : CountFits page := .inl (by decide)
  obtain ⟨s, hs, hF, hlive⟩ := exists_filling_first (g := page) (c := 0) (by decide)
  obtain ⟨cont, hI, -⟩ := hF.inv
  have h0 : s.w.slabs 0 = true := (hF.slabs 0).mpr rfl
  have hslab := hI.slabs.slab 0 (page.obj 0 0) ⟨h0, 0, 0, hF.memory, nobjs_pos page, rfl⟩
  have hrun : memFree page (supplier page) s.w (page.obj 0 0) 1 =
      some (memRemoteFree page s.w (page.obj 0 0) 1 0) := by
    unfold memFree
    rw [if_pos ⟨page.fits, (hI.members.held _ hlive).tscFree⟩, hslab]
    simp [hF.coreid]
  have hstep : step page s (.free 1 (page.obj 0 0)) = some { s with
      w := memRemoteFree page s.w (page.obj 0 0) 1 0
      live := update s.live (page.obj 0 0) false } := by
    simp only [step, hrun, Option.map_some]
  have hok : Ok page s (.free 1 (page.obj 0 0)) := ⟨by decide, hlive⟩
  have hs' := hs.step hok hstep
  obtain ⟨cont', hM⟩ := exists_memInv_of_reach hfit hs'
  have hA := (hM.coreExact hfit).mp (h _ hs' 0 (by decide))
  have hnone := hA.read 0 1 le_rfl
  have hkey : remoteKey page 1 0 = (0, 0, 1) := by decide
  have hsome : (memRemoteFree page s.w (page.obj 0 0) 1 0).remoteFrees (0, 0, 1) =
      some (page.obj 0 0) := by
    simp [memRemoteFree, hkey]
  rw [hsome] at hnone
  cases hnone

end Parsec.Slab
