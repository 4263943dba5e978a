import Parsec.Slab.Places

/-!
# Localities are drained in turn

`__ps_slab_mem_remote_process` of a core, in any state that is reached: from its token on, the first
locality at which objects wait for the core is drained, all of it, and the token is left past it.

* `Turn` — what one call is to do; `Turns` — so many calls, after which nothing waits any more.
* `turns_iff` — as many calls as there are localities do this iff the objects that wait at a locality
  are never more than an `int` counts. The invariant of the run is that nothing waits at the
  localities that have had their turn (`turns_of_counted`).
-/

namespace Parsec.Slab

open Function Lib

variable {g : Geom} {s s' : St} {c loc i : ℕ}

/-! ## What is to hold -/

/-- The free objects of a slab: `nfree` of them, from its freelist on. -/
def freeObjs {ε : Type} (w : World ε) (sl : ℕ) : List Obj :=
  follow w.next (w.nfree sl) (w.freelist sl)

/-- The first locality at which an object waits is `i` past the token. -/
structure First (g : Geom) (s : St) (c i : ℕ) : Prop where
  lt : i < g.numLocalities
  waits : ∃ o, Waits s.w c ((s.w.remoteToken c + i) % g.numLocalities) o
  before : ∀ i' < i, ∀ o, ¬ Waits s.w c ((s.w.remoteToken c + i') % g.numLocalities) o

/-- The objects `l`, which are those that waited at a locality, are back in their slabs, and no other
object has moved. A slab that was released has all its objects. -/
structure Drained (g : Geom) (s s' : St) (c loc : ℕ) (l : List Obj) : Prop where
  mem : ∀ o, o ∈ l ↔ Waits s.w c loc o
  nodup : l.Nodup
  emptied : ∀ k, s'.w.remoteFrees (c, loc, k) = none
  remote : ∀ k l', ¬ (k.1 = c ∧ k.2.1 = loc) → Chain s.w.next (s.w.remoteFrees k) l' →
    Chain s'.w.next (s'.w.remoteFrees k) l'
  queue : ∀ c' l', Chain s.w.next (s.w.qscHead c') l' → Chain s'.w.next (s'.w.qscHead c') l'
  live : s'.live = s.live
  sub : ∀ sl, s'.w.slabs sl = true → s.w.slabs sl = true
  free : ∀ sl, s'.w.slabs sl = true →
    (freeObjs s'.w sl).Perm (ofSlab s.w sl l ++ freeObjs s.w sl)
  full : ∀ sl, s.w.slabs sl = true → s'.w.slabs sl = false → ∃ b, s.w.memory sl = some b ∧
    (ofSlab s.w sl l ++ freeObjs s.w sl).Perm ((List.range g.nobjs).map (g.obj b))

/-- A call of `__ps_slab_mem_remote_process`, which returns. -/
structure Turn (g : Geom) (s s' : St) (c : ℕ) : Prop where
  run : ∃ w, memRemoteProcess g (supplier g) s.w c = some w ∧ s' = { s with w := w }
  token_lt : s'.w.remoteToken c < g.numLocalities
  drains : ∀ i, First g s c i → s'.w.remoteToken c = (s.w.remoteToken c + i + 1) % g.numLocalities ∧
    ∃ l, Drained g s s' c ((s.w.remoteToken c + i) % g.numLocalities) l

/-- Calls one after the other. After them, all lists of the core are empty. -/
def Turns (g : Geom) (c : ℕ) : ℕ → St → Prop
  | 0, s => ∀ loc k, s.w.remoteFrees (c, loc, k) = none
  | k + 1, s => ∃ s', Turn g s s' c ∧ Turns g c k s'

/-! ## Lists -/

section Proofs

variable {P : ℕ → Prop} {cont cont' : Key → List Obj}

/-- The free objects of a slab, from the invariant. -/
theorem Inv.freeObjs_eq {ε : Type} {w : World ε} {H : Set Obj} {hd : ℕ → Option Obj}
    (hI : Inv g w P hd H cont) {sl : ℕ} (hs : w.slabs sl = true) :
    freeObjs w sl = cont (.free sl) := by
  have hlen := hI.freelists.nfree sl hs
  have hch := hI.chains.chain (.free sl)
  unfold freeObjs
  by_cases hn : 2 ≤ g.nobjs
  · have hh : heads g w hd (.free sl) = w.freelist sl := by simp [heads, hs, hn]
    rw [hh] at hch
    exact hch.follow_eq hlen.le
  · have hh : heads g w hd (.free sl) = none := by simp [heads, hn]
    rw [hh, chain_none_iff] at hch
    rw [hch] at hlen ⊢
    rw [← hlen]
    rfl

/-- The first locality at which objects wait, from the invariant. -/
theorem MemInv.first_iff (hM : MemInv g P s cont) : First g s c i ↔ i < g.numLocalities ∧
    waitingAt g s.w cont c i ≠ [] ∧ ∀ i' < i, waitingAt g s.w cont c i' = [] := by
  have hnil : ∀ i, (∀ o, ¬ Waits s.w c ((s.w.remoteToken c + i) % g.numLocalities) o) ↔
      waitingAt g s.w cont c i = [] := by
    intro i
    simp only [hM.inv.waits_iff]
    exact List.eq_nil_iff_forall_not_mem.symm
  constructor
  · rintro ⟨h, ⟨o, ho⟩, hb⟩
    exact ⟨h, List.ne_nil_of_mem (hM.inv.waits_iff.mp ho), fun i' hi => (hnil i').mp (hb i' hi)⟩
  · rintro ⟨h, hw, hb⟩
    obtain ⟨o, ho⟩ := List.exists_mem_of_ne_nil _ hw
    exact ⟨h, ⟨o, hM.inv.waits_iff.mpr ho⟩, fun i' hi => (hnil i').mpr (hb i' hi)⟩

/-! ## One call -/

/-- A call drains the first locality with something, or the last one, and returns if what it drains is
counted. -/
theorem exists_turn (hfit : CountFits g) (hM : MemInv g P s cont) (c : ℕ) :
    ∃ i s' cont', i < g.numLocalities ∧ MemInv g P s' cont' ∧
      (memRemoteProcess g (supplier g) s.w c = if (waitingAt g s.w cont c i).length < 2 ^ 31 then
        some s'.w else none) ∧ s' = { s with w := s'.w } ∧
      s'.w.remoteToken c = (s.w.remoteToken c + (i + 1)) % g.numLocalities ∧
      (∀ i' < i, waitingAt g s.w cont c i' = []) ∧
      (waitingAt g s.w cont c i ≠ [] ∨ i + 1 = g.numLocalities) ∧
      Drained g s s' c ((s.w.remoteToken c + i) % g.numLocalities) (waitingAt g s.w cont c i) ∧
      ∀ key, cont' (.remote key) =
        if key.1 = c ∧ key.2.1 = (s.w.remoteToken c + i) % g.numLocalities then []
        else cont (.remote key) := by
  have hI := hM.inv
  obtain ⟨i, w', cont', hi, hrun, htok, hbefore, hlast, hI', hK', hq, hret, hrem⟩ :=
    memRemoteProcess_first (c := c) (backing_supplier g) hfit hI hM.log
  have hremote : ∀ k, Chain w'.next (w'.remoteFrees k) (cont' (.remote k)) := fun k =>
    hI'.chains.chain (.remote k)
  have hqueue : ∀ c, Chain w'.next (w'.qscHead c) (cont' (.queue c)) := fun c =>
    hI'.chains.chain (.queue c)
  refine ⟨i, { s with w := w' }, cont', hi, ⟨hI', hK', hq.queues hM.queues⟩, hrun, rfl, htok,
    hbefore, hlast, ?_, hrem⟩
  constructor
  · exact fun o => hI.waits_iff.symm
  · exact hI.waiting_nodup
  · intro k
    have hch := hremote (c, (s.w.remoteToken c + i) % g.numLocalities, k)
    rwa [hrem, if_pos ⟨rfl, rfl⟩] at hch
  · intro k l' hk hl'
    rw [hl'.unique (hI.chains.chain (.remote k))]
    have hch := hremote k
    rwa [hrem, if_neg hk] at hch
  · intro c' l' hl'
    rw [hl'.unique (hI.chains.chain (.queue c')), ← hq.queue]
    exact hqueue c'
  · rfl
  · exact hret.sub
  · intro sl hs
    rw [hI'.freeObjs_eq hs, hI.freeObjs_eq (hret.sub sl hs)]
    exact hret.free sl hs
  · intro sl hs hs'
    rw [hI.freeObjs_eq hs]
    exact hret.full sl hs hs'

/-- A call that returns has counted what it drained. -/
theorem Turn.counted {s₁ s₂ : St} {n : ℕ} (h₁ : Turn g s s₁ c)
    (hrun : memRemoteProcess g (supplier g) s.w c = if n < 2 ^ 31 then some s₂.w else none)
    (h₂ : s₂ = { s with w := s₂.w }) : n < 2 ^ 31 ∧ s₁ = s₂ := by
  obtain ⟨w₁, hw₁, rfl⟩ := h₁.run
  rw [hw₁] at hrun
  split_ifs at hrun with hn
  obtain rfl := Option.some.inj hrun
  exact ⟨hn, h₂.symm⟩

/-! ## As many calls as there are localities -/

/-- Localities are counted around. -/
theorem waitingAt_mod {ε : Type} {w : World ε} (i : ℕ) :
    waitingAt g w cont c (i % g.numLocalities) = waitingAt g w cont c i := by
  unfold waitingAt
  rw [Nat.add_mod_mod]

/-- From any state, localities have their turn: with `k` calls to go, nothing waits at those from `k`
past the token on. -/
theorem turns_of_counted (hfit : CountFits g) {k : ℕ} (hk : k ≤ g.numLocalities)
    (hM : MemInv g P s cont)
    (hlen : ∀ loc, (waiting cont c loc (numRemoteList g.arch)).length < 2 ^ 31)
    (hdone : ∀ i, k ≤ i → i < g.numLocalities → waitingAt g s.w cont c i = []) :
    Turns g c k s := by
  induction k generalizing s cont with
  | zero =>
      intro loc k
      have hch : Chain s.w.next (s.w.remoteFrees (c, loc, k)) (cont (.remote (c, loc, k))) :=
        hM.inv.chains.chain (.remote (c, loc, k))
      have hnil : cont (.remote (c, loc, k)) = [] := by
        refine List.eq_nil_iff_forall_not_mem.mpr fun o ho => ?_
        have hloc := (hM.inv.remote_lt ho).1
        have htok := hM.inv.counters.token c
        -- each locality is some way past the token
        obtain ⟨i, hi, he⟩ : ∃ i, i < g.numLocalities ∧
            (s.w.remoteToken c + i) % g.numLocalities = loc := by
          rcases le_or_gt (s.w.remoteToken c) loc with h | h
          · refine ⟨loc - s.w.remoteToken c, by omega, ?_⟩
            rw [Nat.add_sub_cancel' h, Nat.mod_eq_of_lt hloc]
          · refine ⟨loc + g.numLocalities - s.w.remoteToken c, by omega, ?_⟩
            rw [Nat.add_sub_cancel' (by omega), Nat.add_mod_right, Nat.mod_eq_of_lt hloc]
        have hm : o ∈ waitingAt g s.w cont c i := by
          unfold waitingAt
          rw [he]
          exact hM.inv.mem_waiting.mpr ⟨k, ho⟩
        rw [hdone i (Nat.zero_le i) hi] at hm
        cases hm
      rwa [hnil, chain_nil] at hch
  | succ k ih =>
      obtain ⟨i, s', cont', hi, hM', hrun, hs', htok, hbefore, hlast, hD, hrem⟩ :=
        exists_turn hfit hM c
      have hrun := hrun.trans (if_pos (hlen _))
      have hpos : 0 < g.numLocalities := by omega
      have hsub : ∀ loc, waiting cont' c loc (numRemoteList g.arch) =
          if loc = (s.w.remoteToken c + i) % g.numLocalities then []
          else waiting cont c loc (numRemoteList g.arch) := by
        intro loc
        unfold waiting
        simp only [hrem, true_and]
        split <;> simp
      refine ⟨s', ⟨⟨s'.w, hrun, hs'⟩, ?_, fun i' hF => ?_⟩, ih (by omega) hM' (fun loc => ?_) fun j hj hjn => ?_⟩
      · rw [htok]
        exact Nat.mod_lt _ hpos
      · obtain ⟨hi', hw', hb'⟩ := hM.first_iff.mp hF
        have he : i' = i := by
          rcases lt_trichotomy i' i with h | h | h
          · exact absurd (hbefore i' h) hw'
          · exact h
          · rcases hlast with hlast | hlast
            · exact absurd (hb' i h) hlast
            · omega
        subst he
        exact ⟨htok, _, hD⟩
      · rw [hsub]
        split
        · exact Nat.two_pow_pos 31
        · exact hlen loc
      · -- `j` past the new token is `i + 1 + j` past the old one
        have hshift : waitingAt g s'.w cont' c j = waiting cont' c
            ((s.w.remoteToken c + (i + 1 + j)) % g.numLocalities) (numRemoteList g.arch) := by
          unfold waitingAt
          rw [htok, Nat.mod_add_mod, Nat.add_assoc]
        rw [hshift, hsub]
        split
        · rfl
        rename_i hne
        change waitingAt g s.w cont c (i + 1 + j) = []
        rcases lt_or_ge (i + 1 + j) g.numLocalities with h | h
        · exact hdone _ (by omega) h
        · rw [← waitingAt_mod, Nat.mod_eq_sub_mod h, Nat.mod_eq_of_lt (by omega)]
          refine hbefore _ (lt_of_le_of_ne (by omega) fun he => hne ?_)
          have hij : i + 1 + j = i + g.numLocalities := by omega
          rw [hij, ← Nat.add_assoc, Nat.add_mod_right]

/-- Each locality is counted in the call that drains it. -/
theorem counted_of_turns (hfit : CountFits g) {k : ℕ} (hM : MemInv g P s cont)
    (hT : Turns g c k s) (loc : ℕ) :
    (waiting cont c loc (numRemoteList g.arch)).length < 2 ^ 31 := by
  induction k generalizing s cont with
  | zero =>
      have hnil : waiting cont c loc (numRemoteList g.arch) = [] := by
        refine List.flatMap_eq_nil_iff.mpr fun k _ => ?_
        have hch : Chain s.w.next (s.w.remoteFrees (c, loc, k)) (cont (.remote (c, loc, k))) :=
          hM.inv.chains.chain (.remote (c, loc, k))
        rwa [hT loc k, chain_none_iff] at hch
      rw [hnil]
      exact Nat.two_pow_pos 31
  | succ k ih =>
      obtain ⟨s₁, hturn, hT⟩ := hT
      obtain ⟨i, s', cont', -, hM', hrun, hs', -, -, -, -, hrem⟩ := exists_turn hfit hM c
      obtain ⟨hlen, rfl⟩ := hturn.counted hrun hs'
      by_cases hloc : loc = (s.w.remoteToken c + i) % g.numLocalities
      · subst hloc
        exact hlen
      · have hsame : waiting cont' c loc (numRemoteList g.arch) =
            waiting cont c loc (numRemoteList g.arch) := by
          unfold waiting
          simp only [hrem, true_and, if_neg hloc]
        rw [← hsame]
        exact ih hM' hT

end Proofs

/-- **Localities are drained in turn, and none is left out**, in every state that is reached, iff the
objects that wait at a locality are no more than an `int` counts. -/
theorem turns_iff (hfit : CountFits g) (h : (memLts g).Reach (Ok g) s) (c : ℕ) :
    Turns g c g.numLocalities s ↔ Counted s.w c := by
  obtain ⟨cont, hM⟩ := exists_memInv_of_reach hfit h
  rw [hM.inv.counted_iff]
  constructor
  · exact fun hT loc => counted_of_turns hfit hM hT loc
  · exact fun hlen => turns_of_counted hfit le_rfl hM hlen fun i h h' => by omega

/-! ## Objects that wait -/

/-- What waits for the home core in that run. -/
theorem Pending.waits_iff {m : ℕ} (hP : Pending g m s) {o : Obj} :
    Waits s.w 0 (g.locality 1) o ↔ o ∈ (List.range m).map (g.obj 0) := by
  have hmem := hP.chain.reaches_iff (n := o)
  rw [List.mem_reverse] at hmem
  constructor
  · rintro ⟨k, hk⟩
    by_cases he : (0, g.locality 1, k) = remoteKey g 1 0
    · change Reaches _ _ _ at hk
      rw [he] at hk
      exact hmem.mp hk
    · change Reaches _ _ _ at hk
      rw [hP.others _ he] at hk
      cases hk
  · exact fun ho => ⟨_, hmem.mpr ho⟩

/-- All objects of a page have been freed by another core. -/
theorem turns_page : ∃ s, (memLts page).Reach (Ok page) s ∧
    Waits s.w 0 (page.locality 1) (page.obj 0 0) ∧ Turns page 0 page.numLocalities s := by
  have hfit : CountFits page := .inl (by decide)
  obtain ⟨s, hs, hP⟩ := exists_pending (m := page.nobjs) hfit (by decide) le_rfl
  refine ⟨s, hs, hP.waits_iff.mpr (List.mem_map_of_mem (List.mem_range.mpr (by decide))), ?_⟩
  refine (turns_iff hfit hs 0).mpr fun loc l hnd hl => ?_
  have hsub : l ⊆ (List.range page.nobjs).map (page.obj 0) := by
    intro o ho
    obtain ⟨k, hk⟩ := hl o ho
    by_cases he : loc = page.locality 1
    · exact hP.waits_iff.mp (he ▸ ⟨k, hk⟩)
    · have hne : (0, loc, k) ≠ remoteKey page 1 0 := fun h => he (congrArg (fun k => k.2.1) h)
      change Reaches _ _ _ at hk
      rw [hP.others _ hne] at hk
      cases hk
  have hle := (List.subperm_of_subset hnd hsub).length_le
  rw [List.length_map, List.length_range] at hle
  exact hle.trans_lt (by decide)

/-- Slabs of as many objects as an `int` does not count.
Source: `ps_slab.h`, `PS_SLAB_CREATE_AFNS`; `ps_config.h` -/
def huge : Geom where
  arch := .x86_64
  objSz := 8
  allocsz := 32 * 2 ^ 31
  headoff := 0
  numCores := 4
  numLocalities := 1
  locality := fun _ => 0
  remoteBatch := 64
  qlistBatch := 128
  objSz_le := wide.objSz_le
  allocsz_lt := by decide
  fits := by decide
  locality_lt := fun _ => Nat.one_pos
  qlistBatch_pos := Nat.succ_pos _

/-- Another core frees all objects of a slab of `2 ^ 31`, and the count of those that are to come back
overflows. -/
theorem not_turns_huge : ¬ ∀ s, (memLts huge).Reach (Ok huge) s → ∀ c < huge.numCores,
    Turns huge c huge.numLocalities s := by
  intro hall
  have hfit : CountFits huge := .inl (by decide)
  obtain ⟨s, hs, hP⟩ := exists_pending (m := huge.nobjs) hfit (by decide) le_rfl
  have hcnt := (turns_iff hfit hs 0).mp (hall s hs 0 (by decide)) (huge.locality 1)
    ((List.range huge.nobjs).map (huge.obj 0)) ?_ fun o ho => hP.waits_iff.mpr ho
  · rw [List.length_map, List.length_range] at hcnt
    exact absurd hcnt (by decide)
  · exact List.nodup_range.map_on fun i _ j _ h => (obj_inj h).2

end Parsec.Slab
