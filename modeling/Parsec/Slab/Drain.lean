import Parsec.Slab.Free

/-!
# Draining the lists of remotely freed objects

A core takes a whole list (`inv_takeRemote`), and then its objects one by one (`inv_takeDrain`), each
of which it holds while it frees it. `drain_spec` is the induction on the list;
`memRemoteProcess_spec` is the call, which returns unless the `int` overflows in which the objects of
a locality are counted (`Counted`).
-/

namespace Parsec.Slab

open Function Lib

variable {ε ι : Type} {g : Geom} {f : Fns ε ι} {A : World ε → ℕ → ι → Prop} {K : World ε → Prop}
  {P : ℕ → Prop} {w w' : World ε}
  {hd : ℕ → Option Obj} {H : Set Obj} {cont : Key → List Obj} {o : Obj} {c : ℕ}

/-- An object waits for core `c` on a list of a locality. -/
def Waits (w : World ε) (c loc : ℕ) (o : Obj) : Prop :=
  ∃ k, Reaches w.next (w.remoteFrees (c, loc, k)) o

/-- The objects that wait at a locality are no more than an `int` counts. -/
def Counted (w : World ε) (c : ℕ) : Prop :=
  ∀ loc (l : List Obj), l.Nodup → (∀ o ∈ l, Waits w c loc o) → l.length < 2 ^ 31

/-- The first object left to drain is held. -/
theorem inv_takeDrain (hI : Inv g w P hd H cont) {l : List Obj} (hc : cont (.drain c) = o :: l) :
    Inv g { w with next := update w.next o none } P (update hd c (w.next o)) (insert o H)
      (update cont (.drain c) l) := by
  have hw : SameSlabs w { w with next := update w.next o none } :=
    ⟨⟨rfl, rfl, rfl, rfl, rfl⟩, rfl, rfl, rfl⟩
  obtain ⟨s, hs, -, ht⟩ := hI.members.listed (.drain c) o (hc ▸ List.mem_cons_self)
  constructor
  · have hh : heads g { w with next := update w.next o none } (update hd c (w.next o)) =
        update (heads g w hd) (.drain c) (w.next o) := heads_drain c _
    rw [hh]
    exact hI.chains.pop hc none
  · exact hw.slabs_of hI.slabs
  · constructor
    · intro s' hs'
      rw [update_of_ne (by simp)]
      exact hI.freelists.nfree s' hs'
    · exact hI.freelists.lt
    · exact hI.freelists.lists
    · exact hI.freelists.single
  · apply hI.members.take hI.chains hw hc (fun _ _ => rfl)
    · intro a hne
      exact update_of_ne hne ..
    · exact ⟨⟨s, hw.inSlab.mpr hs⟩, ht, update_self ..⟩
  · refine hI.counters.congr rfl rfl rfl rfl rfl le_rfl (fun c' => ?_) fun k => ?_
    · rw [update_of_ne (by simp)]
    · rw [update_of_ne (by simp)]

/-- A core takes a whole list of remotely freed objects, when it has nothing left to drain. -/
theorem inv_takeRemote (hI : Inv g w P hd H cont) (hc : cont (.drain c) = []) {k : ℕ × ℕ}
    {w' : World ε} (hw' : w' = { w with remoteFrees := update w.remoteFrees (c, k) none }) :
    Inv g w' P (update hd c (w.remoteFrees (c, k))) H
      (update (update cont (.remote (c, k)) []) (.drain c) (cont (.remote (c, k)))) := by
  have hw : SameSlabs w w' := by
    subst hw'
    exact ⟨⟨rfl, rfl, rfl, rfl, rfl⟩, rfl, rfl, rfl⟩
  have hcont : ∀ k' o, o ∈ update (update cont (.remote (c, k)) []) (.drain c)
      (cont (.remote (c, k))) k' →
      (k' = .drain c ∧ o ∈ cont (.remote (c, k))) ∨ (k' ≠ .drain c ∧ o ∈ cont k') := by
    intro k' o ho
    by_cases hk : k' = .drain c
    · subst hk
      rw [update_self] at ho
      exact .inl ⟨rfl, ho⟩
    · rw [update_of_ne hk] at ho
      by_cases hr : k' = .remote (c, k)
      · subst hr
        rw [update_self] at ho
        cases ho
      · rw [update_of_ne hr] at ho
        exact .inr ⟨hk, ho⟩
  constructor
  · have hh : heads g w' (update hd c (w.remoteFrees (c, k))) =
        update (update (heads g w hd) (.remote (c, k)) none) (.drain c)
          (heads g w hd (.remote (c, k))) := by
      rw [heads_drain]
      subst hw'
      congr 1
      exact heads_remote rfl rfl rfl rfl
    have hx : w'.next = w.next := by rw [hw']
    rw [hh, hx]
    exact hI.chains.move hc (by simp)
  · exact hw.slabs_of hI.slabs
  · subst hw'
    constructor
    · intro s' hs'
      rw [update_of_ne (by simp), update_of_ne (by simp)]
      exact hI.freelists.nfree s' hs'
    · exact hI.freelists.lt
    · exact hI.freelists.lists
    · exact hI.freelists.single
  · have ht : w'.tscFree = w.tscFree := by rw [hw']
    have hx : w'.next = w.next := by rw [hw']
    constructor
    · intro k' o ho
      rcases hcont k' o ho with ⟨rfl, hr⟩ | ⟨-, hr⟩
      · obtain ⟨s, hs, hcore, hts, -⟩ := hI.members.listed _ o hr
        refine ⟨s, hw.inSlab.mpr hs, ?_⟩
        rw [hw.coreid, ht]
        exact ⟨hcore, hts⟩
      · exact hw.listed (by rw [ht]) (hI.members.listed k' o hr)
    · intro o ho
      exact hw.held (by rw [ht]) (by rw [hx]) (hI.members.held o ho)
    · intro o ho k' hk
      rcases hcont k' o hk with ⟨-, hk⟩ | ⟨-, hk⟩
      · exact hI.members.off o ho _ hk
      · exact hI.members.off o ho _ hk
    · intro s o ho
      rcases hI.members.total s o (hw.inSlab.mp ho) with hH | ⟨k', hk⟩
      · exact .inl hH
      · right
        by_cases hr : k' = .remote (c, k)
        · subst hr
          exact ⟨.drain c, by rwa [update_self]⟩
        · refine ⟨k', ?_⟩
          rw [update_of_ne, update_of_ne hr]
          · exact hk
          · rintro rfl
            rw [hc] at hk
            cases hk
  · refine hI.counters.congr (by rw [hw']) (by rw [hw']) (by rw [hw']) (by rw [hw']) (by rw [hw'])
      (by rw [hw']) (fun c' => ?_) fun k' => ?_
    · rw [update_of_ne (by simp), update_of_ne (by simp)]
    · rw [update_of_ne (by simp)]
      by_cases hk : k' = (c, k)
      · subst hk
        rw [update_self]
        exact Nat.zero_le _
      · rw [update_of_ne (by simp [hk])]

/-- What is in a slab after objects have been returned was in it before. -/
theorem Returned.inSlab {cont' : Key → List Obj} {l : List Obj} {s : ℕ}
    (h : Returned g w w' cont cont' l) (hs : InSlab g w' s o) : InSlab g w s o := by
  obtain ⟨hs, b, i, hb, hi, ho⟩ := hs
  exact ⟨h.sub s hs, b, i, (h.memory s hs).symm.trans hb, hi, ho⟩

/-- Returning nothing changes nothing. -/
theorem Returned.refl : Returned g w w cont cont [] :=
  ⟨fun _ h => h, fun _ _ => rfl, fun _ _ => .refl _, fun s h h' => by rw [h] at h'; cases h'⟩

/-- Lists come back one after the other. What comes back later is of slabs that are still there. -/
theorem Returned.trans {w₁ : World ε} {cont₁ cont' : Key → List Obj} {l l' : List Obj}
    (h : Returned g w w₁ cont cont₁ l) (h' : Returned g w₁ w' cont₁ cont' l')
    (hl : ∀ o ∈ l', ∃ s, w₁.slabs s = true ∧ w₁.slab o = some s ∧ w.slab o = some s) :
    Returned g w w' cont cont' (l ++ l') := by
  have hof : ∀ s, ofSlab w₁ s l' = ofSlab w s l' := fun s => List.filter_congr fun o ho => by
    obtain ⟨s', -, h₁, h₂⟩ := hl o ho
    rw [h₁, h₂]
  have hperm : ∀ s, w₁.slabs s = true →
      (ofSlab w₁ s l' ++ cont₁ (.free s)).Perm (ofSlab w s (l ++ l') ++ cont (.free s)) := by
    intro s hs
    rw [hof, ofSlab_append]
    refine ((h.free s hs).append_left _).trans ?_
    rw [← List.append_assoc]
    exact List.perm_append_comm.append_right _
  constructor
  · exact fun s hs => h.sub s (h'.sub s hs)
  · exact fun s hs => (h'.memory s hs).trans (h.memory s (h'.sub s hs))
  · exact fun s hs => (h'.free s hs).trans (hperm s (h'.sub s hs))
  · intro s hs hs'
    cases h₁ : w₁.slabs s with
    | true =>
        obtain ⟨b, hb, hall⟩ := h'.full s h₁ hs'
        exact ⟨b, (h.memory s h₁).symm.trans hb, (hperm s h₁).symm.trans hall⟩
    | false =>
        -- nothing of a slab that has been released comes back later
        have hnil : ofSlab w s l' = [] := List.filter_eq_nil_iff.mpr fun o ho => by
          obtain ⟨s', hs₁, -, hw⟩ := hl o ho
          rw [hw]
          simp only [Option.some.injEq, decide_eq_true_eq]
          rintro rfl
          rw [h₁] at hs₁
          cases hs₁
        rw [ofSlab_append, hnil, List.append_nil]
        exact h.full s hs h₁

/-- Draining a list frees all its objects, and returns if there are no more than are counted. -/
theorem drain_spec (hB : Backing g f A K) (hfit : CountFits g) {l : List Obj} {k : ℕ}
    (hk : l.length ≤ k) (hI : Inv g w P hd H cont) (hK : K w) (hl : cont (.drain c) = l) (ret : ℕ) :
    ∃ w' cont', (ret < 2 ^ 31 → drain g f c k w (hd c) ret =
        if ret + l.length < 2 ^ 31 then some (w', ret + l.length) else none) ∧
      Inv g w' P (update hd c none) H cont' ∧ K w' ∧ Kept w w' cont cont' ∧
      Returned g w w' cont cont' l ∧ ∀ k, cont' (.remote k) = cont (.remote k) := by
  induction l generalizing k w hd cont ret with
  | nil =>
      have hc' := hI.chains.chain (.drain c)
      rw [hl] at hc'
      have hnone : hd c = none := hc'
      have hself : update hd c none = hd := update_eq_self_iff.mpr hnone.symm
      rw [hnone, hself]
      refine ⟨w, cont, fun hret => ?_, hI, hK, .refl, .refl, fun _ => rfl⟩
      have hlt : ret + ([] : List Obj).length < 2 ^ 31 := hret
      rw [if_pos hlt]
      cases k <;> rfl
  | cons o l ih =>
      obtain ⟨k, rfl⟩ : ∃ k', k = k' + 1 := ⟨k - 1, by simp at hk; omega⟩
      have hc' := hI.chains.chain (.drain c)
      rw [hl] at hc'
      have hsome : hd c = some o := hc'.1
      have ho : o ∈ cont (.drain c) := hl ▸ List.mem_cons_self
      obtain ⟨s, hs, hcore, -⟩ := hI.members.listed _ o ho
      have hoH : o ∉ H := fun h => hI.members.off o h _ ho
      have hI₁ := inv_takeDrain hI hl
      have hK₁ : K { w with next := update w.next o none } := by
        have hw : SameEnv w { w with next := update w.next o none } := ⟨rfl, rfl, rfl, rfl, rfl⟩
        exact hB.congr hw hK
      obtain ⟨w₂, fl, hrun, hI₂, hK₂, hkept, hret⟩ :=
        memFree_home hB hfit hI₁ hK₁ (Set.mem_insert o H) hs
      have hrun : memFree g f { w with next := update w.next o none } o c = some w₂ := hcore ▸ hrun
      have hH : insert o H \ {o} = H := Set.insert_sdiff_self_of_notMem hoH
      rw [hH] at hI₂
      have hl₂ : update (update cont (.drain c) l) (.free s) fl (.drain c) = l := by
        rw [update_of_ne (by simp), update_self]
      obtain ⟨w', cont', hrun', hI', hK', hkept', hret', hrem⟩ :=
        ih (by simpa using hk) hI₂ hK₂ hl₂ (ret + 1)
      rw [update_self] at hrun'
      rw [update_idem] at hI'
      have hret₁ : Returned g w w₂ cont (update (update cont (.drain c) l) (.free s) fl) [o] := by
        have hfree : ∀ s, update cont (.drain c) l (.free s) = cont (.free s) := fun s =>
          update_of_ne (by simp) ..
        refine ⟨hret.sub, hret.memory, fun s' h => ?_, fun s' h h' => ?_⟩
        · have := hret.free s' h
          rwa [hfree] at this
        · have := hret.full s' h h'
          rwa [hfree] at this
      refine ⟨w', cont', fun _ => ?_, hI', hK', ?_, ?_, fun k => ?_⟩
      · have hlen : ret + (o :: l).length = ret + 1 + l.length := by
          rw [List.length_cons]
          omega
        rw [hsome, hlen]
        simp only [drain, hrun, Option.bind_eq_bind, Option.bind_some]
        by_cases h1 : ret + 1 < 2 ^ 31
        · rw [if_pos h1, hrun' h1]
        · rw [if_neg h1, if_neg (by omega)]
      · have hkept₁ : Kept w { w with next := update w.next o none } cont
            (update cont (.drain c) l) :=
          ⟨⟨fun c => update_of_ne (by simp) .., fun _ _ _ => rfl, rfl, rfl, rfl⟩, rfl⟩
        exact (hkept₁.trans hkept).trans hkept'
      · refine hret₁.trans hret' fun a ha => ?_
        obtain ⟨s', hs', -⟩ := hI₂.members.listed (.drain c) a (hl₂.symm ▸ ha)
        exact ⟨s', hs'.1, hI₂.slabs.slab s' a hs', hI.slabs.slab s' a (hret₁.inSlab hs')⟩
      · rw [hrem, update_of_ne (by simp), update_of_ne (by simp)]

/-- At the boundary of a call, no core has anything left to drain. -/
theorem Inv.drain_nil (hI : Inv g w P (fun _ => none) H cont) (c : ℕ) : cont (.drain c) = [] := by
  have hc := hI.chains.chain (.drain c)
  exact chain_none_iff.mp hc

/-- The objects on the first `k` lists of a core and a locality. -/
def waiting (cont : Key → List Obj) (c loc k : ℕ) : List Obj :=
  (List.range k).flatMap fun i => cont (.remote (c, loc, i))

/-- Nothing waits on no lists. -/
theorem waiting_zero (loc : ℕ) : waiting cont c loc 0 = [] := rfl

/-- What waits on one list more. -/
theorem waiting_succ (loc k : ℕ) :
    waiting cont c loc (k + 1) = waiting cont c loc k ++ cont (.remote (c, loc, k)) := by
  simp [waiting, List.range_succ]

/-- The lists of a locality are drained one after the other, and the objects counted. -/
theorem clearLoop_spec (hB : Backing g f A K) (hfit : CountFits g)
    (hI : Inv g w P (fun _ => none) H cont) (hK : K w) (loc k : ℕ) :
    ∃ w' cont', (clearLoop g f c loc k w = if (waiting cont c loc k).length < 2 ^ 31 then
        some (w', (waiting cont c loc k).length) else none) ∧
      Inv g w' P (fun _ => none) H cont' ∧ K w' ∧ Kept w w' cont cont' ∧
      Returned g w w' cont cont' (waiting cont c loc k) ∧ ∀ j, cont' (.remote j) =
        if j.1 = c ∧ j.2.1 = loc ∧ j.2.2 < k then [] else cont (.remote j) := by
  induction k with
  | zero =>
      have hrun : clearLoop g f c loc 0 w = some (w, 0) := rfl
      exact ⟨w, cont, by rw [hrun, waiting_zero]; rfl, hI, hK, .refl, .refl,
        fun j => (if_neg (by omega)).symm⟩
  | succ i ih =>
      obtain ⟨w₁, cont₁, hrun, hI₁, hK₁, hkept, hret, hrem⟩ := ih
      obtain ⟨w₂, hw₂⟩ : ∃ w₂ : World ε, w₂ = { w₁ with
        remoteFrees := update w₁.remoteFrees (c, loc, i) none } := ⟨_, rfl⟩
      have hI₂ := inv_takeRemote hI₁ (hI₁.drain_nil c) hw₂
      have hK₂ : K w₂ := by
        have hw : SameEnv w₁ w₂ := by
          subst hw₂
          exact ⟨rfl, rfl, rfl, rfl, rfl⟩
        exact hB.congr hw hK₁
      have hpushed : w₁.pushed = w₂.pushed := by rw [hw₂]
      have hlen : (cont₁ (.remote (c, loc, i))).length ≤ w₂.pushed :=
        hpushed ▸ hI₁.counters.pushed _
      have hlist : cont₁ (.remote (c, loc, i)) = cont (.remote (c, loc, i)) := by
        rw [hrem, if_neg (by simp)]
      obtain ⟨w', cont', hrun', hI', hK', hkept', hret', hrem'⟩ :=
        drain_spec hB hfit hlen hI₂ hK₂ (update_self ..) (waiting cont c loc i).length
      have hnone : update (update (fun _ : ℕ => (none : Option Obj)) c
          (w₁.remoteFrees (c, loc, i))) c none = fun _ => none := by
        rw [update_idem]
        exact update_eq_self_iff.mpr rfl
      rw [hnone] at hI'
      rw [update_self] at hrun'
      refine ⟨w', cont', ?_, hI', hK', ?_, ?_, fun j => ?_⟩
      · have hlen₁ : (waiting cont c loc (i + 1)).length =
            (waiting cont c loc i).length + (cont₁ (.remote (c, loc, i))).length := by
          rw [waiting_succ, List.length_append, hlist]
        unfold clearLoop
        rw [hrun, hlen₁]
        by_cases hlt : (waiting cont c loc i).length < 2 ^ 31
        · simp only [if_pos hlt, Option.bind_eq_bind, Option.bind_some]
          rw [← hw₂, hpushed, hrun' hlt]
        · rw [if_neg hlt, if_neg (by omega)]
          rfl
      · have hkept₁ : Kept w₁ w₂ cont₁ (update (update cont₁ (.remote (c, loc, i))
            []) (.drain c) (cont₁ (.remote (c, loc, i)))) := by
          subst hw₂
          refine ⟨⟨fun c' => ?_, fun _ _ _ => rfl, rfl, rfl, rfl⟩, rfl⟩
          rw [update_of_ne (by simp), update_of_ne (by simp)]
        exact (hkept.trans hkept₁).trans hkept'
      · have hret₂ : Returned g w₁ w' cont₁ cont' (cont (.remote (c, loc, i))) := by
          have hfree : ∀ s, update (update cont₁ (.remote (c, loc, i)) []) (.drain c)
              (cont₁ (.remote (c, loc, i))) (.free s) = cont₁ (.free s) := fun s => by
            rw [update_of_ne (by simp), update_of_ne (by simp)]
          rw [hlist] at hret' hfree
          subst hw₂
          refine ⟨hret'.sub, hret'.memory, fun s' h => ?_, fun s' h h' => ?_⟩
          · have := hret'.free s' h
            rwa [hfree] at this
          · have := hret'.full s' h h'
            rwa [hfree] at this
        rw [waiting_succ]
        refine hret.trans hret₂ fun a ha => ?_
        obtain ⟨s', hs', -⟩ := hI₁.members.listed _ a (hlist.symm ▸ ha)
        exact ⟨s', hs'.1, hI₁.slabs.slab s' a hs', hI.slabs.slab s' a (hret.inSlab hs')⟩
      · rw [hrem', update_of_ne (by simp)]
        by_cases hj : j = (c, loc, i)
        · subst hj
          rw [update_self, if_pos (by simp)]
        · rw [update_of_ne (by simpa using hj), hrem]
          refine if_congr ?_ rfl rfl
          have hne : j.1 = c ∧ j.2.1 = loc → j.2.2 ≠ i := by
            rintro ⟨rfl, rfl⟩ rfl
            exact hj rfl
          omega

/-- The objects that wait at the locality `i` past the token of a core. -/
def waitingAt (g : Geom) (w : World ε) (cont : Key → List Obj) (c i : ℕ) : List Obj :=
  waiting cont c ((w.remoteToken c + i) % g.numLocalities) (numRemoteList g.arch)

/-- A list of remotely freed objects that is not empty is one of those of a locality. -/
theorem Inv.remote_lt {i j k : ℕ} (hI : Inv g w P hd H cont) (ho : o ∈ cont (.remote (i, j, k))) :
    j < g.numLocalities ∧ k < numRemoteList g.arch := by
  obtain ⟨_, -, -, -, c, -, -, -, hk⟩ := hI.members.listed _ o ho
  obtain ⟨-, rfl, rfl⟩ : i = i ∧ j = g.locality c ∧ k = c % numRemoteList g.arch := by
    simpa [remoteKey] using hk
  refine ⟨g.locality_lt c, Nat.mod_lt _ ?_⟩
  unfold numRemoteList psWord
  cases g.arch <;> decide

/-- What waits at a locality is on one of its lists. -/
theorem Inv.mem_waiting {loc : ℕ} (hI : Inv g w P hd H cont) :
    o ∈ waiting cont c loc (numRemoteList g.arch) ↔ ∃ k, o ∈ cont (.remote (c, loc, k)) := by
  unfold waiting
  rw [List.mem_flatMap]
  constructor
  · rintro ⟨k, -, ho⟩
    exact ⟨k, ho⟩
  · rintro ⟨k, ho⟩
    exact ⟨k, List.mem_range.mpr (hI.remote_lt ho).2, ho⟩

/-- No object waits twice. -/
theorem Inv.waiting_nodup {loc k : ℕ} (hI : Inv g w P hd H cont) :
    (waiting cont c loc k).Nodup := by
  refine List.nodup_flatMap.mpr ⟨fun i _ => hI.chains.nodup _, ?_⟩
  refine List.nodup_range.pairwise_of_forall_ne fun i _ i' _ hne o ho ho' => hne ?_
  have he := hI.chains.disjoint ho ho'
  simpa using he

/-- What waits for a core at a locality, by what is on the lists. -/
theorem Inv.waits_iff {loc : ℕ} (hI : Inv g w P hd H cont) :
    Waits w c loc o ↔ o ∈ waiting cont c loc (numRemoteList g.arch) := by
  rw [hI.mem_waiting]
  refine exists_congr fun k => ?_
  have hch : Chain w.next (w.remoteFrees (c, loc, k)) (cont (.remote (c, loc, k))) :=
    hI.chains.chain (.remote (c, loc, k))
  exact hch.reaches_iff

/-- An `int` counts what waits for a core, at each locality. -/
theorem Inv.counted_iff (hI : Inv g w P hd H cont) :
    Counted w c ↔ ∀ loc, (waiting cont c loc (numRemoteList g.arch)).length < 2 ^ 31 := by
  constructor
  · exact fun h loc => h loc _ hI.waiting_nodup fun o ho => hI.waits_iff.mpr ho
  · intro h loc l hnd hl
    have hsub : l ⊆ waiting cont c loc (numRemoteList g.arch) := fun o ho =>
      hI.waits_iff.mp (hl o ho)
    exact (List.subperm_of_subset hnd hsub).length_le.trans_lt (h loc)

/-- Few objects wait, where few have been pushed. -/
theorem Inv.counted_of_pushed (hI : Inv g w P hd H cont)
    (h : numRemoteList g.arch * w.pushed < 2 ^ 31) : Counted w c := by
  have hle : ∀ loc k, (waiting cont c loc k).length ≤ k * w.pushed := by
    intro loc k
    induction k with
    | zero => simp [waiting_zero]
    | succ k ih =>
        have hlist := hI.counters.pushed (c, loc, k)
        rw [waiting_succ, List.length_append, Nat.succ_mul]
        exact Nat.add_le_add ih hlist
  exact hI.counted_iff.mpr fun loc => (hle loc _).trans_lt h

/-- One locality is drained. -/
theorem memRemoteClear_spec (hB : Backing g f A K) (hfit : CountFits g)
    (hI : Inv g w P (fun _ => none) H cont) (hK : K w) (loc : ℕ) :
    ∃ w' cont', (memRemoteClear g f w c loc =
        if (waiting cont c loc (numRemoteList g.arch)).length < 2 ^ 31 then
          some (w', (waiting cont c loc (numRemoteList g.arch)).length) else none) ∧
      Inv g w' P (fun _ => none) H cont' ∧ K w' ∧ Kept w w' cont cont' ∧
      Returned g w w' cont cont' (waiting cont c loc (numRemoteList g.arch)) ∧
      ∀ j, cont' (.remote j) = if j.1 = c ∧ j.2.1 = loc then [] else cont (.remote j) := by
  obtain ⟨w', cont', hrun, hI', hK', hkept, hret, hrem⟩ :=
    clearLoop_spec hB hfit hI hK loc (numRemoteList g.arch)
  refine ⟨w', cont', hrun, hI', hK', hkept, hret, fun ⟨c', loc', k⟩ => ?_⟩
  rw [hrem]
  by_cases hj : c' = c ∧ loc' = loc
  · rw [if_pos hj]
    by_cases hk : k < numRemoteList g.arch
    · rw [if_pos ⟨hj.1, hj.2, hk⟩]
    · rw [if_neg fun h => hk h.2.2]
      exact List.eq_nil_iff_forall_not_mem.mpr fun o ho => hk (hI.remote_lt ho).2
  · rw [if_neg hj, if_neg fun h => hj ⟨h.1, h.2.1⟩]

/-- Fewer steps than there are localities do not lead back. -/
theorem add_mod_ne {t n d : ℕ} (ht : t < n) (hd : 0 < d) (hdn : d < n) : (t + d) % n ≠ t := by
  rcases lt_or_ge (t + d) n with h | h
  · rw [Nat.mod_eq_of_lt h]
    omega
  · rw [Nat.mod_eq_sub_mod h, Nat.mod_eq_of_lt (by omega)]
    omega

/-- From its token on, a core visits each locality at most once, until one of them has something, of
which it frees no more than are counted. -/
theorem processLoop_spec (hB : Backing g f A K) (hfit : CountFits g)
    (hI : Inv g w P (fun _ => none) H cont) (hK : K w) {loc j k : ℕ} (hk : 0 < k)
    (hj : j + k = g.numLocalities) (hloc : loc = (w.remoteToken c + j) % g.numLocalities) :
    ∃ i w' cont', j ≤ i ∧ i < g.numLocalities ∧
      (processLoop g f c k w loc = if (waitingAt g w cont c i).length < 2 ^ 31 then
        some (w', (w.remoteToken c + (i + 1)) % g.numLocalities) else none) ∧
      (∀ i', j ≤ i' → i' < i → waitingAt g w cont c i' = []) ∧
      (waitingAt g w cont c i ≠ [] ∨ i + 1 = g.numLocalities) ∧
      Inv g w' P (fun _ => none) H cont' ∧ K w' ∧ Kept w w' cont cont' ∧
      Returned g w w' cont cont' (waitingAt g w cont c i) ∧ ∀ key, cont' (.remote key) =
        if key.1 = c ∧ key.2.1 = (w.remoteToken c + i) % g.numLocalities then []
        else cont (.remote key) := by
  have hpos : 0 < g.numLocalities := by omega
  induction k generalizing w cont loc j with
  | zero => omega
  | succ k ih =>
      obtain ⟨w₁, cont₁, hrun, hI₁, hK₁, hkept, hret, hrem⟩ :=
        memRemoteClear_spec (c := c) hB hfit hI hK loc
      have hat : waiting cont c loc (numRemoteList g.arch) = waitingAt g w cont c j := by
        rw [hloc]
        rfl
      have hnext : (loc + 1) % g.numLocalities =
          (w.remoteToken c + (j + 1)) % g.numLocalities := by
        rw [hloc, Nat.mod_add_mod, Nat.add_assoc]
      rw [hat] at hrun hret
      rw [hloc] at hrem
      by_cases hgo : (waitingAt g w cont c j).length = 0 ∧
          (loc + 1) % g.numLocalities ≠ w₁.remoteToken c
      · have hk0 : 0 < k := by
          rcases Nat.eq_zero_or_pos k with rfl | hk0
          · have htok := hI.counters.token c
            have hj' : j + 1 = g.numLocalities := hj
            rw [hnext, hj', Nat.add_mod_right, Nat.mod_eq_of_lt htok, hkept.remoteToken] at hgo
            exact absurd rfl hgo.2
          · exact hk0
        have hnil : waitingAt g w cont c j = [] := List.eq_nil_of_length_eq_zero hgo.1
        -- nothing was there, and all lists are as they were
        have hsame : ∀ key, cont₁ (.remote key) = cont (.remote key) := by
          rintro ⟨c', loc', k'⟩
          rw [hrem]
          by_cases hkey : c' = c ∧ loc' = (w.remoteToken c + j) % g.numLocalities
          · obtain ⟨rfl, rfl⟩ := hkey
            rw [if_pos ⟨rfl, rfl⟩]
            symm
            refine List.eq_nil_iff_forall_not_mem.mpr fun o ho => ?_
            have hm : o ∈ waitingAt g w cont c' j := hI.mem_waiting.mpr ⟨k', ho⟩
            rw [hnil] at hm
            cases hm
          · rw [if_neg hkey]
        have hwait : ∀ i, waitingAt g w₁ cont₁ c i = waitingAt g w cont c i := by
          intro i
          unfold waitingAt waiting
          rw [hkept.remoteToken]
          exact List.flatMap_congr fun i _ => hsame _
        obtain ⟨i, w', cont', hji, hi, hrun', hbefore, hlast, hI', hK', hkept', hret', hrem'⟩ :=
          ih (j := j + 1) hI₁ hK₁ hk0 (by omega) (hnext.trans (by rw [hkept.remoteToken]))
        rw [hkept.remoteToken] at hrun' hrem'
        rw [hwait] at hrun'
        simp only [hwait] at hbefore hlast hret'
        refine ⟨i, w', cont', by omega, hi, ?_, fun i' h h' => ?_, hlast, hI', hK',
          hkept.trans hkept', ?_, fun key => ?_⟩
        · rw [hgo.1, if_pos (Nat.two_pow_pos 31)] at hrun
          simp only [processLoop, hrun, Option.bind_eq_bind, Option.bind_some, true_and, if_pos hgo.2]
          exact hrun'
        · rcases Nat.eq_or_lt_of_le h with rfl | h
          · exact hnil
          · exact hbefore i' h h'
        · rw [hnil] at hret
          refine hret.trans hret' fun a ha => ?_
          obtain ⟨i, -, ha⟩ := List.mem_flatMap.mp ha
          obtain ⟨s', hs', -⟩ := hI₁.members.listed _ a ((hsame _).symm ▸ ha)
          exact ⟨s', hs'.1, hI₁.slabs.slab s' a hs', hI.slabs.slab s' a (hret.inSlab hs')⟩
        · rw [hrem', hsame]
      · refine ⟨j, w₁, cont₁, le_rfl, by omega, ?_, fun i' h h' => by omega, ?_, hI₁, hK₁, hkept,
          hret, hrem⟩
        · unfold processLoop
          rw [hrun]
          split_ifs
          · simp only [Option.bind_eq_bind, Option.bind_some, if_neg hgo]
            rw [hnext]
          · rfl
        · rw [hkept.remoteToken] at hgo
          by_cases hz : (waitingAt g w cont c j).length = 0
          · right
            have htok := hI.counters.token c
            by_contra hne
            have hlt : j + 1 < g.numLocalities := by omega
            refine hgo ⟨hz, fun he => ?_⟩
            rw [hnext] at he
            exact add_mod_ne htok (Nat.succ_pos j) hlt he
          · exact .inl fun h => hz (by rw [h]; rfl)

/-- A core frees what others have freed for it, at the first locality from its token on where there
is something. -/
theorem memRemoteProcess_first (hB : Backing g f A K) (hfit : CountFits g)
    (hI : Inv g w P (fun _ => none) H cont) (hK : K w) :
    ∃ i w' cont', i < g.numLocalities ∧ (memRemoteProcess g f w c =
        if (waitingAt g w cont c i).length < 2 ^ 31 then some w' else none) ∧
      w'.remoteToken c = (w.remoteToken c + (i + 1)) % g.numLocalities ∧
      (∀ i' < i, waitingAt g w cont c i' = []) ∧
      (waitingAt g w cont c i ≠ [] ∨ i + 1 = g.numLocalities) ∧
      Inv g w' P (fun _ => none) H cont' ∧ K w' ∧ SameQueues w w' cont cont' ∧
      Returned g w w' cont cont' (waitingAt g w cont c i) ∧ ∀ key, cont' (.remote key) =
        if key.1 = c ∧ key.2.1 = (w.remoteToken c + i) % g.numLocalities then []
        else cont (.remote key) := by
  have htok := hI.counters.token c
  have hpos : 0 < g.numLocalities := by omega
  obtain ⟨i, w₁, cont', -, hi, hrun, hbefore, hlast, hI₁, hK₁, hkept, hret, hrem⟩ :=
    processLoop_spec (c := c) hB hfit hI hK hpos (Nat.zero_add _)
      (by rw [Nat.add_zero, Nat.mod_eq_of_lt htok])
  obtain ⟨loc, hloc⟩ : ∃ loc, loc = (w.remoteToken c + (i + 1)) % g.numLocalities := ⟨_, rfl⟩
  have hlt : loc < g.numLocalities := hloc ▸ Nat.mod_lt _ hpos
  rw [← hloc] at hrun
  have hK' : K { w₁ with remoteToken := update w₁.remoteToken c loc } := by
    have hw : SameEnv w₁ { w₁ with remoteToken := update w₁.remoteToken c loc } :=
      ⟨rfl, rfl, rfl, rfl, rfl⟩
    exact hB.congr hw hK₁
  refine ⟨i, _, cont', hi, ?_, (update_self ..).trans hloc, fun i' h => hbefore i' (Nat.zero_le _) h,
    hlast, ?_, hK', ?_, ⟨hret.sub, hret.memory, hret.free, hret.full⟩, hrem⟩
  · unfold memRemoteProcess
    rw [hrun]
    split_ifs <;> rfl
  · refine hI₁.setToken (n := w₁.salloccnt) fun c' => ?_
    by_cases hcc : c' = c
    · rw [hcc, update_self]
      exact hlt
    · rw [update_of_ne hcc]
      exact hI₁.counters.token c'
  · exact ⟨hkept.queue, hkept.tscFree, hkept.qmemcnt, hkept.qmemtarget, hkept.ps⟩

/-- A core frees what others have freed for it, or the count overflows. -/
theorem memRemoteProcess_spec (hB : Backing g f A K) (hfit : CountFits g)
    (hI : Inv g w P (fun _ => none) H cont) (hK : K w) :
    ∃ w' cont', (memRemoteProcess g f w c = some w' ∨
        memRemoteProcess g f w c = none ∧ ¬ Counted w c) ∧
      Inv g w' P (fun _ => none) H cont' ∧ K w' ∧ SameQueues w w' cont cont' := by
  obtain ⟨i, w', cont', -, hrun, -, -, -, hI', hK', hq, -⟩ :=
    memRemoteProcess_first (c := c) hB hfit hI hK
  refine ⟨w', cont', ?_, hI', hK', hq⟩
  by_cases hlt : (waitingAt g w cont c i).length < 2 ^ 31
  · rw [if_pos hlt] at hrun
    exact .inl hrun
  · rw [if_neg hlt] at hrun
    exact .inr ⟨hrun, fun hC => hlt (hI.counted_iff.mp hC _)⟩

end Parsec.Slab
