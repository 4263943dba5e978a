import Parsec.Slab.Inv

/-!
# Frees keep the invariant

An object that is held is freed to the freelist of its slab (`inv_pushFree`), to a list of remotely
freed objects (`inv_memRemoteFree`), or with its whole slab (`inv_releaseSlab`); `memFree_spec` is
the call. A list of remotely freed objects is drained by induction on it (`drain_spec`), each of its
objects being held while it is freed; `memRemoteProcess_spec` is the call.

The calls do not fail: each of these says that the call returns.
-/

namespace Parsec.Slab

open Function Lib

/-! ## Where the lists start -/

section Heads

variable {ε : Type} {g : Geom} {w w' : World ε} {hd : ℕ → Option Obj}

/-- The heads of all lists, where none is written. -/
theorem heads_congr (hs : w'.slabs = w.slabs) (hf : w'.freelist = w.freelist)
    (hq : w'.qscHead = w.qscHead) (hr : w'.remoteFrees = w.remoteFrees) :
    heads g w' hd = heads g w hd := by
  funext k
  unfold heads
  rw [hs, hf, hq, hr]

/-- The heads of all lists, where that of a remote list is written. -/
theorem heads_remote {k : ℕ × ℕ × ℕ} {v : Option Obj} (hs : w'.slabs = w.slabs)
    (hf : w'.freelist = w.freelist) (hq : w'.qscHead = w.qscHead)
    (hr : w'.remoteFrees = update w.remoteFrees k v) :
    heads g w' hd = update (heads g w hd) (.remote k) v := by
  funext k'
  cases k' <;> simp [heads, hs, hf, hq, hr, update_apply]

/-- The heads of all lists, where that of a quiescence queue is written. -/
theorem heads_queue {c : ℕ} {v : Option Obj} (hs : w'.slabs = w.slabs)
    (hf : w'.freelist = w.freelist) (hq : w'.qscHead = update w.qscHead c v)
    (hr : w'.remoteFrees = w.remoteFrees) :
    heads g w' hd = update (heads g w hd) (.queue c) v := by
  funext k'
  cases k' <;> simp [heads, hs, hf, hq, hr, update_apply]

/-- The heads of all lists, where a list is drained. -/
theorem heads_drain (c : ℕ) (v : Option Obj) :
    heads g w (update hd c v) = update (heads g w hd) (.drain c) v := by
  funext k'
  cases k' <;> simp [heads, update_apply]

/-- The heads of all lists, where the freelist of a slab is written. -/
theorem heads_free {s : ℕ} {v : Option Obj} (hin : w.slabs s = true) (hn : 2 ≤ g.nobjs)
    (hs : w'.slabs = w.slabs) (hf : w'.freelist = update w.freelist s v)
    (hq : w'.qscHead = w.qscHead) (hr : w'.remoteFrees = w.remoteFrees) :
    heads g w' hd = update (heads g w hd) (.free s) v := by
  funext k'
  cases k' with
  | free s' =>
      by_cases he : s' = s
      · subst he
        simp [heads, hs, hf, hin, hn]
      · simp [heads, hs, hf, he]
  | _ => simp [heads, hq, hr]

/-- The heads of all lists, where a slab is released. -/
theorem heads_release {s : ℕ} {v : Option Obj} (hs : w'.slabs = update w.slabs s false)
    (hf : w'.freelist = update w.freelist s v) (hq : w'.qscHead = w.qscHead)
    (hr : w'.remoteFrees = w.remoteFrees) :
    heads g w' hd = update (heads g w hd) (.free s) none := by
  funext k'
  cases k' with
  | free s' =>
      by_cases he : s' = s
      · subst he
        simp [heads, hs]
      · simp [heads, hs, hf, he]
  | _ => simp [heads, hq, hr]

end Heads

/-! ## One free -/

section Free

variable {ε ι : Type} {g : Geom} {f : Fns ε ι} {A : World ε → ℕ → ι → Prop} {K : World ε → Prop}
  {P : ℕ → Prop} {w w' : World ε}
  {hd : ℕ → Option Obj} {H : Set Obj} {cont cont' : Key → List Obj} {o : Obj} {s c : ℕ}

/-- What is marked after a mark is taken away. -/
theorem update_false_iff {p : ℕ → Bool} {a s : ℕ} :
    update p s false a = true ↔ a ≠ s ∧ p a = true := by
  by_cases he : a = s
  · subst he
    simp
  · simp [he]

/-- What is marked after a mark is set. -/
theorem update_true_iff {p : ℕ → Bool} {a s : ℕ} :
    update p s true a = true ↔ a = s ∨ p a = true := by
  by_cases he : a = s
  · subst he
    simp
  · simp [he]

/-- The count of a slab's objects is an `unsigned int`: it is right, or it is never met. -/
def CountFits (g : Geom) : Prop := g.nobjs < 2 ^ 32 ∨ 2 ^ 32 ∣ g.nobjs

/-- What supplies slab memory keeps the invariant. -/
theorem Untouched.inv (hU : Untouched g w w') (hI : Inv g w P hd H cont) :
    Inv g w' P hd H cont := by
  have hin : ∀ {s o}, InSlab g w' s o ↔ InSlab g w s o := by
    intro s o
    unfold InSlab
    rw [hU.slabs]
    exact and_congr_right fun hs => by rw [hU.memory s hs]
  have hlisted : ∀ k o, Listed g w P k o → Listed g w' P k o := by
    rintro k o ⟨s, hs, h⟩
    refine ⟨s, hin.mpr hs, ?_⟩
    rw [hU.coreid, hU.tscFree s o hs]
    exact h
  constructor
  · rw [heads_congr hU.slabs hU.freelist hU.qscHead hU.remoteFrees]
    refine hI.chains.congr fun k o ho => ?_
    obtain ⟨s, hs, -⟩ := hI.members.listed k o ho
    exact hU.next s o hs
  · constructor
    · intro s hs
      rw [hU.slabs] at hs
      rw [hU.memory s hs]
      exact hI.slabs.memory s hs
    · intro s s' b hs hs' hb hb'
      rw [hU.slabs] at hs hs'
      rw [hU.memory s hs] at hb
      rw [hU.memory s' hs'] at hb'
      exact hI.slabs.inj s s' b hs hs' hb hb'
    · intro s o ho
      rw [hU.slab s o (hin.mp ho)]
      exact hI.slabs.slab s o (hin.mp ho)
    · rw [hU.slabs, hU.coreid]
      exact hI.slabs.core
    · rw [hU.slabs, hU.coreid, hU.nslabs]
      exact hI.slabs.owned
  · constructor
    · rw [hU.slabs, hU.nfree]
      exact hI.freelists.nfree
    · rw [hU.slabs, hU.nfree]
      exact hI.freelists.lt
    · rw [hU.slabs, hU.nfree, hU.coreid, hU.flist]
      exact hI.freelists.lists.congr (fun c s hs => hU.listN s hs.1)
        (fun c s hs => hU.listP s hs.1) fun _ _ => Iff.rfl
    · intro s hs h0
      rw [hU.slabs] at hs
      rw [hU.nfree] at h0
      rw [hU.listN s hs, hU.listP s hs]
      exact hI.freelists.single s hs h0
  · constructor
    · exact fun k o ho => hlisted k o (hI.members.listed k o ho)
    · intro o ho
      obtain ⟨⟨s, hs⟩, ht, hx⟩ := hI.members.held o ho
      exact ⟨⟨s, hin.mpr hs⟩, (hU.tscFree s o hs).trans ht, (hU.next s o hs).trans hx⟩
    · exact hI.members.off
    · exact fun s o ho => hI.members.total s o (hin.mp ho)
  · exact hI.counters.congr hU.qscTail hU.qmemcnt hU.qmemtarget hU.ps hU.remoteToken hU.pushed.ge
      (fun _ => rfl) fun _ => le_rfl

/-- A push to the list of remotely freed objects of the object's home core. -/
theorem inv_memRemoteFree (hI : Inv g w P hd H cont) (ho : o ∈ H) (hs : InSlab g w s o)
    (hc : c < g.numCores) (hP : P c) (hne : c ≠ w.coreid s) :
    Inv g (memRemoteFree g w o c (w.coreid s)) P hd (H \ {o})
      (update cont (.remote (remoteKey g c (w.coreid s)))
        (o :: cont (.remote (remoteKey g c (w.coreid s))))) := by
  have hw : SameSlabs w (memRemoteFree g w o c (w.coreid s)) :=
    ⟨⟨rfl, rfl, rfl, rfl, rfl⟩, rfl, rfl, rfl⟩
  constructor
  · have hh : heads g (memRemoteFree g w o c (w.coreid s)) hd =
        update (heads g w hd) (.remote (remoteKey g c (w.coreid s))) (some o) :=
      heads_remote rfl rfl rfl rfl
    rw [hh]
    exact hI.chains.push (hI.members.off o ho) (.remote (remoteKey g c (w.coreid s)))
  · exact hw.slabs_of hI.slabs
  · constructor
    · intro s' hs'
      rw [update_of_ne (by simp)]
      exact hI.freelists.nfree s' hs'
    · exact hI.freelists.lt
    · exact hI.freelists.lists
    · exact hI.freelists.single
  · apply hI.members.put hw ho (by simp) (fun _ _ => rfl)
    · intro a _ hne
      exact update_of_ne hne ..
    · exact ⟨s, hw.inSlab.mpr hs, rfl, (hI.members.held o ho).tscFree, c, hc, hP, hne, rfl⟩
  · constructor
    · intro c'
      rw [update_of_ne (by simp)]
      exact hI.counters.tail c'
    · intro c'
      rw [update_of_ne (by simp)]
      exact hI.counters.cnt c'
    · exact hI.counters.target
    · intro k
      have hk := hI.counters.pushed k
      by_cases he : k = remoteKey g c (w.coreid s)
      · subst he
        rw [update_self, List.length_cons]
        exact Nat.succ_le_succ hk
      · rw [update_of_ne (by simp [he])]
        exact hk.trans (Nat.le_succ _)
    · exact hI.counters.token

/-- With a held object, the freelist of its slab: these are objects of the slab, and not all. -/
theorem Inv.free_cons (hI : Inv g w P hd H cont) (ho : o ∈ H) (hs : InSlab g w s o) :
    (o :: cont (.free s)).Nodup ∧ ∀ a ∈ o :: cont (.free s), InSlab g w s a := by
  constructor
  · exact List.nodup_cons.mpr ⟨hI.members.off o ho _, hI.chains.nodup _⟩
  · intro a ha
    rcases List.mem_cons.mp ha with rfl | ha
    · exact hs
    · obtain ⟨s', hs', rfl, -⟩ := hI.members.listed _ a ha
      exact hs'

/-- The freelist of a slab with a held object is shorter than the slab. -/
theorem Inv.nfree_lt (hI : Inv g w P hd H cont) (ho : o ∈ H) (hs : InSlab g w s o) :
    w.nfree s + 1 ≤ g.nobjs := by
  obtain ⟨hnd, hall⟩ := hI.free_cons ho hs
  have hle := length_le_nobjs (hI.slabs.memory s hs.1) hnd hall
  rwa [List.length_cons, hI.freelists.nfree s hs.1] at hle

/-- A slab that is not released: its object goes to the front of its freelist, and the slab to the
freelist of its core if it had no free object. -/
theorem inv_pushFree (hI : Inv g w P hd H cont) (ho : o ∈ H) (hs : InSlab g w s o)
    (hn : 2 ≤ g.nobjs) (hlt : g.nobjs < 2 ^ 32 → w.nfree s + 1 < g.nobjs) {n p : ℕ → ℕ}
    {fl : ℕ → Option ℕ}
    (hl : OnLists n p fl fun c' s' => c' = w.coreid s ∧ s' = s ∨
      w.slabs s' = true ∧ w.coreid s' = c' ∧ w.nfree s' ≠ 0)
    (hx : ∀ s', s' ≠ s → w.slabs s' = true → w.nfree s' = 0 →
      n s' = w.listN s' ∧ p s' = w.listP s') :
    Inv g { pushFree w o s with listN := n, listP := p, flist := fl } P hd (H \ {o})
      (update cont (.free s) (o :: cont (.free s))) := by
  have hw : SameSlabs w { pushFree w o s with listN := n, listP := p, flist := fl } :=
    ⟨⟨rfl, rfl, rfl, rfl, rfl⟩, rfl, rfl, rfl⟩
  have hhead : heads g w hd (.free s) = w.freelist s := by
    simp [heads, hs.1, hn]
  have hnf : ∀ s', (pushFree w o s).nfree s' =
      if s' = s then w.nfree s + 1 else w.nfree s' := fun s' => update_apply ..
  constructor
  · have hheads : heads g { pushFree w o s with listN := n, listP := p, flist := fl } hd =
        update (heads g w hd) (.free s) (some o) := heads_free hs.1 hn rfl rfl rfl rfl
    rw [hheads]
    have := hI.chains.push (hI.members.off o ho) (.free s)
    rwa [hhead] at this
  · exact hw.slabs_of hI.slabs
  · constructor
    · intro s' hs'
      show _ = (pushFree w o s).nfree s'
      rw [hnf]
      by_cases he : s' = s
      · subst he
        rw [update_self, List.length_cons, hI.freelists.nfree s' hs', if_pos rfl]
      · rw [update_of_ne (by simp [he]), hI.freelists.nfree s' hs', if_neg he]
    · intro h32 s' hs'
      show (pushFree w o s).nfree s' < g.nobjs
      rw [hnf]
      split_ifs
      · exact hlt h32
      · exact hI.freelists.lt h32 s' hs'
    · refine hl.congr (fun _ _ _ => rfl) (fun _ _ _ => rfl) fun c' s' => ?_
      show w.slabs s' = true ∧ w.coreid s' = c' ∧ (pushFree w o s).nfree s' ≠ 0 ↔ _
      rw [hnf]
      by_cases he : s' = s
      · subst he
        simp only [if_true, hs.1, and_true, ne_eq, Nat.succ_ne_zero, not_false_eq_true, true_and]
        exact ⟨fun h => .inl h.symm, fun h => h.elim Eq.symm And.left⟩
      · simp [he]
    · intro s' hs' h0
      have h0 : (pushFree w o s).nfree s' = 0 := h0
      rw [hnf] at h0
      split_ifs at h0 with he
      obtain ⟨h₁, h₂⟩ := hx s' he hs' h0
      obtain ⟨h₃, h₄⟩ := hI.freelists.single s' hs' h0
      exact ⟨h₁.trans h₃, h₂.trans h₄⟩
  · apply hI.members.put hw ho (by simp)
    · intro a hne
      exact update_of_ne hne ..
    · intro a _ hne
      exact update_of_ne hne ..
    · refine ⟨s, hw.inSlab.mpr hs, rfl, ?_⟩
      show update w.tscFree o 1 o ≠ 0
      rw [update_self]
      exact one_ne_zero
  · refine hI.counters.congr rfl rfl rfl rfl rfl le_rfl (fun c' => ?_) fun k => ?_
    · rw [update_of_ne (by simp)]
    · rw [update_of_ne (by simp)]

/-- Slab `s` goes: it is no longer in use, and no longer counted. Its last held object is `o`. -/
structure ReleaseSlab (g : Geom) (w : World ε) (o : Obj) (s : ℕ) (w' : World ε) : Prop where
  slabs : w'.slabs = update w.slabs s false
  nslabs : w'.nslabs = update w.nslabs (w.coreid s) (w.nslabs (w.coreid s) - 1)
  next : ∀ a, a ≠ o → w'.next a = w.next a
  tscFree : ∀ a, a ≠ o → w'.tscFree a = w.tscFree a
  nfree : ∀ s', s' ≠ s → w'.nfree s' = w.nfree s'
  lists : OnLists w'.listN w'.listP w'.flist fun c' s' => s' ≠ s ∧
    w.slabs s' = true ∧ w.coreid s' = c' ∧ w.nfree s' ≠ 0
  others : ∀ s', w.slabs s' = true → w.nfree s' = 0 → s' ≠ s →
    w'.listN s' = w.listN s' ∧ w'.listP s' = w.listP s'
  same : w'.memory = w.memory ∧ w'.coreid = w.coreid ∧ w'.slab = w.slab

namespace ReleaseSlab

variable {a : Obj} {s' : ℕ}

/-- The slabs in use are the others. -/
theorem slabs_iff (hR : ReleaseSlab g w o s w') : w'.slabs s' = true ↔ s' ≠ s ∧ w.slabs s' = true := by
  rw [hR.slabs, update_false_iff]

/-- What is in a slab: what was in one of the others. -/
theorem inSlab (hR : ReleaseSlab g w o s w') : InSlab g w' s' a ↔ s' ≠ s ∧ InSlab g w s' a := by
  unfold InSlab
  rw [hR.slabs_iff, hR.same.1, and_assoc]

/-- The other slabs stay well formed. -/
theorem slabs_of (hR : ReleaseSlab g w o s w') (hs : w.slabs s = true) (hS : Slabs g w) :
    Slabs g w' := by
  obtain ⟨hmem, hcore, hslab⟩ := hR.same
  constructor
  · intro s' hs'
    rw [hmem]
    exact hS.memory s' (hR.slabs_iff.mp hs').2
  · intro s₁ s₂ b h₁ h₂ hb₁ hb₂
    rw [hmem] at hb₁ hb₂
    exact hS.inj s₁ s₂ b (hR.slabs_iff.mp h₁).2 (hR.slabs_iff.mp h₂).2 hb₁ hb₂
  · intro s' a ha
    rw [hslab]
    exact hS.slab s' a (hR.inSlab.mp ha).2
  · intro s' hs'
    rw [hcore]
    exact hS.core s' (hR.slabs_iff.mp hs').2
  · intro c'
    obtain ⟨l, hl, hm, hlen⟩ := hS.owned c'
    refine ⟨l.erase s, hl.erase s, fun s' => ?_, ?_⟩
    · rw [hl.mem_erase_iff, hm, hR.slabs_iff, hcore, and_assoc]
    · rw [hR.nslabs]
      by_cases hc : c' = w.coreid s
      · subst hc
        rw [update_self, List.length_erase_of_mem ((hm s).mpr ⟨hs, rfl⟩), hlen]
      · have hsl : s ∉ l := fun h => hc ((hm s).mp h).2.symm
        rw [update_of_ne hc, List.erase_of_not_mem hsl, hlen]

/-- The freelists of slabs stay exact, without the one that goes. -/
theorem freelists_of (hR : ReleaseSlab g w o s w') (hF : Freelists g w cont) :
    Freelists g w' (update cont (.free s) []) := by
  constructor
  · intro s' hs'
    obtain ⟨hne, hs'⟩ := hR.slabs_iff.mp hs'
    rw [update_of_ne (by simp [hne]), hR.nfree s' hne]
    exact hF.nfree s' hs'
  · intro h32 s' hs'
    obtain ⟨hne, hs'⟩ := hR.slabs_iff.mp hs'
    rw [hR.nfree s' hne]
    exact hF.lt h32 s' hs'
  · refine hR.lists.congr (fun _ _ _ => rfl) (fun _ _ _ => rfl) fun c' s' => ?_
    rw [hR.slabs_iff, hR.same.2.1, and_assoc]
    refine and_congr_right fun hne => ?_
    rw [hR.nfree s' hne]
  · intro s' hs' h0
    obtain ⟨hne, hs'⟩ := hR.slabs_iff.mp hs'
    rw [hR.nfree s' hne] at h0
    obtain ⟨h₁, h₂⟩ := hR.others s' hs' h0 hne
    obtain ⟨h₃, h₄⟩ := hF.single s' hs' h0
    exact ⟨h₁.trans h₃, h₂.trans h₄⟩

/-- What is on a list afterwards. -/
theorem mem_cont {k : Key} (ha : a ∈ update cont (.free s) [] k) : k ≠ .free s ∧ a ∈ cont k := by
  by_cases hk : k = .free s
  · subst hk
    rw [update_self] at ha
    cases ha
  · rw [update_of_ne hk] at ha
    exact ⟨hk, ha⟩

/-- The objects of the other slabs stay where they are. -/
theorem members_of (hR : ReleaseSlab g w o s w') (hI : Inv g w P hd H cont) (ho : o ∈ H)
    (hs : InSlab g w s o) (hn : w.nfree s + 1 = g.nobjs) :
    Members g w' P (H \ {o}) (update cont (.free s) []) := by
  have hcore := hR.same.2.1
  have hoff := hI.members.off o ho
  obtain ⟨hnd, hfree⟩ := hI.free_cons ho hs
  have hall : ∀ a, InSlab g w s a → a = o ∨ a ∈ cont (.free s) := by
    intro a ha
    refine List.mem_cons.mp (mem_of_length hnd hfree ?_ ha)
    rw [List.length_cons, hI.freelists.nfree s hs.1, hn]
  -- an object that is elsewhere is of another slab
  have hother : ∀ a s', InSlab g w s' a → a ≠ o → a ∉ cont (.free s) → InSlab g w' s' a := by
    intro a s' ha hne hf
    refine hR.inSlab.mpr ⟨?_, ha⟩
    rintro rfl
    exact (hall a ha).elim hne hf
  constructor
  · intro k a ha
    obtain ⟨hk, ha⟩ := mem_cont ha
    obtain ⟨s', hs', h⟩ := hI.members.listed k a ha
    have hne : a ≠ o := fun e => hoff k (e ▸ ha)
    refine ⟨s', hother a s' hs' hne fun hf => hk (hI.chains.disjoint ha hf), ?_⟩
    rw [hcore, hR.tscFree a hne]
    exact h
  · rintro a ⟨ha, hne⟩
    obtain ⟨⟨s', hs'⟩, ht, hx⟩ := hI.members.held a ha
    exact ⟨⟨s', hother a s' hs' hne (hI.members.off a ha _)⟩, (hR.tscFree a hne).trans ht,
      (hR.next a hne).trans hx⟩
  · rintro a ⟨ha, -⟩ k hk
    exact hI.members.off a ha k (mem_cont hk).2
  · intro s' a ha
    obtain ⟨hne, ha⟩ := hR.inSlab.mp ha
    rcases hI.members.total s' a ha with hH | ⟨k, hk⟩
    · exact .inl ⟨hH, fun e => hne (hI.slabs.eq_of_inSlab ha (e ▸ hs))⟩
    · refine .inr ⟨k, ?_⟩
      rwa [update_of_ne]
      rintro rfl
      exact hne (hI.slabs.eq_of_inSlab ha (hfree a (List.mem_cons_of_mem _ hk)))

end ReleaseSlab

/-- A slab with its last held object is released, with all its objects. -/
theorem inv_releaseSlab (hI : Inv g w P hd H cont) (ho : o ∈ H) (hs : InSlab g w s o)
    (hn : w.nfree s + 1 = g.nobjs) {n p : ℕ → ℕ} {fl : ℕ → Option ℕ}
    (hl : OnLists n p fl fun c' s' => s' ≠ s ∧
      w.slabs s' = true ∧ w.coreid s' = c' ∧ w.nfree s' ≠ 0)
    (hx : ∀ s', w.slabs s' = true → w.nfree s' = 0 → s' ≠ s →
      n s' = w.listN s' ∧ p s' = w.listP s')
    (hw : w' = { pushFree w o s with
      nslabs := update w.nslabs (w.coreid s) (w.nslabs (w.coreid s) - 1)
      listN := n
      listP := p
      flist := fl
      slabs := update w.slabs s false }) :
    Inv g w' P hd (H \ {o}) (update cont (.free s) []) := by
  have hR : ReleaseSlab g w o s w' := by
    subst hw
    exact ⟨rfl, rfl, fun a hne => update_of_ne hne .., fun a hne => update_of_ne hne ..,
      fun s' hne => update_of_ne hne .., hl, hx, rfl, rfl, rfl⟩
  have hother : ∀ k, k ≠ .free s → update cont (.free s) [] k = cont k :=
    fun k hk => update_of_ne hk ..
  refine ⟨?_, hR.slabs_of hs.1 hI.slabs, hR.freelists_of hI.freelists,
    hR.members_of hI ho hs hn, ?_⟩
  · have hh : heads g w' hd = update (heads g w hd) (.free s) none :=
      heads_release hR.slabs (by rw [hw]; rfl) (by rw [hw]; rfl) (by rw [hw]; rfl)
    rw [hh]
    refine (hI.chains.drop (.free s)).congr fun k a ha => hR.next a ?_
    rintro rfl
    exact hI.members.off a ho k (ReleaseSlab.mem_cont ha).2
  · have hp : w'.pushed = w.pushed := by
      rw [hw]
      rfl
    refine hI.counters.congr (by rw [hw]; rfl) (by rw [hw]; rfl) (by rw [hw]; rfl)
      (by rw [hw]; rfl) (by rw [hw]; rfl) hp.ge (fun c' => hother _ (by simp)) fun k => ?_
    rw [hother _ (by simp)]

/-- The freelist of a slab with a held object, that object put in front of it, is followed through
all the slab's objects if there are enough of them. A slab of one object has an old pointer there. -/
theorem follow_pushFree (hI : Inv g w P hd H cont) (ho : o ∈ H) (hs : InSlab g w s o)
    (hn : w.nfree s + 1 = g.nobjs) :
    follow (pushFree w o s).next g.nobjs (some o) = o :: cont (.free s) := by
  have hoff := hI.members.off o ho (.free s)
  have hlen := hI.freelists.nfree s hs.1
  rw [← hn, follow]
  have hnext : (pushFree w o s).next o = w.freelist s := update_self ..
  rw [hnext]
  congr 1
  by_cases h2 : 2 ≤ g.nobjs
  · have hhead : heads g w hd (.free s) = w.freelist s := by simp [heads, hs.1, h2]
    have hc := hI.chains.chain (.free s)
    rw [hhead] at hc
    exact (hc.update_of_notMem hoff (v := w.freelist s)).follow_eq hlen.le
  · have h0 : w.nfree s = 0 := by omega
    rw [h0] at hlen ⊢
    rw [List.eq_nil_of_length_eq_zero hlen]
    rfl

/-! ## The call -/

/-- What steps leave alone that are not about the queues. -/
structure SameQueues (w w' : World ε) (cont cont' : Key → List Obj) : Prop where
  queue : ∀ c, cont' (.queue c) = cont (.queue c)
  tscFree : ∀ c, ∀ o ∈ cont (.queue c), w'.tscFree o = w.tscFree o
  qmemcnt : w'.qmemcnt = w.qmemcnt
  qmemtarget : w'.qmemtarget = w.qmemtarget
  ps : w'.ps = w.ps

/-- What a free leaves alone, that is not about the queues. -/
structure Kept (w w' : World ε) (cont cont' : Key → List Obj) : Prop
    extends SameQueues w w' cont cont' where
  remoteToken : w'.remoteToken = w.remoteToken

/-- The queues are the same after two steps. -/
theorem SameQueues.trans {w'' : World ε} {cont'' : Key → List Obj}
    (h : SameQueues w w' cont cont') (h' : SameQueues w' w'' cont' cont'') :
    SameQueues w w'' cont cont'' := by
  constructor
  · exact fun c => (h'.queue c).trans (h.queue c)
  · intro c o ho
    have ho' : o ∈ cont' (.queue c) := h.queue c ▸ ho
    exact (h'.tscFree c o ho').trans (h.tscFree c o ho)
  · exact h'.qmemcnt.trans h.qmemcnt
  · exact h'.qmemtarget.trans h.qmemtarget
  · exact h'.ps.trans h.ps

/-- Nothing changes. -/
theorem Kept.refl : Kept w w cont cont :=
  ⟨⟨fun _ => rfl, fun _ _ _ => rfl, rfl, rfl, rfl⟩, rfl⟩

/-- What is kept in two steps. -/
theorem Kept.trans {w'' : World ε} {cont'' : Key → List Obj} (h : Kept w w' cont cont')
    (h' : Kept w' w'' cont' cont'') : Kept w w'' cont cont'' :=
  ⟨h.toSameQueues.trans h'.toSameQueues, h'.remoteToken.trans h.remoteToken⟩

/-- What supplies slab memory leaves the queues alone. -/
theorem Untouched.kept (hU : Untouched g w w') (hI : Inv g w P hd H cont) :
    Kept w w' cont cont := by
  refine ⟨⟨fun _ => rfl, fun c o ho => ?_, hU.qmemcnt, hU.qmemtarget, hU.ps⟩, hU.remoteToken⟩
  obtain ⟨s, hs, -⟩ := hI.members.listed _ o ho
  exact hU.tscFree s o hs

/-- A step that writes the freelist of one slab and one held object. -/
theorem Inv.kept_free (hI : Inv g w P hd H cont) (ho : o ∈ H) {l : List Obj}
    (ht : ∀ a, a ≠ o → w'.tscFree a = w.tscFree a) (htk : w'.remoteToken = w.remoteToken)
    (hqc : w'.qmemcnt = w.qmemcnt) (hqm : w'.qmemtarget = w.qmemtarget) (hps : w'.ps = w.ps) :
    Kept w w' cont (update cont (.free s) l) := by
  refine ⟨⟨fun c => update_of_ne (by simp) .., ?_, hqc, hqm, hps⟩, htk⟩
  intro c a ha
  exact ht a fun e => hI.members.off o ho _ (e ▸ ha)

/-- The objects of a list that are of slab `s`. -/
def ofSlab (w : World ε) (s : ℕ) (l : List Obj) : List Obj :=
  l.filter fun o => decide (w.slab o = some s)

/-- The objects of `l` have come back: they are on the freelists of their slabs, each once, and a slab
is released only with all its objects. -/
structure Returned (g : Geom) (w w' : World ε) (cont cont' : Key → List Obj) (l : List Obj) :
    Prop where
  sub : ∀ s, w'.slabs s = true → w.slabs s = true
  memory : ∀ s, w'.slabs s = true → w'.memory s = w.memory s
  free : ∀ s, w'.slabs s = true → (cont' (.free s)).Perm (ofSlab w s l ++ cont (.free s))
  full : ∀ s, w.slabs s = true → w'.slabs s = false → ∃ b, w.memory s = some b ∧
    (ofSlab w s l ++ cont (.free s)).Perm ((List.range g.nobjs).map (g.obj b))

/-- An object of the slab. -/
theorem ofSlab_self (h : w.slab o = some s) : ofSlab w s [o] = [o] := by simp [ofSlab, h]

/-- An object of another slab. -/
theorem ofSlab_ne {s' : ℕ} (h : w.slab o = some s) (hne : s' ≠ s) : ofSlab w s' [o] = [] := by
  simp [ofSlab, h, hne.symm]

/-- The objects of a slab on two lists. -/
theorem ofSlab_append {l l' : List Obj} : ofSlab w s (l ++ l') = ofSlab w s l ++ ofSlab w s l' :=
  List.filter_append ..

/-- One object comes back to a slab that stays. -/
theorem returned_pushFree (ho : w.slab o = some s) (hs : w'.slabs = w.slabs)
    (hm : w'.memory = w.memory) :
    Returned g w w' cont (update cont (.free s) (o :: cont (.free s))) [o] := by
  constructor
  · intro s' h
    rwa [hs] at h
  · intro s' _
    rw [hm]
  · intro s' _
    by_cases he : s' = s
    · subst he
      rw [update_self, ofSlab_self ho]
      rfl
    · rw [update_of_ne (by simpa using he), ofSlab_ne ho he]
      rfl
  · intro s' h h'
    rw [hs, h] at h'
    cases h'

/-- The last object of a slab comes back, and the slab is released. -/
theorem releaseSlab_spec (hB : Backing g f A K) (hI : Inv g w P hd H cont) (hK : K w) (ho : o ∈ H)
    (hs : InSlab g w s o) (hn : w.nfree s + 1 = g.nobjs) :
    ∃ w', releaseSlab f (pushFree w o s) s (w.coreid s) = some w' ∧
      Inv g w' P hd (H \ {o}) (update cont (.free s) []) ∧ K w' ∧
      Kept w w' cont (update cont (.free s) []) ∧
      Returned g w w' cont (update cont (.free s) []) [o] := by
  have hon : (w.slabs s = true ∧ w.coreid s = w.coreid s ∧ w.nfree s ≠ 0) ∨
      (∀ c, ¬ (w.slabs s = true ∧ w.coreid s = c ∧ w.nfree s ≠ 0)) ∧ w.listN s = s ∧
        w.listP s = s := by
    by_cases h0 : w.nfree s = 0
    · exact .inr ⟨fun c h => h.2.2 h0, hI.freelists.single s hs.1 h0⟩
    · exact .inl ⟨hs.1, rfl, h0⟩
  obtain ⟨n, p, fl, hrem, hl, hsn, hsp, hx⟩ := freelistRem_spec'
    (w := { pushFree w o s with
      nslabs := update w.nslabs (w.coreid s) (w.nslabs (w.coreid s) - 1) }) hI.freelists.lists hon
  obtain ⟨w₁, hw₁⟩ : ∃ w₁ : World ε, w₁ = { pushFree w o s with
      nslabs := update w.nslabs (w.coreid s) (w.nslabs (w.coreid s) - 1)
      listN := n
      listP := p
      flist := fl } := ⟨_, rfl⟩
  have hI' : Inv g { w₁ with slabs := update w₁.slabs s false } P hd (H \ {o})
      (update cont (.free s) []) := by
    refine inv_releaseSlab hI ho hs hn hl (fun s' hs' h0 _ => hx s' fun c h => h.2.2 h0) ?_
    rw [hw₁]
    rfl
  obtain ⟨b, hb⟩ := hI.slabs.memory s hs.1
  obtain ⟨hnd, hfree⟩ := hI.free_cons ho hs
  have hperm : (o :: cont (.free s)).Perm ((List.range g.nobjs).map (g.obj b)) := by
    refine (subperm_of_inSlab hb hnd hfree).perm_of_length_le ?_
    rw [List.length_cons, hI.freelists.nfree s hs.1, hn, List.length_map, List.length_range]
  have hE : Emptied g w₁ s := by
    rw [← follow_pushFree hI ho hs hn] at hperm
    subst hw₁
    refine ⟨hs.1, ⟨b, hb, ?_⟩, hsn, hsp⟩
    show (follow (pushFree w o s).next g.nobjs (update w.freelist s (some o) s)).Perm _
    rw [update_self]
    exact hperm
  have hsame : SameEnv w w₁ := by
    subst hw₁
    exact ⟨rfl, rfl, rfl, rfl, rfl⟩
  obtain ⟨w', hffn, hU, hKw⟩ := hB.ffn (w₁.memsz s) (w.coreid s) (hB.congr hsame hK) hE
  refine ⟨w', ?_, hU.inv hI', hKw, ?_, ?_⟩
  · have hrem' : freelistRem { pushFree w o s with
        nslabs := update (pushFree w o s).nslabs (w.coreid s)
          ((pushFree w o s).nslabs (w.coreid s) - 1) } (w.coreid s) s = w₁ := hrem.trans hw₁.symm
    unfold releaseSlab
    simp only [hrem']
    exact hffn
  · refine Kept.trans ?_ (hU.kept hI')
    refine hI.kept_free ho ?_ ?_ ?_ ?_ ?_
    · intro a hne
      rw [hw₁]
      exact update_of_ne hne ..
    all_goals rw [hw₁]; rfl
  · have hslabs : w'.slabs = update w.slabs s false := by
      rw [hU.slabs, hw₁]
      rfl
    have hmem : ∀ s', w'.slabs s' = true → w'.memory s' = w.memory s' := by
      intro s' h
      rw [hU.slabs] at h
      rw [hU.memory s' h, hw₁]
      rfl
    have hslab := hI.slabs.slab s o hs
    refine ⟨fun s' h => ?_, hmem, fun s' h => ?_, fun s' h h' => ?_⟩
    · rw [hslabs, update_false_iff] at h
      exact h.2
    · rw [hslabs, update_false_iff] at h
      rw [update_of_ne (by simpa using h.1), ofSlab_ne hslab h.1]
      rfl
    · have he : s' = s := by
        by_contra hne
        rw [hslabs, update_of_ne hne, h] at h'
        cases h'
      subst he
      rw [ofSlab_self hslab]
      exact ⟨b, hb, hperm⟩

/-- A free by the core of the slab. -/
theorem memFree_home (hB : Backing g f A K) (hfit : CountFits g) (hI : Inv g w P hd H cont)
    (hK : K w) (ho : o ∈ H) (hs : InSlab g w s o) :
    ∃ w' l, memFree g f w o (w.coreid s) = some w' ∧
      Inv g w' P hd (H \ {o}) (update cont (.free s) l) ∧ K w' ∧
      Kept w w' cont (update cont (.free s) l) ∧
      Returned g w w' cont (update cont (.free s) l) [o] := by
  obtain ⟨-, ht, hx⟩ := hI.members.held o ho
  have hlt := hI.nfree_lt ho hs
  have hslab := hI.slabs.slab s o hs
  have hguard : objmemsz g.arch g.objSz + g.headoff ≤ g.allocsz ∧ w.tscFree o = 0 := ⟨g.fits, ht⟩
  unfold memFree
  rw [if_pos hguard, hslab]
  have hnf : (pushFree w o s).nfree s = w.nfree s + 1 := update_self ..
  simp only [ne_eq, not_true_eq_false, if_false, hnf]
  by_cases hmax : w.nfree s + 1 = toU32 g.nobjs
  · have hn : w.nfree s + 1 = g.nobjs := by
      unfold CountFits at hfit
      unfold toU32 at hmax
      omega
    rw [if_pos hmax]
    obtain ⟨w', hrun, hrest⟩ := releaseSlab_spec hB hI hK ho hs hn
    exact ⟨w', [], hrun, hrest⟩
  -- there is another object of the slab
  have hn2 : 2 ≤ g.nobjs := by
    unfold toU32 at hmax
    omega
  have hlt' : g.nobjs < 2 ^ 32 → w.nfree s + 1 < g.nobjs := by
    intro h32
    have : toU32 g.nobjs = g.nobjs := Nat.mod_eq_of_lt h32
    omega
  have hkept : ∀ {n p fl}, Kept w { pushFree w o s with listN := n, listP := p, flist := fl } cont
      (update cont (.free s) (o :: cont (.free s))) := by
    intro n p fl
    exact hI.kept_free ho (fun a hne => update_of_ne hne ..) rfl rfl rfl rfl
  rw [if_neg hmax]
  by_cases h0 : w.nfree s = 0
  · obtain ⟨hsn, hsp⟩ := hI.freelists.single s hs.1 h0
    have hoff : ∀ c, ¬ (w.slabs s = true ∧ w.coreid s = c ∧ w.nfree s ≠ 0) := fun c h => h.2.2 h0
    obtain ⟨n, p, fl, hadd, hl, hxx⟩ := freelistAdd_spec (w := pushFree w o s) hI.freelists.lists
      hoff hsn hsp (w.coreid s)
    obtain ⟨b, hb⟩ := hI.slabs.memory s hs.1
    have hasrt : (pushFree w o s).listN s = s ∧ (pushFree w o s).memory s ≠ none ∧
        (pushFree w o s).freelist s ≠ none := by
      refine ⟨hsn, ?_, ?_⟩
      · show w.memory s ≠ none
        rw [hb]
        simp
      · show update w.freelist s (some o) s ≠ none
        rw [update_self]
        simp
    have h1 : w.nfree s + 1 = 1 := by rw [h0]
    refine ⟨_, _, ?_, inv_pushFree hI ho hs hn2 hlt' hl ?_, ?_, hkept,
      returned_pushFree hslab rfl rfl⟩
    · rw [if_pos h1, if_pos hasrt, hadd]
    · exact fun s' hne _ h0' => hxx s' hne fun c h => h.2.2 h0'
    · have hw : SameEnv w { pushFree w o s with listN := n, listP := p, flist := fl } :=
        ⟨rfl, rfl, rfl, rfl, rfl⟩
      exact hB.congr hw hK
  · have h1 : w.nfree s + 1 ≠ 1 := by omega
    refine ⟨pushFree w o s, _, if_neg h1, inv_pushFree hI ho hs hn2 hlt' ?_ ?_, ?_, hkept,
      returned_pushFree hslab rfl rfl⟩
    · refine hI.freelists.lists.congr (fun _ _ _ => rfl) (fun _ _ _ => rfl) fun c' s' => ?_
      constructor
      · rintro (⟨rfl, rfl⟩ | h)
        · exact ⟨hs.1, rfl, h0⟩
        · exact h
      · exact .inr
    · exact fun _ _ _ _ => ⟨rfl, rfl⟩
    · have hw : SameEnv w (pushFree w o s) := ⟨rfl, rfl, rfl, rfl, rfl⟩
      exact hB.congr hw hK

/-- A free returns, and the object is no longer held. -/
theorem memFree_spec (hB : Backing g f A K) (hfit : CountFits g) (hI : Inv g w P hd H cont)
    (hK : K w) (ho : o ∈ H) (hc : c < g.numCores)
    (hP : ∀ s, InSlab g w s o → w.coreid s = c ∨ P c) :
    ∃ w' cont', memFree g f w o c = some w' ∧ Inv g w' P hd (H \ {o}) cont' ∧ K w' ∧
      Kept w w' cont cont' ∧ ∀ c, cont' (.drain c) = cont (.drain c) := by
  obtain ⟨⟨s, hs⟩, ht, hx⟩ := hI.members.held o ho
  have hlt := hI.nfree_lt ho hs
  have hslab := hI.slabs.slab s o hs
  have hguard : objmemsz g.arch g.objSz + g.headoff ≤ g.allocsz ∧ w.tscFree o = 0 := ⟨g.fits, ht⟩
  unfold memFree
  rw [if_pos hguard, hslab]
  by_cases hcc : w.coreid s = c
  swap
  · have hPc := (hP s hs).resolve_left hcc
    refine ⟨_, _, if_pos hcc, inv_memRemoteFree hI ho hs hc hPc (Ne.symm hcc), ?_, ?_⟩
    · have hw : SameEnv w (memRemoteFree g w o c (w.coreid s)) := ⟨rfl, rfl, rfl, rfl, rfl⟩
      exact hB.congr hw hK
    · exact ⟨⟨⟨fun c => update_of_ne (by simp) .., fun _ _ _ => rfl, rfl, rfl, rfl⟩, rfl⟩,
        fun c => update_of_ne (by simp) ..⟩
  subst hcc
  obtain ⟨w', l, hrun, hI', hK', hkept, -⟩ := memFree_home hB hfit hI hK ho hs
  refine ⟨w', _, ?_, hI', hK', hkept, fun c => update_of_ne (by simp) ..⟩
  unfold memFree at hrun
  rwa [if_pos hguard, hslab] at hrun

end Free

end Parsec.Slab
