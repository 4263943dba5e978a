import Parsec.Slab.Reclaim

/-!
# What calls leave alone

While an object is held, its slab keeps its memory and its ids, whatever the calls of other objects
release and get (`Steady`). Frees get no slab, so that the slabs in use after them were in use before
(`Frame`), which goes along with what the supplier of slab memory keeps.

* `memFree_steady`, `smrFree_steady`, `memAlloc_steady` — the calls keep the slabs of the objects that
  are held before and after.
-/

namespace Parsec.Slab

open Function

variable {ε ι : Type} {g : Geom} {f : Fns ε ι} {A : World ε → ℕ → ι → Prop} {K : World ε → Prop}
  {P : ℕ → Prop} {w w₁ w' : World ε} {hd : ℕ → Option Obj} {H H' : Set Obj}
  {cont cont' : Key → List Obj} {o : Obj} {c : ℕ}

/-! ## Frames -/

/-- The slabs in use were in use, with the same memory and ids. -/
structure Frame (w w' : World ε) : Prop where
  slabs : ∀ s, w'.slabs s = true → w.slabs s = true
  memory : ∀ s, w'.slabs s = true → w'.memory s = w.memory s
  start : ∀ s, w'.slabs s = true → w'.start s = w.start s

/-- Nothing changes. -/
theorem Frame.refl (w : World ε) : Frame w w := ⟨fun _ h => h, fun _ _ => rfl, fun _ _ => rfl⟩

/-- The objects are of the same slabs, with the same memory and ids. -/
def Steady (g : Geom) (w w' : World ε) (H : Set Obj) : Prop :=
  ∀ o ∈ H, ∀ s, InSlab g w s o → InSlab g w' s o ∧ w'.start s = w.start s

/-- Objects stay in their slabs in two steps. -/
theorem Steady.trans (h : Steady g w w₁ H) (h' : Steady g w₁ w' H) : Steady g w w' H := by
  intro o ho s hs
  obtain ⟨hs₁, he₁⟩ := h o ho s hs
  obtain ⟨hs', he'⟩ := h' o ho s hs₁
  exact ⟨hs', he'.trans he₁⟩

/-- Slabs of objects that are held before and after are the same. -/
theorem Frame.steady (hF : Frame w w') (hI : Inv g w P hd H cont)
    (hheld : ∀ o ∈ H', ∃ s, InSlab g w' s o) : Steady g w w' H' := by
  intro o ho s hs
  obtain ⟨s', hs'⟩ := hheld o ho
  obtain ⟨hu, b, i, hb, hi, hobj⟩ := id hs'
  have hback : InSlab g w s' o := ⟨hF.slabs s' hu, b, i, (hF.memory s' hu).symm.trans hb, hi, hobj⟩
  obtain rfl : s' = s := hI.slabs.eq_of_inSlab hback hs
  exact ⟨hs', hF.start s' hu⟩

/-- Where no slab is touched, objects stay in theirs. -/
theorem Untouched.steady (hU : Untouched g w w') : Steady g w w' H := by
  rintro o - s ⟨hs, b, i, hb, hi, ho⟩
  refine ⟨⟨?_, b, i, ?_, hi, ho⟩, hU.start s hs⟩
  · rw [hU.slabs]
    exact hs
  · rw [hU.memory s hs]
    exact hb

/-- Where the slabs are the same, objects stay in theirs. -/
theorem SameSlabs.steady (hw : SameSlabs w w') : Steady g w w' H := by
  intro o _ s hs
  exact ⟨hw.inSlab.mpr hs, congrFun hw.start s⟩

/-- A supplier that is not asked for slabs frames the world. -/
theorem Backing.frame (hB : Backing g f A K) (w₀ : World ε) :
    Backing g f (fun _ _ _ => False) fun w => K w ∧ Frame w₀ w := by
  refine hB.and (fun _ _ h => h.elim) ?_ ?_ (fun _ _ h => h.elim)
  · rintro w w' hw ⟨h₁, h₂, h₃⟩
    exact ⟨hw.slabs ▸ h₁, by rw [hw.slabs, hw.memory]; exact h₂, by rw [hw.slabs, hw.start]; exact h₃⟩
  · rintro w w' s sz c hK ⟨h₁, h₂, h₃⟩ hE hrun
    obtain ⟨w'', hrun', hU, -⟩ := hB.ffn sz c hK hE
    obtain rfl : w'' = w' := Option.some.inj (hrun'.symm.trans hrun)
    have hin : ∀ s', w''.slabs s' = true → update w.slabs s false s' = true := by
      intro s' h
      rwa [hU.slabs] at h
    have hin' : ∀ s', w''.slabs s' = true → w.slabs s' = true := fun s' h =>
      (update_false_iff.mp (hin s' h)).2
    constructor
    · exact fun s' h => h₁ s' (hin' s' h)
    · exact fun s' h => (hU.memory s' (hin s' h)).trans (h₂ s' (hin' s' h))
    · exact fun s' h => (hU.start s' (hin s' h)).trans (h₃ s' (hin' s' h))

/-! ## The calls -/

/-- A free, with what it leaves of the slabs of the other objects. -/
theorem memFree_steady (hB : Backing g f A K) (hfit : CountFits g) (hI : Inv g w P hd H cont)
    (hK : K w) (ho : o ∈ H) (hc : c < g.numCores)
    (hP : ∀ s, InSlab g w s o → w.coreid s = c ∨ P c) :
    ∃ w' cont', memFree g f w o c = some w' ∧ Inv g w' P hd (H \ {o}) cont' ∧ K w' ∧
      w'.ps = w.ps ∧ Steady g w w' (H \ {o}) := by
  obtain ⟨w', cont', hrun, hI', ⟨hK', hF⟩, hkept, -⟩ :=
    memFree_spec (hB.frame w) hfit hI ⟨hK, .refl w⟩ ho hc hP
  exact ⟨w', cont', hrun, hI', hK', hkept.ps,
    hF.steady hI fun o ho => (hI'.members.held o ho).inSlab⟩

/-- A deferred free, with what it leaves of the slabs of the other objects. -/
theorem smrFree_steady (hB : Backing g f A K) (hfit : CountFits g) (hI : Inv g w P hd H cont)
    (hK : K w) (ho : o ∈ H) (hc : c < g.numCores)
    (hP : ∀ s, InSlab g w s o → w.coreid s = c ∨ P c) {tsc : ℕ} (ht : tsc ≠ 0) (hps : w.ps c = true)
    (qsc : ℕ) (busy : Bool) :
    ∃ w' cont', smrFree g f w o c tsc qsc busy = some w' ∧ Inv g w' P hd (H \ {o}) cont' ∧ K w' ∧
      w'.ps = w.ps ∧ Steady g w w' (H \ {o}) := by
  obtain ⟨w', cont', hrun, hI', ⟨hK', hF⟩, hq⟩ :=
    smrFree_spec (hB.frame w) hfit hI ⟨hK, .refl w⟩ ho hc hP ht hps qsc busy
  refine ⟨w', cont', hrun, hI', hK', ?_, hF.steady hI fun o ho => (hI'.members.held o ho).inSlab⟩
  split at hq <;> exact hq.1.ps

/-- A deferred free gets no slab. -/
theorem smrFree_frame (hB : Backing g f A K) (hfit : CountFits g) (hI : Inv g w P hd H cont)
    (hK : K w) (ho : o ∈ H) (hc : c < g.numCores)
    (hP : ∀ s, InSlab g w s o → w.coreid s = c ∨ P c) {tsc : ℕ} (ht : tsc ≠ 0) (hps : w.ps c = true)
    {qsc : ℕ} {busy : Bool} (hrun : smrFree g f w o c tsc qsc busy = some w') : Frame w w' := by
  obtain ⟨w'', -, hrun', -, ⟨-, hF⟩, -⟩ :=
    smrFree_spec (hB.frame w) hfit hI ⟨hK, .refl w⟩ ho hc hP ht hps qsc busy
  obtain rfl : w'' = w' := Option.some.inj (hrun'.symm.trans hrun)
  exact hF

/-- An allocation leaves alone the slabs of objects that are held, or on a quiescence queue. -/
theorem memAlloc_steady_queued (hB : Backing g f A K) (hfit : CountFits g)
    (hI : Inv g w P (fun _ => none) H cont) (hK : K w) {i : ι} {r : Option Obj}
    (hA : ∀ w₁, allocPrep g f w c = some w₁ → w₁.flist c = none → A w₁ c i)
    (hrun : memAlloc g f w c i = some (r, w')) :
    Steady g w w' {o | o ∈ H ∨ ∃ c', o ∈ cont (.queue c')} := by
  obtain ⟨w₁, hprep⟩ : ∃ w₁, allocPrep g f w c = some w₁ := by
    refine Option.ne_none_iff_exists'.mp fun hnone => ?_
    simp [memAlloc, hnone] at hrun
  obtain ⟨cont₁, hI₁, ⟨hK₁, hF⟩, hq⟩ := allocPrep_kept (hB.frame w) hfit hI ⟨hK, .refl w⟩ hprep
  have h₁ : Steady g w w₁ {o | o ∈ H ∨ ∃ c', o ∈ cont (.queue c')} := by
    refine hF.steady hI fun o ho => hI₁.members.exists_inSlab (ho.imp_right ?_)
    rintro ⟨c', ho⟩
    rw [← hq.queue c'] at ho
    exact ⟨_, ho⟩
  refine h₁.trans ?_
  unfold memAlloc at hrun
  simp only [if_pos (objSz_le_allocsz g), hprep, Option.bind_eq_bind, Option.bind_some] at hrun
  rcases hfl : w₁.flist c with _ | s
  · obtain ⟨x, w₂, hafn, hU, hx⟩ := hB.afn g.allocsz c hK₁ (hA w₁ hprep hfl)
    rw [hfl] at hrun
    simp only [hafn, Option.bind_some] at hrun
    refine hU.steady.trans ?_
    rcases x with _ | s
    · cases hrun
      exact fun o _ s hs => ⟨hs, rfl⟩
    · obtain ⟨⟨hs, b, hb, -, -⟩, -⟩ := hx
      obtain ⟨w₃, hrun', hN⟩ := newSlab_run (hU.inv hI₁).freelists.lists
        (fun c h => by rw [hs] at h; cases h.1) hb c
      obtain ⟨-, rfl⟩ := Prod.mk.inj (Option.some.inj (hrun'.symm.trans hrun))
      obtain ⟨hm, hst, -⟩ := hN.rest
      rintro o - s' ⟨hs', b', j, hb', hj, ho⟩
      have hne : s' ≠ s := by
        rintro rfl
        exact Bool.false_ne_true (hs.symm.trans hs')
      refine ⟨⟨?_, b', j, ?_, hj, ho⟩, congrFun hst s'⟩
      · rw [hN.slabs, update_of_ne hne]
        exact hs'
      · rw [hm]
        exact hb'
  · obtain ⟨hs, hcore, h0⟩ := hI₁.freelists.lists.head_some hfl
    obtain ⟨o, w₂, cont₂, hrun', -, -, -, -, hw, -⟩ := popFree_spec (hB.frame w) hI₁ ⟨hK₁, hF⟩ hs
      hcore h0
    rw [hfl] at hrun
    simp only [hrun', Option.map_some] at hrun
    cases hrun
    exact hw.steady

/-- An allocation leaves the slabs of held objects alone. -/
theorem memAlloc_steady (hB : Backing g f A K) (hfit : CountFits g)
    (hI : Inv g w P (fun _ => none) H cont) (hK : K w) {i : ι} {r : Option Obj}
    (hA : ∀ w₁, allocPrep g f w c = some w₁ → w₁.flist c = none → A w₁ c i)
    (hrun : memAlloc g f w c i = some (r, w')) : Steady g w w' H :=
  fun o ho => memAlloc_steady_queued hB hfit hI hK hA hrun o (.inl ho)

end Parsec.Slab
