import Parsec.Lib.Ring
import Parsec.Slab.Basic

/-!
# Freelists of slabs

The slabs on the freelist of a core form a ring (`OnLists`), to which slabs are added
(`freelistAdd_spec`) and from which they are removed (`freelistRem_spec`).
-/

namespace Parsec.Slab

open Function Lib

variable {ε : Type} {w : World ε} {M : ℕ → ℕ → Prop} {c s : ℕ}

/-- The slabs on the freelist of core `c` are those with `M c`: they form a ring, which the head of
the freelist points into. -/
def OnLists (n p : ℕ → ℕ) (fl : ℕ → Option ℕ) (M : ℕ → ℕ → Prop) : Prop :=
  ∃ ring : ℕ → List ℕ, Rings n p fl ring ∧ ∀ c s, s ∈ ring c ↔ M c s

/-- The freelists are those of the slabs they hold. -/
theorem OnLists.congr {n n' p p' : ℕ → ℕ} {fl : ℕ → Option ℕ} {M' : ℕ → ℕ → Prop}
    (h : OnLists n p fl M) (hn : ∀ c s, M c s → n' s = n s) (hp : ∀ c s, M c s → p' s = p s)
    (hM : ∀ c s, M' c s ↔ M c s) : OnLists n' p' fl M' := by
  obtain ⟨ring, hR, hm⟩ := h
  refine ⟨ring, hR.congr (fun c s hs => ?_) fun c s hs => ?_, fun c s => ?_⟩
  · exact hn c s ((hm c s).mp hs)
  · exact hp c s ((hm c s).mp hs)
  · rw [hm, hM]

/-- An empty freelist. -/
theorem OnLists.head_none {n p : ℕ → ℕ} {fl : ℕ → Option ℕ} (h : OnLists n p fl M)
    (hc : fl c = none) : ¬ M c s := by
  obtain ⟨ring, hR, hm⟩ := h
  have hh := hR.head_eq c
  rw [hc, eq_comm, List.head?_eq_none_iff] at hh
  rw [← hm, hh]
  exact List.not_mem_nil

/-- The head of a freelist is on it. -/
theorem OnLists.head_some {n p : ℕ → ℕ} {fl : ℕ → Option ℕ} (h : OnLists n p fl M)
    (hc : fl c = some s) : M c s := by
  obtain ⟨ring, hR, hm⟩ := h
  have hh := hR.head_eq c
  rw [hc] at hh
  exact (hm c s).mp (List.mem_of_head? hh.symm)

/-- A slab that is on no freelist is added to one. -/
theorem freelistAdd_spec (h : OnLists w.listN w.listP w.flist M) (hs : ∀ c, ¬ M c s)
    (hn : w.listN s = s) (hp : w.listP s = s) (c : ℕ) :
    ∃ n p fl, freelistAdd w c s = some { w with listN := n, listP := p, flist := fl } ∧
      OnLists n p fl (fun c' s' => c' = c ∧ s' = s ∨ M c' s') ∧
      ∀ s', s' ≠ s → (∀ c, ¬ M c s') → n s' = w.listN s' ∧ p s' = w.listP s' := by
  have hne : w.flist c ≠ some s := fun hc => hs c (h.head_some hc)
  obtain ⟨ring, hR, hm⟩ := h
  have hoff : ∀ c, s ∉ ring c := fun c hc => hs c ((hm c s).mp hc)
  have hguard : w.listN s = s ∧ w.flist c ≠ some s := ⟨hn, hne⟩
  have hhead := hR.head_eq c
  unfold freelistAdd
  rw [if_pos hguard]
  rcases hc : ring c with _ | ⟨a, l⟩
  · rw [hc] at hhead
    have hnone : w.flist c = none := hhead
    simp only [hnone]
    refine ⟨_, _, _, rfl, ⟨_, hR.addFirst hn hp hoff, fun c' s' => ?_⟩, fun _ _ _ => ⟨rfl, rfl⟩⟩
    by_cases hcc : c' = c
    · subst hcc
      have hM := hm c' s'
      rw [hc] at hM
      rw [update_self]
      beta_reduce
      rw [← hM]
      simp
    · rw [update_of_ne hcc, hm]
      simp [hcc]
  · rw [hc] at hhead
    have hsome : w.flist c = some a := hhead
    simp only [hsome, listAdd]
    have ha : a ∈ ring c := hc ▸ List.mem_cons_self
    refine ⟨_, _, _, rfl, ⟨_, hR.add hc hoff, fun c' s' => ?_⟩, fun s' hs' hM => ?_⟩
    · by_cases hcc : c' = c
      · subst hcc
        have hM := hm c' s'
        rw [hc] at hM
        rw [update_self]
        beta_reduce
        rw [← hM]
        simp [or_comm]
      · rw [update_of_ne hcc, hm]
        simp [hcc]
    · have h₁ : s' ≠ a := fun e => hM c ((hm c s').mp (e ▸ ha))
      have h₂ : s' ≠ w.listN a := fun e => hM c ((hm c s').mp (e ▸ (hR.ring c).next_mem ha))
      rw [update_of_ne h₁, update_of_ne h₂, update_of_ne hs', update_of_ne hs']
      exact ⟨rfl, rfl⟩

/-- A slab is removed from the freelist it is on. -/
theorem freelistRem_spec (h : OnLists w.listN w.listP w.flist M) (hs : M c s) :
    ∃ n p fl, freelistRem w c s = { w with listN := n, listP := p, flist := fl } ∧
      OnLists n p fl (fun c' s' => s' ≠ s ∧ M c' s') ∧ n s = s ∧ p s = s ∧
      ∀ s', (∀ c, ¬ M c s') → n s' = w.listN s' ∧ p s' = w.listP s' := by
  obtain ⟨ring, hR, hm⟩ := h
  have hmem := (hm c s).mpr hs
  have hmem' : ∀ c' s', s' ∈ update ring c ((ring c).erase s) c' ↔ s' ≠ s ∧ M c' s' := by
    intro c' s'
    by_cases hcc : c' = c
    · subst hcc
      rw [update_self, (hR.ring c').nodup.mem_erase_iff, hm]
    · rw [update_of_ne hcc, hm]
      refine ⟨fun h => ⟨?_, h⟩, And.right⟩
      rintro rfl
      exact hcc (hR.disjoint ((hm c' s').mpr h) hmem)
  refine ⟨_, _, _, ?_, ⟨_, hR.rem hmem, hmem'⟩, update_self .., update_self .., fun s' hM => ?_⟩
  · unfold freelistRem listRem
    by_cases hc : w.flist c = some s
    · simp only [if_pos hc]
    · simp only [if_neg hc, update_eq_self]
  · have hoff : ∀ {x}, x ∈ ring c → s' ≠ x := fun hx e => hM c ((hm c s').mp (e ▸ hx))
    rw [update_self_or, update_of_ne (hoff hmem), update_of_ne (hoff hmem),
      update_of_ne (hoff ((hR.ring c).prev_mem hmem)), update_of_ne (hoff ((hR.ring c).next_mem hmem))]
    exact ⟨rfl, rfl⟩

/-- Removing a slab that is on no freelist. -/
theorem freelistRem_off (hne : w.flist c ≠ some s) (hn : w.listN s = s) (hp : w.listP s = s) :
    freelistRem w c s = w := by
  have hN : update w.listN s s = w.listN := update_eq_self_iff.mpr hn.symm
  have hP : update w.listP s s = w.listP := update_eq_self_iff.mpr hp.symm
  unfold freelistRem listRem
  simp only [if_neg hne, hn, hp, hN, hP]

/-- A slab is removed, on a freelist or not. -/
theorem freelistRem_spec' (h : OnLists w.listN w.listP w.flist M)
    (hs : M c s ∨ (∀ c, ¬ M c s) ∧ w.listN s = s ∧ w.listP s = s) :
    ∃ n p fl, freelistRem w c s = { w with listN := n, listP := p, flist := fl } ∧
      OnLists n p fl (fun c' s' => s' ≠ s ∧ M c' s') ∧ n s = s ∧ p s = s ∧
      ∀ s', (∀ c, ¬ M c s') → n s' = w.listN s' ∧ p s' = w.listP s' := by
  rcases hs with hs | ⟨hs, hn, hp⟩
  · exact freelistRem_spec h hs
  · have hne : w.flist c ≠ some s := fun hc => hs c (h.head_some hc)
    refine ⟨_, _, _, freelistRem_off hne hn hp, ?_, hn, hp, fun _ _ => ⟨rfl, rfl⟩⟩
    refine h.congr (fun _ _ _ => rfl) (fun _ _ _ => rfl) fun c' s' => ?_
    refine ⟨And.right, fun hM => ⟨?_, hM⟩⟩
    rintro rfl
    exact hs c' hM

end Parsec.Slab
