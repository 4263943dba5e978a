import Parsec.Lib.Lts

/-!
# Critical sections under a spin lock

Threads share some data under a lock, a word that a compare-and-swap takes and a store gives back, and
the rest without one. What a thread does while it has the lock takes many steps, with steps of others
in between, and is as one step all the same.

* `Program` — the steps that threads make outside of the lock, and the sections that they enter.
* `Program.fine` — every attempt to take the lock is a step, and every step of a section.
* `Program.coarse` — a section is one step.
* `Abstracts` — what a state of the first stands for; `abstracts_step`, `exists_abstracts` — the first
  is a refinement of the second. `mutex_of_reach` is mutual exclusion.
-/

namespace Parsec.Lib

open Function

/-- What threads do: `σ` are the data under the lock and `ρ` the rest, `α` the steps outside of
sections and `β` the places in one. -/
structure Program (T σ ρ α β : Type*) where
  init : σ → ρ → Prop
  /-- Whose step it is. -/
  who : α → T
  out : ρ → α → Option ρ
  /-- The first place of the section that a thread is about to enter. -/
  entry : ρ → T → Option β
  /-- A step of a section, unless an assertion fails. -/
  body : σ → β → Option (σ × β)
  /-- The places at which a section ends. -/
  last : β → Bool
  /-- The section of a thread has ended there. -/
  exit : ρ → T → β → ρ
  entry_out : ∀ r a r' t, out r a = some r' → t ≠ who a → entry r' t = entry r t
  entry_exit : ∀ r t b t', t' ≠ t → entry (exit r t b) t' = entry r t'

/-- The lock, the data, and where threads are that have it. -/
structure Fine (T σ ρ β : Type*) where
  lock : ℕ
  data : σ
  rest : ρ
  place : T → Option β

namespace Program

variable {T σ ρ α β : Type*} (P : Program T σ ρ α β)

/-- A number of steps of a section, that ends no sooner. -/
def runBody : ℕ → σ → β → Option (σ × β)
  | 0, d, b => some (d, b)
  | k + 1, d, b => if P.last b then none else (P.body d b).bind fun x => runBody k x.1 x.2

section Body

variable {P} {d d' : σ} {b b₀ : β} {k : ℕ}

/-- A body that has not ended takes one more step. -/
theorem runBody_step : P.runBody (k + 1) d b =
    if P.last b then none else (P.body d b).bind fun x => P.runBody k x.1 x.2 := rfl

/-- A body goes on from where it is. -/
theorem runBody_add {j : ℕ} (h : P.runBody k d b₀ = some (d', b)) :
    P.runBody (k + j) d b₀ = P.runBody j d' b := by
  induction k generalizing d b₀ with
  | zero =>
      cases h
      rw [Nat.zero_add]
  | succ k ih =>
      rw [Nat.add_right_comm, runBody_step]
      rw [runBody_step] at h
      split at h
      · cases h
      · rename_i hl
        obtain ⟨⟨d₁, b₁⟩, hb, h⟩ := Option.bind_eq_some_iff.mp h
        rw [if_neg hl, hb, Option.bind_some]
        exact ih h

/-- One more step. -/
theorem runBody_succ {d'' : σ} {b' : β} (h : P.runBody k d b₀ = some (d', b)) (hl : ¬ P.last b = true)
    (hb : P.body d' b = some (d'', b')) : P.runBody (k + 1) d b₀ = some (d'', b') := by
  rw [runBody_add h, runBody_step, if_neg hl, hb]
  rfl

/-- On the way to its end, a section has what is left before it. -/
theorem runBody_ends {j : ℕ} {x y : σ × β} (hx : P.runBody k d b₀ = some x) (hl : P.last x.2 = true)
    (hy : P.runBody j d b₀ = some y) : ∃ i, j + i = k ∧ P.runBody i y.1 y.2 = some x := by
  rcases Nat.le_total j k with hjk | hkj
  · obtain ⟨i, rfl⟩ := Nat.exists_eq_add_of_le hjk
    exact ⟨i, rfl, (runBody_add hy).symm.trans hx⟩
  · -- it does not go on
    obtain ⟨i, rfl⟩ := Nat.exists_eq_add_of_le hkj
    rw [runBody_add hx] at hy
    cases i with
    | zero =>
        cases hy
        exact ⟨0, rfl, rfl⟩
    | succ i =>
        rw [runBody_step, if_pos hl] at hy
        cases hy

/-- A section ends in one way. -/
theorem runBody_unique {j : ℕ} {x y : σ × β} (hx : P.runBody k d b₀ = some x)
    (hl : P.last x.2 = true) (hy : P.runBody j d b₀ = some y) (hl' : P.last y.2 = true) : y = x := by
  obtain ⟨i, -, hi⟩ := runBody_ends hx hl hy
  cases i with
  | zero =>
      cases hi
      rfl
  | succ i =>
      rw [runBody_step, if_pos hl'] at hi
      cases hi

end Body

/-- Sections are one step: the label says how many of their own they take. -/
def coarse : Lts (σ × ρ) (α ⊕ T × ℕ) where
  init s := P.init s.1 s.2
  step
    | (d, r), .inl a => (P.out r a).map fun r => (d, r)
    | (d, r), .inr (t, k) => (P.entry r t).bind fun b => (P.runBody k d b).bind fun x =>
        if P.last x.2 then some (x.1, P.exit r t x.2) else none

variable [DecidableEq T]

/-- A thread outside of the lock makes a step; or the next step of one that is at the lock, or has it:
it tries to take it, makes a step of its section, or gives it back. -/
def fine : Lts (Fine T σ ρ β) (α ⊕ T) where
  init s := P.init s.data s.rest ∧ s.lock = 0 ∧ ∀ t, s.place t = none
  step s
    | .inl a =>
        if (s.place (P.who a)).isNone then (P.out s.rest a).map fun r => { s with rest := r } else none
    | .inr t =>
        match s.place t with
        | none => (P.entry s.rest t).map fun b =>
            if s.lock = 0 then { s with lock := 1, place := update s.place t (some b) } else s
        | some b =>
            if P.last b then
              some { s with lock := 0, rest := P.exit s.rest t b, place := update s.place t none }
            else (P.body s.data b).map fun x =>
              { s with data := x.1, place := update s.place t (some x.2) }

/-! ## The refinement -/

section Refinement

variable {P} {s s' : Fine T σ ρ β} {d : σ} {t t' : T} {b b₀ : β} {k : ℕ}

/-- The data as they were when the lock was taken, or are if nobody has it. -/
structure Abstracts (P : Program T σ ρ α β) (s : Fine T σ ρ β) (d : σ) : Prop where
  free : (∀ t, s.place t = none) → s.lock = 0 ∧ s.data = d
  held : ∀ t b, s.place t = some b → s.lock = 1 ∧ (∀ t', t' ≠ t → s.place t' = none) ∧
    ∃ b₀ k, P.entry s.rest t = some b₀ ∧ P.runBody k d b₀ = some (s.data, b)

/-- Nobody is in the lock at the start. -/
theorem Abstracts.init (h : P.fine.init s) : P.coarse.init (s.data, s.rest) ∧ Abstracts P s s.data :=
  ⟨h.1, fun _ => ⟨h.2.1, rfl⟩, fun t b hb => by rw [h.2.2 t] at hb; cases hb⟩

omit [DecidableEq T] in
/-- Where the lock is free, nobody has it. -/
theorem Abstracts.place_none (h : Abstracts P s d) (h0 : s.lock = 0) (t : T) : s.place t = none := by
  rcases hp : s.place t with _ | b
  · rfl
  · have h1 := (h.held t b hp).1
    omega

/-- At most one thread has it. -/
theorem Abstracts.unique (h : Abstracts P s d) {b' : β} (ht : s.place t = some b)
    (ht' : s.place t' = some b') : t = t' := by
  by_contra hne
  have hnone := (h.held t b ht).2.1 t' (Ne.symm hne)
  rw [hnone] at ht'
  cases ht'

omit [DecidableEq T] in
/-- A thread that is alone in its section has the lock. -/
theorem Abstracts.of_held (hlock : s.lock = 1) (ht : s.place t = some b)
    (hothers : ∀ t', t' ≠ t → s.place t' = none) (hentry : P.entry s.rest t = some b₀)
    (hrun : P.runBody k d b₀ = some (s.data, b)) : Abstracts P s d := by
  constructor
  · intro hnone
    rw [hnone t] at ht
    cases ht
  · intro t' b' ht'
    obtain rfl : t' = t := by
      by_contra hne
      rw [hothers t' hne] at ht'
      cases ht'
    cases ht.symm.trans ht'
    exact ⟨hlock, hothers, b₀, k, hentry, hrun⟩

omit [DecidableEq T] in
/-- A step outside of the lock: it is not one of the thread that has it. -/
theorem Abstracts.outside (h : Abstracts P s d) {a : α} {r : ρ} (hp : s.place (P.who a) = none)
    (hr : P.out s.rest a = some r) : Abstracts P { s with rest := r } d := by
  refine ⟨h.free, fun t b ht => ?_⟩
  have ht : s.place t = some b := ht
  obtain ⟨hlock, hothers, b₀, k, hentry, hrun⟩ := h.held t b ht
  have hne : t ≠ P.who a := by
    rintro rfl
    rw [hp] at ht
    cases ht
  exact ⟨hlock, hothers, b₀, k, (P.entry_out s.rest a r t hr hne).trans hentry, hrun⟩

/-- The lock is taken. -/
theorem Abstracts.take (h : Abstracts P s d) (h0 : s.lock = 0) (hb : P.entry s.rest t = some b) :
    Abstracts P { s with lock := 1, place := update s.place t (some b) } d := by
  have hd : s.data = d := (h.free (h.place_none h0)).2
  refine .of_held rfl (update_self ..) (fun t' hne => ?_) hb (k := 0) (by rw [← hd]; rfl)
  exact (update_of_ne hne ..).trans (h.place_none h0 t')

/-- A thread that has the lock moves on. -/
theorem Abstracts.move (h : Abstracts P s d) (ht : s.place t = some b) {d₁ : σ} {b₁ : β}
    (hl : ¬ P.last b = true) (hb : P.body s.data b = some (d₁, b₁)) :
    Abstracts P { s with data := d₁, place := update s.place t (some b₁) } d := by
  obtain ⟨hlock, hothers, b₀, k, hentry, hrun⟩ := h.held t b ht
  refine .of_held hlock (update_self ..) (fun t' hne => ?_) hentry (runBody_succ hrun hl hb)
  exact (update_of_ne hne ..).trans (hothers t' hne)

/-- The lock is given back: the section was one step. -/
theorem Abstracts.giveBack (h : Abstracts P s d) (ht : s.place t = some b) (hl : P.last b = true) :
    Abstracts P { s with lock := 0, rest := P.exit s.rest t b, place := update s.place t none } s.data ∧
      ∃ k, P.coarse.step (d, s.rest) (.inr (t, k)) = some (s.data, P.exit s.rest t b) := by
  obtain ⟨-, hothers, b₀, k, hentry, hrun⟩ := h.held t b ht
  have hnone : ∀ t', update s.place t none t' = none := by
    intro t'
    by_cases he : t' = t
    · rw [he, update_self]
    · rw [update_of_ne he, hothers t' he]
  refine ⟨⟨fun _ => ⟨rfl, rfl⟩, fun t' b' ht' => ?_⟩, k, ?_⟩
  · exact absurd (ht'.symm.trans (hnone t')) (Option.some_ne_none b')
  · simp only [coarse, hentry, hrun, hl, Option.bind_some, if_true]

/-- What a step of the system with the lock is in the other one: none, or one step. -/
def Follows (P : Program T σ ρ α β) (x x' : σ × ρ) : α ⊕ T → Prop
  | .inl a => P.coarse.step x (.inl a) = some x'
  | .inr t => x' = x ∨ ∃ k, P.coarse.step x (.inr (t, k)) = some x'

/-- **A step is a step or none**, where a section is one when the lock is given back. -/
theorem abstracts_step (h : Abstracts P s d) {a : α ⊕ T} (hs : P.fine.step s a = some s') :
    ∃ d', Abstracts P s' d' ∧ Follows P (d, s.rest) (d', s'.rest) a := by
  cases a with
  | inl a =>
      obtain ⟨hp, hs⟩ := Option.ite_none_right_eq_some.mp hs
      obtain ⟨r, hr, rfl⟩ := Option.map_eq_some_iff.mp hs
      refine ⟨d, h.outside (Option.isNone_iff_eq_none.mp hp) hr, ?_⟩
      show (P.out s.rest a).map _ = _
      rw [hr]
      rfl
  | inr t =>
      simp only [fine] at hs
      rcases hp : s.place t with _ | b <;> rw [hp] at hs
      · -- an attempt to take the lock
        obtain ⟨b, hb, rfl⟩ := Option.map_eq_some_iff.mp hs
        split
        · rename_i h0
          exact ⟨d, h.take h0 hb, .inl rfl⟩
        · exact ⟨d, h, .inl rfl⟩
      · dsimp only at hs
        split at hs
        · rename_i hl
          cases hs
          obtain ⟨hA, hk⟩ := h.giveBack hp hl
          exact ⟨s.data, hA, .inr hk⟩
        · rename_i hl
          obtain ⟨⟨d₁, b₁⟩, hb, rfl⟩ := Option.map_eq_some_iff.mp hs
          exact ⟨d, h.move hp hl hb, .inl rfl⟩

/-- What is checked of steps outside of sections, in the system with the lock. -/
def onFine (G : ρ → α → Prop) (s : Fine T σ ρ β) : α ⊕ T → Prop
  | .inl a => G s.rest a
  | .inr _ => True

instance (G : ρ → α → Prop) [∀ r a, Decidable (G r a)] (s : Fine T σ ρ β) :
    ∀ a : α ⊕ T, Decidable (onFine G s a)
  | .inl a => inferInstanceAs (Decidable (G s.rest a))
  | .inr _ => .isTrue trivial

omit [DecidableEq T] in
/-- What is checked of steps outside of sections, in the other one. -/
def onCoarse (G : ρ → α → Prop) (s : σ × ρ) : α ⊕ T × ℕ → Prop
  | .inl a => G s.2 a
  | .inr _ => True

/-- **A run is a run in which sections are one step.** -/
theorem exists_abstracts {G : ρ → α → Prop} (h : P.fine.Reach (onFine G) s) :
    ∃ d, P.coarse.Reach (onCoarse G) (d, s.rest) ∧ Abstracts P s d := by
  refine Lts.invariant (I := fun s => ∃ d, P.coarse.Reach (onCoarse G) (d, s.rest) ∧ Abstracts P s d)
    (fun s h₀ => ?_) (fun s a s' hI hg hs => ?_) h
  · obtain ⟨hinit, hA⟩ := Abstracts.init h₀
    exact ⟨s.data, .init hinit, hA⟩
  · obtain ⟨d, hr, hA⟩ := hI
    obtain ⟨d', hA', hF⟩ := abstracts_step hA hs
    refine ⟨d', ?_, hA'⟩
    cases a with
    | inl a => exact hr.step (a := .inl a) hg hF
    | inr t =>
        rcases hF with he | ⟨k, hk⟩
        · rw [he]
          exact hr
        · exact hr.step (a := .inr (t, k)) trivial hk

/-- **Mutual exclusion**: at most one thread is in a section, and the lock is taken if one is. -/
theorem mutex_of_reach {G : ρ → α → Prop} (h : P.fine.Reach (onFine G) s) :
    (∀ t t' b b', s.place t = some b → s.place t' = some b' → t = t') ∧
      (s.lock = 0 ↔ ∀ t, s.place t = none) := by
  obtain ⟨d, -, hA⟩ := exists_abstracts h
  exact ⟨fun t t' b b' ht ht' => hA.unique ht ht', hA.place_none, fun hnone => (hA.free hnone).1⟩

end Refinement

end Program

end Parsec.Lib
