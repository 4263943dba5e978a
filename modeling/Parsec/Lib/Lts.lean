import Mathlib.Data.List.Basic
import Mathlib.Logic.Function.Basic

/-!
# Labelled transition systems with a guard on steps

A system is a set of initial states and a partial step function: all the nondeterminism of a step
(which party moves, which value a clock shows, whether an allocation succeeds) is in its label.

* `Lts.Reach G s` — `s` is reached by a run all of whose steps satisfy the guard `G`, a relation on
  the state before a step and the label of the step. `Lts.Reach fun _ _ => True` is plain
  reachability. A property that holds along a class of runs only is stated over `Reach G`.
* `Lts.invariant` — the induction rule: what holds initially and is preserved by guarded steps
  holds in every state reached. `Lts.invariant_of_reach` also offers reachability of the state
  before the step, so that facts proved earlier can be used in a later induction.
* `Lts.execWhen` — a run given by its list of labels, for runs that are exhibited.
-/

namespace Parsec.Lib

universe u v

/-- A labelled transition system: initial states, and a partial function for each label. -/
structure Lts (σ : Type u) (α : Type v) where
  /-- The states a run may start in. -/
  init : σ → Prop
  /-- The state after a step with the given label, if the step is enabled. -/
  step : σ → α → Option σ

namespace Lts

variable {σ : Type u} {α : Type v} (L : Lts σ α)

/-- The states reached by runs whose steps all satisfy the guard `G`. -/
inductive Reach (G : σ → α → Prop) : σ → Prop
  | init {s : σ} : L.init s → Reach G s
  | step {s s' : σ} {a : α} : Reach G s → G s a → L.step s a = some s' → Reach G s'

variable {L} {G : σ → α → Prop}

/-- The induction rule with reachability of the state before the step at hand. -/
theorem invariant_of_reach {I : σ → Prop} (h₀ : ∀ s, L.init s → I s)
    (h₁ : ∀ s a s', L.Reach G s → I s → G s a → L.step s a = some s' → I s') {s : σ}
    (h : L.Reach G s) : I s := by
  induction h with
  | init h => exact h₀ _ h
  | step hr hg hs ih => exact h₁ _ _ _ hr ih hg hs

/-- **The induction rule**: an invariant of guarded steps holds in every state reached by them. -/
theorem invariant {I : σ → Prop} (h₀ : ∀ s, L.init s → I s)
    (h₁ : ∀ s a s', I s → G s a → L.step s a = some s' → I s') {s : σ} (h : L.Reach G s) : I s :=
  invariant_of_reach h₀ (fun s a s' _ => h₁ s a s') h

/-- A guard that holds of the enabled steps of guarded runs may replace theirs. -/
theorem Reach.mono_of_reach {G' : σ → α → Prop} (hG : ∀ s a, L.Reach G s → G s a → G' s a) {s : σ}
    (h : L.Reach G s) : L.Reach G' s := by
  induction h with
  | init h => exact .init h
  | step hr hg hs ih => exact .step ih (hG _ _ hr hg) hs

/-- A weaker guard reaches more states. -/
theorem Reach.mono {G' : σ → α → Prop} (hG : ∀ s a, G s a → G' s a) {s : σ} (h : L.Reach G s) :
    L.Reach G' s :=
  h.mono_of_reach fun s a _ => hG s a

/-- The state after the run with the given labels, if every step of it is enabled and satisfies
the guard. -/
def execWhen (L : Lts σ α) (G : σ → α → Prop) [∀ s a, Decidable (G s a)] : σ → List α → Option σ
  | s, [] => some s
  | s, a :: as => if G s a then (L.step s a).bind fun s' => execWhen L G s' as else none

/-- A run that is exhibited reaches its last state. It may be checked for more than the guard. -/
theorem Reach.execWhen {G' : σ → α → Prop} [∀ s a, Decidable (G' s a)]
    (hG : ∀ s a, G' s a → G s a) {s s' : σ} {as : List α} (h : L.Reach G s)
    (he : L.execWhen G' s as = some s') : L.Reach G s' := by
  induction as generalizing s with
  | nil =>
      rw [Lts.execWhen, Option.some.injEq] at he
      exact he ▸ h
  | cons a as ih =>
      rw [Lts.execWhen] at he
      split at he
      · rename_i hg
        obtain ⟨t, ht, he⟩ := Option.bind_eq_some_iff.mp he
        exact ih (.step h (hG _ _ hg) ht) he
      · cases he

/-- A run that is exhibited, from an initial state, with what its last state is checked to be. -/
theorem exists_reach_of_execWhen [∀ s a, Decidable (G s a)] {s₀ : σ} (h₀ : L.init s₀)
    (as : List α) {p : σ → Bool} (he : (L.execWhen G s₀ as).any p = true) :
    ∃ s, L.Reach G s ∧ p s = true := by
  obtain ⟨s, hs, hp⟩ := (Option.any_eq_true p _).mp he
  exact ⟨s, Reach.execWhen (fun _ _ h => h) (.init h₀) hs, hp⟩

end Lts

end Parsec.Lib
