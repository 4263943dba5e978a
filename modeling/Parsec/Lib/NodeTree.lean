import Mathlib.Data.List.Induction
import Mathlib.Logic.Function.Basic

/-!
# Trees of nodes in a heap

A partial function `next b d` gives the node that the pointer in direction `d` of node `b` leads
to. Only paths of at most `n` hops from a root are looked at, so that what the nodes at level `n`
store can be anything.

* `walk next root p` — the node at the end of the path `p`.
* `walk_congr` — a walk reads `next` at the nodes above level `n` only.
* `WalkInj next root n` — no two paths lead to one node. Linking a fresh node where there was none
  (`walk_link`) adds one path and keeps the others, and keeps the heap a tree (`WalkInj.link`).
-/

namespace Parsec.Lib

variable {β D : Type*}

/-- The node at the end of a path. -/
def walk (next : β → D → Option β) (root : β) (p : List D) : Option β :=
  p.foldl (fun o d => o.bind fun b => next b d) (some root)

section Walk

variable {next next' : β → D → Option β} {root : β} {n : ℕ}

/-- The empty path ends at the root. -/
@[simp] theorem walk_nil : walk next root [] = some root := rfl

/-- The last step of a walk. -/
@[simp] theorem walk_snoc (p : List D) (d : D) :
    walk next root (p ++ [d]) = (walk next root p).bind fun b => next b d := by
  simp [walk]

/-- A path that has left the tree does not come back. -/
theorem walk_append_eq_none {p : List D} (h : walk next root p = none) (q : List D) :
    walk next root (p ++ q) = none := by
  induction q using List.reverseRecOn with
  | nil => simpa using h
  | append_singleton q d ih => rw [← List.append_assoc, walk_snoc, ih, Option.bind_none]

/-- Walks of at most `n` hops read `next` at the nodes above level `n` only. -/
theorem walk_congr
    (h : ∀ p b, p.length < n → walk next root p = some b → ∀ d, next' b d = next b d)
    {p : List D} (hp : p.length ≤ n) : walk next' root p = walk next root p := by
  induction p using List.reverseRecOn with
  | nil => rfl
  | append_singleton p d ih =>
      rw [List.length_append, List.length_singleton] at hp
      rw [walk_snoc, walk_snoc, ih (by omega)]
      cases hw : walk next root p with
      | none => rfl
      | some b => exact h p b (by omega) hw d

/-- No two paths of at most `n` hops lead to one node. -/
def WalkInj (next : β → D → Option β) (root : β) (n : ℕ) : Prop :=
  ∀ p q b, p.length ≤ n → q.length ≤ n → walk next root p = some b → walk next root q = some b →
    p = q

/-- A tree stays one when the nodes above level `n` keep their pointers. -/
theorem WalkInj.congr (hI : WalkInj next root n)
    (h : ∀ p b, p.length < n → walk next root p = some b → ∀ d, next' b d = next b d) :
    WalkInj next' root n := by
  intro p q b hp hq hwp hwq
  rw [walk_congr h hp] at hwp
  rw [walk_congr h hq] at hwq
  exact hI p q b hp hq hwp hwq

/-! ## Linking a fresh node -/

section Link

variable [DecidableEq D] {p : List D} {b new : β} {d : D}

/-- Where a fresh node without children is linked in direction `d` of the node at `p`, with no
node there before, one path is added. -/
theorem walk_link (hI : WalkInj next root n) (hp : p.length < n)
    (hb : walk next root p = some b) (hnone : next b d = none)
    (hlink : next' b d = some new) (hnew : ∀ e, p.length + 1 < n → next' new e = none)
    (hkeep : ∀ q c e, q.length < n → walk next root q = some c → (c ≠ b ∨ e ≠ d) →
      next' c e = next c e)
    {q : List D} (hq : q.length ≤ n) :
    walk next' root q = if q = p ++ [d] then some new else walk next root q := by
  induction q using List.reverseRecOn with
  | nil => simp
  | append_singleton q e ih =>
      rw [List.length_append, List.length_singleton] at hq
      rw [walk_snoc, ih (by omega)]
      by_cases hqp : q = p ++ [d]
      · -- below the fresh node there is nothing, before and after
        subst hqp
        rw [List.length_append, List.length_singleton] at hq
        have hlen : p ++ [d] ++ [e] ≠ p ++ [d] := fun h => by simpa using congrArg List.length h
        have hold : walk next root (p ++ [d]) = none := by rw [walk_snoc, hb]; exact hnone
        rw [if_pos rfl, if_neg hlen, Option.bind_some, hnew e (by omega), walk_snoc, hold,
          Option.bind_none]
      · rw [if_neg hqp, walk_snoc]
        cases hc : walk next root q with
        | none =>
            have hne : q ++ [e] ≠ p ++ [d] := by
              intro h
              rw [(List.append_inj' h rfl).1, hb] at hc
              cases hc
            rw [if_neg hne, Option.bind_none, Option.bind_none]
        | some c =>
            rw [Option.bind_some, Option.bind_some]
            by_cases h : q ++ [e] = p ++ [d]
            · obtain ⟨rfl, he⟩ := List.append_inj' h rfl
              rw [List.singleton_inj] at he
              rw [hb, Option.some.injEq] at hc
              rw [if_pos h, ← hc, he, hlink]
            · rw [if_neg h]
              refine hkeep q c e (by omega) hc ?_
              by_contra hcon
              push Not at hcon
              obtain ⟨rfl, rfl⟩ := hcon
              exact h (by rw [hI q p c (by omega) (by omega) hc hb])

/-- Linking a fresh node without children keeps the heap a tree. -/
theorem WalkInj.link (hI : WalkInj next root n)
    (hfresh : ∀ q, q.length ≤ n → walk next root q ≠ some new)
    (hwalk : ∀ q, q.length ≤ n →
      walk next' root q = if q = p ++ [d] then some new else walk next root q) :
    WalkInj next' root n := by
  intro q r c hq hr hwq hwr
  rw [hwalk q hq] at hwq
  rw [hwalk r hr] at hwr
  split at hwq <;> split at hwr
  · rename_i h₁ h₂
    rw [h₁, h₂]
  · cases hwq
    exact absurd hwr (hfresh r hr)
  · cases hwr
    exact absurd hwq (hfresh q hq)
  · exact hI q r c hq hr hwq hwr

end Link

end Walk

end Parsec.Lib
