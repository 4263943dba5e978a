import Mathlib.Data.Nat.Basic
import Mathlib.Logic.Function.Basic

/-!
# Claims on ranges below a frontier

Ranges of `r` numbers are taken by moving a frontier forwards, and the last range may be given back
by moving it backwards; the frontier is a counter of `W` values. A claim is the start of a range,
held by a claimant `k : κ`; claimants may hand their claims to others and drop them. This is the
abstract allocator: `Move` is what it may do besides `Take`.

* `Claims r claim f` — claims are of whole ranges below the frontier `f`, and no two claimants hold
  the same.
* `Move.claims`, `Take.claims` — this is kept as long as the frontier does not wrap. The range below
  the frontier may be given back by who holds it, even if the frontier was elsewhere in between.
* `Claims.disjoint` — the ranges of different claimants are apart.
* `Covered r claim f` — every range below the frontier is claimed, so that the claims partition what
  is below it.
-/

namespace Parsec.Lib

universe u

variable {κ : Type u}

/-! ## The allocator -/

/-- A step that takes nothing from the frontier. -/
inductive Move (r W : ℕ) (claim : κ → Option ℕ) (f : ℕ) (claim' : κ → Option ℕ) : ℕ → Prop
  /-- Claims may be dropped. -/
  | drop : (∀ k id, claim' k = some id → claim k = some id) → Move r W claim f claim' f
  /-- `a` hands its claim over to `b`, if `b` takes it. -/
  | handOver (a b : κ) : claim' a = none → (∀ id, claim' b = some id → claim a = some id) →
      (∀ k id, k ≠ b → claim' k = some id → claim k = some id) → Move r W claim f claim' f
  /-- The range that ends at the frontier is given back by who holds it. -/
  | giveBack (k : κ) (id : ℕ) : claim k = some id → f = (id + r) % W → claim' k = none →
      (∀ k' id, k' ≠ k → claim' k' = some id → claim k' = some id) → Move r W claim f claim' id

/-- `k` takes the range at the frontier, or just moves the frontier past it. -/
structure Take (r W : ℕ) (claim : κ → Option ℕ) (f : ℕ) (k : κ) (claim' : κ → Option ℕ) (f' : ℕ) :
    Prop where
  frontier : f' = (f + r) % W
  self : ∀ id, claim' k = some id → id = f
  other : ∀ k' id, k' ≠ k → claim' k' = some id → claim k' = some id

/-- No two claimants hold the same claim. -/
def Distinct (claim : κ → Option ℕ) : Prop :=
  ∀ k k' id, claim k = some id → claim k' = some id → k = k'

/-- Claims of whole ranges below a frontier, each held once. -/
structure Claims (r : ℕ) (claim : κ → Option ℕ) (f : ℕ) : Prop where
  dvd : ∀ k id, claim k = some id → r ∣ id
  le : ∀ k id, claim k = some id → id + r ≤ f
  inj : Distinct claim

/-- Every range below the frontier is claimed. -/
structure Covered (r : ℕ) (claim : κ → Option ℕ) (f : ℕ) : Prop where
  dvd : r ∣ f
  claimed : ∀ id, r ∣ id → id < f → ∃ k, claim k = some id

/-! ## What its steps keep -/

variable {r W f f' : ℕ} {claim claim' : κ → Option ℕ}

/-- Whole ranges below one another. -/
theorem add_le_of_lt {a b : ℕ} (ha : r ∣ a) (hb : r ∣ b) (hlt : a < b) : a + r ≤ b := by
  obtain ⟨i, rfl⟩ := ha
  obtain ⟨j, rfl⟩ := hb
  have hij : i + 1 ≤ j := Nat.lt_of_mul_lt_mul_left hlt
  calc r * i + r = r * (i + 1) := (Nat.mul_succ r i).symm
    _ ≤ r * j := Nat.mul_le_mul_left r hij

/-- Claims of which some are dropped. -/
theorem Distinct.drop (hD : Distinct claim)
    (hback : ∀ k id, claim' k = some id → claim k = some id) : Distinct claim' :=
  fun k k' id hk hk' => hD k k' id (hback k id hk) (hback k' id hk')

/-- What is claimed after a step was claimed before. -/
theorem Move.claimed (h : Move r W claim f claim' f') {k : κ} {id : ℕ} (hk : claim' k = some id) :
    ∃ k', claim k' = some id := by
  cases h with
  | drop hback => exact ⟨k, hback k id hk⟩
  | handOver a b _ hb hother =>
      by_cases hkb : k = b
      · subst hkb
        exact ⟨a, hb id hk⟩
      · exact ⟨k, hother k id hkb hk⟩
  | giveBack k' id' _ _ hnone hother =>
      refine ⟨k, hother k id ?_ hk⟩
      rintro rfl
      rw [hnone] at hk
      cases hk

/-- Claims stay distinct. -/
theorem Move.distinct (h : Move r W claim f claim' f') (hD : Distinct claim) : Distinct claim' := by
  cases h with
  | drop hback => exact hD.drop hback
  | handOver a b ha hb hother =>
      have hne : ∀ {k id}, claim' k = some id → k ≠ a := by
        rintro k id hk rfl
        rw [ha] at hk
        cases hk
      intro k k' id hk hk'
      by_cases hkb : k = b <;> by_cases hkb' : k' = b
      · rw [hkb, hkb']
      · subst hkb
        exact absurd (hD k' a id (hother k' id hkb' hk') (hb id hk)) (hne hk')
      · subst hkb'
        exact absurd (hD k a id (hother k id hkb hk) (hb id hk')) (hne hk)
      · exact hD k k' id (hother k id hkb hk) (hother k' id hkb' hk')
  | giveBack k id _ _ hnone hother =>
      refine hD.drop fun k' id' hk' => hother k' id' ?_ hk'
      rintro rfl
      rw [hnone] at hk'
      cases hk'

/-- The claims stay below the frontier: when the last range is given back, every other claim is of a
range below that one. -/
theorem Move.claims (h : Move r W claim f claim' f') (hC : Claims r claim f) (hf : f < W) :
    Claims r claim' f' ∧ f' ≤ f := by
  have hD := h.distinct hC.inj
  have hdvd : ∀ k id, claim' k = some id → r ∣ id := by
    intro k id hk
    obtain ⟨k', hk'⟩ := h.claimed hk
    exact hC.dvd k' id hk'
  have hle : ∀ k id, claim' k = some id → id + r ≤ f := by
    intro k id hk
    obtain ⟨k', hk'⟩ := h.claimed hk
    exact hC.le k' id hk'
  cases h with
  | drop _ => exact ⟨⟨hdvd, hle, hD⟩, le_rfl⟩
  | handOver _ _ _ _ _ => exact ⟨⟨hdvd, hle, hD⟩, le_rfl⟩
  | giveBack k id hk hfk hnone hother =>
      have hid := hC.le k f' hk
      rw [Nat.mod_eq_of_lt (by omega)] at hfk
      refine ⟨⟨hdvd, fun k' id' hk' => ?_, hD⟩, by omega⟩
      have hne : k' ≠ k := by
        rintro rfl
        rw [hnone] at hk'
        cases hk'
      have hid' : id' ≠ f' := by
        rintro rfl
        exact hne (hC.inj k' k id' (hother k' id' hne hk') hk)
      have := hle k' id' hk'
      exact add_le_of_lt (hdvd k' id' hk') (hC.dvd k f' hk) (by omega)

/-- Claims stay distinct when the range at the frontier is taken and nobody claims it. -/
theorem Take.distinct {k : κ} (h : Take r W claim f k claim' f') (hD : Distinct claim)
    (hfresh : claim' k ≠ none → ∀ k', claim k' ≠ some f) : Distinct claim' := by
  have hself : ∀ {k' id}, k' ≠ k → claim' k' = some id → claim' k ≠ some id := by
    intro k' id hne hk' hk
    obtain rfl := h.self id hk
    exact hfresh (by simp [hk]) k' (h.other k' id hne hk')
  intro k₁ k₂ id h₁ h₂
  by_cases e₁ : k₁ = k <;> by_cases e₂ : k₂ = k
  · rw [e₁, e₂]
  · subst e₁
    exact absurd h₁ (hself e₂ h₂)
  · subst e₂
    exact absurd h₂ (hself e₁ h₁)
  · exact hD k₁ k₂ id (h.other k₁ id e₁ h₁) (h.other k₂ id e₂ h₂)

/-- Nobody claims the range at the frontier. -/
theorem Claims.fresh (hC : Claims r claim f) (hr : 0 < r) (k : κ) : claim k ≠ some f := by
  intro hk
  have := hC.le k f hk
  omega

/-- A range is taken without a wrap. -/
theorem Take.claims {k : κ} (h : Take r W claim f k claim' f') (hC : Claims r claim f) (hf : r ∣ f)
    (hr : 0 < r) (hW : f + r < W) : Claims r claim' f' := by
  have hfr := h.frontier
  rw [Nat.mod_eq_of_lt hW] at hfr
  refine ⟨fun k' id hk' => ?_, fun k' id hk' => ?_, h.distinct hC.inj fun _ => hC.fresh hr⟩
  · by_cases he : k' = k
    · subst he
      exact h.self id hk' ▸ hf
    · exact hC.dvd k' id (h.other k' id he hk')
  · by_cases he : k' = k
    · subst he
      rw [h.self id hk', hfr]
    · have := hC.le k' id (h.other k' id he hk')
      omega

/-- Every range stays claimed when the one at the frontier is taken. -/
theorem Take.covered {k : κ} (h : Take r W claim f k claim' f') (hK : Covered r claim f)
    (hW : f + r < W) (hself : claim' k = some f)
    (hother : ∀ k' id, k' ≠ k → claim k' = some id → claim' k' = some id)
    (hk : claim k = none) : Covered r claim' f' := by
  have hfr := h.frontier
  rw [Nat.mod_eq_of_lt hW] at hfr
  subst hfr
  refine ⟨Nat.dvd_add hK.dvd (Nat.dvd_refl r), fun id hid hlt => ?_⟩
  rcases Nat.lt_or_ge id f with hf | hf
  · obtain ⟨k', hk'⟩ := hK.claimed id hid hf
    refine ⟨k', hother k' id ?_ hk'⟩
    rintro rfl
    rw [hk] at hk'
    cases hk'
  · have hle : ¬ f < id := fun hlt' => by
      have := add_le_of_lt hK.dvd hid hlt'
      omega
    obtain rfl : id = f := by omega
    exact ⟨k, hself⟩

/-- **The ranges of different claimants are apart.** -/
theorem Claims.disjoint (hC : Claims r claim f) {k k' : κ} {id id' x : ℕ} (hk : claim k = some id)
    (hk' : claim k' = some id') (hne : k ≠ k') (hx : id ≤ x ∧ x < id + r) :
    ¬ (id' ≤ x ∧ x < id' + r) := by
  rintro ⟨hx₁, hx₂⟩
  have hd := hC.dvd k id hk
  have hd' := hC.dvd k' id' hk'
  rcases lt_trichotomy id id' with hlt | rfl | hlt
  · have := add_le_of_lt hd hd' hlt
    omega
  · exact hne (hC.inj k k' id hk hk')
  · have := add_le_of_lt hd' hd hlt
    omega

/-- **The claims partition what is below the frontier.** -/
theorem Claims.existsUnique (hC : Claims r claim f) (hK : Covered r claim f) {x : ℕ} (hr : 0 < r)
    (hx : x < f) : ∃! k, ∃ id, claim k = some id ∧ id ≤ x ∧ x < id + r := by
  have hle : x / r * r ≤ x := Nat.div_mul_le_self x r
  have hlt : x < x / r * r + r := Nat.lt_div_mul_add hr
  obtain ⟨k, hk⟩ := hK.claimed (x / r * r) (Nat.dvd_mul_left r (x / r)) (by omega)
  refine ⟨k, ⟨x / r * r, hk, hle, hlt⟩, ?_⟩
  rintro k' ⟨id, hk', hle', hlt'⟩
  by_contra hne
  exact hC.disjoint hk' hk hne ⟨hle', hlt'⟩ ⟨hle, hlt⟩

end Parsec.Lib
