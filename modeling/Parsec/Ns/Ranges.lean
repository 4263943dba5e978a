import Mathlib.Data.Set.BooleanAlgebra
import Mathlib.Order.CompletePartialOrder
import Mathlib.Order.Interval.Set.Defs
import Parsec.Lib.Frontier
import Parsec.Ns.Run

/-!
# Id ranges of slabs

Slab registration is an instance of the abstract allocator of `Parsec.Lib.Frontier`: an id taken
from the frontier is claimed, by the thread at first, then by the header it allocates, then by the
thread again if the header is given back, until the compare-and-swap.

* `Simulates.of_step` — every step is a step of the abstract allocator.
* `ranges_of_reach`, `ranges_disjoint` — as long as no addition to the frontier wraps, the claims
  are below the frontier and the id ranges of slab headers are apart, whatever the interleaving of
  the locked sections, the fetch-and-add and the compare-and-swap.
* `distinct_of_reach` — no two headers have the same ids as long as nobody has the ids that an
  addition returns, which is so without a wrap (`ownIds_of_noWrap`).
-/

namespace Parsec.Ns

open Function Ertrie Lib

/-! ## Claims -/

/-- The id that a thread has taken from the frontier and that no header has. -/
def Pc.claim : Pc → Option ℕ
  | .header id | .reset id => some id
  | _ => none

section Defs

variable {τ : Type}

/-- Who claims which ids: threads and allocated headers. -/
def claim (s : St τ) : τ ⊕ ℕ → Option ℕ
  | .inl t => (s.pc t).claim
  | .inr h => if s.header h = true then some (s.start h) else none

/-- The addition to the frontier does not wrap. -/
def NoWrap [DecidableEq τ] (g : NsGeom) (s : St τ) : Act τ → Prop
  | .step t _ => s.pc t = .faa → s.frontier + g.range < 2 ^ wordBits g.arch
  | _ => True

instance [DecidableEq τ] (g : NsGeom) (s : St τ) (a : Act τ) : Decidable (NoWrap g s a) := by
  cases a with
  | step t o => exact inferInstanceAs (Decidable (_ → _))
  | _ => exact inferInstanceAs (Decidable True)

/-- The ids that the addition to the frontier returns are nobody's. -/
def OwnIds [DecidableEq τ] (g : NsGeom) (s : St τ) : Act τ → Prop
  | .step t _ => s.pc t = .faa → s.frontier < g.descMax → ∀ k, claim s k ≠ some s.frontier
  | _ => True

/-- The claims, and the frontier within the word. -/
structure Ranges (g : NsGeom) (s : St τ) : Prop where
  claims : Claims g.range (claim s) s.frontier
  word : s.frontier < 2 ^ wordBits g.arch

/-- A step is one of the abstract allocator. Only the fetch-and-add takes a range. -/
inductive Simulates (g : NsGeom) (s : St τ) (a : Act τ) (s' : St τ) : Prop
  | move : Move g.range (2 ^ wordBits g.arch) (claim s) s.frontier (claim s') s'.frontier →
      Simulates g s a s'
  | take (t : τ) (o : Oracle) : a = .step t o → s.pc t = .faa →
      Take g.range (2 ^ wordBits g.arch) (claim s) s.frontier (.inl t) (claim s') s'.frontier →
      (claim s' (.inl t) ≠ none → s.frontier < g.descMax) → Simulates g s a s'

/-- A slab that is in use, on the freelist, or held by a call. -/
def Present (s : St τ) (h : ℕ) : Prop :=
  s.inUse h = true ∨ h ∈ s.fl ∨ ∃ t, (s.pc t).hdr = some h

end Defs

/-! ## Steps -/

section Steps

variable {τ : Type} [DecidableEq τ] {g : NsGeom} {s s' : St τ} {t : τ} {p : Pc}

omit [DecidableEq τ] in
/-- A header claims the range that it has. -/
@[simp] theorem claim_inr (s : St τ) (h : ℕ) :
    claim s (.inr h) = if s.header h = true then some (s.start h) else none := rfl

/-- A thread claims what its program point does. -/
theorem claim_setPc_self : claim (s.setPc t p) (.inl t) = p.claim :=
  congrArg Pc.claim setPc_pc_self

/-- Another thread moves: this one claims what it did. -/
theorem claim_setPc_ne {t' : τ} (h : t' ≠ t) : claim (s.setPc t p) (.inl t') = claim s (.inl t') :=
  congrArg Pc.claim (setPc_pc_ne h)

/-- A step that moves a thread, and leaves headers and the frontier as they are. -/
theorem Simulates.setPc {s₁ : St τ} {a : Act τ} (hpc : s₁.pc = s.pc)
    (hf : s₁.frontier = s.frontier) (hh : s₁.header = s.header) (hs : s₁.start = s.start)
    (hp : p.claim = none) : Simulates g s a (s₁.setPc t p) := by
  apply Simulates.move
  show Move _ _ _ _ _ s₁.frontier
  rw [hf]
  apply Move.drop
  intro k id hk
  rcases k with t' | h
  · by_cases he : t' = t
    · subst he
      rw [claim_setPc_self, hp] at hk
      cases hk
    · rw [claim_setPc_ne he] at hk
      rw [← hk]
      exact congrArg (fun pc => Pc.claim (pc t')) hpc.symm
  · rw [← hk]
    show _ = if s₁.header h = true then some (s₁.start h) else none
    rw [hh, hs, claim_inr]

omit [DecidableEq τ] in
/-- A thread that holds a header claims no id. -/
theorem claim_of_hdr {h : ℕ} (hp : p.hdr = some h) : p.claim = none := by
  cases p with
  | header _ | reset _ => cases hp
  | _ => rfl

omit [DecidableEq τ] in
/-- Where a lookup that returned NULL leads, no id is claimed. -/
theorem claim_of_lookupNull {k : Caller} (h : lookupNull s k = some p) : p.claim = none := by
  cases k with
  | user | absent _ _ | gone _ =>
      cases h
      rfl
  | present _ _ | unlink _ => cases h

/-- The end of a lookup. -/
theorem Simulates.lookupFound {a : Act τ} {n : Addr} {k : Caller}
    (h : lookupFound s t n k = some s') : Simulates g s a s' := by
  cases k with
  | user | unlink _ =>
      cases h
      exact .setPc rfl rfl rfl rfl rfl
  | present h' _ =>
      simp only [Ns.lookupFound, Option.ite_none_right_eq_some, Option.some.injEq] at h
      obtain ⟨-, rfl⟩ := h
      exact .setPc rfl rfl rfl rfl rfl
  | absent _ _ | gone _ => cases h

/-- The fetch-and-add takes a range. -/
theorem take_faa {f : ℕ} (hp : ∀ id, p.claim = some id → id = s.frontier)
    (hf : f = (s.frontier + g.range) % 2 ^ wordBits g.arch) :
    Take g.range (2 ^ wordBits g.arch) (claim s) s.frontier (.inl t)
      (claim ({ s with frontier := f }.setPc t p)) f := by
  refine ⟨hf, fun id hk => ?_, fun k id hne hk => ?_⟩
  · rw [claim_setPc_self] at hk
    exact hp id hk
  · rcases k with t' | h
    · rw [claim_setPc_ne fun he => hne (congrArg Sum.inl he)] at hk
      exact hk
    · exact hk

/-- A header takes over the claim of the thread that allocates it. -/
theorem Simulates.header {a : Act τ} {id h : ℕ} (ht : s.pc t = .header id) {e : ℕ}
    {mem : ℕ → Option ℕ} (hp : p.claim = none) :
    Simulates g s a ({ s with
      header := update s.header h true
      start := update s.start h id
      end_ := update s.end_ h e
      memory := mem }.setPc t p) := by
  refine .move (.handOver (.inl t) (.inr h) (claim_setPc_self.trans hp) (fun id' hk => ?_)
    fun k id' hne hk => ?_)
  · have hself : (if update s.header h true h = true then some (update s.start h id h)
      else none) = some id' := hk
    rw [update_self, if_pos rfl, update_self] at hself
    rw [← hself]
    exact congrArg Pc.claim ht
  · rcases k with t' | h'
    · by_cases he : t' = t
      · subst he
        rw [claim_setPc_self, hp] at hk
        cases hk
      · rw [claim_setPc_ne he] at hk
        exact hk
    · have he : h' ≠ h := fun he => hne (congrArg Sum.inr he)
      have hk' : (if update s.header h true h' = true then some (update s.start h id h')
        else none) = some id' := hk
      rw [update_of_ne he, update_of_ne he] at hk'
      exact hk'

/-- A header is given back: a thread that took its ids from the frontier claims them again. -/
theorem Simulates.freeHeader {a : Act τ} {h : ℕ} {new : Option ℕ} (hh : s.header h = true)
    (hnew : NewOk s h new) :
    Simulates g s a ({ s with header := update s.header h false }.setPc t (resetFrontier new)) := by
  refine .move (.handOver (.inr h) (.inl t) ?_ (fun id hk => ?_) fun k id hne hk => ?_)
  · show (if update s.header h false h = true then some (s.start h) else none) = none
    simp
  · rw [claim_setPc_self] at hk
    rw [claim_inr, if_pos hh]
    cases new with
    | none => cases hk
    | some id' =>
        cases hk
        rw [hnew id rfl]
  · rcases k with t' | h'
    · rw [claim_setPc_ne fun he => hne (congrArg Sum.inl he)] at hk
      exact hk
    · have hk' : (if update s.header h false h' = true then some (s.start h') else none) =
        some id := hk
      by_cases he : h' = h
      · simp [he] at hk'
      · rwa [update_of_ne he] at hk'

/-- The compare-and-swap that gives a range back. -/
theorem Simulates.reset {a : Act τ} {id : ℕ} (ht : s.pc t = .reset id) :
    Simulates g s a ({ s with
      frontier := if s.frontier = (id + g.range) % 2 ^ wordBits g.arch then id
        else s.frontier }.setPc t .idle) := by
  have hother : ∀ {f k id'}, claim ({ s with frontier := f }.setPc t .idle) k = some id' →
      claim s k = some id' := by
    intro f k id' hk'
    rcases k with t' | h
    · by_cases he : t' = t
      · subst he
        rw [claim_setPc_self] at hk'
        cases hk'
      · rw [claim_setPc_ne he] at hk'
        exact hk'
    · exact hk'
  have hk : claim s (.inl t) = some id := congrArg Pc.claim ht
  apply Simulates.move
  show Move _ _ _ _ _ (if _ then id else s.frontier)
  split
  · rename_i hf
    exact .giveBack _ id hk hf claim_setPc_self fun _ _ _ hk' => hother hk'
  · exact .drop fun _ _ hk' => hother hk'

/-- **Every step is a step of the abstract allocator.** -/
theorem Simulates.of_step {tag : Tag} (hI : Inv g tag s) {a : Act τ}
    (hs : step g s a = some s') : Simulates g s a s' := by
  cases a with
  | nsalloc t | nsfree t h | lkup t id =>
      simp only [Ns.step, Option.ite_none_right_eq_some, Option.some.injEq] at hs
      obtain ⟨-, rfl⟩ := hs
      exact .setPc rfl rfl rfl rfl rfl
  | step t o =>
      simp only [Ns.step] at hs
      have hnext : ∀ {h new i n}, (expNext g s h new i n).claim = none :=
        claim_of_hdr (expNext_spec ..).1
      unfold tick at hs
      cases ht : s.pc t with
      | idle =>
          rw [ht] at hs
          cases hs
      | pop =>
          simp only [ht] at hs
          split at hs <;> cases hs <;> exact .setPc rfl rfl rfl rfl rfl
      | faa =>
          simp only [ht] at hs
          cases hs
          refine .take t o rfl ht (take_faa (fun id hid => ?_) rfl) fun hk => ?_
          · split at hid <;> cases hid
            rfl
          · rw [claim_setPc_self] at hk
            split at hk
            · exact absurd rfl hk
            · exact not_le.mp ‹_›
      | header id =>
          simp only [ht] at hs
          split at hs
          · cases hs
            exact .setPc rfl rfl rfl rfl rfl
          · split at hs <;> cases hs
            exact .header ht rfl
      | memory h new =>
          simp only [ht] at hs
          split at hs
          · split at hs <;> cases hs <;> exact .setPc rfl rfl rfl rfl rfl
          · cases hs
      | test k id limit i n =>
          simp only [ht, Option.bind_eq_bind, Option.bind_eq_some_iff] at hs
          obtain ⟨p, -, hs⟩ := hs
          split at hs
          · obtain ⟨p', hp', rfl⟩ := Option.map_eq_some_iff.mp hs
            exact .setPc rfl rfl rfl rfl (claim_of_lookupNull hp')
          · cases hs
            exact .setPc rfl rfl rfl rfl rfl
      | hop k id limit i n =>
          simp only [ht, Option.bind_eq_bind, Option.bind_eq_some_iff] at hs
          obtain ⟨n', -, hs⟩ := hs
          cases hs
          refine .setPc rfl rfl rfl rfl ?_
          split <;> rfl
      | resolve k id limit n =>
          simp only [ht] at hs
          split at hs
          · cases hs
          split at hs
          · obtain ⟨p', hp', rfl⟩ := Option.map_eq_some_iff.mp hs
            exact .setPc rfl rfl rfl rfl (claim_of_lookupNull hp')
          · exact .lookupFound hs
      | expWalk h new i n =>
          simp only [ht, Option.bind_eq_bind, Option.bind_eq_some_iff] at hs
          obtain ⟨n', -, hs⟩ := hs
          cases hs
          exact .setPc rfl rfl rfl rfl rfl
      | expTest h new i n =>
          simp only [ht, Option.bind_eq_bind, Option.bind_eq_some_iff] at hs
          obtain ⟨p, -, hs⟩ := hs
          cases hs
          refine .setPc rfl rfl rfl rfl ?_
          split
          · exact hnext
          · rfl
      | expAlloc h new i n =>
          simp only [ht] at hs
          split at hs <;> cases hs <;> exact .setPc rfl rfl rfl rfl rfl
      | expInit h new i n node =>
          simp only [ht, Option.bind_eq_bind, Option.bind_eq_some_iff] at hs
          obtain ⟨m, -, hs⟩ := hs
          cases hs
          exact .setPc rfl rfl rfl rfl rfl
      | expSet h new i n node =>
          simp only [ht, Option.bind_eq_bind, Option.bind_eq_some_iff] at hs
          obtain ⟨m, -, hs⟩ := hs
          cases hs
          exact .setPc rfl rfl rfl rfl hnext
      | freeMem h new | platFree h | clear h n =>
          simp only [ht, Option.bind_eq_bind, Option.bind_eq_some_iff] at hs
          obtain ⟨m, -, hs⟩ := hs
          cases hs
          exact .setPc rfl rfl rfl rfl rfl
      | check h n =>
          simp only [ht, Option.bind_eq_bind, Option.bind_eq_some_iff] at hs
          obtain ⟨p, -, hs⟩ := hs
          split at hs <;> cases hs
          exact .setPc rfl rfl rfl rfl rfl
      | freeHeader h new =>
          simp only [ht] at hs
          cases hs
          exact .freeHeader (hI.headers.held t h (by rw [ht]; rfl)).1 (hI.okAt ht)
      | reset id =>
          simp only [ht] at hs
          cases hs
          exact .reset ht
      | forget h | push h =>
          simp only [ht] at hs
          cases hs
          exact .setPc rfl rfl rfl rfl rfl

/-! ## Runs -/

omit [DecidableEq τ] in
/-- Nothing is claimed in a new namespace. -/
theorem claim_nsInit (h : nsInit τ g s) (k : τ ⊕ ℕ) : claim s k = none := by
  obtain ⟨-, -, -, hhdr, -, -, -, hpc⟩ := h
  rcases k with t | h
  · show (s.pc t).claim = none
    rw [hpc]
    rfl
  · rw [claim_inr, hhdr, if_neg Bool.false_ne_true]

/-- The claims of every state reached without a wrap. -/
theorem ranges_of_reach (h : (lts τ g).Reach (NoWrap g) s) : Ranges g s := by
  refine Lts.invariant_of_reach (L := lts τ g) (I := Ranges g) (fun s h₀ => ?_)
    (fun s a s' hreach hR hG hs => ?_) h
  · have hnone := claim_nsInit h₀
    have hf : s.frontier = 0 := h₀.2.2.1
    refine ⟨⟨?_, ?_, fun k k' id hk _ => ?_⟩, hf ▸ Nat.two_pow_pos _⟩
    · simp [hnone]
    · simp [hnone]
    · rw [hnone] at hk
      cases hk
  · obtain ⟨tag, hI⟩ := exists_inv hreach
    cases Simulates.of_step hI hs with
    | move hm =>
        obtain ⟨hC, hle⟩ := hm.claims hR.claims hR.word
        exact ⟨hC, lt_of_le_of_lt hle hR.word⟩
    | take t o ha ht htake _ =>
        subst ha
        refine ⟨htake.claims hR.claims hI.headers.frontier g.range_pos (hG ht), ?_⟩
        rw [htake.frontier]
        exact Nat.mod_lt _ (Nat.two_pow_pos _)

/-- The claims of every state reached in which additions return ids that are nobody's. -/
theorem distinct_of_reach (h : (lts τ g).Reach (OwnIds g) s) : Distinct (claim s) := by
  refine Lts.invariant_of_reach (L := lts τ g) (I := fun s => Distinct (claim s)) (fun s h₀ => ?_)
    (fun s a s' hreach hD hG hs => ?_) h
  · intro k k' id hk _
    rw [claim_nsInit h₀] at hk
    cases hk
  · obtain ⟨tag, hI⟩ := exists_inv hreach
    cases Simulates.of_step hI hs with
    | move hm => exact hm.distinct hD
    | take t o ha ht htake hlt =>
        subst ha
        exact htake.distinct hD fun hk => hG ht (hlt hk)

/-- Without a wrap, additions return ids that are nobody's. -/
theorem ownIds_of_noWrap (h : (lts τ g).Reach (NoWrap g) s) (a : Act τ) : OwnIds g s a := by
  cases a with
  | step t o => exact fun _ _ k => (ranges_of_reach h).claims.fresh g.range_pos k
  | _ => trivial

omit [DecidableEq τ] in
/-- A slab that is present has an allocated header. -/
theorem Headers.header_of_present (hH : Headers g s) {h : ℕ} (hp : Present s h) :
    s.header h = true := by
  rcases hp with hu | hfl | ⟨t, ht⟩
  · exact hH.inUse h hu
  · exact (hH.fl h hfl).1
  · exact (hH.held t h ht).1

/-- **The id ranges of slabs are apart**: of any two slabs that are in use, on the freelist, or held
by a call, in every state reached without a wrap of the frontier. -/
theorem ranges_disjoint (hreach : (lts τ g).Reach (NoWrap g) s) {h h' : ℕ} (hp : Present s h)
    (hp' : Present s h') (hne : h ≠ h') :
    Disjoint (Set.Ico (s.start h) (s.end_ h)) (Set.Ico (s.start h') (s.end_ h')) := by
  obtain ⟨tag, hI⟩ := exists_inv hreach
  have hR := ranges_of_reach hreach
  have hH := hI.headers
  have hh := hH.header_of_present hp
  have hh' := hH.header_of_present hp'
  have hk : claim s (.inr h) = some (s.start h) := if_pos hh
  have hk' : claim s (.inr h') = some (s.start h') := if_pos hh'
  rw [hH.end_ h hh, hH.end_ h' hh']
  refine Set.disjoint_left.mpr fun x hx hx' => ?_
  exact hR.claims.disjoint hk hk' (fun he => hne (Sum.inr.inj he)) hx hx'

end Steps

/-- A new namespace whose trie has two levels. -/
theorem nsInit_twoLevels : nsInit (Fin 2) twoLevels (St.new (Fin 2) (trieMem twoLevels) 0) :=
  nsInit_new (m := ⟨0, fun _ => 0, fun _ _ => none⟩) (none, fun _ => true) rfl

/-- A thread gives a range back when another has come in between; both then take ranges. -/
theorem ranges_disjoint_giveBack : ∃ s : St (Fin 2), (lts (Fin 2) twoLevels).Reach
    (NoWrap twoLevels) s ∧ (s.pc 0).hdr = some 1 ∧ (s.pc 1).hdr = some 0 ∧
      Disjoint (Set.Ico (s.start 0) (s.end_ 0)) (Set.Ico (s.start 1) (s.end_ 1)) := by
  obtain ⟨s, hs, hp⟩ := Lts.exists_reach_of_execWhen (L := lts (Fin 2) twoLevels)
    (G := NoWrap twoLevels) nsInit_twoLevels
    [.nsalloc 0, .step 0 ⟨true, none⟩, .step 0 ⟨true, none⟩, .step 0 ⟨true, some 0⟩,
      .step 0 ⟨false, none⟩, .step 0 ⟨true, none⟩, .nsalloc 1, .step 1 ⟨true, none⟩,
      .step 0 ⟨true, none⟩, .step 1 ⟨true, none⟩, .step 1 ⟨true, some 0⟩, .nsalloc 0,
      .step 0 ⟨true, none⟩, .step 0 ⟨true, none⟩, .step 0 ⟨true, some 1⟩]
    (p := fun s => decide ((s.pc 0).hdr = some 1 ∧ (s.pc 1).hdr = some 0)) (by decide +kernel)
  obtain ⟨h₁, h₂⟩ := of_decide_eq_true hp
  exact ⟨s, hs, h₁, h₂, ranges_disjoint hs (.inr (.inr ⟨1, h₂⟩)) (.inr (.inr ⟨0, h₁⟩)) (by decide)⟩

end Parsec.Ns
