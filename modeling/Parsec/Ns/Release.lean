import Mathlib.Data.Fintype.Basic
import Parsec.Ns.Lookup

/-!
# Lookups and the release of slab memory

`ps_slab_nsfree` gives the memory of its slab back first, and clears the entry that leads to it
afterwards. A lookup that has taken the last hop inspects a header in slab memory in its next step.
It inspects memory that has not been given back as long as no lookup stands between its last hop and
the inspection when the memory of its id's slab is given back, none takes its last hop between that
and the clearing of the entry, and none has tested the entry and not yet loaded it again when it is
cleared (`Undisturbed`).

* `Solid` — slabs that are registered and whose memory has not been given back.
* `inspects_live` — the result.
* `exists_stale_inspection` — a lookup that stands before its inspection while the memory is given
  back.
-/

namespace Parsec.Ns

open Function Ertrie Lib

/-! ## The guard -/

/-- The slab of a caller of a lookup that has been registered. -/
def Caller.solid : Caller → Option ℕ
  | .present h _ => some h
  | _ => none

/-- The slab of a caller of a lookup that is being released. -/
def Caller.released : Caller → Option ℕ
  | .unlink h => some h
  | _ => none

namespace Pc

/-- The id of a `ps_nsptr_lkup` that is about to inspect a header. -/
def inspecting : Pc → Option ℕ
  | .resolve .user id _ _ => some id
  | _ => none

/-- The id of a `ps_nsptr_lkup` that is about to take its last hop. -/
def lastHop : Pc → Option ℕ
  | .hop .user id limit i _ => if i + 1 < limit then none else some id
  | _ => none

/-- The slab that a thread in `ps_slab_nsfree` is about to give the memory of back. -/
def releasing : Pc → Option ℕ
  | .platFree h => some h
  | _ => none

/-- The slab whose entry a thread in `ps_slab_nsfree` is about to clear. -/
def clearing : Pc → Option ℕ
  | .clear h _ => some h
  | _ => none

/-- A lookup is between the test of an entry and the end. -/
def inside : Pc → Bool
  | .hop .. | .resolve .. => true
  | _ => false

/-- The slab that a thread in `ps_slab_nsfree` has given the memory of back, while the entry that
leads to it is not cleared. -/
def released : Pc → Option ℕ
  | .test k _ _ _ _ | .hop k _ _ _ _ | .resolve k _ _ _ => k.released
  | .check h _ | .clear h _ => some h
  | _ => none

/-- The slab that a thread has registered, or that it will release. -/
def solid : Pc → Option ℕ
  | .test k _ _ _ _ | .hop k _ _ _ _ | .resolve k _ _ _ => k.solid
  | .platFree h => some h
  | _ => none

/-- A header that is registered is solid or released. -/
theorem solid_or_released {p : Pc} {h : ℕ} (hr : p.reg = some h) :
    p.solid = some h ∨ p.released = some h := by
  cases p with
  | test k _ _ _ _ | hop k _ _ _ _ | resolve k _ _ _ =>
      cases k with
      | present _ _ => exact .inl hr
      | unlink _ => exact .inr hr
      | user | absent _ _ | gone _ => cases hr
  | platFree _ => exact .inl hr
  | check _ _ | clear _ _ => exact .inr hr
  | _ => cases hr

/-- A solid header is held. -/
theorem hdr_of_solid {p : Pc} {h : ℕ} (hs : p.solid = some h) : p.hdr = some h := by
  cases p with
  | test k _ _ _ _ | hop k _ _ _ _ | resolve k _ _ _ =>
      cases k with
      | present _ _ => exact hs
      | user | unlink _ | absent _ _ | gone _ => cases hs
  | platFree _ => exact hs
  | _ => cases hs

end Pc

section Defs

variable {τ : Type}

/-- An id is one of a slab's. -/
def InSlab (s : St τ) (h id : ℕ) : Prop := s.start h ≤ id ∧ id < s.end_ h

instance (s : St τ) (h id : ℕ) : Decidable (InSlab s h id) := inferInstanceAs (Decidable (_ ∧ _))

/-- The guard: no lookup of an id of the slab is about to inspect a header when the slab's memory is
given back, none takes its last hop until the entry is cleared, and none is about to when it is. -/
def Undisturbed (s : St τ) : Act τ → Prop
  | .step t _ =>
      (∀ h ∈ (s.pc t).releasing, ∀ t', ∀ id ∈ (s.pc t').inspecting, ¬ InSlab s h id) ∧
        (∀ id ∈ (s.pc t).lastHop, ∀ t', ∀ h ∈ (s.pc t').released, ¬ InSlab s h id) ∧
          ∀ h ∈ (s.pc t).clearing, ∀ t', ∀ id ∈ (s.pc t').lastHop, ¬ InSlab s h id
  | _ => True

instance [Fintype τ] (s : St τ) : ∀ a : Act τ, Decidable (Undisturbed s a)
  | .step _ _ => inferInstanceAs (Decidable (_ ∧ _ ∧ _))
  | .nsalloc _ | .nsfree _ _ | .lkup _ _ => .isTrue trivial

/-- A slab that is registered and whose memory has not been given back. -/
def Solid (s : St τ) (h : ℕ) : Prop := s.inUse h = true ∨ ∃ t, (s.pc t).solid = some h

/-- A lookup has an entry that is not NULL before each hop, and is in the memory of the solid slab
of its id when it is about to inspect a header. -/
structure Inspects (g : NsGeom) (s : St τ) (t : τ) : Prop where
  filled : ∀ id limit i n, s.pc t = .hop .user id limit i n → Filled g s.mem n
  solid : ∀ id limit n, s.pc t = .resolve .user id limit n → ∃ h m off,
    Solid s h ∧ s.memory h = some m ∧ slotPath g (s.start h) = slotPath g id ∧ n = .ext m off

end Defs

/-! ## Steps -/

section Steps

variable {τ : Type} [DecidableEq τ] {g : NsGeom} {tag : Tag} {s s' s₁ : St τ} {t : τ} {p : Pc}

omit [DecidableEq τ] in
/-- The memory of a solid slab is allocated. -/
theorem Inv.hasMem_of_solid (hI : Inv g tag s) {h : ℕ} (hS : Solid s h) : HasMem s h := by
  rcases hS with hu | ⟨t, ht⟩
  · exact hI.blocks.inUse h hu
  · have hok := hI.ok t
    cases hpc : s.pc t with
    | test k _ _ _ _ | hop k _ _ _ _ | resolve k _ _ _ =>
        rw [hpc] at ht hok
        cases k with
        | present _ _ =>
            cases ht
            exact hok.1.2.2.1
        | user | unlink _ | absent _ _ | gone _ => cases ht
    | platFree _ =>
        rw [hpc] at ht hok
        cases ht
        exact hok
    | _ =>
        rw [hpc] at ht
        cases ht

omit [DecidableEq τ] in
/-- A solid slab's header is allocated. -/
theorem Headers.header_of_solid (hH : Headers g s) {h : ℕ} (hS : Solid s h) :
    s.header h = true := by
  rcases hS with hu | ⟨t, ht⟩
  · exact hH.inUse h hu
  · exact (hH.held t h (Pc.hdr_of_solid ht)).1

omit [DecidableEq τ] in
/-- A header that a thread holds at a point where it is not solid is not. -/
theorem Headers.not_solid (hH : Headers g s) {h : ℕ} (hh : (s.pc t).hdr = some h)
    (hs : (s.pc t).solid = none) : ¬ Solid s h := by
  rintro (hu | ⟨t', ht'⟩)
  · rw [(hH.held t h hh).2.1] at hu
    cases hu
  · obtain rfl := hH.inj t' t h (Pc.hdr_of_solid ht') hh
    rw [hs] at ht'
    cases ht'

/-- A solid slab stays so, if the thread that moves keeps it so or puts it to use. -/
theorem Solid.move {h : ℕ} (hS : Solid s h) (hpc : s₁.pc = s.pc)
    (hu : s.inUse h = true → s₁.inUse h = true ∨ p.solid = some h)
    (hs : (s.pc t).solid = some h → s₁.inUse h = true ∨ p.solid = some h) :
    Solid (s₁.setPc t p) h := by
  have hend : s₁.inUse h = true ∨ p.solid = some h → Solid (s₁.setPc t p) h :=
    fun hx => hx.imp id fun hp => ⟨t, by rwa [setPc_pc_self]⟩
  rcases hS with hS | ⟨t', ht'⟩
  · exact hend (hu hS)
  · by_cases htt : t' = t
    · exact hend (hs (htt ▸ ht'))
    · exact .inr ⟨t', by rwa [setPc_pc_ne htt, hpc]⟩

/-- What a step leaves of a solid slab. -/
structure Kept (s s' : St τ) (h : ℕ) : Prop where
  solid : Solid s' h
  memory : s'.memory h = s.memory h
  start : s'.start h = s.start h

/-- A step that moves a thread, and changes no slab. -/
theorem Kept.setPc {h : ℕ} (hS : Solid s h) (hpc : s₁.pc = s.pc) (hu : s₁.inUse = s.inUse)
    (hm : s₁.memory = s.memory) (hs : s₁.start = s.start)
    (hp : (s.pc t).solid = some h → p.solid = some h) : Kept s (s₁.setPc t p) h :=
  ⟨hS.move hpc (fun hu' => .inl (hu ▸ hu')) fun h' => .inr (hp h'), congrFun hm h, congrFun hs h⟩

/-- The end of a lookup keeps every solid slab. -/
theorem Kept.lookupFound {h : ℕ} (hS : Solid s h) {k : Caller} {id limit : ℕ} {n : Addr}
    (ht : s.pc t = .resolve k id limit n) (hs : lookupFound s t n k = some s') : Kept s s' h := by
  cases k with
  | user | unlink _ =>
      cases hs
      exact .setPc hS rfl rfl rfl rfl (by simp [ht, Pc.solid, Caller.solid])
  | present h' _ =>
      simp only [Ns.lookupFound, Option.ite_none_right_eq_some, Option.some.injEq] at hs
      obtain ⟨-, rfl⟩ := hs
      have hput : s.inUse h = true ∨ h = h' → update s.inUse h' true h = true := by
        rintro (hu | rfl)
        · by_cases he : h = h'
          · simp [he]
          · simpa [update_of_ne he] using hu
        · exact update_self ..
      refine ⟨hS.move rfl (fun hu => .inl (hput (.inl hu))) fun hs => .inl (hput (.inr ?_)), rfl, rfl⟩
      rw [ht] at hs
      exact (Option.some.inj hs).symm
  | absent _ _ | gone _ => cases hs

/-- **What a step leaves of a solid slab**: it stays, unless its memory is given back. -/
theorem Kept.of_step (hI : Inv g tag s) {a : Act τ} (hs : step g s a = some s') {h : ℕ}
    (hS : Solid s h) : Kept s s' h ∨ ∃ t o, a = .step t o ∧ (s.pc t).releasing = some h := by
  have hH := hI.headers
  cases a with
  | nsalloc t | lkup t id =>
      simp only [Ns.step, Option.ite_none_right_eq_some, Option.some.injEq] at hs
      obtain ⟨hpc, rfl⟩ := hs
      exact .inl (.setPc hS rfl rfl rfl rfl (by simp [hpc, Pc.solid]))
  | nsfree t h' =>
      simp only [Ns.step, Option.ite_none_right_eq_some, Option.some.injEq] at hs
      obtain ⟨⟨hpc, -⟩, rfl⟩ := hs
      refine .inl ⟨hS.move rfl (fun hu => ?_) (by simp [hpc, Pc.solid]), rfl, rfl⟩
      by_cases he : h = h'
      · exact .inr (he ▸ rfl)
      · exact .inl (by simpa [update_of_ne he] using hu)
  | step t o =>
      simp only [Ns.step] at hs
      unfold tick at hs
      cases ht : s.pc t with
      | idle =>
          rw [ht] at hs
          cases hs
      | platFree h' =>
          by_cases he : h' = h
          · exact .inr ⟨t, o, rfl, by rw [ht, he]; rfl⟩
          · simp only [ht, Option.bind_eq_bind, Option.bind_eq_some_iff] at hs
            obtain ⟨m, -, hs⟩ := hs
            cases hs
            refine .inl (.setPc hS rfl rfl rfl rfl fun hsol => ?_)
            rw [ht] at hsol
            exact absurd (Option.some.inj hsol) he
      | pop =>
          simp only [ht] at hs
          split at hs <;> cases hs <;> exact .inl (.setPc hS rfl rfl rfl rfl (by simp [ht, Pc.solid]))
      | faa | reset _ | push _ | freeHeader _ _ =>
          simp only [ht] at hs
          cases hs
          exact .inl (.setPc hS rfl rfl rfl rfl (by simp [ht, Pc.solid]))
      | header id =>
          simp only [ht] at hs
          split at hs
          · cases hs
            exact .inl (.setPc hS rfl rfl rfl rfl (by simp [ht, Pc.solid]))
          · rename_i h' _
            split at hs <;> cases hs
            rename_i hfree
            have hne : h ≠ h' := by
              rintro rfl
              rw [hH.header_of_solid hS] at hfree
              cases hfree
            refine .inl ⟨hS.move rfl .inl (by simp [ht, Pc.solid]), ?_, update_of_ne hne ..⟩
            show (if o.ok = true then update s.memory h' none else s.memory) h = s.memory h
            split
            · exact update_of_ne hne ..
            · rfl
      | memory h' new =>
          simp only [ht] at hs
          split at hs
          · split at hs <;> cases hs
            · refine .inl ⟨hS.move rfl .inl (by simp [ht, Pc.solid]), update_of_ne ?_ .., rfl⟩
              rintro rfl
              exact hH.not_solid (t := t) (by rw [ht]; rfl) (by rw [ht]; rfl) hS
            · exact .inl (.setPc hS rfl rfl rfl rfl (by simp [ht, Pc.solid]))
          · cases hs
      | test k id limit i n =>
          simp only [ht, Option.bind_eq_bind, Option.bind_eq_some_iff] at hs
          obtain ⟨q, -, hs⟩ := hs
          split at hs
          · obtain ⟨p', hp', rfl⟩ := Option.map_eq_some_iff.mp hs
            refine .inl (.setPc hS rfl rfl rfl rfl fun hsol => ?_)
            rw [ht] at hsol
            cases k with
            | present _ _ => cases hp'
            | user | unlink _ | absent _ _ | gone _ => cases hsol
          · cases hs
            exact .inl (.setPc hS rfl rfl rfl rfl fun hsol => by rw [ht] at hsol; exact hsol)
      | hop k id limit i n =>
          simp only [ht, Option.bind_eq_bind, Option.bind_eq_some_iff] at hs
          obtain ⟨n', -, hs⟩ := hs
          cases hs
          refine .inl (.setPc hS rfl rfl rfl rfl fun hsol => ?_)
          rw [ht] at hsol
          split <;> exact hsol
      | resolve k id limit n =>
          simp only [ht] at hs
          split at hs
          · cases hs
          split at hs
          · obtain ⟨p', hp', rfl⟩ := Option.map_eq_some_iff.mp hs
            refine .inl (.setPc hS rfl rfl rfl rfl fun hsol => ?_)
            rw [ht] at hsol
            cases k with
            | present _ _ => cases hp'
            | user | unlink _ | absent _ _ | gone _ => cases hsol
          · exact .inl (.lookupFound hS ht hs)
      | expWalk h' new i n | expTest h' new i n | expInit h' new i n _ | expSet h' new i n _
      | freeMem h' new | clear h' n =>
          simp only [ht, Option.bind_eq_bind, Option.bind_eq_some_iff] at hs
          obtain ⟨q, -, hs⟩ := hs
          cases hs
          exact .inl (.setPc hS rfl rfl rfl rfl (by simp [ht, Pc.solid]))
      | expAlloc h' new i n =>
          simp only [ht] at hs
          split at hs <;> cases hs <;> exact .inl (.setPc hS rfl rfl rfl rfl (by simp [ht, Pc.solid]))
      | check h' n =>
          simp only [ht, Option.bind_eq_bind, Option.bind_eq_some_iff] at hs
          obtain ⟨q, -, hs⟩ := hs
          split at hs <;> cases hs
          exact .inl (.setPc hS rfl rfl rfl rfl (by simp [ht, Pc.solid]))
      | forget h' =>
          simp only [ht] at hs
          cases hs
          refine .inl ⟨hS.move rfl .inl (by simp [ht, Pc.solid]), update_of_ne ?_ .., rfl⟩
          rintro rfl
          exact hH.not_solid (t := t) (by rw [ht]; rfl) (by rw [ht]; rfl) hS

omit [DecidableEq τ] in
/-- A lookup that returned NULL is at its end. -/
theorem inside_of_lookupNull {k : Caller} (h : lookupNull s k = some p) : p.inside = false := by
  cases k with
  | user | absent _ _ | gone _ =>
      cases h
      rfl
  | present _ _ | unlink _ => cases h

omit [DecidableEq τ] in
/-- After a round of an expansion no lookup is under way. -/
theorem inside_expNext {h i : ℕ} {new : Option ℕ} {n : Addr} :
    (expNext g s h new i n).inside = false := by
  unfold expNext
  split <;> rfl

/-- How a lookup gets inside: it finds that an entry is not NULL, or hops on from one. -/
inductive Enters (g : NsGeom) (s s' : St τ) (t : τ) : Pc → Prop
  | test {k id limit i n a} : s.pc t = .test k id limit i n →
      s.mem.load (psWord g.arch) n = some (some a) → s'.mem = s.mem →
      Enters g s s' t (.hop k id limit i n)
  | hop {k id limit i n n'} : s.pc t = .hop k id limit i n → ¬ i + 1 < limit →
      ertWalk g.consts s.mem n id (g.depth - i) = some n' →
      Enters g s s' t (.resolve k id limit n')

/-- A step moves its thread. -/
theorem tick_pc {o : Oracle} (hs : tick g s t o = some s') :
    ∃ p, s'.pc = update s.pc t p ∧ (p.inside = true → Enters g s s' t p) := by
  have hout : ∀ {p : Pc}, s'.pc = update s.pc t p → p.inside = false →
      ∃ p, s'.pc = update s.pc t p ∧ (p.inside = true → Enters g s s' t p) := by
    intro p hp hin
    exact ⟨p, hp, fun h => absurd (hin.symm.trans h) (by decide)⟩
  unfold tick at hs
  cases ht : s.pc t with
  | idle =>
      rw [ht] at hs
      cases hs
  | hop k id limit i n =>
      simp only [ht, Option.bind_eq_bind, Option.bind_eq_some_iff] at hs
      obtain ⟨n', hw, hs⟩ := hs
      cases hs
      refine ⟨_, rfl, fun hin => ?_⟩
      split at hin
      · cases hin
      · rw [if_neg ‹_›]
        exact .hop ht ‹_› hw
  | test k id limit i n =>
      simp only [ht, Option.bind_eq_bind, Option.bind_eq_some_iff] at hs
      obtain ⟨q, hq, hs⟩ := hs
      split at hs
      · obtain ⟨p', hp', rfl⟩ := Option.map_eq_some_iff.mp hs
        exact hout rfl (inside_of_lookupNull hp')
      · rename_i hne
        cases hs
        obtain ⟨a, rfl⟩ := Option.ne_none_iff_exists'.mp hne
        exact ⟨_, rfl, fun _ => .test ht hq rfl⟩
  | resolve k id limit n =>
      simp only [ht] at hs
      split at hs
      · cases hs
      split at hs
      · obtain ⟨p', hp', rfl⟩ := Option.map_eq_some_iff.mp hs
        exact hout rfl (inside_of_lookupNull hp')
      · cases k with
        | user | unlink _ =>
            cases hs
            exact hout rfl rfl
        | present _ _ =>
            simp only [Ns.lookupFound, Option.ite_none_right_eq_some, Option.some.injEq] at hs
            obtain ⟨-, rfl⟩ := hs
            exact hout rfl rfl
        | absent _ _ | gone _ => cases hs
  | expTest h new i n =>
      simp only [ht, Option.bind_eq_bind, Option.bind_eq_some_iff] at hs
      obtain ⟨q, -, hs⟩ := hs
      cases hs
      refine hout rfl ?_
      split
      · exact inside_expNext
      · rfl
  | expSet h new i n node =>
      simp only [ht, Option.bind_eq_bind, Option.bind_eq_some_iff] at hs
      obtain ⟨q, -, hs⟩ := hs
      cases hs
      exact hout rfl inside_expNext
  | expWalk h new i n | expInit h new i n _ | freeMem h new | clear h n | platFree h =>
      simp only [ht, Option.bind_eq_bind, Option.bind_eq_some_iff] at hs
      obtain ⟨q, -, hs⟩ := hs
      cases hs
      exact hout rfl rfl
  | pop | expAlloc h new i n =>
      simp only [ht] at hs
      split at hs <;> cases hs <;> exact hout rfl rfl
  | faa =>
      simp only [ht] at hs
      cases hs
      refine hout rfl ?_
      split <;> rfl
  | header id =>
      simp only [ht] at hs
      split at hs
      · cases hs
        exact hout rfl rfl
      · split at hs <;> cases hs
        exact hout rfl rfl
  | memory h new =>
      simp only [ht] at hs
      split at hs
      · split at hs <;> cases hs <;> exact hout rfl rfl
      · cases hs
  | freeHeader h new =>
      simp only [ht] at hs
      cases hs
      refine hout rfl ?_
      cases new <;> rfl
  | reset _ | forget _ | push _ =>
      simp only [ht] at hs
      cases hs
      exact hout rfl rfl
  | check h n =>
      simp only [ht, Option.bind_eq_bind, Option.bind_eq_some_iff] at hs
      obtain ⟨q, -, hs⟩ := hs
      split at hs <;> cases hs
      exact hout rfl rfl

omit [DecidableEq τ] in
/-- An id is in the slab with its path. -/
theorem Inv.inSlab (hI : Inv g tag s) {h id : ℕ} (hh : s.header h = true) (hid : id < g.descMax)
    (hp : slotPath g (s.start h) = slotPath g id) : InSlab s h id := by
  have hdiv := slotPath_inj (hI.headers.lt h hh) hid hp
  unfold InSlab
  rw [hI.headers.end_ h hh]
  exact (div_range_eq_iff (g := g) (hI.headers.dvd h hh)).mp hdiv.symm

omit [DecidableEq τ] in
/-- A lookup at the last internal entry of a slab looks up one of its ids. -/
theorem Inv.inSlab_of_at (hI : Inv g tag s) {h id i : ℕ} {n : Addr} (hh : s.header h = true)
    (hid : id < g.descMax) (hn : At g tag s.root id i n)
    (hat : At g tag s.root (s.start h) (g.inner + 1) n) : i = g.inner + 1 ∧ InSlab s h id := by
  obtain ⟨b, hb, rfl⟩ := hat
  cases i with
  | zero => cases hn
  | succ i =>
      obtain ⟨c, hc, he⟩ := hn
      rw [Addr.cell.injEq] at he
      obtain ⟨rfl, hk⟩ := he
      rw [hb, Option.some.injEq] at hc
      have hlen := congrArg List.length hc
      rw [length_path, length_path] at hlen
      subst hlen
      have hhop := Nat.eq_of_mul_eq_mul_right (psWord_pos g.arch) hk
      refine ⟨rfl, hI.inSlab hh hid ?_⟩
      unfold slotPath
      rw [path_succ, path_succ, hc, hhop]

/-- **What a step leaves of an entry that is not NULL**: it stays so, unless it is cleared. -/
theorem Filled.of_step (hI : Inv g tag s) {a : Act τ} (hs : step g s a = some s') {id i : ℕ}
    {n : Addr} (hat : At g tag s.root id i n) (hf : Filled g s.mem n) :
    Filled g s'.mem n ∨ ∃ t o h, a = .step t o ∧ s.pc t = .clear h n := by
  cases a with
  | nsalloc t | lkup t id | nsfree t h =>
      simp only [Ns.step, Option.ite_none_right_eq_some, Option.some.injEq] at hs
      obtain ⟨-, rfl⟩ := hs
      exact .inl hf
  | step t o =>
      rcases tick_mem hI hs with hkept | ⟨h, new, j, n', node, -, hm⟩ | ⟨h, n', ht, hm⟩
      · exact .inl (hf.mono_at hkept hat)
      · rcases hf.store hm with hf' | ⟨-, he⟩
        · exact .inl hf'
        · cases he
      · rcases hf.store hm with hf' | ⟨rfl, -⟩
        · exact .inl hf'
        · exact .inr ⟨t, o, h, rfl, ht⟩

/-- A lookup that stays where it is. -/
theorem Inspects.stay (hI : Inv g tag s) {a : Act τ} (hJ : Inspects g s t) (hG : Undisturbed s a)
    (hs : step g s a = some s') (hpc : s'.pc t = s.pc t) : Inspects g s' t := by
  refine ⟨fun id limit i n ht => ?_, fun id limit n ht => ?_⟩ <;> rw [hpc] at ht
  · obtain ⟨hk, hlt, hat, -⟩ := hI.okAt ht
    rcases Filled.of_step hI hs hat (hJ.filled id limit i n ht) with hf | ⟨t', o, h, rfl, hclear⟩
    · exact hf
    · -- the guard excludes that its entry is cleared
      have hhdr := (hI.headers.held t' h (by rw [hclear]; rfl)).1
      obtain ⟨rfl, hin⟩ := hI.inSlab_of_at hhdr hk.2 hat (hI.okAt hclear).1
      have hlast : id ∈ (s.pc t).lastHop := by
        rw [ht]
        exact if_neg (by have := g.depth_eq'; have := hk.1; omega)
      exact absurd hin (hG.2.2 h (by rw [hclear]; rfl) t id hlast)
  · obtain ⟨h, m, off, hS, hm, hp, rfl⟩ := hJ.solid id limit n ht
    have hk : CallerOk g s .user id limit := (hI.okAt ht).1
    rcases Kept.of_step hI hs hS with hkept | ⟨t', o, rfl, hrel⟩
    · exact ⟨h, m, off, hkept.solid, hkept.memory.trans hm, by rw [hkept.start]; exact hp, rfl⟩
    · have hin := hI.inSlab (hI.headers.header_of_solid hS) hk.2 hp
      exact absurd hin (hG.1 h hrel t id (by rw [ht]; rfl))

omit [DecidableEq τ] in
/-- A lookup that takes its last hop gets into the memory of a solid slab. -/
theorem Inspects.hop (hI : Inv g tag s) (hJ : Inspects g s t) {o : Oracle} {id limit i : ℕ}
    {n n' : Addr} (hG : Undisturbed s (.step t o)) (ht : s.pc t = .hop .user id limit i n)
    (hlast : ¬ i + 1 < limit) (hw : ertWalk g.consts s.mem n id (g.depth - i) = some n') :
    ∃ h m off, Solid s h ∧ s.memory h = some m ∧ slotPath g (s.start h) = slotPath g id ∧
      n' = .ext m off := by
  obtain ⟨⟨hlim, hid⟩, hlt, hat, -⟩ := hI.okAt ht
  have hdepth : g.depth = g.inner + 2 := g.depth_eq'
  obtain rfl : i = g.inner + 1 := by omega
  obtain ⟨b, m, off, hslot, rfl⟩ := hI.slots.walk hat (hJ.filled _ _ _ _ ht) hw
  obtain ⟨h, hR, hm, hp⟩ := hI.slots.reg b _ _ m hslot
  rw [← path_succ] at hp
  have hin := hI.inSlab (hI.headers.header_of_reg hR) hid hp
  have hlh : id ∈ (s.pc t).lastHop := by
    rw [ht]
    exact if_neg hlast
  refine ⟨h, m, off, ?_, hm, hp, rfl⟩
  rcases hR with hu | ⟨t', ht'⟩
  · exact .inl hu
  · rcases Pc.solid_or_released ht' with hsol | hrel
    · exact .inr ⟨t', hsol⟩
    · exact absurd hin (hG.2.1 id hlh t' h hrel)

/-- A lookup that moves. -/
theorem Inspects.move (hI : Inv g tag s) (hJ : Inspects g s t) {o : Oracle}
    (hG : Undisturbed s (.step t o)) (hs : step g s (.step t o) = some s') : Inspects g s' t := by
  obtain ⟨p, hp, hin⟩ := tick_pc hs
  have hpt : s'.pc t = p := by rw [hp, update_self]
  refine ⟨fun id limit i n ht => ?_, fun id limit n ht => ?_⟩ <;> rw [hpt] at ht <;> subst ht
  · cases hin rfl with
    | test _ hload hmem => exact ⟨_, by rw [hmem]; exact hload⟩
  · cases hin rfl with
    | hop hhop hlast hw =>
        obtain ⟨h, m, off, hS, hm, hpath, rfl⟩ := Inspects.hop hI hJ hG hhop hlast hw
        rcases Kept.of_step hI hs hS with hkept | ⟨t', o', he, hrel⟩
        · exact ⟨h, m, off, hkept.solid, hkept.memory.trans hm, by rw [hkept.start]; exact hpath,
            rfl⟩
        · cases he
          rw [hhop] at hrel
          cases hrel

/-- Every undisturbed step keeps lookups in the memory of solid slabs. -/
theorem Inspects.step (hI : Inv g tag s) {a : Act τ} (hJ : ∀ t, Inspects g s t)
    (hG : Undisturbed s a) (hs : step g s a = some s') (t : τ) : Inspects g s' t := by
  by_cases hpc : s'.pc t = s.pc t
  · exact (hJ t).stay hI hG hs hpc
  · have hcall : ∀ {s₁ : St τ} {t₁ p}, s' = s₁.setPc t₁ p → s₁.pc = s.pc → p.inside = false →
        Inspects g s' t := by
      rintro s₁ t₁ p rfl hpc₁ hp
      have htt : t = t₁ := by
        by_contra htt
        exact hpc ((setPc_pc_ne htt).trans (congrFun hpc₁ t))
      subst htt
      refine ⟨fun id limit i n ht => ?_, fun id limit n ht => ?_⟩ <;>
        rw [setPc_pc_self] at ht <;> subst ht <;> cases hp
    cases a with
    | nsalloc t₁ | nsfree t₁ h | lkup t₁ id =>
        simp only [Ns.step, Option.ite_none_right_eq_some, Option.some.injEq] at hs
        obtain ⟨-, hs⟩ := hs
        exact hcall hs.symm rfl rfl
    | step t₁ o =>
        obtain ⟨p, hp, -⟩ := tick_pc hs
        rw [hp] at hpc
        have htt : t = t₁ := by
          by_contra htt
          exact hpc (update_of_ne htt ..)
        subst htt
        exact (hJ t).move hI hG hs

/-! ## Runs -/

/-- **Lookups inspect memory that has not been given back**, in every state reached by undisturbed
steps. -/
theorem inspects_live (hreach : (lts τ g).Reach Undisturbed s) {id limit : ℕ} {n : Addr}
    (ht : s.pc t = .resolve .user id limit n) : ∃ m off, n = .ext m off ∧ s.live m = true := by
  have hJ : ∀ t, Inspects g s t := by
    refine Lts.invariant_of_reach (L := lts τ g) (I := fun s => ∀ t, Inspects g s t)
      (fun s h₀ t => ?_) (fun s a s' hr hJ hG hs => ?_) hreach
    · obtain ⟨-, -, -, -, -, -, -, hpc⟩ := h₀
      refine ⟨fun id limit i n ht => ?_, fun id limit n ht => ?_⟩ <;> rw [hpc] at ht <;> cases ht
    · obtain ⟨tag, hI⟩ := exists_inv hr
      exact Inspects.step hI hJ hG hs
  obtain ⟨tag, hI⟩ := exists_inv hreach
  obtain ⟨h, m, off, hS, hm, -, rfl⟩ := (hJ t).solid id limit n ht
  obtain ⟨m', hm', hlive⟩ := hI.hasMem_of_solid hS
  obtain rfl : m = m' := Option.some.inj (hm.symm.trans hm')
  exact ⟨m, off, rfl, hlive⟩

end Steps

/-! ## Runs of two threads -/

/-- A slab is allocated, and a lookup of its second id is about to inspect the header. -/
theorem inspects_live_beforeRelease : ∃ s : St (Fin 2), (lts (Fin 2) twoLevels).Reach
    Undisturbed s ∧ ∃ n m off, s.pc 1 = .resolve .user 1 2 n ∧ n = .ext m off ∧
      s.live m = true := by
  obtain ⟨s, hs, hp⟩ := Lts.exists_reach_of_execWhen (L := lts (Fin 2) twoLevels)
    (G := Undisturbed) nsInit_twoLevels
    ([.nsalloc 0] ++ calls 0 0 17 ++ [.lkup 1 1] ++ calls 1 1 4)
    (p := fun s => decide (s.pc 1 = .resolve .user 1 2 (.ext 0 32))) (by decide +kernel)
  have ht := of_decide_eq_true hp
  obtain ⟨m, off, hn, hlive⟩ := inspects_live hs ht
  exact ⟨s, hs, _, m, off, ht, hn, hlive⟩

/-- A lookup has the address of a header when the memory of its slab is given back. -/
theorem exists_stale_inspection : ∃ s : St (Fin 2), (lts (Fin 2) twoLevels).Reach
    (fun _ _ => True) s ∧ s.pc 1 = .resolve .user 1 2 (.ext 0 32) ∧ s.live 0 = false := by
  obtain ⟨s, hs, hp⟩ := Lts.exists_reach_of_execWhen (L := lts (Fin 2) twoLevels)
    (G := fun _ _ => True) nsInit_twoLevels
    ([.nsalloc 0] ++ calls 0 0 17 ++ [.lkup 1 1] ++ calls 1 1 4 ++ [.nsfree 0 0] ++ calls 0 0 1)
    (p := fun s => decide (s.pc 1 = .resolve .user 1 2 (.ext 0 32) ∧ s.live 0 = false))
    (by decide +kernel)
  exact ⟨s, hs, of_decide_eq_true hp⟩

end Parsec.Ns
