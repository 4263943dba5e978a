import Mathlib.Data.Fintype.Option
import Parsec.Pgalloc.Basic

/-!
# The page allocator, one load, write or compare-and-swap at a time

Any number of threads in `ps_pgalloc` and `ps_pgfree` on one freelist.

* `machine` — the steps of the threads, in any order; `holders` are the callers that have a page.
* `Loc` — where a page is: a single place at any time, which is what a run is to keep (`Placed`).
* `Settled` — a swap that takes the first page off the list writes the page that is after it. A page
  that was taken and freed since it was loaded may be followed by another: then the swap leads the
  list to a page that is held (`not_exclusive`).
* `exclusive_of_reach` — where all swaps are settled, no page has two holders, and none is held and on
  the list.
-/

namespace Parsec.Pgalloc

open Function Lib

/-! ## The machine -/

/-- A thread, between two steps of a call: in `ps_pgalloc` at `retry`, with `n` loaded, with `m` loaded
from `n->next`, with `n` off the list, and with an empty list; in `ps_pgfree` at `retry`, with `n`
loaded from `fl->next`, and with `l->next` written. -/
inductive Pc (P : Type)
  | idle
  | allocLoad
  | allocNext (n : P)
  | allocCas (n : P) (m : Option P)
  | allocClear (n : P)
  | allocPlat
  | freeLoad (l : P)
  | freeWrite (l : P) (n : Option P)
  | freeCas (l : P) (n : Option P)
  deriving DecidableEq

/-- The page that a call has to itself: taken off the list, or not yet on it. -/
def Pc.hand {P : Type} : Pc P → Option P
  | .allocClear n => some n
  | .freeLoad l | .freeWrite l _ | .freeCas l _ => some l
  | .idle | .allocLoad | .allocNext _ | .allocCas _ _ | .allocPlat => none

structure Mc (T P : Type) where
  w : World P
  pc : T → Pc P
  holders : P → List T

/-- The labels: calls, the next step of a thread, in which the platform may return `p`, and a write to
a page by a thread that holds it. -/
inductive Act (T P : Type)
  | alloc (t : T)
  | free (t : T) (p : P)
  | step (t : T) (p : Option P)
  | write (t : T) (p : P) (v : Option P)

section Steps

variable {T P : Type} [DecidableEq T] [DecidableEq P]

/-- The call of `t` returns `p`. -/
def Mc.ret (s : Mc T P) (t : T) (p : P) : Mc T P :=
  { s with pc := update s.pc t .idle, holders := update s.holders p (t :: s.holders p) }

/-- The next step of a thread in a call.
Source: `ps_pgalloc.h`, `ps_pgalloc`, `ps_pgfree` -/
def threadStep (s : Mc T P) (t : T) (p : Option P) : Option (Mc T P) :=
  match s.pc t with
  | .idle => none
  | .allocLoad =>
      match s.w.flNext with
      | some n => some { s with pc := update s.pc t (.allocNext n) }
      | none => some { s with pc := update s.pc t .allocPlat }
  | .allocNext n => some { s with pc := update s.pc t (.allocCas n (s.w.next n)) }
  | .allocCas n m =>
      match psCas s.w (some n) m with
      | (true, w) => some { s with w := w, pc := update s.pc t (.allocClear n) }
      | (false, w) => some { s with w := w, pc := update s.pc t .allocLoad }
  | .allocClear n =>
      some (({ s with w := { s.w with next := update s.w.next n none } } : Mc T P).ret t n)
  | .allocPlat =>
      match p with
      | none => some { s with w := (psPlatAlloc s.w none).1, pc := update s.pc t .idle }
      | some p =>
          if p ∈ s.w.obtained then none
          else some (({ s with w := (psPlatAlloc s.w (some p)).1 } : Mc T P).ret t p)
  | .freeLoad l => some { s with pc := update s.pc t (.freeWrite l s.w.flNext) }
  | .freeWrite l n =>
      some { s with w := { s.w with next := update s.w.next l n },
                    pc := update s.pc t (.freeCas l n) }
  | .freeCas l n =>
      match psCas s.w n (some l) with
      | (true, w) => some { s with w := w, pc := update s.pc t .idle }
      | (false, w) => some { s with w := w, pc := update s.pc t (.freeLoad l) }

/-- Threads on a freelist that has been initialised. The platform returns a page that is not in use:
all that it has returned are. -/
def machine (T P : Type) [DecidableEq T] [DecidableEq P] : Lts (Mc T P) (Act T P) where
  init s := ∃ w pgsize, w.obtained = [] ∧
    s = { w := psPgallocInit w pgsize, pc := fun _ => .idle, holders := fun _ => [] }
  step s
    | .alloc t =>
        if s.pc t = .idle then some { s with pc := update s.pc t .allocLoad } else none
    | .free t p =>
        if s.pc t = .idle ∧ t ∈ s.holders p then
          some { s with pc := update s.pc t (.freeLoad p),
                        holders := update s.holders p ((s.holders p).erase t) }
        else none
    | .step t p => threadStep s t p
    | .write t p v =>
        if t ∈ s.holders p then some { s with w := { s.w with next := update s.w.next p v } }
        else none

end Steps

/-! ## A thread alone -/

section Alone

variable {T P : Type} [DecidableEq T] [DecidableEq P] {s : Mc T P} {t : T} {p : P}

/-- The steps of a thread through a call, one after the other, are those of `psPgalloc`. -/
theorem exec_alloc (hpc : s.pc t = .allocLoad) (hp : p ∉ s.w.obtained) :
    ∃ k w a, psPgalloc (some p) 1 s.w = some (w, some a) ∧
      (machine T P).execWhen (fun _ _ => True) s (List.replicate k (.step t (some p))) =
        some (({ s with w := w } : Mc T P).ret t a) := by
  cases hfl : s.w.flNext with
  | none =>
      refine ⟨2, _, p, psPgalloc_none s.w hfl, ?_⟩
      simp [Lts.execWhen, machine, threadStep, hpc, hfl, hp, psPlatAlloc, Mc.ret]
  | some n =>
      refine ⟨4, _, n, psPgalloc_some s.w hfl, ?_⟩
      simp [Lts.execWhen, machine, threadStep, hpc, hfl, psCas, Mc.ret]

/-- The steps of a thread through a call, one after the other, are those of `psPgfree`. -/
theorem exec_free {l : P} (hpc : s.pc t = .freeLoad l) :
    ∃ k w, psPgfree l 1 s.w = some w ∧
      (machine T P).execWhen (fun _ _ => True) s (List.replicate k (.step t none)) =
        some { s with w := w, pc := update s.pc t .idle } := by
  refine ⟨3, _, psPgfree_eq s.w, ?_⟩
  simp [Lts.execWhen, machine, threadStep, hpc, psCas]

end Alone

/-! ## What is to hold, and when it does -/

variable {T P : Type}

/-- No page has two holders, and none is held and on the list. -/
def Exclusive (s : Mc T P) : Prop :=
  (∀ p, (s.holders p).length ≤ 1) ∧ ∀ p, s.holders p ≠ [] → ¬ Reaches s.w.next s.w.flNext p

/-- A swap that is about to take the first page off the list writes what is after this page. -/
def Settled (s : Mc T P) : Act T P → Prop
  | .step t _ => ∀ n m, s.pc t = .allocCas n m → s.w.flNext = some n → s.w.next n = m
  | .alloc _ | .free _ _ | .write _ _ _ => True

/-- Where a page is. -/
inductive Loc (T : Type)
  | out
  | list
  | hand (t : T)
  | held (t : T)
  deriving DecidableEq

def Loc.holders : Loc T → List T
  | .held t => [t]
  | .out | .list | .hand _ => []

/-- A page is in the place that `loc` gives, and `l` are those on the list. -/
structure Placed (s : Mc T P) (loc : P → Loc T) (l : List P) : Prop where
  chain : Chain s.w.next s.w.flNext l
  list : ∀ p, p ∈ l ↔ loc p = .list
  hand : ∀ p t, (s.pc t).hand = some p ↔ loc p = .hand t
  held : ∀ p, s.holders p = (loc p).holders
  obtained : ∀ p, p ∈ s.w.obtained ↔ loc p ≠ .out
  /-- What a call is about to swap in leads to what it expects to find. -/
  written : ∀ t q n, s.pc t = .freeCas q n → s.w.next q = n

/-- A page that has one place has one holder. -/
theorem Placed.exclusive {s : Mc T P} {loc : P → Loc T} {l : List P} (h : Placed s loc l) :
    Exclusive s := by
  constructor
  · intro p
    rw [h.held]
    cases loc p <;> simp [Loc.holders]
  · intro p hp hr
    have hl := (h.list p).mp (h.chain.reaches_iff.mp hr)
    apply hp
    rw [h.held, hl]
    rfl

/-! ## The steps -/

section Moves

variable {s s' : Mc T P} {loc : P → Loc T} {l : List P} {t u : T}
  {p q : P} {c : Pc P}

namespace Placed

/-- A page in the hand of a call is not on the list. -/
theorem notMem_of_hand (h : Placed s loc l) (hp : (s.pc t).hand = some p) : p ∉ l := by
  rw [h.list, (h.hand p t).mp hp]
  exact fun he => by cases he

/-- A page is in the hand of one call. -/
theorem hand_unique (h : Placed s loc l) (ht : (s.pc t).hand = some p)
    (hu : (s.pc u).hand = some p) : t = u := by
  have := ((h.hand p t).mp ht).symm.trans ((h.hand p u).mp hu)
  cases this
  rfl

/-- The holder of a page, from its place. -/
theorem holders_iff (h : Placed s loc l) : t ∈ s.holders p ↔ loc p = .held t := by
  rw [h.held]
  cases loc p <;> simp [Loc.holders, eq_comm]

variable [DecidableEq T]

/-- A thread goes on with the same page in its hand. -/
theorem setPc (h : Placed s loc l) (hc : c.hand = (s.pc t).hand)
    (hw : ∀ q n, c = .freeCas q n → s.w.next q = n) :
    Placed { s with pc := update s.pc t c } loc l := by
  refine ⟨h.chain, h.list, fun p u => ?_, h.held, h.obtained, fun u q n hu => ?_⟩
  · rw [← h.hand]
    by_cases hut : u = t
    · subst hut
      simp [hc]
    · simp [update_of_ne hut]
  · by_cases hut : u = t
    · subst hut
      exact hw q n (by simpa using hu)
    · exact h.written u q n (by simpa [update_of_ne hut] using hu)

variable [DecidableEq P]

omit [DecidableEq T] in
/-- A write to a page that is neither on the list nor about to be. -/
theorem write {v : Option P} (h : Placed s loc l) (hp : p ∉ l)
    (hw : ∀ u n, s.pc u ≠ .freeCas p n) :
    Placed { s with w := { s.w with next := update s.w.next p v } } loc l := by
  refine ⟨h.chain.update_of_notMem hp, h.list, h.hand, h.held, h.obtained, fun u q n hu => ?_⟩
  have hne : q ≠ p := fun he => hw u n (he ▸ hu)
  exact (update_of_ne hne ..).trans (h.written u q n hu)

/-- **A step moves one page**: from where it was it comes to `x`, and no other page is moved. -/
theorem move {x : Loc T} {w : World P} {r : List T} {k : List P} (h : Placed s loc l)
    (hfrom : ∀ u, u ≠ t → loc p ≠ .hand u) (hpc : ∀ q, q ≠ p → (s.pc t).hand ≠ some q)
    (hc : ∀ q, q ≠ p → c.hand ≠ some q) (hx : c.hand = some p ↔ x = .hand t)
    (hto : ∀ u, u ≠ t → x ≠ .hand u) (hchain : Chain w.next w.flNext k)
    (hl : ∀ q, q ≠ p → (q ∈ k ↔ q ∈ l)) (hpl : p ∈ k ↔ x = .list)
    (hhs : r = x.holders)
    (hob : ∀ q, q ≠ p → (q ∈ w.obtained ↔ q ∈ s.w.obtained)) (hp : p ∈ w.obtained ↔ x ≠ .out)
    (hcas : ∀ q n, c ≠ .freeCas q n) (hw : ∀ q, q ≠ p → w.next q = s.w.next q) :
    Placed { w := w, pc := update s.pc t c, holders := update s.holders p r }
      (update loc p x) k := by
  have hother : ∀ u, u ≠ t → (s.pc u).hand ≠ some p := fun u hu hp =>
    hfrom u hu ((h.hand p u).mp hp)
  constructor
  · exact hchain
  · intro q
    by_cases hq : q = p
    · subst hq
      simpa using hpl
    · rw [hl q hq, update_of_ne hq]
      exact h.list q
  · intro q u
    by_cases hut : u = t
    · subst hut
      by_cases hq : q = p
      · subst hq
        simpa using hx
      · simp only [update_self, update_of_ne hq, ← h.hand]
        exact iff_of_false (hc q hq) (hpc q hq)
    · simp only [update_of_ne hut]
      by_cases hq : q = p
      · subst hq
        rw [update_self]
        exact iff_of_false (hother u hut) (hto u hut)
      · rw [update_of_ne hq]
        exact h.hand q u
  · intro q
    by_cases hq : q = p
    · subst hq
      simpa using hhs
    · simp only [update_of_ne hq]
      exact h.held q
  · intro q
    by_cases hq : q = p
    · subst hq
      simpa using hp
    · rw [hob q hq, update_of_ne hq]
      exact h.obtained q
  · intro u q n hu
    by_cases hut : u = t
    · subst hut
      exact absurd (by simpa using hu) (hcas q n)
    · have hu : s.pc u = .freeCas q n := by simpa [update_of_ne hut] using hu
      have hne : q ≠ p := fun he => hother u hut (by rw [hu, ← he]; rfl)
      exact (hw q hne).trans (h.written u q n hu)

end Placed

variable [DecidableEq T] [DecidableEq P]

/-- A swap takes the first page off the list. -/
theorem placed_pop {m : Option P} (h : Placed s loc l) (hpc : s.pc t = .allocCas p m)
    (hfl : s.w.flNext = some p) (hm : s.w.next p = m) :
    ∃ loc l, Placed { s with w := { s.w with flNext := m }, pc := update s.pc t (.allocClear p) }
      loc l := by
  obtain ⟨l, rfl, hc⟩ := chain_some_iff.mp (hfl ▸ h.chain)
  have hnd := (List.nodup_cons.mp h.chain.nodup).1
  have hloc : loc p = .list := (h.list p).mp List.mem_cons_self
  have hhs : s.holders p = [] := by rw [h.held, hloc]; rfl
  have hmove := h.move (t := t) (p := p) (c := .allocClear p) (x := .hand t) (k := l)
    (w := { s.w with flNext := m }) (r := s.holders p) (by simp [hloc]) (by simp [hpc, Pc.hand])
    (by simp [Pc.hand, eq_comm]) (by simp [Pc.hand]) (by simp [eq_comm]) (hm ▸ hc)
    (fun q hq => by simp [hq]) (by simp [hnd]) hhs (fun _ _ => Iff.rfl)
    (by simp [h.obtained, hloc]) (by simp) (fun _ _ => rfl)
  rw [update_eq_self] at hmove
  exact ⟨_, _, hmove⟩

/-- A page that is off the list is returned. -/
theorem placed_clear (h : Placed s loc l) (hpc : s.pc t = .allocClear p) :
    ∃ loc l, Placed
      (({ s with w := { s.w with next := update s.w.next p none } } : Mc T P).ret t p) loc l := by
  have hhand : (s.pc t).hand = some p := by rw [hpc]; rfl
  have hloc : loc p = .hand t := (h.hand p t).mp hhand
  have hhs : s.holders p = [] := by rw [h.held, hloc]; rfl
  have hmove := h.move (t := t) (p := p) (c := .idle) (x := .held t) (k := l)
    (w := { s.w with next := update s.w.next p none }) (r := t :: s.holders p)
    (by simp [hloc, eq_comm]) (by simp [hpc, Pc.hand, eq_comm]) (by simp [Pc.hand])
    (by simp [Pc.hand]) (by simp) (h.chain.update_of_notMem (h.notMem_of_hand hhand))
    (fun _ _ => Iff.rfl) (by simp [h.list, hloc]) (by rw [hhs]; rfl) (fun _ _ => Iff.rfl)
    (by simp [h.obtained, hloc]) (by simp) (fun q hq => update_of_ne hq ..)
  exact ⟨_, _, hmove⟩

/-- A page that the platform had is returned. -/
theorem placed_plat (h : Placed s loc l) (hpc : s.pc t = .allocPlat) (hp : p ∉ s.w.obtained) :
    ∃ loc l, Placed (({ s with w := (psPlatAlloc s.w (some p)).1 } : Mc T P).ret t p) loc l := by
  have hloc : loc p = .out := by
    rw [h.obtained] at hp
    exact not_not.mp hp
  have hhs : s.holders p = [] := by rw [h.held, hloc]; rfl
  have hmove := h.move (t := t) (p := p) (c := .idle) (x := .held t) (k := l)
    (w := (psPlatAlloc s.w (some p)).1) (r := t :: s.holders p)
    (by simp [hloc]) (by simp [hpc, Pc.hand]) (by simp [Pc.hand])
    (by simp [Pc.hand]) (by simp) h.chain
    (fun _ _ => Iff.rfl) (by simp [h.list, hloc]) (by rw [hhs]; rfl)
    (fun q hq => by simp [psPlatAlloc, hq]) (by simp [psPlatAlloc]) (by simp) (fun _ _ => rfl)
  exact ⟨_, _, hmove⟩

/-- A page is freed by one who holds it. -/
theorem placed_free (h : Placed s loc l) (hpc : s.pc t = .idle) (hp : t ∈ s.holders p) :
    ∃ loc l, Placed { s with
      pc := update s.pc t (.freeLoad p),
      holders := update s.holders p ((s.holders p).erase t) } loc l := by
  have hloc : loc p = .held t := h.holders_iff.mp hp
  have hhs : s.holders p = [t] := by rw [h.held, hloc]; rfl
  have hmove := h.move (t := t) (p := p) (c := .freeLoad p) (x := .hand t) (k := l)
    (w := s.w) (r := (s.holders p).erase t)
    (by simp [hloc]) (by simp [hpc, Pc.hand]) (by simp [Pc.hand, eq_comm])
    (by simp [Pc.hand]) (by simp [eq_comm]) h.chain
    (fun _ _ => Iff.rfl) (by simp [h.list, hloc]) (by simp [hhs, Loc.holders])
    (fun _ _ => Iff.rfl) (by simp [h.obtained, hloc]) (by simp) (fun _ _ => rfl)
  exact ⟨_, _, hmove⟩

/-- A swap puts a page on the list. Whatever happened in between, the page leads to what the list
starts with. -/
theorem placed_push {n : Option P} (h : Placed s loc l) (hpc : s.pc t = .freeCas p n)
    (hfl : s.w.flNext = n) :
    ∃ loc l, Placed { s with w := { s.w with flNext := some p }, pc := update s.pc t .idle }
      loc l := by
  have hhand : (s.pc t).hand = some p := by rw [hpc]; rfl
  have hloc : loc p = .hand t := (h.hand p t).mp hhand
  have hhs : s.holders p = [] := by rw [h.held, hloc]; rfl
  have hchain : Chain s.w.next (some p) (p :: l) := by
    refine ⟨rfl, ?_⟩
    rw [h.written t p n hpc, ← hfl]
    exact h.chain
  have hmove := h.move (t := t) (p := p) (c := .idle) (x := .list) (k := p :: l)
    (w := { s.w with flNext := some p }) (r := s.holders p)
    (by simp [hloc, eq_comm]) (by simp [hpc, Pc.hand, eq_comm]) (by simp [Pc.hand])
    (by simp [Pc.hand]) (by simp) hchain (fun q hq => by simp [hq]) (by simp) hhs
    (fun _ _ => Iff.rfl) (by simp [h.obtained, hloc]) (by simp) (fun _ _ => rfl)
  rw [update_eq_self] at hmove
  exact ⟨_, _, hmove⟩

/-- A step of a thread keeps every page in one place. -/
theorem placed_threadStep {o : Option P} (h : Placed s loc l) (hg : Settled s (.step t o))
    (hs : threadStep s t o = some s') : ∃ loc l, Placed s' loc l := by
  unfold threadStep at hs
  cases hpc : s.pc t with
  | idle =>
      rw [hpc] at hs
      cases hs
  | allocLoad =>
      rw [hpc] at hs
      simp only at hs
      split at hs <;> obtain rfl := Option.some.inj hs
      · exact ⟨loc, l, h.setPc (by rw [hpc]; rfl) fun q n he => by cases he⟩
      · exact ⟨loc, l, h.setPc (by rw [hpc]; rfl) fun q n he => by cases he⟩
  | allocNext n =>
      rw [hpc] at hs
      obtain rfl := Option.some.inj hs
      exact ⟨loc, l, h.setPc (by rw [hpc]; rfl) fun q n he => by cases he⟩
  | allocCas n m =>
      rw [hpc] at hs
      simp only [psCas] at hs
      by_cases hfl : s.w.flNext = some n
      · rw [if_pos hfl] at hs
        obtain rfl := Option.some.inj hs
        exact placed_pop h hpc hfl (hg n m hpc hfl)
      · rw [if_neg hfl] at hs
        obtain rfl := Option.some.inj hs
        exact ⟨loc, l, h.setPc (by rw [hpc]; rfl) fun q n he => by cases he⟩
  | allocClear n =>
      rw [hpc] at hs
      obtain rfl := Option.some.inj hs
      exact placed_clear h hpc
  | allocPlat =>
      rw [hpc] at hs
      cases o with
      | none =>
          obtain rfl := Option.some.inj hs
          exact ⟨loc, l, h.setPc (by rw [hpc]; rfl) fun q n he => by cases he⟩
      | some p =>
          simp only at hs
          split at hs
          · cases hs
          · rename_i hp
            obtain rfl := Option.some.inj hs
            exact placed_plat h hpc hp
  | freeLoad q =>
      rw [hpc] at hs
      obtain rfl := Option.some.inj hs
      exact ⟨loc, l, h.setPc (by rw [hpc]; rfl) fun q n he => by cases he⟩
  | freeWrite q n =>
      rw [hpc] at hs
      obtain rfl := Option.some.inj hs
      have hhand : (s.pc t).hand = some q := by rw [hpc]; rfl
      have hw := h.write (v := n) (h.notMem_of_hand hhand) fun u m hu => by
        have := h.hand_unique hhand (u := u) (by rw [hu]; rfl)
        subst this
        rw [hpc] at hu
        cases hu
      refine ⟨loc, l, hw.setPc (by rw [hpc]; rfl) fun q' n' he => ?_⟩
      cases he
      exact update_self ..
  | freeCas q n =>
      rw [hpc] at hs
      simp only [psCas] at hs
      by_cases hfl : s.w.flNext = n
      · rw [if_pos hfl] at hs
        obtain rfl := Option.some.inj hs
        exact placed_push h hpc hfl
      · rw [if_neg hfl] at hs
        obtain rfl := Option.some.inj hs
        exact ⟨loc, l, h.setPc (by rw [hpc]; rfl) fun q n he => by cases he⟩

/-- A step keeps every page in one place. -/
theorem placed_step {a : Act T P} (h : Placed s loc l) (hg : Settled s a)
    (hs : (machine T P).step s a = some s') : ∃ loc l, Placed s' loc l := by
  cases a with
  | alloc t =>
      simp only [machine] at hs
      split at hs
      · rename_i hpc
        obtain rfl := Option.some.inj hs
        exact ⟨loc, l, h.setPc (by rw [hpc]; rfl) fun q n he => by cases he⟩
      · cases hs
  | free t p =>
      simp only [machine] at hs
      split at hs
      · rename_i hp
        obtain rfl := Option.some.inj hs
        exact placed_free h hp.1 hp.2
      · cases hs
  | step t o => exact placed_threadStep h hg hs
  | write t p v =>
      simp only [machine] at hs
      split at hs
      · rename_i hp
        obtain rfl := Option.some.inj hs
        have hloc := h.holders_iff.mp hp
        refine ⟨loc, l, h.write ?_ fun u n hu => ?_⟩
        · simp [h.list, hloc]
        · have := (h.hand p u).mp (by rw [hu]; rfl)
          rw [hloc] at this
          cases this
      · cases hs

end Moves

/-! ## Runs -/

section Runs

variable [DecidableEq T] [DecidableEq P] {s : Mc T P}

/-- Every page has one place along settled runs. -/
theorem exists_placed (h : (machine T P).Reach Settled s) : ∃ loc l, Placed s loc l := by
  refine Lts.invariant (I := fun s => ∃ loc l, Placed s loc l) ?_ ?_ h
  · rintro s ⟨w, sz, ho, rfl⟩
    exact ⟨fun _ => .out, [], rfl, by simp, by simp [Pc.hand], fun _ => rfl,
      by simp [psPgallocInit, ho], by simp⟩
  · rintro s a s' ⟨loc, l, hP⟩ hg hs
    exact placed_step hP hg hs

/-- **Where all swaps are settled, no page has two holders**, and none is held and on the list. -/
theorem exclusive_of_reach (h : (machine T P).Reach Settled s) : Exclusive s := by
  obtain ⟨loc, l, hP⟩ := exists_placed h
  exact hP.exclusive

instance [Fintype P] (s : Mc T P) (a : Act T P) : Decidable (Settled s a) :=
  match a with
  | .step t _ => inferInstanceAs
      (Decidable (∀ n m, s.pc t = .allocCas n m → s.w.flNext = some n → s.w.next n = m))
  | .alloc _ | .free _ _ | .write _ _ _ => isTrue trivial

end Runs

/-- Two threads, two pages, and an empty list. -/
def start : Mc Bool Bool where
  w := ⟨4096, none, fun _ => none, [], []⟩
  pc := fun _ => .idle
  holders := fun _ => []

/-- The machine starts with no page. -/
theorem start_init : (machine Bool Bool).init start :=
  ⟨⟨0, none, fun _ => none, [], []⟩, 4096, rfl, rfl⟩

/-- A thread takes both pages from the platform, and frees them. -/
def fill : List (Act Bool Bool) :=
  [.alloc true, .step true none, .step true (some true),
   .alloc true, .step true none, .step true (some false)] ++
  .free true false :: List.replicate 3 (.step true none) ++
  .free true true :: List.replicate 3 (.step true none)

/-- The list is used again by another thread. -/
theorem exclusive_refill : ∃ s : Mc Bool Bool, s.holders true = [false] ∧ Exclusive s := by
  obtain ⟨s, hs, hp⟩ := Lts.exists_reach_of_execWhen (G := Settled) start_init
    (fill ++ .alloc false :: List.replicate 4 (.step false none))
    (p := fun s => decide (s.holders true = [false])) (by decide)
  exact ⟨s, of_decide_eq_true hp, exclusive_of_reach hs⟩

/-- A thread is about to take the first page when another takes both and frees the first: the second
page is on the list again, and is held twice. -/
theorem not_exclusive : ¬ ∀ s, (machine Bool Bool).Reach (fun _ _ => True) s → Exclusive s := by
  intro hall
  obtain ⟨s, hs, hp⟩ := Lts.exists_reach_of_execWhen (G := fun _ _ => True) start_init
    (fill ++ [.alloc true, .step true none, .step true none] ++
      .alloc false :: List.replicate 4 (.step false none) ++
      .alloc false :: List.replicate 4 (.step false none) ++
      .free false true :: List.replicate 3 (.step false none) ++
      List.replicate 2 (.step true none) ++ .alloc true :: List.replicate 4 (.step true none))
    (p := fun s => decide (s.holders false = [true, false])) (by decide)
  have hle := (hall s hs).1 false
  rw [of_decide_eq_true hp] at hle
  exact absurd hle (by decide)

end Parsec.Pgalloc
