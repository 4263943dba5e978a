import Mathlib.Data.List.Nodup
import Mathlib.Logic.Function.Basic

/-!
# Circular doubly linked lists

* `Seg n p a l b` — from `a`, the next nodes are those of `l` and then `b`, and each of these leads
  back to the one before it.
* `Visits f a l b` — following `f` from `a`, one visits `l`, and then `b`. A segment is one both
  ways (`Seg.visits`, `Seg.visits_reverse`).
* `Ring n p l` — the nodes of `l` form a circle, in order. `Ring.rotate` starts it elsewhere,
  `Ring.add` puts a node behind the first, `Ring.rem` takes the first out; `Ring.insertAfter`,
  `Ring.insertBefore`, `Ring.remove` do so anywhere. A node determines its circle (`Ring.unique`).
* `Rings n p head cont` — disjoint circles that share their links, each known by its first node.
  `Rings.add`, `Rings.rem` are the edits of a family.
-/

namespace Parsec.Lib

open Function

variable {α : Type*} {n n' p p' : α → α}

/-- Writing to another node, or writing what is there. -/
theorem update_self_or [DecidableEq α] (a b : α) : update p b (p a) a = p a := by
  by_cases h : a = b
  · rw [h, update_self]
  · rw [update_of_ne h]

/-! ## Segments -/

/-- The nodes of `l`, and then `b`, follow `a`. -/
def Seg (n p : α → α) : α → List α → α → Prop
  | a, [], b => n a = b ∧ p b = a
  | a, c :: l, b => n a = c ∧ p c = a ∧ Seg n p c l b

/-- An empty segment links its ends. -/
@[simp] theorem seg_nil {a b : α} : Seg n p a [] b ↔ n a = b ∧ p b = a := Iff.rfl

/-- A segment starts with its first element. -/
@[simp] theorem seg_cons {a b c : α} {l : List α} :
    Seg n p a (c :: l) b ↔ n a = c ∧ p c = a ∧ Seg n p c l b := Iff.rfl

/-- A segment is cut at any of its elements. -/
theorem seg_append {a b c : α} {l l' : List α} :
    Seg n p a (l ++ c :: l') b ↔ Seg n p a l c ∧ Seg n p c l' b := by
  induction l generalizing a with
  | nil => simp [and_assoc]
  | cons d l ih =>
      rw [List.cons_append, seg_cons, seg_cons, ih]
      simp [and_assoc]

namespace Seg

variable {a b c e : α} {l : List α}

/-- A segment reads the links of its own nodes. -/
theorem congr (h : Seg n p a l b) (hn : ∀ x ∈ a :: l, n' x = n x)
    (hp : ∀ x, x ∈ l ∨ x = b → p' x = p x) : Seg n' p' a l b := by
  induction l generalizing a with
  | nil =>
      rw [seg_nil, hn a List.mem_cons_self, hp b (.inr rfl)]
      exact h
  | cons c l ih =>
      obtain ⟨h₁, h₂, h₃⟩ := h
      rw [seg_cons, hn a List.mem_cons_self, hp c (.inl List.mem_cons_self)]
      refine ⟨h₁, h₂, ih h₃ (fun x hx => hn x (List.mem_cons_of_mem _ hx)) ?_⟩
      rintro x (hx | hx)
      · exact hp x (.inl (List.mem_cons_of_mem _ hx))
      · exact hp x (.inr hx)

/-- The node before the end is on the segment. -/
theorem prev_mem (h : Seg n p a l b) : p b ∈ a :: l := by
  induction l generalizing a with
  | nil =>
      rw [h.2]
      exact List.mem_cons_self
  | cons c l ih => exact List.mem_cons_of_mem _ (ih h.2.2)

variable [DecidableEq α]

/-- The last node of a segment is led to another end. -/
theorem retarget (h : Seg n p a l b) (hnd : (a :: l).Nodup) (he : e ∉ l) :
    Seg (update n (p b) e) (update p e (p b)) a l e := by
  induction l generalizing a with
  | nil =>
      obtain ⟨-, hp⟩ := h
      rw [hp]
      simp
  | cons c l ih =>
      obtain ⟨h₁, h₂, h₃⟩ := h
      obtain ⟨ha, hnd⟩ := List.nodup_cons.mp hnd
      have hne : a ≠ p b := fun e => ha (e ▸ h₃.prev_mem)
      have hce : c ≠ e := fun h => he (h ▸ List.mem_cons_self)
      refine ⟨?_, ?_, ih h₃ hnd fun h => he (List.mem_cons_of_mem _ h)⟩
      · rw [update_of_ne hne, h₁]
      · rw [update_of_ne hce, h₂]

/-- A new first node takes over what follows the old one. -/
theorem restart (h : Seg n p a l b) (hnd : l.Nodup) (hb : b ∉ l) (he : e ∉ l) :
    Seg (update n e (n a)) (update p (n a) e) e l b := by
  cases l with
  | nil =>
      obtain ⟨h₁, -⟩ := h
      rw [h₁]
      simp
  | cons c l =>
      obtain ⟨h₁, -, h₃⟩ := h
      rw [h₁]
      refine ⟨update_self .., update_self .., h₃.congr (fun x hx => ?_) fun x hx => ?_⟩
      · exact update_of_ne (fun h : x = e => he (h ▸ hx)) ..
      · refine update_of_ne ?_ ..
        rintro rfl
        rcases hx with hx | rfl
        · exact (List.nodup_cons.mp hnd).1 hx
        · exact hb List.mem_cons_self

end Seg

/-! ## Visits -/

/-- From `a`, following `f`, exactly the nodes of `l` are visited, and then `b`. -/
def Visits (f : α → α) : α → List α → α → Prop
  | a, [], b => f a = b
  | a, c :: l, b => f a = c ∧ Visits f c l b

/-- A walk is cut at any of its elements. -/
theorem visits_append {f : α → α} {a b c : α} {l l' : List α} :
    Visits f a (l ++ c :: l') b ↔ Visits f a l c ∧ Visits f c l' b := by
  induction l generalizing a with
  | nil => exact Iff.rfl
  | cons d l ih =>
      rw [List.cons_append, Visits, Visits, ih]
      simp [and_assoc]

/-- A walk forward along a segment. -/
theorem Seg.visits {a b : α} {l : List α} (h : Seg n p a l b) : Visits n a l b := by
  induction l generalizing a with
  | nil => exact h.1
  | cons c l ih => exact ⟨h.1, ih h.2.2⟩

/-- A walk backward along a segment. -/
theorem Seg.visits_reverse {a b : α} {l : List α} (h : Seg n p a l b) : Visits p b l.reverse a := by
  induction l generalizing a with
  | nil => exact h.2
  | cons c l ih =>
      obtain ⟨-, hp, hseg⟩ := h
      rw [List.reverse_cons]
      exact visits_append.mpr ⟨ih hseg, hp⟩

/-- A visit ends where its end is met first. -/
theorem Visits.unique {f : α → α} {a b : α} {l l' : List α} (h : Visits f a l b) (h' : Visits f a l' b)
    (hb : b ∉ l) (hb' : b ∉ l') : l = l' := by
  induction l generalizing a l' with
  | nil =>
      cases l' with
      | nil => rfl
      | cons c l' => exact absurd (h.symm.trans h'.1 ▸ List.mem_cons_self) hb'
  | cons c l ih =>
      cases l' with
      | nil => exact absurd (h'.symm.trans h.1 ▸ List.mem_cons_self) hb
      | cons d l' =>
          obtain rfl : c = d := h.1.symm.trans h'.1
          rw [ih h.2 h'.2 (fun hm => hb (List.mem_cons_of_mem _ hm))
            fun hm => hb' (List.mem_cons_of_mem _ hm)]

/-! ## One circle -/

/-- The nodes of `l`, in order, form a circle. -/
def Ring (n p : α → α) : List α → Prop
  | [] => True
  | a :: l => (a :: l).Nodup ∧ Seg n p a l a

namespace Ring

variable {a e : α} {l l' : List α}

/-- A ring has no element twice. -/
theorem nodup (h : Ring n p l) : l.Nodup := by
  cases l with
  | nil => exact List.nodup_nil
  | cons a l => exact h.1

/-- A circle may be started at any of its nodes. -/
theorem rotate (h : Ring n p (l ++ l')) : Ring n p (l' ++ l) := by
  cases l with
  | nil => rwa [List.append_nil]
  | cons a l =>
      cases l' with
      | nil => rwa [List.append_nil] at h
      | cons b l' =>
          obtain ⟨hnd, hseg⟩ := h
          have hnd' : ((b :: l') ++ (a :: l)).Nodup := List.nodup_append_comm.mp hnd
          refine ⟨hnd', ?_⟩
          exact seg_append.mpr (seg_append.mp hseg).symm

/-- A circle reads the links of its own nodes. -/
theorem congr (h : Ring n p l) (hn : ∀ x ∈ l, n' x = n x) (hp : ∀ x ∈ l, p' x = p x) :
    Ring n' p' l := by
  cases l with
  | nil => trivial
  | cons a l =>
      refine ⟨h.1, h.2.congr hn fun x hx => hp x ?_⟩
      rcases hx with hx | rfl
      · exact List.mem_cons_of_mem _ hx
      · exact List.mem_cons_self

/-- A single node that leads to itself. -/
theorem singleton (hn : n a = a) (hp : p a = a) : Ring n p [a] :=
  ⟨List.nodup_singleton a, hn, hp⟩

/-- The node after the first one starts the rest. -/
theorem next_eq (h : Ring n p (a :: l)) : n a = (l ++ [a]).head (by simp) := by
  cases l with
  | nil => exact h.2.1
  | cons b l => exact h.2.1

/-- Only a single node leads to itself. -/
theorem next_eq_self (h : Ring n p (a :: l)) : n a = a ↔ l = [] := by
  cases l with
  | nil => exact ⟨fun _ => rfl, fun _ => h.2.1⟩
  | cons b l =>
      have hne : b ≠ a := fun e => (List.nodup_cons.mp h.1).1 (e ▸ List.mem_cons_self)
      simp only [reduceCtorEq, iff_false]
      exact fun e => hne (h.2.1.symm.trans e)

/-- The next of an element is on the ring. -/
theorem next_mem (h : Ring n p l) (he : e ∈ l) : n e ∈ l := by
  obtain ⟨l₁, l₂, rfl⟩ := List.append_of_mem he
  have hrot : Ring n p (e :: (l₂ ++ l₁)) := h.rotate
  have hm : n e ∈ (l₂ ++ l₁) ++ [e] := hrot.next_eq ▸ List.head_mem _
  simp only [List.mem_append, List.mem_cons, List.not_mem_nil, or_false] at hm ⊢
  tauto

/-- The previous of an element is on the ring. -/
theorem prev_mem (h : Ring n p l) (he : e ∈ l) : p e ∈ l := by
  obtain ⟨l₁, l₂, rfl⟩ := List.append_of_mem he
  have hrot : Ring n p (e :: (l₂ ++ l₁)) := h.rotate
  have hm := hrot.2.prev_mem
  simp only [List.mem_append, List.mem_cons] at hm ⊢
  tauto

/-- A node determines its circle. -/
theorem unique (h : Ring n p (a :: l)) (h' : Ring n p (a :: l')) : l = l' :=
  h.2.visits.unique h'.2.visits (List.nodup_cons.mp h.1).1 (List.nodup_cons.mp h'.1).1

/-- Circles with a node in common have the same nodes. -/
theorem subset (h : Ring n p l) (h' : Ring n p l') (he : e ∈ l) (he' : e ∈ l') : l ⊆ l' := by
  obtain ⟨l₁, l₂, rfl⟩ := List.append_of_mem he
  obtain ⟨l₃, l₄, rfl⟩ := List.append_of_mem he'
  have hrot : Ring n p (e :: (l₂ ++ l₁)) := h.rotate
  have hrot' : Ring n p (e :: (l₄ ++ l₃)) := h'.rotate
  have heq : l₂ ++ l₁ = l₄ ++ l₃ := hrot.unique hrot'
  intro x hx
  have hm : x ∈ e :: (l₂ ++ l₁) := by
    simp only [List.mem_append, List.mem_cons] at hx ⊢
    tauto
  rw [heq] at hm
  simp only [List.mem_append, List.mem_cons] at hm ⊢
  tauto

variable [DecidableEq α]

/-- A node is put behind the first one. -/
theorem add (h : Ring n p (a :: l)) (he : e ∉ a :: l) :
    Ring (update (update n e (n a)) a e) (update (update p e a) (n a) e) (e :: (l ++ [a])) := by
  obtain ⟨hnd, hseg⟩ := h
  obtain ⟨ha, hl⟩ := List.nodup_cons.mp hnd
  have hea : e ≠ a := fun h => he (h ▸ List.mem_cons_self)
  have hel : e ∉ l := fun h => he (List.mem_cons_of_mem _ h)
  have hna : n a ≠ e := by
    intro h
    cases l with
    | nil => exact hea (h.symm.trans hseg.1)
    | cons b l => exact hel (h.symm.trans hseg.1 ▸ List.mem_cons_self)
  have hrest := hseg.restart hl ha hel
  have hring : Ring (update (update n e (n a)) a e) (update (update p e a) (n a) e)
      ([a] ++ e :: l) := by
    refine ⟨List.nodup_cons.mpr ⟨?_, List.nodup_cons.mpr ⟨hel, hl⟩⟩, update_self .., ?_, ?_⟩
    · rintro (_ | ⟨_, h⟩)
      · exact hea rfl
      · exact ha h
    · rw [update_of_ne hna.symm, update_self]
    · refine hrest.congr (fun x hx => ?_) fun x hx => ?_
      · refine update_of_ne ?_ ..
        rintro rfl
        rcases List.mem_cons.mp hx with rfl | hx
        · exact hea rfl
        · exact ha hx
      · by_cases hx' : x = n a
        · rw [hx', update_self, update_self]
        · rw [update_of_ne hx', update_of_ne hx', update_of_ne]
          rintro rfl
          exact hx.elim hel hea
  exact hring.rotate

/-- The first node is taken out, and leads to itself. -/
theorem rem (h : Ring n p (e :: l)) :
    Ring (update (update n (update p (n e) (p e) e) (n e)) e e)
      (update (update p (n e) (p e)) e e) l := by
  obtain ⟨hnd, hseg⟩ := h
  obtain ⟨he, hl⟩ := List.nodup_cons.mp hnd
  cases l with
  | nil => trivial
  | cons a l =>
      obtain ⟨hn, hp, hseg⟩ := hseg
      have hea : e ≠ a := fun h => he (h ▸ List.mem_cons_self)
      rw [hn, update_of_ne hea]
      refine ⟨hl, (hseg.retarget hl (List.nodup_cons.mp hl).1).congr (fun x hx => ?_) ?_⟩
      · exact update_of_ne (fun h : x = e => he (h ▸ hx)) ..
      · rintro x (hx | rfl)
        · exact update_of_ne (fun h : x = e => he (h ▸ List.mem_cons_of_mem _ hx)) ..
        · exact update_of_ne hea.symm ..

/-- Writes to the links of other nodes. -/
theorem write (h : Ring n p l) {a₁ a₂ b₁ b₂ : α} (ha₁ : a₁ ∉ l) (ha₂ : a₂ ∉ l) (hb₁ : b₁ ∉ l)
    (hb₂ : b₂ ∉ l) (c₁ c₂ d₁ d₂ : α) :
    Ring (update (update n a₁ c₁) a₂ c₂) (update (update p b₁ d₁) b₂ d₂) l := by
  refine h.congr (fun x hx => ?_) fun x hx => ?_
  · rw [update_of_ne fun h : x = a₂ => ha₂ (h ▸ hx), update_of_ne fun h : x = a₁ => ha₁ (h ▸ hx)]
  · rw [update_of_ne fun h : x = b₂ => hb₂ (h ▸ hx), update_of_ne fun h : x = b₁ => hb₁ (h ▸ hx)]

/-- A node is put behind another one. -/
theorem insertAfter (h : Ring n p (l ++ a :: l')) (he : e ∉ l ++ a :: l') :
    Ring (update (update n e (n a)) a e) (update (update p e a) (n a) e) (l ++ a :: e :: l') := by
  have hrot : Ring n p (a :: (l' ++ l)) := h.rotate
  have hne : e ∉ a :: (l' ++ l) := by
    simp only [List.mem_append, List.mem_cons] at he ⊢
    tauto
  have hadd := hrot.add hne
  have hsplit : e :: (l' ++ l ++ [a]) = (e :: l') ++ (l ++ [a]) := by simp
  rw [hsplit] at hadd
  have hres := hadd.rotate
  rwa [List.append_assoc] at hres

/-- A node is put before another one. -/
theorem insertBefore (h : Ring n p (l ++ a :: l')) (he : e ∉ l ++ a :: l') :
    Ring (update (update n e (n (p a))) (p a) e) (update (update p e (p a)) (n (p a)) e)
      (l ++ e :: a :: l') := by
  have hrot : Ring n p (a :: (l' ++ l)) := h.rotate
  have hne : e ∉ a :: (l' ++ l) := by
    simp only [List.mem_append, List.mem_cons] at he ⊢
    tauto
  rcases List.eq_nil_or_concat (l' ++ l) with hnil | ⟨k, d, hk⟩
  · -- a single node: behind it is before it
    obtain ⟨rfl, rfl⟩ := List.append_eq_nil_iff.mp hnil
    have hp : p a = a := hrot.2.2
    rw [hp]
    exact hrot.add hne
  · rw [List.concat_eq_append] at hk
    rw [hk] at hrot hne
    have hlast : Ring n p (d :: a :: k) := (List.cons_append .. ▸ hrot : Ring n p ((a :: k) ++ [d])).rotate
    have hp : p a = d := hlast.2.2.1
    have hne' : e ∉ d :: a :: k := by
      simp only [List.mem_append, List.mem_cons] at hne ⊢
      tauto
    have hadd := hlast.add hne'
    rw [hp]
    have hsplit : e :: (a :: k ++ [d]) = (e :: a :: l') ++ l := by
      rw [List.cons_append, ← hk]
      simp
    rw [hsplit] at hadd
    exact hadd.rotate

/-- A node is taken out, and leads to itself. -/
theorem remove (h : Ring n p (l ++ a :: l')) :
    Ring (update (update n (update p (n a) (p a) a) (n a)) a a)
      (update (update p (n a) (p a)) a a) (l ++ l') := by
  have hrot : Ring n p (a :: (l' ++ l)) := h.rotate
  exact hrot.rem.rotate

end Ring

/-! ## A family of circles -/

/-- Disjoint circles that share their links: the circle of key `k` is `cont k`, and `head k` is its
first node. -/
structure Rings {κ : Type*} (n p : α → α) (head : κ → Option α) (cont : κ → List α) : Prop where
  ring : ∀ k, Ring n p (cont k)
  head_eq : ∀ k, head k = (cont k).head?
  disjoint : ∀ {k k' a}, a ∈ cont k → a ∈ cont k' → k = k'

namespace Rings

variable {κ : Type*} [DecidableEq κ] {head : κ → Option α} {cont : κ → List α} {k : κ} {a e : α}
  {l : List α}

omit [DecidableEq κ] in
/-- A family without nodes. -/
theorem empty : Rings n p (fun _ : κ => none) fun _ => [] :=
  ⟨fun _ => trivial, fun _ => rfl, fun h => by cases h⟩

omit [DecidableEq κ] in
/-- A family reads the links of its own nodes. -/
theorem congr (h : Rings n p head cont) (hn : ∀ k, ∀ x ∈ cont k, n' x = n x)
    (hp : ∀ k, ∀ x ∈ cont k, p' x = p x) : Rings n' p' head cont :=
  ⟨fun k => (h.ring k).congr (hn k) (hp k), h.head_eq, h.disjoint⟩

/-- One circle is replaced by one whose nodes are on no other, where the links of the others
stay. -/
theorem replace (h : Rings n p head cont) {o : Option α} (hr : Ring n' p' l) (ho : o = l.head?)
    (hl : ∀ x ∈ l, ∀ k', k' ≠ k → x ∉ cont k') (hn : ∀ k', k' ≠ k → ∀ x ∈ cont k', n' x = n x)
    (hp : ∀ k', k' ≠ k → ∀ x ∈ cont k', p' x = p x) :
    Rings n' p' (update head k o) (update cont k l) := by
  constructor
  · intro k'
    by_cases hk : k' = k
    · subst hk
      rwa [update_self]
    · rw [update_of_ne hk]
      exact (h.ring k').congr (hn k' hk) (hp k' hk)
  · intro k'
    by_cases hk : k' = k
    · subst hk
      rwa [update_self, update_self]
    · rw [update_of_ne hk, update_of_ne hk]
      exact h.head_eq k'
  · have key : ∀ k' x, x ∈ update cont k l k' → (k' = k ∧ x ∈ l) ∨ (k' ≠ k ∧ x ∈ cont k') := by
      intro k' x hx
      by_cases hk : k' = k
      · subst hk
        rw [update_self] at hx
        exact .inl ⟨rfl, hx⟩
      · rw [update_of_ne hk] at hx
        exact .inr ⟨hk, hx⟩
    intro k₁ k₂ x h₁ h₂
    rcases key k₁ x h₁ with ⟨e₁, m₁⟩ | ⟨n₁, m₁⟩ <;> rcases key k₂ x h₂ with ⟨e₂, m₂⟩ | ⟨n₂, m₂⟩
    · exact e₁.trans e₂.symm
    · exact absurd m₂ (hl x m₁ k₂ n₂)
    · exact absurd m₁ (hl x m₂ k₁ n₁)
    · exact h.disjoint m₁ m₂

/-- A node that leads to itself is a circle of its own. -/
theorem addFirst (h : Rings n p head cont) (hn : n e = e) (hp : p e = e)
    (he : ∀ k, e ∉ cont k) : Rings n p (update head k (some e)) (update cont k [e]) := by
  refine h.replace (Ring.singleton hn hp) rfl ?_ (fun _ _ _ _ => rfl) fun _ _ _ _ => rfl
  intro x hx k' _
  rw [List.mem_singleton.mp hx]
  exact he k'

variable [DecidableEq α]

/-- A node is put behind the first one of a circle, and is the first one then. -/
theorem add (h : Rings n p head cont) (hk : cont k = a :: l) (he : ∀ k, e ∉ cont k) :
    Rings (update (update n e (n a)) a e) (update (update p e a) (n a) e)
      (update head k (some e)) (update cont k (e :: (l ++ [a]))) := by
  have hring := h.ring k
  rw [hk] at hring
  have hmem : ∀ x, x ∈ e :: (l ++ [a]) ↔ x = e ∨ x ∈ cont k := by
    intro x
    rw [hk]
    simp [or_comm]
  have hoff : ∀ k', k' ≠ k → ∀ x ∈ cont k', x ≠ e ∧ x ∉ cont k := fun k' hk' x hx =>
    ⟨fun e => he k' (e ▸ hx), fun hm => hk' (h.disjoint hx hm)⟩
  have hna : n a ∈ cont k := (h.ring k).next_mem (hk ▸ List.mem_cons_self)
  refine h.replace (hring.add (hk ▸ he k)) rfl ?_ ?_ ?_
  · intro x hx k' hk' hm
    obtain ⟨h₁, h₂⟩ := hoff k' hk' x hm
    exact ((hmem x).mp hx).elim h₁ h₂
  · intro k' hk' x hx
    obtain ⟨h₁, h₂⟩ := hoff k' hk' x hx
    have hxa : x ≠ a := fun e => h₂ (e ▸ hk ▸ List.mem_cons_self)
    rw [update_of_ne hxa, update_of_ne h₁]
  · intro k' hk' x hx
    obtain ⟨h₁, h₂⟩ := hoff k' hk' x hx
    have hxa : x ≠ n a := fun e => h₂ (e ▸ hna)
    rw [update_of_ne hxa, update_of_ne h₁]

/-- A node is taken out of its circle; the first one is then the next of it, if it was the first. -/
theorem rem (h : Rings n p head cont) (he : e ∈ cont k) :
    Rings (update (update n (update p (n e) (p e) e) (n e)) e e)
      (update (update p (n e) (p e)) e e)
      (update head k (if head k = some e then if n e = e then none else some (n e) else head k))
      (update cont k ((cont k).erase e)) := by
  obtain ⟨l₁, l₂, hk⟩ := List.append_of_mem he
  have hring := h.ring k
  rw [hk] at hring
  have hnd := hring.nodup
  have he₁ : e ∉ l₁ := fun hm => by
    rw [List.nodup_append] at hnd
    exact hnd.2.2 e hm e List.mem_cons_self rfl
  have herase : (cont k).erase e = l₁ ++ l₂ := by
    rw [hk, List.erase_append_right _ he₁, List.erase_cons_head]
  have hrot : Ring n p (e :: (l₂ ++ l₁)) := hring.rotate
  have hsub : ∀ x, x ∈ (cont k).erase e → x ∈ cont k := fun x hx => List.mem_of_mem_erase hx
  have hne := (h.ring k).next_mem he
  have hpe := (h.ring k).prev_mem he
  have hoff : ∀ k', k' ≠ k → ∀ x ∈ cont k', x ∉ cont k := fun k' hk' x hx hm =>
    hk' (h.disjoint hx hm)
  refine h.replace ?_ ?_ ?_ ?_ ?_
  · rw [herase]
    exact hrot.rem.rotate
  · rw [herase]
    have hh := h.head_eq k
    rw [hk] at hh
    cases l₁ with
    | nil =>
        have hh : head k = some e := hh
        rw [if_pos hh]
        simp only [hrot.next_eq_self]
        cases l₂ with
        | nil => simp
        | cons b l₂ =>
            rw [if_neg (by simp)]
            exact congrArg some hrot.2.1
    | cons b l₁ =>
        have hbe : b ≠ e := fun h => he₁ (h ▸ List.mem_cons_self)
        rw [hh]
        simp [hbe]
  · intro x hx k' hk' hm
    exact hoff k' hk' x hm (hsub x hx)
  · intro k' hk' x hx
    have hx' := hoff k' hk' x hx
    have hxe : x ≠ e := fun h => hx' (h ▸ he)
    rw [update_of_ne hxe, update_of_ne]
    rintro rfl
    exact hx' (by rwa [update_self_or])
  · intro k' hk' x hx
    have hx' := hoff k' hk' x hx
    rw [update_of_ne (fun h : x = e => hx' (h ▸ he)), update_of_ne fun h : x = n e => hx' (h ▸ hne)]

end Rings

end Parsec.Lib
