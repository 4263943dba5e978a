import Mathlib.Data.List.Nodup
import Mathlib.Logic.Function.Basic

/-!
# Linked lists in a `next` field

* `Chain next h l` — starting at `h` and following `next`, one visits exactly the nodes of `l`, in
  order, and then reaches the end (`none`). A chain determines its list (`Chain.unique`) and visits
  no node twice (`Chain.nodup`).
* `Reaches next h n` — `n` is met by following `next` from `h`; on a chain this is membership
  (`Chain.reaches_iff`).
* `follow next k h` — the first `k` nodes met; on a chain shorter than `k` this is its list
  (`Chain.follow_eq`).
* `Chains next head cont` — a family of lists, indexed by keys, that share one `next` field: each
  `head k` starts a chain through `cont k`, and no node is on two of them. The rules `Chains.pop`,
  `push`, `snoc`, `move`, `drop`, `insert`, `write` say what the usual edits do to the family.
-/

namespace Parsec.Lib

open Function

variable {α : Type*}

/-! ## One list -/

/-- From `h`, following `next`, exactly the nodes of the list are visited, and then the end. -/
def Chain (next : α → Option α) : Option α → List α → Prop
  | h, [] => h = none
  | h, a :: l => h = some a ∧ Chain next (next a) l

section Chain

variable {next next' : α → Option α} {h : Option α} {l l' : List α}

/-- The empty chain. -/
@[simp] theorem chain_nil : Chain next h [] ↔ h = none := Iff.rfl

/-- A chain starts with its first element. -/
@[simp] theorem chain_cons {a : α} :
    Chain next h (a :: l) ↔ h = some a ∧ Chain next (next a) l := Iff.rfl

/-- A chain from the end is empty. -/
theorem chain_none_iff : Chain next none l ↔ l = [] := by
  cases l <;> simp

/-- A chain from a node starts with it. -/
theorem chain_some_iff {a : α} :
    Chain next (some a) l ↔ ∃ t, l = a :: t ∧ Chain next (next a) t := by
  cases l with
  | nil => simp
  | cons b t =>
      simp only [chain_cons, Option.some.injEq, List.cons.injEq]
      constructor
      · rintro ⟨rfl, hc⟩; exact ⟨t, ⟨rfl, rfl⟩, hc⟩
      · rintro ⟨_, ⟨rfl, rfl⟩, hc⟩; exact ⟨rfl, hc⟩

/-- The head of a chain tells the first node of its list. -/
theorem Chain.head_eq (hc : Chain next h l) : h = l.head? := by
  cases l with
  | nil => exact hc
  | cons a t => exact hc.1

/-- A chain determines its list. -/
theorem Chain.unique (hc : Chain next h l) (hc' : Chain next h l') : l = l' := by
  induction l generalizing h l' with
  | nil => rw [chain_nil] at hc; subst hc; exact (chain_none_iff.mp hc').symm
  | cons a l ih =>
      obtain ⟨rfl, ht⟩ := hc
      obtain ⟨t, rfl, ht'⟩ := chain_some_iff.mp hc'
      rw [ih ht ht']

/-- A chain reads `next` at its own nodes only. -/
theorem Chain.congr (hc : Chain next h l) (hn : ∀ a ∈ l, next' a = next a) :
    Chain next' h l := by
  induction l generalizing h with
  | nil => exact hc
  | cons a l ih =>
      refine ⟨hc.1, ?_⟩
      rw [hn a List.mem_cons_self]
      exact ih hc.2 fun b hb => hn b (List.mem_cons_of_mem _ hb)

/-- The rest of a chain after any of its nodes is a chain. -/
theorem Chain.suffix {a : α} {p t : List α} (hc : Chain next h (p ++ a :: t)) :
    Chain next (next a) t := by
  induction p generalizing h with
  | nil => exact hc.2
  | cons b p ih => exact ih hc.2

/-- A chain visits no node twice: what follows a node is determined by it. -/
theorem Chain.nodup (hc : Chain next h l) : l.Nodup := by
  induction l generalizing h with
  | nil => exact List.nodup_nil
  | cons a l ih =>
      refine List.nodup_cons.mpr ⟨fun ha => ?_, ih hc.2⟩
      obtain ⟨p, t, rfl⟩ := List.append_of_mem ha
      have hlen := congrArg List.length (hc.2.unique hc.2.suffix)
      simp at hlen
      omega

/-- Nodes given by number, each of which leads to the next one. -/
theorem chain_range' {f : ℕ → α} {i m : ℕ} (hh : h = if m = 0 then none else some (f i))
    (hn : ∀ j, i ≤ j → j + 1 < i + m → next (f j) = some (f (j + 1)))
    (hend : 0 < m → next (f (i + m - 1)) = none) : Chain next h ((List.range' i m).map f) := by
  induction m generalizing h i with
  | zero => exact hh
  | succ m ih =>
      rw [List.range'_succ, List.map_cons, chain_cons]
      refine ⟨hh, ih ?_ (fun j h₁ h₂ => hn j (by omega) (by omega)) fun hm => ?_⟩
      · by_cases hm : m = 0
        · subst hm
          simpa using hend
        · rw [if_neg hm]
          exact hn i (Nat.le_refl i) (by omega)
      · have he : i + 1 + m - 1 = i + (m + 1) - 1 := by omega
        rw [he]
        exact hend (Nat.succ_pos m)

variable [DecidableEq α]

/-- Writing the `next` of a node off the chain. -/
theorem Chain.update_of_notMem {n : α} {v : Option α} (hc : Chain next h l) (hn : n ∉ l) :
    Chain (update next n v) h l := by
  refine hc.congr fun a ha => ?_
  have hne : a ≠ n := fun e => hn (e ▸ ha)
  rw [update_of_ne hne]

/-- Pushing a node: its `next` is written to the old head. -/
theorem Chain.push {n : α} (hc : Chain next h l) (hn : n ∉ l) :
    Chain (update next n h) (some n) (n :: l) := by
  refine ⟨rfl, ?_⟩
  rw [update_self]
  exact hc.update_of_notMem hn

/-- Appending a node whose own `next` is the end to a chain that is not empty. -/
theorem Chain.snoc {n t : α} {p : List α} (hc : Chain next h (p ++ [t])) (hn : n ∉ p ++ [t])
    (hend : next n = none) : Chain (update next t (some n)) h (p ++ [t, n]) := by
  induction p generalizing h with
  | nil =>
      have hne : n ≠ t := fun e => hn (by simp [e])
      exact ⟨hc.1, by simp [update_of_ne hne, hend]⟩
  | cons a p ih =>
      have hat : a ≠ t := by
        have hd := hc.nodup
        simp only [List.cons_append, List.nodup_cons, List.mem_append, List.mem_singleton] at hd
        exact fun e => hd.1 (.inr e)
      refine ⟨hc.1, ?_⟩
      rw [update_of_ne hat]
      exact ih hc.2 fun hm => hn (List.mem_cons_of_mem _ hm)

end Chain

/-! ## Reaching a node, and following the list -/

/-- `n` is met by following `next` from `h`. -/
inductive Reaches (next : α → Option α) : Option α → α → Prop
  | here {n : α} : Reaches next (some n) n
  | next {a n : α} : Reaches next (next a) n → Reaches next (some a) n

/-- What is reached along a chain is what is on it. -/
theorem Chain.reaches_iff {next : α → Option α} {h : Option α} {l : List α}
    (hc : Chain next h l) {n : α} : Reaches next h n ↔ n ∈ l := by
  constructor
  · intro hr
    induction hr generalizing l with
    | here =>
        obtain ⟨t, rfl, -⟩ := chain_some_iff.mp hc
        exact List.mem_cons_self
    | next _ ih =>
        obtain ⟨t, rfl, ht⟩ := chain_some_iff.mp hc
        exact List.mem_cons_of_mem _ (ih ht)
  · intro hm
    induction l generalizing h with
    | nil => cases hm
    | cons a l ih =>
        obtain ⟨rfl, hc⟩ := hc
        rcases List.mem_cons.mp hm with rfl | hm
        · exact .here
        · exact .next (ih hc hm)

/-- The first `k` nodes met by following `next` from `h`. -/
def follow (next : α → Option α) : Nat → Option α → List α
  | 0, _ => []
  | _ + 1, none => []
  | k + 1, some a => a :: follow next k (next a)

/-- Following `next` for long enough gives the chain. -/
theorem Chain.follow_eq {next : α → Option α} {h : Option α} {l : List α} (hc : Chain next h l)
    {k : Nat} (hk : l.length ≤ k) : follow next k h = l := by
  induction l generalizing h k with
  | nil => rw [chain_nil] at hc; subst hc; cases k <;> rfl
  | cons a l ih =>
      obtain ⟨rfl, hc⟩ := hc
      cases k with
      | zero => simp at hk
      | succ k => rw [follow, ih hc (by simpa using hk)]

/-! ## A family of lists in one `next` field -/

/-- Disjoint linked lists that share one `next` field: the list of key `k` starts at `head k` and
visits `cont k`. -/
structure Chains {κ : Type*} (next : α → Option α) (head : κ → Option α) (cont : κ → List α) :
    Prop where
  chain : ∀ k, Chain next (head k) (cont k)
  disjoint : ∀ {k k' a}, a ∈ cont k → a ∈ cont k' → k = k'

namespace Chains

variable {κ : Type*} {next : α → Option α} {head : κ → Option α} {cont : κ → List α}

/-- A family without nodes. -/
theorem empty {next : α → Option α} : Chains next (fun _ : κ => none) fun _ => [] :=
  ⟨fun _ => rfl, fun h => by cases h⟩

/-- The lists of a family have no duplicates. -/
theorem nodup (hC : Chains next head cont) (k : κ) : (cont k).Nodup := (hC.chain k).nodup

/-- A family reads `next` at its own nodes only. -/
theorem congr {next' : α → Option α} (hC : Chains next head cont)
    (hn : ∀ k, ∀ a ∈ cont k, next' a = next a) : Chains next' head cont :=
  ⟨fun k => (hC.chain k).congr (hn k), hC.disjoint⟩

variable [DecidableEq α]

/-- Writing the `next` of a node that is on no list. -/
theorem write (hC : Chains next head cont) {n : α} (hn : ∀ k, n ∉ cont k) (v : Option α) :
    Chains (update next n v) head cont :=
  ⟨fun k => (hC.chain k).update_of_notMem (hn k), hC.disjoint⟩

variable [DecidableEq κ]

/-- Removing the first node of a list, whatever is then written to its `next`. -/
theorem pop (hC : Chains next head cont) {k : κ} {a : α} {l : List α} (hk : cont k = a :: l)
    (v : Option α) : Chains (update next a v) (update head k (next a)) (update cont k l) := by
  have hnd := hC.nodup k
  rw [hk, List.nodup_cons] at hnd
  refine ⟨fun k' => ?_, fun {k₁ k₂ b} h₁ h₂ => ?_⟩
  · by_cases hk' : k' = k
    · subst hk'
      have hc := hC.chain k'
      rw [hk] at hc
      simpa using hc.2.update_of_notMem hnd.1
    · rw [update_of_ne hk', update_of_ne hk']
      refine (hC.chain k').update_of_notMem fun ha => hk' ?_
      exact hC.disjoint ha (hk ▸ List.mem_cons_self)
  · have hsub : ∀ k', b ∈ update cont k l k' → b ∈ cont k' := by
      intro k' hb
      by_cases hk' : k' = k
      · subst hk'
        rw [update_self] at hb
        exact hk ▸ List.mem_cons_of_mem _ hb
      · rwa [update_of_ne hk'] at hb
    exact hC.disjoint (hsub _ h₁) (hsub _ h₂)

omit [DecidableEq α] in
/-- A removed node is on no list. -/
theorem notMem_of_pop (hC : Chains next head cont) {k : κ} {a : α} {l : List α}
    (hk : cont k = a :: l) (k' : κ) : a ∉ update cont k l k' := by
  have hnd := hC.nodup k
  rw [hk, List.nodup_cons] at hnd
  by_cases hk' : k' = k
  · subst hk'; rw [update_self]; exact hnd.1
  · rw [update_of_ne hk']
    exact fun ha => hk' (hC.disjoint ha (hk ▸ List.mem_cons_self))

omit [DecidableEq α] in
/-- Adding a node to one list keeps the lists disjoint. -/
theorem disjoint_add (hC : Chains next head cont) {k : κ} {n : α} (hn : ∀ k, n ∉ cont k)
    {l : List α} (hl : ∀ a, a ∈ l ↔ a = n ∨ a ∈ cont k) {k₁ k₂ : κ} {a : α}
    (h₁ : a ∈ update cont k l k₁) (h₂ : a ∈ update cont k l k₂) : k₁ = k₂ := by
  have key : ∀ k', a ∈ update cont k l k' → (a = n ∧ k' = k) ∨ a ∈ cont k' := by
    intro k' ha
    by_cases hk : k' = k
    · subst hk
      rw [update_self, hl] at ha
      exact ha.imp (fun e => ⟨e, rfl⟩) id
    · rw [update_of_ne hk] at ha
      exact .inr ha
  rcases key _ h₁ with ⟨e₁, k₁eq⟩ | m₁ <;> rcases key _ h₂ with ⟨e₂, k₂eq⟩ | m₂
  · exact k₁eq.trans k₂eq.symm
  · exact absurd (e₁ ▸ m₂) (hn _)
  · exact absurd (e₂ ▸ m₁) (hn _)
  · exact hC.disjoint m₁ m₂

/-- Pushing a node that is on no list: its `next` is written to the old head. -/
theorem push (hC : Chains next head cont) {n : α} (hn : ∀ k, n ∉ cont k) (k : κ) :
    Chains (update next n (head k)) (update head k (some n)) (update cont k (n :: cont k)) := by
  refine ⟨fun k' => ?_, hC.disjoint_add hn (by simp)⟩
  by_cases hk : k' = k
  · subst hk
    simpa using (hC.chain k').push (hn k')
  · rw [update_of_ne hk, update_of_ne hk]
    exact (hC.chain k').update_of_notMem (hn k')

omit [DecidableEq α] in
/-- A node on no list becomes the only node of an empty list, its own `next` being the end. -/
theorem singleton (hC : Chains next head cont) {n : α} (hn : ∀ k, n ∉ cont k) {k : κ}
    (hk : cont k = []) (hend : next n = none) :
    Chains next (update head k (some n)) (update cont k [n]) := by
  refine ⟨fun k' => ?_, hC.disjoint_add hn (by simp [hk])⟩
  by_cases hk' : k' = k
  · subst hk'; simp [hend]
  · rw [update_of_ne hk', update_of_ne hk']
    exact hC.chain k'

/-- Appending a node that is on no list, its own `next` being the end, to a list that is not
empty: the `next` of the last node is written. -/
theorem snoc (hC : Chains next head cont) {n t : α} (hn : ∀ k, n ∉ cont k) {k : κ} {p : List α}
    (hk : cont k = p ++ [t]) (hend : next n = none) :
    Chains (update next t (some n)) head (update cont k (p ++ [t, n])) := by
  have ht : t ∈ cont k := by simp [hk]
  refine ⟨fun k' => ?_, hC.disjoint_add hn fun a => by simp [hk]; tauto⟩
  by_cases hk' : k' = k
  · subst hk'
    rw [update_self]
    have hc := hC.chain k'
    rw [hk] at hc
    exact hc.snoc (hk ▸ hn k') hend
  · rw [update_of_ne hk']
    exact (hC.chain k').update_of_notMem fun h => hk' (hC.disjoint h ht)

omit [DecidableEq α] in
/-- Moving a whole list to a key whose list is empty. -/
theorem move (hC : Chains next head cont) {k k' : κ} (hk : cont k' = []) (hne : k' ≠ k) :
    Chains next (update (update head k none) k' (head k))
      (update (update cont k []) k' (cont k)) := by
  refine ⟨fun j => ?_, fun {k₁ k₂ a} h₁ h₂ => ?_⟩
  · by_cases hj' : j = k'
    · subst hj'; simpa using hC.chain k
    rw [update_of_ne hj', update_of_ne hj']
    by_cases hj : j = k
    · subst hj; simp
    · rw [update_of_ne hj, update_of_ne hj]; exact hC.chain j
  · have key : ∀ j, a ∈ update (update cont k []) k' (cont k) j →
        (j = k' ∧ a ∈ cont k) ∨ (j ≠ k ∧ a ∈ cont j) := by
      intro j ha
      by_cases hj' : j = k'
      · subst hj'; rw [update_self] at ha; exact .inl ⟨rfl, ha⟩
      · rw [update_of_ne hj'] at ha
        by_cases hj : j = k
        · subst hj; simp at ha
        · rw [update_of_ne hj] at ha; exact .inr ⟨hj, ha⟩
    rcases key _ h₁ with ⟨e₁, m₁⟩ | ⟨n₁, m₁⟩ <;> rcases key _ h₂ with ⟨e₂, m₂⟩ | ⟨n₂, m₂⟩
    · exact e₁.trans e₂.symm
    · exact absurd (hC.disjoint m₁ m₂).symm n₂
    · exact absurd (hC.disjoint m₁ m₂) n₁
    · exact hC.disjoint m₁ m₂

omit [DecidableEq α] in
/-- Dropping a whole list. -/
theorem drop (hC : Chains next head cont) (k : κ) :
    Chains next (update head k none) (update cont k []) := by
  refine ⟨fun j => ?_, fun {k₁ k₂ a} h₁ h₂ => ?_⟩
  · by_cases hj : j = k
    · subst hj; simp
    · rw [update_of_ne hj, update_of_ne hj]; exact hC.chain j
  · have hsub : ∀ j, a ∈ update cont k [] j → a ∈ cont j := by
      intro j ha
      by_cases hj : j = k
      · subst hj; simp at ha
      · rwa [update_of_ne hj] at ha
    exact hC.disjoint (hsub _ h₁) (hsub _ h₂)

omit [DecidableEq α] in
/-- A list of nodes that are on no list, at a key whose list is empty. -/
theorem insert (hC : Chains next head cont) {k : κ} {h : Option α} {l : List α}
    (hl : Chain next h l) (hn : ∀ a ∈ l, ∀ k', a ∉ cont k') :
    Chains next (update head k h) (update cont k l) := by
  refine ⟨fun j => ?_, fun {k₁ k₂ a} h₁ h₂ => ?_⟩
  · by_cases hj : j = k
    · subst hj; simpa using hl
    · rw [update_of_ne hj, update_of_ne hj]; exact hC.chain j
  · have key : ∀ j, a ∈ update cont k l j → (j = k ∧ a ∈ l) ∨ a ∈ cont j := by
      intro j ha
      by_cases hj : j = k
      · subst hj; rw [update_self] at ha; exact .inl ⟨rfl, ha⟩
      · rw [update_of_ne hj] at ha; exact .inr ha
    rcases key _ h₁ with ⟨e₁, m₁⟩ | m₁ <;> rcases key _ h₂ with ⟨e₂, m₂⟩ | m₂
    · exact e₁.trans e₂.symm
    · exact absurd m₂ (hn a m₁ _)
    · exact absurd m₁ (hn a m₂ _)
    · exact hC.disjoint m₁ m₂

end Chains

end Parsec.Lib
