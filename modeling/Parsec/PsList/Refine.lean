import Parsec.PsList.Basic

/-!
# The intrusive list refines sequences

The circle of each head and node is what its view says (`Refines`). Every operation keeps this, one
lemma for each kind of edit: a circle with the edited node is edited as the view is, and a circle
without it shares no link with the edit.
-/

namespace Parsec.PsList

open Function Lib

variable {H N : Type} [DecidableEq H] [DecidableEq N]

section Edits

variable {α : Type} [DecidableEq α] {w : Links α} {a e : α}

/-- `ps_list_ll_add` as four writes. -/
theorem llAdd_eq (hne : a ≠ e) : llAdd w a e =
    ⟨update (update w.n e (w.n a)) a e, update (update w.p e a) (w.n a) e⟩ := by
  have hn : update (update w.n e (w.n a)) a e e = w.n a := by
    rw [update_of_ne hne.symm, update_self]
  unfold llAdd
  simp only [hn]

/-- Adding a node to itself changes nothing. -/
theorem llAdd_self (hn : w.n a = a) (hp : w.p a = a) : llAdd w a a = w := by
  have hN : update w.n a a = w.n := update_eq_self_iff.mpr hn.symm
  have hP : update w.p a a = w.p := update_eq_self_iff.mpr hp.symm
  unfold llAdd
  simp only [hn, hN, hP]

/-- Inserting behind an element of a list. -/
theorem insAfter_append {l l' : List α} (h : a ∉ l) :
    insAfter a e (l ++ a :: l') = l ++ a :: e :: l' := by
  induction l with
  | nil => exact if_pos rfl
  | cons b l ih =>
      have hne : b ≠ a := fun he => h (he ▸ List.mem_cons_self)
      rw [List.cons_append, insAfter, if_neg hne, ih fun hm => h (List.mem_cons_of_mem _ hm)]
      rfl

/-- Inserting before an element of a list. -/
theorem insBefore_append {l l' : List α} (h : a ∉ l) :
    insBefore a e (l ++ a :: l') = l ++ e :: a :: l' := by
  induction l with
  | nil => exact if_pos rfl
  | cons b l ih =>
      have hne : b ≠ a := fun he => h (he ▸ List.mem_cons_self)
      rw [List.cons_append, insBefore, if_neg hne, ih fun hm => h (List.mem_cons_of_mem _ hm)]
      rfl

/-- There is nothing to insert behind. -/
theorem insAfter_of_notMem {l : List α} (h : a ∉ l) : insAfter a e l = l := by
  induction l with
  | nil => rfl
  | cons b l ih =>
      have hne : b ≠ a := fun he => h (he ▸ List.mem_cons_self)
      rw [insAfter, if_neg hne, ih fun hm => h (List.mem_cons_of_mem _ hm)]

/-- There is nothing to insert before. -/
theorem insBefore_of_notMem {l : List α} (h : a ∉ l) : insBefore a e l = l := by
  induction l with
  | nil => rfl
  | cons b l ih =>
      have hne : b ≠ a := fun he => h (he ▸ List.mem_cons_self)
      rw [insBefore, if_neg hne, ih fun hm => h (List.mem_cons_of_mem _ hm)]

/-- What is on a list after an insertion behind. -/
theorem mem_insAfter {l : List α} {d : α} (h : d ∈ insAfter a e l) : d = e ∨ d ∈ l := by
  induction l with
  | nil => cases h
  | cons b l ih =>
      unfold insAfter at h
      split at h
      · simp only [List.mem_cons] at h ⊢
        tauto
      · rcases List.mem_cons.mp h with rfl | h
        · exact .inr List.mem_cons_self
        · exact (ih h).imp id (List.mem_cons_of_mem _)

/-- What is on a list after an insertion before. -/
theorem mem_insBefore {l : List α} {d : α} (h : d ∈ insBefore a e l) : d = e ∨ d ∈ l := by
  induction l with
  | nil => cases h
  | cons b l ih =>
      unfold insBefore at h
      split at h
      · simp only [List.mem_cons] at h ⊢
        tauto
      · rcases List.mem_cons.mp h with rfl | h
        · exact .inr List.mem_cons_self
        · exact (ih h).imp id (List.mem_cons_of_mem _)

end Edits

/-! ## The refinement -/

/-- The links lead along the views, the cells seen are initialised, and a head sees only nodes. -/
structure Refines (w : Links (Cell H N)) (v : Views H N) : Prop where
  ring : ∀ c l, v c = some l → Ring w.n w.p (c :: l)
  closed : ∀ c l, v c = some l → ∀ d ∈ l, v d ≠ none
  nodes : ∀ h l, v (.head h) = some l → ∀ d ∈ l, ∃ x, d = .node x

section Circles

variable {w : Links (Cell H N)} {v : Views H N} {o x c : Cell H N} {k l : List (Cell H N)}

omit [DecidableEq H] [DecidableEq N] in
/-- A singleton is seen from nowhere else. -/
theorem Refines.notMem (hR : Refines w v) (hx : v x = some []) (hc : v c = some k) (hne : c ≠ x) :
    x ∉ c :: k := by
  intro hm
  have hsub := (hR.ring c k hc).subset (hR.ring x [] hx) hm List.mem_cons_self
  exact hne (List.mem_singleton.mp (hsub List.mem_cons_self))

omit [DecidableEq H] [DecidableEq N] in
/-- A circle without `o` shares no cell with the circle of `o`. -/
theorem Refines.disjoint (hR : Refines w v) (ho : v o = some l) (hc : v c = some k)
    (hok : o ∉ c :: k) {d : Cell H N} (hd : d ∈ o :: l) : d ∉ c :: k := by
  intro hm
  exact hok ((hR.ring o l ho).subset (hR.ring c k hc) hd hm List.mem_cons_self)

omit [DecidableEq H] [DecidableEq N] in
/-- The next of an element is in its circle. -/
theorem Refines.next_mem (hR : Refines w v) (ho : v o = some l) : w.n o ∈ o :: l :=
  (hR.ring o l ho).next_mem List.mem_cons_self

omit [DecidableEq H] [DecidableEq N] in
/-- The previous of an element is in its circle. -/
theorem Refines.prev_mem (hR : Refines w v) (ho : v o = some l) : w.p o ∈ o :: l :=
  (hR.ring o l ho).prev_mem List.mem_cons_self

/-- An edit of a view, where it is not of the head that sees itself. -/
theorem Refines.of_insert (hR : Refines w v) {w' : Links (Cell H N)} {v' : Views H N} (ho : v o = some l)
    (hx : v x = some []) (hnode : ∃ y, x = .node y) {m : List (Cell H N)} (hvx : v' x = some m)
    (hm : ∀ d ∈ m, d = o ∨ d ∈ l) (hxm : Ring w'.n w'.p (x :: m))
    (hview : ∀ c k', c ≠ x → v' c = some k' → ∃ k, v c = some k ∧ Ring w'.n w'.p (c :: k') ∧
      ∀ d ∈ k', d = x ∨ d ∈ k) (hdef : ∀ c, v c ≠ none → v' c ≠ none) : Refines w' v' := by
  have hx' : v' x ≠ none := by rw [hvx]; simp
  constructor
  · intro c k' hc
    by_cases hcx : c = x
    · subst hcx
      obtain rfl : m = k' := Option.some.inj (hvx.symm.trans hc)
      exact hxm
    · obtain ⟨k, -, hring, -⟩ := hview c k' hcx hc
      exact hring
  · intro c k' hc d hd
    by_cases hcx : c = x
    · subst hcx
      obtain rfl : m = k' := Option.some.inj (hvx.symm.trans hc)
      rcases hm d hd with rfl | hd
      · exact hdef d (by rw [ho]; simp)
      · exact hdef d (hR.closed o l ho d hd)
    · obtain ⟨k, hk, -, hsub⟩ := hview c k' hcx hc
      rcases hsub d hd with rfl | hd
      · exact hx'
      · exact hdef d (hR.closed c k hk d hd)
  · intro h k' hc d hd
    obtain ⟨y, hy⟩ := hnode
    have hcx : (.head h : Cell H N) ≠ x := by rw [hy]; simp
    obtain ⟨k, hk, -, hsub⟩ := hview (.head h) k' hcx hc
    rcases hsub d hd with rfl | hd
    · exact ⟨y, hy⟩
    · exact hR.nodes h k hk d hd

/-! ## The steps -/

/-- Adding a node behind an element. -/
theorem refines_insertAfter (hR : Refines w v) (ho : v o = some l) (hx : v x = some [])
    (hnode : ∃ y, x = .node y) : Refines (llAdd w o x) (v.insertAfter o x) := by
  by_cases hne : o = x
  · subst hne
    obtain ⟨-, hn, hp⟩ := hR.ring o [] hx
    rw [llAdd_self hn hp, show v.insertAfter o o = v from funext fun c => if_pos rfl]
    exact hR
  have hxo := hR.notMem hx ho hne
  rw [llAdd_eq hne]
  have hadd := (hR.ring o l ho).insertAfter (l := []) (e := x) hxo
  refine hR.of_insert ho hx hnode (m := l ++ [o]) ?_ ?_ ?_ ?_ ?_
  · unfold Views.insertAfter
    rw [if_neg hne, if_pos rfl, ho]
    rfl
  · intro d hd
    simp only [List.mem_append, List.mem_singleton] at hd
    exact hd.symm
  · exact Ring.rotate (l := [o]) hadd
  · intro c k' hcx hc
    unfold Views.insertAfter at hc
    rw [if_neg hne, if_neg hcx] at hc
    obtain ⟨k, hk, rfl⟩ := Option.map_eq_some_iff.mp hc
    have hring := hR.ring c k hk
    have hxk := hR.notMem hx hk hcx
    refine ⟨k, hk, ?_, fun d hd => ?_⟩
    · by_cases hco : c = o
      · subst hco
        rw [if_pos rfl]
        exact hring.insertAfter (l := []) hxk
      rw [if_neg hco]
      by_cases hok : o ∈ k
      · obtain ⟨k₁, k₂, rfl, hok₁⟩ := List.eq_append_cons_of_mem hok
        rw [insAfter_append hok₁]
        exact hring.insertAfter (l := c :: k₁) hxk
      · have hoff : o ∉ c :: k := by
          rw [List.mem_cons]
          rintro (h | h)
          · exact hco h.symm
          · exact hok h
        rw [insAfter_of_notMem hok]
        exact hring.write hxk hoff hxk (hR.disjoint ho hk hoff (hR.next_mem ho)) ..
    · split at hd
      · exact List.mem_cons.mp hd
      · exact mem_insAfter hd
  · intro c hc
    unfold Views.insertAfter
    rw [if_neg hne]
    split
    · simp [ho]
    · simpa using hc

/-- Adding a node before an element. -/
theorem refines_insertBefore (hR : Refines w v) (ho : v o = some l) (hx : v x = some [])
    (hnode : ∃ y, x = .node y) : Refines (llAdd w (w.p o) x) (v.insertBefore o x) := by
  by_cases hne : o = x
  · subst hne
    obtain ⟨-, hn, hp⟩ := hR.ring o [] hx
    rw [hp, llAdd_self hn hp, show v.insertBefore o o = v from funext fun c => if_pos rfl]
    exact hR
  have hxo := hR.notMem hx ho hne
  have hpo := hR.prev_mem ho
  rw [llAdd_eq fun h : w.p o = x => hxo (h ▸ hpo)]
  have hadd := (hR.ring o l ho).insertBefore (l := []) (e := x) hxo
  refine hR.of_insert ho hx hnode (m := o :: l) ?_ ?_ hadd ?_ ?_
  · unfold Views.insertBefore
    rw [if_neg hne, if_pos rfl, ho]
    rfl
  · exact fun d hd => List.mem_cons.mp hd
  · intro c k' hcx hc
    unfold Views.insertBefore at hc
    rw [if_neg hne, if_neg hcx] at hc
    obtain ⟨k, hk, rfl⟩ := Option.map_eq_some_iff.mp hc
    have hring := hR.ring c k hk
    have hxk := hR.notMem hx hk hcx
    refine ⟨k, hk, ?_, fun d hd => ?_⟩
    · by_cases hco : c = o
      · subst hco
        rw [if_pos rfl]
        have hrot := (hring.insertBefore (l := []) hxk).rotate (l := [x])
        exact hrot
      rw [if_neg hco]
      by_cases hok : o ∈ k
      · obtain ⟨k₁, k₂, rfl, hok₁⟩ := List.eq_append_cons_of_mem hok
        rw [insBefore_append hok₁]
        exact hring.insertBefore (l := c :: k₁) hxk
      · have hoff : o ∉ c :: k := by
          rw [List.mem_cons]
          rintro (h | h)
          · exact hco h.symm
          · exact hok h
        have hnp : w.n (w.p o) ∈ o :: l := (hR.ring o l ho).next_mem hpo
        rw [insBefore_of_notMem hok]
        exact hring.write hxk (hR.disjoint ho hk hoff hpo) hxk (hR.disjoint ho hk hoff hnp) ..
    · split at hd
      · rw [List.mem_append, List.mem_singleton] at hd
        exact hd.symm
      · exact mem_insBefore hd
  · intro c hc
    unfold Views.insertBefore
    rw [if_neg hne]
    split
    · simp [ho]
    · simpa using hc

/-- Removing an element. -/
theorem refines_remove (hR : Refines w v) (ho : v o = some l) :
    Refines (llRem w o) (v.remove o) := by
  have hview : ∀ c k', v.remove o c = some k' → ∃ k, v c = some k ∧
      k' = if c = o then [] else k.erase o := by
    intro c k' hc
    obtain ⟨k, hk, rfl⟩ := Option.map_eq_some_iff.mp hc
    exact ⟨k, hk, rfl⟩
  constructor
  · intro c k' hc
    obtain ⟨k, hk, rfl⟩ := hview c k' hc
    have hring := hR.ring c k hk
    by_cases hco : c = o
    · rw [if_pos hco, hco]
      exact Ring.singleton (update_self ..) (update_self ..)
    rw [if_neg hco]
    by_cases hok : o ∈ k
    · obtain ⟨k₁, k₂, rfl, hok₁⟩ := List.eq_append_cons_of_mem hok
      rw [List.erase_append_right _ hok₁, List.erase_cons_head]
      exact hring.remove (l := c :: k₁)
    · have hoff : o ∉ c :: k := by
        rw [List.mem_cons]
        rintro (h | h)
        · exact hco h.symm
        · exact hok h
      have hp : update w.p (w.n o) (w.p o) o ∈ o :: l := by
        rw [update_self_or]
        exact hR.prev_mem ho
      rw [List.erase_of_not_mem hok]
      exact hring.write (hR.disjoint ho hk hoff hp) hoff
        (hR.disjoint ho hk hoff (hR.next_mem ho)) hoff ..
  · intro c k' hc d hd
    obtain ⟨k, hk, rfl⟩ := hview c k' hc
    have hdk : d ∈ k := by
      split at hd
      · cases hd
      · exact List.mem_of_mem_erase hd
    have := hR.closed c k hk d hdk
    unfold Views.remove
    simpa using this
  · intro h k' hc d hd
    obtain ⟨k, hk, rfl⟩ := hview (.head h) k' hc
    split at hd
    · cases hd
    · exact hR.nodes h k hk d (List.mem_of_mem_erase hd)

/-- Initialising an element that is alone. -/
theorem refines_init (hR : Refines w v) (ho : ∀ l, v o = some l → l = []) :
    Refines (llInit w o) (v.init o) := by
  have hview : ∀ c k, v.init o c = some k → c = o ∧ k = [] ∨ c ≠ o ∧ v c = some k := by
    intro c k hc
    unfold Views.init at hc
    by_cases hco : c = o
    · rw [hco, update_self] at hc
      exact .inl ⟨hco, (Option.some.inj hc).symm⟩
    · rw [update_of_ne hco] at hc
      exact .inr ⟨hco, hc⟩
  -- no other circle has the cell, be it new or a singleton
  have hoff : ∀ c k, c ≠ o → v c = some k → o ∉ c :: k := by
    intro c k hco hk hm
    rcases h : v o with _ | l
    · have hmem := (List.mem_cons.mp hm).resolve_left (Ne.symm hco)
      exact hR.closed c k hk o hmem h
    · rw [ho l h] at h
      exact hR.notMem h hk hco hm
  constructor
  · intro c k hc
    rcases hview c k hc with ⟨rfl, rfl⟩ | ⟨hco, hk⟩
    · exact Ring.singleton (update_self ..) (update_self ..)
    · have hd : ∀ d ∈ c :: k, d ≠ o := fun d hd h => hoff c k hco hk (h ▸ hd)
      refine (hR.ring c k hk).congr (fun d hm => ?_) fun d hm => ?_
      · exact update_of_ne (hd d hm) ..
      · exact update_of_ne (hd d hm) ..
  · intro c k hc d hd
    rcases hview c k hc with ⟨rfl, rfl⟩ | ⟨hco, hk⟩
    · cases hd
    · unfold Views.init
      by_cases hdo : d = o
      · rw [hdo, update_self]
        simp
      · rw [update_of_ne hdo]
        exact hR.closed c k hk d hd
  · intro h k hc d hd
    rcases hview _ k hc with ⟨-, rfl⟩ | ⟨-, hk⟩
    · cases hd
    · exact hR.nodes h k hk d hd

/-- Only a cell on its own leads to itself. -/
theorem Refines.empty_iff (hR : Refines w v) (hc : v c = some k) :
    llEmpty w c = true ↔ k = [] := by
  unfold llEmpty
  rw [decide_eq_true_iff]
  exact (hR.ring c k hc).next_eq_self

end Circles

/-! ## Runs -/

section Runs

variable {s : St H N}

/-- **An operation does to the links what it does to the lists.** -/
theorem refines_step (hR : Refines s.w s.v) {op : Op H N} (hadd : Added s op)
    (hun : Unlinked s op) : Refines (s.w.step op) (s.v.step op) := by
  have hlone : ∀ x, s.v (.node x) ≠ none → listSingleton s.w x = true →
      s.v (.node x) = some [] := by
    intro x hx hs
    obtain ⟨k, hk⟩ := Option.ne_none_iff_exists'.mp hx
    rw [hk, (hR.empty_iff hk).mp hs]
  cases op with
  | headInit h => exact refines_init hR hun
  | init x => exact refines_init hR hun
  | headAdd h x =>
      obtain ⟨hh, hx, hs⟩ := hadd
      obtain ⟨l, hl⟩ := Option.ne_none_iff_exists'.mp hh
      exact refines_insertAfter hR hl (hlone x hx hs) ⟨x, rfl⟩
  | headAppend h x =>
      obtain ⟨hh, hx, hs⟩ := hadd
      obtain ⟨l, hl⟩ := Option.ne_none_iff_exists'.mp hh
      exact refines_insertBefore hR hl (hlone x hx hs) ⟨x, rfl⟩
  | add o x =>
      obtain ⟨ho, hx, hs⟩ := hadd
      obtain ⟨l, hl⟩ := Option.ne_none_iff_exists'.mp ho
      exact refines_insertAfter hR hl (hlone x hx hs) ⟨x, rfl⟩
  | append o x =>
      obtain ⟨ho, hx, hs⟩ := hadd
      obtain ⟨l, hl⟩ := Option.ne_none_iff_exists'.mp ho
      exact refines_insertBefore hR hl (hlone x hx hs) ⟨x, rfl⟩
  | rem x =>
      obtain ⟨l, hl⟩ := Option.ne_none_iff_exists'.mp hadd
      exact refines_remove hR hl

/-- The links refine the lists along runs. -/
theorem refines_of_reach (h : (sys H N).Reach (fun s op => Added s op ∧ Unlinked s op) s) :
    Refines s.w s.v := by
  refine Lts.invariant (I := fun s : St H N => Refines s.w s.v) (fun s h₀ => ?_)
    (fun s op s' hR hg hs => ?_) h
  · have h₀ : s.v = fun _ => none := h₀
    constructor <;> intros <;> simp_all
  · obtain rfl := Option.some.inj hs
    exact refines_step hR hg.1 hg.2

/-- **The intrusive list refines sequences**: in every run in which a node is added only while it is
a singleton, and nothing that is linked is initialised again, the links are as the lists are. -/
theorem listsExact_of_reach (h : (sys H N).Reach (fun s op => Added s op ∧ Unlinked s op) s) :
    Exact s := by
  have hR := refines_of_reach h
  constructor
  · exact fun c l hc => (hR.ring c l hc).2.visits
  · exact fun c l hc => (hR.ring c l hc).2.visits_reverse
  · exact fun c l hc => (hR.ring c l hc).nodup
  · intro h l hc
    have hn := hR.nodes h l hc
    clear hc
    induction l with
    | nil => exact ⟨[], rfl⟩
    | cons d l ih =>
        obtain ⟨xs, rfl⟩ := ih fun e he => hn e (List.mem_cons_of_mem _ he)
        obtain ⟨x, rfl⟩ := hn d List.mem_cons_self
        exact ⟨x :: xs, rfl⟩
  · exact fun h l hc => hR.empty_iff hc
  · exact fun x l hc => hR.empty_iff hc

/-- The state after a list of operations, in a memory in which all leads to itself. -/
def after (ops : List (Op H N)) : St H N :=
  ops.foldl (fun s op => { w := s.w.step op, v := s.v.step op })
    { w := { n := id, p := id }, v := fun _ => none }

/-- A run that is exhibited goes on. -/
theorem reach_after {G : St H N → Op H N → Prop} {ops : List (Op H N)} (op : Op H N)
    (h : (sys H N).Reach G (after ops)) (hG : G (after ops) op) :
    (sys H N).Reach G (after (ops ++ [op])) := by
  refine h.step (a := op) hG ?_
  simp [after, sys]

/-- Two lists, after a node has moved from the one to the other: the links are as they are. -/
theorem exact_moved : Exact (H := Bool) (N := ℕ) (after [.headInit false, .headInit true, .init 0,
    .init 1, .headAdd false 0, .headAppend false 1, .rem 0, .headAdd true 0]) := by
  apply listsExact_of_reach
  have h₀ : (sys Bool ℕ).Reach (fun s op => Added s op ∧ Unlinked s op) (after []) :=
    Lts.Reach.init rfl
  have h₁ := reach_after (.headInit false) h₀ ⟨trivial, fun l hl => by cases hl⟩
  have h₂ := reach_after (.headInit true) h₁ ⟨trivial, fun l hl => by cases hl⟩
  have h₃ := reach_after (.init 0) h₂ ⟨trivial, fun l hl => by cases hl⟩
  have h₄ := reach_after (.init 1) h₃ ⟨trivial, fun l hl => by cases hl⟩
  have h₅ := reach_after (.headAdd false 0) h₄ ⟨⟨by decide, by decide, by decide⟩, trivial⟩
  have h₆ := reach_after (.headAppend false 1) h₅ ⟨⟨by decide, by decide, by decide⟩, trivial⟩
  have h₇ := reach_after (.rem 0) h₆ ⟨show _ ≠ none by decide, trivial⟩
  exact reach_after (.headAdd true 0) h₇ ⟨⟨by decide, by decide, by decide⟩, trivial⟩

/-- A node that is initialised while it is on a list leads to itself, and the list does not come back
to its head. -/
theorem exists_not_visits : ∃ s, (sys Unit Bool).Reach Added s ∧ s.v (.head ()) ≠ none ∧
    ∀ l, ¬ Visits s.w.n (.head ()) l (.head ()) := by
  obtain ⟨s, hs⟩ : ∃ s, s = after [.headInit (), .init true, .headAdd () true, .init true] :=
    ⟨_, rfl⟩
  have hreach : (sys Unit Bool).Reach Added s := by
    have h₀ : (sys Unit Bool).Reach Added (after []) := Lts.Reach.init rfl
    have h₁ := reach_after (.headInit ()) h₀ trivial
    have h₂ := reach_after (.init true) h₁ trivial
    have h₃ := reach_after (.headAdd () true) h₂ ⟨by decide, by decide, by decide⟩
    rw [hs]
    exact reach_after (.init true) h₃ trivial
  have hhead : s.w.n (.head ()) = .node true := by rw [hs]; decide
  have hnode : s.w.n (.node true) = .node true := by rw [hs]; decide
  -- from the node there is no way back
  have hstuck : ∀ l, ¬ Visits s.w.n (.node true) l (.head ()) := by
    intro l
    induction l with
    | nil =>
        intro h
        exact absurd (hnode.symm.trans h) (by simp)
    | cons c l ih =>
        rintro ⟨hc, h⟩
        obtain rfl := hnode.symm.trans hc
        exact ih h
  refine ⟨s, hreach, by rw [hs]; decide, fun l h => ?_⟩
  cases l with
  | nil => exact absurd (hhead.symm.trans h) (by simp)
  | cons c l =>
      obtain rfl := hhead.symm.trans h.1
      exact hstuck l h.2

end Runs

end Parsec.PsList
