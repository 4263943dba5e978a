import Parsec.PsList.Refine

/-!
# Iteration with deletion

`ps_list_foreach_del`: the loop keeps the node it is at and the one after it, while its body edits the
list around the first.

* `Edit` — what the body does at a node: nodes are put right behind or right before it, and at last
  it may be removed. The body may do so from whatever it knows; what it did in a run of the loop is a
  sequence of edits, one for each round.
* `edited` — the list after the loop, in its own terms: each node with what was put around it.
* `foreachDel_spec` — the loop ends, and it is at each node once. The invariant is a circle of the
  head, the edited nodes and the rest, with the loop at the first of the rest (`foreachDelLoop_spec`).
-/

namespace Parsec.PsList

open Function Lib

variable {H N : Type}

/-! ## The code -/

/-- A node is put right behind or right before the one the loop is at. -/
inductive Ins (N : Type)
  | add (y : N)
  | append (y : N)

/-- What the body of the loop does: it inserts, and then it may remove. -/
structure Edit (N : Type) where
  ins : List (Ins N)
  del : Bool

section Code

variable [DecidableEq H] [DecidableEq N]

/-- Source: `ps_list.h`, `ps_list_add`, `ps_list_append` -/
def Ins.run (w : Links (Cell H N)) (x : Cell H N) : Ins N → Links (Cell H N)
  | .add y => listAdd w x y
  | .append y => listAppend w x y

def Edit.run (w : Links (Cell H N)) (x : Cell H N) (e : Edit N) : Links (Cell H N) :=
  let w := e.ins.foldl (fun w i => i.run w x) w
  if e.del then listRem w x else w

/-- The loop from round `i` on, with the nodes it is at. -/
def foreachDelLoop (h : H) (body : ℕ → Edit N) : ℕ → Links (Cell H N) → Cell H N → Cell H N → ℕ →
    Option (Links (Cell H N) × List (Cell H N))
  | 0, _, _, _, _ => none
  | fuel + 1, w, iter, tmp, i =>
      if iter = .head h then some (w, [])
      else
        let w := (body i).run w iter
        (foreachDelLoop h body fuel w tmp (w.n tmp) (i + 1)).map fun r => (r.1, iter :: r.2)

/-- Source: `ps_list.h`, `ps_list_foreach_del` -/
def foreachDel (w : Links (Cell H N)) (h : H) (body : ℕ → Edit N) (fuel : ℕ) :
    Option (Links (Cell H N) × List (Cell H N)) :=
  let iter := w.n (.head h)
  foreachDelLoop h body fuel w iter (w.n iter) 0

end Code

/-! ## Lists, in their own terms -/

def Ins.node : Ins N → N
  | .add y => y
  | .append y => y

/-- What is put around a node. The last one put on a side is the closest. -/
def Ins.around : List N × List N → Ins N → List N × List N
  | (b, a), .add y => (b, y :: a)
  | (b, a), .append y => (b ++ [y], a)

/-- What is in the place of a node after an edit. -/
def Edit.put (e : Edit N) (x : N) : List N :=
  let (b, a) := e.ins.foldl Ins.around ([], [])
  b ++ (if e.del then [] else [x]) ++ a

/-- The list after the loop, from round `i` on. -/
def edited (body : ℕ → Edit N) : ℕ → List N → List N
  | _, [] => []
  | i, x :: l => (body i).put x ++ edited body (i + 1) l

/-- The nodes that are inserted in the rounds that a list takes. -/
def inserted (body : ℕ → Edit N) : ℕ → List N → List N
  | _, [] => []
  | i, _ :: l => (body i).ins.map Ins.node ++ inserted body (i + 1) l

/-! ## An edit -/

variable [DecidableEq H] [DecidableEq N] {w : Links (Cell H N)} {x : N} {A B : List (Cell H N)}

/-- An insertion next to the node keeps the circle, and puts the new node where it says. -/
theorem ring_ins {i : Ins N} {b a : List N}
    (hr : Ring w.n w.p (A ++ b.map .node ++ .node x :: (a.map .node ++ B)))
    (hi : .node i.node ∉ A ++ b.map .node ++ .node x :: (a.map .node ++ B)) :
    Ring (i.run w (.node x)).n (i.run w (.node x)).p
      (A ++ (Ins.around (b, a) i).1.map .node ++
        .node x :: ((Ins.around (b, a) i).2.map .node ++ B)) := by
  have hx : ∀ c ∈ A ++ b.map .node ++ .node x :: (a.map .node ++ B), c ≠ .node i.node :=
    fun c hc he => hi (he ▸ hc)
  have hmem : Cell.node x ∈ A ++ b.map .node ++ .node x :: (a.map .node ++ B) := by simp
  cases i with
  | add y =>
      have hw : (Ins.add y).run w (.node x) = _ := llAdd_eq (hx _ hmem)
      rw [hw]
      exact hr.insertAfter hi
  | append y =>
      have hw : (Ins.append y).run w (.node x) = _ := llAdd_eq (hx _ (hr.prev_mem hmem))
      have hins := hr.insertBefore hi
      have hput : A ++ (b ++ [y]).map Cell.node = A ++ b.map .node ++ [.node y] := by simp
      rw [hw]
      change Ring _ _ (A ++ (b ++ [y]).map Cell.node ++ _)
      rw [hput, List.append_assoc _ [Cell.node y], List.singleton_append]
      exact hins

omit [DecidableEq N] in
/-- What is around the node after an insertion. -/
theorem mem_around {i : Ins N} {b a : List N} {y : N} :
    y ∈ (Ins.around (b, a) i).1 ∨ y ∈ (Ins.around (b, a) i).2 ↔ y = i.node ∨ y ∈ b ∨ y ∈ a := by
  cases i <;>
    simp only [Ins.around, Ins.node, List.mem_append, List.mem_cons, List.not_mem_nil, or_false] <;>
    tauto

/-- Inserting around a node, from what is there already. -/
theorem ring_inss {is : List (Ins N)} {b a : List N}
    (hr : Ring w.n w.p (A ++ b.map .node ++ .node x :: (a.map .node ++ B)))
    (hnd : (is.map Ins.node).Nodup)
    (hi : ∀ i ∈ is, .node i.node ∉ A ++ b.map .node ++ .node x :: (a.map .node ++ B)) :
    let w' := is.foldl (fun w i => i.run w (.node x)) w
    let s := is.foldl Ins.around (b, a)
    Ring w'.n w'.p (A ++ s.1.map .node ++ .node x :: (s.2.map .node ++ B)) := by
  induction is generalizing w b a with
  | nil => exact hr
  | cons i is ih =>
      rw [List.map_cons, List.nodup_cons] at hnd
      have hstep := ring_ins hr (hi i List.mem_cons_self)
      refine ih hstep hnd.2 fun j hj hm => ?_
      have hne : j.node ≠ i.node := fun h => hnd.1 (h ▸ List.mem_map_of_mem hj)
      apply hi j (List.mem_cons_of_mem _ hj)
      have := @mem_around N i b a j.node
      simp only [List.mem_append, List.mem_cons, List.mem_map, Cell.node.injEq, exists_eq_right]
        at hm ⊢
      tauto

/-- **An edit** of a node on a circle puts what it inserts in the place of the node. -/
theorem ring_edit {e : Edit N} (hr : Ring w.n w.p (A ++ .node x :: B))
    (hnd : (e.ins.map Ins.node).Nodup) (hi : ∀ i ∈ e.ins, .node i.node ∉ A ++ .node x :: B) :
    Ring (e.run w (.node x)).n (e.run w (.node x)).p (A ++ (e.put x).map .node ++ B) := by
  have hstart : Ring w.n w.p (A ++ ([] : List N).map .node ++
      .node x :: (([] : List N).map .node ++ B)) := by simpa using hr
  have hins := ring_inss hstart hnd (by simpa using hi)
  unfold Edit.run Edit.put
  cases e.del with
  | false => simpa using hins
  | true => simpa [listRem, llRem] using hins.remove

omit [DecidableEq N] in
/-- What is around the node after some insertions. -/
theorem mem_foldl_around {is : List (Ins N)} {b a : List N} {y : N}
    (h : y ∈ (is.foldl Ins.around (b, a)).1 ∨ y ∈ (is.foldl Ins.around (b, a)).2) :
    y ∈ is.map Ins.node ∨ y ∈ b ∨ y ∈ a := by
  induction is generalizing b a with
  | nil => exact .inr h
  | cons i is ih =>
      rw [List.map_cons, List.mem_cons]
      rcases ih h with h | h
      · exact .inl (.inr h)
      · rcases mem_around.mp h with rfl | h
        · exact .inl (.inl rfl)
        · exact .inr h

omit [DecidableEq N] in
/-- What an edit puts in the node's place: the node, and what it inserts. -/
theorem mem_put {e : Edit N} {x y : N} (h : y ∈ e.put x) : y = x ∨ y ∈ e.ins.map Ins.node := by
  have hput : y ∈ (e.ins.foldl Ins.around ([], [])).1 ∨ y = x ∨
      y ∈ (e.ins.foldl Ins.around ([], [])).2 := by
    unfold Edit.put at h
    simp only [List.mem_append] at h
    rcases h with (h | h) | h
    · exact .inl h
    · split at h
      · cases h
      · exact .inr (.inl (List.mem_singleton.mp h))
    · exact .inr (.inr h)
  rcases hput with h | rfl | h
  · exact .inr (by simpa using mem_foldl_around (.inl h))
  · exact .inl rfl
  · exact .inr (by simpa using mem_foldl_around (.inr h))

/-! ## The loop -/

variable {h : H} {body : ℕ → Edit N} {l : List N}

/-- The nodes that the body inserts are fresh: none is on the list, and none is inserted twice. -/
def Fresh (body : ℕ → Edit N) (l : List N) : Prop := (l ++ inserted body 0 l).Nodup

instance : Decidable (Fresh body l) := inferInstanceAs (Decidable (List.Nodup _))

/-- From a round on: the nodes before have been edited, and the rest has not. -/
theorem foreachDelLoop_spec {done rest : List N} {i fuel : ℕ}
    (hr : Ring w.n w.p (.head h :: (done ++ rest).map .node)) (hnd : (inserted body i rest).Nodup)
    (hd : ∀ y ∈ inserted body i rest, y ∉ done ++ rest) (hf : rest.length < fuel) {iter : Cell H N}
    (hi : iter = (rest.map Cell.node ++ [Cell.head h]).head (by simp)) :
    ∃ w', foreachDelLoop h body fuel w iter (w.n iter) i = some (w', rest.map .node) ∧
      Ring w'.n w'.p (.head h :: (done ++ edited body i rest).map .node) := by
  induction rest generalizing w done i fuel iter with
  | nil =>
      obtain ⟨fuel, rfl⟩ := Nat.exists_eq_add_one_of_ne_zero (Nat.ne_zero_of_lt hf)
      subst hi
      exact ⟨w, if_pos rfl, hr⟩
  | cons x rest ih =>
      obtain ⟨fuel, rfl⟩ := Nat.exists_eq_add_one_of_ne_zero (Nat.ne_zero_of_lt hf)
      obtain rfl : iter = .node x := hi
      unfold inserted at hnd hd
      obtain ⟨hnd₁, hnd₂, hdis⟩ := List.nodup_append.mp hnd
      have hr' : Ring w.n w.p (.head h :: done.map .node ++ .node x :: rest.map .node) := by
        simpa using hr
      -- the look-ahead is the first of the rest, and the edit leaves it there
      have hnext : w.n (.node x) = (rest.map Cell.node ++ [Cell.head h]).head (by simp) := by
        have hrot := hr'.rotate.next_eq
        cases rest with
        | nil => simpa using hrot
        | cons y rest => simpa using hrot
      have hedit := ring_edit (e := body i) hr' hnd₁ (by
        intro j hj hm
        refine hd j.node (List.mem_append_left _ (List.mem_map_of_mem hj)) ?_
        simpa using hm)
      have hring : Ring ((body i).run w (.node x)).n ((body i).run w (.node x)).p
          (.head h :: ((done ++ (body i).put x) ++ rest).map .node) := by
        simpa using hedit
      obtain ⟨w', hw', hr''⟩ := ih hring hnd₂ (fun y hy hm => by
        have hout := hd y (List.mem_append_right _ hy)
        simp only [List.mem_append, List.mem_cons] at hm hout
        rcases hm with (hm | hm) | hm
        · exact hout (.inl hm)
        · rcases mem_put hm with rfl | hm
          · exact hout (.inr (.inl rfl))
          · exact hdis y hm y hy rfl
        · exact hout (.inr (.inr hm))) (Nat.lt_of_succ_lt_succ hf) hnext
      refine ⟨w', ?_, ?_⟩
      · unfold foreachDelLoop
        rw [if_neg (by simp)]
        dsimp only
        rw [hw']
        rfl
      · unfold edited
        rwa [← List.append_assoc]

/-- **Deleting iteration is exact**: whatever the body does in its rounds, the loop ends, it is at
each node of the list once, in order, and it leaves the list edited. -/
theorem foreachDel_spec (hr : Ring w.n w.p (.head h :: l.map .node)) (hfresh : Fresh body l)
    {fuel : ℕ} (hf : l.length < fuel) : ∃ w', foreachDel w h body fuel = some (w', l.map .node) ∧
      Ring w'.n w'.p (.head h :: (edited body 0 l).map .node) := by
  obtain ⟨-, hnd, hdis⟩ := List.nodup_append.mp hfresh
  refine foreachDelLoop_spec (show Ring w.n w.p (.head h :: ([] ++ l).map .node) from hr) hnd (fun y hy hm => hdis y hm y hy rfl) hf ?_
  rw [hr.next_eq]

/-- What a body does to a list of three nodes: it removes the first one after it has put another one
behind it, puts one before the second one, and removes the last one. -/
def replaceEnds : ℕ → Edit ℕ
  | 0 => { ins := [.add 3], del := true }
  | 1 => { ins := [.append 4], del := false }
  | _ => { ins := [], del := true }

/-- The loop is at all three of them, and leaves the list as the body has made it. -/
theorem foreachDel_replaceEnds : ∃ w',
    foreachDel (after [.headInit (), .init 0, .init 1, .init 2, .headAppend () 0, .headAppend () 1,
      .headAppend () 2]).w () replaceEnds 4 = some (w', [Cell.node 0, Cell.node 1, Cell.node 2]) ∧
    Ring w'.n w'.p [Cell.head (), Cell.node 3, Cell.node 4, Cell.node 1] := by
  apply foreachDel_spec (l := [0, 1, 2]) ?_ (by decide) (by decide)
  refine ⟨by decide, ?_⟩
  simp only [List.map, Seg]
  decide

end Parsec.PsList
