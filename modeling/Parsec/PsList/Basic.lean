import Parsec.Lib.Lts
import Parsec.Lib.Ring

/-!
# The intrusive list

`ps_list.h`: circular doubly linked lists of nodes and heads. A node is known by its list field, so
that `ps_container` and taking the field of an object are the identity.

* `llAdd`, `llRem` and the rest — the code, as edits of the links.
* `Views` — what is at each head and node: the others on its circle, in order. A head's view is its
  list. `Views.step` says what an operation does to lists, in their own terms.
* `Refines` — the links lead along the views, both ways; `refines_step` is the step lemma.
-/

namespace Parsec.PsList

open Function Lib

/-! ## The code -/

/-- A `struct ps_list`: of a head, or in a node. -/
inductive Cell (H N : Type)
  | head (h : H)
  | node (x : N)
  deriving DecidableEq

/-- Source: `ps_list.h`, `struct ps_list` -/
structure Links (α : Type) where
  n : α → α
  p : α → α

section Code

variable {α : Type} [DecidableEq α]

/-- Source: `ps_list.h`, `ps_list_ll_init` -/
def llInit (w : Links α) (l : α) : Links α where
  n := update w.n l l
  p := update w.p l l

/-- Source: `ps_list.h`, `ps_list_ll_empty` -/
def llEmpty (w : Links α) (l : α) : Bool := decide (w.n l = l)

/-- Source: `ps_list.h`, `ps_list_ll_add` -/
def llAdd (w : Links α) (l new : α) : Links α :=
  let n := update w.n new (w.n l)
  let p := update w.p new l
  let n := update n l new
  { n := n, p := update p (n new) new }

/-- Source: `ps_list.h`, `ps_list_ll_rem` -/
def llRem (w : Links α) (l : α) : Links α :=
  let p := update w.p (w.n l) (w.p l)
  let n := update w.n (p l) (w.n l)
  { n := update n l l, p := update p l l }

variable {H N : Type} [DecidableEq H] [DecidableEq N] (w : Links (Cell H N))

/-- Source: `ps_list.h`, `ps_list_head_init` -/
def listHeadInit (h : H) : Links (Cell H N) := llInit w (.head h)

/-- Source: `ps_list.h`, `ps_list_head_empty` -/
def listHeadEmpty (h : H) : Bool := llEmpty w (.head h)

/-- Source: `ps_list.h`, `ps_list_init` -/
def listInit (x : N) : Links (Cell H N) := llInit w (.node x)

/-- Source: `ps_list.h`, `ps_list_singleton` -/
def listSingleton (x : N) : Bool := llEmpty w (.node x)

/-- Source: `ps_list.h`, `ps_list_add` -/
def listAdd (o : Cell H N) (x : N) : Links (Cell H N) := llAdd w o (.node x)

/-- Source: `ps_list.h`, `ps_list_append`, `ps_list_prev` -/
def listAppend (o : Cell H N) (x : N) : Links (Cell H N) := listAdd w (w.p o) x

/-- Source: `ps_list.h`, `ps_list_rem` -/
def listRem (x : Cell H N) : Links (Cell H N) := llRem w x

/-- Source: `ps_list.h`, `ps_list_head_add` -/
def listHeadAdd (h : H) (x : N) : Links (Cell H N) := llAdd w (.head h) (.node x)

/-- Source: `ps_list.h`, `ps_list_head_append` -/
def listHeadAppend (h : H) (x : N) : Links (Cell H N) := llAdd w (w.p (.head h)) (.node x)

end Code

/-! ## Lists, in their own terms -/

section Views

/-- The list with `x` right behind `o`. -/
def insAfter {α : Type} [DecidableEq α] (o x : α) : List α → List α
  | [] => []
  | a :: l => if a = o then a :: x :: l else a :: insAfter o x l

/-- The list with `x` right before `o`. -/
def insBefore {α : Type} [DecidableEq α] (o x : α) : List α → List α
  | [] => []
  | a :: l => if a = o then x :: a :: l else a :: insBefore o x l

/-- What is seen from each head and each node that has been initialised: the others on its circle,
in order. From a head this is its list, and from a node on no list nothing. -/
abbrev Views (H N : Type) : Type := Cell H N → Option (List (Cell H N))

variable {H N : Type} [DecidableEq H] [DecidableEq N]

namespace Views

variable (v : Views H N)

/-- A head or node of its own. -/
def init (c : Cell H N) : Views H N := update v c (some [])

/-- `x` is put right behind `o`: from `o`, it comes first. -/
def insertAfter (o x : Cell H N) : Views H N := fun c =>
  if o = x then v c
  else if c = x then (v o).map fun l => l ++ [o]
  else (v c).map fun l => if c = o then x :: l else insAfter o x l

/-- `x` is put right before `o`: from `o`, it comes last. -/
def insertBefore (o x : Cell H N) : Views H N := fun c =>
  if o = x then v c
  else if c = x then (v o).map fun l => o :: l
  else (v c).map fun l => if c = o then l ++ [x] else insBefore o x l

/-- `o` is deleted from its list. -/
def remove (o : Cell H N) : Views H N := fun c =>
  (v c).map fun l => if c = o then [] else l.erase o

end Views

/-- The operations. -/
inductive Op (H N : Type)
  | headInit (h : H)
  | init (x : N)
  | headAdd (h : H) (x : N)
  | headAppend (h : H) (x : N)
  | add (o x : N)
  | append (o x : N)
  | rem (x : N)

/-- What an operation does to the lists. -/
def Views.step (v : Views H N) : Op H N → Views H N
  | .headInit h => v.init (.head h)
  | .init x => v.init (.node x)
  | .headAdd h x => v.insertAfter (.head h) (.node x)
  | .headAppend h x => v.insertBefore (.head h) (.node x)
  | .add o x => v.insertAfter (.node o) (.node x)
  | .append o x => v.insertBefore (.node o) (.node x)
  | .rem x => v.remove (.node x)

/-- What the code of an operation does. -/
def Links.step (w : Links (Cell H N)) : Op H N → Links (Cell H N)
  | .headInit h => listHeadInit w h
  | .init x => listInit w x
  | .headAdd h x => listHeadAdd w h x
  | .headAppend h x => listHeadAppend w h x
  | .add o x => listAdd w (.node o) x
  | .append o x => listAppend w (.node o) x
  | .rem x => listRem w (.node x)

/-- The links in memory, and the lists they stand for. -/
structure St (H N : Type) where
  w : Links (Cell H N)
  v : Views H N

/-- Operations in any order, in a memory that holds anything at first. -/
def sys (H N : Type) [DecidableEq H] [DecidableEq N] : Lts (St H N) (Op H N) where
  init s := s.v = fun _ => none
  step s op := some { w := s.w.step op, v := s.v.step op }

/-- An operation is on heads and nodes that have been initialised, and a node that is added is a
singleton. -/
def Added (s : St H N) : Op H N → Prop
  | .headInit _ => True
  | .init _ => True
  | .headAdd h x | .headAppend h x =>
      s.v (.head h) ≠ none ∧ s.v (.node x) ≠ none ∧ listSingleton s.w x = true
  | .add o x | .append o x =>
      s.v (.node o) ≠ none ∧ s.v (.node x) ≠ none ∧ listSingleton s.w x = true
  | .rem x => s.v (.node x) ≠ none

/-- A head or node on which there is something is not initialised again. -/
def Unlinked (s : St H N) : Op H N → Prop
  | .headInit h => ∀ l, s.v (.head h) = some l → l = []
  | .init x => ∀ l, s.v (.node x) = some l → l = []
  | .headAdd _ _ | .headAppend _ _ | .add _ _ | .append _ _ | .rem _ => True

/-- The links lead along the lists, both ways, and the tests for an empty list and for a node on none
tell these. -/
structure Exact (s : St H N) : Prop where
  next : ∀ c l, s.v c = some l → Visits s.w.n c l c
  prev : ∀ c l, s.v c = some l → Visits s.w.p c l.reverse c
  nodup : ∀ c l, s.v c = some l → (c :: l).Nodup
  nodes : ∀ h l, s.v (.head h) = some l → ∃ xs : List N, l = xs.map .node
  empty : ∀ h l, s.v (.head h) = some l → (listHeadEmpty s.w h = true ↔ l = [])
  singleton : ∀ x l, s.v (.node x) = some l → (listSingleton s.w x = true ↔ l = [])

end Views

end Parsec.PsList
