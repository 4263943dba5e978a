import Parsec.Lib.Chain
import Parsec.Lib.Lts

/-!
# The remote-free stack, one load, store or compare-and-swap at a time

One list `remote_frees[k]` of a home core: any number of cores `τ` push objects onto it with
`__ps_rfl_stack_push`, and the owner takes all of it with `__ps_rfl_stack_remove_all` and drains
the chain, as `__ps_slab_mem_remote_clear` does. The header's `next` field is shared with the slab
freelists and quiescence queues, so an object that is on no list may have its `next` written by
whoever holds it (`Act.reuse`).

* The discipline of the callers (`Discipline`): an object is pushed, or otherwise written, only
  while it is on no list, not on the chain that is being drained, and not held by another pusher.
* The ghost `RflSt.log` lists the completed pushes and the chains handed out, latest first.
* `exact_of_reach` — in every interleaving the list from `head` is NULL-terminated and has, for
  each object, one occurrence if the object was pushed more often than handed out, and none if it
  was handed out as often as pushed; every chain handed out is the whole NULL-terminated list of
  objects pushed since they were last handed out.

That head equality in the compare-and-swap does not mean nothing happened is harmless: a pusher
that succeeds has `next n = t` and finds `head = t` (`Inv.written`), whatever happened in between.
-/

namespace Parsec.Rfl

open Function Lib

/-- A call of `__ps_rfl_stack_push`, between two steps: nothing loaded, `t` loaded, `n->next`
written.
Source: `ps_global.h`, `__ps_rfl_stack_push` -/
inductive Push (ν : Type)
  | idle
  | load (n : ν)
  | write (n : ν) (t : Option ν)
  | cas (n : ν) (t : Option ν)
  deriving DecidableEq

/-- The owner, between two steps of `__ps_slab_mem_remote_clear` on this list: before its test of
the head, in `__ps_rfl_stack_remove_all` before and after the load, at the head of the drain loop,
and before `h->next` is reset.
Source: `ps_slab.c`, `__ps_slab_mem_remote_clear`; `ps_global.h`, `__ps_rfl_stack_remove_all` -/
inductive Owner (ν : Type)
  | idle
  | peek
  | load
  | cas (t : Option ν)
  | drain (h : Option ν)
  | reset (h : ν) (n : Option ν)
  deriving DecidableEq

/-- What the ghost log records: a completed push, and a chain handed out. -/
inductive Event (ν : Type)
  | pushed (n : ν)
  | handed (l : List ν)
  deriving DecidableEq

/-- The list, the `next` fields, the program points, and the ghost log. -/
structure RflSt (ν τ : Type) where
  head : Option ν
  next : ν → Option ν
  push : τ → Push ν
  owner : Owner ν
  log : List (Event ν)

/-- The object a pusher holds. -/
def Push.node {ν : Type} : Push ν → Option ν
  | .idle => none
  | .load n | .write n _ | .cas n _ => some n

/-- The head of the chain that the owner has taken and not yet drained. -/
def Owner.chain {ν : Type} : Owner ν → Option ν
  | .drain h => h
  | .reset h _ => some h
  | .idle | .peek | .load | .cas _ => none

/-- The labels: calls, the next step of a pusher or of the owner, and a write to the `next` of an
object that is on no list. -/
inductive Act (ν τ : Type)
  | push (p : τ) (n : ν)
  | pusher (p : τ)
  | clear
  | removeAll
  | owner
  | reuse (n : ν) (v : Option ν)

section Step

variable {ν τ : Type} [DecidableEq ν] [DecidableEq τ]

/-- One step of `__ps_rfl_stack_push`.
Source: `ps_global.h`, `__ps_rfl_stack_push` -/
def psRflStackPush (s : RflSt ν τ) (p : τ) : Option (RflSt ν τ) :=
  match s.push p with
  | .idle => none
  | .load n => some { s with push := update s.push p (.write n s.head) }
  | .write n t => some { s with next := update s.next n t, push := update s.push p (.cas n t) }
  | .cas n t =>
      if s.head = t then
        some { s with head := some n, push := update s.push p .idle, log := .pushed n :: s.log }
      else some { s with push := update s.push p (.load n) }

/-- One step of the owner. The chain handed out is recorded by following `next`, as far as there
were events.
Source: `ps_slab.c`, `__ps_slab_mem_remote_clear`; `ps_global.h`, `__ps_rfl_stack_remove_all` -/
def psRflOwner (s : RflSt ν τ) : Option (RflSt ν τ) :=
  match s.owner with
  | .idle => none
  | .peek => some { s with owner := if s.head = none then .idle else .load }
  | .load => some { s with owner := .cas s.head }
  | .cas t =>
      if s.head = t then
        some { s with head := none, owner := .drain t,
                      log := .handed (follow s.next s.log.length t) :: s.log }
      else some { s with owner := .load }
  | .drain none => some { s with owner := .idle }
  | .drain (some h) => some { s with owner := .reset h (s.next h) }
  | .reset h n => some { s with next := update s.next h none, owner := .drain n }

/-- A step of the machine. -/
def step (s : RflSt ν τ) : Act ν τ → Option (RflSt ν τ)
  | .push p n => if s.push p = .idle then some { s with push := update s.push p (.load n) } else none
  | .pusher p => psRflStackPush s p
  | .clear => if s.owner = .idle then some { s with owner := .peek } else none
  | .removeAll => if s.owner = .idle then some { s with owner := .load } else none
  | .owner => psRflOwner s
  | .reuse n v => some { s with next := update s.next n v }

end Step

/-- The machine, started with an empty list and nobody in a call. -/
def rflLts (ν τ : Type) [DecidableEq ν] [DecidableEq τ] : Lts (RflSt ν τ) (Act ν τ) where
  init := fun s => s.head = none ∧ (∀ p, s.push p = .idle) ∧ s.owner = .idle ∧ s.log = []
  step := step

/-! ## The discipline, and what it buys -/

variable {ν τ : Type}

/-- The object is not on the list, not on the chain that is being drained, and not held by a
pusher. -/
def OnNoList (s : RflSt ν τ) (n : ν) : Prop :=
  ¬ Reaches s.next s.head n ∧ ¬ Reaches s.next s.owner.chain n ∧ ∀ p, (s.push p).node ≠ some n

/-- The discipline of the callers. -/
def Discipline (s : RflSt ν τ) : Act ν τ → Prop
  | .push _ n | .reuse n _ => OnNoList s n
  | .pusher _ | .clear | .removeAll | .owner => True

section Log

variable [DecidableEq ν]

/-- How often an object was pushed. -/
def pushes (n : ν) : List (Event ν) → Nat
  | [] => 0
  | .pushed m :: log => (if m = n then 1 else 0) + pushes n log
  | .handed _ :: log => pushes n log

/-- How often an object was handed out. -/
def takes (n : ν) : List (Event ν) → Nat
  | [] => 0
  | .pushed _ :: log => takes n log
  | .handed l :: log => l.count n + takes n log

/-- The object was pushed since it was last handed out. -/
def PushedSince (n : ν) : List (Event ν) → Prop
  | [] => False
  | .pushed m :: log => m = n ∨ PushedSince n log
  | .handed l :: log => n ∉ l ∧ PushedSince n log

/-- **The stack loses and duplicates nothing.** -/
structure Exact [DecidableEq τ] (s : RflSt ν τ) : Prop where
  /-- The list is NULL-terminated and without duplicates, and each completed push is on it or was
  handed out. -/
  list : ∃ l, Chain s.next s.head l ∧ l.Nodup ∧
    ∀ n, pushes n s.log = l.count n + takes n s.log
  /-- A chain that is being drained is NULL-terminated, and shares no object with the list. -/
  chain : ∃ c, Chain s.next s.owner.chain c ∧ c.Nodup ∧ ∀ n ∈ c, ¬ Reaches s.next s.head n
  /-- What the owner's next step hands out is the whole list, NULL-terminated, of objects pushed
  since they were last handed out. -/
  handed : ∀ s' l, step s .owner = some s' → s'.log = .handed l :: s.log →
    s.owner = .cas s.head ∧ Chain s.next s.head l ∧ ∀ n ∈ l, PushedSince n s.log

end Log

/-! ## The invariant -/

/-- The two lists of the machine: the shared one and the owner's chain. -/
inductive Key
  | list
  | taken
  deriving DecidableEq

/-- Where each list starts. -/
def RflSt.heads (s : RflSt ν τ) : Key → Option ν
  | .list => s.head
  | .taken => s.owner.chain

/-- The invariant, for given contents of the two lists. -/
structure Inv [DecidableEq ν] (s : RflSt ν τ) (cont : Key → List ν) : Prop where
  chains : Chains s.next s.heads cont
  held : ∀ p n, (s.push p).node = some n → ∀ k, n ∉ cont k
  inj : ∀ p q n, (s.push p).node = some n → (s.push q).node = some n → p = q
  written : ∀ p n t, s.push p = .cas n t → s.next n = t
  reset : ∀ h n, s.owner = .reset h n → s.next h = n
  count : ∀ n, pushes n s.log = (cont .list).count n + takes n s.log
  since : ∀ n ∈ cont .list, PushedSince n s.log
  length : (cont .list).length ≤ s.log.length

section Proofs

variable [DecidableEq ν]

/-- What is on no list is off both lists of the invariant. -/
theorem Inv.notMem {s : RflSt ν τ} {cont : Key → List ν} (hI : Inv s cont) {n : ν}
    (hn : OnNoList s n) (k : Key) : n ∉ cont k := by
  cases k with
  | list => exact fun h => hn.1 ((hI.chains.chain .list).reaches_iff.mpr h)
  | taken => exact fun h => hn.2.1 ((hI.chains.chain .taken).reaches_iff.mpr h)

/-- The owner has no chain outside of its drain loop. -/
theorem Inv.taken_eq_nil {s : RflSt ν τ} {cont : Key → List ν} (hI : Inv s cont)
    (h : s.owner.chain = none) : cont .taken = [] := by
  have hc : Chain s.next s.owner.chain (cont .taken) := hI.chains.chain .taken
  rw [h] at hc
  exact chain_none_iff.mp hc

/-- The ghost records the whole list that the owner takes. -/
theorem Inv.follow_eq {s : RflSt ν τ} {cont : Key → List ν} (hI : Inv s cont) :
    follow s.next s.log.length s.head = cont .list :=
  (hI.chains.chain .list).follow_eq hI.length

/-- A write to the `next` of an object off both lists that no other pusher has in its
compare-and-swap. -/
theorem inv_write {s : RflSt ν τ} {cont : Key → List ν} (hI : Inv s cont) {n : ν}
    (hn : ∀ k, n ∉ cont k) {push : τ → Push ν} {v : Option ν}
    (hnode : ∀ q m, (push q).node = some m → (s.push q).node = some m)
    (hw : ∀ q m t, push q = .cas m t → (m = n ∧ t = v) ∨ (m ≠ n ∧ s.push q = .cas m t)) :
    Inv { s with next := update s.next n v, push := push } cont where
  chains := by
    have hc := hI.chains.write hn v
    exact ⟨hc.chain, hc.disjoint⟩
  held q m hm := hI.held q m (hnode q m hm)
  inj q r m hq hr := hI.inj q r m (hnode q m hq) (hnode r m hr)
  written q m t hq := by
    rcases hw q m t hq with ⟨rfl, rfl⟩ | ⟨hne, hq⟩
    · simp
    · simp only [update_of_ne hne]
      exact hI.written q m t hq
  reset h m ho := by
    have hmem : h ∈ cont .taken := by
      have hc : Chain s.next s.owner.chain (cont .taken) := hI.chains.chain .taken
      rw [show s.owner = .reset h m from ho, Owner.chain] at hc
      obtain ⟨t, ht, -⟩ := chain_some_iff.mp hc
      simp [ht]
    have hne : h ≠ n := fun e => hn _ (e ▸ hmem)
    simp only [update_of_ne hne]
    exact hI.reset h m ho
  count := hI.count
  since := hI.since
  length := hI.length

/-- A step of the owner that changes neither the lists nor the log. -/
theorem inv_owner {s : RflSt ν τ} {cont : Key → List ν} (hI : Inv s cont) {o : Owner ν}
    (hc : o.chain = s.owner.chain) (hr : ∀ h n, o = .reset h n → s.next h = n) :
    Inv { s with owner := o } cont where
  chains := by
    refine ⟨fun k => ?_, hI.chains.disjoint⟩
    cases k with
    | list => exact hI.chains.chain .list
    | taken =>
        show Chain s.next o.chain _
        rw [hc]
        exact hI.chains.chain .taken
  held := hI.held
  inj := hI.inj
  written := hI.written
  reset := hr
  count := hI.count
  since := hI.since
  length := hI.length

/-- A successful compare-and-swap of the owner. -/
theorem inv_handed {s : RflSt ν τ} {cont : Key → List ν} (hI : Inv s cont)
    (ho : s.owner = .cas s.head) :
    Inv { s with head := none, owner := .drain s.head,
                 log := .handed (follow s.next s.log.length s.head) :: s.log }
      (update (update cont .list []) .taken (cont .list)) := by
  have htaken := hI.taken_eq_nil (by rw [ho]; rfl)
  refine ⟨?_, fun q m hm k => ?_, hI.inj, hI.written, fun h n e => (by cases e), fun m => ?_,
    fun m hm => ?_, ?_⟩
  · have hc := hI.chains.move htaken (k := .list) (by decide)
    refine ⟨fun k => ?_, hc.disjoint⟩
    cases k with
    | list => simp [RflSt.heads]
    | taken => exact hc.chain .taken
  · cases k with
    | list => simp
    | taken => exact hI.held q m hm .list
  · simp only [pushes, takes, hI.follow_eq]
    simpa using hI.count m
  · simp at hm
  · simp

/-- The owner resets the first object of its chain and goes on to the next. -/
theorem inv_reset {s : RflSt ν τ} {cont : Key → List ν} (hI : Inv s cont) {h : ν} {n : Option ν}
    (ho : s.owner = .reset h n) :
    ∃ l, Inv { s with next := update s.next h none, owner := .drain n }
      (update cont .taken l) := by
  have hc : Chain s.next s.owner.chain (cont .taken) := hI.chains.chain .taken
  rw [ho, Owner.chain] at hc
  obtain ⟨l, hl, -⟩ := chain_some_iff.mp hc
  have hpop := hI.chains.pop hl none
  have hmem : h ∈ cont .taken := by simp [hl]
  refine ⟨l, ⟨?_, fun q m hm k => ?_, hI.inj, fun q m t hq => ?_, fun h n e => (by cases e),
    fun m => (by simpa using hI.count m), fun m hm => hI.since m (by simpa using hm),
    by simpa using hI.length⟩⟩
  · refine ⟨fun k => ?_, hpop.disjoint⟩
    cases k with
    | list => exact hpop.chain .list
    | taken =>
        have := hpop.chain .taken
        rw [update_self, hI.reset h n ho] at this
        exact this
  · have hk := hI.held q m hm
    cases k with
    | list => exact hk .list
    | taken =>
        rw [update_self]
        exact fun h' => hk .taken (by rw [hl]; exact List.mem_cons_of_mem _ h')
  · have hne : m ≠ h := by
      rintro rfl
      exact hI.held q m (by rw [show s.push q = .cas m t from hq]; rfl) .taken hmem
    simp only [update_of_ne hne]
    exact hI.written q m t hq

variable [DecidableEq τ]

omit [DecidableEq ν] in
/-- Moving one pusher to a state in which it holds nothing, or what it held, moves no object. -/
theorem node_update {s : RflSt ν τ} {p : τ} {x : Push ν}
    (hx : ∀ n, x.node = some n → (s.push p).node = some n) {q : τ} {n : ν}
    (h : (update s.push p x q).node = some n) : (s.push q).node = some n := by
  by_cases hq : q = p
  · subst hq
    rw [update_self] at h
    exact hx n h
  · rwa [update_of_ne hq] at h

/-- A call of `__ps_rfl_stack_push`. -/
theorem inv_push {s : RflSt ν τ} {cont : Key → List ν} (hI : Inv s cont) {p : τ} {n : ν}
    (hn : OnNoList s n) : Inv { s with push := update s.push p (.load n) } cont where
  chains := hI.chains
  held q m hm := by
    by_cases hq : q = p
    · subst hq
      simp only [update_self, Push.node, Option.some.injEq] at hm
      exact hm ▸ hI.notMem hn
    · simp only [update_of_ne hq] at hm
      exact hI.held q m hm
  inj q r m hq hr := by
    by_cases hqp : q = p <;> by_cases hrp : r = p
    · exact hqp.trans hrp.symm
    · subst hqp
      simp only [update_self, update_of_ne hrp, Push.node, Option.some.injEq] at hq hr
      exact absurd hr (hq ▸ hn.2.2 r)
    · subst hrp
      simp only [update_self, update_of_ne hqp, Push.node, Option.some.injEq] at hq hr
      exact absurd hq (hr ▸ hn.2.2 q)
    · simp only [update_of_ne hqp, update_of_ne hrp] at hq hr
      exact hI.inj q r m hq hr
  written q m t hq := by
    by_cases hqp : q = p
    · subst hqp; simp at hq
    · simp only [update_of_ne hqp] at hq
      exact hI.written q m t hq
  reset := hI.reset
  count := hI.count
  since := hI.since
  length := hI.length

/-- A pusher that goes back to its load, or has just loaded the head. -/
theorem inv_pusher_retry {s : RflSt ν τ} {cont : Key → List ν} (hI : Inv s cont) {p : τ}
    {x : Push ν} (hx : ∀ n, x.node = some n → (s.push p).node = some n)
    (hcas : ∀ n t, x ≠ .cas n t) : Inv { s with push := update s.push p x } cont where
  chains := hI.chains
  held q m hm := hI.held q m (node_update hx hm)
  inj q r m hq hr := hI.inj q r m (node_update hx hq) (node_update hx hr)
  written q m t hq := by
    by_cases hqp : q = p
    · subst hqp
      simp only [update_self] at hq
      exact absurd hq (hcas m t)
    · simp only [update_of_ne hqp] at hq
      exact hI.written q m t hq
  reset := hI.reset
  count := hI.count
  since := hI.since
  length := hI.length

/-- A successful compare-and-swap of a pusher: whatever happened since its load, the head it finds
is the `next` it has written. -/
theorem inv_pushed {s : RflSt ν τ} {cont : Key → List ν} (hI : Inv s cont) {p : τ} {n : ν}
    (hp : s.push p = .cas n s.head) :
    Inv { s with head := some n, push := update s.push p .idle, log := .pushed n :: s.log }
      (update cont .list (n :: cont .list)) := by
  have hnode : (s.push p).node = some n := by rw [hp]; rfl
  have hn := hI.held p n hnode
  have hnext : update s.next n s.head = s.next := by
    rw [← hI.written p n _ hp, update_eq_self]
  have hsub : ∀ q m, ((update s.push p .idle) q).node = some m → q ≠ p ∧ (s.push q).node = some m := by
    intro q m hq
    by_cases hqp : q = p
    · subst hqp; simp [Push.node] at hq
    · exact ⟨hqp, by rwa [update_of_ne hqp] at hq⟩
  refine ⟨?_, fun q m hm k => ?_, fun q r m hq hr => ?_, fun q m t hq => ?_, hI.reset,
    fun m => ?_, fun m hm => ?_, ?_⟩
  · have hc := hI.chains.push hn .list
    rw [show s.heads .list = s.head from rfl, hnext] at hc
    refine ⟨fun k => ?_, hc.disjoint⟩
    cases k with
    | list => exact hc.chain .list
    | taken => exact hc.chain .taken
  · obtain ⟨hqp, hq⟩ := hsub q m hm
    have hmn : m ≠ n := fun e => hqp (hI.inj q p n (e ▸ hq) hnode)
    cases k with
    | list => simpa [hmn] using hI.held q m hq .list
    | taken => exact hI.held q m hq .taken
  · exact hI.inj q r m (hsub q m hq).2 (hsub r m hr).2
  · have hqp : q ≠ p := fun e => by subst e; simp at hq
    simp only [update_of_ne hqp] at hq
    exact hI.written q m t hq
  · have hc := hI.count m
    simp only [pushes, takes, update_self, List.count_cons, beq_iff_eq]
    omega
  · rw [update_self] at hm
    rcases List.mem_cons.mp hm with rfl | hm
    · exact .inl rfl
    · exact .inr (hI.since m hm)
  · simpa using hI.length

/-- One step of a pusher. -/
theorem inv_pusher {s s' : RflSt ν τ} {cont : Key → List ν} (hI : Inv s cont) {p : τ}
    (hs : psRflStackPush s p = some s') : ∃ cont', Inv s' cont' := by
  simp only [psRflStackPush] at hs
  cases hp : s.push p with
  | idle => simp [hp] at hs
  | load n =>
      simp only [hp, Option.some.injEq] at hs
      subst hs
      refine ⟨cont, inv_pusher_retry hI (fun m hm => ?_) fun m t e => by cases e⟩
      rwa [hp]
  | write n t =>
      simp only [hp, Option.some.injEq] at hs
      subst hs
      have hnode : (s.push p).node = some n := by rw [hp]; rfl
      refine ⟨cont, inv_write hI (hI.held p n hnode) (fun q m hm => node_update ?_ hm)
        fun q m t' hq => ?_⟩
      · rw [hp]
        exact fun m hm => hm
      · by_cases hqp : q = p
        · subst hqp
          simp only [update_self, Push.cas.injEq] at hq
          exact .inl ⟨hq.1.symm, hq.2.symm⟩
        · rw [update_of_ne hqp] at hq
          refine .inr ⟨fun e => hqp (hI.inj q p n ?_ hnode), hq⟩
          rw [hq, Push.node, e]
  | cas n t =>
      simp only [hp] at hs
      split at hs <;> rw [Option.some.injEq] at hs <;> subst hs
      · rename_i ht
        exact ⟨_, inv_pushed hI (ht ▸ hp)⟩
      · refine ⟨cont, inv_pusher_retry hI (fun m hm => ?_) fun m t e => by cases e⟩
        rwa [hp]

omit [DecidableEq τ] in
/-- One step of the owner. -/
theorem inv_ownerStep {s s' : RflSt ν τ} {cont : Key → List ν} (hI : Inv s cont)
    (hs : psRflOwner s = some s') : ∃ cont', Inv s' cont' := by
  simp only [psRflOwner] at hs
  cases ho : s.owner with
  | idle => simp [ho] at hs
  | peek =>
      simp only [ho, Option.some.injEq] at hs
      subst hs
      refine ⟨cont, inv_owner hI ?_ fun h n e => ?_⟩
      · rw [ho]
        split <;> rfl
      · split at e <;> cases e
  | load =>
      simp only [ho, Option.some.injEq] at hs
      subst hs
      exact ⟨cont, inv_owner hI (by rw [ho]; rfl) fun h n e => by cases e⟩
  | cas t =>
      simp only [ho] at hs
      split at hs <;> rw [Option.some.injEq] at hs <;> subst hs
      · rename_i ht
        subst ht
        exact ⟨_, inv_handed hI ho⟩
      · exact ⟨cont, inv_owner hI (by rw [ho]; rfl) fun h n e => by cases e⟩
  | drain h =>
      cases h with
      | none =>
          simp only [ho, Option.some.injEq] at hs
          subst hs
          exact ⟨cont, inv_owner hI (by rw [ho]; rfl) fun h n e => by cases e⟩
      | some h =>
          simp only [ho, Option.some.injEq] at hs
          subst hs
          refine ⟨cont, inv_owner hI (by rw [ho]; rfl) fun h' n e => ?_⟩
          cases e
          rfl
  | reset h n =>
      simp only [ho, Option.some.injEq] at hs
      subst hs
      obtain ⟨l, hl⟩ := inv_reset hI ho
      exact ⟨_, hl⟩

/-- Every step that keeps the discipline keeps the invariant. -/
theorem inv_step {s s' : RflSt ν τ} {cont : Key → List ν} (hI : Inv s cont) {a : Act ν τ}
    (hd : Discipline s a) (hs : step s a = some s') : ∃ cont', Inv s' cont' := by
  cases a with
  | push p n =>
      simp only [step, Option.ite_none_right_eq_some, Option.some.injEq] at hs
      exact ⟨cont, hs.2 ▸ inv_push hI hd⟩
  | pusher p => exact inv_pusher hI hs
  | clear =>
      simp only [step, Option.ite_none_right_eq_some, Option.some.injEq] at hs
      obtain ⟨ho, rfl⟩ := hs
      exact ⟨cont, inv_owner hI (by rw [ho]; rfl) fun h n e => by cases e⟩
  | removeAll =>
      simp only [step, Option.ite_none_right_eq_some, Option.some.injEq] at hs
      obtain ⟨ho, rfl⟩ := hs
      exact ⟨cont, inv_owner hI (by rw [ho]; rfl) fun h n e => by cases e⟩
  | owner => exact inv_ownerStep hI hs
  | reuse n v =>
      simp only [step, Option.some.injEq] at hs
      subst hs
      refine ⟨cont, inv_write hI (hI.notMem hd) (fun q m h => h) fun q m t hq => .inr ⟨?_, hq⟩⟩
      rintro rfl
      exact hd.2.2 q (by rw [hq]; rfl)

/-- Every run that keeps the discipline keeps the invariant. -/
theorem exists_inv {s : RflSt ν τ} (h : (rflLts ν τ).Reach Discipline s) :
    ∃ cont, Inv s cont := by
  refine Lts.invariant (I := fun s => ∃ cont, Inv s cont) (fun s h₀ => ⟨fun _ => [], ?_⟩)
    (fun s a s' hI hd hs => hI.elim fun cont hI => inv_step hI hd hs) h
  obtain ⟨hh, hp, ho, hl⟩ := h₀
  refine ⟨⟨fun k => ?_, fun h => by cases h⟩, ?_, ?_, ?_, ?_, ?_, ?_, ?_⟩
  · cases k <;> simp [RflSt.heads, hh, ho, Owner.chain]
  all_goals simp [hp, ho, hl, Push.node, pushes, takes]

omit [DecidableEq τ] in
/-- The owner's step hands out a chain in one place: its compare-and-swap. -/
theorem psRflOwner_handed {s s' : RflSt ν τ} {l : List ν} (hs : psRflOwner s = some s')
    (hl : s'.log = .handed l :: s.log) :
    s.owner = .cas s.head ∧ l = follow s.next s.log.length s.head := by
  have hne : s.log ≠ .handed l :: s.log := fun e => by simpa using congrArg List.length e
  unfold psRflOwner at hs
  split at hs
  case h_4 t ho =>
    split at hs <;> cases hs
    · rename_i ht
      subst ht
      simp only [List.cons.injEq, Event.handed.injEq, and_true] at hl
      exact ⟨ho, hl.symm⟩
    · exact absurd hl hne
  all_goals cases hs
  all_goals exact absurd hl hne

/-- **No interleaving of pushes and takes loses, duplicates or invents an object.** -/
theorem exact_of_reach {s : RflSt ν τ} (h : (rflLts ν τ).Reach Discipline s) : Exact s := by
  obtain ⟨cont, hI⟩ := exists_inv h
  have hlist : Chain s.next s.head (cont .list) := hI.chains.chain .list
  refine ⟨⟨cont .list, hlist, hlist.nodup, hI.count⟩,
    ⟨cont .taken, hI.chains.chain .taken, hI.chains.nodup .taken, fun n hn hr => ?_⟩,
    fun s' l hs hl => ?_⟩
  · have hk := hI.chains.disjoint hn (hlist.reaches_iff.mp hr)
    cases hk
  · obtain ⟨ho, rfl⟩ := psRflOwner_handed hs hl
    rw [hI.follow_eq]
    exact ⟨ho, hlist, hI.since⟩

end Proofs

/-- Nobody in a call, and nothing on any list. -/
def rflEmpty : RflSt Nat Nat :=
  ⟨none, fun _ => none, fun _ => .idle, .idle, []⟩

/-- Nothing is on a list when the list is empty, the owner drains nothing and no pusher is in a
call. -/
theorem onNoList_of_idle {s : RflSt ν τ} (hh : s.head = none) (ho : s.owner.chain = none)
    (hp : ∀ p, (s.push p).node = none) (n : ν) : OnNoList s n := by
  have hr : ∀ {h : Option ν}, h = none → ¬ Reaches s.next h n := by
    rintro h rfl hr
    cases hr
  exact ⟨hr hh, hr ho, fun p => by simp [hp p]⟩

/-- A run in which one object is pushed, taken, drained, and pushed again. -/
theorem exact_of_pushTakePush : ∃ s, (rflLts Nat Nat).Reach Discipline s ∧
    s.log = [.pushed 7, .handed [7], .pushed 7] ∧ Exact s := by
  have h₀ : (rflLts Nat Nat).Reach Discipline rflEmpty := .init ⟨rfl, fun _ => rfl, rfl, rfl⟩
  have h₁ := h₀.step (a := Act.push 0 7) (onNoList_of_idle rfl rfl (fun _ => rfl) 7) rfl
  have h₂ := h₁.step (a := Act.pusher 0) trivial rfl
  have h₃ := h₂.step (a := Act.pusher 0) trivial rfl
  have h₄ := h₃.step (a := Act.pusher 0) trivial rfl
  have h₅ := h₄.step (a := Act.clear) trivial rfl
  have h₆ := h₅.step (a := Act.owner) trivial rfl
  have h₇ := h₆.step (a := Act.owner) trivial rfl
  have h₈ := h₇.step (a := Act.owner) trivial rfl
  have h₉ := h₈.step (a := Act.owner) trivial rfl
  have h₁₀ := h₉.step (a := Act.owner) trivial rfl
  have h₁₁ := h₁₀.step (a := Act.owner) trivial rfl
  have h₁₂ := h₁₁.step (a := Act.push 0 7)
    (onNoList_of_idle rfl rfl (fun p => by cases p <;> rfl) 7) rfl
  have h₁₃ := h₁₂.step (a := Act.pusher 0) trivial rfl
  have h₁₄ := h₁₃.step (a := Act.pusher 0) trivial rfl
  have h₁₅ := h₁₄.step (a := Act.pusher 0) trivial rfl
  exact ⟨_, h₁₅, rfl, exact_of_reach h₁₅⟩

end Parsec.Rfl
