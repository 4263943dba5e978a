import Parsec.Smr.Points

/-!
# The time that a successful quiescence reports

`ps_quiesce` sets `*qsc` at its start, to `last_known_quiescence`, and again only when it looked at
every core and found a later time. But `last_known_quiescence` may rise in the scan, when a core that
is looked at knows a later one; the loop is then left with the old `*qsc`.

* `Usable` — whatever call is about to return 0 reports a time no earlier than the one asked for, and
  hands over the head of the queue if it is `__ps_smr_reclaim` that asked.
* `Fresh` — the branches that go wrong are not taken.
* `usable_of_fresh` — every state that fresh steps reach is usable. The invariant is `QscPc`: where
  `*qsc` is too early, so is `last_known_quiescence`.
* `exists_not_usable` — a step that is not fresh ends in a state that is not usable.
-/

namespace Parsec.Smr

open Function Lib

variable {N : ℕ} {M : Type} {s s' : St N M} {c r : Fin N} {q : Quiesce M} {B tsc now : ℕ}
  {caller : Option M} {m : M} {p : Pc M}

/-! ## What is to hold -/

/-- Whenever `ps_quiesce` is about to return 0, to any caller and in both modes, `*qsc` is not before
the time asked for, and `__ps_smr_reclaim` then hands over the head, whose time it asked for. -/
def Usable [DecidableEq M] (B : ℕ) (s : St N M) : Prop :=
  ∀ c q now s', s.pc c = .finish q → step B s (.tick c now) = some s' →
    q.timeCheck ≤ psQuiesceQsc N (s.timing c) q ∧
    ∀ m, q.caller = some m → ∃ a, (s.smrInfo m c).qscList.head? = some a ∧
      a.tscFree = q.timeCheck ∧ handsOver B s' c = some a

/-- The branches that go wrong, by program point. There is another core to look at, unless the time is
known to be quiescent or the caller is refused; where `*qsc` is too early, the
`last_known_quiescence` that is taken over from another core is not beyond the time in question; and
where all cores have been looked at, it is not the time at which the caller has entered its section,
and known to be quiescent by now. -/
def FreshAt (s : St N M) (c : Fin N) : Pc M → Prop
  | .quiesceStart _ tsc _ => 1 < N ∨ tsc ≤ (s.timing c).lastKnownQuiescence ∨
      (tsc > (s.timing c).timeIn ∧ psInLib (s.timing c) = true)
  | .updLkqCopy q => q.timeCheck ≤ q.qsc ∨
      (s.timing (qscCpu c q.i)).lastKnownQuiescence ≤ q.timeCheck
  | .scan q => q.timeCheck ≤ q.qsc ∨ q.i < N ∨ ¬ (q.inlibCurr = true ∧
      (s.timing c).timeIn = q.timeCheck ∧ (s.timing c).lastKnownQuiescence = q.timeCheck)
  | _ => True

/-- The steps that take none of these branches. -/
def Fresh (s : St N M) : Act N M → Prop
  | .tick c _ => FreshAt s c (s.pc c)
  | .enter _ _ | .exit _ | .free _ _ _ _ | .quiesce _ _ _ => True

instance (s : St N M) (c : Fin N) : ∀ p : Pc M, Decidable (FreshAt s c p)
  | .quiesceStart _ _ _ => inferInstanceAs (Decidable (_ ∨ _ ∨ (_ ∧ _)))
  | .updLkqCopy _ => inferInstanceAs (Decidable (_ ∨ _))
  | .scan _ => inferInstanceAs (Decidable (_ ∨ _ ∨ ¬ (_ ∧ _ ∧ _)))
  | .idle | .enterStore _ | .smrFree _ _ | .updIn _ | .updOut _ | .updTime _ | .updLkqTest _
  | .finish _ | .reclaim _ _ _ _ => isTrue trivial

instance (s : St N M) : ∀ a : Act N M, Decidable (Fresh s a)
  | .tick c _ => inferInstanceAs (Decidable (FreshAt s c (s.pc c)))
  | .enter _ _ | .exit _ | .free _ _ _ _ | .quiesce _ _ _ => isTrue trivial

/-! ## The invariant -/

/-- Where `*qsc` is before the time in question, so is what the core knows, and when it has looked at
all cores what it has found is later than that. -/
def QscPc (s : St N M) (c : Fin N) : Pc M → Prop
  | .scan q | .updIn q | .updOut q | .updTime q | .updLkqTest q | .updLkqCopy q =>
      q.timeCheck ≤ q.qsc ∨ (1 < N ∧ (s.timing c).lastKnownQuiescence ≤ q.timeCheck)
  | .finish q => q.timeCheck ≤ q.qsc ∨
      ((1 < N ∧ q.i = N) ∧ (s.timing c).lastKnownQuiescence ≤ q.timeCheck ∧
        ¬ (q.inlibCurr = true ∧ (s.timing c).timeIn = q.timeCheck ∧
          (s.timing c).lastKnownQuiescence = q.timeCheck))
  | .idle | .enterStore _ | .smrFree _ _ | .quiesceStart _ _ _ | .reclaim _ _ _ _ => True

/-- What holds while the core does not move. -/
theorem QscPc.congr (h : QscPc s c p) (ht : s'.timing c = s.timing c) : QscPc s' c p := by
  cases p <;> simp only [QscPc, ht] <;> exact h

/-- Nothing is to hold once `ps_quiesce` has returned. -/
theorem qscPc_return {ret : ℤ} {v : ℕ} : QscPc s c (psQuiesceReturn caller ret v) := by
  cases caller <;> trivial

/-- The start of `ps_quiesce`. -/
theorem psQuiesceStart_qsc {b : Bool} (hf : FreshAt s c (.quiesceStart caller tsc b)) :
    QscPc s c (psQuiesceStart (s.timing c) caller tsc b) := by
  unfold psQuiesceStart
  simp only
  split
  · exact qscPc_return
  · rename_i hn
    rcases hf with hN | hle | href
    · rcases le_or_gt tsc (s.timing c).lastKnownQuiescence with h | h
      · exact .inl h
      · exact .inr ⟨hN, h.le⟩
    · exact .inl hle
    · exact absurd href hn

/-- The loop body of `ps_quiesce`. -/
theorem psQuiesceScan_qsc (hA : Asks B s c q) (hq : QscPc s c (.scan q))
    (hf : FreshAt s c (.scan q)) :
    QscPc s c (psQuiesceScan c (s.timing c) (s.timingOthers c) q) := by
  unfold psQuiesceScan
  simp only
  by_cases hi : q.i < N
  · rw [if_pos hi]
    split
    · rename_i hlt
      exact .inl (hq.resolve_right fun h => absurd h.2 (not_le.mpr hlt))
    split
    · exact hq
    split
    · exact hq
    split
    · exact qscPc_return
    · exact hq
  · rw [if_neg hi]
    rcases hq with hq | ⟨hN, hle⟩
    · exact .inl hq
    · rcases hf with hf | hf | hf
      · exact .inl hf
      · exact absurd hf hi
      · exact .inr ⟨⟨hN, le_antisymm hA.le (not_lt.mp hi)⟩, hle, hf⟩

/-- What is reported at the end. -/
theorem le_psQuiesceQsc (hA : Asks B s c q) (hq : QscPc s c (.finish q))
    {x : ℕ × Pc M} (h : psQuiesceFinish N (s.timing c) q = some x) :
    q.timeCheck ≤ psQuiesceQsc N (s.timing c) q := by
  have hmin := hA.min
  have hlate := hA.late
  unfold psQuiesceFinish at h
  unfold psQuiesceQsc
  simp only at h ⊢
  by_cases hN : 1 < N ∧ q.i = N
  swap
  · rw [if_neg hN]
    exact hq.resolve_right fun h => hN h.1
  rw [if_pos hN] at h ⊢
  by_cases hcap : q.inlibCurr = true ∧ q.minKnownQsc > (s.timing c).timeIn
  · -- capped by the time at which the caller entered its section
    have hin := hlate hcap.1
    rw [if_pos hcap] at h ⊢
    split_ifs with hlt
    · exact hin
    · refine hq.resolve_right fun ⟨_, hle, hn⟩ => hn ⟨hcap.1, ?_, ?_⟩ <;> omega
  · rw [if_neg hcap] at h ⊢
    split_ifs at h ⊢ <;> first | omega | (rcases hq with hq | hq <;> omega)

section Steps

variable [DecidableEq M] {a : Act N M}

/-- A fresh step of the core keeps the invariant. -/
theorem tick_qsc (hI : PointInv B s c) (hq : QscPc s c (s.pc c)) (hf : FreshAt s c (s.pc c))
    (h : tick B s c now = some s') : QscPc s' c (s'.pc c) := by
  have hpc := hI.pc
  unfold tick at h
  split at h
  case h_1 => cases h
  case h_2 t hp =>
    cases h
    simp only [St.setPc, update_self]
    trivial
  case h_3 m it hp =>
    obtain ⟨p, hn, rfl⟩ := Option.map_eq_some_iff.mp h
    simp only [St.setPc, update_self]
    unfold psSmrFreeNext at hn
    split at hn
    · obtain ⟨a, -, rfl⟩ := Option.map_eq_some_iff.mp hn
      trivial
    · cases hn
      trivial
  case h_4 caller tsc b hp =>
    cases h
    rw [hp] at hf
    simp only [St.setPc, update_self]
    exact (psQuiesceStart_qsc hf).congr rfl
  case h_5 q hp =>
    cases h
    rw [hp] at hpc hq hf
    simp only [St.setPc, update_self]
    exact (psQuiesceScan_qsc hpc hq hf).congr rfl
  case h_6 q hp | h_7 q hp =>
    cases h
    rw [hp] at hq
    simp only [St.setPc, update_self]
    exact hq
  case h_8 q hp =>
    rw [hp] at hq
    simp only at h
    split at h
    · cases h
      simp only [St.setPc, update_self]
      exact hq
    · cases h
  case h_9 q hp =>
    rw [hp] at hq
    simp only at h
    split at h <;> cases h <;> simp only [St.setPc, update_self] <;> exact hq
  case h_10 q hp =>
    -- the `last_known_quiescence` of the other core is taken over
    cases h
    rw [hp] at hq hf
    simp only [St.setPc, update_self]
    rcases hq with hq | ⟨hN, -⟩
    · exact .inl hq
    · refine hf.imp_right fun hf => ⟨hN, ?_⟩
      simpa [St.setTiming] using hf
  case h_11 q hp =>
    obtain ⟨⟨lkq, p⟩, hfin, rfl⟩ := Option.map_eq_some_iff.mp h
    rw [psQuiesceFinish_return hfin]
    simp only [St.setPc, update_self]
    exact qscPc_return
  case h_12 m i qsc backlog hp =>
    obtain ⟨⟨si, p⟩, hr, rfl⟩ := Option.map_eq_some_iff.mp h
    simp only [St.setPc, update_self]
    unfold psSmrReclaim at hr
    simp only at hr
    split at hr
    · split at hr
      · cases hr
      split_ifs at hr <;> cases hr <;> trivial
    · cases hr
      trivial

/-- **Step lemma**: a fresh step keeps the invariant of every core. -/
theorem step_qsc (hI : ∀ r, PointInv B s r) (hq : ∀ r, QscPc s r (s.pc r)) (hf : Fresh s a)
    (h : step B s a = some s') (r : Fin N) : QscPc s' r (s'.pc r) := by
  have hm := step_frame h
  by_cases hr : r = a.core
  swap
  · rw [hm.pc r hr]
    exact (hq r).congr (hm.timing r hr)
  subst hr
  cases a with
  | enter c now | free c m obj now =>
      simp only [step] at h
      split at h
      · split at h
        · cases h
          simp only [St.setPc, Act.core, update_self]
          trivial
        · cases h
      · cases h
  | exit c =>
      simp only [step] at h
      split at h
      · rename_i hp _
        cases h
        show QscPc _ c (s.pc c)
        rw [hp]
        trivial
      · cases h
  | quiesce c tsc b =>
      simp only [step] at h
      split at h
      · cases h
        simp only [St.setPc, Act.core, update_self]
        trivial
      · cases h
  | tick c now => exact tick_qsc (hI c) (hq c) hf h

/-- The invariant holds along fresh runs. -/
theorem qscPc_of_reach (h : (lts N M B).Reach Fresh s) (r : Fin N) : QscPc s r (s.pc r) := by
  refine Lts.invariant_of_reach (L := lts N M B) (I := fun s => ∀ r, QscPc s r (s.pc r)) ?_ ?_ h r
  · rintro s ⟨now, rfl⟩ r
    trivial
  · exact fun s a s' hs hq hf h => step_qsc (pointInv_of_reach hs) hq hf h

omit [DecidableEq M] in
/-- The batch loop hands over the head if the time it carries is not after the time reported. -/
theorem handsOver_of_reclaim (hB : 1 ≤ B) {qsc : ℕ} {b : Bool} {it : Item}
    (hp : s.pc c = .reclaim m 0 qsc b)
    (ha : (s.smrInfo m c).qscList.head? = some it) (h0 : it.tscFree ≠ 0) (hle : it.tscFree ≤ qsc) :
    handsOver B s c = some it := by
  obtain ⟨rest, hl⟩ := List.head?_eq_some_iff.mp ha
  unfold handsOver
  rw [hp]
  simp only [hl]
  exact if_pos ⟨hB, h0, hle⟩

/-- **A successful quiescence reports a usable time**, in every state that fresh steps reach. -/
theorem usable_of_fresh (hB : 1 ≤ B) (h : (lts N M B).Reach Fresh s) : Usable B s := by
  intro c q now s' hp hs
  have hI := pointInv_of_reach h c
  have hpc := hI.pc
  have hq := qscPc_of_reach h c
  rw [hp] at hpc hq
  have hs : tick B s c now = some s' := hs
  simp only [tick, hp] at hs
  obtain ⟨⟨lkq, p⟩, hf, rfl⟩ := Option.map_eq_some_iff.mp hs
  have hle := le_psQuiesceQsc hpc.1 hq hf
  refine ⟨hle, fun m hm => ?_⟩
  obtain ⟨-, it, ha, ht⟩ := hpc.1.head m hm
  have hret : p = .reclaim m 0 (psQuiesceQsc N (s.timing c) q) false := by
    rw [psQuiesceFinish_return hf, hm]
    rfl
  have h0 := (hI.queues m).pos it (List.mem_of_head? ha)
  have hat : update s.pc c p c = .reclaim m 0 (psQuiesceQsc N (s.timing c) q) false := by
    rw [update_self, hret]
  exact ⟨it, ha, ht, handsOver_of_reclaim hB hat ha h0 (ht.trans_le hle)⟩

/-! ## The condition is exact -/

/-- A run goes on by one step of a core. -/
theorem reach_tick (h : (lts N M B).Reach (fun _ _ => True) s)
    (hs : step B s (.tick c now) = some s') : (lts N M B).Reach (fun _ _ => True) s' :=
  h.step (a := .tick c now) trivial hs

/-- A call that is about to report too early a time, and returns. -/
theorem not_usable_of_finish (hp : s.pc c = .finish q)
    (hlt : psQuiesceQsc N (s.timing c) q < q.timeCheck)
    (hf : psQuiesceFinish N (s.timing c) q ≠ none) : ¬ Usable B s := by
  intro hU
  obtain ⟨x, hf⟩ := Option.ne_none_iff_exists'.mp hf
  have hs : step B s (.tick c 0) =
      some ((s.setTiming c { s.timing c with lastKnownQuiescence := x.1 }).setPc c x.2) := by
    simp only [step, tick, hp, hf, Option.map_some]
  exact absurd (hU c q 0 _ hp hs).1 (not_le.mpr hlt)

/-- **A step that is not fresh ends in a state that is not usable**, after steps of the same core. -/
theorem exists_not_usable (h : (lts N M B).Reach (fun _ _ => True) s) (hclk : s.clock < tscMax)
    (hn : ¬ Fresh s a) : ∃ s', (lts N M B).Reach (fun _ _ => True) s' ∧ ¬ Usable B s' := by
  cases a with
  | enter c now | exit c | free c m obj now | quiesce c tsc b => exact absurd trivial hn
  | tick c now =>
      have hI := pointInv_of_reach h c
      have hpc := hI.pc
      have hn : ¬ FreshAt s c (s.pc c) := hn
      cases hp : s.pc c with
      | idle | enterStore t | smrFree m it | updIn q | updOut q | updTime q | updLkqTest q | finish q
      | reclaim m i qsc b =>
          rw [hp] at hn
          exact absurd trivial hn
      | quiesceStart caller tsc b =>
          rw [hp] at hn
          obtain ⟨hN, hn⟩ := not_or.mp hn
          obtain ⟨hlkq, hn⟩ := not_or.mp hn
          have hN : N = 1 := by
            have := c.pos
            omega
          -- the loop is empty
          obtain ⟨q, hq⟩ : ∃ q : Quiesce M, q =
              { timeCheck := tsc, blocking := b, inlibCurr := psInLib (s.timing c)
                minKnownQsc := tscMax, i := 1, firstTry := true
                qsc := (s.timing c).lastKnownQuiescence, caller := caller } := ⟨_, rfl⟩
          have h₁ : step B s (.tick c 0) = some (s.setPc c (.scan q)) := by
            simp only [step, tick, hp, psQuiesceStart, if_neg hn, hq]
          have h₂ : step B (s.setPc c (.scan q)) (.tick c 0) =
              some ((s.setPc c (.scan q)).setPc c (.finish q)) := by
            simp [step, tick, St.setPc, psQuiesceScan, hq, hN]
          refine ⟨_, reach_tick (reach_tick h h₁) h₂, not_usable_of_finish (c := c) (q := q) ?_ ?_ ?_⟩
          · simp [St.setPc]
          · show psQuiesceQsc N (s.timing c) q < q.timeCheck
            simp only [psQuiesceQsc, hN, lt_irrefl, false_and, if_false, hq]
            omega
          · show psQuiesceFinish N (s.timing c) q ≠ none
            simp [psQuiesceFinish, hN]
      | updLkqCopy q =>
          rw [hp] at hn hpc
          obtain ⟨⟨hA, hi⟩, -⟩ := hpc
          obtain ⟨hqsc, hlt⟩ := not_or.mp hn
          obtain ⟨s₁, hs₁⟩ : ∃ s₁, s₁ = (s.setTiming c { s.timing c with
              lastKnownQuiescence := (s.timing (qscCpu c q.i)).lastKnownQuiescence }).setPc c
              (.scan q) := ⟨_, rfl⟩
          have h₁ : step B s (.tick c 0) = some s₁ := by simp only [step, tick, hp, hs₁]
          have hlkq : q.timeCheck < (s₁.timing c).lastKnownQuiescence := by
            simpa [hs₁, St.setPc, St.setTiming] using hlt
          -- the loop is left in this round
          have h₂ : step B s₁ (.tick c 0) = some (s₁.setPc c (.finish q)) := by
            have hp₁ : s₁.pc c = .scan q := by simp [hs₁, St.setPc]
            simp only [step, tick, hp₁, psQuiesceScan, if_pos hi, if_pos hlkq]
          have hni : ¬ (1 < N ∧ q.i = N) := fun h => absurd h.2 hi.ne
          refine ⟨_, reach_tick (reach_tick h h₁) h₂, not_usable_of_finish (c := c) (q := q) ?_ ?_ ?_⟩
          · simp [St.setPc]
          · show psQuiesceQsc N (s₁.timing c) q < q.timeCheck
            rw [psQuiesceQsc, if_neg hni]
            omega
          · show psQuiesceFinish N (s₁.timing c) q ≠ none
            rw [psQuiesceFinish, if_neg hni]
            exact Option.some_ne_none _
      | scan q =>
          rw [hp] at hn hpc
          have hA : Asks B s c q := hpc
          obtain ⟨hqsc, hn⟩ := not_or.mp hn
          obtain ⟨hi, hn⟩ := not_or.mp hn
          obtain ⟨hin, htime, hlkq⟩ := not_not.mp hn
          have h₁ : step B s (.tick c 0) = some (s.setPc c (.finish q)) := by
            simp only [step, tick, hp, psQuiesceScan, if_neg hi]
          -- what is found is no later than what is known
          have hle : (if q.inlibCurr = true ∧ q.minKnownQsc > (s.timing c).timeIn
              then (s.timing c).timeIn else q.minKnownQsc) = q.timeCheck := by
            have hmin := hA.min
            have hclk' := hI.timing.timeIn_le
            rw [if_pos ⟨hin, by omega⟩, htime]
          refine ⟨_, reach_tick h h₁, not_usable_of_finish (c := c) (q := q) ?_ ?_ ?_⟩
          · simp [St.setPc]
          · show psQuiesceQsc N (s.timing c) q < q.timeCheck
            simp only [psQuiesceQsc, hle, hlkq, lt_irrefl, if_false, ite_self]
            omega
          · show psQuiesceFinish N (s.timing c) q ≠ none
            have hmax : q.timeCheck < tscMax := by
              have := hI.timing.timeIn_le
              omega
            simp only [psQuiesceFinish, hle, hlkq, lt_irrefl, if_false, if_pos hmax, ite_self]
            exact Option.some_ne_none _

end Steps

/-! ## On two cores -/

/-- The call of `ps_quiesce` that is about to return 0, if one is. -/
def Pc.atFinish : Pc M → Option (Quiesce M)
  | .finish q => some q
  | _ => none

/-- The call that is about to return 0, from its program point. -/
theorem eq_finish_of_atFinish (h : p.atFinish = some q) : p = .finish q := by
  cases p <;> cases h
  rfl

/-- A core frees an object at time 1 and reclaims it; the other one enters a section at time 2, while
the first looks at it. -/
def freshRun (c r : Fin 2) : List (Act 2 Unit) :=
  [.free c () 7 1, .tick c 0, .tick c 0, .tick c 0, .enter r 2, .tick r 0, .tick c 0, .tick c 0,
    .tick c 3, .tick c 0, .tick c 0, .tick c 0]

/-- The quiescence in that run reports time 2. -/
theorem usable_of_freshRun : ∃ (s : St 2 Unit) (q : Quiesce Unit), (lts 2 Unit 1).Reach Fresh s ∧
    s.sect 1 = some 2 ∧ s.pc 0 = .finish q ∧ q.qsc = 0 ∧ q.timeCheck = 1 ∧
    psQuiesceQsc 2 (s.timing 0) q = 2 ∧ Usable 1 s := by
  obtain ⟨s, hs, hp⟩ := Lts.exists_reach_of_execWhen (L := lts 2 Unit 1) (G := Fresh) ⟨0, rfl⟩
    (freshRun 0 1) (p := fun (s : St 2 Unit) => decide (s.sect 1 = some 2) &&
      (s.pc 0).atFinish.any fun (q : Quiesce Unit) =>
        decide (q.qsc = 0 ∧ q.timeCheck = 1 ∧ psQuiesceQsc 2 (s.timing 0) q = 2)) (by decide +kernel)
  obtain ⟨hsect, hp⟩ := Bool.and_eq_true_iff.mp hp
  obtain ⟨q, hq, hp⟩ := (Option.any_eq_true _ _).mp hp
  obtain ⟨h₀, h₁, h₂⟩ := of_decide_eq_true hp
  exact ⟨s, q, hs, of_decide_eq_true hsect, eq_finish_of_atFinish hq, h₀, h₁, h₂,
    usable_of_fresh le_rfl hs⟩

/-- After a core has left its section, the other one finds quiescence for time 1. The first then asks
for time 1. -/
def staleRun (c r : Fin 2) : List (Act 2 Unit) :=
  [.enter c 1, .tick c 0, .exit c, .quiesce r 1 false] ++ List.replicate 4 (.tick r 0) ++
    [.tick r 2] ++ List.replicate 4 (.tick r 0) ++ [.quiesce c 1 false] ++
    List.replicate 4 (.tick c 0) ++ [.tick c 3] ++ List.replicate 3 (.tick c 0)

/-- Core 0 is let through for time 1, and reports time 0. -/
theorem not_usable : ∃ s : St 2 Unit, (lts 2 Unit 1).Reach (fun _ _ => True) s ∧ ¬ Usable 1 s := by
  obtain ⟨s, hs, hp⟩ := Lts.exists_reach_of_execWhen (L := lts 2 Unit 1) (G := fun _ _ => True)
    ⟨0, rfl⟩ (staleRun 0 1) (p := fun (s : St 2 Unit) => (s.pc 0).atFinish.any fun (q : Quiesce Unit) =>
      decide (q.timeCheck = 1 ∧ psQuiesceQsc 2 (s.timing 0) q = 0 ∧
        (psQuiesceFinish 2 (s.timing 0) q).isSome))
    (by decide +kernel)
  obtain ⟨q, hq, hp⟩ := (Option.any_eq_true _ _).mp hp
  obtain ⟨h₁, h₀, hf⟩ := of_decide_eq_true hp
  have hsome := Option.isSome_iff_ne_none.mp hf
  exact ⟨s, hs, not_usable_of_finish (eq_finish_of_atFinish hq) (by omega) hsome⟩

end Parsec.Smr
