import Parsec.Smr.Report

/-!
# A reclamation returns

The machine from a state on, watching a core that reclaims a memory, while no core is inside a
section or enters one.

* `watch` — the machine from a state on, with what a core has handed over since, and how many steps it
  has made.
* `Outside` — every core is outside. `watch_invariant` is the rule for watched runs that enter no
  section.
* `Returns` — a reclamation is never stuck, and ends within a bounded number of steps of its core
  (`rank`).
-/

namespace Parsec.Smr

open Function Lib

variable {N : ℕ} {M : Type} {s s' : St N M} {c r : Fin N} {q : Quiesce M} {B tsc now : ℕ}
  {caller : Option M} {m : M} {p : Pc M}

/-! ## What is to hold -/

/-- Every core is outside of all sections, and of `ps_enter`. -/
def Outside (s : St N M) : Prop := ∀ r, s.sect r = none ∧ ∀ t, s.pc r ≠ .enterStore t

/-- A step that enters no section. -/
def Act.Quiet : Act N M → Prop
  | .enter _ _ => False
  | .exit _ | .free _ _ _ _ | .quiesce _ _ _ | .tick _ _ => True

/-- A step that enters no section, and with which core `c` makes no new call. -/
def Act.Within (c : Fin N) : Act N M → Prop
  | .enter _ _ => False
  | .exit r | .free r _ _ _ | .quiesce r _ _ => r ≠ c
  | .tick _ _ => True

/-- A state, what core `c` has handed over, and how many steps it has made. -/
structure Watched (N : ℕ) (M : Type) where
  st : St N M
  handed : List Item
  steps : ℕ

/-- The machine from state `s` on, watching core `c`. -/
def watch [DecidableEq M] (B : ℕ) (c : Fin N) (s : St N M) : Lts (Watched N M) (Act N M) where
  init w := w = ⟨s, [], 0⟩
  step w a := (step B w.st a).map fun s' =>
    if a.core = c then ⟨s', w.handed ++ (handsOver B w.st c).toList, w.steps + 1⟩
    else { w with st := s' }

/-- Core `c` starts to reclaim memory `m`. -/
def Starts (m : M) (p : Pc M) (tsc : ℕ) : Prop := p = .quiesceStart (some m) tsc false

section

variable [DecidableEq M]

/-- A call of `__ps_smr_reclaim` that core `c` starts in state `s` has ended. -/
def Reclaims (B : ℕ) (c : Fin N) (s : St N M) (w : Watched N M) : Prop :=
  (watch B c s).Reach (fun _ a => a.Within c) w ∧ w.st.pc c = .idle

/-- A reclamation that core `c` starts in state `s` ends within a bounded number of its steps, and in
none of them is it stuck, unless the clock is at its maximum. -/
def Returns (B : ℕ) (c : Fin N) (s : St N M) : Prop :=
  ∀ w, (watch B c s).Reach (fun _ a => a.Within c) w → w.steps ≤ 7 * N + B + 4 ∧
    (w.st.pc c ≠ .idle → w.st.clock < tscMax → step B w.st (.tick c (w.st.clock + 1)) ≠ none)

end

/-! ## Quiet steps -/

section Quiet

variable [DecidableEq M] {a : Act N M} {w : Watched N M}

omit [DecidableEq M] in
/-- A step in a reclamation enters no section. -/
theorem Act.Within.quiet (h : a.Within c) : a.Quiet := by
  cases a <;> first | exact h | trivial

omit [DecidableEq M] in
/-- A core that returns from `ps_quiesce` is not in `ps_enter`. -/
theorem psQuiesceReturn_ne_enterStore {ret : ℤ} {v t : ℕ} :
    psQuiesceReturn caller ret v ≠ .enterStore t := by
  cases caller <;> exact fun h => by cases h

omit [DecidableEq M] in
/-- A core in the loop of `ps_quiesce` is not in `ps_enter`. -/
theorem psQuiesceScan_ne_enterStore {t : ℕ} :
    psQuiesceScan c (s.timing c) (s.timingOthers c) q ≠ .enterStore t := by
  unfold psQuiesceScan
  simp only
  split_ifs <;> first | exact psQuiesceReturn_ne_enterStore | exact fun h => by cases h

/-- A function that is not `ps_enter` leaves the times of its core's sections alone. -/
theorem tick_outside (hs : s.sect c = none) (hp : ∀ t, s.pc c ≠ .enterStore t)
    (h : tick B s c now = some s') : (s'.sect c = none ∧ ∀ t, s'.pc c ≠ .enterStore t) ∧
      (s'.timing c).timeIn = (s.timing c).timeIn ∧
      (s'.timing c).timeOut = (s.timing c).timeOut := by
  unfold tick at h
  split at h
  case h_1 => cases h
  case h_2 t hp' => exact absurd hp' (hp t)
  case h_3 m it hp =>
    obtain ⟨p, hn, rfl⟩ := Option.map_eq_some_iff.mp h
    refine ⟨⟨hs, fun t => ?_⟩, rfl, rfl⟩
    simp only [St.setPc, update_self]
    unfold psSmrFreeNext at hn
    split at hn
    · obtain ⟨a, -, rfl⟩ := Option.map_eq_some_iff.mp hn
      exact fun h => by cases h
    · cases hn
      exact fun h => by cases h
  case h_4 caller tsc b hp =>
    cases h
    refine ⟨⟨hs, fun t => ?_⟩, rfl, rfl⟩
    simp only [St.setPc, update_self]
    unfold psQuiesceStart
    simp only
    split
    · exact psQuiesceReturn_ne_enterStore
    · exact fun h => by cases h
  case h_5 q hp =>
    cases h
    refine ⟨⟨hs, fun t => ?_⟩, rfl, rfl⟩
    simp only [St.setPc, update_self]
    exact psQuiesceScan_ne_enterStore
  case h_8 | h_9 =>
    simp only at h
    split at h <;> cases h
    all_goals
      refine ⟨⟨hs, fun t => ?_⟩, rfl, rfl⟩
      simp [St.setPc]
  case h_11 q hp =>
    obtain ⟨⟨lkq, p⟩, hf, rfl⟩ := Option.map_eq_some_iff.mp h
    refine ⟨⟨hs, fun t => ?_⟩, by simp [St.setPc, St.setTiming], by simp [St.setPc, St.setTiming]⟩
    simp only [St.setPc, update_self]
    rw [psQuiesceFinish_return hf]
    exact psQuiesceReturn_ne_enterStore
  case h_12 m i qsc backlog hp =>
    obtain ⟨⟨si, p⟩, hr, rfl⟩ := Option.map_eq_some_iff.mp h
    refine ⟨⟨hs, fun t => ?_⟩, rfl, rfl⟩
    simp only [St.setPc, update_self]
    rcases psSmrReclaim_cases hr with ⟨rfl, -⟩ | ⟨_, _, -, -, -, -, -, rfl⟩ <;>
      exact fun h => by cases h
  all_goals
    cases h
    refine ⟨⟨hs, fun t => ?_⟩, by simp [St.setPc, St.setTiming, St.setOther],
      by simp [St.setPc, St.setTiming, St.setOther]⟩
    simp [St.setPc]

/-- While all cores are outside, a step leaves the times of their sections alone, and them outside. -/
theorem Outside.step (ho : Outside s) (ha : a.Quiet) (h : step B s a = some s') :
    Outside s' ∧ ∀ r, (s'.timing r).timeIn = (s.timing r).timeIn ∧
      (s'.timing r).timeOut = (s.timing r).timeOut := by
  have hm := step_frame h
  have hcore : (s'.sect a.core = none ∧ ∀ t, s'.pc a.core ≠ .enterStore t) ∧
      (s'.timing a.core).timeIn = (s.timing a.core).timeIn ∧
      (s'.timing a.core).timeOut = (s.timing a.core).timeOut := by
    obtain ⟨hs, hp⟩ := ho a.core
    cases a with
    | enter c now => exact ha.elim
    | exit c =>
        simp only [Smr.step] at h
        split at h
        · rename_i d _ hd
          rw [Act.core, hd] at hs
          cases hs
        · cases h
    | free c m obj now =>
        simp only [Smr.step] at h
        split at h
        · split at h
          · cases h
            refine ⟨⟨hs, fun t => ?_⟩, rfl, rfl⟩
            simp [St.setPc, Act.core]
          · cases h
        · cases h
    | quiesce c tsc b =>
        simp only [Smr.step] at h
        split at h
        · cases h
          refine ⟨⟨hs, fun t => ?_⟩, rfl, rfl⟩
          simp [St.setPc, Act.core]
        · cases h
    | tick c now => exact tick_outside hs hp h
  constructor
  · intro r
    by_cases hr : r = a.core
    · exact hr ▸ hcore.1
    · rw [hm.sect r hr, hm.pc r hr]
      exact ho r
  · intro r
    by_cases hr : r = a.core
    · exact hr ▸ hcore.2
    · rw [hm.timing r hr]
      exact ⟨rfl, rfl⟩

omit [DecidableEq M] in
/-- A core that is outside is not in the library by its own timing. -/
theorem Outside.psInLib_eq (ho : Outside s) (hI : PointInv B s c) :
    psInLib (s.timing c) = false :=
  decide_eq_false (not_le.mpr (hI.timing.outside (ho c).1))

/-- A step of a watched run is one of the machine. -/
theorem watch_st {x : Watched N M} (h : (watch B c s).step w a = some x) :
    step B w.st a = some x.st := by
  obtain ⟨s', hs', rfl⟩ := Option.map_eq_some_iff.mp h
  split <;> exact hs'

/-- The rule for watched runs that enter no section. -/
theorem watch_invariant {G : Watched N M → Act N M → Prop} {I : Watched N M → Prop}
    (hG : ∀ w a, G w a → a.Quiet) (hr : (lts N M B).Reach (fun _ _ => True) s) (ho : Outside s)
    (h₀ : I ⟨s, [], 0⟩)
    (h₁ : ∀ w a w', (lts N M B).Reach (fun _ _ => True) w.st → Outside w.st → I w → G w a →
      (watch B c s).step w a = some w' → I w') (h : (watch B c s).Reach G w) :
    ((lts N M B).Reach (fun _ _ => True) w.st ∧ Outside w.st) ∧ I w := by
  refine Lts.invariant (I := fun w => ((lts N M B).Reach (fun _ _ => True) w.st ∧ Outside w.st) ∧ I w)
    ?_ ?_ h
  · rintro w rfl
    exact ⟨⟨hr, ho⟩, h₀⟩
  · rintro w a w' ⟨⟨hr, ho⟩, hI⟩ hg hs
    have hst := watch_st hs
    exact ⟨⟨hr.step (a := a) trivial hst, (ho.step (hG w a hg) hst).1⟩, h₁ w a w' hr ho hI hg hs⟩

/-- What a watched run reaches is reached, with all cores outside. -/
theorem reach_of_watch {G : Watched N M → Act N M → Prop} (hG : ∀ w a, G w a → a.Quiet)
    (hr : (lts N M B).Reach (fun _ _ => True) s) (ho : Outside s) (h : (watch B c s).Reach G w) :
    (lts N M B).Reach (fun _ _ => True) w.st ∧ Outside w.st :=
  (watch_invariant (I := fun _ => True) hG hr ho trivial (fun _ _ _ _ _ _ _ _ => trivial) h).1

end Quiet

/-! ## A reclamation returns -/

/-- The points of a reclamation of memory `m`, which does not block. -/
def InCall (m : M) : Pc M → Prop
  | .idle => True
  | .quiesceStart caller _ b => caller = some m ∧ b = false
  | .scan q | .finish q => q.caller = some m ∧ q.blocking = false
  | .updIn q | .updOut q | .updTime q | .updLkqTest q | .updLkqCopy q =>
      q.caller = some m ∧ q.blocking = false ∧ q.firstTry = false
  | .reclaim m' _ _ _ => m' = m
  | .enterStore _ | .smrFree _ _ => False

/-- The number of steps that are left at most. A round of the scan has seven, as the copy of a core is
refreshed once. -/
def rank (N B : ℕ) : Pc M → ℕ
  | .idle | .enterStore _ | .smrFree _ _ => 0
  | .quiesceStart _ _ _ => 7 * N + B + 4
  | .scan q => 7 * (N - q.i) - (if q.firstTry then 0 else 6) + B + 3
  | .updIn q => 7 * (N - q.i) - 1 + B + 3
  | .updOut q => 7 * (N - q.i) - 2 + B + 3
  | .updTime q => 7 * (N - q.i) - 3 + B + 3
  | .updLkqTest q => 7 * (N - q.i) - 4 + B + 3
  | .updLkqCopy q => 7 * (N - q.i) - 5 + B + 3
  | .finish _ => B + 2
  | .reclaim _ i _ _ => B - i + 1

section Returns

variable [DecidableEq M] {a : Act N M} {w : Watched N M}

omit [DecidableEq M] in
/-- The batch loop has a batch of steps left, and one. -/
theorem inCall_return (ret : ℤ) {v : ℕ} (hk : caller = some m) :
    InCall m (psQuiesceReturn caller ret v) ∧ rank N B (psQuiesceReturn caller ret v) = B + 1 := by
  subst hk
  exact ⟨rfl, rfl⟩

omit [DecidableEq M] in
/-- The loop body of `ps_quiesce`. -/
theorem psQuiesceScan_rank (hin : InCall m (.scan q)) :
    InCall m (psQuiesceScan c (s.timing c) (s.timingOthers c) q) ∧
      rank N B (psQuiesceScan c (s.timing c) (s.timingOthers c) q) < rank N B (.scan q) := by
  obtain ⟨hk, hb⟩ := hin
  have hret : ∀ ret, InCall m (psQuiesceReturn q.caller ret q.qsc) ∧
      rank N B (psQuiesceReturn q.caller ret q.qsc) < rank N B (.scan q) := by
    intro ret
    obtain ⟨h₁, h₂⟩ := inCall_return (N := N) (B := B) ret (v := q.qsc) hk
    refine ⟨h₁, h₂.trans_lt ?_⟩
    simp only [rank]
    omega
  unfold psQuiesceScan
  simp only
  split_ifs with hi hlkq hd hf hnb
  · exact ⟨⟨hk, hb⟩, by simp only [rank]; omega⟩
  · refine ⟨⟨hk, hb⟩, ?_⟩
    simp only [rank, Quiesce.next, if_true]
    split <;> omega
  · exact ⟨⟨hk, hb, rfl⟩, by simp only [rank, hf, if_true]; omega⟩
  · exact hret _
  · rw [hb] at hnb
    exact absurd rfl hnb
  · exact ⟨⟨hk, hb⟩, by simp only [rank]; omega⟩

/-- **Each step of the core gets closer to the end of the reclamation.** -/
theorem tick_rank (hI : PointInv B s c) (hin : InCall m (s.pc c)) (h : tick B s c now = some s') :
    InCall m (s'.pc c) ∧ rank N B (s'.pc c) < rank N B (s.pc c) := by
  have hpc := hI.pc
  unfold tick at h
  split at h
  case h_1 => cases h
  case h_2 t hp | h_3 k it hp =>
    rw [hp] at hin
    exact hin.elim
  case h_4 caller tsc b hp =>
    cases h
    rw [hp] at hin ⊢
    obtain ⟨hk, hb⟩ := hin
    simp only [St.setPc, update_self]
    unfold psQuiesceStart
    simp only
    split
    · obtain ⟨h₁, h₂⟩ := inCall_return (N := N) (B := B) negEQUIESCENCE
        (v := (s.timing c).lastKnownQuiescence) hk
      refine ⟨h₁, h₂.trans_lt ?_⟩
      simp only [rank]
      omega
    · refine ⟨⟨hk, hb⟩, ?_⟩
      simp only [rank, if_true]
      omega
  case h_5 q hp =>
    cases h
    rw [hp] at hin ⊢
    simp only [St.setPc, update_self]
    exact psQuiesceScan_rank hin
  case h_6 q hp | h_7 q hp =>
    cases h
    rw [hp] at hin hpc ⊢
    simp only [St.setPc, update_self]
    have hi := hpc.2
    exact ⟨hin, by simp only [rank]; omega⟩
  case h_8 q hp =>
    rw [hp] at hin hpc ⊢
    simp only at h
    split at h
    · cases h
      simp only [St.setPc, update_self]
      have hi := hpc.2
      exact ⟨hin, by simp only [rank]; omega⟩
    · cases h
  case h_9 q hp =>
    rw [hp] at hin hpc ⊢
    have hi := hpc.2
    simp only at h
    split at h <;> cases h <;> simp only [St.setPc, update_self]
    · exact ⟨hin, by simp only [rank]; omega⟩
    · exact ⟨⟨hin.1, hin.2.1⟩, by simp only [rank, hin.2.2]; simp; omega⟩
  case h_10 q hp =>
    cases h
    rw [hp] at hin hpc ⊢
    have hi := hpc.1.2
    simp only [St.setPc, update_self]
    exact ⟨⟨hin.1, hin.2.1⟩, by simp only [rank, hin.2.2]; simp; omega⟩
  case h_11 q hp =>
    obtain ⟨⟨lkq, p⟩, hf, rfl⟩ := Option.map_eq_some_iff.mp h
    rw [hp] at hin ⊢
    rw [psQuiesceFinish_return hf]
    simp only [St.setPc, update_self]
    obtain ⟨h₁, h₂⟩ := inCall_return (N := N) (B := B) 0
      (v := psQuiesceQsc N (s.timing c) q) hin.1
    exact ⟨h₁, h₂.trans_lt (Nat.lt_succ_self _)⟩
  case h_12 k i qsc backlog hp =>
    obtain ⟨⟨si, p⟩, hr, rfl⟩ := Option.map_eq_some_iff.mp h
    rw [hp] at hin ⊢
    simp only [St.setPc, update_self]
    rcases psSmrReclaim_cases hr with ⟨rfl, -⟩ | ⟨it, rest, hi, -, -, -, -, rfl⟩
    · exact ⟨trivial, Nat.succ_pos _⟩
    · exact ⟨hin, by simp only [rank]; omega⟩

/-- A core in a reclamation is not stuck. -/
theorem tick_ne_none (hI : PointInv B s c) (hin : InCall m (s.pc c)) (hne : s.pc c ≠ .idle)
    (hclk : s.clock < tscMax) : step B s (.tick c (s.clock + 1)) ≠ none := by
  have hpc := hI.pc
  cases hp : s.pc c with
  | idle => exact absurd hp hne
  | enterStore t | smrFree k it =>
      rw [hp] at hin
      exact hin.elim
  | quiesceStart caller tsc b | scan q | updIn q | updOut q | updLkqCopy q => simp [step, tick, hp]
  | updTime q => simp [step, tick, hp]
  | updLkqTest q =>
      simp only [step, tick, hp]
      split <;> exact Option.some_ne_none _
  | finish q =>
      rw [hp] at hpc
      simp only [step, tick, hp, ne_eq, Option.map_eq_none_iff]
      unfold psQuiesceFinish
      simp only
      split
      · rename_i hN
        -- the least time found is that of a copy
        have hlow := hpc.1.low (by omega)
        have hle : (if q.inlibCurr = true ∧ q.minKnownQsc > (s.timing c).timeIn
            then (s.timing c).timeIn else q.minKnownQsc) < tscMax := by split <;> omega
        generalize (if q.inlibCurr = true ∧ q.minKnownQsc > (s.timing c).timeIn
          then (s.timing c).timeIn else q.minKnownQsc) = v at hle ⊢
        rw [if_pos hle]
        split <;> exact Option.some_ne_none _
      · exact Option.some_ne_none _
  | reclaim k i qsc b =>
      rw [hp] at hpc
      have hlen : B ≤ i + (s.smrInfo k c).qscList.length := hpc
      simp only [step, tick, hp, ne_eq, Option.map_eq_none_iff]
      unfold psSmrReclaim
      simp only
      split
      · cases hl : (s.smrInfo k c).qscList with
        | nil =>
            rw [hl, List.length_nil] at hlen
            omega
        | cons it rest =>
            have h0 := (hI.queues k).pos it (hl ▸ List.mem_cons_self)
            simp only [if_neg h0]
            split <;> exact Option.some_ne_none _
      · exact Option.some_ne_none _

/-- **A reclamation returns**, however the steps of other cores come between. -/
theorem returns_of_starts (h : (lts N M B).Reach (fun _ _ => True) s) (ho : Outside s)
    (hst : Starts m (s.pc c) tsc) : Returns B c s := by
  intro w hw
  have hinv : InCall m (w.st.pc c) ∧ w.steps + rank N B (w.st.pc c) ≤ 7 * N + B + 4 := by
    refine (watch_invariant
      (I := fun w => InCall m (w.st.pc c) ∧ w.steps + rank N B (w.st.pc c) ≤ 7 * N + B + 4)
      (fun _ _ => Act.Within.quiet) h ho ?_ ?_ hw).2
    · rw [hst]
      exact ⟨⟨rfl, rfl⟩, (Nat.zero_add _).le⟩
    rintro w a w' hr - ⟨hin, hrank⟩ ha hs
    have hst := watch_st hs
    by_cases hc : a.core = c
    · obtain ⟨s', hs', rfl⟩ := Option.map_eq_some_iff.mp hs
      rw [if_pos hc]
      cases a with
      | enter r now => exact ha.elim
      | exit r | free r k obj now | quiesce r tsc b => exact absurd hc ha
      | tick r now =>
          cases hc
          obtain ⟨hin', hlt⟩ := tick_rank (pointInv_of_reach hr _) hin hs'
          exact ⟨hin', by simp only; omega⟩
    · obtain ⟨s', hs', rfl⟩ := Option.map_eq_some_iff.mp hs
      rw [if_neg hc]
      simp only
      rw [(step_frame hs').pc c (Ne.symm hc)]
      exact ⟨hin, hrank⟩
  have hr := (reach_of_watch (fun _ _ => Act.Within.quiet) h ho hw).1
  exact ⟨by omega, fun hne hclk => tick_ne_none (pointInv_of_reach hr c) hinv.1 hne hclk⟩

end Returns

end Parsec.Smr
