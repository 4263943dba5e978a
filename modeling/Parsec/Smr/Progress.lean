import Parsec.Smr.Returns

/-!
# Reclamation makes progress

While no core reads, on any number of cores and with their steps interleaved in any way: two
reclamations of a memory by a core, one after the other, and what was at the head of its queue at the
first.

* `Progress` — reclamations return, and the second hands the item over unless the first did.
* `progress_iff` — this is so whenever there are two cores or more. After the first,
  `last_known_quiescence` is beyond the item (`FirstPc`), and the second leaves its loop at once
  (`SecondPc`). A single core never moves its `last_known_quiescence` (`Lone`).
-/

namespace Parsec.Smr

open Function Lib

variable {N : ℕ} {M : Type} {s s' : St N M} {c r : Fin N} {q : Quiesce M} {B tsc now : ℕ}
  {caller : Option M} {m : M} {p : Pc M}

/-! ## What is to hold -/

section

variable [DecidableEq M]

/-- Since state `s` core `c` has not started to reclaim memory `m`, unless it does so now. -/
def Between (B : ℕ) (c : Fin N) (m : M) (s : St N M) (w : Watched N M) : Prop :=
  (watch B c s).Reach (fun w a => a.Quiet ∧ ∀ tsc, ¬ Starts m (w.st.pc c) tsc) w

end

/-- **Progress.** While every core stays outside of all sections: a reclamation of memory `m` by core
`c` returns; and the item at the head of the queue is handed over by it, or by the next one. -/
def Progress (N : ℕ) (M : Type) [DecidableEq M] (B : ℕ) : Prop :=
  ∀ s : St N M, (lts N M B).Reach (fun _ _ => True) s → Outside s →
    ∀ c m tsc, Starts m (s.pc c) tsc → Returns B c s ∧
      ∃ a, (s.smrInfo m c).qscList.head? = some a ∧
        ∀ w₁, Reclaims B c s w₁ → ∀ w₂, Between B c m w₁.st w₂ →
          ∀ tsc₂, Starts m (w₂.st.pc c) tsc₂ → ∀ w₃, Reclaims B c w₂.st w₃ →
            a ∈ w₁.handed ∨ a ∈ w₃.handed

/-! ## The first reclamation -/

/-- A call of `ps_quiesce` with which a reclamation of memory `m` asks for item `a`. -/
def AsksFor (m : M) (a : Item) (q : Quiesce M) : Prop :=
  q.caller = some m ∧ q.timeCheck = a.tscFree

/-- What holds at each point of a reclamation that asks for item `a`, until it hands it over. The
copy of a core that is refreshed shows that core outside, so that the test is passed. -/
def FirstPc (s : St N M) (c : Fin N) (m : M) (a : Item) : Pc M → Prop
  | .quiesceStart caller tsc _ => caller = some m ∧ tsc = a.tscFree
  | .scan q => AsksFor m a q ∧
      (q.firstTry = false → q.doneI (s.timingOthers c (qscCpu c q.i)) = true)
  | .updIn q | .finish q => AsksFor m a q
  | .updOut q => AsksFor m a q ∧
      (s.timingOthers c (qscCpu c q.i)).timeIn = (s.timing (qscCpu c q.i)).timeIn
  | .updTime q => AsksFor m a q ∧
      (s.timingOthers c (qscCpu c q.i)).timeIn < (s.timingOthers c (qscCpu c q.i)).timeOut
  | .updLkqTest q | .updLkqCopy q => AsksFor m a q ∧
      q.doneI (s.timingOthers c (qscCpu c q.i)) = true
  | .reclaim m' i _ _ => m' = m ∧ i = 0 ∧ a.tscFree < (s.timing c).lastKnownQuiescence
  | .idle => a.tscFree < (s.timing c).lastKnownQuiescence
  | .enterStore _ | .smrFree _ _ => False

/-- What holds while the core does not move: its own timing, its copies, and when others entered,
stay. -/
theorem FirstPc.congr {a : Item} (h : FirstPc s c m a p) (ht : s'.timing c = s.timing c)
    (ho : s'.timingOthers c = s.timingOthers c)
    (hin : ∀ r, (s'.timing r).timeIn = (s.timing r).timeIn) : FirstPc s' c m a p := by
  cases p with
  | idle =>
      show _ < (s'.timing c).lastKnownQuiescence
      rw [ht]
      exact h
  | enterStore t | smrFree k it => exact h
  | quiesceStart caller tsc b => exact h
  | updIn q | finish q => exact h
  | scan q =>
      refine ⟨h.1, fun hf => ?_⟩
      rw [ho]
      exact h.2 hf
  | updTime q | updLkqTest q | updLkqCopy q =>
      refine ⟨h.1, ?_⟩
      rw [ho]
      exact h.2
  | updOut q =>
      refine ⟨h.1, ?_⟩
      rw [ho, hin]
      exact h.2
  | reclaim k i qsc b =>
      refine ⟨h.1, h.2.1, ?_⟩
      rw [ht]
      exact h.2.2

/-- The loop body of `ps_quiesce`: a copy that was refreshed passes the test. -/
theorem psQuiesceScan_first {a : Item} (h : FirstPc s c m a (.scan q)) :
    FirstPc s c m a (psQuiesceScan c (s.timing c) (s.timingOthers c) q) := by
  obtain ⟨ha, hd⟩ := h
  unfold psQuiesceScan
  simp only
  split_ifs with hi hlkq hdone hf hb
  · exact ha
  · exact ⟨ha, fun h => absurd h (by simp [Quiesce.next])⟩
  · exact ha
  · exact absurd (hd (Bool.eq_false_iff.mpr hf)) hdone
  · exact absurd (hd (Bool.eq_false_iff.mpr hf)) hdone
  · exact ha

/-- Whichever way the loop is left, `last_known_quiescence` is then beyond the time asked for. -/
theorem psQuiesceFinish_first (hN : 2 ≤ N) (hin : psInLib (s.timing c) = false)
    (hp : PointPc B s c (.finish q)) {lkq : ℕ}
    (h : psQuiesceFinish N (s.timing c) q = some (lkq, p)) : q.timeCheck < lkq := by
  obtain ⟨hA, hlt⟩ := hp
  have hmin := hA.min
  have hcap : ¬ (q.inlibCurr = true ∧ q.minKnownQsc > (s.timing c).timeIn) := by
    rw [hA.inlib, hin]
    exact fun h => Bool.false_ne_true h.1
  unfold psQuiesceFinish at h
  simp only [if_neg hcap] at h
  by_cases hi : q.i = N
  · rw [if_pos ⟨by omega, hi⟩] at h
    split_ifs at h with hmax hle <;> cases h <;> omega
  · rw [if_neg fun h => hi h.2] at h
    cases h
    exact hlt (lt_of_le_of_ne hA.le hi)

section First

variable [DecidableEq M] {a : Item} {w : Watched N M}

/-- **The first reclamation**: a step of the core hands the item over, or keeps what holds. -/
theorem tick_first (hN : 2 ≤ N) (hB : 1 ≤ B) (hI : ∀ r, PointInv B s r) (ho : Outside s)
    (ha : (s.smrInfo m c).qscList.head? = some a) (hF : FirstPc s c m a (s.pc c))
    (h : tick B s c now = some s') : handsOver B s c = some a ∨
      (s'.smrInfo m c).qscList.head? = some a ∧ FirstPc s' c m a (s'.pc c) := by
  have hpc := (hI c).pc
  have hin := ho.psInLib_eq (hI c)
  have hpast := ((hI c).queues m).past a (List.mem_of_head? ha)
  unfold tick at h
  split at h
  case h_1 => cases h
  case h_2 t hp | h_3 k it hp =>
    rw [hp] at hF
    exact hF.elim
  case h_4 caller tsc b hp =>
    cases h
    rw [hp] at hF
    refine .inr ⟨ha, ?_⟩
    simp only [St.setPc, update_self]
    unfold psQuiesceStart
    simp only
    rw [if_neg fun h => Bool.false_ne_true (hin.symm.trans h.2)]
    exact ⟨hF, fun h => absurd h Bool.true_eq_false_eq_False⟩
  case h_5 q hp =>
    cases h
    rw [hp] at hF
    refine .inr ⟨ha, ?_⟩
    simp only [St.setPc, update_self]
    exact (psQuiesceScan_first hF).congr rfl rfl fun _ => rfl
  case h_6 q hp =>
    cases h
    rw [hp] at hF
    refine .inr ⟨ha, ?_⟩
    simp only [St.setPc, St.setOther, update_self]
    exact ⟨hF, by simp only [update_self]⟩
  case h_7 q hp =>
    cases h
    rw [hp] at hF
    refine .inr ⟨ha, ?_⟩
    simp only [St.setPc, St.setOther, update_self]
    refine ⟨hF.1, ?_⟩
    simp only [update_self]
    rw [hF.2]
    exact (hI _).timing.outside (ho _).1
  case h_8 q hp =>
    rw [hp] at hF
    simp only at h
    split at h
    · rename_i hnow
      cases h
      refine .inr ⟨ha, ?_⟩
      simp only [St.setPc, St.setOther, St.setClock, update_self]
      refine ⟨hF.1, ?_⟩
      -- the copy is read after the item was freed, and shows the core outside
      have hlt : q.timeCheck < now := by
        have := hF.1.2
        omega
      simp only [update_self, Quiesce.doneI, hlt, hF.2, decide_true, Bool.and_true, Bool.or_true]
    · cases h
  case h_9 q hp =>
    rw [hp] at hF
    simp only at h
    split at h <;> cases h <;> refine .inr ⟨ha, ?_⟩ <;> simp only [St.setPc, update_self]
    · exact hF
    · exact ⟨hF.1, fun _ => hF.2⟩
  case h_10 q hp =>
    cases h
    rw [hp] at hF
    refine .inr ⟨ha, ?_⟩
    simp only [St.setPc, update_self]
    exact ⟨hF.1, fun _ => hF.2⟩
  case h_11 q hp =>
    obtain ⟨⟨lkq, p⟩, hf, rfl⟩ := Option.map_eq_some_iff.mp h
    rw [hp] at hF hpc
    have hlkq := psQuiesceFinish_first hN hin hpc hf
    refine .inr ⟨ha, ?_⟩
    simp only [St.setPc, update_self]
    rw [psQuiesceFinish_return hf, hF.1]
    refine ⟨rfl, rfl, ?_⟩
    simpa [St.setTiming] using hF.2 ▸ hlkq
  case h_12 k i qsc backlog hp =>
    obtain ⟨⟨si, p⟩, hr, rfl⟩ := Option.map_eq_some_iff.mp h
    rw [hp] at hF
    obtain ⟨rfl, rfl, hlkq⟩ := hF
    rcases psSmrReclaim_cases hr with ⟨rfl, hl, -⟩ | ⟨it, rest, -, h0, hle, hl, -, -⟩
    · refine .inr ⟨?_, ?_⟩
      · show ((s.setSmr k c si).smrInfo k c).qscList.head? = some a
        rw [setSmr_eq, hl]
        exact ha
      · simp only [St.setPc, update_self]
        exact hlkq
    · rw [hl] at ha
      cases ha
      exact .inl (handsOver_of_reclaim hB hp (by rw [hl]; rfl) h0 hle)

/-- After the first reclamation the item was handed over, or `last_known_quiescence` is beyond it. -/
theorem first_of_reach (hN : 2 ≤ N) (hB : 1 ≤ B) (h : (lts N M B).Reach (fun _ _ => True) s)
    (ho : Outside s) (hst : Starts m (s.pc c) tsc)
    (ha : (s.smrInfo m c).qscList.head? = some a) (htsc : a.tscFree = tsc)
    (hw : Reclaims B c s w) : a ∈ w.handed ∨ (w.st.smrInfo m c).qscList.head? = some a ∧
      a.tscFree < (w.st.timing c).lastKnownQuiescence := by
  obtain ⟨hw, hidle⟩ := hw
  have hinv : a ∈ w.handed ∨
      (w.st.smrInfo m c).qscList.head? = some a ∧ FirstPc w.st c m a (w.st.pc c) := by
    refine (watch_invariant (I := fun w => a ∈ w.handed ∨
      (w.st.smrInfo m c).qscList.head? = some a ∧ FirstPc w.st c m a (w.st.pc c))
      (fun _ _ => Act.Within.quiet) h ho ?_ ?_ hw).2
    · refine .inr ⟨ha, ?_⟩
      rw [hst]
      exact ⟨rfl, htsc.symm⟩
    · rintro w x w' hr ho hI hx hs
      obtain ⟨s', hs', rfl⟩ := Option.map_eq_some_iff.mp hs
      by_cases hc : x.core = c
      · rw [if_pos hc]
        rcases hI with hI | ⟨ha, hF⟩
        · exact .inl (List.mem_append_left _ hI)
        cases x with
        | enter r now => exact hx.elim
        | exit r | free r k obj now | quiesce r tsc b => exact absurd hc hx
        | tick r now =>
            obtain rfl : r = c := hc
            rcases tick_first hN hB (fun r => pointInv_of_reach hr r) ho ha hF hs' with hh | hI
            · rw [hh]
              exact .inl (List.mem_append_right _ List.mem_cons_self)
            · exact .inr hI
      · rw [if_neg hc]
        have hm := step_moves (pointInv_of_reach hr _) hs'
        have hne := Ne.symm hc
        refine hI.imp_right fun ⟨ha, hF⟩ => ⟨?_, ?_⟩
        · simp only
          rw [hm.queues c hne]
          exact ha
        · simp only
          rw [hm.pc c hne]
          exact hF.congr (hm.timing c hne) (hm.timingOthers c hne)
            fun r => ((ho.step hx.quiet hs').2 r).1
  refine hinv.imp_right fun ⟨ha, hF⟩ => ⟨ha, ?_⟩
  rw [hidle] at hF
  exact hF

end First

/-! ## Between the two -/

/-- The memory that a call of `__ps_smr_reclaim` is about. -/
def Pc.memory : Pc M → Option M
  | .quiesceStart caller _ _ => caller
  | .scan q | .updIn q | .updOut q | .updTime q | .updLkqTest q | .updLkqCopy q | .finish q =>
      q.caller
  | .reclaim m _ _ _ => some m
  | .idle | .enterStore _ | .smrFree _ _ => none

/-- `ps_quiesce` returns to the reclamation that called it. -/
theorem memory_return {ret : ℤ} {v : ℕ} :
    (psQuiesceReturn caller ret v).memory = caller := by
  cases caller <;> rfl

section Between

variable [DecidableEq M] {a : Item} {w : Watched N M}

/-- A function that is not about memory `m` leaves what is queued at its head, unless it is the free
that starts to reclaim it. -/
theorem tick_between (hm : (s.pc c).memory ≠ some m) (ha : (s.smrInfo m c).qscList.head? = some a)
    (h : tick B s c now = some s') : (s'.smrInfo m c).qscList.head? = some a ∧
      ((s'.pc c).memory = some m → ∃ tsc, Starts m (s'.pc c) tsc) := by
  unfold tick at h
  split at h
  case h_1 => cases h
  case h_2 t hp =>
    cases h
    refine ⟨ha, fun hm => ?_⟩
    simp only [St.setPc, update_self] at hm
    cases hm
  case h_3 k it hp =>
    obtain ⟨p, hn, rfl⟩ := Option.map_eq_some_iff.mp h
    have hq : ((s.setSmr k c (psSmrEnqueue (s.smrInfo k c) it)).smrInfo m c).qscList.head? =
        some a := by
      by_cases hk : m = k
      · subst hk
        rw [setSmr_eq, psSmrEnqueue, List.head?_append, ha]
        rfl
      · rwa [setSmr_ne fun h => hk h.2]
    refine ⟨hq, fun hm => ?_⟩
    simp only [St.setPc, update_self] at hm ⊢
    unfold psSmrFreeNext at hn
    split at hn
    · obtain ⟨x, -, rfl⟩ := Option.map_eq_some_iff.mp hn
      cases hm
      exact ⟨_, rfl⟩
    · cases hn
      cases hm
  case h_4 caller tsc b hp =>
    cases h
    rw [hp] at hm
    refine ⟨ha, fun h => absurd ?_ hm⟩
    simp only [St.setPc, update_self] at h
    unfold psQuiesceStart at h
    simp only at h
    split at h
    · exact memory_return.symm.trans h
    · exact h
  case h_5 q hp =>
    cases h
    rw [hp] at hm
    refine ⟨ha, fun h => absurd ?_ hm⟩
    simp only [St.setPc, update_self] at h
    unfold psQuiesceScan at h
    simp only at h
    split_ifs at h <;> first | exact h | exact memory_return.symm.trans h
  case h_8 | h_9 =>
    rename_i q hp
    rw [hp] at hm
    simp only at h
    split at h <;> cases h
    all_goals
      refine ⟨ha, fun h => absurd ?_ hm⟩
      simp only [St.setPc, update_self] at h
      exact h
  case h_11 q hp =>
    obtain ⟨⟨lkq, p⟩, hf, rfl⟩ := Option.map_eq_some_iff.mp h
    rw [hp] at hm
    refine ⟨ha, fun h => absurd ?_ hm⟩
    simp only [St.setPc, update_self] at h
    rw [psQuiesceFinish_return hf, memory_return] at h
    exact h
  case h_12 k i qsc backlog hp =>
    obtain ⟨⟨si, p⟩, hr, rfl⟩ := Option.map_eq_some_iff.mp h
    rw [hp] at hm
    have hk : m ≠ k := fun h => hm (congrArg some h.symm)
    refine ⟨?_, fun h => absurd ?_ hm⟩
    · show ((s.setSmr k c si).smrInfo m c).qscList.head? = some a
      rwa [setSmr_ne fun h => hk h.2]
    · simp only [St.setPc, update_self] at h
      rcases psSmrReclaim_cases hr with ⟨rfl, -⟩ | ⟨_, _, -, -, -, -, -, rfl⟩
      · cases h
      · exact h
  all_goals
    rename_i q hp
    cases h
    rw [hp] at hm
    refine ⟨ha, fun h => absurd ?_ hm⟩
    simp only [St.setPc, update_self] at h
    exact h

/-- **Until the next reclamation** of the memory the item stays at the head. -/
theorem step_between {x : Act N M} (hI : PointInv B s x.core)
    (hm : (s.pc c).memory = some m → ∃ tsc, Starts m (s.pc c) tsc)
    (hn : ∀ tsc, ¬ Starts m (s.pc c) tsc) (ha : (s.smrInfo m c).qscList.head? = some a)
    (h : step B s x = some s') : (s'.smrInfo m c).qscList.head? = some a ∧
      ((s'.pc c).memory = some m → ∃ tsc, Starts m (s'.pc c) tsc) := by
  by_cases hc : x.core = c
  swap
  · have hmv := step_moves hI h
    rw [hmv.queues c (Ne.symm hc), hmv.pc c (Ne.symm hc)]
    exact ⟨ha, hm⟩
  subst hc
  cases x with
  | enter c now | free c k obj now =>
      simp only [step] at h
      split at h
      · split at h
        · cases h
          refine ⟨ha, fun hm => ?_⟩
          simp only [St.setPc, Act.core, update_self] at hm
          cases hm
        · cases h
      · cases h
  | exit c =>
      simp only [step] at h
      split at h
      · cases h
        exact ⟨ha, hm⟩
      · cases h
  | quiesce c tsc b =>
      simp only [step] at h
      split at h
      · cases h
        refine ⟨ha, fun hm => ?_⟩
        simp only [St.setPc, Act.core, update_self] at hm
        cases hm
      · cases h
  | tick c now =>
      exact tick_between (fun hm' => (hm hm').elim hn) ha h

/-- Until the second reclamation the item stays, and so does what is known to be beyond it. -/
theorem between_of_reach (h : (lts N M B).Reach (fun _ _ => True) s) (ho : Outside s)
    (hidle : s.pc c = .idle) (ha : (s.smrInfo m c).qscList.head? = some a)
    (hlt : a.tscFree < (s.timing c).lastKnownQuiescence) (hw : Between B c m s w) :
    (w.st.smrInfo m c).qscList.head? = some a ∧
      a.tscFree < (w.st.timing c).lastKnownQuiescence := by
  have hinv : ((w.st.smrInfo m c).qscList.head? = some a ∧
      ((w.st.pc c).memory = some m → ∃ tsc, Starts m (w.st.pc c) tsc)) ∧
      a.tscFree < (w.st.timing c).lastKnownQuiescence := by
    refine (watch_invariant (I := fun w => ((w.st.smrInfo m c).qscList.head? = some a ∧
      ((w.st.pc c).memory = some m → ∃ tsc, Starts m (w.st.pc c) tsc)) ∧
      a.tscFree < (w.st.timing c).lastKnownQuiescence) (fun _ _ h => h.1) h ho ?_ ?_ hw).2
    · refine ⟨⟨ha, fun hm => ?_⟩, hlt⟩
      rw [hidle] at hm
      cases hm
    · rintro w x w' hr - ⟨⟨ha, hm⟩, hlt⟩ ⟨-, hn⟩ hs
      have hs := watch_st hs
      have hI := pointInv_of_reach hr x.core
      exact ⟨step_between hI hm hn ha hs, hlt.trans_le ((step_moves hI hs).lkq c)⟩
  exact ⟨hinv.1.1, hinv.2⟩

end Between

/-! ## The second reclamation -/

/-- What holds at each point of the next reclamation, until it hands the item over. -/
def SecondPc (m : M) (a : Item) : Pc M → Prop
  | .quiesceStart caller tsc _ => caller = some m ∧ tsc = a.tscFree
  | .scan q | .finish q => AsksFor m a q ∧ q.i = 1 ∧ a.tscFree < q.qsc
  | .reclaim m' i qsc _ => m' = m ∧ i = 0 ∧ a.tscFree < qsc
  | .idle | .enterStore _ | .smrFree _ _ | .updIn _ | .updOut _ | .updTime _ | .updLkqTest _
  | .updLkqCopy _ => False

section Second

variable [DecidableEq M] {a : Item} {w : Watched N M}

/-- **The second reclamation** leaves its loop in the first round. -/
theorem tick_second (hN : 2 ≤ N) (hB : 1 ≤ B) (ha : (s.smrInfo m c).qscList.head? = some a)
    (hlt : a.tscFree < (s.timing c).lastKnownQuiescence) (hin : psInLib (s.timing c) = false)
    (hS : SecondPc m a (s.pc c)) (h : tick B s c now = some s') : handsOver B s c = some a ∨
      (s'.smrInfo m c).qscList.head? = some a ∧ SecondPc m a (s'.pc c) := by
  unfold tick at h
  split at h
  case h_1 => cases h
  case h_4 caller tsc b hp =>
    cases h
    rw [hp] at hS
    refine .inr ⟨ha, ?_⟩
    simp only [St.setPc, update_self]
    unfold psQuiesceStart
    simp only
    rw [if_neg fun h => Bool.false_ne_true (hin.symm.trans h.2)]
    exact ⟨hS, rfl, hlt⟩
  case h_5 q hp =>
    cases h
    rw [hp] at hS
    obtain ⟨hA, hi, hq⟩ := hS
    refine .inr ⟨ha, ?_⟩
    simp only [St.setPc, update_self]
    unfold psQuiesceScan
    simp only
    rw [if_pos (hi.trans_lt hN), if_pos (hA.2.trans_lt hlt)]
    exact ⟨hA, hi, hq⟩
  case h_11 q hp =>
    obtain ⟨⟨lkq, p⟩, hf, rfl⟩ := Option.map_eq_some_iff.mp h
    rw [hp] at hS
    obtain ⟨hA, hi, hq⟩ := hS
    refine .inr ⟨ha, ?_⟩
    simp only [St.setPc, update_self]
    have hni : ¬ (1 < N ∧ q.i = N) := by omega
    rw [psQuiesceFinish_return hf, hA.1, psQuiesceQsc, if_neg hni]
    exact ⟨rfl, rfl, hq⟩
  case h_12 k i qsc backlog hp =>
    rw [hp] at hS
    obtain ⟨rfl, rfl, hq⟩ := hS
    obtain ⟨⟨si, p⟩, hr, rfl⟩ := Option.map_eq_some_iff.mp h
    rcases psSmrReclaim_cases hr with ⟨-, -, hgt⟩ | ⟨it, rest, -, h0, hle, hl, -, -⟩
    · exact absurd (hgt a ha hB) (not_lt.mpr hq.le)
    · rw [hl] at ha
      cases ha
      exact .inl (handsOver_of_reclaim hB hp (by rw [hl]; rfl) h0 hle)
  all_goals
    rename_i hp
    rw [hp] at hS
    exact hS.elim

/-- After the second reclamation the item was handed over. -/
theorem second_of_reach (hN : 2 ≤ N) (hB : 1 ≤ B) (h : (lts N M B).Reach (fun _ _ => True) s)
    (ho : Outside s) (hst : Starts m (s.pc c) tsc)
    (ha : (s.smrInfo m c).qscList.head? = some a)
    (hlt : a.tscFree < (s.timing c).lastKnownQuiescence) (hw : Reclaims B c s w) :
    a ∈ w.handed := by
  obtain ⟨hw, hidle⟩ := hw
  have hinv : a ∈ w.handed ∨ ((w.st.smrInfo m c).qscList.head? = some a ∧
      SecondPc m a (w.st.pc c)) ∧ a.tscFree < (w.st.timing c).lastKnownQuiescence := by
    refine (watch_invariant (I := fun w => a ∈ w.handed ∨
      ((w.st.smrInfo m c).qscList.head? = some a ∧ SecondPc m a (w.st.pc c)) ∧
      a.tscFree < (w.st.timing c).lastKnownQuiescence)
      (fun _ _ => Act.Within.quiet) h ho ?_ ?_ hw).2
    · refine .inr ⟨⟨ha, ?_⟩, hlt⟩
      rw [hst]
      have hpc := (pointInv_of_reach h c).pc
      rw [hst] at hpc
      obtain ⟨-, it, hit, htsc⟩ := hpc m rfl
      rw [ha] at hit
      cases hit
      exact ⟨rfl, htsc.symm⟩
    · rintro w x w' hr ho hI hx hs
      obtain ⟨s', hs', rfl⟩ := Option.map_eq_some_iff.mp hs
      have hm := step_moves (pointInv_of_reach hr _) hs'
      by_cases hc : x.core = c
      · rw [if_pos hc]
        rcases hI with hI | ⟨⟨ha, hS⟩, hlt⟩
        · exact .inl (List.mem_append_left _ hI)
        cases x with
        | enter r now => exact hx.elim
        | exit r | free r k obj now | quiesce r tsc b => exact absurd hc hx
        | tick r now =>
            obtain rfl : r = c := hc
            have hin := ho.psInLib_eq (pointInv_of_reach hr r)
            rcases tick_second hN hB ha hlt hin hS hs' with hh | hI
            · rw [hh]
              exact .inl (List.mem_append_right _ List.mem_cons_self)
            · exact .inr ⟨hI, hlt.trans_le (hm.lkq r)⟩
      · rw [if_neg hc]
        have hne := Ne.symm hc
        refine hI.imp_right fun ⟨⟨ha, hS⟩, hlt⟩ => ⟨⟨?_, ?_⟩, hlt.trans_le (hm.lkq c)⟩
        · simp only
          rw [hm.queues c hne]
          exact ha
        · simp only
          rw [hm.pc c hne]
          exact hS
  refine hinv.resolve_right fun h => ?_
  have hS := h.1.2
  rw [hidle] at hS
  exact hS

/-- **Two cores or more make progress.** -/
theorem progress_of_two_le (hN : 2 ≤ N) (hB : 1 ≤ B) : Progress N M B := by
  intro s h ho c m tsc hst
  have hpc := (pointInv_of_reach h c).pc
  rw [hst] at hpc
  obtain ⟨-, a, ha, htsc⟩ := hpc m rfl
  refine ⟨returns_of_starts h ho hst, a, ha, fun w₁ hw₁ w₂ hw₂ tsc₂ hst₂ w₃ hw₃ => ?_⟩
  have hr₁ := reach_of_watch (fun _ _ => Act.Within.quiet) h ho hw₁.1
  have hr₂ := reach_of_watch (fun _ _ h => h.1) hr₁.1 hr₁.2 hw₂
  refine (first_of_reach hN hB h ho hst ha htsc hw₁).imp_right fun ⟨ha₁, hlt₁⟩ => ?_
  obtain ⟨ha₂, hlt₂⟩ := between_of_reach hr₁.1 hr₁.2 hw₁.2 ha₁ hlt₁ hw₂
  exact second_of_reach hN hB hr₂.1 hr₂.2 hst₂ ha₂ hlt₂ hw₃

end Second

/-! ## A single core -/

/-- What holds at each point of the single core. -/
def LonePc (s : St N M) (c : Fin N) : Pc M → Prop
  | .smrFree _ it => (s.timing c).lastKnownQuiescence < it.tscFree
  | .scan q | .finish q => q.qsc ≤ (s.timing c).lastKnownQuiescence
  | .reclaim _ _ qsc _ => qsc ≤ (s.timing c).lastKnownQuiescence
  | .updIn _ | .updOut _ | .updTime _ | .updLkqTest _ | .updLkqCopy _ => False
  | .idle | .enterStore _ | .quiesceStart _ _ _ => True

/-- Nothing that a single core frees is ever quiescent. -/
structure Lone (s : St N M) (c : Fin N) : Prop where
  lkq : (s.timing c).lastKnownQuiescence ≤ s.clock
  queues : ∀ m, ∀ a ∈ (s.smrInfo m c).qscList, (s.timing c).lastKnownQuiescence < a.tscFree
  pc : LonePc s c (s.pc c)

/-- What is reported is not beyond what is known. -/
theorem lonePc_return {ret : ℤ} {v : ℕ} (hv : v ≤ (s.timing c).lastKnownQuiescence) :
    LonePc s c (psQuiesceReturn caller ret v) := by
  cases caller with
  | none => trivial
  | some m => exact hv

/-- What holds at a point depends on `last_known_quiescence` only. -/
theorem LonePc.congr (h : LonePc s c p)
    (ht : (s'.timing c).lastKnownQuiescence = (s.timing c).lastKnownQuiescence) :
    LonePc s' c p := by
  cases p <;> simp only [LonePc] at h ⊢ <;> rw [ht] <;> exact h

section Lone

variable [DecidableEq M] {a : Act N M} {w : Watched N M}

omit [DecidableEq M] in
/-- A core that only moves to another program point. -/
theorem Lone.setPc (h : Lone s c) (hp : LonePc s c p) : Lone (s.setPc c p) c := by
  refine ⟨h.lkq, h.queues, ?_⟩
  simp only [St.setPc, update_self]
  exact hp.congr rfl

/-- A core that writes a queue of its own. -/
theorem Lone.setSmr (h : Lone s c) {si : SmrInfo}
    (hq : ∀ a ∈ si.qscList, (s.timing c).lastKnownQuiescence < a.tscFree) (hp : LonePc s c p) :
    Lone ((s.setSmr m c si).setPc c p) c := by
  refine ⟨h.lkq, fun m' => ?_, ?_⟩
  · show ∀ a ∈ ((s.setSmr m c si).smrInfo m' c).qscList, _
    by_cases hm : m' = m
    · subst hm
      rw [setSmr_eq]
      exact hq
    · rw [setSmr_ne fun h => hm h.2]
      exact h.queues m'
  · simp only [St.setPc, update_self]
    exact hp.congr rfl

/-- A single core never moves its `last_known_quiescence`. -/
theorem tick_lone (hN : N = 1) (hI : PointInv B s c) (h : Lone s c)
    (hs : tick B s c now = some s') : Lone s' c := by
  have hpc := hI.pc
  have hl := h.pc
  unfold tick at hs
  split at hs
  case h_1 => cases hs
  case h_2 t hp =>
    cases hs
    refine ⟨?_, fun m => ?_, ?_⟩
    · simpa [St.setPc, St.setSect, St.setTiming] using h.lkq
    · simpa [St.setPc, St.setSect, St.setTiming] using h.queues m
    · simp only [St.setPc, update_self]
      trivial
  case h_3 k it hp =>
    obtain ⟨p, hn, rfl⟩ := Option.map_eq_some_iff.mp hs
    rw [hp] at hl
    refine h.setSmr (fun a ha => ?_) ?_
    · rcases List.mem_append.mp ha with ha | ha
      · exact h.queues k a ha
      · rw [List.mem_singleton.mp ha]
        exact hl
    · unfold psSmrFreeNext at hn
      split at hn
      · obtain ⟨x, -, rfl⟩ := Option.map_eq_some_iff.mp hn
        trivial
      · cases hn
        trivial
  case h_4 caller tsc b hp =>
    cases hs
    refine h.setPc ?_
    unfold psQuiesceStart
    simp only
    split
    · exact lonePc_return le_rfl
    · exact le_rfl
  case h_5 q hp =>
    cases hs
    rw [hp] at hl hpc
    refine h.setPc ?_
    have hpos := Asks.pos hpc
    -- the loop is empty
    rw [psQuiesceScan, if_neg (by omega)]
    exact hl
  case h_11 q hp =>
    obtain ⟨⟨lkq, p⟩, hf, rfl⟩ := Option.map_eq_some_iff.mp hs
    rw [hp] at hl
    have hni : ¬ (1 < N ∧ q.i = N) := by omega
    rw [psQuiesceFinish, if_neg hni] at hf
    cases hf
    refine ⟨?_, fun m => ?_, ?_⟩
    · simpa [St.setPc, St.setTiming] using h.lkq
    · simpa [St.setPc, St.setTiming] using h.queues m
    · simp only [St.setPc, update_self]
      refine LonePc.congr (lonePc_return hl) ?_
      simp [St.setTiming]
  case h_12 k i qsc b hp =>
    obtain ⟨⟨si, p⟩, hr, rfl⟩ := Option.map_eq_some_iff.mp hs
    rw [hp] at hl
    rcases psSmrReclaim_cases hr with ⟨rfl, hq, -⟩ | ⟨it, rest, -, -, hle, hq, -, rfl⟩
    · refine h.setSmr (fun a ha => ?_) trivial
      rw [hq] at ha
      exact h.queues k a ha
    · refine absurd (h.queues k it ?_) (not_lt.mpr (hle.trans hl))
      rw [hq]
      exact List.mem_cons_self
  all_goals
    rename_i hp
    rw [hp] at hl
    exact hl.elim

/-- Every step of a single core keeps the invariant. -/
theorem step_lone (hN : N = 1) (hI : PointInv B s a.core) (h : Lone s a.core)
    (hs : step B s a = some s') : Lone s' a.core := by
  cases a with
  | enter c now =>
      simp only [step] at hs
      split at hs
      · split at hs
        · rename_i hlt
          cases hs
          refine ⟨h.lkq.trans hlt.le, h.queues, ?_⟩
          simp only [St.setPc, Act.core, update_self]
          trivial
        · cases hs
      · cases hs
  | exit c =>
      simp only [step] at hs
      split at hs
      · rename_i hp _
        cases hs
        refine ⟨?_, fun m => ?_, ?_⟩
        · simpa [St.setSect, St.setTiming, Act.core] using h.lkq
        · simpa [St.setSect, St.setTiming, Act.core] using h.queues m
        · show LonePc _ c (s.pc c)
          rw [hp]
          trivial
      · cases hs
  | free c k obj now =>
      simp only [step] at hs
      split at hs
      · split at hs
        · rename_i hlt
          cases hs
          refine ⟨h.lkq.trans hlt.le, h.queues, ?_⟩
          simp only [St.setPc, Act.core, update_self]
          exact h.lkq.trans_lt hlt
        · cases hs
      · cases hs
  | quiesce c tsc b =>
      simp only [step] at hs
      split at hs
      · cases hs
        exact h.setPc trivial
      · cases hs
  | tick c now => exact tick_lone hN hI h hs

/-- The invariant of a single core holds along every run. -/
theorem lone_of_reach (hN : N = 1) (h : (lts N M B).Reach (fun _ _ => True) s) (c : Fin N) :
    Lone s c := by
  have hsub : ∀ r : Fin N, r = c := fun r => Fin.ext (by omega)
  refine Lts.invariant_of_reach (L := lts N M B) (I := fun s => Lone s c) ?_ ?_ h
  · rintro s ⟨now, rfl⟩
    refine ⟨le_rfl, fun m a ha => ?_, trivial⟩
    cases ha
  · rintro s a s' hr hI - hs
    rw [← hsub a.core] at hI ⊢
    exact step_lone hN (pointInv_of_reach hr _) hI hs

omit [DecidableEq M] in
/-- A single core hands nothing over. -/
theorem Lone.handsOver_eq (h : Lone s c) : handsOver B s c = none := by
  unfold handsOver
  split
  · rename_i m i qsc b hp
    have hl := h.pc
    rw [hp] at hl
    have hq := h.queues m
    split
    · rename_i a rest heq
      rw [heq] at hq
      have hlt := hq a List.mem_cons_self
      exact if_neg fun h => absurd (h.2.2.trans hl) (not_le.mpr hlt)
    · rfl
  · rfl

/-- Nothing is handed over since a state that a single core has reached. -/
theorem handed_eq_nil (hN : N = 1) {G : Watched N M → Act N M → Prop} {s : St N M}
    (h : (lts N M B).Reach (fun _ _ => True) s) (hw : (watch B c s).Reach G w) :
    w.handed = [] := by
  have hinv : (lts N M B).Reach (fun _ _ => True) w.st ∧ w.handed = [] := by
    refine Lts.invariant (I := fun w => (lts N M B).Reach (fun _ _ => True) w.st ∧ w.handed = [])
      ?_ ?_ hw
    · rintro w rfl
      exact ⟨h, rfl⟩
    · rintro w a w' ⟨hr, hw⟩ - hs
      refine ⟨hr.step (a := a) trivial (watch_st hs), ?_⟩
      obtain ⟨s', -, rfl⟩ := Option.map_eq_some_iff.mp hs
      split
      · rw [(lone_of_reach hN hr c).handsOver_eq, hw]
        rfl
      · exact hw
  exact hinv.2

/-! ## Runs of a single core -/

/-- A watched run goes on by one step. -/
theorem exists_watch_step {G : Watched N M → Act N M → Prop} {s₀ : St N M} (s' : St N M)
    (hw : (watch B c s₀).Reach G w) (hG : G w a) (hs : step B w.st a = some s') :
    ∃ w', (watch B c s₀).Reach G w' ∧ w'.st = s' := by
  refine ⟨if a.core = c then ⟨s', w.handed ++ (handsOver B w.st c).toList, w.steps + 1⟩
    else { w with st := s' }, hw.step hG ?_, ?_⟩
  · simp only [watch, hs, Option.map_some]
  · split <;> rfl

/-- A free of an idle core: it starts to reclaim the memory, or the queue is by one longer. -/
theorem exists_free {s₀ : St N M} (hw : Between B c m s₀ w) (hp : w.st.pc c = .idle) :
    ∃ w', Between B c m s₀ w' ∧ ((∃ tsc, Starts m (w'.st.pc c) tsc) ∨ w'.st.pc c = .idle ∧
      (w.st.smrInfo m c).qmemcnt + 1 < (w.st.smrInfo m c).qmemtarget ∧
      (w'.st.smrInfo m c).qmemcnt = (w.st.smrInfo m c).qmemcnt + 1 ∧
      (w'.st.smrInfo m c).qmemtarget = (w.st.smrInfo m c).qmemtarget) := by
  obtain ⟨now, hnow⟩ : ∃ now, now = w.st.clock + 1 := ⟨_, rfl⟩
  have h₁ : step B w.st (.free c m 0 now) =
      some ((w.st.setClock now).setPc c (.smrFree m ⟨0, now⟩)) := by
    simp only [step, hp]
    rw [if_pos (by omega)]
  have hn₁ : ∀ tsc, ¬ Starts m (w.st.pc c) tsc := fun tsc h => by
    rw [hp] at h
    cases h
  obtain ⟨w₁, hw₁, hst₁⟩ := exists_watch_step (a := .free c m 0 now) _ hw ⟨trivial, hn₁⟩ h₁
  have hp₁ : w₁.st.pc c = .smrFree m ⟨0, now⟩ := by simp [hst₁, St.setPc]
  have hq₁ : w₁.st.smrInfo m c = w.st.smrInfo m c := by rw [hst₁]; rfl
  obtain ⟨si, hsi⟩ : ∃ si, si = psSmrEnqueue (w.st.smrInfo m c) ⟨0, now⟩ := ⟨_, rfl⟩
  have hn₂ : ∀ tsc, ¬ Starts m (w₁.st.pc c) tsc := fun tsc h => by
    rw [hp₁] at h
    cases h
  -- the core goes to `p` after the enqueue
  have h₂ : ∀ p, psSmrFreeNext m si = some p →
      ∃ w', Between B c m s₀ w' ∧ w'.st = (w₁.st.setSmr m c si).setPc c p := fun p hnext =>
    exists_watch_step (a := .tick c 0) _ hw₁ ⟨trivial, hn₂⟩ (by
      simp only [step, tick, hp₁, hq₁, ← hsi, hnext, Option.map_some])
  by_cases hge : si.qmemcnt ≥ si.qmemtarget
  · obtain ⟨it, hit⟩ : ∃ it, si.qscList.head? = some it := by
      refine Option.isSome_iff_exists.mp (List.isSome_head?.mpr ?_)
      rw [hsi]
      exact List.append_ne_nil_of_right_ne_nil _ (List.cons_ne_nil _ _)
    obtain ⟨w', hw', hst'⟩ := h₂ (.quiesceStart (some m) it.tscFree false) (by
      rw [psSmrFreeNext, if_pos hge, hit]
      rfl)
    refine ⟨w', hw', .inl ⟨it.tscFree, ?_⟩⟩
    rw [hst', St.setPc]
    exact update_self ..
  · obtain ⟨w', hw', hst'⟩ := h₂ .idle (by rw [psSmrFreeNext, if_neg hge])
    have hq' : w'.st.smrInfo m c = si := by
      rw [hst']
      exact setSmr_eq
    rw [hsi] at hge hq'
    refine ⟨w', hw', .inr ⟨?_, not_le.mp hge, ?_, ?_⟩⟩
    · rw [hst', St.setPc]
      exact update_self ..
    · rw [hq']
      rfl
    · rw [hq']
      rfl

/-- Memory `m` is reclaimed at last, if the core goes on to free objects of it. -/
theorem exists_starts {s₀ : St N M} (n : ℕ) : ∀ w : Watched N M, Between B c m s₀ w →
    w.st.pc c = .idle → (w.st.smrInfo m c).qmemtarget ≤ (w.st.smrInfo m c).qmemcnt + n →
    ∃ w' tsc, Between B c m s₀ w' ∧ Starts m (w'.st.pc c) tsc := by
  induction n with
  | zero =>
      intro w hw hp hn
      obtain ⟨w', hw', ⟨tsc, hst⟩ | ⟨-, hlt, -⟩⟩ := exists_free hw hp
      · exact ⟨w', tsc, hw', hst⟩
      · omega
  | succ n ih =>
      intro w hw hp hn
      obtain ⟨w', hw', ⟨tsc, hst⟩ | ⟨hp', -, hcnt, htgt⟩⟩ := exists_free hw hp
      · exact ⟨w', tsc, hw', hst⟩
      · exact ih w' hw' hp' (by omega)

/-- The reclamation of a single core: its loop is empty, and it hands nothing over. -/
theorem exists_reclaims (hN : N = 1) (hB : 1 ≤ B) (h : (lts N M B).Reach (fun _ _ => True) s)
    (ho : Outside s) (hst : Starts m (s.pc c) tsc) : ∃ w, Reclaims B c s w := by
  have hI := pointInv_of_reach h c
  have hin := ho.psInLib_eq hI
  have hl := lone_of_reach hN h c
  have hpc := hI.pc
  rw [hst] at hpc
  obtain ⟨-, it, hit, htsc⟩ := hpc m rfl
  have h0 := (hI.queues m).pos it (List.mem_of_head? hit)
  have hlt := hl.queues m it (List.mem_of_head? hit)
  obtain ⟨q, hq⟩ : ∃ q : Quiesce M, q =
      { timeCheck := tsc, blocking := false, inlibCurr := psInLib (s.timing c)
        minKnownQsc := tscMax, i := 1, firstTry := true
        qsc := (s.timing c).lastKnownQuiescence, caller := some m } := ⟨_, rfl⟩
  have hw₀ : (watch B c s).Reach (fun _ a => a.Within c) ⟨s, [], 0⟩ := .init rfl
  -- the start, the loop, the end and the batch loop take one step each
  obtain ⟨w₁, hw₁, h₁⟩ := exists_watch_step (a := .tick c 0) (s.setPc c (.scan q)) hw₀ trivial
    (by
      have hnot : ¬ (tsc > (s.timing c).timeIn ∧ psInLib (s.timing c) = true) := fun h =>
        Bool.false_ne_true (hin.symm.trans h.2)
      have hp : s.pc c = .quiesceStart (some m) tsc false := hst
      simp only [step, tick, hp, psQuiesceStart, if_neg hnot, hq])
  obtain ⟨w₂, hw₂, h₂⟩ := exists_watch_step (a := .tick c 0) (w₁.st.setPc c (.finish q)) hw₁
    trivial (by
      have hp : w₁.st.pc c = .scan q := by simp [h₁, St.setPc]
      have hnot : ¬ q.i < N := by simp [hq, hN]
      simp only [step, tick, hp, psQuiesceScan, if_neg hnot])
  obtain ⟨w₃, hw₃, h₃⟩ := exists_watch_step (a := .tick c 0)
    ((w₂.st.setTiming c (w₂.st.timing c)).setPc c (.reclaim m 0 q.qsc false)) hw₂ trivial (by
      have hp : w₂.st.pc c = .finish q := by simp [h₂, St.setPc]
      have hnot : ¬ (1 < N ∧ q.i = N) := by omega
      simp only [step, tick, hp, psQuiesceFinish, if_neg hnot, Option.map_some]
      simp [hq, psQuiesceReturn])
  have hq₃ : w₃.st.smrInfo m c = s.smrInfo m c := by rw [h₃, h₂, h₁]; rfl
  obtain ⟨rest, hl⟩ := List.head?_eq_some_iff.mp hit
  obtain ⟨w₄, hw₄, h₄⟩ := exists_watch_step (a := .tick c 0)
    ((w₃.st.setSmr m c { s.smrInfo m c with
      qmemtarget := (s.smrInfo m c).qmemtarget + B }).setPc c .idle) hw₃ trivial (by
      have hp : w₃.st.pc c = .reclaim m 0 q.qsc false := by simp [h₃, St.setPc]
      have hgt : it.tscFree > q.qsc := by rw [hq]; exact hlt
      have hB₀ : 0 < B := hB
      simp only [step, tick, hp, hq₃, psSmrReclaim, hl, if_pos hB₀, if_neg h0, if_pos hgt, if_true,
        Option.map_some])
  refine ⟨w₄, hw₄, ?_⟩
  rw [h₄, St.setPc]
  exact update_self ..

/-- **A single core makes no progress.** -/
theorem not_progress_of_one [Nonempty M] (hN : N = 1) (hB : 1 ≤ B) : ¬ Progress N M B := by
  intro hP
  obtain ⟨m⟩ := ‹Nonempty M›
  obtain ⟨c⟩ : Nonempty (Fin N) := ⟨⟨0, by omega⟩⟩
  obtain ⟨s₀, hs₀⟩ : ∃ s₀, s₀ = psInit N M B 0 := ⟨_, rfl⟩
  have hr₀ : (lts N M B).Reach (fun _ _ => True) s₀ := .init ⟨0, hs₀⟩
  have ho₀ : Outside s₀ := by
    rw [hs₀]
    exact fun r => ⟨rfl, fun t h => by cases h⟩
  obtain ⟨w₁, tsc₁, hw₁, hst₁⟩ := exists_starts (m := m) (c := c) B ⟨s₀, [], 0⟩
    (.init rfl) (by rw [hs₀]; rfl) (by rw [hs₀]; exact (Nat.zero_add B).ge)
  obtain ⟨hr₁, ho₁⟩ := reach_of_watch (fun _ _ h => h.1) hr₀ ho₀ hw₁
  obtain ⟨-, a, -, hall⟩ := hP w₁.st hr₁ ho₁ c m tsc₁ hst₁
  obtain ⟨w₂, hw₂⟩ := exists_reclaims hN hB hr₁ ho₁ hst₁
  obtain ⟨hr₂, ho₂⟩ := reach_of_watch (fun _ _ => Act.Within.quiet) hr₁ ho₁ hw₂.1
  obtain ⟨w₃, tsc₃, hw₃, hst₃⟩ := exists_starts (m := m) (c := c)
    (w₂.st.smrInfo m c).qmemtarget ⟨w₂.st, [], 0⟩ (.init rfl) hw₂.2 (Nat.le_add_left ..)
  obtain ⟨hr₃, ho₃⟩ := reach_of_watch (fun _ _ h => h.1) hr₂ ho₂ hw₃
  obtain ⟨w₄, hw₄⟩ := exists_reclaims hN hB hr₃ ho₃ hst₃
  have hmem := hall w₂ hw₂ w₃ hw₃ tsc₃ hst₃ w₄ hw₄
  rw [handed_eq_nil hN hr₁ hw₂.1, handed_eq_nil hN hr₃ hw₄.1] at hmem
  rcases hmem with h | h <;> cases h

end Lone

section Progress

variable [DecidableEq M]

/-- **Progress** is made on two cores or more, and only there. -/
theorem progress_iff [Nonempty M] (hN : 1 ≤ N) (hB : 1 ≤ B) : Progress N M B ↔ 2 ≤ N := by
  refine ⟨fun hP => ?_, fun hN => progress_of_two_le hN hB⟩
  by_contra hlt
  exact not_progress_of_one (by omega) hB hP

end Progress

/-- Four cores, in batches of 128. -/
theorem progress_four : Progress 4 Unit 128 :=
  (progress_iff (by omega) (by omega)).mpr (by omega)

/-- One core. -/
theorem not_progress_single : ¬ Progress 1 Unit 128 :=
  not_progress_of_one rfl (by omega)

end Parsec.Smr
