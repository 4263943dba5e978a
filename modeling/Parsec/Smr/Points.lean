import Parsec.Smr.Safety

/-!
# What holds at every point of every run

In any run of the machine, whether or not its steps are settled: the timing of a core tells whether it
is inside a section; no copy is of a later time than it was made; a quiescence queue is as long as its
counter says, and its objects were freed in the past; and the locals of a call of `ps_quiesce` are
about the time that it was asked for, which is that of the head of the queue where
`__ps_smr_reclaim` asks.

* `PointInv` — the invariant of a core, in four parts; `PointPc` is the one about its program point.
* `Moves` — what a step leaves alone, with `last_known_quiescence`, which never falls.
* `pointInv_of_reach` — the invariant holds along every run.
-/

namespace Parsec.Smr

open Function Lib

variable {N : ℕ} {M : Type} {s s' : St N M} {c r : Fin N} {q : Quiesce M} {B tsc now : ℕ}
  {caller : Option M} {m : M} {p : Pc M}

/-! ## The invariant -/

/-- A quiescence queue when the clock shows `now`. -/
structure Queued (B now : ℕ) (si : SmrInfo) : Prop where
  cnt : si.qmemcnt = si.qscList.length
  target : B ≤ si.qmemtarget
  pos : ∀ a ∈ si.qscList, a.tscFree ≠ 0
  past : ∀ a ∈ si.qscList, a.tscFree ≤ now

/-- A core's own timing. -/
structure TimingInv (s : St N M) (c : Fin N) : Prop where
  timeIn_le : (s.timing c).timeIn ≤ s.clock
  timeOut_le : (s.timing c).timeOut ≤ (s.timing c).timeIn + 1
  inside : ∀ d, s.sect c = some d → (s.timing c).timeOut ≤ (s.timing c).timeIn
  outside : s.sect c = none → (s.timing c).timeIn < (s.timing c).timeOut
  lkq_le : (s.timing c).lastKnownQuiescence ≤ s.clock

/-- The copies that a core has of the timing of others. -/
structure CopiesInv (s : St N M) (c : Fin N) : Prop where
  timeIn_le : ∀ r, (s.timingOthers c r).timeIn ≤ s.clock
  updated_le : ∀ r, (s.timingOthers c r).timeUpdated ≤ s.clock
  le : ∀ r, ¬ Updating c (s.pc c) r →
    (s.timingOthers c r).timeIn ≤ (s.timingOthers c r).timeUpdated

/-- Time `tsc` is that of the head of the queue, where `__ps_smr_reclaim` asks for it. The queue then
holds a batch. -/
def OfHead (B : ℕ) (s : St N M) (c : Fin N) (caller : Option M) (tsc : ℕ) : Prop :=
  ∀ m, caller = some m → B ≤ (s.smrInfo m c).qscList.length ∧
    ∃ a, (s.smrInfo m c).qscList.head? = some a ∧ a.tscFree = tsc

/-- The locals of a call of `ps_quiesce` that was let through. -/
structure Asks (B : ℕ) (s : St N M) (c : Fin N) (q : Quiesce M) : Prop where
  pos : 1 ≤ q.i
  le : q.i ≤ N
  inlib : q.inlibCurr = psInLib (s.timing c)
  late : q.inlibCurr = true → q.timeCheck ≤ (s.timing c).timeIn
  min : q.minKnownQsc = tscMax ∨ q.timeCheck < q.minKnownQsc
  low : 2 ≤ q.i → q.minKnownQsc ≤ s.clock
  head : OfHead B s c q.caller q.timeCheck

/-- What holds at each program point of core `c`. -/
def PointPc (B : ℕ) (s : St N M) (c : Fin N) : Pc M → Prop
  | .idle => True
  | .enterStore t => s.sect c = none ∧ (s.timing c).timeIn < t ∧ t ≤ s.clock
  | .smrFree _ it => it.tscFree ≠ 0 ∧ it.tscFree ≤ s.clock
  | .quiesceStart caller tsc _ => OfHead B s c caller tsc
  | .scan q => Asks B s c q
  | .updIn q | .updOut q | .updTime q | .updLkqTest q => Asks B s c q ∧ q.i < N
  | .updLkqCopy q => (Asks B s c q ∧ q.i < N) ∧
      (s.timing c).lastKnownQuiescence ≤ (s.timing (qscCpu c q.i)).lastKnownQuiescence
  | .finish q => Asks B s c q ∧ (q.i < N → q.timeCheck < (s.timing c).lastKnownQuiescence)
  | .reclaim m i _ _ => B ≤ i + (s.smrInfo m c).qscList.length

/-- The invariant of core `c`. -/
structure PointInv (B : ℕ) (s : St N M) (c : Fin N) : Prop where
  timing : TimingInv s c
  copies : CopiesInv s c
  queues : ∀ m, Queued B s.clock (s.smrInfo m c)
  pc : PointPc B s c (s.pc c)

/-! ## Its parts -/

/-- What was freed in the past stays so. -/
theorem Queued.mono {now now' : ℕ} {si : SmrInfo} (h : Queued B now si) (hle : now ≤ now') :
    Queued B now' si :=
  ⟨h.cnt, h.target, h.pos, fun a ha => (h.past a ha).trans hle⟩

/-- An object that was freed just now is added to its queue. -/
theorem Queued.enqueue {si : SmrInfo} {it : Item} (h : Queued B now si) (hpos : it.tscFree ≠ 0)
    (hle : it.tscFree ≤ now) : Queued B now (psSmrEnqueue si it) := by
  constructor
  · simp [psSmrEnqueue, h.cnt]
  · exact h.target
  · intro a ha
    rcases List.mem_append.mp ha with ha | ha
    · exact h.pos a ha
    · rw [List.mem_singleton.mp ha]
      exact hpos
  · intro a ha
    rcases List.mem_append.mp ha with ha | ha
    · exact h.past a ha
    · rw [List.mem_singleton.mp ha]
      exact hle

/-- A round of the batch loop, and its exit. -/
theorem Queued.reclaim {si si' : SmrInfo} {i qsc : ℕ} {backlog : Bool} (h : Queued B now si)
    (hr : psSmrReclaim B m si i qsc backlog = some (si', p)) : Queued B now si' := by
  have hraise : ∀ t, si.qmemtarget ≤ t → Queued B now { si with qmemtarget := t } := fun t ht =>
    ⟨h.cnt, h.target.trans ht, h.pos, h.past⟩
  unfold psSmrReclaim at hr
  simp only at hr
  split at hr
  · split at hr
    · cases hr
    rename_i a rest hl
    split_ifs at hr
    · cases hr
      exact hraise _ (Nat.le_add_right ..)
    · cases hr
      refine ⟨?_, h.target, fun x hx => h.pos x ?_, fun x hx => h.past x ?_⟩
      · have hcnt := h.cnt
        rw [hl, List.length_cons] at hcnt
        simp only [hcnt, Nat.add_sub_cancel]
      · rw [hl]
        exact List.mem_cons_of_mem a hx
      · rw [hl]
        exact List.mem_cons_of_mem a hx
  · cases hr
    refine hraise _ ?_
    split <;> omega

/-- A round of the batch loop hands the head of the queue over, or the call ends. -/
theorem psSmrReclaim_cases {si si' : SmrInfo} {i qsc : ℕ} {backlog : Bool}
    (h : psSmrReclaim B m si i qsc backlog = some (si', p)) :
    (p = .idle ∧ si'.qscList = si.qscList ∧
      ∀ it, si.qscList.head? = some it → i < B → qsc < it.tscFree) ∨
    ∃ it rest, i < B ∧ it.tscFree ≠ 0 ∧ it.tscFree ≤ qsc ∧ si.qscList = it :: rest ∧
      si'.qscList = rest ∧ p = .reclaim m (i + 1) qsc backlog := by
  unfold psSmrReclaim at h
  simp only at h
  split at h
  · rename_i hi
    split at h
    · cases h
    rename_i it rest hl
    split_ifs at h with h0 hgt
    · cases h
      refine .inl ⟨rfl, rfl, fun it' ha _ => ?_⟩
      rw [hl] at ha
      cases ha
      exact hgt
    · cases h
      exact .inr ⟨it, rest, hi, h0, not_lt.mp hgt, hl, rfl, rfl⟩
  · rename_i hi
    cases h
    exact .inl ⟨rfl, rfl, fun _ _ h => absurd h hi⟩

/-- The head of the queue stays while the queue does. -/
theorem OfHead.congr (h : OfHead B s c caller tsc)
    (hq : ∀ m, s'.smrInfo m c = s.smrInfo m c) : OfHead B s' c caller tsc := by
  intro m hm
  rw [hq]
  exact h m hm

/-- A call that is not a reclamation's asks for any time. -/
theorem ofHead_none : OfHead B s c none tsc := fun m hm => by cases hm

/-- The locals of a call stay right while the core's own timing and queues do. -/
theorem Asks.congr (h : Asks B s c q) (ht : (s'.timing c).timeIn = (s.timing c).timeIn)
    (ho : (s'.timing c).timeOut = (s.timing c).timeOut)
    (hq : ∀ m, s'.smrInfo m c = s.smrInfo m c) (hclk : s.clock ≤ s'.clock) : Asks B s' c q := by
  refine ⟨h.pos, h.le, ?_, ?_, h.min, fun hi => (h.low hi).trans hclk, h.head.congr hq⟩
  · rw [h.inlib, psInLib, psInLib, ht, ho]
  · rw [ht]
    exact h.late

/-- A core's timing stays right as time goes on. -/
theorem TimingInv.congr (h : TimingInv s c) (ht : s'.timing c = s.timing c)
    (hs : s'.sect c = s.sect c) (hclk : s.clock ≤ s'.clock) : TimingInv s' c := by
  refine ⟨?_, ?_, ?_, ?_, ?_⟩ <;> rw [ht]
  · exact h.timeIn_le.trans hclk
  · exact h.timeOut_le
  · rw [hs]
    exact h.inside
  · rw [hs]
    exact h.outside
  · exact h.lkq_le.trans hclk

/-- `last_known_quiescence` is written with a time of the past. -/
theorem TimingInv.setLkq (h : TimingInv s c) {lkq : ℕ} (hl : lkq ≤ s.clock)
    (ht : s'.timing c = { s.timing c with lastKnownQuiescence := lkq })
    (hs : s'.sect c = s.sect c) (hclk : s'.clock = s.clock) : TimingInv s' c := by
  refine ⟨?_, ?_, ?_, ?_, ?_⟩ <;> rw [ht]
  · exact hclk ▸ h.timeIn_le
  · exact h.timeOut_le
  · rw [hs]
    exact h.inside
  · rw [hs]
    exact h.outside
  · exact hclk ▸ hl

/-- A core's copies stay right as time goes on. -/
theorem CopiesInv.congr (h : CopiesInv s c) (ho : s'.timingOthers c = s.timingOthers c)
    (hu : ∀ r, Updating c (s.pc c) r → Updating c (s'.pc c) r) (hclk : s.clock ≤ s'.clock) :
    CopiesInv s' c := by
  refine ⟨fun r => ?_, fun r => ?_, fun r hr => ?_⟩ <;> rw [ho]
  · exact (h.timeIn_le r).trans hclk
  · exact (h.updated_le r).trans hclk
  · exact h.le r fun hup => hr (hu r hup)

/-- What holds at the program point of a core that does not move. -/
theorem PointPc.congr (h : PointPc B s c p) (ht : s'.timing c = s.timing c)
    (hs : s'.sect c = s.sect c) (hq : ∀ m, s'.smrInfo m c = s.smrInfo m c)
    (hclk : s.clock ≤ s'.clock)
    (hlkq : ∀ r, (s.timing r).lastKnownQuiescence ≤ (s'.timing r).lastKnownQuiescence) :
    PointPc B s' c p := by
  have hasks : ∀ {q}, Asks B s c q → Asks B s' c q := fun h =>
    h.congr (by rw [ht]) (by rw [ht]) hq hclk
  cases p with
  | idle => trivial
  | enterStore t =>
      obtain ⟨h₁, h₂, h₃⟩ := h
      refine ⟨hs ▸ h₁, ?_, h₃.trans hclk⟩
      rw [ht]
      exact h₂
  | smrFree m it => exact ⟨h.1, h.2.trans hclk⟩
  | quiesceStart caller tsc b => exact OfHead.congr h hq
  | scan q => exact hasks h
  | updIn q | updOut q | updTime q | updLkqTest q => exact ⟨hasks h.1, h.2⟩
  | updLkqCopy q =>
      refine ⟨⟨hasks h.1.1, h.1.2⟩, ?_⟩
      rw [ht]
      exact h.2.trans (hlkq _)
  | finish q =>
      refine ⟨hasks h.1, ?_⟩
      rw [ht]
      exact h.2
  | reclaim m i qsc b =>
      show B ≤ i + (s'.smrInfo m c).qscList.length
      rw [hq]
      exact h

/-! ## What `ps_quiesce` reports -/

/-- What `*qsc` is when `ps_quiesce` returns 0.
Source: `ps_smr.c`, `ps_quiesce` -/
def psQuiesceQsc (N : ℕ) (timing : QuiescenceTiming) (q : Quiesce M) : ℕ :=
  if 1 < N ∧ q.i = N then
    let minKnownQsc :=
      if q.inlibCurr = true ∧ q.minKnownQsc > timing.timeIn then timing.timeIn
      else q.minKnownQsc
    if timing.lastKnownQuiescence < minKnownQsc then minKnownQsc else q.qsc
  else q.qsc

/-- What `ps_quiesce` returns with at its end. -/
theorem psQuiesceFinish_return {t : QuiescenceTiming} {lkq : ℕ}
    (h : psQuiesceFinish N t q = some (lkq, p)) :
    p = psQuiesceReturn q.caller 0 (psQuiesceQsc N t q) := by
  unfold psQuiesceFinish at h
  unfold psQuiesceQsc
  simp only at h ⊢
  split_ifs at h ⊢ <;> cases h <;> rfl

/-! ## What a step leaves alone -/

section Step

variable [DecidableEq M] {a : Act N M}

/-- A step of core `c` leaves the queues of the others alone as well, and no
`last_known_quiescence` falls. -/
structure Moves (s s' : St N M) (c : Fin N) : Prop extends Frame s s' c where
  queues : ∀ r, r ≠ c → ∀ m, s'.smrInfo m r = s.smrInfo m r
  lkq : ∀ r, (s.timing r).lastKnownQuiescence ≤ (s'.timing r).lastKnownQuiescence

/-- The queues that are not written. -/
theorem setSmr_ne {m' : M} {si : SmrInfo} (h : ¬ (r = c ∧ m' = m)) :
    (s.setSmr m c si).smrInfo m' r = s.smrInfo m' r := by
  by_cases hm : m' = m
  · subst hm
    have hc : r ≠ c := fun hc => h ⟨hc, rfl⟩
    simp [St.setSmr, hc]
  · simp [St.setSmr, hm]

/-- The queue that is written. -/
theorem setSmr_eq {si : SmrInfo} : (s.setSmr m c si).smrInfo m c = si := by simp [St.setSmr]

/-- A step leaves the queues of other cores alone. -/
theorem step_queues (h : step B s a = some s') (hr : r ≠ a.core) :
    s'.smrInfo m r = s.smrInfo m r := by
  cases a with
  | enter c now | free c m obj now =>
      simp only [step] at h
      split at h
      · split at h
        · cases h
          rfl
        · cases h
      · cases h
  | exit c | quiesce c tsc b =>
      simp only [step] at h
      split at h
      · cases h
        rfl
      · cases h
  | tick c now =>
      have hne : ∀ {si : SmrInfo} {m'}, (s.setSmr m' c si).smrInfo m r = s.smrInfo m r :=
        setSmr_ne fun h => hr h.1
      simp only [step] at h
      unfold tick at h
      split at h
      case h_1 => cases h
      case h_3 | h_12 =>
        obtain ⟨x, -, rfl⟩ := Option.map_eq_some_iff.mp h
        exact hne
      case h_11 =>
        obtain ⟨x, -, rfl⟩ := Option.map_eq_some_iff.mp h
        rfl
      case h_8 | h_9 =>
        simp only at h
        split at h <;> cases h <;> rfl
      all_goals
        cases h
        rfl

omit [DecidableEq M] in
/-- The `last_known_quiescence` that `ps_quiesce` ends with is no less than before, and in the
past. -/
theorem psQuiesceFinish_lkq (hA : Asks B s c q) (hl : (s.timing c).lastKnownQuiescence ≤ s.clock)
    {lkq : ℕ} (h : psQuiesceFinish N (s.timing c) q = some (lkq, p)) :
    (s.timing c).lastKnownQuiescence ≤ lkq ∧ lkq ≤ s.clock := by
  unfold psQuiesceFinish at h
  simp only at h
  split at h
  · rename_i hN
    have hlow := hA.low (by omega)
    have hle : (if q.inlibCurr = true ∧ q.minKnownQsc > (s.timing c).timeIn
        then (s.timing c).timeIn else q.minKnownQsc) ≤ q.minKnownQsc := by split <;> omega
    generalize (if q.inlibCurr = true ∧ q.minKnownQsc > (s.timing c).timeIn
      then (s.timing c).timeIn else q.minKnownQsc) = v at h hle
    split_ifs at h with hmax hlt
    · cases h
      exact ⟨hlt.le, hle.trans hlow⟩
    · cases h
      exact ⟨le_rfl, hl⟩
  · cases h
    exact ⟨le_rfl, hl⟩

/-- `last_known_quiescence` never falls. -/
theorem tick_lkq (hI : PointInv B s c) (h : tick B s c now = some s') :
    (s.timing c).lastKnownQuiescence ≤ (s'.timing c).lastKnownQuiescence := by
  have hpc := hI.pc
  unfold tick at h
  split at h
  case h_1 => cases h
  case h_2 t hp =>
    cases h
    simp [St.setPc, St.setSect, St.setTiming]
  case h_3 | h_12 =>
    obtain ⟨x, -, rfl⟩ := Option.map_eq_some_iff.mp h
    exact le_rfl
  case h_10 q hp =>
    rw [hp] at hpc
    cases h
    simpa [St.setPc, St.setTiming] using hpc.2
  case h_11 q hp =>
    rw [hp] at hpc
    obtain ⟨⟨lkq, p⟩, hf, rfl⟩ := Option.map_eq_some_iff.mp h
    simpa [St.setPc, St.setTiming] using (psQuiesceFinish_lkq hpc.1 hI.timing.lkq_le hf).1
  case h_8 | h_9 =>
    simp only at h
    split at h <;> cases h <;> exact le_rfl
  all_goals
    cases h
    exact le_rfl

/-- What every step leaves alone. -/
theorem step_moves (hI : PointInv B s a.core) (h : step B s a = some s') : Moves s s' a.core := by
  have hf := step_frame h
  refine ⟨hf, fun r hr m => step_queues h hr, fun r => ?_⟩
  by_cases hr : r = a.core
  swap
  · rw [hf.timing r hr]
  subst hr
  cases a with
  | enter c now | free c m obj now =>
      simp only [step] at h
      split at h
      · split at h
        · cases h
          exact le_rfl
        · cases h
      · cases h
  | exit c =>
      simp only [step] at h
      split at h
      · cases h
        simp [St.setSect, St.setTiming, Act.core]
      · cases h
  | quiesce c tsc b =>
      simp only [step] at h
      split at h
      · cases h
        exact le_rfl
      · cases h
  | tick c now => exact tick_lkq hI h

omit [DecidableEq M] in
/-- The invariant of a core that does not move. -/
theorem PointInv.mono (h : PointInv B s r) (hm : Moves s s' c) (hr : r ≠ c) : PointInv B s' r := by
  have ht := hm.timing r hr
  have hs := hm.sect r hr
  have hclk := hm.grows.clock
  refine ⟨h.timing.congr ht hs hclk, h.copies.congr (hm.timingOthers r hr) ?_ hclk, fun m => ?_, ?_⟩
  · rw [hm.pc r hr]
    exact fun _ h => h
  · rw [hm.queues r hr]
    exact (h.queues m).mono hclk
  · rw [hm.pc r hr]
    exact h.pc.congr ht hs (hm.queues r hr) hclk hm.lkq

end Step

/-! ## Every step keeps the invariant -/

section Steps

variable [DecidableEq M] {a : Act N M}

omit [DecidableEq M] in
/-- A core that only moves to another program point, outside of `__ps_timing_update_remote` before
and after. -/
theorem PointInv.setPc (h : PointInv B s c) (hu : ∀ r, ¬ Updating c (s.pc c) r)
    (hp : PointPc B s c p) : PointInv B (s.setPc c p) c := by
  refine ⟨h.timing.congr rfl rfl le_rfl, h.copies.congr rfl (fun r hr => absurd hr (hu r)) le_rfl,
    h.queues, ?_⟩
  simp only [St.setPc, update_self]
  exact hp.congr rfl rfl (fun _ => rfl) le_rfl fun _ => le_rfl

/-- A core that writes a queue of its own. -/
theorem PointInv.setSmr (h : PointInv B s c) (hu : ∀ r, ¬ Updating c (s.pc c) r) {si : SmrInfo}
    (hq : Queued B s.clock si) (hp : PointPc B (s.setSmr m c si) c p) :
    PointInv B ((s.setSmr m c si).setPc c p) c := by
  refine ⟨h.timing.congr rfl rfl le_rfl, h.copies.congr rfl (fun r hr => absurd hr (hu r)) le_rfl,
    fun m' => ?_, ?_⟩
  · by_cases hm : m' = m
    · subst hm
      show Queued B s.clock ((s.setSmr m' c si).smrInfo m' c)
      rwa [setSmr_eq]
    · have hne : (s.setSmr m c si).smrInfo m' c = s.smrInfo m' c := setSmr_ne fun h => hm h.2
      exact hne ▸ h.queues m'
  · simp only [St.setPc, update_self]
    exact hp.congr rfl rfl (fun _ => rfl) le_rfl fun _ => le_rfl

omit [DecidableEq M] in
/-- A core that writes its `last_known_quiescence`. -/
theorem PointInv.setLkq (h : PointInv B s c) (hu : ∀ r, ¬ Updating c (s.pc c) r) {lkq : ℕ}
    (hl : lkq ≤ s.clock)
    (hp : PointPc B (s.setTiming c { s.timing c with lastKnownQuiescence := lkq }) c p) :
    PointInv B ((s.setTiming c { s.timing c with lastKnownQuiescence := lkq }).setPc c p) c := by
  refine ⟨h.timing.setLkq hl ?_ rfl rfl, h.copies.congr rfl (fun r hr => absurd hr (hu r)) le_rfl,
    h.queues, ?_⟩
  · simp [St.setPc, St.setTiming]
  · simp only [St.setPc, update_self]
    exact hp.congr rfl rfl (fun _ => rfl) le_rfl fun _ => le_rfl

omit [DecidableEq M] in
/-- A reclamation goes on with a batch in its queue. -/
theorem pointPc_return (hh : OfHead B s c caller tsc)
    {ret : ℤ} {qsc : ℕ} : PointPc B s c (psQuiesceReturn caller ret qsc) := by
  cases caller with
  | none => trivial
  | some m => exact (hh m rfl).1.trans (Nat.le_add_left ..)

omit [DecidableEq M] in
/-- The start of `ps_quiesce`. -/
theorem psQuiesceStart_point (hh : OfHead B s c caller tsc) (b : Bool) :
    PointPc B s c (psQuiesceStart (s.timing c) caller tsc b) := by
  unfold psQuiesceStart
  simp only
  split
  · exact pointPc_return hh
  · rename_i hn
    refine ⟨le_rfl, c.pos, rfl, fun hin => ?_, .inl rfl, fun h2 => ?_, hh⟩
    · exact not_lt.mp fun hlt => hn ⟨hlt, hin⟩
    · exact absurd h2 (by simp)

omit [DecidableEq M] in
/-- A round of the loop that passes the test. -/
theorem Asks.next (h : Asks B s c q) (hC : CopiesInv s c) (hi : q.i < N)
    (hu : ¬ Updating c (s.pc c) (qscCpu c q.i))
    (hd : q.doneI (s.timingOthers c (qscCpu c q.i)) = true) :
    Asks B s c (q.next (s.timingOthers c (qscCpu c q.i))) := by
  have hle := hC.le _ hu
  have hin := hC.timeIn_le (qscCpu c q.i)
  have hup := hC.updated_le (qscCpu c q.i)
  simp only [Quiesce.doneI, Bool.or_eq_true, Bool.and_eq_true, decide_eq_true_eq] at hd
  have hmin := h.min
  refine ⟨Nat.le_add_left .., hi, h.inlib, h.late, ?_, fun _ => ?_, h.head⟩ <;>
    simp only [Quiesce.next] <;> split_ifs <;> omega

omit [DecidableEq M] in
/-- The loop body of `ps_quiesce`. -/
theorem psQuiesceScan_point (h : PointInv B s c) (hA : Asks B s c q)
    (hu : ∀ r, ¬ Updating c (s.pc c) r) :
    PointPc B s c (psQuiesceScan c (s.timing c) (s.timingOthers c) q) := by
  unfold psQuiesceScan
  simp only
  by_cases hi : q.i < N
  · rw [if_pos hi]
    split
    · rename_i hlt
      exact ⟨hA, fun _ => hlt⟩
    split
    · rename_i hd
      exact hA.next h.copies hi (hu _) hd
    split
    · exact ⟨⟨hA.pos, hA.le, hA.inlib, hA.late, hA.min, hA.low, hA.head⟩, hi⟩
    split
    · exact pointPc_return hA.head
    · exact ⟨hA, hi⟩
  · rw [if_neg hi]
    exact ⟨hA, fun h => absurd h hi⟩

omit [DecidableEq M] in
/-- The loads and the clock read of `__ps_timing_update_remote`. -/
theorem pointInv_updIn (h : PointInv B s c) (hr : TimingInv s (qscCpu c q.i))
    (hp : s.pc c = .updIn q) : PointInv B ((s.setOther c (qscCpu c q.i)
      { s.timingOthers c (qscCpu c q.i) with timeIn := (s.timing (qscCpu c q.i)).timeIn }).setPc c
      (.updOut q)) c := by
  have hpc := h.pc
  rw [hp] at hpc
  refine ⟨h.timing.congr rfl rfl le_rfl, ⟨fun r => ?_, fun r => ?_, fun r hu => ?_⟩, h.queues, ?_⟩
  · by_cases he : r = qscCpu c q.i
    · subst he
      simpa [St.setPc, St.setOther] using hr.timeIn_le
    · simpa [St.setPc, St.setOther, he] using h.copies.timeIn_le r
  · by_cases he : r = qscCpu c q.i
    · subst he
      simpa [St.setPc, St.setOther] using h.copies.updated_le _
    · simpa [St.setPc, St.setOther, he] using h.copies.updated_le r
  · have he : r ≠ qscCpu c q.i := fun e => hu ⟨q, .inl (by simp [St.setPc]), e.symm⟩
    have hold : ¬ Updating c (s.pc c) r := by
      rintro ⟨q', e | e, -⟩ <;> rw [hp] at e <;> cases e
    simpa [St.setPc, St.setOther, he] using h.copies.le r hold
  · simp only [St.setPc, update_self]
    exact ⟨hpc.1.congr rfl rfl (fun _ => rfl) le_rfl, hpc.2⟩

omit [DecidableEq M] in
/-- The load of `time_out`. -/
theorem pointInv_updOut (h : PointInv B s c) (hp : s.pc c = .updOut q) :
    PointInv B ((s.setOther c (qscCpu c q.i)
      { s.timingOthers c (qscCpu c q.i) with timeOut := (s.timing (qscCpu c q.i)).timeOut }).setPc c
      (.updTime q)) c := by
  have hpc := h.pc
  rw [hp] at hpc
  refine ⟨h.timing.congr rfl rfl le_rfl, ⟨fun r => ?_, fun r => ?_, fun r hu => ?_⟩, h.queues, ?_⟩
  · by_cases he : r = qscCpu c q.i
    · subst he
      simpa [St.setPc, St.setOther] using h.copies.timeIn_le _
    · simpa [St.setPc, St.setOther, he] using h.copies.timeIn_le r
  · by_cases he : r = qscCpu c q.i
    · subst he
      simpa [St.setPc, St.setOther] using h.copies.updated_le _
    · simpa [St.setPc, St.setOther, he] using h.copies.updated_le r
  · have he : r ≠ qscCpu c q.i := fun e => hu ⟨q, .inr (by simp [St.setPc]), e.symm⟩
    have hold : ¬ Updating c (s.pc c) r := by
      rintro ⟨q', e | e, hq⟩ <;> rw [hp] at e <;> cases e
      exact he hq.symm
    simpa [St.setPc, St.setOther, he] using h.copies.le r hold
  · simp only [St.setPc, update_self]
    exact ⟨hpc.1.congr rfl rfl (fun _ => rfl) le_rfl, hpc.2⟩

omit [DecidableEq M] in
/-- The read of the clock into `time_updated`. -/
theorem pointInv_updTime (h : PointInv B s c) (hp : s.pc c = .updTime q) (hlt : s.clock < now) :
    PointInv B (((s.setClock now).setOther c (qscCpu c q.i)
      { s.timingOthers c (qscCpu c q.i) with timeUpdated := now }).setPc c (.updLkqTest q)) c := by
  have hpc := h.pc
  rw [hp] at hpc
  refine ⟨h.timing.congr rfl rfl hlt.le, ⟨fun r => ?_, fun r => ?_, fun r hu => ?_⟩,
    fun m => (h.queues m).mono hlt.le, ?_⟩
  · by_cases he : r = qscCpu c q.i
    · subst he
      simpa [St.setPc, St.setOther, St.setClock] using (h.copies.timeIn_le _).trans hlt.le
    · simpa [St.setPc, St.setOther, St.setClock, he] using (h.copies.timeIn_le r).trans hlt.le
  · by_cases he : r = qscCpu c q.i
    · subst he
      simp [St.setPc, St.setOther, St.setClock]
    · simpa [St.setPc, St.setOther, St.setClock, he] using (h.copies.updated_le r).trans hlt.le
  · by_cases he : r = qscCpu c q.i
    · subst he
      simpa [St.setPc, St.setOther, St.setClock] using (h.copies.timeIn_le _).trans hlt.le
    · have hold : ¬ Updating c (s.pc c) r := by
        rintro ⟨q', e | e, hq⟩ <;> rw [hp] at e <;> cases e
        exact he hq.symm
      simpa [St.setPc, St.setOther, St.setClock, he] using h.copies.le r hold
  · simp only [St.setPc, update_self]
    exact ⟨hpc.1.congr rfl rfl (fun _ => rfl) hlt.le, hpc.2⟩

/-- A step of the function a core is in. -/
theorem tick_point (hI : ∀ r, PointInv B s r) (h : tick B s c now = some s') : PointInv B s' c := by
  have hc := hI c
  have hpc := hc.pc
  have hu : ∀ p, s.pc c = p → (∀ q, p ≠ .updOut q ∧ p ≠ .updTime q) →
      ∀ r, ¬ Updating c (s.pc c) r := by
    rintro p hp hne r ⟨q, e | e, -⟩
    · exact (hne q).1 (hp ▸ e)
    · exact (hne q).2 (hp ▸ e)
  unfold tick at h
  split at h
  case h_1 => cases h
  case h_2 t hp =>
    cases h
    rw [hp] at hpc
    obtain ⟨-, hlt, hle⟩ := hpc
    have hout := hc.timing.timeOut_le
    refine ⟨⟨?_, ?_, fun d hd => ?_, fun hd => ?_, ?_⟩, hc.copies.congr rfl (fun r hr => ?_) le_rfl,
      hc.queues, ?_⟩
    · simpa [St.setPc, St.setSect, St.setTiming] using hle
    · simp only [St.setPc, St.setSect, St.setTiming, update_self]
      omega
    · simp only [St.setPc, St.setSect, St.setTiming, update_self]
      omega
    · simp [St.setPc, St.setSect, St.setTiming] at hd
    · simpa [St.setPc, St.setSect, St.setTiming] using hc.timing.lkq_le
    · exact absurd hr (hu _ hp (by simp) r)
    · simp only [St.setPc, update_self]
      trivial
  case h_3 m it hp =>
    rw [hp] at hpc
    obtain ⟨p, hn, rfl⟩ := Option.map_eq_some_iff.mp h
    have hq := (hc.queues m).enqueue hpc.1 hpc.2
    refine hc.setSmr (hu _ hp (by simp)) hq ?_
    unfold psSmrFreeNext at hn
    split at hn
    · rename_i hge
      obtain ⟨a, ha, rfl⟩ := Option.map_eq_some_iff.mp hn
      intro m' hm
      cases hm
      rw [setSmr_eq]
      exact ⟨hq.cnt ▸ hq.target.trans hge, a, ha, rfl⟩
    · cases hn
      trivial
  case h_4 caller tsc b hp =>
    cases h
    rw [hp] at hpc
    exact hc.setPc (hu _ hp (by simp)) (psQuiesceStart_point hpc b)
  case h_5 q hp =>
    cases h
    rw [hp] at hpc
    exact hc.setPc (hu _ hp (by simp)) (psQuiesceScan_point hc hpc (hu _ hp (by simp)))
  case h_6 q hp =>
    cases h
    exact pointInv_updIn hc (hI _).timing hp
  case h_7 q hp =>
    cases h
    exact pointInv_updOut hc hp
  case h_8 q hp =>
    simp only at h
    split at h
    · rename_i hlt
      cases h
      exact pointInv_updTime hc hp hlt
    · cases h
  case h_9 q hp =>
    rw [hp] at hpc
    simp only at h
    split at h <;> cases h
    · rename_i hlt
      exact hc.setPc (hu _ hp (by simp)) ⟨hpc, hlt.le⟩
    · exact hc.setPc (hu _ hp (by simp)) hpc.1
  case h_10 q hp =>
    cases h
    rw [hp] at hpc
    refine hc.setLkq (hu _ hp (by simp)) (hI _).timing.lkq_le ?_
    refine hpc.1.1.congr ?_ ?_ (fun _ => rfl) le_rfl <;> simp [St.setTiming]
  case h_11 q hp =>
    rw [hp] at hpc
    obtain ⟨⟨lkq, p⟩, hf, rfl⟩ := Option.map_eq_some_iff.mp h
    refine hc.setLkq (hu _ hp (by simp)) (psQuiesceFinish_lkq hpc.1 hc.timing.lkq_le hf).2 ?_
    have hh : OfHead B (s.setTiming c { s.timing c with lastKnownQuiescence := lkq }) c q.caller
        q.timeCheck := hpc.1.head.congr fun _ => rfl
    rw [psQuiesceFinish_return hf]
    exact pointPc_return hh
  case h_12 m i qsc backlog hp =>
    rw [hp] at hpc
    obtain ⟨⟨si, p⟩, hr, rfl⟩ := Option.map_eq_some_iff.mp h
    refine hc.setSmr (hu _ hp (by simp)) ((hc.queues m).reclaim hr) ?_
    unfold psSmrReclaim at hr
    simp only at hr
    split at hr
    · split at hr
      · cases hr
      rename_i a rest hl
      split_ifs at hr
      · cases hr
        trivial
      · cases hr
        show B ≤ i + 1 + ((s.setSmr m c _).smrInfo m c).qscList.length
        rw [setSmr_eq]
        have hlen : B ≤ i + (s.smrInfo m c).qscList.length := hpc
        rw [hl, List.length_cons] at hlen
        simp only
        omega
    · cases hr
      trivial

/-- **Step lemma**: a step keeps the invariant of every core. -/
theorem pointInv_step (hI : ∀ r, PointInv B s r) (h : step B s a = some s') (r : Fin N) :
    PointInv B s' r := by
  by_cases hr : r = a.core
  swap
  · exact (hI r).mono (step_moves (hI _) h) hr
  subst hr
  have hc := hI a.core
  cases a with
  | enter c now =>
      simp only [step] at h
      split at h
      · rename_i hp hs
        split at h
        · rename_i hlt
          cases h
          refine ⟨hc.timing.congr rfl rfl hlt.le, hc.copies.congr rfl (fun r hr => ?_) hlt.le,
            fun m => (hc.queues m).mono hlt.le, ?_⟩
          · rw [Act.core, hp] at hr
            exact absurd hr (by rintro ⟨q, e | e, -⟩ <;> cases e)
          · simp only [St.setPc, Act.core, update_self]
            exact ⟨hs, hc.timing.timeIn_le.trans_lt hlt, le_rfl⟩
        · cases h
      · cases h
  | exit c =>
      simp only [step] at h
      split at h
      · rename_i d hp hs
        cases h
        refine ⟨⟨?_, ?_, ?_, fun _ => ?_, ?_⟩, hc.copies.congr rfl (fun r hr => hr) le_rfl, hc.queues,
          ?_⟩
        · simpa [St.setSect, St.setTiming, Act.core] using hc.timing.timeIn_le
        · simp [St.setSect, St.setTiming, Act.core]
        · simp [St.setSect, Act.core]
        · simp [St.setSect, St.setTiming, Act.core]
        · simpa [St.setSect, St.setTiming, Act.core] using hc.timing.lkq_le
        · show PointPc B _ c (s.pc c)
          rw [hp]
          trivial
      · cases h
  | free c m obj now =>
      simp only [step] at h
      split at h
      · rename_i hp
        split at h
        · rename_i hlt
          cases h
          refine ⟨hc.timing.congr rfl rfl hlt.le, hc.copies.congr rfl (fun r hr => ?_) hlt.le,
            fun m => (hc.queues m).mono hlt.le, ?_⟩
          · rw [Act.core, hp] at hr
            exact absurd hr (by rintro ⟨q, e | e, -⟩ <;> cases e)
          · simp only [St.setPc, Act.core, update_self]
            exact ⟨Nat.ne_of_gt (Nat.zero_lt_of_lt hlt), le_rfl⟩
        · cases h
      · cases h
  | quiesce c tsc b =>
      simp only [step] at h
      split at h
      · rename_i hp
        cases h
        refine hc.setPc (fun r => ?_) ofHead_none
        rw [Act.core, hp]
        rintro ⟨q, e | e, -⟩ <;> cases e
      · cases h
  | tick c now => exact tick_point hI h

omit [DecidableEq M] in
/-- The invariant of a parsec that has just been initialised. -/
theorem pointInv_psInit (B now : ℕ) (r : Fin N) : PointInv B (psInit N M B now) r := by
  refine ⟨⟨le_rfl, le_rfl, fun d hd => (by cases hd), fun _ => Nat.lt_succ_self _, le_rfl⟩,
    ⟨fun _ => le_rfl, fun _ => le_rfl, fun _ _ => le_rfl⟩, fun m => ⟨rfl, le_rfl, ?_, ?_⟩, trivial⟩
  · intro a ha
    cases ha
  · intro a ha
    cases ha

/-- **The invariant holds along every run.** -/
theorem pointInv_of_reach {G : St N M → Act N M → Prop} (h : (lts N M B).Reach G s) (r : Fin N) :
    PointInv B s r := by
  refine Lts.invariant (L := lts N M B) (I := fun s => ∀ r, PointInv B s r) ?_ ?_ h r
  · rintro s ⟨now, rfl⟩
    exact pointInv_psInit B now
  · exact fun s a s' hI _ hs => pointInv_step hI hs

end Steps

end Parsec.Smr
