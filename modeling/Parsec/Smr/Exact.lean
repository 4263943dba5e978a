import Mathlib.Data.List.Nodup
import Parsec.Smr.Scan

/-!
# Non-blocking quiescence is exact

* `Asking` — core `c` is about to run `ps_quiesce`, by itself or in a reclamation.
* `timed_of_calls` — between calls the timing of a core tells whether it is inside a section.
* `psTryQuiesce_exact` — what a call of `ps_try_quiesce` returns is decided by the sections that the
  cores are inside, whatever the cached copies hold.
-/

namespace Parsec.Smr

open Function Lib

variable {N : ℕ} {M : Type} [DecidableEq M] {s s' : St N M} {c r : Fin N} {clk : Clock}
  {q : Quiesce M} {us : List (Fin N)} {R : Quiesced N M} {k B tsc : ℕ} {caller : Option M} {b : Bool}

/-! ## A call -/

/-- Core `c` is about to run `ps_quiesce`. -/
structure Asking (B : ℕ) (s : St N M) (c : Fin N) (caller : Option M) (tsc : ℕ) (b : Bool) : Prop where
  reach : (lts N M B).Reach Settled (s.setPc c (.quiesceStart caller tsc b))
  timed : Timed s

/-- The invariant of each core when the call starts. -/
theorem Asking.core (h : Asking B s c caller tsc b) (r : Fin N) :
    CoreInv (s.setPc c (.quiesceStart caller tsc b)) r :=
  coreInv_of_reach h.reach r

/-- What each core knows is quiescent. -/
theorem Asking.quiescent (h : Asking B s c caller tsc b) (r : Fin N) :
    Quiescent s (s.timing r).lastKnownQuiescence := (h.core r).lkq

/-- A core is in the library by its timing iff it is inside a section. -/
theorem Asking.inlib_iff (h : Asking B s c caller tsc b) :
    psInLib (s.timing c) = true ↔ ∃ d, s.sect c = some d :=
  psInLib_iff (s := s.setPc c (.quiesceStart caller tsc b)) (r := c)
    ⟨h.timed.inside, h.timed.outside, h.timed.le, h.timed.copies⟩ h.core

/-- The test at the start of `ps_quiesce`. -/
theorem Asking.start_iff (h : Asking B s c caller tsc b) :
    (tsc > (s.timing c).timeIn ∧ psInLib (s.timing c) = true) ↔ ∃ d, s.sect c = some d ∧ d < tsc := by
  constructor
  · rintro ⟨hlt, hl⟩
    obtain ⟨d, hd⟩ := h.inlib_iff.mp hl
    exact ⟨d, hd, h.timed.inside c d hd ▸ hlt⟩
  · rintro ⟨d, hd, hlt⟩
    exact ⟨(h.timed.inside c d hd).symm ▸ hlt, h.inlib_iff.mpr ⟨d, hd⟩⟩

/-- The locals of `ps_quiesce` at the head of its loop, the first time. -/
def startScan (s : St N M) (c : Fin N) (caller : Option M) (tsc : ℕ) (b : Bool) : Quiesce M :=
  { timeCheck := tsc, blocking := b, inlibCurr := psInLib (s.timing c), minKnownQsc := tscMax,
    i := 1, firstTry := true, qsc := (s.timing c).lastKnownQuiescence, caller := caller }

/-- The loop starts with nothing found. -/
theorem Asking.scanning (h : Asking B s c caller tsc b) (hn : ¬ ∃ d, s.sect c = some d ∧ d < tsc) :
    Scanning B s c (startScan s c caller tsc b) := by
  refine ⟨?_, h.timed, le_rfl, c.pos⟩
  have hs : (lts N M B).Reach Settled (s.setPc c (psQuiesceStart (s.timing c) caller tsc b)) := by
    refine h.reach.step (a := .tick c 0) (fun q' hq' => ?_) ?_
    · simp [Pc.atClockRead, St.setPc] at hq'
    · simp [lts, step, tick, St.setPc]
  unfold psQuiesceStart at hs
  simp only at hs
  rwa [if_neg (mt h.start_iff.mp hn)] at hs

/-- A caller inside a section that it entered before the time is refused. -/
theorem Asking.eq_late (h : Asking B s c caller tsc b) (hl : ∃ d, s.sect c = some d ∧ d < tsc) :
    psQuiesce clk k s c caller tsc b =
      some ⟨negEQUIESCENCE, (s.timing c).lastKnownQuiescence, [], s⟩ := by
  unfold psQuiesce
  simp only
  rw [if_pos (h.start_iff.mpr hl)]

/-- Any other call goes on to the loop. -/
theorem Asking.eq_loop (h : Asking B s c caller tsc b) (hn : ¬ ∃ d, s.sect c = some d ∧ d < tsc) :
    psQuiesce clk k s c caller tsc b =
      psQuiesceLoop clk c k s (startScan s c caller tsc b) [] := by
  unfold psQuiesce
  simp only
  rw [if_neg (mt h.start_iff.mp hn)]
  rfl

omit [DecidableEq M] in
/-- The rounds of the loop are the other cores. -/
theorem exists_round {p : Fin N → Prop} :
    (∃ j, 1 ≤ j ∧ j < N ∧ p (qscCpu c j)) ↔ ∃ r, r ≠ c ∧ p r := by
  constructor
  · rintro ⟨j, h₁, h₂, hp⟩
    exact ⟨_, qscCpu_ne h₁ h₂, hp⟩
  · rintro ⟨r, hr, hp⟩
    obtain ⟨j, h₁, h₂, rfl⟩ := exists_qscCpu_eq hr
    exact ⟨j, h₁, h₂, hp⟩

/-- A call that returns 0 found every other core outside of the sections in question. -/
theorem Asking.outside_of_zero (h : Asking B s c caller tsc b)
    (hR : psQuiesce clk k s c caller tsc b = some R) (h₀ : R.ret = 0) :
    (¬ ∃ d, s.sect c = some d ∧ d < tsc) ∧ ¬ ∃ r, r ≠ c ∧ Inside s r tsc := by
  have hn : ¬ ∃ d, s.sect c = some d ∧ d < tsc := by
    intro hl
    rw [h.eq_late hl] at hR
    cases hR
    cases h₀
  refine ⟨hn, ?_⟩
  rw [h.eq_loop hn] at hR
  rw [← exists_round (p := fun r => Inside s r tsc)]
  rintro ⟨j, h₁, h₂, hin⟩
  exact loop_zero (h.scanning hn) hR h₀ j h₁ h₂ hin

/-- The time that a reclamation is told has quiesced, whatever is returned. -/
theorem Asking.qsc_le {m : M} (h : Asking B s c (some m) tsc b)
    (hR : psQuiesce clk k s c (some m) tsc b = some R) {d : ℕ} (hd : s.sect r = some d) :
    R.qsc ≤ d := by
  have hpc := (coreInv_of_reach (reach_quiesce h.reach hR) c).pc
  have hq : Quiescent (R.st.setPc c (psQuiesceReturn (some m) R.ret R.qsc)) R.qsc := by
    simpa [St.setPc, psQuiesceReturn, PcInv] using hpc
  exact hq.2 r d ((congrFun (psQuiesce_same hR).2.2 r).trans hd)

/-- **Non-blocking quiescence**, from a point where core `c` is about to ask for it. -/
theorem Asking.exact (clk : Clock) (h : Asking B s c caller tsc false) (htsc : tsc ≤ s.clock)
    (hmax : clk.read^[N] s.clock < tscMax) :
    ∃ R, psTryQuiesce clk s c caller tsc = some R ∧
      (R.ret = negEQUIESCENCE ↔ ∃ d, s.sect c = some d ∧ d < tsc) ∧
      (R.ret ≠ negEQUIESCENCE → (R.ret = 0 ↔ ¬ ∃ r, r ≠ c ∧ Inside s r tsc) ∧
        (R.ret = -1 ↔ ∃ r, r ≠ c ∧ Inside s r tsc)) ∧
      R.updates.Nodup ∧ ∀ r ∈ R.updates, r ≠ c := by
  by_cases hl : ∃ d, s.sect c = some d ∧ d < tsc
  · exact ⟨_, h.eq_late hl, by simp [hl], fun hne => absurd rfl hne, List.nodup_nil, by simp⟩
  have hS := h.scanning hl
  have hleft : refreshesLeft N (startScan s c caller tsc false) ≤ N := by
    simp only [refreshesLeft, startScan]
    omega
  have hpos := c.pos
  obtain ⟨R, js, hR, hus, hnd, hjs⟩ := loop_total clk [] (k := 2 * N) hS htsc
    ((clk.iterate_le _ hleft).trans_lt hmax) (fun hf => by cases hf) (.inl rfl)
    (by simp only [startScan, if_true]; omega)
  have hR' : psTryQuiesce clk s c caller tsc = some R := (h.eq_loop hl).trans hR
  have hret : R.ret = 0 ∨ R.ret = -1 := by
    by_cases h₀ : R.ret = 0
    · exact .inl h₀
    · exact .inr (loop_ne_zero h.timed htsc (fun hf => by cases hf) hR h₀).1
  have hneg : R.ret = -1 → ∃ r, r ≠ c ∧ Inside s r tsc := by
    intro h₁
    have hz : R.ret ≠ 0 := by rw [h₁]; decide
    exact exists_round.mp (loop_ne_zero h.timed htsc (fun hf => by cases hf) hR hz).2
  have hzero : R.ret = 0 → ¬ ∃ r, r ≠ c ∧ Inside s r tsc := fun h₀ =>
    (h.outside_of_zero hR' h₀).2
  refine ⟨R, hR', ?_, fun _ => ⟨⟨hzero, ?_⟩, ⟨hneg, ?_⟩⟩, ?_, ?_⟩
  · constructor
    · intro he
      rcases hret with hr | hr <;> rw [hr] at he <;> cases he
    · exact fun hl' => absurd hl' hl
  · exact fun hno => hret.resolve_right fun h₁ => hno (hneg h₁)
  · exact fun hex => hret.resolve_left fun h₀ => hzero h₀ hex
  · rw [hus, List.nil_append]
    refine List.Nodup.map_on (fun i hi j hj he => ?_) hnd
    exact qscCpu_inj (hjs i hi).2.1 (hjs j hj).2.1 he
  · intro r hr
    rw [hus, List.nil_append] at hr
    obtain ⟨j, hj, rfl⟩ := List.mem_map.mp hr
    exact qscCpu_ne (hjs j hj).1 (hjs j hj).2.1

/-! ## Between calls -/

section Timed

omit [DecidableEq M]

/-- What a call of `ps_quiesce` leaves: only the clock, the copies of the calling core and its
`last_known_quiescence` change, and the last one does not fall. -/
structure Later (s s' : St N M) (c : Fin N) : Prop where
  clock : s.clock ≤ s'.clock
  sect : s'.sect = s.sect
  smrInfo : s'.smrInfo = s.smrInfo
  others : ∀ r, r ≠ c → s'.timing r = s.timing r
  lkq : (s.timing c).lastKnownQuiescence ≤ (s'.timing c).lastKnownQuiescence
  timed : Timed s → Timed s'

/-- Nothing happens. -/
theorem Later.refl (s : St N M) (c : Fin N) : Later s s c :=
  ⟨le_rfl, rfl, rfl, fun _ _ => rfl, le_rfl, id⟩

/-- What one call leaves alone, and the next. -/
theorem Later.trans {s₁ s₂ s₃ : St N M} (h : Later s₁ s₂ c) (h' : Later s₂ s₃ c) : Later s₁ s₃ c :=
  ⟨h.clock.trans h'.clock, h'.sect.trans h.sect, h'.smrInfo.trans h.smrInfo,
    fun r hr => (h'.others r hr).trans (h.others r hr), h.lkq.trans h'.lkq, h'.timed ∘ h.timed⟩

/-- A refresh is of one copy. -/
theorem later_update (r : Fin N) : Later s (psTimingUpdateRemote clk s c r) c where
  clock := by
    rw [update_clock]
    exact (clk.lt_read _).le
  sect := update_sect
  smrInfo := by
    unfold psTimingUpdateRemote
    simp only
    split <;> rfl
  others := fun r' h => update_timing_ne h
  lkq := by
    rw [update_lkq]
    exact le_max_left _ _
  timed := Timed.update clk

/-- `last_known_quiescence` is raised. -/
theorem later_setLkq {v : ℕ} (h : (s.timing c).lastKnownQuiescence ≤ v) :
    Later s (s.setTiming c { s.timing c with lastKnownQuiescence := v }) c where
  clock := le_rfl
  sect := rfl
  smrInfo := rfl
  others := fun r hr => update_of_ne hr _ _
  lkq := by simpa [St.setTiming] using h
  timed := by
    intro hT
    have hin : ∀ r, ((s.setTiming c { s.timing c with lastKnownQuiescence := v }).timing r).timeIn =
          (s.timing r).timeIn ∧
        ((s.setTiming c { s.timing c with lastKnownQuiescence := v }).timing r).timeOut =
          (s.timing r).timeOut := by
      intro r
      by_cases hr : r = c
      · subst hr
        simp [St.setTiming]
      · simp [St.setTiming, hr]
    constructor
    · intro r d hd
      rw [(hin r).1]
      exact hT.inside r d hd
    · intro r hn
      rw [(hin r).1, (hin r).2]
      exact hT.outside r hn
    · intro r
      rw [(hin r).1]
      exact hT.le r
    · exact hT.copies

/-- What the end of `ps_quiesce` leaves alone. -/
theorem later_end (h : psQuiesceEnd s c q us = some R) : Later s R.st c := by
  unfold psQuiesceEnd at h
  simp only at h
  generalize (if q.inlibCurr = true ∧ q.minKnownQsc > (s.timing c).timeIn
    then (s.timing c).timeIn else q.minKnownQsc) = m at h
  split_ifs at h with h₁ h₂ h₃ <;> cases h
  · exact later_setLkq h₃.le
  · exact .refl s c
  · exact .refl s c

/-- What the loop of `ps_quiesce` leaves alone. -/
theorem later_loop (h : psQuiesceLoop clk c k s q us = some R) : Later s R.st c := by
  induction k generalizing s q us with
  | zero => cases h
  | succ k ih =>
      unfold psQuiesceLoop at h
      simp only at h
      split_ifs at h
      · exact later_end h
      · exact ih h
      · exact (later_update _).trans (ih h)
      · cases h
        exact .refl s c
      · exact later_end h

/-- What `ps_quiesce` leaves alone. -/
theorem later_quiesce (h : psQuiesce clk k s c caller tsc b = some R) : Later s R.st c := by
  unfold psQuiesce at h
  simp only at h
  split_ifs at h
  · cases h
    exact .refl s c
  · exact later_loop h

/-- Time goes on. -/
theorem Timed.setClock (h : Timed s) {now : ℕ} (hle : s.clock ≤ now) : Timed (s.setClock now) :=
  ⟨h.inside, h.outside, fun r => (h.le r).trans hle, h.copies⟩

/-- A core enters a section. -/
theorem Timed.enter (h : Timed s) {now : ℕ} (hle : s.clock ≤ now) :
    Timed (((s.setClock now).setTiming c { s.timing c with timeIn := now }).setSect c (some now)) := by
  constructor
  · intro r d hd
    by_cases hr : r = c
    · subst hr
      simpa [St.setSect, St.setTiming, St.setClock] using hd
    · simp only [St.setSect, St.setTiming, St.setClock, update_of_ne hr] at hd ⊢
      exact h.inside r d hd
  · intro r hn
    by_cases hr : r = c
    · subst hr
      simp [St.setSect] at hn
    · simp only [St.setSect, St.setTiming, St.setClock, update_of_ne hr] at hn ⊢
      exact h.outside r hn
  · intro r
    by_cases hr : r = c
    · subst hr
      simp [St.setSect, St.setTiming, St.setClock]
    · simp only [St.setSect, St.setTiming, St.setClock, update_of_ne hr]
      exact (h.le r).trans hle
  · exact h.copies

/-- A core leaves its section. -/
theorem Timed.exit (h : Timed s) :
    Timed ((s.setTiming c { s.timing c with timeOut := (s.timing c).timeIn + 1 }).setSect c none) := by
  constructor
  · intro r d hd
    by_cases hr : r = c
    · subst hr
      simp [St.setSect] at hd
    · simp only [St.setSect, St.setTiming, update_of_ne hr] at hd ⊢
      exact h.inside r d hd
  · intro r hn
    by_cases hr : r = c
    · subst hr
      simp [St.setSect, St.setTiming]
    · simp only [St.setSect, St.setTiming, update_of_ne hr] at hn ⊢
      exact h.outside r hn
  · intro r
    by_cases hr : r = c
    · subst hr
      simpa [St.setSect, St.setTiming] using h.le r
    · simp only [St.setSect, St.setTiming, update_of_ne hr]
      exact h.le r
  · exact h.copies

end Timed

/-- Queues do not matter to the timing. -/
theorem Timed.setSmr (h : Timed s) (m : M) (c : Fin N) (si : SmrInfo) : Timed (s.setSmr m c si) :=
  ⟨h.inside, h.outside, h.le, h.copies⟩

/-- The parts of a reclamation. -/
theorem exists_of_psReclaim {m : M} {l : List Item} (h : psReclaim clk B s m c = some (l, s')) :
    ∃ a R si backlog, (s.smrInfo m c).qscList.head? = some a ∧
      psTryQuiesce clk s c (some m) a.tscFree = some R ∧
      psBatchLoop R.qsc B (s.smrInfo m c) (decide (R.ret ≠ 0)) = some (l, si, backlog) ∧
      s' = R.st.setSmr m c
        { si with qmemtarget := if backlog then si.qmemtarget + B else si.qmemtarget } := by
  unfold psReclaim at h
  obtain ⟨a, ha, h⟩ := Option.bind_eq_some_iff.mp h
  obtain ⟨R, hR, h⟩ := Option.bind_eq_some_iff.mp h
  obtain ⟨⟨l', si, backlog⟩, hb, h⟩ := Option.bind_eq_some_iff.mp h
  cases h
  rw [(later_quiesce hR).smrInfo] at hb
  exact ⟨a, R, si, backlog, ha, hR, hb, rfl⟩

/-- A free is a read of the clock. -/
theorem Timed.enqueued (h : Timed s) {m : M} {obj : ℕ} : Timed (enqueued clk s m c obj) :=
  (h.setClock (clk.lt_read _).le).setSmr _ _ _

/-- Reclaiming leaves the timing in order. -/
theorem Timed.psReclaim (h : Timed s) {m : M} {l : List Item}
    (hr : psReclaim clk B s m c = some (l, s')) : Timed s' := by
  obtain ⟨a, R, si, backlog, -, hR, -, rfl⟩ := exists_of_psReclaim hr
  exact ((later_quiesce hR).timed h).setSmr _ _ _

/-- A call leaves the timing in order. -/
theorem Timed.call {a : Call N M × Clock} (h : Timed s) (hs : call B s a = some s') : Timed s' := by
  obtain ⟨a, clk⟩ := a
  cases a with
  | enter c =>
      simp only [Smr.call] at hs
      split at hs
      · cases hs
        exact h.enter (clk.lt_read _).le
      · cases hs
  | exit c =>
      simp only [Smr.call] at hs
      split at hs
      · cases hs
        exact h.exit
      · cases hs
  | tryQuiesce c tsc =>
      obtain ⟨R, hR, rfl⟩ := Option.map_eq_some_iff.mp hs
      exact (later_quiesce hR).timed h
  | quiesceWait c tsc k =>
      obtain ⟨R, hR, rfl⟩ := Option.map_eq_some_iff.mp hs
      exact (later_quiesce hR).timed h
  | smrFree c m obj =>
      obtain ⟨⟨l, s'⟩, hR, rfl⟩ := Option.map_eq_some_iff.mp hs
      rw [psSmrFree_eq] at hR
      split at hR
      · exact h.enqueued.psReclaim hR
      · cases hR
        exact h.enqueued

/-- The timing is in order along every run of calls. -/
theorem timed_of_calls (h : (calls N M B).Reach (fun _ _ => True) s) : Timed s := by
  refine Lts.invariant (fun s hs => ?_) (fun s a s' hI _ hs => hI.call hs) h
  obtain ⟨now, rfl⟩ := hs
  constructor
  · intro r d hd
    cases hd
  · intro r _
    exact Nat.lt_succ_self now
  · intro r
    exact le_rfl
  · intro c r
    exact le_rfl

/-- Between calls every core may ask. -/
theorem asking_of_calls (h : (calls N M B).Reach (fun _ _ => True) s) (c : Fin N) (tsc : ℕ) (b : Bool) :
    Asking B s c none tsc b := by
  obtain ⟨hr, hpc⟩ := reach_of_calls h
  refine ⟨hr.step (a := .quiesce c tsc b) trivial ?_, timed_of_calls h⟩
  simp [lts, step, hpc]

/-- So may a core whose free starts a reclamation. -/
theorem asking_of_enqueued {m : M} {obj : ℕ} {a : Item} (h : (calls N M B).Reach (fun _ _ => True) s)
    (ht : Triggers s m c) (ha : ((enqueued clk s m c obj).smrInfo m c).qscList.head? = some a) :
    Asking B (enqueued clk s m c obj) c (some m) a.tscFree false := by
  obtain ⟨hr, hpc⟩ := reach_of_calls h
  refine ⟨reach_enqueued _ _ hr (hpc c) ?_, (timed_of_calls h).enqueued⟩
  have hge : ((enqueued clk s m c obj).smrInfo m c).qmemcnt ≥
      ((enqueued clk s m c obj).smrInfo m c).qmemtarget := by
    rw [enqueued_smrInfo]
    exact ht
  rw [psSmrFreeNext, if_pos hge, ha]
  rfl

/-! ## The result -/

/-- **Non-blocking quiescence is exact.** After any run of calls, for a time `tsc` that the clock has
shown, `ps_try_quiesce` returns `-EQUIESCENCE` if and only if the caller is inside a section that it
entered before `tsc`; otherwise 0 if and only if no other core is inside a section entered at `tsc` or
before, and -1 if and only if one is. It loads the timing of every other core once at most. The
clock stays below its largest value in the call. -/
theorem psTryQuiesce_exact (h : (calls N M B).Reach (fun _ _ => True) s) (htsc : tsc ≤ s.clock)
    (hmax : clk.read^[N] s.clock < tscMax) :
    ∃ R, psTryQuiesce clk s c none tsc = some R ∧
      (R.ret = negEQUIESCENCE ↔ ∃ d, s.sect c = some d ∧ d < tsc) ∧
      (R.ret ≠ negEQUIESCENCE → (R.ret = 0 ↔ ¬ ∃ r, r ≠ c ∧ Inside s r tsc) ∧
        (R.ret = -1 ↔ ∃ r, r ≠ c ∧ Inside s r tsc)) ∧
      R.updates.Nodup ∧ ∀ r ∈ R.updates, r ≠ c :=
  (asking_of_calls h c tsc false).exact _ htsc hmax

/-- Core 1 has left the section that core 0 has a copy of, and is inside the next one. -/
theorem psTryQuiesce_exact_stale : ∃ s, (calls 2 Unit 1).Reach (fun _ _ => True) s ∧
    s.sect 1 = some 8 ∧ (s.timingOthers 0 1).timeIn = 6 ∧
    ∃ R, psTryQuiesce .ticks s 0 none 8 = some R ∧ R.ret = -1 := by
  have h₀ : (calls 2 Unit 1).init (psInit 2 Unit 1 5) := ⟨5, rfl⟩
  obtain ⟨s, hs, hp⟩ := Lts.exists_reach_of_execWhen (G := fun _ _ => True) h₀
    [(.enter 1, .ticks), (.tryQuiesce 0 5, .ticks), (.exit 1, .ticks), (.enter 1, .ticks)]
    (p := fun s => s.sect 0 = none ∧ s.sect 1 = some 8 ∧ (s.timingOthers 0 1).timeIn = 6 ∧
      s.clock = 8) (by decide)
  obtain ⟨hout, hin, hcopy, hclock⟩ := of_decide_eq_true hp
  have hmax : Clock.ticks.read^[2] s.clock < tscMax := by
    rw [hclock]
    decide
  obtain ⟨R, hR, hret, hexact, -⟩ := psTryQuiesce_exact (c := 0) hs hclock.ge hmax
  refine ⟨s, hs, hin, hcopy, R, hR, ?_⟩
  have hne : R.ret ≠ negEQUIESCENCE := fun he => by
    obtain ⟨d, hd, -⟩ := hret.mp he
    rw [hout] at hd
    cases hd
  exact (hexact hne).2.mpr ⟨1, by decide, 8, hin, le_rfl⟩

end Parsec.Smr
