import Parsec.Smr.Atomic

/-!
# The scan of `ps_quiesce`

What one undisturbed pass over the other cores finds, in a state between calls.

* `Timed` — the timing of every core tells whether it is inside a section, and since when.
* `CopyDone` — a cached copy shows another core quiescent, without a look at the core itself.
* `loop_zero` — the loop returns 0 only if no core it looks at is inside a section entered at the time
  in question or before, and what it then reports; `loop_ne_zero` — otherwise one is; `loop_total` —
  it returns, and looks at every core's memory once at most.
-/

namespace Parsec.Smr

open Function Lib

variable {N : ℕ} {M : Type} {s s' : St N M} {c r : Fin N} {clk : Clock} {q : Quiesce M}
  {us : List (Fin N)} {R : Quiesced N M} {k B : ℕ}

/-! ## States between calls -/

/-- The timing of a core is that of its section, if it is inside one, and says that it is outside
otherwise. A copy is not of a later time than it was made. -/
structure Timed (s : St N M) : Prop where
  inside : ∀ r d, s.sect r = some d → (s.timing r).timeIn = d
  outside : ∀ r, s.sect r = none → (s.timing r).timeIn < (s.timing r).timeOut
  le : ∀ r, (s.timing r).timeIn ≤ s.clock
  copies : ∀ c r, (s.timingOthers c r).timeIn ≤ (s.timingOthers c r).timeUpdated

/-- The cached copy of core `r` shows it quiescent for `tsc`. -/
def CopyDone (s : St N M) (c r : Fin N) (tsc : ℕ) : Prop :=
  tsc < (s.timingOthers c r).timeIn ∨ (tsc < (s.timingOthers c r).timeUpdated ∧
    (s.timingOthers c r).timeIn < (s.timingOthers c r).timeOut)

/-- The test of a copy. -/
theorem doneI_iff : q.doneI (s.timingOthers c r) = true ↔ CopyDone s c r q.timeCheck := by
  simp [Quiesce.doneI, CopyDone]

/-- Core `r` is inside a section that it entered at `tsc` or before. -/
def Inside (s : St N M) (r : Fin N) (tsc : ℕ) : Prop := ∃ d, s.sect r = some d ∧ d ≤ tsc

/-- Core `c` has just refreshed its copy of core `r`. -/
def Refreshed (s : St N M) (c r : Fin N) (tsc : ℕ) : Prop :=
  (s.timingOthers c r).timeIn = (s.timing r).timeIn ∧
    (s.timingOthers c r).timeOut = (s.timing r).timeOut ∧ tsc < (s.timingOthers c r).timeUpdated

/-- A copy that has been refreshed and does not pass the test is of a core inside a section. -/
theorem Timed.inside_of_refreshed (hT : Timed s) {tsc : ℕ} (h : Refreshed s c r tsc)
    (hd : ¬ CopyDone s c r tsc) : Inside s r tsc := by
  obtain ⟨h₁, h₂, h₃⟩ := h
  unfold CopyDone at hd
  rw [h₁, h₂] at hd
  obtain ⟨hin, hout⟩ := not_or.mp hd
  cases hs : s.sect r with
  | none => exact absurd ⟨h₃, hT.outside r hs⟩ hout
  | some d =>
      have := hT.inside r d hs
      exact ⟨d, hs, by omega⟩

/-- A core is in the library by its timing iff it is inside a section. -/
theorem psInLib_iff (hT : Timed s) (hI : ∀ r, CoreInv s r) :
    psInLib (s.timing r) = true ↔ ∃ d, s.sect r = some d := by
  constructor
  · intro h
    cases hs : s.sect r with
    | none =>
        have := hT.outside r hs
        have := of_decide_eq_true h
        omega
    | some d => exact ⟨d, rfl⟩
  · rintro ⟨d, hd⟩
    exact (hI r).psInLib_eq hd

/-! ## A refresh -/

/-- The rounds look at different cores. -/
theorem qscCpu_inj {i j : ℕ} (hi : i < N) (hj : j < N) (h : qscCpu c i = qscCpu c j) : i = j := by
  have hc := c.isLt
  have hval : ∀ k, k < N → (qscCpu c k).val = if c.val + k < N then c.val + k else c.val + k - N := by
    intro k hk
    unfold qscCpu
    simp only
    split
    · rename_i hlt
      exact Nat.mod_eq_of_lt hlt
    · rw [Nat.mod_eq_sub_mod (by omega), Nat.mod_eq_of_lt (by omega)]
  have hij : (qscCpu c i).val = (qscCpu c j).val := congrArg Fin.val h
  rw [hval i hi, hval j hj] at hij
  split at hij <;> split at hij <;> omega

/-- A refresh reads the clock. -/
theorem update_clock : (psTimingUpdateRemote clk s c r).clock = clk.read s.clock := by
  unfold psTimingUpdateRemote
  simp only
  split <;> rfl

/-- A refresh leaves the sections alone. -/
theorem update_sect : (psTimingUpdateRemote clk s c r).sect = s.sect := by
  unfold psTimingUpdateRemote
  simp only
  split <;> rfl

/-- A refresh writes one copy. -/
theorem update_others : (psTimingUpdateRemote clk s c r).timingOthers = update s.timingOthers c
    (update (s.timingOthers c) r ⟨(s.timing r).timeIn, (s.timing r).timeOut, clk.read s.clock⟩) := by
  unfold psTimingUpdateRemote
  simp only
  split <;> rfl

/-- A refresh leaves the times of all sections alone. -/
theorem update_timing (r' : Fin N) :
    ((psTimingUpdateRemote clk s c r).timing r').timeIn = (s.timing r').timeIn ∧
    ((psTimingUpdateRemote clk s c r).timing r').timeOut = (s.timing r').timeOut := by
  unfold psTimingUpdateRemote
  simp only
  split
  · by_cases h : r' = c
    · subst h
      simp [St.setTiming, St.setOther, St.setClock]
    · simp [St.setTiming, St.setOther, St.setClock, h]
  · exact ⟨rfl, rfl⟩

/-- A refresh leaves the timing of other cores alone. -/
theorem update_timing_ne {r' : Fin N} (h : r' ≠ c) :
    (psTimingUpdateRemote clk s c r).timing r' = s.timing r' := by
  unfold psTimingUpdateRemote
  simp only
  split
  · simp [St.setTiming, St.setOther, St.setClock, h]
  · rfl

/-- A refresh takes the later `last_known_quiescence` over. -/
theorem update_lkq : ((psTimingUpdateRemote clk s c r).timing c).lastKnownQuiescence =
    max (s.timing c).lastKnownQuiescence (s.timing r).lastKnownQuiescence := by
  unfold psTimingUpdateRemote
  simp only
  split
  · rename_i h
    have h : (s.timing c).lastKnownQuiescence < (s.timing r).lastKnownQuiescence := h
    simp [St.setTiming, St.setOther, St.setClock, max_eq_right h.le]
  · rename_i h
    exact (max_eq_left (not_lt.mp h)).symm

/-- A refresh leaves the timing in order. -/
theorem Timed.update (clk : Clock) (hT : Timed s) : Timed (psTimingUpdateRemote clk s c r) := by
  constructor
  · intro r' d hd
    rw [update_sect] at hd
    rw [(update_timing r').1]
    exact hT.inside r' d hd
  · intro r' hn
    rw [update_sect] at hn
    rw [(update_timing r').1, (update_timing r').2]
    exact hT.outside r' hn
  · intro r'
    rw [(update_timing r').1, update_clock]
    exact (hT.le r').trans (clk.lt_read _).le
  · intro c' r'
    rw [update_others]
    by_cases hc : c' = c
    · subst hc
      rw [update_self]
      by_cases hr : r' = r
      · subst hr
        rw [update_self]
        exact (hT.le r').trans (clk.lt_read _).le
      · rw [update_of_ne hr]
        exact hT.copies c' r'
    · rw [update_of_ne hc]
      exact hT.copies c' r'

/-- A copy is refreshed. -/
theorem refreshed_update {tsc : ℕ} (h : tsc ≤ s.clock) :
    Refreshed (psTimingUpdateRemote clk s c r) c r tsc := by
  unfold Refreshed
  rw [update_others, update_self, update_self, (update_timing r).1, (update_timing r).2]
  exact ⟨rfl, rfl, h.trans_lt (clk.lt_read _)⟩

/-! ## In the loop -/

section Loop

variable [DecidableEq M]

/-- Core `c` is in the loop. -/
structure Scanning (B : ℕ) (s : St N M) (c : Fin N) (q : Quiesce M) : Prop where
  reach : (lts N M B).Reach Settled (s.setPc c (.scan q))
  timed : Timed s
  pos : 1 ≤ q.i
  le : q.i ≤ N

/-- The invariant of each core in the loop. -/
theorem Scanning.core (h : Scanning B s c q) : ∀ r, CoreInv (s.setPc c (.scan q)) r :=
  coreInv_of_reach h.reach

/-- What each core knows is quiescent. -/
theorem Scanning.quiescent (h : Scanning B s c q) (r : Fin N) :
    Quiescent s (s.timing r).lastKnownQuiescence := (h.core r).lkq

/-- A core that a copy shows quiescent is. -/
theorem Scanning.lt_of_copyDone (h : Scanning B s c q) {tsc : ℕ} (hd : CopyDone s c r tsc) :
    ∀ d, s.sect r = some d → tsc < d := by
  intro d hs
  rcases hd with hlt | ⟨hlt, hio⟩
  · exact hlt.trans_le (((h.core c).copyIn r).2 d hs)
  · have hu : ¬ Updating c ((s.setPc c (.scan q)).pc c) r := by
      rintro ⟨q', he | he, -⟩ <;> simp [St.setPc] at he
    exact hlt.trans_le (((h.core c).copy r hu hio).2 d hs)

/-- The next round. -/
theorem Scanning.next (h : Scanning B s c q) (hi : q.i < N)
    (hlkq : ¬ q.timeCheck < (s.timing c).lastKnownQuiescence)
    (hd : CopyDone s c (qscCpu c q.i) q.timeCheck) :
    Scanning B s c (q.next (s.timingOthers c (qscCpu c q.i))) := by
  refine ⟨?_, h.timed, Nat.le_add_left .., hi⟩
  have hs := reach_scan h.reach
  unfold psQuiesceScan at hs
  simp only at hs
  rwa [if_pos hi, if_neg hlkq, if_pos (doneI_iff.mpr hd)] at hs

/-- The same round, with a copy that is refreshed. -/
theorem Scanning.update (clk : Clock) (h : Scanning B s c q) (hi : q.i < N)
    (hlkq : ¬ q.timeCheck < (s.timing c).lastKnownQuiescence)
    (hd : ¬ CopyDone s c (qscCpu c q.i) q.timeCheck) (hgo : q.firstTry = true ∨ q.blocking = true) :
    Scanning B (psTimingUpdateRemote clk s c (qscCpu c q.i)) c { q with firstTry := false } := by
  refine ⟨reach_update (q := { q with firstTry := false }) ?_, h.timed.update _, h.pos, h.le⟩
  have hs := reach_scan h.reach
  unfold psQuiesceScan at hs
  simp only at hs
  rw [if_pos hi, if_neg hlkq, if_neg (by rwa [doneI_iff])] at hs
  by_cases hf : q.firstTry = true
  · rwa [if_pos hf] at hs
  · have hb : q.blocking = true := hgo.resolve_left hf
    have hq : { q with firstTry := false } = q := by
      rw [← (Bool.not_eq_true _).mp hf]
    rw [if_neg hf, if_neg (by simp [hb])] at hs
    rwa [hq]

omit [DecidableEq M] in
/-- A refresh moves no core into a section or out of it. -/
theorem inside_update (clk : Clock) {r' : Fin N} {tsc : ℕ} :
    Inside (psTimingUpdateRemote clk s c r) r' tsc ↔ Inside s r' tsc := by
  unfold Inside
  rw [update_sect]

omit [DecidableEq M] in
/-- The end of `ps_quiesce` returns 0. -/
theorem psQuiesceEnd_ret (h : psQuiesceEnd s c q us = some R) : R.ret = 0 := by
  unfold psQuiesceEnd at h
  simp only at h
  split_ifs at h <;> cases h <;> rfl

/-- A core that the loop passed is not inside a section entered at the time or before. -/
theorem loop_zero (hS : Scanning B s c q) (hR : psQuiesceLoop clk c k s q us = some R)
    (h₀ : R.ret = 0) : ∀ j, q.i ≤ j → j < N → ¬ Inside s (qscCpu c j) q.timeCheck := by
  induction k generalizing s q us with
  | zero => cases hR
  | succ k ih =>
      intro j hij hj
      unfold psQuiesceLoop at hR
      simp only at hR
      have hi : q.i < N := hij.trans_lt hj
      rw [if_pos hi] at hR
      by_cases hlkq : q.timeCheck < (s.timing c).lastKnownQuiescence
      · rintro ⟨d, hd, hle⟩
        have := (hS.quiescent c).2 _ d hd
        omega
      rw [if_neg hlkq] at hR
      by_cases hd : q.doneI (s.timingOthers c (qscCpu c q.i)) = true
      · rw [if_pos hd] at hR
        have hc := doneI_iff.mp hd
        rcases Nat.eq_or_lt_of_le hij with he | hlt
        · rintro ⟨d, hs, hle⟩
          have := hS.lt_of_copyDone (he ▸ hc) d hs
          omega
        · exact ih (hS.next hi hlkq hc) hR j hlt hj
      · rw [if_neg hd] at hR
        split at hR
        · rename_i hgo
          have hu := hS.update clk hi hlkq (mt doneI_iff.mpr hd) hgo
          rw [← inside_update clk (s := s) (c := c) (r := qscCpu c q.i)]
          exact ih hu hR j hij hj
        · cases hR
          cases h₀

omit [DecidableEq M] in
/-- The loop gives up only on a core that is inside a section entered at the time or before. -/
theorem loop_ne_zero (hT : Timed s) (hclk : q.timeCheck ≤ s.clock)
    (hf : q.firstTry = false → Refreshed s c (qscCpu c q.i) q.timeCheck)
    (hR : psQuiesceLoop clk c k s q us = some R) (h₀ : R.ret ≠ 0) :
    R.ret = -1 ∧ ∃ j, q.i ≤ j ∧ j < N ∧ Inside s (qscCpu c j) q.timeCheck := by
  induction k generalizing s q us with
  | zero => cases hR
  | succ k ih =>
      unfold psQuiesceLoop at hR
      simp only at hR
      by_cases hi : q.i < N
      swap
      · rw [if_neg hi] at hR
        exact absurd (psQuiesceEnd_ret hR) h₀
      rw [if_pos hi] at hR
      split at hR
      · exact absurd (psQuiesceEnd_ret hR) h₀
      by_cases hd : q.doneI (s.timingOthers c (qscCpu c q.i)) = true
      · rw [if_pos hd] at hR
        obtain ⟨hr, j, hij, hj, hin⟩ := ih (q := q.next _) hT hclk (fun h => by cases h) hR
        exact ⟨hr, j, Nat.le_of_succ_le hij, hj, hin⟩
      · rw [if_neg hd] at hR
        split at hR
        · have hle : q.timeCheck ≤ (psTimingUpdateRemote clk s c (qscCpu c q.i)).clock := by
            rw [update_clock]
            exact hclk.trans (clk.lt_read _).le
          obtain ⟨hr, j, hij, hj, hin⟩ := ih (q := { q with firstTry := false }) (hT.update _) hle
            (fun _ => refreshed_update hclk) hR
          exact ⟨hr, j, hij, hj, (inside_update _).mp hin⟩
        · rename_i hno
          cases hR
          have hfirst : q.firstTry = false := by
            by_contra h
            exact hno (.inl (by simpa using h))
          exact ⟨rfl, q.i, le_rfl, hi,
            hT.inside_of_refreshed (hf hfirst) (mt doneI_iff.mpr hd)⟩

/-! ### The loop returns -/

omit [DecidableEq M] in
/-- The clock does not go back. -/
theorem Clock.iterate_le (clk : Clock) (t : ℕ) {m n : ℕ} (h : m ≤ n) :
    clk.read^[m] t ≤ clk.read^[n] t := by
  induction h with
  | refl => exact le_rfl
  | step _ ih =>
      rw [iterate_succ_apply']
      exact ih.trans (clk.lt_read _).le

/-- How many refreshes are left, at most. -/
def refreshesLeft (N : ℕ) (q : Quiesce M) : ℕ := N - q.i - if q.firstTry then 0 else 1

/-- `min_known_qsc` is of the past once a core has been passed. -/
theorem Scanning.min_le (h : Scanning B s c q) (hi : 1 < q.i) : q.minKnownQsc ≤ s.clock := by
  have hpc : PcInv (s.setPc c (.scan q)) c ((s.setPc c (.scan q)).pc c) := (h.core c).pc
  have hq : QuiesceInv (s.setPc c (.scan q)) c q := by
    simpa [St.setPc, PcInv] using hpc
  exact (hq.min 1 le_rfl hi).1

/-- **The loop returns**, and each core from the present one on has its timing loaded once at most.
The assertion holds as the clock does not come to its largest value. -/
theorem loop_total (clk : Clock) (us : List (Fin N)) (hS : Scanning B s c q) (hclk : q.timeCheck ≤ s.clock)
    (hmax : clk.read^[refreshesLeft N q] s.clock < tscMax)
    (hf : q.firstTry = false → q.i < N ∧ Refreshed s c (qscCpu c q.i) q.timeCheck)
    (hb : q.blocking = false ∨ ∀ j, q.i ≤ j → j < N → ¬ Inside s (qscCpu c j) q.timeCheck)
    (hk : 2 * (N - q.i) + (if q.firstTry then 1 else 0) ≤ k) :
    ∃ (R : Quiesced N M) (js : List ℕ), psQuiesceLoop clk c k s q us = some R ∧
      R.updates = us ++ js.map (qscCpu c) ∧ js.Nodup ∧
      ∀ j ∈ js, q.i ≤ j ∧ j < N ∧ (q.firstTry = false → q.i < j) := by
  have hend : ∀ (s : St N M) (q : Quiesce M) us, (1 < N → q.i = N → q.minKnownQsc < tscMax) →
      ∃ R, psQuiesceEnd s c q us = some R ∧ R.updates = us := by
    intro s q us hm
    unfold psQuiesceEnd
    simp only
    split_ifs with h₁ h₂ h₃ h₄
    all_goals first | exact ⟨_, rfl, rfl⟩ | skip
    · have := hm h₁.1 h₁.2
      omega
    · exact absurd (hm h₁.1 h₁.2) (by omega)
  induction k generalizing s q us with
  | zero =>
      by_cases h : q.firstTry = true
      · rw [if_pos h] at hk
        omega
      · have := (hf (by simpa using h)).1
        omega
  | succ k ih =>
      unfold psQuiesceLoop
      simp only
      by_cases hi : q.i < N
      swap
      · rw [if_neg hi]
        obtain ⟨R, hR, hus⟩ := hend s q us fun hN hq => by
          have := hS.min_le (by omega)
          have := clk.iterate_le s.clock (Nat.zero_le (refreshesLeft N q))
          simp only [iterate_zero, id] at this
          omega
        exact ⟨R, [], hR, by simp [hus], List.nodup_nil, by simp⟩
      rw [if_pos hi]
      by_cases hlkq : q.timeCheck < (s.timing c).lastKnownQuiescence
      · rw [if_pos hlkq]
        obtain ⟨R, hR, hus⟩ := hend s q us fun _ h => by omega
        exact ⟨R, [], hR, by simp [hus], List.nodup_nil, by simp⟩
      rw [if_neg hlkq]
      by_cases hd : q.doneI (s.timingOthers c (qscCpu c q.i)) = true
      · rw [if_pos hd]
        have hleft : refreshesLeft N (q.next (s.timingOthers c (qscCpu c q.i))) ≤
            refreshesLeft N q := by
          unfold refreshesLeft Quiesce.next
          cases q.firstTry <;> simp <;> omega
        obtain ⟨R, js, hR, hus, hnd, hjs⟩ := ih us (hS.next hi hlkq (doneI_iff.mp hd)) hclk
          ((clk.iterate_le _ hleft).trans_lt hmax) (fun h => by cases h)
          (hb.imp_right fun h j hj => h j (Nat.le_of_succ_le hj))
          (by simp only [Quiesce.next]; split at hk <;> simp <;> omega)
        refine ⟨R, js, hR, hus, hnd, fun j hj => ?_⟩
        obtain ⟨h₁, h₂, -⟩ := hjs j hj
        exact ⟨Nat.le_of_succ_le h₁, h₂, fun _ => h₁⟩
      rw [if_neg hd]
      by_cases hfirst : q.firstTry = true
      · rw [if_pos (.inl hfirst)]
        have hu := hS.update clk hi hlkq (mt doneI_iff.mpr hd) (.inl hfirst)
        have hleft : refreshesLeft N q = refreshesLeft N { q with firstTry := false } + 1 := by
          simp only [refreshesLeft, hfirst, if_true, Bool.false_eq_true, if_false]
          omega
        rw [hleft, iterate_succ_apply, ← update_clock (c := c) (r := qscCpu c q.i)] at hmax
        obtain ⟨R, js, hR, hus, hnd, hjs⟩ := ih (us ++ [qscCpu c q.i]) hu
          (by rw [update_clock]; exact hclk.trans (clk.lt_read _).le) hmax
          (fun _ => ⟨hi, refreshed_update hclk⟩)
          (hb.imp_right fun h j hj hj' => mt (inside_update _).mp (h j hj hj'))
          (by rw [if_pos hfirst] at hk; simp; omega)
        refine ⟨R, q.i :: js, hR, by simp [hus], ?_, ?_⟩
        · refine List.nodup_cons.mpr ⟨fun hmem => ?_, hnd⟩
          exact absurd ((hjs _ hmem).2.2 rfl) (lt_irrefl _)
        · intro j hj
          rcases List.mem_cons.mp hj with rfl | hj
          · exact ⟨le_rfl, hi, fun h => by simp [hfirst] at h⟩
          · obtain ⟨h₁, h₂, -⟩ := hjs j hj
            exact ⟨h₁, h₂, fun h => by simp [hfirst] at h⟩
      have hin := hS.timed.inside_of_refreshed (hf (by simpa using hfirst)).2 (mt doneI_iff.mpr hd)
      rcases hb with hb | hb
      · rw [if_neg (by simp [hfirst, hb])]
        exact ⟨_, [], rfl, by simp, List.nodup_nil, by simp⟩
      · exact absurd hin (hb q.i le_rfl hi)

end Loop

end Parsec.Smr
