import Parsec.Smr.Machine

/-!
# When parsec reclamation is safe

`__ps_timing_update_remote` loads a remote core's `time_in` and `time_out` first and reads the
clock into `time_updated` afterwards. If the remote core enters a parallel section in between, the
copy says "outside, at `time_updated`" of a core that is inside; whoever then concludes quiescence
up to `time_updated` can reclaim what another core freed after that `ps_enter`.

* `exists_unsafe_reclaim` — a run of three cores, with the default `PS_QLIST_BATCH`, in which an
  item freed at time 1001 goes back to its slab while a core is inside the section it entered, and
  completed entering, at time 1000.
* `Settled` — the branch that goes wrong is not taken: at the clock read of
  `__ps_timing_update_remote`, a remote core whose loaded copies say "outside" is still outside.
* `safeReclaim_of_settled` — in every run whose steps are `Settled`, reclamation is safe.

The invariant (`CoreInv`) says of every time a core may base quiescence on, its
`last_known_quiescence`, its `*qsc`, the part of `min_known_qsc` it has accumulated, and its cached
copies, that no core is inside a section whose `ps_enter` completed before that time. Such a fact
is stable (`SafeFor.mono`): a `ps_enter` that completes later completes at a later clock.
-/

namespace Parsec.Smr

open Function Lib

variable {N : Nat} {M : Type} [DecidableEq M]

/-! ## Times that are safe to reclaim up to -/

/-- Time `v` is past, and core `c` is not inside a section whose `ps_enter` completed before it. -/
def SafeFor (s : St N M) (v : Nat) (c : Fin N) : Prop :=
  v ≤ s.clock ∧ ∀ d, s.sect c = some d → v ≤ d

/-- Time `v` is past, and no core is inside a section whose `ps_enter` completed before it. -/
def Quiescent (s : St N M) (v : Nat) : Prop :=
  v ≤ s.clock ∧ ∀ c d, s.sect c = some d → v ≤ d

/-- How a step moves time: the clock does not go back, and a section that is new was entered at the
present clock. -/
structure Grows (s s' : St N M) : Prop where
  clock : s.clock ≤ s'.clock
  sect : ∀ c d, s'.sect c = some d → s.sect c = some d ∨ s.clock ≤ d

omit [DecidableEq M] in
/-- What is safe for a core stays safe as time goes on. -/
theorem SafeFor.mono {s s' : St N M} (hg : Grows s s') {v : Nat} {c : Fin N}
    (h : SafeFor s v c) : SafeFor s' v c := by
  refine ⟨h.1.trans hg.clock, fun d hd => ?_⟩
  rcases hg.sect c d hd with hd | hd
  · exact h.2 d hd
  · exact h.1.trans hd

omit [DecidableEq M] in
/-- What is quiescent stays so as time goes on. -/
theorem Quiescent.mono {s s' : St N M} (hg : Grows s s') {v : Nat} (h : Quiescent s v) :
    Quiescent s' v := by
  refine ⟨h.1.trans hg.clock, fun c d hd => ?_⟩
  rcases hg.sect c d hd with hd | hd
  · exact h.2 c d hd
  · exact h.1.trans hd

omit [DecidableEq M] in
/-- An earlier time is safe as well. -/
theorem SafeFor.of_le {s : St N M} {v w : Nat} {c : Fin N} (h : SafeFor s w c) (hv : v ≤ w) :
    SafeFor s v c :=
  ⟨hv.trans h.1, fun d hd => hv.trans (h.2 d hd)⟩

/-! ## The invariant -/

/-- What the locals of a call of `ps_quiesce` on core `r` mean: `min_known_qsc` is safe for every
core looked at so far. -/
structure QuiesceInv (s : St N M) (r : Fin N) (q : Quiesce M) : Prop where
  inlib : q.inlibCurr = psInLib (s.timing r)
  qsc : Quiescent s q.qsc
  min : ∀ j, 1 ≤ j → j < q.i → SafeFor s q.minKnownQsc (qscCpu r j)

/-- What holds at each program point of core `r`. -/
def PcInv (s : St N M) (r : Fin N) : Pc M → Prop
  | .enterStore t => s.sect r = none ∧ (s.timing r).timeIn < t ∧ t ≤ s.clock
  | .scan q | .updIn q | .updOut q | .updTime q | .updLkqTest q | .updLkqCopy q | .finish q =>
      QuiesceInv s r q
  | .reclaim _ _ qsc _ => Quiescent s qsc
  | .idle | .smrFree _ _ | .quiesceStart _ _ _ => True

/-- Core `r` is inside `__ps_timing_update_remote` for core `c`, so that its copy of `c` is part
new, part old. -/
def Updating (r : Fin N) (p : Pc M) (c : Fin N) : Prop :=
  ∃ q, (p = .updOut q ∨ p = .updTime q) ∧ qscCpu r q.i = c

/-- The invariant of core `r`. -/
structure CoreInv (s : St N M) (r : Fin N) : Prop where
  timeIn_le : (s.timing r).timeIn ≤ s.clock
  timeOut_le : (s.timing r).timeOut ≤ (s.timing r).timeIn + 1
  sect : ∀ d, s.sect r = some d →
    (s.timing r).timeOut ≤ (s.timing r).timeIn ∧ (s.timing r).timeIn ≤ d
  lkq : Quiescent s (s.timing r).lastKnownQuiescence
  copyIn : ∀ c, SafeFor s (s.timingOthers r c).timeIn c
  copy : ∀ c, ¬ Updating r (s.pc r) c → (s.timingOthers r c).timeIn < (s.timingOthers r c).timeOut →
    SafeFor s (s.timingOthers r c).timeUpdated c
  pc : PcInv s r (s.pc r)

omit [DecidableEq M] in
/-- The locals of a call stay right as time goes on. -/
theorem QuiesceInv.mono {s s' : St N M} (hg : Grows s s') {r : Fin N} {q : Quiesce M}
    (ht : s'.timing r = s.timing r) (h : QuiesceInv s r q) : QuiesceInv s' r q :=
  ⟨by rw [ht]; exact h.inlib, h.qsc.mono hg, fun j h₁ h₂ => (h.min j h₁ h₂).mono hg⟩

omit [DecidableEq M] in
/-- What holds at a program point stays as time goes on. -/
theorem PcInv.mono {s s' : St N M} (hg : Grows s s') {r : Fin N} {p : Pc M}
    (ht : s'.timing r = s.timing r) (hs : s'.sect r = s.sect r) (h : PcInv s r p) :
    PcInv s' r p := by
  cases p with
  | enterStore t =>
      obtain ⟨h₁, h₂, h₃⟩ := h
      exact ⟨hs ▸ h₁, by rw [ht]; exact h₂, h₃.trans hg.clock⟩
  | reclaim m i qsc b => exact Quiescent.mono hg h
  | idle | smrFree m it | quiesceStart k tsc b => trivial
  | scan q | updIn q | updOut q | updTime q | updLkqTest q | updLkqCopy q | finish q =>
      exact QuiesceInv.mono hg ht h

omit [DecidableEq M] in
/-- The invariant of a core that does not move survives a step of another. -/
theorem CoreInv.mono {s s' : St N M} (hg : Grows s s') {r : Fin N}
    (ht : s'.timing r = s.timing r) (ho : s'.timingOthers r = s.timingOthers r) (hp : s'.pc r = s.pc r) (hs : s'.sect r = s.sect r)
    (h : CoreInv s r) : CoreInv s' r where
  timeIn_le := by rw [ht]; exact h.timeIn_le.trans hg.clock
  timeOut_le := by rw [ht]; exact h.timeOut_le
  sect := by rw [ht, hs]; exact h.sect
  lkq := by rw [ht]; exact h.lkq.mono hg
  copyIn c := by rw [ho]; exact (h.copyIn c).mono hg
  copy c hu hio := by
    rw [hp] at hu
    rw [ho] at hio ⊢
    exact (h.copy c hu hio).mono hg
  pc := by rw [hp]; exact h.pc.mono hg ht hs

/-- The invariant does not speak of the queues. -/
theorem CoreInv.setSmr {s : St N M} {r : Fin N} (h : CoreInv s r) (m : M) (c : Fin N)
    (si : SmrInfo) : CoreInv (s.setSmr m c si) r := by
  have hg : Grows s (s.setSmr m c si) := ⟨le_rfl, fun r d hd => .inl hd⟩
  exact h.mono hg rfl rfl rfl rfl

omit [DecidableEq M] in
/-- The invariant survives the passing of time. -/
theorem CoreInv.setClock {s : St N M} {r : Fin N} (h : CoreInv s r) {now : Nat}
    (hlt : s.clock < now) : CoreInv (s.setClock now) r := by
  have hg : Grows s (s.setClock now) := ⟨hlt.le, fun r d hd => .inl hd⟩
  exact h.mono hg rfl rfl rfl rfl

/-! ## The condition on steps -/

/-- The call of `ps_quiesce` that is about to read the clock into `time_updated`, if one is. -/
def Pc.atClockRead : Pc M → Option (Quiesce M)
  | .updTime q => some q
  | _ => none

/-- The clock read of `__ps_timing_update_remote` happens while the loaded copy is still true: if
`time_in < time_out` was loaded of the remote core, it is outside of its sections at that point.
Every other step satisfies the condition. -/
def Settled (s : St N M) : Act N M → Prop
  | .tick c _ => ∀ q ∈ (s.pc c).atClockRead,
      (s.timingOthers c (qscCpu c q.i)).timeIn < (s.timingOthers c (qscCpu c q.i)).timeOut →
      psInLib (s.timing (qscCpu c q.i)) = false
  | _ => True

instance (s : St N M) : ∀ a : Act N M, Decidable (Settled s a)
  | .tick c _ => inferInstanceAs (Decidable (∀ q ∈ (s.pc c).atClockRead,
      (s.timingOthers c (qscCpu c q.i)).timeIn < (s.timingOthers c (qscCpu c q.i)).timeOut →
      psInLib (s.timing (qscCpu c q.i)) = false))
  | .enter _ _ | .exit _ | .free _ _ _ _ | .quiesce _ _ _ => isTrue trivial

/-! ## What a step changes -/

/-- The core that makes a step. -/
def Act.core : Act N M → Fin N
  | .enter c _ | .exit c | .free c _ _ _ | .quiesce c _ _ | .tick c _ => c

/-- A step moves time forward and leaves the timing, the program point and the section of every
other core alone. -/
structure Frame (s s' : St N M) (c : Fin N) : Prop where
  grows : Grows s s'
  timing : ∀ r, r ≠ c → s'.timing r = s.timing r
  timingOthers : ∀ r, r ≠ c → s'.timingOthers r = s.timingOthers r
  pc : ∀ r, r ≠ c → s'.pc r = s.pc r
  sect : ∀ r, r ≠ c → s'.sect r = s.sect r

attribute [local simp] St.setPc St.setTiming St.setOther St.setSmr St.setClock St.setSect

omit [DecidableEq M] in
/-- The frame of a step that leaves clock and sections as they are. -/
theorem Frame.of_same {s s' : St N M} {c : Fin N} (hc : s'.clock = s.clock)
    (hs : s'.sect = s.sect) (ht : ∀ r, r ≠ c → s'.timing r = s.timing r)
    (ho : ∀ r, r ≠ c → s'.timingOthers r = s.timingOthers r)
    (hp : ∀ r, r ≠ c → s'.pc r = s.pc r) : Frame s s' c :=
  ⟨⟨hc.ge, fun r d hd => .inl (hs ▸ hd)⟩, ht, ho, hp, fun r _ => by rw [hs]⟩

omit [DecidableEq M] in
/-- The frame of a step that reads the clock and leaves the sections as they are. -/
theorem Frame.of_clock {s s' : St N M} {c : Fin N} (hc : s.clock < s'.clock)
    (hs : s'.sect = s.sect) (ht : ∀ r, r ≠ c → s'.timing r = s.timing r)
    (ho : ∀ r, r ≠ c → s'.timingOthers r = s.timingOthers r)
    (hp : ∀ r, r ≠ c → s'.pc r = s.pc r) : Frame s s' c :=
  ⟨⟨hc.le, fun r d hd => .inl (hs ▸ hd)⟩, ht, ho, hp, fun r _ => by rw [hs]⟩

/-- What a step of a function leaves alone. -/
theorem tick_frame {B : Nat} {s s' : St N M} {c : Fin N} {now : Nat}
    (h : tick B s c now = some s') : Frame s s' c := by
  unfold tick at h
  split at h
  case h_1 => cases h
  case h_2 =>
    cases h
    refine ⟨⟨le_rfl, fun r d hd => ?_⟩, fun r hr => ?_, fun r hr => ?_, fun r hr => ?_,
      fun r hr => ?_⟩
    · by_cases hr : r = c
      · subst hr
        simp only [St.setPc, St.setSect, update_self, Option.some.injEq] at hd
        exact .inr hd.le
      · simp only [St.setPc, St.setSect, St.setTiming, update_of_ne hr] at hd
        exact .inl hd
    all_goals simp [hr]
  case h_3 =>
    simp only [Option.map_eq_some_iff] at h
    obtain ⟨p, -, rfl⟩ := h
    exact .of_same rfl rfl (fun r _ => rfl) (fun r _ => rfl) (fun r hr => by simp [hr])
  case h_4 | h_5 =>
    cases h
    exact .of_same rfl rfl (fun r _ => rfl) (fun r _ => rfl) (fun r hr => by simp [hr])
  case h_6 | h_7 =>
    cases h
    exact .of_same rfl rfl (fun r _ => rfl) (fun r hr => by simp [hr]) (fun r hr => by simp [hr])
  case h_8 =>
    simp only at h
    split at h
    · rename_i hlt
      cases h
      exact .of_clock hlt rfl (fun r _ => rfl) (fun r hr => by simp [hr])
        (fun r hr => by simp [hr])
    · cases h
  case h_9 =>
    simp only at h
    split at h <;> cases h <;>
      exact .of_same rfl rfl (fun r _ => rfl) (fun r _ => rfl) (fun r hr => by simp [hr])
  case h_10 =>
    cases h
    exact .of_same rfl rfl (fun r hr => by simp [hr]) (fun r _ => rfl) (fun r hr => by simp [hr])
  case h_11 =>
    simp only [Option.map_eq_some_iff] at h
    obtain ⟨p, -, rfl⟩ := h
    exact .of_same rfl rfl (fun r hr => by simp [hr]) (fun r _ => rfl) (fun r hr => by simp [hr])
  case h_12 =>
    simp only [Option.map_eq_some_iff] at h
    obtain ⟨p, -, rfl⟩ := h
    exact .of_same rfl rfl (fun r _ => rfl) (fun r _ => rfl) (fun r hr => by simp [hr])

/-- What every step leaves alone. -/
theorem step_frame {B : Nat} {s s' : St N M} {a : Act N M} (h : step B s a = some s') :
    Frame s s' a.core := by
  cases a with
  | enter c now =>
      simp only [step] at h
      split at h
      · split at h
        · rename_i hlt
          cases h
          exact .of_clock hlt rfl (fun r _ => rfl) (fun r _ => rfl)
            (fun r hr => by simp [show r ≠ c from hr])
        · cases h
      · cases h
  | exit c =>
      simp only [step] at h
      split at h
      · cases h
        refine ⟨⟨le_rfl, fun r d hd => ?_⟩, fun r hr => by simp [show r ≠ c from hr],
          fun r _ => rfl, fun r _ => rfl, fun r hr => by simp [show r ≠ c from hr]⟩
        by_cases hr : r = c
        · subst hr; simp at hd
        · simp only [St.setSect, St.setTiming, update_of_ne hr] at hd
          exact .inl hd
      · cases h
  | free c m obj now =>
      simp only [step] at h
      split at h
      · split at h
        · rename_i hlt
          cases h
          exact .of_clock hlt rfl (fun r _ => rfl) (fun r _ => rfl)
            (fun r hr => by simp [show r ≠ c from hr])
        · cases h
      · cases h
  | quiesce c tsc blocking =>
      simp only [step] at h
      split at h
      · cases h
        exact .of_same rfl rfl (fun r _ => rfl) (fun r _ => rfl)
          (fun r hr => by simp [show r ≠ c from hr])
      · cases h
  | tick c now => exact tick_frame h

/-! ## The steps of `ps_quiesce` -/

omit [DecidableEq M] in
/-- The round-robin order of `ps_quiesce` reaches every other core. -/
theorem exists_qscCpu_eq {c r : Fin N} (h : r ≠ c) : ∃ j, 1 ≤ j ∧ j < N ∧ qscCpu c j = r := by
  have hc := c.isLt
  have hr := r.isLt
  have hne : r.val ≠ c.val := fun e => h (Fin.ext e)
  by_cases hlt : c.val < r.val
  · refine ⟨r.val - c.val, by omega, by omega, Fin.ext ?_⟩
    simp only [qscCpu, show c.val + (r.val - c.val) = r.val by omega, Nat.mod_eq_of_lt hr]
  · refine ⟨r.val + N - c.val, by omega, by omega, Fin.ext ?_⟩
    simp only [qscCpu, show c.val + (r.val + N - c.val) = r.val + N by omega, Nat.add_mod_right,
      Nat.mod_eq_of_lt hr]

omit [DecidableEq M] in
/-- The core looked at in a round of the loop is never the caller: the assertion of the loop. -/
theorem qscCpu_ne {c : Fin N} {i : Nat} (h₁ : 1 ≤ i) (h₂ : i < N) : qscCpu c i ≠ c := by
  intro e
  have hc := c.isLt
  have hv : (c.val + i) % N = c.val := congrArg Fin.val e
  by_cases hlt : c.val + i < N
  · rw [Nat.mod_eq_of_lt hlt] at hv; omega
  · rw [Nat.mod_eq_sub_mod (by omega), Nat.mod_eq_of_lt (by omega)] at hv; omega

omit [DecidableEq M] in
/-- A core inside a section is in the library by its own timing. -/
theorem CoreInv.psInLib_eq {s : St N M} {r : Fin N} (h : CoreInv s r) {d : Nat}
    (hd : s.sect r = some d) : psInLib (s.timing r) = true :=
  decide_eq_true (h.sect d hd).1

omit [DecidableEq M] in
/-- A core's own `time_in` is safe for the core itself. -/
theorem CoreInv.safeFor_timeIn {s : St N M} {r : Fin N} (h : CoreInv s r) :
    SafeFor s (s.timing r).timeIn r :=
  ⟨h.timeIn_le, fun d hd => (h.sect d hd).2⟩

omit [DecidableEq M] in
/-- A reclamation goes on with a time that is quiescent. -/
theorem pcInv_return {s : St N M} {r : Fin N} {caller : Option M} {ret : Int} {qsc : Nat}
    (h : Quiescent s qsc) : PcInv s r (psQuiesceReturn caller ret qsc) := by
  cases caller with
  | none => trivial
  | some m => exact h

omit [DecidableEq M] in
/-- The start of `ps_quiesce` keeps the invariant. -/
theorem psQuiesceStart_inv {s : St N M} {c : Fin N} (h : CoreInv s c) (caller : Option M)
    (tsc : Nat) (blocking : Bool) :
    PcInv s c (psQuiesceStart (s.timing c) caller tsc blocking) := by
  unfold psQuiesceStart
  simp only
  split
  · exact pcInv_return h.lkq
  · exact ⟨rfl, h.lkq, fun j h₁ h₂ => absurd h₂ (by simp only; omega)⟩

omit [DecidableEq M] in
/-- A copy that passes the test `done_i` contributes a time that is safe for its core. -/
theorem QuiesceInv.next {s : St N M} {c : Fin N} {q : Quiesce M} (h : QuiesceInv s c q)
    {o : OtherCore} (hin : SafeFor s o.timeIn (qscCpu c q.i))
    (hup : o.timeIn < o.timeOut → SafeFor s o.timeUpdated (qscCpu c q.i)) :
    QuiesceInv s c (q.next o) := by
  have hv : SafeFor s (if o.timeIn < o.timeOut then o.timeUpdated else o.timeIn)
      (qscCpu c q.i) := by
    split
    · exact hup ‹_›
    · exact hin
  refine ⟨h.inlib, h.qsc, fun j h₁ h₂ => ?_⟩
  simp only [Quiesce.next] at h₂ ⊢
  generalize (if o.timeIn < o.timeOut then o.timeUpdated else o.timeIn) = v at hv ⊢
  rcases Nat.lt_succ_iff_lt_or_eq.mp h₂ with hj | rfl
  · exact (h.min j h₁ hj).of_le (by split <;> omega)
  · exact hv.of_le (by split <;> omega)

omit [DecidableEq M] in
/-- The loop body of `ps_quiesce` keeps the invariant. -/
theorem psQuiesceScan_inv {s : St N M} {c : Fin N} (h : CoreInv s c) {q : Quiesce M}
    (hq : QuiesceInv s c q) (hu : ∀ r, ¬ Updating c (s.pc c) r) :
    PcInv s c (psQuiesceScan c (s.timing c) (s.timingOthers c) q) := by
  unfold psQuiesceScan
  simp only
  split
  · split
    · exact hq
    split
    · exact hq.next (h.copyIn _) (h.copy _ (hu _))
    split
    · exact ⟨hq.inlib, hq.qsc, hq.min⟩
    split
    · exact pcInv_return hq.qsc
    · exact hq
  · exact hq

omit [DecidableEq M] in
/-- After the loop has looked at every other core, `min_known_qsc`, capped by the caller's own
`time_in` when the caller is in the library, is quiescent. -/
theorem quiescent_min {s : St N M} {c : Fin N} (h : CoreInv s c) {q : Quiesce M}
    (hq : QuiesceInv s c q) (hN : 1 < N) (hi : q.i = N) :
    Quiescent s (if q.inlibCurr = true ∧ q.minKnownQsc > (s.timing c).timeIn
      then (s.timing c).timeIn else q.minKnownQsc) := by
  have hle : (if q.inlibCurr = true ∧ q.minKnownQsc > (s.timing c).timeIn
      then (s.timing c).timeIn else q.minKnownQsc) ≤ q.minKnownQsc := by split <;> omega
  refine ⟨hle.trans (hq.min 1 le_rfl (by omega)).1, fun r d hd => ?_⟩
  by_cases hr : r = c
  · subst hr
    have hin : q.inlibCurr = true := hq.inlib.trans (h.psInLib_eq hd)
    have hd' := (h.sect d hd).2
    split
    · exact hd'
    · rename_i hgt
      simp only [hin, true_and, not_lt] at hgt
      exact hgt.trans hd'
  · obtain ⟨j, h₁, h₂, rfl⟩ := exists_qscCpu_eq hr
    exact hle.trans ((hq.min j h₁ (hi ▸ h₂)).2 d hd)

omit [DecidableEq M] in
/-- What `ps_quiesce` ends with is quiescent. -/
theorem psQuiesceFinish_inv {s : St N M} {c : Fin N} (h : CoreInv s c) {q : Quiesce M}
    (hq : QuiesceInv s c q) {lkq : Nat} {p : Pc M}
    (hf : psQuiesceFinish N (s.timing c) q = some (lkq, p)) :
    Quiescent s lkq ∧ ∃ ret qsc, p = psQuiesceReturn q.caller ret qsc ∧ Quiescent s qsc := by
  unfold psQuiesceFinish at hf
  simp only at hf
  split at hf
  · rename_i hN
    have hmin := quiescent_min h hq hN.1 hN.2
    generalize (if q.inlibCurr = true ∧ q.minKnownQsc > (s.timing c).timeIn
      then (s.timing c).timeIn else q.minKnownQsc) = m at hmin hf
    split at hf
    · split at hf
      · cases hf; exact ⟨hmin, _, _, rfl, hmin⟩
      · cases hf; exact ⟨h.lkq, _, _, rfl, hq.qsc⟩
    · cases hf
  · cases hf; exact ⟨h.lkq, _, _, rfl, hq.qsc⟩

/-! ## Every step preserves the invariant -/

omit [DecidableEq M] in
/-- A core that only moves to another program point, outside of
`__ps_timing_update_remote`, before and after. -/
theorem CoreInv.setPc {s : St N M} {c : Fin N} (h : CoreInv s c) {p : Pc M}
    (hu : ∀ r, ¬ Updating c (s.pc c) r) (hp : PcInv s c p) : CoreInv (s.setPc c p) c where
  timeIn_le := h.timeIn_le
  timeOut_le := h.timeOut_le
  sect := h.sect
  lkq := h.lkq
  copyIn := h.copyIn
  copy r _ := h.copy r (hu r)
  pc := by
    have hg : Grows s (s.setPc c p) := ⟨le_rfl, fun r d hd => .inl hd⟩
    simpa using PcInv.mono hg rfl rfl hp

omit [DecidableEq M] in
/-- `ps_enter` completes. -/
theorem coreInv_enterStore {s : St N M} {c : Fin N} {t : Nat} (h : CoreInv s c)
    (hp : s.pc c = .enterStore t)
    (hg : Grows s (((s.setTiming c { s.timing c with timeIn := t }).setSect c
      (some s.clock)).setPc c .idle)) :
    CoreInv (((s.setTiming c { s.timing c with timeIn := t }).setSect c
      (some s.clock)).setPc c .idle) c := by
  have hpc := h.pc
  rw [hp] at hpc
  obtain ⟨-, hlt, hle⟩ := hpc
  have hout := h.timeOut_le
  refine ⟨?_, ?_, fun d hd => ?_, ?_, fun r => ?_, fun r _ hio => ?_, ?_⟩
  · simpa using hle
  · simp; omega
  · simp at hd ⊢; omega
  · simpa using h.lkq.mono hg
  · simpa using (h.copyIn r).mono hg
  · simp at hio
    simpa using (h.copy r (by rintro ⟨q, e | e, -⟩ <;> rw [hp] at e <;> cases e) hio).mono hg
  · simp [PcInv]

omit [DecidableEq M] in
/-- `ps_exit`. -/
theorem coreInv_exit {s : St N M} {c : Fin N} (h : CoreInv s c) (hp : s.pc c = .idle)
    (hg : Grows s ((s.setTiming c { s.timing c with timeOut := (s.timing c).timeIn + 1 }).setSect c
      none)) :
    CoreInv ((s.setTiming c { s.timing c with timeOut := (s.timing c).timeIn + 1 }).setSect c
      none) c := by
  refine ⟨?_, ?_, fun d hd => ?_, ?_, fun r => ?_, fun r _ hio => ?_, ?_⟩
  · simpa using h.timeIn_le
  · simp
  · simp at hd
  · simpa using h.lkq.mono hg
  · simpa using (h.copyIn r).mono hg
  · simp at hio
    simpa using (h.copy r (by rintro ⟨q, e | e, -⟩ <;> rw [hp] at e <;> cases e) hio).mono hg
  · simp [hp, PcInv]

omit [DecidableEq M] in
/-- The load of the remote `time_in`: safe for the remote core by that core's own invariant. -/
theorem coreInv_updIn {s : St N M} {c : Fin N} {q : Quiesce M} (hI : ∀ r, CoreInv s r)
    (hp : s.pc c = .updIn q)
    (hg : Grows s ((s.setOther c (qscCpu c q.i)
      { s.timingOthers c (qscCpu c q.i) with timeIn := (s.timing (qscCpu c q.i)).timeIn }).setPc c
      (.updOut q))) :
    CoreInv ((s.setOther c (qscCpu c q.i)
      { s.timingOthers c (qscCpu c q.i) with timeIn := (s.timing (qscCpu c q.i)).timeIn }).setPc c
      (.updOut q)) c := by
  have h := hI c
  have hpc := h.pc
  rw [hp] at hpc
  refine ⟨?_, ?_, fun d hd => ?_, ?_, fun r => ?_, fun r hu hio => ?_, ?_⟩
  · simpa using h.timeIn_le
  · simpa using h.timeOut_le
  · simpa using h.sect d (by simpa using hd)
  · simpa using h.lkq.mono hg
  · by_cases hr : r = qscCpu c q.i
    · subst hr
      simpa using ((hI _).safeFor_timeIn).mono hg
    · simpa [hr] using (h.copyIn r).mono hg
  · have hr : r ≠ qscCpu c q.i := fun e => hu ⟨q, .inl (by simp), e.symm⟩
    simp [hr] at hio
    simpa [hr] using
      (h.copy r (by rintro ⟨q, e | e, -⟩ <;> rw [hp] at e <;> cases e) hio).mono hg
  · simpa [PcInv] using QuiesceInv.mono hg (by simp) hpc

omit [DecidableEq M] in
/-- The load of the remote `time_out`. -/
theorem coreInv_updOut {s : St N M} {c : Fin N} {q : Quiesce M} (h : CoreInv s c)
    (hp : s.pc c = .updOut q)
    (hg : Grows s ((s.setOther c (qscCpu c q.i)
      { s.timingOthers c (qscCpu c q.i) with timeOut := (s.timing (qscCpu c q.i)).timeOut }).setPc c
      (.updTime q))) :
    CoreInv ((s.setOther c (qscCpu c q.i)
      { s.timingOthers c (qscCpu c q.i) with timeOut := (s.timing (qscCpu c q.i)).timeOut }).setPc c
      (.updTime q)) c := by
  have hpc := h.pc
  rw [hp] at hpc
  refine ⟨?_, ?_, fun d hd => ?_, ?_, fun r => ?_, fun r hu hio => ?_, ?_⟩
  · simpa using h.timeIn_le
  · simpa using h.timeOut_le
  · simpa using h.sect d (by simpa using hd)
  · simpa using h.lkq.mono hg
  · by_cases hr : r = qscCpu c q.i
    · subst hr
      simpa using (h.copyIn _).mono hg
    · simpa [hr] using (h.copyIn r).mono hg
  · have hr : r ≠ qscCpu c q.i := fun e => hu ⟨q, .inr (by simp), e.symm⟩
    simp [hr] at hio
    have hold : ¬ Updating c (s.pc c) r := by
      rintro ⟨q', e | e, he⟩ <;> rw [hp] at e <;> cases e
      exact hr he.symm
    simpa [hr] using (h.copy r hold hio).mono hg
  · simpa [PcInv] using QuiesceInv.mono hg (by simp) hpc

omit [DecidableEq M] in
/-- The clock read into `time_updated`. This is where the condition is used: the copy says that
the remote core is outside, and it is. -/
theorem coreInv_updTime {s : St N M} {c : Fin N} {q : Quiesce M} {now : Nat}
    (hI : ∀ r, CoreInv s r) (hp : s.pc c = .updTime q)
    (hset : (s.timingOthers c (qscCpu c q.i)).timeIn < (s.timingOthers c (qscCpu c q.i)).timeOut →
      psInLib (s.timing (qscCpu c q.i)) = false)
    (hg : Grows s (((s.setClock now).setOther c (qscCpu c q.i)
      { s.timingOthers c (qscCpu c q.i) with timeUpdated := now }).setPc c (.updLkqTest q))) :
    CoreInv (((s.setClock now).setOther c (qscCpu c q.i)
      { s.timingOthers c (qscCpu c q.i) with timeUpdated := now }).setPc c (.updLkqTest q)) c := by
  have h := hI c
  have hpc := h.pc
  rw [hp] at hpc
  refine ⟨?_, ?_, fun d hd => ?_, ?_, fun r => ?_, fun r hu hio => ?_, ?_⟩
  · simpa using h.timeIn_le.trans hg.clock
  · simpa using h.timeOut_le
  · simpa using h.sect d (by simpa using hd)
  · simpa using h.lkq.mono hg
  · by_cases hr : r = qscCpu c q.i
    · subst hr
      simpa using (h.copyIn _).mono hg
    · simpa [hr] using (h.copyIn r).mono hg
  · by_cases hr : r = qscCpu c q.i
    · subst hr
      have hout := hset (by simpa using hio)
      refine ⟨by simp, fun d hd => ?_⟩
      have hin := (hI _).psInLib_eq (show s.sect (qscCpu c q.i) = some d by simpa using hd)
      rw [hin] at hout
      cases hout
    · simp [hr] at hio
      have hold : ¬ Updating c (s.pc c) r := by
        rintro ⟨q', e | e, he⟩ <;> rw [hp] at e <;> cases e
        exact hr he.symm
      simpa [hr] using (h.copy r hold hio).mono hg
  · simpa [PcInv] using QuiesceInv.mono hg (by simp) hpc

omit [DecidableEq M] in
/-- A core that writes a quiescent `last_known_quiescence` and moves to another program point,
outside of `__ps_timing_update_remote` before and after. -/
theorem CoreInv.setLkq {s : St N M} {c : Fin N} (h : CoreInv s c) {lkq : Nat} {p : Pc M}
    (hu : ∀ r, ¬ Updating c (s.pc c) r) (hl : Quiescent s lkq)
    (hp : PcInv ((s.setTiming c { s.timing c with lastKnownQuiescence := lkq }).setPc c p) c p) :
    CoreInv ((s.setTiming c { s.timing c with lastKnownQuiescence := lkq }).setPc c p) c := by
  have hg : Grows s ((s.setTiming c { s.timing c with lastKnownQuiescence := lkq }).setPc c p) :=
    ⟨le_rfl, fun r d hd => .inl hd⟩
  refine ⟨?_, ?_, fun d hd => ?_, ?_, fun r => ?_, fun r _ hio => ?_, ?_⟩
  · simpa using h.timeIn_le
  · simpa using h.timeOut_le
  · simpa using h.sect d (by simpa using hd)
  · simpa using hl.mono hg
  · simpa using (h.copyIn r).mono hg
  · simp at hio
    simpa using (h.copy r (hu r) hio).mono hg
  · simpa using hp

/-- A step of the function a core is in preserves the core's invariant. -/
theorem tick_core {B : Nat} {s s' : St N M} {c : Fin N} {now : Nat} (hI : ∀ r, CoreInv s r)
    (hset : Settled s (.tick c now)) (h : tick B s c now = some s') : CoreInv s' c := by
  have hc := hI c
  have hpc := hc.pc
  have hg := (tick_frame h).grows
  have hu : ∀ p, s.pc c = p → (∀ q, p ≠ .updOut q ∧ p ≠ .updTime q) →
      ∀ r, ¬ Updating c (s.pc c) r := by
    rintro p hp hne r ⟨q, e | e, -⟩
    · exact (hne q).1 (hp ▸ e)
    · exact (hne q).2 (hp ▸ e)
  unfold tick at h
  split at h
  case h_1 => cases h
  case h_2 t hp => cases h; exact coreInv_enterStore hc hp hg
  case h_3 m it hp =>
    simp only [psSmrFreeNext, Option.map_eq_some_iff] at h
    obtain ⟨p, hn, rfl⟩ := h
    refine (hc.setSmr m c _).setPc (hu _ hp (by simp)) ?_
    split at hn
    · obtain ⟨a, -, rfl⟩ := Option.map_eq_some_iff.mp hn
      trivial
    · cases hn; trivial
  case h_4 caller tsc blocking hp =>
    cases h
    exact hc.setPc (hu _ hp (by simp)) (psQuiesceStart_inv hc caller tsc blocking)
  case h_5 q hp =>
    cases h
    rw [hp] at hpc
    exact hc.setPc (hu _ hp (by simp)) (psQuiesceScan_inv hc hpc (hu _ hp (by simp)))
  case h_6 q hp => cases h; exact coreInv_updIn hI hp hg
  case h_7 q hp => cases h; exact coreInv_updOut hc hp hg
  case h_8 q hp =>
    simp only at h
    split at h
    · cases h
      exact coreInv_updTime hI hp (hset q (by rw [hp]; rfl)) hg
    · cases h
  case h_9 q hp =>
    rw [hp] at hpc
    simp only at h
    split at h <;> cases h <;> exact hc.setPc (hu _ hp (by simp)) hpc
  case h_10 q hp =>
    rw [hp] at hpc
    cases h
    refine hc.setLkq (hu _ hp (by simp)) (hI _).lkq ?_
    exact ⟨by simpa [psInLib] using hpc.inlib, hpc.qsc.mono hg,
      fun j h₁ h₂ => (hpc.min j h₁ h₂).mono hg⟩
  case h_11 q hp =>
    rw [hp] at hpc
    obtain ⟨⟨lkq, p⟩, hf, rfl⟩ := Option.map_eq_some_iff.mp h
    obtain ⟨hl, ret, qsc, rfl, hqsc⟩ := psQuiesceFinish_inv hc hpc hf
    exact hc.setLkq (hu _ hp (by simp)) hl (pcInv_return (hqsc.mono hg))
  case h_12 m i qsc backlog hp =>
    rw [hp] at hpc
    obtain ⟨⟨si, p⟩, hr, rfl⟩ := Option.map_eq_some_iff.mp h
    refine (hc.setSmr m c si).setPc (hu _ hp (by simp)) ?_
    unfold psSmrReclaim at hr
    simp only at hr
    split at hr
    · split at hr
      · cases hr
      · split at hr
        · cases hr
        split at hr
        · cases hr; trivial
        · cases hr; exact hpc
    · cases hr; trivial

/-- A step preserves the invariant of the core that makes it. -/
theorem step_core {B : Nat} {s s' : St N M} {a : Act N M} (hI : ∀ r, CoreInv s r)
    (hset : Settled s a) (h : step B s a = some s') : CoreInv s' a.core := by
  have hg := (step_frame h).grows
  cases a with
  | enter c now =>
      have hc := hI c
      simp only [step] at h
      split at h
      · rename_i hp hs
        split at h
        · rename_i hlt
          cases h
          refine (hc.setClock hlt).setPc (fun r => ?_) ⟨hs, hc.timeIn_le.trans_lt hlt, le_rfl⟩
          rintro ⟨q, e | e, -⟩ <;> rw [St.setClock, hp] at e <;> cases e
        · cases h
      · cases h
  | exit c =>
      simp only [step] at h
      split at h
      · rename_i hp _
        cases h
        exact coreInv_exit (hI c) hp hg
      · cases h
  | free c m obj now =>
      simp only [step] at h
      split at h
      · rename_i hp
        split at h
        · rename_i hlt
          cases h
          refine ((hI c).setClock hlt).setPc (fun r => ?_) trivial
          rintro ⟨q, e | e, -⟩ <;> rw [St.setClock, hp] at e <;> cases e
        · cases h
      · cases h
  | quiesce c tsc blocking =>
      simp only [step] at h
      split at h
      · rename_i hp
        cases h
        refine (hI c).setPc (fun r => ?_) trivial
        rintro ⟨q, e | e, -⟩ <;> rw [hp] at e <;> cases e
      · cases h
  | tick c now => exact tick_core hI hset h

/-- **Step lemma**: a settled step preserves the invariant of every core. -/
theorem coreInv_step {B : Nat} {s s' : St N M} {a : Act N M} (hI : ∀ r, CoreInv s r)
    (hset : Settled s a) (h : step B s a = some s') (r : Fin N) : CoreInv s' r := by
  by_cases hr : r = a.core
  · exact hr ▸ step_core hI hset h
  · have hf := step_frame h
    exact (hI r).mono hf.grows (hf.timing r hr) (hf.timingOthers r hr) (hf.pc r hr) (hf.sect r hr)

omit [DecidableEq M] in
/-- The invariant holds after `ps_init`. -/
theorem coreInv_psInit (B now : Nat) (r : Fin N) : CoreInv (psInit N M B now) r where
  timeIn_le := le_rfl
  timeOut_le := le_rfl
  sect d hd := by cases hd
  lkq := ⟨le_rfl, fun c d hd => by cases hd⟩
  copyIn c := ⟨le_rfl, fun d hd => by cases hd⟩
  copy c _ _ := ⟨le_rfl, fun d hd => by cases hd⟩
  pc := trivial

/-- The invariant holds in every state that settled steps reach. -/
theorem coreInv_of_reach {B : Nat} {s : St N M} (h : (lts N M B).Reach Settled s) (r : Fin N) :
    CoreInv s r := by
  refine Lts.invariant (L := lts N M B) (I := fun s => ∀ r, CoreInv s r) ?_ ?_ h r
  · rintro s ⟨now, rfl⟩
    exact coreInv_psInit B now
  · exact fun s a s' hI hset hs => coreInv_step hI hset hs

/-! ## Safe reclamation -/

omit [DecidableEq M] in
/-- An item that is handed over was freed no later than the `*qsc` of the reclaiming core. -/
theorem le_qsc_of_handsOver {B : Nat} {s : St N M} {c : Fin N} {it : Item}
    (h : handsOver B s c = some it) :
    ∃ m i qsc b, s.pc c = .reclaim m i qsc b ∧ it.tscFree ≤ qsc := by
  unfold handsOver at h
  split at h
  · rename_i m i qsc b hp
    split at h
    · split at h
      · rename_i hle
        cases h
        exact ⟨m, i, qsc, b, hp, hle.2.2⟩
      · cases h
    · cases h
  · cases h

/-- **Reclamation is safe in settled runs**: for every number of cores, every set of memories and
every `PS_QLIST_BATCH`, in every state reached by settled steps, whatever item
`__ps_smr_reclaim` is about to hand to the slab free function, no core is inside a parallel section
whose `ps_enter` completed before the item was freed. -/
theorem safeReclaim_of_settled {B : Nat} {s : St N M} (h : (lts N M B).Reach Settled s) :
    SafeReclaim B s := by
  intro c it hit r d hd
  obtain ⟨m, i, qsc, b, hp, hle⟩ := le_qsc_of_handsOver hit
  have hpc := (coreInv_of_reach h c).pc
  rw [hp] at hpc
  have hqd : qsc ≤ d := hpc.2 r d hd
  omega

/-- A settled run: core 0 frees an object at time 1 and reclaims, core 1 enters a section at
time 3, and the object is about to be handed over. -/
def settledRun : List (Act 2 Unit) :=
  [.free 0 () 7 1] ++ List.replicate 5 (.tick 0 0) ++ [.tick 0 2] ++ List.replicate 4 (.tick 0 0) ++
    [.enter 1 3, .tick 1 0]

/-- The theorem at the end of that run. -/
theorem safeReclaim_of_settledRun : ∃ s : St 2 Unit, (lts 2 Unit 1).Reach Settled s ∧
    handsOver 1 s 0 = some ⟨7, 1⟩ ∧ s.sect 1 = some 3 ∧ SafeReclaim 1 s := by
  obtain ⟨s, hs, hp⟩ := Lts.exists_reach_of_execWhen (L := lts 2 Unit 1) (G := Settled) ⟨0, rfl⟩
    settledRun (p := fun s => decide (handsOver 1 s 0 = some ⟨7, 1⟩ ∧ s.sect 1 = some 3))
    (by decide +kernel)
  have hp := of_decide_eq_true hp
  exact ⟨s, hs, hp.1, hp.2, safeReclaim_of_settled hs⟩

/-- The unsafe run. Core 0 frees a batch and, reclaiming, loads "outside" of core 1; core 1 then
enters at time 1000; core 2 frees a batch from time 1001 on; core 0 reads the clock (2000), and its
`last_known_quiescence` becomes 2000. Core 2 copies it, and after a second batch of frees hands its
first item over. -/
def unsafeRun : List (Act 3 Unit) :=
  let frees (c : Fin 3) (t : Nat) : List (Act 3 Unit) :=
    (List.range 128).flatMap fun k => [.free c () k (t + k), .tick c 0]
  let ticks (c : Fin 3) (n : Nat) : List (Act 3 Unit) := List.replicate n (.tick c 0)
  frees 0 1 ++ ticks 0 4 ++ [.enter 1 1000, .tick 1 0] ++ frees 2 1001 ++
    [.tick 0 2000] ++ ticks 0 5 ++ [.tick 0 2001] ++ ticks 0 4 ++
    ticks 2 4 ++ [.tick 2 2002] ++ ticks 2 5 ++ frees 2 3000 ++ ticks 2 3

/-- **Reclamation is not safe in all runs**, with three cores and the default `PS_QLIST_BATCH`. -/
theorem exists_unsafe_reclaim :
    ∃ s : St 3 Unit, (lts 3 Unit 128).Reach (fun _ _ => True) s ∧ ¬ SafeReclaim 128 s := by
  obtain ⟨s, hs, hp⟩ := Lts.exists_reach_of_execWhen (L := lts 3 Unit 128)
    (G := fun _ _ => True) ⟨0, rfl⟩ unsafeRun (p := fun s => !decide (SafeReclaim 128 s))
    (by decide +kernel)
  exact ⟨s, hs, by simpa using hp⟩

end Parsec.Smr
