import Parsec.Slab.Drain

/-!
# Allocation keeps the invariant

An object is taken from the freelist of a slab (`popFree_spec`), or from a slab that has just been
set up (`newSlab_run`, `inv_newSlab`); `memAlloc_spec` is the call. The object it returns was not
held, and it fails only if the objects that wait for the core are more than are counted
(`memAlloc_ne_none`).
-/

namespace Parsec.Slab

open Function Lib

variable {ε ι : Type} {g : Geom} {f : Fns ε ι} {A : World ε → ℕ → ι → Prop} {K : World ε → Prop}
  {P : ℕ → Prop} {w w' : World ε}
  {hd : ℕ → Option Obj} {H : Set Obj} {cont : Key → List Obj} {o : Obj} {s c b : ℕ}

/-! ## From a slab with a free object -/

/-- An object that is taken from the freelist of its slab. -/
theorem inv_popFree (hI : Inv g w P hd H cont) {l : List Obj} (hs : w.slabs s = true)
    (hn : 2 ≤ g.nobjs) (hc : cont (.free s) = o :: l) {n p : ℕ → ℕ} {fl : ℕ → Option ℕ}
    (hl : OnLists n p fl fun c' s' => w.slabs s' = true ∧ w.coreid s' = c' ∧
      update w.nfree s l.length s' ≠ 0)
    (hx : ∀ s', w.slabs s' = true → update w.nfree s l.length s' = 0 → n s' = s' ∧ p s' = s')
    (hw' : w' = { w with
      freelist := update w.freelist s (w.next o)
      next := update w.next o none
      nfree := update w.nfree s l.length
      tscFree := update w.tscFree o 0
      listN := n
      listP := p
      flist := fl }) :
    Inv g w' P hd (insert o H) (update cont (.free s) l) := by
  have hw : SameSlabs w w' := by
    subst hw'
    exact ⟨⟨rfl, rfl, rfl, rfl, rfl⟩, rfl, rfl, rfl⟩
  have hlen := hI.freelists.nfree s hs
  rw [hc, List.length_cons] at hlen
  obtain ⟨s', hos, hse, ht⟩ := hI.members.listed (.free s) o (hc ▸ List.mem_cons_self)
  rw [hse] at hos
  have hh : heads g w' hd = update (heads g w hd) (.free s) (w.next o) := by
    subst hw'
    exact heads_free hs hn rfl rfl rfl rfl
  have hnext : w'.next = update w.next o none := by rw [hw']
  constructor
  · rw [hh, hnext]
    exact hI.chains.pop hc none
  · exact hw.slabs_of hI.slabs
  · subst hw'
    constructor
    · intro s' hs'
      show (update cont (.free s) l (.free s')).length = update w.nfree s l.length s'
      by_cases he : s' = s
      · subst he
        rw [update_self, update_self]
      · rw [update_of_ne (by simp [he]), update_of_ne he]
        exact hI.freelists.nfree s' hs'
    · intro h32 s' hs'
      show update w.nfree s l.length s' < g.nobjs
      by_cases he : s' = s
      · subst he
        have := hI.freelists.lt h32 s' hs'
        rw [update_self]
        omega
      · rw [update_of_ne he]
        exact hI.freelists.lt h32 s' hs'
    · exact hl
    · exact hx
  · refine hI.members.take hI.chains hw hc (fun a hne => ?_) (fun a hne => ?_)
      ⟨⟨s, hw.inSlab.mpr hos⟩, ?_, ?_⟩
    · rw [hw']
      exact update_of_ne hne ..
    · rw [hw']
      exact update_of_ne hne ..
    · rw [hw']
      exact update_self ..
    · rw [hw']
      exact update_self ..
  · refine hI.counters.congr (by rw [hw']) (by rw [hw']) (by rw [hw']) (by rw [hw']) (by rw [hw'])
      (by rw [hw']) (fun c' => ?_) fun k' => ?_
    · rw [update_of_ne (by simp)]
    · rw [update_of_ne (by simp)]

/-- A slab on the freelist of a core has an object to take. -/
theorem popFree_spec (hB : Backing g f A K) (hI : Inv g w P hd H cont) (hK : K w)
    (hs : w.slabs s = true) (hc : w.coreid s = c) (h0 : w.nfree s ≠ 0) :
    ∃ o w' cont', popFree g w s c = some (o, w') ∧ o ∉ H ∧ Inv g w' P hd (insert o H) cont' ∧ K w' ∧
      SameQueues w w' cont cont' ∧ SameSlabs w w' ∧ w'.nfree = update w.nfree s (w.nfree s - 1) := by
  have hlen := hI.freelists.nfree s hs
  rcases hl : cont (.free s) with _ | ⟨o, l⟩
  · rw [hl] at hlen
    exact absurd hlen.symm h0
  rw [hl, List.length_cons] at hlen
  have hmem : o ∈ cont (.free s) := hl ▸ List.mem_cons_self
  have hchain := hI.chains.chain (.free s)
  rw [hl] at hchain
  have hn : 2 ≤ g.nobjs := by
    by_contra hn
    have hnone : heads g w hd (.free s) = none := by simp [heads, hn]
    rw [hnone] at hchain
    cases hchain.1
  have hfree : w.freelist s = some o := by
    have h := hchain.1
    simpa [heads, hs, hn] using h
  have hoH : o ∉ H := fun h => hI.members.off o h _ hmem
  have hsame : ∀ {w' : World ε}, w'.tscFree = update w.tscFree o 0 → w'.qmemcnt = w.qmemcnt →
      w'.qmemtarget = w.qmemtarget → w'.ps = w.ps →
      SameQueues w w' cont (update cont (.free s) l) := by
    intro w' ht hqc hqm hps
    refine ⟨fun c => update_of_ne (by simp) .., fun c' a ha => ?_, hqc, hqm, hps⟩
    rw [ht, update_of_ne]
    rintro rfl
    exact absurd (hI.chains.disjoint ha hmem) (by simp)
  have hpred : predWord g.arch (w.nfree s) = w.nfree s - 1 := predWord_of_ne h0
  have hnf : w.nfree s - 1 = l.length := by omega
  unfold popFree
  rw [hfree]
  simp only [hpred, hnf, update_self]
  by_cases hl0 : l.length = 0
  · -- the last free object: the slab leaves the freelist of its core
    obtain ⟨n, p, fl, hrem, hlists, hsn, hsp, hx⟩ := freelistRem_spec (w := { w with
      freelist := update w.freelist s (w.next o)
      next := update w.next o none
      nfree := update w.nfree s l.length
      tscFree := update w.tscFree o 0 }) (c := c) hI.freelists.lists ⟨hs, hc, h0⟩
    have hnf' : ∀ s', update w.nfree s l.length s' = if s' = s then 0 else w.nfree s' := by
      intro s'
      rw [update_apply, hl0]
    rw [if_pos hl0]
    simp only [hrem]
    rw [if_pos ⟨hsn, update_self ..⟩]
    refine ⟨o, _, _, rfl, hoH, inv_popFree hI hs hn hl (hlists.congr (fun _ _ _ => rfl)
      (fun _ _ _ => rfl) fun c' s' => ?_) (fun s' hs' h => ?_) rfl, ?_, hsame rfl rfl rfl rfl,
        ⟨⟨rfl, rfl, rfl, rfl, rfl⟩, rfl, rfl, rfl⟩, rfl⟩
    · rw [hnf']
      by_cases he : s' = s
      · simp [he]
      · simp [he]
    · rw [hnf'] at h
      by_cases he : s' = s
      · rw [he]
        exact ⟨hsn, hsp⟩
      · rw [if_neg he] at h
        obtain ⟨h₁, h₂⟩ := hx s' fun c h' => h'.2.2 h
        obtain ⟨h₃, h₄⟩ := hI.freelists.single s' hs' h
        exact ⟨h₁.trans h₃, h₂.trans h₄⟩
    · have hw : SameEnv w { w with
          freelist := update w.freelist s (w.next o)
          next := update w.next o none
          nfree := update w.nfree s l.length
          tscFree := update w.tscFree o 0
          listN := n
          listP := p
          flist := fl } := ⟨rfl, rfl, rfl, rfl, rfl⟩
      exact hB.congr hw hK
  · rw [if_neg hl0, if_pos trivial]
    refine ⟨o, _, _, rfl, hoH, inv_popFree hI hs hn hl (hI.freelists.lists.congr (fun _ _ _ => rfl)
      (fun _ _ _ => rfl) fun c' s' => ?_) (fun s' hs' h => ?_) rfl, ?_, hsame rfl rfl rfl rfl,
        ⟨⟨rfl, rfl, rfl, rfl, rfl⟩, rfl, rfl, rfl⟩, rfl⟩
    · by_cases he : s' = s
      · subst he
        simp [hl0, h0]
      · rw [update_of_ne he]
    · by_cases he : s' = s
      · rw [he, update_self] at h
        exact absurd h hl0
      · rw [update_of_ne he] at h
        exact hI.freelists.single s' hs' h
    · have hw : SameEnv w { w with
          freelist := update w.freelist s (w.next o)
          next := update w.next o none
          nfree := update w.nfree s l.length
          tscFree := update w.tscFree o 0 } := ⟨rfl, rfl, rfl, rfl, rfl⟩
      exact hB.congr hw hK

/-! ## From a new slab -/

/-- What the loop of `__ps_slab_init` does to the headers: an object leads to the next one, and the
last one is left alone, unless it is the only one. -/
theorem initLoop_spec (s b k : ℕ) (w : World ε) :
    ∃ sl ts nx, initLoop g s b k w = { w with slab := sl, tscFree := ts, next := nx } ∧
      (∀ o, (∀ i < k, o ≠ g.obj b i) → sl o = w.slab o ∧ ts o = w.tscFree o ∧ nx o = w.next o) ∧
      (∀ i < k, sl (g.obj b i) = some s ∧ ts (g.obj b i) = 1) ∧
      (∀ i, i + 1 < k → nx (g.obj b i) = some (g.obj b (i + 1))) ∧
      (2 ≤ k → nx (g.obj b (k - 1)) = w.next (g.obj b (k - 1))) := by
  induction k with
  | zero =>
      exact ⟨_, _, _, rfl, fun _ _ => ⟨rfl, rfl, rfl⟩, fun i hi => by omega, fun i hi => by omega,
        fun h => by omega⟩
  | succ i ih =>
      obtain ⟨sl, ts, nx, hrun, hoff, hon, hnext, hlast⟩ := ih
      have hinj : ∀ {j j'}, j ≠ j' → g.obj b j ≠ g.obj b j' := fun hne he => hne (obj_inj he).2
      refine ⟨update sl (g.obj b i) (some s), update ts (g.obj b i) 1,
        update nx (g.obj b (i - 1)) (some (g.obj b i)), ?_, fun o ho => ?_, fun j hj => ?_,
        fun j hj => ?_, fun h2 => ?_⟩
      · simp only [initLoop, hrun]
      · rw [update_of_ne (ho i (by omega)), update_of_ne (ho i (by omega)),
          update_of_ne (ho (i - 1) (by omega))]
        exact hoff o fun j hj => ho j (by omega)
      · by_cases he : j = i
        · rw [he, update_self, update_self]
          exact ⟨rfl, rfl⟩
        · rw [update_of_ne (hinj he), update_of_ne (hinj he)]
          exact hon j (by omega)
      · by_cases he : j = i - 1
        · have hj' : j + 1 = i := by omega
          rw [hj', he, update_self]
        · rw [update_of_ne (hinj he)]
          exact hnext j (by omega)
      · have he : i + 1 - 1 = i := rfl
        rw [he, update_of_ne (hinj (by omega))]
        exact (hoff _ fun j hj => hinj (by omega)).2.2

/-- A world in which core `c` has set up slab `s` in block `b`, and has taken its first object. The
slabs on freelists were those with `M`. -/
structure NewSlab (g : Geom) (M : ℕ → ℕ → Prop) (w : World ε) (s b c : ℕ) (w' : World ε) :
    Prop where
  slabs : w'.slabs = update w.slabs s true
  nfree : w'.nfree = update w.nfree s (g.nobjs - 1)
  coreid : w'.coreid = update w.coreid s c
  nslabs : w'.nslabs = update w.nslabs c (w.nslabs c + 1)
  freelist : ∃ v, w'.freelist = update w.freelist s v ∧ (2 ≤ g.nobjs → v = some (g.obj b 1))
  off : ∀ o, (∀ i < g.nobjs, o ≠ g.obj b i) →
    w'.slab o = w.slab o ∧ w'.tscFree o = w.tscFree o ∧ w'.next o = w.next o
  slab : ∀ i < g.nobjs, w'.slab (g.obj b i) = some s
  held : w'.tscFree (g.obj b 0) = 0 ∧ w'.next (g.obj b 0) = none
  free : ∀ i, 0 < i → i < g.nobjs → w'.tscFree (g.obj b i) = 1
  next : ∀ i, 0 < i → i + 1 < g.nobjs → w'.next (g.obj b i) = some (g.obj b (i + 1))
  last : 2 ≤ g.nobjs → w'.next (g.obj b (g.nobjs - 1)) = w.next (g.obj b (g.nobjs - 1))
  lists : OnLists w'.listN w'.listP w'.flist fun c' s' =>
    g.nobjs ≠ 1 ∧ c' = c ∧ s' = s ∨ M c' s'
  others : ∀ s', (∀ c, ¬ M c s') → s' ≠ s → w'.listN s' = w.listN s' ∧ w'.listP s' = w.listP s'
  single : g.nobjs = 1 → w'.listN s = s ∧ w'.listP s = s
  rest : w'.memory = w.memory ∧ w'.start = w.start ∧ w'.end_ = w.end_ ∧ w'.env = w.env ∧
    w'.remoteToken = w.remoteToken ∧ w'.remoteFrees = w.remoteFrees ∧ w'.pushed = w.pushed ∧
    w'.ps = w.ps ∧ w'.qscHead = w.qscHead ∧ w'.qscTail = w.qscTail ∧ w'.qmemcnt = w.qmemcnt ∧
    w'.qmemtarget = w.qmemtarget

/-- Setting a slab up succeeds, and yields its first object. -/
theorem newSlab_run {M : ℕ → ℕ → Prop} (hl : OnLists w.listN w.listP w.flist M)
    (hs : ∀ c, ¬ M c s) (hb : w.memory s = some b) (c : ℕ) :
    ∃ w', newSlab g w s c = some (some (g.obj b 0), w') ∧ NewSlab g M w s b c w' := by
  have hpos := nobjs_pos g
  obtain ⟨sl, ts, nx, hrun, hoff, hon, hnext, hlast⟩ := initLoop_spec (g := g) s b g.nobjs
    { w with
      slabs := update w.slabs s true
      nfree := update w.nfree s g.nobjs
      memsz := update w.memsz s g.allocsz
      coreid := update w.coreid s c
      freelist := update w.freelist s (some (g.obj b 0)) }
  have hne : ∀ {c s'}, M c s' → s' ≠ s := fun h e => hs _ (e ▸ h)
  have hl₁ : OnLists (update w.listN s s) (update w.listP s s) w.flist M :=
    hl.congr (fun c' s' h => update_of_ne (hne h) ..) (fun c' s' h => update_of_ne (hne h) ..)
      fun _ _ => Iff.rfl
  obtain ⟨n, p, fl, hadd, hl₂, hx₂⟩ := freelistAdd_spec
    (w := { w with
      slab := sl
      tscFree := ts
      next := nx
      slabs := update w.slabs s true
      nfree := update w.nfree s g.nobjs
      memsz := update w.memsz s g.allocsz
      coreid := update w.coreid s c
      freelist := update w.freelist s (some (g.obj b 0))
      listN := update w.listN s s
      listP := update w.listP s s }) hl₁ hs (update_self ..) (update_self ..) c
  have hle := obj_nobjs_le g b
  have hinj : ∀ {j}, 0 < j → g.obj b j ≠ g.obj b 0 := by
    intro j hj he
    have := (obj_inj he).2
    omega
  have hnew : ∀ {n p fl}, OnLists n p fl (fun c' s' => g.nobjs ≠ 1 ∧ c' = c ∧ s' = s ∨ M c' s') →
      (∀ s', (∀ c, ¬ M c s') → s' ≠ s → n s' = w.listN s' ∧ p s' = w.listP s') →
      (g.nobjs = 1 → n s = s ∧ p s = s) → NewSlab g M w s b c { w with
        slab := sl
        tscFree := update ts (g.obj b 0) 0
        next := update nx (g.obj b 0) none
        slabs := update w.slabs s true
        nfree := update w.nfree s (g.nobjs - 1)
        memsz := update w.memsz s g.allocsz
        coreid := update w.coreid s c
        freelist := update w.freelist s (nx (g.obj b 0))
        listN := n
        listP := p
        flist := fl
        nslabs := update w.nslabs c (w.nslabs c + 1) } := by
    intro n p fl h₁ h₂ h₃
    refine ⟨rfl, rfl, rfl, rfl, ⟨_, rfl, fun h => hnext 0 h⟩, fun o ho => ?_, fun i hi => (hon i hi).1,
      ⟨update_self .., update_self ..⟩, fun i hi hlt => ?_, fun i hi hlt => ?_, fun h => ?_, h₁, h₂,
      h₃, ⟨rfl, rfl, rfl, rfl, rfl, rfl, rfl, rfl, rfl, rfl, rfl, rfl⟩⟩
    · have hne := ho 0 hpos
      obtain ⟨h₁, h₂, h₃⟩ := hoff o ho
      exact ⟨h₁, (update_of_ne hne ..).trans h₂, (update_of_ne hne ..).trans h₃⟩
    · exact (update_of_ne (hinj hi) ..).trans (hon i hlt).2
    · exact (update_of_ne (hinj hi) ..).trans (hnext i hlt)
    · exact (update_of_ne (hinj (by omega)) ..).trans (hlast h)
  unfold newSlab slabInit
  simp only [hb, hrun, if_pos hle, hadd, Option.bind_eq_bind, Option.bind_some, update_self]
  rw [if_pos ⟨by simp, by simp⟩]
  unfold popFree
  simp only [update_self, update_idem, predWord_of_ne hpos.ne']
  by_cases h1 : g.nobjs - 1 = 0
  · obtain ⟨n', p', fl', hrem, hl₃, hsn, hsp, hx₃⟩ := freelistRem_spec (s := s) (c := c)
      (w := { w with
        slab := sl
        tscFree := update ts (g.obj b 0) 0
        next := update nx (g.obj b 0) none
        slabs := update w.slabs s true
        nfree := update w.nfree s (g.nobjs - 1)
        memsz := update w.memsz s g.allocsz
        coreid := update w.coreid s c
        freelist := update w.freelist s (nx (g.obj b 0))
        listN := n
        listP := p
        flist := fl
        nslabs := update w.nslabs c (w.nslabs c + 1) }) hl₂ (.inl ⟨rfl, rfl⟩)
    rw [if_pos h1]
    simp only [hrem]
    rw [if_pos ⟨hsn, update_self ..⟩]
    refine ⟨_, rfl, hnew (hl₃.congr (fun _ _ _ => rfl) (fun _ _ _ => rfl) fun c' s' => ?_) ?_
      fun _ => ⟨hsn, hsp⟩⟩
    · have hone : g.nobjs = 1 := by omega
      constructor
      · rintro (⟨h, -⟩ | h)
        · exact absurd hone h
        · exact ⟨hne h, .inr h⟩
      · rintro ⟨hs', ⟨-, rfl⟩ | h⟩
        · exact absurd rfl hs'
        · exact .inr h
    · intro s' hM hs'
      obtain ⟨h₁, h₂⟩ := hx₃ s' fun c' h => h.elim (fun h => hs' h.2) (hM c')
      obtain ⟨h₃, h₄⟩ := hx₂ s' hs' hM
      exact ⟨h₁.trans (h₃.trans (update_of_ne hs' ..)), h₂.trans (h₄.trans (update_of_ne hs' ..))⟩
  · rw [if_neg h1, if_pos trivial]
    refine ⟨_, rfl, hnew (hl₂.congr (fun _ _ _ => rfl) (fun _ _ _ => rfl) fun c' s' => ?_) ?_
      fun h => by omega⟩
    · have hone : g.nobjs ≠ 1 := by omega
      simp only [ne_eq, hone, not_false_eq_true, true_and]
    · intro s' hM hs'
      obtain ⟨h₃, h₄⟩ := hx₂ s' hs' hM
      exact ⟨h₃.trans (update_of_ne hs' ..), h₄.trans (update_of_ne hs' ..)⟩

/-- The freelist of a slab that has been set up, without its first object. -/
def newFree (g : Geom) (b : ℕ) : List Obj := (List.range' 1 (g.nobjs - 1)).map (g.obj b)

/-- The objects that a new slab has free: all but the first. -/
theorem mem_newFree {a : Obj} : a ∈ newFree g b ↔ ∃ i, 0 < i ∧ i < g.nobjs ∧ a = g.obj b i := by
  unfold newFree
  simp only [List.mem_map, List.mem_range'_1]
  constructor
  · rintro ⟨i, hi, rfl⟩
    exact ⟨i, by omega, by omega, rfl⟩
  · rintro ⟨i, hi, hlt, rfl⟩
    exact ⟨i, by omega, rfl⟩

/-- Objects of slabs in use are not in the memory of a fresh one. -/
theorem Fresh.ne_obj (hb : ∀ s', w.slabs s' = true → w.memory s' ≠ some b) {a : Obj}
    (ha : InSlab g w s a) (i : ℕ) : a ≠ g.obj b i := by
  obtain ⟨hs, b', i', hb', -, rfl⟩ := ha
  intro he
  exact hb s hs ((obj_inj he).1 ▸ hb')

/-- A slab that is not in use differs from those that are. -/
theorem ne_of_not_slabs {s' : ℕ} (hs : w.slabs s = false) (h : w.slabs s' = true) : s' ≠ s := by
  rintro rfl
  rw [hs] at h
  cases h

namespace NewSlab

variable {M : ℕ → ℕ → Prop} {s' : ℕ} {a : Obj}

/-- The slabs in use are those before, and the new one. -/
theorem slabs_iff (hN : NewSlab g M w s b c w') :
    w'.slabs s' = true ↔ s' = s ∨ w.slabs s' = true := by
  rw [hN.slabs, update_apply]
  by_cases he : s' = s <;> simp [he]

/-- What is in a slab: in the new one, the objects of its memory. -/
theorem inSlab (hN : NewSlab g M w s b c w') (hs : w.slabs s = false) (hb : w.memory s = some b) :
    InSlab g w' s' a ↔ (s' = s ∧ ∃ i < g.nobjs, a = g.obj b i) ∨ InSlab g w s' a := by
  unfold InSlab
  rw [hN.slabs, hN.rest.1]
  by_cases he : s' = s
  · subst he
    simp [hs, hb]
  · simp [he]

/-- The objects of the other slabs stay as they are. -/
theorem same_of_inSlab (hN : NewSlab g M w s b c w')
    (hbs : ∀ s', w.slabs s' = true → w.memory s' ≠ some b) (ha : InSlab g w s' a) :
    w'.slab a = w.slab a ∧ w'.tscFree a = w.tscFree a ∧ w'.next a = w.next a :=
  hN.off _ fun i _ => Fresh.ne_obj hbs ha i

/-- The other slabs are of the same cores. -/
theorem coreid_of (hN : NewSlab g M w s b c w') (hs : w.slabs s = false) (h : w.slabs s' = true) :
    w'.coreid s' = w.coreid s' := by
  rw [hN.coreid, update_of_ne (ne_of_not_slabs hs h)]

/-- The other slabs have as many free objects. -/
theorem nfree_of (hN : NewSlab g M w s b c w') (hs : w.slabs s = false) (h : w.slabs s' = true) :
    w'.nfree s' = w.nfree s' := by
  rw [hN.nfree, update_of_ne (ne_of_not_slabs hs h)]

/-- What is on a list afterwards. -/
theorem mem_cont {k : Key} (ha : a ∈ update cont (.free s) (newFree g b) k) :
    (k = .free s ∧ a ∈ newFree g b) ∨ (k ≠ .free s ∧ a ∈ cont k) := by
  by_cases hk : k = .free s
  · subst hk
    rw [update_self] at ha
    exact .inl ⟨rfl, ha⟩
  · rw [update_of_ne hk] at ha
    exact .inr ⟨hk, ha⟩

/-- The new freelist is chained, and its objects are on no other list. -/
theorem chains_of (hN : NewSlab g M w s b c w')
    (hbs : ∀ s', w.slabs s' = true → w.memory s' ≠ some b) (hz : ∀ i, w.next (g.obj b i) = none)
    (hC : Chains w.next (heads g w hd) cont) (hM : Members g w P H cont) :
    Chains w'.next (heads g w' hd) (update cont (.free s) (newFree g b)) := by
  have hpos := nobjs_pos g
  obtain ⟨-, -, -, -, -, hrem, -, -, hqh, -, -, -⟩ := hN.rest
  obtain ⟨v, hfree, hv⟩ := hN.freelist
  have hh : heads g w' hd = update (heads g w hd) (.free s)
      (if g.nobjs - 1 = 0 then none else some (g.obj b 1)) := by
    funext k
    cases k with
    | free s' =>
        by_cases he : s' = s
        · subst he
          rw [update_self]
          by_cases h2 : 2 ≤ g.nobjs
          · have h1 : g.nobjs - 1 ≠ 0 := by omega
            simp [heads, hN.slabs, hfree, h2, hv h2, h1]
          · have h1 : g.nobjs - 1 = 0 := by omega
            simp [heads, h2, h1]
        · simp [heads, hN.slabs, hfree, he]
    | _ => simp [heads, hqh, hrem]
  have hchain : Chain w'.next (if g.nobjs - 1 = 0 then none else some (g.obj b 1))
      (newFree g b) := by
    refine chain_range' rfl (fun j h₁ h₂ => hN.next j h₁ (by omega)) fun h1 => ?_
    have he : 1 + (g.nobjs - 1) - 1 = g.nobjs - 1 := by omega
    rw [he, hN.last (by omega), hz]
  rw [hh]
  refine (hC.congr fun k a ha => ?_).insert hchain fun a ha k hk => ?_
  · obtain ⟨s', hs', -⟩ := hM.listed k a ha
    exact (hN.same_of_inSlab hbs hs').2.2
  · obtain ⟨i, -, -, rfl⟩ := mem_newFree.mp ha
    obtain ⟨s', hs', -⟩ := hM.listed k _ hk
    exact Fresh.ne_obj hbs hs' i rfl

/-- The slabs stay well formed, and the new one is counted. -/
theorem slabs_of (hN : NewSlab g M w s b c w') (hs : w.slabs s = false) (hb : w.memory s = some b)
    (hbs : ∀ s', w.slabs s' = true → w.memory s' ≠ some b) (hc : c < g.numCores)
    (hS : Slabs g w) : Slabs g w' := by
  have hmem := hN.rest.1
  constructor
  · intro s' hs'
    rw [hmem]
    rcases hN.slabs_iff.mp hs' with rfl | hs'
    · exact ⟨b, hb⟩
    · exact hS.memory s' hs'
  · intro s₁ s₂ b' h₁ h₂ hb₁ hb₂
    rw [hmem] at hb₁ hb₂
    rcases hN.slabs_iff.mp h₁ with rfl | h₁ <;> rcases hN.slabs_iff.mp h₂ with rfl | h₂
    · rfl
    · exact absurd (hb₂.trans (hb₁.symm.trans hb)) (hbs s₂ h₂)
    · exact absurd (hb₁.trans (hb₂.symm.trans hb)) (hbs s₁ h₁)
    · exact hS.inj s₁ s₂ b' h₁ h₂ hb₁ hb₂
  · intro s' a ha
    rcases (hN.inSlab hs hb).mp ha with ⟨rfl, i, hi, rfl⟩ | ha
    · exact hN.slab i hi
    · rw [(hN.same_of_inSlab hbs ha).1]
      exact hS.slab s' a ha
  · intro s' hs'
    rcases hN.slabs_iff.mp hs' with rfl | hs'
    · rw [hN.coreid, update_self]
      exact hc
    · rw [hN.coreid_of hs hs']
      exact hS.core s' hs'
  · intro c'
    obtain ⟨l, hl, hm, hlen⟩ := hS.owned c'
    have hsl : s ∉ l := fun h => ne_of_not_slabs hs ((hm s).mp h).1 rfl
    rw [hN.nslabs]
    by_cases hcc : c' = c
    · subst hcc
      refine ⟨s :: l, List.nodup_cons.mpr ⟨hsl, hl⟩, fun s' => ?_, ?_⟩
      · rw [List.mem_cons, hm, hN.slabs_iff]
        by_cases he : s' = s
        · subst he
          simp [hN.coreid]
        · rw [hN.coreid, update_of_ne he]
          simp [he]
      · rw [update_self, List.length_cons, hlen]
    · refine ⟨l, hl, fun s' => ?_, ?_⟩
      · rw [hm, hN.slabs_iff]
        by_cases he : s' = s
        · subst he
          simp [hN.coreid, Ne.symm hcc, hs]
        · rw [hN.coreid, update_of_ne he]
          simp [he]
      · rw [update_of_ne hcc, hlen]

/-- The freelists of slabs stay exact. The new slab is on its core's if it has a free object left. -/
theorem freelists_of
    (hN : NewSlab g (fun c s => w.slabs s = true ∧ w.coreid s = c ∧ w.nfree s ≠ 0) w s b c w')
    (hs : w.slabs s = false) (hF : Freelists g w cont) :
    Freelists g w' (update cont (.free s) (newFree g b)) := by
  have hpos := nobjs_pos g
  constructor
  · intro s' hs'
    rcases hN.slabs_iff.mp hs' with rfl | hs'
    · rw [update_self, hN.nfree, update_self]
      simp [newFree]
    · rw [update_of_ne (by simp [ne_of_not_slabs hs hs']), hN.nfree_of hs hs']
      exact hF.nfree s' hs'
  · intro h32 s' hs'
    rcases hN.slabs_iff.mp hs' with rfl | hs'
    · rw [hN.nfree, update_self]
      omega
    · rw [hN.nfree_of hs hs']
      exact hF.lt h32 s' hs'
  · refine hN.lists.congr (fun _ _ _ => rfl) (fun _ _ _ => rfl) fun c' s' => ?_
    rw [hN.slabs_iff]
    by_cases he : s' = s
    · subst he
      rw [hN.coreid, hN.nfree, update_self, update_self]
      simp only [true_and, hs, Bool.false_eq_true, false_and, or_false, and_true]
      constructor
      · rintro ⟨h₁, h₂⟩
        exact ⟨by omega, h₁.symm⟩
      · rintro ⟨h₁, h₂⟩
        exact ⟨h₂.symm, by omega⟩
    · rw [hN.coreid, hN.nfree, update_of_ne he, update_of_ne he]
      simp [he]
  · intro s' hs' h0
    rcases hN.slabs_iff.mp hs' with rfl | hs'
    · rw [hN.nfree, update_self] at h0
      exact hN.single (by omega)
    · rw [hN.nfree_of hs hs'] at h0
      obtain ⟨h₁, h₂⟩ := hN.others s' (fun c h => h.2.2 h0) (ne_of_not_slabs hs hs')
      obtain ⟨h₃, h₄⟩ := hF.single s' hs' h0
      exact ⟨h₁.trans h₃, h₂.trans h₄⟩

/-- The first object is held, the others are on the new freelist. -/
theorem members_of (hN : NewSlab g M w s b c w') (hs : w.slabs s = false) (hb : w.memory s = some b)
    (hbs : ∀ s', w.slabs s' = true → w.memory s' ≠ some b) (hnil : cont (.free s) = [])
    (hM : Members g w P H cont) :
    Members g w' P (insert (g.obj b 0) H) (update cont (.free s) (newFree g b)) := by
  have hpos := nobjs_pos g
  constructor
  · intro k a ha
    rcases mem_cont ha with ⟨rfl, hf⟩ | ⟨hk, ha⟩
    · obtain ⟨i, hi, hlt, rfl⟩ := mem_newFree.mp hf
      refine ⟨s, (hN.inSlab hs hb).mpr (.inl ⟨rfl, i, hlt, rfl⟩), rfl, ?_⟩
      rw [hN.free i hi hlt]
      exact one_ne_zero
    · obtain ⟨s', hs', h⟩ := hM.listed k a ha
      refine ⟨s', (hN.inSlab hs hb).mpr (.inr hs'), ?_⟩
      rw [hN.coreid_of hs hs'.1, (hN.same_of_inSlab hbs hs').2.1]
      exact h
  · rintro a (rfl | ha)
    · exact ⟨⟨s, (hN.inSlab hs hb).mpr (.inl ⟨rfl, 0, hpos, rfl⟩)⟩, hN.held.1, hN.held.2⟩
    · obtain ⟨⟨s', hs'⟩, ht, hx⟩ := hM.held a ha
      obtain ⟨-, ht', hx'⟩ := hN.same_of_inSlab hbs hs'
      exact ⟨⟨s', (hN.inSlab hs hb).mpr (.inr hs')⟩, ht'.trans ht, hx'.trans hx⟩
  · rintro a ha k hk
    rcases mem_cont hk with ⟨-, hk⟩ | ⟨-, hk⟩
    · obtain ⟨i, hi, -, rfl⟩ := mem_newFree.mp hk
      rcases ha with he | ha
      · have := (obj_inj he).2
        omega
      · obtain ⟨⟨s', hs'⟩, -, -⟩ := hM.held _ ha
        exact Fresh.ne_obj hbs hs' i rfl
    · rcases ha with rfl | ha
      · obtain ⟨s', hs', -⟩ := hM.listed k _ hk
        exact Fresh.ne_obj hbs hs' 0 rfl
      · exact hM.off a ha k hk
  · intro s' a ha
    rcases (hN.inSlab hs hb).mp ha with ⟨-, i, hi, rfl⟩ | ha
    · rcases Nat.eq_zero_or_pos i with rfl | hi0
      · exact .inl (.inl rfl)
      · refine .inr ⟨.free s, ?_⟩
        rw [update_self]
        exact mem_newFree.mpr ⟨i, hi0, hi, rfl⟩
    · rcases hM.total s' a ha with hH | ⟨k, hk⟩
      · exact .inl (.inr hH)
      · refine .inr ⟨k, ?_⟩
        rwa [update_of_ne]
        rintro rfl
        rw [hnil] at hk
        cases hk

end NewSlab

/-- The first object of a new slab is held, and the others are on its freelist. -/
theorem inv_newSlab (hI : Inv g w P hd H cont) (hs : w.slabs s = false) (hb : w.memory s = some b)
    (hbs : ∀ s', w.slabs s' = true → w.memory s' ≠ some b) (hz : ∀ i, w.next (g.obj b i) = none)
    (hc : c < g.numCores)
    (hN : NewSlab g (fun c s => w.slabs s = true ∧ w.coreid s = c ∧ w.nfree s ≠ 0) w s b c w') :
    g.obj b 0 ∉ H ∧ Inv g w' P hd (insert (g.obj b 0) H) (update cont (.free s) (newFree g b)) ∧
      SameQueues w w' cont (update cont (.free s) (newFree g b)) := by
  obtain ⟨-, -, -, -, htok, -, hpush, hps, -, hqt, hqc, hqm⟩ := hN.rest
  have hnil : cont (.free s) = [] := by
    have hch := hI.chains.chain (.free s)
    have hnone : heads g w hd (.free s) = none := by simp [heads, hs]
    rw [hnone] at hch
    exact chain_none_iff.mp hch
  have hqueue : ∀ c', update cont (.free s) (newFree g b) (.queue c') = cont (.queue c') :=
    fun c' => update_of_ne (by simp) ..
  refine ⟨fun h => ?_, ⟨hN.chains_of hbs hz hI.chains hI.members,
    hN.slabs_of hs hb hbs hc hI.slabs, hN.freelists_of hs hI.freelists,
    hN.members_of hs hb hbs hnil hI.members, ?_⟩, hqueue, fun c' a ha => ?_, hqc, hqm, hps⟩
  · obtain ⟨⟨s', hs'⟩, -, -⟩ := hI.members.held _ h
    exact Fresh.ne_obj hbs hs' 0 rfl
  · refine hI.counters.congr hqt hqc hqm hps htok hpush.ge hqueue fun k => ?_
    rw [update_of_ne (by simp)]
  · obtain ⟨s', hs', -⟩ := hI.members.listed _ a ha
    exact (hN.same_of_inSlab hbs hs').2.1

/-! ## The call -/

/-- What others have freed for a core is freed at times, unless it is not counted. -/
theorem allocPrep_spec (hB : Backing g f A K) (hfit : CountFits g)
    (hI : Inv g w P (fun _ => none) H cont) (hK : K w) :
    ∃ w' cont', (allocPrep g f w c = some w' ∨ allocPrep g f w c = none ∧ ¬ Counted w c) ∧
      Inv g w' P (fun _ => none) H cont' ∧ K w' ∧ SameQueues w w' cont cont' := by
  obtain ⟨w₁, hw₁⟩ : ∃ w₁ : World ε, w₁ = { w with
      salloccnt := update w.salloccnt c ((w.salloccnt c + 1) % 2 ^ wordBits g.arch) } := ⟨_, rfl⟩
  have hI₁ : Inv g w₁ P (fun _ => none) H cont := by
    subst hw₁
    exact hI.setToken (t := w.remoteToken) hI.counters.token
  have hK₁ : K w₁ := by
    have hw : SameEnv w w₁ := by
      subst hw₁
      exact ⟨rfl, rfl, rfl, rfl, rfl⟩
    exact hB.congr hw hK
  have hq : SameQueues w w₁ cont cont := by
    subst hw₁
    exact ⟨fun _ => rfl, fun _ _ _ => rfl, rfl, rfl, rfl⟩
  have hcnt : Counted w c → Counted w₁ c := by
    subst hw₁
    exact id
  unfold allocPrep
  simp only [← hw₁]
  split_ifs
  · obtain ⟨w', cont', hrun, hI', hK', hq'⟩ := memRemoteProcess_spec hB hfit hI₁ hK₁
    exact ⟨w', cont', hrun.imp_right fun h => ⟨h.1, fun hC => h.2 (hcnt hC)⟩, hI', hK', hq.trans hq'⟩
  · exact ⟨w₁, cont, .inl rfl, hI₁, hK₁, hq⟩

/-- What an allocation does before it picks a slab keeps the invariant, if it returns. -/
theorem allocPrep_kept (hB : Backing g f A K) (hfit : CountFits g)
    (hI : Inv g w P (fun _ => none) H cont) (hK : K w) (hprep : allocPrep g f w c = some w') :
    ∃ cont', Inv g w' P (fun _ => none) H cont' ∧ K w' ∧ SameQueues w w' cont cont' := by
  obtain ⟨w₁, cont', hrun | ⟨hrun, -⟩, h⟩ := allocPrep_spec (c := c) hB hfit hI hK
  · obtain rfl : w₁ = w' := Option.some.inj (hrun.symm.trans hprep)
    exact ⟨cont', h⟩
  · rw [hprep] at hrun
    cases hrun

/-- An allocation, once what others have freed has been freed. -/
theorem memAlloc_of_prep (hB : Backing g f A K) (hfit : CountFits g) (hc : c < g.numCores)
    (hI : Inv g w P (fun _ => none) H cont) (hK : K w) {w₁ : World ε}
    (hprep : allocPrep g f w c = some w₁) {i : ι} (hA : w₁.flist c = none → A w₁ c i) :
    (∃ w' cont', memAlloc g f w c i = some (none, w') ∧ Inv g w' P (fun _ => none) H cont' ∧ K w' ∧
      SameQueues w w' cont cont') ∨
    ∃ o w' cont', memAlloc g f w c i = some (some o, w') ∧ o ∉ H ∧
      Inv g w' P (fun _ => none) (insert o H) cont' ∧ K w' ∧ SameQueues w w' cont cont' := by
  have hguard := objSz_le_allocsz g
  obtain ⟨cont₁, hI₁, hK₁, hq₁⟩ := allocPrep_kept hB hfit hI hK hprep
  unfold memAlloc
  simp only [if_pos hguard, hprep, Option.bind_eq_bind, Option.bind_some]
  rcases hfl : w₁.flist c with _ | s
  · obtain ⟨o, w₂, hafn, hU, ho⟩ := hB.afn g.allocsz c hK₁ (hA hfl)
    simp only [hafn, Option.bind_some]
    have hI₂ := hU.inv hI₁
    have hq₂ := (hU.kept hI₁).toSameQueues
    cases o with
    | none => exact .inl ⟨w₂, cont₁, rfl, hI₂, ho, hq₁.trans hq₂⟩
    | some s =>
        obtain ⟨⟨hs, b, hb, hbs, hz⟩, hK₂⟩ := ho
        obtain ⟨w₃, hrun, hN⟩ := newSlab_run hI₂.freelists.lists
          (fun c h => by rw [hs] at h; cases h.1) hb c
        obtain ⟨hoH, hI₃, hq₃⟩ := inv_newSlab hI₂ hs hb hbs hz hc hN
        have hK₃ : K w₃ := by
          obtain ⟨h₁, h₂, h₃, h₄, -⟩ := hN.rest
          have hw : SameEnv { w₂ with slabs := update w₂.slabs s true } w₃ :=
            ⟨h₁, h₂, h₃, hN.slabs, h₄⟩
          exact hB.congr hw hK₂
        exact .inr ⟨_, w₃, _, hrun, hoH, hI₃, hK₃, (hq₁.trans hq₂).trans hq₃⟩
  · obtain ⟨hs, hcore, h0⟩ := hI₁.freelists.lists.head_some hfl
    obtain ⟨o, w₂, cont₂, hrun, hoH, hI₂, hK₂, hq₂, -⟩ := popFree_spec hB hI₁ hK₁ hs hcore h0
    refine .inr ⟨o, w₂, cont₂, ?_, hoH, hI₂, hK₂, hq₁.trans hq₂⟩
    simp only [hrun, Option.map_some]

/-- An object that an allocation returns was not held, and is held then. -/
theorem memAlloc_spec (hB : Backing g f A K) (hfit : CountFits g) (hc : c < g.numCores)
    (hI : Inv g w P (fun _ => none) H cont) (hK : K w) {i : ι} {r : Option Obj}
    (hA : ∀ w₁, allocPrep g f w c = some w₁ → w₁.flist c = none → A w₁ c i)
    (hrun : memAlloc g f w c i = some (r, w')) :
    (r = none ∧ ∃ cont', Inv g w' P (fun _ => none) H cont' ∧ K w' ∧ SameQueues w w' cont cont') ∨
    ∃ o cont', r = some o ∧ o ∉ H ∧ Inv g w' P (fun _ => none) (insert o H) cont' ∧ K w' ∧
      SameQueues w w' cont cont' := by
  obtain ⟨w₁, hprep⟩ : ∃ w₁, allocPrep g f w c = some w₁ := by
    refine Option.ne_none_iff_exists'.mp fun hnone => ?_
    simp [memAlloc, hnone] at hrun
  rcases memAlloc_of_prep hB hfit hc hI hK hprep (hA w₁ hprep) with
    ⟨w'', cont', hrun', h⟩ | ⟨o, w'', cont', hrun', h⟩ <;>
    obtain ⟨rfl, rfl⟩ := Prod.mk.inj (Option.some.inj (hrun'.symm.trans hrun))
  · exact .inl ⟨rfl, cont', h⟩
  · exact .inr ⟨o, cont', rfl, h⟩

/-- An allocation returns, where the objects that wait for the core are counted. -/
theorem memAlloc_ne_none (hB : Backing g f A K) (hfit : CountFits g) (hc : c < g.numCores)
    (hI : Inv g w P (fun _ => none) H cont) (hK : K w) {i : ι}
    (hA : ∀ w₁, allocPrep g f w c = some w₁ → w₁.flist c = none → A w₁ c i) (hC : Counted w c) :
    memAlloc g f w c i ≠ none := by
  obtain ⟨w₁, cont₁, hprep | ⟨-, hC'⟩, -⟩ := allocPrep_spec (c := c) hB hfit hI hK
  · rcases memAlloc_of_prep hB hfit hc hI hK hprep (hA w₁ hprep) with
      ⟨w'', cont', hrun, -⟩ | ⟨o, w'', cont', hrun, -⟩ <;>
      exact Option.ne_none_iff_exists'.mpr ⟨_, hrun⟩
  · exact absurd hC hC'

end Parsec.Slab
