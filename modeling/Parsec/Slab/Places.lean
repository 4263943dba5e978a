import Parsec.Slab.Wide

/-!
# Where objects are, over whole runs

* `partitioned_of_reach` — every object of a slab in use is in exactly one place: with a caller, on a
  quiescence queue, on a list of remotely freed objects of its home core, or on the freelist of its
  slab. An allocation returns none of the first three.
* `freelistsExact_iff` — the freelist of a core is a ring of exactly its slabs with free objects,
  along every run, if and only if a slab has fewer objects than an `unsigned int` counts.
-/

namespace Parsec.Slab

open Function Lib

variable {g : Geom} {s : St}

/-! ## One place for each object -/

/-- The places an object can be in. -/
inductive Place
  | live
  | queue (c : ℕ)
  | remote (k : ℕ × ℕ × ℕ)
  | free (sl : ℕ)

/-- An object is in a place: it is met by following the `next` pointers of a list from its head. -/
def At (s : St) (o : Obj) : Place → Prop
  | .live => s.live o = true
  | .queue c => Reaches s.w.next (s.w.qscHead c) o
  | .remote k => Reaches s.w.next (s.w.remoteFrees k) o
  | .free sl => s.w.slabs sl = true ∧ s.w.nfree sl ≠ 0 ∧ Reaches s.w.next (s.w.freelist sl) o

/-- No object is duplicated or lost, and none that is in use is allocated. -/
structure Partitioned (g : Geom) (s : St) : Prop where
  one : ∀ sl o, InSlab g s.w sl o → ∃! p, At s o p
  home : ∀ sl o k, InSlab g s.w sl o → At s o (.remote k) → k.1 = s.w.coreid sl
  own : ∀ sl o sl', InSlab g s.w sl o → At s o (.free sl') → sl' = sl
  queue : ∀ c, ∃ l, Chain s.w.next (s.w.qscHead c) l ∧ l.Nodup
  remote : ∀ k, ∃ l, Chain s.w.next (s.w.remoteFrees k) l ∧ l.Nodup
  free : ∀ sl, s.w.slabs sl = true → s.w.nfree sl ≠ 0 →
    ∃ l, Chain s.w.next (s.w.freelist sl) l ∧ l.Nodup
  alloc : ∀ c i o w, Ok g s (.alloc c i) → memAlloc g (supplier g) s.w c i = some (some o, w) →
    s.live o = false ∧ (∀ c, ¬ At s o (.queue c)) ∧
      (∀ c, ¬ Reaches w.next (w.qscHead c) o) ∧ ∀ k, ¬ Reaches w.next (w.remoteFrees k) o

/-- The place that a list stands for. -/
def Key.place : Key → Place
  | .free sl => .free sl
  | .queue c => .queue c
  | .remote k => .remote k
  | .drain _ => .live

section Proofs

variable {P : ℕ → Prop} {cont : Key → List Obj} {w : World (List Ev)} {H : Set Obj}

/-- A slab with a free object has more than one, and its freelist is read. -/
theorem Inv.heads_free (hI : Inv g w P (fun _ => none) H cont) {sl : ℕ} (hs : w.slabs sl = true)
    (h0 : w.nfree sl ≠ 0) : Chain w.next (w.freelist sl) (cont (.free sl)) := by
  have hch := hI.chains.chain (.free sl)
  have hlen := hI.freelists.nfree sl hs
  by_cases hn : 2 ≤ g.nobjs
  · have hh : heads g w (fun _ => none) (.free sl) = w.freelist sl := by simp [heads, hs, hn]
    rwa [hh] at hch
  · have hh : heads g w (fun _ => none) (.free sl) = none := by simp [heads, hn]
    rw [hh, chain_none_iff] at hch
    rw [hch] at hlen
    exact absurd hlen.symm h0

/-- An object of a slab is in a place other than with a caller iff it is on the list. -/
theorem Inv.at_iff (hI : Inv g s.w P (fun _ => none) {o | s.live o = true} cont) {o : Obj}
    {p : Place} : At s o p ↔ (p = .live ∧ s.live o = true) ∨
      ∃ k, k.place = p ∧ (∀ c, k ≠ .drain c) ∧ o ∈ cont k := by
  cases p with
  | live =>
      constructor
      · exact fun h => .inl ⟨rfl, h⟩
      · rintro (⟨-, h⟩ | ⟨k, hk, hd, -⟩)
        · exact h
        · cases k with
          | drain c => exact absurd rfl (hd c)
          | _ => cases hk
  | queue c =>
      have hch : Chain s.w.next (s.w.qscHead c) (cont (.queue c)) := hI.chains.chain (.queue c)
      show Reaches _ _ _ ↔ _
      rw [hch.reaches_iff]
      constructor
      · exact fun h => .inr ⟨.queue c, rfl, by simp, h⟩
      · rintro (⟨h, -⟩ | ⟨k, hk, -, ho⟩)
        · cases h
        · cases k <;> cases hk
          exact ho
  | remote k =>
      have hch : Chain s.w.next (s.w.remoteFrees k) (cont (.remote k)) :=
        hI.chains.chain (.remote k)
      show Reaches _ _ _ ↔ _
      rw [hch.reaches_iff]
      constructor
      · exact fun h => .inr ⟨.remote k, rfl, by simp, h⟩
      · rintro (⟨h, -⟩ | ⟨k, hk, -, ho⟩)
        · cases h
        · cases k <;> cases hk
          exact ho
  | free sl =>
      constructor
      · rintro ⟨hs, h0, hr⟩
        exact .inr ⟨.free sl, rfl, by simp, (hI.heads_free hs h0).reaches_iff.mp hr⟩
      · rintro (⟨h, -⟩ | ⟨k, hk, -, ho⟩)
        · cases h
        · cases k <;> cases hk
          obtain ⟨sl', hs, rfl, -⟩ := hI.members.listed _ o ho
          have h0 : s.w.nfree sl' ≠ 0 := by
            rw [← hI.freelists.nfree sl' hs.1]
            exact Nat.ne_of_gt (List.length_pos_of_mem ho)
          exact ⟨hs.1, h0, (hI.heads_free hs.1 h0).reaches_iff.mpr ho⟩

/-- The invariant says that every object is in one place. -/
theorem MemInv.partitioned (hfit : CountFits g) (hM : MemInv g P s cont) : Partitioned g s := by
  have hI := hM.inv
  constructor
  · intro sl o ho
    rcases hI.members.total sl o ho with hl | ⟨k, hk⟩
    · refine ⟨.live, hl, fun p hp => ?_⟩
      rcases hI.at_iff.mp hp with ⟨h, -⟩ | ⟨k, -, -, hk⟩
      · exact h
      · exact absurd hk (hI.members.off o hl k)
    · have hd : ∀ c, k ≠ .drain c := by
        rintro c rfl
        rw [hI.drain_nil] at hk
        cases hk
      refine ⟨k.place, hI.at_iff.mpr (.inr ⟨k, rfl, hd, hk⟩), fun p hp => ?_⟩
      rcases hI.at_iff.mp hp with ⟨-, h⟩ | ⟨k', rfl, -, hk'⟩
      · exact absurd hk (hI.members.off o h k)
      · rw [hI.chains.disjoint hk hk']
  · intro sl o k ho hr
    rcases hI.at_iff.mp hr with ⟨h, -⟩ | ⟨k', hk, -, hm⟩
    · cases h
    · cases k' <;> cases hk
      obtain ⟨sl', hs', hc, -⟩ := hI.members.listed _ o hm
      rw [hI.slabs.eq_of_inSlab ho hs', hc]
  · intro sl o sl' ho hf
    rcases hI.at_iff.mp hf with ⟨h, -⟩ | ⟨k', hk, -, hm⟩
    · cases h
    · cases k' <;> cases hk
      obtain ⟨sl₁, hs', rfl, -⟩ := hI.members.listed _ o hm
      exact hI.slabs.eq_of_inSlab hs' ho
  · exact fun c => ⟨_, hI.chains.chain (.queue c), hI.chains.nodup _⟩
  · exact fun k => ⟨_, hI.chains.chain (.remote k), hI.chains.nodup _⟩
  · exact fun sl hs h0 => ⟨_, hI.heads_free hs h0, hI.chains.nodup _⟩
  · rintro c i o w ⟨hc, hi⟩ hrun
    rcases memAlloc_spec (backing_supplier g) hfit hc hI hM.log hi hrun with
      ⟨hr, -⟩ | ⟨o', cont', hr, ho, hI', -, hq⟩
    · cases hr
    · obtain rfl : o = o' := Option.some.inj hr
      have hoff := hI'.members.off o (Set.mem_insert o _)
      have hqueue : ∀ c, Chain w.next (w.qscHead c) (cont' (.queue c)) := fun c =>
        hI'.chains.chain (.queue c)
      have hremote : ∀ k, Chain w.next (w.remoteFrees k) (cont' (.remote k)) := fun k =>
        hI'.chains.chain (.remote k)
      refine ⟨by simpa using ho, fun c hat => ?_, fun c hr => ?_, fun k hr => ?_⟩
      · have hch : Chain s.w.next (s.w.qscHead c) (cont (.queue c)) := hI.chains.chain (.queue c)
        have hm := hch.reaches_iff.mp hat
        rw [← hq.queue c] at hm
        exact hoff _ hm
      · exact hoff _ ((hqueue c).reaches_iff.mp hr)
      · exact hoff _ ((hremote k).reaches_iff.mp hr)

/-- **No object is duplicated or lost**, if a slab has fewer objects than an `unsigned int` counts, or
a multiple of that. -/
theorem partitioned_of_reach (hfit : CountFits g) (h : (memLts g).Reach (Ok g) s) :
    Partitioned g s := by
  obtain ⟨cont, hM⟩ := exists_memInv_of_reach hfit h
  exact hM.partitioned hfit

end Proofs

/-- A page all of whose objects are live. -/
theorem partitioned_page : ∃ s, (memLts page).Reach (Ok page) s ∧
    (∀ i < page.nobjs, s.live (page.obj 0 i) = true) ∧ Partitioned page s := by
  obtain ⟨s, hs, hF⟩ := exists_filling (g := page) (c := 0) (k := page.nobjs - 1) (by decide) (by decide)
  have h1 : page.nobjs - 1 + 1 = page.nobjs := by decide
  rw [h1] at hF
  have hfit : CountFits page := .inl (by decide)
  exact ⟨s, hs, fun i hi => hF.live hi, partitioned_of_reach hfit hs⟩

/-- Where the count of a slab's objects is one, a live object is allocated. -/
theorem not_partitioned_wide :
    ¬ ∀ s, (memLts wide).Reach (Ok wide) s → Partitioned wide s := by
  intro h
  obtain ⟨s, hs, hR⟩ := exists_released two_pos
  obtain ⟨hok, w, hrun, -⟩ := hR.memAlloc two_pos
  have hlive : s.live (wide.obj 0 0) = true := hR.live 0 (nobjs_pos wide) zero_ne_one
  obtain ⟨hfree, -⟩ := (h s hs).alloc 0 _ _ w hok hrun
  rw [hlive] at hfree
  cases hfree

/-! ## Freelists of slabs -/

/-- Freelists are exactly the slabs of a core that have a free object, and no assertion fails: a call
returns, unless the `int` overflows in which an allocation counts what it takes back. -/
structure FreelistsExact (g : Geom) (s : St) : Prop where
  lists : OnLists s.w.listN s.w.listP s.w.flist fun c sl =>
    s.w.slabs sl = true ∧ s.w.coreid sl = c ∧ 1 ≤ s.w.nfree sl
  single : ∀ sl, s.w.slabs sl = true → s.w.nfree sl = 0 → s.w.listN sl = sl ∧ s.w.listP sl = sl
  free : ∀ sl, s.w.slabs sl = true → 1 ≤ s.w.nfree sl →
    ∃ l, Chain s.w.next (s.w.freelist sl) l ∧ l.length = s.w.nfree sl ∧
      ∀ o ∈ l, s.w.slab o = some sl ∧ s.w.tscFree o ≠ 0
  lt : ∀ sl, s.w.slabs sl = true → s.w.nfree sl < g.nobjs
  run : ∀ a, Ok g s a → (∀ c i, a = .alloc c i → Counted s.w c) → ∃ s', step g s a = some s'

/-- The invariant says what is on the freelists of slabs. -/
theorem MemInv.freelistsExact {cont : Key → List Obj} (hlt : g.nobjs < 2 ^ 32)
    (hM : MemInv g (fun _ => True) s cont) : FreelistsExact g s := by
  have hI := hM.inv
  constructor
  · refine hI.freelists.lists.congr (fun _ _ _ => rfl) (fun _ _ _ => rfl) fun c sl => ?_
    rw [Nat.one_le_iff_ne_zero]
  · exact hI.freelists.single
  · intro sl hs h1
    refine ⟨cont (.free sl), hI.heads_free hs (by omega), hI.freelists.nfree sl hs, fun o ho => ?_⟩
    obtain ⟨sl', hin, rfl, ht⟩ := hI.members.listed _ o ho
    exact ⟨hI.slabs.slab sl' o hin, ht⟩
  · exact hI.freelists.lt hlt
  · exact fun a ha hC => Option.ne_none_iff_exists'.mp
      (step_ne_none (.inl hlt) hM ha (freedBy_true s a) hC)

/-- The last object of a slab that comes back, where a slab has more objects than are counted. -/
theorem memFree_full {w : World (List Ev)} {o : Obj} {c sl : ℕ} (hge : 2 ^ 32 ≤ g.nobjs)
    (ht : w.tscFree o = 0) (hs : w.slab o = some sl) (hc : w.coreid sl = c)
    (hnf : w.nfree sl + 1 = g.nobjs) : memFree g (supplier g) w o c = some (pushFree w o sl) := by
  have hself : (pushFree w o sl).nfree sl = g.nobjs := by simp [pushFree, hnf]
  have h32 : g.nobjs ≠ toU32 g.nobjs := by
    have := toU32_lt g.nobjs
    omega
  have h1 : g.nobjs ≠ 1 := by omega
  unfold memFree
  rw [if_pos ⟨g.fits, ht⟩, hs]
  simp only [hc, ne_eq, not_true_eq_false, if_false, hself, h32, h1]

/-- Where a slab has more objects than are counted, there is a run after which a slab is in use with
all its objects free. -/
theorem exists_full (hge : 2 ^ 32 ≤ g.nobjs) (hcore : 0 < g.numCores) :
    ∃ s cont, (memLts g).Reach (Ok g) s ∧
      Inv g s.w (fun _ => False) (fun _ => none) {o | s.live o = true} cont ∧ Logged g s.w ∧
      s.w.slabs 0 = true ∧ s.w.nfree 0 = g.nobjs := by
  obtain ⟨s, hs, hF, hlive⟩ := exists_filling_first (g := g) hcore
  obtain ⟨cont, hI, -⟩ := hF.inv
  have h0 : s.w.slabs 0 = true := (hF.slabs 0).mpr rfl
  have hin : InSlab g s.w 0 (g.obj 0 0) := ⟨h0, 0, 0, hF.memory, nobjs_pos g, rfl⟩
  have hnf := hF.nfree
  have hself : (pushFree s.w (g.obj 0 0) 0).nfree 0 = g.nobjs := by simp [pushFree, hnf]
  have hrun := memFree_full hge (hI.members.held _ hlive).tscFree (hI.slabs.slab 0 _ hin) hF.coreid hnf
  have hok : Ok g s (.free 0 (g.obj 0 0)) := ⟨hcore, hlive⟩
  have hstep : step g s (.free 0 (g.obj 0 0)) = some { s with
      w := pushFree s.w (g.obj 0 0) 0, live := update s.live (g.obj 0 0) false } := by
    simp only [step, hrun, Option.map_some]
  have hI' := inv_pushFree hI hlive hin (by omega) (fun h => by omega)
    (hI.freelists.lists.congr (fun _ _ _ => rfl) (fun _ _ _ => rfl) fun c' s' => by
      constructor
      · rintro (⟨rfl, rfl⟩ | h)
        · exact ⟨h0, rfl, by omega⟩
        · exact h
      · exact .inr) fun _ _ _ _ => ⟨rfl, rfl⟩
  rw [← setOf_update_false] at hI'
  have henv : SameEnv s.w (pushFree s.w (g.obj 0 0) 0) := ⟨rfl, rfl, rfl, rfl, rfl⟩
  exact ⟨_, _, hs.step hok hstep, hI', (backing_supplier g).congr henv hF.log, h0, hself⟩

/-- **The freelist of a core is exactly its slabs with free objects**, along every run, iff a slab has
fewer objects than an `unsigned int` counts. -/
theorem freelistsExact_iff (hcore : 0 < g.numCores) :
    (∀ s, (memLts g).Reach (Ok g) s → FreelistsExact g s) ↔ g.nobjs < 2 ^ 32 := by
  constructor
  · intro h
    by_contra hge
    obtain ⟨s, cont, hs, -, -, h0, hnf⟩ := exists_full (not_lt.mp hge) hcore
    exact absurd hnf ((h s hs).lt 0 h0).ne
  · intro hlt s hs
    obtain ⟨cont, hM⟩ := exists_memInv_of_reach (.inl hlt) hs
    exact hM.freelistsExact hlt

/-- The freelists of pages of words hold the slabs with free objects. -/
theorem freelistsExact_page :
    0 < page.numCores ∧ ∀ s, (memLts page).Reach (Ok page) s → FreelistsExact page s :=
  ⟨by decide, (freelistsExact_iff (by decide)).mpr (by decide)⟩

/-- Where the count of a slab's objects is one, the freelist misses a slab. -/
theorem not_freelistsExact_wide :
    ¬ ∀ s, (memLts wide).Reach (Ok wide) s → FreelistsExact wide s := by
  intro h
  obtain ⟨s, cont, hs, -, -, h0, hnf⟩ := exists_full (g := wide) (by rw [nobjs_wide]; omega) two_pos
  exact absurd hnf ((h s hs).lt 0 h0).ne

end Parsec.Slab
