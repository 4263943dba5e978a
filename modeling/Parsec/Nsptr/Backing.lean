import Parsec.Nsptr.Basic
import Parsec.Nsptr.Trie

/-!
# What backs the slabs of a namespace

`ps_slab_nsalloc` and `ps_slab_nsfree` keep the trie, the headers and the freelist in step: what is
stored in the trie above the leaves is the memory of the slabs in use, each for its own range of ids
(`Backed`). They are what the slab allocator relies on (`backing`), as long as no assertion of theirs
fails.

* `HeaderStep`, `GivenBack` — what a header is taken from, and what is left of one that is freed.
* `nsalloc_spec`, `nsfree_spec` — that they keep `Backed`; `nsfree` does not fail.
* `Within S` — the namespace gets headers from `S` only, so that others keep theirs.
-/

namespace Parsec.Nsptr

open Function Ertrie Ns Slab

/-! ## The invariant -/

section Defs

variable (p : Params) (w : World NsEnv)

/-- What the trie above the leaves holds for a range. -/
def stored (k : ℕ) : Ptr := valueAt (slabTrie p.ert) w.env.mem w.env.root k

/-- The nodes on the way to the leaf of an id are there. -/
def Reaches (id : ℕ) : Prop := entryAt p.ert w.env.mem w.env.root id ≠ none

/-- A header of the namespace: it backs memory, or waits on the freelist. -/
def Owned (s : ℕ) : Prop := w.slabs s = true ∨ s ∈ w.env.fl

/-- **The invariant.** -/
structure Backed : Prop where
  rep : Rep (slabTrie p.ert) w.env.mem w.env.root
  entry : ∀ s, w.slabs s = true → ∃ b, w.memory s = some b ∧
    stored p w (w.start s / p.ert.range) = some (.ext b 0)
  slab : ∀ k < ertMaxid (slabTrie p.ert).consts, stored p w k ≠ none →
    ∃ s, w.slabs s = true ∧ w.start s / p.ert.range = k
  nodup : w.env.fl.Nodup
  free : ∀ s ∈ w.env.fl, w.slabs s = false ∧ w.memory s = none
  dvd : ∀ s, Owned w s → p.ert.range ∣ w.start s
  lt : ∀ s, Owned w s → w.start s < p.ert.descMax
  end_ : ∀ s, Owned w s → w.end_ s = w.start s + p.ert.range
  inj : ∀ s s', Owned w s → Owned w s' → w.start s = w.start s' → s = s'
  heads : HeadsInv p w.env.heads
  held : ∀ s, Owned w s → w.env.heads.has s
  frontier : p.ert.range ∣ w.env.frontier

/-- A header that `nsalloc` has taken, with its id if it is new. -/
structure Taken (s : ℕ) (new : Option ℕ) : Prop where
  backed : Backed p w
  not_owned : ¬ Owned w s
  held : w.env.heads.has s
  dvd : p.ert.range ∣ w.start s
  lt : w.start s < p.ert.descMax
  end_ : w.end_ s = w.start s + p.ert.range
  ne_fl : ∀ s' ∈ w.env.fl, w.start s' ≠ w.start s
  new : ∀ id, new = some id → p.ert.range ∣ id

/-- What `nsalloc` leaves: the header that it returns is to be in use. -/
def Supplies (r : Option ℕ) : Prop :=
  match r with
  | none => Backed p w
  | some s => Fresh p.slab w s ∧ Backed p { w with slabs := update w.slabs s true }

/-- The headers of the namespace, and those that it may get, are in `S`. -/
def Within (S : Set ℕ) : Prop := ∀ s, Owned w s ∨ ¬ w.env.heads.has s → s ∈ S

end Defs

section Lookups

variable {p : Params} {w : World NsEnv} {id : ℕ}

/-- The first slot of a leaf is where its memory starts. -/
theorem walkOff_start (hid : p.ert.range ∣ id) : walkOff p.ert.consts id 1 = 0 := by
  have hzero : ertM id p.ert.lastOrder = 0 := by
    unfold ertM
    rw [Lib.and_mask, ← p.ert.range_eq]
    exact Nat.mod_eq_zero_of_dvd hid
  rw [walkOff_one]
  show toU32 (ertM id p.ert.lastOrder * _) = 0
  rw [hzero, Nat.zero_mul]
  rfl

/-- A lookup of an id whose range is not mapped. -/
theorem lkupfn_none (hR : Rep (slabTrie p.ert) w.env.mem w.env.root) (hid : id < p.ert.descMax)
    (h : stored p w (id / p.ert.range) = none) : lkupfn p w id p.depth = some none := by
  have hl := lookup_slot hR (isfree w) hid
  unfold stored at h
  rw [h] at hl
  exact hl

/-- A lookup of an id whose range is mapped. -/
theorem lkupfn_some (hR : Rep (slabTrie p.ert) w.env.mem w.env.root) (hid : id < p.ert.descMax)
    {b : ℕ} (h : stored p w (id / p.ert.range) = some (.ext b 0)) :
    lkupfn p w id p.depth = some (if w.tscFree ⟨b, walkOff p.ert.consts id 1⟩ ≠ 0 then none
      else some (.ext b (walkOff p.ert.consts id 1))) := by
  have hl := lookup_slot hR (isfree w) hid
  unfold stored at h
  rw [h] at hl
  refine hl.trans ?_
  simp [Addr.plus, isfree]

end Lookups

/-! ## What the code does -/

section Cases

variable {p : Params} {w w' : World NsEnv} {c : ℕ} {o : Oracle}

/-- The frontier after an id has been taken. -/
def advance (p : Params) (w : World NsEnv) : World NsEnv :=
  { w with env := { w.env with frontier := (w.env.frontier + p.ert.range) % 2 ^ wordBits p.arch } }

/-- A new header, with its `memory`. -/
def newHeader (p : Params) (w : World NsEnv) (s : ℕ) (left : Option ℕ) (h : Heads) : World NsEnv :=
  { setHeads (advance p w) h with
    memory := update w.memory s left
    start := update w.start s w.env.frontier
    end_ := update w.end_ s ((w.env.frontier + p.ert.range) % 2 ^ wordBits p.arch) }

/-- A header from the freelist. -/
def popHeader (w : World NsEnv) (fl : List ℕ) : World NsEnv :=
  { w with env := { w.env with fl := fl } }

/-- The allocator of headers is not looked at. -/
@[simp] theorem heads_resetFrontier (w : World NsEnv) (new : Option ℕ) :
    (resetFrontier p w new).env.heads = w.env.heads := by
  cases new <;> rfl

/-- The headers that wait go on waiting. -/
@[simp] theorem fl_resetFrontier (w : World NsEnv) (new : Option ℕ) :
    (resetFrontier p w new).env.fl = w.env.fl := by
  cases new <;> rfl

/-- The slabs in use stay. -/
@[simp] theorem slabs_resetFrontier (w : World NsEnv) (new : Option ℕ) :
    (resetFrontier p w new).slabs = w.slabs := by
  cases new <;> rfl

/-- What core `c` gets from the allocator of headers. -/
def headerAlloc (p : Params) (w : World NsEnv) (c : ℕ) (o : Oracle) : Option (Option Obj × World Left) :=
  memAlloc p.slabhead headFns w.env.heads.w c o.pg

/-- The allocator of headers returns one. -/
def GetsHeader (p : Params) (w : World NsEnv) (c : ℕ) (o : Oracle) : Prop :=
  ((headerAlloc p w c o).bind Prod.fst).isSome = true

/-- Where the header of a slab comes from. -/
inductive HeaderStep (p : Params) (w : World NsEnv) (c : ℕ) (o : Oracle) :
    Option (ℕ × Option ℕ) → World NsEnv → Prop
  /-- From the freelist. -/
  | pop (s : ℕ) (fl : List ℕ) : w.env.fl = s :: fl →
      HeaderStep p w c o (some (s, none)) (popHeader w fl)
  /-- There is none. -/
  | none (h : Heads) : w.env.fl = [] → p.ert.descMax ≤ w.env.frontier ∨ ¬ GetsHeader p w c o →
      HeadsInv p h → h.held = w.env.heads.held →
      (Zeroed p w.env.heads.held w.env.heads.w → Zeroed p h.held h.w) →
      HeaderStep p w c o none (setHeads (advance p w) h)
  /-- It is a new one. -/
  | new (s : ℕ) (left : Option ℕ) (h : Heads) : w.env.fl = [] → w.env.frontier < p.ert.descMax →
      headerAlloc p w c o = some (some (headObj s), h.w) → HeadsInv p h → ¬ w.env.heads.has s →
      h.held = update w.env.heads.held (headObj s) true →
      (Zeroed p w.env.heads.held w.env.heads.w → Zeroed p h.held h.w ∧ left = none) →
      HeaderStep p w c o (some (s, some w.env.frontier)) (newHeader p w s left h)

/-- These are all, where the pages of headers are not in use. -/
theorem headerStep_of_takeHeader (hH : HeadsInv p w.env.heads) (hc : c < p.numCores)
    (hpg : PageFree p w.env.heads c o.pg) {r : Option (ℕ × Option ℕ)}
    (hrun : takeHeader p w c o = some (r, w')) : HeaderStep p w c o r w' := by
  unfold takeHeader at hrun
  split at hrun
  · rename_i s fl hfl
    cases hrun
    exact .pop s fl hfl
  rename_i hfl
  simp only at hrun
  split at hrun
  · rename_i hmax
    cases hrun
    exact .none w.env.heads hfl (.inl hmax) hH rfl id
  rename_i hmax
  obtain ⟨⟨x, w₁⟩, hal, hrun⟩ := Option.map_eq_some_iff.mp hrun
  obtain ⟨⟨r', hw⟩, hmem, hal⟩ := Option.map_eq_some_iff.mp hal
  have hmem : headerAlloc p w c o = some (r', hw) := hmem
  rcases hH.alloc hc hpg hmem with ⟨rfl, hH'⟩ | ⟨a, sl, rfl, ha, hin, hH'⟩
  · cases hal
    cases hrun
    refine .none ⟨hw, w.env.heads.held⟩ hfl (.inr ?_) hH' rfl fun hZ => hZ.alloc hH hc hpg hmem
    unfold GetsHeader
    rw [hmem]
    exact Bool.false_ne_true
  · cases hal
    cases hrun
    have hobj := headObj_headAddr (off_lt_pageSz hin)
    refine .new (headAddr a) (hw.env a) ⟨hw, update w.env.heads.held a true⟩ hfl (not_le.mp hmax) ?_
      hH' ?_ ?_ fun hZ => ?_
    · rw [hobj]
      exact hmem
    · unfold Heads.has
      rw [hobj, ha]
      exact Bool.false_ne_true
    · rw [hobj]
    · have hZ' := hZ.alloc hH hc hpg hmem
      exact ⟨hZ'.take a, hZ' sl a hin ha⟩

/-- A header has been freed: it is not allocated then, and has no memory if it had none, or if its page
is given back. -/
structure GivenBack (p : Params) (w : World NsEnv) (s c : ℕ) (h : Heads) : Prop where
  inv : HeadsInv p h
  held : h.held = update w.env.heads.held (headObj s) false
  zeroed : Zeroed p w.env.heads.held w.env.heads.w →
    w.memory s = none ∨ Alone p w.env.heads.w (headObj s) c → Zeroed p h.held h.w

/-- A header that is allocated can be freed. -/
theorem exists_givenBack {s : ℕ} (hH : HeadsInv p w.env.heads) (hc : c < p.numCores)
    (hs : w.env.heads.has s) (new : Option ℕ) :
    ∃ h, freeSlab p w s new c = some (resetFrontier p (setHeads w h) new) ∧ GivenBack p w s c h := by
  obtain ⟨h, hrun, hH'⟩ :=
    (hH.setLeft (update w.env.heads.w.env (headObj s) (w.memory s))).free hc hs
  refine ⟨⟨h, update w.env.heads.held (headObj s) false⟩, ?_, hH', rfl, fun hZ hm => ?_⟩
  · simp only [freeSlab, slabheadFree, hrun, Option.map_some]
  · exact hZ.free hH hc hs hm hrun

/-- A slab whose trie has been expanded. -/
def linked (w : World NsEnv) (s b : ℕ) (mem : Ertrie.Mem) : World NsEnv :=
  setMem (giveMemory w s b) mem

/-- What the second half of `ps_slab_nsalloc` does. -/
theorem backHeader_cases {s : ℕ} {new r : Option ℕ} (h : backHeader p w s new c o = some (r, w')) :
    w.memory s = none ∧
    ((o.blk = none ∧ r = none ∧ freeSlab p w s new c = some w') ∨
      ∃ b z mem, o.blk = some b ∧ lkupfn p (giveMemory w s b) (w.start s) p.depth = some none ∧
        expandfn p (giveMemory w s b) (w.start s) p.depth (.ext b 0) o.oks = some (z, mem) ∧
        (z ≠ 0 ∧ r = none ∧ freeSlab p (linked w s b mem) s new c = some w' ∨
          z = 0 ∧ r = some s ∧ w' = linked w s b mem ∧
            lkupfn p (linked w s b mem) (w.start s) p.depth = some (some (.ext b 0)))) := by
  unfold backHeader at h
  split at h
  swap
  · cases h
  rename_i hm
  refine ⟨hm, ?_⟩
  cases hb : o.blk with
  | none =>
      rw [hb] at h
      obtain ⟨w₁, hfree, h⟩ := Option.map_eq_some_iff.mp h
      cases h
      exact .inl ⟨rfl, rfl, hfree⟩
  | some b =>
      rw [hb] at h
      simp only [Option.ite_none_right_eq_some] at h
      obtain ⟨hlk, h⟩ := h
      obtain ⟨⟨z, mem⟩, hexp, h⟩ := Option.bind_eq_some_iff.mp h
      refine .inr ⟨b, z, mem, rfl, hlk, hexp, ?_⟩
      simp only at h
      split at h
      · rename_i hz
        obtain ⟨w₁, hfree, h⟩ := Option.map_eq_some_iff.mp h
        cases h
        exact .inl ⟨hz, rfl, hfree⟩
      · rename_i hz
        split at h
        · rename_i hlk'
          cases h
          exact .inr ⟨not_not.mp hz, rfl, rfl, hlk'⟩
        · cases h

/-- The two halves of `ps_slab_nsalloc`. -/
theorem nsalloc_cases {sz : ℕ} {r : Option ℕ} (h : nsalloc p w sz c o = some (r, w')) :
    (r = none ∧ takeHeader p w c o = some (none, w')) ∨
      ∃ s new w₁, takeHeader p w c o = some (some (s, new), w₁) ∧
        backHeader p w₁ s new c o = some (r, w') := by
  obtain ⟨⟨x, w₁⟩, htake, h⟩ := Option.bind_eq_some_iff.mp h
  rcases x with _ | ⟨s, new⟩
  · cases h
    exact .inl ⟨rfl, htake⟩
  · exact .inr ⟨s, new, w₁, htake, h⟩

end Cases

/-! ## Taking a header -/

section Take

variable {p : Params} {w w' : World NsEnv} {o : Oracle}

/-- What is stored depends on the trie only. -/
theorem stored_congr (hm : w'.env.mem = w.env.mem) (hr : w'.env.root = w.env.root) (k : ℕ) :
    stored p w' k = stored p w k := by
  unfold stored
  rw [hm, hr]

/-- A world that differs in the freelist, the allocator of headers and headers that are not owned. -/
theorem Backed.change (hK : Backed p w) (hm : w'.env.mem = w.env.mem)
    (hr : w'.env.root = w.env.root) (hs : w'.slabs = w.slabs) (hfl : w'.env.fl.Sublist w.env.fl)
    (hmem : ∀ s, Owned w' s → w'.memory s = w.memory s)
    (hst : ∀ s, Owned w' s → w'.start s = w.start s) (hen : ∀ s, Owned w' s → w'.end_ s = w.end_ s)
    (hH : HeadsInv p w'.env.heads) (hheld : ∀ s, Owned w' s → w'.env.heads.has s)
    (hfr : p.ert.range ∣ w'.env.frontier) : Backed p w' := by
  have hown : ∀ {s}, Owned w' s → Owned w s := by
    intro s h
    rcases h with h | h
    · exact .inl (hs ▸ h)
    · exact .inr (hfl.subset h)
  have hslab : ∀ {s}, w.slabs s = true → Owned w' s := fun h => .inl (hs ▸ h)
  constructor
  · rw [hm, hr]
    exact hK.rep
  · intro s h
    rw [hmem s (.inl h), hst s (.inl h), stored_congr hm hr]
    exact hK.entry s (hs ▸ h)
  · intro k hk hv
    rw [stored_congr hm hr] at hv
    obtain ⟨s, h, hq⟩ := hK.slab k hk hv
    exact ⟨s, hs ▸ h, by rw [hst s (hslab h)]; exact hq⟩
  · exact hK.nodup.sublist hfl
  · intro s h
    rw [hs, hmem s (.inr h)]
    exact hK.free s (hfl.subset h)
  · intro s h
    rw [hst s h]
    exact hK.dvd s (hown h)
  · intro s h
    rw [hst s h]
    exact hK.lt s (hown h)
  · intro s h
    rw [hst s h, hen s h]
    exact hK.end_ s (hown h)
  · intro s s' h h' he
    rw [hst s h, hst s' h'] at he
    exact hK.inj s s' (hown h) (hown h') he
  · exact hH
  · exact hheld
  · exact hfr

/-- The frontier comes in whole ranges, also where it wraps around. -/
theorem range_dvd_add {id : ℕ} (h : p.ert.range ∣ id) :
    p.ert.range ∣ (id + p.ert.range) % 2 ^ wordBits p.arch :=
  (Nat.dvd_mod_iff p.ert.range_dvd_word).mpr (Nat.dvd_add h dvd_rfl)

/-- An id is taken, and no header is allocated. -/
theorem backed_advance (hK : Backed p w) {h : Heads} (hH : HeadsInv p h)
    (hheld : h.held = w.env.heads.held) : Backed p (setHeads (advance p w) h) := by
  refine hK.change rfl rfl rfl (.refl _) (fun _ _ => rfl) (fun _ _ => rfl) (fun _ _ => rfl) hH
    (fun s hs => ?_) (range_dvd_add hK.frontier)
  show h.held (headObj s) = true
  rw [hheld]
  exact hK.held s hs

/-- The header taken from the freelist. -/
theorem taken_pop (hK : Backed p w) {s : ℕ} {fl : List ℕ} (hfl : w.env.fl = s :: fl) :
    Taken p (popHeader w fl) s none := by
  have hmem : s ∈ w.env.fl := hfl ▸ List.mem_cons_self
  have hown : Owned w s := .inr hmem
  have hnd := hK.nodup
  rw [hfl] at hnd
  have hsub : ∀ s', Owned (popHeader w fl) s' → Owned w s' := by
    intro s' h
    exact h.imp id fun h => hfl ▸ List.mem_cons_of_mem _ h
  have hnot : ¬ Owned (popHeader w fl) s := by
    rintro (h | h)
    · exact Bool.false_ne_true ((hK.free s hmem).1.symm.trans h)
    · exact (List.nodup_cons.mp hnd).1 h
  constructor
  · refine hK.change rfl rfl rfl ?_ (fun _ _ => rfl) (fun _ _ => rfl) (fun _ _ => rfl) hK.heads ?_
      hK.frontier
    · rw [hfl]
      exact List.sublist_cons_self ..
    · exact fun s' h => hK.held s' (hsub s' h)
  · exact hnot
  · exact hK.held s hown
  · exact hK.dvd s hown
  · exact hK.lt s hown
  · exact hK.end_ s hown
  · intro s' h he
    have := hK.inj s' s (.inr (hfl ▸ List.mem_cons_of_mem _ h)) hown he
    exact (List.nodup_cons.mp hnd).1 (this ▸ h)
  · exact fun id h => by cases h

/-- A new header. -/
theorem taken_new (hK : Backed p w) {s : ℕ} {left : Option ℕ} {h : Heads} (hfl : w.env.fl = [])
    (hlt : w.env.frontier < p.ert.descMax) (hs : ¬ w.env.heads.has s) (hH : HeadsInv p h)
    (hheld : h.held = update w.env.heads.held (headObj s) true) :
    Taken p (newHeader p w s left h) s (some w.env.frontier) := by
  have hnot : ∀ {s'}, Owned w s' → s' ≠ s := fun h he => hs (he ▸ hK.held _ h)
  have hmod : (w.env.frontier + p.ert.range) % 2 ^ wordBits p.arch =
      w.env.frontier + p.ert.range :=
    Nat.mod_eq_of_lt ((add_range_le hK.frontier hlt).trans_lt p.ert.descMax_lt)
  constructor
  · refine hK.change rfl rfl rfl (.refl _) ?_ ?_ ?_ hH ?_ (range_dvd_add hK.frontier)
    · exact fun s' h => update_of_ne (hnot h) ..
    · exact fun s' h => update_of_ne (hnot h) ..
    · exact fun s' h => update_of_ne (hnot h) ..
    · intro s' ho
      show h.held (headObj s') = true
      rw [hheld, update_of_ne fun he => hnot ho (headObj_inj he)]
      exact hK.held s' ho
  · exact fun h => hnot h rfl
  · show h.held (headObj s) = true
    rw [hheld, update_self]
  · show p.ert.range ∣ update w.start s w.env.frontier s
    rw [update_self]
    exact hK.frontier
  · show update w.start s w.env.frontier s < _
    rwa [update_self]
  · show update w.end_ s _ s = update w.start s w.env.frontier s + _
    rw [update_self, update_self, hmod]
  · intro s' h
    have h : s' ∈ w.env.fl := h
    rw [hfl] at h
    cases h
  · rintro id ⟨⟩
    exact hK.frontier

end Take

/-! ## What stays untouched -/

section Untouched

variable {p : Params} {w w' w'' : World NsEnv}

/-- The slabs do not depend on what supplies them. -/
theorem untouched_env (g : Slab.Geom) (w : World NsEnv) (e : NsEnv) :
    Untouched g w { w with env := e } := by
  constructor <;> intros <;> rfl

/-- A new header is none of a slab in use. -/
theorem untouched_newHeader {s : ℕ} (hs : w.slabs s = false) (left : Option ℕ) (h : Heads) :
    Untouched p.slab w (newHeader p w s left h) := by
  have hne : ∀ s', w.slabs s' = true → s' ≠ s := fun s' h => ne_of_not_slabs hs h
  constructor
  case memory => exact fun s' h => update_of_ne (hne s' h) ..
  case start => exact fun s' h => update_of_ne (hne s' h) ..
  case end_ => exact fun s' h => update_of_ne (hne s' h) ..
  all_goals intros; rfl

/-- The memory of a slab that is not in use is none of the others'. -/
theorem untouched_giveMemory {g : Slab.Geom} {s b : ℕ} (hs : w.slabs s = false)
    (hb : ∀ s', w.slabs s' = true → w.memory s' ≠ some b) :
    Untouched g w (giveMemory w s b) := by
  have hne : ∀ s', w.slabs s' = true → s' ≠ s := fun s' h => ne_of_not_slabs hs h
  have hblk : ∀ s' o, InSlab g w s' o → o.blk ≠ b := by
    rintro s' o ⟨hs', b', i, hb', -, rfl⟩ he
    exact hb s' hs' (hb'.trans (congrArg some he))
  constructor
  case tscFree => exact fun s' o ho => if_neg (hblk s' o ho)
  case slab => exact fun s' o ho => if_neg (hblk s' o ho)
  case next => exact fun s' o ho => if_neg (hblk s' o ho)
  case memory => exact fun s' h => update_of_ne (hne s' h) ..
  all_goals intros; rfl

/-- A header that is freed leaves the slabs alone. -/
theorem untouched_resetFrontier (g : Slab.Geom) (h : Heads) (new : Option ℕ) :
    Untouched g w (resetFrontier p (setHeads w h) new) := by
  cases new <;> exact untouched_env ..

end Untouched

/-! ## Backing a header -/

section Back

variable {p : Params} {w w' : World NsEnv} {c : ℕ} {o : Oracle} {s : ℕ} {new r : Option ℕ}

/-- A header in hand is of no slab in use. -/
theorem Taken.slabs (hT : Taken p w s new) : w.slabs s = false := by
  by_contra h
  exact hT.not_owned (.inl (Bool.not_eq_false _ ▸ h))

/-- A header that is given back, after its memory may have been. -/
theorem backed_givenBack (hT : Taken p w s new) {h : Heads} (hG : GivenBack p w s c h) :
    Backed p (resetFrontier p (setHeads w h) new) := by
  have hfr : p.ert.range ∣ (resetFrontier p (setHeads w h) new).env.frontier := by
    cases new with
    | none => exact hT.backed.frontier
    | some id =>
        show p.ert.range ∣ if _ then id else w.env.frontier
        split
        · exact hT.new id rfl
        · exact hT.backed.frontier
  have hheads : (resetFrontier p (setHeads w h) new).env.heads = h := heads_resetFrontier ..
  have hfl : (resetFrontier p (setHeads w h) new).env.fl = w.env.fl := fl_resetFrontier ..
  have hsl : (resetFrontier p (setHeads w h) new).slabs = w.slabs := slabs_resetFrontier ..
  refine hT.backed.change (by cases new <;> rfl) (by cases new <;> rfl) hsl
    (hfl ▸ .refl _) (fun _ _ => by cases new <;> rfl) (fun _ _ => by cases new <;> rfl)
    (fun _ _ => by cases new <;> rfl) (by rw [hheads]; exact hG.inv) (fun s' ho => ?_) hfr
  have hown : Owned w s' := by
    unfold Owned at ho
    rwa [hsl, hfl] at ho
  have hne : s' ≠ s := fun he => hT.not_owned (he ▸ hown)
  rw [hheads]
  show h.held (headObj s') = true
  rw [hG.held, update_of_ne fun he => hne (headObj_inj he)]
  exact hT.backed.held s' hown

/-- A header in hand whose memory is written, while what is stored stays. -/
theorem taken_linked (hT : Taken p w s new) {b : ℕ} {mem : Ertrie.Mem}
    (hR : Rep (slabTrie p.ert) mem w.env.root)
    (hval : ∀ k, valueAt (slabTrie p.ert) mem w.env.root k = stored p w k) :
    Taken p (linked w s b mem) s new := by
  have hK := hT.backed
  have hne : ∀ {s'}, Owned w s' → s' ≠ s := fun h he => hT.not_owned (he ▸ h)
  have hmem : ∀ {s'}, Owned w s' → (linked w s b mem).memory s' = w.memory s' :=
    fun h => update_of_ne (hne h) ..
  have hst : ∀ k, stored p (linked w s b mem) k = stored p w k := hval
  refine ⟨⟨hR, ?_, ?_, hK.nodup, ?_, hK.dvd, hK.lt, hK.end_, hK.inj, hK.heads, hK.held, hK.frontier⟩,
    hT.not_owned, hT.held, hT.dvd, hT.lt, hT.end_, hT.ne_fl, hT.new⟩
  · intro s' h
    rw [hmem (.inl h), hst]
    exact hK.entry s' h
  · intro k hk hv
    rw [hst] at hv
    exact hK.slab k hk hv
  · intro s' h
    rw [hmem (.inr h)]
    exact hK.free s' h

/-- A header in hand that is linked is in use. -/
theorem backed_inUse (hT : Taken p w s new) {b : ℕ} {mem : Ertrie.Mem}
    (hR : Rep (slabTrie p.ert) mem w.env.root)
    (hnone : stored p w (w.start s / p.ert.range) = none)
    (hval : ∀ k < ertMaxid (slabTrie p.ert).consts, valueAt (slabTrie p.ert) mem w.env.root k =
      if k = w.start s / p.ert.range then some (.ext b 0) else stored p w k) :
    Backed p { linked w s b mem with slabs := update w.slabs s true } := by
  have hK := hT.backed
  have hne : ∀ {s'}, Owned w s' → s' ≠ s := fun h he => hT.not_owned (he ▸ h)
  have hslab : ∀ {s'}, update w.slabs s true s' = true ↔ s' = s ∨ w.slabs s' = true :=
    update_true_iff
  have hown : ∀ {s'}, Owned { linked w s b mem with slabs := update w.slabs s true } s' →
      s' = s ∨ Owned w s' := by
    rintro s' (h | h)
    · exact (hslab.mp h).imp id .inl
    · exact .inr (.inr h)
  have hlt : ∀ {s'}, Owned w s' → w.start s' / p.ert.range < ertMaxid (slabTrie p.ert).consts :=
    fun h => div_range_lt (hK.lt _ h)
  -- no slab in use, and no header on the freelist, has the range
  have hstart : ∀ {s'}, Owned w s' → w.start s' ≠ w.start s := by
    rintro s' (h | h) he
    · obtain ⟨b', -, hv⟩ := hK.entry s' h
      rw [he, hnone] at hv
      cases hv
    · exact hT.ne_fl s' h he
  refine ⟨hR, ?_, ?_, hK.nodup, ?_, ?_, ?_, ?_, ?_, hK.heads, ?_, hK.frontier⟩
  · intro s' h
    rcases hslab.mp h with rfl | h
    · exact ⟨b, update_self .., (hval _ (div_range_lt hT.lt)).trans (if_pos rfl)⟩
    · obtain ⟨b', hb', hv⟩ := hK.entry s' h
      refine ⟨b', (update_of_ne (hne (.inl h)) ..).trans hb', ?_⟩
      refine (hval _ (hlt (.inl h))).trans ((if_neg ?_).trans hv)
      intro he
      rw [he, hnone] at hv
      cases hv
  · intro k hk hv
    by_cases he : k = w.start s / p.ert.range
    · exact ⟨s, hslab.mpr (.inl rfl), he.symm⟩
    · have hv' : stored p w k ≠ none := by
        have := hval k hk
        rw [if_neg he] at this
        exact this ▸ hv
      obtain ⟨s', h, hq⟩ := hK.slab k hk hv'
      exact ⟨s', hslab.mpr (.inr h), hq⟩
  · intro s' h
    obtain ⟨h₁, h₂⟩ := hK.free s' h
    exact ⟨(update_of_ne (hne (.inr h)) ..).trans h₁, (update_of_ne (hne (.inr h)) ..).trans h₂⟩
  · intro s' h
    rcases hown h with rfl | h
    · exact hT.dvd
    · exact hK.dvd s' h
  · intro s' h
    rcases hown h with rfl | h
    · exact hT.lt
    · exact hK.lt s' h
  · intro s' h
    rcases hown h with rfl | h
    · exact hT.end_
    · exact hK.end_ s' h
  · intro s' s'' h h' he
    rcases hown h with h | h <;> rcases hown h' with h' | h'
    · exact h.trans h'.symm
    · exact absurd (h ▸ he).symm (hstart h')
    · exact absurd (h' ▸ he) (hstart h)
    · exact hK.inj s' s'' h h' he
  · intro s' h
    rcases hown h with rfl | h
    · exact hT.held
    · exact hK.held s' h

/-- **The second half of `ps_slab_nsalloc`**, where no assertion fails. -/
theorem backHeader_spec (hT : Taken p w s new) (hc : c < p.numCores)
    (hblk : ∀ b, o.blk = some b → ∀ s', w.slabs s' = true → w.memory s' ≠ some b)
    (hrun : backHeader p w s new c o = some (r, w')) :
    Untouched p.slab w w' ∧ Supplies p w' r := by
  have hfree : ∀ {w₁ w₂}, Taken p w₁ s new → freeSlab p w₁ s new c = some w₂ →
      Untouched p.slab w₁ w₂ ∧ Backed p w₂ := by
    intro w₁ w₂ hT₁ hf
    obtain ⟨h, hrun, hG⟩ := exists_givenBack hT₁.backed.heads hc hT₁.held new
    obtain rfl := Option.some.inj (hrun.symm.trans hf)
    exact ⟨untouched_resetFrontier .., backed_givenBack hT₁ hG⟩
  obtain ⟨-, ⟨-, rfl, hf⟩ | ⟨b, z, mem, hb, -, hexp, hend⟩⟩ := backHeader_cases hrun
  · exact hfree hT hf
  have hfresh := hblk b hb
  have hgive : Untouched p.slab w (giveMemory w s b) := untouched_giveMemory hT.slabs hfresh
  have hlink : Untouched p.slab w (linked w s b mem) := hgive.trans (untouched_env ..)
  obtain ⟨z', mem', hexp', hR, hval⟩ := expand_spec (isfree (giveMemory w s b)) hT.backed.rep
    (.ext b 0) o.oks hT.lt
  obtain ⟨rfl, rfl⟩ : z' = z ∧ mem' = mem := by
    have := hexp'.symm.trans hexp
    cases this
    exact ⟨rfl, rfl⟩
  rcases hend with ⟨hz, rfl, hf⟩ | ⟨rfl, rfl, rfl, hlk⟩
  · have hT' : Taken p (linked w s b mem') s new := by
      refine taken_linked hT hR ?_
      rcases hval with ⟨rfl, -⟩ | ⟨-, hval⟩
      · exact absurd rfl hz
      · exact hval
    obtain ⟨hU, hK⟩ := hfree hT' hf
    exact ⟨hlink.trans hU, hK⟩
  · refine ⟨hlink, ⟨hT.slabs, b, update_self .., ?_, fun i => if_pos rfl⟩, ?_⟩
    · intro s' h
      rw [hlink.memory s' h]
      exact hfresh s' h
    · rcases hval with ⟨-, hnone, hval⟩ | ⟨hval, hval'⟩
      · exact backed_inUse hT hR hnone hval
      -- the range was mapped, so that the last assertion fails
      · exfalso
        obtain ⟨s', h, b', hb', hv⟩ : ∃ s', w.slabs s' = true ∧ ∃ b', w.memory s' = some b' ∧
            stored p w (w.start s / p.ert.range) = some (.ext b' 0) := by
          obtain ⟨s', h, hq⟩ := hT.backed.slab _ (div_range_lt hT.lt) (hval.resolve_left (by simp))
          obtain ⟨b', hb', hv⟩ := hT.backed.entry s' h
          exact ⟨s', h, b', hb', hq ▸ hv⟩
        have hv' : stored p (linked w s b mem') (w.start s / p.ert.range) = some (.ext b' 0) :=
          (hval' _).trans hv
        rw [lkupfn_some hR hT.lt hv', walkOff_start hT.dvd] at hlk
        split at hlk
        · cases hlk
        · cases hlk
          exact hfresh s' h hb'

/-- No assertion fails where the header has no memory and its range is not mapped. -/
theorem backHeader_ne_none (hT : Taken p w s new) (hc : c < p.numCores) (hm : w.memory s = none)
    (hnone : stored p w (w.start s / p.ert.range) = none) : backHeader p w s new c o ≠ none := by
  unfold backHeader
  rw [if_pos hm]
  cases o.blk with
  | none =>
      obtain ⟨h, hrun, -⟩ := exists_givenBack hT.backed.heads hc hT.held new
      simp [hrun]
  | some b =>
      have hlk : lkupfn p (giveMemory w s b) (w.start s) p.depth = some none :=
        lkupfn_none hT.backed.rep hT.lt hnone
      obtain ⟨z, mem, hexp, hR, hval⟩ := expand_spec (isfree (giveMemory w s b)) hT.backed.rep
        (.ext b 0) o.oks hT.lt
      have hexp : expandfn p (giveMemory w s b) (w.start s) p.depth (.ext b 0) o.oks =
          some (z, mem) := hexp
      simp only [show (giveMemory w s b).start s = w.start s from rfl, hlk, if_true, hexp,
        Option.bind_eq_bind, Option.bind_some]
      by_cases hz : z = 0
      swap
      · have hH : HeadsInv p (linked w s b mem).env.heads := hT.backed.heads
        obtain ⟨h, hrun, -⟩ := exists_givenBack hH hc hT.held new
        have hrun : freeSlab p (setMem (giveMemory w s b) mem) s new c = _ := hrun
        rw [if_pos hz, hrun]
        simp
      rcases hval with ⟨-, -, hval⟩ | ⟨h | h, -⟩
      · have hv : stored p (linked w s b mem) (w.start s / p.ert.range) = some (.ext b 0) :=
          (hval _ (div_range_lt hT.lt)).trans (if_pos rfl)
        have hlk' := lkupfn_some (w := linked w s b mem) hR hT.lt hv
        have htsc : (linked w s b mem).tscFree ⟨b, 0⟩ = 0 := if_pos rfl
        rw [walkOff_start hT.dvd, htsc, if_neg (not_not_intro rfl)] at hlk'
        have hlk' : lkupfn p (setMem (giveMemory w s b) mem)
            ((setMem (giveMemory w s b) mem).start s) p.depth = some (some (.ext b 0)) := hlk'
        rw [if_neg (not_not_intro hz), if_pos hlk']
        simp
      · exact absurd hz h
      · exact absurd hnone h

end Back

/-! ## The two functions -/

section Spec

variable {p : Params} {w w' : World NsEnv} {o : Oracle} {s sz c : ℕ} {r : Option ℕ}

/-- Taking a header leaves the slabs alone. -/
theorem HeaderStep.untouched {x : Option (ℕ × Option ℕ)} (hK : Backed p w)
    (h : HeaderStep p w c o x w') : Untouched p.slab w w' := by
  cases h with
  | pop s fl _ => exact untouched_env ..
  | none h => exact untouched_env ..
  | new s left h _ _ _ _ hs =>
      refine untouched_newHeader ?_ _ _
      by_contra hsl
      exact hs (hK.held s (.inl (Bool.not_eq_false _ ▸ hsl)))

/-- A header that is taken is in hand. -/
theorem HeaderStep.taken {new : Option ℕ} (hK : Backed p w)
    (h : HeaderStep p w c o (some (s, new)) w') : Taken p w' s new := by
  cases h with
  | pop _ fl hfl => exact taken_pop hK hfl
  | new _ left h hfl hlt _ hH hs hheld => exact taken_new hK hfl hlt hs hH hheld

/-- What an allocation of a slab is relied on for: the core is one of the machine's, and what
`ps_plat_alloc` returns is not in use. -/
structure Requested (p : Params) (w : World NsEnv) (c : ℕ) (o : Oracle) : Prop extends
    Supplied p w c o where
  core : c < p.numCores

/-- Where the header comes from, in a call that is requested. -/
theorem Backed.headerStep (hK : Backed p w) (hR : Requested p w c o) {x : Option (ℕ × Option ℕ)}
    (h : takeHeader p w c o = some (x, w')) : HeaderStep p w c o x w' :=
  headerStep_of_takeHeader hK.heads hR.core hR.pg h

/-- **`ps_slab_nsalloc`**, where no assertion fails. -/
theorem nsalloc_spec (hK : Backed p w) (hR : Requested p w c o)
    (hrun : nsalloc p w sz c o = some (r, w')) : Untouched p.slab w w' ∧ Supplies p w' r := by
  rcases nsalloc_cases hrun with ⟨rfl, htake⟩ | ⟨s, new, w₁, htake, hback⟩
  · have hstep := hK.headerStep hR htake
    refine ⟨hstep.untouched hK, ?_⟩
    cases hstep with
    | none h _ _ hH hheld => exact backed_advance hK hH hheld
  · have hstep := hK.headerStep hR htake
    have hU := hstep.untouched hK
    obtain ⟨hU', h⟩ := backHeader_spec (hstep.taken hK) hR.core (fun b hb s' hs => by
      rw [hU.slabs] at hs
      rw [hU.memory s' hs]
      exact hR.blk b hb s' hs) hback
    exact ⟨hU.trans hU', h⟩

/-- A slab that has been released: its header waits. -/
def released (w : World NsEnv) (s : ℕ) (mem : Ertrie.Mem) : World NsEnv :=
  { w with
    slabs := update w.slabs s false
    memory := update w.memory s none
    env := { w.env with mem := mem, fl := flAdd w.env.fl s } }

/-- No assertion of `ps_slab_nsfree` fails, and the range of the slab is not mapped then. -/
theorem nsfree_run (hK : Backed p w) (hs : w.slabs s = true) (sz c : ℕ) :
    ∃ mem, nsfree p { w with slabs := update w.slabs s false } s sz c = some (released w s mem) ∧
      Rep (slabTrie p.ert) mem w.env.root ∧
      (∀ k < ertMaxid (slabTrie p.ert).consts, valueAt (slabTrie p.ert) mem w.env.root k =
        if k = w.start s / p.ert.range then none else stored p w k) ∧
      ∀ id, Reaches p w id → Reaches p (released w s mem) id := by
  have hlt := hK.lt s (.inl hs)
  obtain ⟨b, hb, hv⟩ := hK.entry s hs
  obtain ⟨n, hn⟩ : ∃ n, entryAt p.ert w.env.mem w.env.root (w.start s) = some n := by
    refine Option.ne_none_iff_exists'.mp fun h => ?_
    have hnone : stored p w (w.start s / p.ert.range) = none := valueAt_of_entry_none h
    rw [hnone] at hv
    cases hv
  obtain ⟨mem, hstore, hR, hval, hreach⟩ := clear_entry hK.rep hlt hn
  have hload := load_entry hK.rep hn
  refine ⟨mem, ?_, hR, hval, fun id h => ?_⟩
  · have hlk : lkupfn p { w with slabs := update w.slabs s false } (w.start s) (p.depth - 1) =
        some (some n) := (lookup_entry hK.rep (isfree w) hlt).trans (congrArg some hn)
    have hgone : lkupfn p (setMem { w with slabs := update w.slabs s false } mem)
        ((setMem { w with slabs := update w.slabs s false } mem).start s) p.depth = some none :=
      lkupfn_none hR hlt ((hval _ (div_range_lt hlt)).trans (if_pos rfl))
    unfold nsfree
    simp only [hlk, Option.bind_eq_bind, Option.bind_some]
    rw [show w.env.mem.load (psWord p.arch) n = some (some (.ext b 0)) from
      hload.trans (congrArg some hv), Option.bind_some, hb, Option.map_some, if_pos rfl,
      show w.env.mem.store (psWord p.arch) n none = some mem from hstore, Option.bind_some,
      if_pos hgone]
    rfl
  · show entryAt p.ert mem w.env.root id ≠ none
    rw [hreach]
    exact h

/-- The other slabs stay when one is released. -/
theorem untouched_released (g : Slab.Geom) (w : World NsEnv) (s : ℕ) (mem : Ertrie.Mem) :
    Untouched g { w with slabs := update w.slabs s false } (released w s mem) := by
  constructor
  case memory => exact fun s' h => update_of_ne (update_false_iff.mp h).1 ..
  all_goals intros; rfl

/-- What backs the slabs that stay when one is released. -/
theorem backed_released (hK : Backed p w) (hs : w.slabs s = true) {mem : Ertrie.Mem}
    (hR : Rep (slabTrie p.ert) mem w.env.root)
    (hval : ∀ k < ertMaxid (slabTrie p.ert).consts, valueAt (slabTrie p.ert) mem w.env.root k =
      if k = w.start s / p.ert.range then none else stored p w k) : Backed p (released w s mem) := by
  have hown : Owned w s := .inl hs
  have hnot : s ∉ w.env.fl := fun h => Bool.false_ne_true ((hK.free s h).1.symm.trans hs)
  have hmem : ∀ {s'}, s' ∈ (released w s mem).env.fl ↔ s' = s ∨ s' ∈ w.env.fl :=
    (flAdd_perm w.env.fl s).mem_iff.trans List.mem_cons
  have hown' : ∀ {s'}, Owned (released w s mem) s' → Owned w s' := by
    rintro s' (h | h)
    · exact .inl (update_false_iff.mp h).2
    · rcases hmem.mp h with rfl | h
      · exact hown
      · exact .inr h
  have hmemory : ∀ {s'}, s' ≠ s → (released w s mem).memory s' = w.memory s' :=
    fun h => update_of_ne h ..
  have hst : ∀ k < ertMaxid (slabTrie p.ert).consts, stored p (released w s mem) k =
      if k = w.start s / p.ert.range then none else stored p w k := hval
  refine ⟨hR, ?_, ?_, ?_, ?_, fun s' h => hK.dvd s' (hown' h), fun s' h => hK.lt s' (hown' h),
    fun s' h => hK.end_ s' (hown' h), fun s' s'' h h' => hK.inj s' s'' (hown' h) (hown' h'), hK.heads,
    fun s' h => hK.held s' (hown' h), hK.frontier⟩
  · intro s' h
    obtain ⟨hne, h⟩ := update_false_iff.mp h
    obtain ⟨b', hb', hv'⟩ := hK.entry s' h
    have hrange : (released w s mem).start s' / p.ert.range ≠ w.start s / p.ert.range :=
      fun he => hne (hK.inj s' s (.inl h) hown
        (Nat.div_left_inj (hK.dvd s' (.inl h)) (hK.dvd s hown) |>.mp he))
    refine ⟨b', (hmemory hne).trans hb', ?_⟩
    exact (hst _ (div_range_lt (hK.lt s' (.inl h)))).trans ((if_neg hrange).trans hv')
  · intro k hk hk'
    rw [hst k hk] at hk'
    split at hk'
    · exact absurd rfl hk'
    · rename_i hne
      obtain ⟨s', h, hq⟩ := hK.slab k hk hk'
      have hs' : s' ≠ s := by
        rintro rfl
        exact hne hq.symm
      exact ⟨s', update_false_iff.mpr ⟨hs', h⟩, hq⟩
  · exact (flAdd_perm w.env.fl s).nodup_iff.mpr (List.nodup_cons.mpr ⟨hnot, hK.nodup⟩)
  · intro s' h
    rcases hmem.mp h with rfl | h
    · exact ⟨update_self .., update_self ..⟩
    · have hne : s' ≠ s := fun he => hnot (he ▸ h)
      exact ⟨(update_of_ne hne ..).trans (hK.free s' h).1, (hmemory hne).trans (hK.free s' h).2⟩

/-- **`ps_slab_nsfree`** does not fail. -/
theorem nsfree_spec (hK : Backed p w) (hs : w.slabs s = true) (sz c : ℕ) :
    ∃ w', nsfree p { w with slabs := update w.slabs s false } s sz c = some w' ∧
      Untouched p.slab { w with slabs := update w.slabs s false } w' ∧ Backed p w' ∧
      w'.env.fl = flAdd w.env.fl s ∧ w'.env.heads = w.env.heads ∧
      w'.env.frontier = w.env.frontier ∧ w'.slabs = update w.slabs s false ∧
      w'.start = w.start ∧ w'.end_ = w.end_ ∧ ∀ id, Reaches p w id → Reaches p w' id := by
  obtain ⟨mem, hrun, hR, hval, hre⟩ := nsfree_run hK hs sz c
  exact ⟨_, hrun, untouched_released .., backed_released hK hs hR hval, rfl, rfl, rfl, rfl, rfl, rfl,
    hre⟩

end Spec

end Parsec.Nsptr
