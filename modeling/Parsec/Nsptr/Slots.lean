import Parsec.Nsptr.Backing

/-!
# Slots and their descriptors

A slot is an object of a slab in use, and its descriptor the slab's first id and the slot's number.
While a slot is held, its slab keeps its memory and its ids (`memFree_frame`, `memAlloc_frame`), so
that a descriptor that has been returned stays what `ps_ns_desc` computes.

* `SlotOf` — the slot with a number of a slab; `nsDesc_eq`, `desc_inj` — its descriptor.
* `Addressable` — the offsets of slots fit in a `u32_t`. Then a lookup of a descriptor finds its slot
  (`nsptrLkup_slot`), unless the slot's header reads free, and finds nothing else (`slot_of_lkup`).
-/

namespace Parsec.Nsptr

open Function Ertrie Ns Slab

/-! ## Slots -/

section Slots

variable {p : Params} {w w' : World NsEnv} {s s' k k' id : ℕ} {a a' : Obj}

/-- The slot with number `k` of slab `s`. -/
def SlotOf (p : Params) (w : World NsEnv) (s k : ℕ) (a : Obj) : Prop :=
  w.slabs s = true ∧ k < p.ert.range ∧ ∃ b, w.memory s = some b ∧ a = ⟨b, k * p.stride⟩

/-- The objects of a slab are its slots. -/
theorem inSlab_iff : InSlab p.slab w s a ↔ ∃ k, SlotOf p w s k a := by
  unfold Slab.InSlab SlotOf
  constructor
  · rintro ⟨hs, b, k, hb, hk, ha⟩
    rw [p.nobjs_slab] at hk
    rw [p.obj_slab] at ha
    exact ⟨k, hs, hk, b, hb, ha⟩
  · rintro ⟨k, hs, hk, b, hb, ha⟩
    rw [← p.nobjs_slab] at hk
    rw [← p.obj_slab] at ha
    exact ⟨hs, b, k, hb, hk, ha⟩

/-- A slot is in its slab. -/
theorem SlotOf.inSlab (h : SlotOf p w s k a) : InSlab p.slab w s a := inSlab_iff.mpr ⟨k, h⟩

/-- The ids of a slab are below the greatest descriptor. -/
theorem SlotOf.lt (hK : Backed p w) (h : SlotOf p w s k a) : w.start s + k < p.ert.descMax := by
  have hown : Owned w s := .inl h.1
  have hle := add_range_le (hK.dvd s hown) (hK.lt s hown)
  have hk := h.2.1
  omega

/-- The range of a slot's descriptor is that of its slab. -/
theorem SlotOf.div_range (hK : Backed p w) (h : SlotOf p w s k a) :
    (w.start s + k) / p.ert.range = w.start s / p.ert.range := by
  obtain ⟨q, hq⟩ := hK.dvd s (.inl h.1)
  have hpos := p.ert.range_pos
  rw [hq, Nat.mul_add_div hpos, Nat.div_eq_of_lt h.2.1, Nat.mul_div_cancel_left _ hpos, Nat.add_zero]

/-- The slot's number in its slab, from its descriptor. -/
theorem SlotOf.mod_range (hK : Backed p w) (h : SlotOf p w s k a) :
    (w.start s + k) % p.ert.range = k := by
  obtain ⟨q, hq⟩ := hK.dvd s (.inl h.1)
  rw [hq, Nat.mul_add_mod, Nat.mod_eq_of_lt h.2.1]

/-- **The descriptor of a slot.** -/
theorem nsDesc_eq (hK : Backed p w) (hslab : w.slab a = some s) (h : SlotOf p w s k a) :
    nsDesc p w a = some (w.start s + k) := by
  obtain ⟨-, hk, b, hb, ha⟩ := id h
  have hrange : p.ert.range < 2 ^ 32 := p.nobjs_slab ▸ p.nobjs_lt
  have hlt : w.start s + k < 2 ^ wordBits p.arch := (h.lt hK).trans p.ert.descMax_lt
  unfold nsDesc
  rw [hslab, Option.bind_eq_bind, Option.bind_some, hb, Option.bind_some, ha, if_pos rfl,
    p.objmemsz_slab, Nat.mul_div_cancel _ p.stride_pos, toU32_of_lt (hk.trans hrange),
    Nat.mod_eq_of_lt hlt]

/-- Slots with one descriptor are one. -/
theorem desc_inj (hK : Backed p w) (h : SlotOf p w s k a) (h' : SlotOf p w s' k' a')
    (he : w.start s + k = w.start s' + k') : a = a' := by
  have hk : k = k' := by rw [← h.mod_range hK, he, h'.mod_range hK]
  obtain rfl : s = s' := hK.inj s s' (.inl h.1) (.inl h'.1) (by omega)
  obtain ⟨-, -, b, hb, rfl⟩ := h
  obtain ⟨-, -, b', hb', rfl⟩ := h'
  obtain rfl : b = b' := Option.some.inj (hb.symm.trans hb')
  rw [hk]

/-! ## Lookups -/

/-- The offsets of the slots of a slab, which `__ert_walk` computes, fit in a `u32_t`. -/
def Addressable (p : Params) : Prop := (p.ert.range - 1) * p.stride < 2 ^ 32

/-- The last walk goes to the slot of the id. -/
theorem walkOff_slot (hF : Addressable p) (id : ℕ) :
    walkOff p.ert.consts id 1 = id % p.ert.range * p.stride := by
  have hm : ertM id p.ert.lastOrder = id % p.ert.range := by
    unfold ertM
    rw [Lib.and_mask, p.ert.range_eq]
  have hlt : id % p.ert.range < p.ert.range := Nat.mod_lt _ p.ert.range_pos
  have hmul : id % p.ert.range * p.stride < 2 ^ 32 :=
    (Nat.mul_le_mul_right p.stride (by omega : id % p.ert.range ≤ p.ert.range - 1)).trans_lt hF
  rw [walkOff_one]
  show toU32 (ertM id p.ert.lastOrder * toU32 p.stride) = _
  rw [hm]
  unfold toU32 at *
  rw [Nat.mul_mod, Nat.mod_mod, ← Nat.mul_mod, Nat.mod_eq_of_lt hmul]

/-- What a lookup finds: the header at an offset of the slab whose ids they are, if it does not read
free. -/
theorem nsptrLkup_cases (hK : Backed p w) (hid : id < p.ert.descMax) :
    ((∀ s, w.slabs s = true → w.start s / p.ert.range ≠ id / p.ert.range) ∧
      nsptrLkup p w id = some none) ∨
    ∃ s b, w.slabs s = true ∧ w.memory s = some b ∧
      w.start s / p.ert.range = id / p.ert.range ∧
      nsptrLkup p w id = some (if w.tscFree ⟨b, walkOff p.ert.consts id 1⟩ ≠ 0 then none
        else some ⟨b, walkOff p.ert.consts id 1⟩) := by
  by_cases hst : stored p w (id / p.ert.range) = none
  · left
    refine ⟨fun s hs he => ?_, ?_⟩
    · obtain ⟨b, -, hv⟩ := hK.entry s hs
      rw [he, hst] at hv
      cases hv
    · unfold nsptrLkup
      rw [lkupfn_none hK.rep hid hst]
      rfl
  · right
    obtain ⟨s, hs, hq⟩ := hK.slab _ (div_range_lt hid) hst
    obtain ⟨b, hb, hv⟩ := hK.entry s hs
    rw [hq] at hv
    refine ⟨s, b, hs, hb, hq, ?_⟩
    unfold nsptrLkup
    rw [lkupfn_some hK.rep hid hv]
    by_cases h0 : w.tscFree ⟨b, walkOff p.ert.consts id 1⟩ ≠ 0
    · rw [if_pos h0, if_pos h0]
      rfl
    · rw [if_neg h0, if_neg h0]
      rfl

/-- The lookup of an id below the greatest does not fail. -/
theorem nsptrLkup_ne_none (hK : Backed p w) (hid : id < p.ert.descMax) :
    nsptrLkup p w id ≠ none := by
  rcases nsptrLkup_cases hK hid with ⟨-, h⟩ | ⟨_, _, -, -, -, h⟩ <;> simp [h]

/-- **A lookup of a slot's descriptor** finds it, unless its header reads free. -/
theorem nsptrLkup_slot (hF : Addressable p) (hK : Backed p w) (h : SlotOf p w s k a) :
    nsptrLkup p w (w.start s + k) = some (if w.tscFree a ≠ 0 then none else some a) := by
  have hdiv := h.div_range hK
  rcases nsptrLkup_cases hK (h.lt hK) with ⟨hno, -⟩ | ⟨s', b', hs', hb', hq, hlk⟩
  · exact absurd hdiv.symm (hno s h.1)
  · have hstart : w.start s' = w.start s :=
      (Nat.div_left_inj (hK.dvd s' (.inl hs')) (hK.dvd s (.inl h.1))).mp (hq.trans hdiv)
    obtain rfl : s' = s := hK.inj s' s (.inl hs') (.inl h.1) hstart
    obtain ⟨-, -, b, hb, rfl⟩ := id h
    obtain rfl : b' = b := Option.some.inj (hb'.symm.trans hb)
    rwa [walkOff_slot hF, h.mod_range hK] at hlk

/-- What a lookup finds is the slot of the descriptor. -/
theorem slot_of_lkup (hF : Addressable p) (hK : Backed p w) (hid : id < p.ert.descMax)
    (h : nsptrLkup p w id = some (some a)) :
    ∃ s k, SlotOf p w s k a ∧ id = w.start s + k ∧ w.tscFree a = 0 := by
  rcases nsptrLkup_cases hK hid with ⟨-, hlk⟩ | ⟨s, b, hs, hb, hq, hlk⟩
  · rw [hlk] at h
    cases h
  · rw [hlk, walkOff_slot hF] at h
    split at h
    · cases h
    · rename_i h0
      cases h
      refine ⟨s, id % p.ert.range, ⟨hs, Nat.mod_lt _ p.ert.range_pos, b, hb, rfl⟩, ?_, not_not.mp h0⟩
      have hstart := Nat.div_mul_cancel (hK.dvd s (.inl hs))
      rw [← hstart, hq]
      exact (Nat.div_add_mod' id p.ert.range).symm

end Slots

end Parsec.Nsptr
