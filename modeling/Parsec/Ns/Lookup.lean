import Parsec.Ns.Ranges

/-!
# Registered slabs are found

`__ert_expand` tests an entry, allocates a node and stores it in three steps, so a node that another
call has linked in between is overwritten, with all that is below it. As long as that does not
happen (`StillNull`), a slab that `ps_slab_nsalloc` has returned is found by every lookup of one of
its ids, until it is passed to `ps_slab_nsfree`.

* `Linked` — under that guard a labelled node stays linked at its place, and the entry of a
  registered slab leads to its memory.
* `finds_of_reach` — the result, for lookups at one go and for lookups that are under way.
* `exists_lost_slab` — two calls that test the same root entry before either stores it: the slab
  that the first returns is lost when the second stores.
-/

namespace Parsec.Ns

open Function Ertrie Lib

section Defs

variable {τ : Type}

/-- An entry that gets an internal node is still NULL, as it was tested. -/
def Pc.StillNull (g : NsGeom) (m : Mem) : Pc → Prop
  | .expSet _ _ i n _ => i + 2 < g.depth → m.load (psWord g.arch) n = some none
  | _ => True

instance (g : NsGeom) (m : Mem) (p : Pc) : Decidable (p.StillNull g m) := by
  cases p with
  | expSet _ _ i n _ =>
      exact inferInstanceAs (Decidable (i + 2 < g.depth → m.load (psWord g.arch) n = some none))
  | _ => exact .isTrue trivial

/-- The guard: no linked node is overwritten. -/
def StillNull (g : NsGeom) (s : St τ) : Act τ → Prop
  | .step t _ => (s.pc t).StillNull g s.mem
  | _ => True

instance (g : NsGeom) (s : St τ) : ∀ a : Act τ, Decidable (StillNull g s a)
  | .step t _ => inferInstanceAs (Decidable ((s.pc t).StillNull g s.mem))
  | .nsalloc _ | .nsfree _ _ | .lkup _ _ => .isTrue trivial

/-- Labelled nodes are linked at their places, and so is the memory of registered slabs. -/
structure Linked (g : NsGeom) (tag : Tag) (s : St τ) : Prop where
  unique : ∀ b b' p, tag b = some p → tag b' = some p → b = b'
  up : ∀ b p k, tag b = some (p ++ [k]) →
    ∃ c, tag c = some p ∧ s.mem.word c (k * psWord g.arch) = some (.cell b 0)
  slot : ∀ h m, Reg s h → s.memory h = some m → ∃ b, tag b = some (path g.consts (s.start h) g.inner) ∧
    s.mem.word b (hop g.consts (s.start h) g.inner * psWord g.arch) = some (.ext m 0)

/-- Lookups of an id of slab `h` reach its memory: a whole lookup does, one that is under way does
not meet NULL, and one that is at the last internal entry goes to the memory. -/
structure Finds [DecidableEq τ] (g : NsGeom) (s : St τ) (h id m : ℕ) : Prop where
  memory : s.memory h = some m
  lookup : lookupLoop g.consts s.mem id g.depth 0 (.vect s.root) =
    some (some (.ext m (walkOff g.consts id 1)))
  test : ∀ t k limit i n, s.pc t = .test k id limit i n → s.mem.load (psWord g.arch) n ≠ some none
  hop : ∀ t k limit i n, s.pc t = .hop k id limit i n → i + 1 = g.depth →
    ertWalk g.consts s.mem n id 1 = some (.ext m (walkOff g.consts id 1))

end Defs

/-! ## Steps -/

section Steps

variable {τ : Type} [DecidableEq τ] {g : NsGeom} {tag : Tag} {s s' s₁ : St τ} {t : τ} {p : Pc}

omit [DecidableEq τ] in
/-- A step that writes no labelled node and registers nothing. -/
theorem Linked.quiet (hL : Linked g tag s)
    (hword : ∀ b q, tag b = some q → s₁.mem.word b = s.mem.word b)
    (hreg : ∀ h, Reg s₁ h → Reg s h ∧ s₁.memory h = s.memory h ∧ s₁.start h = s.start h) :
    Linked g tag s₁ where
  unique := hL.unique
  up b p k hb := by
    obtain ⟨c, hc, hw⟩ := hL.up b p k hb
    exact ⟨c, hc, hword c p hc ▸ hw⟩
  slot h m hR hm := by
    obtain ⟨hR', hm', hs'⟩ := hreg h hR
    obtain ⟨b, hb, hw⟩ := hL.slot h m hR' (hm' ▸ hm)
    rw [hs']
    exact ⟨b, hb, hword b _ hb ▸ hw⟩

/-- A step that changes no header, no memory and no word. -/
theorem Linked.setPc (hL : Linked g tag s) (hpc : s₁.pc = s.pc) (hu : s₁.inUse = s.inUse)
    (hword : s₁.mem.word = s.mem.word) (hm : s₁.memory = s.memory) (hs : s₁.start = s.start)
    (hp : ∀ h, p.reg = some h → (s.pc t).reg = some h) : Linked g tag (s₁.setPc t p) := by
  refine hL.quiet (fun b _ _ => congrFun hword b) fun h hR => ⟨?_, congrFun hm h, congrFun hs h⟩
  refine hR.back hpc (fun hu' => .inl ?_) fun hr => .inr ⟨t, hp h hr⟩
  rwa [← hu]

omit [DecidableEq τ] in
/-- Registered slabs with the same path are the same. -/
theorem Inv.reg_inj (hI : Inv g tag s) (hD : Distinct (claim s)) {h h' : ℕ}
    (hh : s.header h = true) (hh' : s.header h' = true)
    (hp : slotPath g (s.start h) = slotPath g (s.start h')) : h = h' := by
  have hdiv := slotPath_inj (hI.headers.lt h hh) (hI.headers.lt h' hh') hp
  have hstart : s.start h = s.start h' := by
    obtain ⟨k, hk⟩ := hI.headers.dvd h hh
    obtain ⟨k', hk'⟩ := hI.headers.dvd h' hh'
    rw [hk, hk', Nat.mul_div_cancel_left _ g.range_pos, Nat.mul_div_cancel_left _ g.range_pos]
      at hdiv
    rw [hk, hk', hdiv]
  have hk : claim s (.inr h) = some (s.start h) := if_pos hh
  have hk' : claim s (.inr h') = some (s.start h) := by rw [hstart]; exact if_pos hh'
  exact Sum.inr.inj (hD _ _ _ hk hk')

omit [DecidableEq τ] in
/-- Slabs whose entries are at one place are the same. -/
theorem Inv.eq_of_entry (hI : Inv g tag s) (hD : Distinct (claim s)) {h h' b : ℕ}
    (hh : s.header h = true) (hh' : s.header h' = true)
    (hb : tag b = some (path g.consts (s.start h) g.inner))
    (hb' : tag b = some (path g.consts (s.start h') g.inner))
    (hk : hop g.consts (s.start h) g.inner = hop g.consts (s.start h') g.inner) : h = h' := by
  refine hI.reg_inj hD hh hh' ?_
  rw [hb, Option.some.injEq] at hb'
  unfold slotPath
  rw [path_succ, path_succ, hb', hk]

/-- An internal node is linked where the entry was NULL. -/
theorem Linked.link (hL : Linked g tag s) (hI : Inv g tag s) {h i b : ℕ} {new : Option ℕ} {n : Addr}
    {m : Mem} (ht : s.pc t = .expSet h new i n (.cell b 0)) (hi : i < g.inner)
    (hm : s.mem.store (psWord g.arch) n (some (.cell b 0)) = some m)
    (hnull : s.mem.load (psWord g.arch) n = some none) :
    Linked g (update tag b (some (path g.consts (s.start h) (i + 1))))
      ({ s with mem := m }.setPc t (expNext g s h new i n)) := by
  obtain ⟨hbtag, -, -⟩ := (hI.ok t).node_spec (b := b) (by rw [ht]; rfl)
  obtain ⟨-, -, -, hat, -⟩ := hI.okAt ht
  obtain ⟨c, hc, rfl⟩ := hat
  have hcnull : s.mem.word c (hop g.consts (s.start h) i * psWord g.arch) = none := load_cell hnull
  obtain ⟨hle, rfl⟩ : _ ∧ s.mem.set c _ (some (.cell b 0)) = m := by
    simpa only [Mem.store, Option.ite_none_right_eq_some, Option.some.injEq] using hm
  have hne : ∀ {b' q}, tag b' = some q → b' ≠ b := by
    rintro b' q hb' rfl
    rw [hb'] at hbtag
    cases hbtag
  have hold : ∀ {b' q}, tag b' = some q →
      update tag b (some (path g.consts (s.start h) (i + 1))) b' = some q := fun hb' =>
    (update_of_ne (hne hb') ..).trans hb'
  -- nobody had the label of the new node: its entry was NULL
  have hfresh : ∀ b', tag b' ≠ some (path g.consts (s.start h) (i + 1)) := by
    intro b' hb'
    rw [path_succ] at hb'
    obtain ⟨c', hc', hw⟩ := hL.up b' _ _ hb'
    obtain rfl := hL.unique c' c _ hc' hc
    rw [hcnull] at hw
    cases hw
  have hkeep : ∀ {c' k a}, s.mem.word c' (k * psWord g.arch) = some a →
      (s.mem.set c (hop g.consts (s.start h) i * psWord g.arch) (some (.cell b 0))).word c'
        (k * psWord g.arch) = some a := by
    intro c' k a hw
    rw [Mem.set_entry (psWord_pos g.arch), if_neg]
    · exact hw
    · rintro ⟨rfl, rfl⟩
      rw [hcnull] at hw
      cases hw
  refine ⟨fun b₁ b₂ q h₁ h₂ => ?_, fun b' q k hb' => ?_, fun h' m' hR hm' => ?_⟩
  · by_cases e₁ : b₁ = b <;> by_cases e₂ : b₂ = b
    · rw [e₁, e₂]
    · rw [e₁, update_self, Option.some.injEq] at h₁
      rw [update_of_ne e₂, ← h₁] at h₂
      exact absurd h₂ (hfresh b₂)
    · rw [e₂, update_self, Option.some.injEq] at h₂
      rw [update_of_ne e₁, ← h₂] at h₁
      exact absurd h₁ (hfresh b₁)
    · rw [update_of_ne e₁] at h₁
      rw [update_of_ne e₂] at h₂
      exact hL.unique b₁ b₂ q h₁ h₂
  · by_cases he : b' = b
    · rw [he, update_self, Option.some.injEq, path_succ] at hb'
      obtain ⟨rfl, hk⟩ := List.append_inj' hb' rfl
      obtain rfl := List.singleton_injective hk
      exact ⟨c, hold hc, he ▸ Mem.set_word_self⟩
    · rw [update_of_ne he] at hb'
      obtain ⟨c', hc', hw⟩ := hL.up b' q k hb'
      exact ⟨c', hold hc', hkeep hw⟩
  · have hR' : Reg s h' := by
      refine hR.back rfl .inl fun hr => ?_
      unfold expNext at hr
      rw [if_pos (by have := g.depth_eq'; omega)] at hr
      cases hr
    obtain ⟨b', hb', hw⟩ := hL.slot h' m' hR' hm'
    exact ⟨b', hold hb', hkeep hw⟩

/-- A slab is registered: the entries of the others are elsewhere. -/
theorem Linked.register (hL : Linked g tag s) (hI : Inv g tag s) (hD : Distinct (claim s))
    {h i d : ℕ} {new : Option ℕ} {n : Addr} {m : Mem} (ht : s.pc t = .expSet h new i n (.ext d 0))
    (hi : ¬ i < g.inner) (hm : s.mem.store (psWord g.arch) n (some (.ext d 0)) = some m) :
    Linked g tag ({ s with mem := m }.setPc t (expNext g s h new i n)) := by
  have hH := hI.headers
  have hh : (s.pc t).hdr = some h := by rw [ht]; rfl
  obtain ⟨-, -, hlt, hat, hnn, -⟩ := hI.okAt ht
  obtain rfl : i = g.inner := by omega
  obtain ⟨c, hc, rfl⟩ := hat
  have hd : s.memory h = some d := by
    unfold NodeNew at hnn
    rw [if_neg hi] at hnn
    obtain ⟨d', hd', he⟩ := hnn
    cases he
    exact hd'
  obtain ⟨hle, rfl⟩ : _ ∧ s.mem.set c _ (some (.ext d 0)) = m := by
    simpa only [Mem.store, Option.ite_none_right_eq_some, Option.some.injEq] using hm
  refine ⟨hL.unique, fun b' q k hb' => ?_, fun h' m' hR hm' => ?_⟩
  · obtain ⟨c', hc', hw⟩ := hL.up b' q k hb'
    have hlen := hI.tree.length b' _ hb'
    have hne : c' ≠ c := by
      rintro rfl
      rw [hc, Option.some.injEq] at hc'
      rw [← hc', List.length_append, length_path] at hlen
      exact absurd hlen (by simp)
    exact ⟨c', hc', (congrFun (Mem.set_word_of_ne hne) _).trans hw⟩
  · by_cases he : h' = h
    · subst he
      refine ⟨c, hc, ?_⟩
      rw [show m' = d from Option.some.inj (hm'.symm.trans hd)]
      exact Mem.set_word_self
    · have hR' : Reg s h' := by
        refine hR.back rfl .inl fun hr => ?_
        unfold expNext at hr
        rw [if_neg (by have := g.depth_eq'; omega)] at hr
        cases hr
        exact absurd rfl he
      obtain ⟨b', hb', hw⟩ := hL.slot h' m' hR' hm'
      refine ⟨b', hb', ?_⟩
      show (s.mem.set c _ (some (.ext d 0))).word b' _ = _
      rw [Mem.set_entry (psWord_pos g.arch), if_neg]
      · exact hw
      · rintro ⟨rfl, hk⟩
        exact he (hI.eq_of_entry hD (hH.header_of_reg hR') (hH.held t h hh).1 hb' hc hk)

/-- A slab's entry is cleared: the entries of the others are elsewhere. -/
theorem Linked.clear (hL : Linked g tag s) (hI : Inv g tag s) (hD : Distinct (claim s)) {h : ℕ}
    {n : Addr} {m : Mem} (ht : s.pc t = .clear h n)
    (hm : s.mem.store (psWord g.arch) n none = some m) :
    Linked g tag ({ s with mem := m }.setPc t (lookupStart s (.gone h) (s.start h) g.depth)) := by
  have hH := hI.headers
  have hh : (s.pc t).hdr = some h := by rw [ht]; rfl
  obtain ⟨⟨c, hc, rfl⟩, -⟩ := hI.okAt ht
  obtain ⟨hle, rfl⟩ : _ ∧ s.mem.set c _ none = m := by
    simpa only [Mem.store, Option.ite_none_right_eq_some, Option.some.injEq] using hm
  refine ⟨hL.unique, fun b' q k hb' => ?_, fun h' m' hR hm' => ?_⟩
  · obtain ⟨c', hc', hw⟩ := hL.up b' q k hb'
    have hlen := hI.tree.length b' _ hb'
    have hne : c' ≠ c := by
      rintro rfl
      rw [hc, Option.some.injEq] at hc'
      rw [← hc', List.length_append, length_path] at hlen
      exact absurd hlen (by simp)
    exact ⟨c', hc', (congrFun (Mem.set_word_of_ne hne) _).trans hw⟩
  · have hR' : Reg s h' := hR.back rfl .inl (by simp [lookupStart, Pc.reg, Caller.reg])
    have he : h' ≠ h := by
      rintro rfl
      rcases hR with hu | ⟨t', ht'⟩
      · have hu' : s.inUse h' = true := hu
        rw [(hH.held t h' hh).2.1] at hu'
        cases hu'
      · by_cases htt : t' = t
        · subst htt
          rw [setPc_pc_self] at ht'
          cases ht'
        · rw [setPc_pc_ne htt] at ht'
          exact htt (hH.inj t' t h' (Pc.hdr_of_reg ht') hh)
    obtain ⟨b', hb', hw⟩ := hL.slot h' m' hR' hm'
    refine ⟨b', hb', ?_⟩
    show (s.mem.set c _ none).word b' _ = _
    rw [Mem.set_entry (psWord_pos g.arch), if_neg]
    · exact hw
    · rintro ⟨rfl, hk⟩
      exact he (hI.eq_of_entry hD (hH.header_of_reg hR') (hH.held t h hh).1 hb' hc hk)

omit [DecidableEq τ] in
/-- The entry for a slab that is not registered is NULL. -/
theorem Inv.entry_null (hI : Inv g tag s) (hD : Distinct (claim s)) {h : ℕ} {n : Addr} {q : Ptr}
    (hh : s.header h = true) (hR : ¬ Reg s h) (hat : At g tag s.root (s.start h) (g.inner + 1) n)
    (hq : s.mem.load (psWord g.arch) n = some q) : q = none := by
  obtain ⟨c, hc, rfl⟩ := hat
  have hw := load_cell hq
  cases q with
  | none => rfl
  | some a =>
      have hlen : (path g.consts (s.start h) g.inner).length = g.inner := length_path ..
      obtain ⟨m, rfl⟩ := hI.slots.ext c _ _ a hc hlen (hop_lt g.consts ..) hw
      obtain ⟨h', hR', -, hp⟩ := hI.slots.reg c _ _ m ⟨hc, hlen, hop_lt g.consts .., hw⟩
      have he := hI.reg_inj hD (hI.headers.header_of_reg hR') hh (hp.trans (path_succ ..).symm)
      exact absurd (he ▸ hR') hR

/-- The end of a lookup registers nothing. -/
theorem Linked.lookupFound (hL : Linked g tag s) {k : Caller} {id limit : ℕ} {n : Addr}
    (ht : s.pc t = .resolve k id limit n) (h : lookupFound s t n k = some s') :
    Linked g tag s' := by
  cases k with
  | user =>
      cases h
      exact hL.setPc rfl rfl rfl rfl rfl (by simp [Pc.reg])
  | unlink h' =>
      cases h
      exact hL.setPc rfl rfl rfl rfl rfl fun _ hr => by rw [ht]; exact hr
  | present h' new =>
      simp only [Ns.lookupFound, Option.ite_none_right_eq_some, Option.some.injEq] at h
      obtain ⟨-, rfl⟩ := h
      refine hL.quiet (fun _ _ _ => rfl) fun h₁ hR => ⟨?_, rfl, rfl⟩
      refine hR.back rfl (fun hu => ?_) (by simp [Pc.reg])
      by_cases he : h₁ = h'
      · exact .inr ⟨t, by rw [ht, he]; rfl⟩
      · exact .inl (by simpa [update_of_ne he] using hu)
  | absent _ _ | gone _ => cases h

omit [DecidableEq τ] in
/-- What a lookup that returned NULL leads to registers nothing. -/
theorem reg_of_lookupNull {k : Caller} (h : lookupNull s k = some p) : p.reg = none := by
  cases k with
  | user | absent _ _ | gone _ =>
      cases h
      rfl
  | present _ _ | unlink _ => cases h

/-- A new header is none that is registered. -/
theorem Linked.header (hL : Linked g tag s) (hI : Inv g tag s) {id : ℕ} {o : Oracle}
    (ht : s.pc t = .header id) (hs : Ns.tick g s t o = some s') : Linked g tag s' := by
  have hH := hI.headers
  simp only [Ns.tick, ht] at hs
  split at hs
  · cases hs
    exact hL.setPc rfl rfl rfl rfl rfl (by simp [Pc.reg])
  · rename_i h _
    split at hs <;> cases hs
    rename_i hfree
    refine hL.quiet (fun _ _ _ => rfl) fun h₁ hR => ?_
    have hR₁ : Reg s h₁ := hR.back rfl .inl (by simp [Pc.reg])
    have hne : h₁ ≠ h := by
      rintro rfl
      rw [hH.header_of_reg hR₁] at hfree
      cases hfree
    refine ⟨hR₁, ?_, update_of_ne hne ..⟩
    show (if o.ok = true then update s.memory h none else s.memory) h₁ = s.memory h₁
    split
    · exact update_of_ne hne ..
    · rfl

/-- Memory is given to a slab that is not registered. -/
theorem Linked.memory (hL : Linked g tag s) (hI : Inv g tag s) {h : ℕ} {new : Option ℕ} {o : Oracle}
    (ht : s.pc t = .memory h new) (hs : Ns.tick g s t o = some s') : Linked g tag s' := by
  have hH := hI.headers
  simp only [Ns.tick, ht] at hs
  split at hs
  · split at hs <;> cases hs
    · refine hL.quiet (fun _ _ _ => rfl) fun h₁ hR => ?_
      have hR₁ : Reg s h₁ := hR.back rfl .inl (by simp [lookupStart, Pc.reg, Caller.reg])
      have hne : h₁ ≠ h := by
        rintro rfl
        exact hH.not_reg (t := t) (by rw [ht]; rfl) (by rw [ht]; rfl) hR₁
      exact ⟨hR₁, update_of_ne hne .., rfl⟩
    · exact hL.setPc rfl rfl rfl rfl rfl (by simp [Pc.reg])
  · cases hs

/-- The test of an expansion finds no entry of the slab that is to be registered. -/
theorem Linked.expTest (hL : Linked g tag s) (hI : Inv g tag s) (hD : Distinct (claim s)) {h i : ℕ}
    {new : Option ℕ} {n : Addr} {o : Oracle} (ht : s.pc t = .expTest h new i n)
    (hs : Ns.tick g s t o = some s') : Linked g tag s' := by
  have hdepth : g.depth = g.inner + 2 := g.depth_eq'
  have hH := hI.headers
  have hok := hI.ok t
  simp only [Ns.tick, ht, Option.bind_eq_bind, Option.bind_eq_some_iff] at hs
  obtain ⟨q, hq, hs⟩ := hs
  cases hs
  refine hL.setPc rfl rfl rfl rfl rfl ?_
  split
  · rename_i hne
    unfold expNext
    split
    · simp [Pc.reg]
    · -- the entry of this slab cannot be anybody's: it is not registered yet
      rw [ht] at hok
      obtain ⟨-, -, hlt, hat⟩ := hok
      obtain rfl : i = g.inner := by omega
      have hh : (s.pc t).hdr = some h := by rw [ht]; rfl
      exact absurd (hI.entry_null hD (hH.held t h hh).1
        (hH.not_reg hh (by rw [ht]; rfl)) hat hq) hne
  · simp [Pc.reg]

/-- A node is initialised before it is linked. -/
theorem Linked.expInit (hL : Linked g tag s) (hI : Inv g tag s) {h i : ℕ} {new : Option ℕ}
    {n node : Addr} {o : Oracle} (ht : s.pc t = .expInit h new i n node)
    (hs : Ns.tick g s t o = some s') : Linked g tag s' := by
  have hok := hI.ok t
  simp only [Ns.tick, ht, Option.bind_eq_bind, Option.bind_eq_some_iff] at hs
  obtain ⟨m, hm, hs⟩ := hs
  cases hs
  rw [ht] at hok
  obtain ⟨-, -, hother, -⟩ := ertInit_node hI hok.2.2.2.2 hm
  refine hL.quiet (fun b q hb => hother b ?_) fun h₁ hR => ⟨?_, rfl, rfl⟩
  · rintro rfl
    rw [((hI.ok t).node_spec (by rw [ht]; rfl)).1] at hb
    cases hb
  · exact hR.back rfl .inl (by simp [Pc.reg])

/-- A slab whose memory goes is not registered any more. -/
theorem Linked.forget (hL : Linked g tag s) (hI : Inv g tag s) {h : ℕ} {o : Oracle}
    (ht : s.pc t = .forget h) (hs : Ns.tick g s t o = some s') : Linked g tag s' := by
  have hH := hI.headers
  simp only [Ns.tick, ht] at hs
  cases hs
  refine hL.quiet (fun _ _ _ => rfl) fun h₁ hR => ?_
  have hR₁ : Reg s h₁ := hR.back rfl .inl (by simp [Pc.reg])
  have hne : h₁ ≠ h := by
    rintro rfl
    exact hH.not_reg (t := t) (by rw [ht]; rfl) (by rw [ht]; rfl) hR₁
  exact ⟨hR₁, update_of_ne hne .., rfl⟩

/-- One step of the function a thread is in. -/
theorem Linked.tick (hL : Linked g tag s) (hI : Inv g tag s) (hD : Distinct (claim s)) {o : Oracle}
    (hG : (s.pc t).StillNull g s.mem) (hs : tick g s t o = some s') :
    Linked g (tickTag g tag s t) s' := by
  have hdepth : g.depth = g.inner + 2 := g.depth_eq'
  have hok := hI.ok t
  unfold tickTag
  cases ht : s.pc t with
  | idle =>
      rw [Ns.tick, ht] at hs
      cases hs
  | pop =>
      simp only [Ns.tick, ht] at hs
      split at hs <;> cases hs <;> exact hL.setPc rfl rfl rfl rfl rfl (by simp [Pc.reg])
  | faa =>
      simp only [Ns.tick, ht] at hs
      cases hs
      refine hL.setPc rfl rfl rfl rfl rfl ?_
      split <;> simp [Pc.reg]
  | header id => exact hL.header hI ht hs
  | memory h new => exact hL.memory hI ht hs
  | test k id limit i n =>
      simp only [Ns.tick, ht, Option.bind_eq_bind, Option.bind_eq_some_iff] at hs
      obtain ⟨q, -, hs⟩ := hs
      split at hs
      · obtain ⟨p', hp', rfl⟩ := Option.map_eq_some_iff.mp hs
        exact hL.setPc rfl rfl rfl rfl rfl (by simp [reg_of_lookupNull hp'])
      · cases hs
        exact hL.setPc rfl rfl rfl rfl rfl fun _ hr => by rw [ht]; exact hr
  | hop k id limit i n =>
      simp only [Ns.tick, ht, Option.bind_eq_bind, Option.bind_eq_some_iff] at hs
      obtain ⟨n', -, hs⟩ := hs
      cases hs
      refine hL.setPc rfl rfl rfl rfl rfl ?_
      split <;> exact fun _ hr => by rw [ht]; exact hr
  | resolve k id limit n =>
      simp only [Ns.tick, ht] at hs
      split at hs
      · cases hs
      split at hs
      · obtain ⟨p', hp', rfl⟩ := Option.map_eq_some_iff.mp hs
        exact hL.setPc rfl rfl rfl rfl rfl (by simp [reg_of_lookupNull hp'])
      · exact hL.lookupFound ht hs
  | expWalk h new i n =>
      simp only [Ns.tick, ht, Option.bind_eq_bind, Option.bind_eq_some_iff] at hs
      obtain ⟨n', -, hs⟩ := hs
      cases hs
      exact hL.setPc rfl rfl rfl rfl rfl (by simp [Pc.reg])
  | expTest h new i n => exact hL.expTest hI hD ht hs
  | expAlloc h new i n =>
      simp only [Ns.tick, ht] at hs
      obtain ⟨hword, -⟩ := allocfn_frame g s.mem (memctxt s h o)
        (nodeSz g.consts (decide (g.depth ≤ i + 2))) (decide (g.depth ≤ i + 2))
      split at hs <;> rename_i heq <;> rw [heq] at hword <;> cases hs <;>
        exact hL.setPc rfl rfl hword rfl rfl (by simp [Pc.reg])
  | expInit h new i n node => exact hL.expInit hI ht hs
  | expSet h new i n node =>
      simp only [Ns.tick, ht, Option.bind_eq_bind, Option.bind_eq_some_iff] at hs
      obtain ⟨m, hm, hs⟩ := hs
      cases hs
      rw [ht] at hok hG
      have hnode := hok.2.2.2.2.1
      unfold NodeNew at hnode
      by_cases hi : i < g.inner
      · rw [if_pos hi] at hnode
        obtain ⟨b, rfl, -⟩ := hnode
        exact hL.link hI ht hi hm (hG (by omega))
      · rw [if_neg hi] at hnode
        obtain ⟨d, -, rfl⟩ := hnode
        exact hL.register hI hD ht hi hm
  | freeMem h new =>
      simp only [Ns.tick, ht, Option.bind_eq_bind, Option.bind_eq_some_iff] at hs
      obtain ⟨m, -, hs⟩ := hs
      cases hs
      exact hL.setPc rfl rfl rfl rfl rfl (by simp [Pc.reg])
  | platFree h =>
      simp only [Ns.tick, ht, Option.bind_eq_bind, Option.bind_eq_some_iff] at hs
      obtain ⟨m, -, hs⟩ := hs
      cases hs
      exact hL.setPc rfl rfl rfl rfl rfl fun _ hr => by rw [ht]; exact hr
  | check h n =>
      simp only [Ns.tick, ht, Option.bind_eq_bind, Option.bind_eq_some_iff] at hs
      obtain ⟨q, -, hs⟩ := hs
      split at hs <;> cases hs
      exact hL.setPc rfl rfl rfl rfl rfl fun _ hr => by rw [ht]; exact hr
  | clear h n =>
      simp only [Ns.tick, ht, Option.bind_eq_bind, Option.bind_eq_some_iff] at hs
      obtain ⟨m, hm, hs⟩ := hs
      cases hs
      exact hL.clear hI hD ht hm
  | freeHeader h new =>
      simp only [Ns.tick, ht] at hs
      cases hs
      refine hL.setPc rfl rfl rfl rfl rfl ?_
      cases new <;> simp [resetFrontier, Pc.reg]
  | reset id =>
      simp only [Ns.tick, ht] at hs
      cases hs
      exact hL.setPc rfl rfl rfl rfl rfl (by simp [Pc.reg])
  | forget h => exact hL.forget hI ht hs
  | push h =>
      simp only [Ns.tick, ht] at hs
      cases hs
      exact hL.setPc rfl rfl rfl rfl rfl (by simp [Pc.reg])

/-- Every step keeps what is linked, if it overwrites no linked node. -/
theorem Linked.step (hL : Linked g tag s) (hI : Inv g tag s) (hD : Distinct (claim s)) {a : Act τ}
    (hG : StillNull g s a) (hs : step g s a = some s') : Linked g (nextTag g tag s a) s' := by
  cases a with
  | nsalloc t | lkup t id =>
      simp only [Ns.step, Option.ite_none_right_eq_some, Option.some.injEq] at hs
      obtain ⟨-, rfl⟩ := hs
      exact hL.setPc rfl rfl rfl rfl rfl (by simp [lookupStart, Pc.reg, Caller.reg])
  | nsfree t h =>
      simp only [Ns.step, Option.ite_none_right_eq_some, Option.some.injEq] at hs
      obtain ⟨⟨-, hu⟩, rfl⟩ := hs
      refine hL.quiet (fun _ _ _ => rfl) fun h₁ hR => ⟨?_, rfl, rfl⟩
      refine hR.back rfl (fun hu' => ?_) fun hr => ?_
      · by_cases he : h₁ = h
        · exact .inl (he ▸ hu)
        · exact .inl (by simpa [update_of_ne he] using hu')
      · cases hr
        exact .inl hu
  | step t o => exact hL.tick hI hD hG hs

/-! ## Runs -/

/-- The guard of runs in which slabs are found. -/
def NoOverwrite (g : NsGeom) (s : St τ) (a : Act τ) : Prop := OwnIds g s a ∧ StillNull g s a

/-- What is linked in every state reached without overwriting a linked node. -/
theorem linked_of_reach (h : (lts τ g).Reach (NoOverwrite g) s) :
    Distinct (claim s) ∧ ∃ tag, Inv g tag s ∧ Linked g tag s := by
  refine ⟨distinct_of_reach (h.mono fun _ _ hG => hG.1), ?_⟩
  refine Lts.invariant_of_reach (L := lts τ g) (I := fun s => ∃ tag, Inv g tag s ∧ Linked g tag s)
    (fun s h₀ => ?_) (fun s a s' hreach hIL hG hs => ?_) h
  · obtain ⟨-, -, -, -, hu, -, -, hpc⟩ := id h₀
    refine ⟨_, inv_nsInit h₀, ⟨fun b b' p hb hb' => ?_, fun b p k hb => ?_, fun h m hR _ => ?_⟩⟩
    · rw [Option.ite_none_right_eq_some] at hb hb'
      rw [hb.1, hb'.1]
    · rw [Option.ite_none_right_eq_some, Option.some.injEq] at hb
      exact absurd hb.2 (by simp)
    · rcases hR with hR | ⟨t, ht⟩
      · rw [hu] at hR
        cases hR
      · rw [hpc] at ht
        cases ht
  · obtain ⟨tag, hI, hL⟩ := hIL
    have hD := distinct_of_reach (hreach.mono fun _ _ hG => hG.1)
    exact ⟨_, inv_step hI hs, hL.step hI hD hG.2 hs⟩

end Steps

/-! ## Lookups -/

section Lookups

variable {τ : Type} {g : NsGeom} {tag : Tag} {s : St τ}

/-- The entry of an internal node is inside of it. -/
theorem Tree.load_eq {m : Mem} {root : ℕ} (hT : Tree g tag m root) {b k : ℕ} {p : List ℕ}
    (hb : tag b = some p) (hk : k < 2 ^ g.order) :
    m.load (psWord g.arch) (.cell b (k * psWord g.arch)) = some (m.word b (k * psWord g.arch)) := by
  apply load_of_le
  rw [hT.size b p hb]
  exact entry_le hk le_rfl

namespace Linked

/-- On the way to a node there is one at every level. -/
theorem node (hL : Linked g tag s) {id i j b : ℕ} (hb : tag b = some (path g.consts id (j + i))) :
    ∃ c, tag c = some (path g.consts id j) := by
  induction i generalizing b with
  | zero => exact ⟨b, hb⟩
  | succ i ih =>
      rw [← Nat.add_assoc, path_succ] at hb
      obtain ⟨c, hc, -⟩ := hL.up b _ _ hb
      exact ih hc

/-- On the way to a node every entry leads to the node of the next level. -/
theorem entry (hL : Linked g tag s) {id i b c : ℕ} (hb : tag b = some (path g.consts id g.inner))
    (hi : i < g.inner) (hc : tag c = some (path g.consts id i)) :
    ∃ c', tag c' = some (path g.consts id (i + 1)) ∧
      s.mem.word c (hop g.consts id i * psWord g.arch) = some (.cell c' 0) := by
  obtain ⟨c', hc'⟩ := hL.node (i := g.inner - (i + 1)) (j := i + 1)
    (by rwa [Nat.add_sub_cancel' hi])
  have hc'' := hc'
  rw [path_succ] at hc'
  obtain ⟨c₁, hc₁, hw⟩ := hL.up c' _ _ hc'
  obtain rfl := hL.unique c₁ c _ hc₁ hc
  exact ⟨c', hc'', hw⟩

/-- What a lookup on the way to a node loads. -/
theorem load (hL : Linked g tag s) (hT : Tree g tag s.mem s.root) {id i b : ℕ} {n : Addr}
    (hb : tag b = some (path g.consts id g.inner)) (hi : i ≤ g.inner)
    (hn : At g tag s.root id i n) :
    ∃ c, tag c = some (path g.consts id i) ∧ s.mem.load (psWord g.arch) n = some (some (.cell c 0)) := by
  cases i with
  | zero =>
      subst hn
      exact ⟨s.root, hT.root, rfl⟩
  | succ i =>
      obtain ⟨c, hc, rfl⟩ := hn
      obtain ⟨c', hc', hw⟩ := hL.entry hb hi hc
      exact ⟨c', hc', (hT.load_eq hc (hop_lt g.consts id i)).trans (congrArg some hw)⟩

/-- What a lookup of an id of a registered slab loads from the last internal entry. -/
theorem load_slot (hL : Linked g tag s) (hT : Tree g tag s.mem s.root) {id b m : ℕ} {n : Addr}
    (hb : tag b = some (path g.consts id g.inner))
    (hw : s.mem.word b (hop g.consts id g.inner * psWord g.arch) = some (.ext m 0))
    (hn : At g tag s.root id (g.inner + 1) n) :
    s.mem.load (psWord g.arch) n = some (some (.ext m 0)) := by
  obtain ⟨c, hc, rfl⟩ := hn
  obtain rfl := hL.unique c b _ hc hb
  exact (hT.load_eq hc (hop_lt g.consts id _)).trans (congrArg some hw)

/-- A lookup of an id of a registered slab, from any level on. -/
theorem lookupLoop_eq (hL : Linked g tag s) (hT : Tree g tag s.mem s.root) {id b m k i : ℕ}
    {n : Addr} (hb : tag b = some (path g.consts id g.inner))
    (hw : s.mem.word b (hop g.consts id g.inner * psWord g.arch) = some (.ext m 0))
    (hn : At g tag s.root id i n) (hki : i + k = g.inner + 1) :
    lookupLoop g.consts s.mem id (k + 1) i n = some (some (.ext m (walkOff g.consts id 1))) := by
  have hdepth : g.consts.depth = g.inner + 2 := g.depth_eq'
  induction k generalizing i n with
  | zero =>
      obtain rfl : i = g.inner + 1 := hki
      have hload := hL.load_slot hT hb hw hn
      have hsub : g.consts.depth - (g.inner + 1) = 1 := by omega
      rw [lookupLoop_succ _ _ _ _ (by omega) g.depth_lt_u32]
      have hload' : s.mem.load (psWord g.consts.arch) n = _ := hload
      have hwalk := ertWalk_of_load hload' id 1
      simp only [hload', Option.bind_some, reduceCtorEq, if_false, hsub, hwalk, Addr.plus,
        Nat.zero_add, lookupLoop]
  | succ k ih =>
      obtain ⟨c, -, hload⟩ := hL.load hT hb (by omega) hn
      have hload' : s.mem.load (psWord g.consts.arch) n = _ := hload
      obtain ⟨n', hwalk⟩ : ∃ n', ertWalk g.consts s.mem n id (g.consts.depth - i) = some n' :=
        ⟨_, ertWalk_of_load hload' _ _⟩
      rw [lookupLoop_succ _ _ _ _ (by omega) g.depth_lt_u32]
      simp only [hload', Option.bind_some, reduceCtorEq, if_false, hwalk]
      exact ih (hT.walk hn (by omega) ⟨_, hload⟩ hwalk) (by omega)

end Linked

end Lookups

section Finds

variable {τ : Type} [DecidableEq τ] {g : NsGeom} {s : St τ}

/-- **Slabs are found**: in every state reached without overwriting a linked node, every lookup of
an id of a slab that `ps_slab_nsalloc` has returned, and that was not passed to `ps_slab_nsfree`
since, reaches its memory. -/
theorem finds_of_reach (hreach : (lts τ g).Reach (NoOverwrite g) s) {h id : ℕ}
    (hu : s.inUse h = true) (hid : s.start h ≤ id ∧ id < s.end_ h) : ∃ m, Finds g s h id m := by
  obtain ⟨-, tag, hI, hL⟩ := linked_of_reach hreach
  have hdepth : g.depth = g.inner + 2 := g.depth_eq'
  have hH := hI.headers
  have hh := hH.inUse h hu
  obtain ⟨m, hm, -⟩ := hI.blocks.inUse h hu
  rw [hH.end_ h hh] at hid
  have hdiv := (div_range_eq_iff (g := g) (hH.dvd h hh)).mpr hid
  have hhop : hop g.consts id g.inner = hop g.consts (s.start h) g.inner := by
    have hp := path_congr hdiv (g.inner + 1)
    rw [path_succ, path_succ, path_congr hdiv] at hp
    exact List.singleton_injective (List.append_cancel_left hp)
  obtain ⟨b, hb, hw⟩ := hL.slot h m (.inl hu) hm
  rw [← path_congr hdiv] at hb
  rw [← hhop] at hw
  have hlimit : ∀ {k id' limit}, CallerOk g s k id' limit → limit ≤ g.inner + 2 := by
    intro k id' limit hk
    have := hk.limit
    omega
  refine ⟨m, hm, ?_, fun t k limit i n ht => ?_, fun t k limit i n ht hi => ?_⟩
  · rw [hdepth]
    exact hL.lookupLoop_eq hI.tree hb hw rfl (Nat.zero_add _)
  · obtain ⟨hk, hlt, hat⟩ := hI.okAt ht
    have := hlimit hk
    by_cases hi : i ≤ g.inner
    · obtain ⟨c, -, hload⟩ := hL.load hI.tree hb hi hat
      simp [hload]
    · obtain rfl : i = g.inner + 1 := by omega
      simp [hL.load_slot hI.tree hb hw hat]
  · obtain ⟨-, -, hat, -⟩ := hI.okAt ht
    obtain rfl : i = g.inner + 1 := by omega
    have hload : s.mem.load (psWord g.consts.arch) n = _ := hL.load_slot hI.tree hb hw hat
    rw [ertWalk_of_load hload, Addr.plus, Nat.zero_add]

end Finds

/-! ## Runs of two calls -/

/-- A namespace of three levels: four slabs of two objects, of 32 bytes each. -/
def threeLevels : NsGeom where
  arch := .x86_64
  depth := 3
  order := 1
  lastOrder := 1
  lastSz := 32
  depth_pos := Nat.le_add_left _ _
  depth_lt := show 4 < 2 ^ 32 by decide
  order_le := twoLevels.order_le
  lastOrder_le := twoLevels.order_le
  lastSz_lt := twoLevels.lastSz_lt
  bits_lt := show 3 < 64 by decide
  two_le_depth := by decide

/-- `n` steps of a thread in which allocations succeed, that of a header with `h`. -/
def calls (t : Fin 2) (h n : ℕ) : List (Act (Fin 2)) := List.replicate n (.step t ⟨true, some h⟩)

/-- A new namespace whose trie has three levels. -/
theorem nsInit_threeLevels : nsInit (Fin 2) threeLevels (St.new (Fin 2) (trieMem threeLevels) 0) :=
  nsInit_new (m := ⟨0, fun _ => 0, fun _ _ => none⟩) (none, fun _ => true) rfl

/-- Two slabs whose ids share an internal node, one call in the middle of the other. -/
theorem finds_of_twoCalls : ∃ s : St (Fin 2), (lts (Fin 2) threeLevels).Reach
    (NoOverwrite threeLevels) s ∧ s.inUse 0 = true ∧ s.inUse 1 = true ∧
      ∃ m, Finds threeLevels s 0 1 m := by
  obtain ⟨s, hs, hp⟩ := Lts.exists_reach_of_execWhen (L := lts (Fin 2) threeLevels)
    (G := fun s a => NoWrap threeLevels s a ∧ StillNull threeLevels s a) nsInit_threeLevels
    ([.nsalloc 0] ++ calls 0 0 9 ++ [.nsalloc 1] ++ calls 1 1 6 ++ calls 0 0 15 ++ calls 1 1 17)
    (p := fun s => decide (s.inUse 0 = true ∧ s.inUse 1 = true ∧ s.start 0 ≤ 1 ∧ 1 < s.end_ 0))
    (by decide +kernel)
  obtain ⟨h₀, h₁, hid⟩ := of_decide_eq_true hp
  have hs' : (lts (Fin 2) threeLevels).Reach (NoOverwrite threeLevels) s :=
    hs.mono_of_reach fun s a hr hg => ⟨ownIds_of_noWrap (hr.mono fun _ _ h => h.1) a, hg.2⟩
  exact ⟨s, hs', h₀, h₁, finds_of_reach hs' h₀ hid⟩

/-- Both calls test the root's entry before either stores it: the first returns its slab, and the
second then overwrites the node that leads to it. -/
theorem exists_lost_slab : ∃ s : St (Fin 2), (lts (Fin 2) threeLevels).Reach
    (OwnIds threeLevels) s ∧ s.inUse 0 = true ∧ s.start 0 < s.end_ 0 ∧
      lookupLoop threeLevels.consts s.mem (s.start 0) threeLevels.depth 0 (.vect s.root) =
        some none := by
  obtain ⟨s, hs, hp⟩ := Lts.exists_reach_of_execWhen (L := lts (Fin 2) threeLevels)
    (G := NoWrap threeLevels) nsInit_threeLevels
    ([.nsalloc 0] ++ calls 0 0 9 ++ [.nsalloc 1] ++ calls 1 1 9 ++ calls 0 0 15 ++ calls 1 1 3)
    (p := fun s => decide (s.inUse 0 = true ∧ s.start 0 < s.end_ 0 ∧
      lookupLoop threeLevels.consts s.mem (s.start 0) threeLevels.depth 0 (.vect s.root) =
        some none)) (by decide +kernel)
  exact ⟨s, hs.mono_of_reach fun s a hr _ => ownIds_of_noWrap hr a, of_decide_eq_true hp⟩

end Parsec.Ns
