import Parsec.Ns.Step

/-!
# Runs of slab registration

The steps that change the trie, then every step (`inv_step`), and from it the invariant of every
state that is reached (`exists_inv`). The labels of trie nodes are found along the way: a node is
labelled when it is linked.
-/

namespace Parsec.Ns

open Function Ertrie Lib

/-! ## Steps that change the trie -/

section TreeSteps

variable {τ : Type} [DecidableEq τ] {g : NsGeom} {tag : Tag} {s : St τ} {t : τ}

omit [DecidableEq τ] in
/-- A node that a thread has not linked is not labelled. -/
theorem PcOk.node_spec {p : Pc} (h : PcOk g tag s p) {b : ℕ} (hb : p.node = some b) :
    tag b = none ∧ b < s.mem.brk ∧ s.mem.size b = internBytes g := by
  have key : ∀ {h i node}, NodeNew g tag s h i node → (∃ off, node = .cell b off) →
      tag b = none ∧ b < s.mem.brk ∧ s.mem.size b = internBytes g := by
    rintro h i node hn ⟨off, rfl⟩
    unfold NodeNew at hn
    split at hn
    · obtain ⟨b', he, hspec⟩ := hn
      cases he
      exact hspec
    · obtain ⟨m, -, he⟩ := hn
      cases he
  cases p with
  | expInit h new i n node =>
      cases node with
      | cell b' off =>
          cases hb
          exact key h.2.2.2.2 ⟨off, rfl⟩
      | vect _ | ext _ _ | null _ => cases hb
  | expSet h new i n node =>
      cases node with
      | cell b' off =>
          cases hb
          exact key h.2.2.2.2.1 ⟨off, rfl⟩
      | vect _ | ext _ _ | null _ => cases hb
  | _ => cases hb

/-- What an internal node needs. -/
theorem nodeBytes_internal (g : NsGeom) : nodeBytes g.toGeom.consts false = internBytes g := by
  rw [nodeBytes, nodeBase_internal]
  rfl

/-- Internal nodes are in reach of `__ert_init`. -/
theorem nodeOk_internal (hfit : internBytes g < 2 ^ 31) : NodeOk g.toGeom false :=
  ⟨(nodeBytes_internal g).symm ▸ hfit, le_rfl⟩

/-- The size of an internal node, as asked for. -/
theorem nodeSz_internal (hfit : internBytes g < 2 ^ 31) :
    (nodeSz g.consts false).toNat = internBytes g := by
  show (nodeSz g.toGeom.consts false).toNat = _
  rw [(nodeOk_internal hfit).nodeSz_eq, nodeBytes_internal, Int.toNat_natCast]

/-- An internal node is allocated. -/
theorem inv_expAlloc (hI : Inv g tag s) {h i : ℕ} {new : Option ℕ} {n : Addr}
    (ht : s.pc t = .expAlloc h new i n) (hi : i < g.inner) :
    Inv g tag ({ s with mem := { s.mem with
        brk := s.mem.brk + 1
        size := update s.mem.size s.mem.brk (nodeSz g.consts false).toNat } }.setPc t
      (.expInit h new i n (.cell s.mem.brk 0))) := by
  have hH := hI.headers
  have hT := hI.tree
  have hh : (s.pc t).hdr = some h := by rw [ht]; rfl
  obtain ⟨hmem, hnew, hlt, hat⟩ := hI.okAt ht
  refine hI.assemble rfl ⟨hT.fit, hT.root, fun b q hb => ?_, fun b q hb => ?_, hT.length,
      hT.child⟩ (hI.slots.of_reg (fun _ _ _ => rfl) fun h' m hR hm =>
      ⟨hR.move rfl .inl (by simp [ht, Pc.reg]), hm, rfl⟩)
    (hH.keep rfl rfl rfl rfl rfl rfl hH.frontier fun h' hh' => by cases hh'; exact hh)
    ⟨hI.blocks.lt, hI.blocks.inj, hI.blocks.inUse⟩ (fun b t' _ hb hb' => ?_) (fun t' _ => ?_)
    ⟨hmem, hnew, hlt, hat, ?_⟩
  · exact Nat.lt_succ_of_lt (hT.lt b q hb)
  · exact (update_of_ne (hT.lt b q hb).ne ..).trans (hT.size b q hb)
  · cases hb
    exact ((hI.ok t').node_spec hb').2.1.false
  · refine (hI.ok t').mono rfl (fun _ _ h => h)
      (fun _ _ _ hat hi hf => hf.mono (fun b q hb => update_of_ne (hT.lt b q hb).ne ..)
        (fun _ _ _ _ _ h => h) hat hi)
      (fun _ _ => ⟨rfl, rfl, fun _ _ h => h⟩)
      (fun b _ htag hblt => ⟨htag, Nat.lt_succ_of_lt hblt, update_of_ne hblt.ne .., rfl⟩)
      fun _ _ _ _ _ _ _ _ hS => ⟨hS.tag, hS.length, hS.lt, hS.word⟩
  · unfold NodeNew
    rw [if_pos hi]
    refine ⟨s.mem.brk, rfl, ?_, Nat.lt_succ_self _, ?_⟩
    · cases hb : tag s.mem.brk with
      | none => rfl
      | some q => exact absurd (hT.lt _ q hb) (lt_irrefl _)
    · rw [← nodeSz_internal hT.fit]
      exact update_self ..

/-- An internal node is initialised. -/
theorem inv_expInit (hI : Inv g tag s) {h i b : ℕ} {new : Option ℕ} {n : Addr} {m : Mem}
    (ht : s.pc t = .expInit h new i n (.cell b 0)) (hi : i < g.inner)
    (hbrk : m.brk = s.mem.brk) (hsize : m.size = s.mem.size)
    (hother : ∀ b' ≠ b, m.word b' = s.mem.word b')
    (hnull : ∀ k < 2 ^ g.order, m.word b (k * psWord g.arch) = none) :
    Inv g tag ({ s with mem := m }.setPc t (.expSet h new i n (.cell b 0))) := by
  have hH := hI.headers
  have hT := hI.tree
  have hh : (s.pc t).hdr = some h := by rw [ht]; rfl
  have hbt := (hI.ok t).node_spec (b := b) (by rw [ht]; rfl)
  obtain ⟨hmem, hnew, hlt, hat, hnn⟩ := hI.okAt ht
  have hword : ∀ b' q, tag b' = some q → m.word b' = s.mem.word b' := by
    intro b' q hb'
    refine hother b' ?_
    rintro rfl
    rw [hbt.1] at hb'
    cases hb'
  refine hI.assemble rfl ⟨hT.fit, hT.root, fun b' q hb' => hbrk ▸ hT.lt b' q hb',
      fun b' q hb' => hsize ▸ hT.size b' q hb', hT.length, fun b' q k a hb' hl hk hw =>
        hT.child b' q k a hb' hl hk (hword b' q hb' ▸ hw)⟩
    (hI.slots.of_reg hword fun h' m' hR hm =>
      ⟨hR.move rfl .inl (by simp [ht, Pc.reg]), hm, rfl⟩)
    (hH.keep rfl rfl rfl rfl rfl rfl hH.frontier fun h' hh' => by cases hh'; exact hh)
    ⟨hI.blocks.lt, hI.blocks.inj, hI.blocks.inUse⟩ (fun b' t' ht' hb' hb'' => ?_)
    (fun t' ht' => ?_) ⟨hmem, hnew, hlt, hat, ?_, fun b' k hb' hk => ?_⟩
  · cases hb'
    exact ht' (hI.nodes t' t b hb'' (by rw [ht]; rfl))
  · refine (hI.ok t').mono rfl (fun _ _ h => h)
      (fun _ _ _ hat hi hf => hf.mono (fun b' _ _ => congrFun hsize b')
        (fun b' q _ hb' _ hne => by rwa [hword b' q hb']) hat hi)
      (fun _ _ => ⟨rfl, rfl, fun _ _ h => h⟩)
      (fun b' hb' htag hblt => ⟨htag, hbrk ▸ hblt, by rw [hsize], hother b' ?_⟩)
      fun _ _ b' q _ _ _ _ hS => ⟨hS.tag, hS.length, hS.lt, hword b' q hS.tag ▸ hS.word⟩
    rintro rfl
    exact ht' (hI.nodes t' t b' hb' (by rw [ht]; rfl))
  · unfold NodeNew
    rw [if_pos hi]
    exact ⟨b, rfl, hbt.1, hbrk ▸ hbt.2.1, hsize ▸ hbt.2.2⟩
  · cases hb'
    exact hnull k hk

omit [DecidableEq τ] in
/-- Where a thread is after a round of the expansion. -/
theorem expNext_spec (h i : ℕ) (new : Option ℕ) (n : Addr) :
    (expNext g s h new i n).hdr = some h ∧ (expNext g s h new i n).node = none := by
  unfold expNext
  split <;> exact ⟨rfl, rfl⟩

omit [DecidableEq τ] in
/-- What a thread knows after a round of the expansion. -/
theorem PcOk.expNext {h i : ℕ} {new : Option ℕ} {n : Addr} (hmem : HasMem s h) (hnew : NewOk s h new)
    (hi : i < g.inner + 1) (hat : At g tag s.root (s.start h) (i + 1) n) (hf : Filled g s.mem n) :
    PcOk g tag s (expNext g s h new i n) := by
  have hdepth : g.depth = g.inner + 2 := g.depth_eq'
  unfold Ns.expNext
  split
  · exact ⟨hmem, hnew, by omega, hat, hf⟩
  · exact ⟨⟨rfl, rfl, hmem, hnew⟩, by omega, rfl⟩

/-- An internal node is linked: it gets the label of its place. -/
theorem inv_link (hI : Inv g tag s) {h i b : ℕ} {new : Option ℕ} {n : Addr} {m : Mem}
    (ht : s.pc t = .expSet h new i n (.cell b 0)) (hi : i < g.inner)
    (hm : s.mem.store (psWord g.arch) n (some (.cell b 0)) = some m) :
    Inv g (update tag b (some (path g.consts (s.start h) (i + 1))))
      ({ s with mem := m }.setPc t (expNext g s h new i n)) := by
  have hH := hI.headers
  have hT := hI.tree
  have hh : (s.pc t).hdr = some h := by rw [ht]; rfl
  obtain ⟨hbtag, hblt, hbsize⟩ := (hI.ok t).node_spec (b := b) (by rw [ht]; rfl)
  obtain ⟨hmem, hnew, hlt, hat, -, hnull⟩ := hI.okAt ht
  obtain ⟨c, hc, rfl⟩ := hat
  obtain ⟨hle, rfl⟩ : _ ∧ s.mem.set c _ (some (.cell b 0)) = m := by
    simpa only [Mem.store, Option.ite_none_right_eq_some, Option.some.injEq] using hm
  have hlen : (path g.consts (s.start h) i).length = i := length_path ..
  have hbc : b ≠ c := by
    rintro rfl
    rw [hc] at hbtag
    cases hbtag
  have hold : ∀ b' q, tag b' = some q →
      update tag b (some (path g.consts (s.start h) (i + 1))) b' = some q := by
    intro b' q hb'
    rw [update_of_ne (by rintro rfl; rw [hb'] at hbtag; cases hbtag)]
    exact hb'
  have hnew' : ∀ b' q, update tag b (some (path g.consts (s.start h) (i + 1))) b' = some q →
      (b' = b ∧ path g.consts (s.start h) (i + 1) = q) ∨ (b' ≠ b ∧ tag b' = some q) := by
    intro b' q hb'
    by_cases he : b' = b
    · rw [he, update_self, Option.some.injEq] at hb'
      exact .inl ⟨he, hb'⟩
    · rw [update_of_ne he] at hb'
      exact .inr ⟨he, hb'⟩
  have hwb : ∀ k < 2 ^ g.order, (s.mem.set c (hop g.consts (s.start h) i * psWord g.arch)
      (some (.cell b 0))).word b (k * psWord g.arch) = none := by
    intro k hk
    rw [Mem.set_word_of_ne hbc]
    exact hnull b k rfl hk
  have hback : ∀ b' q k a, update tag b (some (path g.consts (s.start h) (i + 1))) b' = some q →
      q.length = g.inner → k < 2 ^ g.order → (s.mem.set c
        (hop g.consts (s.start h) i * psWord g.arch) (some (.cell b 0))).word b'
          (k * psWord g.arch) = some a →
      tag b' = some q ∧ s.mem.word b' (k * psWord g.arch) = some a := by
    intro b' q k a hb' hl hk hw
    rcases hnew' b' q hb' with ⟨rfl, -⟩ | ⟨hne, hb'⟩
    · rw [hwb k hk] at hw
      cases hw
    · have hb'c : b' ≠ c := by
        rintro rfl
        rw [hc, Option.some.injEq] at hb'
        rw [← hb', hlen] at hl
        omega
      rw [Mem.set_word_of_ne hb'c] at hw
      exact ⟨hb', hw⟩
  obtain ⟨hnhdr, hnnode⟩ := expNext_spec (g := g) (s := s) h i new
    (.cell c (hop g.consts (s.start h) i * psWord g.arch))
  refine hI.assemble rfl ⟨hT.fit, hold _ _ hT.root, fun b' q hb' => ?_, fun b' q hb' => ?_,
      fun b' q hb' => ?_, fun b' q k a hb' hl hk hw => ?_⟩
    (hI.slots.of_back hback fun b' q k m h' _ hR hm' => ⟨hR.move rfl .inl (by simp [ht, Pc.reg]), hm', rfl⟩)
    (hH.keep rfl rfl rfl rfl rfl rfl hH.frontier fun h' hh' => by
      rw [hnhdr] at hh'; cases hh'; exact hh)
    ⟨hI.blocks.lt, hI.blocks.inj, hI.blocks.inUse⟩ (by simp [hnnode]) (fun t' ht' => ?_)
    (PcOk.expNext hmem hnew hlt ⟨c, hold _ _ hc, rfl⟩ (filled_set hle))
  · rcases hnew' b' q hb' with ⟨rfl, -⟩ | ⟨-, hb'⟩
    · exact hblt
    · exact hT.lt b' q hb'
  · rcases hnew' b' q hb' with ⟨rfl, -⟩ | ⟨-, hb'⟩
    · exact hbsize
    · exact hT.size b' q hb'
  · rcases hnew' b' q hb' with ⟨rfl, rfl⟩ | ⟨-, hb'⟩
    · rw [length_path]
      exact hi
    · exact hT.length b' q hb'
  · rcases hnew' b' q hb' with ⟨rfl, -⟩ | ⟨hne, hb'⟩
    · rw [hwb k hk] at hw
      cases hw
    · rw [Mem.set_entry (psWord_pos g.arch)] at hw
      split at hw
      · rename_i hslot
        obtain ⟨rfl, rfl⟩ := hslot
        rw [Option.some.injEq] at hw
        rw [hc, Option.some.injEq] at hb'
        subst hb' hw
        exact ⟨b, rfl, by rw [update_self, path_succ]⟩
      · obtain ⟨b'', rfl, hb''⟩ := hT.child b' q k a hb' hl hk hw
        exact ⟨b'', rfl, hold _ _ hb''⟩
  · refine (hI.ok t').mono rfl hold (fun _ _ _ _ _ hf => hf.set)
      (fun _ _ => ⟨rfl, rfl, fun _ _ h => h⟩)
      (fun b' hb' htag hlt' => ?_) fun h' _ b' q k m' _ _ hS => ?_
    · have hne : b' ≠ b := by
        rintro rfl
        exact ht' (hI.nodes t' t b' hb' (by rw [ht]; rfl))
      have hne' : b' ≠ c := by
        rintro rfl
        rw [hc] at htag
        cases htag
      exact ⟨(update_of_ne hne ..).trans htag, hlt', rfl, Mem.set_word_of_ne hne'⟩
    · obtain ⟨htag, hword⟩ := hback b' q k _ hS.tag hS.length hS.lt hS.word
      exact ⟨htag, hS.length, hS.lt, hword⟩

/-- A slab's memory is linked: the slab is registered. -/
theorem inv_register (hI : Inv g tag s) {h i d : ℕ} {new : Option ℕ} {n : Addr} {m : Mem}
    (ht : s.pc t = .expSet h new i n (.ext d 0)) (hi : ¬ i < g.inner)
    (hm : s.mem.store (psWord g.arch) n (some (.ext d 0)) = some m) :
    Inv g tag ({ s with mem := m }.setPc t (expNext g s h new i n)) := by
  have hH := hI.headers
  have hT := hI.tree
  have hdepth : g.depth = g.inner + 2 := g.depth_eq'
  have hh : (s.pc t).hdr = some h := by rw [ht]; rfl
  obtain ⟨hmem, hnew, hlt, hat, hnn, -⟩ := hI.okAt ht
  obtain rfl : i = g.inner := by omega
  obtain ⟨c, hc, rfl⟩ := hat
  have hd : s.memory h = some d := by
    unfold NodeNew at hnn
    rw [if_neg hi] at hnn
    obtain ⟨d', hd', he⟩ := hnn
    cases he
    exact hd'
  obtain ⟨hle, rfl⟩ : _ ∧ s.mem.set c _ (some (.ext d 0)) = m := by
    simpa only [Mem.store, Option.ite_none_right_eq_some, Option.some.injEq] using hm
  have hlen : (path g.consts (s.start h) g.inner).length = g.inner := length_path ..
  have hnext : ∀ n, expNext g s h new g.inner n =
      lookupStart s (.present h new) (s.start h) g.depth := by
    intro n
    exact if_neg (by omega)
  have hreg : ∀ h', Reg s h' → h' ≠ h := by
    rintro h' hR rfl
    exact hH.not_reg hh (by rw [ht]; rfl) hR
  -- an entry holds the new leaf, or what it held before
  have hword : ∀ b k a, (s.mem.set c (hop g.consts (s.start h) g.inner * psWord g.arch)
      (some (.ext d 0))).word b (k * psWord g.arch) = some a →
      (b = c ∧ k = hop g.consts (s.start h) g.inner ∧ a = .ext d 0) ∨
        s.mem.word b (k * psWord g.arch) = some a := by
    intro b k a hw
    rw [Mem.set_entry (psWord_pos g.arch)] at hw
    split at hw
    · rename_i hbk
      exact .inl ⟨hbk.1, hbk.2, (Option.some.inj hw).symm⟩
    · exact .inr hw
  have hnd : ∀ b q k, ¬ Slot g tag s b q k d := by
    intro b q k hS
    obtain ⟨h', hR, hm', -⟩ := hI.slots.reg b q k d hS
    exact hreg h' hR (hI.blocks.inj h' h d hm' hd)
  rw [hnext]
  refine hI.assemble rfl ⟨hT.fit, hT.root, hT.lt, hT.size, hT.length, fun b q k a hb hl hk hw => ?_⟩
    ⟨fun b q k a hb hl hk hw => ?_, fun b q k m' hS => ?_, fun b q k b' q' k' m' hS hS' => ?_⟩
    (hH.keep rfl rfl rfl rfl rfl rfl hH.frontier fun h' hh' => by cases hh'; exact hh)
    ⟨hI.blocks.lt, hI.blocks.inj, hI.blocks.inUse⟩ (by simp [Pc.node, lookupStart])
    (fun t' ht' => ?_) ⟨⟨rfl, rfl, hmem, hnew⟩, by omega, rfl⟩
  · rcases hword b k a hw with ⟨rfl, -, -⟩ | hw
    · rw [hc, Option.some.injEq] at hb
      rw [← hb, hlen] at hl
      omega
    · exact hT.child b q k a hb hl hk hw
  · rcases hword b k a hw with ⟨-, -, rfl⟩ | hw
    · exact ⟨d, rfl⟩
    · exact hI.slots.ext b q k a hb hl hk hw
  · rcases hword b k _ hS.word with ⟨rfl, rfl, he⟩ | hw
    · cases he
      refine ⟨h, .inr ⟨t, by rw [setPc_pc_self]; rfl⟩, hd, ?_⟩
      have htag := hS.tag
      rw [hc, Option.some.injEq] at htag
      rw [← htag]
      exact path_succ ..
    · obtain ⟨h', hR, hm', hp⟩ := hI.slots.reg b q k m' ⟨hS.tag, hS.length, hS.lt, hw⟩
      exact ⟨h', hR.move rfl .inl (by simp [ht, Pc.reg]), hm', hp⟩
  · rcases hword b k _ hS.word with ⟨rfl, rfl, he⟩ | hw <;>
      rcases hword b' k' _ hS'.word with ⟨rfl, rfl, he'⟩ | hw'
    · exact ⟨rfl, rfl⟩
    · cases he
      exact absurd ⟨hS'.tag, hS'.length, hS'.lt, hw'⟩ (hnd _ _ _)
    · cases he'
      exact absurd ⟨hS.tag, hS.length, hS.lt, hw⟩ (hnd _ _ _)
    · exact hI.slots.inj b q k b' q' k' m' ⟨hS.tag, hS.length, hS.lt, hw⟩
        ⟨hS'.tag, hS'.length, hS'.lt, hw'⟩
  · refine (hI.ok t').mono rfl (fun _ _ h => h) (fun _ _ _ _ _ hf => hf.set)
      (fun _ _ => ⟨rfl, rfl, fun _ _ h => h⟩)
      (fun b' _ htag hlt' => ⟨htag, hlt', rfl, Mem.set_word_of_ne ?_⟩)
      fun h' n' b' q k m' hpc hm' hS => ?_
    · rintro rfl
      rw [hc] at htag
      cases htag
    · rcases hword b' k _ hS.word with ⟨-, -, he⟩ | hw
      · cases he
        have he := hI.blocks.inj h' h _ hm' hd
        subst he
        exact absurd (hH.inj t' t h' (by rw [hpc]; rfl) hh) ht'
      · exact ⟨hS.tag, hS.length, hS.lt, hw⟩

/-- `ps_slab_nsfree` clears its slab's entry: the slab is not registered any more. -/
theorem inv_clear (hI : Inv g tag s) {h : ℕ} {n : Addr} {m : Mem} (ht : s.pc t = .clear h n)
    (hm : s.mem.store (psWord g.arch) n none = some m) :
    Inv g tag ({ s with mem := m }.setPc t (lookupStart s (.gone h) (s.start h) g.depth)) := by
  have hH := hI.headers
  have hT := hI.tree
  have hdepth : g.depth = g.inner + 2 := g.depth_eq'
  have hh : (s.pc t).hdr = some h := by rw [ht]; rfl
  obtain ⟨hat, honly⟩ := hI.okAt ht
  obtain ⟨c, hc, rfl⟩ := hat
  obtain ⟨hle, rfl⟩ : _ ∧ s.mem.set c _ none = m := by
    simpa only [Mem.store, Option.ite_none_right_eq_some, Option.some.injEq] using hm
  have hlen : (path g.consts (s.start h) g.inner).length = g.inner := length_path ..
  have hback : ∀ b q k a, tag b = some q → q.length = g.inner → k < 2 ^ g.order →
      (s.mem.set c (hop g.consts (s.start h) g.inner * psWord g.arch) none).word b
        (k * psWord g.arch) = some a →
      tag b = some q ∧ s.mem.word b (k * psWord g.arch) = some a := by
    intro b q k a hb _ _ hw
    rw [Mem.set_entry (psWord_pos g.arch)] at hw
    split at hw
    · cases hw
    · exact ⟨hb, hw⟩
  -- the entry that is cleared is in a last internal node
  have hinner : ∀ b q, tag b = some q → q.length < g.inner → b ≠ c := by
    rintro b q hb hl rfl
    rw [hc, Option.some.injEq] at hb
    rw [← hb, hlen] at hl
    omega
  have hkept : ∀ b q off, tag b = some q → q.length < g.inner → s.mem.word b off ≠ none →
      (s.mem.set c (hop g.consts (s.start h) g.inner * psWord g.arch) none).word b off ≠ none := by
    intro b q off hb hl hne
    rwa [Mem.set_word_of_ne (hinner b q hb hl)]
  refine hI.assemble rfl ⟨hT.fit, hT.root, hT.lt, hT.size, hT.length, fun b q k a hb hl hk hw => ?_⟩
    (hI.slots.of_back hback fun b q k m' h' hS hR hm' => ⟨?_, hm', rfl⟩)
    (hH.keep rfl rfl rfl rfl rfl rfl hH.frontier fun h' hh' => by cases hh'; exact hh)
    ⟨hI.blocks.lt, hI.blocks.inj, hI.blocks.inUse⟩ (by simp [Pc.node, lookupStart])
    (fun t' ht' => ?_) ⟨⟨rfl, rfl⟩, by omega, rfl⟩
  · rw [Mem.set_word_of_ne (hinner b q hb hl)] at hw
    exact hT.child b q k a hb hl hk hw
  · refine hR.move rfl .inl fun hr => ?_
    rw [ht] at hr
    cases hr
    -- the only entry that led to the memory of this slab is the one that is cleared
    obtain ⟨htag, hword⟩ := hback b q k _ hS.tag hS.length hS.lt hS.word
    have he := honly b q k m' hm' ⟨htag, hS.length, hS.lt, hword⟩
    rw [Addr.cell.injEq] at he
    obtain ⟨rfl, hk⟩ := he
    have hw := hS.word
    rw [← hk] at hw
    have hw' : (s.mem.set c (hop g.consts (s.start h) g.inner * psWord g.arch) none).word c
      (hop g.consts (s.start h) g.inner * psWord g.arch) = some (.ext m' 0) := hw
    rw [Mem.set_word_self] at hw'
    cases hw'
  · refine (hI.ok t').mono rfl (fun _ _ h => h)
      (fun _ _ _ hat hi hf => Filled.mono (m := s.mem) (fun _ _ _ => rfl) hkept hat hi hf)
      (fun _ _ => ⟨rfl, rfl, fun _ _ h => h⟩)
      (fun b' _ htag hlt' => ⟨htag, hlt', rfl, Mem.set_word_of_ne ?_⟩)
      fun h' n' b' q k m' hpc hm' hS => ?_
    · rintro rfl
      rw [hc] at htag
      cases htag
    · obtain ⟨htag, hword⟩ := hback b' q k _ hS.tag hS.length hS.lt hS.word
      exact ⟨htag, hS.length, hS.lt, hword⟩

/-- The frontier moves, forwards or back. -/
theorem inv_frontier (hI : Inv g tag s) {f : ℕ} {p : Pc} (hf : g.range ∣ f) (hp : p.hdr = none)
    (hr : (s.pc t).reg = none) (hn : p.node = none) (hok : PcOk g tag s p) :
    Inv g tag ({ s with frontier := f }.setPc t p) := by
  refine hI.assemble rfl hI.tree (hI.slots.of_reg (fun _ _ _ => rfl) fun h m hR hm => ⟨?_, hm, rfl⟩)
    (hI.headers.keep rfl rfl rfl rfl rfl rfl hf (by simp [hp]))
    ⟨hI.blocks.lt, hI.blocks.inj, hI.blocks.inUse⟩ (by simp [hn]) (fun t' _ => ?_) ?_
  · exact hR.move rfl .inl (by simp [hr])
  · exact (hI.ok t').of_hdr rfl rfl fun h _ => ⟨rfl, rfl, fun _ _ h => h⟩
  · exact hok.of_hdr rfl rfl fun h _ => ⟨rfl, rfl, fun _ _ h => h⟩

end TreeSteps

/-! ## Steps of lookups -/

section LookupSteps

variable {τ : Type} [DecidableEq τ] {g : NsGeom} {tag : Tag} {s : St τ} {t : τ}

omit [DecidableEq τ] in
/-- How far callers look. -/
theorem CallerOk.limit {k : Caller} {id limit : ℕ} (h : CallerOk g s k id limit) :
    limit = g.depth ∨ limit = g.depth - 1 := by
  cases k with
  | unlink _ => exact .inr h.1
  | user | absent _ _ | present _ _ | gone _ => exact .inl h.1

/-- A lookup returns NULL. -/
theorem inv_lookupNull (hI : Inv g tag s) {k : Caller} {id limit : ℕ} {p : Pc}
    (hk : CallerOk g s k id limit) (hh : (s.pc t).hdr = k.hdr) (hr : (s.pc t).reg = k.reg)
    (h : lookupNull s k = some p) : Inv g tag (s.setPc t p) := by
  cases k with
  | user =>
      cases h
      exact hI.setPc (by simp [Pc.hdr]) (by simp [hr, Caller.reg]) (by simp [Pc.node]) trivial
  | absent h' new =>
      cases h
      refine hI.setPc (fun _ he => hh.trans he) (by simp [hr, Caller.reg]) (by simp [Pc.node]) ?_
      exact ⟨hk.2.2.1, hk.2.2.2, Nat.succ_pos _, rfl, _, rfl⟩
  | gone h' =>
      cases h
      exact hI.setPc (fun _ he => hh.trans he) (by simp [hr, Caller.reg]) (by simp [Pc.node]) trivial
  | present _ _ | unlink _ => cases h

/-- The test of a level. -/
theorem inv_test (hI : Inv g tag s) {o : Oracle} {s' : St τ} {k : Caller} {id limit i : ℕ} {n : Addr}
    (ht : s.pc t = .test k id limit i n) (h : tick g s t o = some s') : Inv g tag s' := by
  obtain ⟨hk, hlt, hat⟩ := hI.okAt ht
  simp only [tick, ht, Option.bind_eq_bind, Option.bind_eq_some_iff] at h
  obtain ⟨p, hp, h⟩ := h
  split at h
  · obtain ⟨p', hp', rfl⟩ := Option.map_eq_some_iff.mp h
    exact inv_lookupNull hI hk (by rw [ht]; rfl) (by rw [ht]; rfl) hp'
  · rename_i hne
    cases h
    obtain ⟨a, rfl⟩ := Option.ne_none_iff_exists'.mp hne
    exact hI.setPc (by simp [ht, Pc.hdr]) (by simp [ht, Pc.reg]) (by simp [Pc.node])
      ⟨hk, hlt, hat, fun _ => ⟨a, hp⟩⟩

/-- The hop to the next level. -/
theorem inv_hop (hI : Inv g tag s) {o : Oracle} {s' : St τ} {k : Caller} {id limit i : ℕ} {n : Addr}
    (ht : s.pc t = .hop k id limit i n) (h : tick g s t o = some s') : Inv g tag s' := by
  have hdepth : g.depth = g.inner + 2 := g.depth_eq'
  obtain ⟨hk, hlt, hat, hf⟩ := hI.okAt ht
  simp only [tick, ht, Option.bind_eq_bind, Option.bind_eq_some_iff] at h
  obtain ⟨n', hw, h⟩ := h
  cases h
  refine hI.setPc ?_ ?_ ?_ ?_
  · split <;> simp [ht, Pc.hdr]
  · split <;> simp [ht, Pc.reg]
  · split <;> simp [Pc.node]
  · have hlim := hk.limit
    split
    · exact ⟨hk, ‹_›, hI.tree.walk hat (by omega) (hf (by omega)) hw⟩
    · refine ⟨hk, fun hl => ?_, fun hl => ?_⟩
      · obtain rfl : i = g.inner + 1 := by omega
        exact hI.slots.walk_cases hat hw
      · obtain rfl : i = g.inner := by omega
        exact hI.tree.walk hat le_rfl (hf le_rfl) hw

/-- The end of a lookup. -/
theorem inv_resolve (hI : Inv g tag s) {o : Oracle} {s' : St τ} {k : Caller} {id limit : ℕ}
    {n : Addr} (ht : s.pc t = .resolve k id limit n) (h : tick g s t o = some s') :
    Inv g tag s' := by
  obtain ⟨hk, -, hat⟩ := hI.okAt ht
  simp only [tick, ht] at h
  split at h
  · cases h
  split at h
  · obtain ⟨p', hp', rfl⟩ := Option.map_eq_some_iff.mp h
    exact inv_lookupNull hI hk (by rw [ht]; rfl) (by rw [ht]; rfl) hp'
  · cases k with
    | user =>
        cases h
        exact hI.setPc (by simp [Pc.hdr]) (by simp [ht, Pc.reg, Caller.reg]) (by simp [Pc.node]) trivial
    | present h' new =>
        simp only [lookupFound, Option.ite_none_right_eq_some, Option.some.injEq] at h
        obtain ⟨-, rfl⟩ := h
        exact inv_return hI ht
    | unlink h' =>
        cases h
        obtain ⟨hlim, rfl, hm⟩ := hk
        exact hI.setPc (by simp [ht, Pc.hdr, Caller.hdr]) (by simp [ht, Pc.reg, Caller.reg])
          (by simp [Pc.node]) ⟨hm, hat hlim⟩
    | absent _ _ | gone _ => cases h

/-- The assertion of `ps_slab_nsfree` that the entry holds the slab's memory: no other entry does. -/
theorem inv_check (hI : Inv g tag s) {o : Oracle} {s' : St τ} {h : ℕ} {n : Addr}
    (ht : s.pc t = .check h n) (hs : tick g s t o = some s') : Inv g tag s' := by
  obtain ⟨hm, hat⟩ := hI.okAt ht
  simp only [tick, ht, Option.bind_eq_bind, Option.bind_eq_some_iff] at hs
  obtain ⟨p, hp, hs⟩ := hs
  split at hs
  · rename_i he
    cases hs
    refine hI.setPc (by simp [ht, Pc.hdr]) (by simp [ht, Pc.reg]) (by simp [Pc.node]) ⟨hat, ?_⟩
    intro b q k m hmem hS
    obtain ⟨c, hc, rfl⟩ := hat
    have hw : s.mem.word c _ = some (.ext m 0) := (load_cell hp).trans (by rw [he, hmem]; rfl)
    obtain ⟨rfl, rfl⟩ := hI.slots.inj b q k c _ _ m hS
      ⟨hc, length_path .., hop_lt g.consts .., hw⟩
    rfl
  · cases hs

end LookupSteps

/-! ## Every step -/

section Steps

variable {τ : Type} [DecidableEq τ] {g : NsGeom} {tag : Tag} {s s' : St τ}

/-- The labels after a step of a thread: the node that it links gets the label of its place. -/
def tickTag (g : NsGeom) (tag : Tag) (s : St τ) (t : τ) : Tag :=
  match s.pc t with
  | .expSet h _ i _ (.cell b _) => update tag b (some (path g.consts (s.start h) (i + 1)))
  | _ => tag

/-- The labels after a step. -/
def nextTag (g : NsGeom) (tag : Tag) (s : St τ) : Act τ → Tag
  | .step t _ => tickTag g tag s t
  | _ => tag

/-- The allocation of a node. -/
theorem inv_tick_expAlloc (hI : Inv g tag s) {t : τ} {o : Oracle} {h i : ℕ} {new : Option ℕ}
    {n : Addr} (ht : s.pc t = .expAlloc h new i n) (hs : tick g s t o = some s') :
    Inv g tag s' := by
  have hdepth : g.depth = g.inner + 2 := g.depth_eq'
  obtain ⟨hmem, hnew, hlt, hat⟩ := hI.okAt ht
  have hfail : Inv g tag (s.setPc t (.freeMem h new)) :=
    hI.setPc (by simp [ht, Pc.hdr]) (by simp [ht, Pc.reg]) (by simp [Pc.node]) ⟨hmem, hnew⟩
  simp only [tick, ht] at hs
  by_cases hi : i < g.inner
  · rw [decide_eq_false (by omega)] at hs
    simp only [fns, nsFns, memctxt, defFns, Bool.false_eq_true, if_false] at hs
    split at hs
    · rename_i heq
      split at heq
      · cases heq
      · cases heq
        cases hs
        exact hfail
    · rename_i heq
      split at heq
      · cases heq
        cases hs
        exact inv_expAlloc hI ht hi
      · cases heq
  · rw [decide_eq_true (by omega)] at hs
    obtain ⟨d, hd, hlive⟩ := hmem
    simp only [fns, nsFns, memctxt, hd, if_true, Option.map_some] at hs
    cases hs
    refine hI.setPc (by simp [ht, Pc.hdr]) (by simp [ht, Pc.reg]) (by simp [Pc.node])
      ⟨⟨d, hd, hlive⟩, hnew, hlt, hat, ?_⟩
    unfold NodeNew
    rw [if_neg hi]
    exact ⟨d, hd, rfl⟩

omit [DecidableEq τ] in
/-- What the initialisation of a node does: an internal node's entries become NULL. -/
theorem ertInit_node (hI : Inv g tag s) {h i : ℕ} {node : Addr} {m : Mem}
    (hnode : NodeNew g tag s h i node)
    (hm : ertInit g.consts (fns g) s.mem (some node) (decide (g.depth ≤ i + 2)) = some m) :
    m.brk = s.mem.brk ∧ m.size = s.mem.size ∧
      (∀ b, node ≠ .cell b 0 → m.word b = s.mem.word b) ∧
      ∀ b k, node = .cell b 0 → k < 2 ^ g.order → m.word b (k * psWord g.arch) = none := by
  have hdepth : g.depth = g.inner + 2 := g.depth_eq'
  unfold NodeNew at hnode
  by_cases hi : i < g.inner
  · rw [if_pos hi] at hnode
    obtain ⟨b, rfl, -, -, hsize⟩ := hnode
    have hok : NodeOk g.toGeom false := nodeOk_internal hI.tree.fit
    rw [decide_eq_false (by omega)] at hm
    have hm' : ertInit g.consts g.toGeom.fns s.mem (some (.cell b 0)) false = some m :=
      (ertInit_internal ..).symm.trans hm
    obtain ⟨m', hspec, hbrk, hsz, hother, hnull⟩ := ertInit_spec hok (m := s.mem) (b := b)
      (hsize.trans (nodeBytes_internal g).symm)
    obtain rfl : m' = m := Option.some.inj (hspec.symm.trans hm')
    refine ⟨hbrk, hsz, fun b' hb' => hother b' fun he => hb' (he ▸ rfl), fun b' k hb' hk => ?_⟩
    cases hb'
    exact hnull k (by rwa [nodeBase_internal])
  · rw [if_neg hi] at hnode
    obtain ⟨d, -, rfl⟩ := hnode
    rw [decide_eq_true (by omega)] at hm
    obtain rfl : s.mem = m := Option.some.inj ((ertInit_leaf ..).symm.trans hm)
    exact ⟨rfl, rfl, fun _ _ => rfl, by rintro b k ⟨⟩⟩

/-- The initialisation of a node. -/
theorem inv_tick_expInit (hI : Inv g tag s) {t : τ} {o : Oracle} {h i : ℕ} {new : Option ℕ}
    {n node : Addr} (ht : s.pc t = .expInit h new i n node) (hs : tick g s t o = some s') :
    Inv g tag s' := by
  have hdepth : g.depth = g.inner + 2 := g.depth_eq'
  obtain ⟨hmem, hnew, hlt, hat, hnode⟩ := hI.okAt ht
  simp only [tick, ht, Option.bind_eq_bind, Option.bind_eq_some_iff] at hs
  obtain ⟨m, hm, hs⟩ := hs
  cases hs
  by_cases hi : i < g.inner
  · obtain ⟨hbrk, hsize, hother, hnull⟩ := ertInit_node hI hnode hm
    unfold NodeNew at hnode
    rw [if_pos hi] at hnode
    obtain ⟨b, rfl, -⟩ := hnode
    exact inv_expInit hI ht hi hbrk hsize (fun b' hb' => hother b' (by simpa using hb'.symm))
      fun k hk => hnull b k rfl hk
  · have hnode' := hnode
    unfold NodeNew at hnode
    rw [if_neg hi] at hnode
    obtain ⟨d, -, rfl⟩ := hnode
    rw [decide_eq_true (by omega)] at hm
    obtain rfl : s.mem = m := Option.some.inj ((ertInit_leaf ..).symm.trans hm)
    exact hI.setPc (by simp [ht, Pc.hdr]) (by simp [ht, Pc.reg]) (by simp [Pc.node])
      ⟨hmem, hnew, hlt, hat, hnode', by rintro b k ⟨⟩⟩

/-- The store of an entry. -/
theorem inv_tick_expSet (hI : Inv g tag s) {t : τ} {o : Oracle} {h i : ℕ} {new : Option ℕ}
    {n node : Addr} (ht : s.pc t = .expSet h new i n node) (hs : tick g s t o = some s') :
    Inv g (tickTag g tag s t) s' := by
  have hnode := (hI.okAt ht).2.2.2.2.1
  unfold tickTag
  rw [ht]
  simp only [tick, ht, Option.bind_eq_bind, Option.bind_eq_some_iff] at hs
  obtain ⟨m, hm, hs⟩ := hs
  cases hs
  unfold NodeNew at hnode
  by_cases hi : i < g.inner
  · rw [if_pos hi] at hnode
    obtain ⟨b, rfl, -⟩ := hnode
    exact inv_link hI ht hi hm
  · rw [if_neg hi] at hnode
    obtain ⟨d, -, rfl⟩ := hnode
    exact inv_register hI ht hi hm

/-- One step of the function a thread is in. -/
theorem inv_tick (hI : Inv g tag s) {t : τ} {o : Oracle} (hs : tick g s t o = some s') :
    Inv g (tickTag g tag s t) s' := by
  have hdepth : g.depth = g.inner + 2 := g.depth_eq'
  have hset := @inv_tick_expSet τ _ g tag s s' hI t o
  unfold tickTag at hset ⊢
  cases ht : s.pc t with
  | idle =>
      simp only [tick, ht] at hs
      cases hs
  | pop =>
      simp only [tick, ht] at hs
      split at hs <;> rename_i hfl <;> cases hs
      · exact hI.setPc (by simp [Pc.hdr]) (by simp [ht, Pc.reg]) (by simp [Pc.node]) trivial
      · exact inv_pop hI ht hfl
  | faa =>
      simp only [tick, ht] at hs
      cases hs
      have hf := hI.headers.frontier
      refine inv_frontier hI ?_ ?_ (by simp [ht, Pc.reg]) ?_ ?_
      · exact (Nat.dvd_mod_iff g.range_dvd_word).mpr (Nat.dvd_add hf (dvd_refl _))
      · split <;> rfl
      · split <;> rfl
      · split
        · trivial
        · rename_i hlt
          exact ⟨hf, not_le.mp hlt⟩
  | header id =>
      simp only [tick, ht] at hs
      split at hs
      · cases hs
        exact hI.setPc (by simp [Pc.hdr]) (by simp [ht, Pc.reg]) (by simp [Pc.node]) trivial
      · rename_i h _
        split at hs
        · rename_i hfree
          cases hs
          refine inv_header hI ht hfree fun h' => ?_
          by_cases he : h' = h
          · subst he
            cases o.ok <;> simp
          · cases o.ok <;> simp [update_of_ne he]
        · cases hs
  | memory h new =>
      simp only [tick, ht] at hs
      split at hs
      · rename_i hnone
        split at hs <;> cases hs
        · exact inv_alloc hI ht hnone
        · refine hI.setPc (by simp [ht, Pc.hdr]) (by simp [ht, Pc.reg]) (by simp [Pc.node]) ?_
          exact (hI.okAt ht : NewOk s h new)
      · cases hs
  | test k id limit i n => exact inv_test hI ht hs
  | hop k id limit i n => exact inv_hop hI ht hs
  | resolve k id limit n => exact inv_resolve hI ht hs
  | expWalk h new i n =>
      obtain ⟨hmem, hnew, hlt, hat, hf⟩ := hI.okAt ht
      simp only [tick, ht, Option.bind_eq_bind, Option.bind_eq_some_iff] at hs
      obtain ⟨n', hw, hs⟩ := hs
      cases hs
      exact hI.setPc (by simp [ht, Pc.hdr]) (by simp [ht, Pc.reg]) (by simp [Pc.node])
        ⟨hmem, hnew, hlt, hI.tree.walk hat (by omega) hf hw⟩
  | expTest h new i n =>
      have hok := hI.okAt ht
      obtain ⟨hmem, hnew, hlt, hat⟩ := hok
      simp only [tick, ht, Option.bind_eq_bind, Option.bind_eq_some_iff] at hs
      obtain ⟨p, hp, hs⟩ := hs
      cases hs
      have hnext := expNext_spec (g := g) (s := s) h i new n
      refine hI.setPc ?_ (by simp [ht, Pc.reg]) ?_ ?_
      · split
        · rw [hnext.1, ht]
          exact fun _ he => he
        · simp [ht, Pc.hdr]
      · split
        · simp [hnext.2]
        · simp [Pc.node]
      · split
        · rename_i hne
          obtain ⟨a, rfl⟩ := Option.ne_none_iff_exists'.mp hne
          exact .expNext hmem hnew hlt hat ⟨a, hp⟩
        · exact ⟨hmem, hnew, hlt, hat⟩
  | expAlloc h new i n => exact inv_tick_expAlloc hI ht hs
  | expInit h new i n node => exact inv_tick_expInit hI ht hs
  | expSet h new i n node =>
      have := hset ht hs
      rwa [ht] at this
  | freeMem h new =>
      simp only [tick, ht, Option.bind_eq_bind, Option.bind_eq_some_iff] at hs
      obtain ⟨m, hm, hs⟩ := hs
      cases hs
      exact inv_free hI (by rw [ht]; rfl) hm rfl rfl (by simp [ht, Pc.reg]) (hI.okAt ht).2
  | freeHeader h new =>
      simp only [tick, ht] at hs
      cases hs
      exact inv_freeHeader hI ht
  | reset id =>
      simp only [tick, ht] at hs
      cases hs
      refine inv_frontier hI ?_ rfl (by simp [ht, Pc.reg]) rfl trivial
      have hid : g.range ∣ id := hI.okAt ht
      split
      · exact hid
      · exact hI.headers.frontier
  | platFree h =>
      simp only [tick, ht, Option.bind_eq_bind, Option.bind_eq_some_iff] at hs
      obtain ⟨m, hm, hs⟩ := hs
      cases hs
      refine inv_free hI (by rw [ht]; rfl) hm rfl rfl (fun _ hr => (by rw [ht] at hr; exact hr)) ?_
      refine ⟨⟨rfl, rfl, ?_⟩, by omega, rfl⟩
      show s.memory h ≠ none
      simp [hm]
  | check h n => exact inv_check hI ht hs
  | clear h n =>
      simp only [tick, ht, Option.bind_eq_bind, Option.bind_eq_some_iff] at hs
      obtain ⟨m, hm, hs⟩ := hs
      cases hs
      exact inv_clear hI ht hm
  | forget h =>
      simp only [tick, ht] at hs
      cases hs
      exact inv_forget hI ht
  | push h =>
      simp only [tick, ht] at hs
      cases hs
      exact inv_push hI ht

/-- **Every step keeps the invariant.** -/
theorem inv_step (hI : Inv g tag s) {a : Act τ} (hs : step g s a = some s') :
    Inv g (nextTag g tag s a) s' := by
  have hdepth : g.depth = g.inner + 2 := g.depth_eq'
  cases a with
  | nsalloc t =>
      simp only [step, Option.ite_none_right_eq_some, Option.some.injEq] at hs
      obtain ⟨ht, rfl⟩ := hs
      exact hI.setPc (by simp [Pc.hdr]) (by simp [ht, Pc.reg]) (by simp [Pc.node]) trivial
  | nsfree t h =>
      simp only [step, Option.ite_none_right_eq_some, Option.some.injEq] at hs
      obtain ⟨⟨ht, hu⟩, rfl⟩ := hs
      exact inv_nsfree hI ht hu
  | lkup t id =>
      simp only [step, Option.ite_none_right_eq_some, Option.some.injEq] at hs
      obtain ⟨⟨ht, hid⟩, rfl⟩ := hs
      exact hI.setPc (by simp [Pc.hdr, lookupStart, Caller.hdr]) (by simp [ht, Pc.reg])
        (by simp [Pc.node, lookupStart]) ⟨⟨rfl, hid⟩, by omega, rfl⟩
  | step t o => exact inv_tick hI hs

omit [DecidableEq τ] in
/-- An allocation changes no block that there is. -/
theorem allocfn_frame (g : NsGeom) (m : Mem) (ctx : Ptr × (ℕ → Bool)) (sz : ℤ) (isleaf : Bool) :
    ((fns g).allocfn m ctx sz isleaf).2.word = m.word ∧
      ∀ b < m.brk, ((fns g).allocfn m ctx sz isleaf).2.size b = m.size b := by
  unfold fns nsFns defFns
  cases isleaf with
  | true => exact ⟨rfl, fun _ _ => rfl⟩
  | false =>
      simp only [Bool.false_eq_true, if_false]
      split
      · exact ⟨rfl, fun b hb => update_of_ne hb.ne ..⟩
      · exact ⟨rfl, fun _ _ => rfl⟩

/-- **What a step does to the trie**: it leaves the labelled nodes as they are, stores an address in
an entry, or clears an entry. -/
theorem tick_mem (hI : Inv g tag s) {t : τ} {o : Oracle} (hs : tick g s t o = some s') :
    (∀ b q, tag b = some q → s'.mem.size b = s.mem.size b ∧ s'.mem.word b = s.mem.word b) ∨
    (∃ h new i n node, s.pc t = .expSet h new i n node ∧
      s.mem.store (psWord g.arch) n (some node) = some s'.mem) ∨
    ∃ h n, s.pc t = .clear h n ∧ s.mem.store (psWord g.arch) n none = some s'.mem := by
  have hsame : s'.mem = s.mem → (∀ b q, tag b = some q →
      s'.mem.size b = s.mem.size b ∧ s'.mem.word b = s.mem.word b) := by
    intro he b q _
    rw [he]
    exact ⟨rfl, rfl⟩
  unfold tick at hs
  cases ht : s.pc t with
  | idle =>
      rw [ht] at hs
      cases hs
  | pop =>
      simp only [ht] at hs
      split at hs <;> cases hs <;> exact .inl (hsame rfl)
  | faa | freeHeader _ _ | reset _ | forget _ | push _ =>
      simp only [ht] at hs
      cases hs
      exact .inl (hsame rfl)
  | header id =>
      simp only [ht] at hs
      split at hs
      · cases hs
        exact .inl (hsame rfl)
      · split at hs <;> cases hs
        exact .inl (hsame rfl)
  | memory h new =>
      simp only [ht] at hs
      split at hs
      · split at hs <;> cases hs <;> exact .inl (hsame rfl)
      · cases hs
  | test k id limit i n =>
      simp only [ht, Option.bind_eq_bind, Option.bind_eq_some_iff] at hs
      obtain ⟨q, -, hs⟩ := hs
      split at hs
      · obtain ⟨p', -, rfl⟩ := Option.map_eq_some_iff.mp hs
        exact .inl (hsame rfl)
      · cases hs
        exact .inl (hsame rfl)
  | hop _ _ _ _ _ | expWalk _ _ _ _ | expTest _ _ _ _ | freeMem _ _ | platFree _ =>
      simp only [ht, Option.bind_eq_bind, Option.bind_eq_some_iff] at hs
      obtain ⟨q, -, hs⟩ := hs
      cases hs
      exact .inl (hsame rfl)
  | check h n =>
      simp only [ht, Option.bind_eq_bind, Option.bind_eq_some_iff] at hs
      obtain ⟨q, -, hs⟩ := hs
      split at hs <;> cases hs
      exact .inl (hsame rfl)
  | resolve k id limit n =>
      simp only [ht] at hs
      split at hs
      · cases hs
      split at hs
      · obtain ⟨p', -, rfl⟩ := Option.map_eq_some_iff.mp hs
        exact .inl (hsame rfl)
      · cases k with
        | user | unlink _ =>
            cases hs
            exact .inl (hsame rfl)
        | present _ _ =>
            simp only [lookupFound, Option.ite_none_right_eq_some, Option.some.injEq] at hs
            obtain ⟨-, rfl⟩ := hs
            exact .inl (hsame rfl)
        | absent _ _ | gone _ => cases hs
  | expAlloc h new i n =>
      simp only [ht] at hs
      obtain ⟨hword, hsize⟩ := allocfn_frame g s.mem (memctxt s h o)
        (nodeSz g.consts (decide (g.depth ≤ i + 2))) (decide (g.depth ≤ i + 2))
      refine .inl fun b q hb => ?_
      have hlt := hI.tree.lt b q hb
      split at hs <;> rename_i heq <;> rw [heq] at hword hsize <;> cases hs <;>
        exact ⟨hsize b hlt, congrFun hword b⟩
  | expInit h new i n node =>
      simp only [ht, Option.bind_eq_bind, Option.bind_eq_some_iff] at hs
      obtain ⟨m, hm, hs⟩ := hs
      cases hs
      have hok := hI.ok t
      rw [ht] at hok
      obtain ⟨-, hsize, hother, -⟩ := ertInit_node hI hok.2.2.2.2 hm
      refine .inl fun b q hb => ⟨congrFun hsize b, hother b ?_⟩
      rintro rfl
      rw [((hI.ok t).node_spec (by rw [ht]; rfl)).1] at hb
      cases hb
  | expSet h new i n node =>
      simp only [ht, Option.bind_eq_bind, Option.bind_eq_some_iff] at hs
      obtain ⟨m, hm, hs⟩ := hs
      cases hs
      exact .inr (.inl ⟨h, new, i, n, node, rfl, hm⟩)
  | clear h n =>
      simp only [ht, Option.bind_eq_bind, Option.bind_eq_some_iff] at hs
      obtain ⟨m, hm, hs⟩ := hs
      cases hs
      exact .inr (.inr ⟨h, n, rfl, hm⟩)

/-- The trie of a new namespace: one node, with its entries NULL. -/
theorem tree_nsInit {m m' : Mem} {ctx : Ptr × (ℕ → Bool)} {v : ℕ}
    (h : ertAlloc g.consts (fns g) m ctx = some (some (.cell v 0), m')) :
    Tree g (fun b => if b = v then some [] else none) m' v ∧
      ∀ k < 2 ^ g.order, m'.word v (k * psWord g.arch) = none := by
  have hdepth : g.depth = g.inner + 2 := g.depth_eq'
  have hroot : decide (g.consts.depth = 1) = false := by
    have : g.consts.depth = g.inner + 2 := hdepth
    exact decide_eq_false (by omega)
  have hassert : g.consts.order * (g.consts.depth - 1) + g.consts.lastOrder <
      wordBits g.consts.arch ∧ 1 ≤ g.consts.depth := ertAlloc_assert g.toGeom
  unfold ertAlloc at h
  rw [if_pos hassert, hroot] at h
  rcases allocfn_cases (g := g.toGeom) m ctx.2 false with hal | ⟨hneg, hal⟩
  · have hal' : (fns g).allocfn m ctx (nodeSz g.consts false) false = _ := hal
    simp only [hal'] at h
    cases h
  · have hal' : (fns g).allocfn m ctx (nodeSz g.consts false) false = _ := hal
    simp only [hal', Option.map_eq_some_iff, Prod.mk.injEq, Option.some.injEq,
      Addr.cell.injEq] at h
    obtain ⟨m₁, hinit, ⟨rfl, -⟩, rfl⟩ := h
    have hinit' : ertInit g.consts g.toGeom.fns _ _ false = some m₁ :=
      (ertInit_internal ..).symm.trans hinit
    have hok : NodeOk g.toGeom false := by
      by_contra hok
      obtain ⟨i, hi, hout⟩ := exists_initOff_out hok hneg
      have hsz : (nodeSz g.consts false).toNat = toU32 (nodeBytes g.toGeom.consts false) := by
        show (nodeSz g.toGeom.consts false).toNat = _
        rw [nodeSz_of_not_neg hneg, Int.toNat_natCast]
      have hnone := initLoop_eq_none (g := g.toGeom) (b := m.brk) (m := { m with
        brk := m.brk + 1, size := update m.size m.brk (nodeSz g.consts false).toNat }) hi
          fun off hoff => by
            simp only [update_self, hsz]
            exact hout off hoff
      exact Option.some_ne_none m₁ (hinit'.symm.trans hnone)
    have hfit : internBytes g < 2 ^ 31 := nodeBytes_internal g ▸ hok.1
    obtain ⟨m₂, hspec, hbrk, hsize, -, hnull⟩ := ertInit_spec hok (b := m.brk) (m := { m with
        brk := m.brk + 1, size := update m.size m.brk (nodeSz g.consts false).toNat })
          (by simp only [update_self, nodeSz_internal hfit, nodeBytes_internal])
    obtain rfl : m₂ = m₁ := Option.some.inj (hspec.symm.trans hinit')
    have hnull' : ∀ k < 2 ^ g.order, m₂.word m.brk (k * psWord g.arch) = none :=
      fun k hk => hnull k (by rwa [nodeBase_internal])
    have htag : ∀ {b} {p : List ℕ}, (if b = m.brk then some [] else none) = some p → b = m.brk ∧ p = [] := by
      intro b p hb
      split at hb
      · cases hb
        exact ⟨‹_›, rfl⟩
      · cases hb
    refine ⟨⟨hfit, if_pos rfl, fun b p hb => ?_, fun b p hb => ?_, fun b p hb => ?_,
      fun b p k a hb _ hk hw => ?_⟩, hnull'⟩ <;> obtain ⟨rfl, rfl⟩ := htag hb
    · rw [hbrk]
      exact Nat.lt_succ_self _
    · simp only [hsize, update_self, nodeSz_internal hfit]
    · exact Nat.zero_le _
    · rw [hnull' k hk] at hw
      cases hw

omit [DecidableEq τ] in
/-- A new namespace satisfies the invariant. -/
theorem inv_nsInit (h : nsInit τ g s) :
    Inv g (fun b => if b = s.root then some [] else none) s := by
  obtain ⟨⟨m, ctx, hal⟩, hfl, hf, hhdr, hu, hmem, hlive, hpc⟩ := h
  obtain ⟨hT, hnull⟩ := tree_nsInit hal
  have hslot : ∀ {b} {p : List ℕ} {k a}, (if b = s.root then some [] else none) = some p →
      k < 2 ^ g.order →
      s.mem.word b (k * psWord g.arch) ≠ some a := by
    intro b p k a hb hk hw
    split at hb
    · rename_i he
      rw [he, hnull k hk] at hw
      cases hw
    · cases hb
  refine ⟨hT, ⟨?_, ?_, ?_⟩, ?_, ⟨?_, ?_, ?_⟩, ?_, fun t => ?_⟩
  · exact fun b p k a hb _ hk hw => absurd hw (hslot hb hk)
  · exact fun b p k m hS => absurd hS.word (hslot hS.tag hS.lt)
  · exact fun b p k _ _ _ m hS _ => absurd hS.word (hslot hS.tag hS.lt)
  · refine ⟨by simp [hfl], by simp [hfl], by simp [hu], by simp [hpc, Pc.hdr],
      by simp [hpc, Pc.hdr], by simp [hhdr], by simp [hhdr], by simp [hhdr], by simp [hf]⟩
  · simp [hmem]
  · simp [hmem]
  · simp [hu]
  · simp [hpc, Pc.node]
  · rw [hpc]
    trivial

/-- **The invariant holds in every state reached**, along any runs. -/
theorem exists_inv {G : St τ → Act τ → Prop} (h : (lts τ g).Reach G s) : ∃ tag, Inv g tag s :=
  Lts.invariant (L := lts τ g) (I := fun s => ∃ tag, Inv g tag s) (fun _ h => ⟨_, inv_nsInit h⟩)
    (fun _ _ _ ⟨_, hI⟩ _ hs => ⟨_, inv_step hI hs⟩) h

end Steps

end Parsec.Ns
