import Parsec.Ns.Inv

/-!
# Steps of slab registration and the invariant

Steps that only move a thread keep the invariant by `Inv.setPc`. The others are assembled by
`Inv.assemble` from what becomes of each group of it. Here are those that change the headers and the
slab memory, one lemma for each kind of step.
-/

namespace Parsec.Ns

open Function Ertrie Lib

section Walks

variable {τ : Type} {g : NsGeom} {tag : Tag} {s : St τ}

/-- What a load from an entry of a node returns. -/
theorem load_cell {w b off : ℕ} {m : Mem} {p : Ptr} (h : m.load w (.cell b off) = some p) :
    m.word b off = p := by
  simp only [Mem.load, Option.ite_none_right_eq_some, Option.some.injEq] at h
  exact h.2

/-- The offset of an id's entry in an internal node. -/
theorem Tree.walkOff_eq {m : Mem} {root : ℕ} (hT : Tree g tag m root) {id i : ℕ}
    (hi : i ≤ g.inner) : walkOff g.consts id (g.depth - i) = hop g.consts id i * psWord g.arch := by
  have hfit := hT.fit
  unfold internBytes at hfit
  refine walkOff_hop (c := g.consts) ?_ g.depth_lt_u32 g.bits_lt_u32 ?_
  · exact lt_of_lt_of_le hfit (by decide)
  · have h : g.consts.depth = g.inner + 2 := g.depth_eq'
    omega

/-- A walk through internal levels. -/
theorem Tree.walk {m : Mem} {root : ℕ} (hT : Tree g tag m root) {id i : ℕ} {n n' : Addr}
    (hn : At g tag root id i n) (hi : i ≤ g.inner) (hf : Filled g m n)
    (hw : ertWalk g.consts m n id (g.depth - i) = some n') : At g tag root id (i + 1) n' := by
  obtain ⟨a, hload⟩ := hf
  obtain rfl := Option.some.inj ((ertWalk_of_load hload _ _).symm.trans hw)
  rw [hT.walkOff_eq hi]
  cases i with
  | zero =>
      subst hn
      cases hload
      exact ⟨root, hT.root, by rw [Addr.plus, Nat.zero_add]⟩
  | succ i =>
      obtain ⟨b, hb, rfl⟩ := hn
      obtain ⟨b', rfl, hb'⟩ := hT.child b _ _ a hb (by rw [length_path]; omega)
        (hop_lt g.consts id i) (load_cell hload)
      exact ⟨b', by rw [path_succ]; exact hb', by rw [Addr.plus, Nat.zero_add]⟩

/-- A walk into a leaf, from an entry that is not NULL. -/
theorem Slots.walk (hS : Slots g tag s) {id : ℕ} {n n' : Addr}
    (hn : At g tag s.root id (g.inner + 1) n) (hf : Filled g s.mem n)
    (hw : ertWalk g.consts s.mem n id (g.depth - (g.inner + 1)) = some n') :
    ∃ b m off, Slot g tag s b (path g.consts id g.inner) (hop g.consts id g.inner) m ∧
      n' = .ext m off := by
  obtain ⟨a, hload⟩ := hf
  obtain rfl := Option.some.inj ((ertWalk_of_load hload _ _).symm.trans hw)
  obtain ⟨b, hb, rfl⟩ := hn
  have hword := load_cell hload
  have hlt : hop g.consts id g.inner < 2 ^ g.order := hop_lt g.consts id g.inner
  obtain ⟨m, rfl⟩ := hS.ext b _ _ a hb (length_path ..) hlt hword
  exact ⟨b, m, _, ⟨hb, length_path .., hlt, hword⟩, rfl⟩

/-- A walk from a last internal entry gets into a leaf, or comes to an offset from NULL. -/
theorem Slots.walk_cases (hS : Slots g tag s) {id : ℕ} {n n' : Addr}
    (hn : At g tag s.root id (g.inner + 1) n)
    (hw : ertWalk g.consts s.mem n id (g.depth - (g.inner + 1)) = some n') :
    isNull n' = true ∨ ∃ m off, n' = .ext m off := by
  obtain ⟨p, hload, rfl⟩ := load_of_ertWalk hw
  cases p with
  | none => exact .inl rfl
  | some a =>
      obtain ⟨-, m, off, -, he⟩ := hS.walk hn ⟨a, hload⟩ hw
      exact .inr ⟨m, off, he⟩

end Walks

/-! ## Moving a thread -/

section Move

variable {τ : Type} [DecidableEq τ] {g : NsGeom} {tag tag' : Tag} {s s₁ : St τ} {t : τ} {p : Pc}

/-- A thread that has moved is where it moved to. -/
@[simp] theorem setPc_pc_self : (s.setPc t p).pc t = p := update_self ..

/-- Another thread moves: this one is where it was. -/
theorem setPc_pc_ne {t' : τ} (h : t' ≠ t) : (s.setPc t p).pc t' = s.pc t' := update_of_ne h ..

/-- What holds of the thread that moves and of the others, holds of all. -/
theorem forall_setPc {P : τ → Pc → Prop} (ht : P t p) (hother : ∀ t' ≠ t, P t' (s.pc t')) (t' : τ) :
    P t' ((s.setPc t p).pc t') := by
  by_cases h : t' = t
  · subst h
    rwa [setPc_pc_self]
  · rw [setPc_pc_ne h]
    exact hother t' h

omit [DecidableEq τ] in
/-- What a thread knows, where the trie stays and nobody writes the header it holds. -/
theorem PcOk.of_hdr {q : Pc} (h : PcOk g tag s q) (hmem : s₁.mem = s.mem) (hroot : s₁.root = s.root)
    (hhdr : ∀ h, q.hdr = some h → SameHdr s s₁ h) : PcOk g tag s₁ q :=
  h.mono hroot (fun _ _ h => h) (fun _ _ _ _ _ hf => by rwa [hmem]) hhdr
    (fun _ _ htag hlt => ⟨htag, hmem ▸ hlt, by rw [hmem], by rw [hmem]⟩)
    fun _ _ _ _ _ _ _ _ hS => ⟨hS.tag, hS.length, hS.lt, hmem ▸ hS.word⟩

/-- What a thread knows does not depend on where threads are. -/
theorem PcOk.setPc {q : Pc} (h : PcOk g tag s q) : PcOk g tag (s.setPc t p) q :=
  h.of_hdr rfl rfl fun _ _ => ⟨rfl, rfl, fun _ _ h => h⟩

/-- A thread that drops its header, or keeps it. -/
theorem Headers.setPc (hH : Headers g s) (hp : ∀ h, p.hdr = some h → (s.pc t).hdr = some h) :
    Headers g (s.setPc t p) where
  nodup := hH.nodup
  fl := hH.fl
  inUse := hH.inUse
  held := forall_setPc
    (P := fun _ q => ∀ h, q.hdr = some h → s.header h = true ∧ s.inUse h = false ∧ h ∉ s.fl)
    (fun h hh => hH.held t h (hp h hh)) fun t' _ h hh => hH.held t' h hh
  inj := by
    intro t₁ t₂ h h₁ h₂
    have hsub : ∀ t' h, ((s.setPc t p).pc t').hdr = some h → (s.pc t').hdr = some h :=
      forall_setPc (P := fun t' q => ∀ h, q.hdr = some h → (s.pc t').hdr = some h) hp
        fun t' _ h hh => hh
    exact hH.inj t₁ t₂ h (hsub t₁ h h₁) (hsub t₂ h h₂)
  dvd := hH.dvd
  lt := hH.lt
  end_ := hH.end_
  frontier := hH.frontier

/-- A registered header stays so, if the thread that moves keeps it registered or puts it to use. -/
theorem Reg.move {h : ℕ} (hR : Reg s h) (hpc : s₁.pc = s.pc)
    (hu : s.inUse h = true → s₁.inUse h = true ∨ p.reg = some h)
    (hreg : (s.pc t).reg = some h → s₁.inUse h = true ∨ p.reg = some h) :
    Reg (s₁.setPc t p) h := by
  have hend : s₁.inUse h = true ∨ p.reg = some h → Reg (s₁.setPc t p) h :=
    fun hx => hx.imp id fun hp => ⟨t, by rwa [setPc_pc_self]⟩
  rcases hR with hR | ⟨t', ht'⟩
  · exact hend (hu hR)
  · by_cases htt : t' = t
    · exact hend (hreg (htt ▸ ht'))
    · exact .inr ⟨t', by rwa [setPc_pc_ne htt, hpc]⟩

omit [DecidableEq τ] in
/-- The slots, when the last internal entries are among those before, and a header that one of them
leads to stays registered. -/
theorem Slots.of_back (hS : Slots g tag s)
    (hback : ∀ b q k a, tag' b = some q → q.length = g.inner → k < 2 ^ g.order →
      s₁.mem.word b (k * psWord g.arch) = some a →
      tag b = some q ∧ s.mem.word b (k * psWord g.arch) = some a)
    (hreg : ∀ b q k m h, Slot g tag' s₁ b q k m → Reg s h → s.memory h = some m →
      Reg s₁ h ∧ s₁.memory h = some m ∧ s₁.start h = s.start h) : Slots g tag' s₁ := by
  have hslot : ∀ {b q k m}, Slot g tag' s₁ b q k m → Slot g tag s b q k m := by
    intro b q k m h
    obtain ⟨htag, hword⟩ := hback b q k _ h.tag h.length h.lt h.word
    exact ⟨htag, h.length, h.lt, hword⟩
  refine ⟨fun b q k a hb hl hk hw => ?_, fun b q k m h => ?_, fun b q k b' q' k' m h h' => ?_⟩
  · obtain ⟨htag, hword⟩ := hback b q k a hb hl hk hw
    exact hS.ext b q k a htag hl hk hword
  · obtain ⟨h', hR, hm, hp⟩ := hS.reg b q k m (hslot h)
    obtain ⟨hR', hm', hs'⟩ := hreg b q k m h' h hR hm
    exact ⟨h', hR', hm', hs' ▸ hp⟩
  · exact hS.inj b q k b' q' k' m (hslot h) (hslot h')

omit [DecidableEq τ] in
/-- The slots, when the words of labelled nodes and the registered headers stay. -/
theorem Slots.of_reg (hS : Slots g tag s)
    (hword : ∀ b q, tag b = some q → s₁.mem.word b = s.mem.word b)
    (hreg : ∀ h m, Reg s h → s.memory h = some m →
      Reg s₁ h ∧ s₁.memory h = some m ∧ s₁.start h = s.start h) : Slots g tag s₁ :=
  hS.of_back (fun b q _ _ hb _ _ hw => ⟨hb, hword b q hb ▸ hw⟩) fun _ _ _ m h _ => hreg h m

omit [DecidableEq τ] in
/-- What the thread at a program point knows. -/
theorem Inv.okAt (hI : Inv g tag s) (ht : s.pc t = p) : PcOk g tag s p := ht ▸ hI.ok t

/-- A step that only moves a thread, which keeps or drops its header, and keeps it registered. -/
theorem Inv.setPc (hI : Inv g tag s) (hhdr : ∀ h, p.hdr = some h → (s.pc t).hdr = some h)
    (hreg : ∀ h, (s.pc t).reg = some h → p.reg = some h)
    (hnode : ∀ b, p.node = some b → (s.pc t).node = some b) (hok : PcOk g tag s p) :
    Inv g tag (s.setPc t p) where
  tree := hI.tree
  slots := hI.slots.of_reg (fun _ _ _ => rfl) fun h m hR hm =>
    ⟨hR.move rfl .inl fun hh => .inr (hreg h hh), hm, rfl⟩
  headers := hI.headers.setPc hhdr
  blocks := ⟨hI.blocks.lt, hI.blocks.inj, hI.blocks.inUse⟩
  nodes := by
    intro t₁ t₂ b h₁ h₂
    have hsub : ∀ t' b, ((s.setPc t p).pc t').node = some b → (s.pc t').node = some b :=
      forall_setPc (P := fun t' q => ∀ b, q.node = some b → (s.pc t').node = some b) hnode
        fun t' _ b hb => hb
    exact hI.nodes t₁ t₂ b (hsub t₁ b h₁) (hsub t₂ b h₂)
  ok := forall_setPc (P := fun _ q => PcOk g tag _ q) hok.setPc fun t' _ => (hI.ok t').setPc

/-- A step that also changes something else. -/
theorem Inv.assemble (hI : Inv g tag s) (hpc : s₁.pc = s.pc) (tree : Tree g tag' s₁.mem s₁.root)
    (slots : Slots g tag' (s₁.setPc t p)) (headers : Headers g (s₁.setPc t p))
    (blocks : Blocks s₁) (hnode : ∀ b t', t' ≠ t → p.node = some b → (s.pc t').node ≠ some b)
    (others : ∀ t' ≠ t, PcOk g tag' s₁ (s.pc t')) (ok : PcOk g tag' s₁ p) :
    Inv g tag' (s₁.setPc t p) where
  tree := tree
  slots := slots
  headers := headers
  blocks := ⟨blocks.lt, blocks.inj, blocks.inUse⟩
  nodes := by
    intro t₁ t₂ b h₁ h₂
    by_cases e₁ : t₁ = t <;> by_cases e₂ : t₂ = t
    · rw [e₁, e₂]
    · subst e₁
      rw [setPc_pc_self] at h₁
      rw [setPc_pc_ne e₂, hpc] at h₂
      exact absurd h₂ (hnode b t₂ e₂ h₁)
    · subst e₂
      rw [setPc_pc_self] at h₂
      rw [setPc_pc_ne e₁, hpc] at h₁
      exact absurd h₁ (hnode b t₁ e₁ h₂)
    · rw [setPc_pc_ne e₁, hpc] at h₁
      rw [setPc_pc_ne e₂, hpc] at h₂
      exact hI.nodes t₁ t₂ b h₁ h₂
  ok := forall_setPc (P := fun _ q => PcOk g tag' _ q) ok.setPc
    fun t' ht' => (hpc ▸ others t' ht' : PcOk g tag' s₁ (s₁.pc t')).setPc

omit [DecidableEq τ] in
/-- The headers another thread holds are not those of this one. -/
theorem Headers.ne_of_held (hH : Headers g s) {t' : τ} {h h' : ℕ} (ht : t' ≠ t)
    (hh : (s.pc t).hdr = some h) (hh' : (s.pc t').hdr = some h') : h' ≠ h := by
  rintro rfl
  exact ht (hH.inj t' t h' hh' hh)

/-- A step that moves a header: the new places are apart, and other threads keep theirs. -/
theorem Headers.move (hH : Headers g s) (hpc : s₁.pc = s.pc) (nodup : s₁.fl.Nodup)
    (fl : ∀ h ∈ s₁.fl, s₁.header h = true ∧ s₁.inUse h = false)
    (inUse : ∀ h, s₁.inUse h = true → s₁.header h = true)
    (held : ∀ h, p.hdr = some h → s₁.header h = true ∧ s₁.inUse h = false ∧ h ∉ s₁.fl)
    (new : ∀ h t', t' ≠ t → p.hdr = some h → (s.pc t').hdr ≠ some h)
    (others : ∀ t' ≠ t, ∀ h, (s.pc t').hdr = some h →
      s₁.header h = true ∧ s₁.inUse h = false ∧ h ∉ s₁.fl)
    (range : ∀ h, s₁.header h = true →
      g.range ∣ s₁.start h ∧ s₁.start h < g.descMax ∧ s₁.end_ h = s₁.start h + g.range)
    (frontier : g.range ∣ s₁.frontier) : Headers g (s₁.setPc t p) := by
  refine ⟨nodup, fl, inUse, ?_, fun t₁ t₂ h h₁ h₂ => ?_, fun h hh => (range h hh).1,
    fun h hh => (range h hh).2.1, fun h hh => (range h hh).2.2, frontier⟩
  · refine forall_setPc (P := fun _ q => ∀ h, q.hdr = some h →
      s₁.header h = true ∧ s₁.inUse h = false ∧ h ∉ s₁.fl) held fun t' ht' => ?_
    rw [hpc]
    exact others t' ht'
  · by_cases e₁ : t₁ = t <;> by_cases e₂ : t₂ = t
    · rw [e₁, e₂]
    · subst e₁
      rw [setPc_pc_self] at h₁
      rw [setPc_pc_ne e₂, hpc] at h₂
      exact absurd h₂ (new h t₂ e₂ h₁)
    · subst e₂
      rw [setPc_pc_self] at h₂
      rw [setPc_pc_ne e₁, hpc] at h₁
      exact absurd h₁ (new h t₁ e₁ h₂)
    · rw [setPc_pc_ne e₁, hpc] at h₁
      rw [setPc_pc_ne e₂, hpc] at h₂
      exact hH.inj t₁ t₂ h h₁ h₂

/-- A step of a thread that keeps or drops its header, and touches no header's place. -/
theorem Headers.keep (hH : Headers g s) (hpc : s₁.pc = s.pc) (hfl : s₁.fl = s.fl)
    (hh : s₁.header = s.header) (hu : s₁.inUse = s.inUse) (hs : s₁.start = s.start)
    (he : s₁.end_ = s.end_) (hf : g.range ∣ s₁.frontier)
    (hp : ∀ h, p.hdr = some h → (s.pc t).hdr = some h) : Headers g (s₁.setPc t p) := by
  refine hH.move hpc (hfl ▸ hH.nodup) ?_ ?_ ?_ ?_ ?_ ?_ hf
  · rw [hfl, hh, hu]
    exact hH.fl
  · rw [hh, hu]
    exact hH.inUse
  · intro h hph
    rw [hfl, hh, hu]
    exact hH.held t h (hp h hph)
  · exact fun h t' ht' hph hh' => ht' (hH.inj t' t h hh' (hp h hph))
  · intro t' _ h hh'
    rw [hfl, hh, hu]
    exact hH.held t' h hh'
  · rw [hh, hs, he]
    exact fun h hh' => ⟨hH.dvd h hh', hH.lt h hh', hH.end_ h hh'⟩

omit [DecidableEq τ] in
/-- Where the slabs of the headers are. -/
theorem Headers.range (hH : Headers g s) (h : ℕ) (hh : s.header h = true) :
    g.range ∣ s.start h ∧ s.start h < g.descMax ∧ s.end_ h = s.start h + g.range :=
  ⟨hH.dvd h hh, hH.lt h hh, hH.end_ h hh⟩

omit [DecidableEq τ] in
/-- A registered header is allocated. -/
theorem Headers.header_of_reg (hH : Headers g s) {h : ℕ} (hR : Reg s h) : s.header h = true := by
  rcases hR with hu | ⟨t', ht'⟩
  · exact hH.inUse h hu
  · exact (hH.held t' h (Pc.hdr_of_reg ht')).1

omit [DecidableEq τ] in
/-- A header that a thread holds and that is not registered by it is not registered. -/
theorem Headers.not_reg (hH : Headers g s) {h : ℕ} (hh : (s.pc t).hdr = some h)
    (hr : (s.pc t).reg = none) : ¬ Reg s h := by
  rintro (hu | ⟨t', ht'⟩)
  · rw [(hH.held t h hh).2.1] at hu
    cases hu
  · obtain rfl := hH.inj t' t h (Pc.hdr_of_reg ht') hh
    rw [hr] at ht'
    cases ht'

/-- A header that is registered after a step of a thread was so before. -/
theorem Reg.back {h : ℕ} (hR : Reg (s₁.setPc t p) h) (hpc : s₁.pc = s.pc)
    (hu : s₁.inUse h = true → Reg s h) (hp : p.reg = some h → Reg s h) : Reg s h := by
  rcases hR with hR | ⟨t', ht'⟩
  · exact hu hR
  · by_cases htt : t' = t
    · subst htt
      rw [setPc_pc_self] at ht'
      exact hp ht'
    · rw [setPc_pc_ne htt, hpc] at ht'
      exact .inr ⟨t', ht'⟩

end Move

/-! ## Steps that change the headers -/

section HeaderSteps

variable {τ : Type} [DecidableEq τ] {g : NsGeom} {tag : Tag} {s : St τ} {t : τ}

/-- A slab is taken off the freelist. -/
theorem inv_pop (hI : Inv g tag s) (ht : s.pc t = .pop) {h : ℕ} {fl : List ℕ}
    (hfl : s.fl = h :: fl) :
    Inv g tag ({ s with fl := fl }.setPc t (.memory h none)) := by
  have hH := hI.headers
  have hmem : h ∈ s.fl := by simp [hfl]
  have hnd : h ∉ fl ∧ fl.Nodup := by
    have := hH.nodup
    rw [hfl, List.nodup_cons] at this
    exact this
  have hsub : ∀ h' ∈ fl, h' ∈ s.fl := fun h' hm => by simp [hfl, hm]
  refine hI.assemble rfl hI.tree (hI.slots.of_reg (fun _ _ _ => rfl) fun h' m hR hm => ⟨?_, hm, rfl⟩) ?_
    ⟨hI.blocks.lt, hI.blocks.inj, hI.blocks.inUse⟩ (by simp [Pc.node]) (fun t' _ => ?_) ?_
  · exact hR.move rfl .inl (by simp [ht, Pc.reg])
  · refine hH.move rfl hnd.2 (fun h' hm => hH.fl h' (hsub h' hm)) hH.inUse ?_ ?_ ?_ hH.range
      hH.frontier
    · intro h' hh
      cases hh
      exact ⟨(hH.fl h hmem).1, (hH.fl h hmem).2, hnd.1⟩
    · intro h' t' _ hh hh'
      cases hh
      exact (hH.held t' h hh').2.2 hmem
    · intro t' _ h' hh
      obtain ⟨h₁, h₂, h₃⟩ := hH.held t' h' hh
      exact ⟨h₁, h₂, fun hm => h₃ (hsub h' hm)⟩
  · exact (hI.ok t').of_hdr rfl rfl fun h _ => ⟨rfl, rfl, fun _ _ h => h⟩
  · intro id hid
    cases hid

/-- A header is allocated for the ids taken from the frontier. -/
theorem inv_header (hI : Inv g tag s) {id : ℕ} (ht : s.pc t = .header id) {h : ℕ}
    (hfree : s.header h = false) {mem : ℕ → Option ℕ}
    (hmem : ∀ h', mem h' = s.memory h' ∨ (h' = h ∧ mem h' = none)) :
    Inv g tag ({ s with
      header := update s.header h true
      start := update s.start h id
      end_ := update s.end_ h ((id + g.range) % 2 ^ wordBits g.arch)
      memory := mem }.setPc t (.memory h (some id))) := by
  have hH := hI.headers
  obtain ⟨hdvd, hlt⟩ : g.range ∣ id ∧ id < g.descMax  := hI.okAt ht
  have hne : ∀ {h'}, s.header h' = true → h' ≠ h := by
    rintro h' hh rfl
    rw [hh] at hfree
    cases hfree
  have hmem' : ∀ {h' m}, mem h' = some m → s.memory h' = some m := by
    intro h' m hm
    rcases hmem h' with he | ⟨-, he⟩
    · rwa [← he]
    · rw [he] at hm
      cases hm
  have hkeep : ∀ {h'}, s.header h' = true → mem h' = s.memory h' := fun hh =>
    (hmem _).resolve_right fun hx => hne hh hx.1
  refine hI.assemble rfl hI.tree (hI.slots.of_reg (fun _ _ _ => rfl) fun h' m hR hm => ?_) ?_
    ⟨fun h' m hm => hI.blocks.lt h' m (hmem' hm),
      fun h' h'' m hm hm' => hI.blocks.inj h' h'' m (hmem' hm) (hmem' hm'), ?_⟩
    (by simp [Pc.node]) (fun t' ht' => ?_) ?_
  · have hh := hH.header_of_reg hR
    exact ⟨hR.move rfl .inl (by simp [ht, Pc.reg]), (hkeep hh).trans hm,
      update_of_ne (hne hh) ..⟩
  · refine hH.move rfl hH.nodup ?_ ?_ ?_ ?_ ?_ ?_ hH.frontier
    · intro h' hm
      have hh := hH.fl h' hm
      exact ⟨by simp [update_of_ne (hne hh.1), hh.1], hh.2⟩
    · intro h' hu
      simp [update_of_ne (hne (hH.inUse h' hu)), hH.inUse h' hu]
    · intro h' hh
      cases hh
      refine ⟨update_self .., ?_, fun hm => ?_⟩
      · by_contra hu
        exact hne (hH.inUse h (by simpa using hu)) rfl
      · exact hne (hH.fl h hm).1 rfl
    · intro h' t' _ hh hh'
      cases hh
      exact hne (hH.held t' h hh').1 rfl
    · intro t' _ h' hh
      obtain ⟨h₁, h₂, h₃⟩ := hH.held t' h' hh
      exact ⟨by simp [update_of_ne (hne h₁), h₁], h₂, h₃⟩
    · intro h' hh
      by_cases he : h' = h
      · subst he
        simp only [update_self]
        have hle := add_range_le hdvd hlt
        have hw := g.descMax_lt
        exact ⟨hdvd, hlt, Nat.mod_eq_of_lt (by omega)⟩
      · simp only [update_of_ne he] at hh ⊢
        exact hH.range h' hh
  · intro h' hu
    obtain ⟨m, hm, hl⟩ := hI.blocks.inUse h' hu
    exact ⟨m, (hkeep (hH.inUse h' hu)).trans hm, hl⟩
  · refine (hI.ok t').of_hdr rfl rfl fun h' hh => ?_
    have hh' := (hH.held t' h' hh).1
    exact ⟨update_of_ne (hne hh') .., hkeep hh', fun _ _ h => h⟩
  · rintro id' ⟨⟩
    exact update_self ..

/-- A header is given back. -/
theorem inv_freeHeader (hI : Inv g tag s) {h : ℕ} {new : Option ℕ}
    (ht : s.pc t = .freeHeader h new) :
    Inv g tag ({ s with header := update s.header h false }.setPc t (resetFrontier new)) := by
  have hH := hI.headers
  have hh : (s.pc t).hdr = some h := by rw [ht]; rfl
  obtain ⟨hhdr, huse, hfl⟩ := hH.held t h hh
  have hnone : (resetFrontier new).hdr = none := by cases new <;> rfl
  refine hI.assemble rfl hI.tree (hI.slots.of_reg (fun _ _ _ => rfl) fun h' m hR hm => ⟨?_, hm, rfl⟩) ?_
    ⟨hI.blocks.lt, hI.blocks.inj, hI.blocks.inUse⟩ (by cases new <;> simp [Pc.node, resetFrontier])
    (fun t' _ => ?_) ?_
  · exact hR.move rfl .inl (by simp [ht, Pc.reg])
  · refine hH.move rfl hH.nodup ?_ ?_ (by simp [hnone]) (by simp [hnone]) ?_ ?_ hH.frontier
    · intro h' hm
      have hne : h' ≠ h := fun e => hfl (e ▸ hm)
      simpa [update_of_ne hne] using hH.fl h' hm
    · intro h' hu
      have hne : h' ≠ h := by
        rintro rfl
        rw [hu] at huse
        cases huse
      simpa [update_of_ne hne] using hH.inUse h' hu
    · intro t' ht' h' hh'
      have hne := hH.ne_of_held ht' hh hh'
      simpa [update_of_ne hne] using hH.held t' h' hh'
    · intro h' hh'
      by_cases he : h' = h
      · simp [he] at hh'
      · simp only [update_of_ne he] at hh'
        exact hH.range h' hh'
  · exact (hI.ok t').of_hdr rfl rfl fun h _ => ⟨rfl, rfl, fun _ _ h => h⟩
  · have hnew : NewOk s h new := hI.okAt ht
    cases new with
    | none => trivial
    | some id =>
        have hstart := hnew id rfl
        show g.range ∣ id
        rw [← hstart]
        exact hH.dvd h hhdr

/-- `ps_slab_nsalloc` returns a slab. -/
theorem inv_return (hI : Inv g tag s) {h id limit : ℕ} {new : Option ℕ} {n : Addr}
    (ht : s.pc t = .resolve (.present h new) id limit n) :
    Inv g tag ({ s with inUse := update s.inUse h true }.setPc t .idle) := by
  have hH := hI.headers
  have hh : (s.pc t).hdr = some h := by rw [ht]; rfl
  obtain ⟨hhdr, huse, hfl⟩ := hH.held t h hh
  have hmemh : HasMem s h := (hI.okAt ht).1.2.2.1
  refine hI.assemble rfl hI.tree (hI.slots.of_reg (fun _ _ _ => rfl) fun h' m hR hm => ⟨?_, hm, rfl⟩) ?_
    ⟨hI.blocks.lt, hI.blocks.inj, fun h' hu => ?_⟩ (by simp [Pc.node]) (fun t' _ => ?_) trivial
  · refine hR.move rfl (fun hu => .inl ?_) fun hr => .inl ?_
    · by_cases he : h' = h
      · simp [he]
      · simpa [update_of_ne he] using hu
    · rw [ht] at hr
      cases hr
      exact update_self ..
  · refine hH.move rfl hH.nodup ?_ ?_ (by simp [Pc.hdr]) (by simp [Pc.hdr]) ?_ hH.range hH.frontier
    · intro h' hm
      have hne : h' ≠ h := fun e => hfl (e ▸ hm)
      simpa [update_of_ne hne] using hH.fl h' hm
    · intro h' hu
      by_cases he : h' = h
      · rwa [he]
      · simp only [update_of_ne he] at hu
        exact hH.inUse h' hu
    · intro t' ht' h' hh'
      have hne := hH.ne_of_held ht' hh hh'
      simpa [update_of_ne hne] using hH.held t' h' hh'
  · by_cases he : h' = h
    · subst he
      exact hmemh
    · simp only [update_of_ne he] at hu
      exact hI.blocks.inUse h' hu
  · exact (hI.ok t').of_hdr rfl rfl fun h _ => ⟨rfl, rfl, fun _ _ h => h⟩

/-- A slab is passed to `ps_slab_nsfree`. -/
theorem inv_nsfree (hI : Inv g tag s) (ht : s.pc t = .idle) {h : ℕ} (hu : s.inUse h = true) :
    Inv g tag ({ s with inUse := update s.inUse h false }.setPc t (.platFree h)) := by
  have hH := hI.headers
  have hfree : ∀ t', (s.pc t').hdr ≠ some h := fun t' hh => by
    have := (hH.held t' h hh).2.1
    rw [hu] at this
    cases this
  refine hI.assemble rfl hI.tree (hI.slots.of_reg (fun _ _ _ => rfl) fun h' m hR hm => ⟨?_, hm, rfl⟩) ?_
    ⟨hI.blocks.lt, hI.blocks.inj, fun h' hu' => ?_⟩ (by simp [Pc.node]) (fun t' _ => ?_)
    (hI.blocks.inUse h hu)
  · refine hR.move rfl (fun hu' => ?_) (by simp [ht, Pc.reg])
    by_cases he : h' = h
    · exact .inr (he ▸ rfl)
    · exact .inl (by simpa [update_of_ne he] using hu')
  · refine hH.move rfl hH.nodup ?_ ?_ ?_ ?_ ?_ hH.range hH.frontier
    · intro h' hm
      have hm' := hH.fl h' hm
      have hne : h' ≠ h := by
        rintro rfl
        rw [hu] at hm'
        cases hm'.2
      simpa [update_of_ne hne] using hm'
    · intro h' hu'
      by_cases he : h' = h
      · simp [he] at hu'
      · simp only [update_of_ne he] at hu'
        exact hH.inUse h' hu'
    · intro h' hh
      cases hh
      refine ⟨hH.inUse h hu, update_self .., fun hm => ?_⟩
      have := (hH.fl h hm).2
      rw [hu] at this
      cases this
    · intro h' t' _ hh
      cases hh
      exact hfree t'
    · intro t' _ h' hh
      have hne : h' ≠ h := fun e => hfree t' (e ▸ hh)
      simpa [update_of_ne hne] using hH.held t' h' hh
  · by_cases he : h' = h
    · simp [he] at hu'
    · simp only [update_of_ne he] at hu'
      exact hI.blocks.inUse h' hu'
  · exact (hI.ok t').of_hdr rfl rfl fun h _ => ⟨rfl, rfl, fun _ _ h => h⟩

/-- A slab is put on the freelist. -/
theorem inv_push (hI : Inv g tag s) {h : ℕ} (ht : s.pc t = .push h) :
    Inv g tag ({ s with fl := flAdd s.fl h }.setPc t .idle) := by
  have hH := hI.headers
  have hh : (s.pc t).hdr = some h := by rw [ht]; rfl
  obtain ⟨hhdr, huse, hfl⟩ := hH.held t h hh
  have hperm := flAdd_perm s.fl h
  refine hI.assemble rfl hI.tree (hI.slots.of_reg (fun _ _ _ => rfl) fun h' m hR hm => ⟨?_, hm, rfl⟩) ?_
    ⟨hI.blocks.lt, hI.blocks.inj, hI.blocks.inUse⟩ (by simp [Pc.node]) (fun t' _ => ?_) trivial
  · exact hR.move rfl .inl (by simp [ht, Pc.reg])
  · refine hH.move rfl (hperm.nodup_iff.mpr (List.nodup_cons.mpr ⟨hfl, hH.nodup⟩)) ?_ hH.inUse
      (by simp [Pc.hdr]) (by simp [Pc.hdr]) ?_ hH.range hH.frontier
    · intro h' hm
      rcases List.mem_cons.mp (hperm.mem_iff.mp hm) with rfl | hm
      · exact ⟨hhdr, huse⟩
      · exact hH.fl h' hm
    · intro t' ht' h' hh'
      obtain ⟨h₁, h₂, h₃⟩ := hH.held t' h' hh'
      refine ⟨h₁, h₂, fun hm => ?_⟩
      rcases List.mem_cons.mp (hperm.mem_iff.mp hm) with he | hm
      · exact hH.ne_of_held ht' hh hh' he
      · exact h₃ hm
  · exact (hI.ok t').of_hdr rfl rfl fun h _ => ⟨rfl, rfl, fun _ _ h => h⟩

end HeaderSteps

/-! ## Steps that change the slab memory -/

section BlockSteps

variable {τ : Type} [DecidableEq τ] {g : NsGeom} {tag : Tag} {s : St τ} {t : τ}

/-- Memory is allocated for a slab. -/
theorem inv_alloc (hI : Inv g tag s) {h : ℕ} {new : Option ℕ} (ht : s.pc t = .memory h new)
    (hnone : s.memory h = none) :
    Inv g tag ({ s with
      memory := update s.memory h (some s.blocks)
      live := update s.live s.blocks true
      blocks := s.blocks + 1 }.setPc t (lookupStart s (.absent h new) (s.start h) g.depth)) := by
  have hH := hI.headers
  have hB := hI.blocks
  have hh : (s.pc t).hdr = some h := by rw [ht]; rfl
  have hne : ∀ {h' m}, s.memory h' = some m → h' ≠ h := by
    rintro h' m hm rfl
    rw [hm] at hnone
    cases hnone
  have hnew : NewOk s h new := hI.okAt ht
  have hdepth : g.depth = g.inner + 2 := g.depth_eq'
  refine hI.assemble rfl hI.tree (hI.slots.of_reg (fun _ _ _ => rfl) fun h' m hR hm =>
      ⟨hR.move rfl .inl (by simp [ht, Pc.reg]), (update_of_ne (hne hm) ..).trans hm, rfl⟩)
    (hH.keep rfl rfl rfl rfl rfl rfl hH.frontier fun h' hh' => by cases hh'; exact hh)
    ⟨fun h' m hm => ?_, fun h' h'' m hm hm' => ?_, fun h' hu => ?_⟩ (by simp [Pc.node, lookupStart])
    (fun t' ht' => ?_) ?_
  · by_cases he : h' = h
    · subst he
      simp only [update_self, Option.some.injEq] at hm
      exact hm ▸ Nat.lt_succ_self _
    · simp only [update_of_ne he] at hm
      exact Nat.lt_succ_of_lt (hB.lt h' m hm)
  · have hfresh : ∀ {h'}, s.memory h' ≠ some s.blocks := fun hm => (hB.lt _ _ hm).false
    by_cases he : h' = h <;> by_cases he' : h'' = h
    · rw [he, he']
    · simp only [he, update_self, update_of_ne he', Option.some.injEq] at hm hm'
      exact absurd (hm ▸ hm') hfresh
    · simp only [he', update_self, update_of_ne he, Option.some.injEq] at hm hm'
      exact absurd (hm' ▸ hm) hfresh
    · simp only [update_of_ne he, update_of_ne he'] at hm hm'
      exact hB.inj h' h'' m hm hm'
  · obtain ⟨m, hm, hl⟩ := hB.inUse h' hu
    refine ⟨m, (update_of_ne (hne hm) ..).trans hm, ?_⟩
    have hlt := hB.lt h' m hm
    simpa [update_of_ne hlt.ne] using hl
  · refine (hI.ok t').of_hdr rfl rfl fun h' hh' => ⟨rfl,
      update_of_ne (hH.ne_of_held ht' hh hh') .., fun m hm hl => ?_⟩
    have hlt := hB.lt h' m hm
    simpa [update_of_ne hlt.ne] using hl
  · refine ⟨⟨rfl, rfl, ⟨s.blocks, by simp, by simp⟩, hnew⟩, ?_, rfl⟩
    omega

/-- A slab's memory is given back, by `ps_slab_nsalloc` or by `ps_slab_nsfree`. -/
theorem inv_free (hI : Inv g tag s) {h m : ℕ} {p : Pc} (hh : (s.pc t).hdr = some h)
    (hm : s.memory h = some m) (hhdr : p.hdr = some h) (hnode : p.node = none)
    (hreg : ∀ h, (s.pc t).reg = some h → p.reg = some h)
    (hok : PcOk g tag { s with live := update s.live m false } p) :
    Inv g tag ({ s with live := update s.live m false }.setPc t p) := by
  have hH := hI.headers
  have hB := hI.blocks
  have hlive : ∀ {h' m'}, h' ≠ h → s.memory h' = some m' → s.live m' = true →
      update s.live m false m' = true := by
    intro h' m' hne hm' hl
    have hmne : m' ≠ m := by
      rintro rfl
      exact hne (hB.inj h' h m' hm' hm)
    simpa [update_of_ne hmne] using hl
  refine hI.assemble rfl hI.tree (hI.slots.of_reg (fun _ _ _ => rfl) fun h' m' hR hm' =>
      ⟨hR.move rfl .inl fun hr => .inr (hreg h' hr), hm', rfl⟩)
    (hH.keep rfl rfl rfl rfl rfl rfl hH.frontier fun h' hh' => by
      rw [hhdr] at hh'; cases hh'; exact hh)
    ⟨hB.lt, hB.inj, fun h' hu => ?_⟩ (by simp [hnode]) (fun t' ht' => ?_) hok
  · obtain ⟨m', hm', hl⟩ := hB.inUse h' hu
    refine ⟨m', hm', hlive ?_ hm' hl⟩
    rintro rfl
    have := (hH.held t h' hh).2.1
    rw [hu] at this
    cases this
  · exact (hI.ok t').of_hdr rfl rfl fun h' hh' => ⟨rfl, rfl, fun m' hm' hl =>
      hlive (hH.ne_of_held ht' hh hh') hm' hl⟩

/-- `ps_slab_nsfree` forgets the memory of its slab. -/
theorem inv_forget (hI : Inv g tag s) {h : ℕ} (ht : s.pc t = .forget h) :
    Inv g tag ({ s with memory := update s.memory h none }.setPc t (.push h)) := by
  have hH := hI.headers
  have hB := hI.blocks
  have hh : (s.pc t).hdr = some h := by rw [ht]; rfl
  have hsub : ∀ {h' m}, update s.memory h none h' = some m → s.memory h' = some m ∧ h' ≠ h := by
    intro h' m hm
    by_cases he : h' = h
    · simp [he] at hm
    · rw [update_of_ne he] at hm
      exact ⟨hm, he⟩
  have hreg : ∀ {h'}, Reg s h' → h' ≠ h := by
    rintro h' hR rfl
    exact hH.not_reg hh (by rw [ht]; rfl) hR
  refine hI.assemble rfl hI.tree (hI.slots.of_reg (fun _ _ _ => rfl) fun h' m hR hm =>
      ⟨hR.move rfl .inl (by simp [ht, Pc.reg]), (update_of_ne (hreg hR) ..).trans hm, rfl⟩)
    (hH.keep rfl rfl rfl rfl rfl rfl hH.frontier fun h' hh' => by cases hh'; exact hh)
    ⟨fun h' m hm => hB.lt h' m (hsub hm).1,
      fun h' h'' m hm hm' => hB.inj h' h'' m (hsub hm).1 (hsub hm').1, fun h' hu => ?_⟩
    (by simp [Pc.node]) (fun t' ht' => ?_) trivial
  · obtain ⟨m, hm, hl⟩ := hB.inUse h' hu
    exact ⟨m, (update_of_ne (hreg (.inl hu)) ..).trans hm, hl⟩
  · exact (hI.ok t').of_hdr rfl rfl fun h' hh' =>
      ⟨rfl, update_of_ne (hH.ne_of_held ht' hh hh') .., fun _ _ hl => hl⟩

end BlockSteps

end Parsec.Ns
