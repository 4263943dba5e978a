import Parsec.Ns.Machine

/-!
# The invariant of slab registration

What holds in every reachable state of the machine, whatever the interleaving. It comes in groups:

* `Tree` — a labelling `tag` of trie nodes by their path: what an internal entry leads to is
  labelled with the path extended by that entry. Labels are never taken back, so that a thread on
  its way down stays where it was even if an entry above it is overwritten.
* `Slots` — the memory in the last internal entry belongs to a slab that is registered: returned, or
  on its way between the store of its entry and the clearing of it.
* `Headers` — every header is in one place: the freelist, in use, or held by one thread.
* `Blocks` — a block of slab memory belongs to one header.
* `PcOk` — what a thread at a program point knows.

`Inv.step` shows that every step keeps it.
-/

namespace Parsec.Ns

open Function Ertrie

/-! ## Program points -/

/-- The header a caller of a lookup holds. -/
def Caller.hdr : Caller → Option ℕ
  | .user => none
  | .absent h _ | .present h _ | .unlink h | .gone h => some h

/-- The header a caller of a lookup holds that is registered. -/
def Caller.reg : Caller → Option ℕ
  | .present h _ | .unlink h => some h
  | .user | .absent _ _ | .gone _ => none

namespace Pc

/-- The header a thread holds. -/
def hdr : Pc → Option ℕ
  | .idle | .pop | .faa | .header _ | .reset _ => none
  | .test k _ _ _ _ | .hop k _ _ _ _ | .resolve k _ _ _ => k.hdr
  | .memory h _ | .expWalk h _ _ _ | .expTest h _ _ _ | .expAlloc h _ _ _ | .expInit h _ _ _ _
  | .expSet h _ _ _ _ | .freeMem h _ | .freeHeader h _ | .platFree h | .check h _ | .clear h _
  | .forget h | .push h => some h

/-- The header a thread holds that is registered. -/
def reg : Pc → Option ℕ
  | .test k _ _ _ _ | .hop k _ _ _ _ | .resolve k _ _ _ => k.reg
  | .platFree h | .check h _ | .clear h _ => some h
  | _ => none

/-- The internal node a thread has allocated and not linked. -/
def node : Pc → Option ℕ
  | .expInit _ _ _ _ (.cell b _) | .expSet _ _ _ _ (.cell b _) => some b
  | _ => none

/-- A registered header is held. -/
theorem hdr_of_reg {p : Pc} {h : ℕ} (hr : p.reg = some h) : p.hdr = some h := by
  cases p with
  | test k _ _ _ _ | hop k _ _ _ _ | resolve k _ _ _ =>
      cases k with
      | present _ _ | unlink _ => exact hr
      | user | absent _ _ | gone _ => cases hr
  | platFree _ | check _ _ | clear _ _ => exact hr
  | _ => cases hr

end Pc

/-! ## The invariant -/

/-- Labels of trie nodes. -/
abbrev Tag := ℕ → Option (List ℕ)

section Defs

variable {τ : Type} (g : NsGeom) (tag : Tag) (s : St τ)

/-- The bytes of an internal node. -/
def internBytes : ℕ := 2 ^ g.order * psWord g.arch

/-- A lookup of `id` that has gone `i` levels down is at entry `n`. -/
def At (root id : ℕ) : ℕ → Addr → Prop
  | 0, n => n = .vect root
  | i + 1, n => ∃ b, tag b = some (path g.consts id i) ∧
      n = .cell b (hop g.consts id i * psWord g.arch)

/-- An entry that is not NULL. -/
def Filled (m : Mem) (n : Addr) : Prop := ∃ a, m.load (psWord g.arch) n = some (some a)

/-- The labelled nodes. -/
structure Tree (m : Mem) (root : ℕ) : Prop where
  fit : internBytes g < 2 ^ 31
  root : tag root = some []
  lt : ∀ b p, tag b = some p → b < m.brk
  size : ∀ b p, tag b = some p → m.size b = internBytes g
  length : ∀ b p, tag b = some p → p.length ≤ g.inner
  child : ∀ b p k a, tag b = some p → p.length < g.inner → k < 2 ^ g.order →
    m.word b (k * psWord g.arch) = some a → ∃ b', a = .cell b' 0 ∧ tag b' = some (p ++ [k])

/-- A slab that is registered, or about to be, or was until its entry is cleared. -/
def Reg (h : ℕ) : Prop := s.inUse h = true ∨ ∃ t, (s.pc t).reg = some h

/-- A last internal entry that leads to a block. -/
structure Slot (b : ℕ) (p : List ℕ) (k m : ℕ) : Prop where
  tag : tag b = some p
  length : p.length = g.inner
  lt : k < 2 ^ g.order
  word : s.mem.word b (k * psWord g.arch) = some (.ext m 0)

/-- The last internal entries. -/
structure Slots : Prop where
  ext : ∀ b p k a, tag b = some p → p.length = g.inner → k < 2 ^ g.order →
    s.mem.word b (k * psWord g.arch) = some a → ∃ m, a = .ext m 0
  reg : ∀ b p k m, Slot g tag s b p k m →
    ∃ h, Reg s h ∧ s.memory h = some m ∧ slotPath g (s.start h) = p ++ [k]
  inj : ∀ b p k b' p' k' m, Slot g tag s b p k m → Slot g tag s b' p' k' m → b = b' ∧ k = k'

/-- The headers. -/
structure Headers : Prop where
  nodup : s.fl.Nodup
  fl : ∀ h ∈ s.fl, s.header h = true ∧ s.inUse h = false
  inUse : ∀ h, s.inUse h = true → s.header h = true
  held : ∀ t h, (s.pc t).hdr = some h → s.header h = true ∧ s.inUse h = false ∧ h ∉ s.fl
  inj : ∀ t t' h, (s.pc t).hdr = some h → (s.pc t').hdr = some h → t = t'
  dvd : ∀ h, s.header h = true → g.range ∣ s.start h
  lt : ∀ h, s.header h = true → s.start h < g.descMax
  end_ : ∀ h, s.header h = true → s.end_ h = s.start h + g.range
  frontier : g.range ∣ s.frontier

/-- The blocks of slab memory. -/
structure Blocks : Prop where
  lt : ∀ h m, s.memory h = some m → m < s.blocks
  inj : ∀ h h' m, s.memory h = some m → s.memory h' = some m → h = h'
  inUse : ∀ h, s.inUse h = true → ∃ m, s.memory h = some m ∧ s.live m = true

/-- A thread holds a header whose memory is allocated. -/
def HasMem (h : ℕ) : Prop := ∃ m, s.memory h = some m ∧ s.live m = true

/-- The id taken from the frontier is where the slab starts. -/
def NewOk (h : ℕ) (new : Option ℕ) : Prop := ∀ id, new = some id → s.start h = id

/-- What the caller of a lookup asks for. -/
def CallerOk : Caller → ℕ → ℕ → Prop
  | .user, id, limit => limit = g.depth ∧ id < g.descMax
  | .absent h new, id, limit | .present h new, id, limit =>
      limit = g.depth ∧ id = s.start h ∧ HasMem s h ∧ NewOk s h new
  | .unlink h, id, limit => limit = g.depth - 1 ∧ id = s.start h ∧ s.memory h ≠ none
  | .gone h, id, limit => limit = g.depth ∧ id = s.start h

/-- The local `new` of `__ert_expand`: an internal node that nothing leads to, or the slab's
memory. -/
def NodeNew (h i : ℕ) (node : Addr) : Prop :=
  if i < g.inner then
    ∃ b, node = .cell b 0 ∧ tag b = none ∧ b < s.mem.brk ∧ s.mem.size b = internBytes g
  else ∃ m, s.memory h = some m ∧ node = .ext m 0

/-- What a thread at a program point knows. -/
def PcOk : Pc → Prop
  | .idle | .pop | .faa | .forget _ | .push _ => True
  | .header id => g.range ∣ id ∧ id < g.descMax
  | .reset id => g.range ∣ id
  | .memory h new | .freeHeader h new => NewOk s h new
  | .freeMem h new => HasMem s h ∧ NewOk s h new
  | .test k id limit i n => CallerOk g s k id limit ∧ i < limit ∧ At g tag s.root id i n
  | .hop k id limit i n => CallerOk g s k id limit ∧ i < limit ∧ At g tag s.root id i n ∧
      (i ≤ g.inner → Filled g s.mem n)
  | .resolve k id limit n => CallerOk g s k id limit ∧
      (limit = g.depth → isNull n = true ∨ ∃ m off, n = .ext m off) ∧
      (limit = g.depth - 1 → At g tag s.root id (g.inner + 1) n)
  | .expWalk h new i n => HasMem s h ∧ NewOk s h new ∧ i < g.inner + 1 ∧
      At g tag s.root (s.start h) i n ∧ Filled g s.mem n
  | .expTest h new i n | .expAlloc h new i n =>
      HasMem s h ∧ NewOk s h new ∧ i < g.inner + 1 ∧ At g tag s.root (s.start h) (i + 1) n
  | .expInit h new i n node =>
      HasMem s h ∧ NewOk s h new ∧ i < g.inner + 1 ∧ At g tag s.root (s.start h) (i + 1) n ∧
        NodeNew g tag s h i node
  | .expSet h new i n node =>
      HasMem s h ∧ NewOk s h new ∧ i < g.inner + 1 ∧ At g tag s.root (s.start h) (i + 1) n ∧
        NodeNew g tag s h i node ∧ ∀ b k, node = .cell b 0 → k < 2 ^ g.order →
          s.mem.word b (k * psWord g.arch) = none
  | .platFree h => HasMem s h
  | .check h n => s.memory h ≠ none ∧ At g tag s.root (s.start h) (g.inner + 1) n
  | .clear h n => At g tag s.root (s.start h) (g.inner + 1) n ∧
      ∀ b p k m, s.memory h = some m → Slot g tag s b p k m → n = .cell b (k * psWord g.arch)

/-- **The invariant.** -/
structure Inv : Prop where
  tree : Tree g tag s.mem s.root
  slots : Slots g tag s
  headers : Headers g s
  blocks : Blocks s
  nodes : ∀ t t' b, (s.pc t).node = some b → (s.pc t').node = some b → t = t'
  ok : ∀ t, PcOk g tag s (s.pc t)

end Defs

/-! ## What other threads may do -/

section Mono

variable {τ : Type} {g : NsGeom} {tag tag' : Tag} {s s' : St τ}

/-- A lookup stays where it is when nodes are added. -/
theorem At.mono (htag : ∀ b q, tag b = some q → tag' b = some q) {root id i : ℕ} {n : Addr}
    (h : At g tag root id i n) : At g tag' root id i n := by
  cases i with
  | zero => exact h
  | succ i =>
      obtain ⟨b, hb, rfl⟩ := h
      exact ⟨b, htag b _ hb, rfl⟩

/-- The fields of a header that its holder relies on are as they were. -/
structure SameHdr (s s' : St τ) (h : ℕ) : Prop where
  start : s'.start h = s.start h
  memory : s'.memory h = s.memory h
  live : ∀ m, s.memory h = some m → s.live m = true → s'.live m = true

/-- A header is the same where nothing changes. -/
theorem SameHdr.refl (s : St τ) (h : ℕ) : SameHdr s s h := ⟨rfl, rfl, fun _ _ h => h⟩

/-- A header that has memory has it while the header is the same. -/
theorem HasMem.mono {h : ℕ} (hs : SameHdr s s' h) (hm : HasMem s h) : HasMem s' h := by
  obtain ⟨m, hm, hl⟩ := hm
  exact ⟨m, hs.memory.trans hm, hs.live m hm hl⟩

/-- A new header keeps its id while it is the same. -/
theorem NewOk.mono {h : ℕ} {new : Option ℕ} (hs : SameHdr s s' h) (hn : NewOk s h new) :
    NewOk s' h new := fun id hid => hs.start.trans (hn id hid)

/-- What a lookup is for stays while its header is the same. -/
theorem CallerOk.mono {k : Caller} {id limit : ℕ} (hs : ∀ h, k.hdr = some h → SameHdr s s' h)
    (hk : CallerOk g s k id limit) : CallerOk g s' k id limit := by
  cases k with
  | user => exact hk
  | absent h new | present h new =>
      have hh := hs h rfl
      exact ⟨hk.1, hk.2.1.trans hh.start.symm, hk.2.2.1.mono hh, hk.2.2.2.mono hh⟩
  | unlink h =>
      have hh := hs h rfl
      exact ⟨hk.1, hk.2.1.trans hh.start.symm, hh.memory ▸ hk.2.2⟩
  | gone h => exact ⟨hk.1, hk.2.trans (hs h rfl).start.symm⟩

/-- An entry stays filled where the words of labelled nodes are as they were. -/
theorem Filled.mono_at {m m' : Mem} {root id i : ℕ} {n : Addr}
    (hkept : ∀ b q, tag b = some q → m'.size b = m.size b ∧ m'.word b = m.word b)
    (hat : At g tag root id i n) (hf : Filled g m n) : Filled g m' n := by
  cases i with
  | zero =>
      subst hat
      exact ⟨_, rfl⟩
  | succ i =>
      obtain ⟨b, hb, rfl⟩ := hat
      obtain ⟨a, ha⟩ := hf
      obtain ⟨hsize, hword⟩ := hkept b _ hb
      exact ⟨a, by rw [← ha, Mem.load, Mem.load, hsize, hword]⟩

/-- An entry above the last internal nodes stays filled where the labelled nodes above those are
not cleared. -/
theorem Filled.mono {m m' : Mem} {root id i : ℕ} {n : Addr}
    (hsize : ∀ b q, tag b = some q → m'.size b = m.size b)
    (hword : ∀ b q off, tag b = some q → q.length < g.inner → m.word b off ≠ none →
      m'.word b off ≠ none)
    (hat : At g tag root id i n) (hi : i ≤ g.inner) (hf : Filled g m n) : Filled g m' n := by
  cases i with
  | zero =>
      subst hat
      exact ⟨_, rfl⟩
  | succ i =>
      obtain ⟨b, hb, rfl⟩ := hat
      obtain ⟨a, ha⟩ := hf
      simp only [Mem.load, Option.ite_none_right_eq_some, Option.some.injEq] at ha
      obtain ⟨hle, hw⟩ := ha
      have hsome := hword b _ _ hb (by rw [length_path]; exact hi) (by rw [hw]; exact nofun)
      obtain ⟨a', ha'⟩ := Option.ne_none_iff_exists'.mp hsome
      exact ⟨a', by rw [load_of_le (by rwa [hsize b _ hb]), ha']⟩

/-- An entry stays filled where an address is stored. -/
theorem Filled.set {m : Mem} {c off : ℕ} {a n : Addr} (hf : Filled g m n) :
    Filled g (m.set c off (some a)) n := by
  obtain ⟨a', ha'⟩ := hf
  cases n with
  | vect v => exact ⟨_, rfl⟩
  | ext _ _ | null _ => cases ha'
  | cell b off' =>
      simp only [Mem.load, Option.ite_none_right_eq_some, Option.some.injEq] at ha'
      obtain ⟨hle, hw⟩ := ha'
      have hload := load_of_le (m := m.set c off (some a)) hle
      by_cases hb : b = c
      · subst hb
        by_cases hoff : off' = off
        · subst hoff
          exact ⟨a, by rw [hload, Mem.set_word_self]⟩
        · exact ⟨a', by rw [hload, Mem.set_word_of_off_ne hoff, hw]⟩
      · exact ⟨a', by rw [hload, Mem.set_word_of_ne hb, hw]⟩

/-- A store clears no entry but its own, and that only with NULL. -/
theorem Filled.store {m m' : Mem} {n n₀ : Addr} {p : Ptr} (hf : Filled g m n)
    (h : m.store (psWord g.arch) n₀ p = some m') : Filled g m' n ∨ n = n₀ ∧ p = none := by
  cases n₀ with
  | vect _ | ext _ _ | null _ => cases h
  | cell c off =>
      simp only [Mem.store, Option.ite_none_right_eq_some, Option.some.injEq] at h
      obtain ⟨-, rfl⟩ := h
      cases p with
      | some a => exact .inl hf.set
      | none =>
          by_cases hn : n = .cell c off
          · exact .inr ⟨hn, rfl⟩
          · refine .inl ?_
            obtain ⟨a', ha'⟩ := hf
            cases n with
            | vect v => exact ⟨_, rfl⟩
            | ext _ _ | null _ => cases ha'
            | cell b off' =>
                refine ⟨a', ?_⟩
                have hw : (m.set c off none).word b off' = m.word b off' := by
                  by_cases hb : b = c
                  · subst hb
                    exact Mem.set_word_of_off_ne fun he => hn (he ▸ rfl)
                  · rw [Mem.set_word_of_ne hb]
                rw [← ha', Mem.load, Mem.load, hw, Mem.set_size]

/-- An entry is filled by what is stored there. -/
theorem filled_set {m : Mem} {c off : ℕ} {a : Addr} (hle : off + psWord g.arch ≤ m.size c) :
    Filled g (m.set c off (some a)) (.cell c off) :=
  ⟨a, by rw [load_of_le (m := m.set c off (some a)) hle, Mem.set_word_self]⟩

/-- What a thread knows, it knows after the steps of others: labels stay, entries above the last
internal nodes stay filled, and nobody else writes the header it holds or the node it has not
linked. -/
theorem PcOk.mono {p : Pc} (hok : PcOk g tag s p) (hroot : s'.root = s.root)
    (htag : ∀ b q, tag b = some q → tag' b = some q)
    (hfill : ∀ id i n, At g tag s.root id i n → i ≤ g.inner → Filled g s.mem n →
      Filled g s'.mem n)
    (hhdr : ∀ h, p.hdr = some h → SameHdr s s' h)
    (hnode : ∀ b, p.node = some b → tag b = none → b < s.mem.brk →
      tag' b = none ∧ b < s'.mem.brk ∧ s'.mem.size b = s.mem.size b ∧ s'.mem.word b = s.mem.word b)
    (hslot : ∀ h n b q k m, p = .clear h n → s.memory h = some m → Slot g tag' s' b q k m →
      Slot g tag s b q k m) : PcOk g tag' s' p := by
  have hNode : ∀ {h i node} , (∀ b, node = .cell b 0 → p.node = some b) → p.hdr = some h →
      NodeNew g tag s h i node → NodeNew g tag' s' h i node := by
    intro h i node hn hp hnew
    unfold NodeNew at hnew ⊢
    split
    · rename_i hi
      rw [if_pos hi] at hnew
      obtain ⟨b, rfl, htg, hlt, hsz⟩ := hnew
      obtain ⟨htg', hlt', hsz', -⟩ := hnode b (hn b rfl) htg hlt
      exact ⟨b, rfl, htg', hlt', hsz'.trans hsz⟩
    · rename_i hi
      rw [if_neg hi] at hnew
      obtain ⟨m, hm, rfl⟩ := hnew
      exact ⟨m, (hhdr h hp).memory.trans hm, rfl⟩
  cases p with
  | idle | pop | faa | forget _ | push _ => trivial
  | header id | reset id => exact hok
  | memory h new | freeHeader h new => exact NewOk.mono (hhdr h rfl) hok
  | freeMem h new => exact ⟨hok.1.mono (hhdr h rfl), hok.2.mono (hhdr h rfl)⟩
  | test k id limit i n =>
      refine ⟨hok.1.mono hhdr, hok.2.1, ?_⟩
      rw [hroot]
      exact hok.2.2.mono htag
  | hop k id limit i n =>
      refine ⟨hok.1.mono hhdr, hok.2.1, ?_, fun hi => hfill id i n hok.2.2.1 hi (hok.2.2.2 hi)⟩
      rw [hroot]
      exact hok.2.2.1.mono htag
  | resolve k id limit n =>
      refine ⟨hok.1.mono hhdr, hok.2.1, fun hl => ?_⟩
      rw [hroot]
      exact (hok.2.2 hl).mono htag
  | expWalk h new i n =>
      have hh := hhdr h rfl
      obtain ⟨hmem, hnew, hlt, hat, hf⟩ := hok
      refine ⟨hmem.mono hh, hnew.mono hh, hlt, ?_, hfill _ i n hat (by omega) hf⟩
      rw [hroot, hh.start]
      exact hat.mono htag
  | expTest h new i n | expAlloc h new i n =>
      have hh := hhdr h rfl
      refine ⟨hok.1.mono hh, hok.2.1.mono hh, hok.2.2.1, ?_⟩
      rw [hroot, hh.start]
      exact hok.2.2.2.mono htag
  | expInit h new i n node =>
      have hh := hhdr h rfl
      refine ⟨hok.1.mono hh, hok.2.1.mono hh, hok.2.2.1, ?_,
        hNode (by rintro b rfl; rfl) rfl hok.2.2.2.2⟩
      rw [hroot, hh.start]
      exact hok.2.2.2.1.mono htag
  | expSet h new i n node =>
      have hh := hhdr h rfl
      refine ⟨hok.1.mono hh, hok.2.1.mono hh, hok.2.2.1, ?_,
        hNode (by rintro b rfl; rfl) rfl hok.2.2.2.2.1, fun b k hb hk => ?_⟩
      · rw [hroot, hh.start]
        exact hok.2.2.2.1.mono htag
      · have hnew := hok.2.2.2.2.1
        unfold NodeNew at hnew
        subst hb
        split at hnew
        · obtain ⟨b', hb', htg, hlt, -⟩ := hnew
          cases hb'
          rw [(hnode b rfl htg hlt).2.2.2]
          exact hok.2.2.2.2.2 b k rfl hk
        · obtain ⟨m, -, hm⟩ := hnew
          cases hm
  | platFree h => exact HasMem.mono (hhdr h rfl) hok
  | check h n =>
      have hh := hhdr h rfl
      refine ⟨hh.memory ▸ hok.1, ?_⟩
      rw [hroot, hh.start]
      exact hok.2.mono htag
  | clear h n =>
      have hh := hhdr h rfl
      refine ⟨?_, fun b q k m hm hS => ?_⟩
      · rw [hroot, hh.start]
        exact hok.1.mono htag
      · rw [hh.memory] at hm
        exact hok.2 b q k m hm (hslot h n b q k m rfl hm hS)

end Mono

end Parsec.Ns
