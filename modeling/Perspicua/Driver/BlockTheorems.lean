import Perspicua.Driver.Block

/-!
# The block cache and the device

The cache is a partial map from blocks to contents (`Cache.Holds`), and its functions are
described by what they do to that map. A cached block that differs from the device is one
that some task has written and has not been through the cache for; this and what the tasks
know about the device make the invariant of the machine, as long as writes to a block do not
overtake each other or a fetch of the block.
-/

namespace Perspicua.Driver.Block

open Perspicua.Lib

/-! ## The cache as a map -/

namespace Cache

variable {β : Type} {c c' : Cache β} {e d n : ℕ} {b : Contents β}

/-- The block is cached with these contents. -/
def Holds (c : Cache β) (d n : ℕ) (b : Contents β) : Prop :=
  ∃ e ∈ c.lru, (c.entries e).dev = d ∧ (c.entries e).blockNr = n ∧ (c.entries e).data = b

/-- The chains are the LRU list sorted by hash, with one entry for a block. -/
structure Ok (c : Cache β) : Prop where
  mem : ∀ h e, e ∈ c.hashTable h ↔
    e ∈ c.lru ∧ blockHash (c.entries e).dev (c.entries e).blockNr = h
  nodup : c.lru.Nodup
  chains : ∀ h, (c.hashTable h).Nodup
  fresh : ∀ e ∈ c.lru, e < c.count
  unique : ∀ e ∈ c.lru, ∀ e' ∈ c.lru, (c.entries e).dev = (c.entries e').dev →
    (c.entries e).blockNr = (c.entries e').blockNr → e = e'
  clean : ∀ e, (c.entries e).dirty = false

theorem mem_touch (he : e ∈ c.lru) (x : ℕ) : x ∈ (c.touch e).lru ↔ x ∈ c.lru := by
  show x ∈ e :: c.lru.erase e ↔ x ∈ c.lru
  exact (List.perm_cons_erase he).symm.mem_iff

theorem Ok.touch (h : c.Ok) (he : e ∈ c.lru) : (c.touch e).Ok where
  mem k x := by
    rw [mem_touch he]
    exact h.mem k x
  nodup := (List.perm_cons_erase he).nodup_iff.mp h.nodup
  chains := h.chains
  fresh x hx := h.fresh x ((mem_touch he x).mp hx)
  unique x hx y hy := h.unique x ((mem_touch he x).mp hx) y ((mem_touch he y).mp hy)
  clean := h.clean

/-- A lookup that finds an entry moves it to the front of the LRU list. -/
theorem Ok.lookup_some (h : c.Ok) (hl : c.cacheLookup d n = (some e, c')) :
    e ∈ c.lru ∧ (c.entries e).dev = d ∧ (c.entries e).blockNr = n ∧ c' = c.touch e := by
  unfold cacheLookup at hl
  split at hl
  · rename_i x hx
    cases hl
    have hblock := List.find?_some hx
    simp only [decide_eq_true_eq] at hblock
    have hmem := (h.mem _ _).mp (List.mem_of_find?_eq_some hx)
    exact ⟨hmem.1, hblock.1, hblock.2, rfl⟩
  · cases hl

/-- A lookup that finds none leaves the cache alone, and the block is not cached. -/
theorem Ok.lookup_none (h : c.Ok) (hl : c.cacheLookup d n = (none, c')) :
    c' = c ∧ ∀ x ∈ c.lru, (c.entries x).dev = d → (c.entries x).blockNr ≠ n := by
  unfold cacheLookup at hl
  split at hl
  · cases hl
  · rename_i hnone
    cases hl
    refine ⟨rfl, ?_⟩
    intro x hx hd hn
    have hchain : x ∈ c.hashTable (blockHash d n) := by
      rw [h.mem, hd, hn]
      exact ⟨hx, rfl⟩
    have := List.find?_eq_none.mp hnone x hchain
    simp [hd, hn] at this

theorem mem_unlink (h : c.Ok) (x : ℕ) : x ∈ (c.unlink e).lru ↔ x ≠ e ∧ x ∈ c.lru :=
  h.nodup.mem_erase_iff

theorem Ok.unlink (h : c.Ok) : (c.unlink e).Ok where
  mem k x := by
    rw [mem_unlink h]
    show x ∈ Function.update c.hashTable _ _ k ↔ _
    rw [Function.update_apply]
    split
    · rename_i hk
      rw [(h.chains _).mem_erase_iff, h.mem, hk]
      exact and_assoc.symm
    · rename_i hk
      rw [h.mem]
      constructor
      · rintro ⟨hx, hxk⟩
        refine ⟨⟨?_, hx⟩, hxk⟩
        rintro rfl
        exact hk hxk.symm
      · rintro ⟨⟨-, hx⟩, hxk⟩
        exact ⟨hx, hxk⟩
  nodup := h.nodup.erase e
  chains k := by
    show (Function.update c.hashTable _ _ k).Nodup
    rw [Function.update_apply]
    split
    · exact (h.chains _).erase e
    · exact h.chains k
  fresh x hx := h.fresh x ((mem_unlink h x).mp hx).2
  unique x hx y hy := h.unique x ((mem_unlink h x).mp hx).2 y ((mem_unlink h y).mp hy).2
  clean := h.clean

theorem entries_link (x : ℕ) : (c.link e d n b).entries x =
    if x = e then ⟨d, n, b, false⟩ else c.entries x :=
  Function.update_apply ..

/-- Linking an unused entry for a block that is not cached. -/
theorem Ok.link (h : c.Ok) (he : e ∉ c.lru) (hlt : e < c.count)
    (hnew : ∀ x ∈ c.lru, (c.entries x).dev = d → (c.entries x).blockNr ≠ n) :
    (c.link e d n b).Ok where
  mem k x := by
    show x ∈ Function.update c.hashTable _ _ k ↔ x ∈ e :: c.lru ∧ _
    rw [entries_link, Function.update_apply]
    by_cases hx : x = e
    · subst hx
      have hout : ∀ j, x ∉ c.hashTable j := fun j hj => he ((h.mem j x).mp hj).1
      split
      · rename_i hk
        simp [hk]
      · rename_i hk
        simp [hout, Ne.symm hk]
    · split
      · rename_i hk
        simp [hx, h.mem, hk]
      · simp [hx, h.mem]
  nodup := List.nodup_cons.mpr ⟨he, h.nodup⟩
  chains k := by
    show (Function.update c.hashTable _ _ k).Nodup
    rw [Function.update_apply]
    split
    · exact List.nodup_cons.mpr ⟨fun hj => he ((h.mem _ e).mp hj).1, h.chains _⟩
    · exact h.chains k
  fresh x hx := by
    rcases List.mem_cons.mp hx with rfl | hx
    · exact hlt
    · exact h.fresh x hx
  unique x hx y hy := by
    have hne : ∀ z ∈ c.lru, z ≠ e := by
      intro z hz hze
      exact he (hze ▸ hz)
    rw [entries_link, entries_link]
    rcases List.mem_cons.mp hx with rfl | hx
    · rcases List.mem_cons.mp hy with rfl | hy
      · intro _ _
        rfl
      · rw [if_pos rfl, if_neg (hne y hy)]
        intro hd hn
        exact absurd hn.symm (hnew y hy hd.symm)
    · rw [if_neg (hne x hx)]
      rcases List.mem_cons.mp hy with hye | hy
      · rw [if_pos hye]
        intro hd hn
        exact absurd hn (hnew x hx hd)
      · rw [if_neg (hne y hy)]
        exact h.unique x hx y hy
  clean x := by
    rw [entries_link]
    split
    · rfl
    · exact h.clean x

theorem Ok.setData (h : c.Ok) : (c.setData e b).Ok := by
  have hentries : ∀ x, ((c.setData e b).entries x).dev = (c.entries x).dev ∧
      ((c.setData e b).entries x).blockNr = (c.entries x).blockNr ∧
      ((c.setData e b).entries x).dirty = (c.entries x).dirty := by
    intro x
    show (Function.update c.entries e _ x).dev = _ ∧ (Function.update c.entries e _ x).blockNr = _ ∧
      (Function.update c.entries e _ x).dirty = _
    rw [Function.update_apply]
    split
    · rename_i hx
      rw [hx]
      exact ⟨rfl, rfl, rfl⟩
    · exact ⟨rfl, rfl, rfl⟩
  refine ⟨?_, h.nodup, h.chains, h.fresh, ?_, ?_⟩
  · intro k x
    rw [(hentries x).1, (hentries x).2.1]
    exact h.mem k x
  · intro x hx y hy
    rw [(hentries x).1, (hentries x).2.1, (hentries y).1, (hentries y).2.1]
    exact h.unique x hx y hy
  · intro x
    rw [(hentries x).2.2]
    exact h.clean x

theorem Ok.grow (h : c.Ok) : ({ c with count := c.count + 1 } : Cache β).Ok :=
  ⟨h.mem, h.nodup, h.chains, fun e he => Nat.lt_succ_of_lt (h.fresh e he), h.unique, h.clean⟩

variable {d' n' : ℕ} {b' : Contents β}

theorem holds_touch (he : e ∈ c.lru) : (c.touch e).Holds d n b ↔ c.Holds d n b := by
  constructor
  · rintro ⟨x, hx, hblock⟩
    exact ⟨x, (mem_touch he x).mp hx, hblock⟩
  · rintro ⟨x, hx, hblock⟩
    exact ⟨x, (mem_touch he x).mpr hx, hblock⟩

/-- What is cached after linking an entry. -/
theorem holds_link (h : (c.link e d n b).Holds d' n' b') :
    c.Holds d' n' b' ∨ d' = d ∧ n' = n ∧ b' = b := by
  obtain ⟨x, hx, hd, hn, hb⟩ := h
  rw [entries_link] at hd hn hb
  by_cases hxe : x = e
  · rw [if_pos hxe] at hd hn hb
    exact .inr ⟨hd.symm, hn.symm, hb.symm⟩
  · rw [if_neg hxe] at hd hn hb
    rcases List.mem_cons.mp hx with h | hx
    · exact absurd h hxe
    · exact .inl ⟨x, hx, hd, hn, hb⟩

theorem holds_unlink (h : c.Ok) (hh : (c.unlink e).Holds d n b) : c.Holds d n b := by
  obtain ⟨x, hx, hblock⟩ := hh
  exact ⟨x, ((mem_unlink h x).mp hx).2, hblock⟩

/-- What is cached after a block has been given new contents. -/
theorem holds_setData (h : c.Ok) (he : e ∈ c.lru) (hd : (c.entries e).dev = d)
    (hn : (c.entries e).blockNr = n) (hh : (c.setData e b).Holds d' n' b') :
    d' = d ∧ n' = n ∧ b' = b ∨ ¬ (d' = d ∧ n' = n) ∧ c.Holds d' n' b' := by
  obtain ⟨x, hx, hd', hn', hb'⟩ := hh
  have hentry : (c.setData e b).entries x =
      if x = e then { c.entries e with data := b } else c.entries x := Function.update_apply ..
  rw [hentry] at hd' hn' hb'
  by_cases hxe : x = e
  · rw [if_pos hxe] at hd' hn' hb'
    exact .inl ⟨hd'.symm.trans hd, hn'.symm.trans hn, hb'.symm⟩
  · rw [if_neg hxe] at hd' hn' hb'
    refine .inr ⟨?_, x, hx, hd', hn', hb'⟩
    rintro ⟨rfl, rfl⟩
    exact hxe (h.unique x hx e he (hd'.trans hd.symm) (hn'.trans hn.symm))

/-- Whatever a read does to the cache: it stays in order, and what is cached afterwards was
cached before or is what the read has put there. -/
structure Adds (c c' : Cache β) (d n : ℕ) (b : Contents β) : Prop where
  ok : c'.Ok
  holds : ∀ d' n' b', c'.Holds d' n' b' → c.Holds d' n' b' ∨ d' = d ∧ n' = n ∧ b' = b

theorem Ok.adds (h : c.Ok) (d n : ℕ) (b : Contents β) : Adds c c d n b :=
  ⟨h, fun _ _ _ hh => .inl hh⟩

theorem Ok.adds_touch (h : c.Ok) (he : e ∈ c.lru) (d n : ℕ) (b : Contents β) :
    Adds c (c.touch e) d n b :=
  ⟨h.touch he, fun _ _ _ hh => .inl ((holds_touch he).mp hh)⟩

theorem Ok.adds_linkNew (h : c.Ok)
    (hnew : ∀ x ∈ c.lru, (c.entries x).dev = d → (c.entries x).blockNr ≠ n) :
    Adds c (c.linkNew d n b) d n b where
  ok := by
    refine h.grow.link ?_ (Nat.lt_succ_self _) hnew
    intro hmem
    exact Nat.lt_irrefl _ (h.fresh c.count hmem)
  holds _ _ _ hh := holds_link hh

theorem Ok.adds_evict (h : c.Ok) (he : e ∈ c.lru)
    (hnew : ∀ x ∈ c.lru, (c.entries x).dev = d → (c.entries x).blockNr ≠ n) :
    Adds c ((c.unlink e).link e d n b) d n b where
  ok := by
    refine h.unlink.link ?_ (h.fresh e he) ?_
    · intro hmem
      exact ((mem_unlink h e).mp hmem).1 rfl
    · intro x hx
      exact hnew x ((mem_unlink h x).mp hx).2
  holds _ _ _ hh := by
    rcases holds_link hh with hh | hh
    · exact .inl (holds_unlink h hh)
    · exact .inr hh

end Cache

/-! ## The device -/

section Transfer

variable {β : Type} {disk : ℕ → ℕ → Contents β} {w : Write β} {k d n : ℕ}

/-- A block after a transfer is one of the range, with its new contents, or as before. -/
theorem transfer_cases (disk : ℕ → ℕ → Contents β) (w : Write β) (k d n : ℕ) :
    (∃ j b, d = w.dev ∧ n = w.startBlock + j ∧ w.buffer[j]? = some b ∧
      transfer disk w k d n = ⟨b, k⟩) ∨
    (¬ ∃ j, d = w.dev ∧ n = w.startBlock + j ∧ j < w.buffer.length) ∧
      transfer disk w k d n = disk d n := by
  unfold transfer
  by_cases hrange : d = w.dev ∧ w.startBlock ≤ n
  · rw [if_pos hrange]
    cases hb : w.buffer[n - w.startBlock]? with
    | some b => exact .inl ⟨n - w.startBlock, b, hrange.1, by omega, hb, rfl⟩
    | none =>
      refine .inr ⟨?_, rfl⟩
      rintro ⟨j, -, hj, hlt⟩
      have := List.getElem?_eq_none_iff.mp hb
      omega
  · rw [if_neg hrange]
    refine .inr ⟨?_, rfl⟩
    rintro ⟨j, hd, hj, -⟩
    exact hrange ⟨hd, by omega⟩

theorem transfer_of_mem {j : ℕ} {b : β} (hb : w.buffer[j]? = some b) :
    transfer disk w k w.dev (w.startBlock + j) = ⟨b, k⟩ := by
  unfold transfer
  rw [if_pos ⟨rfl, Nat.le_add_right ..⟩, Nat.add_sub_cancel_left, hb]

end Transfer

/-! ## What the tasks know -/

section Tasks

variable {β : Type} {disk disk' : ℕ → ℕ → Contents β} {done done' : ℕ → ℕ → ℕ} {r : Read β}
  {w : Write β} {p : Pc β} {b : Contents β}

/-- The blocks read so far are not older than what was done when the read began. -/
structure ReadOk (done : ℕ → ℕ → ℕ) (r : Read β) : Prop where
  floor : ∀ n, r.floor n ≤ done r.dev n
  recent : ∀ j b, r.buffer[j]? = some b → r.floor (r.startBlock + j) ≤ b.stamp

/-- The device holds what has not been through the cache, and the rest is done. -/
structure WriteOk (disk : ℕ → ℕ → Contents β) (done : ℕ → ℕ → ℕ) (w : Write β) : Prop where
  todo : ∀ j b, w.i ≤ j → w.buffer[j]? = some b → disk w.dev (w.startBlock + j) = ⟨b, w.stamp⟩
  passed : ∀ j < w.i, w.stamp ≤ done w.dev (w.startBlock + j)

/-- What holds at each place. Nothing is dirty, so nothing is flushed. -/
def PcOk (disk : ℕ → ℕ → Contents β) (done : ℕ → ℕ → ℕ) : Pc β → Prop
  | .idle => True
  | .readStart r | .readLoop r => ReadOk done r ∧ r.buffer.length ≤ r.numBlocks
  | .readAlloc r | .readFetch r => ReadOk done r ∧ r.buffer.length < r.numBlocks
  | .readRelock r temp | .readCheck r temp =>
    ReadOk done r ∧ r.buffer.length < r.numBlocks ∧ temp = disk r.dev r.blockNr
  | .readEvict .. | .readFlush .. | .readFlushed .. => False
  | .readDone r => ReadOk done r ∧ r.buffer.length = r.numBlocks
  | .writeDevice w => w.i = 0
  | .writeLock w | .writeLoop w => WriteOk disk done w
  | .writeDone w => ∀ j < w.buffer.length, w.stamp ≤ done w.dev (w.startBlock + j)

theorem ReadOk.mono (h : ReadOk done r) (hle : ∀ d n, done d n ≤ done' d n) : ReadOk done' r :=
  ⟨fun n => (h.floor n).trans (hle ..), h.recent⟩

theorem Read.length_push (r : Read β) (b : Contents β) :
    (r.push b).buffer.length = r.buffer.length + 1 := List.length_append

theorem ReadOk.push (h : ReadOk done r) (hb : done r.dev r.blockNr ≤ b.stamp) :
    ReadOk done (r.push b) where
  floor := h.floor
  recent j x hx := by
    rcases Nat.lt_trichotomy j r.buffer.length with hj | rfl | hj
    · apply h.recent j x
      rwa [Read.push, List.getElem?_append_left hj] at hx
    · rw [Read.push, List.getElem?_concat_length] at hx
      cases hx
      exact (h.floor _).trans hb
    · have hlen : (r.push b).buffer.length ≤ j := by
        rw [Read.length_push]
        omega
      rw [List.getElem?_eq_none hlen] at hx
      cases hx

theorem WriteOk.mono (h : WriteOk disk done w) (hle : ∀ d n, done d n ≤ done' d n) :
    WriteOk disk done' w :=
  ⟨h.todo, fun j hj => (h.passed j hj).trans (hle ..)⟩

/-- More may be done, and the device may change where the task does not depend on it. -/
theorem PcOk.mono (h : PcOk disk done p) (hle : ∀ d n, done d n ≤ done' d n)
    (hdisk : ∀ d n, p.Pending d n ∨ p.Fetched d n → disk' d n = disk d n) :
    PcOk disk' done' p := by
  have hwrite : ∀ {w : Write β}, WriteOk disk done w →
      (∀ n, w.startBlock + w.i ≤ n → n < w.startBlock + w.buffer.length →
        disk' w.dev n = disk w.dev n) → WriteOk disk' done' w := by
    intro w hw hsame
    refine ⟨?_, (hw.mono hle).passed⟩
    intro j b hj hb
    have hlt := (List.getElem?_eq_some_iff.mp hb).1
    rw [hsame _ (by omega) (by omega)]
    exact hw.todo j b hj hb
  cases p with
  | idle => trivial
  | readStart r => exact ⟨h.1.mono hle, h.2⟩
  | readLoop r => exact ⟨h.1.mono hle, h.2⟩
  | readAlloc r => exact ⟨h.1.mono hle, h.2⟩
  | readFetch r => exact ⟨h.1.mono hle, h.2⟩
  | readRelock r temp =>
    exact ⟨h.1.mono hle, h.2.1, h.2.2.trans (hdisk _ _ (.inr ⟨rfl, rfl⟩)).symm⟩
  | readCheck r temp =>
    exact ⟨h.1.mono hle, h.2.1, h.2.2.trans (hdisk _ _ (.inr ⟨rfl, rfl⟩)).symm⟩
  | readEvict => exact h
  | readFlush => exact h
  | readFlushed => exact h
  | readDone r => exact ⟨h.1.mono hle, h.2⟩
  | writeDevice w => exact h
  | writeLock w => exact hwrite h fun n h1 h2 => hdisk _ _ (.inl ⟨rfl, h1, h2⟩)
  | writeLoop w => exact hwrite h fun n h1 h2 => hdisk _ _ (.inl ⟨rfl, h1, h2⟩)
  | writeDone w => exact fun j hj => (h j hj).trans (hle ..)

theorem not_pending_of_resting (h : p.resting = true) (d n : ℕ) : ¬ p.Pending d n := by
  cases p <;> first | exact id | cases h

end Tasks

/-! ## The invariant -/

variable {τ β : Type} [DecidableEq τ] {s s' : State τ β} {t : τ} {p : Pc β} {a : Act τ β}

structure Inv (s : State τ β) : Prop where
  cache : s.cache.Ok
  pcs : ∀ t, PcOk s.disk s.done (s.pc t)
  done : ∀ d n, s.done d n ≤ (s.disk d n).stamp
  clock : ∀ d n, (s.disk d n).stamp ≤ s.clock
  /-- Contents that differ from the device's have a writer on the way. -/
  held : ∀ d n b, s.cache.Holds d n b →
    s.done d n ≤ b.stamp ∧ (b = s.disk d n ∨ ∃ t, (s.pc t).Pending d n)

theorem goto_pc (u : τ) : (s.goto t p).pc u = if u = t then p else s.pc u :=
  Function.update_apply ..

/-- A step that leaves the device and `done` as they were and forgets no write. -/
theorem Inv.goto {c : Cache β} {holder : Option τ} {d n : ℕ} (h : Inv s)
    (hc : s.cache.Adds c d n (s.disk d n)) (hp : PcOk s.disk s.done p)
    (hkeep : ∀ d n, (s.pc t).Pending d n → p.Pending d n) :
    Inv ({ s with cache := c, holder := holder }.goto t p) where
  cache := hc.ok
  pcs u := by
    rw [goto_pc]
    split
    · exact hp
    · exact h.pcs u
  done := h.done
  clock := h.clock
  held d n b hb := by
    rcases hc.holds d n b hb with hb | ⟨rfl, rfl, rfl⟩
    · obtain ⟨h1, h2⟩ := h.held d n b hb
      refine ⟨h1, h2.imp_right ?_⟩
      rintro ⟨u, hu⟩
      refine ⟨u, ?_⟩
      rw [goto_pc]
      split
      · rename_i hut
        rw [hut] at hu
        exact hkeep d n hu
      · exact hu
    · exact ⟨h.done .., .inl rfl⟩

/-- The same with the cache as it was. -/
theorem Inv.move {holder : Option τ} (h : Inv s) (hp : PcOk s.disk s.done p)
    (hkeep : ∀ d n, (s.pc t).Pending d n → p.Pending d n) :
    Inv ({ s with holder := holder }.goto t p) :=
  h.goto (h.cache.adds 0 0 _) hp hkeep

theorem Inv.lock (h : Inv s) (hl : s.lock t p = some s') (hp : PcOk s.disk s.done p)
    (hkeep : ∀ d n, (s.pc t).Pending d n → p.Pending d n) : Inv s' := by
  unfold State.lock at hl
  split at hl
  · cases hl
    exact h.move hp hkeep
  · cases hl

variable {r : Read β} {w : Write β} {c : Cache β} {e : ℕ}

/-- A read copies a cached block. -/
theorem Inv.hit (h : Inv s) (hr : ReadOk s.done r) (hlt : r.buffer.length < r.numBlocks)
    (hl : s.cache.cacheLookup r.dev r.blockNr = (some e, c))
    (hkeep : ∀ d n, ¬ (s.pc t).Pending d n) :
    Inv ({ s with cache := c }.goto t (.readLoop (r.push (c.entries e).data))) := by
  obtain ⟨he, hd, hn, rfl⟩ := h.cache.lookup_some hl
  have hheld : s.cache.Holds r.dev r.blockNr (s.cache.entries e).data := ⟨e, he, hd, hn, rfl⟩
  refine h.goto (h.cache.adds_touch he 0 0 _) ⟨hr.push (h.held _ _ _ hheld).1, ?_⟩ ?_
  · rw [Read.length_push]
    exact hlt
  · intro d n hpend
    exact absurd hpend (hkeep d n)

/-- A read puts the block that it has fetched into the cache. -/
theorem Inv.insert (h : Inv s) (hr : ReadOk s.done r) (hlt : r.buffer.length < r.numBlocks)
    (hc : s.cache.Adds c r.dev r.blockNr (s.disk r.dev r.blockNr))
    (hkeep : ∀ d n, ¬ (s.pc t).Pending d n) :
    Inv ({ s with cache := c }.goto t (.readLoop (r.push (s.disk r.dev r.blockNr)))) := by
  refine h.goto hc ⟨hr.push (h.done ..), ?_⟩ ?_
  · rw [Read.length_push]
    exact hlt
  · intro d n hpend
    exact absurd hpend (hkeep d n)

theorem Inv.evict (h : Inv s) (hr : ReadOk s.done r) (hlt : r.buffer.length < r.numBlocks)
    (hnew : ∀ x ∈ s.cache.lru, (s.cache.entries x).dev = r.dev →
      (s.cache.entries x).blockNr ≠ r.blockNr)
    (hkeep : ∀ d n, ¬ (s.pc t).Pending d n) :
    Inv (s.evict t r (s.disk r.dev r.blockNr)) := by
  unfold State.evict
  split
  · exact h.move trivial fun d n hpend => absurd hpend (hkeep d n)
  · rename_i x hx
    have hmem : x ∈ s.cache.lru := List.mem_of_getLast? hx
    simp only [h.cache.clean x, Bool.false_eq_true, if_false]
    exact h.insert hr hlt (h.cache.adds_evict hmem hnew) hkeep

theorem Inv.check {ok : Bool} (h : Inv s) (hr : ReadOk s.done r)
    (hlt : r.buffer.length < r.numBlocks)
    (hpc : s.pc t = .readCheck r (s.disk r.dev r.blockNr)) (hs : s.advance t ok = some s') :
    Inv s' := by
  have hkeep : ∀ d n, ¬ (s.pc t).Pending d n := by
    intro d n
    rw [hpc]
    exact id
  unfold State.advance at hs
  simp only [hpc] at hs
  split at hs
  · rename_i e c hl
    cases hs
    exact h.hit hr hlt hl hkeep
  · rename_i c hl
    obtain ⟨rfl, hnew⟩ := h.cache.lookup_none hl
    split at hs
    · cases hs
      exact h.evict hr hlt hnew hkeep
    · split at hs
      · cases hs
        exact h.insert hr hlt (h.cache.adds_linkNew hnew) hkeep
      · cases hs
        exact h.move trivial fun d n hpend => absurd hpend (hkeep d n)

/-- Writing to the device alone: every cached block of the range has the writer on the way,
and nobody else depends on the range. -/
theorem Inv.transfer (h : Inv s) (hpc : s.pc t = .writeDevice w) (hi : w.i = 0)
    (halone : s.Alone t w) :
    Inv ({ s with disk := Block.transfer s.disk w (s.clock + 1), clock := s.clock + 1 }.goto t
      (.writeLock { w with stamp := s.clock + 1 })) where
  cache := h.cache
  pcs u := by
    rw [goto_pc]
    split
    · refine ⟨?_, ?_⟩
      · intro j b _ hb
        exact transfer_of_mem hb
      · intro j hj
        have hj : j < w.i := hj
        omega
    · rename_i hut
      refine (h.pcs u).mono (fun _ _ => le_rfl) ?_
      intro d n hdep
      rcases transfer_cases s.disk w (s.clock + 1) d n with ⟨j, b, rfl, rfl, hb, -⟩ | ⟨-, hsame⟩
      · have hj := (List.getElem?_eq_some_iff.mp hb).1
        obtain ⟨h1, h2⟩ := halone u hut j hj
        exact (hdep.elim h1 h2).elim
      · exact hsame
  done d n := by
    have h1 := h.done d n
    have h2 := h.clock d n
    show s.done d n ≤ (Block.transfer s.disk w (s.clock + 1) d n).stamp
    rcases transfer_cases s.disk w (s.clock + 1) d n with ⟨j, b, -, -, -, heq⟩ | ⟨-, heq⟩
    · rw [heq]
      show s.done d n ≤ s.clock + 1
      omega
    · rw [heq]
      exact h1
  clock d n := by
    show (Block.transfer s.disk w (s.clock + 1) d n).stamp ≤ s.clock + 1
    rcases transfer_cases s.disk w (s.clock + 1) d n with ⟨j, b, -, -, -, heq⟩ | ⟨-, heq⟩
    · rw [heq]
    · rw [heq]
      exact Nat.le_succ_of_le (h.clock d n)
  held d n b hb := by
    obtain ⟨h1, h2⟩ := h.held d n b hb
    refine ⟨h1, ?_⟩
    show b = Block.transfer s.disk w (s.clock + 1) d n ∨ _
    rcases transfer_cases s.disk w (s.clock + 1) d n with ⟨j, x, rfl, rfl, hx, -⟩ | ⟨-, heq⟩
    · right
      refine ⟨t, ?_⟩
      rw [goto_pc, if_pos rfl]
      have hj := (List.getElem?_eq_some_iff.mp hx).1
      exact ⟨rfl, by show w.startBlock + w.i ≤ _; omega, by show _ < w.startBlock + w.buffer.length; omega⟩
    · rw [heq]
      refine h2.imp_right ?_
      rintro ⟨u, hu⟩
      refine ⟨u, ?_⟩
      rw [goto_pc, if_neg]
      · exact hu
      · rintro rfl
        rw [hpc] at hu
        exact hu

theorem setBlock_apply {γ : Type} (f : ℕ → ℕ → γ) (d n : ℕ) (x : γ) (d' n' : ℕ) :
    setBlock f d n x d' n' = if d' = d ∧ n' = n then x else f d' n' := by
  unfold setBlock
  rw [Function.update_apply]
  by_cases hd : d' = d
  · subst hd
    rw [if_pos rfl, Function.update_apply]
    simp
  · simp [hd]

/-- A write goes through the cache for one block. -/
theorem Inv.through {b : β} (h : Inv s) (hpc : s.pc t = .writeLoop w) (hw : WriteOk s.disk s.done w)
    (hb : w.buffer[w.i]? = some b) (hc : c.Ok)
    (hheld : ∀ d n x, c.Holds d n x → d = w.dev ∧ n = w.startBlock + w.i ∧ x = ⟨b, w.stamp⟩ ∨
      ¬ (d = w.dev ∧ n = w.startBlock + w.i) ∧ s.cache.Holds d n x) :
    Inv ({ s with
        cache := c, done := setBlock s.done w.dev (w.startBlock + w.i) w.stamp }.goto t
      (.writeLoop { w with i := w.i + 1 })) := by
  have hdisk := hw.todo w.i b le_rfl hb
  have hstamp : (s.disk w.dev (w.startBlock + w.i)).stamp = w.stamp := by rw [hdisk]
  have hle : ∀ d n, s.done d n ≤ setBlock s.done w.dev (w.startBlock + w.i) w.stamp d n := by
    intro d n
    rw [setBlock_apply]
    split
    · rename_i hblock
      rw [hblock.1, hblock.2, ← hstamp]
      exact h.done ..
    · exact le_rfl
  refine ⟨hc, ?_, ?_, h.clock, ?_⟩
  · intro u
    rw [goto_pc]
    split
    · refine ⟨?_, ?_⟩
      · intro j x hj hx
        have hj : w.i + 1 ≤ j := hj
        exact hw.todo j x (by omega) hx
      · intro j hj
        have hj : j < w.i + 1 := hj
        show w.stamp ≤ setBlock s.done _ _ _ w.dev (w.startBlock + j)
        rcases Nat.lt_succ_iff_lt_or_eq.mp hj with hj | rfl
        · exact (hw.passed j hj).trans (hle ..)
        · rw [setBlock_apply, if_pos ⟨rfl, rfl⟩]
    · exact (h.pcs u).mono hle fun _ _ _ => rfl
  · intro d n
    show setBlock s.done _ _ _ d n ≤ (s.disk d n).stamp
    rw [setBlock_apply]
    split
    · rename_i hblock
      rw [hblock.1, hblock.2, hstamp]
    · exact h.done d n
  · intro d n x hx
    show setBlock s.done _ _ _ d n ≤ x.stamp ∧ (x = s.disk d n ∨ _)
    rcases hheld d n x hx with ⟨rfl, rfl, rfl⟩ | ⟨hother, hx⟩
    · rw [setBlock_apply, if_pos ⟨rfl, rfl⟩]
      exact ⟨le_rfl, .inl hdisk.symm⟩
    · rw [setBlock_apply, if_neg hother]
      obtain ⟨h1, h2⟩ := h.held d n x hx
      refine ⟨h1, h2.imp_right ?_⟩
      rintro ⟨u, hu⟩
      refine ⟨u, ?_⟩
      rw [goto_pc]
      split
      · -- the rest of the range is still to come
        rename_i hut
        rw [hut, hpc] at hu
        obtain ⟨hd, hlo, hhi⟩ := hu
        refine ⟨hd, ?_, hhi⟩
        have hne : n ≠ w.startBlock + w.i := fun hn => hother ⟨hd.symm, hn⟩
        show w.startBlock + (w.i + 1) ≤ n
        omega
      · exact hu

theorem Inv.writeLoop {ok : Bool} (h : Inv s) (hpc : s.pc t = .writeLoop w)
    (hs : s.advance t ok = some s') : Inv s' := by
  have hw : WriteOk s.disk s.done w := by
    have := h.pcs t
    rwa [hpc] at this
  unfold State.advance at hs
  simp only [hpc] at hs
  split at hs
  · rename_i hend
    cases hs
    have hlen := List.getElem?_eq_none_iff.mp hend
    refine h.move ?_ ?_
    · intro j hj
      exact hw.passed j (by omega)
    · intro d n hpend
      rw [hpc] at hpend
      obtain ⟨-, h1, h2⟩ := hpend
      omega
  · rename_i b hb
    cases hs
    split
    · rename_i e c hl
      obtain ⟨he, hd, hn, rfl⟩ := h.cache.lookup_some hl
      have hmem := (Cache.mem_touch he e).mpr he
      refine h.through hpc hw hb (h.cache.touch he).setData ?_
      intro d n x hx
      rcases Cache.holds_setData (h.cache.touch he) hmem hd hn hx with hx | ⟨hother, hx⟩
      · exact .inl hx
      · exact .inr ⟨hother, (Cache.holds_touch he).mp hx⟩
    · rename_i c hl
      obtain ⟨rfl, hnew⟩ := h.cache.lookup_none hl
      refine h.through hpc hw hb h.cache ?_
      intro d n x hx
      refine .inr ⟨?_, hx⟩
      rintro ⟨rfl, rfl⟩
      obtain ⟨y, hy, hd, hn, -⟩ := hx
      exact hnew y hy hd hn

theorem Inv.advance {ok : Bool} (h : Inv s) (hc : s.WritesAlone (.advance t ok))
    (hs : s.advance t ok = some s') : Inv s' := by
  have hp := h.pcs t
  cases hpc : s.pc t with
  | idle =>
    simp only [State.advance, hpc] at hs
    cases hs
  | readDone r =>
    simp only [State.advance, hpc] at hs
    cases hs
  | writeDone w =>
    simp only [State.advance, hpc] at hs
    cases hs
  | readStart r =>
    simp only [State.advance, hpc] at hs
    rw [hpc] at hp
    exact h.lock hs hp (by rw [hpc]; exact fun _ _ => False.elim)
  | readLoop r =>
    rw [hpc] at hp
    have hkeep : ∀ d n, ¬ (s.pc t).Pending d n := by
      intro d n
      rw [hpc]
      exact id
    simp only [State.advance, hpc] at hs
    split at hs
    · rename_i hlt
      split at hs
      · rename_i e c hl
        cases hs
        exact h.hit hp.1 hlt hl hkeep
      · rename_i c hl
        obtain ⟨rfl, -⟩ := h.cache.lookup_none hl
        cases hs
        exact h.move ⟨hp.1, hlt⟩ fun d n hpend => absurd hpend (hkeep d n)
    · rename_i hlt
      cases hs
      have hle : r.buffer.length ≤ r.numBlocks := hp.2
      exact h.move ⟨hp.1, by omega⟩ fun d n hpend => absurd hpend (hkeep d n)
  | readAlloc r =>
    simp only [State.advance, hpc] at hs
    rw [hpc] at hp
    cases hs
    refine h.move ?_ (by rw [hpc]; exact fun _ _ => False.elim)
    split
    · exact hp
    · trivial
  | readFetch r =>
    simp only [State.advance, hpc] at hs
    rw [hpc] at hp
    cases hs
    exact h.move ⟨hp.1, hp.2, rfl⟩ (by rw [hpc]; exact fun _ _ => False.elim)
  | readRelock r temp =>
    simp only [State.advance, hpc] at hs
    rw [hpc] at hp
    exact h.lock hs hp (by rw [hpc]; exact fun _ _ => False.elim)
  | readCheck r temp =>
    rw [hpc] at hp
    obtain ⟨hr, hlt, rfl⟩ := hp
    exact h.check hr hlt hpc hs
  | readEvict r temp =>
    rw [hpc] at hp
    exact hp.elim
  | readFlush r temp e dev blockNr =>
    rw [hpc] at hp
    exact hp.elim
  | readFlushed r temp e =>
    rw [hpc] at hp
    exact hp.elim
  | writeDevice w =>
    simp only [State.advance, hpc] at hs
    rw [hpc] at hp
    cases hs
    exact h.transfer hpc hp (hc w (by rw [hpc]; rfl))
  | writeLock w =>
    simp only [State.advance, hpc] at hs
    rw [hpc] at hp
    exact h.lock hs hp (by rw [hpc]; exact fun _ _ => id)
  | writeLoop w => exact h.writeLoop hpc hs

theorem Inv.step (h : Inv s) (hc : s.WritesAlone a) (hs : s.step a = some s') : Inv s' := by
  cases a with
  | read t dev startBlock numBlocks =>
    simp only [State.step] at hs
    split at hs
    · rename_i hrest
      cases hs
      refine h.move ⟨⟨fun _ => le_rfl, ?_⟩, Nat.zero_le _⟩ ?_
      · intro j b hb
        cases hb
      · intro d n hpend
        exact absurd hpend (not_pending_of_resting hrest d n)
    · cases hs
  | write t dev startBlock buffer =>
    simp only [State.step] at hs
    split at hs
    · rename_i hrest
      cases hs
      refine h.move rfl ?_
      intro d n hpend
      exact absurd hpend (not_pending_of_resting hrest d n)
    · cases hs
  | advance t ok => exact h.advance hc hs

omit [DecidableEq τ] in
theorem boot_inv [Inhabited β] (disk : ℕ → ℕ → β) : Inv (State.boot disk : State τ β) where
  cache := by
    refine ⟨?_, List.nodup_nil, fun _ => List.nodup_nil, ?_, ?_, fun _ => rfl⟩
    · intro h e
      simp [State.boot]
    · intro e he
      cases he
    · intro e he
      cases he
  pcs _ := trivial
  done _ _ := le_rfl
  clock _ _ := le_rfl
  held d n b hb := by
    obtain ⟨e, he, -⟩ := hb
    cases he

omit [DecidableEq τ] in
theorem Inv.sound (h : Inv s) : s.Sound where
  coherent hrest k e he := by
    have hheld : s.cache.Holds _ _ (s.cache.entries e).data :=
      ⟨e, ((h.cache.mem k e).mp he).1, rfl, rfl, rfl⟩
    rcases (h.held _ _ _ hheld).2 with heq | ⟨t, ht⟩
    · rw [heq]
    · exact absurd ht (not_pending_of_resting (hrest t) _ _)
  recent t r hr := by
    have hp := h.pcs t
    rw [hr] at hp
    exact ⟨hp.2, hp.1.recent⟩
  counted t w hw := by
    have hp := h.pcs t
    rw [hw] at hp
    exact hp

/-- In every run in which a task writes to the device only when it is alone with the blocks,
the cache agrees with the device whenever no operation is in progress, and no read returns
anything older than a write that was through when it began. -/
theorem block_run_sound [Inhabited β] {disk : ℕ → ℕ → β} {as : List (Act τ β)}
    (h : Run (Guarded State.WritesAlone (Moves State.step)) (State.boot disk) as s) : s.Sound := by
  refine (h.invariant Inv ?_ (boot_inv disk)).sound
  intro s a s' hs ⟨hc, hm⟩
  exact hs.step hc hm

/-- A read of two blocks fills the cache, a write changes one of them, and a second read, by
another task, returns the new contents from the cache. -/
theorem block_run_sound_two :
    ∃ s : State Bool ℕ, Run (Guarded State.WritesAlone (Moves State.step))
        (State.boot fun _ n => n)
        ([Act.read false 0 4 2] ++ List.replicate 12 (Act.advance false true) ++
          [Act.write true 0 5 [9]] ++ List.replicate 4 (Act.advance true true) ++
          [Act.read false 0 4 2] ++ List.replicate 4 (Act.advance false true)) s ∧
      ((s.cache.hashTable 5).map fun e => (s.cache.entries e).data.bytes) = [9] ∧ s.Sound := by
  have h : (execGuarded State.WritesAlone State.step (State.boot fun _ n => n : State Bool ℕ)
      ([Act.read false 0 4 2] ++ List.replicate 12 (Act.advance false true) ++
        [Act.write true 0 5 [9]] ++ List.replicate 4 (Act.advance true true) ++
        [Act.read false 0 4 2] ++ List.replicate 4 (Act.advance false true))).any
      (fun s => decide (((s.cache.hashTable 5).map fun e => (s.cache.entries e).data.bytes) = [9]))
        = true := by decide +kernel
  obtain ⟨s, hrun, hs⟩ := exists_run_of_execGuarded h
  exact ⟨s, hrun, of_decide_eq_true hs, block_run_sound hrun⟩

/-- A read misses and fetches the block; a write of the block goes through the device and the
cache, where the block is not; then the read puts what it has fetched into the cache. -/
theorem stale_block_cached :
    ∃ s : State Bool ℕ, Run (Moves State.step) (State.boot fun _ _ => 0)
        ([Act.read false 0 5 1] ++ List.replicate 4 (Act.advance false true) ++
          [Act.write true 0 5 [9]] ++ List.replicate 4 (Act.advance true true) ++
          List.replicate 3 (Act.advance false true)) s ∧
      (∀ t, (s.pc t).resting = true) ∧ ¬ s.Coherent := by
  have h : (exec State.step (State.boot fun _ _ => 0 : State Bool ℕ)
      ([Act.read false 0 5 1] ++ List.replicate 4 (Act.advance false true) ++
        [Act.write true 0 5 [9]] ++ List.replicate 4 (Act.advance true true) ++
        List.replicate 3 (Act.advance false true))).any
      (fun s => decide ((∀ t, (s.pc t).resting = true) ∧ ∃ e ∈ s.cache.hashTable 5,
        (s.cache.entries e).data.bytes ≠
          (s.disk (s.cache.entries e).dev (s.cache.entries e).blockNr).bytes)) = true := by
    decide +kernel
  obtain ⟨s, hrun, hs⟩ := exists_run_of_exec h
  obtain ⟨hrest, e, he, hne⟩ := of_decide_eq_true hs
  refine ⟨s, hrun, hrest, ?_⟩
  intro hco
  exact hne (hco 5 e he)

end Perspicua.Driver.Block
