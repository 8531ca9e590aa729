import Perspicua.Driver.BlockTheorems
import Perspicua.Lib.Prog

/-!
# Block transfers by one task

`cached_read_blocks` and `cached_write_blocks` of `kernel/driver/block.c` once more, this time by
one task and with everything that can go wrong: allocations fail, and so do transfers. A failed
transfer changes nothing. The devices have block sizes of their own, an entry's buffer consists of
whole pages, and a copy moves bytes, so that a recycled buffer keeps the bytes behind the block that
was copied into it.

The hash table and the LRU list are those of `Driver.Block`, whose entries carry a buffer here and
whose stamps are not used. With one task the tail of the LRU list is the same entry after a flush.
-/

namespace Perspicua.Driver.Block

open Perspicua.Lib Prog

/-! ## Devices and buffers -/

inductive Errno
  | enomem
  | eio
  /-- The error of a device. -/
  | device
deriving DecidableEq

/-- The registered devices, by their address, and what fails. -/
structure Devices where
  blockSize : ℕ → ℕ
  blockCount : ℕ → ℕ
  count_lt : ∀ dev, blockCount dev < 2 ^ 64
  /-- By the number of the request. -/
  fails : ℕ → Bool

/-- `PAGE_SIZE` -/
def pageSize : ℕ := 4096

structure Buffer where
  pages : ℕ
  byte : ℕ → UInt8

/-- `memcpy` of `n` bytes to an offset in a buffer. -/
def copy (dst : ℕ → UInt8) (offset : ℕ) (src : ℕ → UInt8) (n : ℕ) : ℕ → UInt8 := fun k =>
  if offset ≤ k ∧ k < offset + n then src (k - offset) else dst k

structure IoState where
  /-- The bytes of a device, by block. -/
  disk : ℕ → ℕ → ℕ → UInt8
  cache : Cache Buffer
  /-- Requests made so far. -/
  tick : ℕ

section Driver

variable (ds : Devices)

/-- The pages of a buffer for a block. -/
def Devices.pagesFor (dev : ℕ) : ℕ := (ds.blockSize dev + pageSize - 1) / pageSize

/-- Whether a transfer or an allocation fails. -/
def requestFails : Prog IoState Bool := fun s => (ds.fails s.tick, { s with tick := s.tick + 1 })

/-- `orig_read_blocks` of one block. -/
def origReadBlock (dev blockNr : ℕ) : Prog IoState (Except Errno (ℕ → UInt8)) := do
  if ds.blockCount dev < blockNr + 1 then pure (.error .device)
  else if ← requestFails ds then pure (.error .device)
  else do
    let s ← Prog.get
    pure (.ok (s.disk dev blockNr))

/-- The device after a write. -/
def stored (disk : ℕ → ℕ → ℕ → UInt8) (dev startBlock numBlocks : ℕ) (buffer : ℕ → UInt8) :
    ℕ → ℕ → ℕ → UInt8 := fun d n k =>
  if d = dev ∧ startBlock ≤ n ∧ n < startBlock + numBlocks ∧ k < ds.blockSize dev then
    buffer ((n - startBlock) * ds.blockSize dev + k)
  else disk d n k

/-- `orig_write_blocks` -/
def origWriteBlocks (dev startBlock numBlocks : ℕ) (buffer : ℕ → UInt8) :
    Prog IoState (Except Errno Unit) := do
  if ds.blockCount dev < startBlock + numBlocks then pure (.error .device)
  else if ← requestFails ds then pure (.error .device)
  else do
    Prog.modify fun s => { s with disk := stored ds s.disk dev startBlock numBlocks buffer }
    pure (.ok ())

/-! ## The cache -/

/-- `cache_lookup` -/
def lookup (dev blockNr : ℕ) : Prog IoState (Option ℕ) := fun s =>
  ((s.cache.cacheLookup dev blockNr).1, { s with cache := (s.cache.cacheLookup dev blockNr).2 })

/-- Write back the entry to be evicted if it is dirty. -/
def flushVictim (e : ℕ) : Prog IoState (Except Errno Unit) := do
  let s ← Prog.get
  let victim := s.cache.entries e
  if victim.dirty then do
    match ← origWriteBlocks ds victim.dev victim.blockNr 1 victim.data.bytes.byte with
    | .error err => pure (.error err)
    | .ok _ => do
      Prog.modify fun s => { s with cache := s.cache.setClean e }
      pure (.ok ())
  else pure (.ok ())

/-- The buffer of an entry that is recycled for a block of `dev`: it is kept if it has as many pages
as a block of that device needs. -/
def recycled (old : Entry Buffer) (dev : ℕ) (temp : Buffer) : Buffer :=
  if ds.pagesFor old.dev ≠ ds.pagesFor dev then temp
  else { old.data.bytes with byte := copy old.data.bytes.byte 0 temp.byte (ds.blockSize dev) }

/-- Put a block that was read into the cache: in the place of the least recently used one when the
cache is full. The buffer that holds it then. -/
def insertBlock (dev blockNr : ℕ) (temp : Buffer) : Prog IoState (Except Errno Buffer) := do
  let s ← Prog.get
  if cacheSize ≤ s.cache.count then
    match s.cache.lru.getLast? with
    | none => pure (.error .eio)
    | some e => do
      match ← flushVictim ds e with
      | .error err => pure (.error err)
      | .ok _ => do
        let s ← Prog.get
        let data := recycled ds (s.cache.entries e) dev temp
        Prog.modify fun s => { s with cache := (s.cache.unlink e).link e dev blockNr ⟨data, 0⟩ }
        pure (.ok data)
  else do
    if ← requestFails ds then pure (.error .enomem)
    else do
      Prog.modify fun s => { s with cache := s.cache.linkNew dev blockNr ⟨temp, 0⟩ }
      pure (.ok temp)

/-- The buffer of an entry. -/
def entryBuffer (e : ℕ) : Prog IoState Buffer := do
  let s ← Prog.get
  pure (s.cache.entries e).data.bytes

/-- The part of a round after a miss: the buffer that holds the block. -/
def fetchBlock (dev blockNr : ℕ) : Prog IoState (Except Errno Buffer) := do
  if ← requestFails ds then pure (.error .enomem)
  else do
    match ← origReadBlock ds dev blockNr with
    | .error err => pure (.error err)
    | .ok block => do
      let temp : Buffer := ⟨ds.pagesFor dev, copy (fun _ => 0) 0 block (ds.blockSize dev)⟩
      match ← lookup dev blockNr with
      | some e => do
        let data ← entryBuffer e
        pure (.ok data)
      | none => insertBlock ds dev blockNr temp

/-- One round of the loop of `cached_read_blocks`. -/
def readRound (dev startBlock i : ℕ) (buffer : ℕ → UInt8) :
    Prog IoState (Ctl (ℕ → UInt8) (Except Errno Unit × (ℕ → UInt8))) := do
  let blockNr := (startBlock + i) % 2 ^ 64
  match ← lookup dev blockNr with
  | some e => do
    let data ← entryBuffer e
    pure (.next (copy buffer (i * ds.blockSize dev) data.byte (ds.blockSize dev)))
  | none => do
    match ← fetchBlock ds dev blockNr with
    | .error err => pure (.ret (.error err, buffer))
    | .ok data => pure (.next (copy buffer (i * ds.blockSize dev) data.byte (ds.blockSize dev)))

/-- `cached_read_blocks`: the result, and the caller's buffer. -/
def cachedReadBlocks (dev startBlock numBlocks : ℕ) (buffer : ℕ → UInt8) :
    Prog IoState (Except Errno Unit × (ℕ → UInt8)) := do
  match ← iterate (readRound ds dev startBlock) (List.range numBlocks) buffer with
  | .next buffer => pure (.ok (), buffer)
  | .ret r => pure r

/-- One round of the loop of `cached_write_blocks`. -/
def writeRound (dev startBlock : ℕ) (buffer : ℕ → UInt8) (i : ℕ) : Prog IoState Unit := do
  let bs := ds.blockSize dev
  match ← lookup dev ((startBlock + i) % 2 ^ 64) with
  | none => pure ()
  | some e => do
    let data ← entryBuffer e
    Prog.modify fun s => { s with
      cache := s.cache.setData e
        ⟨{ data with byte := copy data.byte 0 (fun k => buffer (i * bs + k)) bs }, 0⟩ }

/-- The loop of `cached_write_blocks`. -/
def writeRounds (dev startBlock : ℕ) (buffer : ℕ → UInt8) : List ℕ → Prog IoState Unit
  | [] => pure ()
  | i :: is => do
    writeRound ds dev startBlock buffer i
    writeRounds dev startBlock buffer is

/-- `cached_write_blocks` -/
def cachedWriteBlocks (dev startBlock numBlocks : ℕ) (buffer : ℕ → UInt8) :
    Prog IoState (Except Errno Unit) := do
  match ← origWriteBlocks ds dev startBlock numBlocks buffer with
  | .error err => pure (.error err)
  | .ok _ => do
    writeRounds ds dev startBlock buffer (List.range numBlocks)
    pure (.ok ())

end Driver

/-! ## The machine -/

inductive IoAct
  | read (dev startBlock numBlocks : ℕ) (buffer : ℕ → UInt8)
  | write (dev startBlock numBlocks : ℕ) (buffer : ℕ → UInt8)

/-- Calls come one after the other; the ranges are given in 64 bits. -/
def ioStep (ds : Devices) (s : IoState) : IoAct → Option IoState
  | .read dev startBlock numBlocks buffer =>
    if startBlock < 2 ^ 64 then some (cachedReadBlocks ds dev startBlock numBlocks buffer s).2 else none
  | .write dev startBlock numBlocks buffer =>
    if startBlock < 2 ^ 64 then some (cachedWriteBlocks ds dev startBlock numBlocks buffer s).2 else none

/-- An empty cache over devices. -/
def ioBoot (disk : ℕ → ℕ → ℕ → UInt8) : IoState where
  disk := disk
  cache := ⟨fun _ => [], [], 0, fun _ => ⟨0, 0, ⟨⟨0, fun _ => 0⟩, 0⟩, false⟩⟩
  tick := 0

/-! ## The cache in order -/

theorem copy_of_lt (dst src : ℕ → UInt8) {n k : ℕ} (h : k < n) : copy dst 0 src n k = src k := by
  rw [copy, if_pos (by omega), Nat.sub_zero]

section InOrder

variable {ds : Devices} {s t : IoState} {dev blockNr : ℕ}

/-- A buffer holds a block of a device as it is on the device, and has the pages for it. -/
structure Faithful (ds : Devices) (disk : ℕ → ℕ → ℕ → UInt8) (dev blockNr : ℕ) (b : Buffer) : Prop where
  onDevice : blockNr < ds.blockCount dev
  pages : b.pages = ds.pagesFor dev
  same : ∀ k < ds.blockSize dev, b.byte k = disk dev blockNr k

/-- The hash table and the LRU list hold the same entries, one for a block, and the count is right. -/
structure Counted (c : Cache Buffer) : Prop where
  ok : c.Ok
  count : c.lru.length = c.count
  max : c.count ≤ cacheSize

/-- The cache is in order, and what it holds is what the devices hold. -/
structure InOrder (ds : Devices) (s : IoState) : Prop where
  counted : Counted s.cache
  faithful : ∀ d n b, s.cache.Holds d n b → Faithful ds s.disk d n b.bytes

theorem Counted.touch {c : Cache Buffer} {e : ℕ} (h : Counted c) (he : e ∈ c.lru) :
    Counted (c.touch e) where
  ok := h.ok.touch he
  count := by
    show (e :: c.lru.erase e).length = c.count
    rw [← (List.perm_cons_erase he).length_eq, h.count]
  max := h.max

theorem Counted.linkNew {c : Cache Buffer} {b : Contents Buffer} (h : Counted c)
    (hnew : ∀ x ∈ c.lru, (c.entries x).dev = dev → (c.entries x).blockNr ≠ blockNr)
    (hlt : c.count < cacheSize) : Counted (c.linkNew dev blockNr b) where
  ok := (h.ok.adds_linkNew hnew).ok
  count := by
    show (c.count :: c.lru).length = c.count + 1
    rw [List.length_cons, h.count]
  max := hlt

theorem Counted.recycle {c : Cache Buffer} {e : ℕ} {b : Contents Buffer} (h : Counted c)
    (he : e ∈ c.lru)
    (hnew : ∀ x ∈ c.lru, (c.entries x).dev = dev → (c.entries x).blockNr ≠ blockNr) :
    Counted ((c.unlink e).link e dev blockNr b) where
  ok := (h.ok.adds_evict he hnew).ok
  count := by
    show (e :: c.lru.erase e).length = c.count
    rw [← (List.perm_cons_erase he).length_eq, h.count]
  max := h.max

theorem Counted.setData {c : Cache Buffer} {e : ℕ} {b : Contents Buffer} (h : Counted c) :
    Counted (c.setData e b) := ⟨h.ok.setData, h.count, h.max⟩

/-- What a lookup finds, in a cache that is in order. -/
theorem lookup_ends (h : Counted s.cache) (dev blockNr : ℕ) :
    Ends (lookup dev blockNr) s fun r t => t.disk = s.disk ∧ Counted t.cache ∧
      (∀ d n b, t.cache.Holds d n b → s.cache.Holds d n b) ∧
      match r with
      | some e => e ∈ t.cache.lru ∧ (t.cache.entries e).dev = dev ∧ (t.cache.entries e).blockNr = blockNr
      | none => ∀ x ∈ t.cache.lru, (t.cache.entries x).dev = dev → (t.cache.entries x).blockNr ≠ blockNr := by
  unfold lookup
  show _ ∧ _ ∧ _ ∧ _
  dsimp only
  cases hl : s.cache.cacheLookup dev blockNr with
  | mk r c =>
    cases r with
    | some e =>
      obtain ⟨he, hd, hn, rfl⟩ := h.ok.lookup_some hl
      refine ⟨rfl, h.touch he, fun d n b hb => (Cache.holds_touch he).mp hb, ?_, hd, hn⟩
      exact (Cache.mem_touch he e).mpr he
    | none =>
      obtain ⟨rfl, hnone⟩ := h.ok.lookup_none hl
      exact ⟨rfl, h, fun _ _ _ hb => hb, hnone⟩

/-- What is known when a lookup has found an entry or none. -/
theorem InOrder.lookup (h : InOrder ds s) (dev blockNr : ℕ) :
    Ends (lookup dev blockNr) s fun r t => t.disk = s.disk ∧ InOrder ds t ∧
      match r with
      | some e => Faithful ds t.disk dev blockNr (t.cache.entries e).data.bytes
      | none => ∀ x ∈ t.cache.lru, (t.cache.entries x).dev = dev → (t.cache.entries x).blockNr ≠ blockNr := by
  refine (lookup_ends h.counted dev blockNr).mono ?_
  rintro r t ⟨hdisk, hcounted, hholds, hr⟩
  have ht : InOrder ds t := by
    refine ⟨hcounted, fun d n b hb => ?_⟩
    rw [hdisk]
    exact h.faithful d n b (hholds d n b hb)
  refine ⟨hdisk, ht, ?_⟩
  cases r with
  | some e =>
    obtain ⟨he, rfl, rfl⟩ := hr
    exact ht.faithful _ _ _ ⟨e, he, rfl, rfl, rfl⟩
  | none => exact hr

/-- A request changes nothing. -/
theorem requestFails_ends (ds : Devices) (s : IoState) :
    Ends (requestFails ds) s fun _ t => t.disk = s.disk ∧ t.cache = s.cache := ⟨rfl, rfl⟩

theorem InOrder.congr (h : InOrder ds s) (hdisk : t.disk = s.disk) (hcache : t.cache = s.cache) :
    InOrder ds t := by
  refine ⟨by rw [hcache]; exact h.counted, fun d n b hb => ?_⟩
  rw [hdisk]
  rw [hcache] at hb
  exact h.faithful d n b hb

theorem origReadBlock_ends (ds : Devices) (dev blockNr : ℕ) (s : IoState) :
    Ends (origReadBlock ds dev blockNr) s fun r t => t.disk = s.disk ∧ t.cache = s.cache ∧
      ∀ block, r = .ok block → blockNr < ds.blockCount dev ∧ block = s.disk dev blockNr := by
  unfold origReadBlock
  apply ends_ite
  · intro _
    exact ⟨rfl, rfl, by rintro _ ⟨⟩⟩
  intro hrange
  refine (requestFails_ends ds s).bind ?_
  rintro fails t ⟨hdisk, hcache⟩
  apply ends_ite
  · intro _
    exact ⟨hdisk, hcache, by rintro _ ⟨⟩⟩
  · intro _
    refine ⟨hdisk, hcache, ?_⟩
    rintro block ⟨⟩
    exact ⟨by omega, by rw [← hdisk]⟩

/-- The result of putting a block into the cache. -/
theorem insertBlock_ends {temp : Buffer} (h : InOrder ds s)
    (hnew : ∀ x ∈ s.cache.lru, (s.cache.entries x).dev = dev → (s.cache.entries x).blockNr ≠ blockNr)
    (htemp : Faithful ds s.disk dev blockNr temp) :
    Ends (insertBlock ds dev blockNr temp) s fun r t => t.disk = s.disk ∧ InOrder ds t ∧
      ∀ data, r = .ok data → Faithful ds s.disk dev blockNr data := by
  unfold insertBlock
  rw [ends_bind, ends_get]
  apply ends_ite
  · intro _
    cases htail : s.cache.lru.getLast? with
    | none => exact ends_pure.mpr ⟨rfl, h, by rintro _ ⟨⟩⟩
    | some e =>
      have he : e ∈ s.cache.lru := List.mem_of_getLast? htail
      -- no entry is dirty
      have hflush : Ends (flushVictim ds e) s fun r t => r = .ok () ∧ s = t := by
        unfold flushVictim
        rw [ends_bind, ends_get]
        dsimp only
        rw [h.counted.ok.clean e]
        exact ⟨rfl, rfl⟩
      refine hflush.bind ?_
      rintro _ _ ⟨rfl, rfl⟩
      set data := recycled ds (s.cache.entries e) dev temp with hdata
      have hfaithful : Faithful ds s.disk dev blockNr data := by
        refine ⟨htemp.onDevice, ?_, ?_⟩
        · rw [hdata, recycled]
          split
          · exact htemp.pages
          next hpages =>
            have hold := h.faithful _ _ _ ⟨e, he, rfl, rfl, rfl⟩
            rw [← not_not.mp hpages]
            exact hold.pages
        · intro k hk
          rw [← htemp.same k hk, hdata, recycled]
          split
          · rfl
          · exact copy_of_lt _ _ hk
      refine ⟨rfl, ⟨h.counted.recycle he hnew, ?_⟩, ?_⟩
      · intro d n b hb
        rcases (h.counted.ok.adds_evict he hnew).holds d n b hb with hb | ⟨rfl, rfl, rfl⟩
        · exact h.faithful d n b hb
        · exact hfaithful
      · rintro _ ⟨⟩
        exact hfaithful
  · intro hroom
    refine (requestFails_ends ds s).bind ?_
    rintro fails t ⟨hdisk, hcache⟩
    have ht := h.congr hdisk hcache
    apply ends_ite
    · intro _
      exact ⟨hdisk, ht, by rintro _ ⟨⟩⟩
    · intro _
      rw [← hcache] at hnew hroom
      refine ⟨hdisk, ⟨ht.counted.linkNew hnew (by omega), ?_⟩, ?_⟩
      · intro d n b hb
        rcases (ht.counted.ok.adds_linkNew hnew).holds d n b hb with hb | ⟨rfl, rfl, rfl⟩
        · exact ht.faithful d n b hb
        · show Faithful ds t.disk _ _ _
          rw [hdisk]
          exact htemp
      · rintro _ ⟨⟩
        exact htemp

theorem fetchBlock_ends (h : InOrder ds s) (dev blockNr : ℕ) :
    Ends (fetchBlock ds dev blockNr) s fun r t => t.disk = s.disk ∧ InOrder ds t ∧
      ∀ data, r = .ok data → Faithful ds s.disk dev blockNr data := by
  unfold fetchBlock
  refine (requestFails_ends ds s).bind ?_
  rintro fails t ⟨hdisk, hcache⟩
  have ht := h.congr hdisk hcache
  apply ends_ite
  · intro _
    exact ⟨hdisk, ht, by rintro _ ⟨⟩⟩
  intro _
  refine (origReadBlock_ends ds dev blockNr t).bind ?_
  rintro (err | block) u ⟨hudisk, hucache, hblock⟩
  · exact ends_pure.mpr ⟨hudisk.trans hdisk, ht.congr hudisk hucache, by rintro _ ⟨⟩⟩
  obtain ⟨hlt, rfl⟩ := hblock block rfl
  have hu := ht.congr hudisk hucache
  refine (hu.lookup dev blockNr).bind ?_
  rintro r w ⟨hwdisk, hw, hr⟩
  have hall : w.disk = s.disk := hwdisk.trans (hudisk.trans hdisk)
  cases r with
  | some e =>
    refine ends_pure.mpr ⟨hall, hw, ?_⟩
    rintro _ ⟨⟩
    rw [← hall]
    exact hr
  | none =>
    refine (insertBlock_ends hw hr ⟨hlt, rfl, ?_⟩).mono ?_
    · intro k hk
      show copy (fun _ => 0) 0 (t.disk dev blockNr) (ds.blockSize dev) k = _
      rw [copy_of_lt _ _ hk, hall, hdisk]
    · rintro r x ⟨hx, hinorder, hdata⟩
      refine ⟨hx.trans hall, hinorder, ?_⟩
      rw [← hall]
      exact hdata

end InOrder

/-- The counter of a loop is the number of rounds done. -/
theorem range_split {n i : ℕ} {is js : List ℕ} (h : List.range n = is ++ i :: js) :
    i = is.length ∧ is.length < n := by
  have hlen := congrArg List.length h
  rw [List.length_range, List.length_append, List.length_cons] at hlen
  have hget := congrArg (fun l => l[is.length]?) h
  simp only [List.getElem?_append_right (Nat.le_refl _), Nat.sub_self, List.getElem?_cons_zero] at hget
  rw [List.getElem?_range (by omega)] at hget
  exact ⟨(Option.some.inj hget).symm, by omega⟩

/-! ## Reads -/

section Reads

variable {ds : Devices} {s : IoState} {dev startBlock : ℕ} {disk : ℕ → ℕ → ℕ → UInt8}

/-- The first `n` blocks of the range are in the buffer, and the rest of it is as it was. -/
structure Filled (ds : Devices) (disk : ℕ → ℕ → ℕ → UInt8) (dev startBlock n : ℕ)
    (before buffer : ℕ → UInt8) : Prop where
  onDevice : 0 < n → startBlock + n ≤ ds.blockCount dev
  block : ∀ i < n, ∀ k < ds.blockSize dev,
    buffer (i * ds.blockSize dev + k) = disk dev (startBlock + i) k
  rest : ∀ k, n * ds.blockSize dev ≤ k → buffer k = before k

theorem Filled.next {before buffer : ℕ → UInt8} {n : ℕ} {data : Buffer}
    (h : Filled ds disk dev startBlock n before buffer)
    (hdata : Faithful ds disk dev (startBlock + n) data) :
    Filled ds disk dev startBlock (n + 1) before
      (copy buffer (n * ds.blockSize dev) data.byte (ds.blockSize dev)) := by
  refine ⟨fun _ => hdata.onDevice, ?_, ?_⟩
  · intro i hi k hk
    obtain hlt | rfl := Nat.lt_or_eq_of_le (Nat.le_of_lt_succ hi)
    · -- a block before it
      have hle : (i + 1) * ds.blockSize dev ≤ n * ds.blockSize dev := Nat.mul_le_mul_right _ hlt
      rw [Nat.add_mul, Nat.one_mul] at hle
      rw [copy, if_neg (by omega)]
      exact h.block i hlt k hk
    · rw [copy, if_pos (by omega), Nat.add_sub_cancel_left]
      exact hdata.same k hk
  · intro k hk
    rw [Nat.add_mul, Nat.one_mul] at hk
    rw [copy, if_neg (by omega)]
    exact h.rest k (by omega)

/-- What one round does. -/
theorem readRound_ends {n : ℕ} {before buffer : ℕ → UInt8} (h : InOrder ds s) (hstart : startBlock < 2 ^ 64)
    (hfilled : Filled ds s.disk dev startBlock n before buffer) :
    Ends (readRound ds dev startBlock n buffer) s
      (Ctl.Sat (fun buffer' t => t.disk = s.disk ∧ InOrder ds t ∧
          Filled ds s.disk dev startBlock (n + 1) before buffer')
        (fun r t => t.disk = s.disk ∧ InOrder ds t ∧ r.1 ≠ .ok ())) := by
  -- the number does not wrap: the blocks before it are on the device
  have hnr : (startBlock + n) % 2 ^ 64 = startBlock + n := by
    apply Nat.mod_eq_of_lt
    have hcount := ds.count_lt dev
    obtain rfl | hn := Nat.eq_zero_or_pos n
    · exact hstart
    · have := hfilled.onDevice hn
      omega
  unfold readRound
  dsimp only
  rw [hnr]
  refine (h.lookup dev (startBlock + n)).bind ?_
  rintro r t ⟨hdisk, ht, hr⟩
  rw [← hdisk] at hfilled ⊢
  cases r with
  | some e => exact ⟨rfl, ht, hfilled.next hr⟩
  | none =>
    refine (fetchBlock_ends ht dev (startBlock + n)).bind ?_
    rintro (err | data) u ⟨hu, hinorder, hdata⟩
    · exact ends_pure.mpr ⟨hu, hinorder, by rintro ⟨⟩⟩
    · exact ends_pure.mpr ⟨hu, hinorder, hfilled.next (hdata data rfl)⟩

/-- A read leaves the devices alone, and if it succeeds the buffer holds the blocks. -/
theorem cachedReadBlocks_ends (h : InOrder ds s) (hstart : startBlock < 2 ^ 64) (dev numBlocks : ℕ)
    (buffer : ℕ → UInt8) :
    Ends (cachedReadBlocks ds dev startBlock numBlocks buffer) s fun r t => t.disk = s.disk ∧
      InOrder ds t ∧ (r.1 = .ok () → Filled ds s.disk dev startBlock numBlocks buffer r.2) := by
  unfold cachedReadBlocks
  refine Ends.bind (iterate_ends (J := fun is b t => t.disk = s.disk ∧ InOrder ds t ∧
    Filled ds s.disk dev startBlock is.length buffer b)
    (R := fun r t => t.disk = s.disk ∧ InOrder ds t ∧ r.1 ≠ .ok ()) ?_ ?_) ?_
  · rintro is i js hijs b t ⟨hdisk, ht, hb⟩
    obtain ⟨rfl, -⟩ := range_split hijs
    rw [← hdisk] at hb ⊢
    rw [List.length_append, List.length_singleton]
    exact readRound_ends ht hstart hb
  · exact ⟨rfl, h, fun h => absurd h (Nat.lt_irrefl 0), fun i hi => absurd hi (Nat.not_lt_zero i),
      fun _ _ => rfl⟩
  · rintro (b | r) t ⟨hdisk, ht, hr⟩
    · refine ends_pure.mpr ⟨hdisk, ht, fun _ => ?_⟩
      rw [List.length_range] at hr
      exact hr
    · exact ends_pure.mpr ⟨hdisk, ht, fun hok => absurd hok hr⟩

end Reads

/-! ## Writes -/

section Writes

variable {ds : Devices} {s : IoState} {dev startBlock numBlocks : ℕ} {buffer : ℕ → UInt8}

/-- A block that the write has yet to bring into the cache. -/
def Behind (dev startBlock numBlocks i d n : ℕ) : Prop :=
  d = dev ∧ startBlock + i ≤ n ∧ n < startBlock + numBlocks

/-- The cache while a write goes through it: the blocks that are yet to come may be old. -/
structure Catching (ds : Devices) (dev startBlock numBlocks i : ℕ) (s : IoState) : Prop where
  counted : Counted s.cache
  fits : ∀ d n b, s.cache.Holds d n b → n < ds.blockCount d ∧ b.bytes.pages = ds.pagesFor d
  same : ∀ d n b, s.cache.Holds d n b → ¬ Behind dev startBlock numBlocks i d n →
    ∀ k < ds.blockSize d, b.bytes.byte k = s.disk d n k

/-- The device holds the buffer in the range. -/
def Written (ds : Devices) (dev startBlock numBlocks : ℕ) (buffer : ℕ → UInt8)
    (disk : ℕ → ℕ → ℕ → UInt8) : Prop :=
  ∀ i < numBlocks, ∀ k < ds.blockSize dev,
    disk dev (startBlock + i) k = buffer (i * ds.blockSize dev + k)

theorem writeRound_ends {i : ℕ} (h : Catching ds dev startBlock numBlocks i s)
    (hwritten : Written ds dev startBlock numBlocks buffer s.disk) (hi : i < numBlocks)
    (hrange : startBlock + numBlocks < 2 ^ 64) :
    Ends (writeRound ds dev startBlock buffer i) s fun _ t => t.disk = s.disk ∧
      Catching ds dev startBlock numBlocks (i + 1) t := by
  unfold writeRound
  dsimp only
  rw [Nat.mod_eq_of_lt (show startBlock + i < 2 ^ 64 by omega)]
  refine (lookup_ends h.counted dev (startBlock + i)).bind ?_
  rintro r t ⟨hdisk, hcounted, hholds, hr⟩
  -- all but the block of this round are as before
  have hother : ∀ d n b, t.cache.Holds d n b → ¬ (d = dev ∧ n = startBlock + i) →
      ¬ Behind dev startBlock numBlocks (i + 1) d n → ∀ k < ds.blockSize d, b.bytes.byte k = t.disk d n k := by
    intro d n b hb hne hbehind
    rw [hdisk]
    apply h.same d n b (hholds d n b hb)
    rintro ⟨rfl, hle, hlt⟩
    refine hbehind ⟨rfl, ?_, hlt⟩
    obtain hlt' | heq := Nat.lt_or_eq_of_le hle
    · omega
    · exact absurd ⟨rfl, heq.symm⟩ hne
  cases r with
  | none =>
    refine ends_pure.mpr ⟨hdisk, hcounted, fun d n b hb => h.fits d n b (hholds d n b hb), ?_⟩
    intro d n b hb
    apply hother d n b hb
    rintro ⟨rfl, rfl⟩
    obtain ⟨x, hx, hd, hn, -⟩ := hb
    exact hr x hx hd hn
  | some e =>
    obtain ⟨he, hd, hn⟩ := hr
    have hold : t.cache.Holds dev (startBlock + i) (t.cache.entries e).data := ⟨e, he, hd, hn, rfl⟩
    refine ⟨hdisk, hcounted.setData, ?_, ?_⟩
    · intro d n b hb
      rcases Cache.holds_setData hcounted.ok he hd hn hb with ⟨rfl, rfl, rfl⟩ | ⟨-, hb⟩
      · have hfits := h.fits _ _ _ (hholds _ _ _ hold)
        exact hfits
      · exact h.fits d n b (hholds d n b hb)
    · intro d n b hb hbehind k hk
      rcases Cache.holds_setData hcounted.ok he hd hn hb with ⟨rfl, rfl, rfl⟩ | ⟨hne, hb⟩
      · show copy _ 0 (fun k => buffer (i * ds.blockSize d + k)) (ds.blockSize d) k = t.disk d (startBlock + i) k
        rw [copy_of_lt _ _ hk, hdisk]
        exact (hwritten i hi k hk).symm
      · exact hother d n b hb hne hbehind k hk

theorem writeRounds_ends (is : List ℕ) {js : List ℕ} (hall : List.range numBlocks = is ++ js)
    (h : Catching ds dev startBlock numBlocks is.length s)
    (hwritten : Written ds dev startBlock numBlocks buffer s.disk)
    (hrange : startBlock + numBlocks < 2 ^ 64) :
    Ends (writeRounds ds dev startBlock buffer js) s fun _ t => t.disk = s.disk ∧
      Catching ds dev startBlock numBlocks numBlocks t := by
  induction js generalizing is s with
  | nil =>
    have hlen := congrArg List.length hall
    rw [List.length_range, List.append_nil] at hlen
    rw [hlen.symm] at h
    exact ⟨rfl, h⟩
  | cons i js ih =>
    obtain ⟨rfl, hlt⟩ := range_split hall
    rw [writeRounds]
    refine (writeRound_ends h hwritten hlt hrange).bind ?_
    rintro _ t ⟨hdisk, ht⟩
    rw [← hdisk] at hwritten ⊢
    refine ih (is ++ [is.length]) (by rw [hall, List.append_assoc]; rfl) ?_ hwritten
    rw [List.length_append, List.length_singleton]
    exact ht

/-- A write that succeeds stores the blocks, one that fails changes nothing. -/
theorem cachedWriteBlocks_ends (h : InOrder ds s) (dev startBlock numBlocks : ℕ) (buffer : ℕ → UInt8) :
    Ends (cachedWriteBlocks ds dev startBlock numBlocks buffer) s fun r t => InOrder ds t ∧
      match r with
      | .error _ => t.disk = s.disk
      | .ok _ => t.disk = stored ds s.disk dev startBlock numBlocks buffer := by
  unfold cachedWriteBlocks
  refine Ends.bind (Q := fun r t => t.cache = s.cache ∧
    match r with
    | .error _ => t.disk = s.disk
    | .ok _ => startBlock + numBlocks ≤ ds.blockCount dev ∧
        t.disk = stored ds s.disk dev startBlock numBlocks buffer) ?_ ?_
  · unfold origWriteBlocks
    apply ends_ite
    · intro _
      exact ⟨rfl, rfl⟩
    intro hrange
    refine (requestFails_ends ds s).bind ?_
    rintro fails t ⟨hdisk, hcache⟩
    apply ends_ite
    · intro _
      exact ⟨hcache, hdisk⟩
    · intro _
      refine ⟨hcache, Nat.not_lt.mp hrange, ?_⟩
      show stored ds t.disk dev startBlock numBlocks buffer = _
      rw [hdisk]
  rintro (err | _) t ⟨hcache, hr⟩
  · exact ends_pure.mpr ⟨h.congr hr hcache, hr⟩
  obtain ⟨hrange, hdisk⟩ := hr
  have hstart : Catching ds dev startBlock numBlocks 0 t := by
    refine ⟨by rw [hcache]; exact h.counted, ?_, ?_⟩
    · intro d n b hb
      rw [hcache] at hb
      have hold := h.faithful d n b hb
      exact ⟨hold.onDevice, hold.pages⟩
    · intro d n b hb hbehind k hk
      rw [hcache] at hb
      rw [hdisk, stored, if_neg]
      · exact (h.faithful d n b hb).same k hk
      · rintro ⟨hd, hle, hlt, -⟩
        exact hbehind ⟨hd, hle, hlt⟩
  have hwritten : Written ds dev startBlock numBlocks buffer t.disk := by
    intro i hi k hk
    rw [hdisk, stored, if_pos ⟨rfl, by omega, by omega, hk⟩, Nat.add_sub_cancel_left]
  refine (writeRounds_ends [] rfl hstart hwritten
    (Nat.lt_of_le_of_lt hrange (ds.count_lt dev))).bind ?_
  rintro _ u ⟨hu, hcatching⟩
  refine ends_pure.mpr ⟨⟨hcatching.counted, ?_⟩, hu.trans hdisk⟩
  intro d n b hb
  obtain ⟨hon, hpages⟩ := hcatching.fits d n b hb
  refine ⟨hon, hpages, hcatching.same d n b hb ?_⟩
  rintro ⟨-, hle, hlt⟩
  omega

end Writes

/-! ## Runs -/

section Runs

variable {ds : Devices} {s s' : IoState} {disk : ℕ → ℕ → ℕ → UInt8}

theorem ioStep_inOrder {a : IoAct} (h : InOrder ds s) (hstep : ioStep ds s a = some s') :
    InOrder ds s' := by
  cases a with
  | read dev startBlock numBlocks buffer =>
    rw [ioStep] at hstep
    split at hstep
    next hstart =>
      cases hstep
      exact (cachedReadBlocks_ends h hstart dev numBlocks buffer).2.1
    next => cases hstep
  | write dev startBlock numBlocks buffer =>
    rw [ioStep] at hstep
    split at hstep
    next =>
      cases hstep
      exact (cachedWriteBlocks_ends h dev startBlock numBlocks buffer).1
    next => cases hstep

theorem ioBoot_inOrder (ds : Devices) (disk : ℕ → ℕ → ℕ → UInt8) : InOrder ds (ioBoot disk) := by
  refine ⟨⟨?_, rfl, Nat.zero_le _⟩, ?_⟩
  · constructor <;> simp [ioBoot]
  · rintro d n b ⟨e, he, -⟩
    cases he

/-- The cache as the source describes it: not too many entries, one for a block, the same ones in
the chains and in the LRU list, and as many as are counted. -/
structure Shape (c : Cache Buffer) : Prop where
  max : c.count ≤ cacheSize
  count : c.lru.length = c.count
  nodup : c.lru.Nodup
  one : ∀ e ∈ c.lru, ∀ e' ∈ c.lru, (c.entries e).dev = (c.entries e').dev →
    (c.entries e).blockNr = (c.entries e').blockNr → e = e'
  chains : ∀ h, (c.hashTable h).Nodup ∧ ∀ e, e ∈ c.hashTable h ↔
    e ∈ c.lru ∧ blockHash (c.entries e).dev (c.entries e).blockNr = h

theorem Counted.shape {c : Cache Buffer} (h : Counted c) : Shape c :=
  ⟨h.max, h.count, h.ok.nodup, h.ok.unique, fun k => ⟨h.ok.chains k, h.ok.mem k⟩⟩

/-- After every sequence of calls: the cache is in order, a read that succeeds gives what is on the
device, and only writes that succeed change a device, as they do without the cache. -/
theorem io_run_transparent {as : List IoAct} (hrun : Run (Moves (ioStep ds)) (ioBoot disk) as s)
    (dev startBlock numBlocks : ℕ) (buffer : ℕ → UInt8) (hstart : startBlock < 2 ^ 64) :
    Shape s.cache ∧
      (Ends (cachedReadBlocks ds dev startBlock numBlocks buffer) s fun r t => t.disk = s.disk ∧
        (r.1 = .ok () → Filled ds s.disk dev startBlock numBlocks buffer r.2)) ∧
      Ends (cachedWriteBlocks ds dev startBlock numBlocks buffer) s fun r t =>
        match r with
        | .error _ => t.disk = s.disk
        | .ok _ => t.disk = stored ds s.disk dev startBlock numBlocks buffer := by
  have h : InOrder ds s :=
    hrun.invariant (InOrder ds) (fun _ _ _ h hstep => ioStep_inOrder h hstep) (ioBoot_inOrder ds disk)
  refine ⟨h.counted.shape, ?_, ?_⟩
  · refine (cachedReadBlocks_ends h hstart dev numBlocks buffer).mono ?_
    rintro r t ⟨hdisk, -, hfilled⟩
    exact ⟨hdisk, hfilled⟩
  · exact (cachedWriteBlocks_ends h dev startBlock numBlocks buffer).mono fun _ _ hr => hr.2

end Runs

/-! ## Two devices -/

/-- Blocks of 512 bytes on device 1 and of two pages elsewhere; the fourth request fails. -/
def twoDevices : Devices where
  blockSize dev := if dev = 1 then 512 else 8192
  blockCount _ := 100
  count_lt _ := by decide
  fails tick := tick = 3

/-- Reads of both devices, one of which fails after its first block, and a write between them. -/
def mixedCalls : List IoAct :=
  [IoAct.read 1 0 2 fun _ => 0, IoAct.write 1 1 1 fun _ => 7, IoAct.read 2 5 1 fun _ => 0]

theorem io_run_transparent_two :
    ∃ s, Run (Moves (ioStep twoDevices)) (ioBoot fun _ _ _ => 1) mixedCalls s ∧ s.cache.count = 2 ∧
      Shape s.cache ∧
      (Ends (cachedReadBlocks twoDevices 1 0 2 fun _ => 0) s fun r t => t.disk = s.disk ∧
        (r.1 = .ok () → Filled twoDevices s.disk 1 0 2 (fun _ => 0) r.2)) ∧
      Ends (cachedWriteBlocks twoDevices 1 0 2 fun _ => 0) s fun r t =>
        match r with
        | .error _ => t.disk = s.disk
        | .ok _ => t.disk = stored twoDevices s.disk 1 0 2 fun _ => 0 := by
  have hexec : (exec (ioStep twoDevices) (ioBoot fun _ _ _ => 1) mixedCalls).any (fun s =>
      decide (s.cache.count = 2)) = true := by decide +kernel
  obtain ⟨s, hrun, hcount⟩ := exists_run_of_exec hexec
  exact ⟨s, hrun, of_decide_eq_true hcount,
    io_run_transparent hrun 1 0 2 (fun _ => 0) (by decide)⟩

end Perspicua.Driver.Block
