import Mathlib
import Perspicua.Lib.Machine

/-!
# The block cache

`cached_read_blocks` and `cached_write_blocks` of `kernel/driver/block.c`, by any number of
tasks. Transfers of the device are atomic and do not fail, so the blocks of a range are on the
device and their numbers do not wrap. Where the source holds `cache_lock`, one round of a loop
is a step; without it every transfer and allocation is one.

The chains of the hash table and the LRU list are lists of entries here, and an entry is a
number: entries are recycled and never freed. The contents of a block are one value, since
every copy moves a whole block; the buffer of an evicted entry is replaced or overwritten,
which gives it the same contents.

The source does not number the writes. `stamp` says which transfer to the device some
contents come from, and `done` the newest write that has been through the cache for a block.
-/

namespace Perspicua.Driver.Block

/-- `BLOCK_CACHE_SIZE` -/
def cacheSize : ℕ := 256

/-- `BLOCK_HASH_SIZE` -/
def hashSize : ℕ := 64

/-- What a block holds, and from which write. -/
structure Contents (β : Type) where
  bytes : β
  stamp : ℕ
deriving DecidableEq

/-- `struct block_cache_entry` -/
structure Entry (β : Type) where
  dev : ℕ
  blockNr : ℕ
  data : Contents β
  dirty : Bool

structure Cache (β : Type) where
  hashTable : ℕ → List ℕ
  /-- From `lru_head` to `lru_tail`. -/
  lru : List ℕ
  count : ℕ
  entries : ℕ → Entry β

def blockHash (dev blockNr : ℕ) : ℕ := (dev + blockNr) % hashSize

namespace Cache

variable {β : Type} (c : Cache β)

/-- `lru_remove` and `lru_add_head` -/
def touch (e : ℕ) : Cache β := { c with lru := e :: c.lru.erase e }

/-- `cache_lookup` -/
def cacheLookup (dev blockNr : ℕ) : Option ℕ × Cache β :=
  match (c.hashTable (blockHash dev blockNr)).find? fun e =>
      (c.entries e).dev = dev ∧ (c.entries e).blockNr = blockNr with
  | some e => (some e, c.touch e)
  | none => (none, c)

/-- Take an entry out of the LRU list and its chain. -/
def unlink (e : ℕ) : Cache β :=
  let h := blockHash (c.entries e).dev (c.entries e).blockNr
  { c with
    lru := c.lru.erase e
    hashTable := Function.update c.hashTable h ((c.hashTable h).erase e) }

/-- Fill an entry and put it in front of its chain and the LRU list. -/
def link (e dev blockNr : ℕ) (data : Contents β) : Cache β :=
  let h := blockHash dev blockNr
  { c with
    entries := Function.update c.entries e ⟨dev, blockNr, data, false⟩
    hashTable := Function.update c.hashTable h (e :: c.hashTable h)
    lru := e :: c.lru }

/-- `slab_alloc` gives an entry that was never used. -/
def linkNew (dev blockNr : ℕ) (data : Contents β) : Cache β :=
  { c with count := c.count + 1 }.link c.count dev blockNr data

def setData (e : ℕ) (data : Contents β) : Cache β :=
  { c with entries := Function.update c.entries e { c.entries e with data := data } }

def setClean (e : ℕ) : Cache β :=
  { c with entries := Function.update c.entries e { c.entries e with dirty := false } }

end Cache

/-- The locals of `cached_read_blocks`. The loop counter is the number of blocks in `buffer`. -/
structure Read (β : Type) where
  dev : ℕ
  startBlock : ℕ
  numBlocks : ℕ
  buffer : List (Contents β)
  /-- What `done` was for the device when the read began. -/
  floor : ℕ → ℕ

def Read.blockNr {β : Type} (r : Read β) : ℕ := r.startBlock + r.buffer.length

def Read.push {β : Type} (r : Read β) (b : Contents β) : Read β :=
  { r with buffer := r.buffer ++ [b] }

/-- The locals of `cached_write_blocks`; `num_blocks` is the length of `buffer`. -/
structure Write (β : Type) where
  dev : ℕ
  startBlock : ℕ
  buffer : List β
  i : ℕ
  stamp : ℕ

/-- Where a task is. -/
inductive Pc (β : Type)
  | idle
  | readStart (r : Read β)                              -- before the first `spin_lock_irqsave`
  | readLoop (r : Read β)                               -- locked, before the test of the loop
  | readAlloc (r : Read β)                              -- before `pmm_alloc_pages`
  | readFetch (r : Read β)                              -- before the transfer
  | readRelock (r : Read β) (temp : Contents β)         -- after it
  | readCheck (r : Read β) (temp : Contents β)          -- locked, before the second lookup
  | readEvict (r : Read β) (temp : Contents β)          -- locked, back from a flush
  | readFlush (r : Read β) (temp : Contents β) (e dev blockNr : ℕ)
  | readFlushed (r : Read β) (temp : Contents β) (e : ℕ)
  | readDone (r : Read β)                               -- returned 0
  | writeDevice (w : Write β)                           -- before the transfer
  | writeLock (w : Write β)                             -- after it
  | writeLoop (w : Write β)                             -- locked, before the test of the loop
  | writeDone (w : Write β)                             -- returned

/-- No operation is in progress. -/
def Pc.resting {β : Type} : Pc β → Bool
  | .idle | .readDone _ | .writeDone _ => true
  | _ => false

/-- The task has written the block and has not been through the cache for it. -/
def Pc.Pending {β : Type} (p : Pc β) (dev blockNr : ℕ) : Prop :=
  match p with
  | .writeLock w | .writeLoop w =>
    w.dev = dev ∧ w.startBlock + w.i ≤ blockNr ∧ blockNr < w.startBlock + w.buffer.length
  | _ => False

/-- The task has fetched the block and has not put it into the cache. -/
def Pc.Fetched {β : Type} (p : Pc β) (dev blockNr : ℕ) : Prop :=
  match p with
  | .readRelock r _ | .readCheck r _ | .readEvict r _ | .readFlush r _ _ _ _ | .readFlushed r _ _ =>
    r.dev = dev ∧ r.blockNr = blockNr
  | _ => False

/-- The write that the task is about to transfer. -/
def Pc.writing {β : Type} : Pc β → Option (Write β)
  | .writeDevice w => some w
  | _ => none

structure State (τ β : Type) where
  disk : ℕ → ℕ → Contents β
  cache : Cache β
  /-- Who holds `cache_lock`. -/
  holder : Option τ
  pc : τ → Pc β
  clock : ℕ
  done : ℕ → ℕ → ℕ

inductive Act (τ β : Type)
  | read (t : τ) (dev startBlock numBlocks : ℕ)
  | write (t : τ) (dev startBlock : ℕ) (buffer : List β)
  /-- The next step of a task, where `ok` says that an allocation succeeds. -/
  | advance (t : τ) (ok : Bool)

/-- Change what belongs to one block. -/
def setBlock {γ : Type} (f : ℕ → ℕ → γ) (dev blockNr : ℕ) (x : γ) : ℕ → ℕ → γ :=
  Function.update f dev (Function.update (f dev) blockNr x)

/-- The device after a write. -/
def transfer {β : Type} (disk : ℕ → ℕ → Contents β) (w : Write β) (stamp dev blockNr : ℕ) :
    Contents β :=
  if dev = w.dev ∧ w.startBlock ≤ blockNr then
    match w.buffer[blockNr - w.startBlock]? with
    | some b => ⟨b, stamp⟩
    | none => disk dev blockNr
  else disk dev blockNr

namespace State

variable {τ β : Type} [DecidableEq τ] (s : State τ β)

def goto (t : τ) (p : Pc β) : State τ β := { s with pc := Function.update s.pc t p }

def lock (t : τ) (p : Pc β) : Option (State τ β) :=
  if s.holder = none then some ({ s with holder := some t }.goto t p) else none

/-- The loop over `lru_tail` and what follows it. -/
def evict (t : τ) (r : Read β) (temp : Contents β) : State τ β :=
  match s.cache.lru.getLast? with
  | none => { s with holder := none }.goto t .idle
  | some e =>
    let v := s.cache.entries e
    if v.dirty then { s with holder := none }.goto t (.readFlush r temp e v.dev v.blockNr)
    else { s with cache := (s.cache.unlink e).link e r.dev r.blockNr temp }.goto t
      (.readLoop (r.push temp))

/-- What a task does next. -/
def advance (t : τ) (ok : Bool) : Option (State τ β) :=
  match s.pc t with
  | .idle | .readDone _ | .writeDone _ => none
  | .readStart r => s.lock t (.readLoop r)
  | .readLoop r =>
    if r.buffer.length < r.numBlocks then
      match s.cache.cacheLookup r.dev r.blockNr with
      | (some e, c) => some ({ s with cache := c }.goto t (.readLoop (r.push (c.entries e).data)))
      | (none, c) => some ({ s with cache := c, holder := none }.goto t (.readAlloc r))
    else some ({ s with holder := none }.goto t (.readDone r))
  | .readAlloc r => some (s.goto t (if ok then .readFetch r else .idle))
  | .readFetch r => some (s.goto t (.readRelock r (s.disk r.dev r.blockNr)))
  | .readRelock r temp => s.lock t (.readCheck r temp)
  | .readCheck r temp =>
    match s.cache.cacheLookup r.dev r.blockNr with
    | (some e, c) => some ({ s with cache := c }.goto t (.readLoop (r.push (c.entries e).data)))
    | (none, c) =>
      if cacheSize ≤ c.count then some ({ s with cache := c }.evict t r temp)
      else if ok then
        some ({ s with cache := c.linkNew r.dev r.blockNr temp }.goto t (.readLoop (r.push temp)))
      else some ({ s with cache := c, holder := none }.goto t .idle)
  | .readEvict r temp => some (s.evict t r temp)
  | .readFlush r temp e dev blockNr =>
    some ({ s with disk := setBlock s.disk dev blockNr (s.cache.entries e).data }.goto t
      (.readFlushed r temp e))
  | .readFlushed r temp e => { s with cache := s.cache.setClean e }.lock t (.readEvict r temp)
  | .writeDevice w =>
    some ({ s with disk := transfer s.disk w (s.clock + 1), clock := s.clock + 1 }.goto t
      (.writeLock { w with stamp := s.clock + 1 }))
  | .writeLock w => s.lock t (.writeLoop w)
  | .writeLoop w =>
    match w.buffer[w.i]? with
    | none => some ({ s with holder := none }.goto t (.writeDone w))
    | some b =>
      let blockNr := w.startBlock + w.i
      let cache :=
        match s.cache.cacheLookup w.dev blockNr with
        | (some e, c) => c.setData e ⟨b, w.stamp⟩
        | (none, c) => c
      some ({ s with cache := cache, done := setBlock s.done w.dev blockNr w.stamp }.goto t
        (.writeLoop { w with i := w.i + 1 }))

def step : Act τ β → Option (State τ β)
  | .read t dev startBlock numBlocks =>
    if (s.pc t).resting then
      some (s.goto t (.readStart ⟨dev, startBlock, numBlocks, [], s.done dev⟩))
    else none
  | .write t dev startBlock buffer =>
    if (s.pc t).resting then some (s.goto t (.writeDevice ⟨dev, startBlock, buffer, 0, 0⟩))
    else none
  | .advance t ok => s.advance t ok

/-- An empty cache over a device. -/
def boot [Inhabited β] (disk : ℕ → ℕ → β) : State τ β where
  disk dev blockNr := ⟨disk dev blockNr, 0⟩
  cache := ⟨fun _ => [], [], 0, fun _ => ⟨0, 0, ⟨default, 0⟩, false⟩⟩
  holder := none
  pc _ := .idle
  clock := 0
  done _ _ := 0

/-! ## What the cache should keep -/

/-- Every cached block holds what the device holds. -/
def Coherent : Prop :=
  ∀ h, ∀ e ∈ s.cache.hashTable h, (s.cache.entries e).data.bytes =
    (s.disk (s.cache.entries e).dev (s.cache.entries e).blockNr).bytes

/-- The cache agrees with the device whenever no operation is in progress, a read that has
returned has all its blocks, none of them older than a write that had been through the cache
when the read began, and a write that has returned has been through the cache. -/
structure Sound : Prop where
  coherent : (∀ t, (s.pc t).resting = true) → s.Coherent
  recent : ∀ t r, s.pc t = .readDone r → r.buffer.length = r.numBlocks ∧
    ∀ j b, r.buffer[j]? = some b → r.floor (r.startBlock + j) ≤ b.stamp
  counted : ∀ t w, s.pc t = .writeDone w → ∀ j < w.buffer.length,
    w.stamp ≤ s.done w.dev (w.startBlock + j)

/-- No task but `t` has fetched one of the blocks without having put it into the cache, or
written one of them without having been through the cache. -/
def Alone (t : τ) (w : Write β) : Prop :=
  ∀ u, u ≠ t → ∀ j < w.buffer.length,
    ¬ (s.pc u).Pending w.dev (w.startBlock + j) ∧ ¬ (s.pc u).Fetched w.dev (w.startBlock + j)

/-- Who writes to the device is alone with the blocks. -/
def WritesAlone : Act τ β → Prop
  | .advance t _ => ∀ w ∈ (s.pc t).writing, s.Alone t w
  | _ => True

end State

section Decidable

variable {τ β : Type}

instance : (p : Pc β) → (dev blockNr : ℕ) → Decidable (p.Pending dev blockNr)
  | .writeLock _, _, _ | .writeLoop _, _, _ => inferInstanceAs (Decidable (_ ∧ _))
  | .idle, _, _ | .readStart _, _, _ | .readLoop _, _, _ | .readAlloc _, _, _
  | .readFetch _, _, _ | .readRelock .., _, _ | .readCheck .., _, _ | .readEvict .., _, _
  | .readFlush .., _, _ | .readFlushed .., _, _ | .readDone _, _, _ | .writeDevice _, _, _
  | .writeDone _, _, _ => .isFalse id

instance : (p : Pc β) → (dev blockNr : ℕ) → Decidable (p.Fetched dev blockNr)
  | .readRelock .., _, _ | .readCheck .., _, _ | .readEvict .., _, _ | .readFlush .., _, _
  | .readFlushed .., _, _ => inferInstanceAs (Decidable (_ ∧ _))
  | .idle, _, _ | .readStart _, _, _ | .readLoop _, _, _ | .readAlloc _, _, _
  | .readFetch _, _, _ | .readDone _, _, _ | .writeDevice _, _, _ | .writeLock _, _, _
  | .writeLoop _, _, _ | .writeDone _, _, _ => .isFalse id

variable [DecidableEq τ] [Fintype τ] (s : State τ β)

instance (t : τ) (w : Write β) : Decidable (s.Alone t w) :=
  inferInstanceAs (Decidable (∀ u, u ≠ t → ∀ j < w.buffer.length,
    ¬ (s.pc u).Pending w.dev (w.startBlock + j) ∧ ¬ (s.pc u).Fetched w.dev (w.startBlock + j)))

instance : (a : Act τ β) → Decidable (s.WritesAlone a)
  | .advance t _ => inferInstanceAs (Decidable (∀ w ∈ (s.pc t).writing, s.Alone t w))
  | .read .. | .write .. => .isTrue trivial

end Decidable

end Perspicua.Driver.Block
