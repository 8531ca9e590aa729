import Mathlib
import Perspicua.Lib.Prog

/-!
# The state of the FAT32 driver

`kernel/fs/fat32.c` keeps the geometry of the mounted volume, the list of open files, the
allocation hint and a generation counter; the rest of its state is the volume itself, the
vnodes it handed out and the pages of the page cache. They are the fields of `FsState` here.

A volume is addressed the way the driver addresses it: a FAT word by copy and cluster, a
data sector by cluster and sector within the cluster. That the sectors computed from these
never collide and lie on the device is a property of the geometry alone. A sector past the
last cluster does not exist, and reading or writing it fails.

Which block transfers fail, and which memory requests, is decided from outside by `Env`:
every request names the place in the driver that makes it.
-/

namespace Perspicua.Fs

open Perspicua.Lib

/-- The error codes the file systems return. -/
inductive Errno
  | enoent | eio | einval | enomem | enospc | enotsup | eexist | enotdir | eisdir | enotempty
  | enametoolong | efbig | ebadf | esrch | exdev
deriving DecidableEq, Repr

abbrev Res (α : Type) := Except Errno α

/-- A C string, without its terminator. -/
abbrev Name := List UInt8

/-! ## Directory entries -/

/-- `struct fat32_dir_entry`, or `struct fat32_lfn_entry`: 32 bytes. -/
abbrev DirEntry := Fin 32 → UInt8

instance neZero_entry : NeZero 32 := ⟨by decide⟩

def le16 (lo hi : UInt8) : ℕ := lo.toNat + 256 * hi.toNat

namespace DirEntry

/-- `entry->name[0]`: 0 ends the directory, 0xE5 marks a deleted entry. -/
def first (e : DirEntry) : UInt8 := e 0

def attributes (e : DirEntry) : UInt8 := e 11

def size (e : DirEntry) : ℕ := le16 (e 28) (e 29) + 65536 * le16 (e 30) (e 31)

/-- `entry_cluster`. -/
def cluster (e : DirEntry) : ℕ := le16 (e 26) (e 27) + 65536 * le16 (e 20) (e 21)

def setFirst (e : DirEntry) (b : UInt8) : DirEntry := Function.update e 0 b

def setAttributes (e : DirEntry) (b : UInt8) : DirEntry := Function.update e 11 b

def setCluster (e : DirEntry) (c : ℕ) : DirEntry :=
  Function.update (Function.update (Function.update (Function.update e
    20 (UInt8.ofNat (c / 2 ^ 16))) 21 (UInt8.ofNat (c / 2 ^ 24)))
    26 (UInt8.ofNat c)) 27 (UInt8.ofNat (c / 2 ^ 8))

def setSize (e : DirEntry) (n : ℕ) : DirEntry :=
  Function.update (Function.update (Function.update (Function.update e
    28 (UInt8.ofNat n)) 29 (UInt8.ofNat (n / 2 ^ 8)))
    30 (UInt8.ofNat (n / 2 ^ 16))) 31 (UInt8.ofNat (n / 2 ^ 24))

/-- The eight bytes of the name and the three of the extension. -/
def shortName (e : DirEntry) : List UInt8 := (List.finRange 11).map fun i => e (i.castLE (by decide))

/-- Overwrite name and extension. -/
def setShortName (e : DirEntry) (short : List UInt8) : DirEntry := fun i =>
  if i.val < 11 then short.getD i 0 else e i

/-- `memset(entry, 0, 32)`. -/
def zero : DirEntry := fun _ => 0

def isDir (e : DirEntry) : Bool := e.attributes &&& 0x10 != 0

def isLabel (e : DirEntry) : Bool := e.attributes &&& 0x08 != 0

/-- A slot the driver may claim: deleted, or at or past the end of the directory. -/
def free (e : DirEntry) : Bool := e.first == 0 || e.first == 0xE5

/-- A fragment of a long name; a deleted or end mark wins over that. -/
def isLfn (e : DirEntry) : Bool := e.attributes == 0x0F && !e.free

end DirEntry

/-- A sector of 512 bytes, as the sixteen entries it holds in a directory. -/
abbrev Sector := Fin 16 → DirEntry

instance neZero_sector : NeZero 16 := ⟨by decide⟩

/-- Byte `k` of a sector. -/
def Sector.byte (sec : Sector) (k : ℕ) : UInt8 := sec (Fin.ofNat 16 (k / 32)) (Fin.ofNat 32 k)

/-- `struct fat32_dir_slot`: where a directory entry lives. -/
structure Slot where
  cluster : ℕ
  sector : ℕ
  index : Fin 16
deriving DecidableEq

/-! ## The volume -/

structure Volume where
  /-- The raw FAT words, by copy and cluster. -/
  fat : ℕ → ℕ → ℕ
  /-- The data area, by cluster and sector. -/
  data : ℕ → ℕ → Sector

namespace Volume

def setFat (v : Volume) (copy c word : ℕ) : Volume :=
  { v with fat := Function.update v.fat copy (Function.update (v.fat copy) c word) }

def setSector (v : Volume) (c s : ℕ) (sec : Sector) : Volume :=
  { v with data := Function.update v.data c (Function.update (v.data c) s sec) }

/-- The entry in a slot. -/
def slot (v : Volume) (sl : Slot) : DirEntry := v.data sl.cluster sl.sector sl.index

/-- The link of a cluster, as the driver reads it. -/
def next (v : Volume) (c : ℕ) : ℕ := v.fat 0 c % 2 ^ 28

end Volume

/-! ## Requests that may fail -/

/-- What a FAT word is read or written for. -/
inductive FatUse
  | next      -- following a chain
  | alloc     -- marking a cluster allocated
  | link      -- linking a new cluster to the end of a chain
  | undo      -- giving back a cluster that was not used
  | tail      -- ending a truncated chain
  | free      -- freeing a chain
deriving DecidableEq

/-- The places in the driver that transfer a block. -/
inductive Site
  | fatRead (use : FatUse) (copy : ℕ)
  | fatWrite (use : FatUse) (copy : ℕ)
  | scan
  | zero (growing : Bool)
  | dirRead
  | dirWrite
  | slotRead
  | slotWrite
  | dataRead
  | dataWrite
deriving DecidableEq

structure Env where
  blockFails : Site → ℕ → Bool
  allocFails : ℕ → Bool
  /-- `timer_get_wall_time`, in seconds since 1970. -/
  wallTime : ℕ → ℕ

/-- `struct fat32_fs` as `fat32_geometry_from_bpb` accepts it, on a device. -/
structure Mount where
  sectorsPerCluster : ℕ
  numFats : ℕ
  rootCluster : ℕ
  /-- Highest cluster the data area can address. -/
  maxCluster : ℕ
  spc_pow : ∃ k ≤ 7, sectorsPerCluster = 2 ^ k
  numFats_pos : 1 ≤ numFats
  numFats_le : numFats ≤ 2
  root_ge : 2 ≤ rootCluster
  root_le : rootCluster ≤ maxCluster
  max_le : maxCluster ≤ 0x0FFFFFF6
  env : Env

/-- A volume of nine clusters on a device that never fails. -/
def smallMount : Mount where
  sectorsPerCluster := 1
  numFats := 1
  rootCluster := 2
  maxCluster := 10
  spc_pow := ⟨0, by decide, rfl⟩
  numFats_pos := by decide
  numFats_le := by decide
  root_ge := by decide
  root_le := by decide
  max_le := by decide
  env := { blockFails := fun _ _ => false, allocFails := fun _ => false, wallTime := fun _ => 0 }

/-! ## Vnodes, open files, cached pages -/

inductive VnodeType
  | regular
  | dir
  | device
deriving DecidableEq

/-- The operation tables a vnode can point to. -/
inductive VnodeOps
  | fat32
  | procfsRoot
  | procfsPidDir
  | procfsPidFdDir
  | procfsFile
  | devfsRoot
  | device
deriving DecidableEq

structure Vnode where
  type : VnodeType
  name : Name
  fileSize : ℕ
  /-- The vnode it was looked up in, by its number. -/
  parent : Option ℕ
  ops : VnodeOps
  /-- What the file system keeps here: the start cluster, or a process number. -/
  internalInfo : ℕ
  refcount : ℕ
  revalidated : ℕ

/-- `(uint32_t)(uintptr_t)node->internal_info`. -/
def Vnode.cluster (n : Vnode) : ℕ := n.internalInfo % 2 ^ 32

/-- `struct fat32_open`. -/
structure OpenFile where
  cluster : ℕ
  count : ℕ
  orphaned : Bool

/-- A page of 4096 bytes. -/
abbrev Page := ℕ → UInt8

def pageSize : ℕ := 4096

/-- `struct page_cache_entry` of a page of this file system. -/
structure CachePage where
  vnode : Option ℕ
  fileId : ℕ
  index : ℕ
  data : Page
  dirty : Bool
  pincount : ℕ

structure FsState where
  vol : Volume
  /-- `fat32_opens`, the newest first. -/
  opens : List OpenFile
  nextFreeHint : ℕ
  entryGen : ℕ
  vnodes : ℕ → Option Vnode
  nextVnode : ℕ
  /-- The page cache, the most recently used first. -/
  cache : List CachePage
  /-- Requests made so far. -/
  tick : ℕ

abbrev FsM := Prog FsState

namespace FsState

def setVnode (s : FsState) (v : ℕ) (n : Option Vnode) : FsState :=
  { s with vnodes := Function.update s.vnodes v n }

end FsState

/-! ## Requests -/

section Requests

variable (m : Mount)

/-- Whether a transfer fails. -/
def blockFails (site : Site) : FsM Bool := do
  let s ← Prog.get
  Prog.modify fun s => { s with tick := s.tick + 1 }
  pure (m.env.blockFails site s.tick)

/-- Whether `slab_alloc` or `pmm_alloc_pages_nozero` returns `NULL`. -/
def allocFails : FsM Bool := do
  let s ← Prog.get
  Prog.modify fun s => { s with tick := s.tick + 1 }
  pure (m.env.allocFails s.tick)

/-- `cluster_valid`. -/
def clusterValid (c : ℕ) : Bool := 2 ≤ c && c ≤ m.maxCluster

/-- `read_blocks` of one data sector. -/
def readSector (site : Site) (c s : ℕ) : FsM (Res Sector) := do
  if ← blockFails m site then pure (.error .eio)
  else if !clusterValid m c then pure (.error .eio)
  else do
    let st ← Prog.get
    pure (.ok (st.vol.data c s))

/-- `write_blocks` of one data sector. -/
def writeSector (site : Site) (c s : ℕ) (sec : Sector) : FsM (Res Unit) := do
  if ← blockFails m site then pure (.error .eio)
  else if !clusterValid m c then pure (.error .eio)
  else do
    Prog.modify fun st => { st with vol := st.vol.setSector c s sec }
    pure (.ok ())

end Requests

end Perspicua.Fs
