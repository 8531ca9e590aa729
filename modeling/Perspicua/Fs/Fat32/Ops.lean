import Perspicua.Fs.Fat32.Pagecache

/-!
# The operations of the driver

What the rest of the kernel calls. Every operation runs under the driver's lock, so that
each is one step of the system. `fat32Op…` are the registered operations, which also count
the generations of the directory entries.
-/

namespace Perspicua.Fs

open Perspicua.Lib Prog

variable (m : Mount)

/-! ## Reading and writing -/

/-- The cached page of a file, pinned; read from the disk if it is not there. -/
def cachedPage (v pageIndex : ℕ) : FsM (Res Page) := do
  match ← pagecacheGetPage v pageIndex with
  | some page => pure (.ok page)
  | none => do
    if ← allocFails m then pure (.error .enomem)
    else
      match ← fat32ReadPage m v pageIndex with
      | .error e => pure (.error e)
      | .ok fresh =>
        match ← pagecacheAddPage m v pageIndex fresh with
        | .ok _ => pure (.ok fresh)
        | .error _ =>
          match ← pagecacheGetPage v pageIndex with
          | some page => pure (.ok page)
          | none => pure (.error .enomem)

/-- The loop of `fat32_vfs_read`: the bytes read, and the error that ended it. -/
def readLoop (v offset size : ℕ) : ℕ → List UInt8 → FsM (List UInt8 × Option Errno)
  | 0, out => pure (out, none)
  | rounds + 1, out =>
    if out.length < size then do
      let cur := offset + out.length
      let toCopy := min (pageSize - cur % pageSize) (size - out.length)
      match ← cachedPage m v (cur / pageSize) with
      | .error e => pure (out, some e)
      | .ok page => do
        pagecachePutPage v (cur / pageSize)
        readLoop v offset size rounds
          (out ++ (List.range toCopy).map fun k => page (cur % pageSize + k))
    else pure (out, none)

/-- `fat32_vfs_read`: the bytes read at `pos`. -/
def fat32VfsRead (v size pos : ℕ) : FsM (Res (List UInt8)) := do
  let n ← node v
  if pos ≥ 2 ^ 32 then pure (.ok [])
  else if pos ≥ n.fileSize % 2 ^ 32 then pure (.ok [])
  else do
    let size := if pos + size > n.fileSize % 2 ^ 32 then n.fileSize % 2 ^ 32 - pos else size
    match ← readLoop m v pos size size [] with
    | ([], some e) => pure (.error e)
    | (out, _) => pure (.ok out)

/-- The loop of `fat32_vfs_write`: the bytes written, and the error that ended it. -/
def writeLoop (v offset : ℕ) (bytes : List UInt8) : ℕ → ℕ → FsM (ℕ × Option Errno)
  | 0, written => pure (written, none)
  | rounds + 1, written =>
    if written < bytes.length then do
      let cur := offset + written
      let idx := cur / pageSize
      let toCopy := min (pageSize - cur % pageSize) (bytes.length - written)
      match ← cachedPage m v idx with
      | .error e => pure (written, some e)
      | .ok page => do
        let page := copyBytes page (cur % pageSize) (fun k => bytes.getD (written + k) 0) toCopy
        pagecacheUpdate v idx fun p => { p with data := page }
        pagecacheMarkDirty v idx
        let n ← node v
        let valid := if (idx + 1) * pageSize ≤ n.fileSize then pageSize else cur % pageSize + toCopy
        let result ← fat32WritePage m v idx page valid
        -- a short count means the volume filled or a sector failed: the page is dropped
        let failed : Option Errno := match result with
          | .error e => some e
          | .ok k => if k < valid then some .enospc else none
        match failed with
        | some e => do
          pagecachePutPage v idx
          pagecacheDropPage v idx
          pure (written, some e)
        | none => do
          pagecacheClearDirty v idx
          pagecachePutPage v idx
          writeLoop v offset bytes rounds (written + toCopy)
    else pure (written, none)

/-- `fat32_vfs_write`: the number of bytes written at `pos`. -/
def fat32VfsWrite (v : ℕ) (bytes : List UInt8) (pos : ℕ) : FsM (Res ℕ) := do
  let n ← node v
  if n.type = .dir then pure (.error .eisdir)
  else if pos + bytes.length > 2 ^ 32 - 1 then pure (.error .efbig)
  else if bytes.length = 0 then pure (.ok 0)
  else
    match ← fat32EnsureStartCluster m v with
    | .error e => pure (.error e)
    | .ok _ =>
      match ← writeLoop m v pos bytes bytes.length 0 with
      | (0, some e) => pure (.error e)
      | (0, none) => pure (.ok 0)
      | (written, _) => do
        updateNode v fun n => { n with fileSize := max n.fileSize (pos + written) }
        let _ ← fat32UpdateDirEntry m v
        pure (.ok written)

/-- The last cluster a truncated file keeps: `skip` links behind `c`. -/
def lastKept : ℕ → ℕ → FsM ℕ
  | 0, c => pure c
  | skip + 1, c =>
    if !clusterValid m c then pure c
    else do
      let next ← getNextCluster m c
      lastKept skip next

/-- `fat32_truncate`. -/
def fat32Truncate (v length : ℕ) : FsM (Res Unit) := do
  let n ← node v
  if length > n.fileSize then pure (.error .enotsup)
  else if length = n.fileSize then pure (.ok ())
  else do
    pagecacheInvalidate m v
    let n ← node v
    let keep ← if length = 0 then pure n.cluster
      else lastKept m ((length - 1) / bytesPerCluster m) n.cluster
    let newTail := if clusterValid m keep then keep else 0
    let doomed ← if clusterValid m keep then do
        let next ← getNextCluster m keep
        pure (if clusterValid m next then next else 0)
      else pure 0
    updateNode v fun n => { n with fileSize := length }
    match ← fat32UpdateDirEntry m v with
    | .error e => do
      updateNode v fun k => { k with internalInfo := n.internalInfo, fileSize := n.fileSize }
      pure (.error e)
    | .ok _ => do
      -- whether the chain could be ended is not looked at
      if newTail ≠ 0 then do
        let _ ← setFatEntry m .tail newTail clusterEoc
        pure ()
      if doomed ≠ 0 then do
        let _ ← freeClusterChain m doomed
        pure ()
      pure (.ok ())

/-! ## References -/

/-- `vfs_vnode_put`, up the chain of parents that lose their last reference. -/
def vnodePut : ℕ → ℕ → FsM Unit
  | 0, _ => pure ()
  | fuel + 1, v => do
    let n ← node v
    updateNode v fun n => { n with refcount := n.refcount - 1 }
    if n.refcount = 1 then do
      if n.ops = .fat32 then do
        pagecacheForgetVnode v
        openUntrack m n.cluster
      Prog.modify fun s => s.setVnode v none
      match n.parent with
      | none => pure ()
      | some p => vnodePut fuel p
    else pure ()

/-- A chain of parents is no longer than the number of vnodes. -/
def vfsVnodePut (v : ℕ) : FsM Unit := do
  let s ← Prog.get
  vnodePut m s.nextVnode v

/-! ## Names -/

/-- The entry of a new file or directory. -/
def newEntry (attributes : UInt8) (c secs : ℕ) : DirEntry :=
  stampEntry ((DirEntry.zero.setAttributes attributes).setCluster c) secs true

/-- Add a name for a cluster that nothing refers to yet, or give the cluster back. -/
def insertNew (parentCluster : ℕ) (name : Name) (attributes : UInt8) (c : ℕ) : FsM (Res Unit) := do
  let secs ← wallTime m
  match ← fat32WriteDirEntries m parentCluster name (newEntry attributes c secs) with
  | .error e => do
    let _ ← freeClusterChain m c
    pure (.error e)
  | .ok _ => pure (.ok ())

/-- `fat32_create`. -/
def fat32Create (parent : ℕ) (name : Name) : FsM (Res Unit) := do
  let c ← allocateCluster m
  if c = 0 then pure (.error .enospc)
  else
    match ← zeroCluster m false c with
    | .error _ => do
      let _ ← freeClusterChain m c
      pure (.error .eio)
    | .ok _ => do
      let p ← node parent
      insertNew m p.cluster name 0x20 c

/-- The entry `.` or `..` of a new directory. -/
def dotEntry (name : List UInt8) (c : ℕ) : DirEntry :=
  ((DirEntry.zero.setShortName (padTo 11 name)).setAttributes 0x10).setCluster c

/-- The first sector of a new directory. -/
def dotSector (c dotdot : ℕ) : Sector := fun i =>
  if i = 0 then dotEntry [ch '.'] c
  else if i = 1 then dotEntry [ch '.', ch '.'] dotdot
  else DirEntry.zero

/-- `fat32_mkdir`. -/
def fat32Mkdir (parent : ℕ) (name : Name) : FsM (Res Unit) := do
  if name.length > 255 then pure (.error .einval)
  else
    match ← fat32VfsLookup m parent name with
    | some existing => do
      vfsVnodePut m existing
      pure (.error .eexist)
    | none => do
      let c ← allocateCluster m
      if c = 0 then pure (.error .enomem)
      else
        let undo : FsM (Res Unit) := do
          let _ ← freeClusterChain m c
          pure (.error .eio)
        match ← zeroCluster m false c with
        | .error _ => undo
        | .ok _ => do
          let p ← node parent
          match ← writeSector m .slotWrite c 0 (dotSector c (dotdotCluster m p.cluster)) with
          | .error _ => undo
          | .ok _ => insertNew m p.cluster name 0x10 c

/-- `fat32_unlink`. -/
def fat32Unlink (parent : ℕ) (name : Name) : FsM (Res Unit) := do
  let p ← node parent
  fat32RemoveEntry m p.cluster name false

/-- `fat32_rmdir`. -/
def fat32Rmdir (parent : ℕ) (name : Name) : FsM (Res Unit) := do
  let p ← node parent
  fat32RemoveEntry m p.cluster name true

/-! ## Rename -/

/-- `struct rename_find_ctx`, once the entry is found. -/
structure RenameFind where
  entry : DirEntry
  slot : Slot
  lfnSlots : List Slot

def renameFindCb (name : Name) : WalkCb (Option RenameFind) :=
  searchCb (namedEntry name) fun buf pos _ =>
    pure { action := .stop, buf := buf, dirty := false
           ctx := some { entry := buf pos.slot.index, slot := pos.slot, lfnSlots := pos.lfnSlots } }

/-- `fat32_set_dotdot`: a directory's `..` is its second slot. -/
def fat32SetDotdot (dirCluster parentCluster : ℕ) : FsM (Res Unit) := do
  match ← readSector m .slotRead dirCluster 0 with
  | .error _ => pure (.error .eio)
  | .ok sec =>
    if sec 1 0 ≠ ch '.' ∨ sec 1 1 ≠ ch '.' then pure (.ok ())
    else
      writeSector m .slotWrite dirCluster 0
        (Function.update sec 1 ((sec 1).setCluster (dotdotCluster m parentCluster)))

/-- Put the new name on disk: over the entry it replaces, whose chain is returned, or into
free slots. -/
def renamePlace (src : RenameFind) (target : Option RenameFind) (newParentCluster : ℕ)
    (newName : Name) : FsM (Res ℕ) :=
  match target with
  | some tgt =>
    if src.entry.isDir != tgt.entry.isDir then
      pure (.error (if src.entry.isDir then .enotdir else .eisdir))
    else do
      let empty ← if tgt.entry.isDir then fat32DirIsEmpty m tgt.entry.cluster else pure (.ok true)
      match empty with
      | .error e => pure (.error e)
      | .ok false => pure (.error .enotempty)
      | .ok true =>
        match ← putSlot m tgt.slot (src.entry.setShortName tgt.entry.shortName) with
        | .error e => pure (.error e)
        | .ok _ =>
          pure (.ok (if tgt.entry.cluster ≠ src.entry.cluster then tgt.entry.cluster else 0))
  | none => do
    match ← fat32WriteDirEntries m newParentCluster newName src.entry with
    | .error e => pure (.error e)
    | .ok _ => pure (.ok 0)

/-- What follows once the new name is on disk: the old name goes, then the chain nothing
names any more; a directory learns its new parent. -/
def renameFinish (src : RenameFind) (oldCluster newParentCluster replaced : ℕ) : FsM (Res Unit) := do
  match ← deleteSlots m (src.slot :: src.lfnSlots) with
  | .error e => pure (.error e)
  | .ok _ => do
    if replaced ≥ 2 then do
      let _ ← fat32ReleaseChain m replaced
      pure ()
    if src.entry.isDir && newParentCluster != oldCluster then do
      let _ ← fat32SetDotdot m src.entry.cluster newParentCluster
      pure ()
    pure (.ok ())

/-- Look for the entry of a name. -/
def renameFind (c : ℕ) (name : Name) : FsM (Res RenameFind) := do
  match ← dirWalk m (renameFindCb name) c false none with
  | (.ok _, some found) => pure (.ok found)
  | (.ok _, none) => pure (.error .enoent)
  | (.error e, _) => pure (.error e)

/-- `fat32_rename`. -/
def fat32Rename (oldParent : ℕ) (oldName : Name) (newParent : ℕ) (newName : Name) :
    FsM (Res Unit) := do
  let old ← node oldParent
  match ← renameFind m old.cluster oldName with
  | .error e => pure (.error e)
  | .ok src => do
    let new ← node newParent
    let target : Res (Option RenameFind) ← do
      match ← renameFind m new.cluster newName with
      -- finding the entry being renamed is a change of case, not a target
      | .ok tgt => pure (.ok (if tgt.slot = src.slot then none else some tgt))
      | .error .enoent => pure (.ok none)
      | .error e => pure (.error e)
    match target with
    | .error e => pure (.error e)
    | .ok target =>
      match ← renamePlace m src target new.cluster newName with
      | .error e => pure (.error e)
      | .ok replaced => renameFinish m src old.cluster new.cluster replaced

/-! ## Registered operations -/

/-- Run an operation that can change a directory entry. -/
def counted {α : Type} (x : FsM α) : FsM α := do
  let r ← x
  Prog.modify fun s => { s with entryGen := s.entryGen + 1 }
  pure r

def fat32OpCreate (parent : ℕ) (name : Name) : FsM (Res Unit) := counted (fat32Create m parent name)

def fat32OpMkdir (parent : ℕ) (name : Name) : FsM (Res Unit) := counted (fat32Mkdir m parent name)

def fat32OpUnlink (parent : ℕ) (name : Name) : FsM (Res Unit) := counted (fat32Unlink m parent name)

def fat32OpRmdir (parent : ℕ) (name : Name) : FsM (Res Unit) := counted (fat32Rmdir m parent name)

def fat32OpRename (oldParent : ℕ) (oldName : Name) (newParent : ℕ) (newName : Name) :
    FsM (Res Unit) :=
  counted (fat32Rename m oldParent oldName newParent newName)

def fat32OpWrite (v : ℕ) (bytes : List UInt8) (pos : ℕ) : FsM (Res ℕ) := do
  let r ← counted (fat32VfsWrite m v bytes pos)
  stampNode v
  pure r

def fat32OpTruncate (v length : ℕ) : FsM (Res Unit) := do
  let r ← counted (fat32Truncate m v length)
  stampNode v
  pure r

end Perspicua.Fs
