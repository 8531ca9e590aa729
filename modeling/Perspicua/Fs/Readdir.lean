import Perspicua.Fs.Fat32.Readdir
import Perspicua.Fs.Procfs
import Perspicua.Fs.VfsTheorems
import Perspicua.Lib.Cursor

/-!
# Listing directories

`vfs_readdir` of `kernel/fs/vfs.c` lists a directory in three phases: the two dots, the entries of
the file system, and the mounts below the directory. Where a listing has come to is kept in the
open file (`DirPos`), with a position for the file system that only its own readdir understands.
The readdirs of procfs and devfs are here too; that of FAT32 is in `Fs.Fat32.Readdir`.

Locks are left out: a call is one step, and nothing changes between the calls but the number of
block requests. The names of vnodes and devices have at most 255 bytes, so that copying one into
an entry loses nothing.
-/

namespace Perspicua.Fs.Vfs

open Perspicua.Lib Prog

/-! ## The file systems -/

/-- What listings depend on: the FAT volume, the processes, and the names in `devfs_devices`. -/
structure Systems where
  fat : FsState
  kernel : Procfs.Kernel
  devices : List Name

/-- The loop of a readdir that goes from entry to entry: `next` gives the entry at an offset and the
offset behind it. With none left the offset becomes `stop`. -/
def readdirLoop (next : ℕ → Option (Dirent × ℕ)) (stop : ℕ → ℕ) : ℕ → ℕ → List Dirent × ℕ
  | offset, 0 => ([], offset)
  | offset, n + 1 =>
    match next offset with
    | none => ([], stop offset)
    | some (entry, offset') =>
      let rest := readdirLoop next stop offset' n
      (entry :: rest.1, rest.2)

/-- The names in `procfs_static_files`, and `self`. -/
def procfsStaticNames : List Name :=
  ["version", "uptime", "meminfo", "interrupts", "schedstat", "mounts", "cpuinfo", "stat",
    "self"].map Procfs.str

/-- `static_count` -/
def staticCount : ℕ := 9

def processLive (k : Procfs.Kernel) (i : ℕ) : Bool :=
  if h : i < Procfs.processTableSize then (k.processTable ⟨i, h⟩).isSome else false

def pidDirent (i : ℕ) : Dirent := ⟨Procfs.fmtUint 10 i, 100 + i⟩

/-- The entry at an offset of the root of procfs. -/
def procfsRootNext (k : Procfs.Kernel) (offset : ℕ) : Option (Dirent × ℕ) :=
  if offset < staticCount then some (⟨procfsStaticNames.getD offset [], offset + 1⟩, offset + 1)
  else
    let pidIdx := offset - staticCount
    (firstLive (processLive k) (Procfs.processTableSize - pidIdx) pidIdx).map fun i =>
      (pidDirent i, staticCount + i + 1)

def procfsRootReaddir (k : Procfs.Kernel) (offset maxEntries : ℕ) : List Dirent × ℕ :=
  readdirLoop (procfsRootNext k) (fun _ => staticCount + Procfs.processTableSize) offset maxEntries

/-- `static_entries` of a process directory. -/
def pidStaticNames : List Name := ["status", "maps", "cmdline", "cwd", "fd"].map Procfs.str

def procfsPidNext (offset : ℕ) : Option (Dirent × ℕ) :=
  if offset < 5 then some (⟨pidStaticNames.getD offset [], offset + 10⟩, offset + 1) else none

def procfsPidReaddir (offset maxEntries : ℕ) : List Dirent × ℕ :=
  readdirLoop procfsPidNext id offset maxEntries

/-- Whether a process has a descriptor. -/
def fdLive (p : Procfs.Process) (i : ℕ) : Bool :=
  if h : i < Procfs.vfsMaxFds then (p.fdTable ⟨i, h⟩).isSome else false

def fdDirent (i : ℕ) : Dirent := ⟨Procfs.fmtUint 10 i, 1000 + i⟩

def procfsPidFdNext (p : Procfs.Process) (offset : ℕ) : Option (Dirent × ℕ) :=
  (firstLive (fdLive p) (Procfs.vfsMaxFds - offset) offset).map fun i => (fdDirent i, i + 1)

/-- `process_slot` -/
def processSlot (k : Procfs.Kernel) (pid : ℕ) : Option Procfs.Process :=
  if h : pid < Procfs.processTableSize then k.processTable ⟨pid, h⟩ else none

def procfsPidFdReaddir (k : Procfs.Kernel) (pid offset maxEntries : ℕ) : List Dirent × ℕ :=
  match processSlot k pid with
  | none => ([], offset)
  | some p => readdirLoop (procfsPidFdNext p) (fun _ => Procfs.vfsMaxFds) offset maxEntries

def devfsRootReaddir (devices : List Name) (offset maxEntries : ℕ) : List Dirent × ℕ :=
  let out := ((devices.drop (offset % 2 ^ 32)).take maxEntries).map fun name => ⟨name, 0⟩
  (out, offset + out.length)

/-- The object of a vnode: its operations and what the file system keeps in it. -/
structure FsObject where
  ops : VnodeOps
  internalInfo : ℕ
deriving DecidableEq

/-- A program of the FAT driver. -/
def onFat {α : Type} (x : FsM α) : Prog Systems α := fun s => ((x s.fat).1, { s with fat := (x s.fat).2 })

theorem ends_onFat {α : Type} {x : FsM α} {s : Systems} {Q : α → Systems → Prop} :
    Ends (onFat x) s Q ↔ Ends x s.fat fun a t => Q a { s with fat := t } := Iff.rfl

/-- `ops->readdir` of a directory, if there is one. -/
def opsReaddir (m : Mount) (o : FsObject) : Option (Reader Systems Fs.Errno ℕ Dirent) :=
  match o.ops with
  | .fat32 => some fun offset n => onFat (fat32VfsReaddir m n true (o.internalInfo % 2 ^ 32) offset)
  | .procfsRoot => some fun offset n => fun s => (.ok (procfsRootReaddir s.kernel offset n), s)
  | .procfsPidDir => some fun offset n => fun s => (.ok (procfsPidReaddir offset n), s)
  | .procfsPidFdDir => some fun offset n => fun s =>
      (.ok (procfsPidFdReaddir s.kernel (o.internalInfo % 2 ^ 32) offset n), s)
  | .devfsRoot => some fun offset n => fun s => (.ok (devfsRootReaddir s.devices offset n), s)
  | .procfsFile | .device => none

/-! ## `vfs_readdir` -/

/-- `struct vfs_dir_pos` -/
structure DirPos where
  fsOffset : ℕ
  mountIdx : ℕ
  dotIdx : ℕ

/-- The position of a file that was just opened. -/
def DirPos.start : DirPos := ⟨0, 0, 0⟩

/-- The dots, and the new `dot_idx`. -/
def readdirDots (dotIdx maxEntries : ℕ) : List Dirent × ℕ :=
  let one : List Dirent × ℕ := if 0 < maxEntries ∧ dotIdx = 0 then ([⟨dot, 1⟩], 1) else ([], dotIdx)
  if one.1.length < maxEntries ∧ one.2 = 1 then (one.1 ++ [⟨dotdot, 2⟩], 2) else one

section Vfs

variable (v : State FsObject) (node : ℕ)

/-- `is_child`: by pointer, or for the root directory by path. -/
def isChild (e : MountEntry) : Bool :=
  (v.vnodes e.root).parent == some node ||
    ((v.vnodes node).parent == none && (v.vnodes node).name == [] &&
      e.path.head? == some slash && e.path.tail != [] && !e.path.tail.contains slash)

/-- The entry for the mount with number `i`. -/
def mountDirent (i : ℕ) (e : MountEntry) : Option Dirent :=
  if isChild v node e then some ⟨(v.vnodes e.root).name, 9000 + i⟩ else none

/-- The loop over the mounts from `mount_idx` on: the entries, and the new `mount_idx`. -/
def readdirMounts (maxEntries : ℕ) : List MountEntry → ℕ → List Dirent → List Dirent × ℕ
  | [], idx, out => (out, idx)
  | e :: es, idx, out =>
    if out.length < maxEntries then
      readdirMounts maxEntries es (idx + 1) (out ++ (mountDirent v node (idx - 1) e).toList)
    else (out, idx)

/-- The third phase, and the end of the call. -/
def readdirMountPhase (maxEntries fsOffset mountIdx dotIdx : ℕ) (out : List Dirent) :
    List Dirent × DirPos :=
  let r := readdirMounts v node maxEntries (v.mounts.drop (mountIdx - 1)) mountIdx out
  (r.1, ⟨fsOffset, r.2, dotIdx⟩)

/-- `vfs_readdir` of an open file with the vnode `node`. A call that fails leaves the position. -/
def vfsReaddir (m : Mount) : Reader Systems Fs.Errno DirPos Dirent := fun pos maxEntries => do
  if maxEntries = 0 then pure (.error .einval)
  else if !(v.vnodes node).dir then pure (.error .enotdir)
  else
    match opsReaddir m (v.vnodes node).object with
    | none => pure (.error .enotdir)
    | some readdir =>
      let dots := readdirDots pos.dotIdx maxEntries
      if pos.dotIdx < 2 ∧ dots.1.length ≥ maxEntries then
        pure (.ok (dots.1, { pos with dotIdx := dots.2 }))
      else if pos.mountIdx = 0 then do
        match ← readdir pos.fsOffset (maxEntries - dots.1.length) with
        | .error e => pure (.error e)
        | .ok (entries, offset) =>
          if (dots.1 ++ entries).length = maxEntries then
            pure (.ok (dots.1 ++ entries, ⟨offset % 2 ^ 32, 0, dots.2⟩))
          else
            pure (.ok (readdirMountPhase v node maxEntries (offset % 2 ^ 32) 1 dots.2 (dots.1 ++ entries)))
      else pure (.ok (readdirMountPhase v node maxEntries pos.fsOffset pos.mountIdx dots.2 dots.1))

end Vfs

end Perspicua.Fs.Vfs
