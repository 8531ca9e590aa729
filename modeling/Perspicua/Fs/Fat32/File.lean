import Perspicua.Fs.Fat32.DirOps

/-!
# File contents

Bytes are read and written through the page cache of `kernel/fs/pagecache.c`. A write goes
through to the disk before it returns, so that a page is dirty only while it is pinned.
-/

namespace Perspicua.Fs

open Perspicua.Lib Prog

variable (m : Mount)

def bytesPerCluster : ℕ := m.sectorsPerCluster * 512

/-- The sector with the bytes `f 0`, …, `f 511`. -/
def Sector.ofBytes (f : ℕ → UInt8) : Sector := fun i j => f (32 * i + j)

/-- `memcpy(buf + off, src, n)`. -/
def copyBytes (buf : ℕ → UInt8) (off : ℕ) (src : ℕ → UInt8) (n : ℕ) : ℕ → UInt8 := fun k =>
  if off ≤ k ∧ k < off + n then src (k - off) else buf k

/-! ## Pages on disk -/

/-- The loop of `fat32_read_page` that skips whole clusters. -/
def readSkip : ℕ → ℕ → FsM (Res ℕ)
  | 0, c => pure (.ok c)
  | skip + 1, c => do
    let next ← getNextCluster m c
    if next ≥ clusterEocMin then pure (.error .eio) else readSkip skip next

/-- The loop of `fat32_read_page` over the sectors of the page. -/
def readSectors (start toRead : ℕ) : ℕ → ℕ → ℕ → Page → FsM (Res Page)
  | 0, _, _, page => pure (.ok page)
  | rounds + 1, c, bytesRead, page =>
    if bytesRead < toRead then do
      let offsetInCluster := (start + bytesRead) % bytesPerCluster m
      match ← readSector m .dataRead c (offsetInCluster / 512) with
      | .error e => pure (.error e)
      | .ok sec => do
        let toCopy := min (512 - offsetInCluster % 512) (toRead - bytesRead)
        let page := copyBytes page bytesRead (fun k => sec.byte (offsetInCluster % 512 + k)) toCopy
        if (start + bytesRead + toCopy) % bytesPerCluster m = 0 then do
          let next ← getNextCluster m c
          if next ≥ clusterEocMin ∧ bytesRead + toCopy < toRead then pure (.error .eio)
          else readSectors start toRead rounds next (bytesRead + toCopy) page
        else readSectors start toRead rounds c (bytesRead + toCopy) page
    else pure (.ok page)

/-- `fat32_read_page`. Below the recorded size every byte has to come off the disk. -/
def fat32ReadPage (v pageIndex : ℕ) : FsM (Res Page) := do
  let n ← node v
  let start := pageIndex * pageSize % 2 ^ 32
  if start ≥ n.fileSize then pure (.ok fun _ => 0)
  else
    match ← readSkip m (start / bytesPerCluster m) n.cluster with
    | .error e => pure (.error e)
    | .ok c =>
      -- the sum is one of 32-bit numbers
      let toRead := if (start + pageSize) % 2 ^ 32 > n.fileSize then n.fileSize - start else pageSize
      readSectors m start toRead pageSize c 0 fun _ => 0

/-- The cluster after `c`, appended if there is none. -/
def nextOrExtend (c : ℕ) : FsM (Res ℕ) := do
  let next ← getNextCluster m c
  if next = clusterIoerr then pure (.error .eio)
  else if next ≥ clusterEocMin then do
    let new ← extendClusterChain m c
    if new = 0 then pure (.error .enospc) else pure (.ok new)
  else pure (.ok next)

/-- The loop of `fat32_write_page` that skips whole clusters. -/
def writeSkip : ℕ → ℕ → FsM (Res ℕ)
  | 0, c => pure (.ok c)
  | skip + 1, c => do
    match ← nextOrExtend m c with
    | .error e => pure (.error e)
    | .ok next => writeSkip skip next

/-- The loop of `fat32_write_page` over the sectors of the page: the bytes written. -/
def writeSectors (start validBytes : ℕ) (page : Page) : ℕ → ℕ → ℕ → FsM (Res ℕ)
  | 0, _, written => pure (.ok written)
  | rounds + 1, c, written =>
    if written < validBytes then do
      let offsetInCluster := (start + written) % bytesPerCluster m
      let off := offsetInCluster % 512
      let old : Sector ←
        if off ≠ 0 ∨ validBytes - written < 512 then do
          match ← readSector m .dataRead c (offsetInCluster / 512) with
          | .error _ => pure fun _ => DirEntry.zero
          | .ok sec => pure sec
        else pure fun _ => DirEntry.zero
      let toCopy := min (512 - off) (validBytes - written)
      let sec := Sector.ofBytes (copyBytes old.byte off (fun k => page (written + k)) toCopy)
      match ← writeSector m .dataWrite c (offsetInCluster / 512) sec with
      | .error e => if written > 0 then pure (.ok written) else pure (.error e)
      | .ok _ =>
        if (start + written + toCopy) % bytesPerCluster m = 0 ∧ written + toCopy < validBytes then do
          match ← nextOrExtend m c with
          | .error _ => pure (.ok (written + toCopy))
          | .ok next => writeSectors start validBytes page rounds next (written + toCopy)
        else writeSectors start validBytes page rounds c (written + toCopy)
    else pure (.ok written)

/-- Give a file its first cluster and record it on disk; the result of recording it is not
looked at. -/
def giveStartCluster (v : ℕ) : FsM (Res Unit) := do
  let c ← allocateCluster m
  if c = 0 then pure (.error .enospc)
  else
    match ← nodeTakeCluster m v c with
    | .error _ => do
      let _ ← setFatEntry m .undo c 0
      pure (.error .enomem)
    | .ok _ => do
      let _ ← fat32UpdateDirEntry m v
      Prog.modify fun s => { s with entryGen := s.entryGen + 1 }
      pure (.ok ())

/-- `fat32_ensure_start_cluster`. -/
def fat32EnsureStartCluster (v : ℕ) : FsM (Res Unit) := do
  let n ← node v
  if n.cluster ≠ 0 then pure (.ok ()) else giveStartCluster m v

/-- `fat32_write_page`: the bytes written. -/
def fat32WritePage (v pageIndex : ℕ) (page : Page) (validBytes : ℕ) : FsM (Res ℕ) := do
  match ← fat32EnsureStartCluster m v with
  | .error e => pure (.error e)
  | .ok _ => do
    let n ← node v
    let start := pageIndex * pageSize % 2 ^ 32
    match ← writeSkip m (start / bytesPerCluster m) n.cluster with
    | .error e => pure (.error e)
    | .ok c => writeSectors m start validBytes page pageSize c 0

end Perspicua.Fs
