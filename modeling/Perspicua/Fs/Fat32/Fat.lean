import Perspicua.Fs.Fat32.State

/-!
# The file allocation table

Following, allocating, extending and freeing cluster chains. The copies of the FAT are
written one after the other, so that a failure can leave them different; the driver reads
the first copy only.
-/

namespace Perspicua.Fs

open Perspicua.Lib

variable (m : Mount)

/-- Values from here on end a chain. -/
def clusterEocMin : ℕ := 0x0FFFFFF8

def clusterEoc : ℕ := 0x0FFFFFFF

/-- A FAT that could not be read. -/
def clusterIoerr : ℕ := 0xFFFFFFFF

def getNextCluster (c : ℕ) : FsM ℕ := do
  if !clusterValid m c then pure clusterEoc
  else if ← blockFails m (.fatRead .next 0) then pure clusterIoerr
  else do
    let s ← Prog.get
    pure (s.vol.next c)

/-- The loop of `set_fat_entry` over the copies of the FAT. -/
def setFatCopies (use : FatUse) (c value : ℕ) : List ℕ → FsM (Res Unit)
  | [] => pure (.ok ())
  | i :: is => do
    if ← blockFails m (.fatRead use i) then pure (.error .eio)
    else if ← blockFails m (.fatWrite use i) then pure (.error .eio)
    else do
      Prog.modify fun s => { s with vol := s.vol.setFat i c (value % 2 ^ 28) }
      setFatCopies use c value is

def setFatEntry (use : FatUse) (c value : ℕ) : FsM (Res Unit) :=
  if !clusterValid m c then pure (.error .einval)
  else setFatCopies m use c value (List.range m.numFats)

/-- The cluster tried in round `n` of the search. -/
def allocCandidate (hint n : ℕ) : ℕ :=
  if hint + n > m.maxCluster then 2 + (hint + n - m.maxCluster - 1) else hint + n

/-- The search of `allocate_cluster`: `rounds` more rounds from round `n` on. A FAT sector
holds 128 words and is read once while the search stays in it. -/
def allocScan (hint : ℕ) : ℕ → ℕ → Option ℕ → FsM ℕ
  | 0, _, _ => pure 0
  | rounds + 1, n, lastSector => do
    let cluster := allocCandidate m hint n
    let failed ← if lastSector = some (cluster / 128) then pure false else blockFails m .scan
    if failed then pure 0
    else do
      let s ← Prog.get
      if s.vol.next cluster = 0 then
        match ← setFatEntry m .alloc cluster clusterEoc with
        | .error _ => pure 0
        | .ok _ => do
          Prog.modify fun s =>
            { s with nextFreeHint := if cluster < m.maxCluster then cluster + 1 else 2 }
          pure cluster
      else allocScan hint rounds (n + 1) (some (cluster / 128))

/-- `allocate_cluster`: a cluster marked end-of-chain, or 0. -/
def allocateCluster : FsM ℕ := do
  Prog.modify fun s =>
    if s.nextFreeHint < 2 ∨ s.nextFreeHint > m.maxCluster then { s with nextFreeHint := 2 } else s
  let s ← Prog.get
  allocScan m s.nextFreeHint (m.maxCluster - 1) 0 none

/-- The loop of `zero_cluster` over the sectors. -/
def zeroSectors (growing : Bool) (c : ℕ) : List ℕ → FsM (Res Unit)
  | [] => pure (.ok ())
  | s :: ss => do
    match ← writeSector m (.zero growing) c s fun _ => DirEntry.zero with
    | .error e => pure (.error e)
    | .ok _ => zeroSectors growing c ss

def zeroCluster (growing : Bool) (c : ℕ) : FsM (Res Unit) :=
  zeroSectors m growing c (List.range m.sectorsPerCluster)

def dotdotCluster (parentCluster : ℕ) : ℕ :=
  if parentCluster = m.rootCluster then 0 else parentCluster

/-- `extend_cluster_chain`: a new cluster linked behind `last`, or 0. -/
def extendClusterChain (last : ℕ) : FsM ℕ := do
  let new ← allocateCluster m
  if new = 0 then pure 0
  else if last ≠ 0 then
    match ← setFatEntry m .link last new with
    | .error _ => do
      let _ ← setFatEntry m .undo new 0
      pure 0
    | .ok _ => pure new
  else pure new

/-- The loop of `fat32_free_cluster_chain`. A freed cluster links to 0, so the loop ends
within one round for each cluster of the volume. -/
def freeChainFrom : ℕ → ℕ → FsM (Res Unit)
  | 0, _ => pure (.ok ())
  | rounds + 1, current => do
    if !clusterValid m current then pure (.ok ())
    else do
      let next ← getNextCluster m current
      match ← setFatEntry m .free current 0 with
      | .error _ => pure (.error .eio)
      | .ok _ => freeChainFrom rounds next

def freeClusterChain (start : ℕ) : FsM (Res Unit) := freeChainFrom m (m.maxCluster + 1) start

/-! ## Open files -/

/-- `pagecache_discard`: drop a file's pages, but not one that is in use. -/
def pagecacheDiscard (fileId : ℕ) : FsM Unit :=
  Prog.modify fun s =>
    { s with cache := s.cache.filter fun p => !(p.fileId == fileId && p.pincount == 0) }

def openFind (c : ℕ) (opens : List OpenFile) : Option OpenFile := opens.find? (·.cluster == c)

/-- Change the record of an open file. -/
def openUpdate (c : ℕ) (f : OpenFile → OpenFile) (opens : List OpenFile) : List OpenFile :=
  opens.map fun o => if o.cluster = c then f o else o

def openTrack (c : ℕ) : FsM (Res Unit) := do
  if c < 2 then pure (.ok ())
  else do
    let s ← Prog.get
    match openFind c s.opens with
    | some _ => do
      Prog.modify fun s =>
        { s with opens := openUpdate c (fun o => { o with count := o.count + 1 }) s.opens }
      pure (.ok ())
    | none => do
      if ← allocFails m then pure (.error .enomem)
      else do
        Prog.modify fun s => { s with opens := { cluster := c, count := 1, orphaned := false } :: s.opens }
        pure (.ok ())

def openUntrack (c : ℕ) : FsM Unit := do
  let s ← Prog.get
  match openFind c s.opens with
  | none => pure ()
  | some o =>
    if o.count > 1 then
      Prog.modify fun s =>
        { s with opens := openUpdate c (fun o => { o with count := o.count - 1 }) s.opens }
    else do
      Prog.modify fun s => { s with opens := s.opens.filter fun o => o.cluster != c }
      if o.orphaned then do
        pagecacheDiscard c
        let _ ← freeClusterChain m c
        pure ()
      else pure ()

/-- `fat32_release_chain`: free a chain no entry names any more, or leave it to the last
release. -/
def fat32ReleaseChain (c : ℕ) : FsM (Res Unit) := do
  let s ← Prog.get
  match openFind c s.opens with
  | some _ => do
    Prog.modify fun s =>
      { s with opens := openUpdate c (fun o => { o with orphaned := true }) s.opens }
    pure (.ok ())
  | none => do
    pagecacheDiscard c
    freeClusterChain m c

/-! ## Vnodes -/

def Vnode.blank : Vnode :=
  { type := .regular, name := [], fileSize := 0, parent := none, ops := .fat32, internalInfo := 0,
    refcount := 0, revalidated := 0 }

/-- The vnode behind a pointer. -/
def node (v : ℕ) : FsM Vnode := do
  let s ← Prog.get
  pure ((s.vnodes v).getD Vnode.blank)

/-- Assign fields of the vnode behind a pointer. -/
def updateNode (v : ℕ) (f : Vnode → Vnode) : FsM Unit :=
  Prog.modify fun s => s.setVnode v ((s.vnodes v).map f)

/-- `node_take_cluster`: a start cluster only ever goes from none to its first. -/
def nodeTakeCluster (v c : ℕ) : FsM (Res Unit) := do
  match ← openTrack m c with
  | .error _ => pure (.error .enomem)
  | .ok _ => do
    let n ← node v
    openUntrack m n.cluster
    updateNode v fun n => { n with internalInfo := c }
    pure (.ok ())

end Perspicua.Fs
