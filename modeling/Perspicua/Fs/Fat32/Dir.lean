import Perspicua.Fs.Fat32.Fat
import Perspicua.Fs.Fat32.Names

/-!
# Directories

`fat32_dir_walk` shows every entry of a directory to a callback, together with the long name
assembled from the fragments before it. The callback edits the walk's copy of the sector,
which the walk writes back, and decides how the walk goes on. The operations on directories
are callbacks, and what their callers do around the walk.
-/

namespace Perspicua.Fs

open Perspicua.Lib Prog

variable (m : Mount)

/-! ## The walk -/

/-- `struct fat32_dir_pos`: an entry's position, and the long name that belongs to it. -/
structure DirPos where
  slot : Slot
  /-- `lfn_name`, when `has_lfn`. -/
  lfnName : Option Name
  lfnSlots : List Slot
  /-- Slot number from the start of the directory, fragments included. -/
  ordinal : ℕ

/-- `enum fat32_walk_action`, with the error of the callback. -/
inductive WalkAction
  | cont
  | stop
  | error (e : Errno)

/-- What a callback leaves behind: its decision, the sector, whether to write it back, and
its context. -/
structure CbOut (γ : Type) where
  action : WalkAction
  buf : Sector
  dirty : Bool
  ctx : γ

/-- `fat32_dir_walk_cb`. The entry shown is `buf pos.slot.index`. -/
abbrev WalkCb (γ : Type) := Sector → DirPos → γ → FsM (CbOut γ)

/-- What the walk knows about the fragments it has just passed. -/
structure WalkLfn where
  run : LfnRun
  slots : List Slot
  ordinal : ℕ

namespace WalkLfn

def start : WalkLfn := { run := LfnRun.start, slots := [], ordinal := 0 }

/-- Pass a fragment. -/
def fragment (w : WalkLfn) (sl : Slot) (e : DirEntry) : WalkLfn :=
  let slots := if lfnIsLast e then [] else w.slots
  let added := lfnAdd w.run e
  { run := added.2
    slots := if added.1 then (if slots.length < 20 then slots ++ [sl] else slots) else []
    ordinal := w.ordinal + 1 }

/-- Pass an entry. -/
def entry (w : WalkLfn) : WalkLfn :=
  { run := lfnReset w.run, slots := [], ordinal := w.ordinal + 1 }

/-- The position of the entry `e`. -/
def pos (w : WalkLfn) (sl : Slot) (e : DirEntry) : DirPos :=
  let named := lfnNames w.run e
  { slot := sl
    lfnName := if named then some w.run.string else none
    lfnSlots := if named then w.slots else []
    ordinal := w.ordinal }

end WalkLfn

section Walk

variable {γ : Type} (cb : WalkCb γ)

/-- Show an entry to the callback and write the sector back if it asks for it. -/
def walkShow (buf : Sector) (pos : DirPos) (ctx : γ) : FsM (Res Unit × CbOut γ) := do
  let out ← cb buf pos ctx
  if out.dirty then do
    let written ← writeSector m .dirWrite pos.slot.cluster pos.slot.sector out.buf
    pure (written, out)
  else pure (.ok (), out)

/-- One slot of the walk. -/
def walkSlot (c sec : ℕ) (i : Fin 16) (b : Sector × WalkLfn × γ) :
    FsM (Ctl (Sector × WalkLfn × γ) (Res Unit × γ)) := do
  let (buf, w, ctx) := b
  let sl : Slot := { cluster := c, sector := sec, index := i }
  if (buf i).isLfn then pure (.next (buf, w.fragment sl (buf i), ctx))
  else do
    match ← walkShow m cb buf (w.pos sl (buf i)) ctx with
    | (.error _, out) => pure (.ret (.error .eio, out.ctx))
    | (.ok _, out) =>
      match out.action with
      | .stop => pure (.ret (.ok (), out.ctx))
      | .error e => pure (.ret (.error e, out.ctx))
      | .cont =>
        -- nothing valid follows the end marker, unless the callback claimed the slot
        if (out.buf i).first = 0 then pure (.ret (.error .enoent, out.ctx))
        else pure (.next (out.buf, w.entry, out.ctx))

/-- One sector of the walk. -/
def walkSector (c sec : ℕ) (b : WalkLfn × γ) : FsM (Ctl (WalkLfn × γ) (Res Unit × γ)) := do
  match ← readSector m .dirRead c sec with
  | .error _ => pure (.ret (.error .eio, b.2))
  | .ok buf =>
    match ← iterate (walkSlot m cb c sec) (List.finRange 16) (buf, b) with
    | .ret r => pure (.ret r)
    | .next b => pure (.next b.2)

/-- The loop over the clusters of a directory, with the number of clusters the walk may
still visit. -/
def walkClusters (growChain : Bool) : ℕ → ℕ → WalkLfn × γ → FsM (Res Unit × γ)
  | visits, c, b =>
    if !clusterValid m c then pure (.error .enoent, b.2)
    else
      match visits with
      | 0 => pure (.error .eio, b.2)
      | visits + 1 => do
        match ← iterate (walkSector m cb c) (List.range m.sectorsPerCluster) b with
        | .ret r => pure r
        | .next b => do
          let next ← getNextCluster m c
          if next = clusterIoerr then pure (.error .eio, b.2)
          else if next < clusterEocMin then walkClusters growChain visits next b
          else if !growChain then pure (.error .enoent, b.2)
          else do
            let new ← extendClusterChain m c
            if new = 0 then pure (.error .enomem, b.2)
            else
              match ← zeroCluster m true new with
              | .error _ => pure (.error .eio, b.2)
              | .ok _ => walkClusters growChain visits new b

def maxDirClusters : ℕ := 65536

/-- `fat32_dir_walk`: the result, and the callback's context at the end. -/
def dirWalk (parentCluster : ℕ) (growChain : Bool) (ctx : γ) : FsM (Res Unit × γ) :=
  walkClusters m cb growChain maxDirClusters parentCluster (WalkLfn.start, ctx)

end Walk

/-- A callback that does something at the entries it looks for and goes on at the others. -/
def searchCb {γ : Type} (wanted : DirEntry → DirPos → Bool) (found : WalkCb γ) : WalkCb γ :=
  fun buf pos ctx =>
    if wanted (buf pos.slot.index) pos then found buf pos ctx
    else pure { action := .cont, buf := buf, dirty := false, ctx := ctx }

/-- A name search skips free slots. -/
def namedEntry (name : Name) (e : DirEntry) (pos : DirPos) : Bool :=
  !e.free && entryNamed name e pos.lfnName

/-! ## Single slots -/

/-- `fat32_put_slot`. -/
def putSlot (sl : Slot) (e : DirEntry) : FsM (Res Unit) := do
  match ← readSector m .slotRead sl.cluster sl.sector with
  | .error _ => pure (.error .eio)
  | .ok buf =>
    match ← writeSector m .slotWrite sl.cluster sl.sector (Function.update buf sl.index e) with
    | .error _ => pure (.error .eio)
    | .ok _ => pure (.ok ())

/-- Mark a slot deleted on disk. -/
def deleteSlot (sl : Slot) : FsM (Res Unit) := do
  match ← readSector m .slotRead sl.cluster sl.sector with
  | .error _ => pure (.error .eio)
  | .ok buf =>
    match ← writeSector m .slotWrite sl.cluster sl.sector
        (Function.update buf sl.index ((buf sl.index).setFirst 0xE5)) with
    | .error _ => pure (.error .eio)
    | .ok _ => pure (.ok ())

/-- Mark slots deleted, one after the other. -/
def deleteSlots : List Slot → FsM (Res Unit)
  | [] => pure (.ok ())
  | sl :: sls => do
    match ← deleteSlot m sl with
    | .error e => pure (.error e)
    | .ok _ => deleteSlots sls

/-- `fat32_clear_lfn_slots`: slots inside the walk's own sector are edited in its buffer. -/
def clearLfnSlots (at_ : Slot) : List Slot → Sector → FsM (Res Unit × Sector)
  | [], buf => pure (.ok (), buf)
  | sl :: sls, buf =>
    if sl.cluster = at_.cluster ∧ sl.sector = at_.sector then
      clearLfnSlots at_ sls (Function.update buf sl.index ((buf sl.index).setFirst 0xE5))
    else do
      match ← deleteSlot m sl with
      | .error e => pure (.error e, buf)
      | .ok _ => clearLfnSlots at_ sls buf

end Perspicua.Fs
