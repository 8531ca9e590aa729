import Perspicua.Fs.Fat32.Dir

/-!
# Operations on directory entries

Finding, reading back, updating, inserting and removing entries: each is a walk with its
own callback.
-/

namespace Perspicua.Fs

open Perspicua.Lib Prog

variable (m : Mount)

def wallTime : FsM ℕ := do
  let s ← Prog.get
  pure (m.env.wallTime s.tick)

/-! ## The entry of an open file -/

/-- The entry `update_entry_cb` takes for the file's: the one with its start cluster, or one
still without a cluster that has its name. -/
def updateWanted (n : Vnode) (e : DirEntry) (pos : DirPos) : Bool :=
  !e.free && if e.cluster ≠ 0 then e.cluster == n.cluster else entryNamed n.name e pos.lfnName

def updateEntryCb (n : Vnode) : WalkCb Unit :=
  searchCb (updateWanted n) fun buf pos ctx => do
    let secs ← wallTime m
    let e := ((buf pos.slot.index).setSize n.fileSize).setCluster n.cluster
    pure { action := .stop, buf := Function.update buf pos.slot.index (stampEntry e secs false)
           dirty := true, ctx := ctx }

/-- `fat32_update_dir_entry`: persist a vnode's size and start cluster. -/
def fat32UpdateDirEntry (v : ℕ) : FsM (Res Unit) := do
  let n ← node v
  match n.parent with
  | none => pure (.error .einval)
  | some p => do
    let parent ← node p
    let r ← dirWalk m (updateEntryCb m n) parent.cluster false ()
    pure r.1

/-- The entry `revalidate_cb` takes for the file's. -/
def revalidateWanted (n : Vnode) (e : DirEntry) (pos : DirPos) : Bool :=
  !e.free && if n.cluster ≠ 0 then e.cluster == n.cluster else entryNamed n.name e pos.lfnName

/-- A vnode still without a cluster adopts the one another vnode gave the file. -/
def revalidateCb (v : ℕ) (n : Vnode) : WalkCb Unit :=
  searchCb (revalidateWanted n) fun buf pos ctx => do
    let e := buf pos.slot.index
    updateNode v fun n => { n with fileSize := e.size }
    let taken ← if e.cluster ≠ n.cluster then nodeTakeCluster m v e.cluster else pure (.ok ())
    match taken with
    | .error _ => pure { action := .error .enomem, buf := buf, dirty := false, ctx := ctx }
    | .ok _ => pure { action := .stop, buf := buf, dirty := false, ctx := ctx }

/-- Stamp a vnode with the current generation. -/
def stampNode (v : ℕ) : FsM Unit := do
  let s ← Prog.get
  updateNode v fun n => { n with revalidated := s.entryGen }

def fat32Revalidate (v : ℕ) : FsM (Res Unit) := do
  let n ← node v
  match n.parent with
  | none => pure (.ok ())
  | some p => do
    let s ← Prog.get
    if n.type ≠ .regular ∨ n.revalidated = s.entryGen then pure (.ok ())
    else do
      let parent ← node p
      match ← dirWalk m (revalidateCb m v n) parent.cluster false () with
      -- no entry is not an error: an unlinked file stays open
      | (.error .enoent, _) | (.ok _, _) => do
        stampNode v
        pure (.ok ())
      | (.error e, _) => pure (.error e)

/-! ## Lookup -/

/-- The vnode `lookup_cb` fills in for an entry. -/
def entryNode (e : DirEntry) (dir gen : ℕ) : Vnode :=
  { type := if e.isDir then .dir else .regular
    name := []
    fileSize := e.size
    parent := some dir
    ops := .fat32
    internalInfo := e.cluster
    refcount := 1
    revalidated := gen }

def lookupCb (dir : ℕ) (filename : Name) : WalkCb (Option ℕ) :=
  searchCb (namedEntry filename) fun buf pos ctx => do
    let e := buf pos.slot.index
    let oom : CbOut (Option ℕ) := { action := .error .enomem, buf := buf, dirty := false, ctx := ctx }
    if ← allocFails m then pure oom
    else
      match ← openTrack m e.cluster with
      | .error _ => pure oom
      | .ok _ => do
        let s ← Prog.get
        Prog.modify fun s =>
          { s.setVnode s.nextVnode (some (entryNode e dir s.entryGen)) with
            nextVnode := s.nextVnode + 1 }
        updateNode dir fun d => { d with refcount := d.refcount + 1 }
        pure { action := .stop, buf := buf, dirty := false, ctx := some s.nextVnode }

def fat32VfsLookup (dir : ℕ) (filename : Name) : FsM (Option ℕ) := do
  let d ← node dir
  let r ← dirWalk m (lookupCb m dir filename) d.cluster false none
  pure r.2

/-! ## Removing an entry -/

/-- `dir_empty_cb`: stop at anything that is not deleted, `.` or `..`. -/
def dirEmptyCb : WalkCb Unit :=
  searchCb (fun e _ => !e.free && e.first != ch '.') fun buf _ ctx =>
    pure { action := .stop, buf := buf, dirty := false, ctx := ctx }

def fat32DirIsEmpty (c : ℕ) : FsM (Res Bool) := do
  match ← dirWalk m dirEmptyCb c false () with
  | (.ok _, _) => pure (.ok false)
  | (.error .enoent, _) => pure (.ok true)
  | (.error e, _) => pure (.error e)

/-- `remove_entry_cb`. The context is the chain to release once the entry is on disk. -/
def removeEntryCb (name : Name) (wantDir : Bool) : WalkCb ℕ :=
  searchCb (namedEntry name) fun buf pos ctx => do
    let e := buf pos.slot.index
    let refuse (err : Errno) (buf : Sector) : CbOut ℕ :=
      { action := .error err, buf := buf, dirty := false, ctx := ctx }
    if wantDir && !e.isDir then pure (refuse .enotdir buf)
    else if !wantDir && e.isDir then pure (refuse .eisdir buf)
    else do
      let empty ← if wantDir then fat32DirIsEmpty m e.cluster else pure (.ok true)
      match empty with
      | .error err => pure (refuse err buf)
      | .ok false => pure (refuse .enotempty buf)
      | .ok true =>
        match ← clearLfnSlots m pos.slot pos.lfnSlots buf with
        | (.error err, buf) => pure (refuse err buf)
        | (.ok _, buf) =>
          pure { action := .stop
                 buf := Function.update buf pos.slot.index ((buf pos.slot.index).setFirst 0xE5)
                 dirty := true
                 ctx := e.cluster }

def fat32RemoveEntry (parentCluster : ℕ) (name : Name) (wantDir : Bool) : FsM (Res Unit) := do
  match ← dirWalk m (removeEntryCb m name wantDir) parentCluster false 0 with
  | (.error e, _) => pure (.error e)
  | (.ok _, freed) => if freed ≥ 2 then fat32ReleaseChain m freed else pure (.ok ())

/-! ## Inserting an entry -/

/-- `short_name_taken_cb`. -/
def shortNameTakenCb (short : List UInt8) : WalkCb Bool := fun buf pos ctx =>
  let e := buf pos.slot.index
  pure <|
    if e.first = 0 then { action := .stop, buf := buf, dirty := false, ctx := ctx }
    else if e.first = 0xE5 then { action := .cont, buf := buf, dirty := false, ctx := ctx }
    else if e.shortName = short then { action := .stop, buf := buf, dirty := false, ctx := true }
    else { action := .cont, buf := buf, dirty := false, ctx := ctx }

def aliasScanMax : ℕ := 1024

/-- `alias_scan_cb`. The context lists the tails in use. -/
def aliasScanCb (base ext : List UInt8) : WalkCb (List ℕ) := fun buf pos taken =>
  let e := buf pos.slot.index
  let n := aliasNumber (e.shortName.take 8)
  pure <|
    if e.first = 0 then { action := .stop, buf := buf, dirty := false, ctx := taken }
    else if e.first = 0xE5 ∨ e.shortName.drop 8 ≠ ext ∨ n = 0 ∨ n > aliasScanMax then
      { action := .cont, buf := buf, dirty := false, ctx := taken }
    else
      -- the number is read off the entry; rebuilding the alias confirms the rest
      { action := .cont, buf := buf, dirty := false
        ctx := if aliasWithTail base n = some (e.shortName.take 8) then n :: taken else taken }

/-- The candidates of `generate_short_name` past the scanned range, one walk each. -/
def aliasSearch (dirCluster : ℕ) (base ext : List UInt8) : ℕ → ℕ → FsM (Res (List UInt8))
  | 0, _ => pure (.error .eexist)
  | rounds + 1, n =>
    match aliasWithTail base n with
    | none => pure (.error .eexist)
    | some name => do
      match ← dirWalk m (shortNameTakenCb (name ++ ext)) dirCluster false false with
      | (.ok _, taken) | (.error .enoent, taken) =>
        if taken then aliasSearch dirCluster base ext rounds (n + 1) else pure (.ok (name ++ ext))
      | (.error e, _) => pure (.error e)

/-- `generate_short_name`: the 8.3 alias a long name is stored under. -/
def generateShortName (dirCluster : ℕ) (filename : Name) : FsM (Res (List UInt8)) := do
  let base := (aliasBase filename).1
  let ext := padTo 3 (aliasBase filename).2
  match ← dirWalk m (aliasScanCb base ext) dirCluster false [] with
  | (.ok _, taken) | (.error .enoent, taken) =>
    match (List.range aliasScanMax).find? fun k => !taken.contains (k + 1) with
    | some k =>
      match aliasWithTail base (k + 1) with
      | some name => pure (.ok (name ++ ext))
      | none => pure (.error .eexist)
    | none => aliasSearch m dirCluster base ext (1000000 - (aliasScanMax + 1)) (aliasScanMax + 1)
  | (.error e, _) => pure (.error e)

/-- `struct find_slots_ctx`. -/
structure FindSlots where
  needed : ℕ
  out : List Slot
  /-- Ordinal of the run's latest slot. -/
  last : ℕ

/-- `find_slots_cb`: a run of consecutive free slots. -/
def findSlotsCb : WalkCb FindSlots := fun buf pos ctx =>
  let e := buf pos.slot.index
  pure <|
    if !e.free then
      { action := .cont, buf := buf, dirty := false, ctx := { ctx with out := [] } }
    else
      -- live fragments are never shown, so a gap in the ordinals is one
      let run := if ctx.out ≠ [] ∧ pos.ordinal ≠ ctx.last + 1 then [] else ctx.out
      let ctx := { ctx with out := run ++ [pos.slot], last := pos.ordinal }
      if ctx.out.length = ctx.needed then { action := .stop, buf := buf, dirty := false, ctx := ctx }
      else if e.first = 0 then
        -- claim the marker so that the walk does not stop here
        { action := .cont, buf := Function.update buf pos.slot.index (e.setFirst 0xE5), dirty := true
          ctx := ctx }
      else { action := .cont, buf := buf, dirty := false, ctx := ctx }

/-- Write one entry after the other. -/
def putSlots : List (Slot × DirEntry) → FsM (Res Unit)
  | [] => pure (.ok ())
  | (sl, e) :: rest => do
    match ← putSlot m sl e with
    | .error err => pure (.error err)
    | .ok _ => putSlots rest

/-- The entries that carry one name, in the order of their slots: the fragments of a long
name, the last one first, and then the 8.3 entry. -/
def nameEntries (filename : Name) (lfns : ℕ) (short : DirEntry) : List DirEntry :=
  (List.range lfns).map (fun k => lfnEntry filename lfns (lfns - k) (lfnChecksum short.shortName))
    ++ [short]

/-- `fat32_write_dir_entries`: add one name to a directory. -/
def fat32WriteDirEntries (dirCluster : ℕ) (filename : Name) (short : DirEntry) : FsM (Res Unit) := do
  if filename.length > 255 then pure (.error .enametoolong)
  else do
    let spelled : Res (List UInt8 × ℕ) ←
      if nameFits83 filename then pure (.ok ((nameAs83 filename).getD (padTo 11 []), 0))
      else do
        match ← generateShortName m dirCluster filename with
        | .error e => pure (.error e)
        | .ok name => pure (.ok (name, (filename.length + 12) / 13))
    match spelled with
    | .error e => pure (.error e)
    | .ok (name, lfns) =>
      match ← dirWalk m findSlotsCb dirCluster true { needed := lfns + 1, out := [], last := 0 } with
      | (.ok _, ctx) | (.error .enoent, ctx) =>
        if ctx.out.length < ctx.needed then pure (.error .enospc)
        else putSlots m (ctx.out.zip (nameEntries filename lfns (short.setShortName name)))
      | (.error e, _) => pure (.error e)

end Perspicua.Fs
