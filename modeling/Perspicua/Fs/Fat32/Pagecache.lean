import Perspicua.Fs.Fat32.File

/-!
# The page cache

`kernel/fs/pagecache.c`: a page belongs to a file, named by its start cluster, and an index.
The hash chains of the source only find pages faster; the cache is its list in order of use.
-/

namespace Perspicua.Fs

open Perspicua.Lib Prog

variable (m : Mount)

def pagecacheMaxPages : ℕ := 1024

/-- The page a request of this vnode means. -/
def CachePage.matches (n : Vnode) (pageIndex : ℕ) (p : CachePage) : Bool :=
  p.fileId == n.internalInfo && p.index == pageIndex

/-- Change one page of the cache. -/
def pagecacheUpdate (v pageIndex : ℕ) (f : CachePage → CachePage) : FsM Unit := do
  let n ← node v
  Prog.modify fun s =>
    { s with cache := s.cache.map fun p => if p.matches n pageIndex then f p else p }

/-- `pagecache_get_page`: the page, pinned and moved to the front. -/
def pagecacheGetPage (v pageIndex : ℕ) : FsM (Option Page) := do
  let n ← node v
  let s ← Prog.get
  match s.cache.find? (·.matches n pageIndex) with
  | none => pure none
  | some p => do
    Prog.modify fun s =>
      { s with cache := { p with pincount := p.pincount + 1 } ::
                  s.cache.filter fun q => !q.matches n pageIndex }
    pure (some p.data)

def pagecachePutPage (v pageIndex : ℕ) : FsM Unit :=
  pagecacheUpdate v pageIndex fun p => { p with pincount := p.pincount - 1 }

def pagecacheMarkDirty (v pageIndex : ℕ) : FsM Unit :=
  pagecacheUpdate v pageIndex fun p => { p with dirty := true }

def pagecacheClearDirty (v pageIndex : ℕ) : FsM Unit :=
  pagecacheUpdate v pageIndex fun p => { p with dirty := false }

/-- The page to evict, and the others: the least recently used one that is not pinned. -/
def evict : List CachePage → Option (CachePage × List CachePage)
  | [] => none
  | p :: ps =>
    match evict ps with
    | some (q, rest) => some (q, p :: rest)
    | none => if p.pincount = 0 then some (p, ps) else none

/-- Make room for a page: evict one from a full cache, or allocate a new entry. -/
def pagecacheRoom : FsM (Res Unit) := do
  let s ← Prog.get
  match if s.cache.length ≥ pagecacheMaxPages then evict s.cache else none with
  | some (p, rest) => do
    Prog.modify fun s => { s with cache := rest }
    match p.dirty, p.vnode with
    | true, some u => do
      let _ ← fat32WritePage m u p.index p.data pageSize
      pure (.ok ())
    | _, _ => pure (.ok ())
  | none => do
    if ← allocFails m then pure (.error .enomem) else pure (.ok ())

/-- `pagecache_add_page`. -/
def pagecacheAddPage (v pageIndex : ℕ) (data : Page) : FsM (Res Unit) := do
  let n ← node v
  let s ← Prog.get
  if s.cache.any (·.matches n pageIndex) then pure (.error .eexist)
  else
    match ← pagecacheRoom m with
    | .error e => pure (.error e)
    | .ok _ => do
      let n ← node v
      Prog.modify fun s =>
        { s with cache := { vnode := some v, fileId := n.internalInfo, index := pageIndex, data := data
                            dirty := false, pincount := 1 } :: s.cache }
      pure (.ok ())

/-- `pagecache_drop_page`. -/
def pagecacheDropPage (v pageIndex : ℕ) : FsM Unit := do
  let n ← node v
  Prog.modify fun s =>
    { s with cache := s.cache.filter fun p => !(p.matches n pageIndex && p.pincount == 0) }

/-- `pagecache_forget_vnode`. -/
def pagecacheForgetVnode (v : ℕ) : FsM Unit :=
  Prog.modify fun s =>
    { s with cache := s.cache.map fun p => if p.vnode = some v then { p with vnode := none } else p }

/-- Write back the dirty ones of some pages. -/
def writeBack (v : ℕ) : List CachePage → FsM Unit
  | [] => pure ()
  | p :: ps => do
    if p.dirty then do
      let _ ← fat32WritePage m v p.index p.data pageSize
      writeBack v ps
    else writeBack v ps

/-- `pagecache_invalidate`: drop a file's pages, writing back what is dirty. -/
def pagecacheInvalidate (v : ℕ) : FsM Unit := do
  let n ← node v
  let s ← Prog.get
  pagecacheDiscard n.internalInfo
  writeBack m v (s.cache.filter fun p => p.fileId == n.internalInfo && p.pincount == 0)

end Perspicua.Fs
