import Perspicua.Fs.Fat32.Names
import Perspicua.Lib.Machine

/-!
# Mounts and paths

`vfs_mount` and `vfs_resolve_path` of `kernel/fs/vfs.c`, over file systems of which only the
lookup is known. A lookup makes a new vnode each time, so two vnodes of one directory are
different pointers; a vnode's number stands for its address. The vnodes that are mounted are
the exception: a mount keeps its root.

What the file systems hold may change from call to call, so every call is given the lookup that
answers it. Reference counts, and with them the release of vnodes, are left out: a vnode that
nothing refers to keeps its number.
-/

namespace Perspicua.Fs.Vfs

open Perspicua.Lib Prog

/-- `VFS_MAX_MOUNTS` -/
def vfsMaxMounts : ℕ := 8

/-- `VFS_MAX_MOUNT_PATH` -/
def vfsMaxMountPath : ℕ := 64

/-- `VFS_MAX_PATH_LEN` -/
def vfsMaxPathLen : ℕ := 4096

inductive Errno
  | enoent
  | enotdir
  | einval
  | enametoolong
  | enfile
  | eexist
deriving DecidableEq

abbrev slash : UInt8 := ch '/'

/-- `strtok_r` with the delimiter `/`; `acc` is the part of a token read so far. -/
def tokensFrom (acc : Name) : Name → List Name
  | [] => if acc = [] then [] else [acc]
  | c :: rest =>
    if c = slash then if acc = [] then tokensFrom [] rest else acc :: tokensFrom [] rest
    else tokensFrom (acc ++ [c]) rest

def tokens (path : Name) : List Name := tokensFrom [] path

def dot : Name := [ch '.']

def dotdot : Name := [ch '.', ch '.']

/-! ## Vnodes and mounts -/

/-- What a lookup finds: an object of a file system, whether it is a directory and whether its
operations include a lookup. -/
structure Found (Obj : Type) where
  object : Obj
  dir : Bool
  hasLookup : Bool
deriving DecidableEq

/-- `struct vfs_vnode` -/
structure Vnode (Obj : Type) extends Found Obj where
  name : Name
  parent : Option ℕ

/-- `struct vfs_mount_entry` -/
structure MountEntry where
  path : Name
  root : ℕ
deriving DecidableEq

structure State (Obj : Type) where
  vnodes : ℕ → Vnode Obj
  /-- The first number that no vnode has yet. -/
  next : ℕ
  /-- `vfs_mount_table`, as far as it is in use. -/
  mounts : List MountEntry

/-- The answers of the lookup operations. -/
abbrev Lookup (Obj : Type) := Obj → Name → Option (Found Obj)

namespace State

variable {Obj : Type}

def setVnode (s : State Obj) (v : ℕ) (n : Vnode Obj) : State Obj :=
  { s with vnodes := Function.update s.vnodes v n }

/-- A new vnode. -/
def alloc (s : State Obj) (n : Vnode Obj) : State Obj := { s.setVnode s.next n with next := s.next + 1 }

/-- The object of a vnode. -/
def found (s : State Obj) (v : ℕ) : Found Obj := (s.vnodes v).toFound

end State

/-! ## Resolution -/

section Resolve

variable {Obj : Type}

/-- The test in `find_mount`: the mount's path is where the path starts, up to a separator. -/
def MountEntry.covers (e : MountEntry) (path : Name) : Bool :=
  e.path.isPrefixOf path &&
    (e.path.length ≤ 1 || (path.drop e.path.length).head?.all (· == slash))

def findMount (mounts : List MountEntry) (path : Name) : Option MountEntry :=
  mounts.foldl (fun best e =>
    if e.covers path then
      match best with
      | none => some e
      | some b => if b.path.length ≤ e.path.length then some e else best
    else best) none

/-- The mount that `vfs_resolve_path` crosses into: the loop leaves out the first entry. -/
def crossing (s : State Obj) (curr : ℕ) (token : Name) : Option MountEntry :=
  s.mounts.tail.find? fun e =>
    (s.vnodes e.root).parent = some curr ∧ (s.vnodes e.root).name = token

/-- One round of the loop in `vfs_resolve_path`. -/
def resolveToken (look : Lookup Obj) (curr : ℕ) (token : Name) :
    Prog (State Obj) (Except Errno ℕ) := do
  let s ← Prog.get
  let c := s.vnodes curr
  if !c.dir then pure (.error .enotdir)
  else if token = dot then pure (.ok curr)
  else if token = dotdot then pure (.ok (c.parent.getD curr))
  else
    match crossing s curr token with
    | some e => pure (.ok e.root)
    | none =>
      if !c.hasLookup then pure (.error .enotdir)
      else
        match look c.object token with
        | none => pure (.error .enoent)
        | some f => do
          Prog.modify fun s => s.alloc { f with name := token.take 255, parent := some curr }
          pure (.ok s.next)

def resolveTokens (look : Lookup Obj) : List Name → ℕ → Prog (State Obj) (Except Errno ℕ)
  | [], curr => pure (.ok curr)
  | token :: rest, curr => do
    match ← resolveToken look curr token with
    | .error e => pure (.error e)
    | .ok next => resolveTokens look rest next

def hasTrailingSlash (path : Name) : Bool := 1 < path.length && path.getLast? == some slash

/-- The part of `vfs_resolve_path` after the starting point is known. -/
def resolveRest (look : Lookup Obj) (path remainder : Name) (curr : ℕ) :
    Prog (State Obj) (Except Errno ℕ) :=
  if remainder = [] then pure (.ok curr)
  else do
    match ← resolveTokens look (tokens (remainder.take (vfsMaxPathLen - 1))) curr with
    | .error e => pure (.error e)
    | .ok v => do
      let s ← Prog.get
      if hasTrailingSlash path && !(s.vnodes v).dir then pure (.error .enotdir) else pure (.ok v)

def vfsResolvePath (look : Lookup Obj) (path : Name) (cwd : Option ℕ) :
    Prog (State Obj) (Except Errno ℕ) := do
  let s ← Prog.get
  if path.head? = some slash then
    match findMount s.mounts path with
    | none => pure (.error .enoent)
    | some best =>
      if path = best.path then pure (.ok best.root)
      else
        let rest := path.drop best.path.length
        resolveRest look path (if rest.head? = some slash then rest.tail else rest) best.root
  else
    match cwd with
    | some v => resolveRest look path path v
    | none =>
      match findMount s.mounts [slash] with
      | none => pure (.error .enoent)
      | some best => resolveRest look path path best.root

end Resolve

/-! ## Mounting -/

section Mount

variable {Obj : Type}

/-- What is before the last separator, and what is behind it. -/
def beforeLast (path : Name) : Name := ((path.reverse.dropWhile (· != slash)).drop 1).reverse

def afterLast (path : Name) : Name := (path.reverse.takeWhile (· != slash)).reverse

/-- The parent's path in `vfs_mount`. -/
def mountParentPath (path : Name) : Name :=
  if beforeLast path = [] then [slash] else beforeLast path

/-- `vfs_mount` names the root after the path and resolves the parent. -/
def mountParent (look : Lookup Obj) (path : Name) (root : ℕ) : Prog (State Obj) (Option ℕ) := do
  if path ≠ [slash] then do
    if afterLast path ≠ [] then
      Prog.modify fun s => s.setVnode root { s.vnodes root with name := (afterLast path).take 255 }
    match ← vfsResolvePath look (mountParentPath path) none with
    | .error _ => pure none
    | .ok v => pure (some v)
  else do
    Prog.modify fun s => s.setVnode root { s.vnodes root with parent := none, name := [] }
    pure none

/-- The part of `vfs_mount` that is done with `vfs_lock` held. -/
def mountEnter (path : Name) (root : ℕ) (parent : Option ℕ) :
    Prog (State Obj) (Except Errno Unit) := do
  let s ← Prog.get
  if s.mounts.length ≥ vfsMaxMounts then pure (.error .enfile)
  else if s.mounts.any fun e => path = e.path then pure (.error .eexist)
  else do
    match parent with
    | none => pure ()
    | some p => Prog.modify fun s => s.setVnode root { s.vnodes root with parent := some p }
    Prog.modify fun s => { s with mounts := s.mounts ++ [⟨path, root⟩] }
    pure (.ok ())

def vfsMount (look : Lookup Obj) (path : Name) (root : ℕ) :
    Prog (State Obj) (Except Errno Unit) := do
  if path.head? ≠ some slash then pure (.error .einval)
  else if path.length ≥ vfsMaxMountPath then pure (.error .enametoolong)
  else do
    let parent ← mountParent look path root
    mountEnter path root parent

end Mount

/-! ## The machine -/

/-- What happens to the mount table and the vnodes: a file system makes the vnode of its root,
mounts it, or a path is resolved. -/
inductive Act (Obj : Type)
  | create (f : Found Obj) (name : Name)
  | mount (look : Lookup Obj) (path : Name) (root : ℕ)
  | resolve (look : Lookup Obj) (path : Name) (cwd : Option ℕ)

def step {Obj : Type} (s : State Obj) : Act Obj → Option (State Obj)
  | .create f name => some (s.alloc { f with name := name, parent := none })
  | .mount look path root => if root < s.next then some (vfsMount look path root s).2 else none
  | .resolve look path cwd => some (vfsResolvePath look path cwd s).2

/-! ## Resolution component by component

What a path means: every component is looked up in the directory reached so far, and a mount is
entered whenever its mount point is reached, however it was reached. A place is the way to it
from the root, the last component first. -/

section Component

variable {Obj : Type}

/-- `.` and `..` taken out. -/
def canonical (names : List Name) : List Name :=
  names.foldl (fun way n =>
    if n = dot then way else if n = dotdot then way.dropLast else way ++ [n]) []

/-- The mount points and what is mounted there. -/
def State.points (s : State Obj) : List (List Name × Found Obj) :=
  s.mounts.map fun e => (canonical (tokens e.path), s.found e.root)

/-- The components on the way to a place. -/
def way (place : List (Name × Found Obj)) : List Name := (place.map Prod.fst).reverse

/-- The object at a place; `top` is the one at the root. -/
def here (top : Found Obj) (place : List (Name × Found Obj)) : Found Obj :=
  (place.head?.map Prod.snd).getD top

def componentStep (look : Lookup Obj) (points : List (List Name × Found Obj)) (top : Found Obj)
    (place : List (Name × Found Obj)) (token : Name) : Except Errno (List (Name × Found Obj)) :=
  if !(here top place).dir then .error .enotdir
  else if token = dot then .ok place
  else if token = dotdot then .ok place.tail
  else
    match points.find? fun p => p.1 = way place ++ [token] with
    | some p => .ok ((token, p.2) :: place)
    | none =>
      if !(here top place).hasLookup then .error .enotdir
      else
        match look (here top place).object token with
        | none => .error .enoent
        | some f => .ok ((token, f) :: place)

def componentWalk (look : Lookup Obj) (points : List (List Name × Found Obj)) (top : Found Obj) :
    List Name → List (Name × Found Obj) → Except Errno (List (Name × Found Obj))
  | [], place => .ok place
  | token :: rest, place => do
    let place ← componentStep look points top place token
    componentWalk look points top rest place

def componentResolve (s : State Obj) (look : Lookup Obj) (path : Name) : Except Errno (Found Obj) :=
  match s.points.find? fun p => p.1 = [] with
  | none => .error .enoent
  | some p => do
    let place ← componentWalk look s.points p.2 (tokens path) []
    if hasTrailingSlash path && !(here p.2 place).dir then .error .enotdir else .ok (here p.2 place)

end Component

end Perspicua.Fs.Vfs
