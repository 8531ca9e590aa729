import Perspicua.Mm.Pmm

/-!
# User page tables

The user half of `kernel/mm/mmu.c`. A user address space is a three-level tree of tables,
each in a page of its own. `Pgd` holds one array per level, indexed by the path from the
root: `l1 i` is the page of the level-2 table behind entry `i` of the root, `l2 (i, j)` the
entry `j` of that table, `l3 (i, j, k)` the raw 64-bit leaf. Level-1 entries are only ever
zero or a table, so they need no word of their own. The pages of tables are kernel
addresses; an entry stores their physical address.

TLB maintenance is left out: a translation always sees the tables as they are.
-/

namespace Perspicua.Mm

/-! ## Descriptor words -/

abbrev Word := BitVec 64

def pteValid : Word := 0x1
def ptePage : Word := 0x2
def apUser : Word := 0x40
def apRo : Word := 0x80
def uxn : Word := 0x40000000000000
def pteCow : Word := 0x80000000000000
def pteAddrMask : Word := 0x0000FFFFFFFFF000

/-- `w & m` as a condition. -/
def has (w m : Word) : Bool := w &&& m != 0#64

/-- The physical address an entry names. -/
def pteAddr (w : Word) : ℕ := (w &&& pteAddrMask).toNat

/-- The kernel pointer to the page an entry names. -/
def ptePtr (w : Word) : ℕ := p2v (pteAddr w)

/-! ## Tables -/

abbrev Ix := Fin 512

def l1Idx (va : ℕ) : Ix := Fin.ofNat 512 (va >>> 30)
def l2Idx (va : ℕ) : Ix := Fin.ofNat 512 (va >>> 21)
def l3Idx (va : ℕ) : Ix := Fin.ofNat 512 (va >>> 12)

/-- The path of a virtual address. -/
def vaPath (va : ℕ) : Ix × Ix × Ix := (l1Idx va, l2Idx va, l3Idx va)

/-- An entry of a level-2 table: a 2 MB block keeps its word, a table its page. -/
inductive L2Entry
  | invalid
  | block (w : Word)
  | table (page : ℕ)
deriving DecidableEq

structure Pgd where
  page : ℕ
  l1 : Ix → Option ℕ
  l2 : Ix × Ix → L2Entry
  l3 : Ix × Ix × Ix → Word

namespace Pgd

/-- A root table on a zeroed page. -/
def empty (page : ℕ) : Pgd :=
  { page := page, l1 := fun _ => none, l2 := fun _ => .invalid, l3 := fun _ => 0#64 }

/-- Hang a zeroed level-2 table into the root. -/
def addL2Table (pgd : Pgd) (i : Ix) (page : ℕ) : Pgd :=
  { pgd with
    l1 := Function.update pgd.l1 i (some page)
    l2 := fun x => if x.1 = i then .invalid else pgd.l2 x }

def setL2 (pgd : Pgd) (x : Ix × Ix) (e : L2Entry) : Pgd :=
  { pgd with l2 := Function.update pgd.l2 x e }

/-- Hang a level-3 table with the given entries into a level-2 table. -/
def addL3Table (pgd : Pgd) (x : Ix × Ix) (page : ℕ) (entries : Ix → Word) : Pgd :=
  { pgd.setL2 x (.table page) with
    l3 := fun y => if (y.1, y.2.1) = x then entries y.2.2 else pgd.l3 y }

def setL3 (pgd : Pgd) (x : Ix × Ix × Ix) (w : Word) : Pgd :=
  { pgd with l3 := Function.update pgd.l3 x w }

end Pgd

/-- One page for a caller that tests for `NULL`: address zero is as good as none. -/
def allocPage (pmm : Pmm) : Except Panic (Option ℕ × Pmm) :=
  (pmm.pmmAllocPagesNozero 1).map fun r => (r.1.filter (· != 0), r.2)

/-- `alloc_user_table_page`; the zeroed page is the empty table it is used as. -/
def allocUserTablePage (pmm : Pmm) : Except Panic (Option ℕ × Pmm) := allocPage pmm

/-- `alloc_table_page`, which does not return without a page. -/
def allocTablePage (pmm : Pmm) : Except Panic (ℕ × Pmm) := do
  match ← allocUserTablePage pmm with
  | (none, _) => .error "mmu: table allocation failed"
  | (some page, pmm) => .ok (page, pmm)

/-- Take a reference on the page behind an entry, if the allocator manages it. -/
def holdEntry (pmm : Pmm) (w : Word) : Except Panic Pmm :=
  if pmm.pmmIsManaged (ptePtr w) then pmm.pmmHoldPage (ptePtr w) else .ok pmm

/-- Release the page behind a valid entry, if the allocator manages it. -/
def releaseEntry (pmm : Pmm) (w : Word) : Except Panic Pmm :=
  if has w pteValid && pmm.pmmIsManaged (ptePtr w) then pmm.pmmFreePages (ptePtr w) else .ok pmm

/-- `split_block_to_pages`: the leaves that replace a 2 MB block. -/
def splitEntries (block : Word) (k : Ix) : Word :=
  let blockAttr := block &&& ~~~pteAddrMask &&& ~~~ptePage
  (BitVec.ofNat 64 (pteAddr block + k * pageSize)) ||| pteValid ||| ptePage ||| blockAttr

def splitBlockToPages (pmm : Pmm) (pgd : Pgd) (x : Ix × Ix) (block : Word) :
    Except Panic (Pgd × Pmm) := do
  let (page, pmm) ← allocTablePage pmm
  .ok (pgd.addL3Table x page (splitEntries block), pmm)

/-! ## Destroying an address space -/

/-- A `pmm_free_page` call that is still to be made, with what the page was for. -/
inductive Pending
  | leaf (ptr : ℕ)
  | table (ptr : ℕ)
deriving DecidableEq

def Pending.ptr : Pending → ℕ
  | leaf ptr => ptr
  | table ptr => ptr

/-- The release of a leaf or a block, nothing for a page the allocator does not manage. -/
def pendingLeaf (pmm : Pmm) (w : Word) : List Pending :=
  if pmm.pmmIsManaged (ptePtr w) then [.leaf (ptePtr w)] else []

/-- What destroying one level-2 entry releases, in order. -/
def destroyL2 (pmm : Pmm) (pgd : Pgd) (i j : Ix) : List Pending :=
  match pgd.l2 (i, j) with
  | .invalid => []
  | .block w => pendingLeaf pmm w
  | .table page =>
    ((List.finRange 512).flatMap fun k =>
      let w := pgd.l3 (i, j, k)
      if has w pteValid && has w ptePage then pendingLeaf pmm w else []) ++ [.table page]

/-- What destroying one root entry releases, in order. -/
def destroyL1 (pmm : Pmm) (pgd : Pgd) (i : Ix) : List Pending :=
  match pgd.l1 i with
  | none => []
  | some page => ((List.finRange 512).flatMap (destroyL2 pmm pgd i)) ++ [.table page]

/-- The releases `mmu_destroy_user_pgd` makes, in order. It runs on a table nobody else can
reach, so the walk may be computed ahead of the releases. -/
def mmuDestroyUserPgd (pmm : Pmm) (pgd : Pgd) : List Pending :=
  ((List.finRange 512).flatMap (destroyL1 pmm pgd)) ++ [.table pgd.page]

/-! ## Copying an address space -/

/-- The entry both sides of a fork get. -/
def cowMark (w : Word) : Word :=
  if has w apRo then w else (w &&& ~~~apRo) ||| (apRo ||| pteCow)

/-- Where the three nested loops of `mmu_copy_user_pgd` stand. -/
inductive ForkPos
  | l1 (i : ℕ)
  | l2 (i j : ℕ)
  | l3 (i j k : ℕ)
deriving DecidableEq

inductive ForkOut
  | next (pos : ForkPos)
  | done
  | oom
deriving DecidableEq

def ix (i : ℕ) : Ix := Fin.ofNat 512 i

/-- One iteration of a loop of `mmu_copy_user_pgd`. -/
def mmuCopyStep (pmm : Pmm) (parent child : Pgd) :
    ForkPos → Except Panic (Pmm × Pgd × Pgd × ForkOut)
  | .l1 i =>
    if i ≥ 512 then .ok (pmm, parent, child, .done)
    else
      match parent.l1 (ix i) with
      | none => .ok (pmm, parent, child, .next (.l1 (i + 1)))
      | some _ => do
        match ← allocUserTablePage pmm with
        | (none, pmm) => .ok (pmm, parent, child, .oom)
        | (some page, pmm) =>
          .ok (pmm, parent, child.addL2Table (ix i) page, .next (.l2 i 0))
  | .l2 i j =>
    if j ≥ 512 then .ok (pmm, parent, child, .next (.l1 (i + 1)))
    else
      match parent.l2 (ix i, ix j) with
      | .invalid => .ok (pmm, parent, child, .next (.l2 i (j + 1)))
      | .block w => do
        let pte := cowMark w
        let parent := if has w apRo then parent else parent.setL2 (ix i, ix j) (.block pte)
        let child := child.setL2 (ix i, ix j) (.block pte)
        let pmm ← holdEntry pmm pte
        .ok (pmm, parent, child, .next (.l2 i (j + 1)))
      | .table _ => do
        match ← allocUserTablePage pmm with
        | (none, pmm) => .ok (pmm, parent, child, .oom)
        | (some page, pmm) =>
          .ok (pmm, parent, child.addL3Table (ix i, ix j) page fun _ => 0#64, .next (.l3 i j 0))
  | .l3 i j k =>
    if k ≥ 512 then .ok (pmm, parent, child, .next (.l2 i (j + 1)))
    else
      let w := parent.l3 (ix i, ix j, ix k)
      if !has w pteValid then .ok (pmm, parent, child, .next (.l3 i j (k + 1)))
      else do
        let pte := cowMark w
        let parent := if has w apRo then parent else parent.setL3 (ix i, ix j, ix k) pte
        let child := child.setL3 (ix i, ix j, ix k) pte
        let pmm ← holdEntry pmm pte
        .ok (pmm, parent, child, .next (.l3 i j (k + 1)))

/-! ## Mapping and unmapping one page -/

/-- The level-2 table for a path: `none` if it is missing and no page is left for it. -/
def ensureL2Table (pmm : Pmm) (pgd : Pgd) (i : Ix) : Except Panic (Option Pgd × Pmm) :=
  match pgd.l1 i with
  | some _ => .ok (some pgd, pmm)
  | none => (allocUserTablePage pmm).map fun r => (r.1.map (pgd.addL2Table i), r.2)

/-- The level-3 table for a path whose level-2 table is there. -/
def ensureL3Table (pmm : Pmm) (pgd : Pgd) (x : Ix × Ix) : Except Panic (Option Pgd × Pmm) :=
  match pgd.l2 x with
  | .table _ => .ok (some pgd, pmm)
  | .block w => (splitBlockToPages pmm pgd x w).map fun r => (some r.1, r.2)
  | .invalid =>
    (allocUserTablePage pmm).map fun r => (r.1.map fun page => pgd.addL3Table x page fun _ => 0#64, r.2)

/-- The word `mmu_user_map_page` writes. -/
def mapWord (paddr : ℕ) (flags : Word) : Word :=
  (BitVec.ofNat 64 paddr &&& pteAddrMask) ||| pteValid ||| ptePage ||| flags

/-- `mmu_user_map_page`. The flag is whether it returned 0; `-ENOMEM` may leave an empty
table behind. -/
def mmuUserMapPage (pmm : Pmm) (pgd : Pgd) (va paddr : ℕ) (flags : Word) :
    Except Panic (Bool × Pgd × Pmm) := do
  let x := vaPath va
  match ← ensureL2Table pmm pgd x.1 with
  | (none, pmm) => .ok (false, pgd, pmm)
  | (some pgd, pmm) =>
    match ← ensureL3Table pmm pgd (x.1, x.2.1) with
    | (none, pmm) => .ok (false, pgd, pmm)
    | (some pgd, pmm) =>
      let pmm ← releaseEntry pmm (pgd.l3 x)
      .ok (true, pgd.setL3 x (mapWord paddr flags), pmm)

/-- Zero a leaf and release the page it mapped. -/
def clearLeaf (pmm : Pmm) (pgd : Pgd) (x : Ix × Ix × Ix) : Except Panic (Pgd × Pmm) :=
  if has (pgd.l3 x) pteValid then
    (releaseEntry pmm (pgd.l3 x)).map fun pmm => (pgd.setL3 x 0#64, pmm)
  else .ok (pgd, pmm)

def mmuUserUnmapPage (pmm : Pmm) (pgd : Pgd) (va : ℕ) : Except Panic (Pgd × Pmm) :=
  let x := vaPath va
  match pgd.l1 x.1, pgd.l2 (x.1, x.2.1) with
  | none, _ => .ok (pgd, pmm)
  | some _, .invalid => .ok (pgd, pmm)
  | some _, .block w => do
    let (pgd, pmm) ← splitBlockToPages pmm pgd (x.1, x.2.1) w
    clearLeaf pmm pgd x
  | some _, .table _ => clearLeaf pmm pgd x

/-- `user_leaf_pte`: the leaf a virtual address is translated by, if its tables are there. -/
def userLeafPte (pgd : Pgd) (va : ℕ) : Option Word :=
  let x := vaPath va
  match pgd.l1 x.1, pgd.l2 (x.1, x.2.1) with
  | some _, .table _ => some (pgd.l3 x)
  | _, _ => none

/-- `mmu_user_query`: the physical address and the flags of a mapped virtual address. -/
def mmuUserQuery (pgd : Pgd) (va : ℕ) : Option (ℕ × Word) :=
  let x := vaPath va
  match pgd.l1 x.1, pgd.l2 (x.1, x.2.1) with
  | some _, .table _ =>
    let w := pgd.l3 x
    if has w pteValid then some (pteAddr w + va % pageSize, w &&& ~~~pteAddrMask) else none
  | some _, .block w => some (pteAddr w + va % 0x200000, w &&& ~~~pteAddrMask)
  | _, _ => none

/-- The word and the physical address the hardware walk finds for a virtual address. -/
def walk (pgd : Pgd) (va : ℕ) : Option (Word × ℕ) :=
  let x := vaPath va
  match pgd.l1 x.1, pgd.l2 (x.1, x.2.1) with
  | some _, .table _ =>
    let w := pgd.l3 x
    if has w pteValid && has w ptePage then some (w, pteAddr w + va % pageSize) else none
  | some _, .block w => some (w, pteAddr w + va % 0x200000)
  | _, _ => none

/-! ## Copy on write -/

/-- How the first locked phase of `mmu_handle_cow` ends. -/
inductive CowFirst
  | fault
  | promoted (pgd : Pgd)
  | held (oldPa : ℕ)

def promote (w : Word) : Word := w &&& ~~~pteCow &&& ~~~apRo

/-- The first locked phase: give up, make the sole owner's entry writable, or take a
reference on the source and go on without the lock. -/
def mmuHandleCowFirst (pmm : Pmm) (pgd : Pgd) (va : ℕ) : Except Panic (CowFirst × Pmm) :=
  match userLeafPte pgd va with
  | none => .ok (.fault, pmm)
  | some w =>
    if !has w pteValid || !has w pteCow then .ok (.fault, pmm)
    else if !pmm.pmmIsManaged (ptePtr w) || decide (pmm.pmmPageRefcount (ptePtr w) ≤ 1) then
      .ok (.promoted (pgd.setL3 (vaPath va) (promote w)), pmm)
    else (pmm.pmmHoldPage (ptePtr w)).map fun pmm => (.held (pteAddr w), pmm)

/-- The second locked phase: install the copy, or `none` if the entry moved meanwhile. -/
def mmuHandleCowSecond (pgd : Pgd) (va oldPa newPage : ℕ) : Option Pgd :=
  match userLeafPte pgd va with
  | none => none
  | some w =>
    if !has w pteValid || !has w pteCow || pteAddr w != oldPa then none
    else
      let newFlags := w &&& ~~~pteAddrMask &&& ~~~pteCow &&& ~~~apRo
      some (pgd.setL3 (vaPath va) (BitVec.ofNat 64 (v2p newPage) ||| newFlags))

end Perspicua.Mm
