import Perspicua.Lib.Dyadic

/-!
# The binary buddy physical memory manager

`kernel/mm/pmm.c`. One record per physical page carries an intrusive free-list link, the
order of the block it heads, a free flag and a reference count; eleven list heads index the
free blocks by order. `PANIC` stops the machine, so it is the error of the `Except` every
function that can panic returns, with the text the source prints.

Page numbers, links and orders stay in their machine ranges (`pmmInit` refuses a machine
with more pages than a link can name), so they are plain `ℕ`. Addresses are 64-bit and
their arithmetic wraps. The lock only serialises whole operations, and the fault injection
of test builds is left out.
-/

namespace Perspicua.Mm

open Perspicua.Lib

/-! ## Addresses and constants -/

def pageSize : ℕ := 4096
def pmmMaxOrder : ℕ := 10
def pmmMaxReservedRanges : ℕ := 64
def pmmPfnNull : ℕ := 0xFFFFFFFF
def kernelVma : ℕ := 0xFFFFFF8000000000

/-- Kernel virtual to physical address. -/
def v2p (v : ℕ) : ℕ := (v + 2 ^ 64 - kernelVma) % 2 ^ 64

/-- Physical to kernel virtual address. -/
def p2v (p : ℕ) : ℕ := (kernelVma + p) % 2 ^ 64

/-- The text of a `PANIC`. -/
abbrev Panic := String

/-! ## State -/

/-- `struct pmm_page`: metadata for a single physical page. -/
structure PmmPage where
  next : ℕ
  prev : ℕ
  refcount : ℕ
  order : ℕ
  isFree : Bool
  flags : ℕ
deriving DecidableEq, Repr

/-- `struct pmm_reserved_range`; its tag is only ever printed. -/
structure PmmReservedRange where
  startPhys : ℕ
  endPhys : ℕ
deriving DecidableEq, Repr

/-- The static variables of `pmm.c`. -/
structure Pmm where
  numPages : ℕ
  managedPages : ℕ
  freePagesCount : ℕ
  pageArray : ℕ → PmmPage
  freeLists : ℕ → ℕ
  reservedRanges : List PmmReservedRange
  ready : Bool

namespace Pmm

/-- `f` applied to the metadata of one page. -/
def modifyPage (s : Pmm) (pfn : ℕ) (f : PmmPage → PmmPage) : Pmm :=
  { s with pageArray := Function.update s.pageArray pfn (f (s.pageArray pfn)) }

def setNext (s : Pmm) (pfn link : ℕ) : Pmm := s.modifyPage pfn fun p => { p with next := link }

def setPrev (s : Pmm) (pfn link : ℕ) : Pmm := s.modifyPage pfn fun p => { p with prev := link }

/-- A new head for the free list of one order. -/
def setFreeList (s : Pmm) (order pfn : ℕ) : Pmm :=
  { s with freeLists := Function.update s.freeLists order pfn }

/-! ## Sizes and reserved ranges -/

/-- The loop of `get_order`, one iteration per unit of fuel. -/
def getOrderLoop (count : ℕ) : ℕ → ℕ → ℕ → ℕ
  | 0, order, _ => order
  | fuel + 1, order, size =>
    if size < count then
      if order ≥ pmmMaxOrder then pmmMaxOrder + 1
      else getOrderLoop count fuel (order + 1) (size <<< 1)
    else order

/-- The smallest order whose blocks hold `count` pages, `pmmMaxOrder + 1` if none does. -/
def getOrder (count : ℕ) : ℕ :=
  if count = 0 then 0 else getOrderLoop count (pmmMaxOrder + 1) 0 1

def reservedRangeOverlaps (aStart aEnd bStart bEnd : ℕ) : Bool :=
  aStart < bEnd && bStart < aEnd

/-- Whether one reserved range meets the pages `[startPfn, endPfn)`. -/
def rangeMeetsPfns (numPages startPfn endPfn : ℕ) (r : PmmReservedRange) : Bool :=
  let rPfnStart := r.startPhys / pageSize
  let rPfnEnd :=
    if r.endPhys ≥ (2 ^ 64 - 1) - (pageSize - 1) then (2 ^ 64 - 1) / pageSize + 1
    else (r.endPhys + pageSize - 1) / pageSize
  if rPfnStart ≥ numPages then false
  else
    let rPfnEnd := if rPfnEnd > numPages then numPages else rPfnEnd
    rPfnStart < rPfnEnd && startPfn < rPfnEnd && rPfnStart < endPfn

def rangeOverlapsReservedPfns (s : Pmm) (startPfn endPfn : ℕ) : Bool :=
  s.reservedRanges.any (rangeMeetsPfns s.numPages startPfn endPfn)

def pfnIsReserved (s : Pmm) (pfn : ℕ) : Bool :=
  s.rangeOverlapsReservedPfns pfn (pfn + 1)

/-- The do-while loop of `pmm_reserve_range`: absorb every range the new one touches. Each
merge drops an entry of the table, which is the fuel. -/
def coalesceReserved : ℕ → ℕ → ℕ → List PmmReservedRange → ℕ × ℕ × List PmmReservedRange
  | 0, s, e, rs => (s, e, rs)
  | fuel + 1, s, e, rs =>
    match rs.findIdx? fun r =>
        reservedRangeOverlaps s e r.startPhys r.endPhys || e == r.startPhys || s == r.endPhys with
    | none => (s, e, rs)
    | some i =>
      let r := rs.getD i ⟨0, 0⟩
      let last := rs.getD (rs.length - 1) ⟨0, 0⟩
      coalesceReserved fuel (if r.startPhys < s then r.startPhys else s)
        (if r.endPhys > e then r.endPhys else e) (rs.set i last).dropLast

def pmmReserveRange (s : Pmm) (physStart size : ℕ) : Except Panic Pmm :=
  if size = 0 then .ok s
  else if s.reservedRanges.length ≥ pmmMaxReservedRanges then
    .error "pmm: max reserved ranges exceeded"
  else if s.ready then .error "pmm: reserve called post-init"
  else
    let (st, e, rs) := coalesceReserved s.reservedRanges.length physStart
      ((physStart + size) % 2 ^ 64) s.reservedRanges
    .ok { s with reservedRanges := rs ++ [⟨st, e⟩] }

/-! ## Free lists -/

def pmmListAdd (s : Pmm) (order pfn : ℕ) : Pmm :=
  let head := s.freeLists order
  let s := (s.setPrev pfn pmmPfnNull).setNext pfn head
  let s := if head ≠ pmmPfnNull then s.setPrev head pfn else s
  s.setFreeList order pfn

def pmmListDel (s : Pmm) (order pfn : ℕ) : Except Panic Pmm :=
  let p := s.pageArray pfn
  let bypassed : Except Panic Pmm :=
    if p.prev = pmmPfnNull then
      if s.freeLists order ≠ pfn then .error "pmm: free page is not on the list it claims"
      else .ok (s.setFreeList order p.next)
    else .ok (s.setNext p.prev p.next)
  bypassed.map fun s =>
    let s := if p.next ≠ pmmPfnNull then s.setPrev p.next p.prev else s
    (s.setNext pfn pmmPfnNull).setPrev pfn pmmPfnNull

/-- The coalescing loop of `pmm_free_buddy_internal`. It runs while `order < pmmMaxOrder`,
so `pmmMaxOrder - order` iterations are all it can make. -/
def freeBuddyLoop : ℕ → Pmm → ℕ → ℕ → Except Panic (Pmm × ℕ × ℕ)
  | 0, s, pfn, order => .ok (s, pfn, order)
  | fuel + 1, s, pfn, order =>
    let buddyPfn := pfn ^^^ (1 <<< order)
    if buddyPfn ≥ s.numPages then .ok (s, pfn, order)
    else
      let buddy := s.pageArray buddyPfn
      if !buddy.isFree || buddy.order != order then .ok (s, pfn, order)
      else do
        let s ← s.pmmListDel order buddyPfn
        let s := s.modifyPage buddyPfn fun b => { b with isFree := false, order := 0 }
        freeBuddyLoop fuel s (if pfn < buddyPfn then pfn else buddyPfn) (order + 1)

/-- Mark a block free and put it on the list of its order. -/
def markFree (s : Pmm) (pfn order : ℕ) : Pmm :=
  (s.modifyPage pfn fun p => { p with isFree := true, order := order }).pmmListAdd order pfn

def pmmFreeBuddyInternal (s : Pmm) (pfn order : ℕ) : Except Panic Pmm := do
  let (s, pfn, order) ← freeBuddyLoop (pmmMaxOrder - order) s pfn order
  .ok (s.markFree pfn order)

/-! ## Initialisation -/

/-- The inner loop of `pmm_init`: the largest block that fits at `pfn`. -/
def largestOrder (s : Pmm) (pfn : ℕ) : ℕ → ℕ
  | 0 => 0
  | order + 1 =>
    let blockSize := 1 <<< (order + 1)
    if pfn &&& (blockSize - 1) = 0 && pfn + blockSize ≤ s.numPages
        && !s.rangeOverlapsReservedPfns pfn (pfn + blockSize) then order + 1
    else largestOrder s pfn order

/-- The outer loop of `pmm_init`: hand every unreserved page to the buddy lists. `pfn`
grows in every iteration, so `numPages` of them are enough. -/
def distribute : ℕ → Pmm → ℕ → Except Panic Pmm
  | 0, s, _ => .ok s
  | fuel + 1, s, pfn =>
    if pfn < s.numPages then
      if s.pfnIsReserved pfn then distribute fuel s (pfn + 1)
      else do
        let order := s.largestOrder pfn pmmMaxOrder
        let s := { s with freePagesCount := s.freePagesCount + 1 <<< order }
        let s ← s.pmmFreeBuddyInternal pfn order
        distribute fuel s (pfn + 1 <<< order)
    else .ok s

/-- Page metadata after the `memset` and the loop that nulls the links. -/
def blankPage : PmmPage :=
  { next := pmmPfnNull, prev := pmmPfnNull, refcount := 0, order := 0, isFree := false, flags := 0 }

/-- `pmm_init` on a machine whose devicetree reports `memSize` bytes and whose kernel image
ends at `kernelEnd`. -/
def pmmInit (s : Pmm) (memSize kernelEnd : ℕ) : Except Panic Pmm :=
  let numPages := memSize / pageSize
  let arrayStart := (kernelEnd + 15) % 2 ^ 64 / 16 * 16
  let arrayBytes := numPages * 16
  let usableStartVa := (arrayStart + arrayBytes + pageSize - 1) % 2 ^ 64 / pageSize * pageSize
  let usableStartPhys := v2p usableStartVa
  if memSize = 0 then .error "pmm: zero memory reported"
  else if numPages = 0 then .error "pmm: RAM too small"
  else if numPages ≥ pmmPfnNull then .error "pmm: more pages than a free-list link can address"
  else if usableStartPhys ≥ memSize then .error "pmm: metadata exceeds RAM"
  else do
    let s ← { s with numPages := numPages }.pmmReserveRange 0 usableStartPhys
    let s ← distribute numPages
      { s with freeLists := fun _ => pmmPfnNull, pageArray := fun _ => blankPage } 0
    .ok { s with managedPages := s.freePagesCount, ready := true }

/-- The static variables before any call. -/
def boot : Pmm :=
  { numPages := 0, managedPages := 0, freePagesCount := 0,
    pageArray := fun _ => ⟨0, 0, 0, 0, false, 0⟩, freeLists := fun _ => 0,
    reservedRanges := [], ready := false }

/-! ## Allocation and release -/

/-- The first order from `order` up whose free list is not empty. -/
def findOrder (s : Pmm) : ℕ → ℕ → ℕ
  | 0, order => order
  | fuel + 1, order =>
    if order ≤ pmmMaxOrder && s.freeLists order == pmmPfnNull then findOrder s fuel (order + 1)
    else order

/-- The split loop of `pmm_alloc_pages_nozero`: give back the right half until the block
has order `target`. -/
def splitLoop (target : ℕ) : ℕ → Pmm → ℕ → Pmm
  | 0, s, _ => s
  | order + 1, s, pfn =>
    if order + 1 > target then
      let buddyPfn := pfn + 1 <<< order
      let s := s.modifyPage buddyPfn fun b =>
        { b with isFree := true, order := order, refcount := 0 }
      let s := s.pmmListAdd order buddyPfn
      splitLoop target order { s with freePagesCount := s.freePagesCount + 1 <<< order } pfn
    else s

/-- Clear the flags of every page of a block. -/
def clearFlags (s : Pmm) (pfn order : ℕ) : Pmm :=
  { s with pageArray := fun q =>
      if pfn ≤ q ∧ q < pfn + 1 <<< order then { s.pageArray q with flags := 0 } else s.pageArray q }

/-- Returns the kernel address of the block, `none` for `NULL`. -/
def pmmAllocPagesNozero (s : Pmm) (count : ℕ) : Except Panic (Option ℕ × Pmm) :=
  if count = 0 then .ok (none, s)
  else
    let targetOrder := getOrder count
    if targetOrder > pmmMaxOrder then .ok (none, s)
    else
      let currentOrder := s.findOrder (pmmMaxOrder + 1 - targetOrder) targetOrder
      if currentOrder > pmmMaxOrder then .ok (none, s)
      else do
        let pfn := s.freeLists currentOrder
        let s ← s.pmmListDel currentOrder pfn
        let s := s.modifyPage pfn fun p => { p with isFree := false }
        let s := { s with freePagesCount := s.freePagesCount - 1 <<< currentOrder }
        let s := splitLoop targetOrder currentOrder s pfn
        let s := s.modifyPage pfn fun p => { p with order := targetOrder, refcount := 1 }
        .ok (some (p2v (pfn * pageSize)), s.clearFlags pfn targetOrder)

def pmmFreePages (s : Pmm) (ptr : ℕ) : Except Panic Pmm :=
  if ptr = 0 then .ok s
  else if ptr < kernelVma then .error "pmm: invalid pointer in free"
  else
    let pfn := v2p ptr / pageSize
    if pfn ≥ s.numPages || s.pfnIsReserved pfn then .ok s
    else
      let p := s.pageArray pfn
      if p.isFree then .error "pmm: double free"
      else if p.refcount = 0 then .error "pmm: free with zero refcount"
      else
        let s := s.modifyPage pfn fun p => { p with refcount := p.refcount - 1 }
        if (s.pageArray pfn).refcount > 0 then .ok s
        else if p.order > pmmMaxOrder then .error "pmm: corrupt page metadata"
        else
          { s with freePagesCount := s.freePagesCount + 1 <<< p.order }.pmmFreeBuddyInternal
            pfn p.order

def pmmHoldPage (s : Pmm) (ptr : ℕ) : Except Panic Pmm :=
  if ptr = 0 then .ok s
  else
    let pfn := v2p ptr / pageSize
    if pfn ≥ s.numPages || s.pfnIsReserved pfn then .ok s
    else
      let p := s.pageArray pfn
      if p.isFree then .error "pmm: hold on free page"
      else if p.refcount = 2 ^ 16 - 1 then .error "pmm: refcount overflow"
      else .ok (s.modifyPage pfn fun p => { p with refcount := p.refcount + 1 })

def pmmPageRefcount (s : Pmm) (ptr : ℕ) : ℕ :=
  if ptr = 0 then 0
  else
    let pfn := v2p ptr / pageSize
    if pfn ≥ s.numPages || s.pfnIsReserved pfn then 0 else (s.pageArray pfn).refcount

def pmmIsManaged (s : Pmm) (ptr : ℕ) : Bool :=
  if ptr = 0 then false
  else
    let pfn := v2p ptr / pageSize
    pfn < s.numPages && !s.pfnIsReserved pfn

/-- `PMM_PAGE_SLAB` -/
def pmmPageSlab : ℕ := 1

def pmmSetSlab (s : Pmm) (ptr : ℕ) (isSlab : Bool) : Except Panic Pmm :=
  if !s.pmmIsManaged ptr then .error "pmm: slab flag set on a page the allocator does not own"
  else
    let pfn := v2p ptr / pageSize
    if (s.pageArray pfn).isFree then .error "pmm: slab flag set on a free page"
    else .ok (s.modifyPage pfn fun p =>
      { p with flags := if isSlab then p.flags ||| pmmPageSlab else p.flags &&& (255 - pmmPageSlab) })

def pmmGetFreePages (s : Pmm) : ℕ := s.freePagesCount

/-- `ptr` is the address of the head page of `b`. -/
def HeadAt (s : Pmm) (ptr : ℕ) (b : Block) : Prop :=
  s.pmmIsManaged ptr = true ∧ b.base = v2p ptr / pageSize

instance (s : Pmm) (ptr : ℕ) (b : Block) : Decidable (s.HeadAt ptr b) :=
  inferInstanceAs (Decidable (_ ∧ _))

end Pmm

end Perspicua.Mm
