import Perspicua.Mm.Slab

/-!
# The kernel heap

`kernel/mm/heap.c`. Requests up to 1024 bytes go to the slab allocator; larger ones are cut
from a pool of blocks with a header in front and a redzone footer behind, first fit from a
free list in the order of the addresses. The pool grows by whole regions of the page
allocator and never shrinks.

The free list is a list of addresses of headers here. `regions`, `expansions`, `large` and
`small` are not in the source: the memory obtained for the pool, how often it was expanded,
and the pointers that are live with the sizes that were asked for, from the pool and from the
slab allocator.
-/

namespace Perspicua.Mm

open Perspicua.Lib

def heapSlabMax : ℕ := 1024
def heapMaxAlloc : ℕ := 8 * 1024 * 1024
def heapRedzoneMagic : ℕ := 0xDEADBEEF
def heapMagicAlloc : ℕ := 0x48454150
def heapMagicFree : ℕ := 0x46524545
def heapHeaderSize : ℕ := 32
def heapFooterSize : ℕ := 16

/-- `HEAP_ALIGN`. -/
def heapAlign (x : ℕ) : ℕ := (x + 15) / 16 * 16

/-- `struct heap_block_header`. -/
structure HeapHeader where
  size : ℕ
  isFree : Bool
  magic : ℕ

structure Heap where
  freeList : List ℕ
  header : ℕ → HeapHeader
  footer : ℕ → ℕ
  totalSize : ℕ
  usedSize : ℕ
  slab : Slab
  regions : List Extent
  expansions : ℕ
  large : List (ℕ × ℕ)
  small : List (ℕ × ℕ)

/-- Why a call does not return. -/
inductive HeapStop
  | panic (text : Panic)
  | running

/-- The loop of `heap_expand`: the first power of two that is enough, unless it overflows. -/
def roundPages (pages : ℕ) : ℕ → ℕ → Option ℕ
  | 0, _ => none
  | fuel + 1, rounded =>
    if rounded < pages then roundPages pages fuel (2 * rounded) else some rounded

/-- Coalesce with the successor: the headers, and the list from the block on. -/
def mergeNext (header : ℕ → HeapHeader) (block : ℕ) : List ℕ → (ℕ → HeapHeader) × List ℕ
  | [] => (header, [block])
  | next :: rest =>
    if (header next).isFree = true ∧ block + heapHeaderSize + (header block).size = next then
      let size := (header block).size + (heapHeaderSize + (header next).size)
      (Function.update header block { header block with size := size }, block :: rest)
    else (header, block :: next :: rest)

/-- Coalesce with the predecessor: the headers and the whole list. -/
def mergePrev (header : ℕ → HeapHeader) (block : ℕ) (before rest : List ℕ) :
    (ℕ → HeapHeader) × List ℕ :=
  match before.getLast? with
  | none => (header, block :: rest)
  | some prev =>
    if (header prev).isFree = true ∧ prev + heapHeaderSize + (header prev).size = block then
      let size := (header prev).size + (heapHeaderSize + (header block).size)
      (Function.update header prev { header prev with size := size }, before ++ rest)
    else (header, before ++ block :: rest)

namespace Heap

variable {managed : ℕ → Bool} (s : Heap)

def setHeader (block : ℕ) (h : HeapHeader) : Heap :=
  { s with header := Function.update s.header block h }

/-- What the page allocator has given. -/
def held : List Extent := s.regions ++ s.slab.held

/-- `heap_expand`: the new block and the heap. -/
def expand (pmm : PageSource managed) (minSize : ℕ) : Option (ℕ × Heap) :=
  let total := minSize + heapHeaderSize + heapFooterSize
  match roundPages ((total + pageSize - 1) / pageSize) 64 1 with
  | none => none
  | some pages =>
    match pmm.alloc pages s.held with
    | none => none
    | some region =>
      let s := s.setHeader region ⟨pages * pageSize - heapHeaderSize, true, heapMagicFree⟩
      some (region,
        { s with
          totalSize := s.totalSize + pages * pageSize
          regions := ⟨region, pages * pageSize⟩ :: s.regions
          expansions := s.expansions + 1 })

/-- `heap_insert_free`. -/
def insertFree (block : ℕ) : Heap :=
  let s := s.setHeader block { s.header block with isFree := true, magic := heapMagicFree }
  let next := mergeNext s.header block (s.freeList.dropWhile (· < block))
  let all := mergePrev next.1 block (s.freeList.takeWhile (· < block)) next.2.tail
  { s with header := all.1, freeList := all.2 }

/-- Where `heap_malloc` has found a block that fits: unlink it, and split it if the rest is
worth a block. -/
def carve (curr size : ℕ) : Heap :=
  let need := size + heapFooterSize
  let s := { s with freeList := s.freeList.erase curr }
  if need + heapHeaderSize + 16 ≤ (s.header curr).size then
    let split := curr + heapHeaderSize + need
    let s := s.setHeader split
      { s.header split with
        size := (s.header curr).size - need - heapHeaderSize, isFree := true }
    let s := s.insertFree split
    s.setHeader curr { s.header curr with size := size }
  else
    s.setHeader curr { s.header curr with size := (s.header curr).size - heapFooterSize }

/-- Set the block up for its owner. -/
def place (curr size : ℕ) : Heap :=
  let s := s.carve curr size
  let size := (s.header curr).size
  let s := s.setHeader curr ⟨size, false, heapMagicAlloc⟩
  { s with
    footer := Function.update s.footer (curr + heapHeaderSize + size) heapRedzoneMagic
    usedSize := s.usedSize + (size + heapHeaderSize) }

/-- The loop of `heap_malloc`, for an aligned size. -/
def mallocLoop (pmm : PageSource managed) (size : ℕ) : ℕ → Heap → Option (Option ℕ × Heap)
  | 0, _ => none
  | fuel + 1, s =>
    match s.freeList.find? fun curr => size + heapFooterSize ≤ (s.header curr).size with
    | some curr => some (some (curr + heapHeaderSize), s.place curr size)
    | none =>
      match s.expand pmm size with
      | none => some (none, s)
      | some (block, s) => mallocLoop pmm size fuel (s.insertFree block)

/-- `heap_malloc`, with its loop run at most `fuel` times. -/
def malloc (pmm : PageSource managed) (fuel size : ℕ) : Except HeapStop (Option ℕ × Heap) :=
  if size = 0 ∨ heapMaxAlloc < size then .ok (none, s)
  else if size ≤ heapSlabMax then
    match s.slab.alloc pmm s.held size with
    | .error text => .error (.panic text)
    | .ok (ptr, slab) => .ok (ptr, { s with slab := slab })
  else
    match mallocLoop pmm (heapAlign size) fuel s with
    | none => .error .running
    | some r => .ok r

/-- `heap_free`. -/
def free (managed : ℕ → Bool) (ptr : ℕ) : Except HeapStop Heap :=
  if ptr = 0 then .ok s
  else if s.slab.owns ptr then
    match s.slab.free ptr with
    | .error text => .error (.panic text)
    | .ok slab => .ok { s with slab := slab }
  else
    let block := ptr - heapHeaderSize
    let h := s.header block
    if managed block = false then
      .error (.panic "heap: pointer was not returned by heap_malloc")
    else if h.magic = heapMagicFree then .error (.panic "heap: double free detected")
    else if h.magic ≠ heapMagicAlloc then
      .error (.panic "heap: pointer was not returned by heap_malloc")
    else if s.footer (block + heapHeaderSize + h.size) ≠ heapRedzoneMagic then
      .error (.panic "heap: buffer overflow detected (redzone corrupted)")
    else
      let s := { s with usedSize := s.usedSize - (h.size + heapHeaderSize) }
      let s := s.setHeader block { h with size := h.size + heapFooterSize }
      .ok (s.insertFree block)

/-- `heap_test_usable_size`. -/
def usableSize (ptr : ℕ) : ℕ :=
  if ptr = 0 then 0
  else if s.slab.owns ptr then s.slab.testObjectSize ptr
  else (s.header (ptr - heapHeaderSize)).size

/-- One class of `slab_init`. -/
def seed (pmm : PageSource managed) (idx : ℕ) : Except HeapStop Heap :=
  let size := objectSize idx
  if size = 0 ∨ size &&& (size - 1) ≠ 0 then
    .error (.panic "slab: size class not a power of two")
  else
    match s.slab.grow pmm s.held idx with
    | .error text => .error (.panic text)
    | .ok none => .error (.panic "slab: failed to seed class pool")
    | .ok (some (_, slab)) => .ok { s with slab := slab }

/-- Before `heap_init`. -/
def empty : Heap where
  freeList := []
  header _ := ⟨0, false, 0⟩
  footer _ := 0
  totalSize := 0
  usedSize := 0
  slab := .empty
  regions := []
  expansions := 0
  large := []
  small := []

/-- `heap_init`. -/
def init (pmm : PageSource managed) : Except HeapStop Heap := do
  let s ← (List.range slabNumClasses).foldlM (fun s idx => s.seed pmm idx) empty
  match s.expand pmm pageSize with
  | none => .error (.panic "heap: failed to initialize pool")
  | some (block, s) => .ok { s with freeList := [block] }

/-! ## Calls -/

/-- The live pointers and what was asked for. -/
def live : List (ℕ × ℕ) := s.large ++ s.small

/-- A pointer is live from now on. -/
def record (ptr size : ℕ) : Heap :=
  if size ≤ heapSlabMax then { s with small := (ptr, size) :: s.small }
  else { s with large := (ptr, size) :: s.large }

/-- It is not any more; `slab` says who owned it. -/
def forget (slab : Bool) (ptr : ℕ) : Heap :=
  if slab then { s with small := s.small.eraseP fun r => r.1 = ptr }
  else { s with large := s.large.eraseP fun r => r.1 = ptr }

end Heap

/-- A call. Each `heap_malloc` finds a page allocator of its own. -/
inductive HeapAct (managed : ℕ → Bool)
  | malloc (pmm : PageSource managed) (fuel size : ℕ)
  | free (ptr : ℕ)

namespace Heap

variable {managed : ℕ → Bool} (s : Heap)

/-- `NULL` and live pointers may be freed. -/
def step : HeapAct managed → Option Heap
  | .malloc pmm fuel size =>
    match s.malloc pmm fuel size with
    | .error _ => none
    | .ok (none, s) => some s
    | .ok (some ptr, s) => some (s.record ptr size)
  | .free ptr =>
    if ptr = 0 ∨ ptr ∈ s.live.map Prod.fst then
      match s.free managed ptr with
      | .error _ => none
      | .ok t => some (t.forget (s.slab.owns ptr) ptr)
    else none

/-- What holds between two calls. -/
structure Sound (managed : ℕ → Bool) (s : Heap) : Prop where
  /-- No two live allocations share an address. -/
  disjoint : Extent.Apart (s.live.map fun r => ⟨r.1, s.usableSize r.1⟩)
  enough : ∀ r ∈ s.live, r.2 ≤ s.usableSize r.1
  aligned : ∀ r ∈ s.live, r.1 % 16 = 0
  /-- The free list is in order, and between two of its blocks there is memory that is in
  neither. -/
  ordered : s.freeList.Pairwise fun a b => a + heapHeaderSize + (s.header a).size < b
  /-- Free blocks with their headers and live ones with headers and footers are the memory
  obtained. -/
  accounted : (s.freeList.map fun a => (s.header a).size + heapHeaderSize).sum +
    (s.large.map fun r => s.usableSize r.1 + heapHeaderSize + heapFooterSize).sum =
      Extent.total s.regions
  total : s.totalSize = Extent.total s.regions
  used : s.usedSize = (s.large.map fun r => s.usableSize r.1 + heapHeaderSize).sum
  /-- A request is answered in at most two rounds and expands the pool at most once. -/
  malloc : ∀ (pmm : PageSource managed) (fuel size : ℕ), 2 ≤ fuel →
    ∃ ptr t, s.malloc pmm fuel size = .ok (ptr, t) ∧ t.expansions ≤ s.expansions + 1
  free : ∀ r ∈ s.live, ∃ t, s.free managed r.1 = .ok t

end Heap

end Perspicua.Mm
