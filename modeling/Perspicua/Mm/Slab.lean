import Perspicua.Lib.Extent
import Perspicua.Mm.Pmm

/-!
# The slab allocator

`kernel/mm/slab.c`. Objects of seven size classes are carved from single pages. A page with a
free object is in the partial list of its class and any other page in the full list; a page
whose last object is freed goes back to the page allocator.

The free list of a page and the lists of a class are lists of addresses here. What a page
holds in front of its objects is a record beside the address of the page, and the words that
its free objects hold are in that record too.
-/

namespace Perspicua.Mm

open Perspicua.Lib

/-- A page allocator, seen by a caller that holds some memory: it may always answer that it
has no pages, and the pages it gives are in nothing that the caller holds. -/
structure PageSource (managed : ℕ → Bool) where
  alloc : ℕ → List Extent → Option ℕ
  fresh : ∀ {n held page}, alloc n held = some page → 0 < page ∧ page % pageSize = 0 ∧
    ∀ x, Extent.Has ⟨page, n * pageSize⟩ x → managed x = true ∧ ¬ Extent.Covers held x

def slabMagic : ℕ := 0x534C4142
def slabFreePoison : ℕ := 0xDEADBEEFDEADBEEF
def slabNumClasses : ℕ := 7
def slabMaxSlots : ℕ := pageSize / 16
def slabClassSizes : List ℕ := [16, 32, 64, 128, 256, 512, 1024]

/-- `sizeof(struct slab_page)`. -/
def slabHeaderSize : ℕ := 72

/-- The `object_size` of a class. -/
def objectSize (idx : ℕ) : ℕ := slabClassSizes.getD idx 0

/-- `struct slab_page`, and the canaries of its objects. -/
structure SlabPage where
  magic : ℕ
  classIdx : ℕ
  totalSlots : ℕ
  inUseCount : ℕ
  freeList : List ℕ
  slotStart : ℕ
  used : ℕ → Bool
  canary : ℕ → ℕ

/-- `struct slab_class`. -/
structure SlabClass where
  partialList : List ℕ
  fullList : List ℕ

/-- The classes, the headers of the pages and the flag of `pmm_set_slab`. -/
structure Slab where
  classes : ℕ → SlabClass
  page : ℕ → SlabPage
  isSlab : ℕ → Bool

/-- `ptr_to_slab`. -/
def ptrToSlab (ptr : ℕ) : ℕ := ptr / pageSize * pageSize

/-- `slab_slot_of`. -/
def SlabPage.slotOf (p : SlabPage) (sp ptr : ℕ) : Option ℕ :=
  let base := sp + p.slotStart
  let size := objectSize p.classIdx
  if ptr < base then none
  else if (ptr - base) % size ≠ 0 then none
  else if p.totalSlots ≤ (ptr - base) / size then none
  else some ((ptr - base) / size)

/-- `size_to_class_index`. -/
def sizeToClassIndex (size : ℕ) : Option ℕ := slabClassSizes.findIdx? fun c => size ≤ c

/-- Where the objects of a page start: behind its header, at a multiple of their size. -/
def slotStartOf (size : ℕ) : ℕ := (slabHeaderSize + size - 1) / size * size

/-- How often the loop of `slab_grow` carves an object. -/
def slotCountOf (size : ℕ) : ℕ := (pageSize - slotStartOf size) / size

/-- The page that `slab_grow` sets up: the last object is the first of the free list. -/
def SlabPage.carve (sp idx : ℕ) : SlabPage :=
  let size := objectSize idx
  { magic := slabMagic
    classIdx := idx
    totalSlots := slotCountOf size
    inUseCount := 0
    freeList := ((List.range (slotCountOf size)).map fun k => sp + slotStartOf size + k * size).reverse
    slotStart := slotStartOf size
    used := fun _ => false
    canary := fun _ => slabFreePoison }

/-- The page when `slab_alloc` has taken the first object of its free list. -/
def SlabPage.pop (p : SlabPage) (slot obj : ℕ) (rest : List ℕ) : SlabPage :=
  { p with
    freeList := rest
    used := Function.update p.used slot true
    canary := Function.update p.canary obj 0
    inUseCount := p.inUseCount + 1 }

/-- The page when `slab_free` has put an object on its free list. -/
def SlabPage.push (p : SlabPage) (slot obj : ℕ) : SlabPage :=
  { p with
    used := Function.update p.used slot false
    canary := Function.update p.canary obj slabFreePoison
    freeList := obj :: p.freeList
    inUseCount := p.inUseCount - 1 }

namespace Slab

variable {managed : ℕ → Bool} (s : Slab)

def setPage (sp : ℕ) (p : SlabPage) : Slab := { s with page := Function.update s.page sp p }

def setClass (idx : ℕ) (c : SlabClass) : Slab :=
  { s with classes := Function.update s.classes idx c }

/-- The pages of all classes. -/
def held : List Extent :=
  ((List.range slabNumClasses).flatMap fun i =>
    (s.classes i).partialList ++ (s.classes i).fullList).map fun sp => ⟨sp, pageSize⟩

/-- `slab_grow`. A page without room for an object would be given back. -/
def grow (pmm : PageSource managed) (held : List Extent) (idx : ℕ) :
    Except Panic (Option (ℕ × Slab)) :=
  match pmm.alloc 1 held with
  | none => .ok none
  | some sp =>
    let p := SlabPage.carve sp idx
    if p.totalSlots = 0 then .ok none
    else if slabMaxSlots < p.totalSlots then
      .error "slab: page holds more objects than the bitmap tracks"
    else
      let c := s.classes idx
      let s := s.setPage sp p
      let s := s.setClass idx { c with partialList := sp :: c.partialList }
      .ok (some (sp, { s with isSlab := Function.update s.isSlab sp true }))

/-- The rest of `slab_alloc`, once it has a page with a free object. -/
def take (idx sp : ℕ) : Except Panic (ℕ × Slab) :=
  let p := s.page sp
  match p.freeList with
  | [] => .error "slab: partial page with an empty free list"
  | obj :: rest =>
    match p.slotOf sp obj with
    | none => .error "slab: free list holds a misaligned object"
    | some slot =>
      if p.canary obj ≠ slabFreePoison then
        .error "slab: free object was written after being freed"
      else
        let s := s.setPage sp (p.pop slot obj rest)
        let c := s.classes idx
        if rest = [] then
          .ok (obj, s.setClass idx ⟨c.partialList.tail, sp :: c.fullList⟩)
        else .ok (obj, s)

/-- `slab_alloc`. -/
def alloc (pmm : PageSource managed) (held : List Extent) (size : ℕ) :
    Except Panic (Option ℕ × Slab) :=
  match sizeToClassIndex size with
  | none => .ok (none, s)
  | some idx =>
    match (s.classes idx).partialList with
    | sp :: _ => (s.take idx sp).map fun r => (some r.1, r.2)
    | [] =>
      match s.grow pmm held idx with
      | .error e => .error e
      | .ok none => .ok (none, s)
      | .ok (some (sp, s)) => (s.take idx sp).map fun r => (some r.1, r.2)

/-- `slab_release_page`. -/
def releasePage (sp : ℕ) : Slab := { s with isSlab := Function.update s.isSlab sp false }

/-- `slab_free`. -/
def free (ptr : ℕ) : Except Panic Slab :=
  if ptr = 0 then .ok s
  else
    let sp := ptrToSlab ptr
    let p := s.page sp
    if s.isSlab sp = false then
      .error "slab: free of a pointer the slab allocator never returned"
    else if p.magic ≠ slabMagic then .error "slab: slab page header is corrupt"
    else if slabNumClasses ≤ p.classIdx then .error "slab: corrupt header index"
    else
      match p.slotOf sp ptr with
      | none => .error "slab: pointer is not the start of an object"
      | some slot =>
        if p.used slot = false then .error "slab: double free detected"
        else
          let s := s.setPage sp (p.push slot ptr)
          let c := s.classes p.classIdx
          -- the page had no free object
          if p.freeList = [] then
            if sp ∉ c.fullList then .error "slab: full page lost"
            else if (p.push slot ptr).inUseCount = 0 then
              .ok ((s.setClass p.classIdx { c with fullList := c.fullList.erase sp }).releasePage sp)
            else
              .ok (s.setClass p.classIdx ⟨sp :: c.partialList, c.fullList.erase sp⟩)
          else if (p.push slot ptr).inUseCount = 0 then
            if sp ∉ c.partialList then .error "slab: partial page lost"
            else
              .ok ((s.setClass p.classIdx
                { c with partialList := c.partialList.erase sp }).releasePage sp)
          else .ok s

/-- `slab_owns`. -/
def owns (ptr : ℕ) : Bool := ptr ≠ 0 ∧ s.isSlab (ptrToSlab ptr) = true

/-- `slab_test_object_size`. -/
def testObjectSize (ptr : ℕ) : ℕ :=
  if s.owns ptr then objectSize (s.page (ptrToSlab ptr)).classIdx else 0

/-- No class has a page. -/
def empty : Slab where
  classes _ := ⟨[], []⟩
  page sp := .carve sp 0
  isSlab _ := false

end Slab

end Perspicua.Mm
