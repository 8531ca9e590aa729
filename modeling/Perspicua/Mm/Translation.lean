import Perspicua.Lib.Run
import Perspicua.Mm.MmuTheorems

/-!
# Page tables as maps

The operations on a user page table and on the kernel's, seen through queries. A table answers
for the 512 GB it translates as a map from pages to a frame and its attributes: a query adds the
offset, a mapping that is made replaces one page of the map, and neither the tables that are
added on the way nor the split of a 2 MB block shows.

The attributes of an entry are its bits apart from the address and from the two low ones, which
say what kind of entry it is.
-/

namespace Perspicua.Mm

open Perspicua.Lib

/-! ## The kernel's page table -/

/-- The level-2 table of `mmu_map_page`, which does not return without one. -/
def kernelL2Table (pmm : Pmm) (pgd : Pgd) (i : Ix) : Except Panic (Pgd × Pmm) :=
  match pgd.l1 i with
  | some _ => .ok (pgd, pmm)
  | none => (allocTablePage pmm).map fun r => (pgd.addL2Table i r.1, r.2)

/-- The level-3 table of `mmu_map_page`. -/
def kernelL3Table (pmm : Pmm) (pgd : Pgd) (x : Ix × Ix) : Except Panic (Pgd × Pmm) :=
  match pgd.l2 x with
  | .table _ => .ok (pgd, pmm)
  | .block w => splitBlockToPages pmm pgd x w
  | .invalid => (allocTablePage pmm).map fun r => (pgd.addL3Table x r.1 fun _ => 0#64, r.2)

def mmuMapPage (pmm : Pmm) (pgd : Pgd) (va paddr : ℕ) (flags : Word) : Except Panic (Pgd × Pmm) := do
  let x := vaPath va
  let (pgd, pmm) ← kernelL2Table pmm pgd x.1
  let (pgd, pmm) ← kernelL3Table pmm pgd (x.1, x.2.1)
  .ok (pgd.setL3 x (mapWord paddr flags), pmm)

/-- Zero a leaf of the kernel's table; the page it mapped is not released. -/
def clearKernelLeaf (pmm : Pmm) (pgd : Pgd) (x : Ix × Ix × Ix) : Except Panic (Pgd × Pmm) :=
  if has (pgd.l3 x) pteValid then .ok (pgd.setL3 x 0#64, pmm) else .ok (pgd, pmm)

/-- The walk of both unmap functions down to a leaf, which `clear` zeroes. -/
def unmapWith (clear : Pmm → Pgd → Ix × Ix × Ix → Except Panic (Pgd × Pmm)) (pmm : Pmm) (pgd : Pgd)
    (va : ℕ) : Except Panic (Pgd × Pmm) :=
  let x := vaPath va
  match pgd.l1 x.1, pgd.l2 (x.1, x.2.1) with
  | none, _ => .ok (pgd, pmm)
  | some _, .invalid => .ok (pgd, pmm)
  | some _, .block w => do
    let (pgd, pmm) ← splitBlockToPages pmm pgd (x.1, x.2.1) w
    clear pmm pgd x
  | some _, .table _ => clear pmm pgd x

def mmuUnmapPage (pmm : Pmm) (pgd : Pgd) (va : ℕ) : Except Panic (Pgd × Pmm) :=
  unmapWith clearKernelLeaf pmm pgd va

theorem mmuUserUnmapPage_eq (pmm : Pmm) (pgd : Pgd) (va : ℕ) :
    mmuUserUnmapPage pmm pgd va = unmapWith clearLeaf pmm pgd va := rfl

/-- `mmu_query` is the walk of `mmu_user_query`, on the kernel's table. -/
def mmuQuery (pgd : Pgd) (va : ℕ) : Option (ℕ × Word) := mmuUserQuery pgd va

/-! ## Pages -/

/-- The pages of the 512 GB that one table translates. -/
abbrev Page := Fin (2 ^ 27)

def pageNo (va : ℕ) : Page := Fin.ofNat (2 ^ 27) (va / pageSize)

/-- The entries on the way to a page. -/
def pagePath (n : Page) : Ix × Ix × Ix := vaPath (n.val * pageSize)

theorem vaPath_val (va : ℕ) : ((vaPath va).1.val = va / 2 ^ 30 % 512) ∧
    ((vaPath va).2.1.val = va / 2 ^ 21 % 512) ∧ ((vaPath va).2.2.val = va / 2 ^ 12 % 512) := by
  unfold vaPath l1Idx l2Idx l3Idx
  rw [Nat.shiftRight_eq_div_pow, Nat.shiftRight_eq_div_pow, Nat.shiftRight_eq_div_pow]
  exact ⟨rfl, rfl, rfl⟩

theorem path_ext {x y : Ix × Ix × Ix} (h1 : x.1.val = y.1.val) (h2 : x.2.1.val = y.2.1.val)
    (h3 : x.2.2.val = y.2.2.val) : x = y :=
  Prod.ext (Fin.ext h1) (Prod.ext (Fin.ext h2) (Fin.ext h3))

theorem pageNo_val (va : ℕ) : (pageNo va).val = va / pageSize % 2 ^ 27 := rfl

theorem pagePath_pageNo (va : ℕ) : pagePath (pageNo va) = vaPath va := by
  obtain ⟨h1, h2, h3⟩ := vaPath_val ((pageNo va).val * pageSize)
  obtain ⟨k1, k2, k3⟩ := vaPath_val va
  rw [pageNo_val] at h1 h2 h3
  unfold pagePath
  refine path_ext ?_ ?_ ?_
  · rw [pageNo_val, h1, k1]
    unfold pageSize
    omega
  · rw [pageNo_val, h2, k2]
    unfold pageSize
    omega
  · rw [pageNo_val, h3, k3]
    unfold pageSize
    omega

/-- A path determines its page. -/
theorem pagePath_injective : Function.Injective pagePath := by
  intro n n' h
  obtain ⟨h1, h2, h3⟩ := vaPath_val (n.val * pageSize)
  obtain ⟨k1, k2, k3⟩ := vaPath_val (n'.val * pageSize)
  unfold pagePath at h
  rw [h, k1] at h1
  rw [h, k2] at h2
  rw [h, k3] at h3
  have hn := n.isLt
  have hn' := n'.isLt
  unfold pageSize at h1 h2 h3
  apply Fin.ext
  omega

/-- Below 512 GB a path belongs to one page. -/
theorem vaPath_eq_iff {va va' : ℕ} (hva : va < 2 ^ 39) (hva' : va' < 2 ^ 39) :
    vaPath va = vaPath va' ↔ va / pageSize = va' / pageSize := by
  rw [← pagePath_pageNo, ← pagePath_pageNo, pagePath_injective.eq_iff, Fin.ext_iff, pageNo_val, pageNo_val]
  unfold pageSize
  omega

/-! ## The map of a table -/

/-- What kind of entry a word is, and where it points, left out. -/
def attributes (w : Word) : Word := w &&& ~~~(pteAddrMask ||| pteValid ||| ptePage)

/-- The frame and the attributes of each page that is mapped. -/
abbrev Frames := Page → Option (ℕ × Word)

/-- What a leaf says. -/
def leafFrame (w : Word) : Option (ℕ × Word) :=
  if has w pteValid then some (pteAddr w, attributes w) else none

/-- The frame at the end of a path. -/
def frameAt (pgd : Pgd) (x : Ix × Ix × Ix) : Option (ℕ × Word) :=
  match pgd.l1 x.1, pgd.l2 (x.1, x.2.1) with
  | some _, .table _ => leafFrame (pgd.l3 x)
  | some _, .block w => some (pteAddr w + x.2.2.val * pageSize, attributes w)
  | _, _ => none

/-- What a table maps. -/
def frames (pgd : Pgd) : Frames := fun n => frameAt pgd (pagePath n)

theorem leafFrame_zero : leafFrame 0#64 = none := rfl

/-- A change at one path is a change of one page. -/
theorem frames_update {pgd pgd' : Pgd} {va : ℕ} {f : Option (ℕ × Word)}
    (h : frameAt pgd' = Function.update (frameAt pgd) (vaPath va) f) :
    frames pgd' = Function.update (frames pgd) (pageNo va) f := by
  funext n
  unfold frames
  rw [h, ← pagePath_pageNo]
  by_cases hn : n = pageNo va
  · rw [hn, Function.update_self, Function.update_self]
  · rw [Function.update_of_ne hn, Function.update_of_ne (fun he => hn (pagePath_injective he))]

theorem attributes_flags (w : Word) : attributes (w &&& ~~~pteAddrMask) = attributes w := by
  unfold attributes
  rw [BitVec.and_assoc]
  congr 1

/-- A query looks a page up in the map and adds the offset. -/
theorem mmuUserQuery_eq_frames (pgd : Pgd) (va : ℕ) :
    (mmuUserQuery pgd va).map (fun r => (r.1, attributes r.2)) =
      (frames pgd (pageNo va)).map fun r => (r.1 + va % pageSize, r.2) := by
  unfold frames
  rw [pagePath_pageNo]
  unfold frameAt mmuUserQuery leafFrame
  dsimp only
  cases h1 : pgd.l1 (vaPath va).1 with
  | none => rfl
  | some page =>
    cases h2 : pgd.l2 ((vaPath va).1, (vaPath va).2.1) with
    | invalid => rfl
    | table page' =>
      dsimp only
      split
      · rw [Option.map_some, Option.map_some, attributes_flags]
      · rfl
    | block w =>
      obtain ⟨-, -, h3⟩ := vaPath_val va
      have hoff : pteAddr w + va % 0x200000 = pteAddr w + va / 2 ^ 12 % 512 * pageSize + va % pageSize := by
        unfold pageSize
        omega
      dsimp only
      rw [Option.map_some, Option.map_some, attributes_flags, h3, hoff]

/-! ## Blocks -/

/-- A block is as large as what its entry translates, and lies on a multiple of its size. -/
def BlocksAligned (pgd : Pgd) : Prop := ∀ y w, pgd.l2 y = .block w → pteAddr w % 0x200000 = 0

theorem blocksAligned_empty (page : ℕ) : BlocksAligned (Pgd.empty page) := by
  intro y w h
  cases h

/-- The tables `mmu_init` builds before it sets the permissions of the kernel's segments with
`mmu_map_page`: 4 KB pages for the first GB, 2 MB blocks for the next three. -/
def mmuInitPgd (page : ℕ) (pmd : Fin 4 → ℕ) (l3 : Ix → ℕ) : Pgd :=
  { page := page
    l1 := fun i => if h : i.val < 4 then some (pmd ⟨i.val, h⟩) else none
    l2 := fun y =>
      if y.1.val = 0 then .table (l3 y.2)
      else if y.1.val < 4 then
        let pa := y.1.val * 0x40000000 + y.2.val * 0x200000
        -- the peripherals are in the last 64 MB
        let attr : Word := if 0xFC000000 ≤ pa then 0x4 else 0x300
        .block (BitVec.ofNat 64 pa ||| pteValid ||| (0x60000000000400 ||| attr))
      else .invalid
    l3 := fun x =>
      if x.1.val = 0 then
        BitVec.ofNat 64 (x.2.1.val * 0x200000 + x.2.2.val * pageSize) ||| pteValid ||| ptePage |||
          0x60000000000700
      else 0#64 }

theorem blocksAligned_mmuInitPgd (page : ℕ) (pmd : Fin 4 → ℕ) (l3 : Ix → ℕ) :
    BlocksAligned (mmuInitPgd page pmd l3) := by
  intro y w h
  have hy := y.2.isLt
  unfold mmuInitPgd at h
  dsimp only at h
  split at h
  · cases h
  split at h
  · rename_i hlt
    cases h
    -- the address is a multiple of 512 pages
    have hpa : y.1.val * 0x40000000 + y.2.val * 0x200000 =
        (y.1.val * 0x40000 + y.2.val * 0x200) * pageSize := by
      unfold pageSize
      omega
    have hattr : (0x60000000000400 ||| (if 0xFC000000 ≤ y.1.val * 0x40000000 + y.2.val * 0x200000
        then (0x4 : Word) else 0x300)) &&& pteAddrMask = 0#64 := by
      split <;> decide
    unfold pteAddr
    rw [or_and_of_disjoint hattr, or_and_of_disjoint (by decide), hpa, ofNat_and_addrMask (by omega),
      ofNat_page_toNat (by omega)]
    unfold pageSize
    omega
  · cases h

section Split

variable {pgd : Pgd}

/-- The leaves that replace a block translate as it did. -/
theorem splitEntries_spec {w : Word} (hw : pteAddr w % 0x200000 = 0) (k : Ix) :
    has (splitEntries w k) pteValid = true ∧ pteAddr (splitEntries w k) = pteAddr w + k.val * pageSize ∧
      attributes (splitEntries w k) = attributes w := by
  obtain ⟨pfn, hpfn, haddr⟩ := pteAddr_eq_page w
  have hk := k.isLt
  -- 2 ^ 36 pages are a multiple of a block's
  have hlt : pfn + k.val < 2 ^ 36 := by
    rw [haddr] at hw
    unfold pageSize at hw
    omega
  have hsum : pteAddr w + k.val * pageSize = (pfn + k.val) * pageSize := by rw [haddr, Nat.add_mul]
  unfold splitEntries
  dsimp only
  rw [hsum]
  refine ⟨?_, ?_, ?_⟩
  · rw [has_or, has_or, has_or, show has pteValid pteValid = true by decide]
    simp
  · unfold pteAddr
    have hattr : (w &&& ~~~pteAddrMask &&& ~~~ptePage) &&& pteAddrMask = 0#64 := by
      rw [and_and_of_subset (by decide), BitVec.and_assoc,
        show ~~~pteAddrMask &&& pteAddrMask = 0#64 by decide, BitVec.and_zero]
    rw [or_and_of_disjoint hattr, or_and_of_disjoint (by decide), or_and_of_disjoint (by decide),
      ofNat_and_addrMask hlt, ofNat_page_toNat hlt]
  · unfold attributes
    rw [BitVec.and_or_distrib_right, BitVec.and_or_distrib_right, BitVec.and_or_distrib_right,
      ofNat_page_and hlt (by decide), and_and_of_subset (by decide), and_and_of_subset (by decide),
      show pteValid &&& ~~~(pteAddrMask ||| pteValid ||| ptePage) = 0#64 by decide,
      show ptePage &&& ~~~(pteAddrMask ||| pteValid ||| ptePage) = 0#64 by decide, BitVec.zero_or,
      BitVec.zero_or, BitVec.zero_or]

/-! ## Adding tables -/

theorem frameAt_addL2Table {i : Ix} (hi : pgd.l1 i = none) (page : ℕ) :
    frameAt (pgd.addL2Table i page) = frameAt pgd := by
  funext x
  unfold frameAt Pgd.addL2Table
  dsimp only
  by_cases hx : x.1 = i
  · rw [hx, Function.update_self, hi, if_pos rfl]
  · rw [Function.update_of_ne hx, if_neg hx]

/-- A level-3 table whose entries translate as its place in the level-2 table did. -/
theorem frameAt_addL3Table {y : Ix × Ix} {page page' : ℕ} {entries : Ix → Word}
    (h1 : pgd.l1 y.1 = some page)
    (hsame : ∀ k, frameAt pgd (y.1, y.2, k) = leafFrame (entries k)) :
    frameAt (pgd.addL3Table y page' entries) = frameAt pgd := by
  funext x
  by_cases hx : (x.1, x.2.1) = y
  · have hxy : x = (y.1, y.2, x.2.2) := by rw [← hx]
    rw [hxy, hsame]
    unfold frameAt Pgd.addL3Table Pgd.setL2
    dsimp only
    rw [h1, Function.update_self, if_pos rfl]
  · unfold frameAt Pgd.addL3Table Pgd.setL2
    dsimp only
    rw [Function.update_of_ne hx, if_neg hx]

theorem frameAt_zeroTable {y : Ix × Ix} {page : ℕ} (h1 : pgd.l1 y.1 = some page)
    (h2 : pgd.l2 y = .invalid) (page' : ℕ) :
    frameAt (pgd.addL3Table y page' fun _ => 0#64) = frameAt pgd := by
  refine frameAt_addL3Table h1 fun k => ?_
  unfold frameAt
  dsimp only
  rw [h1, h2, leafFrame_zero]

/-- Splitting a block changes no translation. -/
theorem frameAt_split {y : Ix × Ix} {page : ℕ} {w : Word} (h1 : pgd.l1 y.1 = some page)
    (h2 : pgd.l2 y = .block w) (hw : pteAddr w % 0x200000 = 0) (page' : ℕ) :
    frameAt (pgd.addL3Table y page' (splitEntries w)) = frameAt pgd := by
  refine frameAt_addL3Table h1 fun k => ?_
  obtain ⟨hvalid, haddr, hattr⟩ := splitEntries_spec hw k
  unfold frameAt leafFrame
  dsimp only
  rw [h1, h2, hvalid, if_pos rfl, haddr, hattr]

/-- The entry of a path whose tables are there is all that a store to it changes. -/
theorem frameAt_setL3 {x : Ix × Ix × Ix} {page page' : ℕ} (h1 : pgd.l1 x.1 = some page)
    (h2 : pgd.l2 (x.1, x.2.1) = .table page') (w : Word) :
    frameAt (pgd.setL3 x w) = Function.update (frameAt pgd) x (leafFrame w) := by
  funext z
  by_cases hz : z = x
  · subst hz
    rw [Function.update_self]
    unfold frameAt Pgd.setL3
    dsimp only
    rw [h1, h2, Function.update_self]
  · rw [Function.update_of_ne hz]
    unfold frameAt Pgd.setL3
    dsimp only
    rw [Function.update_of_ne hz]

end Split

/-! ## The tables of a path -/

section Tables

variable {pgd pgd' : Pgd} {pmm pmm' : Pmm} {y : Ix × Ix}

theorem BlocksAligned.addL2Table (h : BlocksAligned pgd) (i : Ix) (page : ℕ) :
    BlocksAligned (pgd.addL2Table i page) := by
  intro y w hy
  unfold Pgd.addL2Table at hy
  dsimp only at hy
  split at hy
  · cases hy
  · exact h y w hy

theorem BlocksAligned.addL3Table (h : BlocksAligned pgd) (y : Ix × Ix) (page : ℕ) (entries : Ix → Word) :
    BlocksAligned (pgd.addL3Table y page entries) := by
  intro z w hz
  by_cases hzy : z = y
  · subst hzy
    rw [show (pgd.addL3Table z page entries).l2 z = .table page from Function.update_self _ _ _] at hz
    cases hz
  · rw [show (pgd.addL3Table y page entries).l2 z = pgd.l2 z from Function.update_of_ne hzy _ _] at hz
    exact h z w hz

theorem BlocksAligned.setL3 (h : BlocksAligned pgd) (x : Ix × Ix × Ix) (w : Word) :
    BlocksAligned (pgd.setL3 x w) := h

/-- The level-2 table of a path: it was there, or an empty one was added. -/
theorem ensureL2Table_frames {r : Option Pgd} {i : Ix} (h : BlocksAligned pgd)
    (hok : ensureL2Table pmm pgd i = .ok (r, pmm')) (hr : r = some pgd') :
    (∃ page, pgd'.l1 i = some page) ∧ frameAt pgd' = frameAt pgd ∧ BlocksAligned pgd' := by
  unfold ensureL2Table at hok
  cases hi : pgd.l1 i with
  | some page =>
    rw [hi] at hok
    cases hok
    cases hr
    exact ⟨⟨page, hi⟩, rfl, h⟩
  | none =>
    rw [hi] at hok
    obtain ⟨⟨o, q⟩, -, he⟩ := map_eq_ok.mp hok
    cases he
    obtain ⟨page, -, rfl⟩ := Option.map_eq_some_iff.mp hr
    exact ⟨⟨page, Function.update_self _ _ _⟩, frameAt_addL2Table hi page, h.addL2Table i page⟩

theorem splitBlockToPages_frames {page : ℕ} {w : Word} (h : BlocksAligned pgd)
    (h1 : pgd.l1 y.1 = some page) (h2 : pgd.l2 y = .block w)
    (hok : splitBlockToPages pmm pgd y w = .ok (pgd', pmm')) :
    pgd'.l1 = pgd.l1 ∧ (∃ page', pgd'.l2 y = .table page') ∧ frameAt pgd' = frameAt pgd ∧
      BlocksAligned pgd' := by
  unfold splitBlockToPages at hok
  obtain ⟨⟨page', q⟩, -, he⟩ := bind_eq_ok.mp hok
  cases he
  exact ⟨rfl, ⟨page', Function.update_self _ _ _⟩, frameAt_split h1 h2 (h y w h2) page',
    h.addL3Table y page' _⟩

/-- The level-3 table: it was there, an empty one was added, or a block was split. -/
theorem ensureL3Table_frames {r : Option Pgd} {page : ℕ} (h : BlocksAligned pgd)
    (h1 : pgd.l1 y.1 = some page) (hok : ensureL3Table pmm pgd y = .ok (r, pmm'))
    (hr : r = some pgd') : pgd'.l1 = pgd.l1 ∧ (∃ page', pgd'.l2 y = .table page') ∧
      frameAt pgd' = frameAt pgd ∧ BlocksAligned pgd' := by
  unfold ensureL3Table at hok
  cases h2 : pgd.l2 y with
  | table page' =>
    rw [h2] at hok
    cases hok
    cases hr
    exact ⟨rfl, ⟨page', h2⟩, rfl, h⟩
  | block w =>
    rw [h2] at hok
    obtain ⟨⟨q, p⟩, hsplit, he⟩ := map_eq_ok.mp hok
    cases he
    cases hr
    exact splitBlockToPages_frames h h1 h2 hsplit
  | invalid =>
    rw [h2] at hok
    obtain ⟨⟨o, q⟩, -, he⟩ := map_eq_ok.mp hok
    cases he
    obtain ⟨page', -, rfl⟩ := Option.map_eq_some_iff.mp hr
    exact ⟨rfl, ⟨page', Function.update_self _ _ _⟩, frameAt_zeroTable h1 h2 page',
      h.addL3Table y page' _⟩

theorem allocTablePage_ensure {r : ℕ × Pmm} (hok : allocTablePage pmm = .ok r) :
    allocUserTablePage pmm = .ok (some r.1, r.2) := by
  unfold allocTablePage at hok
  obtain ⟨⟨o, q⟩, halloc, he⟩ := bind_eq_ok.mp hok
  cases o with
  | none => cases he
  | some page =>
    cases he
    exact halloc

/-- The kernel's tables are made as a user's are, when there is memory. -/
theorem kernelL2Table_ensure {i : Ix} (hok : kernelL2Table pmm pgd i = .ok (pgd', pmm')) :
    ensureL2Table pmm pgd i = .ok (some pgd', pmm') := by
  unfold kernelL2Table at hok
  unfold ensureL2Table
  cases hi : pgd.l1 i with
  | some page =>
    rw [hi] at hok
    cases hok
    rfl
  | none =>
    rw [hi] at hok
    obtain ⟨r, halloc, he⟩ := map_eq_ok.mp hok
    cases he
    dsimp only
    rw [allocTablePage_ensure halloc]
    rfl

theorem kernelL3Table_ensure (hok : kernelL3Table pmm pgd y = .ok (pgd', pmm')) :
    ensureL3Table pmm pgd y = .ok (some pgd', pmm') := by
  unfold kernelL3Table at hok
  unfold ensureL3Table
  cases h2 : pgd.l2 y with
  | table page =>
    rw [h2] at hok
    cases hok
    rfl
  | block w =>
    rw [h2] at hok
    dsimp only at hok ⊢
    rw [hok]
    rfl
  | invalid =>
    rw [h2] at hok
    obtain ⟨r, halloc, he⟩ := map_eq_ok.mp hok
    cases he
    dsimp only
    rw [allocTablePage_ensure halloc]
    rfl

end Tables

/-! ## One operation -/

/-- What a mapping that is made leaves at its page. The flags of a caller name no address. -/
def mappedFrame (paddr : ℕ) (flags : Word) : ℕ × Word :=
  (((BitVec.ofNat 64 paddr ||| flags) &&& pteAddrMask).toNat, attributes flags)

theorem leafFrame_mapWord (paddr : ℕ) (flags : Word) :
    leafFrame (mapWord paddr flags) = some (mappedFrame paddr flags) := by
  unfold leafFrame mappedFrame
  rw [has_mapWord_valid, if_pos rfl]
  refine congrArg some (Prod.ext ?_ ?_)
  · show ((mapWord paddr flags) &&& pteAddrMask).toNat = _
    unfold mapWord
    rw [BitVec.and_or_distrib_right, BitVec.and_or_distrib_right, BitVec.and_or_distrib_right,
      show pteValid &&& pteAddrMask = 0#64 by decide, show ptePage &&& pteAddrMask = 0#64 by decide,
      BitVec.or_zero, BitVec.or_zero, and_and_of_subset (by decide), ← BitVec.and_or_distrib_right]
  · show attributes (mapWord paddr flags) = attributes flags
    unfold attributes mapWord
    rw [BitVec.and_or_distrib_right, BitVec.and_or_distrib_right, BitVec.and_or_distrib_right,
      BitVec.and_assoc,
      show pteAddrMask &&& ~~~(pteAddrMask ||| pteValid ||| ptePage) = 0#64 by decide,
      show pteValid &&& ~~~(pteAddrMask ||| pteValid ||| ptePage) = 0#64 by decide,
      show ptePage &&& ~~~(pteAddrMask ||| pteValid ||| ptePage) = 0#64 by decide,
      BitVec.and_zero, BitVec.zero_or, BitVec.zero_or, BitVec.zero_or]

section Operations

variable {pgd pgd' : Pgd} {pmm pmm' : Pmm} {va paddr : ℕ} {flags : Word}

/-- The last store of a mapping, once the tables of its path are there. -/
theorem frames_store {base : Pgd} {page page' : ℕ} (h1 : base.l1 (vaPath va).1 = some page)
    (h2 : base.l2 ((vaPath va).1, (vaPath va).2.1) = .table page') (hbase : frameAt base = frameAt pgd)
    (w : Word) : frames (base.setL3 (vaPath va) w) =
      Function.update (frames pgd) (pageNo va) (leafFrame w) := by
  apply frames_update
  rw [frameAt_setL3 h1 h2, hbase]

/-- A mapping in a user table is made, or the map is as before. -/
theorem mmuUserMapPage_frames {done : Bool} (h : BlocksAligned pgd)
    (hok : mmuUserMapPage pmm pgd va paddr flags = .ok (done, pgd', pmm')) :
    BlocksAligned pgd' ∧ frames pgd' = if done then
      Function.update (frames pgd) (pageNo va) (some (mappedFrame paddr flags)) else frames pgd := by
  unfold mmuUserMapPage at hok
  obtain ⟨⟨r2, pmm2⟩, he2, hok⟩ := bind_eq_ok.mp hok
  cases r2 with
  | none =>
    cases hok
    exact ⟨h, rfl⟩
  | some pgd2 =>
    obtain ⟨⟨page, h1⟩, hsame2, ha2⟩ := ensureL2Table_frames h he2 rfl
    obtain ⟨⟨r3, pmm3⟩, he3, hok⟩ := bind_eq_ok.mp hok
    cases r3 with
    | none =>
      -- the level-2 table stays behind, empty
      cases hok
      refine ⟨ha2, ?_⟩
      unfold frames
      rw [hsame2]
      rfl
    | some pgd3 =>
      obtain ⟨hl1, ⟨page', h2⟩, hsame3, ha3⟩ := ensureL3Table_frames ha2 h1 he3 rfl
      obtain ⟨pmm4, -, hok⟩ := bind_eq_ok.mp hok
      cases hok
      refine ⟨ha3.setL3 _ _, ?_⟩
      rw [frames_store (hl1 ▸ h1) h2 (hsame3.trans hsame2), leafFrame_mapWord]
      rfl

/-- The kernel's mapping, which does not come back without memory. -/
theorem mmuMapPage_frames (h : BlocksAligned pgd)
    (hok : mmuMapPage pmm pgd va paddr flags = .ok (pgd', pmm')) :
    BlocksAligned pgd' ∧ frames pgd' =
      Function.update (frames pgd) (pageNo va) (some (mappedFrame paddr flags)) := by
  unfold mmuMapPage at hok
  obtain ⟨⟨pgd2, pmm2⟩, he2, hok⟩ := bind_eq_ok.mp hok
  obtain ⟨⟨page, h1⟩, hsame2, ha2⟩ := ensureL2Table_frames h (kernelL2Table_ensure he2) rfl
  obtain ⟨⟨pgd3, pmm3⟩, he3, hok⟩ := bind_eq_ok.mp hok
  obtain ⟨hl1, ⟨page', h2⟩, hsame3, ha3⟩ :=
    ensureL3Table_frames ha2 h1 (kernelL3Table_ensure he3) rfl
  cases hok
  refine ⟨ha3.setL3 _ _, ?_⟩
  rw [frames_store (hl1 ▸ h1) h2 (hsame3.trans hsame2), leafFrame_mapWord]

/-- A page that is not mapped is already what unmapping makes of it. -/
theorem frames_update_none (h : frameAt pgd (vaPath va) = none) :
    frames pgd = Function.update (frames pgd) (pageNo va) none := by
  apply frames_update
  rw [← h, Function.update_eq_self]

/-- The tables of a path, when unmapping goes on to its leaf. -/
structure Leaf (pgd base : Pgd) (va : ℕ) : Prop where
  l1 : ∃ page, base.l1 (vaPath va).1 = some page
  l2 : ∃ page, base.l2 ((vaPath va).1, (vaPath va).2.1) = .table page
  same : frameAt base = frameAt pgd
  aligned : BlocksAligned base

theorem Leaf.clear {base : Pgd} (h : Leaf pgd base va) :
    BlocksAligned (base.setL3 (vaPath va) 0#64) ∧
      frames (base.setL3 (vaPath va) 0#64) = Function.update (frames pgd) (pageNo va) none := by
  obtain ⟨page, h1⟩ := h.l1
  obtain ⟨page', h2⟩ := h.l2
  refine ⟨h.aligned.setL3 _ _, ?_⟩
  rw [frames_store h1 h2 h.same, leafFrame_zero]

theorem Leaf.keep {base : Pgd} (h : Leaf pgd base va) (hw : has (base.l3 (vaPath va)) pteValid = false) :
    BlocksAligned base ∧ frames base = Function.update (frames pgd) (pageNo va) none := by
  obtain ⟨page, h1⟩ := h.l1
  obtain ⟨page', h2⟩ := h.l2
  refine ⟨h.aligned, ?_⟩
  have hnone : frameAt base (vaPath va) = none := by
    unfold frameAt leafFrame
    rw [h1, h2, hw]
    rfl
  have hframes : frames base = frames pgd := by
    unfold frames
    rw [h.same]
  rw [← hframes]
  exact frames_update_none hnone

theorem leaf_of_split {page : ℕ} {w : Word} {base : Pgd} (h : BlocksAligned pgd)
    (h1 : pgd.l1 (vaPath va).1 = some page)
    (h2 : pgd.l2 ((vaPath va).1, (vaPath va).2.1) = .block w)
    (hok : splitBlockToPages pmm pgd ((vaPath va).1, (vaPath va).2.1) w = .ok (base, pmm')) :
    Leaf pgd base va := by
  obtain ⟨hl1, htable, hsame, haligned⟩ := splitBlockToPages_frames h h1 h2 hok
  exact { l1 := ⟨page, hl1 ▸ h1⟩, l2 := htable, same := hsame, aligned := haligned }

/-- Unmapping takes the page out of the map, if clearing a leaf zeroes it when it is valid. -/
theorem unmapWith_frames {clear : Pmm → Pgd → Ix × Ix × Ix → Except Panic (Pgd × Pmm)}
    (hclear : ∀ {pmm pmm' : Pmm} {base base' : Pgd} {x : Ix × Ix × Ix},
      clear pmm base x = .ok (base', pmm') →
        base' = if has (base.l3 x) pteValid then base.setL3 x 0#64 else base)
    (h : BlocksAligned pgd) (hok : unmapWith clear pmm pgd va = .ok (pgd', pmm')) :
    BlocksAligned pgd' ∧ frames pgd' = Function.update (frames pgd) (pageNo va) none := by
  have hleaf : ∀ {pmm : Pmm} {base : Pgd}, Leaf pgd base va →
      clear pmm base (vaPath va) = .ok (pgd', pmm') →
      BlocksAligned pgd' ∧ frames pgd' = Function.update (frames pgd) (pageNo va) none := by
    intro pmm base hbase hc
    rw [hclear hc]
    cases hw : has (base.l3 (vaPath va)) pteValid with
    | true => exact hbase.clear
    | false => exact hbase.keep hw
  unfold unmapWith at hok
  dsimp only at hok
  cases h1 : pgd.l1 (vaPath va).1 with
  | none =>
    rw [h1] at hok
    cases hok
    refine ⟨h, frames_update_none ?_⟩
    unfold frameAt
    rw [h1]
  | some page =>
    cases h2 : pgd.l2 ((vaPath va).1, (vaPath va).2.1) with
    | invalid =>
      rw [h1, h2] at hok
      cases hok
      refine ⟨h, frames_update_none ?_⟩
      unfold frameAt
      rw [h1, h2]
    | block w =>
      rw [h1, h2] at hok
      obtain ⟨⟨base, q⟩, hsplit, hok⟩ := bind_eq_ok.mp hok
      exact hleaf (leaf_of_split h h1 h2 hsplit) hok
    | table page' =>
      rw [h1, h2] at hok
      exact hleaf ⟨⟨page, h1⟩, ⟨page', h2⟩, rfl, h⟩ hok

theorem clearLeaf_eq {base base' : Pgd} {x : Ix × Ix × Ix}
    (hok : clearLeaf pmm base x = .ok (base', pmm')) :
    base' = if has (base.l3 x) pteValid then base.setL3 x 0#64 else base := by
  unfold clearLeaf at hok
  split at hok
  · rename_i hw
    obtain ⟨q, -, he⟩ := map_eq_ok.mp hok
    cases he
    rw [if_pos hw]
  · rename_i hw
    cases hok
    rw [if_neg hw]

theorem clearKernelLeaf_eq {base base' : Pgd} {x : Ix × Ix × Ix}
    (hok : clearKernelLeaf pmm base x = .ok (base', pmm')) :
    base' = if has (base.l3 x) pteValid then base.setL3 x 0#64 else base := by
  unfold clearKernelLeaf at hok
  split at hok
  · rename_i hw
    cases hok
    rw [if_pos hw]
  · rename_i hw
    cases hok
    rw [if_neg hw]

end Operations

/-! ## The tables of the system -/

/-- The kernel's table, or that of a user address space. -/
inductive Root (ι : Type)
  | kernel
  | user (u : ι)
deriving DecidableEq

/-- All tables, with the allocator that they take their pages from. -/
structure Tables (ι : Type) where
  pgd : Root ι → Pgd
  pmm : Pmm

inductive TableOp
  | map (va paddr : ℕ) (flags : Word)
  | unmap (va : ℕ)
  | query (va : ℕ)

inductive TableAnswer
  | done
  | noMemory
  | found (r : Option (ℕ × Word))

section System

variable {ι : Type} [DecidableEq ι]

def Tables.store (s : Tables ι) (root : Root ι) (r : Pgd × Pmm) : Tables ι :=
  { pgd := Function.update s.pgd root r.1, pmm := r.2 }

/-- One operation on one of the tables. -/
def tableStep (s : Tables ι) : Root ι → TableOp → Except Panic (TableAnswer × Tables ι)
  | .kernel, .map va paddr flags =>
    (mmuMapPage s.pmm (s.pgd .kernel) va paddr flags).map fun r => (.done, s.store .kernel r)
  | .user u, .map va paddr flags =>
    (mmuUserMapPage s.pmm (s.pgd (.user u)) va paddr flags).map fun r =>
      (if r.1 then .done else .noMemory, s.store (.user u) r.2)
  | .kernel, .unmap va =>
    (mmuUnmapPage s.pmm (s.pgd .kernel) va).map fun r => (.done, s.store .kernel r)
  | .user u, .unmap va =>
    (mmuUserUnmapPage s.pmm (s.pgd (.user u)) va).map fun r => (.done, s.store (.user u) r)
  | .kernel, .query va => .ok (.found (mmuQuery (s.pgd .kernel) va), s)
  | .user u, .query va => .ok (.found (mmuUserQuery (s.pgd (.user u)) va), s)

/-- An operation with its answer, from one state of the tables to the next. -/
def TableStep (s : Tables ι) (l : Root ι × TableOp × TableAnswer) (s' : Tables ι) : Prop :=
  tableStep s l.1 l.2.1 = .ok (l.2.2, s')

/-- What the tables are for: a finite map for each, from pages to frames with attributes. An
operation on one page of one table changes at most that page of that map. -/
inductive MapStep : (Root ι → Frames) → Root ι × TableOp × TableAnswer → (Root ι → Frames) → Prop
  | map (F : Root ι → Frames) (root : Root ι) (va paddr : ℕ) (flags : Word) :
      MapStep F (root, .map va paddr flags, .done) (Function.update F root
        (Function.update (F root) (pageNo va) (some (mappedFrame paddr flags))))
  | noMemory (F : Root ι → Frames) (root : Root ι) (va paddr : ℕ) (flags : Word) :
      MapStep F (root, .map va paddr flags, .noMemory) F
  | unmap (F : Root ι → Frames) (root : Root ι) (va : ℕ) :
      MapStep F (root, .unmap va, .done)
        (Function.update F root (Function.update (F root) (pageNo va) none))
  | query (F : Root ι → Frames) (root : Root ι) (va : ℕ) (r : Option (ℕ × Word))
      (hfound : r.map (fun q => (q.1, attributes q.2)) =
        (F root (pageNo va)).map fun q => (q.1 + va % pageSize, q.2)) :
      MapStep F (root, .query va, .found r) F

def Tables.frames (s : Tables ι) : Root ι → Frames := fun root => Mm.frames (s.pgd root)

theorem Tables.frames_store (s : Tables ι) (root : Root ι) (r : Pgd × Pmm) :
    (s.store root r).frames = Function.update s.frames root (Mm.frames r.1) := by
  funext root'
  show Mm.frames (Function.update s.pgd root r.1 root') = _
  by_cases h : root' = root
  · rw [h, Function.update_self, Function.update_self]
  · rw [Function.update_of_ne h, Function.update_of_ne h]
    rfl

def Tables.Aligned (s : Tables ι) : Prop := ∀ root, BlocksAligned (s.pgd root)

theorem Tables.Aligned.store {s : Tables ι} (h : s.Aligned) (root : Root ι) {r : Pgd × Pmm}
    (hr : BlocksAligned r.1) : (s.store root r).Aligned := by
  intro root'
  show BlocksAligned (Function.update s.pgd root r.1 root')
  by_cases hroot : root' = root
  · rw [hroot, Function.update_self]
    exact hr
  · rw [Function.update_of_ne hroot]
    exact h root'

/-- A mapping that was made, in either kind of table. -/
theorem mapStep_map {s : Tables ι} (h : s.Aligned) {root : Root ι} {va paddr : ℕ} {flags : Word}
    {r : Pgd × Pmm} (hr : BlocksAligned r.1 ∧ frames r.1 =
      Function.update (frames (s.pgd root)) (pageNo va) (some (mappedFrame paddr flags))) :
    (s.store root r).Aligned ∧ MapStep s.frames (root, .map va paddr flags, .done) (s.store root r).frames := by
  refine ⟨h.store root hr.1, ?_⟩
  rw [Tables.frames_store, hr.2]
  exact MapStep.map _ _ _ _ _

theorem mapStep_unmap {s : Tables ι} (h : s.Aligned) {root : Root ι} {va : ℕ} {r : Pgd × Pmm}
    (hr : BlocksAligned r.1 ∧ frames r.1 = Function.update (frames (s.pgd root)) (pageNo va) none) :
    (s.store root r).Aligned ∧ MapStep s.frames (root, .unmap va, .done) (s.store root r).frames := by
  refine ⟨h.store root hr.1, ?_⟩
  rw [Tables.frames_store, hr.2]
  exact MapStep.unmap _ _ _

/-- Each operation on the tables is one on the maps. -/
theorem tableStep_mapStep {s s' : Tables ι} {l : Root ι × TableOp × TableAnswer} (h : s.Aligned)
    (hstep : TableStep s l s') : s'.Aligned ∧ MapStep s.frames l s'.frames := by
  obtain ⟨root, op, answer⟩ := l
  unfold TableStep at hstep
  cases op with
  | map va paddr flags =>
    cases root with
    | kernel =>
      obtain ⟨r, hok, he⟩ := map_eq_ok.mp hstep
      cases he
      exact mapStep_map h (mmuMapPage_frames (h .kernel) hok)
    | user u =>
      obtain ⟨⟨done, r⟩, hok, he⟩ := map_eq_ok.mp hstep
      cases he
      have hr := mmuUserMapPage_frames (h (.user u)) hok
      cases done with
      | true => exact mapStep_map h hr
      | false =>
        refine ⟨h.store _ hr.1, ?_⟩
        have hsame : (s.store (.user u) r).frames = s.frames := by
          rw [Tables.frames_store, hr.2]
          exact Function.update_eq_self _ _
        rw [hsame]
        exact MapStep.noMemory _ _ _ _ _
  | unmap va =>
    cases root with
    | kernel =>
      obtain ⟨r, hok, he⟩ := map_eq_ok.mp hstep
      cases he
      exact mapStep_unmap h (unmapWith_frames clearKernelLeaf_eq (h .kernel) hok)
    | user u =>
      obtain ⟨r, hok, he⟩ := map_eq_ok.mp hstep
      cases he
      rw [mmuUserUnmapPage_eq] at hok
      exact mapStep_unmap h (unmapWith_frames clearLeaf_eq (h (.user u)) hok)
  | query va =>
    cases root with
    | kernel =>
      cases hstep
      exact ⟨h, MapStep.query _ _ _ _ (mmuUserQuery_eq_frames _ va)⟩
    | user u =>
      cases hstep
      exact ⟨h, MapStep.query _ _ _ _ (mmuUserQuery_eq_frames _ va)⟩

/-- Whatever is mapped, unmapped and queried in the kernel's table and in those of the users, the
tables answer as one finite map each. -/
theorem tables_are_maps {s s' : Tables ι} {ls : List (Root ι × TableOp × TableAnswer)} (h : s.Aligned)
    (hrun : Run TableStep s ls s') : Run MapStep s.frames ls s'.frames :=
  hrun.simulate Tables.Aligned Tables.frames (fun _ _ _ hs hstep => tableStep_mapStep hs hstep) h

end System

/-- The kernel's table as it is built, next to one empty user table. -/
def bootTables (pmm : Pmm) : Tables Unit :=
  { pgd := fun
      | .kernel => mmuInitPgd 0 (fun _ => 0) fun _ => 0
      | .user _ => Pgd.empty 0
    pmm := pmm }

theorem bootTables_aligned (pmm : Pmm) : (bootTables pmm).Aligned
  | .kernel => blocksAligned_mmuInitPgd 0 (fun _ => 0) fun _ => 0
  | .user _ => blocksAligned_empty 0

/-- A mapping inside the first block of the kernel's table, which is split, and a query next to it. -/
theorem tables_are_maps_block : ∃ pmm s', Run TableStep (bootTables pmm)
      [(.kernel, .map 0x40001000 0x7000 0x60000000000700, .done),
        (.kernel, .query 0x40000123, .found (some (0x40000123, 0x60000000000703)))] s' ∧
    Run MapStep (bootTables pmm).frames
      [(.kernel, .map 0x40001000 0x7000 0x60000000000700, .done),
        (.kernel, .query 0x40000123, .found (some (0x40000123, 0x60000000000703)))] s'.frames := by
  obtain ⟨pmm, s', hmap, hquery⟩ : ∃ pmm s', TableStep (bootTables pmm)
      (.kernel, .map 0x40001000 0x7000 0x60000000000700, .done) s' ∧
      mmuQuery (s'.pgd .kernel) 0x40000123 = some (0x40000123, 0x60000000000703) := by
    obtain ⟨pmm, hinit⟩ : ∃ pmm, Pmm.boot.pmmInit 0x8000 kernelVma = .ok pmm := ⟨_, rfl⟩
    obtain ⟨r, hmap, hquery⟩ : ∃ r, mmuMapPage pmm ((bootTables pmm).pgd .kernel) 0x40001000 0x7000
        0x60000000000700 = .ok r ∧
        mmuUserQuery r.1 0x40000123 = some (0x40000123, 0x60000000000703) := by
      cases hinit
      exact ⟨_, rfl, by decide +kernel⟩
    exact ⟨pmm, (bootTables pmm).store .kernel r, map_eq_ok.mpr ⟨r, hmap, rfl⟩, hquery⟩
  have hrun : Run TableStep (bootTables pmm)
      [(.kernel, .map 0x40001000 0x7000 0x60000000000700, .done),
        (.kernel, .query 0x40000123, .found (some (0x40000123, 0x60000000000703)))] s' :=
    .cons hmap (.single (congrArg (fun r => Except.ok (TableAnswer.found r, s')) hquery))
  exact ⟨pmm, s', hrun, tables_are_maps (bootTables_aligned pmm) hrun⟩

end Perspicua.Mm
