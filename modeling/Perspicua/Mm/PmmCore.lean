import Perspicua.Mm.PmmLists

/-!
# The shape of the buddy allocator's state

`Core s lim used` says that the free blocks of `s` together with the blocks in `used` tile
the unreserved pages below `lim`, that the free lists hold exactly the free blocks and that
no two free buddies coexist. `used` is what the allocator itself does not record: the live
allocations, and inside an operation also the block it holds in its hands.

Every operation is a sequence of two moves. `take` removes a free block from its list and
`give` puts one back; splitting and coalescing only relabel the block in hand.
-/

namespace Perspicua.Mm.Pmm

open Perspicua.Lib

/-- `pfn` heads a free block of order `k`. -/
def FreeHead (s : Pmm) (pfn k : ℕ) : Prop :=
  pfn < s.numPages ∧ (s.pageArray pfn).isFree = true ∧ (s.pageArray pfn).order = k

def freeBlocks (s : Pmm) : Set Block := {b | s.FreeHead b.base b.order}

def Reserved (s : Pmm) (pfn : ℕ) : Prop := s.pfnIsReserved pfn = true

/-- The number of pages a page record contributes to the free pages. -/
def freeSize (s : Pmm) (pfn : ℕ) : ℕ :=
  if (s.pageArray pfn).isFree then 2 ^ (s.pageArray pfn).order else 0

/-- The sum of the sizes of all free blocks. -/
def freeSum (s : Pmm) : ℕ := ∑ q ∈ Finset.range s.numPages, s.freeSize q

structure Core (s : Pmm) (lim : ℕ) (used : Set Block) : Prop where
  pages_lt : s.numPages < pmmPfnNull
  lim_le : lim ≤ s.numPages
  lists : s.ListsFor s.FreeHead
  tiling : Tiling s.Reserved pmmMaxOrder lim (s.freeBlocks ∪ used)
  used_busy : ∀ b ∈ used, (s.pageArray b.base).isFree = false
  no_buddies : ∀ pfn k, k < pmmMaxOrder → s.FreeHead pfn k → ¬ s.FreeHead (pfn ^^^ 2 ^ k) k

theorem FreeHead.functional {s : Pmm} (q j k : ℕ) (_ : j ≤ pmmMaxOrder) (_ : k ≤ pmmMaxOrder)
    (hj : s.FreeHead q j) (hk : s.FreeHead q k) : j = k := hj.2.2.symm.trans hk.2.2

theorem not_freeHead_of_busy {s : Pmm} {q : ℕ} (h : (s.pageArray q).isFree = false) (k : ℕ) :
    ¬ s.FreeHead q k := fun hf => by
  rw [FreeHead, h] at hf
  exact absurd hf.2.1 (by simp)

/-! ## Changing one page record -/

/-- Two states whose records differ, links aside, at `q` only. -/
structure SameButAt (q : ℕ) (s t : Pmm) : Prop where
  numPages : t.numPages = s.numPages
  managedPages : t.managedPages = s.managedPages
  freePagesCount : t.freePagesCount = s.freePagesCount
  reservedRanges : t.reservedRanges = s.reservedRanges
  ready : t.ready = s.ready
  page : ∀ x, x ≠ q → t.metaOf x = s.metaOf x

theorem SameMeta.sameButAt {s t : Pmm} (h : SameMeta s t) (q : ℕ) : SameButAt q s t :=
  ⟨h.numPages, h.managedPages, h.freePagesCount, h.reservedRanges, h.ready, fun x _ => h.page x⟩

theorem SameButAt.trans {q : ℕ} {s t u : Pmm} (h : SameButAt q s t) (h' : SameButAt q t u) :
    SameButAt q s u where
  numPages := h'.numPages.trans h.numPages
  managedPages := h'.managedPages.trans h.managedPages
  freePagesCount := h'.freePagesCount.trans h.freePagesCount
  reservedRanges := h'.reservedRanges.trans h.reservedRanges
  ready := h'.ready.trans h.ready
  page x hx := (h'.page x hx).trans (h.page x hx)

theorem sameButAt_modifyPage (s : Pmm) (q : ℕ) (f : PmmPage → PmmPage) :
    SameButAt q s (s.modifyPage q f) := by
  refine ⟨rfl, rfl, rfl, rfl, rfl, fun x hx => ?_⟩
  simp [metaOf, modifyPage, Function.update_of_ne hx]

theorem modifyPage_self (s : Pmm) (q : ℕ) (f : PmmPage → PmmPage) :
    (s.modifyPage q f).pageArray q = f (s.pageArray q) := by simp [modifyPage]

theorem SameButAt.isFree {q : ℕ} {s t : Pmm} (h : SameButAt q s t) {x : ℕ} (hx : x ≠ q) :
    (t.pageArray x).isFree = (s.pageArray x).isFree := congrArg (·.2.2.1) (h.page x hx)

theorem SameButAt.order {q : ℕ} {s t : Pmm} (h : SameButAt q s t) {x : ℕ} (hx : x ≠ q) :
    (t.pageArray x).order = (s.pageArray x).order := congrArg (·.2.1) (h.page x hx)

theorem SameButAt.freeHead {q : ℕ} {s t : Pmm} (h : SameButAt q s t) {x : ℕ} (hx : x ≠ q)
    (k : ℕ) : t.FreeHead x k ↔ s.FreeHead x k := by
  rw [FreeHead, FreeHead, h.numPages, h.isFree hx, h.order hx]

theorem SameButAt.reserved {q : ℕ} {s t : Pmm} (h : SameButAt q s t) : t.Reserved = s.Reserved := by
  funext x
  rw [Reserved, Reserved, pfnIsReserved, pfnIsReserved, rangeOverlapsReservedPfns,
    rangeOverlapsReservedPfns, h.numPages, h.reservedRanges]

/-- The free pages change by what the record at `q` contributes. -/
theorem SameButAt.freeSum {q : ℕ} {s t : Pmm} (h : SameButAt q s t) (hq : q < s.numPages) :
    t.freeSum + s.freeSize q = s.freeSum + t.freeSize q := by
  have hmem : q ∈ Finset.range s.numPages := Finset.mem_range.mpr hq
  have hrest : ∑ x ∈ (Finset.range s.numPages).erase q, t.freeSize x
      = ∑ x ∈ (Finset.range s.numPages).erase q, s.freeSize x := by
    refine Finset.sum_congr rfl fun x hx => ?_
    have hxq := Finset.ne_of_mem_erase hx
    rw [freeSize, freeSize, h.isFree hxq, h.order hxq]
  rw [Pmm.freeSum, Pmm.freeSum, h.numPages, ← Finset.add_sum_erase _ _ hmem,
    ← Finset.add_sum_erase _ s.freeSize hmem, hrest]
  omega

/-! ## Taking a block off its list and giving one back -/

/-- Unlink a free block and mark its head busy. -/
theorem take {s : Pmm} {lim q k : ℕ} {used : Set Block} (h : s.Core lim used)
    (hq : s.FreeHead q k) (f : PmmPage → PmmPage)
    (hf : ∀ p, (f p).next = p.next ∧ (f p).prev = p.prev ∧ (f p).isFree = false) :
    ∃ t, s.pmmListDel k q = .ok t ∧ SameButAt q s (t.modifyPage q f) ∧
      SameMeta s t ∧ (t.modifyPage q f).ListsFor (t.modifyPage q f).FreeHead ∧
      (∀ x j, (t.modifyPage q f).FreeHead x j ↔ s.FreeHead x j ∧ x ≠ q) ∧
      (t.modifyPage q f).freeSum + 2 ^ k = s.freeSum := by
  have hk : k ≤ pmmMaxOrder := h.tiling.order_le ⟨q, k⟩ (Or.inl hq)
  obtain ⟨t, ht, hsame, hlists⟩ := h.lists.pmmListDel hk hq FreeHead.functional
  have hbut : SameButAt q s (t.modifyPage q f) :=
    (hsame.sameButAt q).trans (sameButAt_modifyPage t q f)
  have hbusy : ((t.modifyPage q f).pageArray q).isFree = false := by
    rw [modifyPage_self]; exact (hf _).2.2
  have hiff : ∀ x j, (t.modifyPage q f).FreeHead x j ↔ s.FreeHead x j ∧ x ≠ q := by
    intro x j
    by_cases hx : x = q
    · subst hx
      simp [not_freeHead_of_busy hbusy]
    · simp [hbut.freeHead hx, hx]
  refine ⟨t, ht, hbut, hsame, ?_, hiff, ?_⟩
  · refine (hlists.imp fun x j => (hiff x j).symm).of_links (fun x => ?_) (fun x => ?_) rfl
    · rw [nextOf_modifyPage, (hf _).1]
      exact congrFun (Function.update_eq_self q t.nextOf) x
    · rw [prevOf_modifyPage, (hf _).2.1]
      exact congrFun (Function.update_eq_self q t.prevOf) x
  · have hsum := hbut.freeSum hq.1
    have hs : s.freeSize q = 2 ^ k := by rw [freeSize, if_pos hq.2.1, hq.2.2]
    have ht' : (t.modifyPage q f).freeSize q = 0 := by simp [freeSize, hbusy]
    omega

/-- Mark a busy page as the head of a free block and link it in. -/
theorem give {s : Pmm} {q k : ℕ} (hlists : s.ListsFor s.FreeHead)
    (hpages : s.numPages < pmmPfnNull) (hq : q < s.numPages) (hk : k ≤ pmmMaxOrder)
    (hbusy : (s.pageArray q).isFree = false) (f : PmmPage → PmmPage)
    (hf : ∀ p, (f p).next = p.next ∧ (f p).prev = p.prev ∧ (f p).isFree = true ∧
      (f p).order = k) :
    let t := (s.modifyPage q f).pmmListAdd k q
    SameButAt q s t ∧ t.ListsFor t.FreeHead ∧
      (∀ x j, t.FreeHead x j ↔ s.FreeHead x j ∨ (x = q ∧ j = k)) ∧
      t.freeSum = s.freeSum + 2 ^ k := by
  intro t
  have hnot := not_freeHead_of_busy hbusy
  have hsame := sameMeta_pmmListAdd (s.modifyPage q f) k q
  have hbut : SameButAt q s t := (sameButAt_modifyPage s q f).trans (hsame.sameButAt q)
  have hfree : (t.pageArray q).isFree = true := by
    rw [hsame.isFree, modifyPage_self]; exact (hf _).2.2.1
  have hord : (t.pageArray q).order = k := by
    rw [hsame.order, modifyPage_self]; exact (hf _).2.2.2
  have hiff : ∀ x j, t.FreeHead x j ↔ s.FreeHead x j ∨ (x = q ∧ j = k) := by
    intro x j
    by_cases hx : x = q
    · subst hx
      rw [FreeHead, hbut.numPages, hfree, hord]
      simp only [hnot, false_or, true_and]
      exact ⟨fun h => h.2.symm, fun h => ⟨hq, h.symm⟩⟩
    · simp [hbut.freeHead hx, hx]
  refine ⟨hbut, ?_, hiff, ?_⟩
  · have hl : (s.modifyPage q f).ListsFor s.FreeHead := by
      refine hlists.of_links (fun x => ?_) (fun x => ?_) rfl
      · rw [nextOf_modifyPage, (hf _).1]
        exact congrFun (Function.update_eq_self q s.nextOf) x
      · rw [prevOf_modifyPage, (hf _).2.1]
        exact congrFun (Function.update_eq_self q s.prevOf) x
    exact (hl.pmmListAdd hk (by omega) (fun j _ => hnot j) FreeHead.functional).imp
      fun x j => (hiff x j).symm
  · have hsum := hbut.freeSum hq
    have hs : s.freeSize q = 0 := by simp [freeSize, hbusy]
    have ht : t.freeSize q = 2 ^ k := by rw [freeSize, if_pos hfree, hord]
    omega

/-! ## Moving a block between the lists and the used set -/

section Moves

variable {s t : Pmm} {lim q k : ℕ} {used : Set Block}

/-- A used block is not on a free list. -/
theorem Core.used_not_free (h : s.Core lim used) {b : Block} (hb : b ∈ used) :
    b ∉ s.freeBlocks := not_freeHead_of_busy (h.used_busy b hb) b.order

/-- No free block starts inside a used one. -/
theorem Core.busy_of_mem_used (h : s.Core lim used) {b : Block} (hb : b ∈ used) {x : ℕ}
    (hx : x ∈ b) : (s.pageArray x).isFree = false := by
  by_contra hfree
  have hlt : x < s.numPages :=
    Nat.lt_of_lt_of_le hx.2 ((h.tiling.bound b (Or.inr hb)).trans h.lim_le)
  have hx' : s.FreeHead x (s.pageArray x).order := ⟨hlt, by simpa using hfree, rfl⟩
  have he := h.tiling.disjoint b (Or.inr hb) ⟨x, (s.pageArray x).order⟩ (Or.inl hx') x hx
    (Block.base_mem _)
  exact h.used_not_free hb (he ▸ hx')

/-- After `take`, the block counts as used. -/
theorem Core.of_take (h : s.Core lim used) (hq : s.FreeHead q k) (hbut : SameButAt q s t)
    (hlists : t.ListsFor t.FreeHead) (hiff : ∀ x j, t.FreeHead x j ↔ s.FreeHead x j ∧ x ≠ q)
    (hbusy : (t.pageArray q).isFree = false) : t.Core lim (insert ⟨q, k⟩ used) where
  pages_lt := hbut.numPages ▸ h.pages_lt
  lim_le := hbut.numPages ▸ h.lim_le
  lists := hlists
  tiling := by
    have hset : t.freeBlocks ∪ insert ⟨q, k⟩ used = s.freeBlocks ∪ used := by
      ext b
      simp only [freeBlocks, Set.mem_union, Set.mem_ofPred_eq, Set.mem_insert_iff, hiff]
      constructor
      · rintro (hb | rfl | hb)
        · exact Or.inl hb.1
        · exact Or.inl hq
        · exact Or.inr hb
      · rintro (hb | hb)
        · by_cases hbq : b.base = q
          · refine Or.inr (Or.inl (Block.ext hbq ?_))
            rw [hbq] at hb
            exact hb.2.2.symm.trans hq.2.2
          · exact Or.inl ⟨hb, hbq⟩
        · exact Or.inr (Or.inr hb)
    rw [hset, hbut.reserved]
    exact h.tiling
  used_busy := by
    rintro b (rfl | hb)
    · exact hbusy
    · by_cases hbq : b.base = q
      · rw [hbq]; exact hbusy
      · rw [hbut.isFree hbq]; exact h.used_busy b hb
  no_buddies pfn j hj hf hf' :=
    h.no_buddies pfn j hj ((hiff _ _).mp hf).1 ((hiff _ _).mp hf').1

/-- After `give`, a used block whose buddy is not free counts as free. -/
theorem Core.of_give (h : s.Core lim (insert ⟨q, k⟩ used)) (hnew : ⟨q, k⟩ ∉ used)
    (hbut : SameButAt q s t) (hlists : t.ListsFor t.FreeHead)
    (hiff : ∀ x j, t.FreeHead x j ↔ s.FreeHead x j ∨ (x = q ∧ j = k))
    (hbuddy : k < pmmMaxOrder → ¬ s.FreeHead (q ^^^ 2 ^ k) k) : t.Core lim used where
  pages_lt := hbut.numPages ▸ h.pages_lt
  lim_le := hbut.numPages ▸ h.lim_le
  lists := hlists
  tiling := by
    have hset : t.freeBlocks ∪ used = s.freeBlocks ∪ insert ⟨q, k⟩ used := by
      ext b
      simp only [freeBlocks, Set.mem_union, Set.mem_ofPred_eq, Set.mem_insert_iff, hiff,
        Block.ext_iff]
      tauto
    rw [hset, hbut.reserved]
    exact h.tiling
  used_busy b hb := by
    have hbq : b.base ≠ q := fun he =>
      hnew (h.tiling.eq_of_base (b := b) (c := ⟨q, k⟩) (Or.inr (Or.inr hb))
        (Or.inr (Or.inl rfl)) he ▸ hb)
    rw [hbut.isFree hbq]
    exact h.used_busy b (Or.inr hb)
  no_buddies pfn j hj hf hf' := by
    rcases (hiff _ _).mp hf with hf | ⟨rfl, rfl⟩ <;> rcases (hiff _ _).mp hf' with hf' | ⟨he, hjk⟩
    · exact h.no_buddies pfn j hj hf hf'
    · subst hjk
      exact hbuddy hj (he ▸ (xor_xor_two_pow pfn j).symm ▸ hf)
    · exact hbuddy hj hf'
    · exact xor_two_pow_ne _ _ he

/-- Records may change freely as long as links, free flags and orders stay. -/
theorem Core.of_sameShape (h : s.Core lim used) (hn : t.numPages = s.numPages)
    (hr : t.reservedRanges = s.reservedRanges) (hl : t.freeLists = s.freeLists)
    (hp : ∀ x, (t.pageArray x).next = (s.pageArray x).next ∧
      (t.pageArray x).prev = (s.pageArray x).prev ∧
      (t.pageArray x).isFree = (s.pageArray x).isFree ∧
      ((s.pageArray x).isFree = true → (t.pageArray x).order = (s.pageArray x).order)) :
    t.Core lim used := by
  have hiff : ∀ x j, t.FreeHead x j ↔ s.FreeHead x j := by
    intro x j
    rw [FreeHead, FreeHead, hn, (hp x).2.2.1]
    constructor
    · rintro ⟨h1, h2, h3⟩
      exact ⟨h1, h2, (hp x).2.2.2 h2 ▸ h3⟩
    · rintro ⟨h1, h2, h3⟩
      exact ⟨h1, h2, ((hp x).2.2.2 h2).trans h3⟩
  have hres : t.Reserved = s.Reserved := by
    funext x
    rw [Reserved, Reserved, pfnIsReserved, pfnIsReserved, rangeOverlapsReservedPfns,
      rangeOverlapsReservedPfns, hn, hr]
  have hfree : t.freeBlocks = s.freeBlocks := by
    ext b
    exact hiff _ _
  exact {
    pages_lt := hn ▸ h.pages_lt
    lim_le := hn ▸ h.lim_le
    lists := (h.lists.imp fun x j => (hiff x j).symm).of_links
      (fun x => (hp x).1) (fun x => (hp x).2.1) hl
    tiling := by rw [hres, hfree]; exact h.tiling
    used_busy := fun b hb => (hp b.base).2.2.1.trans (h.used_busy b hb)
    no_buddies := fun pfn j hj hf hf' =>
      h.no_buddies pfn j hj ((hiff _ _).mp hf) ((hiff _ _).mp hf') }

/-- Relabel the used blocks when the same pages are cut differently. -/
theorem Core.of_tiling (h : s.Core lim used) {used' : Set Block}
    (ht : Tiling s.Reserved pmmMaxOrder lim (s.freeBlocks ∪ used'))
    (hb : ∀ b ∈ used', (s.pageArray b.base).isFree = false) : s.Core lim used' :=
  { h with tiling := ht, used_busy := hb }

end Moves

end Perspicua.Mm.Pmm
