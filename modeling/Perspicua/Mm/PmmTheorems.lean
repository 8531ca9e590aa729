import Perspicua.Mm.PmmCore

/-!
# The loops of the buddy allocator

The coalescing loop of a release, the greedy covering of `pmm_init` and the search and
split loops of an allocation, each as a fact about `Core`: which block is in hand when the
loop ends, and that the count of free pages follows.
-/

namespace Perspicua.Mm.Pmm

open Perspicua.Lib

/-! ## Releasing a block -/

/-- What releasing a block leaves alone: everything that is not about free pages, and the
records of the used blocks. -/
structure Frame (s t : Pmm) (used : Set Block) : Prop where
  numPages : t.numPages = s.numPages
  freePagesCount : t.freePagesCount = s.freePagesCount
  reservedRanges : t.reservedRanges = s.reservedRanges
  ready : t.ready = s.ready
  page : ∀ b ∈ used, t.metaOf b.base = s.metaOf b.base

theorem Frame.refl (s : Pmm) (used : Set Block) : Frame s s used :=
  ⟨rfl, rfl, rfl, rfl, fun _ _ => rfl⟩

theorem Frame.trans {s t u : Pmm} {used : Set Block} (h : Frame s t used)
    (h' : Frame t u used) : Frame s u used where
  numPages := h'.numPages.trans h.numPages
  freePagesCount := h'.freePagesCount.trans h.freePagesCount
  reservedRanges := h'.reservedRanges.trans h.reservedRanges
  ready := h'.ready.trans h.ready
  page b hb := (h'.page b hb).trans (h.page b hb)

theorem SameButAt.frame {q : ℕ} {s t : Pmm} {used : Set Block} (h : SameButAt q s t)
    (hq : ∀ b ∈ used, b.base ≠ q) : Frame s t used :=
  ⟨h.numPages, h.freePagesCount, h.reservedRanges, h.ready, fun b hb => h.page _ (hq b hb)⟩

theorem one_shiftLeft_eq (k : ℕ) : 1 <<< k = 2 ^ k := by rw [Nat.shiftLeft_eq, one_mul]

/-- One round of coalescing: the block in hand swallows its free buddy. -/
theorem Core.coalesce {s t : Pmm} {lim pfn order : ℕ} {used : Set Block}
    (h : s.Core lim (insert ⟨pfn, order⟩ used)) (hnew : ⟨pfn, order⟩ ∉ used)
    (horder : order < pmmMaxOrder) (hbuddy : s.FreeHead (pfn ^^^ 2 ^ order) order)
    (ht : t.Core lim (insert ⟨pfn ^^^ 2 ^ order, order⟩ (insert ⟨pfn, order⟩ used))) :
    let l := if pfn < pfn ^^^ 2 ^ order then pfn else pfn ^^^ 2 ^ order
    t.Core lim (insert ⟨l, order + 1⟩ used) ∧ ⟨l, order + 1⟩ ∉ used := by
  have halign : 2 ^ order ∣ pfn := h.tiling.aligned ⟨pfn, order⟩ (by simp)
  have hpos := Nat.two_pow_pos order
  -- the left one of the two buddies, and both of them as its halves
  obtain ⟨l, hl, hdvd, hpair⟩ : ∃ l, (if pfn < pfn ^^^ 2 ^ order then pfn else pfn ^^^ 2 ^ order) = l
      ∧ 2 ^ (order + 1) ∣ l ∧
      ((pfn = l ∧ pfn ^^^ 2 ^ order = l + 2 ^ order) ∨
        (pfn = l + 2 ^ order ∧ pfn ^^^ 2 ^ order = l)) := by
    rcases aligned_cases halign with hd | ⟨l, rfl, hd⟩
    · exact ⟨pfn, by rw [xor_two_pow_left hd, if_pos (by omega)], hd,
        Or.inl ⟨rfl, xor_two_pow_left hd⟩⟩
    · refine ⟨l, ?_, hd, Or.inr ⟨rfl, xor_two_pow_right hd⟩⟩
      rw [xor_two_pow_right hd, if_neg (by omega)]
  rw [hl]
  have hbu : ∀ b ∈ used, b ≠ ⟨pfn ^^^ 2 ^ order, order⟩ := by
    rintro b hb rfl
    exact h.used_not_free (Or.inr hb) hbuddy
  have hboth : ({⟨l, order⟩, ⟨l + 2 ^ order, order⟩} : Set Block)
      = {⟨pfn, order⟩, ⟨pfn ^^^ 2 ^ order, order⟩} := by
    rcases hpair with ⟨h1, h2⟩ | ⟨h1, h2⟩
    · rw [h2, ← h1]
    · rw [h2, ← h1, Set.pair_comm]
  have hmem : ∀ b ∈ ({⟨l, order⟩, ⟨l + 2 ^ order, order⟩} : Set Block),
      b ∈ t.freeBlocks ∪ insert ⟨pfn ^^^ 2 ^ order, order⟩ (insert ⟨pfn, order⟩ used) := by
    rw [hboth]
    rintro b (rfl | rfl) <;> simp
  have hmerge := ht.tiling.merge horder hdvd (hmem _ (by simp)) (hmem _ (by simp))
  have hnl : ⟨l, order + 1⟩ ∉ used := by
    intro hmem'
    have he := ht.tiling.disjoint ⟨l, order + 1⟩ (Or.inr (Or.inr (Or.inr hmem'))) ⟨l, order⟩
      (hmem _ (by simp)) l (Block.base_mem ⟨l, order + 1⟩) (Block.base_mem ⟨l, order⟩)
    simp at he
  refine ⟨ht.of_tiling ?_ ?_, hnl⟩
  · convert hmerge using 1
    rw [hboth]
    ext b
    have hfree : b ∈ t.freeBlocks → b ≠ ⟨pfn, order⟩ ∧ b ≠ ⟨pfn ^^^ 2 ^ order, order⟩ := by
      refine fun hb => ⟨?_, ?_⟩ <;> rintro rfl
      · exact ht.used_not_free (by simp) hb
      · exact ht.used_not_free (by simp) hb
    have hused : b ∈ used → b ≠ ⟨pfn, order⟩ ∧ b ≠ ⟨pfn ^^^ 2 ^ order, order⟩ :=
      fun hb => ⟨fun he => hnew (he ▸ hb), hbu b hb⟩
    simp only [Set.mem_union, Set.mem_insert_iff, Set.mem_sdiff, Set.mem_singleton_iff]
    grind -ring -linarith
  · rintro b (rfl | hb)
    · rcases hpair with ⟨h1, h2⟩ | ⟨h1, h2⟩
      · exact h1 ▸ ht.used_busy ⟨pfn, order⟩ (by simp)
      · exact h2 ▸ ht.used_busy ⟨pfn ^^^ 2 ^ order, order⟩ (by simp)
    · exact ht.used_busy b (by simp [hb])

/-- The coalescing loop ends with a block in hand whose buddy is not free. -/
theorem freeBuddyLoop_core {fuel : ℕ} : ∀ {s : Pmm} {lim pfn order : ℕ} {used : Set Block},
    s.Core lim (insert ⟨pfn, order⟩ used) → ⟨pfn, order⟩ ∉ used →
    order + fuel = pmmMaxOrder →
    ∃ t pfn' order', freeBuddyLoop fuel s pfn order = .ok (t, pfn', order') ∧
      t.Core lim (insert ⟨pfn', order'⟩ used) ∧ ⟨pfn', order'⟩ ∉ used ∧
      (order' < pmmMaxOrder → ¬ t.FreeHead (pfn' ^^^ 2 ^ order') order') ∧
      t.freeSum + 2 ^ order' = s.freeSum + 2 ^ order ∧ Frame s t used := by
  induction fuel with
  | zero =>
    intro s lim pfn order used h hnew hfuel
    exact ⟨s, pfn, order, rfl, h, hnew, fun hlt => absurd hlt (by omega), rfl, Frame.refl s used⟩
  | succ fuel ih =>
    intro s lim pfn order used h hnew hfuel
    simp only [freeBuddyLoop, one_shiftLeft_eq]
    by_cases hout : pfn ^^^ 2 ^ order ≥ s.numPages
    · rw [if_pos hout]
      exact ⟨s, pfn, order, rfl, h, hnew, fun _ hf => absurd hf.1 (by omega), rfl,
        Frame.refl s used⟩
    rw [if_neg hout]
    by_cases hstop : (!(s.pageArray (pfn ^^^ 2 ^ order)).isFree
        || (s.pageArray (pfn ^^^ 2 ^ order)).order != order) = true
    · rw [if_pos hstop]
      refine ⟨s, pfn, order, rfl, h, hnew, fun _ hf => ?_, rfl, Frame.refl s used⟩
      rw [hf.2.1, hf.2.2] at hstop
      simp at hstop
    rw [if_neg hstop]
    have hfree : s.FreeHead (pfn ^^^ 2 ^ order) order := by
      simp only [Bool.or_eq_true, Bool.not_eq_true', bne_iff_ne, ne_eq, not_or, Bool.not_eq_false,
        not_not] at hstop
      exact ⟨Nat.lt_of_not_ge hout, hstop.1, hstop.2⟩
    obtain ⟨t, ht, hbut, -, hlists, hiff, hsum⟩ := take h hfree
      (fun b => { b with isFree := false, order := 0 }) (fun p => ⟨rfl, rfl, rfl⟩)
    have htake := h.of_take hfree hbut hlists hiff (by rw [modifyPage_self])
    obtain ⟨hcore, hnew'⟩ := h.coalesce hnew (by omega) hfree htake
    obtain ⟨u, pfn', order', hu, hcu, hnu, hbu, hsu, hfr⟩ := ih hcore hnew' (by omega)
    refine ⟨u, pfn', order', ?_, hcu, hnu, hbu, ?_, ?_⟩
    · rw [ht]
      exact hu
    · rw [pow_succ] at hsu
      omega
    · refine (hbut.frame fun b hb he => ?_).trans hfr
      have he' := h.tiling.eq_of_base (b := b) (c := ⟨pfn ^^^ 2 ^ order, order⟩)
        (Or.inr (Or.inr hb)) (Or.inl hfree) he
      exact h.used_not_free (Or.inr hb) (he' ▸ hfree)

/-- Releasing a block in hand: it does not panic, and the block joins the free blocks. -/
theorem pmmFreeBuddyInternal_core {s : Pmm} {lim pfn order : ℕ} {used : Set Block}
    (h : s.Core lim (insert ⟨pfn, order⟩ used)) (hnew : ⟨pfn, order⟩ ∉ used) :
    ∃ t, s.pmmFreeBuddyInternal pfn order = .ok t ∧ t.Core lim used ∧
      t.freeSum = s.freeSum + 2 ^ order ∧ Frame s t used := by
  have hk : order ≤ pmmMaxOrder := h.tiling.order_le ⟨pfn, order⟩ (by simp)
  have hloop := @freeBuddyLoop_core (pmmMaxOrder - order)
  obtain ⟨t, pfn', order', ht, hcore, hnew', hbuddy, hsum, hfr⟩ := hloop h hnew (by omega)
  have hmem : (⟨pfn', order'⟩ : Block) ∈ t.freeBlocks ∪ insert ⟨pfn', order'⟩ used := by simp
  have hlt : pfn' < t.numPages :=
    Nat.lt_of_lt_of_le (hcore.tiling.base_lt hmem) hcore.lim_le
  obtain ⟨hbut, hlists, hiff, hsum'⟩ := give hcore.lists hcore.pages_lt hlt
    (hcore.tiling.order_le _ hmem) (hcore.used_busy ⟨pfn', order'⟩ (by simp))
    (fun p => { p with isFree := true, order := order' }) (fun p => ⟨rfl, rfl, rfl, rfl⟩)
  refine ⟨t.markFree pfn' order', ?_, hcore.of_give hnew' hbut hlists hiff hbuddy, ?_, ?_⟩
  · simp only [pmmFreeBuddyInternal, ht]
    rfl
  · rw [markFree, hsum']
    exact hsum
  · refine hfr.trans (hbut.frame fun b hb he => ?_)
    exact hnew' (hcore.tiling.eq_of_base (b := b) (c := ⟨pfn', order'⟩)
      (Or.inr (Or.inr hb)) hmem he ▸ hb)

/-! ## Distributing the memory -/

/-- A page inside an unreserved run is unreserved. -/
theorem not_reserved_of_run {s : Pmm} {a b q : ℕ} (h : s.rangeOverlapsReservedPfns a b = false)
    (ha : a ≤ q) (hb : q < b) : ¬ s.Reserved q := by
  intro hq
  rw [Reserved, pfnIsReserved, rangeOverlapsReservedPfns, List.any_eq_true] at hq
  obtain ⟨r, hr, hmeet⟩ := hq
  rw [rangeOverlapsReservedPfns, List.any_eq_false] at h
  apply h r hr
  -- only the comparisons with the two ends of the run differ
  unfold rangeMeetsPfns at hmeet ⊢
  by_cases h0 : r.startPhys / pageSize ≥ s.numPages
  · simp [h0] at hmeet
  · simp only [h0, if_false, Bool.and_eq_true, decide_eq_true_eq] at hmeet ⊢
    omega

/-- The block `pmm_init` picks is aligned, fits, and holds no reserved page. -/
theorem largestOrder_spec (s : Pmm) (pfn fuel : ℕ) (hpfn : pfn < s.numPages)
    (hr : s.pfnIsReserved pfn = false) :
    let k := s.largestOrder pfn fuel
    k ≤ fuel ∧ 2 ^ k ∣ pfn ∧ pfn + 2 ^ k ≤ s.numPages ∧ ∀ q ∈ Block.mk pfn k, ¬ s.Reserved q := by
  induction fuel with
  | zero =>
    refine ⟨le_rfl, by simp [largestOrder], by simpa [largestOrder] using hpfn, ?_⟩
    intro q hq
    exact not_reserved_of_run hr hq.1 (by simpa [largestOrder] using hq.2)
  | succ k ih =>
    simp only [largestOrder, one_shiftLeft_eq]
    split
    · rename_i hfit
      simp only [Nat.and_two_pow_sub_one_eq_mod, Bool.and_eq_true, decide_eq_true_eq,
        Bool.not_eq_true'] at hfit
      obtain ⟨⟨halign, hle⟩, hrun⟩ := hfit
      exact ⟨le_rfl, Nat.dvd_of_mod_eq_zero halign, hle,
        fun q hq => not_reserved_of_run hrun hq.1 hq.2⟩
    · obtain ⟨h1, h2⟩ := ih
      exact ⟨h1.trans (Nat.le_succ k), h2⟩

/-- A page no block of the tiling reaches yet is not marked free. -/
theorem Core.busy_of_ge {s : Pmm} {lim q : ℕ} {used : Set Block} (h : s.Core lim used)
    (hq : lim ≤ q) (hn : q < s.numPages) : (s.pageArray q).isFree = false := by
  by_contra hfree
  have hx : s.FreeHead q (s.pageArray q).order := ⟨hn, by simpa using hfree, rfl⟩
  have := h.tiling.base_lt (b := ⟨q, (s.pageArray q).order⟩) (Or.inl hx)
  simp only at this
  omega

/-- The outer loop of `pmm_init`, started at `pfn` with everything below distributed. -/
theorem distribute_core {fuel : ℕ} : ∀ {s : Pmm} {pfn : ℕ}, s.Core pfn ∅ →
    s.numPages ≤ pfn + fuel → s.freePagesCount = s.freeSum →
    ∃ t, distribute fuel s pfn = .ok t ∧ t.Core t.numPages ∅ ∧ t.freePagesCount = t.freeSum ∧
      t.numPages = s.numPages ∧ t.reservedRanges = s.reservedRanges := by
  induction fuel with
  | zero =>
    intro s pfn h hfuel hcount
    have he : pfn = s.numPages := le_antisymm h.lim_le (by omega)
    exact ⟨s, rfl, he ▸ h, hcount, rfl, rfl⟩
  | succ fuel ih =>
    intro s pfn h hfuel hcount
    by_cases hlt : pfn < s.numPages
    · rw [distribute, if_pos hlt]
      by_cases hr : s.pfnIsReserved pfn = true
      · rw [if_pos hr]
        have hskip : s.Core (pfn + 1) ∅ := { h with lim_le := hlt, tiling := h.tiling.skip hr }
        exact ih hskip (by omega) hcount
      rw [if_neg hr]
      obtain ⟨hk, halign, hfit, hfree⟩ := largestOrder_spec s pfn pmmMaxOrder hlt (by simpa using hr)
      set k := s.largestOrder pfn pmmMaxOrder with hkdef
      simp only [one_shiftLeft_eq]
      have hpush : s.Core (pfn + 2 ^ k) (insert ⟨pfn, k⟩ ∅) := by
        refine { h with lim_le := hfit, tiling := ?_, used_busy := ?_ }
        · rw [Set.union_insert]
          exact h.tiling.push hk halign hfree
        · rintro b (rfl | hb)
          · exact h.busy_of_ge le_rfl hlt
          · exact absurd hb (Set.notMem_empty b)
      have hcounted : Core { s with freePagesCount := s.freePagesCount + 2 ^ k } (pfn + 2 ^ k)
          (insert ⟨pfn, k⟩ ∅) :=
        hpush.of_sameShape rfl rfl rfl fun x => ⟨rfl, rfl, rfl, fun _ => rfl⟩
      obtain ⟨t, ht, hcore, hsum, hfr⟩ := pmmFreeBuddyInternal_core hcounted (Set.notMem_empty _)
      have hpos := Nat.two_pow_pos k
      have hn : t.numPages = s.numPages := hfr.numPages
      have hc : t.freePagesCount = t.freeSum := by
        rw [hfr.freePagesCount, hsum]
        exact congrArg (· + 2 ^ k) hcount
      obtain ⟨u, hu, hcu, hsu, hnu, hru⟩ := ih hcore (by omega) hc
      refine ⟨u, ?_, hcu, hsu, hnu.trans hn, hru.trans hfr.reservedRanges⟩
      rw [ht]
      exact hu
    · rw [distribute, if_neg hlt]
      have he : pfn = s.numPages := le_antisymm h.lim_le (by omega)
      exact ⟨s, rfl, he ▸ h, hcount, rfl, rfl⟩

/-- Before anything is distributed all lists are empty and no page is free. -/
theorem core_blank {s : Pmm} (hn : s.numPages < pmmPfnNull)
    (hl : s.freeLists = fun _ => pmmPfnNull) (hp : s.pageArray = fun _ => blankPage) :
    s.Core 0 ∅ ∧ s.freeSum = 0 := by
  have hnot : ∀ q k, ¬ s.FreeHead q k := fun q k =>
    not_freeHead_of_busy (by rw [hp]; rfl) k
  have hempty : s.freeBlocks ∪ ∅ = ∅ := by
    rw [Set.union_empty]
    exact Set.eq_empty_of_forall_notMem fun b hb => hnot _ _ hb
  refine ⟨⟨hn, Nat.zero_le _, fun k _ => ⟨[], ?_, fun q => by simp [hnot]⟩, ?_, by simp,
    fun q k _ hq => absurd hq (hnot q k)⟩, ?_⟩
  · rw [hl]
    exact dlist_nil _ _
  · rw [hempty]
    exact tiling_empty
  · refine Finset.sum_eq_zero fun q _ => ?_
    rw [freeSize, hp]
    rfl

/-! ## Allocating a block -/

theorem findOrder_spec (s : Pmm) {fuel : ℕ} : ∀ {order : ℕ}, order + fuel = pmmMaxOrder + 1 →
    order ≤ s.findOrder fuel order ∧ (s.findOrder fuel order ≤ pmmMaxOrder →
      s.freeLists (s.findOrder fuel order) ≠ pmmPfnNull) ∧
    ∀ j, order ≤ j → j < s.findOrder fuel order → s.freeLists j = pmmPfnNull := by
  induction fuel with
  | zero =>
    intro order h
    exact ⟨le_rfl, fun hle => by simp only [findOrder] at hle; omega,
      fun j h1 h2 => absurd h2 (by simp only [findOrder]; omega)⟩
  | succ fuel ih =>
    intro order h
    rw [findOrder]
    split
    · rename_i hskip
      simp only [Bool.and_eq_true, decide_eq_true_eq, beq_iff_eq] at hskip
      obtain ⟨h1, h2, h3⟩ := @ih (order + 1) (by omega)
      refine ⟨by omega, h2, fun j hj hjlt => ?_⟩
      rcases Nat.eq_or_lt_of_le hj with rfl | hj
      · exact hskip.2
      · exact h3 j hj hjlt
    · rename_i hstop
      refine ⟨le_rfl, fun hle hnull => hstop ?_, fun j h1 h2 => by omega⟩
      simp [hle, hnull]

/-- The split loop hands the right halves back and keeps a block of order `target`. -/
theorem splitLoop_core {target order : ℕ} : ∀ {s : Pmm} {lim pfn : ℕ} {used : Set Block},
    s.Core lim (insert ⟨pfn, order⟩ used) → ⟨pfn, order⟩ ∉ used → target ≤ order →
    s.freePagesCount = s.freeSum →
    let t := splitLoop target order s pfn
    t.Core lim (insert ⟨pfn, target⟩ used) ∧ ⟨pfn, target⟩ ∉ used ∧
      t.freePagesCount = t.freeSum ∧ t.numPages = s.numPages ∧
      t.reservedRanges = s.reservedRanges ∧ ∀ b ∈ used, t.metaOf b.base = s.metaOf b.base := by
  induction order with
  | zero =>
    intro s lim pfn used h hnew hle hcount
    obtain rfl : target = 0 := by omega
    exact ⟨h, hnew, hcount, rfl, rfl, fun _ _ => rfl⟩
  | succ order ih =>
    intro s lim pfn used h hnew hle hcount
    simp only [splitLoop, one_shiftLeft_eq]
    by_cases hgt : order + 1 > target
    · rw [if_pos hgt]
      have hmem : (⟨pfn, order + 1⟩ : Block) ∈ s.freeBlocks ∪ insert ⟨pfn, order + 1⟩ used := by simp
      have hpos := Nat.two_pow_pos order
      have hright : pfn + 2 ^ order ∈ Block.mk pfn (order + 1) := by
        rw [Block.mem_split]
        exact Or.inr (Block.base_mem ⟨pfn + 2 ^ order, order⟩)
      have hleft : pfn ∈ Block.mk pfn (order + 1) := Block.base_mem ⟨pfn, order + 1⟩
      -- no other block shares a page with the one in hand
      have hother : ∀ b ∈ used, ∀ q ∈ Block.mk pfn (order + 1), q ∉ b := by
        intro b hb q hq hqb
        exact hnew (h.tiling.disjoint b (Or.inr (Or.inr hb)) _ hmem q hqb hq ▸ hb)
      have hnl : (⟨pfn, order⟩ : Block) ∉ used := fun hb =>
        hother _ hb pfn hleft (Block.base_mem ⟨pfn, order⟩)
      have hnr : (⟨pfn + 2 ^ order, order⟩ : Block) ∉ used := fun hb =>
        hother _ hb _ hright (Block.base_mem ⟨pfn + 2 ^ order, order⟩)
      -- the block in hand becomes two
      have hcut : s.Core lim (insert ⟨pfn + 2 ^ order, order⟩ (insert ⟨pfn, order⟩ used)) := by
        refine h.of_tiling ?_ ?_
        · convert h.tiling.split hmem using 1
          ext b
          have hf : b ∈ s.freeBlocks → b ≠ ⟨pfn, order + 1⟩ := by
            rintro hb rfl
            exact h.used_not_free (by simp) hb
          have hu : b ∈ used → b ≠ ⟨pfn, order + 1⟩ := fun hb he => hnew (he ▸ hb)
          simp only [Set.mem_union, Set.mem_insert_iff, Set.mem_sdiff, Set.mem_singleton_iff]
          grind -ring -linarith
        · rintro b (rfl | rfl | hb)
          · exact h.busy_of_mem_used (by simp) hright
          · exact h.busy_of_mem_used (by simp) hleft
          · exact h.used_busy b (by simp [hb])
      have hlt : pfn + 2 ^ order < s.numPages :=
        Nat.lt_of_lt_of_le hright.2 ((h.tiling.bound _ hmem).trans h.lim_le)
      have hko : order + 1 ≤ pmmMaxOrder := h.tiling.order_le _ hmem
      obtain ⟨hbut, hlists, hiff, hsum⟩ := give h.lists h.pages_lt hlt (by omega)
        (h.busy_of_mem_used (by simp) hright)
        (fun b => { b with isFree := true, order := order, refcount := 0 })
        (fun p => ⟨rfl, rfl, rfl, rfl⟩)
      have hgive := hcut.of_give (by simp [hnr]) hbut hlists hiff (fun _ => by
        rw [xor_two_pow_right (h.tiling.aligned _ hmem)]
        exact not_freeHead_of_busy (h.busy_of_mem_used (by simp) hleft) order)
      set t := (s.modifyPage (pfn + 2 ^ order) fun b =>
        { b with isFree := true, order := order, refcount := 0 }).pmmListAdd order (pfn + 2 ^ order)
        with ht
      have hcounted : Core { t with freePagesCount := t.freePagesCount + 2 ^ order } lim
          (insert ⟨pfn, order⟩ used) :=
        hgive.of_sameShape rfl rfl rfl fun x => ⟨rfl, rfl, rfl, fun _ => rfl⟩
      obtain ⟨h1, h2, h3, h4, h5, h6⟩ := ih hcounted hnl (by omega) (by
        show t.freePagesCount + 2 ^ order = t.freeSum
        rw [hbut.freePagesCount, hsum, hcount])
      refine ⟨h1, h2, h3, h4.trans hbut.numPages, h5.trans hbut.reservedRanges, fun b hb => ?_⟩
      refine (h6 b hb).trans (hbut.page _ fun he => ?_)
      exact hother b hb _ hright (he ▸ b.base_mem)
    · rw [if_neg hgt]
      obtain rfl : target = order + 1 := by omega
      exact ⟨h, hnew, hcount, rfl, rfl, fun _ _ => rfl⟩

end Perspicua.Mm.Pmm
