import Perspicua.Lib.Run
import Perspicua.Mm.PmmTheorems

/-!
# The buddy allocator keeps its invariant

The allocator does not record who owns a block. A run is therefore observed together with
`refs`, the number of references to each block that were handed out and not given back:
one from the allocation and one from each hold. `PmmInv` ties the allocator's state to it.
-/

namespace Perspicua.Mm.Pmm

open Perspicua.Lib

/-! ## Reserved ranges -/

/-- A recorded range contains the bytes `[a, e)`. -/
def Recorded (rs : List PmmReservedRange) (a e : ℕ) : Prop :=
  ∃ r ∈ rs, r.startPhys ≤ a ∧ e ≤ r.endPhys

/-- Overwriting entry `i` with the last one and dropping that loses entry `i` only. -/
theorem mem_swap_remove {rs : List PmmReservedRange} {i : ℕ} (hi : i < rs.length)
    {r : PmmReservedRange} (hr : r ∈ rs) (d : PmmReservedRange) :
    r = rs.getD i d ∨ r ∈ (rs.set i (rs.getD (rs.length - 1) d)).dropLast := by
  obtain ⟨j, hj, rfl⟩ := List.getElem_of_mem hr
  have hlen : (rs.set i (rs.getD (rs.length - 1) d)).dropLast.length = rs.length - 1 := by simp
  by_cases hji : j = i
  · subst hji
    exact Or.inl (by rw [List.getD_eq_getElem _ _ hj])
  right
  rw [List.mem_iff_getElem]
  by_cases hlast : j = rs.length - 1
  · refine ⟨i, by omega, ?_⟩
    rw [List.getElem_dropLast, List.getElem_set_self, List.getD_eq_getElem _ _ (by omega)]
    exact (getElem_congr_idx hlast).symm
  · refine ⟨j, by omega, ?_⟩
    rw [List.getElem_dropLast, List.getElem_set_ne (Ne.symm hji)]

/-- Coalescing never uncovers a byte. -/
theorem coalesceReserved_covers {fuel : ℕ} : ∀ {st e : ℕ} {rs : List PmmReservedRange},
    let out := coalesceReserved fuel st e rs
    out.1 ≤ st ∧ e ≤ out.2.1 ∧
      ∀ r ∈ rs, r ∈ out.2.2 ∨ out.1 ≤ r.startPhys ∧ r.endPhys ≤ out.2.1 := by
  induction fuel with
  | zero =>
    intro st e rs
    exact ⟨le_rfl, le_rfl, fun r hr => Or.inl hr⟩
  | succ fuel ih =>
    intro st e rs
    simp only [coalesceReserved]
    split
    · exact ⟨le_rfl, le_rfl, fun r hr => Or.inl hr⟩
    · rename_i i hi
      have hlt : i < rs.length := (List.findIdx?_eq_some_iff_getElem.mp hi).1
      set q := rs.getD i ⟨0, 0⟩ with hq
      obtain ⟨h1, h2, h3⟩ := @ih (if q.startPhys < st then q.startPhys else st)
        (if q.endPhys > e then q.endPhys else e)
        (rs.set i (rs.getD (rs.length - 1) ⟨0, 0⟩)).dropLast
      refine ⟨h1.trans ?_, le_trans ?_ h2, fun r hr => ?_⟩
      · split <;> omega
      · split <;> omega
      · rcases mem_swap_remove hlt hr ⟨0, 0⟩ with he | hmem
        · rw [← hq] at he
          subst he
          refine Or.inr ⟨h1.trans ?_, le_trans ?_ h2⟩
          · split <;> omega
          · split <;> omega
        · exact h3 r hmem

/-- An accepted reservation is on record, and so is everything recorded before. -/
theorem pmmReserveRange_recorded {s t : Pmm} {physStart size : ℕ}
    (h : s.pmmReserveRange physStart size = .ok t) :
    (0 < size → physStart + size < 2 ^ 64 →
      Recorded t.reservedRanges physStart (physStart + size)) ∧
    ∀ a e, Recorded s.reservedRanges a e → Recorded t.reservedRanges a e := by
  unfold pmmReserveRange at h
  split at h
  · rename_i h0
    cases h
    exact ⟨fun hpos => absurd hpos (by omega), fun _ _ => id⟩
  split at h
  · cases h
  split at h
  · cases h
  cases h
  obtain ⟨h1, h2, h3⟩ := @coalesceReserved_covers s.reservedRanges.length physStart
    ((physStart + size) % 2 ^ 64) s.reservedRanges
  set out := coalesceReserved s.reservedRanges.length physStart ((physStart + size) % 2 ^ 64)
    s.reservedRanges with hout
  have hlast : PmmReservedRange.mk out.1 out.2.1 ∈ out.2.2 ++ [⟨out.1, out.2.1⟩] := by simp
  refine ⟨fun _ hsmall => ⟨_, hlast, h1, ?_⟩, fun a e => ?_⟩
  · rwa [Nat.mod_eq_of_lt hsmall] at h2
  · rintro ⟨r, hr, ha, he⟩
    rcases h3 r hr with hmem | ⟨hs, hend⟩
    · exact ⟨r, List.mem_append_left _ hmem, ha, he⟩
    · exact ⟨_, hlast, hs.trans ha, he.trans hend⟩

/-- A page that meets a recorded range is reserved. -/
theorem reserved_of_recorded {s : Pmm} {a e q : ℕ} (h : Recorded s.reservedRanges a e)
    (hn : s.numPages < pmmPfnNull) (hq : q < s.numPages) (ha : a < (q + 1) * pageSize) (he : q * pageSize < e) :
    s.Reserved q := by
  obtain ⟨r, hr, h1, h2⟩ := h
  rw [Reserved, pfnIsReserved, rangeOverlapsReservedPfns, List.any_eq_true]
  refine ⟨r, hr, ?_⟩
  have hstart : r.startPhys / pageSize ≤ q :=
    Nat.lt_succ_iff.mp ((Nat.div_lt_iff_lt_mul (by decide)).mpr (Nat.lt_of_le_of_lt h1 ha))
  unfold rangeMeetsPfns
  rw [if_neg (by omega)]
  unfold pmmPfnNull at hn
  unfold pageSize at *
  simp only [Bool.and_eq_true, decide_eq_true_eq]
  split <;> split <;> omega

theorem pmmReserveRange_frame {s t : Pmm} {physStart size : ℕ}
    (h : s.pmmReserveRange physStart size = .ok t) :
    t.numPages = s.numPages ∧ t.freePagesCount = s.freePagesCount ∧ t.ready = s.ready := by
  unfold pmmReserveRange at h
  split at h
  · cases h
    exact ⟨rfl, rfl, rfl⟩
  split at h
  · cases h
  split at h
  · cases h
  · cases h
    exact ⟨rfl, rfl, rfl⟩

/-! ## The invariant -/

/-- The blocks somebody still refers to. -/
def live (refs : Block → ℕ) : Set Block := {b | 0 < refs b}

/-- The state of the allocator between two operations. -/
structure PmmInv (s : Pmm) (refs : Block → ℕ) : Prop where
  core : s.Core s.numPages (live refs)
  count : s.freePagesCount = s.freeSum
  live_meta : ∀ b ∈ live refs, (s.pageArray b.base).order = b.order ∧
    (s.pageArray b.base).refcount = refs b

/-- `pmm_init` on a machine where nothing was freed yet establishes the invariant. -/
theorem pmmInit_inv {s t : Pmm} {memSize kernelEnd : ℕ} (hcount : s.freePagesCount = 0)
    (h : s.pmmInit memSize kernelEnd = .ok t) : (t.PmmInv fun _ => 0) ∧
      (∀ a e, Recorded s.reservedRanges a e → Recorded t.reservedRanges a e) ∧
      t.numPages = memSize / pageSize := by
  unfold pmmInit at h
  dsimp only at h
  split at h
  · cases h
  split at h
  · cases h
  split at h
  · cases h
  rename_i hpages
  split at h
  · cases h
  cases hr : pmmReserveRange { s with numPages := memSize / pageSize } 0
      (v2p (((kernelEnd + 15) % 2 ^ 64 / 16 * 16 + memSize / pageSize * 16 + pageSize - 1)
        % 2 ^ 64 / pageSize * pageSize)) with
  | error e => rw [hr] at h; cases h
  | ok u =>
    obtain ⟨hn, hc, -⟩ := pmmReserveRange_frame hr
    have hblank := core_blank
      (s := { u with freeLists := fun _ => pmmPfnNull, pageArray := fun _ => blankPage })
      (by rw [hn]; exact Nat.lt_of_not_ge hpages) rfl rfl
    have hloop := @distribute_core (memSize / pageSize)
    obtain ⟨w, hw, hcore, hsum, hpagesw, hranges⟩ := hloop hblank.1 (by simp [hn])
      (by rw [hblank.2]; exact hc.trans hcount)
    rw [hr] at h
    simp only [bind, Except.bind] at h
    rw [hw] at h
    cases h
    have hlive : live (fun _ => 0) = ∅ := Set.eq_empty_of_forall_notMem fun b => lt_irrefl 0
    refine ⟨⟨?_, hsum, fun b hb => absurd hb (lt_irrefl 0)⟩, fun a e hae => ?_, hpagesw.trans hn⟩
    · rw [hlive]
      exact hcore.of_sameShape rfl rfl rfl fun x => ⟨rfl, rfl, rfl, fun _ => rfl⟩
    · rw [hranges]
      exact (pmmReserveRange_recorded hr).2 a e hae

/-- Neither the memory nor what is reserved of it changed. -/
def SameRanges (s t : Pmm) : Prop :=
  t.numPages = s.numPages ∧ t.reservedRanges = s.reservedRanges

/-! ## The operations -/

section Operations

variable {s : Pmm} {refs : Block → ℕ}

theorem mem_live_update {refs : Block → ℕ} {b : Block} {n : ℕ} (hn : 0 < n) :
    live (Function.update refs b n) = insert b (live refs) := by
  ext c
  by_cases hc : c = b
  · subst hc
    simpa [live] using hn
  · simp [live, hc]

/-- Two referenced blocks with one head page are one block. -/
theorem PmmInv.eq_of_base (h : s.PmmInv refs) {b c : Block} (hb : b ∈ live refs)
    (hc : c ∈ live refs) (he : b.base = c.base) : b = c :=
  h.core.tiling.eq_of_base (Or.inr hb) (Or.inr hc) he

theorem PmmInv.base_lt (h : s.PmmInv refs) {b : Block} (hb : b ∈ live refs) :
    b.base < s.numPages := h.core.tiling.base_lt (b := b) (Or.inr hb)

/-- Handing out a block that was carved off: only its head's record and flags of its own
pages still change. -/
theorem PmmInv.hand_out {pfn order : ℕ} (hcore : s.Core s.numPages (insert ⟨pfn, order⟩ (live refs)))
    (hnew : ⟨pfn, order⟩ ∉ live refs) (hcount : s.freePagesCount = s.freeSum)
    (hmeta : ∀ b ∈ live refs, (s.pageArray b.base).order = b.order ∧
      (s.pageArray b.base).refcount = refs b) :
    PmmInv ((s.modifyPage pfn fun p => { p with order := order, refcount := 1 }).clearFlags
      pfn order) (Function.update refs ⟨pfn, order⟩ 1) := by
  set u := s.modifyPage pfn fun p => { p with order := order, refcount := 1 } with hu
  have hbusy : (s.pageArray pfn).isFree = false := hcore.used_busy ⟨pfn, order⟩ (by simp)
  have hne : ∀ x, x ≠ pfn → u.pageArray x = s.pageArray x := fun x hx => by
    rw [hu]
    exact Function.update_of_ne hx _ _
  have hself : u.pageArray pfn = { s.pageArray pfn with order := order, refcount := 1 } :=
    modifyPage_self _ _ _
  -- clearing flags changes flags only
  have hflags : ∀ x, ((u.clearFlags pfn order).pageArray x).next = (u.pageArray x).next ∧
      ((u.clearFlags pfn order).pageArray x).prev = (u.pageArray x).prev ∧
      ((u.clearFlags pfn order).pageArray x).isFree = (u.pageArray x).isFree ∧
      ((u.clearFlags pfn order).pageArray x).order = (u.pageArray x).order ∧
      ((u.clearFlags pfn order).pageArray x).refcount = (u.pageArray x).refcount := by
    intro x
    simp only [clearFlags]
    split <;> exact ⟨rfl, rfl, rfl, rfl, rfl⟩
  have hshape : ∀ x, ((u.clearFlags pfn order).pageArray x).isFree = (s.pageArray x).isFree ∧
      ((s.pageArray x).isFree = true →
        ((u.clearFlags pfn order).pageArray x).order = (s.pageArray x).order) := by
    intro x
    obtain ⟨-, -, hf, ho, -⟩ := hflags x
    by_cases hx : x = pfn
    · subst hx
      rw [hf, hself]
      exact ⟨rfl, fun hfree => absurd hfree (by rw [hbusy]; decide)⟩
    · rw [hf, ho, hne x hx]
      exact ⟨rfl, fun _ => rfl⟩
  refine ⟨?_, ?_, ?_⟩
  · rw [mem_live_update Nat.one_pos]
    refine hcore.of_sameShape rfl rfl rfl fun x => ?_
    obtain ⟨hn, hp, -, -, -⟩ := hflags x
    refine ⟨?_, ?_, hshape x⟩
    · by_cases hx : x = pfn
      · subst hx; rw [hn, hself]
      · rw [hn, hne x hx]
    · by_cases hx : x = pfn
      · subst hx; rw [hp, hself]
      · rw [hp, hne x hx]
  · show s.freePagesCount = _
    rw [hcount]
    refine Finset.sum_congr rfl fun x _ => ?_
    rw [freeSize, freeSize, (hshape x).1]
    split
    · rename_i hfree
      rw [(hshape x).2 hfree]
    · rfl
  · rw [mem_live_update Nat.one_pos]
    rintro b (rfl | hb)
    · obtain ⟨-, -, -, ho, hr⟩ := hflags pfn
      rw [Function.update_self, ho, hr, hself]
      exact ⟨rfl, rfl⟩
    · have hbn : b ≠ ⟨pfn, order⟩ := fun he => hnew (he ▸ hb)
      have hbase : b.base ≠ pfn := fun he => hbn
        (hcore.tiling.eq_of_base (b := b) (c := ⟨pfn, order⟩) (Or.inr (Or.inr hb)) (by simp) he)
      obtain ⟨-, -, -, ho, hr⟩ := hflags b.base
      rw [Function.update_of_ne hbn, ho, hr, hne _ hbase]
      exact hmeta b hb

/-- An allocation finds no block and changes nothing, or hands out a block that shares no
page with a referenced one. It never panics. -/
theorem pmmAllocPagesNozero_inv (h : s.PmmInv refs) (count : ℕ) :
    s.pmmAllocPagesNozero count = .ok (none, s) ∨
    ∃ pfn t, s.pmmAllocPagesNozero count = .ok (some (p2v (pfn * pageSize)), t) ∧
      pfn < s.numPages ∧ ⟨pfn, getOrder count⟩ ∉ live refs ∧
      t.PmmInv (Function.update refs ⟨pfn, getOrder count⟩ 1) ∧ SameRanges s t := by
  unfold pmmAllocPagesNozero
  by_cases h0 : count = 0
  · rw [if_pos h0]
    exact Or.inl rfl
  rw [if_neg h0]
  dsimp only
  by_cases hbig : getOrder count > pmmMaxOrder
  · rw [if_pos hbig]
    exact Or.inl rfl
  rw [if_neg hbig]
  obtain ⟨hge, hhead, -⟩ := @findOrder_spec s (pmmMaxOrder + 1 - getOrder count) (getOrder count)
    (by omega)
  set k := s.findOrder (pmmMaxOrder + 1 - getOrder count) (getOrder count) with hk
  by_cases hnone : k > pmmMaxOrder
  · rw [if_pos hnone]
    exact Or.inl rfl
  rw [if_neg hnone]
  right
  have hle : k ≤ pmmMaxOrder := Nat.le_of_not_gt hnone
  have hfree : s.FreeHead (s.freeLists k) k := h.core.lists.head_mem hle (hhead hle)
  set pfn := s.freeLists k with hpfn
  obtain ⟨t, ht, hbut, hsame, hlists, hiff, hsum⟩ := take h.core hfree
    (fun p => { p with isFree := false }) (fun p => ⟨rfl, rfl, rfl⟩)
  have htake := h.core.of_take hfree hbut hlists hiff (by rw [modifyPage_self])
  have hnew : (⟨pfn, k⟩ : Block) ∉ live refs := fun hb => h.core.used_not_free hb hfree
  have hbase : ∀ b ∈ live refs, b.base ≠ pfn := fun b hb he => hnew
    (h.core.tiling.eq_of_base (b := b) (c := ⟨pfn, k⟩) (Or.inr hb) (Or.inl hfree) he ▸ hb)
  set u := t.modifyPage pfn fun p => { p with isFree := false } with hu
  -- the block in hand leaves the count, then the split returns what is not needed
  have hcounted : Core { u with freePagesCount := u.freePagesCount - 2 ^ k } s.numPages
      (insert ⟨pfn, k⟩ (live refs)) :=
    htake.of_sameShape rfl rfl rfl fun x => ⟨rfl, rfl, rfl, fun _ => rfl⟩
  obtain ⟨hcore, hnot, hc, hn, hr, hm⟩ := splitLoop_core hcounted hnew hge (by
    show u.freePagesCount - 2 ^ k = u.freeSum
    rw [hbut.freePagesCount, h.count]
    omega)
  refine ⟨pfn, _, ?_, hfree.1, hnot, PmmInv.hand_out ?_ hnot hc ?_, ?_, ?_⟩
  · rw [ht, one_shiftLeft_eq]
    rfl
  · rw [hn]
    exact hbut.numPages ▸ hcore
  · intro b hb
    have hmeta := (hm b hb).trans (hbut.page _ (hbase b hb))
    have ho := congrArg (·.2.1) hmeta
    have hrc := congrArg (·.1) hmeta
    exact ⟨ho.trans (h.live_meta b hb).1, hrc.trans (h.live_meta b hb).2⟩
  · exact hn.trans hbut.numPages
  · exact hr.trans hbut.reservedRanges

/-- Changing only the reference count of one page record. -/
theorem PmmInv.of_refcount (h : s.PmmInv refs) {pfn : ℕ} (f : ℕ → ℕ) {refs' : Block → ℕ}
    (hlive : live refs' = live refs)
    (hrefs : ∀ b ∈ live refs, refs' b = if b.base = pfn then f (refs b) else refs b) :
    PmmInv (s.modifyPage pfn fun p => { p with refcount := f p.refcount }) refs' := by
  set t := s.modifyPage pfn fun p => { p with refcount := f p.refcount } with ht
  have hpage : ∀ x, t.pageArray x = { s.pageArray x with
      refcount := if x = pfn then f (s.pageArray x).refcount else (s.pageArray x).refcount } := by
    intro x
    by_cases hx : x = pfn
    · subst hx
      rw [if_pos rfl]
      exact modifyPage_self _ _ _
    · rw [if_neg hx]
      exact Function.update_of_ne hx _ _
  refine ⟨?_, ?_, ?_⟩
  · rw [hlive]
    refine h.core.of_sameShape rfl rfl rfl fun x => ?_
    rw [hpage]
    exact ⟨rfl, rfl, rfl, fun _ => rfl⟩
  · show s.freePagesCount = _
    rw [h.count]
    refine Finset.sum_congr rfl fun x _ => ?_
    rw [freeSize, freeSize, hpage]
  · rw [hlive]
    intro b hb
    rw [hpage, hrefs b hb]
    refine ⟨(h.live_meta b hb).1, ?_⟩
    rw [← (h.live_meta b hb).2]

/-- Dropping one of several references to a block. -/
theorem PmmInv.drop (h : s.PmmInv refs) {b : Block} (hmany : 1 < refs b) :
    PmmInv (s.modifyPage b.base fun p => { p with refcount := p.refcount - 1 })
      (Function.update refs b (refs b - 1)) := by
  have hb : b ∈ live refs := Nat.lt_of_succ_lt hmany
  refine h.of_refcount (fun n => n - 1) ?_ fun c hc => ?_
  · rw [mem_live_update (by omega), Set.insert_eq_of_mem hb]
  · by_cases he : c = b
    · subst he
      rw [Function.update_self, if_pos rfl]
    · rw [Function.update_of_ne he, if_neg fun hbase => he (h.eq_of_base hc hb hbase)]

/-- Dropping the last reference returns the block to the free lists. -/
theorem PmmInv.release (h : s.PmmInv refs) {b : Block} (hone : refs b = 1) :
    let u := s.modifyPage b.base fun p => { p with refcount := p.refcount - 1 }
    ∃ t, pmmFreeBuddyInternal { u with freePagesCount := u.freePagesCount + 2 ^ b.order }
        b.base b.order = .ok t ∧ t.PmmInv (Function.update refs b 0) ∧
      SameRanges s t := by
  intro u
  have hb : b ∈ live refs := by rw [live, Set.mem_ofPred_eq, hone]; exact Nat.one_pos
  have hlive : live refs = insert b (live (Function.update refs b 0)) := by
    ext c
    by_cases hc : c = b
    · subst hc; simp [hb]
    · simp [live, hc]
  have hnot : b ∉ live (Function.update refs b 0) := by simp [live]
  have hpage : ∀ x, u.pageArray x = { s.pageArray x with
      refcount := if x = b.base then (s.pageArray x).refcount - 1
        else (s.pageArray x).refcount } := by
    intro x
    by_cases hx : x = b.base
    · subst hx
      rw [if_pos rfl]
      exact modifyPage_self _ _ _
    · rw [if_neg hx]
      exact Function.update_of_ne hx _ _
  have hcore : Core { u with freePagesCount := u.freePagesCount + 2 ^ b.order } s.numPages
      (insert b (live (Function.update refs b 0))) := by
    refine (hlive ▸ h.core).of_sameShape rfl rfl rfl fun x => ?_
    simp [hpage]
  obtain ⟨t, ht, hct, hsum, hfr⟩ := pmmFreeBuddyInternal_core hcore hnot
  have hus : u.freeSum = s.freeSum := by
    refine Finset.sum_congr rfl fun x _ => ?_
    rw [freeSize, freeSize, hpage]
  refine ⟨t, ht, ⟨?_, ?_, ?_⟩, hfr.numPages, hfr.reservedRanges⟩
  · have hn : t.numPages = s.numPages := hfr.numPages
    rw [hn]
    exact hct
  · rw [hfr.freePagesCount, hsum]
    show s.freePagesCount + 2 ^ b.order = u.freeSum + 2 ^ b.order
    rw [hus, h.count]
  · intro c hc
    have hcb : c ≠ b := fun he => hnot (he ▸ hc)
    have hcl : c ∈ live refs := hlive ▸ Set.mem_insert_of_mem b hc
    have hmeta := hfr.page c hc
    have ho := congrArg (·.2.1) hmeta
    have hrc := congrArg (·.1) hmeta
    have hbase : c.base ≠ b.base := fun he => hcb (h.eq_of_base hcl hb he)
    rw [Function.update_of_ne hcb]
    simp only [metaOf, hpage, if_neg hbase] at ho hrc
    exact ⟨ho.trans (h.live_meta c hcl).1, hrc.trans (h.live_meta c hcl).2⟩

/-- Where `pmm_free_pages` and `pmm_hold_page` look at a page record at all. -/
theorem pmmIsManaged_iff {ptr : ℕ} : s.pmmIsManaged ptr = true ↔ ptr ≠ 0 ∧
    ¬ (decide (v2p ptr / pageSize ≥ s.numPages) || s.pfnIsReserved (v2p ptr / pageSize)) = true := by
  unfold pmmIsManaged
  by_cases h0 : ptr = 0
  · simp [h0]
  · simp [h0]

/-- Freeing a referenced block head is accepted, and gives back one reference. -/
theorem pmmFreePages_inv (h : s.PmmInv refs) {b : Block} (hb : b ∈ live refs) {ptr : ℕ}
    (hkernel : kernelVma ≤ ptr) (hbase : v2p ptr / pageSize = b.base) :
    ∃ t, s.pmmFreePages ptr = .ok t ∧ t.PmmInv (Function.update refs b (refs b - 1)) ∧
      SameRanges s t := by
  have hpos : 0 < refs b := hb
  have hmeta := h.live_meta b hb
  have hlt : b.base < s.numPages := h.base_lt hb
  have hres : s.pfnIsReserved b.base = false := by
    have := h.core.tiling.unreserved b (Or.inr hb) b.base b.base_mem
    simpa [Reserved] using this
  have hbusy : (s.pageArray b.base).isFree = false := h.core.used_busy b hb
  have hord : b.order ≤ pmmMaxOrder := h.core.tiling.order_le b (Or.inr hb)
  have h0 : ptr ≠ 0 := by
    rintro rfl
    exact absurd hkernel (by decide)
  unfold pmmFreePages
  rw [if_neg h0, if_neg (by omega)]
  dsimp only
  rw [hbase, if_neg (by simp [hres, hlt]), if_neg (by simp [hbusy]), if_neg (by omega),
    modifyPage_self]
  dsimp only
  rw [hmeta.1, hmeta.2]
  by_cases hmany : refs b - 1 > 0
  · rw [if_pos hmany]
    exact ⟨_, rfl, h.drop (by omega), rfl, rfl⟩
  · rw [if_neg hmany, if_neg (by omega), one_shiftLeft_eq]
    have hone : refs b = 1 := by omega
    obtain ⟨t, ht, hinv⟩ := h.release hone
    rw [hone]
    exact ⟨t, ht, hinv⟩

/-- A hold adds a reference to the block headed by its page, if there is one. -/
theorem pmmHoldPage_inv {t : Pmm} {ptr : ℕ} (h : s.PmmInv refs) (hok : s.pmmHoldPage ptr = .ok t) :
    t.PmmInv (fun b => if s.pmmIsManaged ptr = true ∧ b.base = v2p ptr / pageSize ∧ 0 < refs b
      then refs b + 1 else refs b) ∧ SameRanges s t := by
  unfold pmmHoldPage at hok
  by_cases hm : s.pmmIsManaged ptr = true
  · obtain ⟨h0, hin⟩ := pmmIsManaged_iff.mp hm
    rw [if_neg h0] at hok
    dsimp only at hok
    rw [if_neg hin] at hok
    split at hok
    · cases hok
    split at hok
    · cases hok
    cases hok
    refine ⟨h.of_refcount (fun n => n + 1) ?_ fun b hb => ?_, rfl, rfl⟩
    · ext b
      simp only [live, Set.mem_ofPred_eq]
      split <;> omega
    · have hpos : 0 < refs b := hb
      simp [hm, hpos]
  · have hsame : s = t := by
      by_cases h0 : ptr = 0
      · rw [if_pos h0] at hok
        exact Except.ok.inj hok
      · rw [if_neg h0] at hok
        dsimp only at hok
        rw [if_pos (by by_contra hin; exact hm (pmmIsManaged_iff.mpr ⟨h0, hin⟩))] at hok
        exact Except.ok.inj hok
    subst hsame
    exact ⟨by simpa [hm] using h, rfl, rfl⟩

end Operations

/-! ## Runs -/

/-- A call a client makes. -/
inductive PmmOp
  | alloc (count : ℕ)
  | hold (ptr : ℕ)
  | free (ptr : ℕ)

/-- One call that returns, with the references it hands out or takes back. A free of a
managed page must name the head of a block. -/
inductive Call : Pmm × (Block → ℕ) → PmmOp → Pmm × (Block → ℕ) → Prop
  | allocNull {s t : Pmm} {refs : Block → ℕ} {count : ℕ}
      (h : s.pmmAllocPagesNozero count = .ok (none, t)) :
      Call (s, refs) (.alloc count) (t, refs)
  | alloc {s t : Pmm} {refs : Block → ℕ} {count v : ℕ}
      (h : s.pmmAllocPagesNozero count = .ok (some v, t)) :
      Call (s, refs) (.alloc count)
        (t, Function.update refs ⟨v2p v / pageSize, getOrder count⟩ 1)
  | hold {s t : Pmm} {refs : Block → ℕ} {ptr : ℕ} (h : s.pmmHoldPage ptr = .ok t) :
      Call (s, refs) (.hold ptr)
        (t, fun b => if s.HeadAt ptr b ∧ 0 < refs b then refs b + 1 else refs b)
  | free {s t : Pmm} {refs : Block → ℕ} {ptr : ℕ} (h : s.pmmFreePages ptr = .ok t)
      (hhead : s.pmmIsManaged ptr = true → ∃ b, b ∈ s.freeBlocks ∪ live refs ∧ s.HeadAt ptr b) :
      Call (s, refs) (.free ptr) (t, fun b => if s.HeadAt ptr b then refs b - 1 else refs b)

theorem v2p_p2v {p : ℕ} (hp : p < 2 ^ 64) : v2p (p2v p) = p := by
  unfold v2p p2v kernelVma
  omega

/-- An accepted free of a block head keeps the invariant. -/
theorem PmmInv.free {s t : Pmm} {refs : Block → ℕ} {ptr : ℕ} (h : s.PmmInv refs)
    (hok : s.pmmFreePages ptr = .ok t)
    (hhead : s.pmmIsManaged ptr = true → ∃ b, b ∈ s.freeBlocks ∪ live refs ∧ s.HeadAt ptr b) :
    t.PmmInv (fun b => if s.HeadAt ptr b then refs b - 1 else refs b) ∧ SameRanges s t := by
  unfold pmmFreePages at hok
  by_cases hm : s.pmmIsManaged ptr = true
  · obtain ⟨b, hb | hb, -, hbase⟩ := hhead hm
    · -- the head of a free block: a double free
      obtain ⟨h0, hin⟩ := pmmIsManaged_iff.mp hm
      rw [if_neg h0] at hok
      split at hok
      · cases hok
      dsimp only at hok
      have hfree := hb.2.1
      rw [hbase] at hfree
      rw [if_neg hin, if_pos hfree] at hok
      cases hok
    · by_cases hk : kernelVma ≤ ptr
      · obtain ⟨t', ht', hinv, hsame⟩ := pmmFreePages_inv h hb hk hbase.symm
        unfold pmmFreePages at ht'
        rw [ht'] at hok
        cases hok
        refine ⟨?_, hsame⟩
        convert hinv using 1
        funext c
        by_cases hc : c = b
        · subst hc
          rw [if_pos ⟨hm, hbase⟩, Function.update_self]
        · rw [Function.update_of_ne hc]
          split
          · rename_i hat
            -- another block with this head page cannot be referenced
            have hzero : refs c = 0 := by
              by_contra hne
              exact hc (h.eq_of_base (Nat.pos_of_ne_zero hne) hb (hat.2.trans hbase.symm))
            rw [hzero]
          · rfl
      · rw [if_neg (pmmIsManaged_iff.mp hm).1, if_pos (by omega)] at hok
        cases hok
  · have hsame : s = t := by
      by_cases h0 : ptr = 0
      · rw [if_pos h0] at hok
        exact Except.ok.inj hok
      · rw [if_neg h0] at hok
        split at hok
        · cases hok
        dsimp only at hok
        rw [if_pos (by by_contra hin; exact hm (pmmIsManaged_iff.mpr ⟨h0, hin⟩))] at hok
        exact Except.ok.inj hok
    subst hsame
    exact ⟨by simpa [HeadAt, hm] using h, rfl, rfl⟩

theorem PmmInv.call {s t : Pmm} {refs refs' : Block → ℕ} {op : PmmOp} (h : s.PmmInv refs)
    (hcall : Call (s, refs) op (t, refs')) : t.PmmInv refs' ∧ SameRanges s t := by
  cases hcall with
  | @allocNull _ _ _ count hok =>
    rcases pmmAllocPagesNozero_inv h count with hnull | ⟨pfn, u, hu, -⟩
    · rw [hnull] at hok
      cases hok
      exact ⟨h, rfl, rfl⟩
    · rw [hu] at hok
      cases hok
  | @alloc _ _ _ count v hok =>
    rcases pmmAllocPagesNozero_inv h count with hnull | ⟨pfn, u, hu, hlt, -, hinv⟩
    · rw [hnull] at hok
      cases hok
    · rw [hu] at hok
      cases hok
      have hn := h.core.pages_lt
      rw [v2p_p2v (by unfold pmmPfnNull at hn; unfold pageSize; omega),
        Nat.mul_div_cancel pfn (by decide)]
      exact hinv
  | hold hok => simpa only [HeadAt, and_assoc] using pmmHoldPage_inv h hok
  | free hok hhead => exact h.free hok hhead

/-! ## Well-formedness over whole runs -/

/-- What holds of the allocator between two calls, in the terms of its clients. -/
structure WellFormed (s : Pmm) (refs : Block → ℕ) : Prop where
  /-- Each list is a null-terminated doubly linked list without repetition, of exactly the
  heads flagged free at its order. -/
  lists : ∀ k ≤ pmmMaxOrder, ∃ l : List ℕ,
    DList s.nextOf s.prevOf pmmPfnNull (s.freeLists k) l ∧
    ∀ q, q ∈ l ↔ q < s.numPages ∧ (s.pageArray q).isFree = true ∧ (s.pageArray q).order = k
  free_blocks : ∀ b ∈ s.freeBlocks, b.order ≤ pmmMaxOrder ∧ 2 ^ b.order ∣ b.base ∧
    b.base + 2 ^ b.order ≤ s.numPages
  free_or_live : Disjoint s.freeBlocks (live refs)
  disjoint : ∀ b ∈ s.freeBlocks ∪ live refs, ∀ c ∈ s.freeBlocks ∪ live refs,
    ∀ q, q ∈ b → q ∈ c → b = c
  unreserved : ∀ b ∈ s.freeBlocks ∪ live refs, ∀ q ∈ b, q < s.numPages ∧ ¬ s.Reserved q
  cover : ∀ q < s.numPages, s.Reserved q ∨ ∃ b ∈ s.freeBlocks ∪ live refs, q ∈ b
  count : s.freePagesCount = ∑ q ∈ Finset.range s.numPages,
    if (s.pageArray q).isFree then 2 ^ (s.pageArray q).order else 0
  no_buddies : ∀ pfn k, k < pmmMaxOrder → ⟨pfn, k⟩ ∈ s.freeBlocks →
    ⟨pfn ^^^ 2 ^ k, k⟩ ∉ s.freeBlocks

theorem PmmInv.wellFormed {s : Pmm} {refs : Block → ℕ} (h : s.PmmInv refs) :
    s.WellFormed refs where
  lists := h.core.lists
  free_blocks b hb := ⟨h.core.tiling.order_le b (Or.inl hb), h.core.tiling.aligned b (Or.inl hb),
    h.core.tiling.bound b (Or.inl hb)⟩
  free_or_live := Set.disjoint_left.mpr fun _ hf hl => h.core.used_not_free hl hf
  disjoint := h.core.tiling.disjoint
  unreserved b hb q hq := ⟨Nat.lt_of_lt_of_le hq.2 (h.core.tiling.bound b hb),
    h.core.tiling.unreserved b hb q hq⟩
  cover := h.core.tiling.cover
  count := h.count
  no_buddies := h.core.no_buddies

/-- One accepted `pmm_reserve_range` call. -/
def Reserve (s : Pmm) (r : ℕ × ℕ) (t : Pmm) : Prop := s.pmmReserveRange r.1 r.2 = .ok t

/-- Reservations made at boot leave the count alone and stay on record. -/
theorem reserve_run {s t : Pmm} {rs : List (ℕ × ℕ)} (h : Run Reserve s rs t) :
    t.freePagesCount = s.freePagesCount ∧
    (∀ a e, Recorded s.reservedRanges a e → Recorded t.reservedRanges a e) ∧
    ∀ r ∈ rs, 0 < r.2 → r.1 + r.2 < 2 ^ 64 → Recorded t.reservedRanges r.1 (r.1 + r.2) := by
  induction h with
  | nil s => exact ⟨rfl, fun _ _ => id, by simp⟩
  | cons hstep _ ih =>
    obtain ⟨-, hc, -⟩ := pmmReserveRange_frame hstep
    obtain ⟨hnew, hold⟩ := pmmReserveRange_recorded hstep
    refine ⟨ih.1.trans hc, fun a e ha => ih.2.1 a e (hold a e ha), fun r hr hpos hlt => ?_⟩
    rcases List.mem_cons.mp hr with rfl | hr
    · exact ih.2.1 _ _ (hnew hpos hlt)
    · exact ih.2.2 r hr hpos hlt

/-- Every call keeps the invariant and the ranges, so a run does. -/
theorem call_run {s t : Pmm} {refs refs' : Block → ℕ} {ops : List PmmOp} (h : s.PmmInv refs)
    (hrun : Run Call (s, refs) ops (t, refs')) : t.PmmInv refs' ∧ SameRanges s t := by
  refine Run.invariant (fun p => p.1.PmmInv p.2 ∧ SameRanges s p.1) ?_ hrun ⟨h, rfl, rfl⟩
  rintro ⟨u, r⟩ op ⟨u', r'⟩ ⟨hinv, hn, hr⟩ hcall
  obtain ⟨hinv', hn', hr'⟩ := hinv.call hcall
  exact ⟨hinv', hn'.trans hn, hr'.trans hr⟩

/-- From any reservations accepted at boot, and after any calls: the allocator is well
formed, and every page of a range that was asked for is reserved. -/
theorem pmm_run_wellFormed {s₀ s₁ s : Pmm} {refs : Block → ℕ} {memSize kernelEnd : ℕ}
    {rs : List (ℕ × ℕ)} {ops : List PmmOp} (hreserve : Run Reserve boot rs s₀)
    (hinit : s₀.pmmInit memSize kernelEnd = .ok s₁)
    (hrun : Run Call (s₁, fun _ => 0) ops (s, refs)) :
    s.WellFormed refs ∧
    ∀ r ∈ rs, 0 < r.2 → r.1 + r.2 < 2 ^ 64 → ∀ q < s.numPages,
      r.1 < (q + 1) * pageSize → q * pageSize < r.1 + r.2 → s.Reserved q := by
  obtain ⟨hcount, -, hrec⟩ := reserve_run hreserve
  obtain ⟨hinv₁, hkeep, -⟩ := pmmInit_inv hcount hinit
  obtain ⟨hinv, -, hsame⟩ := call_run hinv₁ hrun
  refine ⟨hinv.wellFormed, fun r hr hpos hlt q hq ha he =>
    reserved_of_recorded ?_ hinv.core.pages_lt hq ha he⟩
  rw [hsame]
  exact hkeep _ _ (hrec r hr hpos hlt)

/-- A machine of eight pages, one of them reserved besides the kernel's: allocate three
pages, hold them and drop one reference. -/
theorem pmm_run_wellFormed_small : ∃ s₀ s₁ s refs,
    Run Reserve boot [(0x3000, 16)] s₀ ∧ s₀.pmmInit 0x8000 kernelVma = .ok s₁ ∧
    Run Call (s₁, fun _ => 0) [.alloc 3, .hold (p2v 0x4000), .free (p2v 0x4000)] (s, refs) ∧
    s.WellFormed refs ∧ s.Reserved 3 := by
  obtain ⟨s₀, h₀⟩ : ∃ s₀, boot.pmmReserveRange 0x3000 16 = .ok s₀ := ⟨_, rfl⟩
  obtain ⟨s₁, h₁⟩ : ∃ s₁, s₀.pmmInit 0x8000 kernelVma = .ok s₁ := by
    cases h₀
    exact ⟨_, rfl⟩
  obtain ⟨s₂, h₂⟩ : ∃ s₂, s₁.pmmAllocPagesNozero 3 = .ok (some (p2v 0x4000), s₂) := by
    cases h₀
    cases h₁
    exact ⟨_, rfl⟩
  obtain ⟨s₃, h₃⟩ : ∃ s₃, s₂.pmmHoldPage (p2v 0x4000) = .ok s₃ := by
    cases h₀
    cases h₁
    cases h₂
    exact ⟨_, rfl⟩
  obtain ⟨s₄, h₄⟩ : ∃ s₄, s₃.pmmFreePages (p2v 0x4000) = .ok s₄ := by
    cases h₀
    cases h₁
    cases h₂
    cases h₃
    exact ⟨_, rfl⟩
  have hreserve : Run Reserve boot [(0x3000, 16)] s₀ := .single h₀
  obtain ⟨refs, hrun⟩ : ∃ refs, Run Call (s₁, fun _ => 0)
      [.alloc 3, .hold (p2v 0x4000), .free (p2v 0x4000)] (s₄, refs) := by
    refine ⟨_, .cons (.alloc h₂) (.cons (.hold h₃) (.single (.free h₄ fun hm =>
      ⟨⟨4, 2⟩, Or.inr ?_, hm, rfl⟩)))⟩
    show 0 < ite _ _ _
    split
    · exact Nat.succ_pos _
    · decide
  obtain ⟨hwf, hpages⟩ := pmm_run_wellFormed hreserve h₁ hrun
  refine ⟨s₀, s₁, s₄, refs, hreserve, h₁, hrun, hwf,
    hpages (0x3000, 16) (by simp) (by decide) (by decide) 3 ?_ (by decide) (by decide)⟩
  cases h₀
  cases h₁
  cases h₂
  cases h₃
  cases h₄
  decide

end Perspicua.Mm.Pmm
