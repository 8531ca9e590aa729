import Perspicua.Lib.Except
import Perspicua.Mm.PmmRun

/-!
# Calls on pages that head no allocation

`pmm_free_pages` refuses a page whose record is marked free or counts no references. The count
of a page that heads no live block is zero after any splits and merges, as long as nobody held
such a page, so every free of one is refused. `pmm_hold_page` and `pmm_set_slab` look at the
free flag only, and that is set for the head of a free block alone: on a page inside a block
they go ahead.
-/

namespace Perspicua.Mm.Pmm

open Perspicua.Lib

variable {s t : Pmm} {refs : Block → ℕ} {ptr : ℕ}

/-! ## Reference counts of pages that head no block -/

theorem pmmListDel_refcount {order pfn : ℕ} (h : s.pmmListDel order pfn = .ok t) (q : ℕ) :
    (t.pageArray q).refcount = (s.pageArray q).refcount := by
  unfold pmmListDel at h
  obtain ⟨u, hu, rfl⟩ := map_eq_ok.mp h
  have hsame : SameMeta s u := by
    split at hu
    · split at hu
      · cases hu
      · cases hu
        exact sameMeta_setFreeList _ _ _
    · cases hu
      exact sameMeta_setNext _ _ _
  have hafter : SameMeta u (((if (s.pageArray pfn).next ≠ pmmPfnNull then
      u.setPrev (s.pageArray pfn).next (s.pageArray pfn).prev else u).setNext pfn
      pmmPfnNull).setPrev pfn pmmPfnNull) := by
    refine SameMeta.trans ?_ ((sameMeta_setNext _ _ _).trans (sameMeta_setPrev _ _ _))
    split
    · exact sameMeta_setPrev _ _ _
    · exact ⟨rfl, rfl, rfl, rfl, rfl, fun _ => rfl⟩
  exact (hsame.trans hafter).refcount q

theorem modifyPage_of_ne (s : Pmm) {pfn q : ℕ} (hq : q ≠ pfn) (f : PmmPage → PmmPage) :
    (s.modifyPage pfn f).pageArray q = s.pageArray q := Function.update_of_ne hq _ _

/-- A field that `f` keeps is the same in every record. -/
theorem modifyPage_field {α : Type} (g : PmmPage → α) (s : Pmm) (pfn : ℕ) {f : PmmPage → PmmPage}
    (hf : ∀ p, g (f p) = g p) (q : ℕ) : g ((s.modifyPage pfn f).pageArray q) = g (s.pageArray q) := by
  by_cases hq : q = pfn
  · rw [hq, modifyPage_self, hf]
  · rw [modifyPage_of_ne s hq]

theorem freeBuddyLoop_refcount {fuel : ℕ} {pfn order : ℕ} {r : ℕ × ℕ}
    (h : freeBuddyLoop fuel s pfn order = .ok (t, r)) (q : ℕ) :
    (t.pageArray q).refcount = (s.pageArray q).refcount := by
  induction fuel generalizing s pfn order with
  | zero =>
    cases h
    rfl
  | succ fuel ih =>
    rw [freeBuddyLoop] at h
    dsimp only at h
    split at h
    · cases h
      rfl
    split at h
    · cases h
      rfl
    obtain ⟨u, hu, h⟩ := bind_eq_ok.mp h
    rw [ih h, modifyPage_field PmmPage.refcount, pmmListDel_refcount hu]
    exact fun _ => rfl

theorem markFree_refcount (s : Pmm) (pfn order q : ℕ) :
    ((s.markFree pfn order).pageArray q).refcount = (s.pageArray q).refcount := by
  rw [markFree, (sameMeta_pmmListAdd _ _ _).refcount, modifyPage_field PmmPage.refcount]
  exact fun _ => rfl

/-- Coalescing leaves the counts alone. -/
theorem pmmFreeBuddyInternal_refcount {pfn order : ℕ} (h : s.pmmFreeBuddyInternal pfn order = .ok t)
    (q : ℕ) : (t.pageArray q).refcount = (s.pageArray q).refcount := by
  obtain ⟨⟨u, r⟩, hu, h⟩ := bind_eq_ok.mp h
  cases h
  rw [markFree_refcount, freeBuddyLoop_refcount hu]

theorem distribute_refcount {fuel pfn : ℕ} (h : distribute fuel s pfn = .ok t) (q : ℕ) :
    (t.pageArray q).refcount = (s.pageArray q).refcount := by
  induction fuel generalizing s pfn with
  | zero =>
    cases h
    rfl
  | succ fuel ih =>
    rw [distribute] at h
    split at h
    · split at h
      · exact ih h
      · dsimp only at h
        obtain ⟨u, hu, h⟩ := bind_eq_ok.mp h
        rw [ih h, pmmFreeBuddyInternal_refcount hu]
    · cases h
      rfl

theorem pmmInit_refcount {memSize kernelEnd : ℕ} (h : s.pmmInit memSize kernelEnd = .ok t) (q : ℕ) :
    (t.pageArray q).refcount = 0 := by
  unfold pmmInit at h
  dsimp only at h
  split at h
  · cases h
  split at h
  · cases h
  split at h
  · cases h
  split at h
  · cases h
  obtain ⟨u, -, h⟩ := bind_eq_ok.mp h
  obtain ⟨v, hv, h⟩ := bind_eq_ok.mp h
  cases h
  exact distribute_refcount hv q

/-- A split resets the counts of the halves it gives back. -/
theorem splitLoop_refcount (target order : ℕ) (s : Pmm) (pfn q : ℕ) :
    ((splitLoop target order s pfn).pageArray q).refcount = (s.pageArray q).refcount ∨
      ((splitLoop target order s pfn).pageArray q).refcount = 0 := by
  induction order generalizing s with
  | zero => exact .inl rfl
  | succ order ih =>
    rw [splitLoop]
    split
    · dsimp only
      refine (ih _).elim (fun h => ?_) .inr
      rw [h]
      show ((pmmListAdd _ _ _).pageArray q).refcount = _ ∨ ((pmmListAdd _ _ _).pageArray q).refcount = 0
      rw [(sameMeta_pmmListAdd _ _ _).refcount]
      by_cases hq : q = pfn + 1 <<< order
      · right
        rw [hq, modifyPage_self]
      · left
        rw [modifyPage_of_ne s hq]
    · exact .inl rfl

theorem clearFlags_refcount (s : Pmm) (pfn order q : ℕ) :
    ((s.clearFlags pfn order).pageArray q).refcount = (s.pageArray q).refcount := by
  simp only [clearFlags]
  split <;> rfl

/-- An allocation sets the count of the head it hands out; every other count stays or is reset. -/
theorem pmmAllocPagesNozero_refcount {count v : ℕ} (h : s.PmmInv refs)
    (hok : s.pmmAllocPagesNozero count = .ok (some v, t)) {q : ℕ} (hq : q ≠ v2p v / pageSize) :
    (t.pageArray q).refcount = (s.pageArray q).refcount ∨ (t.pageArray q).refcount = 0 := by
  unfold pmmAllocPagesNozero at hok
  split at hok
  · cases hok
  dsimp only at hok
  split at hok
  · cases hok
  next htarget =>
    obtain ⟨-, hhead, -⟩ := @findOrder_spec s (pmmMaxOrder + 1 - getOrder count) (getOrder count)
      (by omega)
    generalize s.findOrder (pmmMaxOrder + 1 - getOrder count) (getOrder count) = k at hhead hok
    split at hok
    · cases hok
    next hk =>
      have hfree : s.FreeHead (s.freeLists k) k :=
        h.core.lists.head_mem (Nat.le_of_not_gt hk) (hhead (Nat.le_of_not_gt hk))
      obtain ⟨u, hu, hok⟩ := bind_eq_ok.mp hok
      cases hok
      have hpages := h.core.pages_lt
      have hlt := hfree.1
      have hpfn : v2p (p2v (s.freeLists k * pageSize)) / pageSize = s.freeLists k := by
        rw [v2p_p2v (by unfold pmmPfnNull at hpages; unfold pageSize; omega),
          Nat.mul_div_cancel _ (by decide)]
      rw [hpfn] at hq
      rw [clearFlags_refcount]
      simp only [modifyPage, Function.update_of_ne hq]
      refine (splitLoop_refcount (getOrder count) k _ (s.freeLists k) q).imp_left fun hsplit => ?_
      rw [hsplit]
      simp only [Function.update_of_ne hq]
      exact pmmListDel_refcount hu q

/-- Only heads of live blocks count references. -/
def NoStray (s : Pmm) (refs : Block → ℕ) : Prop :=
  ∀ q, (∀ b ∈ live refs, b.base ≠ q) → (s.pageArray q).refcount = 0

/-! ## Clients -/

/-- A call a client makes, with the flag calls of the slab allocator. -/
inductive ClientOp
  | alloc (count : ℕ)
  | hold (ptr : ℕ)
  | free (ptr : ℕ)
  | setSlab (ptr : ℕ) (isSlab : Bool)

/-- One call that returns, on whatever page, with the references it hands out or takes back. -/
inductive Client : Pmm × (Block → ℕ) → ClientOp → Pmm × (Block → ℕ) → Prop
  | allocNull {s t : Pmm} {refs : Block → ℕ} {count : ℕ}
      (h : s.pmmAllocPagesNozero count = .ok (none, t)) : Client (s, refs) (.alloc count) (t, refs)
  | alloc {s t : Pmm} {refs : Block → ℕ} {count v : ℕ}
      (h : s.pmmAllocPagesNozero count = .ok (some v, t)) :
      Client (s, refs) (.alloc count)
        (t, Function.update refs ⟨v2p v / pageSize, getOrder count⟩ 1)
  | hold {s t : Pmm} {refs : Block → ℕ} {ptr : ℕ} (h : s.pmmHoldPage ptr = .ok t) :
      Client (s, refs) (.hold ptr)
        (t, fun b => if s.HeadAt ptr b ∧ 0 < refs b then refs b + 1 else refs b)
  | free {s t : Pmm} {refs : Block → ℕ} {ptr : ℕ} (h : s.pmmFreePages ptr = .ok t) :
      Client (s, refs) (.free ptr) (t, fun b => if s.HeadAt ptr b then refs b - 1 else refs b)
  | setSlab {s t : Pmm} {refs : Block → ℕ} {ptr : ℕ} {isSlab : Bool}
      (h : s.pmmSetSlab ptr isSlab = .ok t) : Client (s, refs) (.setSlab ptr isSlab) (t, refs)

/-- A page that is held heads a block. -/
def HoldsHead (x : Pmm × (Block → ℕ)) : ClientOp → Prop
  | .hold ptr => x.1.pmmIsManaged ptr = true →
      ∃ b ∈ x.1.freeBlocks ∪ live x.2, x.1.HeadAt ptr b
  | _ => True

/-- A client that holds nothing but heads of blocks. -/
def Careful (x : Pmm × (Block → ℕ)) (op : ClientOp) (y : Pmm × (Block → ℕ)) : Prop :=
  HoldsHead x op ∧ Client x op y

/-! ## What the calls look at -/

/-- The record that a call on a managed page reads. -/
theorem managed_cases (hm : s.pmmIsManaged ptr = true) : ptr ≠ 0 ∧ v2p ptr / pageSize < s.numPages ∧
    ¬ (decide (v2p ptr / pageSize ≥ s.numPages) || s.pfnIsReserved (v2p ptr / pageSize)) = true := by
  obtain ⟨h0, hin⟩ := pmmIsManaged_iff.mp hm
  refine ⟨h0, ?_, hin⟩
  rw [Bool.or_eq_true, not_or, decide_eq_true_eq] at hin
  exact Nat.lt_of_not_ge hin.1

/-- The free flag is set for heads of free blocks only. -/
theorem isFree_iff (hm : s.pmmIsManaged ptr = true) :
    (s.pageArray (v2p ptr / pageSize)).isFree = true ↔ ∃ b ∈ s.freeBlocks, s.HeadAt ptr b := by
  obtain ⟨-, hlt, -⟩ := managed_cases hm
  constructor
  · intro hfree
    exact ⟨⟨v2p ptr / pageSize, (s.pageArray (v2p ptr / pageSize)).order⟩, ⟨hlt, hfree, rfl⟩, hm, rfl⟩
  · rintro ⟨b, hb, -, hbase⟩
    rw [← hbase]
    exact hb.2.1

/-- The panics of the three calls that come before anything is written. -/
def refusals : List Panic :=
  ["pmm: invalid pointer in free", "pmm: double free", "pmm: free with zero refcount",
    "pmm: hold on free page", "pmm: slab flag set on a free page"]

/-- The call panics and has changed nothing. -/
def Refused (r : Except Panic Pmm) : Prop := ∃ e ∈ refusals, r = .error e

theorem not_refused_ok (t : Pmm) : ¬ Refused (.ok t) := by
  rintro ⟨e, -, h⟩
  cases h

theorem pmmFreePages_refused (hm : s.pmmIsManaged ptr = true)
    (h : (s.pageArray (v2p ptr / pageSize)).isFree = true ∨
      (s.pageArray (v2p ptr / pageSize)).refcount = 0) : Refused (s.pmmFreePages ptr) := by
  obtain ⟨h0, -, hin⟩ := managed_cases hm
  unfold pmmFreePages
  rw [if_neg h0]
  by_cases hlow : ptr < kernelVma
  · rw [if_pos hlow]
    exact ⟨_, by decide, rfl⟩
  rw [if_neg hlow]
  dsimp only
  rw [if_neg hin]
  by_cases hfree : (s.pageArray (v2p ptr / pageSize)).isFree = true
  · rw [if_pos hfree]
    exact ⟨_, by decide, rfl⟩
  · rw [if_neg hfree, if_pos (h.resolve_left hfree)]
    exact ⟨_, by decide, rfl⟩

theorem pmmHoldPage_refused_iff (hm : s.pmmIsManaged ptr = true) :
    Refused (s.pmmHoldPage ptr) ↔ (s.pageArray (v2p ptr / pageSize)).isFree = true := by
  obtain ⟨h0, -, hin⟩ := managed_cases hm
  unfold pmmHoldPage
  rw [if_neg h0]
  dsimp only
  rw [if_neg hin]
  by_cases hfree : (s.pageArray (v2p ptr / pageSize)).isFree = true
  · rw [if_pos hfree]
    exact ⟨fun _ => hfree, fun _ => ⟨_, by decide, rfl⟩⟩
  · rw [if_neg hfree]
    refine ⟨fun h => ?_, fun h => absurd h hfree⟩
    split at h
    · -- the panic on an overflow is none of the refusals
      obtain ⟨e, he, h⟩ := h
      cases h
      exact absurd he (by decide)
    · exact absurd h (not_refused_ok _)

theorem pmmSetSlab_refused_iff (hm : s.pmmIsManaged ptr = true) (isSlab : Bool) :
    Refused (s.pmmSetSlab ptr isSlab) ↔ (s.pageArray (v2p ptr / pageSize)).isFree = true := by
  unfold pmmSetSlab
  rw [if_neg (by rw [hm]; decide)]
  dsimp only
  by_cases hfree : (s.pageArray (v2p ptr / pageSize)).isFree = true
  · rw [if_pos hfree]
    exact ⟨fun _ => hfree, fun _ => ⟨_, by decide, rfl⟩⟩
  · rw [if_neg hfree]
    exact ⟨fun h => absurd h (not_refused_ok _), fun h => absurd h hfree⟩

/-! ## Careful runs -/

/-- Under `NoStray` a free that returns names a live head, or a page that is not managed. -/
theorem head_of_free (hstray : NoStray s refs) (hok : s.pmmFreePages ptr = .ok t)
    (hm : s.pmmIsManaged ptr = true) : ∃ b ∈ live refs, s.HeadAt ptr b := by
  by_contra hno
  have hzero : (s.pageArray (v2p ptr / pageSize)).refcount = 0 := by
    apply hstray
    intro b hb hbase
    exact hno ⟨b, hb, hm, hbase⟩
  have hrefused := pmmFreePages_refused hm (.inr hzero)
  rw [hok] at hrefused
  exact not_refused_ok t hrefused

/-- The flags of a page are nothing the invariant speaks of. -/
theorem PmmInv.of_flags (h : s.PmmInv refs) (pfn : ℕ) (g : ℕ → ℕ) :
    PmmInv (s.modifyPage pfn fun p => { p with flags := g p.flags }) refs := by
  obtain ⟨f, hf⟩ : ∃ f : PmmPage → PmmPage, f = fun p => { p with flags := g p.flags } := ⟨_, rfl⟩
  rw [← hf]
  have hnext := modifyPage_field PmmPage.next s pfn (f := f) fun _ => by rw [hf]
  have hprev := modifyPage_field PmmPage.prev s pfn (f := f) fun _ => by rw [hf]
  have hfree := modifyPage_field PmmPage.isFree s pfn (f := f) fun _ => by rw [hf]
  have horder := modifyPage_field PmmPage.order s pfn (f := f) fun _ => by rw [hf]
  have hcount := modifyPage_field PmmPage.refcount s pfn (f := f) fun _ => by rw [hf]
  refine ⟨h.core.of_sameShape rfl rfl rfl fun q => ⟨hnext q, hprev q, hfree q, fun _ => horder q⟩, ?_,
    fun b hb => ?_⟩
  · show s.freePagesCount = _
    rw [h.count]
    refine Finset.sum_congr rfl fun q _ => ?_
    rw [freeSize, freeSize, hfree, horder]
  · rw [horder, hcount]
    exact h.live_meta b hb

theorem pmmSetSlab_inv {isSlab : Bool} (h : s.PmmInv refs) (hok : s.pmmSetSlab ptr isSlab = .ok t) :
    t.PmmInv refs ∧ ∀ q, (t.pageArray q).refcount = (s.pageArray q).refcount := by
  unfold pmmSetSlab at hok
  split at hok
  · cases hok
  dsimp only at hok
  split at hok
  · cases hok
  cases hok
  refine ⟨h.of_flags _ fun n => if isSlab then n ||| pmmPageSlab else n &&& (255 - pmmPageSlab), ?_⟩
  intro q
  rw [modifyPage_field PmmPage.refcount]
  exact fun _ => rfl

/-- A free takes one from the count of its own page. -/
theorem pmmFreePages_refcount (hok : s.pmmFreePages ptr = .ok t) (q : ℕ) :
    (t.pageArray q).refcount = if s.pmmIsManaged ptr = true ∧ q = v2p ptr / pageSize
      then (s.pageArray q).refcount - 1 else (s.pageArray q).refcount := by
  unfold pmmFreePages at hok
  by_cases hm : s.pmmIsManaged ptr = true
  · obtain ⟨h0, -, hin⟩ := managed_cases hm
    rw [if_neg h0] at hok
    split at hok
    · cases hok
    dsimp only at hok
    rw [if_neg hin] at hok
    split at hok
    · cases hok
    split at hok
    · cases hok
    have hdrop : ((s.modifyPage (v2p ptr / pageSize) fun p =>
        { p with refcount := p.refcount - 1 }).pageArray q).refcount =
        if s.pmmIsManaged ptr = true ∧ q = v2p ptr / pageSize
        then (s.pageArray q).refcount - 1 else (s.pageArray q).refcount := by
      by_cases hq : q = v2p ptr / pageSize
      · rw [if_pos ⟨hm, hq⟩, hq, modifyPage_self]
      · rw [if_neg fun hc => hq hc.2, modifyPage_of_ne s hq]
    split at hok
    · cases hok
      exact hdrop
    split at hok
    · cases hok
    · rw [pmmFreeBuddyInternal_refcount hok]
      exact hdrop
  · rw [if_neg fun hc => hm hc.1]
    split at hok
    · cases hok
      rfl
    next h0 =>
      split at hok
      · cases hok
      dsimp only at hok
      rw [if_pos (by by_contra hin; exact hm (pmmIsManaged_iff.mpr ⟨h0, hin⟩))] at hok
      cases hok
      rfl

theorem pmmHoldPage_refcount (hok : s.pmmHoldPage ptr = .ok t) {q : ℕ}
    (hq : s.pmmIsManaged ptr = true → q ≠ v2p ptr / pageSize) :
    (t.pageArray q).refcount = (s.pageArray q).refcount := by
  unfold pmmHoldPage at hok
  split at hok
  · cases hok
    rfl
  next h0 =>
    dsimp only at hok
    split at hok
    · cases hok
      rfl
    next hin =>
      split at hok
      · cases hok
      split at hok
      · cases hok
      cases hok
      rw [modifyPage_of_ne s (hq (pmmIsManaged_iff.mpr ⟨h0, hin⟩))]

/-- A careful call keeps the counts of pages that head no live block at zero. -/
theorem careful_step {s t : Pmm} {refs refs' : Block → ℕ} {op : ClientOp}
    (h : s.PmmInv refs ∧ NoStray s refs) (hstep : Careful (s, refs) op (t, refs')) :
    t.PmmInv refs' ∧ NoStray t refs' := by
  obtain ⟨hinv, hstray⟩ := h
  obtain ⟨hholds, hclient⟩ := hstep
  cases hclient with
  | @allocNull _ _ _ count hok =>
    refine ⟨(hinv.call (.allocNull hok)).1, ?_⟩
    rcases pmmAllocPagesNozero_inv hinv count with hnull | ⟨pfn, u, hu, -⟩
    · rw [hnull] at hok
      cases hok
      exact hstray
    · rw [hu] at hok
      cases hok
  | @alloc _ _ _ count v hok =>
    refine ⟨(hinv.call (.alloc hok)).1, fun q hq => ?_⟩
    rw [mem_live_update Nat.one_pos] at hq
    have hne : q ≠ v2p v / pageSize := fun he => hq _ (Set.mem_insert _ _) he.symm
    have hold := hstray q fun b hb => hq b (Set.mem_insert_of_mem _ hb)
    rcases pmmAllocPagesNozero_refcount hinv hok hne with hsame | hzero
    · rw [hsame, hold]
    · exact hzero
  | @hold _ _ _ ptr hok =>
    have hlive : live (fun b => if s.HeadAt ptr b ∧ 0 < refs b then refs b + 1 else refs b) =
        live refs := by
      ext b
      show 0 < ite _ _ _ ↔ 0 < refs b
      split
      next hc => exact ⟨fun _ => hc.2, fun _ => Nat.succ_pos _⟩
      next => exact Iff.rfl
    refine ⟨(hinv.call (.hold hok)).1, fun q hq => ?_⟩
    rw [hlive] at hq
    rw [pmmHoldPage_refcount hok, hstray q hq]
    rintro hm rfl
    -- the page that is held heads a block, and it is not a free one
    obtain ⟨b, hb | hb, hhead⟩ := hholds hm
    · have hrefused := (pmmHoldPage_refused_iff hm).mpr ((isFree_iff hm).mpr ⟨b, hb, hhead⟩)
      rw [hok] at hrefused
      exact not_refused_ok t hrefused
    · exact hq b hb hhead.2
  | @free _ _ _ ptr hok =>
    have hcall : Call (s, refs) (.free ptr) (t, fun b => if s.HeadAt ptr b then refs b - 1 else refs b) := by
      refine .free hok fun hm => ?_
      obtain ⟨b, hb, hhead⟩ := head_of_free hstray hok hm
      exact ⟨b, .inr hb, hhead⟩
    have hinv' := (hinv.call hcall).1
    refine ⟨hinv', fun q hq => ?_⟩
    rw [pmmFreePages_refcount hok]
    by_cases hhead : ∃ b ∈ live refs, b.base = q
    · obtain ⟨b, hb, rfl⟩ := hhead
      -- a live head that is no longer one has lost its last reference
      have hdead : ¬ 0 < if s.HeadAt ptr b then refs b - 1 else refs b := fun hpos => hq b hpos rfl
      have hpos : 0 < refs b := hb
      rw [(hinv.live_meta b hb).2]
      split at hdead
      next hat =>
        rw [if_pos ⟨hat.1, hat.2⟩]
        omega
      next => exact absurd hpos hdead
    · rw [hstray q fun b hb hbase => hhead ⟨b, hb, hbase⟩]
      split <;> rfl
  | setSlab hok =>
    obtain ⟨hinv', hcounts⟩ := pmmSetSlab_inv hinv hok
    exact ⟨hinv', fun q hq => by rw [hcounts q]; exact hstray q hq⟩

theorem careful_run {s t : Pmm} {refs refs' : Block → ℕ} {ops : List ClientOp}
    (h : s.PmmInv refs ∧ NoStray s refs) (hrun : Run Careful (s, refs) ops (t, refs')) :
    t.PmmInv refs' ∧ NoStray t refs' := by
  refine Run.invariant (fun x => x.1.PmmInv x.2 ∧ NoStray x.1 x.2) ?_ hrun h
  rintro ⟨u, r⟩ op ⟨u', r'⟩ hinv hstep
  exact careful_step hinv hstep

/-- A page that heads no live block: the three calls all refuse it exactly if it heads a free one.
The free refuses it in any case, in every state that clients reach who hold heads only. -/
theorem misuse_refused_iff (hm : s.pmmIsManaged ptr = true) (hnot : ∀ b ∈ live refs, ¬ s.HeadAt ptr b) :
    ((Refused (s.pmmFreePages ptr) ∧ Refused (s.pmmHoldPage ptr) ∧
        ∀ isSlab, Refused (s.pmmSetSlab ptr isSlab)) ↔ ∃ b ∈ s.freeBlocks, s.HeadAt ptr b) ∧
      ∀ {s₀ s₁ : Pmm} {rs : List (ℕ × ℕ)} {memSize kernelEnd : ℕ} {ops : List ClientOp},
        Run Reserve boot rs s₀ → s₀.pmmInit memSize kernelEnd = .ok s₁ →
        Run Careful (s₁, fun _ => 0) ops (s, refs) → Refused (s.pmmFreePages ptr) := by
  constructor
  · rw [← isFree_iff hm]
    constructor
    · rintro ⟨-, hhold, -⟩
      exact (pmmHoldPage_refused_iff hm).mp hhold
    · intro hfree
      exact ⟨pmmFreePages_refused hm (.inl hfree), (pmmHoldPage_refused_iff hm).mpr hfree,
        fun isSlab => (pmmSetSlab_refused_iff hm isSlab).mpr hfree⟩
  · intro s₀ s₁ rs memSize kernelEnd ops hreserve hinit hrun
    obtain ⟨hcount, -, -⟩ := reserve_run hreserve
    obtain ⟨hinv₁, -, -⟩ := pmmInit_inv hcount hinit
    obtain ⟨-, hstray⟩ := careful_run ⟨hinv₁, fun q _ => pmmInit_refcount hinit q⟩ hrun
    refine pmmFreePages_refused hm (.inr (hstray _ fun b hb hbase => ?_))
    exact hnot b hb ⟨hm, hbase⟩

/-- The references on a machine whose one allocation is the block of four pages at page 4. -/
def fourPages : Block → ℕ := Function.update (fun _ => 0) ⟨v2p (p2v 0x4000) / pageSize, getOrder 3⟩ 1

theorem not_headAt_fourPages {s : Pmm} : ∀ b ∈ live fourPages, ¬ s.HeadAt (p2v 0x5000) b := by
  rintro b hb ⟨-, hbase⟩
  rw [fourPages, mem_live_update Nat.one_pos] at hb
  rcases hb with rfl | hb
  · exact absurd hbase (by decide)
  · exact absurd hb (lt_irrefl 0)

/-- A machine of eight pages on which four are allocated, and the second of these. -/
theorem exists_fourPages : ∃ s₀ s₁ s : Pmm, Run Reserve boot [(0x3000, 16)] s₀ ∧
    s₀.pmmInit 0x8000 kernelVma = .ok s₁ ∧ Run Careful (s₁, fun _ => 0) [.alloc 3] (s, fourPages) ∧
    s.pmmIsManaged (p2v 0x5000) = true ∧
    (∃ t, s.pmmHoldPage (p2v 0x5000) = .ok t ∧ (t.pageArray 5).refcount ≠ (s.pageArray 5).refcount) ∧
    ∃ t, s.pmmSetSlab (p2v 0x5000) true = .ok t ∧ (t.pageArray 5).flags ≠ (s.pageArray 5).flags := by
  obtain ⟨s₀, h₀⟩ : ∃ s₀, boot.pmmReserveRange 0x3000 16 = .ok s₀ := ⟨_, rfl⟩
  obtain ⟨s₁, h₁⟩ : ∃ s₁, s₀.pmmInit 0x8000 kernelVma = .ok s₁ := by
    cases h₀
    exact ⟨_, rfl⟩
  obtain ⟨s₂, h₂⟩ : ∃ s₂, s₁.pmmAllocPagesNozero 3 = .ok (some (p2v 0x4000), s₂) := by
    cases h₀
    cases h₁
    exact ⟨_, rfl⟩
  refine ⟨s₀, s₁, s₂, .single h₀, h₁, .single ⟨trivial, .alloc h₂⟩, ?_⟩
  cases h₀
  cases h₁
  cases h₂
  exact ⟨by decide, ⟨_, rfl, by decide⟩, ⟨_, rfl, by decide⟩⟩

/-- The second page of a block can be held and flagged. -/
theorem interior_page_held : ∃ s₀ s₁ s : Pmm, Run Reserve boot [(0x3000, 16)] s₀ ∧
    s₀.pmmInit 0x8000 kernelVma = .ok s₁ ∧ Run Careful (s₁, fun _ => 0) [.alloc 3] (s, fourPages) ∧
    s.pmmIsManaged (p2v 0x5000) = true ∧ (∀ b ∈ live fourPages, ¬ s.HeadAt (p2v 0x5000) b) ∧
    (∃ t, s.pmmHoldPage (p2v 0x5000) = .ok t ∧ (t.pageArray 5).refcount ≠ (s.pageArray 5).refcount) ∧
    ∃ t, s.pmmSetSlab (p2v 0x5000) true = .ok t ∧ (t.pageArray 5).flags ≠ (s.pageArray 5).flags := by
  obtain ⟨s₀, s₁, s, h₀, h₁, hrun, hm, hhold, hslab⟩ := exists_fourPages
  exact ⟨s₀, s₁, s, h₀, h₁, hrun, hm, not_headAt_fourPages, hhold, hslab⟩

/-- It is not refused by all three calls, but a free of it is refused. -/
theorem misuse_refused_iff_interior : ∃ s : Pmm, (∀ b ∈ live fourPages, ¬ s.HeadAt (p2v 0x5000) b) ∧
    ((Refused (s.pmmFreePages (p2v 0x5000)) ∧ Refused (s.pmmHoldPage (p2v 0x5000)) ∧
        ∀ isSlab, Refused (s.pmmSetSlab (p2v 0x5000) isSlab)) ↔
      ∃ b ∈ s.freeBlocks, s.HeadAt (p2v 0x5000) b) ∧ Refused (s.pmmFreePages (p2v 0x5000)) := by
  obtain ⟨s₀, s₁, s, h₀, h₁, hrun, hm, -⟩ := exists_fourPages
  obtain ⟨hiff, hfree⟩ := misuse_refused_iff hm not_headAt_fourPages
  exact ⟨s, not_headAt_fourPages, hiff, hfree h₀ h₁ hrun⟩

end Perspicua.Mm.Pmm
