import Perspicua.Lib.DList
import Perspicua.Mm.Pmm

/-!
# The free lists of the buddy allocator

`pmm_list_add` and `pmm_list_del` as operations on the set of pages each list holds. The
lists of all orders share one pair of link fields, so a list operation on one order also
has to leave the other lists alone; `ListsFor` speaks about all of them at once.
-/

namespace Perspicua.Mm.Pmm

open Perspicua.Lib

/-! ## Reading the links -/

def nextOf (s : Pmm) (q : ℕ) : ℕ := (s.pageArray q).next
def prevOf (s : Pmm) (q : ℕ) : ℕ := (s.pageArray q).prev

/-- What a page record says apart from its links. -/
def metaOf (s : Pmm) (q : ℕ) : ℕ × ℕ × Bool × ℕ :=
  let p := s.pageArray q
  (p.refcount, p.order, p.isFree, p.flags)

/-- Two states that differ in list links and list heads only. -/
structure SameMeta (s t : Pmm) : Prop where
  numPages : t.numPages = s.numPages
  managedPages : t.managedPages = s.managedPages
  freePagesCount : t.freePagesCount = s.freePagesCount
  reservedRanges : t.reservedRanges = s.reservedRanges
  ready : t.ready = s.ready
  page : ∀ q, t.metaOf q = s.metaOf q

theorem SameMeta.trans {s t u : Pmm} (h : SameMeta s t) (h' : SameMeta t u) : SameMeta s u where
  numPages := h'.numPages.trans h.numPages
  managedPages := h'.managedPages.trans h.managedPages
  freePagesCount := h'.freePagesCount.trans h.freePagesCount
  reservedRanges := h'.reservedRanges.trans h.reservedRanges
  ready := h'.ready.trans h.ready
  page q := (h'.page q).trans (h.page q)

theorem SameMeta.isFree {s t : Pmm} (h : SameMeta s t) (q : ℕ) :
    (t.pageArray q).isFree = (s.pageArray q).isFree := congrArg (·.2.2.1) (h.page q)

theorem SameMeta.order {s t : Pmm} (h : SameMeta s t) (q : ℕ) :
    (t.pageArray q).order = (s.pageArray q).order := congrArg (·.2.1) (h.page q)

theorem SameMeta.refcount {s t : Pmm} (h : SameMeta s t) (q : ℕ) :
    (t.pageArray q).refcount = (s.pageArray q).refcount := congrArg (·.1) (h.page q)

theorem sameMeta_setFreeList (s : Pmm) (order pfn : ℕ) : SameMeta s (s.setFreeList order pfn) :=
  ⟨rfl, rfl, rfl, rfl, rfl, fun _ => rfl⟩

/-- Rewriting links of one page keeps everything else. -/
theorem sameMeta_modifyPage (s : Pmm) (pfn : ℕ) (f : PmmPage → PmmPage)
    (hf : ∀ p, (f p).refcount = p.refcount ∧ (f p).order = p.order ∧ (f p).isFree = p.isFree ∧
      (f p).flags = p.flags) : SameMeta s (s.modifyPage pfn f) := by
  refine ⟨rfl, rfl, rfl, rfl, rfl, fun q => ?_⟩
  by_cases hq : q = pfn
  · subst hq
    simp [metaOf, modifyPage, hf]
  · simp [metaOf, modifyPage, Function.update_of_ne hq]

theorem nextOf_modifyPage (s : Pmm) (pfn : ℕ) (f : PmmPage → PmmPage) :
    (s.modifyPage pfn f).nextOf = Function.update s.nextOf pfn (f (s.pageArray pfn)).next := by
  funext q
  by_cases hq : q = pfn
  · subst hq
    simp [nextOf, modifyPage]
  · simp [nextOf, modifyPage, hq]

theorem prevOf_modifyPage (s : Pmm) (pfn : ℕ) (f : PmmPage → PmmPage) :
    (s.modifyPage pfn f).prevOf = Function.update s.prevOf pfn (f (s.pageArray pfn)).prev := by
  funext q
  by_cases hq : q = pfn
  · subst hq
    simp [prevOf, modifyPage]
  · simp [prevOf, modifyPage, hq]

@[simp] theorem nextOf_setNext (s : Pmm) (pfn v : ℕ) :
    (s.setNext pfn v).nextOf = Function.update s.nextOf pfn v := nextOf_modifyPage _ _ _

@[simp] theorem prevOf_setNext (s : Pmm) (pfn v : ℕ) : (s.setNext pfn v).prevOf = s.prevOf := by
  rw [setNext, prevOf_modifyPage]
  exact Function.update_eq_self pfn s.prevOf

@[simp] theorem nextOf_setPrev (s : Pmm) (pfn v : ℕ) : (s.setPrev pfn v).nextOf = s.nextOf := by
  rw [setPrev, nextOf_modifyPage]
  exact Function.update_eq_self pfn s.nextOf

@[simp] theorem prevOf_setPrev (s : Pmm) (pfn v : ℕ) :
    (s.setPrev pfn v).prevOf = Function.update s.prevOf pfn v := prevOf_modifyPage _ _ _

@[simp] theorem nextOf_setFreeList (s : Pmm) (order pfn : ℕ) :
    (s.setFreeList order pfn).nextOf = s.nextOf := rfl

@[simp] theorem prevOf_setFreeList (s : Pmm) (order pfn : ℕ) :
    (s.setFreeList order pfn).prevOf = s.prevOf := rfl

@[simp] theorem freeLists_setNext (s : Pmm) (pfn v : ℕ) :
    (s.setNext pfn v).freeLists = s.freeLists := rfl

@[simp] theorem freeLists_setPrev (s : Pmm) (pfn v : ℕ) :
    (s.setPrev pfn v).freeLists = s.freeLists := rfl

@[simp] theorem freeLists_setFreeList (s : Pmm) (order pfn : ℕ) :
    (s.setFreeList order pfn).freeLists = Function.update s.freeLists order pfn := rfl

theorem sameMeta_setNext (s : Pmm) (pfn v : ℕ) : SameMeta s (s.setNext pfn v) :=
  sameMeta_modifyPage s pfn _ fun _ => ⟨rfl, rfl, rfl, rfl⟩

theorem sameMeta_setPrev (s : Pmm) (pfn v : ℕ) : SameMeta s (s.setPrev pfn v) :=
  sameMeta_modifyPage s pfn _ fun _ => ⟨rfl, rfl, rfl, rfl⟩

/-! ## All free lists at once -/

/-- The free list of every order `k` is a doubly linked list of exactly the pages `P · k`. -/
def ListsFor (s : Pmm) (P : ℕ → ℕ → Prop) : Prop :=
  ∀ k ≤ pmmMaxOrder, ∃ l, DList s.nextOf s.prevOf pmmPfnNull (s.freeLists k) l ∧
    ∀ q, q ∈ l ↔ P q k

theorem ListsFor.imp {s : Pmm} {P Q : ℕ → ℕ → Prop} (h : s.ListsFor P)
    (hPQ : ∀ q k, P q k ↔ Q q k) : s.ListsFor Q := fun k hk => by
  obtain ⟨l, hd, hl⟩ := h k hk
  exact ⟨l, hd, fun q => (hl q).trans (hPQ q k)⟩

/-- The lists only depend on the links and the heads. -/
theorem ListsFor.of_links {s t : Pmm} {P : ℕ → ℕ → Prop} (h : s.ListsFor P)
    (hn : ∀ q, t.nextOf q = s.nextOf q) (hp : ∀ q, t.prevOf q = s.prevOf q)
    (hf : t.freeLists = s.freeLists) : t.ListsFor P := fun k hk => by
  obtain ⟨l, hd, hl⟩ := h k hk
  refine ⟨l, ?_, hl⟩
  rw [hf]
  exact hd.congr (fun q _ => hn q) (fun q _ => hp q)

/-- A list whose head is a real page holds it. -/
theorem ListsFor.head_mem {s : Pmm} {P : ℕ → ℕ → Prop} (h : s.ListsFor P) {k : ℕ}
    (hk : k ≤ pmmMaxOrder) (hh : s.freeLists k ≠ pmmPfnNull) : P (s.freeLists k) k := by
  obtain ⟨l, hd, hl⟩ := h k hk
  obtain ⟨xs, hxs⟩ := hd.head_eq hh
  exact (hl _).mp (by simp [hxs])

section Add

variable {s : Pmm} {P : ℕ → ℕ → Prop} {order pfn : ℕ}

theorem nextOf_pmmListAdd :
    (s.pmmListAdd order pfn).nextOf = pushNext s.nextOf (s.freeLists order) pfn := by
  simp only [pmmListAdd, nextOf_setFreeList, pushNext]
  split <;> simp

theorem prevOf_pmmListAdd :
    (s.pmmListAdd order pfn).prevOf = pushPrev s.prevOf pmmPfnNull (s.freeLists order) pfn := by
  simp only [pmmListAdd, prevOf_setFreeList, pushPrev]
  by_cases hh : s.freeLists order = pmmPfnNull <;> simp [hh]

theorem freeLists_pmmListAdd :
    (s.pmmListAdd order pfn).freeLists = Function.update s.freeLists order pfn := by
  simp only [pmmListAdd, freeLists_setFreeList]
  split <;> rfl

theorem sameMeta_pmmListAdd (s : Pmm) (order pfn : ℕ) : SameMeta s (s.pmmListAdd order pfn) := by
  have h1 : SameMeta s ((s.setPrev pfn pmmPfnNull).setNext pfn (s.freeLists order)) :=
    (sameMeta_setPrev _ _ _).trans (sameMeta_setNext _ _ _)
  simp only [pmmListAdd]
  split
  · exact (h1.trans (sameMeta_setPrev _ _ _)).trans (sameMeta_setFreeList _ _ _)
  · exact h1.trans (sameMeta_setFreeList _ _ _)

/-- Linking in a page that is on no list. -/
theorem ListsFor.pmmListAdd (h : s.ListsFor P) (hk : order ≤ pmmMaxOrder)
    (hnull : pfn ≠ pmmPfnNull) (hfresh : ∀ k ≤ pmmMaxOrder, ¬ P pfn k)
    (hfun : ∀ q j k, j ≤ pmmMaxOrder → k ≤ pmmMaxOrder → P q j → P q k → j = k) :
    (s.pmmListAdd order pfn).ListsFor (fun q k => P q k ∨ (q = pfn ∧ k = order)) := by
  obtain ⟨l, hd, hl⟩ := h order hk
  intro k hkm
  by_cases hko : k = order
  · subst hko
    refine ⟨pfn :: l, ?_, fun q => by simp [hl, or_comm]⟩
    have hpush := hd.push hnull (fun hm => hfresh k hk ((hl pfn).mp hm))
    rw [freeLists_pmmListAdd, Function.update_self, nextOf_pmmListAdd, prevOf_pmmListAdd]
    exact hpush
  · obtain ⟨m, hdm, hm⟩ := h k hkm
    refine ⟨m, ?_, fun q => by simp [hm, hko]⟩
    rw [freeLists_pmmListAdd, Function.update_of_ne hko, nextOf_pmmListAdd, prevOf_pmmListAdd]
    -- the pages whose links change are `pfn` and the old head, neither of them on this list
    have hpfn : ∀ q ∈ m, q ≠ pfn := fun q hq he => hfresh k hkm (he ▸ (hm q).mp hq)
    have hold : ∀ q ∈ m, s.freeLists order ≠ pmmPfnNull → q ≠ s.freeLists order := by
      intro q hq hh he
      exact hko (hfun q k order hkm hk ((hm q).mp hq) (he ▸ h.head_mem hk hh))
    refine hdm.congr (fun q hq => ?_) (fun q hq => ?_)
    · rw [pushNext, Function.update_of_ne (hpfn q hq)]
    · rw [pushPrev]
      split
      · rw [Function.update_of_ne (hpfn q hq)]
      · rename_i hh
        rw [Function.update_of_ne (hold q hq hh), Function.update_of_ne (hpfn q hq)]

end Add

section Del

variable {s : Pmm} {P : ℕ → ℕ → Prop} {order pfn : ℕ}

/-- The links after `pmm_list_del`, away from the page itself, whose links are nulled. -/
theorem pmmListDel_links (hhead : s.prevOf pfn = pmmPfnNull → s.freeLists order = pfn) :
    ∃ t, s.pmmListDel order pfn = .ok t ∧ SameMeta s t ∧
      (∀ q, q ≠ pfn → t.nextOf q = unlinkNext s.nextOf s.prevOf pmmPfnNull pfn q) ∧
      (∀ q, q ≠ pfn → t.prevOf q = unlinkPrev s.nextOf s.prevOf pmmPfnNull pfn q) ∧
      t.freeLists = Function.update s.freeLists order
        (unlinkHead s.nextOf s.prevOf pmmPfnNull (s.freeLists order) pfn) := by
  have hprev : (s.pageArray pfn).prev = s.prevOf pfn := rfl
  have hnext : (s.pageArray pfn).next = s.nextOf pfn := rfl
  -- the state once the predecessor, or the list head, points past `pfn`
  obtain ⟨u, hu, hsame, hnx, hpv, hfl⟩ : ∃ u : Pmm,
      (if s.prevOf pfn = pmmPfnNull then
        if s.freeLists order ≠ pfn then .error "pmm: free page is not on the list it claims"
        else .ok (s.setFreeList order (s.nextOf pfn))
      else .ok (s.setNext (s.prevOf pfn) (s.nextOf pfn)) : Except Panic Pmm) = .ok u ∧
      SameMeta s u ∧ u.nextOf = unlinkNext s.nextOf s.prevOf pmmPfnNull pfn ∧
      u.prevOf = s.prevOf ∧ u.freeLists = Function.update s.freeLists order
        (unlinkHead s.nextOf s.prevOf pmmPfnNull (s.freeLists order) pfn) := by
    by_cases hp : s.prevOf pfn = pmmPfnNull
    · refine ⟨_, by rw [if_pos hp, if_neg (not_not.mpr (hhead hp))], sameMeta_setFreeList _ _ _,
        ?_, rfl, ?_⟩
      · simp [unlinkNext, hp]
      · simp [unlinkHead, hp]
    · refine ⟨_, by rw [if_neg hp], sameMeta_setNext _ _ _, ?_, prevOf_setNext _ _ _, ?_⟩
      · simp [unlinkNext, hp]
      · simp [unlinkHead, hp]
  refine ⟨((if s.nextOf pfn ≠ pmmPfnNull then u.setPrev (s.nextOf pfn) (s.prevOf pfn)
    else u).setNext pfn pmmPfnNull).setPrev pfn pmmPfnNull, ?_, ?_, ?_, ?_, ?_⟩
  · simp only [Pmm.pmmListDel, hprev, hnext, hu]
    rfl
  · refine SameMeta.trans ?_ ((sameMeta_setNext _ _ _).trans (sameMeta_setPrev _ _ _))
    split
    · exact hsame.trans (sameMeta_setPrev _ _ _)
    · exact hsame
  · intro q hq
    rw [nextOf_setPrev, nextOf_setNext, Function.update_of_ne hq, ← hnx]
    split <;> simp
  · intro q hq
    rw [prevOf_setPrev, Function.update_of_ne hq, prevOf_setNext, unlinkPrev]
    by_cases hn : s.nextOf pfn = pmmPfnNull <;> simp [hn, hpv]
  · rw [freeLists_setPrev, freeLists_setNext, ← hfl]
    split <;> simp

/-- Unlinking a page that is on the list of `order`. It does not panic, and every list
loses exactly that page. -/
theorem ListsFor.pmmListDel (h : s.ListsFor P) (hk : order ≤ pmmMaxOrder) (hP : P pfn order)
    (hfun : ∀ q j k, j ≤ pmmMaxOrder → k ≤ pmmMaxOrder → P q j → P q k → j = k) :
    ∃ t, s.pmmListDel order pfn = .ok t ∧ SameMeta s t ∧
      t.ListsFor (fun q k => P q k ∧ q ≠ pfn) := by
  obtain ⟨l, hd, hl⟩ := h order hk
  have hmem : pfn ∈ l := (hl pfn).mpr hP
  have hprev := hd.prev_mem hmem
  have hnext := hd.next_mem hmem
  obtain ⟨t, ht, hsame, hnx, hpv, hfl⟩ := pmmListDel_links (hd.prev_eq_null_iff hmem).mp
  refine ⟨t, ht, hsame, fun k hkm => ?_⟩
  by_cases hko : k = order
  · subst hko
    refine ⟨l.erase pfn, ?_, fun q => by rw [hd.1.mem_erase_iff, hl]; tauto⟩
    rw [hfl, Function.update_self]
    have hne : ∀ q ∈ l.erase pfn, q ≠ pfn := fun q hq => (hd.1.mem_erase_iff.mp hq).1
    exact (hd.unlink hmem).congr (fun q hq => hnx q (hne q hq)) (fun q hq => hpv q (hne q hq))
  · obtain ⟨m, hdm, hm⟩ := h k hkm
    have hout : ∀ q ∈ m, q ∉ l := fun q hq hql =>
      hko (hfun q k order hkm hk ((hm q).mp hq) ((hl q).mp hql))
    have hne : ∀ q ∈ m, q ≠ pfn := fun q hq he => hout q hq (he ▸ hmem)
    refine ⟨m, ?_, fun q => ?_⟩
    · rw [hfl, Function.update_of_ne hko]
      refine hdm.congr (fun q hq => ?_) (fun q hq => ?_)
      · rw [hnx q (hne q hq), unlinkNext]
        split
        · rfl
        · rename_i hp
          rw [Function.update_of_ne]
          rintro rfl
          exact hout _ hq (hprev.resolve_left hp)
      · rw [hpv q (hne q hq), unlinkPrev]
        split
        · rfl
        · rename_i hn
          rw [Function.update_of_ne]
          rintro rfl
          exact hout _ hq (hnext.resolve_left hn)
    · rw [hm]
      exact ⟨fun hq => ⟨hq, hne q ((hm q).mpr hq)⟩, fun hq => hq.1⟩

end Del

end Perspicua.Mm.Pmm
