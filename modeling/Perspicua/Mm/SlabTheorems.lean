import Perspicua.Lib.Except
import Perspicua.Mm.Slab

/-!
# The slab allocator hands out distinct objects

`Slab.Inv` says what `slab.c` relies on: the free list of a page holds distinct unused
objects, `in_use_count` counts the used ones, and a page is in the list of its class that
its free list decides. Under it no function panics, and the objects in use (`Slab.Used`)
change by one object a call.
-/

namespace Perspicua.Mm

open Perspicua.Lib

/-! ## Classes and slots -/

theorem sizeToClassIndex_spec {size idx : ℕ} (h : sizeToClassIndex size = some idx) :
    idx < slabNumClasses ∧ size ≤ objectSize idx := by
  obtain ⟨hlt, hle, -⟩ := List.findIdx?_eq_some_iff_getElem.mp h
  refine ⟨hlt, ?_⟩
  rw [objectSize, List.getD_eq_getElem _ _ hlt]
  simpa using hle

/-- What `slab_init` and `slab_grow` check of a class, and how its objects lie in a page. -/
structure ClassFits (idx : ℕ) : Prop where
  large : 16 ≤ objectSize idx
  size : objectSize idx % 16 = 0
  start : slotStartOf (objectSize idx) % 16 = 0
  fits : slotStartOf (objectSize idx) + slotCountOf (objectSize idx) * objectSize idx ≤ pageSize
  some : slotCountOf (objectSize idx) ≠ 0
  few : slotCountOf (objectSize idx) ≤ slabMaxSlots

theorem classFits {idx : ℕ} (h : idx < slabNumClasses) : ClassFits idx := by
  have hall : ∀ i < slabNumClasses, 16 ≤ objectSize i ∧ objectSize i % 16 = 0 ∧
      slotStartOf (objectSize i) % 16 = 0 ∧
      slotStartOf (objectSize i) + slotCountOf (objectSize i) * objectSize i ≤ pageSize ∧
      slotCountOf (objectSize i) ≠ 0 ∧ slotCountOf (objectSize i) ≤ slabMaxSlots := by decide
  obtain ⟨h1, h2, h3, h4, h5, h6⟩ := hall idx h
  exact ⟨h1, h2, h3, h4, h5, h6⟩

theorem ptrToSlab_add {sp off : ℕ} (hsp : sp % pageSize = 0) (hoff : off < pageSize) :
    ptrToSlab (sp + off) = sp := by
  unfold ptrToSlab pageSize at *
  omega

/-! ## One page -/

namespace SlabPage

/-- The address of an object. -/
def object (p : SlabPage) (sp slot : ℕ) : ℕ := sp + p.slotStart + slot * objectSize p.classIdx

structure Ok (p : SlabPage) (sp : ℕ) : Prop where
  magic : p.magic = slabMagic
  idx : p.classIdx < slabNumClasses
  start : p.slotStart = slotStartOf (objectSize p.classIdx)
  slots : p.totalSlots = slotCountOf (objectSize p.classIdx)
  nodup : p.freeList.Nodup
  free : ∀ obj ∈ p.freeList,
    p.canary obj = slabFreePoison ∧ ∃ k < p.totalSlots, p.used k = false ∧ obj = p.object sp k
  count : p.inUseCount = ((Finset.range p.totalSlots).filter (p.used · = true)).card

variable {p : SlabPage} {sp ptr slot : ℕ}

theorem slotOf_eq_some (hpos : 0 < objectSize p.classIdx) :
    p.slotOf sp ptr = some slot ↔ slot < p.totalSlots ∧ ptr = p.object sp slot := by
  unfold slotOf object
  simp only
  constructor
  · intro h
    split at h
    · simp at h
    · split at h
      · simp at h
      · split at h
        · simp at h
        · rename_i hbase hmod htotal
          have hslot := Option.some.inj h
          subst hslot
          refine ⟨Nat.lt_of_not_le htotal, ?_⟩
          rw [Nat.div_mul_cancel (Nat.dvd_of_mod_eq_zero (not_not.mp hmod))]
          omega
  · rintro ⟨hslot, rfl⟩
    rw [if_neg (by omega), Nat.add_sub_cancel_left, Nat.mul_mod_left, Nat.mul_div_cancel _ hpos,
      if_neg (by simp), if_neg (Nat.not_le.mpr hslot)]

/-- Two objects of a page do not overlap. -/
theorem objects_disjoint {k : ℕ} (hk : slot ≠ k) (x : ℕ)
    (hx : Extent.Has ⟨p.object sp slot, objectSize p.classIdx⟩ x) :
    ¬ Extent.Has ⟨p.object sp k, objectSize p.classIdx⟩ x := by
  unfold Extent.Has object at *
  simp only at *
  rcases Nat.lt_or_gt_of_ne hk with hlt | hlt
  · have := Nat.mul_le_mul_right (objectSize p.classIdx) (Nat.succ_le_of_lt hlt)
    rw [Nat.succ_mul] at this
    omega
  · have := Nat.mul_le_mul_right (objectSize p.classIdx) (Nat.succ_le_of_lt hlt)
    rw [Nat.succ_mul] at this
    omega

namespace Ok

variable (h : p.Ok sp)

include h

theorem pos : 0 < objectSize p.classIdx := by
  have := (classFits h.idx).large
  omega

theorem object_injective {k : ℕ} (hk : p.object sp slot = p.object sp k) : slot = k := by
  unfold object at hk
  exact Nat.eq_of_mul_eq_mul_right h.pos (by omega)

/-- An object is behind the header and ends in the page. -/
theorem object_bounds (hslot : slot < p.totalSlots) :
    sp ≤ p.object sp slot ∧ p.object sp slot + objectSize p.classIdx ≤ sp + pageSize := by
  have hfits := (classFits h.idx).fits
  have hmul : (slot + 1) * objectSize p.classIdx ≤ p.totalSlots * objectSize p.classIdx :=
    Nat.mul_le_mul_right _ hslot
  rw [Nat.add_mul, Nat.one_mul, h.slots] at hmul
  unfold object
  rw [h.start]
  omega

theorem ptrToSlab_object (hsp : sp % pageSize = 0) (hslot : slot < p.totalSlots) :
    ptrToSlab (p.object sp slot) = sp := by
  obtain ⟨hle, hlt⟩ := h.object_bounds hslot
  have hpos := h.pos
  rw [← Nat.add_sub_cancel' hle]
  exact ptrToSlab_add hsp (by omega)

theorem object_aligned (hsp : sp % pageSize = 0) : p.object sp slot % 16 = 0 := by
  have hf := classFits h.idx
  have hmul : slot * objectSize p.classIdx % 16 = 0 := by
    rw [Nat.mul_mod, hf.size, Nat.mul_zero, Nat.zero_mod]
  have hstart := hf.start
  unfold object
  rw [h.start]
  unfold pageSize at hsp
  omega

/-- Without objects in use no slot is marked. -/
theorem used_false (hcount : p.inUseCount = 0) (hslot : slot < p.totalSlots) :
    p.used slot = false := by
  have hcard := h.count
  rw [hcount] at hcard
  have hempty := Finset.card_eq_zero.mp hcard.symm
  have hmem := Finset.filter_eq_empty_iff.mp hempty (Finset.mem_range.mpr hslot)
  simpa using hmem

theorem pop {obj : ℕ} {rest : List ℕ} (hfree : p.freeList = obj :: rest)
    (hslot : slot < p.totalSlots) (hused : p.used slot = false) (hobj : obj = p.object sp slot) :
    (p.pop slot obj rest).Ok sp := by
  have hnodup := h.nodup
  rw [hfree, List.nodup_cons] at hnodup
  refine ⟨h.magic, h.idx, h.start, h.slots, hnodup.2, ?_, ?_⟩
  · intro o ho
    obtain ⟨hcanary, k, hk, hku, hko⟩ := h.free o (hfree ▸ List.mem_cons_of_mem _ ho)
    have hne : o ≠ obj := by
      intro heq
      exact hnodup.1 (heq ▸ ho)
    have hkslot : k ≠ slot := by
      intro heq
      exact hne (by rw [hko, hobj, heq])
    refine ⟨?_, k, hk, ?_, hko⟩
    · exact (Function.update_of_ne hne _ _).trans hcanary
    · exact (Function.update_of_ne hkslot _ _).trans hku
  · have hins : (Finset.range p.totalSlots).filter (Function.update p.used slot true · = true) =
        insert slot ((Finset.range p.totalSlots).filter (p.used · = true)) := by
      ext k
      by_cases hk : k = slot
      · simp [hk, hslot]
      · simp [hk]
    show p.inUseCount + 1 =
      ((Finset.range p.totalSlots).filter (Function.update p.used slot true · = true)).card
    rw [hins, Finset.card_insert_of_notMem (by simp [hused]), h.count]

theorem push (hslot : slot < p.totalSlots) (hused : p.used slot = true)
    (hptr : ptr = p.object sp slot) :
    (p.push slot ptr).Ok sp := by
  -- an object on the free list is not in use
  have hne : ∀ o ∈ p.freeList, o ≠ ptr := by
    rintro o ho rfl
    obtain ⟨-, k, -, hku, hko⟩ := h.free o ho
    rw [h.object_injective (hptr.symm.trans hko), hku] at hused
    exact Bool.noConfusion hused
  refine ⟨h.magic, h.idx, h.start, h.slots,
    List.nodup_cons.mpr ⟨fun hmem => hne ptr hmem rfl, h.nodup⟩, ?_, ?_⟩
  · intro o ho
    rcases List.mem_cons.mp ho with rfl | ho
    · refine ⟨?_, slot, hslot, ?_, hptr⟩
      · exact Function.update_self _ _ _
      · exact Function.update_self _ _ _
    · obtain ⟨hcanary, k, hk, hku, hko⟩ := h.free o ho
      have hkslot : k ≠ slot := by
        intro heq
        exact hne o ho (by rw [hko, hptr, heq])
      refine ⟨?_, k, hk, ?_, hko⟩
      · exact (Function.update_of_ne (hne o ho) _ _).trans hcanary
      · exact (Function.update_of_ne hkslot _ _).trans hku
  · have hera : (Finset.range p.totalSlots).filter (Function.update p.used slot false · = true) =
        ((Finset.range p.totalSlots).filter (p.used · = true)).erase slot := by
      ext k
      by_cases hk : k = slot
      · simp [hk]
      · simp [hk]
    show p.inUseCount - 1 =
      ((Finset.range p.totalSlots).filter (Function.update p.used slot false · = true)).card
    rw [hera, Finset.card_erase_of_mem (by simp [hslot, hused]), h.count]

end Ok

theorem carve_ok {idx : ℕ} (hidx : idx < slabNumClasses) : (carve sp idx).Ok sp where
  magic := rfl
  idx := hidx
  start := rfl
  slots := rfl
  nodup := by
    refine List.nodup_reverse.mpr (List.nodup_range.map ?_)
    intro j k hjk
    have := (classFits hidx).large
    exact Nat.eq_of_mul_eq_mul_right (by omega) (Nat.add_left_cancel hjk)
  free obj hobj := by
    obtain ⟨k, hk, rfl⟩ := List.mem_map.mp (List.mem_reverse.mp hobj)
    exact ⟨rfl, k, List.mem_range.mp hk, rfl, rfl⟩
  count := by simp [carve]

theorem carve_freeList_ne_nil {idx : ℕ} (hidx : idx < slabNumClasses) :
    (carve sp idx).freeList ≠ [] := by
  have := (classFits hidx).some
  simp [carve, this]

end SlabPage

/-! ## The lists of a class -/

/-- A class in which only the place of one page changes. -/
structure SlabClass.Moves (c c' : SlabClass) (sp : ℕ) (inPartial inFull : Prop) : Prop where
  nodup : c'.partialList.Nodup ∧ c'.fullList.Nodup
  others : ∀ a, a ≠ sp → (a ∈ c'.partialList ↔ a ∈ c.partialList) ∧
    (a ∈ c'.fullList ↔ a ∈ c.fullList)
  inPartial : sp ∈ c'.partialList ↔ inPartial
  inFull : sp ∈ c'.fullList ↔ inFull

theorem SlabClass.Moves.trans {c c' c'' : SlabClass} {sp : ℕ}
    {inPartial inFull inPartial' inFull' : Prop}
    (h : c.Moves c' sp inPartial inFull) (h' : c'.Moves c'' sp inPartial' inFull') :
    c.Moves c'' sp inPartial' inFull' where
  nodup := h'.nodup
  others a ha := ⟨(h'.others a ha).1.trans (h.others a ha).1,
    (h'.others a ha).2.trans (h.others a ha).2⟩
  inPartial := h'.inPartial
  inFull := h'.inFull

namespace Slab

variable {managed : ℕ → Bool} {s s' : Slab} {sp ptr n idx : ℕ}

@[simp] theorem setPage_page (p : SlabPage) :
    (s.setPage sp p).page = Function.update s.page sp p := rfl

@[simp] theorem setPage_classes (p : SlabPage) : (s.setPage sp p).classes = s.classes := rfl

@[simp] theorem setPage_isSlab (p : SlabPage) : (s.setPage sp p).isSlab = s.isSlab := rfl

@[simp] theorem setClass_page (c : SlabClass) : (s.setClass idx c).page = s.page := rfl

@[simp] theorem setClass_classes (c : SlabClass) :
    (s.setClass idx c).classes = Function.update s.classes idx c := rfl

@[simp] theorem setClass_isSlab (c : SlabClass) : (s.setClass idx c).isSlab = s.isSlab := rfl

@[simp] theorem releasePage_page : (s.releasePage sp).page = s.page := rfl

@[simp] theorem releasePage_classes : (s.releasePage sp).classes = s.classes := rfl

@[simp] theorem releasePage_isSlab :
    (s.releasePage sp).isSlab = Function.update s.isSlab sp false := rfl

structure Inv (s : Slab) : Prop where
  page : ∀ sp, s.isSlab sp = true → 0 < sp ∧ sp % pageSize = 0 ∧ (s.page sp).Ok sp
  nodup : ∀ i, (s.classes i).partialList.Nodup ∧ (s.classes i).fullList.Nodup
  inPartial : ∀ i sp, sp ∈ (s.classes i).partialList ↔
    s.isSlab sp = true ∧ (s.page sp).classIdx = i ∧ (s.page sp).freeList ≠ []
  inFull : ∀ i sp, sp ∈ (s.classes i).fullList ↔
    s.isSlab sp = true ∧ (s.page sp).classIdx = i ∧ (s.page sp).freeList = []

/-- One page and its place in the lists of its class change. -/
theorem Inv.change (h : s.Inv) (sp idx : ℕ)
    (hidx : s.isSlab sp = true → (s.page sp).classIdx = idx)
    (hidx' : (s'.page sp).classIdx = idx) (hpage : ∀ a, a ≠ sp → s'.page a = s.page a)
    (hslab : ∀ a, a ≠ sp → s'.isSlab a = s.isSlab a)
    (hsp : s'.isSlab sp = true → 0 < sp ∧ sp % pageSize = 0 ∧ (s'.page sp).Ok sp)
    (hclasses : ∀ i, i ≠ idx → s'.classes i = s.classes i)
    (hclass : (s.classes idx).Moves (s'.classes idx) sp
      (s'.isSlab sp = true ∧ (s'.page sp).freeList ≠ [])
      (s'.isSlab sp = true ∧ (s'.page sp).freeList = [])) : s'.Inv where
  page a ha := by
    by_cases hne : a = sp
    · rw [hne] at ha ⊢
      exact hsp ha
    · rw [hslab a hne] at ha
      rw [hpage a hne]
      exact h.page a ha
  nodup i := by
    by_cases hi : i = idx
    · rw [hi]
      exact hclass.nodup
    · rw [hclasses i hi]
      exact h.nodup i
  inPartial i a := by
    by_cases hi : i = idx
    · by_cases hne : a = sp
      · rw [hi, hne, hclass.inPartial, hidx']
        simp
      · rw [hi, (hclass.others a hne).1, hslab a hne, hpage a hne, h.inPartial]
    · rw [hclasses i hi, h.inPartial]
      by_cases hne : a = sp
      · rw [hne, hidx']
        refine iff_of_false ?_ (fun hc => hi hc.2.1.symm)
        exact fun hc => hi (hc.2.1.symm.trans (hidx hc.1))
      · rw [hslab a hne, hpage a hne]
  inFull i a := by
    by_cases hi : i = idx
    · by_cases hne : a = sp
      · rw [hi, hne, hclass.inFull, hidx']
        simp
      · rw [hi, (hclass.others a hne).2, hslab a hne, hpage a hne, h.inFull]
    · rw [hclasses i hi, h.inFull]
      by_cases hne : a = sp
      · rw [hne, hidx']
        refine iff_of_false ?_ (fun hc => hi hc.2.1.symm)
        exact fun hc => hi (hc.2.1.symm.trans (hidx hc.1))
      · rw [hslab a hne, hpage a hne]

theorem covers_held (h : s.Inv) (hsp : s.isSlab sp = true) {x : ℕ}
    (hx : Extent.Has ⟨sp, pageSize⟩ x) : Extent.Covers s.held x := by
  refine ⟨⟨sp, pageSize⟩, List.mem_map.mpr ⟨sp, ?_, rfl⟩, hx⟩
  have hidx := (h.page sp hsp).2.2.idx
  refine List.mem_flatMap.mpr ⟨(s.page sp).classIdx, List.mem_range.mpr hidx, ?_⟩
  rw [List.mem_append]
  by_cases hfree : (s.page sp).freeList = []
  · exact .inr ((h.inFull _ _).mpr ⟨hsp, rfl, hfree⟩)
  · exact .inl ((h.inPartial _ _).mpr ⟨hsp, rfl, hfree⟩)

theorem empty_inv : empty.Inv := by
  refine ⟨?_, ?_, ?_, ?_⟩ <;> simp [empty]

/-! ## Objects in use -/

/-- The pointer is an object in use, for a request of `n` bytes. -/
def Used (s : Slab) (ptr n : ℕ) : Prop :=
  s.isSlab (ptrToSlab ptr) = true ∧ n ≤ objectSize (s.page (ptrToSlab ptr)).classIdx ∧
    ∃ slot < (s.page (ptrToSlab ptr)).totalSlots,
      (s.page (ptrToSlab ptr)).used slot = true ∧
      ptr = (s.page (ptrToSlab ptr)).object (ptrToSlab ptr) slot

theorem used_iff (hsp : ptrToSlab ptr = sp) :
    s.Used ptr n ↔ s.isSlab sp = true ∧ n ≤ objectSize (s.page sp).classIdx ∧
      ∃ slot < (s.page sp).totalSlots, (s.page sp).used slot = true ∧
        ptr = (s.page sp).object sp slot := by
  rw [← hsp]
  rfl

/-- What the allocator may have become while it handed out memory that is not in `held`. -/
structure Extends (held : List Extent) (s s' : Slab) : Prop where
  used : ∀ q n, s.Used q n → s'.Used q n
  pages : ∀ a, s'.isSlab a = true → s.isSlab a = true ∨
    ∀ x, Extent.Has ⟨a, pageSize⟩ x → ¬ Extent.Covers held x

theorem Extends.trans {held : List Extent} {s'' : Slab} (h : Extends held s s')
    (h' : Extends held s' s'') : Extends held s s'' where
  used q n hq := h'.used q n (h.used q n hq)
  pages a ha := (h'.pages a ha).elim (h.pages a) .inr

/-- The state of an object is read from its page only. -/
theorem Used.congr (hu : s.Used ptr n) (hslab : s'.isSlab (ptrToSlab ptr) = true)
    (hpage : s'.page (ptrToSlab ptr) = s.page (ptrToSlab ptr)) : s'.Used ptr n := by
  unfold Used at *
  rw [hpage]
  exact ⟨hslab, hu.2⟩

namespace Used

variable (hu : s.Used ptr n) (h : s.Inv)

include hu h

theorem aligned : ptr % 16 = 0 := by
  obtain ⟨hslab, -, slot, -, -, hptr⟩ := hu
  obtain ⟨-, hsp, hok⟩ := h.page _ hslab
  rw [hptr]
  exact hok.object_aligned hsp

theorem pos : 0 < ptr := by
  obtain ⟨hslab, -, slot, hslot, -, hptr⟩ := hu
  obtain ⟨hpos, -, hok⟩ := h.page _ hslab
  have := (hok.object_bounds hslot).1
  rw [hptr]
  omega

theorem owns : s.owns ptr = true := by
  have := hu.pos h
  simp only [Slab.owns, decide_eq_true_eq]
  exact ⟨by omega, hu.1⟩

theorem le_size : n ≤ s.testObjectSize ptr := by
  rw [testObjectSize, if_pos (hu.owns h)]
  exact hu.2.1

/-- An object lies in its page. -/
theorem has_page {x : ℕ} (hx : Extent.Has ⟨ptr, s.testObjectSize ptr⟩ x) :
    Extent.Has ⟨ptrToSlab ptr, pageSize⟩ x := by
  rw [testObjectSize, if_pos (hu.owns h)] at hx
  obtain ⟨hslab, -, slot, hslot, -, hptr⟩ := hu
  have hb := (h.page _ hslab).2.2.object_bounds hslot
  rw [← hptr] at hb
  unfold Extent.Has at *
  simp only at *
  omega

/-- Two objects in use do not overlap. -/
theorem disjoint {q m : ℕ} (hq : s.Used q m) (hne : ptr ≠ q) (x : ℕ)
    (hx : Extent.Has ⟨ptr, s.testObjectSize ptr⟩ x) :
    ¬ Extent.Has ⟨q, s.testObjectSize q⟩ x := by
  intro hqx
  -- both are in the page that holds the address
  have hsame : ptrToSlab ptr = ptrToSlab q := by
    have h1 := hu.has_page h hx
    have h2 := hq.has_page h hqx
    unfold Extent.Has ptrToSlab pageSize at *
    simp only at *
    omega
  rw [testObjectSize, if_pos (hu.owns h)] at hx
  rw [testObjectSize, if_pos (hq.owns h), ← hsame] at hqx
  obtain ⟨hslab, -, slot, hslot, -, hptr⟩ := hu
  obtain ⟨-, -, k, hk, -, hqk⟩ := hq
  rw [← hsame] at hqk
  have hsk : slot ≠ k := by
    intro heq
    exact hne (by rw [hptr, hqk, heq])
  have hdisj := @SlabPage.objects_disjoint (s.page (ptrToSlab ptr)) (ptrToSlab ptr) slot k hsk x
  rw [← hptr, ← hqk] at hdisj
  exact hdisj hx hqx

end Used

/-! ## The functions -/

/-- The class with a new first page. -/
theorem moves_push {c : SlabClass} {inPartial inFull : Prop}
    (hp : c.partialList.Nodup) (hf : c.fullList.Nodup) (hnp : sp ∉ c.partialList)
    (hnf : sp ∉ c.fullList) (hin : inPartial) (hout : ¬ inFull) :
    c.Moves { c with partialList := sp :: c.partialList } sp inPartial inFull where
  nodup := ⟨List.nodup_cons.mpr ⟨hnp, hp⟩, hf⟩
  others a ha := by simp [ha]
  inPartial := by simp [hin]
  inFull := iff_of_false hnf hout

/-- The first page has no free object any more. -/
theorem moves_full {c : SlabClass} {rest : List ℕ} {inPartial inFull : Prop}
    (hp : c.partialList.Nodup) (hf : c.fullList.Nodup) (hhead : c.partialList = sp :: rest)
    (hnf : sp ∉ c.fullList) (hout : ¬ inPartial) (hin : inFull) :
    c.Moves ⟨c.partialList.tail, sp :: c.fullList⟩ sp inPartial inFull := by
  rw [hhead, List.nodup_cons] at hp
  refine ⟨⟨?_, List.nodup_cons.mpr ⟨hnf, hf⟩⟩, ?_, ?_, ?_⟩
  · rw [hhead]
    exact hp.2
  · intro a ha
    simp [hhead, ha]
  · rw [hhead]
    exact iff_of_false hp.1 hout
  · simp [hin]

/-- The page stays where it is. -/
theorem moves_refl {c : SlabClass} {inPartial inFull : Prop} (hp : c.partialList.Nodup)
    (hf : c.fullList.Nodup) (hinp : sp ∈ c.partialList ↔ inPartial)
    (hinf : sp ∈ c.fullList ↔ inFull) : c.Moves c sp inPartial inFull :=
  ⟨⟨hp, hf⟩, fun _ _ => ⟨Iff.rfl, Iff.rfl⟩, hinp, hinf⟩

/-- A full page is unlinked. -/
theorem moves_eraseFull {c : SlabClass} {inPartial inFull : Prop} (hp : c.partialList.Nodup)
    (hf : c.fullList.Nodup) (hinp : sp ∈ c.partialList ↔ inPartial) (hout : ¬ inFull) :
    c.Moves { c with fullList := c.fullList.erase sp } sp inPartial inFull where
  nodup := ⟨hp, hf.erase sp⟩
  others _ ha := ⟨Iff.rfl, List.mem_erase_of_ne ha⟩
  inPartial := hinp
  inFull := iff_of_false hf.not_mem_erase hout

/-- A partial page is unlinked. -/
theorem moves_erasePartial {c : SlabClass} {inPartial inFull : Prop} (hp : c.partialList.Nodup)
    (hf : c.fullList.Nodup) (hout : ¬ inPartial) (hinf : sp ∈ c.fullList ↔ inFull) :
    c.Moves { c with partialList := c.partialList.erase sp } sp inPartial inFull where
  nodup := ⟨hp.erase sp, hf⟩
  others _ ha := ⟨List.mem_erase_of_ne ha, Iff.rfl⟩
  inPartial := iff_of_false hp.not_mem_erase hout
  inFull := hinf

/-- A page keeps its class while its header and its place change. -/
theorem Inv.put (h : s.Inv) {p : SlabPage} {c : SlabClass} (hslab : s.isSlab sp = true)
    (hok : p.Ok sp) (hidx : (s.page sp).classIdx = idx) (hp : p.classIdx = idx)
    (hc : (s.classes idx).Moves c sp (p.freeList ≠ []) (p.freeList = [])) :
    ((s.setPage sp p).setClass idx c).Inv := by
  obtain ⟨hpos, hmod, -⟩ := h.page sp hslab
  refine h.change sp idx (fun _ => hidx) (by simpa using hp) ?_ (fun _ _ => rfl) ?_ ?_ ?_
  · intro a ha
    simp [ha]
  · intro _
    simpa using ⟨hpos, hmod, hok⟩
  · intro i hi
    simp [hi]
  · simpa [hslab] using hc

/-- A page leaves its class. -/
theorem Inv.drop (h : s.Inv) {p : SlabPage} {c : SlabClass}
    (hidx : (s.page sp).classIdx = idx) (hp : p.classIdx = idx)
    (hc : (s.classes idx).Moves c sp False False) :
    (((s.setPage sp p).setClass idx c).releasePage sp).Inv := by
  refine h.change sp idx (fun _ => hidx) (by simpa using hp) ?_ ?_ ?_ ?_ ?_
  · intro a ha
    simp [ha]
  · intro a ha
    simp [ha]
  · intro hsp
    simp at hsp
  · intro i hi
    simp [hi]
  · simpa using hc

theorem grow_spec (h : s.Inv) (pmm : PageSource managed) {held : List Extent}
    (hheld : ∀ x, Extent.Covers s.held x → Extent.Covers held x) (hidx : idx < slabNumClasses) :
    s.grow pmm held idx = .ok none ∨
    ∃ sp s', s.grow pmm held idx = .ok (some (sp, s')) ∧ s'.Inv ∧ Extends held s s' ∧
      (s'.classes idx).partialList = sp :: (s.classes idx).partialList := by
  unfold grow
  cases halloc : pmm.alloc 1 held with
  | none => exact .inl rfl
  | some sp =>
    obtain ⟨hpos, hmod, hfresh⟩ := pmm.fresh halloc
    rw [Nat.one_mul] at hfresh
    have hfits := classFits hidx
    -- the page is new to the allocator
    have hnew : s.isSlab sp = false := by
      rw [← Bool.not_eq_true]
      intro hsp
      have hx : Extent.Has ⟨sp, pageSize⟩ sp := by
        unfold Extent.Has pageSize
        simp
      exact (hfresh sp hx).2 (hheld sp (covers_held h hsp hx))
    have hnp : ∀ i, sp ∉ (s.classes i).partialList := fun i hc => by
      simp [h.inPartial, hnew] at hc
    have hnf : ∀ i, sp ∉ (s.classes i).fullList := fun i hc => by
      simp [h.inFull, hnew] at hc
    have htotal : (SlabPage.carve sp idx).totalSlots = slotCountOf (objectSize idx) := rfl
    simp only [htotal]
    rw [if_neg hfits.some, if_neg (Nat.not_lt.mpr hfits.few)]
    refine .inr ⟨sp, _, rfl, ?_, ?_, by simp⟩
    · refine h.change sp idx (fun hc => by simp [hnew] at hc) (by simp [SlabPage.carve])
        ?_ ?_ ?_ ?_ ?_
      · intro a ha
        simp [ha]
      · intro a ha
        simp [ha]
      · intro _
        simpa using ⟨hpos, hmod, SlabPage.carve_ok hidx⟩
      · intro i hi
        simp [hi]
      · have hne := @SlabPage.carve_freeList_ne_nil sp idx hidx
        simpa using
          moves_push (h.nodup idx).1 (h.nodup idx).2 (hnp idx) (hnf idx)
            (by simp [hne]) (by simp [hne])
    · refine ⟨?_, ?_⟩
      · intro q m hq
        have hqsp : ptrToSlab q ≠ sp := by
          intro heq
          have := hq.1
          rw [heq, hnew] at this
          exact Bool.noConfusion this
        exact hq.congr (by simpa [hqsp] using hq.1)
          (by simp [hqsp])
      · intro a ha
        by_cases hne : a = sp
        · right
          intro x hx
          rw [hne] at hx
          exact (hfresh x hx).2
        · left
          simpa [hne] using ha

theorem take_spec (h : s.Inv) (held : List Extent) {rest : List ℕ}
    (hhead : (s.classes idx).partialList = sp :: rest) :
    ∃ ptr s', s.take idx sp = .ok (ptr, s') ∧ s'.Inv ∧ Extends held s s' ∧
      (∀ m, ¬ s.Used ptr m) ∧ ∀ m ≤ objectSize idx, s'.Used ptr m := by
  have hmem : sp ∈ (s.classes idx).partialList := by simp [hhead]
  obtain ⟨hslab, hidx, hne⟩ := (h.inPartial idx sp).mp hmem
  obtain ⟨-, hmod, hok⟩ := h.page sp hslab
  obtain ⟨obj, objs, hfree⟩ := List.exists_cons_of_ne_nil hne
  obtain ⟨hcanary, slot, hslot, hunused, hobj⟩ := hok.free obj (by simp [hfree])
  have hback : ptrToSlab obj = sp := by
    rw [hobj]
    exact hok.ptrToSlab_object hmod hslot
  have hnf : sp ∉ (s.classes idx).fullList := by
    intro hc
    exact hne ((h.inFull idx sp).mp hc).2.2
  have hok' := hok.pop hfree hslot hunused hobj
  -- whatever list the page is in now, the state is this one
  obtain ⟨c, hres, hc⟩ : ∃ c, s.take idx sp =
      .ok (obj, (s.setPage sp ((s.page sp).pop slot obj objs)).setClass idx c) ∧
      (s.classes idx).Moves c sp (objs ≠ []) (objs = []) := by
    have hnd := h.nodup idx
    rw [take, hfree]
    simp only [(SlabPage.slotOf_eq_some hok.pos).mpr ⟨hslot, hobj⟩, hcanary, ne_eq,
      not_true_eq_false, if_false]
    by_cases hobjs : objs = []
    · rw [if_pos hobjs]
      exact ⟨_, rfl, moves_full hnd.1 hnd.2 hhead hnf (by simp [hobjs]) hobjs⟩
    · rw [if_neg hobjs]
      refine ⟨s.classes idx, ?_, moves_refl hnd.1 hnd.2 (by simp [hmem, hobjs])
        (by simp [hnf, hobjs])⟩
      simp [setClass, setPage]
  refine ⟨obj, _, hres, h.put hslab hok' hidx hidx hc, ⟨?_, fun a ha => .inl ha⟩, ?_, ?_⟩
  · -- an object in use stays in use
    intro q m hq
    by_cases hqsp : ptrToSlab q = sp
    · obtain ⟨-, hm, k, hk, hku, hqk⟩ := (used_iff hqsp).mp hq
      rw [used_iff hqsp, setClass_page, setPage_page, Function.update_self]
      refine ⟨hslab, hm, k, hk, ?_, hqk⟩
      by_cases hks : k = slot
      · simp [SlabPage.pop, hks]
      · simp [SlabPage.pop, hks, hku]
    · exact hq.congr hq.1 (by simp [hqsp])
  · rintro m ⟨-, -, k, -, hku, hk⟩
    rw [hback] at hku hk
    rw [← hok.object_injective (hobj.symm.trans hk), hunused] at hku
    exact Bool.noConfusion hku
  · intro m hm
    rw [used_iff hback, setClass_page, setPage_page, Function.update_self]
    rw [← hidx] at hm
    exact ⟨hslab, hm, slot, hslot, by simp [SlabPage.pop], hobj⟩

/-- `slab_alloc` hands out an object that was not in use, or nothing. -/
theorem alloc_spec (h : s.Inv) (pmm : PageSource managed) {held : List Extent}
    (hheld : ∀ x, Extent.Covers s.held x → Extent.Covers held x) :
    s.alloc pmm held n = .ok (none, s) ∨
    ∃ ptr s', s.alloc pmm held n = .ok (some ptr, s') ∧ s'.Inv ∧ Extends held s s' ∧
      (∀ m, ¬ s.Used ptr m) ∧ s'.Used ptr n := by
  unfold alloc
  cases hclass : sizeToClassIndex n with
  | none => exact .inl rfl
  | some idx =>
    obtain ⟨hidx, hn⟩ := sizeToClassIndex_spec hclass
    simp only
    cases hlist : (s.classes idx).partialList with
    | cons sp rest =>
      obtain ⟨ptr, s', hres, hinv, hext, hnew, hused⟩ := take_spec h held hlist
      exact .inr ⟨ptr, s', by simp [hres, Except.map], hinv, hext, hnew, hused n hn⟩
    | nil =>
      rcases grow_spec h pmm hheld hidx with hgrow | ⟨sp, s₁, hgrow, hinv₁, hext₁, hhead⟩
      · left
        rw [hgrow]
      · obtain ⟨ptr, s', hres, hinv, hext, hnew, hused⟩ := take_spec hinv₁ held hhead
        refine .inr ⟨ptr, s', by simp [hgrow, hres, Except.map], hinv, hext₁.trans hext, ?_,
          hused n hn⟩
        exact fun m hm => hnew m (hext₁.used ptr m hm)

/-- An object in use stays in use when another one of its page is freed. -/
theorem Used.push {q m slot : ℕ} (hq : s.Used q m) (hne : q ≠ ptr)
    (hptr : ptr = (s.page sp).object sp slot) :
    (s.setPage sp ((s.page sp).push slot ptr)).Used q m := by
  by_cases hqsp : ptrToSlab q = sp
  · obtain ⟨hslab, hm, k, hk, hku, hqk⟩ := (used_iff hqsp).mp hq
    have hks : k ≠ slot := by
      intro heq
      exact hne (by rw [hqk, hptr, heq])
    rw [used_iff hqsp, setPage_page, Function.update_self]
    exact ⟨hslab, hm, k, hk, by simp [SlabPage.push, hks, hku], hqk⟩
  · exact hq.congr hq.1 (by simp [hqsp])

/-- `slab_free` takes an object in use back and leaves the others alone. -/
theorem free_spec (h : s.Inv) (hu : s.Used ptr n) :
    ∃ s', s.free ptr = .ok s' ∧ s'.Inv ∧ (∀ q m, q ≠ ptr → s.Used q m → s'.Used q m) ∧
      ∀ a, s'.isSlab a = true → s.isSlab a = true := by
  have hpos := hu.pos h
  obtain ⟨hslab, -, slot, hslot, hused, hptr⟩ := hu
  obtain ⟨-, -, hok⟩ := h.page _ hslab
  generalize hsp : ptrToSlab ptr = sp at *
  have hok' := hok.push hslot hused hptr
  have hnd := h.nodup (s.page sp).classIdx
  have hfull := h.inFull (s.page sp).classIdx sp
  have hpart := h.inPartial (s.page sp).classIdx sp
  -- the page stays in the class, or its last object was freed and it leaves
  have hkeep : ∀ c, (s.classes (s.page sp).classIdx).Moves c sp True False →
      ∃ s', (s.setPage sp ((s.page sp).push slot ptr)).setClass (s.page sp).classIdx c = s' ∧
        s'.Inv ∧ (∀ q m, q ≠ ptr → s.Used q m → s'.Used q m) ∧
        ∀ a, s'.isSlab a = true → s.isSlab a = true := by
    intro c hc
    refine ⟨_, rfl, h.put hslab hok' rfl rfl (by simpa [SlabPage.push] using hc), ?_,
      fun a ha => ha⟩
    intro q m hne hq
    have := hq.push hne hptr
    exact this.congr this.1 rfl
  have hdrop : ((s.page sp).push slot ptr).inUseCount = 0 → ∀ c,
      (s.classes (s.page sp).classIdx).Moves c sp False False →
      ∃ s', ((s.setPage sp ((s.page sp).push slot ptr)).setClass
          (s.page sp).classIdx c).releasePage sp = s' ∧
        s'.Inv ∧ (∀ q m, q ≠ ptr → s.Used q m → s'.Used q m) ∧
        ∀ a, s'.isSlab a = true → s.isSlab a = true := by
    intro hidle c hc
    refine ⟨_, rfl, h.drop rfl rfl hc, ?_, ?_⟩
    · intro q m hne hq
      have hq' := hq.push hne hptr
      have hqsp : ptrToSlab q ≠ sp := by
        intro heq
        obtain ⟨-, -, k, hk, hku, -⟩ := hq'
        rw [heq] at hk hku
        simp only [setPage_page, Function.update_self] at hk hku
        rw [hok'.used_false hidle hk] at hku
        exact Bool.noConfusion hku
      exact hq'.congr (by simpa [hqsp] using hq.1) (by simp)
    · intro a ha
      by_cases hasp : a = sp
      · rw [hasp]
        exact hslab
      · simpa [hasp] using ha
  rw [free, if_neg (by omega)]
  simp only [hsp, hslab, hok.magic, (SlabPage.slotOf_eq_some hok.pos).mpr ⟨hslot, hptr⟩, hused,
    ne_eq, not_true_eq_false, if_false, Bool.true_eq_false, if_neg (Nat.not_le.mpr hok.idx),
    setPage_classes]
  by_cases hfree : (s.page sp).freeList = []
  · have hmem := hfull.mpr ⟨hslab, rfl, hfree⟩
    have hnp : sp ∉ (s.classes (s.page sp).classIdx).partialList := fun hc =>
      (hpart.mp hc).2.2 hfree
    have hera := moves_eraseFull hnd.1 hnd.2 (iff_of_false hnp not_false) not_false
    rw [if_pos hfree, if_neg (not_not.mpr hmem)]
    by_cases hidle : ((s.page sp).push slot ptr).inUseCount = 0
    · rw [if_pos hidle]
      obtain ⟨s', rfl, hs'⟩ := hdrop hidle _ hera
      exact ⟨_, rfl, hs'⟩
    · rw [if_neg hidle]
      have hpush := moves_push hera.nodup.1 hera.nodup.2 hnp hnd.2.not_mem_erase trivial not_false
      obtain ⟨s', rfl, hs'⟩ := hkeep _ (hera.trans hpush)
      exact ⟨_, rfl, hs'⟩
  · have hmem := hpart.mpr ⟨hslab, rfl, hfree⟩
    have hnf : sp ∉ (s.classes (s.page sp).classIdx).fullList := fun hc =>
      hfree (hfull.mp hc).2.2
    rw [if_neg hfree]
    by_cases hidle : ((s.page sp).push slot ptr).inUseCount = 0
    · rw [if_pos hidle, if_neg (not_not.mpr hmem)]
      obtain ⟨s', rfl, hs'⟩ := hdrop hidle _
        (moves_erasePartial hnd.1 hnd.2 not_false (iff_of_false hnf not_false))
      exact ⟨_, rfl, hs'⟩
    · rw [if_neg hidle]
      obtain ⟨s', hs, hs'⟩ := hkeep (s.classes (s.page sp).classIdx)
        (moves_refl hnd.1 hnd.2 (iff_of_true hmem trivial) (iff_of_false hnf not_false))
      refine ⟨s', ?_, hs'⟩
      rw [← hs]
      simp [setClass, setPage]

end Slab

end Perspicua.Mm
