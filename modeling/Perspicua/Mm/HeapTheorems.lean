import Perspicua.Lib.Machine
import Perspicua.Mm.Heap
import Perspicua.Mm.SlabTheorems

/-!
# The heap keeps its memory apart and accounted for

Every block of the pool is an extent: a header and what follows it, for a live block up to
the end of its footer. `heap_insert_free` is `Extent.insertMerge` on the extents of the free
list. The other operations move extents between the free list, the live blocks and some that
are pending in the middle of a call (`Heap.Pool`), and cut or join them, so that the blocks
retile the regions obtained from the page allocator throughout.
-/

namespace Perspicua.Mm

open Perspicua.Lib

/-! ## Insertion into the free list -/

/-- The memory of a free block. -/
def blockExtent (header : ℕ → HeapHeader) (a : ℕ) : Extent :=
  ⟨a, (header a).size + heapHeaderSize⟩

def extentsOf (header : ℕ → HeapHeader) (l : List ℕ) : List Extent := l.map (blockExtent header)

variable {header header' : ℕ → HeapHeader} {block : ℕ} {l l' before rest : List ℕ}

@[simp] theorem blockExtent_start (header : ℕ → HeapHeader) (a : ℕ) :
    (blockExtent header a).start = a := rfl

theorem blockExtent_stop (header : ℕ → HeapHeader) (a : ℕ) :
    (blockExtent header a).stop = a + heapHeaderSize + (header a).size := by
  unfold blockExtent Extent.stop
  simp only
  omega

@[simp] theorem extentsOf_nil : extentsOf header [] = [] := rfl

@[simp] theorem extentsOf_cons :
    extentsOf header (block :: l) = blockExtent header block :: extentsOf header l := rfl

@[simp] theorem extentsOf_append :
    extentsOf header (l ++ l') = extentsOf header l ++ extentsOf header l' := List.map_append

theorem extentsOf_congr (h : ∀ a ∈ l, header' a = header a) :
    extentsOf header' l = extentsOf header l := by
  refine List.map_congr_left fun a ha => ?_
  rw [blockExtent, h a ha, blockExtent]

/-- Only sizes of the listed blocks change, by multiples of 16 if they are such. -/
structure Resizes (header header' : ℕ → HeapHeader) (l : List ℕ) : Prop where
  others : ∀ a, a ∉ l → header' a = header a
  isFree : ∀ a, (header' a).isFree = (header a).isFree
  mult : (∀ a ∈ l, (header a).size % 16 = 0) → ∀ a ∈ l, (header' a).size % 16 = 0

theorem Resizes.refl (header : ℕ → HeapHeader) (l : List ℕ) : Resizes header header l :=
  ⟨fun _ _ => rfl, fun _ => rfl, id⟩

/-- One block takes in the header and the memory of another. -/
theorem Resizes.join {a b : ℕ} (ha : a ∈ l) (hb : b ∈ l) :
    Resizes header (Function.update header a
      { header a with size := (header a).size + (heapHeaderSize + (header b).size) }) l where
  others c hc := by
    have hne : c ≠ a := fun h => hc (h ▸ ha)
    rw [Function.update_of_ne hne]
  isFree c := by
    by_cases hc : c = a
    · rw [hc, Function.update_self]
    · rw [Function.update_of_ne hc]
  mult h c hc := by
    by_cases hca : c = a
    · rw [hca, Function.update_self]
      have h1 := h a ha
      have h2 := h b hb
      simp only [heapHeaderSize]
      omega
    · rw [Function.update_of_ne hca]
      exact h c hc

/-- The block that has taken in its neighbour is the two joined. -/
theorem blockExtent_join (header : ℕ → HeapHeader) (a b : ℕ) :
    blockExtent (Function.update header a
      { header a with size := (header a).size + (heapHeaderSize + (header b).size) }) a =
      ⟨a, (blockExtent header a).len + (blockExtent header b).len⟩ := by
  have hlen : (header a).size + (heapHeaderSize + (header b).size) + heapHeaderSize =
      (header a).size + heapHeaderSize + ((header b).size + heapHeaderSize) := by omega
  rw [blockExtent, Function.update_self, blockExtent, blockExtent, ← hlen]

theorem extentsOf_update {a : ℕ} {h : HeapHeader} (ha : ∀ b ∈ l, b ≠ a) :
    extentsOf (Function.update header a h) l = extentsOf header l :=
  extentsOf_congr fun b hb => Function.update_of_ne (ha b hb) _ _

theorem mergeNext_spec (hfree : ∀ a ∈ l, (header a).isFree = true) (hnot : block ∉ l) :
    ∃ header' rest, mergeNext header block l = (header', block :: rest) ∧ rest.Sublist l ∧
      Resizes header header' (block :: l) ∧ (∀ a, a ≠ block → header' a = header a) ∧
      extentsOf header' (block :: rest) =
        Extent.joinNext (blockExtent header block) (extentsOf header l) := by
  cases l with
  | nil => exact ⟨header, [], rfl, .slnil, .refl _ _, fun _ _ => rfl, rfl⟩
  | cons next rest =>
    have hne : ∀ a ∈ rest, a ≠ block := by
      rintro a ha rfl
      exact hnot (List.mem_cons_of_mem _ ha)
    have hisFree := hfree next List.mem_cons_self
    rw [mergeNext, extentsOf_cons, Extent.joinNext, blockExtent_stop, blockExtent_start header next]
    by_cases h : block + heapHeaderSize + (header block).size = next
    · rw [if_pos ⟨hisFree, h⟩, if_pos h]
      refine ⟨_, rest, rfl, List.sublist_cons_self _ _,
        .join List.mem_cons_self (List.mem_cons_of_mem _ List.mem_cons_self),
        fun a ha => Function.update_of_ne ha _ _, ?_⟩
      rw [extentsOf_cons, blockExtent_join, extentsOf_update hne]
      rfl
    · rw [if_neg fun hc => h hc.2, if_neg h]
      exact ⟨header, next :: rest, rfl, .refl _, .refl _ _, fun _ _ => rfl, rfl⟩

theorem mergePrev_spec (hfree : ∀ a ∈ before, (header a).isFree = true)
    (hnd : (before ++ block :: rest).Nodup) :
    ∃ header' l', mergePrev header block before rest = (header', l') ∧
      l'.Sublist (before ++ block :: rest) ∧ Resizes header header' (before ++ block :: rest) ∧
      extentsOf header' l' =
        Extent.joinPrev (extentsOf header before) (extentsOf header (block :: rest)) := by
  rcases before.eq_nil_or_concat' with rfl | ⟨pre, prev, rfl⟩
  · exact ⟨header, block :: rest, rfl, .refl _, .refl _ _, rfl⟩
  · have hmem : prev ∈ pre ++ [prev] := by simp
    -- the predecessor is in the list once
    have hne : ∀ a ∈ pre ++ rest, a ≠ prev := by
      rintro a ha rfl
      rw [List.append_assoc, List.singleton_append, List.nodup_middle, List.nodup_cons] at hnd
      refine hnd.1 ?_
      rcases List.mem_append.mp ha with ha | ha
      · exact List.mem_append_left _ ha
      · exact List.mem_append_right _ (List.mem_cons_of_mem _ ha)
    rw [mergePrev, List.getLast?_concat, extentsOf_cons, extentsOf_append, extentsOf_cons,
      extentsOf_nil, Extent.joinPrev, List.getLast?_concat, List.dropLast_concat]
    simp only [blockExtent_stop, blockExtent_start]
    by_cases h : prev + heapHeaderSize + (header prev).size = block
    · rw [if_pos ⟨hfree prev hmem, h⟩, if_pos h]
      refine ⟨_, _, rfl, (List.Sublist.refl _).append (List.sublist_cons_self _ _),
        .join (List.mem_append_left _ hmem) (List.mem_append_right _ List.mem_cons_self), ?_⟩
      rw [List.append_assoc, List.singleton_append, extentsOf_append, extentsOf_cons,
        blockExtent_join, extentsOf_update fun a ha => hne a (List.mem_append_left _ ha),
        extentsOf_update fun a ha => hne a (List.mem_append_right _ ha)]
    · rw [if_neg fun hc => h hc.2, if_neg h]
      refine ⟨header, _, rfl, .refl _, .refl _ _, ?_⟩
      rw [extentsOf_append, extentsOf_append, extentsOf_cons, extentsOf_cons, extentsOf_nil]

namespace Heap

variable {managed : ℕ → Bool} {s : Heap}

@[simp] theorem setHeader_self (s : Heap) (a : ℕ) (h : HeapHeader) :
    (s.setHeader a h).header a = h := Function.update_self _ _ _

/-- What `heap_insert_free` does: the merging insertion of extents. -/
structure Inserts (s : Heap) (block : ℕ) (header' : ℕ → HeapHeader) (l' : List ℕ) : Prop where
  eq : s.insertFree block = { s with header := header', freeList := l' }
  mem : ∀ a ∈ l', a ∈ block :: s.freeList ∧ (header' a).isFree = true
  others : ∀ a, a ∉ block :: s.freeList → header' a = s.header a
  mult : (∀ a ∈ block :: s.freeList, (s.header a).size % 16 = 0) →
    ∀ a ∈ block :: s.freeList, (header' a).size % 16 = 0
  extents : extentsOf header' l' =
    Extent.insertMerge (blockExtent s.header block) (extentsOf s.header s.freeList)

theorem insertFree_spec (hfree : ∀ a ∈ s.freeList, (s.header a).isFree = true)
    (hnd : s.freeList.Nodup) (hnot : block ∉ s.freeList) :
    ∃ header' l', Inserts s block header' l' := by
  have hsplit := @List.takeWhile_append_dropWhile _ (fun a : ℕ => decide (a < block)) s.freeList
  generalize hbefore : s.freeList.takeWhile (fun a => decide (a < block)) = before at hsplit
  generalize hbehind : s.freeList.dropWhile (fun a => decide (a < block)) = behind at hsplit
  -- the headers once the block is marked
  generalize hmark : Function.update s.header block
    { s.header block with isFree := true, magic := heapMagicFree } = marked
  have hsize : ∀ a, (marked a).size = (s.header a).size := by
    intro a
    rw [← hmark]
    by_cases ha : a = block
    · rw [ha, Function.update_self]
    · rw [Function.update_of_ne ha]
  have hext : ∀ l, extentsOf marked l = extentsOf s.header l := by
    intro l
    refine List.map_congr_left fun a _ => ?_
    rw [blockExtent, hsize, blockExtent]
  have hmarked : ∀ a ∈ block :: s.freeList, (marked a).isFree = true := by
    intro a ha
    rw [← hmark]
    by_cases hab : a = block
    · rw [hab, Function.update_self]
    · rw [Function.update_of_ne hab]
      exact hfree a ((List.mem_cons.mp ha).resolve_left hab)
  have hbm : ∀ a ∈ before, a ∈ s.freeList := fun a ha => hsplit ▸ List.mem_append_left _ ha
  have hbe : ∀ a ∈ behind, a ∈ s.freeList := fun a ha => hsplit ▸ List.mem_append_right _ ha
  obtain ⟨h₁, rest, hnext, hsub, hres, hothers, hext₁⟩ := mergeNext_spec
    (fun a ha => hmarked a (List.mem_cons_of_mem _ (hbe a ha))) (fun hc => hnot (hbe _ hc))
  have hnd' : (before ++ block :: rest).Nodup := by
    rw [List.nodup_middle, List.nodup_cons]
    have hrest := (List.Sublist.refl before).append hsub
    rw [hsplit] at hrest
    exact ⟨fun hc => hnot (hrest.subset hc), hnd.sublist hrest⟩
  obtain ⟨h₂, l', hprev, hsub', hres', hext₂⟩ := @mergePrev_spec h₁ block before rest
    (fun a ha => by
      rw [hres.isFree]
      exact hmarked a (List.mem_cons_of_mem _ (hbm a ha))) hnd'
  have hin : ∀ a ∈ before ++ block :: rest, a ∈ block :: s.freeList := by
    intro a ha
    rcases List.mem_append.mp ha with ha | ha
    · exact List.mem_cons_of_mem _ (hbm a ha)
    · rcases List.mem_cons.mp ha with rfl | ha
      · exact List.mem_cons_self
      · exact List.mem_cons_of_mem _ (hbe a (hsub.subset ha))
  refine ⟨h₂, l', ?_, ?_, ?_, ?_, ?_⟩
  · simp only [insertFree, setHeader, hbefore, hbehind, hmark, hnext, List.tail_cons, hprev]
  · intro a ha
    have hmem := hin a (hsub'.subset ha)
    refine ⟨hmem, ?_⟩
    rw [hres'.isFree, hres.isFree]
    exact hmarked a hmem
  · intro a ha
    have hab : a ≠ block := fun h => ha (h ▸ List.mem_cons_self)
    rw [hres'.others a fun hc => ha (hin a hc), hothers a hab, ← hmark, Function.update_of_ne hab]
  · intro hmult
    have hmult₁ : ∀ a ∈ block :: s.freeList, (h₁ a).size % 16 = 0 := by
      intro a ha
      by_cases hab : a ∈ block :: behind
      · refine hres.mult (fun b hb => ?_) a hab
        rw [hsize]
        refine hmult b ?_
        rcases List.mem_cons.mp hb with rfl | hb
        · exact List.mem_cons_self
        · exact List.mem_cons_of_mem _ (hbe b hb)
      · rw [hres.others a hab, hsize]
        exact hmult a ha
    intro a ha
    by_cases hal : a ∈ before ++ block :: rest
    · exact hres'.mult (fun b hb => hmult₁ b (hin b hb)) a hal
    · rw [hres'.others a hal]
      exact hmult₁ a ha
  · have hb₁ : extentsOf h₁ before = extentsOf s.header before := by
      rw [← hext]
      refine extentsOf_congr fun a ha => hothers a ?_
      rintro rfl
      exact hnot (hbm a ha)
    have hbext : blockExtent marked block = blockExtent s.header block := by
      rw [blockExtent, hsize, blockExtent]
    have htake : (extentsOf s.header s.freeList).takeWhile (fun e => e.start < block) =
        extentsOf s.header before := by
      rw [extentsOf, List.takeWhile_map, ← hbefore]
      rfl
    have hdrop : (extentsOf s.header s.freeList).dropWhile (fun e => e.start < block) =
        extentsOf s.header behind := by
      rw [extentsOf, List.dropWhile_map, ← hbehind]
      rfl
    rw [hext₂, hext₁, hb₁, hext, hbext, Extent.insertMerge]
    show _ = Extent.joinPrev (List.takeWhile (fun e => decide (e.start < block)) _) _
    rw [htake]
    show _ = Extent.joinPrev _ (Extent.joinNext _
      (List.dropWhile (fun e => decide (e.start < block)) _))
    rw [hdrop]

/-! ## The pool -/

/-- The memory of a live block. -/
def liveExtent (header : ℕ → HeapHeader) (r : ℕ × ℕ) : Extent :=
  ⟨r.1 - heapHeaderSize, (header (r.1 - heapHeaderSize)).size + heapHeaderSize + heapFooterSize⟩

/-- The blocks of the pool. -/
def blocks (s : Heap) : List Extent :=
  extentsOf s.header s.freeList ++ s.large.map (liveExtent s.header)

/-- What `heap_free` checks of a live block, and what its owner relies on. -/
structure LiveOk (header : ℕ → HeapHeader) (footer : ℕ → ℕ) (r : ℕ × ℕ) : Prop where
  behind : heapHeaderSize ≤ r.1
  aligned : r.1 % 16 = 0
  mult : (header (r.1 - heapHeaderSize)).size % 16 = 0
  magic : (header (r.1 - heapHeaderSize)).magic = heapMagicAlloc
  footer : footer (r.1 + (header (r.1 - heapHeaderSize)).size) = heapRedzoneMagic
  enough : r.2 ≤ (header (r.1 - heapHeaderSize)).size

/-- The bytes of live blocks that count as used. -/
def usedBytes (header : ℕ → HeapHeader) (large : List (ℕ × ℕ)) : ℕ :=
  (large.map fun r => (header (r.1 - heapHeaderSize)).size + heapHeaderSize).sum

/-- The pool while the extents `pend` are neither free nor live. -/
structure Pool (managed : ℕ → Bool) (s : Heap) (pend : List Extent) : Prop where
  tiles : Extent.Tiles s.regions (pend ++ s.blocks)
  total : s.totalSize = Extent.total s.regions
  ordered : Extent.Separated (extentsOf s.header s.freeList)
  free : ∀ a ∈ s.freeList, a % 16 = 0 ∧ (s.header a).size % 16 = 0 ∧ (s.header a).isFree = true
  live : ∀ r ∈ s.large, LiveOk s.header s.footer r
  used : s.usedSize = usedBytes s.header s.large
  managed : ∀ x, Extent.Covers s.regions x → managed x = true

variable {s' : Heap} {pend pend' : List Extent} {e : Extent} {r : ℕ × ℕ} {a x : ℕ}

theorem mem_blocks_free (ha : a ∈ s.freeList) : blockExtent s.header a ∈ s.blocks :=
  List.mem_append_left _ (List.mem_map_of_mem ha)

theorem mem_blocks_live (hr : r ∈ s.large) : liveExtent s.header r ∈ s.blocks :=
  List.mem_append_right _ (List.mem_map_of_mem hr)

theorem blockExtent_has (header : ℕ → HeapHeader) (a : ℕ) : (blockExtent header a).Has a := by
  unfold blockExtent Extent.Has heapHeaderSize
  simp only
  omega

theorem liveExtent_has (header : ℕ → HeapHeader) (r : ℕ × ℕ) :
    (liveExtent header r).Has (r.1 - heapHeaderSize) := by
  unfold liveExtent Extent.Has heapHeaderSize
  simp only
  omega

/-- The owner's bytes and the first one of the footer are in the block. -/
theorem LiveOk.has {footer : ℕ → ℕ} (h : LiveOk header footer r) (hx : r.1 ≤ x)
    (hx' : x ≤ r.1 + (header (r.1 - heapHeaderSize)).size) : (liveExtent header r).Has x := by
  have := h.behind
  unfold liveExtent Extent.Has heapFooterSize
  simp only
  omega

theorem LiveOk.congr {footer footer' : ℕ → ℕ} (h : LiveOk header footer r)
    (hheader : header' (r.1 - heapHeaderSize) = header (r.1 - heapHeaderSize))
    (hfooter : footer' (r.1 + (header (r.1 - heapHeaderSize)).size) =
      footer (r.1 + (header (r.1 - heapHeaderSize)).size)) : LiveOk header' footer' r := by
  refine ⟨h.behind, h.aligned, ?_, ?_, ?_, ?_⟩ <;> rw [hheader]
  · exact h.mult
  · exact h.magic
  · exact hfooter.trans h.footer
  · exact h.enough

/-- Live blocks are read through their headers only. -/
theorem live_congr {large : List (ℕ × ℕ)}
    (h : ∀ r ∈ large, header' (r.1 - heapHeaderSize) = header (r.1 - heapHeaderSize)) :
    large.map (liveExtent header') = large.map (liveExtent header) ∧
      usedBytes header' large = usedBytes header large := by
  refine ⟨List.map_congr_left fun r hr => ?_,
    congrArg List.sum (List.map_congr_left fun r hr => ?_)⟩
  · rw [liveExtent, h r hr, liveExtent]
  · rw [h r hr]

namespace Pool

theorem retile (h : s.Pool managed pend) (h' : Extent.Retiles pend pend') :
    s.Pool managed pend' :=
  { h with tiles := h.tiles.retile (h'.append_right _) }

/-- A block is not pending. -/
theorem not_pend (h : s.Pool managed pend) (he : e ∈ s.blocks) (hx : e.Has x) :
    ¬ Extent.Covers pend x := by
  rintro ⟨f, hf, hfx⟩
  exact (List.pairwise_append.mp h.tiles.apart).2.2 f hf e he x hfx hx

theorem not_covers_free (h : s.Pool managed pend) (ha : a ∈ s.freeList) :
    ¬ Extent.Covers pend a := h.not_pend (mem_blocks_free ha) (blockExtent_has _ _)

theorem not_covers_live (h : s.Pool managed pend) (hr : r ∈ s.large) :
    ¬ Extent.Covers pend (r.1 - heapHeaderSize) :=
  h.not_pend (mem_blocks_live hr) (liveExtent_has _ _)

/-- Headers and footers in pending memory can be written. -/
theorem frame (h : s.Pool managed pend) {footer' : ℕ → ℕ}
    (hheader : ∀ a, ¬ Extent.Covers pend a → header' a = s.header a)
    (hfooter : ∀ a, ¬ Extent.Covers pend a → footer' a = s.footer a) :
    Pool managed { s with header := header', footer := footer' } pend := by
  have hfree : ∀ a ∈ s.freeList, header' a = s.header a := fun a ha =>
    hheader a (h.not_covers_free ha)
  have hlive : ∀ r ∈ s.large, header' (r.1 - heapHeaderSize) = s.header (r.1 - heapHeaderSize) :=
    fun r hr => hheader _ (h.not_covers_live hr)
  obtain ⟨hlext, hused⟩ := live_congr hlive
  refine ⟨?_, h.total, ?_, ?_, ?_, h.used.trans hused.symm, h.managed⟩
  · show Extent.Tiles s.regions (pend ++ (extentsOf header' s.freeList ++ s.large.map _))
    rw [extentsOf_congr hfree, hlext]
    exact h.tiles
  · show Extent.Separated (extentsOf header' s.freeList)
    rw [extentsOf_congr hfree]
    exact h.ordered
  · intro a ha
    dsimp only
    rw [hfree a ha]
    exact h.free a ha
  · intro r hr
    have hok := h.live r hr
    exact hok.congr (hlive r hr) (hfooter _ (h.not_pend (mem_blocks_live hr)
      (hok.has (Nat.le_add_right _ _) le_rfl)))

/-- A free block is unlinked. -/
theorem unlink (h : s.Pool managed pend) (ha : a ∈ s.freeList) :
    Pool managed { s with freeList := s.freeList.erase a } (blockExtent s.header a :: pend) := by
  have hperm := List.perm_cons_erase ha
  refine ⟨?_, h.total, ?_, ?_, h.live, h.used, h.managed⟩
  · refine h.tiles.perm ?_
    have hblocks : s.blocks.Perm (blockExtent s.header a ::
        blocks { s with freeList := s.freeList.erase a }) :=
      (hperm.map (blockExtent s.header)).append_right _
    exact (hblocks.append_left pend).trans List.perm_middle
  · exact h.ordered.sublist ((List.erase_sublist).map _)
  · intro b hb
    exact h.free b (List.mem_of_mem_erase hb)

/-- A pending block can be inserted. -/
theorem insertFree_spec (h : s.Pool managed (blockExtent s.header block :: pend)) :
    ∃ header' l', Inserts s block header' l' := by
  refine Heap.insertFree_spec (fun a ha => (h.free a ha).2.2) ?_ ?_
  · refine List.Nodup.of_map (blockExtent s.header) (h.ordered.imp ?_)
    rintro b c hbc rfl
    unfold Extent.stop at hbc
    omega
  · intro hc
    exact h.not_covers_free hc (Extent.covers_cons.mpr (.inl (blockExtent_has _ _)))

/-- `heap_insert_free` of a pending block. -/
theorem insert (h : s.Pool managed (blockExtent s.header block :: pend)) (hblock : block % 16 = 0)
    (hsize : (s.header block).size % 16 = 0) : (s.insertFree block).Pool managed pend := by
  have hcov : Extent.Covers (blockExtent s.header block :: pend) block :=
    Extent.covers_cons.mpr (.inl (blockExtent_has _ _))
  obtain ⟨header', l', hs', hmem, hothers, hmult, hext⟩ := h.insertFree_spec
  have hlive : ∀ r ∈ s.large, header' (r.1 - heapHeaderSize) = s.header (r.1 - heapHeaderSize) := by
    intro r hr
    apply hothers
    intro hc
    rcases List.mem_cons.mp hc with hc | hc
    · exact h.not_covers_live hr (hc ▸ hcov)
    · -- a live block and a free one do not start at one address
      have happ := (List.pairwise_append.mp h.tiles.apart).2.1
      exact (List.pairwise_append.mp happ).2.2 _ (List.mem_map_of_mem hc) _
        (List.mem_map_of_mem hr) _ (blockExtent_has _ _) (liveExtent_has _ _)
  obtain ⟨hlext, hused⟩ := live_congr hlive
  have hsub : (blockExtent s.header block :: extentsOf s.header s.freeList).Sublist
      ((blockExtent s.header block :: pend) ++ s.blocks) := by
    rw [List.cons_append]
    refine List.Sublist.cons_cons _ ?_
    exact (List.sublist_append_left _ _).trans (List.sublist_append_right _ _)
  rw [hs']
  refine ⟨?_, h.total, ?_, ?_, ?_, h.used.trans hused.symm, h.managed⟩
  · refine h.tiles.retile ?_
    have hret := (Extent.insertMerge_retiles (blockExtent s.header block)
      (extentsOf s.header s.freeList)).append_right (s.large.map (liveExtent s.header))
    rw [← hext, ← hlext] at hret
    have hperm : ((blockExtent s.header block :: pend) ++ s.blocks).Perm (pend ++
        ((blockExtent s.header block :: extentsOf s.header s.freeList) ++
          s.large.map (liveExtent s.header))) := List.perm_middle.symm
    rw [← hlext] at hperm
    exact (Extent.Retiles.perm hperm).trans (hret.append_left pend)
  · rw [hext]
    refine Extent.insertMerge_separated h.ordered (h.tiles.apart.sublist hsub) ?_
    intro e he
    rcases List.mem_cons.mp he with rfl | he
    · exact Nat.add_pos_right _ (by decide)
    · obtain ⟨a, -, rfl⟩ := List.mem_map.mp he
      exact Nat.add_pos_right _ (by decide)
  · intro a ha
    obtain ⟨hal, hfree⟩ := hmem a ha
    have hall : ∀ b ∈ block :: s.freeList, b % 16 = 0 ∧ (s.header b).size % 16 = 0 := by
      intro b hb
      rcases List.mem_cons.mp hb with rfl | hb
      · exact ⟨hblock, hsize⟩
      · exact ⟨(h.free b hb).1, (h.free b hb).2.1⟩
    exact ⟨(hall a hal).1, hmult (fun b hb => (hall b hb).2) a hal, hfree⟩
  · intro r hr
    exact (h.live r hr).congr (hlive r hr) rfl

/-- A pending block is live from now on. -/
theorem own (h : s.Pool managed (liveExtent s.header r :: pend)) (hr : LiveOk s.header s.footer r) :
    Pool managed { s with
      large := r :: s.large
      usedSize := s.usedSize + ((s.header (r.1 - heapHeaderSize)).size + heapHeaderSize) } pend := by
  refine ⟨h.tiles.perm ?_, h.total, h.ordered, h.free, ?_, ?_, h.managed⟩
  · refine List.perm_middle.symm.trans (List.Perm.append_left pend ?_)
    exact List.perm_middle.symm
  · intro q hq
    rcases List.mem_cons.mp hq with rfl | hq
    · exact hr
    · exact h.live q hq
  · show s.usedSize + _ = usedBytes s.header (r :: s.large)
    rw [h.used, usedBytes, usedBytes, List.map_cons, List.sum_cons, Nat.add_comm]

/-- A live block is given up. -/
theorem disown {before behind : List (ℕ × ℕ)} (h : s.Pool managed pend)
    (hl : s.large = before ++ r :: behind) :
    Pool managed { s with
      large := before ++ behind
      usedSize := s.usedSize - ((s.header (r.1 - heapHeaderSize)).size + heapHeaderSize) }
      (liveExtent s.header r :: pend) := by
  have hperm : s.large.Perm (r :: (before ++ behind)) := hl ▸ List.perm_middle
  refine ⟨h.tiles.perm ?_, h.total, h.ordered, h.free, ?_, ?_, h.managed⟩
  · refine (List.Perm.append_left pend ?_).trans List.perm_middle
    exact ((hperm.map _).append_left _).trans List.perm_middle
  · intro q hq
    exact h.live q (hperm.mem_iff.mpr (List.mem_cons_of_mem _ hq))
  · show s.usedSize - _ = usedBytes s.header (before ++ behind)
    have hsum : usedBytes s.header s.large = usedBytes s.header (r :: (before ++ behind)) :=
      (hperm.map _).sum_eq
    rw [h.used, hsum, usedBytes, List.map_cons, List.sum_cons, Nat.add_sub_cancel_left, usedBytes]

/-- The page allocator gives a region. -/
theorem grow (h : s.Pool managed pend)
    (hnew : ∀ x, e.Has x → managed x = true ∧ ¬ Extent.Covers s.regions x) :
    Pool managed { s with
      totalSize := s.totalSize + e.len
      regions := e :: s.regions
      expansions := s.expansions + 1 } (e :: pend) := by
  refine ⟨h.tiles.cons fun x hx => (hnew x hx).2, ?_, h.ordered, h.free, h.live, h.used, ?_⟩
  · show s.totalSize + e.len = Extent.total (e :: s.regions)
    rw [Extent.total_cons, h.total, Nat.add_comm]
  · intro x hx
    rcases Extent.covers_cons.mp hx with hx | hx
    · exact (hnew x hx).1
    · exact h.managed x hx

/-- A header in pending memory is written. -/
theorem setHeader (h : s.Pool managed pend) (ha : Extent.Covers pend a) (hdr : HeapHeader) :
    (s.setHeader a hdr).Pool managed pend := by
  refine h.frame (fun b hb => ?_) (fun _ _ => rfl)
  refine Function.update_of_ne ?_ _ _
  rintro rfl
  exact hb ha

end Pool

/-! ## Growing the pool -/

theorem roundPages_spec {pages fuel rounded k : ℕ} (h : roundPages pages fuel rounded = some k) :
    pages ≤ k := by
  induction fuel generalizing rounded with
  | zero => simp [roundPages] at h
  | succ fuel ih =>
    rw [roundPages] at h
    split at h
    · exact ih h
    · rename_i hle
      cases h
      exact Nat.le_of_not_lt hle

/-- What expanding the pool leaves alone, and where the memory comes from. -/
structure Expands (s t : Heap) : Prop where
  small : t.small = s.small
  large : t.large = s.large
  slab : t.slab = s.slab
  regions : ∀ x, Extent.Covers s.regions x → Extent.Covers t.regions x
  fresh : ∀ x, Extent.Covers t.regions x → Extent.Covers s.regions x ∨ ¬ Extent.Covers s.held x

theorem Expands.refl (s : Heap) : Expands s s := ⟨rfl, rfl, rfl, fun _ h => h, fun _ h => .inl h⟩

theorem Expands.trans {t u : Heap} (h : Expands s t) (h' : Expands t u) : Expands s u where
  small := h'.small.trans h.small
  large := h'.large.trans h.large
  slab := h'.slab.trans h.slab
  regions x hx := h'.regions x (h.regions x hx)
  fresh x hx := by
    rcases h'.fresh x hx with hx | hx
    · exact h.fresh x hx
    · refine .inr fun hc => hx ?_
      unfold held at *
      rw [Extent.covers_append] at *
      rw [h.slab]
      exact hc.imp_left (h.regions x)

theorem covers_held_regions (hx : Extent.Covers s.regions x) : Extent.Covers s.held x :=
  Extent.covers_append.mpr (.inl hx)

theorem expand_cases {pmm : PageSource managed} {n : ℕ} {t : Heap}
    (ht : s.expand pmm n = some (block, t)) :
    ∃ pages, n + heapHeaderSize + heapFooterSize ≤ pages * pageSize ∧
      pmm.alloc pages s.held = some block ∧
      t = { s.setHeader block ⟨pages * pageSize - heapHeaderSize, true, heapMagicFree⟩ with
        totalSize := s.totalSize + pages * pageSize
        regions := ⟨block, pages * pageSize⟩ :: s.regions
        expansions := s.expansions + 1 } := by
  rw [expand] at ht
  generalize hround : roundPages ((n + heapHeaderSize + heapFooterSize + pageSize - 1) / pageSize)
    64 1 = found at ht
  cases found with
  | none => simp at ht
  | some pages =>
    cases hregion : pmm.alloc pages s.held with
    | none => simp [hregion] at ht
    | some region =>
      simp only [hregion, Option.some.injEq, Prod.mk.injEq] at ht
      obtain ⟨rfl, rfl⟩ := ht
      refine ⟨pages, ?_, hregion, rfl⟩
      have hle := roundPages_spec hround
      unfold pageSize at *
      omega

theorem expand_spec (h : s.Pool managed []) {pmm : PageSource managed} {n : ℕ} {t : Heap}
    (ht : s.expand pmm n = some (block, t)) :
    t.Pool managed [blockExtent t.header block] ∧ block % 16 = 0 ∧
      (t.header block).size % 16 = 0 ∧ n + heapFooterSize ≤ (t.header block).size ∧
      t.freeList = s.freeList ∧ t.expansions = s.expansions + 1 ∧ Expands s t := by
  obtain ⟨pages, hlen, hregion, rfl⟩ := expand_cases ht
  obtain ⟨-, hmod, hfresh⟩ := pmm.fresh hregion
  generalize hbytes : pages * pageSize = bytes at *
  have hhdr : (Function.update s.header block
      ⟨bytes - heapHeaderSize, true, heapMagicFree⟩ block).size = bytes - heapHeaderSize := by
    rw [Function.update_self]
  have hext : blockExtent (Function.update s.header block
      ⟨bytes - heapHeaderSize, true, heapMagicFree⟩) block = ⟨block, bytes⟩ := by
    rw [blockExtent, hhdr, Nat.sub_add_cancel (by omega)]
  have hgrown := @Pool.grow managed s [] ⟨block, bytes⟩ h fun x hx =>
    ⟨(hfresh x hx).1, fun hc => (hfresh x hx).2 (covers_held_regions hc)⟩
  have hcov : Extent.Covers [(⟨block, bytes⟩ : Extent)] block := by
    refine Extent.covers_cons.mpr (.inl ?_)
    unfold Extent.Has heapHeaderSize at *
    simp only
    omega
  have hmult : bytes % 16 = 0 := by
    rw [← hbytes, Nat.mul_mod]
    unfold pageSize
    omega
  refine ⟨?_, ?_, ?_, ?_, rfl, rfl, ⟨rfl, rfl, rfl, ?_, ?_⟩⟩
  · show Pool managed _ [blockExtent (Function.update s.header block _) block]
    rw [hext]
    exact hgrown.setHeader hcov _
  · unfold pageSize at hmod
    omega
  · show (Function.update s.header block _ block).size % 16 = 0
    rw [hhdr]
    unfold heapHeaderSize at *
    omega
  · show _ ≤ (Function.update s.header block _ block).size
    rw [hhdr]
    omega
  · exact fun x hx => Extent.covers_cons.mpr (.inr hx)
  · intro x hx
    rcases Extent.covers_cons.mp hx with hx | hx
    · exact .inr (hfresh x hx).2
    · exact .inl hx

/-! ## First fit -/

/-- `heap_malloc` leaves the block it found pending, with what its owner may use. -/
theorem carve_spec {curr size : ℕ} (h : s.Pool managed []) (hcurr : curr ∈ s.freeList)
    (hfit : size + heapFooterSize ≤ (s.header curr).size) (hsize : size % 16 = 0) :
    (s.carve curr size).Pool managed
        [⟨curr, ((s.carve curr size).header curr).size + heapHeaderSize + heapFooterSize⟩] ∧
      size ≤ ((s.carve curr size).header curr).size ∧
      ((s.carve curr size).header curr).size % 16 = 0 ∧ Expands s (s.carve curr size) ∧
      (s.carve curr size).expansions = s.expansions := by
  obtain ⟨hal, hmult, -⟩ := h.free curr hcurr
  have hun := h.unlink hcurr
  have hself : ∀ len : ℕ, Extent.Covers [⟨curr, len + heapHeaderSize⟩] curr := by
    intro len
    refine Extent.covers_cons.mpr (.inl ?_)
    unfold Extent.Has heapHeaderSize
    simp only
    omega
  unfold carve
  dsimp only
  split
  · rename_i hsplit
    generalize hn : curr + heapHeaderSize + (size + heapFooterSize) = split
    generalize hrest : (s.header curr).size - (size + heapFooterSize) - heapHeaderSize = rest
    -- the block is the owner's part and the one split off
    have hcut : blockExtent s.header curr = ⟨curr, size + heapFooterSize + heapHeaderSize +
        (rest + heapHeaderSize)⟩ := by
      rw [blockExtent, Extent.mk.injEq]
      exact ⟨rfl, by omega⟩
    have hstart : curr + (size + heapFooterSize + heapHeaderSize) = split := by omega
    rw [hcut] at hun
    have htwo := hun.retile ((Extent.Retiles.cut curr _ _ []).trans (.perm (List.Perm.swap ..)))
    rw [hstart] at htwo
    have hcov : Extent.Covers [⟨split, rest + heapHeaderSize⟩,
        ⟨curr, size + heapFooterSize + heapHeaderSize⟩] split := by
      refine Extent.covers_cons.mpr (.inl ?_)
      unfold Extent.Has heapHeaderSize
      simp only
      omega
    have hset := htwo.setHeader hcov { s.header split with size := rest, isFree := true }
    have hblock : blockExtent (Function.update s.header split
        { s.header split with size := rest, isFree := true }) split =
        ⟨split, rest + heapHeaderSize⟩ := by
      rw [blockExtent, Function.update_self]
    rw [← hblock] at hset
    have hins := hset.insert (by unfold heapHeaderSize heapFooterSize at *; omega)
      (by
        show (Function.update s.header split _ split).size % 16 = 0
        rw [Function.update_self]
        unfold heapHeaderSize heapFooterSize at *
        simp only
        omega)
    refine ⟨?_, ?_, ?_, ⟨rfl, rfl, rfl, fun _ hx => hx, fun _ hx => .inl hx⟩, rfl⟩
    · rw [setHeader_self]
      rw [show size + heapHeaderSize + heapFooterSize = size + heapFooterSize + heapHeaderSize by
        omega]
      exact hins.setHeader (hself _) _
    · rw [setHeader_self]
    · rw [setHeader_self]
      exact hsize
  · refine ⟨?_, ?_, ?_, ⟨rfl, rfl, rfl, fun _ hx => hx, fun _ hx => .inl hx⟩, rfl⟩
    · rw [setHeader_self]
      dsimp only
      rw [show (s.header curr).size - heapFooterSize + heapHeaderSize + heapFooterSize =
        (s.header curr).size + heapHeaderSize by omega]
      exact hun.setHeader (hself _) _
    · rw [setHeader_self]
      dsimp only
      omega
    · rw [setHeader_self]
      dsimp only
      unfold heapFooterSize at *
      omega

/-- The pointer that `heap_malloc` returns for a block it found. -/
theorem place_spec {curr size n : ℕ} (h : s.Pool managed []) (hcurr : curr ∈ s.freeList)
    (hfit : size + heapFooterSize ≤ (s.header curr).size) (hsize : size % 16 = 0)
    (hn : n ≤ size) :
    Pool managed { s.place curr size with large := (curr + heapHeaderSize, n) :: s.large } [] ∧
      Expands s (s.place curr size) ∧ (s.place curr size).expansions = s.expansions := by
  obtain ⟨hpool, hle, hmult, hexp, hcount⟩ := carve_spec h hcurr hfit hsize
  have hal := (h.free curr hcurr).1
  generalize hc : s.carve curr size = c at *
  generalize hsz : (c.header curr).size = sz at *
  -- the block with its header and footer
  have hback : curr + heapHeaderSize - heapHeaderSize = curr := Nat.add_sub_cancel ..
  have hin : ∀ a, curr ≤ a → a ≤ curr + heapHeaderSize + sz →
      Extent.Covers [⟨curr, sz + heapHeaderSize + heapFooterSize⟩] a := by
    intro a hle hge
    refine Extent.covers_cons.mpr (.inl ?_)
    unfold Extent.Has heapFooterSize
    simp only
    omega
  have hframe : Pool managed
      { c with
        header := Function.update c.header curr ⟨sz, false, heapMagicAlloc⟩
        footer := Function.update c.footer (curr + heapHeaderSize + sz) heapRedzoneMagic }
      [⟨curr, sz + heapHeaderSize + heapFooterSize⟩] := by
    refine hpool.frame (fun a ha => Function.update_of_ne ?_ _ _)
      (fun a ha => Function.update_of_ne ?_ _ _)
    · rintro rfl
      exact ha (hin a (Nat.le_refl _) (by omega))
    · rintro rfl
      exact ha (hin _ (by omega) (Nat.le_refl _))
  have hlive : liveExtent (Function.update c.header curr ⟨sz, false, heapMagicAlloc⟩)
      (curr + heapHeaderSize, n) = ⟨curr, sz + heapHeaderSize + heapFooterSize⟩ := by
    rw [liveExtent, hback, Function.update_self]
  rw [← hlive] at hframe
  have hok : LiveOk (Function.update c.header curr ⟨sz, false, heapMagicAlloc⟩)
      (Function.update c.footer (curr + heapHeaderSize + sz) heapRedzoneMagic)
      (curr + heapHeaderSize, n) := by
    refine ⟨Nat.le_add_left _ _, ?_, ?_, ?_, ?_, ?_⟩
    · unfold heapHeaderSize
      dsimp only
      omega
    all_goals rw [hback, Function.update_self]
    · exact hmult
    · exact Function.update_self _ _ _
    · exact hn.trans hle
  have hown := hframe.own hok
  have hplace : s.place curr size =
      { c with
        header := Function.update c.header curr ⟨sz, false, heapMagicAlloc⟩
        footer := Function.update c.footer (curr + heapHeaderSize + sz) heapRedzoneMagic
        usedSize := c.usedSize + (sz + heapHeaderSize) } := by
    rw [place, hc, hsz]
    rfl
  dsimp only at hown
  rw [hback, Function.update_self, hexp.large] at hown
  rw [hplace]
  exact ⟨hown, ⟨hexp.small, hexp.large, hexp.slab, hexp.regions, hexp.fresh⟩, hcount⟩

/-- What a finished search has done. -/
structure Found (managed : ℕ → Bool) (n : ℕ) (s : Heap) (ptr : Option ℕ) (t : Heap) : Prop where
  pool : Pool managed { t with large := (ptr.map fun p => (p, n)).toList ++ s.large } []
  expands : Expands s t

/-- A round of the loop. -/
theorem mallocLoop_cases (pmm : PageSource managed) (size fuel : ℕ) (s : Heap) :
    (∃ curr ∈ s.freeList, size + heapFooterSize ≤ (s.header curr).size ∧
      mallocLoop pmm size (fuel + 1) s =
        some (some (curr + heapHeaderSize), s.place curr size)) ∨
    (∀ a ∈ s.freeList, (s.header a).size < size + heapFooterSize) ∧
      (mallocLoop pmm size (fuel + 1) s = some (none, s) ∨
      ∃ block u, s.expand pmm size = some (block, u) ∧
        mallocLoop pmm size (fuel + 1) s = mallocLoop pmm size fuel (u.insertFree block)) := by
  rw [mallocLoop]
  cases hfind : s.freeList.find? fun curr => size + heapFooterSize ≤ (s.header curr).size with
  | some curr =>
    have hfit := List.find?_some hfind
    exact .inl ⟨curr, List.mem_of_find?_eq_some hfind, by simpa using hfit, rfl⟩
  | none =>
    refine .inr ⟨?_, ?_⟩
    · intro a ha
      simpa using List.find?_eq_none.mp hfind a ha
    · cases hexpand : s.expand pmm size with
      | none => exact .inl rfl
      | some r => exact .inr ⟨r.1, r.2, rfl, rfl⟩

theorem mallocLoop_found {pmm : PageSource managed} {size n fuel : ℕ} {ptr : Option ℕ} {t : Heap}
    (h : s.Pool managed []) (hsize : size % 16 = 0) (hn : n ≤ size)
    (hrun : mallocLoop pmm size fuel s = some (ptr, t)) : Found managed n s ptr t := by
  -- a round that expands the pool starts over with the new block in the free list
  induction fuel generalizing s with
  | zero => simp [mallocLoop] at hrun
  | succ fuel ih =>
    rcases mallocLoop_cases pmm size fuel s with
      ⟨curr, hcurr, hfit, heq⟩ | ⟨-, heq | ⟨block, u, hexpand, heq⟩⟩
    · rw [heq] at hrun
      cases hrun
      obtain ⟨hpool, hexp, -⟩ := place_spec h hcurr hfit hsize hn
      exact ⟨hpool, hexp⟩
    · rw [heq] at hrun
      cases hrun
      exact ⟨h, .refl _⟩
    · rw [heq] at hrun
      obtain ⟨hpool, hal, hmult, -, -, -, hexp⟩ := expand_spec h hexpand
      have hfound := ih (hpool.insert hal hmult) hrun
      have hins : Expands u (u.insertFree block) :=
        ⟨rfl, rfl, rfl, fun _ hx => hx, fun _ hx => .inl hx⟩
      have hpool' := hfound.pool
      rw [(hexp.trans hins).large] at hpool'
      exact ⟨hpool', (hexp.trans hins).trans hfound.expands⟩

/-- The block of a new region fits, alone or merged with its neighbours. -/
theorem exists_fit {pmm : PageSource managed} {size : ℕ} {u : Heap} (h : s.Pool managed [])
    (hexpand : s.expand pmm size = some (block, u)) :
    ∃ a ∈ (u.insertFree block).freeList,
      size + heapFooterSize ≤ ((u.insertFree block).header a).size := by
  obtain ⟨hpool, -, -, hfit, -⟩ := expand_spec h hexpand
  obtain ⟨header', l', hs', -, -, -, hext⟩ := hpool.insertFree_spec
  obtain ⟨c, hc, hlen⟩ := Extent.exists_len_le_insertMerge (blockExtent u.header block)
    (extentsOf u.header u.freeList)
  rw [← hext] at hc
  obtain ⟨a, ha, rfl⟩ := List.mem_map.mp hc
  rw [hs']
  refine ⟨a, ha, ?_⟩
  unfold blockExtent at hlen
  dsimp only at hlen ⊢
  omega

/-- The second round finds a block, so there is no third. -/
theorem mallocLoop_returns (pmm : PageSource managed) {size fuel : ℕ} (h : s.Pool managed [])
    (hsize : size % 16 = 0) (hfuel : 2 ≤ fuel) :
    ∃ ptr t, mallocLoop pmm size fuel s = some (ptr, t) ∧ t.expansions ≤ s.expansions + 1 := by
  obtain ⟨fuel, rfl⟩ := Nat.exists_eq_add_of_le' hfuel
  rcases mallocLoop_cases pmm size (fuel + 1) s with
    ⟨curr, hcurr, hfit, heq⟩ | ⟨-, heq | ⟨block, u, hexpand, heq⟩⟩
  · obtain ⟨-, -, hcount⟩ := place_spec h hcurr hfit hsize (Nat.le_refl _)
    exact ⟨_, _, heq, by omega⟩
  · exact ⟨_, _, heq, Nat.le_succ _⟩
  · obtain ⟨hpool, hal, hmult, -, -, hcount, -⟩ := expand_spec h hexpand
    have hcount' : (u.insertFree block).expansions = s.expansions + 1 := hcount
    rcases mallocLoop_cases pmm size fuel (u.insertFree block) with
      ⟨curr, hcurr, hfit, heq'⟩ | ⟨hnone, -⟩
    · obtain ⟨-, -, hplace⟩ := place_spec (hpool.insert hal hmult) hcurr hfit hsize (Nat.le_refl _)
      exact ⟨_, _, heq.trans heq', by omega⟩
    · obtain ⟨a, ha, hafit⟩ := exists_fit h hexpand
      exact absurd (hnone a ha) (Nat.not_lt.mpr hafit)

end Heap

end Perspicua.Mm
