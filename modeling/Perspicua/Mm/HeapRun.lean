import Perspicua.Mm.HeapTheorems

/-!
# Every sequence of `heap_malloc` and `heap_free`

`Heap.Inv` puts the pool and the slab allocator together: the regions of the one and the
pages of the other are apart, so that `slab_owns` tells their pointers from each other. It
holds after `heap_init`, every call keeps it, and it gives `Heap.Sound`.
-/

namespace Perspicua.Mm

open Perspicua.Lib

namespace Heap

variable {managed : ℕ → Bool} {s t : Heap} {r : ℕ × ℕ} {ptr x : ℕ}

structure Inv (managed : ℕ → Bool) (s : Heap) : Prop where
  slab : s.slab.Inv
  small : ∀ r ∈ s.small, s.slab.Used r.1 r.2
  nodup : (s.small.map Prod.fst).Nodup
  pages : ∀ a, s.slab.isSlab a = true → ∀ x, Extent.Has ⟨a, pageSize⟩ x →
    ¬ Extent.Covers s.regions x
  pool : s.Pool managed []

/-! ## Live pointers -/

theorem ptrToSlab_has (ptr : ℕ) : Extent.Has ⟨ptrToSlab ptr, pageSize⟩ ptr := by
  unfold Extent.Has ptrToSlab pageSize
  simp only
  omega

namespace Inv

variable (h : s.Inv managed)

include h

/-- A live block lies in the regions. -/
theorem covers_large (hr : r ∈ s.large) (hx : (liveExtent s.header r).Has x) :
    Extent.Covers s.regions x :=
  (h.pool.tiles.covers x).mp ⟨_, mem_blocks_live hr, hx⟩

theorem owns_large (hr : r ∈ s.large) : s.slab.owns r.1 = false := by
  rw [← Bool.not_eq_true]
  intro howns
  simp only [Slab.owns, decide_eq_true_eq] at howns
  have hhas := (h.pool.live r hr).has (Nat.le_refl _) (Nat.le_add_right _ _)
  exact h.pages _ howns.2 _ (ptrToSlab_has r.1) (h.covers_large hr hhas)

theorem ne_zero_large (hr : r ∈ s.large) : r.1 ≠ 0 := by
  have := (h.pool.live r hr).behind
  unfold heapHeaderSize at this
  omega

theorem usableSize_large (hr : r ∈ s.large) :
    s.usableSize r.1 = (s.header (r.1 - heapHeaderSize)).size := by
  rw [usableSize, if_neg (h.ne_zero_large hr), h.owns_large hr]
  rfl

theorem usableSize_small (hr : r ∈ s.small) : s.usableSize r.1 = s.slab.testObjectSize r.1 := by
  have hu := h.small r hr
  rw [usableSize, if_neg (Nat.pos_iff_ne_zero.mp (hu.pos h.slab)), if_pos (hu.owns h.slab)]

/-- What the owner of a large allocation may use is in its block. -/
theorem usable_has (hr : r ∈ s.large) (hx : Extent.Has ⟨r.1, s.usableSize r.1⟩ x) :
    (liveExtent s.header r).Has x := by
  rw [h.usableSize_large hr] at hx
  unfold Extent.Has at hx
  exact (h.pool.live r hr).has hx.1 (Nat.le_of_lt hx.2)

theorem live_apart : Extent.Apart (s.live.map fun r => ⟨r.1, s.usableSize r.1⟩) := by
  rw [live, List.map_append]
  refine List.pairwise_append.mpr ⟨?_, ?_, ?_⟩
  · have hblocks := (List.pairwise_append.mp h.pool.tiles.apart).2.1
    have hlarge := List.pairwise_map.mp (List.pairwise_append.mp hblocks).2.1
    rw [List.pairwise_map]
    refine hlarge.imp_of_mem fun hr hq hdisj x hx hqx => ?_
    exact hdisj x (h.usable_has hr hx) (h.usable_has hq hqx)
  · rw [List.pairwise_map]
    refine (List.pairwise_map.mp h.nodup).imp_of_mem fun hr hq hne x hx hqx => ?_
    rw [h.usableSize_small hr] at hx
    rw [h.usableSize_small hq] at hqx
    exact (h.small _ hr).disjoint h.slab (h.small _ hq) hne x hx hqx
  · -- one is in the regions and the other in a page
    intro e he f hf x hx hfx
    obtain ⟨r, hr, rfl⟩ := List.mem_map.mp he
    obtain ⟨q, hq, rfl⟩ := List.mem_map.mp hf
    rw [h.usableSize_small hq] at hfx
    exact h.pages _ (h.small q hq).1 x ((h.small q hq).has_page h.slab hfx)
      (h.covers_large hr (h.usable_has hr hx))

theorem live_enough (hr : r ∈ s.live) : r.2 ≤ s.usableSize r.1 := by
  rcases List.mem_append.mp hr with hr | hr
  · rw [h.usableSize_large hr]
    exact (h.pool.live r hr).enough
  · rw [h.usableSize_small hr]
    exact (h.small r hr).le_size h.slab

theorem live_aligned (hr : r ∈ s.live) : r.1 % 16 = 0 := by
  rcases List.mem_append.mp hr with hr | hr
  · exact (h.pool.live r hr).aligned
  · exact (h.small r hr).aligned h.slab

/-! ## Accounts -/

theorem free_ordered :
    s.freeList.Pairwise fun a b => a + heapHeaderSize + (s.header a).size < b := by
  refine (List.pairwise_map.mp h.pool.ordered).imp fun hab => ?_
  rw [blockExtent_stop] at hab
  exact hab

theorem accounted : (s.freeList.map fun a => (s.header a).size + heapHeaderSize).sum +
    (s.large.map fun r => s.usableSize r.1 + heapHeaderSize + heapFooterSize).sum =
      Extent.total s.regions := by
  have htotal := h.pool.tiles.total
  rw [List.nil_append, blocks, Extent.total_append, Extent.total, Extent.total, extentsOf,
    List.map_map, List.map_map] at htotal
  rw [← htotal]
  congr 2
  refine List.map_congr_left fun r hr => ?_
  rw [h.usableSize_large hr]
  rfl

theorem used_eq : s.usedSize = (s.large.map fun r => s.usableSize r.1 + heapHeaderSize).sum := by
  rw [h.pool.used, usedBytes]
  refine congrArg List.sum (List.map_congr_left fun r hr => ?_)
  rw [h.usableSize_large hr]

end Inv

/-! ## `heap_malloc` -/

theorem covers_held_slab (x : ℕ) (hx : Extent.Covers s.slab.held x) : Extent.Covers s.held x :=
  Extent.covers_append.mpr (.inr hx)

theorem heapAlign_mod (n : ℕ) : heapAlign n % 16 = 0 := by
  unfold heapAlign
  omega

theorem le_heapAlign (n : ℕ) : n ≤ heapAlign n := by
  unfold heapAlign
  omega

/-- The three ways in which `heap_malloc` returns. -/
theorem malloc_cases {pmm : PageSource managed} {fuel size : ℕ} {ptr : Option ℕ}
    (hm : s.malloc pmm fuel size = .ok (ptr, t)) :
    (ptr = none ∧ t = s) ∨
    (size ≤ heapSlabMax ∧ ∃ slab, s.slab.alloc pmm s.held size = .ok (ptr, slab) ∧
      t = { s with slab := slab }) ∨
    (heapSlabMax < size ∧ mallocLoop pmm (heapAlign size) fuel s = some (ptr, t)) := by
  unfold malloc at hm
  split at hm
  · cases hm
    exact .inl ⟨rfl, rfl⟩
  · split at hm
    · rename_i hle
      cases halloc : s.slab.alloc pmm s.held size with
      | error text => simp [halloc] at hm
      | ok res =>
        simp only [halloc, Except.ok.injEq, Prod.mk.injEq] at hm
        obtain ⟨rfl, rfl⟩ := hm
        exact .inr (.inl ⟨hle, res.2, rfl, rfl⟩)
    · rename_i hgt
      cases hloop : mallocLoop pmm (heapAlign size) fuel s with
      | none => simp [hloop] at hm
      | some res =>
        simp only [hloop, Except.ok.injEq] at hm
        exact .inr (.inr ⟨Nat.lt_of_not_le hgt, by rw [hm]⟩)

theorem Inv.malloc_returns (h : s.Inv managed) (pmm : PageSource managed) {fuel size : ℕ}
    (hfuel : 2 ≤ fuel) :
    ∃ ptr t, s.malloc pmm fuel size = .ok (ptr, t) ∧ t.expansions ≤ s.expansions + 1 := by
  unfold malloc
  split
  · exact ⟨none, s, rfl, Nat.le_succ _⟩
  · split
    · rcases Slab.alloc_spec (n := size) h.slab pmm covers_held_slab with halloc | ⟨p, slab, halloc, -⟩
      · exact ⟨none, s, by rw [halloc], Nat.le_succ _⟩
      · exact ⟨some p, { s with slab := slab }, by rw [halloc], Nat.le_succ _⟩
    · obtain ⟨p, t, hloop, hcount⟩ := mallocLoop_returns pmm h.pool (heapAlign_mod size) hfuel
      exact ⟨p, t, by rw [hloop], hcount⟩

/-- The memory that the slab allocator has grown by is in no region. -/
theorem Inv.pages_of_extends {slab : Slab} (h : s.Inv managed)
    (hext : Slab.Extends s.held s.slab slab) (a : ℕ) (ha : slab.isSlab a = true) (x : ℕ)
    (hx : Extent.Has ⟨a, pageSize⟩ x) : ¬ Extent.Covers s.regions x := by
  rcases hext.pages a ha with ha | ha
  · exact h.pages a ha x hx
  · exact fun hc => ha x hx (covers_held_regions hc)

/-- So is the memory that the pool has grown by apart from the pages. -/
theorem Inv.pages_of_expands (h : s.Inv managed) (hexp : Expands s t) (a : ℕ)
    (ha : t.slab.isSlab a = true) (x : ℕ) (hx : Extent.Has ⟨a, pageSize⟩ x) :
    ¬ Extent.Covers t.regions x := by
  intro hc
  rw [hexp.slab] at ha
  rcases hexp.fresh x hc with hc | hc
  · exact h.pages a ha x hx hc
  · exact hc (covers_held_slab x (Slab.covers_held h.slab ha hx))

theorem Inv.malloc {pmm : PageSource managed} {fuel size : ℕ} {ptr : Option ℕ}
    (h : s.Inv managed) (hm : s.malloc pmm fuel size = .ok (ptr, t)) :
    (ptr.elim t fun p => t.record p size).Inv managed := by
  rcases malloc_cases hm with ⟨rfl, rfl⟩ | ⟨hle, slab, halloc, rfl⟩ | ⟨hlt, hloop⟩
  · exact h
  · rcases Slab.alloc_spec (n := size) h.slab pmm covers_held_slab with
      heq | ⟨p, slab', heq, hinv, hext, hnew, hused⟩
    · rw [heq] at halloc
      cases halloc
      exact h
    · rw [heq] at halloc
      cases halloc
      rw [Option.elim_some, record, if_pos hle]
      refine ⟨hinv, ?_, ?_, h.pages_of_extends hext, ⟨h.pool.tiles, h.pool.total, h.pool.ordered,
        h.pool.free, h.pool.live, h.pool.used, h.pool.managed⟩⟩
      · intro r hr
        rcases List.mem_cons.mp hr with rfl | hr
        · exact hused
        · exact hext.used _ _ (h.small r hr)
      · refine List.nodup_cons.mpr ⟨?_, h.nodup⟩
        intro hc
        obtain ⟨r, hr, hrp⟩ := List.mem_map.mp hc
        refine hnew r.2 ?_
        rw [← show r.1 = p from hrp]
        exact h.small r hr
  · have hfound := mallocLoop_found h.pool (heapAlign_mod size) (le_heapAlign size) hloop
    have hexp := hfound.expands
    have hpages := h.pages_of_expands hexp
    have hslab : t.slab.Inv := hexp.slab ▸ h.slab
    have hsmall : ∀ r ∈ t.small, t.slab.Used r.1 r.2 := by
      rw [hexp.small, hexp.slab]
      exact h.small
    have hnodup : (t.small.map Prod.fst).Nodup := hexp.small ▸ h.nodup
    have hpool := hfound.pool
    rw [← hexp.large] at hpool
    cases ptr with
    | none => exact ⟨hslab, hsmall, hnodup, hpages, hpool⟩
    | some p =>
      rw [Option.elim_some, record, if_neg (Nat.not_le.mpr hlt)]
      exact ⟨hslab, hsmall, hnodup, hpages, hpool⟩

/-! ## `heap_free` -/

/-- `heap_free` of a block of the pool. -/
theorem Inv.free_large (h : s.Inv managed) (hr : r ∈ s.large) :
    s.free managed r.1 = .ok
      (({ s with
        usedSize := s.usedSize -
          ((s.header (r.1 - heapHeaderSize)).size + heapHeaderSize) }.setHeader
        (r.1 - heapHeaderSize)
        { s.header (r.1 - heapHeaderSize) with
          size := (s.header (r.1 - heapHeaderSize)).size + heapFooterSize }).insertFree
        (r.1 - heapHeaderSize)) := by
  have hok := h.pool.live r hr
  have hmanaged : managed (r.1 - heapHeaderSize) = true :=
    h.pool.managed _ (h.covers_large hr (liveExtent_has _ _))
  have hfooter := hok.footer
  rw [show r.1 = r.1 - heapHeaderSize + heapHeaderSize from
    (Nat.sub_add_cancel hok.behind).symm, Nat.add_sub_cancel] at hfooter
  rw [free, if_neg (h.ne_zero_large hr), h.owns_large hr]
  simp only [Bool.false_eq_true, if_false, hmanaged, Bool.true_eq_false, hok.magic, hfooter,
    ne_eq, not_true_eq_false]
  rw [if_neg (by decide)]

theorem Inv.free_small (h : s.Inv managed) (hr : r ∈ s.small) :
    ∃ slab, s.free managed r.1 = .ok { s with slab := slab } ∧ slab.Inv ∧
      (∀ q m, q ≠ r.1 → s.slab.Used q m → slab.Used q m) ∧
      ∀ a, slab.isSlab a = true → s.slab.isSlab a = true := by
  have hu := h.small r hr
  obtain ⟨slab, hfree, hslab⟩ := Slab.free_spec h.slab hu
  refine ⟨slab, ?_, hslab⟩
  rw [free, if_neg (Nat.pos_iff_ne_zero.mp (hu.pos h.slab)), if_pos (hu.owns h.slab), hfree]

theorem Inv.free_returns (h : s.Inv managed) (hr : r ∈ s.live) :
    ∃ t, s.free managed r.1 = .ok t := by
  rcases List.mem_append.mp hr with hr | hr
  · exact ⟨_, h.free_large hr⟩
  · obtain ⟨slab, hfree, -⟩ := h.free_small hr
    exact ⟨_, hfree⟩

theorem Inv.forget_large (h : s.Inv managed) (hr : r ∈ s.large)
    (ht : s.free managed r.1 = .ok t) : (t.forget false r.1).Inv managed := by
  obtain ⟨q, before, behind, -, hq, hlarge, herase⟩ :=
    List.exists_of_eraseP (p := fun q : ℕ × ℕ => decide (q.1 = r.1)) hr (decide_eq_true rfl)
  have hqr : q.1 = r.1 := of_decide_eq_true hq
  have hok := h.pool.live r hr
  have hdis := h.pool.disown hlarge
  rw [h.free_large hr] at ht
  have ht' := Except.ok.inj ht
  generalize hblock : r.1 - heapHeaderSize = block at *
  -- the block with its footer is a free block
  have hset : blockExtent (Function.update s.header block
      { s.header block with size := (s.header block).size + heapFooterSize }) block =
      liveExtent s.header q := by
    rw [blockExtent, Function.update_self, liveExtent, hqr, hblock, Extent.mk.injEq]
    exact ⟨rfl, by dsimp only; omega⟩
  have hpend := hdis.setHeader (a := block)
    (Extent.covers_cons.mpr (.inl (by
      have := liveExtent_has s.header q
      rwa [hqr, hblock] at this)))
    { s.header block with size := (s.header block).size + heapFooterSize }
  rw [← hset] at hpend
  have hins := hpend.insert
    (by
      have := hok.aligned
      have := hok.behind
      unfold heapHeaderSize at *
      omega)
    (by
      show (Function.update s.header block _ block).size % 16 = 0
      rw [Function.update_self]
      have := hok.mult
      rw [hblock] at this
      unfold heapFooterSize
      dsimp only
      omega)
  rw [hqr, hblock] at hins
  subst ht'
  rw [forget, if_neg (by simp)]
  refine ⟨h.slab, h.small, h.nodup, h.pages, ?_⟩
  have hlist : s.large.eraseP (fun q => decide (q.1 = r.1)) = before ++ behind := herase
  simp only [show ∀ u : Heap, ∀ b, (u.insertFree b).large = u.large from fun _ _ => rfl,
    Heap.setHeader, hlist]
  exact hins

theorem Inv.forget_small (h : s.Inv managed) (hr : r ∈ s.small)
    (ht : s.free managed r.1 = .ok t) : (t.forget true r.1).Inv managed := by
  obtain ⟨slab, hfree, hslab, hothers, hpages⟩ := h.free_small hr
  rw [hfree] at ht
  cases ht
  obtain ⟨q, before, behind, -, hq, hsmall, herase⟩ :=
    List.exists_of_eraseP (p := fun q : ℕ × ℕ => decide (q.1 = r.1)) hr (decide_eq_true rfl)
  have hqr : q.1 = r.1 := of_decide_eq_true hq
  have hnodup := h.nodup
  rw [hsmall, List.map_append, List.map_cons, List.nodup_middle, List.nodup_cons, hqr,
    ← List.map_append] at hnodup
  rw [forget, if_pos rfl]
  refine ⟨hslab, ?_, ?_, fun a ha => h.pages a (hpages a ha), ⟨h.pool.tiles, h.pool.total,
    h.pool.ordered, h.pool.free, h.pool.live, h.pool.used, h.pool.managed⟩⟩
  · intro u hu
    replace hu : u ∈ before ++ behind := herase ▸ hu
    refine hothers _ _ ?_ (h.small u ?_)
    · intro heq
      exact hnodup.1 (heq ▸ List.mem_map_of_mem hu)
    · rw [hsmall]
      exact List.perm_middle.mem_iff.mpr (List.mem_cons_of_mem _ hu)
  · show ((s.small.eraseP _).map Prod.fst).Nodup
    rw [herase]
    exact hnodup.2

/-! ## Runs -/

theorem Inv.step {a : HeapAct managed} (h : s.Inv managed) (hs : s.step a = some t) :
    t.Inv managed := by
  cases a with
  | malloc pmm fuel size =>
    rw [Heap.step] at hs
    cases hm : s.malloc pmm fuel size with
    | error e => simp [hm] at hs
    | ok res =>
      obtain ⟨ptr, u⟩ := res
      have hinv := h.malloc hm
      cases ptr with
      | none =>
        simp only [hm, Option.some.injEq] at hs
        exact hs ▸ hinv
      | some p =>
        simp only [hm, Option.some.injEq] at hs
        exact hs ▸ hinv
  | free ptr =>
    rw [Heap.step] at hs
    split at hs
    · rename_i hptr
      cases hf : s.free managed ptr with
      | error e => simp [hf] at hs
      | ok u =>
        simp only [hf, Option.some.injEq] at hs
        subst hs
        by_cases hzero : ptr = 0
        · subst hzero
          rw [Heap.free, if_pos rfl] at hf
          cases hf
          -- no live pointer is `NULL`, so nothing is forgotten
          have hlarge : s.large.eraseP (fun r => decide (r.1 = 0)) = s.large :=
            List.eraseP_of_forall_not fun r hr => by simpa using h.ne_zero_large hr
          rw [show s.slab.owns 0 = false by simp [Slab.owns], forget, if_neg (by simp), hlarge]
          exact h
        · obtain ⟨r, hr, rfl⟩ := List.mem_map.mp (hptr.resolve_left hzero)
          rcases List.mem_append.mp hr with hr | hr
          · rw [h.owns_large hr]
            exact h.forget_large hr hf
          · rw [(h.small r hr).owns h.slab]
            exact h.forget_small hr hf
    · simp at hs

theorem empty_inv : empty.Inv managed where
  slab := Slab.empty_inv
  small := by simp [empty]
  nodup := by simp [empty]
  pages := by simp [empty, Slab.empty]
  pool := by
    refine ⟨⟨.nil, fun x => Iff.rfl, rfl⟩, rfl, .nil, ?_, ?_, rfl, ?_⟩
    · simp [empty]
    · simp [empty]
    · rintro x ⟨e, he, -⟩
      simp [empty] at he

/-- `slab_init` of a class. -/
theorem Inv.seed {pmm : PageSource managed} {idx : ℕ} (h : s.Inv managed)
    (hidx : idx < slabNumClasses) (ht : s.seed pmm idx = .ok t) :
    t.Inv managed ∧ t.freeList = s.freeList := by
  unfold Heap.seed at ht
  dsimp only at ht
  split at ht
  · simp at ht
  · rcases Slab.grow_spec h.slab pmm covers_held_slab hidx with
      hgrow | ⟨sp, slab, hgrow, hinv, hext, -⟩
    · simp [hgrow] at ht
    · simp only [hgrow, Except.ok.injEq] at ht
      subst ht
      refine ⟨⟨hinv, fun r hr => hext.used _ _ (h.small r hr), h.nodup, h.pages_of_extends hext,
        ⟨h.pool.tiles, h.pool.total, h.pool.ordered, h.pool.free, h.pool.live, h.pool.used,
          h.pool.managed⟩⟩, rfl⟩

theorem Inv.seeds {pmm : PageSource managed} {is : List ℕ} (h : s.Inv managed)
    (his : ∀ i ∈ is, i < slabNumClasses)
    (ht : is.foldlM (fun s idx => s.seed pmm idx) s = .ok t) :
    t.Inv managed ∧ t.freeList = s.freeList := by
  induction is generalizing s with
  | nil =>
    cases ht
    exact ⟨h, rfl⟩
  | cons i is ih =>
    rw [List.foldlM_cons, bind_eq_ok] at ht
    obtain ⟨u, hu, ht⟩ := ht
    obtain ⟨hinv, hlist⟩ := h.seed (his i List.mem_cons_self) hu
    obtain ⟨hinv', hlist'⟩ := ih hinv (fun j hj => his j (List.mem_cons_of_mem _ hj)) ht
    exact ⟨hinv', hlist'.trans hlist⟩

/-- The first block is inserted into an empty list. -/
theorem insertFree_nil {block size : ℕ} (hlist : s.freeList = [])
    (hheader : s.header block = ⟨size, true, heapMagicFree⟩) :
    s.insertFree block = { s with freeList := [block] } := by
  have hsame : Function.update s.header block
      { s.header block with isFree := true, magic := heapMagicFree } = s.header := by
    rw [hheader, ← hheader, Function.update_eq_self]
  simp only [insertFree, setHeader, hsame, hlist]
  rfl

theorem init_inv {pmm : PageSource managed} (h : init pmm = .ok s) : s.Inv managed := by
  unfold init at h
  obtain ⟨u, hu, h⟩ := bind_eq_ok.mp h
  obtain ⟨hinv, hlist⟩ := Inv.seeds empty_inv (fun i hi => List.mem_range.mp hi) hu
  cases hexpand : u.expand pmm pageSize with
  | none => simp [hexpand] at h
  | some res =>
    obtain ⟨block, v⟩ := res
    simp only [hexpand, Except.ok.injEq] at h
    obtain ⟨hpool, hal, hmult, -, hlist', -, hexp⟩ := expand_spec hinv.pool hexpand
    obtain ⟨pages, -, -, hv⟩ := expand_cases hexpand
    have hheader : v.header block = ⟨pages * pageSize - heapHeaderSize, true, heapMagicFree⟩ := by
      rw [hv]
      exact setHeader_self _ _ _
    have hins := hpool.insert hal hmult
    rw [insertFree_nil (hlist'.trans hlist) hheader, h] at hins
    subst h
    refine ⟨hexp.slab ▸ hinv.slab, ?_, ?_, ?_, hins⟩
    · show ∀ r ∈ v.small, v.slab.Used r.1 r.2
      rw [hexp.small, hexp.slab]
      exact hinv.small
    · show (v.small.map Prod.fst).Nodup
      rw [hexp.small]
      exact hinv.nodup
    · intro a ha
      exact hinv.pages_of_expands hexp a ha

theorem Inv.sound (h : s.Inv managed) : s.Sound managed where
  disjoint := h.live_apart
  enough _ hr := h.live_enough hr
  aligned _ hr := h.live_aligned hr
  ordered := h.free_ordered
  accounted := h.accounted
  total := h.pool.total
  used := h.used_eq
  malloc pmm _ _ hfuel := h.malloc_returns pmm hfuel
  free _ hr := h.free_returns hr

/-- After any sequence of calls live allocations are apart, large enough and aligned, the free
list is ordered and merged, the accounts balance, and a call expands the pool at most once. -/
theorem heap_run_sound {pmm : PageSource managed} {acts : List (HeapAct managed)}
    (hinit : init pmm = .ok s) (hrun : Run (Moves Heap.step) s acts t) : t.Sound managed :=
  (hrun.invariant (Inv managed) (fun _ _ _ h hs => h.step hs) (init_inv hinit)).sound

end Heap

/-- A page allocator that gives the pages behind everything the caller holds. -/
def PageSource.behind : PageSource fun _ => true where
  alloc _ held := some (((held.map Extent.stop).sum / pageSize + 1) * pageSize)
  fresh := by
    intro n held page hpage
    have hpage := Option.some.inj hpage
    subst hpage
    refine ⟨by unfold pageSize; omega, Nat.mul_mod_left _ _, fun x hx => ⟨rfl, ?_⟩⟩
    rintro ⟨e, he, hex⟩
    have hle : e.stop ≤ (held.map Extent.stop).sum :=
      List.single_le_sum (by simp) _ (List.mem_map_of_mem he)
    unfold Extent.Has at hx hex
    unfold Extent.stop pageSize at *
    dsimp only at hx
    omega

namespace Heap

/-- A run that splits a block, expands the pool and merges a freed block on both sides. -/
theorem heap_run_sound_merged : ∃ s t : Heap, ∃ acts : List (HeapAct fun _ => true),
    init PageSource.behind = .ok s ∧ Run (Moves Heap.step) s acts t ∧
      t.live.map Prod.snd = [9000, 100] ∧ t.freeList.length = 2 ∧ t.expansions = 2 ∧
      t.Sound fun _ => true := by
  let pmm := PageSource.behind
  let acts : List (HeapAct fun _ => true) :=
    [.malloc pmm 2 2000, .malloc pmm 2 100, .malloc pmm 2 5000, .malloc pmm 2 9000,
      .free 1044512, .free 1046560]
  have heval : ((init pmm).toOption.any fun s => (exec Heap.step s acts).any fun t =>
      decide (t.live.map Prod.snd = [9000, 100] ∧ t.freeList.length = 2 ∧ t.expansions = 2)) = true := by
    decide +kernel
  cases hinit : init pmm with
  | error e => simp [hinit, Except.toOption] at heval
  | ok s =>
    rw [hinit] at heval
    obtain ⟨t, hrun, ht⟩ := exists_run_of_exec heval
    obtain ⟨hlive, hfree, hcount⟩ := of_decide_eq_true ht
    exact ⟨s, t, acts, rfl, hrun, hlive, hfree, hcount, heap_run_sound hinit hrun⟩

end Heap

end Perspicua.Mm
