import Perspicua.Lib.Except
import Perspicua.Mm.PmmRun

/-!
# The buddy allocator is complete and forgets nothing

No two free buddies coexist, so the free blocks are a canonical family: they are known from
the pages that are free. An aligned run of free pages therefore lies in one free block, and
an allocation fails only where there is no such run; and when all of some allocations are
freed again, in any order, the free lists hold what they held before.

`pmm_init` writes its metadata through the page tables of `boot.S`, which map the first
gigabyte of memory (`MetadataMapped`). That leaves room for `2 ^ 26` pages, and their kernel
addresses do not wrap.
-/

namespace Perspicua.Mm.Pmm

open Perspicua.Lib

/-! ## Sizes -/

theorem getOrderLoop_spec {count fuel : ℕ} (hcount : count ≤ 2 ^ pmmMaxOrder) :
    ∀ {order : ℕ}, order + fuel = pmmMaxOrder + 1 → (order = 0 ∨ 2 ^ (order - 1) < count) →
      count ≤ 2 ^ getOrderLoop count fuel order (2 ^ order) ∧
        (getOrderLoop count fuel order (2 ^ order) = 0 ∨
          2 ^ (getOrderLoop count fuel order (2 ^ order) - 1) < count) := by
  induction fuel with
  | zero =>
    intro order hfuel hlow
    rcases hlow with h0 | hlow
    · exact absurd hfuel (by rw [h0]; decide)
    · rw [show order - 1 = pmmMaxOrder by omega] at hlow
      omega
  | succ fuel ih =>
    intro order hfuel hlow
    rw [getOrderLoop]
    split
    · rename_i hlt
      have hmax : order < pmmMaxOrder := by
        rw [← Nat.pow_lt_pow_iff_right (Nat.one_lt_two)]
        exact hlt.trans_le hcount
      rw [if_neg (Nat.not_le.mpr hmax), Nat.shiftLeft_eq, pow_one, ← pow_succ]
      exact ih (by omega) (.inr (by simpa using hlt))
    · rename_i hge
      exact ⟨Nat.le_of_not_lt hge, hlow⟩

/-- `get_order` rounds up to a power of two. -/
theorem getOrder_eq_clog {count : ℕ} (hpos : 0 < count) (hcount : count ≤ 2 ^ pmmMaxOrder) :
    getOrder count = Nat.clog 2 count := by
  obtain ⟨hle, hlow⟩ := @getOrderLoop_spec count (pmmMaxOrder + 1) hcount 0 (by omega) (.inl rfl)
  rw [pow_zero] at hle hlow
  rw [getOrder, if_neg (by omega)]
  refine le_antisymm ?_ (Nat.clog_le_of_le_pow hle)
  by_contra hlt
  rcases hlow with h0 | hlow
  · omega
  · have := (Nat.clog_le_iff_le_pow Nat.one_lt_two).mp (Nat.le_sub_one_of_lt (Nat.lt_of_not_le hlt))
    omega

/-! ## Free pages -/

/-- A managed page that is in no block somebody refers to. -/
def FreePage (s : Pmm) (refs : Block → ℕ) (q : ℕ) : Prop :=
  q < s.numPages ∧ ¬ s.Reserved q ∧ ∀ b ∈ live refs, q ∉ b

variable {s t : Pmm} {refs : Block → ℕ} {b : Block}

namespace PmmInv

theorem freePage_iff (h : s.PmmInv refs) (q : ℕ) :
    s.FreePage refs q ↔ ∃ b ∈ s.freeBlocks, q ∈ b := by
  constructor
  · rintro ⟨hq, hres, hlive⟩
    rcases h.core.tiling.cover q hq with hr | ⟨b, hb | hb, hqb⟩
    · exact absurd hr hres
    · exact ⟨b, hb, hqb⟩
    · exact absurd hqb (hlive b hb)
  · rintro ⟨b, hb, hqb⟩
    refine ⟨Nat.lt_of_lt_of_le hqb.2 (h.core.tiling.bound b (Or.inl hb)),
      h.core.tiling.unreserved b (Or.inl hb) q hqb, fun c hc hqc => ?_⟩
    have hbc := h.core.tiling.disjoint b (Or.inl hb) c (Or.inr hc) q hqb hqc
    exact h.core.used_not_free hc (hbc ▸ hb)

theorem canonical (h : s.PmmInv refs) : Canonical pmmMaxOrder s.freeBlocks where
  order_le b hb := h.core.tiling.order_le b (Or.inl hb)
  aligned b hb := h.core.tiling.aligned b (Or.inl hb)
  disjoint b hb c hc := h.core.tiling.disjoint b (Or.inl hb) c (Or.inl hc)
  no_buddies p k hk hp := h.core.no_buddies p k hk hp

/-- The free blocks are known from the references. -/
theorem freeBlocks_eq (h : s.PmmInv refs) (h' : t.PmmInv refs) (hsame : SameRanges s t) :
    t.freeBlocks = s.freeBlocks := by
  refine h'.canonical.unique h.canonical fun q => ?_
  rw [← h.freePage_iff, ← h'.freePage_iff, FreePage, FreePage, Reserved, Reserved, pfnIsReserved,
    pfnIsReserved, rangeOverlapsReservedPfns, rangeOverlapsReservedPfns, hsame.1, hsame.2]

/-! ## Allocation -/

/-- A free block of the order asked for, or of a larger one, is found. -/
theorem alloc_of_free (h : s.PmmInv refs) {count : ℕ} (hpos : 0 < count) (hb : b ∈ s.freeBlocks)
    (hle : getOrder count ≤ b.order) : ∀ t, s.pmmAllocPagesNozero count ≠ .ok (none, t) := by
  intro t ht
  have hmax : b.order ≤ pmmMaxOrder := h.canonical.order_le b hb
  obtain ⟨-, -, hnull⟩ := @findOrder_spec s (pmmMaxOrder + 1 - getOrder count) (getOrder count)
    (by omega)
  -- its list is not empty
  have hlist : s.freeLists b.order ≠ pmmPfnNull := by
    intro hc
    obtain ⟨l, hd, hl⟩ := h.core.lists b.order hmax
    rw [hc] at hd
    have hmem := (hl b.base).mpr hb
    rw [hd.head_null] at hmem
    exact absurd hmem (List.not_mem_nil)
  have hfind : s.findOrder (pmmMaxOrder + 1 - getOrder count) (getOrder count) ≤ pmmMaxOrder := by
    by_contra hlt
    exact hlist (hnull b.order hle (by omega))
  unfold pmmAllocPagesNozero at ht
  rw [if_neg (by omega)] at ht
  dsimp only at ht
  rw [if_neg (by omega), if_neg (by omega)] at ht
  obtain ⟨u, -, hu⟩ := bind_eq_ok.mp ht
  simp at hu

/-- A block that is handed out was an aligned run of free pages. -/
theorem run_of_alloc (h' : t.PmmInv (Function.update refs b 1))
    (hsame : SameRanges s t) (hnew : b ∉ live refs) :
    2 ^ b.order ∣ b.base ∧ ∀ q ∈ b, s.FreePage refs q := by
  have hb : b ∈ live (Function.update refs b 1) := by
    rw [mem_live_update Nat.one_pos]
    exact Set.mem_insert _ _
  refine ⟨h'.core.tiling.aligned b (Or.inr hb), fun q hq => ⟨?_, ?_, ?_⟩⟩
  · rw [← hsame.1]
    exact Nat.lt_of_lt_of_le hq.2 (h'.core.tiling.bound b (Or.inr hb))
  · have hres := h'.core.tiling.unreserved b (Or.inr hb) q hq
    rw [Reserved, pfnIsReserved, rangeOverlapsReservedPfns, hsame.1, hsame.2] at hres
    exact hres
  · intro c hc hqc
    have hc' : c ∈ live (Function.update refs b 1) := by
      rw [mem_live_update Nat.one_pos]
      exact Set.mem_insert_of_mem _ hc
    have hcb := h'.core.tiling.disjoint c (Or.inr hc') b (Or.inr hb) q hqc hq
    exact hnew (hcb ▸ hc)

end PmmInv

/-- The kernel address of a block. -/
def addrOf (b : Block) : ℕ := p2v (b.base * pageSize)

/-- The kernel addresses of all pages are in the kernel's part of the address space. -/
theorem addrOf_spec (hpages : s.numPages ≤ 2 ^ 26) (hb : b.base < s.numPages) :
    kernelVma ≤ addrOf b ∧ v2p (addrOf b) / pageSize = b.base := by
  have hlt : b.base * pageSize < 2 ^ 38 := by
    unfold pageSize
    omega
  constructor
  · unfold addrOf p2v kernelVma
    omega
  · rw [addrOf, v2p_p2v (by omega)]
    exact Nat.mul_div_cancel _ (by decide)

/-- An allocation finds a block exactly if there is a run for it. -/
theorem PmmInv.alloc_iff (h : s.PmmInv refs) (hpages : s.numPages ≤ 2 ^ 26) {n : ℕ} (hpos : 0 < n)
    (hn : n ≤ 2 ^ pmmMaxOrder) :
    (∃ v t, s.pmmAllocPagesNozero n = .ok (some v, t) ∧ v ≠ 0) ↔
      ∃ p, 2 ^ Nat.clog 2 n ∣ p ∧ ∀ q, p ≤ q → q < p + 2 ^ Nat.clog 2 n → s.FreePage refs q := by
  rw [← getOrder_eq_clog hpos hn]
  rcases pmmAllocPagesNozero_inv h n with hnull | ⟨pfn, t, ht, hlt, hnew, hinv, hsame⟩
  · refine iff_of_false ?_ ?_
    · rintro ⟨v, t, ht, -⟩
      rw [hnull] at ht
      cases ht
    · rintro ⟨p, hp, hrun⟩
      have horder : getOrder n ≤ pmmMaxOrder := by
        rw [getOrder_eq_clog hpos hn]
        exact Nat.clog_le_of_le_pow hn
      obtain ⟨b, hb, hle, -⟩ := h.canonical.exists_of_run horder hp fun q hq =>
        (h.freePage_iff q).mp (hrun q hq.1 hq.2)
      exact h.alloc_of_free hpos hb hle s hnull
  · obtain ⟨halign, hrun⟩ := hinv.run_of_alloc hsame hnew
    refine iff_of_true ⟨_, t, ht, ?_⟩ ⟨pfn, halign, fun q hle hq => hrun q ⟨hle, hq⟩⟩
    have hk : kernelVma ≤ p2v (pfn * pageSize) :=
      (@addrOf_spec s ⟨pfn, getOrder n⟩ hpages hlt).1
    exact Nat.pos_iff_ne_zero.mp (Nat.lt_of_lt_of_le (by decide) hk)

/-! ## Allocating and freeing again -/

/-- Allocations one after the other, with the addresses that are not `NULL`. -/
def allocAll : List ℕ → Pmm → Except Panic (List ℕ × Pmm)
  | [], s => .ok ([], s)
  | n :: ns, s => do
    let (v, s) ← s.pmmAllocPagesNozero n
    let (vs, s) ← allocAll ns s
    .ok (v.toList ++ vs, s)

/-- Frees one after the other. -/
def freeAll : List ℕ → Pmm → Except Panic Pmm
  | [], s => .ok s
  | v :: vs, s => do
    let s ← s.pmmFreePages v
    freeAll vs s

/-- References with one more to each of some new blocks. -/
def withBlocks (refs : Block → ℕ) (bs : List Block) : Block → ℕ :=
  fun b => if b ∈ bs then 1 else refs b

@[simp] theorem withBlocks_nil : withBlocks refs [] = refs := by
  funext b
  simp [withBlocks]

theorem withBlocks_cons (bs : List Block) :
    withBlocks refs (b :: bs) = Function.update (withBlocks refs bs) b 1 := by
  funext c
  by_cases hc : c = b
  · rw [hc, Function.update_self, withBlocks, if_pos List.mem_cons_self]
  · rw [Function.update_of_ne hc, withBlocks, withBlocks]
    simp [hc]

theorem allocAll_inv (h : s.PmmInv refs) (hpages : s.numPages ≤ 2 ^ 26) (ns : List ℕ) :
    ∃ bs t, allocAll ns s = .ok (bs.map addrOf, t) ∧ t.PmmInv (withBlocks refs bs) ∧
      SameRanges s t ∧ bs.Nodup ∧ ∀ b ∈ bs, refs b = 0 := by
  induction ns generalizing s refs with
  | nil => exact ⟨[], s, rfl, by simpa using h, ⟨rfl, rfl⟩, .nil, by simp⟩
  | cons n ns ih =>
    rcases pmmAllocPagesNozero_inv h n with hnull | ⟨pfn, u, hu, hlt, hnew, hinv, hsame⟩
    · obtain ⟨bs, t, ht, hbs⟩ := ih h hpages
      refine ⟨bs, t, ?_, hbs⟩
      rw [allocAll, hnull]
      simp [bind, Except.bind, ht]
    · obtain ⟨bs, t, ht, hinv', hsame', hnodup, hzero⟩ := ih hinv (hsame.1 ▸ hpages)
      -- the later blocks are new to the references with this one
      have hnot : ∀ b ∈ bs, b ≠ ⟨pfn, getOrder n⟩ ∧ refs b = 0 := by
        intro b hb
        have hz := hzero b hb
        by_cases hbp : b = ⟨pfn, getOrder n⟩
        · rw [hbp, Function.update_self] at hz
          exact absurd hz Nat.one_ne_zero
        · rw [Function.update_of_ne hbp] at hz
          exact ⟨hbp, hz⟩
      refine ⟨⟨pfn, getOrder n⟩ :: bs, t, ?_, ?_, ?_, ?_, ?_⟩
      · rw [allocAll, hu]
        simp [bind, Except.bind, ht, addrOf]
      · have hcomm : withBlocks refs (⟨pfn, getOrder n⟩ :: bs) =
            withBlocks (Function.update refs ⟨pfn, getOrder n⟩ 1) bs := by
          funext c
          rw [withBlocks_cons, withBlocks]
          by_cases hc : c = ⟨pfn, getOrder n⟩
          · rw [hc, Function.update_self, if_neg fun hm => (hnot _ hm).1 rfl, Function.update_self]
          · rw [Function.update_of_ne hc, Function.update_of_ne hc, withBlocks]
        rw [hcomm]
        exact hinv'
      · exact ⟨hsame'.1.trans hsame.1, hsame'.2.trans hsame.2⟩
      · exact List.nodup_cons.mpr ⟨fun hm => (hnot _ hm).1 rfl, hnodup⟩
      · intro b hb
        rcases List.mem_cons.mp hb with rfl | hb
        · exact Nat.eq_zero_of_not_pos hnew
        · exact (hnot b hb).2

theorem freeAll_inv {bs : List Block} (h : s.PmmInv (withBlocks refs bs))
    (hpages : s.numPages ≤ 2 ^ 26) (hnodup : bs.Nodup) (hzero : ∀ b ∈ bs, refs b = 0) :
    ∃ t, freeAll (bs.map addrOf) s = .ok t ∧ t.PmmInv refs ∧ SameRanges s t := by
  induction bs generalizing s with
  | nil => exact ⟨s, rfl, by simpa using h, rfl, rfl⟩
  | cons b bs ih =>
    rw [List.nodup_cons] at hnodup
    have hb : b ∈ live (withBlocks refs (b :: bs)) := by
      simp [live, withBlocks]
    obtain ⟨hk, hbase⟩ := addrOf_spec hpages (h.base_lt hb)
    obtain ⟨u, hu, hinv, hsame⟩ := pmmFreePages_inv h hb hk hbase
    have hrest : Function.update (withBlocks refs (b :: bs)) b
        (withBlocks refs (b :: bs) b - 1) = withBlocks refs bs := by
      have hval : withBlocks refs bs b = 0 := by
        rw [withBlocks, if_neg hnodup.1]
        exact hzero b List.mem_cons_self
      rw [withBlocks_cons, Function.update_idem, Function.update_self, Nat.sub_self, ← hval,
        Function.update_eq_self]
    rw [hrest] at hinv
    obtain ⟨t, ht, hinv', hsame'⟩ := ih hinv (hsame.1 ▸ hpages) hnodup.2 fun c hc =>
      hzero c (List.mem_cons_of_mem _ hc)
    refine ⟨t, ?_, hinv', hsame'.1.trans hsame.1, hsame'.2.trans hsame.2⟩
    rw [List.map_cons, freeAll, hu]
    exact ht

/-- Whatever is allocated can be freed in any order, and then the free blocks are those from
before. -/
theorem PmmInv.restore (h : s.PmmInv refs) (hpages : s.numPages ≤ 2 ^ 26) (ns : List ℕ) :
    ∃ vs t, allocAll ns s = .ok (vs, t) ∧ ∀ vs', vs'.Perm vs →
      ∃ u, freeAll vs' t = .ok u ∧ u.freeBlocks = s.freeBlocks ∧ u.ListsFor s.FreeHead := by
  obtain ⟨bs, t, ht, hinv, hsame, hnodup, hzero⟩ := allocAll_inv h hpages ns
  refine ⟨bs.map addrOf, t, ht, fun vs' hperm => ?_⟩
  -- the addresses in another order are those of the blocks in another order
  obtain ⟨cs, hcs, hbs⟩ : ∃ cs : List Block, vs' = cs.map addrOf ∧ cs.Perm bs := by
    have hall : List.Forall₂ (fun v b => v = addrOf b) (bs.map addrOf) bs := by
      rw [List.forall₂_map_left_iff, List.forall₂_same]
      exact fun _ _ => rfl
    obtain ⟨cs, hcs, hbs⟩ := List.perm_comp_forall₂ hperm hall
    refine ⟨cs, ?_, hbs⟩
    rw [← List.forall₂_map_right_iff (R := Eq), List.forall₂_eq_eq_eq] at hcs
    exact hcs
  have hrefs : withBlocks refs bs = withBlocks refs cs := by
    funext b
    rw [withBlocks, withBlocks]
    simp [hbs.mem_iff]
  rw [hrefs] at hinv
  obtain ⟨u, hu, hinv', hsame'⟩ := freeAll_inv hinv (hsame.1 ▸ hpages) (hbs.nodup_iff.mpr hnodup)
    fun b hb => hzero b (hbs.mem_iff.mp hb)
  have hfree := h.freeBlocks_eq hinv' ⟨hsame'.1.trans hsame.1, hsame'.2.trans hsame.2⟩
  refine ⟨u, hcs ▸ hu, hfree, hinv'.core.lists.imp fun q k => ?_⟩
  have hiff : (⟨q, k⟩ : Block) ∈ u.freeBlocks ↔ ⟨q, k⟩ ∈ s.freeBlocks := by rw [hfree]
  exact hiff

/-! ## Runs -/

/-- The metadata array ends in the first gigabyte of memory. -/
def MetadataMapped (memSize kernelEnd : ℕ) : Prop :=
  v2p ((kernelEnd + 15) % 2 ^ 64 / 16 * 16) + memSize / pageSize * 16 ≤ 2 ^ 30

/-- In every state that calls can reach, an allocation succeeds exactly if an aligned run of
free pages is there for it, and freeing all of some allocations restores the free blocks. -/
theorem pmm_run_complete {s₀ s₁ s : Pmm} {refs : Block → ℕ} {memSize kernelEnd : ℕ}
    {rs : List (ℕ × ℕ)} {ops : List PmmOp} (hreserve : Run Reserve boot rs s₀)
    (hinit : s₀.pmmInit memSize kernelEnd = .ok s₁) (hmapped : MetadataMapped memSize kernelEnd)
    (hrun : Run Call (s₁, fun _ => 0) ops (s, refs)) :
    (∀ n, 0 < n → n ≤ 2 ^ pmmMaxOrder →
      ((∃ v t, s.pmmAllocPagesNozero n = .ok (some v, t) ∧ v ≠ 0) ↔
        ∃ p, 2 ^ Nat.clog 2 n ∣ p ∧
          ∀ q, p ≤ q → q < p + 2 ^ Nat.clog 2 n → s.FreePage refs q)) ∧
    ∀ ns, ∃ vs t, allocAll ns s = .ok (vs, t) ∧ ∀ vs', vs'.Perm vs →
      ∃ u, freeAll vs' t = .ok u ∧ u.freeBlocks = s.freeBlocks ∧ u.ListsFor s.FreeHead := by
  obtain ⟨hinv₁, -, hnum⟩ := pmmInit_inv (reserve_run hreserve).1 hinit
  obtain ⟨hinv, hsame, -⟩ := call_run hinv₁ hrun
  have hpages : s.numPages ≤ 2 ^ 26 := by
    rw [hsame, hnum]
    unfold MetadataMapped at hmapped
    omega
  exact ⟨fun n hpos hn => hinv.alloc_iff hpages hpos hn, hinv.restore hpages⟩

/-- A machine of eight pages of which the first and the fourth are reserved. With four pages
handed out two are left, and they are no aligned pair. -/
theorem pmm_run_complete_small : ∃ s₀ s₁ s refs,
    Run Reserve boot [(0x3000, 16)] s₀ ∧ s₀.pmmInit 0x8000 kernelVma = .ok s₁ ∧
    MetadataMapped 0x8000 kernelVma ∧ Run Call (s₁, fun _ => 0) [.alloc 3] (s, refs) ∧
    s.freePagesCount = 2 ∧
    (¬ ∃ p, 2 ^ Nat.clog 2 2 ∣ p ∧ ∀ q, p ≤ q → q < p + 2 ^ Nat.clog 2 2 → s.FreePage refs q) ∧
    ∃ vs t, allocAll [1, 2, 1] s = .ok (vs, t) ∧ ∀ vs', vs'.Perm vs →
      ∃ u, freeAll vs' t = .ok u ∧ u.freeBlocks = s.freeBlocks ∧ u.ListsFor s.FreeHead := by
  obtain ⟨s₀, h₀⟩ : ∃ s₀, boot.pmmReserveRange 0x3000 16 = .ok s₀ := ⟨_, rfl⟩
  obtain ⟨s₁, h₁⟩ : ∃ s₁, s₀.pmmInit 0x8000 kernelVma = .ok s₁ := by
    cases h₀
    exact ⟨_, rfl⟩
  obtain ⟨s₂, h₂⟩ : ∃ s₂, s₁.pmmAllocPagesNozero 3 = .ok (some (p2v 0x4000), s₂) := by
    cases h₀
    cases h₁
    exact ⟨_, rfl⟩
  have hmapped : MetadataMapped 0x8000 kernelVma := by
    unfold MetadataMapped
    decide
  have hreserve : Run Reserve boot [(0x3000, 16)] s₀ := .single h₀
  have hrun := Run.single (@Call.alloc s₁ s₂ (fun _ => 0) 3 _ h₂)
  obtain ⟨hiff, hrestore⟩ := pmm_run_complete hreserve h₁ hmapped hrun
  refine ⟨s₀, s₁, s₂, _, hreserve, h₁, hmapped, hrun, ?_, ?_, hrestore [1, 2, 1]⟩
  · cases h₀
    cases h₁
    cases h₂
    rfl
  · rw [← hiff 2 (by decide) (by decide)]
    rintro ⟨v, t, ht, -⟩
    cases h₀
    cases h₁
    cases h₂
    cases ht

end Perspicua.Mm.Pmm
