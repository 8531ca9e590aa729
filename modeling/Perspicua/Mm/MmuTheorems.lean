import Perspicua.Lib.Count
import Perspicua.Lib.Except
import Perspicua.Mm.PmmRun
import Perspicua.Mm.Mmu

/-!
# Counting the leaves of a page table

What the user page-table operations do to the entries that map a page: which leaf they
change and which pages they allocate for tables. Every statement is about `Pgd.count f`,
the total of an arbitrary quantity over the leaves, so that one lemma serves the number of
leaves and the number of writable leaves.
-/

namespace Perspicua.Mm

open Perspicua.Lib

/-! ## Descriptor words -/

theorem or_and_of_disjoint {x c m : Word} (h : c &&& m = 0#64) : (x ||| c) &&& m = x &&& m := by
  rw [BitVec.and_or_distrib_right, h]
  exact BitVec.or_zero

theorem and_and_of_subset {x a m : Word} (h : a &&& m = m) : (x &&& a) &&& m = x &&& m := by
  rw [BitVec.and_assoc, h]

/-- Marking an entry copy-on-write keeps every field but the two bits it sets. -/
theorem cowMark_and {w m : Word} (hro : ~~~apRo &&& m = m) (hset : (apRo ||| pteCow) &&& m = 0#64) :
    cowMark w &&& m = w &&& m := by
  unfold cowMark
  split
  · rfl
  · rw [or_and_of_disjoint hset, and_and_of_subset hro]

@[simp] theorem has_cowMark_valid (w : Word) : has (cowMark w) pteValid = has w pteValid := by
  unfold has
  rw [cowMark_and (by decide) (by decide)]

@[simp] theorem has_cowMark_page (w : Word) : has (cowMark w) ptePage = has w ptePage := by
  unfold has
  rw [cowMark_and (by decide) (by decide)]

@[simp] theorem ptePtr_cowMark (w : Word) : ptePtr (cowMark w) = ptePtr w := by
  unfold ptePtr pteAddr
  rw [cowMark_and (by decide) (by decide)]

theorem has_cowMark_ro (w : Word) : has (cowMark w) apRo = true := by
  unfold cowMark
  split
  · assumption
  · unfold has
    rw [BitVec.and_or_distrib_right, BitVec.and_assoc, show ~~~apRo &&& apRo = 0#64 by decide,
      BitVec.and_zero, BitVec.zero_or]
    decide

theorem promote_and {w m : Word} (hcow : ~~~pteCow &&& m = m) (hro : ~~~apRo &&& m = m) :
    promote w &&& m = w &&& m := by
  unfold promote
  rw [and_and_of_subset hro, and_and_of_subset hcow]

@[simp] theorem has_promote_valid (w : Word) : has (promote w) pteValid = has w pteValid := by
  unfold has
  rw [promote_and (by decide) (by decide)]

@[simp] theorem has_promote_page (w : Word) : has (promote w) ptePage = has w ptePage := by
  unfold has
  rw [promote_and (by decide) (by decide)]

@[simp] theorem ptePtr_promote (w : Word) : ptePtr (promote w) = ptePtr w := by
  unfold ptePtr pteAddr
  rw [promote_and (by decide) (by decide)]

/-- The address field holds the address of any page the allocator can name. -/
theorem ofNat_and_addrMask {pfn : ℕ} (h : pfn < 2 ^ 36) :
    BitVec.ofNat 64 (pfn * pageSize) &&& pteAddrMask = BitVec.ofNat 64 (pfn * pageSize) := by
  apply BitVec.eq_of_toNat_eq
  have hlt : pfn * pageSize < 2 ^ 64 := by
    unfold pageSize
    omega
  rw [BitVec.toNat_and, BitVec.toNat_ofNat, Nat.mod_eq_of_lt hlt]
  show pfn * pageSize &&& 0x0000FFFFFFFFF000 = pfn * pageSize
  have hs : pfn * pageSize = pfn <<< 12 := by
    rw [Nat.shiftLeft_eq]
    rfl
  rw [hs, show 0x0000FFFFFFFFF000 = (2 ^ 36 - 1) <<< 12 by decide, ← Nat.shiftLeft_and_distrib,
    Nat.and_two_pow_sub_one_eq_mod, Nat.mod_eq_of_lt h]

theorem ofNat_page_toNat {pfn : ℕ} (h : pfn < 2 ^ 36) :
    (BitVec.ofNat 64 (pfn * pageSize)).toNat = pfn * pageSize := by
  rw [BitVec.toNat_ofNat, Nat.mod_eq_of_lt]
  unfold pageSize
  omega

/-- The low twelve bits of a page address are clear. -/
theorem ofNat_page_and {pfn : ℕ} (h : pfn < 2 ^ 36) {m : Word} (hm : pteAddrMask &&& m = 0#64) :
    BitVec.ofNat 64 (pfn * pageSize) &&& m = 0#64 := by
  rw [← ofNat_and_addrMask h, BitVec.and_assoc, hm, BitVec.and_zero]

theorem has_or (x y m : Word) : has (x ||| y) m = (has x m || has y m) := by
  unfold has
  rw [BitVec.and_or_distrib_right, Bool.eq_iff_iff, Bool.or_eq_true, bne_iff_ne, bne_iff_ne,
    bne_iff_ne, Ne, BitVec.or_eq_zero_iff, not_and_or]

theorem has_mapWord_valid (paddr : ℕ) (flags : Word) :
    has (mapWord paddr flags) pteValid = true := by
  unfold mapWord
  rw [has_or, has_or, has_or, show has pteValid pteValid = true by decide]
  simp

theorem has_mapWord_page (paddr : ℕ) (flags : Word) :
    has (mapWord paddr flags) ptePage = true := by
  unfold mapWord
  rw [has_or, has_or, has_or, show has ptePage ptePage = true by decide]
  simp

theorem has_mapWord_ro {paddr : ℕ} {flags : Word} (h : has flags apRo = true) :
    has (mapWord paddr flags) apRo = true := by
  unfold mapWord
  rw [has_or, h, Bool.or_true]

/-- The address a mapped word names. -/
theorem pteAddr_mapWord {pfn : ℕ} (h : pfn < 2 ^ 36) {flags : Word}
    (hflags : flags &&& pteAddrMask = 0#64) : pteAddr (mapWord (pfn * pageSize) flags) = pfn * pageSize := by
  unfold pteAddr mapWord
  rw [or_and_of_disjoint hflags, or_and_of_disjoint (by decide), or_and_of_disjoint (by decide),
    BitVec.and_assoc, BitVec.and_self, ofNat_and_addrMask h, ofNat_page_toNat h]

theorem and_shiftLeft_eq (x y n : ℕ) : x &&& (y <<< n) = ((x >>> n) &&& y) <<< n := by
  apply Nat.eq_of_testBit_eq
  intro i
  simp only [Nat.testBit_and, Nat.testBit_shiftLeft, Nat.testBit_shiftRight]
  by_cases hi : n ≤ i
  · simp [hi]
  · simp [hi]

theorem pteAddr_val (w : Word) : pteAddr w = w.toNat / pageSize % 2 ^ 36 * pageSize := by
  unfold pteAddr
  rw [BitVec.toNat_and]
  show w.toNat &&& 0x0000FFFFFFFFF000 = _
  rw [show 0x0000FFFFFFFFF000 = (2 ^ 36 - 1) <<< 12 by decide, and_shiftLeft_eq,
    Nat.and_two_pow_sub_one_eq_mod, Nat.shiftLeft_eq, Nat.shiftRight_eq_div_pow]
  rfl

/-- The address field of a word is the address of a page. -/
theorem pteAddr_eq_page (w : Word) : ∃ pfn < 2 ^ 36, pteAddr w = pfn * pageSize :=
  ⟨w.toNat / pageSize % 2 ^ 36, Nat.mod_lt _ (by decide), pteAddr_val w⟩

/-- The address of a mapping is cut down to its page. -/
theorem ofNat_and_addrMask_page {a : ℕ} (h : a < 2 ^ 48) :
    BitVec.ofNat 64 a &&& pteAddrMask = BitVec.ofNat 64 (a / pageSize * pageSize) := by
  apply BitVec.eq_of_toNat_eq
  have hval := pteAddr_val (BitVec.ofNat 64 a)
  unfold pteAddr at hval
  rw [hval, BitVec.toNat_ofNat, BitVec.toNat_ofNat]
  unfold pageSize
  omega

/-- The word that installs a private copy keeps the validity of the one it replaces. -/
theorem has_copyWord {pfn : ℕ} (h : pfn < 2 ^ 36) {w m : Word} (hm : pteAddrMask &&& m = 0#64)
    (hcow : ~~~pteCow &&& m = m) (hro : ~~~apRo &&& m = m) (haddr : ~~~pteAddrMask &&& m = m) :
    has (BitVec.ofNat 64 (pfn * pageSize) |||
      (w &&& ~~~pteAddrMask &&& ~~~pteCow &&& ~~~apRo)) m = has w m := by
  rw [has_or]
  unfold has
  rw [ofNat_page_and h hm, and_and_of_subset hro, and_and_of_subset hcow, and_and_of_subset haddr]
  simp

theorem pteAddr_copyWord {pfn : ℕ} (h : pfn < 2 ^ 36) (w : Word) :
    pteAddr (BitVec.ofNat 64 (pfn * pageSize) |||
      (w &&& ~~~pteAddrMask &&& ~~~pteCow &&& ~~~apRo)) = pfn * pageSize := by
  unfold pteAddr
  rw [or_and_of_disjoint, ofNat_and_addrMask h, ofNat_page_toNat h]
  rw [and_and_of_subset (by decide), and_and_of_subset (by decide), BitVec.and_assoc,
    show ~~~pteAddrMask &&& pteAddrMask = 0#64 by decide, BitVec.and_zero]

/-! ## References to pages -/

/-- The block of one page a kernel pointer names. -/
def blockOf (ptr : ℕ) : Block := ⟨v2p ptr / pageSize, 0⟩

/-- One reference to the page behind `ptr`, as a count per block. -/
noncomputable def one (b : Block) (ptr : ℕ) : ℕ := ind (blockOf ptr = b)

theorem one_le (b : Block) (ptr : ℕ) : one b ptr ≤ 1 := ind_le _

theorem one_blockOf (ptr : ℕ) : one (blockOf ptr) ptr = 1 := ind_pos rfl

theorem one_of_ne {b : Block} {ptr : ℕ} (h : blockOf ptr ≠ b) : one b ptr = 0 := ind_neg h

-- comparing two counts must not unfold address arithmetic
attribute [irreducible] one

/-- A pointer the allocator can hand out for a page. -/
structure IsPage (pmm : Pmm) (ptr : ℕ) : Prop where
  managed : pmm.pmmIsManaged ptr = true
  aligned : ∃ pfn < 2 ^ 36, v2p ptr = pfn * pageSize
  canonical : p2v (v2p ptr) = ptr

theorem pmmIsManaged_congr {g pmm : Pmm} (h : g.SameRanges pmm) (ptr : ℕ) :
    pmm.pmmIsManaged ptr = g.pmmIsManaged ptr := by
  obtain ⟨hn, hr⟩ := h
  unfold Pmm.pmmIsManaged Pmm.pfnIsReserved Pmm.rangeOverlapsReservedPfns
  rw [hn, hr]

theorem sameRanges_trans {a b c : Pmm} (h : a.SameRanges b) (h' : b.SameRanges c) :
    a.SameRanges c := ⟨h'.1.trans h.1, h'.2.trans h.2⟩

theorem isPage_congr {g pmm : Pmm} (h : g.SameRanges pmm) {ptr : ℕ} :
    IsPage pmm ptr ↔ IsPage g ptr := by
  constructor
  · intro hp
    exact ⟨by rw [← pmmIsManaged_congr h]; exact hp.managed, hp.aligned, hp.canonical⟩
  · intro hp
    exact ⟨by rw [pmmIsManaged_congr h]; exact hp.managed, hp.aligned, hp.canonical⟩

section Primitives

variable {pmm pmm' : Pmm} {refs : Block → ℕ} {ptr : ℕ}

/-- An allocation: a page nobody refers to gets one reference. If the caller sees `NULL`,
at most a block without references was lost. -/
theorem allocPage_spec {r : Option ℕ} (h : pmm.PmmInv refs) (hok : allocPage pmm = .ok (r, pmm')) :
    ∃ refs', pmm'.PmmInv refs' ∧ pmm.SameRanges pmm' ∧
      (r = none → ∀ b, refs' b = refs b ∨ refs b = 0) ∧
      ∀ ptr, r = some ptr → IsPage pmm ptr ∧ refs (blockOf ptr) = 0 ∧
        ∀ b, refs' b = refs b + one b ptr := by
  rcases Pmm.pmmAllocPagesNozero_inv h 1 with hnull | ⟨pfn, t, ht, hlt, hnew, hinv, hsame⟩
  · unfold allocPage at hok
    rw [hnull] at hok
    cases hok
    exact ⟨refs, h, ⟨rfl, rfl⟩, fun _ b => Or.inl rfl, fun ptr hptr => absurd hptr (by simp)⟩
  · unfold allocPage at hok
    rw [ht] at hok
    have hpfn : pfn < 2 ^ 36 := by
      have hn := h.core.pages_lt
      unfold pmmPfnNull at hn
      omega
    have hv : v2p (p2v (pfn * pageSize)) = pfn * pageSize := Pmm.v2p_p2v (by unfold pageSize; omega)
    have hblock : blockOf (p2v (pfn * pageSize)) = ⟨pfn, Pmm.getOrder 1⟩ := by
      unfold blockOf
      rw [hv, Nat.mul_div_cancel _ (by decide)]
      rfl
    have hzero : refs ⟨pfn, Pmm.getOrder 1⟩ = 0 := Nat.eq_zero_of_not_pos hnew
    have hrefs : ∀ b, Function.update refs ⟨pfn, Pmm.getOrder 1⟩ 1 b
        = refs b + one b (p2v (pfn * pageSize)) := by
      intro b
      by_cases hb : b = ⟨pfn, Pmm.getOrder 1⟩
      · subst hb
        rw [Function.update_self, hzero, ← hblock, one_blockOf]
      · rw [Function.update_of_ne hb, one_of_ne (hblock ▸ Ne.symm hb), add_zero]
    obtain ⟨hfst, hsnd⟩ := Prod.mk.inj (Except.ok.inj hok)
    subst hsnd
    refine ⟨_, hinv, hsame, fun _ b => ?_, fun ptr hptr => ?_⟩
    · by_cases hb : b = ⟨pfn, Pmm.getOrder 1⟩
      · subst hb
        exact Or.inr hzero
      · exact Or.inl (Function.update_of_ne hb _ _)
    · obtain ⟨hmem, hne⟩ := Option.filter_eq_some_iff.mp (hfst.trans hptr)
      cases hmem
      refine ⟨⟨?_, ⟨pfn, hpfn, hv⟩, by rw [hv]⟩, hblock ▸ hzero, hrefs⟩
      -- the block is in the tiling of the new state, so its page is unreserved
      have hlive : (⟨pfn, Pmm.getOrder 1⟩ : Block) ∈
          Pmm.live (Function.update refs ⟨pfn, Pmm.getOrder 1⟩ 1) := by
        rw [Pmm.mem_live_update Nat.one_pos]
        exact Set.mem_insert _ _
      have hunres := hinv.core.tiling.unreserved _ (Or.inr hlive) pfn (Block.base_mem _)
      rw [← pmmIsManaged_congr hsame]
      apply Pmm.pmmIsManaged_iff.mpr
      rw [hv, Nat.mul_div_cancel pfn (show 0 < pageSize by decide)]
      have hn := hsame.1
      simp only [Bool.or_eq_true, decide_eq_true_eq, not_or]
      exact ⟨by simpa using hne, by omega, hunres⟩

/-- Without memory beyond the kernel's window of 512 GB no page has the address `NULL`, and an
allocation that fails changes nothing. -/
theorem allocPage_exact {r : Option ℕ} (h : pmm.PmmInv refs) (hpages : pmm.numPages ≤ 2 ^ 27)
    (hok : allocPage pmm = .ok (r, pmm')) :
    (r = none ∧ pmm' = pmm) ∨ ∃ ptr, r = some ptr ∧ IsPage pmm ptr ∧ refs (blockOf ptr) = 0 ∧
      pmm'.PmmInv (fun b => refs b + one b ptr) ∧ pmm.SameRanges pmm' := by
  obtain ⟨refs', hinv, hsame, -, hsome⟩ := allocPage_spec h hok
  cases r with
  | some ptr =>
    obtain ⟨hpage, hzero, hrefs⟩ := hsome ptr rfl
    rw [funext hrefs] at hinv
    exact .inr ⟨ptr, rfl, hpage, hzero, hinv, hsame⟩
  | none =>
    refine .inl ⟨rfl, ?_⟩
    unfold allocPage at hok
    rcases Pmm.pmmAllocPagesNozero_inv h 1 with hnull | ⟨pfn, t, ht, hlt, -⟩
    · rw [hnull] at hok
      cases hok
      rfl
    · rw [ht] at hok
      have hne : p2v (pfn * pageSize) ≠ 0 := by
        unfold p2v kernelVma pageSize
        omega
      have hfst := (Prod.mk.inj (Except.ok.inj hok)).1
      rw [Option.filter_some, if_pos (bne_iff_ne.mpr hne)] at hfst
      cases hfst

/-- A hold on a referenced page adds one reference. -/
theorem pmmHoldPage_spec (h : pmm.PmmInv refs) (hm : pmm.pmmIsManaged ptr = true)
    (hpos : 0 < refs (blockOf ptr)) (hok : pmm.pmmHoldPage ptr = .ok pmm') :
    pmm'.PmmInv (fun b => refs b + one b ptr) ∧ pmm.SameRanges pmm' := by
  obtain ⟨hinv, hsame⟩ := Pmm.pmmHoldPage_inv h hok
  refine ⟨?_, hsame⟩
  convert hinv using 1
  funext b
  by_cases hb : blockOf ptr = b
  · subst hb
    rw [one_blockOf, if_pos ⟨hm, rfl, hpos⟩]
  · rw [one_of_ne hb, if_neg, add_zero]
    intro hcond
    exact hb (h.eq_of_base hpos hcond.2.2 hcond.2.1.symm)

/-- A release of a referenced page takes one reference away. -/
theorem pmmFreePages_spec (h : pmm.PmmInv refs) (hm : pmm.pmmIsManaged ptr = true)
    (hpos : 0 < refs (blockOf ptr)) (hok : pmm.pmmFreePages ptr = .ok pmm') :
    pmm'.PmmInv (fun b => refs b - one b ptr) ∧ pmm.SameRanges pmm' := by
  obtain ⟨hinv, hsame⟩ := h.free hok fun _ => ⟨blockOf ptr, Or.inr hpos, hm, rfl⟩
  refine ⟨?_, hsame⟩
  convert hinv using 1
  funext b
  by_cases hb : blockOf ptr = b
  · subst hb
    rw [one_blockOf, if_pos ⟨hm, rfl⟩]
  · rw [one_of_ne hb]
    split
    · rename_i hat
      have hzero : refs b = 0 := by
        by_contra hne
        exact hb (h.eq_of_base hpos (Nat.pos_of_ne_zero hne) hat.2.symm)
      rw [hzero]
    · rfl

/-- The count the allocator keeps for a referenced page. -/
theorem pmmPageRefcount_spec (h : pmm.PmmInv refs) (hm : pmm.pmmIsManaged ptr = true)
    (hpos : 0 < refs (blockOf ptr)) : pmm.pmmPageRefcount ptr = refs (blockOf ptr) := by
  obtain ⟨h0, hin⟩ := Pmm.pmmIsManaged_iff.mp hm
  unfold Pmm.pmmPageRefcount
  rw [if_neg h0]
  dsimp only
  rw [if_neg hin]
  exact (h.live_meta (blockOf ptr) hpos).2

end Primitives

end Perspicua.Mm
