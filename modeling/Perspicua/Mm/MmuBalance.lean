import Perspicua.Mm.MmuCount

/-!
# References while pages are mapped

What `mmu_user_map_page` and `mmu_user_unmap_page` do to the references of the allocator, on a
machine whose memory fits the kernel's window: every reference that comes or goes is that of a
table or of a leaf of the address space.
-/

namespace Perspicua.Mm

open Perspicua.Lib

/-! ## Leaves -/

section Query

variable {g : Pmm} {pgd : Pgd}

/-- Without blocks the leaves decide every query. -/
theorem Pgd.Ok.query_eq (h : pgd.Ok g) (va : ℕ) : mmuUserQuery pgd va =
    if has (pgd.l3 (vaPath va)) pteValid then
      some (pteAddr (pgd.l3 (vaPath va)) + va % pageSize, pgd.l3 (vaPath va) &&& ~~~pteAddrMask)
    else none := by
  unfold mmuUserQuery
  dsimp only
  cases h2 : pgd.l2 ((vaPath va).1, (vaPath va).2.1) with
  | invalid =>
    rw [h.l3_absent _ h2, if_neg (by decide)]
    cases pgd.l1 (vaPath va).1 <;> rfl
  | block w => exact absurd h2 (h.no_block _ w)
  | table page =>
    have hl3 : pgd.HasL3 ((vaPath va).1, (vaPath va).2.1) := ⟨page, h2⟩
    obtain ⟨page', h1⟩ := h.l1_of_hasL3 hl3
    rw [h1]

theorem Pgd.Ok.query_eq_none (h : pgd.Ok g) {va : ℕ} :
    mmuUserQuery pgd va = none ↔ has (pgd.l3 (vaPath va)) pteValid = false := by
  rw [h.query_eq]
  cases has (pgd.l3 (vaPath va)) pteValid with
  | false => simp
  | true => simp

end Query

/-! ## Accounts -/

/-- References to block `b` that an address space accounts for. -/
noncomputable def Pgd.holds (g : Pmm) (b : Block) (pgd : Pgd) : ℕ :=
  pgd.tables b + pgd.count (leafOne g b)

/-- What an address space and the allocator have come to since a moment at which they were `pgd`
and `refs`. The caller has `extra` references besides those of the address space. -/
structure Accounted (g : Pmm) (refs : Block → ℕ) (pgd : Pgd) (extra : Block → ℕ) (pgd' : Pgd)
    (pmm' : Pmm) : Prop where
  ok : pgd'.Ok g
  same : g.SameRanges pmm'
  refs : ∃ refs', pmm'.PmmInv refs' ∧
    ∀ b, refs' b + pgd.holds g b = refs b + extra b + pgd'.holds g b

section Balance

variable {g pmm pmm' : Pmm} {refs extra : Block → ℕ} {pgd base pgd' : Pgd} {va : ℕ}

theorem accounted_start (hok : pgd.Ok g) (hsame : g.SameRanges pmm) (hinv : pmm.PmmInv refs) :
    Accounted g refs pgd (fun _ => 0) pgd pmm := ⟨hok, hsame, refs, hinv, fun _ => rfl⟩

/-- The tables and leaves of an address space are referenced. -/
def Backed (g : Pmm) (refs : Block → ℕ) (pgd : Pgd) : Prop := ∀ b, pgd.holds g b ≤ refs b

theorem leafOne_le_count (hok : pgd.Ok g) (b : Block) (x : Ix × Ix × Ix) :
    leafOne g b (pgd.l3 x) ≤ pgd.holds g b := by
  have hcount := hok.count_eq (leafOne_zero g b)
  have hle : leafOne g b (pgd.l3 x) ≤ ∑ᶠ z, leafOne g b (pgd.l3 z) :=
    le_finsum (fun z => leafOne g b (pgd.l3 z)) x
  unfold Pgd.holds
  omega

/-- One allocated page, which the address space does not use, is one more reference of the
caller. -/
theorem Accounted.alloc {r : Option ℕ} (h : Accounted g refs pgd extra base pmm) (hback : Backed g refs pgd)
    (hpages : g.numPages ≤ 2 ^ 27) (hok : allocPage pmm = .ok (r, pmm')) :
    (r = none ∧ Accounted g refs pgd extra base pmm') ∨
      ∃ ptr, r = some ptr ∧ IsPage g ptr ∧ base.holds g (blockOf ptr) = 0 ∧
        Accounted g refs pgd (fun b => extra b + one b ptr) base pmm' := by
  obtain ⟨refs', hinv, heq⟩ := h.refs
  have hpages' : pmm.numPages ≤ 2 ^ 27 := by rw [h.same.1]; exact hpages
  rcases allocPage_exact hinv hpages' hok with ⟨hr, rfl⟩ | ⟨ptr, hr, hpage, hzero, hinv', hsame'⟩
  · exact .inl ⟨hr, h⟩
  · have hunused : base.holds g (blockOf ptr) = 0 := by
      have h1 := heq (blockOf ptr)
      have h2 := hback (blockOf ptr)
      omega
    refine .inr ⟨ptr, hr, (isPage_congr h.same).mp hpage, hunused, h.ok,
      sameRanges_trans h.same hsame', _, hinv', fun b => ?_⟩
    have := heq b
    omega

/-- A table that is added, or the failure to allocate it. -/
theorem Accounted.addTable {r : Option ℕ} {add : ℕ → Pgd} (h : Accounted g refs pgd extra base pmm)
    (hpages : g.numPages ≤ 2 ^ 27)
    (hgrown : ∀ page refs refs', IsPage g page → refs (blockOf page) = 0 →
      (∀ b, refs' b = refs b + one b page) → Grown g refs refs' base (add page))
    (htables : ∀ page b, (add page).tables b = base.tables b + one b page)
    (hok : allocUserTablePage pmm = .ok (r, pmm')) :
    (r = none → Accounted g refs pgd extra base pmm') ∧
      ∀ page, r = some page → Accounted g refs pgd extra (add page) pmm' ∧ (add page).l3 = base.l3 := by
  obtain ⟨refs', hinv, heq⟩ := h.refs
  have hpages' : pmm.numPages ≤ 2 ^ 27 := by rw [h.same.1]; exact hpages
  rcases allocPage_exact hinv hpages' hok with ⟨rfl, rfl⟩ | ⟨page, rfl, hpage, hzero, hinv', hsame'⟩
  · exact ⟨fun _ => h, fun page hr => absurd hr (by simp)⟩
  · refine ⟨fun hr => absurd hr (by simp), fun page' hr => ?_⟩
    cases hr
    have hg := hgrown page refs' _ ((isPage_congr h.same).mp hpage) hzero fun b => rfl
    refine ⟨⟨hg.ok, sameRanges_trans h.same hsame', _, hinv', fun b => ?_⟩, hg.l3⟩
    have hb := heq b
    have hcount := hg.count_eq h.ok (leafOne_zero g b)
    unfold Pgd.holds at hb ⊢
    rw [hcount, htables]
    omega

theorem Accounted.ensureL2Table {r : Option Pgd} {i : Ix} (h : Accounted g refs pgd extra base pmm)
    (hpages : g.numPages ≤ 2 ^ 27) (hok : ensureL2Table pmm base i = .ok (r, pmm')) :
    (r = none → Accounted g refs pgd extra base pmm') ∧
      ∀ base', r = some base' → Accounted g refs pgd extra base' pmm' ∧ base'.l3 = base.l3 ∧
        base'.l1 i ≠ none := by
  unfold Mm.ensureL2Table at hok
  cases hi : base.l1 i with
  | some page =>
    rw [hi] at hok
    cases hok
    refine ⟨fun hr => absurd hr (by simp), fun base' hr => ?_⟩
    cases hr
    exact ⟨h, rfl, by rw [hi]; simp⟩
  | none =>
    rw [hi] at hok
    obtain ⟨⟨o, q⟩, ha, he⟩ := map_eq_ok.mp hok
    cases he
    obtain ⟨hnone, hsome⟩ := h.addTable hpages
      (fun page refs refs' hp hz hr => grown_addL2Table h.ok hi hp hz hr)
      (fun page b => h.ok.tables_addL2Table hi page b) ha
    refine ⟨fun hr => hnone (Option.map_eq_none_iff.mp hr), fun base' hr => ?_⟩
    obtain ⟨page, ho, rfl⟩ := Option.map_eq_some_iff.mp hr
    obtain ⟨hbal, hl3⟩ := hsome page ho
    refine ⟨hbal, hl3, ?_⟩
    show Function.update base.l1 i (some page) i ≠ none
    rw [Function.update_self]
    simp

theorem Accounted.ensureL3Table {r : Option Pgd} {y : Ix × Ix} (h : Accounted g refs pgd extra base pmm)
    (hpages : g.numPages ≤ 2 ^ 27) (hl1 : base.l1 y.1 ≠ none)
    (hok : ensureL3Table pmm base y = .ok (r, pmm')) :
    (r = none → Accounted g refs pgd extra base pmm') ∧
      ∀ base', r = some base' → Accounted g refs pgd extra base' pmm' ∧ base'.l3 = base.l3 ∧
        base'.HasL3 y := by
  unfold Mm.ensureL3Table at hok
  cases hy : base.l2 y with
  | block w => exact absurd hy (h.ok.no_block y w)
  | table page =>
    rw [hy] at hok
    cases hok
    refine ⟨fun hr => absurd hr (by simp), fun base' hr => ?_⟩
    cases hr
    exact ⟨h, rfl, page, hy⟩
  | invalid =>
    rw [hy] at hok
    obtain ⟨⟨o, q⟩, ha, he⟩ := map_eq_ok.mp hok
    cases he
    obtain ⟨hnone, hsome⟩ := h.addTable hpages
      (fun page refs refs' hp hz hr => grown_addL3Table h.ok hl1 hy hp hz hr)
      (fun page b => Pgd.tables_addL3Table hy page b) ha
    refine ⟨fun hr => hnone (Option.map_eq_none_iff.mp hr), fun base' hr => ?_⟩
    obtain ⟨page, ho, rfl⟩ := Option.map_eq_some_iff.mp hr
    obtain ⟨hbal, hl3⟩ := hsome page ho
    exact ⟨hbal, hl3, page, Function.update_self _ _ _⟩

/-- A leaf is stored over a released one: the caller's reference to the page, if it has one, is
now the leaf's. -/
theorem Accounted.store {x : Ix × Ix × Ix} {w : Word} {rest : Block → ℕ}
    (h : Accounted g refs pgd extra base pmm) (hback : Backed g refs pgd)
    (hx : base.HasL3 (x.1, x.2.1)) (hw : has w pteValid = true → has w ptePage = true)
    (hextra : ∀ b, extra b = rest b + leafOne g b w)
    (hok : releaseEntry pmm (base.l3 x) = .ok pmm') :
    Accounted g refs pgd rest (base.setL3 x w) pmm' := by
  obtain ⟨refs', hinv, heq⟩ := h.refs
  have hle : ∀ b, leafOne g b (base.l3 x) ≤ refs' b := by
    intro b
    have h1 := heq b
    have h2 := hback b
    have h3 := leafOne_le_count h.ok b x
    omega
  obtain ⟨hinv', hsame'⟩ := releaseEntry_spec hinv h.same hle hok
  have hset : (base.setL3 x w).Ok g := h.ok.setL3 hx hw
  refine ⟨hset, sameRanges_trans h.same hsame', _, hinv', fun b => ?_⟩
  have h1 := heq b
  have h2 := hle b
  have h3 := h.ok.count_setL3 hset (leafOne_zero g b)
  have h4 := hextra b
  have h5 := leafOne_le_count h.ok b x
  unfold Pgd.holds at h1 h5 ⊢
  rw [Pgd.tables_setL3]
  omega

/-- Mapping a page. If it is made the leaf takes over the caller's reference, if there is one. -/
theorem Accounted.map {paddr : ℕ} {flags : Word} {done : Bool} (rest : Block → ℕ)
    (h : Accounted g refs pgd extra base pmm) (hback : Backed g refs pgd) (hpages : g.numPages ≤ 2 ^ 27)
    (hextra : ∀ b, extra b = rest b + leafOne g b (mapWord paddr flags))
    (hok : mmuUserMapPage pmm base va paddr flags = .ok (done, pgd', pmm')) :
    Accounted g refs pgd (if done then rest else extra) pgd' pmm' ∧
      (done = true → pgd'.l3 = Function.update base.l3 (vaPath va) (mapWord paddr flags)) ∧
      (done = false → pgd'.l3 = base.l3) := by
  unfold mmuUserMapPage at hok
  obtain ⟨⟨r2, pmm2⟩, he2, hok⟩ := bind_eq_ok.mp hok
  obtain ⟨hnone2, hsome2⟩ := h.ensureL2Table hpages he2
  cases r2 with
  | none =>
    cases hok
    exact ⟨hnone2 rfl, fun hd => absurd hd (by simp), fun _ => rfl⟩
  | some base2 =>
    obtain ⟨hbal2, hl2, hl1⟩ := hsome2 base2 rfl
    obtain ⟨⟨r3, pmm3⟩, he3, hok⟩ := bind_eq_ok.mp hok
    obtain ⟨hnone3, hsome3⟩ := hbal2.ensureL3Table hpages hl1 he3
    cases r3 with
    | none =>
      cases hok
      exact ⟨hnone3 rfl, fun hd => absurd hd (by simp), fun _ => hl2⟩
    | some base3 =>
      obtain ⟨hbal3, hl3, hx⟩ := hsome3 base3 rfl
      obtain ⟨pmm4, he4, hok⟩ := bind_eq_ok.mp hok
      cases hok
      refine ⟨hbal3.store hback hx (fun _ => has_mapWord_page paddr flags) hextra he4, fun _ => ?_,
        fun hd => absurd hd (by simp)⟩
      show Function.update base3.l3 _ _ = _
      rw [hl3, hl2]

/-- Unmapping a page. -/
theorem Accounted.unmap (h : Accounted g refs pgd extra base pmm) (hback : Backed g refs pgd)
    (hok : mmuUserUnmapPage pmm base va = .ok (pgd', pmm')) :
    Accounted g refs pgd extra pgd' pmm' ∧ has (pgd'.l3 (vaPath va)) pteValid = false ∧
      ∀ x, x ≠ vaPath va → pgd'.l3 x = base.l3 x := by
  obtain ⟨refs', hinv, heq⟩ := h.refs
  have hzero : ∀ b, extra b = extra b + leafOne g b 0#64 := fun b => by rw [leafOne_zero, add_zero]
  have habsent : base.l2 ((vaPath va).1, (vaPath va).2.1) = .invalid →
      has (base.l3 (vaPath va)) pteValid = false := by
    intro hl2
    rw [h.ok.l3_absent _ hl2]
    decide
  unfold mmuUserUnmapPage at hok
  dsimp only at hok
  cases h1 : base.l1 (vaPath va).1 with
  | none =>
    rw [h1] at hok
    cases hok
    exact ⟨h, habsent (h.ok.l2_absent _ h1), fun _ _ => rfl⟩
  | some page =>
    cases h2 : base.l2 ((vaPath va).1, (vaPath va).2.1) with
    | invalid =>
      rw [h1, h2] at hok
      cases hok
      exact ⟨h, habsent h2, fun _ _ => rfl⟩
    | block w => exact absurd h2 (h.ok.no_block _ w)
    | table page' =>
      rw [h1, h2] at hok
      unfold clearLeaf at hok
      dsimp only at hok
      cases hv : has (base.l3 (vaPath va)) pteValid with
      | false =>
        rw [hv, if_neg Bool.false_ne_true] at hok
        cases hok
        exact ⟨h, hv, fun _ _ => rfl⟩
      | true =>
        rw [hv, if_pos rfl] at hok
        obtain ⟨q, hq, he⟩ := map_eq_ok.mp hok
        cases he
        refine ⟨h.store hback ⟨page', h2⟩ (fun hc => absurd hc (by decide)) hzero hq, ?_, fun x hx => ?_⟩
        · show has (Function.update base.l3 (vaPath va) 0#64 (vaPath va)) pteValid = false
          rw [Function.update_self]
          decide
        · exact Function.update_of_ne hx _ _

/-- The caller takes a reference to a page of the address space. -/
theorem Accounted.hold {ptr : ℕ} (h : Accounted g refs pgd extra base pmm) (hback : Backed g refs pgd)
    (hm : g.pmmIsManaged ptr = true) (hpos : 0 < base.holds g (blockOf ptr))
    (hok : pmm.pmmHoldPage ptr = .ok pmm') :
    Accounted g refs pgd (fun b => extra b + one b ptr) base pmm' := by
  obtain ⟨refs', hinv, heq⟩ := h.refs
  have hpos' : 0 < refs' (blockOf ptr) := by
    have h1 := heq (blockOf ptr)
    have h2 := hback (blockOf ptr)
    omega
  have hm' : pmm.pmmIsManaged ptr = true := by
    rw [pmmIsManaged_congr h.same]
    exact hm
  obtain ⟨hinv', hsame'⟩ := pmmHoldPage_spec hinv hm' hpos' hok
  refine ⟨h.ok, sameRanges_trans h.same hsame', _, hinv', fun b => ?_⟩
  have h1 := heq b
  omega

/-- The caller gives its reference to a page back. -/
theorem Accounted.free {ptr : ℕ} (h : Accounted g refs pgd (fun b => extra b + one b ptr) base pmm)
    (hback : Backed g refs pgd) (hm : g.pmmIsManaged ptr = true) (hok : pmm.pmmFreePages ptr = .ok pmm') :
    Accounted g refs pgd extra base pmm' := by
  obtain ⟨refs', hinv, heq⟩ := h.refs
  have hpos : 0 < refs' (blockOf ptr) := by
    have h1 := heq (blockOf ptr)
    have h2 := hback (blockOf ptr)
    rw [one_blockOf] at h1
    omega
  have hm' : pmm.pmmIsManaged ptr = true := by
    rw [pmmIsManaged_congr h.same]
    exact hm
  obtain ⟨hinv', hsame'⟩ := pmmFreePages_spec hinv hm' hpos hok
  refine ⟨h.ok, sameRanges_trans h.same hsame', _, hinv', fun b => ?_⟩
  have h1 := heq b
  have h2 := hback b
  omega

end Balance

end Perspicua.Mm
