import Perspicua.Mm.MmuTheorems

/-!
# What the page-table operations change

`Pgd.count f` totals a quantity over the leaves of an address space and `Pgd.tables b`
counts the pages its tables occupy. Each operation either adds tables, which leaves every
leaf alone (`Grown`), or replaces one leaf.
-/

namespace Perspicua.Mm

open Perspicua.Lib

/-! ## Leaves and tables -/

namespace Pgd

/-- The leaf at a path, zero if a table on the way is missing. -/
def entry (pgd : Pgd) (x : Ix × Ix × Ix) : Word :=
  match pgd.l1 x.1, pgd.l2 (x.1, x.2.1) with
  | some _, .table _ => pgd.l3 x
  | _, _ => 0#64

/-- The 2 MB leaf at a path, zero if there is none. -/
def blockEntry (pgd : Pgd) (y : Ix × Ix) : Word :=
  match pgd.l1 y.1, pgd.l2 y with
  | some _, .block w => w
  | _, _ => 0#64

/-- The total of `f` over all leaf entries. -/
noncomputable def count (f : Word → ℕ) (pgd : Pgd) : ℕ :=
  ∑ᶠ x, f (pgd.entry x) + ∑ᶠ y, f (pgd.blockEntry y)

end Pgd

noncomputable def L2Entry.pages (b : Block) : L2Entry → ℕ
  | .table page => one b page
  | _ => 0

/-- How many of the tables of an address space live in block `b`. -/
noncomputable def Pgd.tables (b : Block) (pgd : Pgd) : ℕ :=
  one b pgd.page + ∑ᶠ i, (pgd.l1 i).elim 0 (one b) + ∑ᶠ y, (pgd.l2 y).pages b

/-- The shape every reachable address space has: no 2 MB blocks, nothing behind a missing
table, valid leaves are pages, and tables in pages of the allocator. -/
structure Pgd.Ok (g : Pmm) (pgd : Pgd) : Prop where
  l2_absent : ∀ y, pgd.l1 y.1 = none → pgd.l2 y = .invalid
  no_block : ∀ y w, pgd.l2 y ≠ .block w
  l3_absent : ∀ x, pgd.l2 (x.1, x.2.1) = .invalid → pgd.l3 x = 0#64
  page_bit : ∀ x, has (pgd.l3 x) pteValid = true → has (pgd.l3 x) ptePage = true
  root_page : IsPage g pgd.page
  l1_page : ∀ i page, pgd.l1 i = some page → IsPage g page
  l2_page : ∀ y page, pgd.l2 y = .table page → IsPage g page

/-- The level-3 table of a path is there. -/
def Pgd.HasL3 (pgd : Pgd) (y : Ix × Ix) : Prop := ∃ page, pgd.l2 y = .table page

namespace Pgd.Ok

variable {g : Pmm} {pgd : Pgd} {f : Word → ℕ}

theorem l1_of_hasL3 (h : pgd.Ok g) {y : Ix × Ix} (hy : pgd.HasL3 y) :
    ∃ page, pgd.l1 y.1 = some page := by
  obtain ⟨page, hp⟩ := hy
  cases hl : pgd.l1 y.1 with
  | none => rw [h.l2_absent y hl] at hp; cases hp
  | some q => exact ⟨q, rfl⟩

theorem hasL3_of_valid (h : pgd.Ok g) {x : Ix × Ix × Ix} (hv : has (pgd.l3 x) pteValid = true) :
    pgd.HasL3 (x.1, x.2.1) := by
  cases hl : pgd.l2 (x.1, x.2.1) with
  | invalid =>
    rw [h.l3_absent x hl] at hv
    exact absurd hv (by decide)
  | block w => exact absurd hl (h.no_block _ w)
  | table page => exact ⟨page, hl⟩

theorem entry_eq (h : pgd.Ok g) (x : Ix × Ix × Ix) : pgd.entry x = pgd.l3 x := by
  unfold Pgd.entry
  cases hl : pgd.l2 (x.1, x.2.1) with
  | invalid =>
    rw [h.l3_absent x hl]
    cases pgd.l1 x.1 <;> rfl
  | block w => exact absurd hl (h.no_block _ w)
  | table page =>
    obtain ⟨q, hq⟩ := h.l1_of_hasL3 ⟨page, hl⟩
    rw [hq]

theorem blockEntry_eq (h : pgd.Ok g) (y : Ix × Ix) : pgd.blockEntry y = 0#64 := by
  unfold Pgd.blockEntry
  cases hl : pgd.l2 y with
  | block w => exact absurd hl (h.no_block _ w)
  | invalid => cases pgd.l1 y.1 <;> rfl
  | table page => cases pgd.l1 y.1 <;> rfl

theorem count_eq (h : pgd.Ok g) (hf : f 0#64 = 0) : pgd.count f = ∑ᶠ x, f (pgd.l3 x) := by
  have hentry : ∑ᶠ x, f (pgd.entry x) = ∑ᶠ x, f (pgd.l3 x) :=
    finsum_congr fun x => congrArg f (h.entry_eq x)
  have hblock : ∑ᶠ y, f (pgd.blockEntry y) = 0 :=
    finsum_eq_zero fun y => (congrArg f (h.blockEntry_eq y)).trans hf
  rw [Pgd.count, hentry, hblock, add_zero]

/-- The leaf a virtual address is translated by. -/
theorem userLeafPte_eq (_ : pgd.Ok g) {va : ℕ} {w : Word} (hw : userLeafPte pgd va = some w) :
    pgd.HasL3 ((vaPath va).1, (vaPath va).2.1) ∧ pgd.l3 (vaPath va) = w := by
  unfold userLeafPte at hw
  dsimp only at hw
  split at hw
  · rename_i page _ hl
    exact ⟨⟨page, hl⟩, Option.some.inj hw⟩
  · cases hw

/-- Replacing one leaf exchanges its contribution. -/
theorem count_setL3 (h : pgd.Ok g) {x : Ix × Ix × Ix} {w : Word}
    (h' : (pgd.setL3 x w).Ok g) (hf : f 0#64 = 0) :
    (pgd.setL3 x w).count f + f (pgd.l3 x) = pgd.count f + f w := by
  rw [h'.count_eq hf, h.count_eq hf]
  exact finsum_update f pgd.l3 x w

theorem setL3 (h : pgd.Ok g) {x : Ix × Ix × Ix} {w : Word} (hx : pgd.HasL3 (x.1, x.2.1))
    (hw : has w pteValid = true → has w ptePage = true) : (pgd.setL3 x w).Ok g where
  l2_absent := h.l2_absent
  no_block := h.no_block
  l3_absent z hz := by
    have hne : z ≠ x := by
      intro he
      obtain ⟨page, hp⟩ := hx
      rw [he] at hz
      exact absurd (hz.symm.trans hp) (by simp)
    exact (Function.update_of_ne hne _ _).trans (h.l3_absent z hz)
  page_bit z := by
    by_cases hz : z = x
    · subst hz
      simpa [Pgd.setL3] using hw
    · simpa [Pgd.setL3, Function.update_of_ne hz] using h.page_bit z
  root_page := h.root_page
  l1_page := h.l1_page
  l2_page := h.l2_page

theorem empty {page : ℕ} (hp : IsPage g page) : (Pgd.empty page).Ok g where
  l2_absent _ _ := rfl
  no_block _ _ := by simp [Pgd.empty]
  l3_absent _ _ := rfl
  page_bit _ hv := absurd hv (by simp [Pgd.empty]; decide)
  root_page := hp
  l1_page _ _ h := absurd h (by simp [Pgd.empty])
  l2_page _ _ h := absurd h (by simp [Pgd.empty])

theorem count_empty {page : ℕ} (hp : IsPage g page) (hf : f 0#64 = 0) :
    (Pgd.empty page).count f = 0 := by
  rw [(Ok.empty hp).count_eq hf]
  exact finsum_eq_zero fun _ => hf

end Pgd.Ok

theorem Pgd.tables_empty (b : Block) (page : ℕ) : (Pgd.empty page).tables b = one b page := by
  have hl1 : ∑ᶠ i, ((Pgd.empty page).l1 i).elim 0 (one b) = 0 := finsum_eq_zero fun _ => rfl
  have hl2 : ∑ᶠ y, ((Pgd.empty page).l2 y).pages b = 0 := finsum_eq_zero fun _ => rfl
  rw [Pgd.tables, hl1, hl2, add_zero, add_zero, Pgd.empty]

theorem Pgd.tables_setL3 (pgd : Pgd) (x : Ix × Ix × Ix) (w : Word) (b : Block) :
    (pgd.setL3 x w).tables b = pgd.tables b := rfl

/-! ## Adding tables -/

/-- `pgd'` is `pgd` with tables added, on pages that had no references. A page may also
have been lost to a failed allocation. -/
structure Grown (g : Pmm) (refs refs' : Block → ℕ) (pgd pgd' : Pgd) : Prop where
  ok : pgd'.Ok g
  l3 : pgd'.l3 = pgd.l3
  l1_mono : ∀ i page, pgd.l1 i = some page → pgd'.l1 i = some page
  l2_mono : ∀ y page, pgd.l2 y = .table page → pgd'.l2 y = .table page
  refs : ∀ b, (refs' b = refs b ∧ pgd'.tables b = pgd.tables b) ∨
    (refs b = 0 ∧ refs' b = 1 ∧ pgd'.tables b = pgd.tables b + 1) ∨
    (refs b = 0 ∧ pgd'.tables b = pgd.tables b)

theorem Grown.refl {g : Pmm} {pgd : Pgd} (refs : Block → ℕ) (h : pgd.Ok g) :
    Grown g refs refs pgd pgd :=
  ⟨h, rfl, fun _ _ => id, fun _ _ => id, fun _ => Or.inl ⟨rfl, rfl⟩⟩

/-- An allocation that failed adds nothing. -/
theorem Grown.lost {g : Pmm} {pgd : Pgd} {refs refs' : Block → ℕ} (h : pgd.Ok g)
    (hlost : ∀ b, refs' b = refs b ∨ refs b = 0) : Grown g refs refs' pgd pgd := by
  refine ⟨h, rfl, fun _ _ => id, fun _ _ => id, fun b => ?_⟩
  rcases hlost b with hb | hb
  · exact Or.inl ⟨hb, rfl⟩
  · exact Or.inr (Or.inr ⟨hb, rfl⟩)

theorem Grown.trans {g : Pmm} {refs refs' refs'' : Block → ℕ} {a b c : Pgd}
    (h : Grown g refs refs' a b) (h' : Grown g refs' refs'' b c) : Grown g refs refs'' a c where
  ok := h'.ok
  l3 := h'.l3.trans h.l3
  l1_mono i page hi := h'.l1_mono i page (h.l1_mono i page hi)
  l2_mono y page hy := h'.l2_mono y page (h.l2_mono y page hy)
  refs q := by
    have h1 := h.refs q
    have h2 := h'.refs q
    omega

theorem Grown.count_eq {g : Pmm} {refs refs' : Block → ℕ} {pgd pgd' : Pgd} (h : pgd.Ok g)
    (hg : Grown g refs refs' pgd pgd') {f : Word → ℕ} (hf : f 0#64 = 0) :
    pgd'.count f = pgd.count f := by
  rw [hg.ok.count_eq hf, h.count_eq hf, hg.l3]

section Grow

variable {g : Pmm} {pgd : Pgd} {refs refs' : Block → ℕ} {page : ℕ}

/-- Growth by one page that had no references. -/
theorem refs_of_fresh {T T' : Block → ℕ} (hzero : refs (blockOf page) = 0)
    (hrefs : ∀ b, refs' b = refs b + one b page) (hT : ∀ b, T' b = T b + one b page) (b : Block) :
    (refs' b = refs b ∧ T' b = T b) ∨ (refs b = 0 ∧ refs' b = 1 ∧ T' b = T b + 1) ∨
      (refs b = 0 ∧ T' b = T b) := by
  rw [hrefs, hT]
  by_cases hb : blockOf page = b
  · subst hb
    rw [one_blockOf, hzero]
    exact Or.inr (Or.inl ⟨rfl, rfl, rfl⟩)
  · rw [one_of_ne hb]
    exact Or.inl ⟨rfl, rfl⟩

/-- A new level-2 table is as empty as the missing one was. -/
theorem Pgd.Ok.l2_addL2Table (h : pgd.Ok g) {i : Ix} (hi : pgd.l1 i = none) (page : ℕ) :
    (pgd.addL2Table i page).l2 = pgd.l2 := by
  funext y
  by_cases hy : y.1 = i
  · rw [h.l2_absent y (hy ▸ hi)]
    exact if_pos hy
  · exact if_neg hy

theorem Pgd.Ok.tables_addL2Table (h : pgd.Ok g) {i : Ix} (hi : pgd.l1 i = none) (page : ℕ) (b : Block) :
    (pgd.addL2Table i page).tables b = pgd.tables b + one b page := by
  have hsum := finsum_update (fun o : Option ℕ => o.elim 0 (one b)) pgd.l1 i (some page)
  rw [hi, Option.elim_none, add_zero, Option.elim_some] at hsum
  have hnew : ∑ᶠ j, ((pgd.addL2Table i page).l1 j).elim 0 (one b)
      = ∑ᶠ j, (pgd.l1 j).elim 0 (one b) + one b page := hsum
  rw [Pgd.tables, Pgd.tables, h.l2_addL2Table hi, hnew, ← add_assoc, add_right_comm, Pgd.addL2Table]

theorem Pgd.tables_addL3Table {y : Ix × Ix} (hy : pgd.l2 y = .invalid) (page : ℕ) (b : Block) :
    (pgd.addL3Table y page fun _ => 0#64).tables b = pgd.tables b + one b page := by
  have hsum := finsum_update (fun e : L2Entry => e.pages b) pgd.l2 y (.table page)
  rw [hy, show L2Entry.pages b .invalid = 0 from rfl, add_zero] at hsum
  have hnew : ∑ᶠ z, ((pgd.addL3Table y page fun _ => 0#64).l2 z).pages b
      = ∑ᶠ z, (pgd.l2 z).pages b + one b page := hsum
  rw [Pgd.tables, Pgd.tables, hnew, ← add_assoc, Pgd.addL3Table, Pgd.setL2]

theorem grown_addL2Table (h : pgd.Ok g) {i : Ix} (hi : pgd.l1 i = none) (hp : IsPage g page)
    (hzero : refs (blockOf page) = 0) (hrefs : ∀ b, refs' b = refs b + one b page) :
    Grown g refs refs' pgd (pgd.addL2Table i page) := by
  have hl2 := h.l2_addL2Table hi page
  have hl1 : ∀ j, j ≠ i → (pgd.addL2Table i page).l1 j = pgd.l1 j :=
    fun j hj => Function.update_of_ne hj _ _
  have hself : (pgd.addL2Table i page).l1 i = some page := Function.update_self _ _ _
  refine ⟨⟨fun y hy => ?_, ?_, ?_, h.page_bit, h.root_page, fun j q hj => ?_, ?_⟩, rfl,
    fun j q hj => ?_, ?_, refs_of_fresh hzero hrefs (h.tables_addL2Table hi page)⟩
  · rw [hl2]
    by_cases hyi : y.1 = i
    · exact h.l2_absent y (hyi ▸ hi)
    · exact h.l2_absent y (hl1 _ hyi ▸ hy)
  · rw [hl2]
    exact h.no_block
  · rw [hl2]
    exact h.l3_absent
  · by_cases hji : j = i
    · subst hji
      rw [hself] at hj
      cases hj
      exact hp
    · exact h.l1_page j q (hl1 _ hji ▸ hj)
  · rw [hl2]
    exact h.l2_page
  · have hji : j ≠ i := by
      intro he
      rw [he, hi] at hj
      cases hj
    rw [hl1 j hji]
    exact hj
  · rw [hl2]
    exact fun _ _ => id

theorem grown_addL3Table (h : pgd.Ok g) {y : Ix × Ix} (hl1 : pgd.l1 y.1 ≠ none)
    (hy : pgd.l2 y = .invalid) (hp : IsPage g page)
    (hzero : refs (blockOf page) = 0) (hrefs : ∀ b, refs' b = refs b + one b page) :
    Grown g refs refs' pgd (pgd.addL3Table y page fun _ => 0#64) := by
  have hl3 : (pgd.addL3Table y page fun _ => 0#64).l3 = pgd.l3 := by
    funext x
    by_cases hx : (x.1, x.2.1) = y
    · rw [h.l3_absent x (hx ▸ hy)]
      exact if_pos hx
    · exact if_neg hx
  have hl2 : ∀ z, z ≠ y → (pgd.addL3Table y page fun _ => 0#64).l2 z = pgd.l2 z :=
    fun z hz => Function.update_of_ne hz _ _
  have hself : (pgd.addL3Table y page fun _ => 0#64).l2 y = .table page := Function.update_self _ _ _
  refine ⟨⟨fun z hz => ?_, fun z w => ?_, fun x hx => ?_, ?_, h.root_page, h.l1_page, fun z q hz => ?_⟩,
    hl3, fun _ _ => id, fun z q hz => ?_, refs_of_fresh hzero hrefs (Pgd.tables_addL3Table hy page)⟩
  · have hzy : z ≠ y := fun he => hl1 (he ▸ hz)
    rw [hl2 z hzy]
    exact h.l2_absent z hz
  · by_cases hzy : z = y
    · subst hzy
      rw [hself]
      simp
    · rw [hl2 z hzy]
      exact h.no_block z w
  · rw [hl3]
    have hxy : (x.1, x.2.1) ≠ y := by
      intro he
      rw [he, hself] at hx
      cases hx
    exact h.l3_absent x (hl2 _ hxy ▸ hx)
  · rw [hl3]
    exact h.page_bit
  · by_cases hzy : z = y
    · subst hzy
      rw [hself] at hz
      cases hz
      exact hp
    · exact h.l2_page z q (hl2 z hzy ▸ hz)
  · have hzy : z ≠ y := by
      intro he
      rw [he, hy] at hz
      cases hz
    rw [hl2 z hzy]
    exact hz

end Grow

/-! ## The operations -/

/-- One leaf entry for the page it maps, if the allocator manages that page. -/
noncomputable def leafOne (g : Pmm) (b : Block) (w : Word) : ℕ :=
  ind (has w pteValid = true ∧ g.pmmIsManaged (ptePtr w) = true ∧ blockOf (ptePtr w) = b)

theorem leafOne_of_managed {g : Pmm} {w : Word} (hv : has w pteValid = true)
    (hm : g.pmmIsManaged (ptePtr w) = true) (b : Block) : leafOne g b w = one b (ptePtr w) := by
  rw [one]
  exact ind_congr ⟨fun h => h.2.2, fun h => ⟨hv, hm, h⟩⟩

theorem leafOne_of_not {g : Pmm} {w : Word}
    (h : ¬ (has w pteValid = true ∧ g.pmmIsManaged (ptePtr w) = true)) (b : Block) :
    leafOne g b w = 0 := ind_neg fun hc => h ⟨hc.1, hc.2.1⟩

theorem leafOne_zero (g : Pmm) (b : Block) : leafOne g b 0#64 = 0 :=
  leafOne_of_not (fun h => absurd h.1 (by decide)) b

theorem of_leafOne_pos {g : Pmm} {b : Block} {w : Word} (h : 0 < leafOne g b w) :
    has w pteValid = true ∧ g.pmmIsManaged (ptePtr w) = true ∧ blockOf (ptePtr w) = b :=
  of_ind_pos h

theorem leafOne_le (g : Pmm) (b : Block) (w : Word) : leafOne g b w ≤ 1 := ind_le _

theorem leafOne_congr {g : Pmm} {w w' : Word} (hv : has w pteValid = has w' pteValid)
    (hp : ptePtr w = ptePtr w') (b : Block) : leafOne g b w = leafOne g b w' := by
  rw [leafOne, leafOne, hv, hp]

/-- The word for a page the allocator handed out names that page. -/
theorem ptePtr_mapWord {g : Pmm} {page : ℕ} {flags : Word} (hpage : IsPage g page)
    (hflags : flags &&& pteAddrMask = 0#64) : ptePtr (mapWord (v2p page) flags) = page := by
  obtain ⟨pfn, hpfn, hv2p⟩ := hpage.aligned
  rw [ptePtr, hv2p, pteAddr_mapWord hpfn hflags, ← hv2p, hpage.canonical]

theorem leafOne_mapWord {g : Pmm} {page : ℕ} {flags : Word} (hpage : IsPage g page)
    (hflags : flags &&& pteAddrMask = 0#64) (b : Block) :
    leafOne g b (mapWord (v2p page) flags) = one b page := by
  have hptr := ptePtr_mapWord hpage hflags
  rw [leafOne_of_managed (has_mapWord_valid _ _) (by rw [hptr]; exact hpage.managed), hptr]

section Operations

variable {g pmm pmm' : Pmm} {pgd pgd' : Pgd} {refs : Block → ℕ} {w : Word}

/-- Releasing what an entry maps. -/
theorem releaseEntry_spec (h : pmm.PmmInv refs) (hsame : g.SameRanges pmm)
    (hle : ∀ b, leafOne g b w ≤ refs b) (hok : releaseEntry pmm w = .ok pmm') :
    (pmm'.PmmInv fun b => refs b - leafOne g b w) ∧ pmm.SameRanges pmm' := by
  unfold releaseEntry at hok
  by_cases hc : has w pteValid = true ∧ pmm.pmmIsManaged (ptePtr w) = true
  · rw [hc.1, hc.2] at hok
    have hone := leafOne_of_managed hc.1 (pmmIsManaged_congr hsame _ ▸ hc.2)
    have hpos : 0 < refs (blockOf (ptePtr w)) := by
      have h1 := hle (blockOf (ptePtr w))
      rw [hone, one_blockOf] at h1
      exact h1
    obtain ⟨hinv, hs⟩ := pmmFreePages_spec h hc.2 hpos hok
    refine ⟨?_, hs⟩
    rw [funext fun b => congrArg (refs b - ·) (hone b)]
    exact hinv
  · have hzero := leafOne_of_not (pmmIsManaged_congr hsame (ptePtr w) ▸ hc)
    rw [if_neg (by rw [Bool.and_eq_true]; exact hc)] at hok
    cases hok
    refine ⟨?_, rfl, rfl⟩
    rw [funext fun b => (congrArg (refs b - ·) (hzero b)).trans (Nat.sub_zero _)]
    exact h

/-- Taking a reference on what a valid entry maps. -/
theorem holdEntry_spec (h : pmm.PmmInv refs) (hsame : g.SameRanges pmm)
    (hvalid : has w pteValid = true) (hle : ∀ b, leafOne g b w ≤ refs b)
    (hok : holdEntry pmm w = .ok pmm') :
    (pmm'.PmmInv fun b => refs b + leafOne g b w) ∧ pmm.SameRanges pmm' := by
  unfold holdEntry at hok
  by_cases hm : pmm.pmmIsManaged (ptePtr w) = true
  · rw [if_pos hm] at hok
    have hone := leafOne_of_managed hvalid (pmmIsManaged_congr hsame _ ▸ hm)
    have hpos : 0 < refs (blockOf (ptePtr w)) := by
      have h1 := hle (blockOf (ptePtr w))
      rw [hone, one_blockOf] at h1
      exact h1
    obtain ⟨hinv, hs⟩ := pmmHoldPage_spec h hm hpos hok
    refine ⟨?_, hs⟩
    rw [funext fun b => congrArg (refs b + ·) (hone b)]
    exact hinv
  · have hzero := leafOne_of_not (g := g) (w := w)
      (fun hc => hm (pmmIsManaged_congr hsame (ptePtr w) ▸ hc.2))
    rw [if_neg hm] at hok
    cases hok
    refine ⟨?_, rfl, rfl⟩
    rw [funext fun b => (congrArg (refs b + ·) (hzero b)).trans (add_zero _)]
    exact h

/-- The level-2 table of a path is there, or is added, or no page was left. -/
theorem ensureL2Table_spec {i : Ix} {r : Option Pgd} (hp : pgd.Ok g) (h : pmm.PmmInv refs)
    (hsame : g.SameRanges pmm) (hok : ensureL2Table pmm pgd i = .ok (r, pmm')) :
    ∃ refs', pmm'.PmmInv refs' ∧ pmm.SameRanges pmm' ∧
      (r = none → Grown g refs refs' pgd pgd) ∧
      ∀ pgd', r = some pgd' → Grown g refs refs' pgd pgd' ∧ pgd'.l1 i ≠ none := by
  unfold ensureL2Table at hok
  cases hi : pgd.l1 i with
  | some page =>
    rw [hi] at hok
    cases hok
    refine ⟨refs, h, ⟨rfl, rfl⟩, fun hr => absurd hr (by simp), fun pgd' hr => ?_⟩
    cases hr
    exact ⟨Grown.refl refs hp, by rw [hi]; simp⟩
  | none =>
    rw [hi] at hok
    obtain ⟨⟨o, q⟩, ha, he⟩ := map_eq_ok.mp hok
    cases he
    obtain ⟨refs', hinv, hs, hnone, hsome⟩ := allocPage_spec h ha
    refine ⟨refs', hinv, hs, fun hr => ?_, fun pgd' hr => ?_⟩
    · exact Grown.lost hp (hnone (Option.map_eq_none_iff.mp hr))
    · obtain ⟨page, ho, rfl⟩ := Option.map_eq_some_iff.mp hr
      obtain ⟨hpage, hzero, hrefs⟩ := hsome page ho
      refine ⟨grown_addL2Table hp hi ((isPage_congr hsame).mp hpage) hzero hrefs, ?_⟩
      show Function.update pgd.l1 i (some page) i ≠ none
      rw [Function.update_self]
      simp

/-- The same for the level-3 table, which is never split off a block. -/
theorem ensureL3Table_spec {y : Ix × Ix} {r : Option Pgd} (hp : pgd.Ok g) (h : pmm.PmmInv refs)
    (hsame : g.SameRanges pmm) (hl1 : pgd.l1 y.1 ≠ none)
    (hok : ensureL3Table pmm pgd y = .ok (r, pmm')) :
    ∃ refs', pmm'.PmmInv refs' ∧ pmm.SameRanges pmm' ∧
      (r = none → Grown g refs refs' pgd pgd) ∧
      ∀ pgd', r = some pgd' → Grown g refs refs' pgd pgd' ∧ pgd'.HasL3 y := by
  unfold ensureL3Table at hok
  cases hy : pgd.l2 y with
  | block w => exact absurd hy (hp.no_block y w)
  | table page =>
    rw [hy] at hok
    cases hok
    refine ⟨refs, h, ⟨rfl, rfl⟩, fun hr => absurd hr (by simp), fun pgd' hr => ?_⟩
    cases hr
    exact ⟨Grown.refl refs hp, page, hy⟩
  | invalid =>
    rw [hy] at hok
    obtain ⟨⟨o, q⟩, ha, he⟩ := map_eq_ok.mp hok
    cases he
    obtain ⟨refs', hinv, hs, hnone, hsome⟩ := allocPage_spec h ha
    refine ⟨refs', hinv, hs, fun hr => ?_, fun pgd' hr => ?_⟩
    · exact Grown.lost hp (hnone (Option.map_eq_none_iff.mp hr))
    · obtain ⟨page, ho, rfl⟩ := Option.map_eq_some_iff.mp hr
      obtain ⟨hpage, hzero, hrefs⟩ := hsome page ho
      exact ⟨grown_addL3Table hp hl1 hy ((isPage_congr hsame).mp hpage) hzero hrefs,
        page, Function.update_self _ _ _⟩

/-- Mapping a page: some tables may be added; if the mapping is made, the leaf at the path
is replaced and what it mapped is released. -/
theorem mmuUserMapPage_spec {va paddr : ℕ} {flags : Word} {ok : Bool} (hp : pgd.Ok g)
    (h : pmm.PmmInv refs) (hsame : g.SameRanges pmm)
    (hle : ∀ b, leafOne g b (pgd.l3 (vaPath va)) ≤ refs b)
    (hok : mmuUserMapPage pmm pgd va paddr flags = .ok (ok, pgd', pmm')) :
    ∃ refs' mid, Grown g refs refs' pgd mid ∧ pmm.SameRanges pmm' ∧
      (ok = false → pgd' = mid ∧ pmm'.PmmInv refs') ∧
      (ok = true → mid.HasL3 ((vaPath va).1, (vaPath va).2.1) ∧
        pgd' = mid.setL3 (vaPath va) (mapWord paddr flags) ∧
        pmm'.PmmInv fun b => refs' b - leafOne g b (pgd.l3 (vaPath va))) := by
  unfold mmuUserMapPage at hok
  dsimp only at hok
  obtain ⟨⟨o₁, pmm₁⟩, h₁, hok⟩ := bind_eq_ok.mp hok
  obtain ⟨refs₁, hinv₁, hs₁, hnone₁, hsome₁⟩ := ensureL2Table_spec hp h hsame h₁
  cases o₁ with
  | none =>
    cases hok
    exact ⟨refs₁, pgd, hnone₁ rfl, hs₁, fun _ => ⟨rfl, hinv₁⟩, fun he => absurd he (by simp)⟩
  | some pgd₁ =>
    obtain ⟨hg₁, hl1⟩ := hsome₁ pgd₁ rfl
    dsimp only at hok
    obtain ⟨⟨o₂, pmm₂⟩, h₂, hok⟩ := bind_eq_ok.mp hok
    obtain ⟨refs₂, hinv₂, hs₂, hnone₂, hsome₂⟩ :=
      ensureL3Table_spec hg₁.ok hinv₁ (sameRanges_trans hsame hs₁) hl1 h₂
    cases o₂ with
    | none =>
      cases hok
      exact ⟨refs₂, _, hg₁.trans (hnone₂ rfl), sameRanges_trans hs₁ hs₂,
        fun _ => ⟨rfl, hinv₂⟩, fun he => absurd he (by simp)⟩
    | some pgd₂ =>
      obtain ⟨hg₂, hl3⟩ := hsome₂ pgd₂ rfl
      dsimp only at hok
      obtain ⟨pmm₃, h₃, hok⟩ := bind_eq_ok.mp hok
      cases hok
      have hg := hg₁.trans hg₂
      have hleaf : pgd₂.l3 (vaPath va) = pgd.l3 (vaPath va) := by rw [hg.l3]
      rw [hleaf] at h₃
      -- a page that is mapped has references, so it is not one the tables took
      have hle₂ : ∀ b, leafOne g b (pgd.l3 (vaPath va)) ≤ refs₂ b := by
        intro b
        have h1 := hle b
        have h2 := hg.refs b
        have h3 := leafOne_le g b (pgd.l3 (vaPath va))
        omega
      obtain ⟨hinv₃, hs₃⟩ := releaseEntry_spec hinv₂
        (sameRanges_trans hsame (sameRanges_trans hs₁ hs₂)) hle₂ h₃
      exact ⟨refs₂, pgd₂, hg, sameRanges_trans hs₁ (sameRanges_trans hs₂ hs₃),
        fun he => absurd he (by simp), fun _ => ⟨hl3, rfl, hinv₃⟩⟩

/-- Unmapping a page: nothing happens, or the leaf is cleared and its page released. -/
theorem mmuUserUnmapPage_spec {va : ℕ} (hp : pgd.Ok g) (h : pmm.PmmInv refs)
    (hsame : g.SameRanges pmm) (hle : ∀ b, leafOne g b (pgd.l3 (vaPath va)) ≤ refs b)
    (hok : mmuUserUnmapPage pmm pgd va = .ok (pgd', pmm')) :
    pmm.SameRanges pmm' ∧ ((pgd' = pgd ∧ pmm' = pmm) ∨
      (pgd.HasL3 ((vaPath va).1, (vaPath va).2.1) ∧ pgd' = pgd.setL3 (vaPath va) 0#64 ∧
        pmm'.PmmInv fun b => refs b - leafOne g b (pgd.l3 (vaPath va)))) := by
  unfold mmuUserUnmapPage at hok
  dsimp only at hok
  split at hok
  · cases hok
    exact ⟨⟨rfl, rfl⟩, Or.inl ⟨rfl, rfl⟩⟩
  · cases hok
    exact ⟨⟨rfl, rfl⟩, Or.inl ⟨rfl, rfl⟩⟩
  · rename_i hb
    exact absurd hb (hp.no_block _ _)
  · rename_i page _ hl
    unfold clearLeaf at hok
    split at hok
    · obtain ⟨q, hq, he⟩ := map_eq_ok.mp hok
      cases he
      obtain ⟨hinv, hs⟩ := releaseEntry_spec h hsame hle hq
      exact ⟨hs, Or.inr ⟨⟨page, hl⟩, rfl, hinv⟩⟩
    · cases hok
      exact ⟨⟨rfl, rfl⟩, Or.inl ⟨rfl, rfl⟩⟩

end Operations

/-! ## Destroying an address space -/

/-- What a pending release takes away from the leaves and holds of block `b`. -/
noncomputable def Pending.leafOne (b : Block) : Pending → ℕ
  | .leaf ptr => one b ptr
  | .table _ => 0

/-- What a pending release takes away from the tables in block `b`. -/
noncomputable def Pending.tableOne (b : Block) : Pending → ℕ
  | .leaf _ => 0
  | .table ptr => one b ptr

section Destroy

variable {g pmm : Pmm} {pgd : Pgd}

theorem destroy_leaf_word (hp : pgd.Ok g) (hsame : g.SameRanges pmm) (b : Block) (x : Ix × Ix × Ix) :
    ((if has (pgd.l3 x) pteValid && has (pgd.l3 x) ptePage then pendingLeaf pmm (pgd.l3 x)
      else []).map (Pending.leafOne b)).sum = leafOne g b (pgd.l3 x) := by
  by_cases hv : has (pgd.l3 x) pteValid = true
  · rw [hv, hp.page_bit x hv]
    unfold pendingLeaf
    by_cases hm : pmm.pmmIsManaged (ptePtr (pgd.l3 x)) = true
    · rw [hm, leafOne_of_managed hv (pmmIsManaged_congr hsame _ ▸ hm)]
      exact List.sum_singleton
    · rw [if_neg hm, leafOne_of_not fun hc => hm (pmmIsManaged_congr hsame _ ▸ hc.2)]
      rfl
  · rw [leafOne_of_not fun hc => hv hc.1, if_neg (by rw [Bool.and_eq_true]; exact fun hc => hv hc.1)]
    rfl

theorem destroyL2_leaf (hp : pgd.Ok g) (hsame : g.SameRanges pmm) (b : Block) (i j : Ix) :
    ((destroyL2 pmm pgd i j).map (Pending.leafOne b)).sum
      = ∑ᶠ k, leafOne g b (pgd.l3 (i, j, k)) := by
  unfold destroyL2
  cases hl : pgd.l2 (i, j) with
  | invalid =>
    have hzero : ∀ k, leafOne g b (pgd.l3 (i, j, k)) = 0 := fun k => by
      rw [hp.l3_absent (i, j, k) hl, leafOne_zero]
    rw [finsum_eq_zero hzero]
    rfl
  | block w => exact absurd hl (hp.no_block _ w)
  | table page =>
    dsimp only
    rw [List.map_append, List.sum_append, sum_map_flatMap_finRange]
    rw [finsum_congr fun k => destroy_leaf_word hp hsame b (i, j, k)]
    simp [Pending.leafOne]

theorem destroyL2_table (hp : pgd.Ok g) (b : Block) (i j : Ix) :
    ((destroyL2 pmm pgd i j).map (Pending.tableOne b)).sum = (pgd.l2 (i, j)).pages b := by
  unfold destroyL2
  cases hl : pgd.l2 (i, j) with
  | invalid => rfl
  | block w => exact absurd hl (hp.no_block _ w)
  | table page =>
    dsimp only
    have hzero : ∀ k, ((if has (pgd.l3 (i, j, k)) pteValid && has (pgd.l3 (i, j, k)) ptePage then
        pendingLeaf pmm (pgd.l3 (i, j, k)) else []).map (Pending.tableOne b)).sum = 0 := by
      intro k
      unfold pendingLeaf
      split
      · split <;> simp [Pending.tableOne]
      · rfl
    rw [List.map_append, List.sum_append, sum_map_flatMap_finRange, finsum_eq_zero hzero]
    simp [Pending.tableOne, L2Entry.pages]

theorem destroyL1_leaf (hp : pgd.Ok g) (hsame : g.SameRanges pmm) (b : Block) (i : Ix) :
    ((destroyL1 pmm pgd i).map (Pending.leafOne b)).sum
      = ∑ᶠ y : Ix × Ix, leafOne g b (pgd.l3 (i, y)) := by
  unfold destroyL1
  cases hl : pgd.l1 i with
  | none =>
    have hzero : ∀ y : Ix × Ix, leafOne g b (pgd.l3 (i, y)) = 0 := fun y => by
      rw [hp.l3_absent (i, y) (hp.l2_absent (i, y.1) hl), leafOne_zero]
    rw [finsum_eq_zero hzero]
    rfl
  | some page =>
    dsimp only
    rw [List.map_append, List.sum_append, sum_map_flatMap_finRange, finsum_prod]
    rw [finsum_congr fun j => destroyL2_leaf hp hsame b i j]
    simp [Pending.leafOne]

theorem destroyL1_table (hp : pgd.Ok g) (b : Block) (i : Ix) :
    ((destroyL1 pmm pgd i).map (Pending.tableOne b)).sum
      = (pgd.l1 i).elim 0 (one b) + ∑ᶠ j, (pgd.l2 (i, j)).pages b := by
  unfold destroyL1
  cases hl : pgd.l1 i with
  | none =>
    have hzero : ∀ j, (pgd.l2 (i, j)).pages b = 0 := fun j => by
      rw [hp.l2_absent (i, j) hl]
      rfl
    rw [finsum_eq_zero hzero]
    rfl
  | some page =>
    dsimp only
    rw [List.map_append, List.sum_append, sum_map_flatMap_finRange]
    rw [finsum_congr fun j => destroyL2_table hp b i j]
    simp [Pending.tableOne, add_comm]

/-- Destroying an address space releases every leaf once … -/
theorem destroy_leaves (hp : pgd.Ok g) (hsame : g.SameRanges pmm) (b : Block) :
    ((mmuDestroyUserPgd pmm pgd).map (Pending.leafOne b)).sum = pgd.count (leafOne g b) := by
  unfold mmuDestroyUserPgd
  rw [List.map_append, List.sum_append, sum_map_flatMap_finRange,
    finsum_congr fun i => destroyL1_leaf hp hsame b i, hp.count_eq (leafOne_zero g b),
    finsum_prod fun x => leafOne g b (pgd.l3 x)]
  simp [Pending.leafOne]

/-- … and every table once. -/
theorem destroy_tables (hp : pgd.Ok g) (b : Block) :
    ((mmuDestroyUserPgd pmm pgd).map (Pending.tableOne b)).sum = pgd.tables b := by
  unfold mmuDestroyUserPgd
  rw [List.map_append, List.sum_append, sum_map_flatMap_finRange,
    finsum_congr fun i => destroyL1_table hp b i, finsum_add, Pgd.tables,
    finsum_prod fun y => (pgd.l2 y).pages b]
  simp only [List.map_cons, List.map_nil, List.sum_cons, List.sum_nil, Pending.tableOne, add_zero]
  rw [add_comm, add_assoc]

/-- Only pages of the allocator are released. -/
theorem destroy_managed (hp : pgd.Ok g) (hsame : g.SameRanges pmm) :
    ∀ x ∈ mmuDestroyUserPgd pmm pgd, g.pmmIsManaged x.ptr = true := by
  have hleaf : ∀ w, ∀ x ∈ pendingLeaf pmm w, g.pmmIsManaged x.ptr = true := by
    intro w x hx
    unfold pendingLeaf at hx
    split at hx
    · rename_i hm
      rw [List.mem_singleton.mp hx, ← pmmIsManaged_congr hsame]
      exact hm
    · exact absurd hx (by simp)
  intro x hx
  unfold mmuDestroyUserPgd at hx
  simp only [List.mem_append, List.mem_flatMap, List.mem_singleton] at hx
  rcases hx with ⟨i, -, hx⟩ | rfl
  · unfold destroyL1 at hx
    split at hx
    · exact absurd hx (by simp)
    · rename_i page hl
      simp only [List.mem_append, List.mem_flatMap, List.mem_singleton] at hx
      rcases hx with ⟨j, -, hx⟩ | rfl
      · unfold destroyL2 at hx
        split at hx
        · exact absurd hx (by simp)
        · rename_i w hb
          exact absurd hb (hp.no_block _ w)
        · rename_i q hq
          simp only [List.mem_append, List.mem_flatMap, List.mem_singleton] at hx
          rcases hx with ⟨k, -, hx⟩ | rfl
          · split at hx
            · exact hleaf _ x hx
            · exact absurd hx (by simp)
          · exact (hp.l2_page _ q hq).managed
      · exact (hp.l1_page i page hl).managed
  · exact hp.root_page.managed

end Destroy

attribute [irreducible] leafOne Pgd.tables

end Perspicua.Mm
