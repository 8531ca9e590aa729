import Perspicua.Mm.AddressSpaceInv

/-!
# Every operation keeps the balance

One `Keeps` lemma per operation of a process. The lemmas about the page-table functions say
which leaf changed and which pages were taken; what is left is arithmetic on five numbers.
-/

namespace Perspicua.Mm

open Perspicua.Lib

variable {g pmm pmm' : Pmm} {x : Proc}

/-- A page that was nobody's. -/
theorem one_fresh {refs : Block → ℕ} {page : ℕ} (h : refs (blockOf page) = 0) (b : Block)
    (hb : one b page = 1) : refs b = 0 := by
  by_cases he : blockOf page = b
  · rw [← he]
    exact h
  · rw [one_of_ne he] at hb
    cases hb

/-- A change of a process alone: references move between its five numbers. -/
structure Shifts (g : Pmm) (x x' : Proc) : Prop where
  ok : x.Ok g → x'.Ok g
  balanced : x.Ok g → ∀ b leaf wr hold fresh kern rc, wr ≤ leaf →
    Balanced (leaf + x.leaves g b) (wr + x.writable g b) (hold + x.op.holds g b)
      (fresh + x.op.fresh b) (kern + x.tables b) rc →
    Balanced (leaf + x'.leaves g b) (wr + x'.writable g b) (hold + x'.op.holds g b)
      (fresh + x'.op.fresh b) (kern + x'.tables b) rc

theorem Shifts.keeps {x' : Proc} (h : Shifts g x x') : Keeps g pmm pmm x x' :=
  fun refs hinv _ hx _ => ⟨refs, hinv, ⟨rfl, rfl⟩, h.ok hx,
    fun b leaf wr hold fresh kern => h.balanced hx b leaf wr hold fresh kern (refs b)⟩

theorem Keeps.trans_shifts {y z : Proc} (h : Keeps g pmm pmm' x y)
    (h' : g.SameRanges pmm' → Shifts g y z) : Keeps g pmm pmm' x z := by
  intro refs hinv hsame hx hle
  obtain ⟨refs', hinv', hsame', hy, hbal⟩ := h refs hinv hsame hx hle
  have hz := h' (sameRanges_trans hsame hsame')
  exact ⟨refs', hinv', hsame', hz.ok hy, fun b leaf wr hold fresh kern hw hb =>
    hz.balanced hy b leaf wr hold fresh kern _ hw (hbal b leaf wr hold fresh kern hw hb)⟩

/-- Every leaf of a process is one of the allocator's references. -/
theorem leafOne_le_refs {t : Target} {pgd : Pgd} {refs : Block → ℕ} (htable : x.table t = some pgd)
    (hp : pgd.Ok g)
    (hle : ∀ b, x.leaves g b + x.op.holds g b + x.op.fresh b + x.tables b ≤ refs b)
    (y : Ix × Ix × Ix) (b : Block) : leafOne g b (pgd.l3 y) ≤ refs b := by
  have h1 := Pgd.leafOne_le_leaves hp b y
  have h2 := Proc.le_leaves_of_table (g := g) htable b
  have h3 := hle b
  omega

/-! ## Building an address space -/

theorem keeps_newTable {r : Option ℕ} {o : Op} (hop : x.op = .idle) (himage : x.image = none)
    (hok : allocUserTablePage pmm = .ok (r, pmm')) (ho : o.Bare)
    (hfork : Proc.OpOk g { x with image := r.map Pgd.empty, op := o }) :
    Keeps g pmm pmm' x { x with image := r.map Pgd.empty, op := o } := by
  intro refs hinv hsame hx _
  obtain ⟨refs', hinv', hsame', hnone, hsome⟩ := allocPage_spec hinv hok
  refine ⟨refs', hinv', hsame', ⟨hx.pgd, fun d hd => ?_, hfork⟩, ?_⟩
  · obtain ⟨page, hr, rfl⟩ := Option.map_eq_some_iff.mp hd
    exact Pgd.Ok.empty ((isPage_congr hsame).mp (hsome page hr).1)
  · intro b leaf wr hold fresh kern _ hb
    simp only [Proc.leaves, Proc.writable, Proc.tables, hop, himage, Option.elim_none, ho.holds,
      ho.fresh, ho.tables, Op.bare_idle.holds, Op.bare_idle.fresh, Op.bare_idle.tables] at hb ⊢
    cases r with
    | none =>
      apply hb.grow
      rcases hnone rfl b with h1 | h1
      · exact Or.inl ⟨h1, rfl⟩
      · exact Or.inr (Or.inr ⟨h1, rfl⟩)
    | some page =>
      obtain ⟨hpage, hzero, hrefs⟩ := hsome page rfl
      have hp := (isPage_congr hsame).mp hpage
      simp only [Option.map_some, Option.elim_some, Pgd.leaves_empty hp, Pgd.writable_empty hp,
        Pgd.tables_empty]
      apply hb.grow
      have h1 := hrefs b
      have h2 := one_le b page
      have h3 := one_fresh hzero b
      omega

theorem keeps_create {r : Option ℕ} (hop : x.op = .idle) (himage : x.image = none)
    (hok : allocUserTablePage pmm = .ok (r, pmm')) :
    Keeps g pmm pmm' x { x with image := r.map Pgd.empty } := by
  obtain ⟨pgd, image, op⟩ := x
  cases hop
  exact keeps_newTable rfl himage hok Op.bare_idle trivial

theorem keeps_forkStart {page : ℕ} (hop : x.op = .idle) (himage : x.image = none)
    (hok : allocUserTablePage pmm = .ok (some page, pmm')) :
    Keeps g pmm pmm' x { x with image := some (Pgd.empty page), op := .fork (.l1 0) } :=
  keeps_newTable hop himage hok (Op.bare_fork _) ⟨_, rfl, forkOk_empty page⟩

/-! ## Destroying an address space -/

/-- The address space `lost` is taken out of a process and its releases are queued. -/
theorem shifts_destroy (lost : Option Pgd) (hsame : g.SameRanges pmm) {x' : Proc}
    (hbare : x.op.Bare) (hlost : ∀ d, lost = some d → x.pgd = some d ∨ x.image = some d)
    (hkeep : ∀ d, x'.pgd = some d ∨ x'.image = some d → x.pgd = some d ∨ x.image = some d)
    (hsum : ∀ f : Pgd → ℕ, x.pgd.elim 0 f + x.image.elim 0 f
      = x'.pgd.elim 0 f + x'.image.elim 0 f + lost.elim 0 f)
    (hop : x'.op = .frees (lost.elim [] (mmuDestroyUserPgd pmm))) : Shifts g x x' := by
  have hmem : x.Ok g → ∀ d, x.pgd = some d ∨ x.image = some d → d.Ok g :=
    fun hx d hd => hd.elim (hx.pgd d) (hx.image d)
  constructor
  · intro hx
    refine ⟨fun d hd => hmem hx d (hkeep d (Or.inl hd)),
      fun d hd => hmem hx d (hkeep d (Or.inr hd)), ?_⟩
    unfold Proc.OpOk
    rw [hop]
    cases lost with
    | none => exact fun y hy => absurd hy List.not_mem_nil
    | some d => exact destroy_managed (hmem hx d (hlost d rfl)) hsame
  · intro hx b leaf wr hold fresh kern rc hwl hb
    have hholds : x'.op.holds g b = lost.elim 0 (Pgd.leaves g b) := by
      rw [hop]
      cases lost with
      | none => rfl
      | some d =>
        rw [Option.elim_some, Option.elim_some, Pgd.leaves]
        exact destroy_leaves (hmem hx d (hlost d rfl)) hsame b
    have htables : x'.op.tables b = lost.elim 0 (Pgd.tables b) := by
      rw [hop]
      cases lost with
      | none => rfl
      | some d => exact destroy_tables (hmem hx d (hlost d rfl)) b
    have hfresh : x'.op.fresh b = 0 := by rw [hop]; rfl
    have hL := hsum (Pgd.leaves g b)
    have hW := hsum (Pgd.writable g b)
    have hT := hsum (Pgd.tables b)
    have hle := x'.writable_le g b
    simp only [Proc.leaves, Proc.writable, Proc.tables, hbare.holds, hbare.fresh, hbare.tables,
      hholds, htables, hfresh, add_zero] at hb hle ⊢
    rw [hL, ← add_assoc] at hb
    rw [hT] at hb
    exact hb.unmap (by omega) (by omega)

theorem shifts_exit (hsame : g.SameRanges pmm) {pgd : Pgd} (hop : x.op = .idle)
    (hpgd : x.pgd = some pgd) :
    Shifts g x { x with pgd := none, op := .frees (mmuDestroyUserPgd pmm pgd) } := by
  apply shifts_destroy (some pgd) hsame (hop ▸ Op.bare_idle)
  · intro d hd
    exact Or.inl (hpgd.trans hd)
  · intro d hd
    exact Or.inr (hd.resolve_left fun hc => by cases hc)
  · intro f
    rw [hpgd]
    exact (Nat.add_comm _ _).trans (congrArg (· + _) (Nat.zero_add _).symm)
  · rfl

theorem shifts_dropImage (hsame : g.SameRanges pmm) {pgd : Pgd} (hbare : x.op.Bare)
    (himage : x.image = some pgd) :
    Shifts g x { x with image := none, op := .frees (mmuDestroyUserPgd pmm pgd) } := by
  apply shifts_destroy (some pgd) hsame hbare
  · intro d hd
    exact Or.inr (himage.trans hd)
  · intro d hd
    exact Or.inl (hd.resolve_right fun hc => by cases hc)
  · intro f
    rw [himage]
    rfl
  · rfl

theorem shifts_execCommit (hsame : g.SameRanges pmm) {pgd : Pgd} (hop : x.op = .idle)
    (himage : x.image = some pgd) :
    Shifts g x
      { pgd := some pgd
        image := none
        op := .frees (x.pgd.elim [] (mmuDestroyUserPgd pmm)) } := by
  apply shifts_destroy x.pgd hsame (hop ▸ Op.bare_idle)
  · exact fun d hd => Or.inl hd
  · intro d hd
    exact Or.inr (himage.trans (hd.resolve_right fun hc => by cases hc))
  · intro f
    rw [himage]
    exact Nat.add_comm _ _
  · rfl

/-! ## Forking -/

theorem keeps_copyTables {parent child parent' child' : Pgd} {pos : ForkPos} {out : ForkOut}
    {o : Op} (hop : x.op = .fork pos) (hpgd : x.pgd = some parent) (himage : x.image = some child)
    (hok : mmuCopyStep pmm parent child pos = .ok (pmm', parent', child', out)) (ho : o.Bare)
    (hopOk : (∀ pos', out = .next pos' → ForkOk child' pos') →
      Proc.OpOk g ⟨some parent', some child', o⟩) :
    Keeps g pmm pmm' x ⟨some parent', some child', o⟩ := by
  intro refs hinv hsame hx hle
  have hparent := hx.pgd parent hpgd
  have hchild := hx.image child himage
  have hfork : ForkOk child pos := by
    obtain ⟨child', himage', hpos⟩ := hx.opOk hop
    rw [himage] at himage'
    cases himage'
    exact hpos
  simp only [Proc.leaves, Proc.tables, hpgd, himage, Option.elim_some] at hle
  obtain ⟨refs', hinv', hsame', hnext, heff⟩ := mmuCopyStep_spec hparent hchild hfork hinv hsame
    (fun y b => by have h1 := Pgd.leafOne_le_leaves hparent b y; have h2 := hle b; omega) hok
  refine ⟨refs', hinv', hsame', ?_⟩
  rcases heff with ⟨rfl, hgrown⟩ | ⟨y, hvalid, rfl, rfl, hl3, hzero, hrefs⟩
  · refine ⟨⟨?_, ?_, hopOk hnext⟩, ?_⟩
    · rintro d ⟨⟩
      exact hparent
    · rintro d ⟨⟩
      exact hgrown.ok
    · intro b leaf wr hold fresh kern _ hb
      simp only [Proc.leaves, Proc.writable, Proc.tables, hop, hpgd, himage, Option.elim_some,
        ho.holds, ho.fresh, ho.tables, (Op.bare_fork pos).holds, (Op.bare_fork pos).fresh,
        (Op.bare_fork pos).tables, Pgd.leaves_grown hchild hgrown,
        Pgd.writable_grown hchild hgrown] at hb ⊢
      apply hb.grow
      have hr := hgrown.refs b
      omega
  · -- one leaf of the parent is write-protected and entered in the child
    have hcow : has (cowMark (parent.l3 y)) pteValid = true →
        has (cowMark (parent.l3 y)) ptePage = true := by
      intro _
      rw [has_cowMark_page]
      exact hparent.page_bit y hvalid
    have hparent' := hparent.setL3 (hparent.hasL3_of_valid hvalid) hcow
    have hchild' := hchild.setL3 hl3 hcow
    refine ⟨⟨?_, ?_, hopOk hnext⟩, ?_⟩
    · rintro d ⟨⟩
      exact hparent'
    · rintro d ⟨⟩
      exact hchild'
    · intro b leaf wr hold fresh kern hwl hb
      have hro := writableOne_of_ro g b (has_cowMark_ro (parent.l3 y))
      have hLp := Pgd.leaves_setL3 hparent hparent' b
      have hWp := Pgd.writable_setL3 hparent hparent' b
      have hLc := Pgd.leaves_setL3 hchild hchild' b
      have hWc := Pgd.writable_setL3 hchild hchild' b
      have hoth := Pgd.writable_add_leafOne_le hparent b y
      have hcl := Pgd.writable_le g b child
      rw [leafOne_cowMark] at hLp hLc
      rw [hro] at hWp hWc
      rw [hzero, leafOne_zero] at hLc
      rw [hzero, writableOne_zero] at hWc
      simp only [Proc.leaves, Proc.writable, Proc.tables, hop, hpgd, himage, Option.elim_some,
        ho.holds, ho.fresh, ho.tables, (Op.bare_fork pos).holds, (Op.bare_fork pos).fresh,
        (Op.bare_fork pos).tables, Pgd.tables_setL3] at hb ⊢
      rw [hrefs b]
      have hL : leaf + ((parent.setL3 y (cowMark (parent.l3 y))).leaves g b +
          (child.setL3 y (cowMark (parent.l3 y))).leaves g b)
          = leaf + (parent.leaves g b + child.leaves g b) + leafOne g b (parent.l3 y) := by omega
      rw [hL]
      exact hb.copy_leaf (by omega) (by omega)

theorem keeps_forkStep {parent child parent' child' : Pgd} {pos : ForkPos} {out : ForkOut}
    (hop : x.op = .fork pos) (hpgd : x.pgd = some parent) (himage : x.image = some child)
    (hok : mmuCopyStep pmm parent child pos = .ok (pmm', parent', child', out)) :
    Keeps g pmm pmm' x (Sys.afterCopy pmm' parent' child' out) := by
  cases out with
  | next pos' =>
    exact keeps_copyTables hop hpgd himage hok (Op.bare_fork pos')
      fun hnext => ⟨child', rfl, hnext pos' rfl⟩
  | done => exact keeps_copyTables hop hpgd himage hok Op.bare_idle fun _ => trivial
  | oom =>
    apply (keeps_copyTables hop hpgd himage hok Op.bare_idle fun _ => trivial).trans_shifts
    intro hsame
    exact shifts_dropImage hsame Op.bare_idle rfl

/-! ## Copy on write -/

/-- The three ways the first phase of `mmu_handle_cow` ends. -/
theorem mmuHandleCowFirst_cases {pgd : Pgd} {va : ℕ} {r : CowFirst}
    (h : mmuHandleCowFirst pmm pgd va = .ok (r, pmm')) :
    (r = .fault ∧ pmm' = pmm) ∨ ∃ w, userLeafPte pgd va = some w ∧ has w pteValid = true ∧
      has w pteCow = true ∧ ((r = .promoted (pgd.setL3 (vaPath va) (promote w)) ∧ pmm' = pmm ∧
          (pmm.pmmIsManaged (ptePtr w) = true → pmm.pmmPageRefcount (ptePtr w) ≤ 1)) ∨
        (r = .held (pteAddr w) ∧ pmm.pmmIsManaged (ptePtr w) = true ∧
          pmm.pmmHoldPage (ptePtr w) = .ok pmm')) := by
  unfold mmuHandleCowFirst at h
  split at h
  · cases h
    exact Or.inl ⟨rfl, rfl⟩
  · rename_i w hw
    split at h
    · cases h
      exact Or.inl ⟨rfl, rfl⟩
    · rename_i hcow
      simp only [Bool.or_eq_true, Bool.not_eq_true', not_or, Bool.not_eq_false] at hcow
      refine Or.inr ⟨w, hw, hcow.1, hcow.2, ?_⟩
      split at h
      · rename_i hsole
        cases h
        refine Or.inl ⟨rfl, rfl, fun hm => ?_⟩
        rw [hm] at hsole
        exact of_decide_eq_true hsole
      · rename_i hshared
        simp only [Bool.or_eq_true, Bool.not_eq_true', not_or, Bool.not_eq_false] at hshared
        obtain ⟨pmm1, hhold, heq⟩ := map_eq_ok.mp h
        cases heq
        exact Or.inr ⟨rfl, hshared.1, hhold⟩

theorem leafOne_promote (g : Pmm) (b : Block) (w : Word) :
    leafOne g b (promote w) = leafOne g b w :=
  leafOne_congr (has_promote_valid w) (ptePtr_promote w) b

theorem keeps_cowFirst {pgd : Pgd} {va : ℕ} {r : CowFirst} (hop : x.op = .idle)
    (hpgd : x.pgd = some pgd) (hok : mmuHandleCowFirst pmm pgd va = .ok (r, pmm')) :
    Keeps g pmm pmm' x (Sys.afterCowFirst x va r) := by
  rcases mmuHandleCowFirst_cases hok with ⟨rfl, rfl⟩ | ⟨w, hw, hvalid, -, hcase⟩
  · exact Shifts.keeps ⟨id, fun _ _ _ _ _ _ _ _ _ hb => hb⟩
  have htable : x.table .own = some pgd := hpgd
  intro refs hinv hsame hx hle
  have hp := hx.pgd pgd hpgd
  obtain ⟨hl3, hword⟩ := hp.userLeafPte_eq hw
  -- the leaf is one of the references of its page
  have hone : ∀ b, leafOne g b w ≤ x.leaves g b := by
    intro b
    have h1 := Pgd.leafOne_le_leaves hp b (vaPath va)
    have h2 := Proc.le_leaves_of_table (g := g) htable b
    rw [hword] at h1
    omega
  rcases hcase with ⟨rfl, rfl, hsole⟩ | ⟨rfl, hm, hhold⟩
  · have hp' : (pgd.setL3 (vaPath va) (promote w)).Ok g := by
      apply hp.setL3 hl3
      rw [has_promote_valid, has_promote_page, ← hword]
      exact hp.page_bit _
    have hx' : Proc.Ok g { x.setTable .own (pgd.setL3 (vaPath va) (promote w)) with op := x.op } := by
      apply hx.setTable hp'
      unfold Proc.OpOk
      rw [hop]
      trivial
    refine ⟨refs, hinv, ⟨rfl, rfl⟩, hx', fun b leaf wr hold fresh kern hwl hb => ?_⟩
    obtain ⟨hL, hW, hT⟩ := @Proc.setLeaf_counts g x .own pgd x.op _ _ htable hp hp' b
    have hwle := writableOne_le g b (promote w)
    have h1 := hone b
    have hrefs := hle b
    rw [hword] at hL hW
    rw [leafOne_promote] at hL hwle
    -- a page with two references is not this one
    have hrc : 0 < leafOne g b w → refs b ≤ 1 := by
      intro hpos
      obtain ⟨-, hm, hb⟩ := of_leafOne_pos hpos
      rw [← pmmIsManaged_congr hsame] at hm
      have hcount := pmmPageRefcount_spec hinv hm (by rw [hb]; omega)
      have hsole := hsole hm
      rw [hcount, hb] at hsole
      exact hsole
    have hleaves : Proc.leaves g b (Sys.afterCowFirst x va
        (.promoted (pgd.setL3 (vaPath va) (promote w)))) = x.leaves g b := Nat.add_right_cancel hL
    have htables : Proc.tables b (Sys.afterCowFirst x va
        (.promoted (pgd.setL3 (vaPath va) (promote w)))) = x.tables b := Nat.add_right_cancel hT
    rw [hleaves, htables]
    refine hb.promote ?_ (by omega) hrc
    show wr + Proc.writable g b { x.setTable .own (pgd.setL3 (vaPath va) (promote w)) with op := x.op }
      ≤ _
    omega
  · -- the source page gets a reference of its own before the lock is dropped
    have hm' : g.pmmIsManaged (ptePtr w) = true := by rw [← pmmIsManaged_congr hsame]; exact hm
    have hpos : 0 < refs (blockOf (ptePtr w)) := by
      have h1 := hone (blockOf (ptePtr w))
      have h2 := hle (blockOf (ptePtr w))
      rw [leafOne_of_managed hvalid hm', one_blockOf] at h1
      omega
    obtain ⟨hinv', hsame'⟩ := pmmHoldPage_spec hinv hm hpos hhold
    refine ⟨_, hinv', hsame', ⟨hx.pgd, hx.image, hm'⟩, fun b leaf wr hold fresh kern hwl hb => ?_⟩
    have h1 := hone b
    rw [leafOne_of_managed hvalid hm'] at h1
    have h2 := hb.hold_mapped (d := one b (ptePtr w)) (by omega) (one_le _ _)
    rw [hop] at h2
    unfold Proc.tables at h2
    rw [hop] at h2
    exact h2

theorem keeps_cowAllocFails {va oldPa : ℕ} (hop : x.op = .cowHeld va oldPa)
    (hok : allocPage pmm = .ok (none, pmm')) :
    Keeps g pmm pmm' x { x with op := .frees [.leaf (p2v oldPa)] } := by
  intro refs hinv hsame hx _
  obtain ⟨refs', hinv', hsame', hnone, -⟩ := allocPage_spec hinv hok
  have hm : g.pmmIsManaged (p2v oldPa) = true := hx.opOk hop
  refine ⟨refs', hinv', hsame', ⟨hx.pgd, hx.image, ?_⟩, fun b leaf wr hold fresh kern _ hb => ?_⟩
  · intro y hy
    rw [List.mem_singleton.mp hy]
    exact hm
  · unfold Proc.tables at hb
    rw [hop] at hb
    rcases hnone rfl b with h1 | h1
    · exact hb.grow (Or.inl ⟨h1, rfl⟩)
    · exact hb.grow (Or.inr (Or.inr ⟨h1, rfl⟩))

/-- An operation goes on with a page it has just allocated. -/
theorem keeps_allocPage {page : ℕ} {o : Op} (hok : allocPage pmm = .ok (some page, pmm'))
    (hholds : ∀ b, o.holds g b = x.op.holds g b)
    (hfresh : ∀ b, o.fresh b = x.op.fresh b + one b page)
    (htables : ∀ b, o.tables b = x.op.tables b)
    (hopOk : IsPage g page → x.Ok g → Proc.OpOk g { x with op := o }) :
    Keeps g pmm pmm' x { x with op := o } := by
  intro refs hinv hsame hx _
  obtain ⟨refs', hinv', hsame', -, hsome⟩ := allocPage_spec hinv hok
  obtain ⟨hpage, hzero, hrefs⟩ := hsome page rfl
  refine ⟨refs', hinv', hsame', ⟨hx.pgd, hx.image, hopOk ((isPage_congr hsame).mp hpage) hx⟩,
    fun b leaf wr hold fresh kern _ hb => ?_⟩
  unfold Proc.tables at hb ⊢
  dsimp only
  rw [hholds, hfresh, htables, hrefs, ← add_assoc]
  exact hb.alloc (one_le b page) (one_fresh hzero b)

theorem keeps_cowCopy {va oldPa page : ℕ} (hop : x.op = .cowHeld va oldPa)
    (hok : allocPage pmm = .ok (some page, pmm')) :
    Keeps g pmm pmm' x { x with op := .cowCopied va oldPa page } := by
  obtain ⟨pgd, image, op⟩ := x
  cases hop
  exact keeps_allocPage hok (fun _ => rfl) (fun _ => (Nat.zero_add _).symm) (fun _ => rfl)
    fun hpage hx => ⟨hx.op, hpage⟩

theorem keeps_mapAlloc {t : Target} {va page : ℕ} {flags : Word} (hop : x.op = .idle)
    (hflags : flags &&& pteAddrMask = 0#64) (hok : allocPage pmm = .ok (some page, pmm')) :
    Keeps g pmm pmm' x { x with op := .mapFresh t va page flags } := by
  obtain ⟨pgd, image, op⟩ := x
  cases hop
  exact keeps_allocPage hok (fun _ => rfl) (fun _ => (Nat.zero_add _).symm) (fun _ => rfl)
    fun hpage _ => ⟨hpage, hflags⟩

/-- What the second phase of `mmu_handle_cow` found and wrote. -/
theorem mmuHandleCowSecond_cases {pgd pgd' : Pgd} {va oldPa newPage : ℕ}
    (h : mmuHandleCowSecond pgd va oldPa newPage = some pgd') :
    ∃ w, userLeafPte pgd va = some w ∧ has w pteValid = true ∧ has w pteCow = true ∧ pteAddr w = oldPa ∧
      pgd' = pgd.setL3 (vaPath va) (BitVec.ofNat 64 (v2p newPage) |||
        (w &&& ~~~pteAddrMask &&& ~~~pteCow &&& ~~~apRo)) := by
  unfold mmuHandleCowSecond at h
  split at h
  · cases h
  · rename_i w hw
    split at h
    · cases h
    · rename_i hsame
      simp only [Bool.or_eq_true, Bool.not_eq_true', bne_iff_ne, ne_eq, not_or, not_not,
        Bool.not_eq_false] at hsame
      cases h
      exact ⟨w, hw, hsame.1.1, hsame.1.2, hsame.2, rfl⟩

/-- A process goes on with another operation, perhaps giving up a page it had allocated. -/
theorem shifts_op {o : Op} (d : Block → ℕ) (hfresh : ∀ b, x.op.fresh b = o.fresh b + d b)
    (hholds : ∀ b, o.holds g b = x.op.holds g b + d b) (htables : ∀ b, o.tables b = x.op.tables b)
    (hopOk : x.Ok g → Proc.OpOk g { x with op := o }) : Shifts g x { x with op := o } := by
  constructor
  · exact fun hx => ⟨hx.pgd, hx.image, hopOk hx⟩
  · intro _ b leaf wr hold fresh kern rc _ hb
    unfold Proc.tables at hb ⊢
    dsimp only
    rw [hfresh, ← add_assoc] at hb
    rw [hholds, htables, ← add_assoc]
    exact hb.give_up

/-- A leaf is replaced by one for a page the operation had allocated, if for any. The old
leaf's reference counts as held until it is released. -/
theorem replace_leaf {t : Target} {pgd : Pgd} {y : Ix × Ix × Ix} {w : Word} {o : Op} {b : Block}
    {leaf wr hold fresh kern rc : ℕ} (htable : x.table t = some pgd) (hp : pgd.Ok g)
    (hp' : (pgd.setL3 y w).Ok g) (hfresh : x.op.fresh b = o.fresh b + leafOne g b w)
    (htables : o.tables b = x.op.tables b) (hwl : wr ≤ leaf)
    (hb : Balanced (leaf + x.leaves g b) (wr + x.writable g b) hold (fresh + x.op.fresh b)
      (kern + x.tables b) rc) :
    Balanced (leaf + Proc.leaves g b { x.setTable t (pgd.setL3 y w) with op := o })
      (wr + Proc.writable g b { x.setTable t (pgd.setL3 y w) with op := o })
      (hold + leafOne g b (pgd.l3 y)) (fresh + o.fresh b)
      (kern + Proc.tables b { x.setTable t (pgd.setL3 y w) with op := o }) rc := by
  obtain ⟨hL, hW, hT⟩ := @Proc.setLeaf_counts g x t pgd o y w htable hp hp' b
  have hwle := writableOne_le g b w
  have hown := Pgd.leafOne_le_leaves hp b y
  have hle := Proc.le_leaves_of_table (g := g) htable b
  have hwr := Proc.writable_le g b { x.setTable t (pgd.setL3 y w) with op := o }
  have hkern : kern + x.tables b
      = kern + Proc.tables b { x.setTable t (pgd.setL3 y w) with op := o } := by omega
  rw [hfresh, ← add_assoc, hkern] at hb
  apply hb.replace <;> omega

theorem shifts_cowSecond {pgd : Pgd} {va oldPa page : ℕ} (hop : x.op = .cowCopied va oldPa page)
    (hpgd : x.pgd = some pgd) :
    Shifts g x (Sys.afterCowSecond x oldPa page (mmuHandleCowSecond pgd va oldPa page)) := by
  have htable : x.table .own = some pgd := hpgd
  cases hr : mmuHandleCowSecond pgd va oldPa page with
  | none =>
    apply shifts_op (one · page)
    · intro b
      rw [hop]
      exact (Nat.zero_add _).symm
    · intro b
      rw [hop]
      show one b page + (one b (p2v oldPa) + 0) = one b (p2v oldPa) + one b page
      omega
    · intro b
      rw [hop]
      rfl
    · intro hx y hy
      obtain ⟨hm, hpage⟩ := hx.opOk hop
      rcases List.mem_pair.mp hy with rfl | rfl
      · exact hpage.managed
      · exact hm
  | some pgd' =>
    obtain ⟨w, hw, hvalid, -, rfl, rfl⟩ := mmuHandleCowSecond_cases hr
    -- what the new entry is, from the page being fresh and page aligned
    have hnew : x.Ok g → pgd.Ok g ∧ pgd.l3 (vaPath va) = w ∧
        (pgd.setL3 (vaPath va) (BitVec.ofNat 64 (v2p page) |||
          (w &&& ~~~pteAddrMask &&& ~~~pteCow &&& ~~~apRo))).Ok g ∧
        ∀ b, leafOne g b (BitVec.ofNat 64 (v2p page) |||
          (w &&& ~~~pteAddrMask &&& ~~~pteCow &&& ~~~apRo)) = one b page := by
      intro hx
      have hp := hx.pgd pgd hpgd
      obtain ⟨hm, hpage⟩ := hx.opOk hop
      obtain ⟨hl3, hword⟩ := hp.userLeafPte_eq hw
      obtain ⟨pfn, hpfn, hv2p⟩ := hpage.aligned
      rw [hv2p]
      refine ⟨hp, hword, hp.setL3 hl3 fun _ => ?_, fun b => ?_⟩
      · rw [has_copyWord hpfn (by decide) (by decide) (by decide) (by decide), ← hword]
        rw [← hword] at hvalid
        exact hp.page_bit _ hvalid
      · have hptr : ptePtr (BitVec.ofNat 64 (pfn * pageSize) |||
            (w &&& ~~~pteAddrMask &&& ~~~pteCow &&& ~~~apRo)) = page := by
          rw [ptePtr, pteAddr_copyWord hpfn, ← hv2p, hpage.canonical]
        rw [leafOne_of_managed _ (by rw [hptr]; exact hpage.managed), hptr]
        rw [has_copyWord hpfn (by decide) (by decide) (by decide) (by decide)]
        exact hvalid
    constructor
    · intro hx
      obtain ⟨-, -, hp', -⟩ := hnew hx
      apply hx.setTable (t := .own) hp'
      intro y hy
      have hy' : y = .leaf (p2v (pteAddr w)) := by
        rcases List.mem_pair.mp hy with rfl | rfl <;> rfl
      rw [hy']
      exact (hx.opOk hop).1
    · intro hx b leaf wr hold fresh kern rc hwl hb
      obtain ⟨hp, hword, hp', hleaf⟩ := hnew hx
      have h := replace_leaf (o := .frees [.leaf (p2v (pteAddr w)), .leaf (p2v (pteAddr w))])
        htable hp hp' (by rw [hop, hleaf]; exact (Nat.zero_add _).symm) (by rw [hop]; rfl) hwl hb
      rw [hword, leafOne_of_managed hvalid (hx.opOk hop).1, hop, add_assoc] at h
      exact h

/-! ## Mapping and unmapping -/

theorem setTable_setTable (x : Proc) (t : Target) (pgd pgd' : Pgd) :
    (x.setTable t pgd).setTable t pgd' = x.setTable t pgd' := by
  cases t <;> rfl

theorem table_setTable (x : Proc) (t : Target) (pgd : Pgd) :
    (x.setTable t pgd).table t = some pgd := by
  cases t <;> rfl

theorem op_setTable (x : Proc) (t : Target) (pgd : Pgd) : (x.setTable t pgd).op = x.op := by
  cases t <;> rfl

/-- New tables for an address space. -/
theorem balanced_grown {t : Target} {pgd mid : Pgd} {refs refs' : Block → ℕ} {b : Block}
    {leaf wr hold fresh kern : ℕ} (htable : x.table t = some pgd) (hp : pgd.Ok g)
    (hgrown : Grown g refs refs' pgd mid)
    (hb : Balanced (leaf + x.leaves g b) (wr + x.writable g b) hold fresh (kern + x.tables b)
      (refs b)) :
    Balanced (leaf + (x.setTable t mid).leaves g b) (wr + (x.setTable t mid).writable g b)
      hold fresh (kern + (x.setTable t mid).tables b) (refs' b) := by
  have hL := @Proc.leaves_setTable g x t pgd mid x.op htable b
  have hW := @Proc.writable_setTable g x t pgd mid x.op htable b
  have hT := @Proc.tables_setTable x t pgd mid x.op htable b
  have hself : { x.setTable t mid with op := x.op } = x.setTable t mid := by cases t <;> rfl
  rw [hself] at hL hW hT
  rw [Pgd.leaves_grown hp hgrown] at hL
  rw [Pgd.writable_grown hp hgrown] at hW
  rw [Nat.add_right_cancel hL, Nat.add_right_cancel hW]
  apply hb.grow
  have hr := hgrown.refs b
  omega

/-- `mmu_user_map_page` ran out of memory for a table. -/
theorem keeps_mapFails {t : Target} {pgd pgd' : Pgd} {va paddr : ℕ} {flags : Word} {o : Op}
    (d : Block → ℕ) (htable : x.table t = some pgd)
    (hok : mmuUserMapPage pmm pgd va paddr flags = .ok (false, pgd', pmm'))
    (hfresh : ∀ b, x.op.fresh b = o.fresh b + d b)
    (hholds : ∀ b, o.holds g b = x.op.holds g b + d b) (htables : ∀ b, o.tables b = x.op.tables b)
    (hopOk : x.Ok g → Proc.OpOk g { x.setTable t pgd' with op := o }) :
    Keeps g pmm pmm' x { x.setTable t pgd' with op := o } := by
  intro refs hinv hsame hx hle
  have hp := hx.table htable
  have hold := leafOne_le_refs htable hp hle (vaPath va)
  obtain ⟨refs', mid, hgrown, hsame', hfail, -⟩ := mmuUserMapPage_spec hp hinv hsame hold hok
  obtain ⟨rfl, hinv'⟩ := hfail rfl
  refine ⟨refs', hinv', hsame', hx.setTable hgrown.ok (hopOk hx),
    fun b leaf wr hold fresh kern _ hb => ?_⟩
  rw [hfresh, ← add_assoc] at hb
  have h := (balanced_grown htable hp hgrown hb).give_up
  rw [add_assoc hold, ← hholds] at h
  have htab : Proc.tables b { x.setTable t pgd' with op := o } = (x.setTable t pgd').tables b := by
    unfold Proc.tables
    rw [op_setTable, ← htables]
  rw [htab]
  exact h

/-- `mmu_user_map_page` mapped the page the operation had allocated, or one that is nobody's. -/
theorem keeps_map {t : Target} {pgd pgd' : Pgd} {va paddr : ℕ} {flags : Word} {o : Op}
    (htable : x.table t = some pgd)
    (hok : mmuUserMapPage pmm pgd va paddr flags = .ok (true, pgd', pmm'))
    (hfresh : x.Ok g → ∀ b, x.op.fresh b = o.fresh b + leafOne g b (mapWord paddr flags))
    (hholds : ∀ b, o.holds g b = x.op.holds g b) (htables : ∀ b, o.tables b = x.op.tables b)
    (hopOk : x.Ok g → Proc.OpOk g { x.setTable t pgd' with op := o }) :
    Keeps g pmm pmm' x { x.setTable t pgd' with op := o } := by
  intro refs hinv hsame hx hle
  have hp := hx.table htable
  have hold := leafOne_le_refs htable hp hle (vaPath va)
  obtain ⟨refs', mid, hgrown, hsame', -, hdone⟩ := mmuUserMapPage_spec hp hinv hsame hold hok
  obtain ⟨hl3, rfl, hinv'⟩ := hdone rfl
  have hp' := hgrown.ok.setL3 hl3 fun _ => has_mapWord_page paddr flags
  refine ⟨_, hinv', hsame', hx.setTable hp' (hopOk hx), fun b leaf wr hold fresh kern hwl hb => ?_⟩
  have hfresh' : (x.setTable t mid).op.fresh b = o.fresh b + leafOne g b (mapWord paddr flags) := by
    rw [op_setTable]
    exact hfresh hx b
  have htables' : o.tables b = (x.setTable t mid).op.tables b := by
    rw [op_setTable]
    exact htables b
  rw [← op_setTable x t mid] at hb
  have h := replace_leaf (table_setTable x t mid) hgrown.ok hp' hfresh' htables' hwl
    (balanced_grown htable hp hgrown hb)
  rw [setTable_setTable, hgrown.l3, op_setTable, ← hholds] at h
  exact h.drop

theorem keeps_mapFresh {t : Target} {pgd pgd' : Pgd} {va page : ℕ} {flags : Word} {ok : Bool}
    (hop : x.op = .mapFresh t va page flags) (htable : x.table t = some pgd)
    (hok : mmuUserMapPage pmm pgd va (v2p page) flags = .ok (ok, pgd', pmm')) :
    Keeps g pmm pmm' x
      { x.setTable t pgd' with op := if ok then .idle else .frees [.leaf page] } := by
  cases ok with
  | true =>
    apply keeps_map htable hok
    · intro hx b
      obtain ⟨hpage, hflags⟩ := hx.opOk hop
      rw [hop, leafOne_mapWord hpage hflags]
      exact (Nat.zero_add _).symm
    · intro b
      rw [hop]
      rfl
    · intro b
      rw [hop]
      rfl
    · exact fun _ => trivial
  | false =>
    apply keeps_mapFails (one · page) htable hok
    · intro b
      rw [hop]
      exact (Nat.zero_add _).symm
    · intro b
      rw [hop]
      show one b page + 0 = 0 + one b page
      omega
    · intro b
      rw [hop]
      rfl
    · intro hx y hy
      rw [List.mem_singleton.mp hy]
      exact (hx.opOk hop).1.managed

theorem shifts_deviceStart {va paddr : ℕ} {flags : Word} (hsame : g.SameRanges pmm)
    (hop : x.op = .idle) (hdev : pmm.pmmIsManaged (ptePtr (mapWord paddr flags)) = false) :
    Shifts g x { x with op := .mapDevice va paddr flags } := by
  obtain ⟨pgd, image, op⟩ := x
  cases hop
  refine shifts_op (fun _ => 0) (fun _ => rfl) (fun _ => rfl) (fun _ => rfl) fun _ => ?_
  show g.pmmIsManaged (ptePtr (mapWord paddr flags)) = false
  rw [← pmmIsManaged_congr hsame]
  exact hdev

theorem keeps_mapDevice {pgd pgd' : Pgd} {va paddr : ℕ} {flags : Word} {ok : Bool}
    (hop : x.op = .mapDevice va paddr flags) (hpgd : x.pgd = some pgd)
    (hok : mmuUserMapPage pmm pgd va paddr flags = .ok (ok, pgd', pmm')) :
    Keeps g pmm pmm' x { x with pgd := some pgd', op := .idle } := by
  obtain ⟨own, image, op⟩ := x
  cases hop
  cases ok with
  | true =>
    refine keeps_map (t := .own) hpgd hok (fun hx b => ?_) (fun _ => rfl) (fun _ => rfl)
      fun _ => trivial
    have hdev : g.pmmIsManaged (ptePtr (mapWord paddr flags)) = false := hx.op
    rw [leafOne_of_not fun hc => by rw [hdev] at hc; cases hc.2]
    rfl
  | false =>
    exact keeps_mapFails (t := .own) (fun _ => 0) hpgd hok (fun _ => rfl) (fun _ => rfl)
      (fun _ => rfl) fun _ => trivial

theorem keeps_unmap {pgd pgd' : Pgd} {va : ℕ} (hop : x.op = .idle) (hpgd : x.pgd = some pgd)
    (hok : mmuUserUnmapPage pmm pgd va = .ok (pgd', pmm')) :
    Keeps g pmm pmm' x { x with pgd := some pgd' } := by
  obtain ⟨own, image, op⟩ := x
  cases hop
  cases hpgd
  intro refs hinv hsame hx hle
  have htable : Proc.table ⟨some pgd, image, .idle⟩ .own = some pgd := rfl
  have hp := hx.pgd pgd rfl
  have hold := leafOne_le_refs htable hp hle (vaPath va)
  obtain ⟨hsame', ⟨rfl, rfl⟩ | ⟨hl3, rfl, hinv'⟩⟩ := mmuUserUnmapPage_spec hp hinv hsame hold hok
  · exact ⟨refs, hinv, hsame', hx, fun b leaf wr hold fresh kern _ hb => hb⟩
  · have hp' : (pgd.setL3 (vaPath va) 0#64).Ok g := hp.setL3 hl3 fun hc => by cases hc
    refine ⟨_, hinv', hsame', hx.setTable (t := .own) hp' trivial,
      fun b leaf wr hold fresh kern hwl hb => ?_⟩
    have hfresh : Op.idle.fresh b = Op.idle.fresh b + leafOne g b 0#64 := by
      rw [leafOne_zero, add_zero]
    exact (replace_leaf htable hp hp' hfresh rfl hwl hb).drop

/-! ## Mapping a page of the image again -/

theorem pmmHoldPage_of_not_managed {ptr : ℕ} (h : pmm.pmmIsManaged ptr = false) :
    pmm.pmmHoldPage ptr = .ok pmm := by
  unfold Pmm.pmmIsManaged at h
  unfold Pmm.pmmHoldPage
  split
  · rfl
  · rename_i h0
    rw [if_neg h0] at h
    dsimp only at h ⊢
    rw [if_pos]
    rw [Bool.and_eq_false_iff, decide_eq_false_iff_not, not_lt, Bool.not_eq_false'] at h
    rw [Bool.or_eq_true, decide_eq_true_eq]
    exact h

/-- Holding the page of an entry, whether the allocator manages it or not. -/
theorem pmmHoldPage_ptePtr (pmm : Pmm) (w : Word) :
    pmm.pmmHoldPage (ptePtr w) = holdEntry pmm w := by
  unfold holdEntry
  split
  · rfl
  · rename_i h
    exact pmmHoldPage_of_not_managed (Bool.eq_false_iff.mpr h)

/-- A query of a page boundary finds a leaf, with its address and its flags. -/
theorem mmuUserQuery_eq {pgd : Pgd} {va paddr : ℕ} {flags : Word} (hp : pgd.Ok g)
    (hva : va % pageSize = 0) (h : mmuUserQuery pgd va = some (paddr, flags)) :
    has (pgd.l3 (vaPath va)) pteValid = true ∧ pteAddr (pgd.l3 (vaPath va)) = paddr ∧
      flags = pgd.l3 (vaPath va) &&& ~~~pteAddrMask := by
  unfold mmuUserQuery at h
  dsimp only at h
  split at h
  · split at h
    · rename_i hvalid
      rw [hva] at h
      cases h
      exact ⟨hvalid, rfl, rfl⟩
    · cases h
  · rename_i hblock
    exact absurd hblock (hp.no_block _ _)
  · cases h

theorem holds_remap {va : ℕ} {w flags : Word} (hvalid : has w pteValid = true) (b : Block) :
    Op.holds g b (.remap va (pteAddr w) flags) = leafOne g b w := by
  rw [leafOne]
  exact ind_congr (and_iff_right hvalid).symm

theorem keeps_remapHold {pgd : Pgd} {va paddr : ℕ} {flags more : Word} (hop : x.op = .idle)
    (himage : x.image = some pgd) (hva : va % pageSize = 0)
    (hquery : mmuUserQuery pgd va = some (paddr, flags)) (hmore : more &&& pteAddrMask = 0#64)
    (hok : pmm.pmmHoldPage (p2v paddr) = .ok pmm') :
    Keeps g pmm pmm' x { x with op := .remap va paddr (flags ||| more) } := by
  obtain ⟨own, image, op⟩ := x
  cases hop
  cases himage
  intro refs hinv hsame hx hle
  have htable : Proc.table ⟨own, some pgd, .idle⟩ .image = some pgd := rfl
  have hp := hx.image pgd rfl
  obtain ⟨hvalid, rfl, rfl⟩ := mmuUserQuery_eq hp hva hquery
  have hold := leafOne_le_refs htable hp hle (vaPath va)
  obtain ⟨hinv', hsame'⟩ := holdEntry_spec hinv hsame hvalid hold
    ((pmmHoldPage_ptePtr pmm _).symm.trans hok)
  refine ⟨_, hinv', hsame', ⟨hx.pgd, hx.image, ?_, pgd, rfl, hvalid, rfl, fun hro => ?_⟩,
    fun b leaf wr hold fresh kern _ hb => ?_⟩
  · rw [or_and_of_disjoint hmore, BitVec.and_assoc, show ~~~pteAddrMask &&& pteAddrMask = 0#64 by decide]
    exact BitVec.and_zero
  · rw [has_or, has, and_and_of_subset (by decide), ← has, hro]
    rfl
  · have h1 := Pgd.leafOne_le_leaves hp b (vaPath va)
    have h2 := Proc.le_leaves_of_table (g := g) htable b
    rw [holds_remap hvalid]
    have h := hb.hold_mapped (d := leafOne g b (pgd.l3 (vaPath va))) (by omega) (leafOne_le g b _)
    exact h

/-- With its tables in place, a mapping cannot fail. -/
theorem mmuUserMapPage_of_hasL3 {pgd pgd' : Pgd} {va paddr : ℕ} {flags : Word} {ok : Bool}
    (hp : pgd.Ok g) (hl3 : pgd.HasL3 ((vaPath va).1, (vaPath va).2.1))
    (hok : mmuUserMapPage pmm pgd va paddr flags = .ok (ok, pgd', pmm')) : ok = true := by
  obtain ⟨l2, hl2⟩ := hp.l1_of_hasL3 hl3
  obtain ⟨l3, hl3⟩ := hl3
  have h₁ : ensureL2Table pmm pgd (vaPath va).1 = .ok (some pgd, pmm) := by
    rw [ensureL2Table, hl2]
  have h₂ : ensureL3Table pmm pgd ((vaPath va).1, (vaPath va).2.1) = .ok (some pgd, pmm) := by
    rw [ensureL3Table, hl3]
  unfold mmuUserMapPage at hok
  dsimp only at hok
  obtain ⟨r₁, h, hok⟩ := bind_eq_ok.mp hok
  rw [h₁] at h
  cases h
  obtain ⟨r₂, h, hok⟩ := bind_eq_ok.mp hok
  rw [h₂] at h
  cases h
  obtain ⟨pmm₃, -, hok⟩ := bind_eq_ok.mp hok
  cases hok
  rfl

theorem keeps_remap {pgd pgd' : Pgd} {va paddr : ℕ} {flags : Word} {ok : Bool}
    (hop : x.op = .remap va paddr flags) (himage : x.image = some pgd)
    (hok : mmuUserMapPage pmm pgd va paddr flags = .ok (ok, pgd', pmm')) :
    Keeps g pmm pmm' x { x with
      image := some pgd', op := if ok then .idle else .frees [.leaf (p2v paddr)] } := by
  have htable : x.table .image = some pgd := himage
  intro refs hinv hsame hx hle
  obtain ⟨hflags, pgd₀, himage₀, hvalid, rfl, hro⟩ := hx.opOk hop
  cases himage.symm.trans himage₀
  have hp := hx.image pgd himage
  cases mmuUserMapPage_of_hasL3 hp (hp.hasL3_of_valid hvalid) hok
  have hold := leafOne_le_refs htable hp hle (vaPath va)
  obtain ⟨refs', mid, hgrown, hsame', -, hdone⟩ := mmuUserMapPage_spec hp hinv hsame hold hok
  obtain ⟨hl3, rfl, hinv'⟩ := hdone rfl
  have hp' := hgrown.ok.setL3 hl3 fun _ => has_mapWord_page (pteAddr (pgd.l3 (vaPath va))) flags
  refine ⟨_, hinv', hsame', hx.setTable (t := .image) hp' trivial,
    fun b leaf wr hold fresh kern hwl hb => ?_⟩
  -- the new entry maps the same page, and is not writable unless the old one was
  have hleaf : leafOne g b (mapWord (pteAddr (pgd.l3 (vaPath va))) flags)
      = leafOne g b (pgd.l3 (vaPath va)) := by
    obtain ⟨pfn, hpfn, haddr⟩ := pteAddr_eq_page (pgd.l3 (vaPath va))
    apply leafOne_congr
    · rw [has_mapWord_valid, hvalid]
    · rw [ptePtr, haddr, pteAddr_mapWord hpfn hflags, ← haddr, ptePtr]
  have hwr : writableOne g b (mapWord (pteAddr (pgd.l3 (vaPath va))) flags)
      ≤ writableOne g b (pgd.l3 (vaPath va)) := by
    cases hcase : has (pgd.l3 (vaPath va)) apRo with
    | true =>
      rw [writableOne_of_ro g b (has_mapWord_ro (hro hcase))]
      exact Nat.zero_le _
    | false =>
      rw [writableOne_of_rw g b hcase, ← hleaf]
      exact writableOne_le g b _
  obtain ⟨hL, hW, hT⟩ := @Proc.setLeaf_counts g (x.setTable .image mid) .image mid .idle _ _
    (table_setTable _ _ _) hgrown.ok hp' b
  rw [setTable_setTable, hgrown.l3] at hL hW
  rw [setTable_setTable, op_setTable, hop] at hT
  rw [hleaf] at hL
  have hgrow := balanced_grown htable hp hgrown hb
  rw [hop, holds_remap hvalid, ← Nat.add_right_cancel hL, ← Nat.add_right_cancel hT] at hgrow
  have hfew : wr + Proc.writable g b { x.setTable .image (mid.setL3 (vaPath va)
      (mapWord (pteAddr (pgd.l3 (vaPath va))) flags)) with op := .idle }
      ≤ wr + (x.setTable .image mid).writable g b := by omega
  exact hgrow.drop.fewer_writable hfew

/-! ## Releasing pages -/

theorem keeps_free {y : Pending} {rest : List Pending} (hop : x.op = .frees (y :: rest))
    (hok : pmm.pmmFreePages y.ptr = .ok pmm') :
    Keeps g pmm pmm' x { x with op := .frees rest } := by
  obtain ⟨pgd, image, op⟩ := x
  cases hop
  intro refs hinv hsame hx hle
  have hall : ∀ z ∈ y :: rest, g.pmmIsManaged z.ptr = true := hx.op
  have hm : pmm.pmmIsManaged y.ptr = true := by
    rw [pmmIsManaged_congr hsame]
    exact hall y List.mem_cons_self
  have hone : ∀ b, y.leafOne b + y.tableOne b = one b y.ptr := by
    intro b
    cases y with
    | leaf ptr => exact Nat.add_zero _
    | table ptr => exact Nat.zero_add _
  have hcons : ∀ b, Op.holds g b (.frees (y :: rest)) = y.leafOne b + Op.holds g b (.frees rest) ∧
      Op.tables b (.frees (y :: rest)) = y.tableOne b + Op.tables b (.frees rest) :=
    fun b => ⟨List.sum_cons, List.sum_cons⟩
  have hpos : 0 < refs (blockOf y.ptr) := by
    have h1 := hle (blockOf y.ptr)
    have h2 := hone (blockOf y.ptr)
    rw [one_blockOf] at h2
    unfold Proc.tables at h1
    dsimp only at h1
    rw [(hcons _).1, (hcons _).2] at h1
    omega
  obtain ⟨hinv', hsame'⟩ := pmmFreePages_spec hinv hm hpos hok
  refine ⟨_, hinv', hsame', ⟨hx.pgd, hx.image, fun z hz => hall z (List.mem_cons_of_mem y hz)⟩,
    fun b leaf wr hold fresh kern _ hb => ?_⟩
  unfold Proc.tables at hb ⊢
  dsimp only at hb ⊢
  rw [(hcons b).1, (hcons b).2, add_left_comm _ (y.tableOne b), add_comm (y.leafOne b),
    add_comm (y.tableOne b), ← add_assoc, ← add_assoc kern] at hb
  rw [← hone b]
  exact hb.release

theorem shifts_freesDone (hop : x.op = .frees []) : Shifts g x { x with op := .idle } := by
  obtain ⟨pgd, image, op⟩ := x
  cases hop
  exact shifts_op (fun _ => 0) (fun _ => rfl) (fun _ => rfl) (fun _ => rfl) fun _ => trivial

end Perspicua.Mm
