import Perspicua.Mm.AddressSpace
import Perspicua.Mm.MmuFork

/-!
# The reference balance of the address spaces

For every block five numbers are kept apart: the leaf entries that map it, those of them
that are writable, the references operations in flight hold on mapped pages, the pages
allocated but not mapped yet, and the references of tables and of the rest of the kernel.
`Balanced` relates them to the allocator's count. A step of one process changes only that
process's contribution, so it is enough to argue about the five numbers with everybody
else's share left arbitrary (`Keeps`, `Inv.frame`).
-/

namespace Perspicua.Mm

open Perspicua.Lib

/-! ## What a process contributes -/

/-- One leaf entry without the read-only bit. -/
noncomputable def writableOne (g : Pmm) (b : Block) (w : Word) : ℕ :=
  ind (has w apRo = false ∧ has w pteValid = true ∧ g.pmmIsManaged (ptePtr w) = true ∧
    blockOf (ptePtr w) = b)

theorem writableOne_le (g : Pmm) (b : Block) (w : Word) : writableOne g b w ≤ leafOne g b w := by
  by_cases h : has w apRo = false ∧ has w pteValid = true ∧ g.pmmIsManaged (ptePtr w) = true ∧
    blockOf (ptePtr w) = b
  · rw [leafOne, ind_pos h.2]
    exact ind_le _
  · rw [writableOne, ind_neg h]
    exact Nat.zero_le _

theorem writableOne_zero (g : Pmm) (b : Block) : writableOne g b 0#64 = 0 := by
  have hle := writableOne_le g b 0#64
  rw [leafOne_zero] at hle
  exact Nat.eq_zero_of_le_zero hle

theorem writableOne_of_ro (g : Pmm) (b : Block) {w : Word} (h : has w apRo = true) :
    writableOne g b w = 0 := ind_neg fun hc => by rw [hc.1] at h; cases h

theorem writableOne_of_rw (g : Pmm) (b : Block) {w : Word} (h : has w apRo = false) :
    writableOne g b w = leafOne g b w := by
  rw [writableOne, leafOne]
  exact ind_congr (and_iff_right h)

namespace Pgd

noncomputable def leaves (g : Pmm) (b : Block) (pgd : Pgd) : ℕ := pgd.count (leafOne g b)

noncomputable def writable (g : Pmm) (b : Block) (pgd : Pgd) : ℕ := pgd.count (writableOne g b)

variable {g : Pmm} {pgd pgd' : Pgd}

theorem writable_le (g : Pmm) (b : Block) (pgd : Pgd) : pgd.writable g b ≤ pgd.leaves g b :=
  Nat.add_le_add (finsum_mono fun _ => writableOne_le g b _)
    (finsum_mono fun _ => writableOne_le g b _)

theorem leafOne_le_leaves (h : pgd.Ok g) (b : Block) (x : Ix × Ix × Ix) :
    leafOne g b (pgd.l3 x) ≤ pgd.leaves g b := by
  rw [leaves, h.count_eq (leafOne_zero g b)]
  exact le_finsum (fun x => leafOne g b (pgd.l3 x)) x

theorem writableOne_le_writable (h : pgd.Ok g) (b : Block) (x : Ix × Ix × Ix) :
    writableOne g b (pgd.l3 x) ≤ pgd.writable g b := by
  rw [writable, h.count_eq (writableOne_zero g b)]
  exact le_finsum (fun x => writableOne g b (pgd.l3 x)) x

theorem leafOne_add_le_leaves (h : pgd.Ok g) (b : Block) {x y : Ix × Ix × Ix} (hxy : x ≠ y) :
    leafOne g b (pgd.l3 x) + leafOne g b (pgd.l3 y) ≤ pgd.leaves g b := by
  rw [leaves, h.count_eq (leafOne_zero g b)]
  exact add_le_finsum (fun x => leafOne g b (pgd.l3 x)) hxy

theorem leaves_setL3 (h : pgd.Ok g) {x : Ix × Ix × Ix} {w : Word} (h' : (pgd.setL3 x w).Ok g)
    (b : Block) :
    (pgd.setL3 x w).leaves g b + leafOne g b (pgd.l3 x) = pgd.leaves g b + leafOne g b w :=
  h.count_setL3 h' (leafOne_zero g b)

theorem writable_setL3 (h : pgd.Ok g) {x : Ix × Ix × Ix} {w : Word} (h' : (pgd.setL3 x w).Ok g)
    (b : Block) : (pgd.setL3 x w).writable g b + writableOne g b (pgd.l3 x)
      = pgd.writable g b + writableOne g b w :=
  h.count_setL3 h' (writableOne_zero g b)

/-- The writable leaves other than `x`, and `x` itself. -/
theorem writable_add_leafOne_le (h : pgd.Ok g) (b : Block) (x : Ix × Ix × Ix) :
    pgd.writable g b + leafOne g b (pgd.l3 x)
      ≤ pgd.leaves g b + writableOne g b (pgd.l3 x) := by
  by_cases hv : has (pgd.l3 x) pteValid = true
  · -- compare with the table in which `x` is cleared
    have h0 : (pgd.setL3 x 0#64).Ok g := h.setL3 (h.hasL3_of_valid hv) fun hc => by cases hc
    have hl := leaves_setL3 h h0 b
    have hw := writable_setL3 h h0 b
    have hle := writable_le g b (pgd.setL3 x 0#64)
    rw [leafOne_zero, Nat.add_zero] at hl
    rw [writableOne_zero, Nat.add_zero] at hw
    omega
  · rw [leafOne_of_not fun hc => hv hc.1]
    exact Nat.le_add_right_of_le (writable_le g b pgd)

theorem leaves_grown {refs refs' : Block → ℕ} (h : pgd.Ok g) (hg : Grown g refs refs' pgd pgd')
    (b : Block) : pgd'.leaves g b = pgd.leaves g b := hg.count_eq h (leafOne_zero g b)

theorem writable_grown {refs refs' : Block → ℕ} (h : pgd.Ok g) (hg : Grown g refs refs' pgd pgd')
    (b : Block) : pgd'.writable g b = pgd.writable g b := hg.count_eq h (writableOne_zero g b)

theorem leaves_empty {page : ℕ} (hp : IsPage g page) (b : Block) :
    (empty page).leaves g b = 0 := Ok.count_empty hp (leafOne_zero g b)

theorem writable_empty {page : ℕ} (hp : IsPage g page) (b : Block) :
    (empty page).writable g b = 0 := Ok.count_empty hp (writableOne_zero g b)

end Pgd

attribute [irreducible] writableOne Pgd.leaves Pgd.writable

namespace Op

/-- References an operation holds on pages that are, or were, mapped. -/
noncomputable def holds (g : Pmm) (b : Block) : Op → ℕ
  | .cowHeld _ oldPa => one b (p2v oldPa)
  | .cowCopied _ oldPa _ => one b (p2v oldPa)
  | .remap _ paddr _ => ind (g.pmmIsManaged (p2v paddr) = true ∧ blockOf (p2v paddr) = b)
  | .frees pending => (pending.map (Pending.leafOne b)).sum
  | _ => 0

/-- Pages an operation has allocated and not mapped. -/
noncomputable def fresh (b : Block) : Op → ℕ
  | .cowCopied _ _ newPage => one b newPage
  | .mapFresh _ _ page _ => one b page
  | _ => 0

/-- Tables an operation still has to release. -/
noncomputable def tables (b : Block) : Op → ℕ
  | .frees pending => (pending.map (Pending.tableOne b)).sum
  | _ => 0

/-- An operation that has no pages of its own. -/
structure Bare (o : Op) : Prop where
  holds : ∀ g b, o.holds g b = 0
  fresh : ∀ b, o.fresh b = 0
  tables : ∀ b, o.tables b = 0

theorem bare_idle : Bare .idle := ⟨fun _ _ => rfl, fun _ => rfl, fun _ => rfl⟩

theorem bare_fork (pos : ForkPos) : Bare (.fork pos) :=
  ⟨fun _ _ => rfl, fun _ => rfl, fun _ => rfl⟩

end Op

namespace Proc

noncomputable def leaves (g : Pmm) (b : Block) (x : Proc) : ℕ :=
  x.pgd.elim 0 (Pgd.leaves g b) + x.image.elim 0 (Pgd.leaves g b)

noncomputable def writable (g : Pmm) (b : Block) (x : Proc) : ℕ :=
  x.pgd.elim 0 (Pgd.writable g b) + x.image.elim 0 (Pgd.writable g b)

noncomputable def tables (b : Block) (x : Proc) : ℕ :=
  x.pgd.elim 0 (Pgd.tables b) + x.image.elim 0 (Pgd.tables b) + x.op.tables b

theorem writable_le (g : Pmm) (b : Block) (x : Proc) : x.writable g b ≤ x.leaves g b := by
  have hopt : ∀ o : Option Pgd, o.elim 0 (Pgd.writable g b) ≤ o.elim 0 (Pgd.leaves g b) := by
    intro o
    cases o with
    | none => exact le_rfl
    | some pgd => exact pgd.writable_le g b
  exact Nat.add_le_add (hopt _) (hopt _)

/-- What the operation in flight relies on. -/
def OpOk (g : Pmm) (x : Proc) : Prop :=
  match x.op with
  | .idle => True
  | .fork pos => ∃ child, x.image = some child ∧ ForkOk child pos
  | .cowHeld _ oldPa => g.pmmIsManaged (p2v oldPa) = true
  | .cowCopied _ oldPa newPage => g.pmmIsManaged (p2v oldPa) = true ∧ IsPage g newPage
  | .mapFresh _ _ page flags => IsPage g page ∧ flags &&& pteAddrMask = 0#64
  | .remap va paddr flags => flags &&& pteAddrMask = 0#64 ∧ ∃ pgd, x.image = some pgd ∧
      has (pgd.l3 (vaPath va)) pteValid = true ∧ pteAddr (pgd.l3 (vaPath va)) = paddr ∧
      (has (pgd.l3 (vaPath va)) apRo = true → has flags apRo = true)
  | .mapDevice _ paddr flags => g.pmmIsManaged (ptePtr (mapWord paddr flags)) = false
  | .frees pending => ∀ y ∈ pending, g.pmmIsManaged y.ptr = true

structure Ok (g : Pmm) (x : Proc) : Prop where
  pgd : ∀ d, x.pgd = some d → d.Ok g
  image : ∀ d, x.image = some d → d.Ok g
  op : x.OpOk g

theorem Ok.opOk {g : Pmm} {x : Proc} {o : Op} (hx : x.Ok g) (hop : x.op = o) :
    OpOk g { x with op := o } := by
  subst hop
  exact hx.op

section SetTable

variable {g : Pmm} {x : Proc} {t : Target} {pgd pgd' : Pgd} {o : Op}

theorem elim_setTable (f : Pgd → ℕ) (h : x.table t = some pgd) :
    (x.setTable t pgd').pgd.elim 0 f + (x.setTable t pgd').image.elim 0 f + f pgd
      = x.pgd.elim 0 f + x.image.elim 0 f + f pgd' := by
  cases t with
  | own =>
    have hx : x.pgd = some pgd := h
    simp only [setTable, hx, Option.elim_some]
    omega
  | image =>
    have hx : x.image = some pgd := h
    simp only [setTable, hx, Option.elim_some]
    omega

theorem leaves_setTable (h : x.table t = some pgd) (b : Block) :
    leaves g b { x.setTable t pgd' with op := o } + pgd.leaves g b
      = x.leaves g b + pgd'.leaves g b := elim_setTable _ h

theorem writable_setTable (h : x.table t = some pgd) (b : Block) :
    writable g b { x.setTable t pgd' with op := o } + pgd.writable g b
      = x.writable g b + pgd'.writable g b := elim_setTable _ h

theorem tables_setTable (h : x.table t = some pgd) (b : Block) :
    tables b { x.setTable t pgd' with op := o } + pgd.tables b + x.op.tables b
      = x.tables b + pgd'.tables b + o.tables b := by
  have he := @elim_setTable x t pgd pgd' (Pgd.tables b) h
  unfold tables
  dsimp only
  omega

theorem le_elim_of_table (f : Pgd → ℕ) (h : x.table t = some pgd) :
    f pgd ≤ x.pgd.elim 0 f + x.image.elim 0 f := by
  cases t with
  | own =>
    have hx : x.pgd = some pgd := h
    rw [hx]
    exact Nat.le_add_right _ _
  | image =>
    have hx : x.image = some pgd := h
    rw [hx]
    exact Nat.le_add_left _ _

theorem le_leaves_of_table (h : x.table t = some pgd) (b : Block) :
    pgd.leaves g b ≤ x.leaves g b := le_elim_of_table _ h

theorem le_writable_of_table (h : x.table t = some pgd) (b : Block) :
    pgd.writable g b ≤ x.writable g b := le_elim_of_table _ h

/-- The two tables of a process have separate leaves. -/
theorem add_le_leaves_of_table {u : Target} (h : x.table t = some pgd) (h' : x.table u = some pgd')
    (hne : u ≠ t) (b : Block) : pgd.leaves g b + pgd'.leaves g b ≤ x.leaves g b := by
  obtain ⟨own, image, op⟩ := x
  unfold leaves
  cases t <;> cases u <;> simp only [ne_eq, reduceCtorEq, not_true_eq_false] at hne <;>
    cases h <;> cases h'
  · exact le_rfl
  · exact (Nat.add_comm _ _).le

theorem Ok.table (hx : x.Ok g) (h : x.table t = some pgd) : pgd.Ok g := by
  cases t with
  | own => exact hx.pgd pgd h
  | image => exact hx.image pgd h

theorem Ok.setTable (hx : x.Ok g) (h : pgd'.Ok g)
    (ho : OpOk g { x.setTable t pgd' with op := o }) :
    Ok g { x.setTable t pgd' with op := o } := by
  cases t with
  | own => exact ⟨fun d hd => Option.some.inj hd ▸ h, hx.image, ho⟩
  | image => exact ⟨hx.pgd, fun d hd => Option.some.inj hd ▸ h, ho⟩

/-- One leaf of a table of the process is replaced. -/
theorem setLeaf_counts {y : Ix × Ix × Ix} {w : Word} (h : x.table t = some pgd) (hp : pgd.Ok g)
    (hp' : (pgd.setL3 y w).Ok g) (b : Block) :
    leaves g b { x.setTable t (pgd.setL3 y w) with op := o } + leafOne g b (pgd.l3 y)
        = x.leaves g b + leafOne g b w ∧
      writable g b { x.setTable t (pgd.setL3 y w) with op := o } + writableOne g b (pgd.l3 y)
        = x.writable g b + writableOne g b w ∧
      tables b { x.setTable t (pgd.setL3 y w) with op := o } + x.op.tables b
        = x.tables b + o.tables b := by
  have hL := @leaves_setTable g x t pgd (pgd.setL3 y w) o h b
  have hW := @writable_setTable g x t pgd (pgd.setL3 y w) o h b
  have hT := @tables_setTable x t pgd (pgd.setL3 y w) o h b
  have hL3 := Pgd.leaves_setL3 hp hp' b
  have hW3 := Pgd.writable_setL3 hp hp' b
  rw [Pgd.tables_setL3] at hT
  refine ⟨?_, ?_, ?_⟩ <;> omega

end SetTable

end Proc

/-! ## The balance of one block -/

/-- `leaf` leaves, `wr` of them writable, `hold` and `fresh` pages of operations in flight,
`kern` references of tables and the kernel, against the allocator's count `rc`. -/
structure Balanced (leaf wr hold fresh kern rc : ℕ) : Prop where
  count : 0 < leaf + hold + fresh + kern → rc = leaf + hold + fresh + kern
  unmapped : 0 < fresh → fresh = 1 ∧ leaf = 0 ∧ hold = 0 ∧ kern = 0
  user : 0 < leaf + hold → kern = 0
  exclusive : 0 < wr → leaf = 1

theorem balanced_iff {leaf wr hold fresh kern rc : ℕ} :
    Balanced leaf wr hold fresh kern rc ↔
      (0 < leaf + hold + fresh + kern → rc = leaf + hold + fresh + kern) ∧
      (0 < fresh → fresh = 1 ∧ leaf = 0 ∧ hold = 0 ∧ kern = 0) ∧
      (0 < leaf + hold → kern = 0) ∧ (0 < wr → leaf = 1) :=
  ⟨fun h => ⟨h.1, h.2, h.3, h.4⟩, fun h => ⟨h.1, h.2.1, h.2.2.1, h.2.2.2⟩⟩

namespace Balanced

variable {leaf wr hold fresh kern rc leaf' wr' kern' rc' d d' : ℕ}

/-- A table or a lost page, as `Grown` describes it. -/
theorem grow (h : Balanced leaf wr hold fresh kern rc)
    (hr : (rc' = rc ∧ kern' = kern) ∨ (rc = 0 ∧ rc' = 1 ∧ kern' = kern + 1) ∨
      (rc = 0 ∧ kern' = kern)) : Balanced leaf wr hold fresh kern' rc' := by
  rw [balanced_iff] at *
  omega

/-- A page fresh from the allocator. -/
theorem alloc (h : Balanced leaf wr hold fresh kern rc) (hd : d ≤ 1) (h0 : d = 1 → rc = 0) :
    Balanced leaf wr hold (fresh + d) kern (rc + d) := by
  rw [balanced_iff] at *
  omega

/-- A reference on a page that is mapped. -/
theorem hold_mapped (h : Balanced leaf wr hold fresh kern rc) (hd : d ≤ leaf) (hd1 : d ≤ 1) :
    Balanced leaf wr (hold + d) fresh kern (rc + d) := by
  rw [balanced_iff] at *
  omega

/-- Giving a reference back. -/
theorem drop (h : Balanced leaf wr (hold + d) fresh kern rc) :
    Balanced leaf wr hold fresh kern (rc - d) := by
  rw [balanced_iff] at *
  omega

/-- Giving back the reference of a leaf or of a table. -/
theorem release (h : Balanced leaf wr (hold + d) fresh (kern + d') rc) :
    Balanced leaf wr hold fresh kern (rc - (d + d')) := by
  rw [balanced_iff] at *
  omega

/-- A fork maps a page of the parent a second time and write-protects both entries. -/
theorem copy_leaf (h : Balanced leaf wr hold fresh kern rc) (hw : wr' ≤ wr)
    (hd : wr' + d ≤ leaf) : Balanced (leaf + d) wr' hold fresh kern (rc + d) := by
  rw [balanced_iff] at *
  omega

/-- Leaves disappear and their references are released later. -/
theorem unmap (h : Balanced (leaf + d) wr hold fresh kern rc) (hw : wr' ≤ wr)
    (hle : wr' ≤ leaf) : Balanced leaf wr' (hold + d) fresh kern rc := by
  rw [balanced_iff] at *
  omega

/-- A leaf becomes writable: its page, if it is this one, has a single reference. -/
theorem promote (h : Balanced leaf wr hold fresh kern rc) (hw : wr' ≤ wr + d)
    (hd : d ≤ leaf) (hrc : 0 < d → rc ≤ 1) : Balanced leaf wr' hold fresh kern rc := by
  rw [balanced_iff] at *
  omega

/-- A page is given up before it was mapped. -/
theorem give_up (h : Balanced leaf wr hold (fresh + d) kern rc) :
    Balanced leaf wr (hold + d) fresh kern rc := by
  rw [balanced_iff] at *
  omega

/-- A fresh page takes the place of a leaf, whose reference is released later. -/
theorem replace (h : Balanced leaf wr hold (fresh + d') kern rc) (hl : leaf' + d = leaf + d')
    (hd : d ≤ leaf) (hw : wr' ≤ wr + d') (hle : wr' ≤ leaf') :
    Balanced leaf' wr' (hold + d) fresh kern rc := by
  rw [balanced_iff] at *
  omega

theorem fewer_writable (h : Balanced leaf wr hold fresh kern rc) (hw : wr' ≤ wr) :
    Balanced leaf wr' hold fresh kern rc := by
  rw [balanced_iff] at *
  omega

end Balanced

theorem Balanced.le {leaf wr hold fresh kern rc : ℕ} (h : Balanced leaf wr hold fresh kern rc) :
    leaf + hold + fresh + kern ≤ rc := by
  rcases Nat.eq_zero_or_pos (leaf + hold + fresh + kern) with h0 | h0
  · omega
  · exact (h.count h0).ge

/-- What one step has to do to its own process: starting from `x` it ends at `x'` with the
balance of every block restored, whatever the shares of all the others are. -/
def Keeps (g pmm pmm' : Pmm) (x x' : Proc) : Prop :=
  ∀ refs, pmm.PmmInv refs → g.SameRanges pmm → x.Ok g →
    (∀ b, x.leaves g b + x.op.holds g b + x.op.fresh b + x.tables b ≤ refs b) →
    ∃ refs', pmm'.PmmInv refs' ∧ pmm.SameRanges pmm' ∧ x'.Ok g ∧
      ∀ b leaf wr hold fresh kern, wr ≤ leaf →
        Balanced (leaf + x.leaves g b) (wr + x.writable g b) (hold + x.op.holds g b)
          (fresh + x.op.fresh b) (kern + x.tables b) (refs b) →
        Balanced (leaf + x'.leaves g b) (wr + x'.writable g b) (hold + x'.op.holds g b)
          (fresh + x'.op.fresh b) (kern + x'.tables b) (refs' b)

namespace Sys

variable {n : ℕ}

noncomputable def leaves (g : Pmm) (s : Sys n) (b : Block) : ℕ := ∑ᶠ p, (s.procs p).leaves g b

noncomputable def writable (g : Pmm) (s : Sys n) (b : Block) : ℕ := ∑ᶠ p, (s.procs p).writable g b

noncomputable def holds (g : Pmm) (s : Sys n) (b : Block) : ℕ := ∑ᶠ p, (s.procs p).op.holds g b

noncomputable def fresh (s : Sys n) (b : Block) : ℕ := ∑ᶠ p, (s.procs p).op.fresh b

noncomputable def tables (s : Sys n) (b : Block) : ℕ := ∑ᶠ p, (s.procs p).tables b

/-- The invariant. `g` is any state of the allocator with the same memory; only its ranges
matter, and they never change. -/
structure Inv (g : Pmm) (s : Sys n) : Prop where
  ranges : g.SameRanges s.pmm
  balance : ∃ refs, s.pmm.PmmInv refs ∧ ∀ b, Balanced (s.leaves g b) (s.writable g b)
    (s.holds g b) (s.fresh b) (s.tables b + s.kernelRefs b) (refs b)
  procs : ∀ p, (s.procs p).Ok g

/-- A total splits into the share of one process and the rest, and the rest survives a
change of that process. -/
theorem split_off (f : Proc → ℕ) (s : Sys n) (p : Fin n) :
    ∃ rest, ∑ᶠ q, f (s.procs q) = rest + f (s.procs p) ∧
      ∀ x, ∑ᶠ q, f (Function.update s.procs p x q) = rest + f x := by
  have hle := le_finsum (fun q => f (s.procs q)) p
  refine ⟨∑ᶠ q, f (s.procs q) - f (s.procs p), by omega, fun x => ?_⟩
  have hx := finsum_update f s.procs p x
  omega

/-- The frame rule: a step of process `p` may argue about its own contribution only. -/
theorem Inv.frame {g : Pmm} {s : Sys n} (h : Inv g s) (p : Fin n) {pmm : Pmm}
    {mem : ℕ → UInt8} {x : Proc} (hstep : Keeps g s.pmm pmm (s.procs p) x) :
    Inv g ({ s with pmm := pmm, mem := mem }.setProc p x) := by
  obtain ⟨refs, hinv, hbal⟩ := h.balance
  -- everybody else's share of each number
  have hrest : ∀ b, ∃ leaf wr hold fresh kern, wr ≤ leaf ∧
      Balanced (leaf + (s.procs p).leaves g b) (wr + (s.procs p).writable g b)
        (hold + (s.procs p).op.holds g b) (fresh + (s.procs p).op.fresh b)
        (kern + (s.procs p).tables b) (refs b) ∧
      ∀ rc, Balanced (leaf + x.leaves g b) (wr + x.writable g b) (hold + x.op.holds g b)
          (fresh + x.op.fresh b) (kern + x.tables b) rc →
        Balanced (leaves g ({ s with pmm := pmm, mem := mem }.setProc p x) b)
          (writable g ({ s with pmm := pmm, mem := mem }.setProc p x) b)
          (holds g ({ s with pmm := pmm, mem := mem }.setProc p x) b)
          (Sys.fresh ({ s with pmm := pmm, mem := mem }.setProc p x) b)
          (Sys.tables ({ s with pmm := pmm, mem := mem }.setProc p x) b + s.kernelRefs b) rc := by
    intro b
    obtain ⟨leaf, hl, hl'⟩ := split_off (fun y => y.leaves g b) s p
    obtain ⟨wr, hw, hw'⟩ := split_off (fun y => y.writable g b) s p
    obtain ⟨hold, hh, hh'⟩ := split_off (fun y => y.op.holds g b) s p
    obtain ⟨fresh, hf, hf'⟩ := split_off (fun y => y.op.fresh b) s p
    obtain ⟨tab, ht, ht'⟩ := split_off (fun y => y.tables b) s p
    refine ⟨leaf, wr, hold, fresh, tab + s.kernelRefs b, ?_, ?_, fun rc hrc => ?_⟩
    · -- the others' writable leaves are leaves: compare with process `p` emptied
      have hle := finsum_mono fun q =>
        Proc.writable_le g b (Function.update s.procs p Proc.blank q)
      rw [hl', hw'] at hle
      exact hle
    · have hb := hbal b
      unfold Sys.leaves Sys.writable Sys.holds Sys.fresh Sys.tables at hb
      rw [hl, hw, hh, hf, ht, add_right_comm] at hb
      exact hb
    · show Balanced (∑ᶠ q, (Function.update s.procs p x q).leaves g b)
        (∑ᶠ q, (Function.update s.procs p x q).writable g b)
        (∑ᶠ q, (Function.update s.procs p x q).op.holds g b)
        (∑ᶠ q, (Function.update s.procs p x q).op.fresh b)
        (∑ᶠ q, (Function.update s.procs p x q).tables b + s.kernelRefs b) rc
      rw [hl', hw', hh', hf', ht', add_right_comm]
      exact hrc
  obtain ⟨refs', hinv', hsame, hx, hnew⟩ := hstep refs hinv h.ranges (h.procs p) fun b => by
    obtain ⟨leaf, wr, hold, fresh, kern, -, hb, -⟩ := hrest b
    have hle := hb.le
    omega
  refine ⟨sameRanges_trans h.ranges hsame, ⟨refs', hinv', fun b => ?_⟩, fun q => ?_⟩
  · obtain ⟨leaf, wr, hold, fresh, kern, hwl, hb, hback⟩ := hrest b
    exact hback _ (hnew b leaf wr hold fresh kern hwl hb)
  · show (Function.update s.procs p x q).Ok g
    by_cases hq : q = p
    · subst hq
      rw [Function.update_self]
      exact hx
    · rw [Function.update_of_ne hq]
      exact h.procs q

end Sys

end Perspicua.Mm
