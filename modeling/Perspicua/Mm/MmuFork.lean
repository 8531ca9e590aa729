import Perspicua.Mm.MmuCount

/-!
# The loops of a fork

`mmu_copy_user_pgd` fills the child's tables in index order. `ForkOk` is what its loops
rely on: from the current index on the child is still empty. Each iteration then adds a
table to the child, or writes one leaf into parent and child alike.
-/

namespace Perspicua.Mm

open Perspicua.Lib

theorem ix_inj {i j : ℕ} (hi : i < 512) (hj : j < 512) (h : ix i = ix j) : i = j := by
  have hval := congrArg Fin.val h
  simp only [ix, Fin.ofNat, Nat.mod_eq_of_lt hi, Nat.mod_eq_of_lt hj] at hval
  exact hval

/-! ## What is still empty -/

def RootFrom (child : Pgd) (i : ℕ) : Prop :=
  ∀ i', i ≤ i' → i' < 512 → child.l1 (ix i') = none

def L2From (child : Pgd) (i j : ℕ) : Prop :=
  ∀ j', j ≤ j' → j' < 512 → child.l2 (ix i, ix j') = .invalid

def L3From (child : Pgd) (i j k : ℕ) : Prop :=
  ∀ k', k ≤ k' → k' < 512 → child.l3 (ix i, ix j, ix k') = 0#64

/-- The loop invariant of `mmu_copy_user_pgd`. -/
def ForkOk (child : Pgd) : ForkPos → Prop
  | .l1 i => RootFrom child i
  | .l2 i j => i < 512 ∧ child.l1 (ix i) ≠ none ∧ L2From child i j ∧ RootFrom child (i + 1)
  | .l3 i j k => i < 512 ∧ j < 512 ∧ child.l1 (ix i) ≠ none ∧ child.HasL3 (ix i, ix j) ∧
      L3From child i j k ∧ L2From child i (j + 1) ∧ RootFrom child (i + 1)

theorem forkOk_empty (page : ℕ) : ForkOk (Pgd.empty page) (.l1 0) := fun _ _ _ => rfl

theorem forkOk_addL2Table {child : Pgd} {i : ℕ} (page : ℕ) (hi : i < 512)
    (h : ForkOk child (.l1 i)) : ForkOk (child.addL2Table (ix i) page) (.l2 i 0) := by
  refine ⟨hi, ?_, fun j' _ _ => if_pos rfl, fun i' hle hlt => ?_⟩
  · show Function.update child.l1 (ix i) (some page) (ix i) ≠ none
    rw [Function.update_self]
    simp
  · have hne : ix i' ≠ ix i := fun he => absurd (ix_inj hlt hi he) (by omega)
    exact (Function.update_of_ne hne _ _).trans (h i' (by omega) hlt)

theorem forkOk_addL3Table {child : Pgd} {i j : ℕ} (page : ℕ) (hj : j < 512)
    (h : ForkOk child (.l2 i j)) :
    ForkOk (child.addL3Table (ix i, ix j) page fun _ => 0#64) (.l3 i j 0) := by
  obtain ⟨hi, hl1, hl2, hroot⟩ := h
  refine ⟨hi, hj, hl1, ⟨page, Function.update_self _ _ _⟩, fun k' _ _ => if_pos rfl,
    fun j' hle hlt => ?_, hroot⟩
  have hne : (ix i, ix j') ≠ (ix i, ix j) := fun he =>
    absurd (ix_inj hlt hj (Prod.mk.inj he).2) (by omega)
  exact (Function.update_of_ne hne _ _).trans (hl2 j' (by omega) hlt)

theorem forkOk_next_l1 {child : Pgd} {i : ℕ} (h : ForkOk child (.l1 i)) :
    ForkOk child (.l1 (i + 1)) := fun i' hle hlt => h i' (by omega) hlt

theorem forkOk_next_l2 {child : Pgd} {i j : ℕ} (h : ForkOk child (.l2 i j)) :
    ForkOk child (.l2 i (j + 1)) :=
  ⟨h.1, h.2.1, fun j' hle hlt => h.2.2.1 j' (by omega) hlt, h.2.2.2⟩

theorem forkOk_next_l3 {child : Pgd} {i j k : ℕ} (h : ForkOk child (.l3 i j k)) :
    ForkOk child (.l3 i j (k + 1)) := by
  obtain ⟨hi, hj, hl1, hl3, hfrom, hrest⟩ := h
  exact ⟨hi, hj, hl1, hl3, fun k' hle hlt => hfrom k' (by omega) hlt, hrest⟩

theorem forkOk_setL3 {child : Pgd} {i j k : ℕ} (w : Word) (hk : k < 512)
    (h : ForkOk child (.l3 i j k)) :
    ForkOk (child.setL3 (ix i, ix j, ix k) w) (.l3 i j (k + 1)) := by
  obtain ⟨hi, hj, hl1, hl3, hfrom, hrest⟩ := h
  refine ⟨hi, hj, hl1, hl3, fun k' hle hlt => ?_, hrest⟩
  have hne : (ix i, ix j, ix k') ≠ (ix i, ix j, ix k) := fun he =>
    absurd (ix_inj hlt hk (Prod.mk.inj (Prod.mk.inj he).2).2) (by omega)
  exact (Function.update_of_ne hne _ _).trans (hfrom k' (by omega) hlt)

/-! ## One iteration -/

section Copy

variable {g pmm pmm' : Pmm} {parent child parent' child' : Pgd} {refs : Block → ℕ}
  {out : ForkOut}

/-- What one iteration does to the two address spaces and to the references: it adds a
table to the child, or copies one leaf and takes a reference for the copy. -/
def CopyEffect (g : Pmm) (refs refs' : Block → ℕ) (parent child parent' child' : Pgd) : Prop :=
  (parent' = parent ∧ Grown g refs refs' child child') ∨
  ∃ x, has (parent.l3 x) pteValid = true ∧
    parent' = parent.setL3 x (cowMark (parent.l3 x)) ∧
    child' = child.setL3 x (cowMark (parent.l3 x)) ∧
    child.HasL3 (x.1, x.2.1) ∧ child.l3 x = 0#64 ∧
    ∀ b, refs' b = refs b + leafOne g b (parent.l3 x)

theorem leafOne_cowMark (g : Pmm) (b : Block) (w : Word) :
    leafOne g b (cowMark w) = leafOne g b w :=
  leafOne_congr (has_cowMark_valid w) (ptePtr_cowMark w) b

/-- The parent's entry is rewritten only if that changes it. -/
theorem setL3_cowMark (pgd : Pgd) (x : Ix × Ix × Ix) :
    (if has (pgd.l3 x) apRo then pgd else pgd.setL3 x (cowMark (pgd.l3 x)))
      = pgd.setL3 x (cowMark (pgd.l3 x)) := by
  split
  · rename_i hro
    unfold cowMark Pgd.setL3
    rw [if_pos hro, Function.update_eq_self]
  · rfl

/-- A table for the child at the loops' position. -/
theorem copyTable_spec {r : Option ℕ} {add : ℕ → Pgd} (h : pmm.PmmInv refs)
    (hsame : g.SameRanges pmm) (hchild : child.Ok g) (hok : allocUserTablePage pmm = .ok (r, pmm'))
    (hgrow : ∀ refs' page, IsPage g page → refs (blockOf page) = 0 →
      (∀ b, refs' b = refs b + one b page) → Grown g refs refs' child (add page)) :
    ∃ refs', pmm'.PmmInv refs' ∧ pmm.SameRanges pmm' ∧
      (r = none → Grown g refs refs' child child) ∧
      ∀ page, r = some page → Grown g refs refs' child (add page) := by
  obtain ⟨refs', hinv, hs, hnone, hsome⟩ := allocPage_spec h hok
  refine ⟨refs', hinv, hs, fun hr => Grown.lost hchild (hnone hr), fun page hr => ?_⟩
  obtain ⟨hpage, hzero, hrefs⟩ := hsome page hr
  exact hgrow refs' page ((isPage_congr hsame).mp hpage) hzero hrefs

theorem mmuCopyStep_spec {pos : ForkPos} (hparent : parent.Ok g) (hchild : child.Ok g)
    (hpos : ForkOk child pos) (h : pmm.PmmInv refs) (hsame : g.SameRanges pmm)
    (hle : ∀ x b, leafOne g b (parent.l3 x) ≤ refs b)
    (hok : mmuCopyStep pmm parent child pos = .ok (pmm', parent', child', out)) :
    ∃ refs', pmm'.PmmInv refs' ∧ pmm.SameRanges pmm' ∧
      (∀ pos', out = .next pos' → ForkOk child' pos') ∧
      CopyEffect g refs refs' parent child parent' child' := by
  -- the iterations that only move on
  have hstay : ∀ pos', ForkOk child pos' →
      (.ok (pmm, parent, child, ForkOut.next pos') : Except Panic _)
        = .ok (pmm', parent', child', out) →
      ∃ refs', pmm'.PmmInv refs' ∧ pmm.SameRanges pmm' ∧
        (∀ pos', out = .next pos' → ForkOk child' pos') ∧
        CopyEffect g refs refs' parent child parent' child' := by
    intro pos' hnext he
    cases he
    refine ⟨refs, h, ⟨rfl, rfl⟩, fun q hq => ?_, Or.inl ⟨rfl, Grown.refl refs hchild⟩⟩
    cases hq
    exact hnext
  cases pos with
  | l1 i =>
    rw [mmuCopyStep] at hok
    split at hok
    · cases hok
      exact ⟨refs, h, ⟨rfl, rfl⟩, fun q hq => (by cases hq), Or.inl ⟨rfl, Grown.refl refs hchild⟩⟩
    · rename_i hi
      split at hok
      · exact hstay _ (forkOk_next_l1 hpos) hok
      · obtain ⟨⟨r, q⟩, ha, hok⟩ := bind_eq_ok.mp hok
        have hnone := hpos i le_rfl (by omega)
        obtain ⟨refs', hinv, hs, hn, hsome⟩ := copyTable_spec h hsame hchild ha
          (fun refs' page hp hz hr => grown_addL2Table hchild hnone hp hz hr)
        cases r with
        | none =>
          cases hok
          exact ⟨refs', hinv, hs, fun q hq => (by cases hq), Or.inl ⟨rfl, hn rfl⟩⟩
        | some page =>
          cases hok
          refine ⟨refs', hinv, hs, fun q hq => ?_, Or.inl ⟨rfl, hsome page rfl⟩⟩
          cases hq
          exact forkOk_addL2Table page (by omega) hpos
  | l2 i j =>
    rw [mmuCopyStep] at hok
    split at hok
    · exact hstay (.l1 (i + 1)) hpos.2.2.2 hok
    · rename_i hj
      split at hok
      · exact hstay _ (forkOk_next_l2 hpos) hok
      · rename_i w hb
        exact absurd hb (hparent.no_block _ w)
      · obtain ⟨⟨r, q⟩, ha, hok⟩ := bind_eq_ok.mp hok
        have hinvalid := hpos.2.2.1 j le_rfl (by omega)
        obtain ⟨refs', hinv, hs, hn, hsome⟩ := copyTable_spec h hsame hchild ha
          (fun refs' page hp hz hr => grown_addL3Table hchild hpos.2.1 hinvalid hp hz hr)
        cases r with
        | none =>
          cases hok
          exact ⟨refs', hinv, hs, fun q hq => (by cases hq), Or.inl ⟨rfl, hn rfl⟩⟩
        | some page =>
          cases hok
          refine ⟨refs', hinv, hs, fun q hq => ?_, Or.inl ⟨rfl, hsome page rfl⟩⟩
          cases hq
          exact forkOk_addL3Table page (by omega) hpos
  | l3 i j k =>
    rw [mmuCopyStep] at hok
    split at hok
    · obtain ⟨hi, hj, hl1, hl3, hfrom, hrest, hroot⟩ := hpos
      exact hstay (.l2 i (j + 1)) ⟨hi, hl1, hrest, hroot⟩ hok
    · rename_i hk
      dsimp only at hok
      split at hok
      · exact hstay _ (forkOk_next_l3 hpos) hok
      · rename_i hvalid
        have hv : has (parent.l3 (ix i, ix j, ix k)) pteValid = true := by simpa using hvalid
        obtain ⟨q, hq, hok⟩ := bind_eq_ok.mp hok
        have hle' : ∀ b, leafOne g b (cowMark (parent.l3 (ix i, ix j, ix k))) ≤ refs b := by
          intro b
          rw [leafOne_cowMark]
          exact hle _ b
        obtain ⟨hinv, hs⟩ := holdEntry_spec h hsame (by rw [has_cowMark_valid]; exact hv) hle' hq
        cases hok
        refine ⟨_, hinv, hs, fun pos' hn => ?_, Or.inr ⟨_, hv, setL3_cowMark _ _, rfl,
          hpos.2.2.2.1, hpos.2.2.2.2.1 k le_rfl (by omega), fun b => congrArg (refs b + ·) (leafOne_cowMark g b _)⟩⟩
        cases hn
        exact forkOk_setL3 _ (by omega) hpos

end Copy

end Perspicua.Mm
