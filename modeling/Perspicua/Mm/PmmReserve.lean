import Perspicua.Lib.Except
import Perspicua.Mm.Pmm

/-!
# Reserved ranges

`pmm_reserve_range` merges a new range with every range of the table that it meets or touches.
A merge takes an entry out of the table by putting the last one in its place, and the search
begins again with the larger range. The table is therefore described up to the order of its
entries: no two of them meet or touch, and together they are what has been reserved.
-/

namespace Perspicua.Mm

namespace PmmReservedRange

/-- The range holds the byte. -/
def Has (r : PmmReservedRange) (x : ℕ) : Prop := r.startPhys ≤ x ∧ x < r.endPhys

/-- The ranges neither meet nor touch. -/
def Apart (r q : PmmReservedRange) : Prop := r.endPhys < q.startPhys ∨ q.endPhys < r.startPhys

end PmmReservedRange

namespace Pmm

open PmmReservedRange Perspicua.Lib

variable {s t : Pmm} {st e i : ℕ} {rs : List PmmReservedRange}

/-- Overwriting entry `i` with the last one and dropping that loses entry `i` only. -/
theorem perm_swap_remove (hi : i < rs.length) (d : PmmReservedRange) :
    rs.Perm (rs.getD i d :: (rs.set i (rs.getD (rs.length - 1) d)).dropLast) := by
  obtain ⟨l, r, z, hl, rfl⟩ : ∃ l r z, l.length = i ∧ rs = l ++ r :: z := by
    refine ⟨rs.take i, rs[i], rs.drop (i + 1), List.length_take_of_le hi.le, ?_⟩
    rw [← List.drop_eq_getElem_cons hi, List.take_append_drop]
  subst hl
  rcases z.eq_nil_or_concat' with rfl | ⟨z, last, rfl⟩
  · simp only [List.getD_append_right, List.getD_cons_zero, List.length_append, List.length_cons,
      List.length_nil, Nat.add_sub_cancel, le_refl, Nat.sub_self, List.set_append_right,
      List.set_cons_zero, List.dropLast_concat]
    exact List.perm_append_singleton r l
  · have hlast : (l ++ r :: (z ++ [last])).getD ((l ++ r :: (z ++ [last])).length - 1) d = last := by
      rw [← List.cons_append, ← List.append_assoc, List.getD_eq_getElem?_getD,
        ← List.getLast?_eq_getElem?, List.getLast?_concat]
      rfl
    rw [hlast]
    have hdrop : ((l ++ r :: (z ++ [last])).set l.length last).dropLast = l ++ last :: z := by
      rw [List.set_append_right _ _ (Nat.le_refl _), Nat.sub_self, List.set_cons_zero,
        ← List.cons_append, ← List.append_assoc, List.dropLast_concat]
    have hr : (l ++ r :: (z ++ [last])).getD l.length d = r := by simp
    rw [hdrop, hr]
    refine List.perm_middle.trans (.cons r ((List.perm_append_singleton last z).append_left l))

/-- The new range meets or touches the other one. -/
theorem touches_iff {r : PmmReservedRange} (hse : st < e) (hr : r.startPhys < r.endPhys) :
    (reservedRangeOverlaps st e r.startPhys r.endPhys || e == r.startPhys || st == r.endPhys) =
      true ↔ ¬ Apart ⟨st, e⟩ r := by
  unfold reservedRangeOverlaps Apart
  simp only [Bool.or_eq_true, Bool.and_eq_true, decide_eq_true_eq, beq_iff_eq]
  omega

/-- What the merge loop does to a table whose ranges are not empty. -/
structure Coalesced (st e : ℕ) (rs : List PmmReservedRange) (out : ℕ × ℕ × List PmmReservedRange) :
    Prop where
  low : out.1 ≤ st
  high : e ≤ out.2.1
  subperm : out.2.2.Subperm rs
  kept : ∀ r ∈ rs, r ∈ out.2.2 ∨ out.1 ≤ r.startPhys ∧ r.endPhys ≤ out.2.1
  within : ∀ x, out.1 ≤ x → x < out.2.1 → (st ≤ x ∧ x < e) ∨ ∃ r ∈ rs, r.Has x
  apart : ∀ r ∈ out.2.2, Apart ⟨out.1, out.2.1⟩ r

theorem coalesceReserved_spec {fuel : ℕ} (hse : st < e)
    (hrs : ∀ r ∈ rs, r.startPhys < r.endPhys) (hfuel : rs.length ≤ fuel) :
    Coalesced st e rs (coalesceReserved fuel st e rs) := by
  -- each round takes an entry out of the table
  induction fuel generalizing st e rs with
  | zero =>
    obtain rfl : rs = [] := List.eq_nil_of_length_eq_zero (by omega)
    exact ⟨le_rfl, le_rfl, .refl _, by simp, fun x h1 h2 => .inl ⟨h1, h2⟩, by simp [coalesceReserved]⟩
  | succ fuel ih =>
    rw [coalesceReserved]
    split
    next hnone =>
      refine ⟨le_rfl, le_rfl, .refl _, fun r hr => .inl hr, fun x h1 h2 => .inl ⟨h1, h2⟩, ?_⟩
      intro r hr
      have hno := List.findIdx?_eq_none_iff.mp hnone r hr
      rw [← Bool.not_eq_true, touches_iff hse (hrs r hr), not_not] at hno
      exact hno
    next i hi =>
      dsimp only
      obtain ⟨hlt, htouch, -⟩ := List.findIdx?_eq_some_iff_getElem.mp hi
      have hperm := perm_swap_remove hlt ⟨0, 0⟩
      set rest := (rs.set i (rs.getD (rs.length - 1) ⟨0, 0⟩)).dropLast
      rw [← List.getD_eq_getElem _ ⟨0, 0⟩ hlt] at htouch
      set r := rs.getD i ⟨0, 0⟩
      have hmem : ∀ q, q ∈ rs ↔ q = r ∨ q ∈ rest := fun q => by rw [hperm.mem_iff, List.mem_cons]
      have hr := hrs r ((hmem r).mpr (.inl rfl))
      rw [touches_iff hse hr] at htouch
      simp only [Apart] at htouch
      have hlen : rest.length ≤ fuel := by
        have := hperm.length_eq
        rw [List.length_cons] at this
        omega
      have hrec := @ih (if r.startPhys < st then r.startPhys else st)
        (if r.endPhys > e then r.endPhys else e) rest (by split_ifs <;> omega)
        (fun q hq => hrs q ((hmem q).mpr (.inr hq))) hlen
      generalize coalesceReserved fuel _ _ rest = out at hrec ⊢
      have hlow := hrec.low
      have hhigh := hrec.high
      refine ⟨?_, ?_, ?_, ?_, ?_, hrec.apart⟩
      · split_ifs at hlow <;> omega
      · split_ifs at hhigh <;> omega
      · exact hrec.subperm.trans ((List.sublist_cons_self r rest).subperm.trans hperm.symm.subperm)
      · intro q hq
        rcases (hmem q).mp hq with rfl | hq
        · right
          split_ifs at hlow hhigh <;> omega
        · exact hrec.kept q hq
      · intro x h1 h2
        rcases hrec.within x h1 h2 with hx | ⟨q, hq, hx⟩
        · -- between two ranges that meet or touch there is nothing
          by_cases hin : st ≤ x ∧ x < e
          · exact .inl hin
          · refine .inr ⟨r, (hmem r).mpr (.inl rfl), ?_⟩
            unfold Has
            split_ifs at hx <;> omega
        · exact .inr ⟨q, (hmem q).mpr (.inr hq), hx⟩

/-- The table after some calls: no two ranges meet or touch, and they hold what was reserved. -/
structure Reserves (rs : List PmmReservedRange) (calls : List (ℕ × ℕ)) : Prop where
  nonempty : ∀ r ∈ rs, r.startPhys < r.endPhys ∧ r.endPhys < 2 ^ 64
  apart : rs.Pairwise Apart
  covers : ∀ x, (∃ r ∈ rs, r.Has x) ↔ ∃ c ∈ calls, c.1 ≤ x ∧ x < c.1 + c.2

theorem Reserves.call {calls : List (ℕ × ℕ)} {size : ℕ} (h : Reserves s.reservedRanges calls)
    (hwrap : st + size < 2 ^ 64) (hcall : s.pmmReserveRange st size = .ok t) :
    Reserves t.reservedRanges (calls ++ [(st, size)]) := by
  have hlast : ∀ x, (∃ c ∈ calls ++ [(st, size)], c.1 ≤ x ∧ x < c.1 + c.2) ↔
      (∃ c ∈ calls, c.1 ≤ x ∧ x < c.1 + c.2) ∨ st ≤ x ∧ x < st + size := by
    intro x
    simp only [List.mem_append, List.mem_singleton, or_and_right, exists_or, exists_eq_left]
  unfold pmmReserveRange at hcall
  split_ifs at hcall with hzero
  · cases hcall
    refine ⟨h.nonempty, h.apart, fun x => ?_⟩
    rw [hlast, h.covers]
    exact (or_iff_left (by omega)).symm
  · cases hcall
    rw [Nat.mod_eq_of_lt hwrap]
    have hout := coalesceReserved_spec (by omega : st < st + size)
      (fun r hr => (h.nonempty r hr).1) (Nat.le_refl _)
    generalize coalesceReserved s.reservedRanges.length st (st + size) s.reservedRanges = out at hout
    obtain ⟨a, b, rs⟩ := out
    have hlow : a ≤ st := hout.low
    have hhigh : st + size ≤ b := hout.high
    have hb : b < 2 ^ 64 := by
      by_contra hge
      rcases hout.within (b - 1) (by show a ≤ b - 1; omega) (by show b - 1 < b; omega) with
        hx | ⟨r, hr, hx⟩
      · omega
      · have := (h.nonempty r hr).2
        unfold Has at hx
        omega
    refine ⟨?_, ?_, ?_⟩
    · intro r hr
      rcases List.mem_append.mp hr with hr | hr
      · exact h.nonempty r (hout.subperm.subset hr)
      · rw [List.mem_singleton.mp hr]
        exact ⟨by show a < b; omega, hb⟩
    · rw [List.pairwise_append]
      refine ⟨?_, List.pairwise_singleton _ _, ?_⟩
      · obtain ⟨l, hperm, hsub⟩ := hout.subperm
        exact (hperm.pairwise_iff fun hrq => hrq.symm).mp (h.apart.sublist hsub)
      · intro r hr q hq
        rw [List.mem_singleton.mp hq]
        exact (hout.apart r hr).symm
    · intro x
      rw [hlast, ← h.covers]
      constructor
      · rintro ⟨r, hr, hx⟩
        rcases List.mem_append.mp hr with hr | hr
        · exact .inl ⟨r, hout.subperm.subset hr, hx⟩
        · rw [List.mem_singleton.mp hr] at hx
          exact (hout.within x hx.1 hx.2).symm
      · rintro (⟨r, hr, hx⟩ | hx)
        · rcases hout.kept r hr with hr | ⟨h1, h2⟩
          · exact ⟨r, List.mem_append_left _ hr, hx⟩
          · exact ⟨⟨a, b⟩, by simp, h1.trans hx.1, hx.2.trans_le h2⟩
        · exact ⟨⟨a, b⟩, by simp, hlow.trans hx.1, hx.2.trans_le hhigh⟩

/-- A call for each range, from the first one on. -/
def reserveRanges : Pmm → List (ℕ × ℕ) → Except Panic Pmm
  | s, [] => .ok s
  | s, c :: calls => s.pmmReserveRange c.1 c.2 >>= fun t => reserveRanges t calls

/-- The page meets a range. -/
theorem rangeMeetsPfns_iff {n pfn : ℕ} {r : PmmReservedRange} (hr : r.startPhys < r.endPhys)
    (hend : r.endPhys < 2 ^ 64) (hn : n ≤ (2 ^ 64 - 1) / pageSize) (hpfn : pfn < n) :
    rangeMeetsPfns n pfn (pfn + 1) r = true ↔ ∃ x, x / pageSize = pfn ∧ r.Has x := by
  have hshare : (∃ x, x / pageSize = pfn ∧ r.Has x) ↔
      r.startPhys / 4096 ≤ pfn ∧ pfn * 4096 < r.endPhys := by
    unfold Has pageSize
    constructor
    · rintro ⟨x, hx, h1, h2⟩
      omega
    · rintro ⟨h1, h2⟩
      -- the first byte of the page, or of the range
      refine ⟨max (pfn * 4096) r.startPhys, ?_, ?_, ?_⟩ <;> omega
  rw [hshare]
  unfold pageSize at hn
  unfold rangeMeetsPfns pageSize
  dsimp only
  by_cases hlow : n ≤ r.startPhys / 4096
  · rw [if_pos hlow]
    exact iff_of_false Bool.false_ne_true (by omega)
  · rw [if_neg hlow]
    simp only [Bool.and_eq_true, decide_eq_true_eq]
    split_ifs <;> omega

/-- After any calls whose ranges do not wrap and that the table has room for: no two ranges of the
table meet or touch, they hold exactly the bytes that were reserved, and the reserved pages are
those that share a byte with them. The memory has fewer than 2^64 bytes; how many pages that is
`pmm_init` finds out after the calls. -/
theorem pmmReserveRange_run {calls : List (ℕ × ℕ)} (hempty : s.reservedRanges = [])
    (hwrap : ∀ c ∈ calls, c.1 + c.2 < 2 ^ 64) (hrun : reserveRanges s calls = .ok t) :
    t.reservedRanges.Pairwise Apart ∧
    (∀ x, (∃ r ∈ t.reservedRanges, r.Has x) ↔ ∃ c ∈ calls, c.1 ≤ x ∧ x < c.1 + c.2) ∧
    ∀ n ≤ (2 ^ 64 - 1) / pageSize, ∀ pfn < n,
      pfnIsReserved { t with numPages := n } pfn = true ↔
        ∃ x, x / pageSize = pfn ∧ ∃ c ∈ calls, c.1 ≤ x ∧ x < c.1 + c.2 := by
  have hreserves : ∀ before, Reserves s.reservedRanges before →
      Reserves t.reservedRanges (before ++ calls) := by
    clear hempty
    induction calls generalizing s with
    | nil =>
      cases hrun
      intro before h
      rwa [List.append_nil]
    | cons c calls ih =>
      obtain ⟨s', hs', hrun⟩ := bind_eq_ok.mp hrun
      intro before h
      have hcall := h.call (hwrap c List.mem_cons_self) hs'
      have hrest := ih (fun d hd => hwrap d (List.mem_cons_of_mem _ hd)) hrun _ hcall
      rwa [List.append_assoc] at hrest
  have h := hreserves [] ⟨by simp [hempty], by simp [hempty], by simp [hempty]⟩
  rw [List.nil_append] at h
  refine ⟨h.apart, h.covers, ?_⟩
  intro n hn pfn hpfn
  rw [pfnIsReserved, rangeOverlapsReservedPfns, List.any_eq_true]
  simp only [← h.covers]
  constructor
  · rintro ⟨r, hr, hmeets⟩
    obtain ⟨hlt, hend⟩ := h.nonempty r hr
    obtain ⟨x, hx, hin⟩ := (rangeMeetsPfns_iff hlt hend hn hpfn).mp hmeets
    exact ⟨x, hx, r, hr, hin⟩
  · rintro ⟨x, hx, r, hr, hin⟩
    obtain ⟨hlt, hend⟩ := h.nonempty r hr
    exact ⟨r, hr, (rangeMeetsPfns_iff hlt hend hn hpfn).mpr ⟨x, hx, hin⟩⟩

/-- The third range joins the first two. -/
theorem pmmReserveRange_run_three : ∃ t,
    reserveRanges boot [(0x1000, 0x800), (0x3000, 16), (0x1800, 0x1800)] = .ok t ∧
    t.reservedRanges = [⟨0x1000, 0x3010⟩] ∧ t.reservedRanges.Pairwise Apart := by
  have hrun : reserveRanges boot [(0x1000, 0x800), (0x3000, 16), (0x1800, 0x1800)] =
      .ok { boot with reservedRanges := [⟨0x1000, 0x3010⟩] } := rfl
  exact ⟨_, hrun, rfl, (pmmReserveRange_run rfl (by decide) hrun).1⟩

end Pmm

end Perspicua.Mm
