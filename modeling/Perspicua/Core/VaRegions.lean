import Mathlib
import Perspicua.Core.Syscall

/-!
# The address ranges of a process

`process_va_alloc` takes the lowest gap between the regions that the request fits in, and
`process_va_free` takes a region out again. The sums of the scan are 64-bit and may wrap: a
request so large that they do is passed along to the check behind the loop, which sees it.

What the regions are is said in numbers: a region is the half-open range from `start` to
`stop`.
-/

namespace Perspicua.Core.Syscall

/-! ## Regions as ranges -/

namespace VaRegion

def start (r : VaRegion) : ℕ := r.base.toNat

def stop (r : VaRegion) : ℕ := r.base.toNat + r.pages.toNat * 4096

end VaRegion

/-- The table: sorted regions with gaps or nothing between them, in the user window. -/
structure VaOk (va : List VaRegion) : Prop where
  length : va.length ≤ userVaMaxRegions
  window : ∀ r ∈ va, userVaBase.toNat ≤ r.start ∧ r.stop ≤ userVaLimit.toNat
  nonempty : ∀ r ∈ va, 0 < r.pages.toNat
  sorted : va.Pairwise fun r r' => r.stop ≤ r'.start

/-- `n` pages at address `a` lie in the user window and in no region. -/
def Fits (va : List VaRegion) (a n : ℕ) : Prop :=
  userVaBase.toNat ≤ a ∧ a + n * 4096 ≤ userVaLimit.toNat ∧
    ∀ r ∈ va, a + n * 4096 ≤ r.start ∨ r.stop ≤ a

/-! ## The scan -/

/-- The sum of the loop's test, when it does not wrap. -/
theorem toNat_add_of_lt {a b : BitVec 64} (h : a.toNat + b.toNat < 2 ^ 64) :
    (a + b).toNat = a.toNat + b.toNat := by
  rw [BitVec.toNat_add, Nat.mod_eq_of_lt h]

/-- A sum that wraps is smaller than what was added to. -/
theorem lt_of_toNat_add_ge {a b : BitVec 64} (h : 2 ^ 64 ≤ a.toNat + b.toNat) : a + b < a := by
  rw [BitVec.lt_def, BitVec.toNat_add]
  have hb := b.isLt
  have ha := a.isLt
  omega

/-- `region_base + pages * PAGE_SIZE` in the loop. -/
theorem regionEnd_eq {r : VaRegion} (h : r.stop ≤ userVaLimit.toNat) :
    (r.base + r.pages * pageSize).toNat = r.stop := by
  have hlimit : userVaLimit.toNat < 2 ^ 64 := userVaLimit.isLt
  have hmul : (r.pages * pageSize).toNat = r.pages.toNat * 4096 := by
    rw [BitVec.toNat_mul]
    apply Nat.mod_eq_of_lt
    show r.pages.toNat * 4096 < 2 ^ 64
    unfold VaRegion.stop at h
    omega
  rw [toNat_add_of_lt, hmul]
  · rfl
  · rw [hmul]
    exact Nat.lt_of_le_of_lt h hlimit

/-- The loop of `process_va_alloc`, for a request of `n` bytes: it ends at the lowest place from
`c` on that meets no region, between the `k` regions it has passed and those ahead. Only
when the place has no room below `2 ^ 64` may the regions ahead be met. -/
structure Scanned (va : List VaRegion) (n c found k : ℕ) : Prop where
  le : c ≤ found
  slot : k ≤ va.length
  passed : ∀ r ∈ va.take k, r.stop ≤ found
  ahead : found + n < 2 ^ 64 → ∀ r ∈ va.drop k, found + n ≤ r.start
  lowest : ∀ a, c ≤ a → a < found → ∃ r ∈ va, ¬ (a + n ≤ r.start ∨ r.stop ≤ a)

theorem vaScan_scanned {size candidate : BitVec 64} {va : List VaRegion}
    (hwindow : ∀ r ∈ va, r.stop ≤ userVaLimit.toNat) (hpages : ∀ r ∈ va, 0 < r.pages.toNat)
    (hsorted : va.Pairwise fun r r' => r.stop ≤ r'.start)
    (hcandidate : ∀ r ∈ va, candidate.toNat ≤ r.start) :
    Scanned va size.toNat candidate.toNat (vaScan size candidate va).1.toNat
      (vaScan size candidate va).2 := by
  induction va generalizing candidate with
  | nil =>
    rw [vaScan]
    exact ⟨Nat.le_refl _, Nat.le_refl _, by simp, by simp, fun a hle hlt => absurd hlt (Nat.not_lt.mpr hle)⟩
  | cons r rest ih =>
    obtain ⟨hr, hsorted⟩ := List.pairwise_cons.mp hsorted
    have hstart : r.start < r.stop := by
      have := hpages r List.mem_cons_self
      unfold VaRegion.start VaRegion.stop
      omega
    rw [vaScan]
    by_cases hfits : candidate + size ≤ r.base
    · rw [if_pos hfits]
      refine ⟨Nat.le_refl _, Nat.zero_le _, by simp, ?_,
        fun a hle hlt => absurd hlt (Nat.not_lt.mpr hle)⟩
      intro hlt r' hr'
      have hle : candidate.toNat + size.toNat ≤ r.start := by
        rw [BitVec.le_def, toNat_add_of_lt hlt] at hfits
        exact hfits
      rcases List.mem_cons.mp hr' with rfl | hr'
      · exact hle
      · exact Nat.le_trans hle (Nat.le_trans (Nat.le_of_lt hstart) (hr r' hr'))
    · rw [if_neg hfits]
      -- the request does not fit before the region: the scan goes on at its end
      have hlt : r.start < candidate.toNat + size.toNat := by
        by_cases hwrap : candidate.toNat + size.toNat < 2 ^ 64
        · rw [BitVec.le_def, toNat_add_of_lt hwrap, Nat.not_le] at hfits
          exact hfits
        · have := r.base.isLt
          unfold VaRegion.start
          omega
      have hstop := regionEnd_eq (hwindow r List.mem_cons_self)
      have hcand := hcandidate r List.mem_cons_self
      have hgt : r.base + r.pages * pageSize > candidate := by
        rw [gt_iff_lt, BitVec.lt_def, hstop]
        omega
      dsimp only
      rw [if_pos hgt]
      have hscan := ih (fun r' hr' => hwindow r' (List.mem_cons_of_mem _ hr'))
        (fun r' hr' => hpages r' (List.mem_cons_of_mem _ hr')) hsorted
        (fun r' hr' => by rw [hstop]; exact hr r' hr')
      rw [hstop] at hscan
      generalize vaScan size (r.base + r.pages * pageSize) rest = found at hscan ⊢
      have hle := hscan.le
      refine ⟨by omega, Nat.succ_le_succ hscan.slot, ?_, hscan.ahead, ?_⟩
      · intro r' hr'
        rw [List.take_succ_cons] at hr'
        rcases List.mem_cons.mp hr' with rfl | hr'
        · exact hle
        · exact hscan.passed r' hr'
      · intro a hca ha
        by_cases hstopa : a < r.stop
        · refine ⟨r, List.mem_cons_self, ?_⟩
          omega
        · obtain ⟨r', hr', hmeet⟩ := hscan.lowest a (by omega) ha
          exact ⟨r', List.mem_cons_of_mem _ hr', hmeet⟩

/-! ## Allocation -/

section Alloc

variable {va va' : List VaRegion} {pages base : BitVec 64}

/-- The scan of an allocation, which starts at `USER_VA_BASE`. -/
theorem VaOk.scanned (h : VaOk va) (size : BitVec 64) :
    Scanned va size.toNat userVaBase.toNat (vaScan size userVaBase va).1.toNat
      (vaScan size userVaBase va).2 :=
  vaScan_scanned (fun r hr => (h.window r hr).2) h.nonempty h.sorted fun r hr => (h.window r hr).1

/-- The test for a byte count that does not fit in a `size_t`. -/
theorem size_div_eq_iff : pages * pageSize / pageSize = pages ↔ pages.toNat * 4096 < 2 ^ 64 := by
  have hsize : pageSize.toNat = 4096 := rfl
  rw [← BitVec.toNat_inj, BitVec.toNat_udiv, BitVec.toNat_mul, hsize]
  have := pages.isLt
  omega

/-- What an allocation that succeeds has found. -/
structure Allocated (va : List VaRegion) (pages base : BitVec 64) (k : ℕ) : Prop where
  count : pages ≠ 0
  room : va.length < userVaMaxRegions
  slot : k ≤ va.length
  bound : base.toNat + pages.toNat * 4096 ≤ userVaLimit.toNat
  low : userVaBase.toNat ≤ base.toNat
  passed : ∀ r ∈ va.take k, r.stop ≤ base.toNat
  ahead : ∀ r ∈ va.drop k, base.toNat + pages.toNat * 4096 ≤ r.start
  lowest : ∀ a, userVaBase.toNat ≤ a → a < base.toNat →
    ∃ r ∈ va, ¬ (a + pages.toNat * 4096 ≤ r.start ∨ r.stop ≤ a)

theorem VaOk.alloc_cases (h : VaOk va) (pages : BitVec 64) :
    (processVaAlloc va pages = none ∧
      (pages = 0 ∨ userVaMaxRegions ≤ va.length ∨ ∀ a, ¬ Fits va a pages.toNat)) ∨
    ∃ base k, processVaAlloc va pages = some (base, va.insertIdx k ⟨base, pages⟩) ∧
      Allocated va pages base k := by
  have hlimit : userVaLimit.toNat < 2 ^ 64 := userVaLimit.isLt
  unfold processVaAlloc
  by_cases hfull : pages = 0 ∨ va.length ≥ userVaMaxRegions
  · rw [if_pos hfull]
    exact .inl ⟨rfl, hfull.imp_right .inl⟩
  rw [if_neg hfull]
  rw [not_or] at hfull
  dsimp only
  by_cases hdiv : pages * pageSize / pageSize ≠ pages
  · rw [if_pos hdiv]
    rw [ne_eq, size_div_eq_iff] at hdiv
    refine .inl ⟨rfl, .inr (.inr ?_)⟩
    rintro a ⟨-, hle, -⟩
    omega
  rw [if_neg hdiv]
  rw [not_not] at hdiv
  have hbytes : (pages * pageSize).toNat = pages.toNat * 4096 := by
    rw [BitVec.toNat_mul]
    exact Nat.mod_eq_of_lt (size_div_eq_iff.mp hdiv)
  have hscan := h.scanned (pages * pageSize)
  rw [hbytes] at hscan
  generalize vaScan (pages * pageSize) userVaBase va = found at hscan ⊢
  by_cases hroom : found.1.toNat + pages.toNat * 4096 ≤ userVaLimit.toNat
  · have hsum : (found.1 + pages * pageSize).toNat = found.1.toNat + pages.toNat * 4096 := by
      rw [toNat_add_of_lt (by rw [hbytes]; omega), hbytes]
    have hno : ¬ (found.1 + pages * pageSize < found.1 ∨ found.1 + pages * pageSize > userVaLimit) := by
      rw [gt_iff_lt, BitVec.lt_def, BitVec.lt_def, hsum]
      omega
    rw [if_neg hno]
    exact .inr ⟨found.1, found.2, rfl, hfull.1, by omega, hscan.slot, hroom, hscan.le, hscan.passed,
      hscan.ahead (by omega), hscan.lowest⟩
  · have hyes : found.1 + pages * pageSize < found.1 ∨ found.1 + pages * pageSize > userVaLimit := by
      by_cases hwrap : found.1.toNat + pages.toNat * 4096 < 2 ^ 64
      · right
        rw [gt_iff_lt, BitVec.lt_def, toNat_add_of_lt (by rw [hbytes]; exact hwrap), hbytes]
        omega
      · left
        apply lt_of_toNat_add_ge
        rw [hbytes]
        omega
    rw [if_pos hyes]
    refine .inl ⟨rfl, .inr (.inr ?_)⟩
    rintro a ⟨hlow, hle, hfits⟩
    -- everything below the place found meets a region, and from there on the window is too short
    obtain ⟨r, hr, hmeet⟩ := hscan.lowest a hlow (by omega)
    exact hmeet (hfits r hr)

theorem Allocated.pos {k : ℕ} (h : Allocated va pages base k) : 0 < pages.toNat := by
  apply Nat.pos_of_ne_zero
  intro hzero
  exact h.count (BitVec.toNat_inj.mp hzero)

theorem Allocated.fits {k : ℕ} (h : Allocated va pages base k) : Fits va base.toNat pages.toNat := by
  refine ⟨h.low, h.bound, fun r hr => ?_⟩
  rw [← List.take_append_drop k va, List.mem_append] at hr
  rcases hr with hr | hr
  · exact .inr (h.passed r hr)
  · exact .inl (h.ahead r hr)

theorem Allocated.isLeast {k : ℕ} (h : Allocated va pages base k) :
    IsLeast {a | Fits va a pages.toNat} base.toNat := by
  refine ⟨h.fits, ?_⟩
  rintro a ⟨hlow, -, hfits⟩
  by_contra hlt
  obtain ⟨r, hr, hmeet⟩ := h.lowest a hlow (by omega)
  exact hmeet (hfits r hr)

/-- The shift of the table's tail makes room for one entry. -/
theorem insertIdx_eq_append {l : List VaRegion} {k : ℕ} (h : k ≤ l.length) (r : VaRegion) :
    l.insertIdx k r = l.take k ++ r :: l.drop k := by
  induction l generalizing k with
  | nil =>
    obtain rfl := Nat.le_zero.mp h
    rfl
  | cons x l ih =>
    cases k with
    | zero => rfl
    | succ k =>
      rw [List.insertIdx_succ_cons, ih (Nat.le_of_succ_le_succ h)]
      rfl

theorem Allocated.insert_eq {k : ℕ} (h : Allocated va pages base k) :
    va.insertIdx k ⟨base, pages⟩ = va.take k ++ ⟨base, pages⟩ :: va.drop k :=
  insertIdx_eq_append h.slot _

theorem VaOk.alloc {k : ℕ} (hva : VaOk va) (h : Allocated va pages base k) :
    VaOk (va.insertIdx k ⟨base, pages⟩) := by
  have hmem : ∀ r ∈ va.insertIdx k ⟨base, pages⟩, r = ⟨base, pages⟩ ∨ r ∈ va := fun r hr =>
    List.eq_or_mem_of_mem_insertIdx hr
  refine ⟨?_, fun r hr => ?_, fun r hr => ?_, ?_⟩
  · rw [List.length_insertIdx_of_le_length h.slot]
    exact h.room
  · rcases hmem r hr with rfl | hr
    · exact ⟨h.low, h.bound⟩
    · exact hva.window r hr
  · rcases hmem r hr with rfl | hr
    · exact h.pos
    · exact hva.nonempty r hr
  · have hsorted := hva.sorted
    rw [← List.take_append_drop k va, List.pairwise_append] at hsorted
    rw [h.insert_eq, List.pairwise_append, List.pairwise_cons]
    refine ⟨hsorted.1, ⟨h.ahead, hsorted.2.1⟩, fun r hr r' hr' => ?_⟩
    rcases List.mem_cons.mp hr' with rfl | hr'
    · exact h.passed r hr
    · exact hsorted.2.2 r hr r' hr'

/-! ## Release -/

theorem VaOk.free (h : VaOk va) (base : BitVec 64) : VaOk (processVaFree va base) := by
  have hsub : (processVaFree va base).Sublist va := List.eraseP_sublist
  exact ⟨Nat.le_trans hsub.length_le h.length, fun r hr => h.window r (hsub.subset hr),
    fun r hr => h.nonempty r (hsub.subset hr), h.sorted.sublist hsub⟩

/-- The new region is the only one at its base: it is what a release takes out. -/
theorem Allocated.free_eq {k : ℕ} (hva : VaOk va) (h : Allocated va pages base k) :
    processVaFree (va.insertIdx k ⟨base, pages⟩) base = va := by
  have hbefore : ∀ r ∈ va.take k, ¬ (decide (r.base = base)) = true := by
    intro r hr hbase
    have hstop := h.passed r hr
    have hpos := hva.nonempty r (List.mem_of_mem_take hr)
    have heq : r.base.toNat = base.toNat := congrArg BitVec.toNat (of_decide_eq_true hbase)
    unfold VaRegion.stop at hstop
    omega
  unfold processVaFree
  rw [h.insert_eq, List.eraseP_append_right _ hbefore, List.eraseP_cons_of_pos (by simp),
    List.take_append_drop]

end Alloc

/-! ## Runs -/

/-- A call on the table of one process. -/
inductive VaCall
  | alloc (pages : BitVec 64)
  | free (base : BitVec 64)

def vaStep (va : List VaRegion) : VaCall → List VaRegion
  | .alloc pages => ((processVaAlloc va pages).map Prod.snd).getD va
  | .free base => processVaFree va base

theorem VaOk.step {va : List VaRegion} (h : VaOk va) (call : VaCall) : VaOk (vaStep va call) := by
  cases call with
  | alloc pages =>
    rw [vaStep]
    rcases h.alloc_cases pages with ⟨hnone, -⟩ | ⟨base, k, hsome, halloc⟩
    · rw [hnone]
      exact h
    · rw [hsome]
      exact h.alloc halloc
  | free base => exact h.free base

theorem VaOk.run {va : List VaRegion} (h : VaOk va) (calls : List VaCall) :
    VaOk (calls.foldl vaStep va) := by
  induction calls generalizing va with
  | nil => exact h
  | cons call calls ih => exact ih (h.step call)

theorem vaOk_nil : VaOk [] := ⟨Nat.zero_le _, by simp, by simp, List.Pairwise.nil⟩

/-- After any calls the table is in order. An allocation then gives the lowest address at which
the request fits, and none exactly if there is no such address, the table is full or nothing was
asked for; releasing what it gave restores the table. -/
theorem va_run_lowest_gap (calls : List VaCall) (pages : BitVec 64) :
    VaOk (calls.foldl vaStep []) ∧
      (processVaAlloc (calls.foldl vaStep []) pages = none ↔
        pages = 0 ∨ userVaMaxRegions ≤ (calls.foldl vaStep []).length ∨
          ∀ a, ¬ Fits (calls.foldl vaStep []) a pages.toNat) ∧
      ∀ base va', processVaAlloc (calls.foldl vaStep []) pages = some (base, va') →
        IsLeast {a | Fits (calls.foldl vaStep []) a pages.toNat} base.toNat ∧
          ⟨base, pages⟩ ∈ va' ∧ processVaFree va' base = calls.foldl vaStep [] := by
  have hva := vaOk_nil.run calls
  refine ⟨hva, ?_⟩
  rcases hva.alloc_cases pages with ⟨hnone, hwhy⟩ | ⟨base, k, hsome, halloc⟩
  · rw [hnone]
    exact ⟨⟨fun _ => hwhy, fun _ => rfl⟩, fun base va' h => absurd h (by simp)⟩
  · rw [hsome]
    constructor
    · refine ⟨fun h => absurd h (by simp), ?_⟩
      rintro (hzero | hfull | hno)
      · exact absurd hzero halloc.count
      · exact absurd hfull (Nat.not_le.mpr halloc.room)
      · exact absurd halloc.fits (hno _)
    · intro base' va' h
      obtain ⟨rfl, rfl⟩ := Prod.mk.inj (Option.some.inj h)
      refine ⟨halloc.isLeast, ?_, halloc.free_eq hva⟩
      rw [halloc.insert_eq]
      exact List.mem_append_right _ List.mem_cons_self

end Perspicua.Core.Syscall
