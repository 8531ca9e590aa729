import Perspicua.Mm.Mmu

/-!
# Checking a user buffer

`syscall_validate_user_buffer` and the walk behind it, `mmu_user_range_ok`, which looks at one
entry for a 2 MB block and at every leaf of a level-3 table. The walk is compared with the plain
check: a query for every page that the buffer touches.
-/

namespace Perspicua.Mm

/-! ## The walk -/

/-- `pte_user_ok` -/
def pteUserOk (pte : Word) (writable : Bool) : Bool :=
  if !has pte apUser then false
  else if writable && has pte apRo && !has pte pteCow then false
  else true

/-- The inner loop of `mmu_user_range_ok`, with `n` entries of the table at `y` still to come:
whether it went well, and the address it stopped at. -/
def rangeLeaves (pgd : Pgd) (y : Ix × Ix) (stop : ℕ) (writable : Bool) : ℕ → ℕ → Bool × ℕ
  | 0, va => (true, va)
  | n + 1, va =>
    if va < stop then
      let l3e := pgd.l3 (y.1, y.2, ix (511 - n))
      if !has l3e pteValid || !pteUserOk l3e writable then (false, va)
      else rangeLeaves pgd y stop writable n (va + pageSize)
    else (true, va)

/-- The outer loop, one round per unit of fuel. -/
def rangeLoop (pgd : Pgd) (stop : ℕ) (writable : Bool) : ℕ → ℕ → Bool
  | 0, _ => true
  | fuel + 1, va =>
    if va < stop then
      match pgd.l1 (l1Idx va), pgd.l2 (l1Idx va, l2Idx va) with
      | none, _ => false
      | some _, .invalid => false
      | some _, .block l2e =>
        -- a 2 MB block is one permission for the whole span
        if !pteUserOk l2e writable then false
        else rangeLoop pgd stop writable fuel (va / 0x200000 * 0x200000 + 0x200000)
      | some _, .table _ =>
        let r := rangeLeaves pgd (l1Idx va, l2Idx va) stop writable (512 - (l3Idx va).val) va
        if r.1 then rangeLoop pgd stop writable fuel r.2 else false
    else true

/-- `mmu_user_range_ok`. A round passes a page at least, so the pages of the range are rounds
enough. -/
def mmuUserRangeOk (pgd : Option Pgd) (start stop : ℕ) (writable : Bool) : Bool :=
  match pgd with
  | none => false
  | some pgd =>
    if stop ≤ start then false
    else
      let va := start / pageSize * pageSize
      rangeLoop pgd stop writable ((stop - va) / pageSize + 1) va

/-- `USER_VA_LIMIT` -/
def userVaLimit : ℕ := 0x8000000000

/-- `syscall_validate_user_buffer`, for the page table of the calling process. -/
def syscallValidateUserBuffer (pgd : Option Pgd) (ptr len : BitVec 64) (writable : Bool) : Bool :=
  if ptr = 0 ∨ len = 0 then false
  else
    let stop := ptr + len
    if stop < ptr ∨ stop.toNat > kernelVma ∨ stop.toNat > userVaLimit then false
    else mmuUserRangeOk pgd ptr.toNat stop.toNat writable

/-! ## The check page by page -/

/-- What a user access needs of the flags; a copy-on-write page counts as writable. -/
def Permits (flags : Word) (writable : Bool) : Prop :=
  has flags apUser = true ∧ (writable = true → has flags apRo = false ∨ has flags pteCow = true)

theorem pteUserOk_iff (pte : Word) (writable : Bool) : pteUserOk pte writable = true ↔ Permits pte writable := by
  unfold pteUserOk Permits
  cases has pte apUser <;> cases writable <;> cases has pte apRo <;> cases has pte pteCow <;> decide

/-- The page at `va` is mapped and may be used. -/
def PageOk (pgd : Pgd) (writable : Bool) (va : ℕ) : Prop :=
  ∃ paddr flags, mmuUserQuery pgd va = some (paddr, flags) ∧ Permits flags writable

theorem has_flags {m : Word} (w : Word) (h : ~~~pteAddrMask &&& m = m) :
    has (w &&& ~~~pteAddrMask) m = has w m := by
  unfold has
  rw [BitVec.and_assoc, h]

/-- A query gives the flags of the entry it finds. -/
theorem permits_flags (w : Word) (writable : Bool) :
    Permits (w &&& ~~~pteAddrMask) writable ↔ Permits w writable := by
  unfold Permits
  rw [has_flags w (by decide), has_flags w (by decide), has_flags w (by decide)]

section Entries

variable {pgd : Pgd} {writable : Bool} {va : ℕ}

theorem pageOk_block {page : ℕ} {l2e : Word} (h1 : pgd.l1 (l1Idx va) = some page)
    (h2 : pgd.l2 (l1Idx va, l2Idx va) = .block l2e) :
    PageOk pgd writable va ↔ pteUserOk l2e writable = true := by
  have hquery : mmuUserQuery pgd va = some (pteAddr l2e + va % 0x200000, l2e &&& ~~~pteAddrMask) := by
    unfold mmuUserQuery vaPath
    dsimp only
    rw [h1, h2]
  unfold PageOk
  rw [hquery, pteUserOk_iff, ← permits_flags]
  constructor
  · rintro ⟨paddr, flags, heq, hp⟩
    obtain ⟨-, rfl⟩ := Prod.mk.inj (Option.some.inj heq)
    exact hp
  · exact fun hp => ⟨_, _, rfl, hp⟩

theorem pageOk_table {page page' : ℕ} (h1 : pgd.l1 (l1Idx va) = some page)
    (h2 : pgd.l2 (l1Idx va, l2Idx va) = .table page') :
    PageOk pgd writable va ↔
      (!has (pgd.l3 (vaPath va)) pteValid || !pteUserOk (pgd.l3 (vaPath va)) writable) = false := by
  have hquery : mmuUserQuery pgd va = if has (pgd.l3 (vaPath va)) pteValid then
      some (pteAddr (pgd.l3 (vaPath va)) + va % pageSize, pgd.l3 (vaPath va) &&& ~~~pteAddrMask)
      else none := by
    unfold mmuUserQuery
    dsimp only
    rw [show (vaPath va).1 = l1Idx va from rfl, h1,
      show (l1Idx va, (vaPath va).2.1) = (l1Idx va, l2Idx va) from rfl, h2]
  unfold PageOk
  rw [hquery]
  cases hvalid : has (pgd.l3 (vaPath va)) pteValid with
  | false => simp
  | true =>
    rw [if_pos rfl, Bool.not_true, Bool.false_or, Bool.not_eq_false', pteUserOk_iff, ← permits_flags]
    constructor
    · rintro ⟨paddr, flags, heq, hp⟩
      obtain ⟨-, rfl⟩ := Prod.mk.inj (Option.some.inj heq)
      exact hp
    · exact fun hp => ⟨_, _, rfl, hp⟩

theorem not_pageOk (h : pgd.l1 (l1Idx va) = none ∨ pgd.l2 (l1Idx va, l2Idx va) = .invalid) :
    ¬ PageOk pgd writable va := by
  rintro ⟨paddr, flags, hquery, -⟩
  unfold mmuUserQuery vaPath at hquery
  dsimp only at hquery
  rcases h with h | h
  · rw [h] at hquery
    cases hquery
  · rw [h] at hquery
    cases hl : pgd.l1 (l1Idx va) <;> rw [hl] at hquery <;> cases hquery

end Entries

/-! ## Addresses under one table -/

theorem l1Idx_eq {va va' : ℕ} (h : va / 0x200000 = va' / 0x200000) : l1Idx va = l1Idx va' := by
  unfold l1Idx
  rw [Nat.shiftRight_eq_div_pow, Nat.shiftRight_eq_div_pow]
  congr 1
  omega

theorem l2Idx_eq {va va' : ℕ} (h : va / 0x200000 = va' / 0x200000) : l2Idx va = l2Idx va' := by
  unfold l2Idx
  rw [Nat.shiftRight_eq_div_pow, Nat.shiftRight_eq_div_pow]
  congr 1

theorem l3Idx_val (va : ℕ) : (l3Idx va).val = va % 0x200000 / 4096 := by
  unfold l3Idx
  rw [Nat.shiftRight_eq_div_pow]
  show va / 2 ^ 12 % 512 = _
  omega

/-! ## The walk is the check -/

section Walk

variable {pgd : Pgd} {writable : Bool} {stop : ℕ}

/-- The inner loop goes well exactly if the pages it looks at do, and then it has reached the end
of the range or of the table. -/
theorem rangeLeaves_spec {y : Ix × Ix} {n va page page' : ℕ}
    (hpath : ∀ k < n, vaPath (va + k * 4096) = (y.1, y.2, ix (512 - n + k))) (hn : n ≤ 512)
    (h1 : pgd.l1 y.1 = some page) (h2 : pgd.l2 y = .table page') :
    ((rangeLeaves pgd y stop writable n va).1 = true ↔
      ∀ k < n, va + k * 4096 < stop → PageOk pgd writable (va + k * 4096)) ∧
      ((rangeLeaves pgd y stop writable n va).1 = true →
        ∃ j ≤ n, (rangeLeaves pgd y stop writable n va).2 = va + j * 4096 ∧
          (j = n ∨ stop ≤ va + j * 4096)) := by
  induction n generalizing va with
  | zero => exact ⟨⟨fun _ k hk => absurd hk (Nat.not_lt_zero k), fun _ => rfl⟩,
      fun _ => ⟨0, Nat.le_refl _, rfl, .inl rfl⟩⟩
  | succ n ih =>
    rw [rangeLeaves]
    by_cases hlt : va < stop
    swap
    · rw [if_neg hlt]
      exact ⟨⟨fun _ k _ hk => absurd hk (by omega), fun _ => rfl⟩,
        fun _ => ⟨0, Nat.zero_le _, rfl, .inr (by omega)⟩⟩
    rw [if_pos hlt]
    have hva : vaPath va = (y.1, y.2, ix (511 - n)) := by
      have h0 := hpath 0 (Nat.succ_pos n)
      rw [Nat.zero_mul, Nat.add_zero, Nat.add_zero, Nat.add_comm n 1, Nat.sub_add_eq] at h0
      exact h0
    have hpage : PageOk pgd writable va ↔ (!has (pgd.l3 (y.1, y.2, ix (511 - n))) pteValid ||
        !pteUserOk (pgd.l3 (y.1, y.2, ix (511 - n))) writable) = false := by
      have hy1 : l1Idx va = y.1 := congrArg (·.1) hva
      have hy2 : l2Idx va = y.2 := congrArg (·.2.1) hva
      rw [← hva]
      exact pageOk_table (by rw [hy1]; exact h1) (by rw [hy1, hy2]; exact h2)
    -- the pages behind the first one are those of the rest of the loop
    have hnext : ∀ k < n, vaPath (va + pageSize + k * 4096) = (y.1, y.2, ix (512 - n + k)) := by
      intro k hk
      have hk' := hpath (k + 1) (Nat.succ_lt_succ hk)
      rw [show va + (k + 1) * 4096 = va + pageSize + k * 4096 by unfold pageSize; omega,
        show 512 - (n + 1) + (k + 1) = 512 - n + k by omega] at hk'
      exact hk'
    obtain ⟨hiff, hends⟩ := ih hnext (Nat.le_of_succ_le hn)
    dsimp only
    cases hleaf : (!has (pgd.l3 (y.1, y.2, ix (511 - n))) pteValid ||
        !pteUserOk (pgd.l3 (y.1, y.2, ix (511 - n))) writable) with
    | true =>
      rw [if_pos rfl]
      refine ⟨⟨fun h => absurd h Bool.false_ne_true, fun h => ?_⟩, fun h => absurd h Bool.false_ne_true⟩
      have hok := h 0 (Nat.succ_pos n) (by omega)
      rw [Nat.zero_mul, Nat.add_zero, hpage, hleaf] at hok
      exact absurd hok (by decide)
    | false =>
      rw [if_neg (by decide)]
      rw [hleaf] at hpage
      constructor
      · rw [hiff]
        constructor
        · intro h k hk hstop
          cases k with
          | zero =>
            rw [Nat.zero_mul, Nat.add_zero]
            exact hpage.mpr rfl
          | succ k =>
            have heq : va + (k + 1) * 4096 = va + pageSize + k * 4096 := by unfold pageSize; omega
            rw [heq] at hstop ⊢
            exact h k (Nat.lt_of_succ_lt_succ hk) hstop
        · intro h k hk hstop
          have heq : va + pageSize + k * 4096 = va + (k + 1) * 4096 := by unfold pageSize; omega
          rw [heq] at hstop ⊢
          exact h (k + 1) (Nat.succ_lt_succ hk) hstop
      · intro hok
        obtain ⟨j, hj, hva', hend⟩ := hends hok
        have heq : va + (j + 1) * 4096 = va + pageSize + j * 4096 := by unfold pageSize; omega
        exact ⟨j + 1, Nat.succ_le_succ hj, by rw [hva', heq], by omega⟩

/-- All addresses that a level-3 table translates, from `va` on. -/
theorem vaPath_table {va k : ℕ} (halign : va % 4096 = 0) (hk : k < 512 - (l3Idx va).val) :
    vaPath (va + k * 4096) = (l1Idx va, l2Idx va, ix (512 - (512 - (l3Idx va).val) + k)) := by
  have hl3 := l3Idx_val va
  have hdiv : (va + k * 4096) / 0x200000 = va / 0x200000 := by omega
  unfold vaPath
  rw [l1Idx_eq hdiv, l2Idx_eq hdiv]
  refine congrArg (fun i => (l1Idx va, l2Idx va, i)) (Fin.ext ?_)
  rw [l3Idx_val]
  show _ = (512 - (512 - (l3Idx va).val) + k) % 512
  omega

/-- The outer loop goes well exactly if every page of the range does. -/
theorem rangeLoop_iff {fuel va : ℕ} (halign : va % 4096 = 0) (hfuel : stop ≤ va + fuel * 4096) :
    rangeLoop pgd stop writable fuel va = true ↔
      ∀ k, va + k * 4096 < stop → PageOk pgd writable (va + k * 4096) := by
  induction fuel generalizing va with
  | zero => exact ⟨fun _ k hk => absurd hk (by omega), fun _ => rfl⟩
  | succ fuel ih =>
    rw [rangeLoop]
    by_cases hlt : va < stop
    swap
    · rw [if_neg hlt]
      exact ⟨fun _ k hk => absurd hk (by omega), fun _ => rfl⟩
    rw [if_pos hlt]
    have hfirst : (∀ k, va + k * 4096 < stop → PageOk pgd writable (va + k * 4096)) →
        PageOk pgd writable va := by
      intro h
      have h0 := h 0 (by omega)
      rw [Nat.zero_mul, Nat.add_zero] at h0
      exact h0
    cases h1 : pgd.l1 (l1Idx va) with
    | none => exact ⟨fun h => absurd h Bool.false_ne_true, fun h => absurd (hfirst h) (not_pageOk (.inl h1))⟩
    | some page =>
      cases h2 : pgd.l2 (l1Idx va, l2Idx va) with
      | invalid =>
        exact ⟨fun h => absurd h Bool.false_ne_true, fun h => absurd (hfirst h) (not_pageOk (.inr h2))⟩
      | block l2e =>
        dsimp only
        have hva : PageOk pgd writable va ↔ pteUserOk l2e writable = true := pageOk_block h1 h2
        cases hok : pteUserOk l2e writable with
        | false =>
          rw [hok] at hva
          exact ⟨fun h => absurd h Bool.false_ne_true, fun h => absurd (hva.mp (hfirst h)) Bool.false_ne_true⟩
        | true =>
          rw [Bool.not_true, if_neg (by decide), ih (by omega) (by omega)]
          constructor
          · intro h k hk
            by_cases hin : (va + k * 4096) / 0x200000 = va / 0x200000
            · -- a page of the same block
              rw [← l1Idx_eq hin] at h1 h2
              rw [← l2Idx_eq hin] at h2
              exact (pageOk_block h1 h2).mpr hok
            · obtain ⟨j, hj⟩ : ∃ j, va + k * 4096 = va / 0x200000 * 0x200000 + 0x200000 + j * 4096 :=
                ⟨(va + k * 4096 - (va / 0x200000 * 0x200000 + 0x200000)) / 4096, by omega⟩
              rw [hj] at hk ⊢
              exact h j hk
          · intro h j hj
            obtain ⟨k, hk⟩ : ∃ k, va / 0x200000 * 0x200000 + 0x200000 + j * 4096 = va + k * 4096 :=
              ⟨(va / 0x200000 * 0x200000 + 0x200000 + j * 4096 - va) / 4096, by omega⟩
            rw [hk] at hj ⊢
            exact h k hj
      | table page' =>
        dsimp only
        obtain ⟨hiff, hends⟩ := @rangeLeaves_spec pgd writable stop (l1Idx va, l2Idx va)
          (512 - (l3Idx va).val) va page page' (fun k hk => vaPath_table halign hk) (Nat.sub_le _ _) h1 h2
        have hl3 := (l3Idx va).isLt
        cases hok : (rangeLeaves pgd (l1Idx va, l2Idx va) stop writable (512 - (l3Idx va).val) va).1 with
        | false =>
          rw [if_neg (by decide)]
          rw [hok] at hiff
          refine ⟨fun h => absurd h (by decide), fun h => ?_⟩
          exact absurd (hiff.mpr fun k _ hk => h k hk) (by decide)
        | true =>
          rw [if_pos rfl]
          obtain ⟨j, hj, hva, hend⟩ := hends hok
          have hpages := hiff.mp hok
          have hj1 : 1 ≤ j := by omega
          rw [hva, ih (by omega) (by omega)]
          constructor
          · intro h k hk
            by_cases hkj : k < j
            · exact hpages k (by omega) hk
            · obtain ⟨i, rfl⟩ := Nat.exists_eq_add_of_le (Nat.le_of_not_lt hkj)
              have heq : va + (j + i) * 4096 = va + j * 4096 + i * 4096 := by omega
              rw [heq] at hk ⊢
              exact h i hk
          · intro h i hi
            have heq : va + j * 4096 + i * 4096 = va + (j + i) * 4096 := by omega
            rw [heq] at hi ⊢
            exact h (j + i) hi

end Walk

/-- A buffer is accepted exactly if it is there, does not wrap, lies in the user range, and every
page that it touches is mapped with the permission asked for. -/
theorem syscallValidateUserBuffer_iff (pgd : Pgd) (ptr len : BitVec 64) (writable : Bool) :
    syscallValidateUserBuffer (some pgd) ptr len writable = true ↔
      ptr ≠ 0 ∧ len ≠ 0 ∧ ptr.toNat + len.toNat < 2 ^ 64 ∧ ptr.toNat + len.toNat ≤ userVaLimit ∧
        ∀ page, page * pageSize < ptr.toNat + len.toNat → ptr.toNat < (page + 1) * pageSize →
          ∃ paddr flags, mmuUserQuery pgd (page * pageSize) = some (paddr, flags) ∧
            Permits flags writable := by
  unfold syscallValidateUserBuffer
  by_cases hnull : ptr = 0 ∨ len = 0
  · rw [if_pos hnull]
    refine ⟨fun h => absurd h (by decide), fun h => ?_⟩
    exact absurd hnull (not_or.mpr ⟨h.1, h.2.1⟩)
  rw [if_neg hnull]
  rw [not_or] at hnull
  have hlen : 0 < len.toNat := Nat.pos_of_ne_zero fun h => hnull.2 (BitVec.toNat_inj.mp h)
  have hptr := ptr.isLt
  have hlenlt := len.isLt
  dsimp only
  by_cases hwrap : ptr.toNat + len.toNat < 2 ^ 64
  swap
  · have hlt : ptr + len < ptr := by
      rw [BitVec.lt_def, BitVec.toNat_add]
      omega
    rw [if_pos (.inl hlt)]
    exact ⟨fun h => absurd h (by decide), fun h => absurd h.2.2.1 hwrap⟩
  have hstop : (ptr + len).toNat = ptr.toNat + len.toNat := by
    rw [BitVec.toNat_add, Nat.mod_eq_of_lt hwrap]
  rw [hstop]
  by_cases hlimit : ptr.toNat + len.toNat ≤ userVaLimit
  swap
  · rw [if_pos (.inr (.inr (Nat.lt_of_not_le hlimit)))]
    exact ⟨fun h => absurd h (by decide), fun h => absurd h.2.2.2.1 hlimit⟩
  have hkernel : userVaLimit < kernelVma := by decide
  have hno : ¬ (ptr + len < ptr ∨ ptr.toNat + len.toNat > kernelVma ∨
      ptr.toNat + len.toNat > userVaLimit) := by
    rw [BitVec.lt_def, hstop]
    omega
  rw [if_neg hno, mmuUserRangeOk]
  dsimp only
  rw [if_neg (by omega), rangeLoop_iff (by unfold pageSize; omega) (by unfold pageSize; omega)]
  constructor
  · intro h
    refine ⟨hnull.1, hnull.2, hwrap, hlimit, fun page hbelow habove => ?_⟩
    obtain ⟨k, hk⟩ : ∃ k, page * pageSize = ptr.toNat / pageSize * pageSize + k * 4096 := by
      unfold pageSize at habove ⊢
      exact ⟨page - ptr.toNat / 4096, by omega⟩
    rw [hk] at hbelow ⊢
    exact h k hbelow
  · rintro ⟨-, -, -, -, h⟩ k hk
    have hpage : ptr.toNat / pageSize * pageSize + k * 4096 = (ptr.toNat / pageSize + k) * pageSize := by
      unfold pageSize
      omega
    rw [hpage] at hk ⊢
    refine h _ hk ?_
    unfold pageSize
    omega

end Perspicua.Mm
