import Perspicua.Core.VaRegions
import Perspicua.Mm.MmuBalance
import Perspicua.Mm.Translation

/-!
# mmap

`mmap_handler` down to the page tables, with the framebuffer as the one device that can be
mapped. The process is there, as `Core.Syscall` checks; what is in the pages is left out.

An `mmap` that fails takes back what it did: it unmaps the whole region, as far as it was mapped,
and gives the region back. What stays are tables that were added for it, which are still tables
of the address space.
-/

namespace Perspicua.Core.Mmap

open Perspicua.Lib Perspicua.Mm
open Perspicua.Core.Syscall (VaRegion VaOk Allocated processVaAlloc processVaFree mmapBadFd err enomem
  einval ebadf enodev userVaBase userVaLimit)

/-! ## The handler -/

/-- What `fb_init` learns from the GPU: `mbox[19] & 0x3FFFFFFF` and `mbox[20]`. -/
structure FbInfo where
  phys : ℕ
  size : ℕ
  phys_lt : phys < 2 ^ 30
  size_lt : size < 2 ^ 32

/-- The framebuffer, if there is one, and the descriptors that are open on it. -/
structure Env where
  fb : Option FbInfo
  hasMmap : ℕ → Bool

/-- What the handler works on. -/
structure Space where
  va : List VaRegion
  pgd : Pgd
  pmm : Pmm

/-- `MMU_PAGE_USER_DATA`, which the handler spells out. -/
def anonymousFlags : Word := 0x60000000000F43

/-- `MMU_FLAGS_FRAMEBUFFER | MMU_AP_USER | MMU_PTE_NG` -/
def fbFlags : Word := 0x60000000000F48

/-- Without `PROT_WRITE` a page is read-only. -/
def withProt (flags : Word) (prot : BitVec 32) : Word :=
  if prot &&& 0x2#32 = 0 then flags ||| apRo else flags

def pagesNeeded (length : BitVec 64) : BitVec 64 := (length + 4096 - 1) / 4096

/-- The loop over the pages of an anonymous mapping: `n` of them are left, from page `i`. -/
def anonymousPages (region : ℕ) (flags : Word) : ℕ → ℕ → Pgd → Pmm → Except Panic (Bool × Pgd × Pmm)
  | 0, _, pgd, pmm => .ok (true, pgd, pmm)
  | n + 1, i, pgd, pmm => do
    match ← allocPage pmm with
    | (none, pmm) => .ok (false, pgd, pmm)
    | (some kaddr, pmm) =>
      match ← mmuUserMapPage pmm pgd (region + i * pageSize) (v2p kaddr) flags with
      | (false, pgd, pmm) => do
        let pmm ← pmm.pmmFreePages kaddr
        .ok (false, pgd, pmm)
      | (true, pgd, pmm) => anonymousPages region flags n (i + 1) pgd pmm

/-- The loop of `fb_mmap`. -/
def fbPages (vaddr phys : ℕ) (attrs : Word) : ℕ → ℕ → Pgd → Pmm → Except Panic (Bool × Pgd × Pmm)
  | 0, _, pgd, pmm => .ok (true, pgd, pmm)
  | n + 1, i, pgd, pmm => do
    match ← mmuUserMapPage pmm pgd (vaddr + i * pageSize) (phys + i * pageSize) attrs with
    | (false, pgd, pmm) => .ok (false, pgd, pmm)
    | (true, pgd, pmm) => fbPages vaddr phys attrs n (i + 1) pgd pmm

def fbMmap (fb : Option FbInfo) (vaddr length : ℕ) (prot : BitVec 32) (pgd : Pgd) (pmm : Pmm) :
    Except Panic (ℤ × Pgd × Pmm) :=
  match fb with
  | none => .ok (-enodev, pgd, pmm)
  | some fb =>
    if fb.size = 0 then .ok (-enodev, pgd, pmm)
    else if length > fb.size then .ok (-einval, pgd, pmm)
    else
      (fbPages vaddr fb.phys (withProt fbFlags prot) ((length + pageSize - 1) / pageSize) 0 pgd pmm).map
        fun r => (if r.1 then 0 else -enomem, r.2)

/-- The loop behind the label `mmap_fail`. -/
def unmapPages (region : ℕ) : ℕ → ℕ → Pgd → Pmm → Except Panic (Pgd × Pmm)
  | 0, _, pgd, pmm => .ok (pgd, pmm)
  | n + 1, j, pgd, pmm => do
    let (pgd, pmm) ← mmuUserUnmapPage pmm pgd (region + j * pageSize)
    unmapPages region n (j + 1) pgd pmm

def mmapFail (s : Space) (region pages : BitVec 64) (failErr : ℤ) : Except Panic (BitVec 64 × Space) := do
  let (pgd, pmm) ← unmapPages region.toNat pages.toNat 0 s.pgd s.pmm
  .ok (BitVec.ofInt 64 failErr, { va := processVaFree s.va region, pgd := pgd, pmm := pmm })

/-- `mmap_handler` once the region is reserved. -/
def mmapRegion (env : Env) (s : Space) (length region : BitVec 64) (prot : BitVec 32) (anonymous : Bool) :
    Except Panic (BitVec 64 × Space) := do
  let pages := pagesNeeded length
  if anonymous then
    let (ok, pgd, pmm) ←
      anonymousPages region.toNat (withProt anonymousFlags prot) pages.toNat 0 s.pgd s.pmm
    let s := { s with pgd := pgd, pmm := pmm }
    if ok then .ok (region, s) else mmapFail s region pages (-enomem)
  else
    let (mres, pgd, pmm) ← fbMmap env.fb region.toNat length.toNat prot s.pgd s.pmm
    let s := { s with pgd := pgd, pmm := pmm }
    if mres < 0 then mmapFail s region pages mres else .ok (region, s)

def mmapHandler (env : Env) (s : Space) (length : BitVec 64) (prot flags : BitVec 32) (fd : ℤ) :
    Except Panic (BitVec 64 × Space) :=
  if length = 0 ∨ length > 0x10000000#64 then .ok (err einval, s)
  else
    let anonymous : Bool := flags &&& 0x20#32 ≠ 0
    if mmapBadFd anonymous fd then .ok (err ebadf, s)
    else if !anonymous && !env.hasMmap fd.toNat then .ok (err enodev, s)
    else
      match processVaAlloc s.va (pagesNeeded length) with
      | none => .ok (err enomem, s)
      | some (region, va) => mmapRegion env { s with va := va } length region prot anonymous

/-! ## Address spaces -/

/-- What holds of the address space of a process between two calls: its regions are in order, the
tables are well formed, every table and leaf of it is referenced, and above the image nothing is
mapped outside the regions. -/
structure Space.Ok (g : Pmm) (refs : Block → ℕ) (s : Space) : Prop where
  va : VaOk s.va
  aligned : ∀ r ∈ s.va, r.start % 4096 = 0
  pgd : s.pgd.Ok g
  same : g.SameRanges s.pmm
  pmm : s.pmm.PmmInv refs
  backed : Backed g refs s.pgd
  covered : ∀ va, userVaBase.toNat ≤ va → va < userVaLimit.toNat → mmuUserQuery s.pgd va ≠ none →
    ∃ r ∈ s.va, r.start ≤ va ∧ va < r.stop

/-- The framebuffer is among the ranges that were reserved at boot. -/
def Env.Reserved (g : Pmm) (env : Env) : Prop :=
  ∀ fb, env.fb = some fb → fb.size ≠ 0 → Pmm.Recorded g.reservedRanges fb.phys (fb.phys + fb.size)

/-! ## The loops -/

/-- The paths of the pages of a region. -/
def regionPaths (region n i : ℕ) : Set (Ix × Ix × Ix) :=
  {x | ∃ j, i ≤ j ∧ j < i + n ∧ x = vaPath (region + j * pageSize)}

theorem regionPaths_succ {region n i : ℕ} {x : Ix × Ix × Ix} (hx : x ∉ regionPaths region (n + 1) i) :
    x ≠ vaPath (region + i * pageSize) ∧ x ∉ regionPaths region n (i + 1) := by
  refine ⟨fun he => hx ⟨i, Nat.le_refl i, by omega, he⟩, ?_⟩
  rintro ⟨j, hle, hlt, he⟩
  exact hx ⟨j, by omega, by omega, he⟩

section Loops

variable {g pmm pmm' : Pmm} {refs : Block → ℕ} {pgd base pgd' : Pgd} {done : Bool}

theorem withProt_mask {flags : Word} (h : flags &&& pteAddrMask = 0#64) (prot : BitVec 32) :
    withProt flags prot &&& pteAddrMask = 0#64 := by
  unfold withProt
  split
  · rw [BitVec.and_or_distrib_right, h]
    decide
  · exact h

/-- However far an anonymous mapping gets, the references are those of the leaves it made. -/
theorem anonymousPages_accounted {region n i : ℕ} {flags : Word} (hflags : flags &&& pteAddrMask = 0#64)
    (hback : Backed g refs pgd) (hpages : g.numPages ≤ 2 ^ 27)
    (h : Accounted g refs pgd (fun _ => 0) base pmm)
    (hok : anonymousPages region flags n i base pmm = .ok (done, pgd', pmm')) :
    Accounted g refs pgd (fun _ => 0) pgd' pmm' ∧ ∀ x ∉ regionPaths region n i, pgd'.l3 x = base.l3 x := by
  induction n generalizing i base pmm with
  | zero =>
    cases hok
    exact ⟨h, fun _ _ => rfl⟩
  | succ n ih =>
    unfold anonymousPages at hok
    obtain ⟨⟨r, pmm1⟩, ha, hok⟩ := bind_eq_ok.mp hok
    rcases h.alloc hback hpages ha with ⟨rfl, h1⟩ | ⟨kaddr, rfl, hpage, -, h1⟩
    · cases hok
      exact ⟨h1, fun _ _ => rfl⟩
    obtain ⟨⟨mapped, pgd2, pmm2⟩, hm, hok⟩ := bind_eq_ok.mp hok
    obtain ⟨h2, hdone, hfail⟩ := h1.map (fun _ => 0) hback hpages
      (fun b => by rw [leafOne_mapWord hpage hflags]) hm
    cases mapped with
    | false =>
      -- the page that has no leaf goes back
      obtain ⟨pmm3, hf, hok⟩ := bind_eq_ok.mp hok
      cases hok
      rw [if_neg Bool.false_ne_true] at h2
      exact ⟨h2.free hback hpage.managed hf, fun x _ => congrFun (hfail rfl) x⟩
    | true =>
      obtain ⟨h3, hout⟩ := ih h2 hok
      refine ⟨h3, fun x hx => ?_⟩
      obtain ⟨hne, hx'⟩ := regionPaths_succ hx
      rw [hout x hx', hdone rfl, Function.update_of_ne hne]

/-- The words of a range that is reserved refer to no page of the allocator. -/
theorem leafOne_reserved {phys size a : ℕ} {flags : Word} (hflags : flags &&& pteAddrMask = 0#64)
    (hrec : Pmm.Recorded g.reservedRanges phys (phys + size)) (hn : g.numPages < pmmPfnNull)
    (hlt : phys + size ≤ 2 ^ 48) (hle : phys ≤ a) (ha : a < phys + size) (b : Block) :
    leafOne g b (mapWord a flags) = 0 := by
  apply leafOne_of_not
  rintro ⟨-, hm⟩
  have hpfn : a / pageSize < 2 ^ 36 := by
    unfold pageSize
    omega
  have haddr : pteAddr (mapWord a flags) = a / pageSize * pageSize := by
    rw [← pteAddr_mapWord hpfn hflags]
    unfold mapWord
    rw [ofNat_and_addrMask_page (by omega), ofNat_and_addrMask hpfn]
  have hv : v2p (ptePtr (mapWord a flags)) = a / pageSize * pageSize := by
    unfold ptePtr
    rw [haddr]
    exact Pmm.v2p_p2v (by unfold pageSize at hpfn ⊢; omega)
  obtain ⟨-, hno⟩ := Pmm.pmmIsManaged_iff.mp hm
  rw [hv, Nat.mul_div_cancel _ (by decide), Bool.or_eq_true, decide_eq_true_eq, not_or] at hno
  refine hno.2 (Pmm.reserved_of_recorded hrec hn (by omega) ?_ ?_)
  · unfold pageSize
    omega
  · unfold pageSize
    omega

/-- The same for the framebuffer, whose leaves refer to nothing. -/
theorem fbPages_accounted {vaddr phys size n i : ℕ} {attrs : Word} (hattrs : attrs &&& pteAddrMask = 0#64)
    (hrec : Pmm.Recorded g.reservedRanges phys (phys + size)) (hn : g.numPages < pmmPfnNull)
    (hlt : phys + size ≤ 2 ^ 48) (hsize : ∀ j < i + n, j * pageSize < size)
    (hback : Backed g refs pgd) (hpages : g.numPages ≤ 2 ^ 27)
    (h : Accounted g refs pgd (fun _ => 0) base pmm)
    (hok : fbPages vaddr phys attrs n i base pmm = .ok (done, pgd', pmm')) :
    Accounted g refs pgd (fun _ => 0) pgd' pmm' ∧ ∀ x ∉ regionPaths vaddr n i, pgd'.l3 x = base.l3 x := by
  induction n generalizing i base pmm with
  | zero =>
    cases hok
    exact ⟨h, fun _ _ => rfl⟩
  | succ n ih =>
    unfold fbPages at hok
    obtain ⟨⟨mapped, pgd1, pmm1⟩, hm, hok⟩ := bind_eq_ok.mp hok
    have hi := hsize i (by omega)
    obtain ⟨h1, hdone, hfail⟩ := h.map (fun _ => 0) hback hpages
      (fun b => by rw [leafOne_reserved hattrs hrec hn hlt (Nat.le_add_right _ _) (by omega)]) hm
    cases mapped with
    | false =>
      cases hok
      exact ⟨h1, fun x _ => congrFun (hfail rfl) x⟩
    | true =>
      obtain ⟨h2, hout⟩ := ih (fun j hj => hsize j (by omega)) h1 hok
      refine ⟨h2, fun x hx => ?_⟩
      obtain ⟨hne, hx'⟩ := regionPaths_succ hx
      rw [hout x hx', hdone rfl, Function.update_of_ne hne]

/-- The loop that takes a mapping back leaves no valid leaf in the region. -/
theorem unmapPages_accounted {region n j : ℕ} (hback : Backed g refs pgd)
    (h : Accounted g refs pgd (fun _ => 0) base pmm)
    (hok : unmapPages region n j base pmm = .ok (pgd', pmm')) :
    Accounted g refs pgd (fun _ => 0) pgd' pmm' ∧
      (∀ x ∉ regionPaths region n j, pgd'.l3 x = base.l3 x) ∧
      (∀ x, has (base.l3 x) pteValid = false → has (pgd'.l3 x) pteValid = false) ∧
      ∀ x ∈ regionPaths region n j, has (pgd'.l3 x) pteValid = false := by
  induction n generalizing j base pmm with
  | zero =>
    cases hok
    refine ⟨h, fun _ _ => rfl, fun _ => id, ?_⟩
    rintro x ⟨k, hle, hlt, -⟩
    omega
  | succ n ih =>
    unfold unmapPages at hok
    obtain ⟨⟨pgd1, pmm1⟩, hu, hok⟩ := bind_eq_ok.mp hok
    obtain ⟨h1, hclear, hother⟩ := h.unmap hback hu
    obtain ⟨h2, hout, hkeep, hin⟩ := ih h1 hok
    have hinvalid : ∀ x, has (base.l3 x) pteValid = false → has (pgd1.l3 x) pteValid = false := by
      intro x hx
      by_cases he : x = vaPath (region + j * pageSize)
      · rw [he]
        exact hclear
      · rw [hother x he]
        exact hx
    refine ⟨h2, fun x hx => ?_, fun x hx => hkeep x (hinvalid x hx), ?_⟩
    · obtain ⟨hne, hx'⟩ := regionPaths_succ hx
      rw [hout x hx', hother x hne]
    · rintro x ⟨k, hle, hlt, rfl⟩
      by_cases hkj : k = j
      · subst hkj
        exact hkeep _ hclear
      · exact hin _ ⟨k, by omega, by omega, rfl⟩

end Loops

/-! ## Failure -/

section Failure

variable {g : Pmm} {refs : Block → ℕ} {env : Env} {s s' : Space} {region length ret : BitVec 64}
  {prot flags : BitVec 32} {fd : ℤ}

/-- A state in which only leaves of the region were made. -/
structure Partly (g : Pmm) (refs : Block → ℕ) (pgd : Pgd) (region pages : ℕ) (pgd' : Pgd) (pmm' : Pmm) :
    Prop where
  accounted : Accounted g refs pgd (fun _ => 0) pgd' pmm'
  outside : ∀ x ∉ regionPaths region pages 0, pgd'.l3 x = pgd.l3 x

/-- What an error leaves: the regions, all translations and all references but those of tables. -/
structure Restored (refs : Block → ℕ) (s s' : Space) : Prop where
  va : s'.va = s.va
  query : ∀ va, mmuUserQuery s'.pgd va = mmuUserQuery s.pgd va
  refs : ∃ refs', s'.pmm.PmmInv refs' ∧ ∀ b, refs' b + s.pgd.tables b = refs b + s'.pgd.tables b

theorem restored_refl (h : s.Ok g refs) : Restored refs s s :=
  ⟨rfl, fun _ => rfl, refs, h.pmm, fun _ => rfl⟩

/-- The pages of a region that was just reserved are not mapped. -/
theorem region_unmapped {pages : BitVec 64} {k : ℕ} (h : s.Ok g refs)
    (halloc : Allocated s.va pages region k) {x : Ix × Ix × Ix}
    (hx : x ∈ regionPaths region.toNat pages.toNat 0) : has (s.pgd.l3 x) pteValid = false := by
  obtain ⟨j, -, hlt, rfl⟩ := hx
  have hlow := halloc.low
  have hbound := halloc.bound
  have hend : region.toNat + j * pageSize < region.toNat + pages.toNat * 4096 := by
    unfold pageSize
    omega
  rw [← h.pgd.query_eq_none]
  by_contra hmapped
  obtain ⟨r, hr, hstart, hstop⟩ := h.covered _ (by omega) (by omega) hmapped
  have hfits := halloc.fits.2.2 r hr
  omega

/-- The label `mmap_fail` undoes any part of a mapping. -/
theorem mmapFail_restored {pages : BitVec 64} {k : ℕ} {pgd' : Pgd} {pmm' : Pmm} {failErr : ℤ}
    (h : s.Ok g refs) (halloc : Allocated s.va pages region k)
    (hpart : Partly g refs s.pgd region.toNat pages.toNat pgd' pmm')
    (hok : mmapFail { va := s.va.insertIdx k ⟨region, pages⟩, pgd := pgd', pmm := pmm' } region pages
      failErr = .ok (ret, s')) :
    Restored refs s s' ∧ Accounted g refs s.pgd (fun _ => 0) s'.pgd s'.pmm := by
  unfold mmapFail at hok
  obtain ⟨⟨pgd2, pmm2⟩, hu, hok⟩ := bind_eq_ok.mp hok
  cases hok
  obtain ⟨hacc, hout, -, hin⟩ := unmapPages_accounted h.backed hpart.accounted hu
  have hleaf : ∀ x, pgd2.l3 x = s.pgd.l3 x ∨
      has (pgd2.l3 x) pteValid = false ∧ has (s.pgd.l3 x) pteValid = false := by
    intro x
    by_cases hx : x ∈ regionPaths region.toNat pages.toNat 0
    · exact .inr ⟨hin x hx, region_unmapped h halloc hx⟩
    · exact .inl ((hout x hx).trans (hpart.outside x hx))
  refine ⟨⟨halloc.free_eq h.va, fun va => ?_, ?_⟩, hacc⟩
  · rw [hacc.ok.query_eq, h.pgd.query_eq]
    rcases hleaf (vaPath va) with heq | ⟨h1, h2⟩
    · rw [heq]
    · rw [h1, h2]
      rfl
  · obtain ⟨refs', hinv, heq⟩ := hacc.refs
    refine ⟨refs', hinv, fun b => ?_⟩
    have hb := heq b
    have hcount : pgd2.count (leafOne g b) = s.pgd.count (leafOne g b) := by
      rw [hacc.ok.count_eq (leafOne_zero g b), h.pgd.count_eq (leafOne_zero g b)]
      refine finsum_congr fun x => ?_
      rcases hleaf x with heq | ⟨h1, h2⟩
      · rw [heq]
      · rw [leafOne_of_not (by rw [h1]; simp), leafOne_of_not (by rw [h2]; simp)]
    unfold Pgd.holds at hb
    show refs' b + s.pgd.tables b = refs b + pgd2.tables b
    omega

theorem pagesNeeded_toNat (hlen : ¬ length > 0x10000000#64) :
    (pagesNeeded length).toNat = (length.toNat + pageSize - 1) / pageSize := by
  have hle : length.toNat ≤ 0x10000000 := by
    rw [gt_iff_lt, BitVec.lt_def] at hlen
    exact Nat.not_lt.mp hlen
  have hsum : (length + 4096 - 1).toNat = length.toNat + 4095 := by
    rw [BitVec.toNat_sub, BitVec.toNat_add]
    show (2 ^ 64 - 1 + (length.toNat + 4096) % 2 ^ 64) % 2 ^ 64 = _
    omega
  unfold pagesNeeded
  rw [BitVec.toNat_udiv, hsum]
  rfl

/-- A mapping of the framebuffer, as far as it gets. -/
theorem fbMmap_partly {vaddr n : ℕ} {mres : ℤ} {pgd' : Pgd} {pmm' : Pmm} (h : s.Ok g refs)
    (hpages : g.numPages ≤ 2 ^ 27) (hfb : env.Reserved g)
    (hok : fbMmap env.fb vaddr n prot s.pgd s.pmm = .ok (mres, pgd', pmm')) :
    Partly g refs s.pgd vaddr ((n + pageSize - 1) / pageSize) pgd' pmm' := by
  have hstart := accounted_start h.pgd h.same h.pmm
  unfold fbMmap at hok
  split at hok
  · cases hok
    exact ⟨hstart, fun _ _ => rfl⟩
  rename_i fb hsome
  split at hok
  · cases hok
    exact ⟨hstart, fun _ _ => rfl⟩
  rename_i hsize
  split at hok
  · cases hok
    exact ⟨hstart, fun _ _ => rfl⟩
  rename_i hlen
  obtain ⟨⟨done, r⟩, hloop, he⟩ := map_eq_ok.mp hok
  cases he
  have hn : g.numPages < pmmPfnNull := by
    rw [← h.same.1]
    exact h.pmm.core.pages_lt
  have hroom : fb.phys + fb.size ≤ 2 ^ 48 := by
    have h1 := fb.phys_lt
    have h2 := fb.size_lt
    omega
  have hpage : ∀ j < 0 + (n + pageSize - 1) / pageSize, j * pageSize < fb.size := by
    intro j hj
    unfold pageSize at hj ⊢
    omega
  obtain ⟨hacc, hout⟩ := fbPages_accounted (withProt_mask (by decide) prot) (hfb fb hsome hsize) hn hroom
    hpage h.backed hpages hstart hloop
  exact ⟨hacc, hout⟩

/-- What the handler does with a region it has reserved: it maps the pages of the region, or it
gives everything back. -/
theorem mmapRegion_spec {anonymous : Bool} {k : ℕ} (h : s.Ok g refs) (hpages : g.numPages ≤ 2 ^ 27)
    (hfb : env.Reserved g) (hlen : ¬ length > 0x10000000#64)
    (halloc : Allocated s.va (pagesNeeded length) region k)
    (hok : mmapRegion env { s with va := s.va.insertIdx k ⟨region, pagesNeeded length⟩ } length region prot
      anonymous = .ok (ret, s')) :
    (ret = region ∧ s'.va = s.va.insertIdx k ⟨region, pagesNeeded length⟩ ∧
      Partly g refs s.pgd region.toNat (pagesNeeded length).toNat s'.pgd s'.pmm) ∨
    Restored refs s s' ∧ Accounted g refs s.pgd (fun _ => 0) s'.pgd s'.pmm := by
  unfold mmapRegion at hok
  dsimp only at hok
  cases anonymous with
  | true =>
    rw [if_pos rfl] at hok
    obtain ⟨⟨done, pgd1, pmm1⟩, hloop, hok⟩ := bind_eq_ok.mp hok
    obtain ⟨hacc, hout⟩ := anonymousPages_accounted (withProt_mask (by decide) prot) h.backed hpages
      (accounted_start h.pgd h.same h.pmm) hloop
    cases done with
    | true =>
      cases hok
      exact .inl ⟨rfl, rfl, hacc, hout⟩
    | false => exact .inr (mmapFail_restored h halloc ⟨hacc, hout⟩ hok)
  | false =>
    rw [if_neg Bool.false_ne_true] at hok
    obtain ⟨⟨mres, pgd1, pmm1⟩, hmap, hok⟩ := bind_eq_ok.mp hok
    have hpart := fbMmap_partly h hpages hfb hmap
    rw [← pagesNeeded_toNat hlen] at hpart
    dsimp only at hok
    split at hok
    · exact .inr (mmapFail_restored h halloc hpart hok)
    · cases hok
      exact .inl ⟨rfl, rfl, hpart⟩

/-- All the handler can do. -/
theorem mmapHandler_spec (h : s.Ok g refs) (hpages : g.numPages ≤ 2 ^ 27) (hfb : env.Reserved g)
    (hok : mmapHandler env s length prot flags fd = .ok (ret, s')) :
    (∃ k, Allocated s.va (pagesNeeded length) ret k ∧
      s'.va = s.va.insertIdx k ⟨ret, pagesNeeded length⟩ ∧
      Partly g refs s.pgd ret.toNat (pagesNeeded length).toNat s'.pgd s'.pmm) ∨
    Restored refs s s' ∧ Accounted g refs s.pgd (fun _ => 0) s'.pgd s'.pmm := by
  have hsame : Restored refs s s ∧ Accounted g refs s.pgd (fun _ => 0) s.pgd s.pmm :=
    ⟨restored_refl h, accounted_start h.pgd h.same h.pmm⟩
  unfold mmapHandler at hok
  split at hok
  · cases hok
    exact .inr hsame
  rename_i hlen
  rw [not_or] at hlen
  dsimp only at hok
  split at hok
  · cases hok
    exact .inr hsame
  split at hok
  · cases hok
    exact .inr hsame
  rcases h.va.alloc_cases (pagesNeeded length) with ⟨hnone, -⟩ | ⟨region, k, hsome, halloc⟩
  · rw [hnone] at hok
    cases hok
    exact .inr hsame
  · rw [hsome] at hok
    rcases mmapRegion_spec h hpages hfb hlen.2 halloc hok with ⟨rfl, hva, hpart⟩ | hrest
    · exact .inl ⟨k, halloc, hva, hpart⟩
    · exact .inr hrest

/-- An error leaves the regions and every translation as they were, and no reference besides those
of tables that were added. -/
theorem mmap_error_restores (h : s.Ok g refs) (hpages : g.numPages ≤ 2 ^ 27) (hfb : env.Reserved g)
    (hok : mmapHandler env s length prot flags fd = .ok (ret, s')) (herr : ret.slt 0#64 = true) :
    s'.va = s.va ∧ (∀ va, mmuUserQuery s'.pgd va = mmuUserQuery s.pgd va) ∧
      ∃ refs', s'.pmm.PmmInv refs' ∧ ∀ b, refs' b + s.pgd.tables b = refs b + s'.pgd.tables b := by
  rcases mmapHandler_spec h hpages hfb hok with ⟨k, halloc, -⟩ | ⟨hrest, -⟩
  · -- a region is below `USER_VA_LIMIT`, and so not negative
    have hbound := halloc.bound
    have hlimit : userVaLimit.toNat = 2 ^ 39 := rfl
    rw [BitVec.slt_zero_iff_msb_cond, BitVec.msb_eq_true_iff_two_mul_ge] at herr
    omega
  · exact ⟨hrest.va, hrest.query, hrest.refs⟩

end Failure

/-! ## The invariant along calls -/

/-- The address space of `mmu_create_user_pgd`, before anything is mapped. -/
theorem Space.Ok.fresh {pmm pmm' : Pmm} {refs : Block → ℕ} {page : ℕ} (h : pmm.PmmInv refs)
    (hpages : pmm.numPages ≤ 2 ^ 27) (hok : allocUserTablePage pmm = .ok (some page, pmm')) :
    Space.Ok pmm (fun b => refs b + one b page) { va := [], pgd := Pgd.empty page, pmm := pmm' } := by
  rcases allocPage_exact h hpages hok with ⟨hr, -⟩ | ⟨ptr, hr, hpage, -, hinv, hsame⟩
  · cases hr
  cases hr
  have hempty := Pgd.Ok.empty hpage
  refine ⟨Syscall.vaOk_nil, by simp, hempty, hsame, hinv, fun b => ?_, fun va _ _ hmapped => ?_⟩
  · unfold Pgd.holds
    rw [Pgd.tables_empty, Pgd.Ok.count_empty hpage (leafOne_zero pmm b)]
    omega
  · exact absurd ((hempty.query_eq_none).mpr (show has 0#64 pteValid = false by decide)) hmapped

section Keep

variable {g : Pmm} {refs : Block → ℕ} {env : Env} {s s' : Space} {length ret : BitVec 64}
  {prot flags : BitVec 32} {fd : ℤ}

end Keep

/-- Eight pages of anonymous memory on a machine that has fewer. -/
theorem mmap_error_restores_small : ∃ g refs s ret s', s.Ok g refs ∧
    mmapHandler ⟨none, fun _ => false⟩ s 0x8000 0 0x20 (-1) = .ok (ret, s') ∧ ret.slt 0#64 = true ∧
    s'.va = s.va ∧ (∀ va, mmuUserQuery s'.pgd va = mmuUserQuery s.pgd va) ∧
      ∃ refs', s'.pmm.PmmInv refs' ∧ ∀ b, refs' b + s.pgd.tables b = refs b + s'.pgd.tables b := by
  have hrun : (do
      let pmm ← Pmm.boot.pmmInit 0x8000 kernelVma
      let r ← allocUserTablePage pmm
      let q ← mmapHandler ⟨none, fun _ => false⟩
        { va := [], pgd := Pgd.empty (r.1.getD 0), pmm := r.2 } 0x8000 0 0x20 (-1)
      .ok (r.1.isSome, q.1.slt 0#64) : Except Panic (Bool × Bool)) = .ok (true, true) := by
    decide +kernel
  obtain ⟨pmm, hinit, hrun⟩ := bind_eq_ok.mp hrun
  obtain ⟨⟨r, pmm'⟩, halloc, hrun⟩ := bind_eq_ok.mp hrun
  obtain ⟨⟨ret, s'⟩, hmmap, hrun⟩ := bind_eq_ok.mp hrun
  obtain ⟨hpage, hret⟩ := Prod.mk.inj (Except.ok.inj hrun)
  obtain ⟨page, rfl⟩ := Option.isSome_iff_exists.mp hpage
  obtain ⟨hinv, -, hpages⟩ := Pmm.pmmInit_inv rfl hinit
  have hpages' : pmm.numPages ≤ 2 ^ 27 := by
    rw [hpages]
    decide
  have hok := Space.Ok.fresh hinv hpages' halloc
  exact ⟨pmm, _, _, ret, s', hok, hmmap, hret,
    mmap_error_restores hok hpages' (fun fb hfb => by cases hfb) hmmap hret⟩

end Perspicua.Core.Mmap
