import Perspicua.Mm.MmuBalance
import Perspicua.Mm.Translation

/-!
# The memory of an address space

A user address space that is being built, as `elf_load`, `setup_user_stack` and `process_exec`
build it: its tables, the allocator and physical memory. Every page gets a frame of its own, so
what is written to one page shows nowhere else.
-/

namespace Perspicua.Mm

open Perspicua.Lib

/-- The tables of one address space, the allocator, and physical memory. -/
structure UserMem where
  pgd : Pgd
  pmm : Pmm
  mem : ℕ → UInt8

namespace UserMem

/-- `memset(page, 0, PAGE_SIZE)` at a physical address. -/
def zeroPage (mem : ℕ → UInt8) (pa : ℕ) : ℕ → UInt8 :=
  fun a => if pa ≤ a ∧ a < pa + pageSize then 0 else mem a

theorem zeroPage_of_mem {mem : ℕ → UInt8} {pa a : ℕ} (h : pa ≤ a ∧ a < pa + pageSize) :
    zeroPage mem pa a = 0 := if_pos h

theorem zeroPage_of_not_mem {mem : ℕ → UInt8} {pa a : ℕ} (h : ¬ (pa ≤ a ∧ a < pa + pageSize)) :
    zeroPage mem pa a = mem a := if_neg h

/-- Bytes stored from a physical address on. -/
def store (mem : ℕ → UInt8) (pa : ℕ) (bytes : List UInt8) : ℕ → UInt8 :=
  fun a => if pa ≤ a ∧ a < pa + bytes.length then bytes.getD (a - pa) 0 else mem a

/-- The byte that user mode reads at an address. -/
def byte (m : UserMem) (va : ℕ) : Option UInt8 := (mmuUserQuery m.pgd va).map fun r => m.mem r.1

/-- The flags of the page of an address. -/
def flags (m : UserMem) (va : ℕ) : Option Word := (mmuUserQuery m.pgd va).map Prod.snd

/-- Allocate a page, zero it and map it. The result is the kernel's pointer to the page; a page that
could not be mapped is given back. -/
def mapFreshPage (m : UserMem) (va : ℕ) (flags : Word) : Except Panic (Option ℕ × UserMem) := do
  match ← allocPage m.pmm with
  | (none, pmm) => .ok (none, { m with pmm := pmm })
  | (some kaddr, pmm) =>
    let mem := zeroPage m.mem (v2p kaddr)
    match ← mmuUserMapPage pmm m.pgd va (v2p kaddr) flags with
    | (false, pgd, pmm) => do
      let pmm ← pmm.pmmFreePages kaddr
      .ok (none, ⟨pgd, pmm, mem⟩)
    | (true, pgd, pmm) => .ok (some kaddr, ⟨pgd, pmm, mem⟩)

/-- Every leaf has a frame of its own, which the allocator gave out for it. -/
structure Owns (g : Pmm) (refs : Block → ℕ) (pgd₀ : Pgd) (m : UserMem) : Prop where
  backed : Backed g refs pgd₀
  pages : g.numPages ≤ 2 ^ 27
  accounted : Accounted g refs pgd₀ (fun _ => 0) m.pgd m.pmm
  isPage : ∀ x, has (m.pgd.l3 x) pteValid = true → IsPage g (ptePtr (m.pgd.l3 x))
  inj : ∀ x y, has (m.pgd.l3 x) pteValid = true → has (m.pgd.l3 y) pteValid = true →
    ptePtr (m.pgd.l3 x) = ptePtr (m.pgd.l3 y) → x = y

/-- The empty address space of `mmu_create_user_pgd`. -/
theorem Owns.fresh {pmm pmm' : Pmm} {refs : Block → ℕ} {page : ℕ} (h : pmm.PmmInv refs)
    (hpages : pmm.numPages ≤ 2 ^ 27) (hok : allocUserTablePage pmm = .ok (some page, pmm')) (mem : ℕ → UInt8) :
    Owns pmm (fun b => refs b + one b page) (Pgd.empty page) ⟨Pgd.empty page, pmm', mem⟩ := by
  rcases allocPage_exact h hpages hok with ⟨hr, -⟩ | ⟨ptr, hr, hpage, -, hinv, hsame⟩
  · cases hr
  cases hr
  have hempty := Pgd.Ok.empty hpage
  have hnone : ∀ x, has ((Pgd.empty page).l3 x) pteValid = false := fun _ => by
    show has 0#64 pteValid = false
    decide
  refine ⟨fun b => ?_, hpages, accounted_start hempty hsame hinv, fun x hx => ?_, fun x y hx => ?_⟩
  · unfold Pgd.holds
    rw [Pgd.tables_empty, Pgd.Ok.count_empty hpage (leafOne_zero pmm b)]
    omega
  · rw [hnone x] at hx
    cases hx
  · rw [hnone x] at hx
    cases hx

section Read

variable {g : Pmm} {refs : Block → ℕ} {pgd₀ : Pgd} {m : UserMem} {va : ℕ}

theorem Owns.ok (h : m.Owns g refs pgd₀) : m.pgd.Ok g := h.accounted.ok

theorem Owns.byte_eq (h : m.Owns g refs pgd₀) (va : ℕ) : m.byte va =
    if has (m.pgd.l3 (vaPath va)) pteValid then
      some (m.mem (pteAddr (m.pgd.l3 (vaPath va)) + va % pageSize)) else none := by
  unfold byte
  rw [h.ok.query_eq]
  split <;> rfl

theorem Owns.flags_eq (h : m.Owns g refs pgd₀) (va : ℕ) : m.flags va =
    if has (m.pgd.l3 (vaPath va)) pteValid then some (m.pgd.l3 (vaPath va) &&& ~~~pteAddrMask)
    else none := by
  unfold flags
  rw [h.ok.query_eq]
  split <;> rfl

/-- The kernel pointer of a frame gives its address back. -/
theorem Owns.v2p_ptePtr (_ : m.Owns g refs pgd₀) (x : Ix × Ix × Ix) :
    v2p (ptePtr (m.pgd.l3 x)) = pteAddr (m.pgd.l3 x) := by
  obtain ⟨pfn, hlt, haddr⟩ := pteAddr_eq_page (m.pgd.l3 x)
  unfold ptePtr
  apply Pmm.v2p_p2v
  rw [haddr]
  unfold pageSize
  omega

/-- Different leaves are frames apart. -/
theorem Owns.apart (h : m.Owns g refs pgd₀) {x y : Ix × Ix × Ix} (hx : has (m.pgd.l3 x) pteValid = true)
    (hy : has (m.pgd.l3 y) pteValid = true) (hxy : x ≠ y) :
    pteAddr (m.pgd.l3 x) + pageSize ≤ pteAddr (m.pgd.l3 y) ∨
      pteAddr (m.pgd.l3 y) + pageSize ≤ pteAddr (m.pgd.l3 x) := by
  obtain ⟨p, -, hp⟩ := pteAddr_eq_page (m.pgd.l3 x)
  obtain ⟨q, -, hq⟩ := pteAddr_eq_page (m.pgd.l3 y)
  have hne : p ≠ q := by
    intro he
    apply hxy
    apply h.inj x y hx hy
    unfold ptePtr
    rw [hp, hq, he]
  rw [hp, hq]
  unfold pageSize
  omega

end Read

/-! ## Writing to a page -/

section Write

variable {g : Pmm} {refs : Block → ℕ} {pgd₀ : Pgd} {m : UserMem} {va : ℕ}

theorem Owns.withMem (h : m.Owns g refs pgd₀) (mem : ℕ → UInt8) : { m with mem := mem }.Owns g refs pgd₀ :=
  ⟨h.backed, h.pages, h.accounted, h.isPage, h.inj⟩

/-- A store inside the frame of one page: what it changes, and that nothing else reads differently. -/
theorem Owns.byte_store (h : m.Owns g refs pgd₀) {x : Ix × Ix × Ix} (hx : has (m.pgd.l3 x) pteValid = true)
    {off : ℕ} {bytes : List UInt8} (hoff : off + bytes.length ≤ pageSize) (va : ℕ) :
    { m with mem := store m.mem (pteAddr (m.pgd.l3 x) + off) bytes }.byte va =
      if vaPath va = x ∧ off ≤ va % pageSize ∧ va % pageSize < off + bytes.length then
        some (bytes.getD (va % pageSize - off) 0) else m.byte va := by
  rw [(h.withMem _).byte_eq, h.byte_eq]
  dsimp only
  have hmod : va % pageSize < pageSize := Nat.mod_lt _ (by decide)
  by_cases hpath : vaPath va = x
  · subst hpath
    rw [if_pos hx, if_pos hx]
    unfold store
    by_cases hin : off ≤ va % pageSize ∧ va % pageSize < off + bytes.length
    · rw [if_pos ⟨by omega, by omega⟩, if_pos ⟨rfl, hin⟩, Nat.add_sub_add_left]
    · rw [if_neg (fun hc => hin ⟨by omega, by omega⟩), if_neg (fun hc => hin hc.2)]
  · have hno : ¬ (vaPath va = x ∧ off ≤ va % pageSize ∧ va % pageSize < off + bytes.length) :=
      fun hc => hpath hc.1
    rw [if_neg hno]
    cases hv : has (m.pgd.l3 (vaPath va)) pteValid with
    | false => rfl
    | true =>
      rw [if_pos rfl, if_pos rfl]
      unfold store
      rw [if_neg]
      rintro ⟨hlo, hhi⟩
      rcases h.apart hv hx hpath with hlt | hlt <;> omega

/-- The address space reads as before, but for `bytes` from `dst` on. -/
structure Writes (m m' : UserMem) (dst : ℕ) (bytes : List UInt8) : Prop where
  pgd_eq : m'.pgd = m.pgd
  pmm_eq : m'.pmm = m.pmm
  byte_eq : ∀ va < 2 ^ 39, m'.byte va =
    if dst ≤ va ∧ va < dst + bytes.length then some (bytes.getD (va - dst) 0) else m.byte va

theorem writes_nil (m : UserMem) (dst : ℕ) : Writes m m dst [] := by
  refine ⟨rfl, rfl, fun va _ => ?_⟩
  rw [if_neg]
  rintro ⟨hlo, hhi⟩
  rw [List.length_nil] at hhi
  omega

theorem Writes.append {m₁ m₂ : UserMem} {dst : ℕ} {bs cs : List UInt8} (h : Writes m m₁ dst bs)
    (h' : Writes m₁ m₂ (dst + bs.length) cs) : Writes m m₂ dst (bs ++ cs) := by
  refine ⟨h'.pgd_eq.trans h.pgd_eq, h'.pmm_eq.trans h.pmm_eq, fun va hva => ?_⟩
  rw [h'.byte_eq va hva, h.byte_eq va hva, List.length_append]
  by_cases hcs : dst + bs.length ≤ va ∧ va < dst + bs.length + cs.length
  · rw [if_pos hcs, if_pos ⟨by omega, by omega⟩, List.getD_append_right _ _ _ _ (by omega), Nat.sub_add_eq]
  · rw [if_neg hcs]
    by_cases hbs : dst ≤ va ∧ va < dst + bs.length
    · rw [if_pos hbs, if_pos ⟨by omega, by omega⟩, List.getD_append _ _ _ _ (by omega)]
    · rw [if_neg hbs, if_neg (by omega)]

theorem Writes.owns {m' : UserMem} {dst : ℕ} {bs : List UInt8} (hw : Writes m m' dst bs)
    (h : m.Owns g refs pgd₀) : m'.Owns g refs pgd₀ := by
  obtain ⟨pgd', pmm', mem'⟩ := m'
  obtain rfl := hw.pgd_eq
  obtain rfl := hw.pmm_eq
  exact h.withMem mem'

/-- A store that stays inside a page. -/
theorem Owns.writes_store (h : m.Owns g refs pgd₀) {dst : ℕ} {bytes : List UInt8} (hdst : dst < 2 ^ 39)
    (hvalid : has (m.pgd.l3 (vaPath dst)) pteValid = true)
    (hin : dst % pageSize + bytes.length ≤ pageSize) :
    Writes m { m with mem := store m.mem (pteAddr (m.pgd.l3 (vaPath dst)) + dst % pageSize) bytes } dst bytes := by
  refine ⟨rfl, rfl, fun va hva => ?_⟩
  rw [h.byte_store hvalid hin]
  have hpath := vaPath_eq_iff hva hdst
  have hdiv := Nat.div_add_mod dst pageSize
  have hdiv' := Nat.div_add_mod va pageSize
  by_cases hc : dst ≤ va ∧ va < dst + bytes.length
  · have hpage : va / pageSize = dst / pageSize := by
      unfold pageSize at hin ⊢
      omega
    rw [hpage] at hdiv'
    have hsub : va % pageSize - dst % pageSize = va - dst := by omega
    rw [if_pos hc, if_pos ⟨hpath.mpr hpage, by omega, by omega⟩, hsub]
  · rw [if_neg hc, if_neg]
    rintro ⟨hpage, hlo, hhi⟩
    rw [hpath.mp hpage] at hdiv'
    exact hc ⟨by omega, by omega⟩

/-- What the kernel finds for the page of a mapped address. -/
theorem Owns.query_page (h : m.Owns g refs pgd₀) (hva : va < 2 ^ 39)
    (hvalid : has (m.pgd.l3 (vaPath va)) pteValid = true) :
    mmuUserQuery m.pgd (va / pageSize * pageSize) =
      some (pteAddr (m.pgd.l3 (vaPath va)), m.pgd.l3 (vaPath va) &&& ~~~pteAddrMask) := by
  have hpath : vaPath (va / pageSize * pageSize) = vaPath va := by
    refine (vaPath_eq_iff (lt_of_le_of_lt (Nat.div_mul_le_self _ _) hva) hva).mpr ?_
    exact Nat.mul_div_cancel _ (by decide)
  rw [h.ok.query_eq, hpath, if_pos hvalid, Nat.mul_mod_left, Nat.add_zero]

end Write

/-! ## A new page -/

section Fresh

variable {g : Pmm} {refs : Block → ℕ} {pgd₀ : Pgd} {m m' : UserMem} {va : ℕ} {flags : Word}

/-- What a new leaf on a frame nobody else has makes of an address space. -/
structure Gains (m m' : UserMem) (x : Ix × Ix × Ix) (kaddr : ℕ) (flags : Word) : Prop where
  leaf : m'.pgd.l3 x = mapWord (v2p kaddr) flags
  addr : pteAddr (m'.pgd.l3 x) = v2p kaddr
  other : ∀ y, y ≠ x → m'.pgd.l3 y = m.pgd.l3 y
  zero : ∀ va, vaPath va = x → m'.byte va = some 0
  bytes : ∀ va, vaPath va ≠ x → m'.byte va = m.byte va

/-- The page is mapped to zeros, on a new frame. -/
theorem Owns.mapFreshPage (h : m.Owns g refs pgd₀) (hflags : flags &&& pteAddrMask = 0#64)
    {kaddr : ℕ} (hok : m.mapFreshPage va flags = .ok (some kaddr, m')) :
    m'.Owns g refs pgd₀ ∧ Gains m m' (vaPath va) kaddr flags := by
  unfold UserMem.mapFreshPage at hok
  obtain ⟨⟨r, pmm1⟩, ha, hok⟩ := bind_eq_ok.mp hok
  rcases h.accounted.alloc h.backed h.pages ha with ⟨rfl, -⟩ | ⟨kaddr', rfl, hpage, hunused, h1⟩
  · cases hok
  obtain ⟨⟨mapped, pgd2, pmm2⟩, hm, hok⟩ := bind_eq_ok.mp hok
  obtain ⟨h2, hdone, -⟩ := h1.map (fun _ => 0) h.backed h.pages
    (fun b => by rw [leafOne_mapWord hpage hflags]) hm
  cases mapped with
  | false =>
    obtain ⟨pmm3, -, hok⟩ := bind_eq_ok.mp hok
    cases hok
  | true =>
    cases hok
    have hl3 := hdone rfl
    have hself : pgd2.l3 (vaPath va) = mapWord (v2p kaddr) flags := by rw [hl3, Function.update_self]
    have hother : ∀ y, y ≠ vaPath va → pgd2.l3 y = m.pgd.l3 y := by
      intro y hy
      rw [hl3, Function.update_of_ne hy]
    have hptr : ptePtr (pgd2.l3 (vaPath va)) = kaddr := by rw [hself, ptePtr_mapWord hpage hflags]
    -- no leaf that was there has the new frame
    have hfree : ∀ y, has (m.pgd.l3 y) pteValid = true → ptePtr (m.pgd.l3 y) ≠ kaddr := by
      intro y hy he
      have hone := leafOne_le_count h.ok (blockOf kaddr) y
      rw [leafOne_of_managed hy (h.isPage y hy).managed, he, one_blockOf, hunused] at hone
      omega
    have howns : Owns g refs pgd₀ ⟨pgd2, pmm2, zeroPage m.mem (v2p kaddr)⟩ := by
      refine ⟨h.backed, h.pages, h2, fun y hy => ?_, fun y z hy hz heq => ?_⟩
      · by_cases he : y = vaPath va
        · subst he
          rw [hptr]
          exact hpage
        · rw [hother y he] at hy ⊢
          exact h.isPage y hy
      · dsimp only at hy hz heq
        by_cases he : y = vaPath va
        · by_cases he' : z = vaPath va
          · rw [he, he']
          · subst he
            rw [hother z he'] at hz heq
            exact absurd (heq.symm.trans hptr) (hfree z hz)
        · rw [hother y he] at hy heq
          by_cases he' : z = vaPath va
          · subst he'
            exact absurd (heq.trans hptr) (hfree y hy)
          · rw [hother z he'] at hz heq
            exact h.inj y z hy hz heq
    have hvalid : has (pgd2.l3 (vaPath va)) pteValid = true := by
      rw [hself]
      exact has_mapWord_valid _ _
    have haddr : pteAddr (pgd2.l3 (vaPath va)) = v2p kaddr := by
      rw [← howns.v2p_ptePtr (vaPath va), hptr]
    refine ⟨howns, hself, haddr, hother, fun va' hva' => ?_, fun va' hva' => ?_⟩
    · have hmod : va' % pageSize < pageSize := Nat.mod_lt _ (by decide)
      rw [howns.byte_eq, hva', if_pos hvalid, haddr]
      dsimp only
      rw [zeroPage_of_mem ⟨Nat.le_add_right _ _, Nat.add_lt_add_left hmod _⟩]
    · have hmod : va' % pageSize < pageSize := Nat.mod_lt _ (by decide)
      rw [howns.byte_eq, h.byte_eq]
      dsimp only
      rw [hother _ hva']
      cases hv : has (m.pgd.l3 (vaPath va')) pteValid with
      | false => rw [if_neg Bool.false_ne_true, if_neg Bool.false_ne_true]
      | true =>
        have hv' : has (pgd2.l3 (vaPath va')) pteValid = true := by rw [hother _ hva', hv]
        have hapart := howns.apart hvalid hv' (Ne.symm hva')
        dsimp only at hapart
        rw [hother _ hva', haddr] at hapart
        rw [if_pos rfl, if_pos rfl, zeroPage_of_not_mem]
        rintro ⟨hlo, hhi⟩
        omega

end Fresh

/-! ## Other flags for a page -/

section Remap

variable {g : Pmm} {refs : Block → ℕ} {pgd₀ pgd' : Pgd} {m : UserMem} {pmm pmm' : Pmm} {va : ℕ} {flags : Word}

/-- Mapping a page once more on its own frame: the leaf gets the new flags, nothing reads
differently. -/
theorem Owns.remap (h : m.Owns g refs pgd₀) (hvalid : has (m.pgd.l3 (vaPath va)) pteValid = true)
    (hflags : flags &&& pteAddrMask = 0#64)
    (hhold : m.pmm.pmmHoldPage (ptePtr (m.pgd.l3 (vaPath va))) = .ok pmm)
    (hmap : mmuUserMapPage pmm m.pgd va (pteAddr (m.pgd.l3 (vaPath va))) flags = .ok (true, pgd', pmm')) :
    Owns g refs pgd₀ ⟨pgd', pmm', m.mem⟩ ∧
      pgd'.l3 (vaPath va) = mapWord (pteAddr (m.pgd.l3 (vaPath va))) flags ∧
      (∀ y, y ≠ vaPath va → pgd'.l3 y = m.pgd.l3 y) ∧
      ∀ va', UserMem.byte ⟨pgd', pmm', m.mem⟩ va' = m.byte va' := by
  have hpage := h.isPage _ hvalid
  have hpos : 0 < m.pgd.holds g (blockOf (ptePtr (m.pgd.l3 (vaPath va)))) := by
    have hle := leafOne_le_count h.ok (blockOf (ptePtr (m.pgd.l3 (vaPath va)))) (vaPath va)
    rw [leafOne_of_managed hvalid hpage.managed, one_blockOf] at hle
    omega
  have h1 := h.accounted.hold h.backed hpage.managed hpos hhold
  have hword : mapWord (pteAddr (m.pgd.l3 (vaPath va))) flags =
      mapWord (v2p (ptePtr (m.pgd.l3 (vaPath va)))) flags := by rw [h.v2p_ptePtr]
  obtain ⟨h2, hdone, -⟩ := h1.map (fun _ => 0) h.backed h.pages
    (fun b => by rw [hword, leafOne_mapWord hpage hflags]) hmap
  have hl3 := hdone rfl
  have hself : pgd'.l3 (vaPath va) = mapWord (pteAddr (m.pgd.l3 (vaPath va))) flags := by
    rw [hl3, Function.update_self]
  have hother : ∀ y, y ≠ vaPath va → pgd'.l3 y = m.pgd.l3 y := by
    intro y hy
    rw [hl3, Function.update_of_ne hy]
  -- every leaf names the frame it named before, and the same leaves are valid
  have hptr : ∀ y, ptePtr (pgd'.l3 y) = ptePtr (m.pgd.l3 y) := by
    intro y
    by_cases hy : y = vaPath va
    · rw [hy, hself, hword, ptePtr_mapWord hpage hflags]
    · rw [hother y hy]
  have hval : ∀ y, has (pgd'.l3 y) pteValid = has (m.pgd.l3 y) pteValid := by
    intro y
    by_cases hy : y = vaPath va
    · rw [hy, hself, has_mapWord_valid, hvalid]
    · rw [hother y hy]
  have howns : Owns g refs pgd₀ ⟨pgd', pmm', m.mem⟩ := by
    refine ⟨h.backed, h.pages, h2, fun y hy => ?_, fun y z hy hz heq => ?_⟩
    · rw [hptr]
      exact h.isPage y (hval y ▸ hy)
    · rw [hptr, hptr] at heq
      exact h.inj y z (hval y ▸ hy) (hval z ▸ hz) heq
  refine ⟨howns, hself, hother, fun va' => ?_⟩
  have haddr : pteAddr (pgd'.l3 (vaPath va')) = pteAddr (m.pgd.l3 (vaPath va')) := by
    rw [← howns.v2p_ptePtr, ← h.v2p_ptePtr]
    exact congrArg v2p (hptr (vaPath va'))
  rw [howns.byte_eq, h.byte_eq, hval, haddr]

end Remap

end UserMem

end Perspicua.Mm
