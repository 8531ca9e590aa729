import Perspicua.Core.Elf

/-!
# What the loader leaves in memory

The loader maps a page when the first segment touches it and changes the flags and the bytes of a
page that is there when another one does. So the flags and the bytes of a page are those of an
empty page, changed by each segment in the order of the table: `loadSegments_spec` says this for
the whole table, and the results on permissions and on contents are about that fold.
-/

namespace Perspicua.Core.Elf

open Perspicua.Lib Perspicua.Mm

theorem kernel_eq_ok {α : Type} {x : Except Panic α} {a : α} : kernel x = .ok a ↔ x = .ok a := by
  cases x with
  | error e => simp [kernel, Except.mapError]
  | ok b => simp [kernel, Except.mapError]

/-! ## Flags -/

/-- The flags of a page: no address, and the two bits of a page entry. -/
structure PageFlags (f : Word) : Prop where
  noAddr : f &&& pteAddrMask = 0#64
  kind : pteValid ||| ptePage ||| f = f

theorem ProgHeader.pageFlags (ph : ProgHeader) : PageFlags ph.mmuFlags := by
  unfold ProgHeader.mmuFlags
  split
  · exact ⟨by decide, by decide⟩
  · exact ⟨by decide, by decide⟩

theorem PageFlags.or {f : Word} (h : PageFlags f) {c : Word} (hc : c &&& pteAddrMask = 0#64) :
    PageFlags (c ||| f) := by
  refine ⟨?_, ?_⟩
  · rw [BitVec.and_or_distrib_right, hc, h.noAddr, BitVec.or_zero]
  · rw [BitVec.or_comm c f, ← BitVec.or_assoc, h.kind]

/-- The flags of a leaf are those it was mapped with. -/
theorem PageFlags.mapWord {f : Word} (h : PageFlags f) (pa : ℕ) :
    mapWord pa f &&& ~~~pteAddrMask = f := by
  have hf : f &&& ~~~pteAddrMask = f := by
    have hsplit : f &&& (pteAddrMask ||| ~~~pteAddrMask) = f := by
      rw [show pteAddrMask ||| ~~~pteAddrMask = BitVec.allOnes 64 by decide, BitVec.and_allOnes]
    rw [BitVec.and_or_distrib_left, h.noAddr, BitVec.zero_or] at hsplit
    exact hsplit
  unfold Mm.mapWord
  rw [BitVec.and_or_distrib_right, BitVec.and_or_distrib_right, BitVec.and_or_distrib_right, hf,
    BitVec.and_assoc, show pteAddrMask &&& ~~~pteAddrMask = 0#64 by decide,
    show pteValid &&& ~~~pteAddrMask = pteValid by decide,
    show ptePage &&& ~~~pteAddrMask = ptePage by decide, BitVec.and_zero, BitVec.zero_or, h.kind]

/-- The test for data flags is never false. -/
theorem ProgHeader.has_mmuFlags (ph : ProgHeader) : has ph.mmuFlags pageUserData = true := by
  unfold ProgHeader.mmuFlags
  split
  · decide
  · decide

/-- What a segment makes of the flags of a page. -/
def mergeFlags (current : Option Word) (f : Word) : Word :=
  match current with
  | none => f
  | some c => if has c uxn then c else c ||| f

/-! ## One page -/

section Page

variable {g : Pmm} {refs : Block → ℕ} {pgd₀ : Pgd} {env : Env} {file : ElfFile} {s s' : State}
  {ph : ProgHeader} {page pa : ℕ}

/-- The frame of a page is found or made; what the page holds stays, or is zero. -/
structure HasPage (s s' : State) (page pa : ℕ) (f : Word) : Prop where
  pos : s'.pos = s.pos
  valid : has (s'.user.pgd.l3 (vaPath page)) pteValid = true
  addr : pteAddr (s'.user.pgd.l3 (vaPath page)) = pa
  flags : ∀ va, s'.user.flags va =
    if vaPath va = vaPath page then some (mergeFlags (s.user.flags va) f) else s.user.flags va
  bytes : ∀ va, s'.user.byte va =
    if vaPath va = vaPath page then some ((s.user.byte va).getD 0) else s.user.byte va

theorem segmentPage_spec (h : s.user.Owns g refs pgd₀) (hpage : page % pageSize = 0)
    (hok : segmentPage s page ph.mmuFlags = .ok (pa, s')) :
    s'.user.Owns g refs pgd₀ ∧ HasPage s s' page pa ph.mmuFlags := by
  unfold segmentPage at hok
  rw [h.ok.query_eq] at hok
  cases hv : has (s.user.pgd.l3 (vaPath page)) pteValid with
  | false =>
    rw [hv, if_neg Bool.false_ne_true] at hok
    obtain ⟨⟨r, user⟩, hfresh, hok⟩ := bind_eq_ok.mp hok
    cases r with
    | none => cases hok
    | some kaddr =>
      obtain ⟨rfl, rfl⟩ := Prod.mk.inj (Except.ok.inj hok)
      obtain ⟨howns, hgains⟩ := h.mapFreshPage ph.pageFlags.noAddr (kernel_eq_ok.mp hfresh)
      have hvalid : has (user.pgd.l3 (vaPath page)) pteValid = true := by
        rw [hgains.leaf]
        exact has_mapWord_valid _ _
      refine ⟨howns, rfl, hvalid, hgains.addr, fun va => ?_, fun va => ?_⟩
      · rw [howns.flags_eq, h.flags_eq]
        by_cases hva : vaPath va = vaPath page
        · rw [hva, if_pos hvalid, hv, if_neg Bool.false_ne_true, if_pos rfl, hgains.leaf,
            ph.pageFlags.mapWord]
          rfl
        · rw [if_neg hva, hgains.other _ hva]
      · by_cases hva : vaPath va = vaPath page
        · rw [if_pos hva, hgains.zero va hva, h.byte_eq, hva, hv]
          rfl
        · rw [if_neg hva, hgains.bytes va hva]
  | true =>
    have hmerge : ∀ va, vaPath va = vaPath page →
        s.user.flags va = some (s.user.pgd.l3 (vaPath page) &&& ~~~pteAddrMask) := by
      intro va hva
      rw [h.flags_eq, hva, if_pos hv]
    have hbyte : ∀ va, vaPath va = vaPath page → s.user.byte va = some ((s.user.byte va).getD 0) := by
      intro va hva
      rw [h.byte_eq, hva, if_pos hv]
      rfl
    rw [hv, if_pos rfl, hpage, Nat.add_zero] at hok
    dsimp only at hok
    rw [ph.has_mmuFlags, Bool.true_and] at hok
    cases hu : has (s.user.pgd.l3 (vaPath page) &&& ~~~pteAddrMask) uxn with
    | true =>
      -- the page keeps its flags
      rw [hu, if_neg (by decide)] at hok
      cases hok
      refine ⟨h, rfl, hv, rfl, fun va => ?_, fun va => ?_⟩
      · by_cases hva : vaPath va = vaPath page
        · rw [if_pos hva, hmerge va hva]
          exact congrArg some (if_pos hu).symm
        · rw [if_neg hva]
      · by_cases hva : vaPath va = vaPath page
        · rw [if_pos hva]
          exact hbyte va hva
        · rw [if_neg hva]
    | false =>
      rw [hu, if_pos (by decide)] at hok
      obtain ⟨pmm1, hhold, hok⟩ := bind_eq_ok.mp hok
      obtain ⟨⟨done, pgd2, pmm2⟩, hmap, hok⟩ := bind_eq_ok.mp hok
      cases done with
      | false =>
        obtain ⟨_, -, hok⟩ := bind_eq_ok.mp hok
        cases hok
      | true =>
        cases hok
        have hcur : (s.user.pgd.l3 (vaPath page) &&& ~~~pteAddrMask) &&& pteAddrMask = 0#64 := by
          rw [BitVec.and_assoc, show ~~~pteAddrMask &&& pteAddrMask = 0#64 by decide, BitVec.and_zero]
        have hflags := ph.pageFlags.or hcur
        obtain ⟨howns, hself, hother, hbytes⟩ := h.remap hv hflags.noAddr (kernel_eq_ok.mp hhold)
          (kernel_eq_ok.mp hmap)
        have hvalid : has (pgd2.l3 (vaPath page)) pteValid = true := by
          rw [hself]
          exact has_mapWord_valid _ _
        have haddr : pteAddr (pgd2.l3 (vaPath page)) = pteAddr (s.user.pgd.l3 (vaPath page)) := by
          obtain ⟨pfn, hlt, hpfn⟩ := pteAddr_eq_page (s.user.pgd.l3 (vaPath page))
          rw [hself, hpfn]
          exact pteAddr_mapWord hlt hflags.noAddr
        refine ⟨howns, rfl, hvalid, haddr, fun va => ?_, fun va => ?_⟩
        · rw [howns.flags_eq]
          by_cases hva : vaPath va = vaPath page
          · rw [if_pos hva, hmerge va hva, hva, if_pos hvalid]
            refine congrArg some ?_
            show pgd2.l3 (vaPath page) &&& ~~~pteAddrMask = if _ then _ else _
            rw [hself, hflags.mapWord, hu, if_neg Bool.false_ne_true]
          · rw [if_neg hva, h.flags_eq]
            dsimp only
            rw [hother _ hva]
        · rw [hbytes va]
          by_cases hva : vaPath va = vaPath page
          · rw [if_pos hva]
            exact hbyte va hva
          · rw [if_neg hva]

/-- A read that gets all it asks for. -/
theorem readExactly_spec {count : ℕ} {bytes : List UInt8} (hok : readExactly env file s count = .ok (bytes, s')) :
    s'.user = s.user ∧ bytes.length = count ∧ (0 < count → s.pos + count ≤ file.data.length) ∧
      bytes = (file.data.drop s.pos).take count ∧ s'.pos = s.pos + count := by
  unfold readExactly vfsRead at hok
  cases hio : env.io s.reads with
  | error rc =>
    rw [hio] at hok
    cases hok
  | ok most =>
    rw [hio] at hok
    dsimp only at hok
    split at hok
    · rename_i hlen
      obtain ⟨rfl, rfl⟩ := Prod.mk.inj (Except.ok.inj hok)
      have hmin := hlen
      rw [List.length_take, List.length_drop] at hmin
      refine ⟨rfl, hlen, fun hpos => by omega, ?_, congrArg (s.pos + ·) hlen⟩
      by_cases hle : count ≤ most
      · rw [Nat.min_eq_left hle]
      · omega
    · cases hok

/-- The first and the last byte of a page that a segment's file bytes go to. -/
theorem mem_copy_iff {vaddr e va : ℕ} (hpage : page % pageSize = 0) (hva : va / pageSize = page / pageSize) :
    (copyStart vaddr page ≤ va % pageSize ∧ va % pageSize < copyEnd e page) ↔ vaddr ≤ va ∧ va < e := by
  unfold copyStart copyEnd
  unfold pageSize at *
  split <;> split <;> (try split) <;> omega

theorem copyEnd_le (e page : ℕ) : copyEnd e page ≤ pageSize := by
  unfold copyEnd
  split
  · exact Nat.zero_le _
  · split <;> omega

/-- What one iteration of the loop does: the bytes of `chunk` go to the page, the rest of it stays or
is zero. The bytes are those of the file if the seek was accepted. -/
structure PageLoaded (file : ElfFile) (ph : ProgHeader) (page : ℕ) (s s' : State) (chunk : List UInt8) :
    Prop where
  length : chunk.length = copyEnd (ph.vaddr.toNat + ph.fileSize.toNat) page - copyStart ph.vaddr.toNat page
  flags : ∀ va, s'.user.flags va =
    if vaPath va = vaPath page then some (mergeFlags (s.user.flags va) ph.mmuFlags) else s.user.flags va
  bytes : ∀ va, s'.user.byte va =
    if vaPath va = vaPath page then
      some (if copyStart ph.vaddr.toNat page ≤ va % pageSize ∧
          va % pageSize < copyEnd (ph.vaddr.toNat + ph.fileSize.toNat) page
        then chunk.getD (va % pageSize - copyStart ph.vaddr.toNat page) 0 else (s.user.byte va).getD 0)
    else s.user.byte va
  file : 0 < chunk.length →
    ph.offset.toNat + (page + copyStart ph.vaddr.toNat page - ph.vaddr.toNat) < 2 ^ 63 →
    ph.offset.toNat + (page + copyStart ph.vaddr.toNat page - ph.vaddr.toNat) + chunk.length ≤
        file.data.length ∧
      chunk = (file.data.drop (ph.offset.toNat +
        (page + copyStart ph.vaddr.toNat page - ph.vaddr.toNat))).take chunk.length

theorem loadPage_spec (h : s.user.Owns g refs pgd₀) (hpage : page % pageSize = 0)
    (hok : loadPage env file s ph page = .ok s') :
    s'.user.Owns g refs pgd₀ ∧ ∃ chunk, PageLoaded file ph page s s' chunk := by
  unfold loadPage at hok
  obtain ⟨⟨pa, s1⟩, hseg, hok⟩ := bind_eq_ok.mp hok
  obtain ⟨h1, hhas⟩ := segmentPage_spec h hpage hseg
  have hle := copyEnd_le (ph.vaddr.toNat + ph.fileSize.toNat) page
  unfold copyPage at hok
  dsimp only at hok
  split at hok
  · rename_i hlt
    obtain ⟨⟨bytes, s2⟩, hread, hok⟩ := bind_eq_ok.mp hok
    cases hok
    obtain ⟨huser, hlen, hin, hbytes, -⟩ := readExactly_spec hread
    have huser' : s2.user = s1.user := by
      rw [huser]
      unfold vfsLseek
      split <;> rfl
    rw [huser']
    have hroom : copyStart ph.vaddr.toNat page + bytes.length ≤ pageSize := by omega
    refine ⟨h1.withMem _, bytes, hlen, hhas.flags, fun va => ?_, fun hpos hsmall => ?_⟩
    · have hstore := h1.byte_store hhas.valid hroom va
      rw [hhas.addr] at hstore
      refine hstore.trans ?_
      rw [hhas.bytes va, hlen, Nat.add_sub_cancel' (Nat.le_of_lt hlt)]
      by_cases hva : vaPath va = vaPath page
      · rw [if_pos hva, if_pos hva]
        by_cases hc : copyStart ph.vaddr.toNat page ≤ va % pageSize ∧
            va % pageSize < copyEnd (ph.vaddr.toNat + ph.fileSize.toNat) page
        · rw [if_pos ⟨hva, hc⟩, if_pos hc]
        · rw [if_neg (fun hcon => hc hcon.2), if_neg hc]
      · rw [if_neg (fun hcon => hva hcon.1), if_neg hva, if_neg hva]
    · have hsum : (ph.offset + BitVec.ofNat 64 (page + copyStart ph.vaddr.toNat page - ph.vaddr.toNat)).toNat =
          ph.offset.toNat + (page + copyStart ph.vaddr.toNat page - ph.vaddr.toNat) := by
        rw [BitVec.toNat_add, BitVec.toNat_ofNat]
        omega
      have hmsb : (ph.offset + BitVec.ofNat 64
          (page + copyStart ph.vaddr.toNat page - ph.vaddr.toNat)).msb = false := by
        rw [BitVec.msb_eq_false_iff_two_mul_lt, hsum]
        omega
      have hpos' : (vfsLseek s1 (ph.offset + BitVec.ofNat 64
          (page + copyStart ph.vaddr.toNat page - ph.vaddr.toNat))).pos =
          ph.offset.toNat + (page + copyStart ph.vaddr.toNat page - ph.vaddr.toNat) := by
        unfold vfsLseek
        rw [hmsb, if_neg Bool.false_ne_true]
        exact hsum
      rw [hpos'] at hin hbytes
      exact ⟨by rw [hlen]; exact hin (by omega), by rw [hlen]; exact hbytes⟩
  · rename_i hge
    cases hok
    refine ⟨h1, [], by rw [List.length_nil]; omega, hhas.flags, fun va => ?_,
      fun hpos => absurd hpos (by simp)⟩
    rw [hhas.bytes va]
    by_cases hva : vaPath va = vaPath page
    · rw [if_pos hva, if_pos hva, if_neg (by omega)]
    · rw [if_neg hva, if_neg hva]

end Page

/-! ## The pages of a segment -/

/-- An address in one of `n` pages from `page` on. -/
def InPages (page n va : ℕ) : Prop := page / pageSize ≤ va / pageSize ∧ va / pageSize < page / pageSize + n

instance (page n va : ℕ) : Decidable (InPages page n va) := inferInstanceAs (Decidable (_ ∧ _))

namespace ProgHeader

variable (ph : ProgHeader)

/-- A byte of the file goes to the address. -/
def FileCovers (va : ℕ) : Prop := ph.vaddr.toNat ≤ va ∧ va < ph.vaddr.toNat + ph.fileSize.toNat

instance (va : ℕ) : Decidable (ph.FileCovers va) := inferInstanceAs (Decidable (_ ∧ _))

/-- Where that byte is in the file. -/
def fileOffset (va : ℕ) : ℕ := ph.offset.toNat + (va - ph.vaddr.toNat)

end ProgHeader

theorem getD_take_drop {l : List UInt8} {p n i : ℕ} (hi : i < n) :
    ((l.drop p).take n).getD i 0 = l.getD (p + i) 0 := by
  rw [List.getD_eq_getElem?_getD, List.getElem?_take_of_lt hi, List.getElem?_drop,
    List.getD_eq_getElem?_getD]

section Pages

variable {g : Pmm} {refs : Block → ℕ} {pgd₀ : Pgd} {env : Env} {file : ElfFile} {s s' : State}
  {ph : ProgHeader} {page n : ℕ}

/-- The position for the bytes of a page, if there are any, is one that can be sought. -/
def Seeks (ph : ProgHeader) (page : ℕ) : Prop :=
  copyStart ph.vaddr.toNat page < copyEnd (ph.vaddr.toNat + ph.fileSize.toNat) page →
    ph.offset.toNat + (page + copyStart ph.vaddr.toNat page - ph.vaddr.toNat) < 2 ^ 63

/-- The bytes of one page, as those of the segment. -/
theorem PageLoaded.bytes_eq {chunk : List UInt8} (h : PageLoaded file ph page s s' chunk)
    (hpage : page % pageSize = 0) (hlow : page < 2 ^ 39) (hseek : Seeks ph page) {va : ℕ} (hva : va < 2 ^ 39) :
    s'.user.byte va =
      (if va / pageSize = page / pageSize then
        some (if ph.FileCovers va then file.data.getD (ph.fileOffset va) 0 else (s.user.byte va).getD 0)
      else s.user.byte va) ∧
    (va / pageSize = page / pageSize → ph.FileCovers va → ph.fileOffset va < file.data.length) := by
  have hpath := vaPath_eq_iff hva hlow
  rw [h.bytes va]
  by_cases heq : va / pageSize = page / pageSize
  · rw [if_pos (hpath.mpr heq), if_pos heq]
    have hmem : (copyStart ph.vaddr.toNat page ≤ va % pageSize ∧
        va % pageSize < copyEnd (ph.vaddr.toNat + ph.fileSize.toNat) page) ↔ ph.FileCovers va :=
      mem_copy_iff hpage heq
    by_cases hcov : ph.FileCovers va
    · have hc := hmem.mpr hcov
      have hlen := h.length
      obtain ⟨hin, hchunk⟩ := h.file (by omega) (hseek (by omega))
      -- the offset in the chunk is the one in the segment
      have hoff : ph.offset.toNat + (page + copyStart ph.vaddr.toNat page - ph.vaddr.toNat) +
          (va % pageSize - copyStart ph.vaddr.toNat page) = ph.fileOffset va := by
        unfold ProgHeader.fileOffset
        have hcov1 := hcov.1
        have hstart : ph.vaddr.toNat ≤ page + copyStart ph.vaddr.toNat page := by
          unfold copyStart
          split <;> omega
        have hdiv := Nat.div_add_mod va pageSize
        have hdiv' := Nat.div_add_mod page pageSize
        rw [heq] at hdiv
        omega
      refine ⟨?_, fun _ _ => by omega⟩
      rw [if_pos hc, if_pos hcov, hchunk, getD_take_drop (by omega), hoff]
    · refine ⟨?_, fun _ hc => absurd hc hcov⟩
      rw [if_neg (fun hc => hcov (hmem.mp hc)), if_neg hcov]
  · refine ⟨?_, fun hc => absurd hc heq⟩
    rw [if_neg (fun hc => heq (hpath.mp hc)), if_neg heq]

/-- After the bytes of a page were read, those of the next one can be sought: the file is that long. -/
theorem PageLoaded.seeks {chunk : List UInt8} (h : PageLoaded file ph page s s' chunk)
    (hstart : ph.vaddr.toNat < page + pageSize) (hseek : Seeks ph page) : Seeks ph (page + pageSize) := by
  intro hnext
  have hlen := h.length
  have hsize := file.size_lt
  have hend : copyEnd (ph.vaddr.toNat + ph.fileSize.toNat) page = pageSize := by
    unfold copyEnd at hnext ⊢
    split at hnext
    · omega
    · rw [if_neg (by omega), if_pos (by omega)]
  have hfirst : copyStart ph.vaddr.toNat page < pageSize := by
    unfold copyStart
    split
    · omega
    · decide
  obtain ⟨hin, -⟩ := h.file (by omega) (hseek (by omega))
  have hzero : copyStart ph.vaddr.toNat (page + pageSize) = 0 := if_neg (by omega)
  have hle : ph.vaddr.toNat ≤ page + copyStart ph.vaddr.toNat page := by
    unfold copyStart
    split <;> omega
  rw [hzero]
  omega

theorem inPages_succ {va : ℕ} (hpage : page % pageSize = 0) :
    InPages page (n + 1) va ↔ va / pageSize = page / pageSize ∨ InPages (page + pageSize) n va := by
  unfold InPages
  unfold pageSize at *
  omega

/-- The loop over the pages of a segment. -/
theorem loadPages_spec (h : s.user.Owns g refs pgd₀) (hpage : page % pageSize = 0)
    (hlow : page + n * pageSize ≤ 2 ^ 39) (hstart : ph.vaddr.toNat < page + pageSize)
    (hok : loadPages env file ph n page s = .ok s') :
    s'.user.Owns g refs pgd₀ ∧
      (∀ va < 2 ^ 39, s'.user.flags va =
        if InPages page n va then some (mergeFlags (s.user.flags va) ph.mmuFlags) else s.user.flags va) ∧
      (Seeks ph page → ∀ va < 2 ^ 39,
        s'.user.byte va =
          (if InPages page n va then
            some (if ph.FileCovers va then file.data.getD (ph.fileOffset va) 0 else (s.user.byte va).getD 0)
          else s.user.byte va) ∧
        (InPages page n va → ph.FileCovers va → ph.fileOffset va < file.data.length)) := by
  induction n generalizing page s with
  | zero =>
    cases hok
    have hno : ∀ va, ¬ InPages page 0 va := by
      intro va hc
      unfold InPages at hc
      omega
    refine ⟨h, fun va _ => (if_neg (hno va)).symm, fun _ va _ => ⟨(if_neg (hno va)).symm, ?_⟩⟩
    intro hc
    exact absurd hc (hno va)
  | succ n ih =>
    unfold loadPages at hok
    obtain ⟨s1, hload, hok⟩ := bind_eq_ok.mp hok
    obtain ⟨h1, chunk, hchunk⟩ := loadPage_spec h hpage hload
    have hpage' : (page + pageSize) % pageSize = 0 := by
      rw [Nat.add_mod_right]
      exact hpage
    obtain ⟨h2, hflags, hbytes⟩ := ih h1 hpage' (by rw [Nat.add_one_mul] at hlow; omega) (by omega) hok
    have hlow' : page < 2 ^ 39 := by
      rw [Nat.add_one_mul] at hlow
      unfold pageSize at hlow
      omega
    -- a page is visited once
    have honce : ∀ va, va / pageSize = page / pageSize → ¬ InPages (page + pageSize) n va := by
      intro va heq hc
      unfold InPages at hc
      unfold pageSize at *
      omega
    refine ⟨h2, fun va hva => ?_, fun hseek va hva => ?_⟩
    · rw [hflags va hva, hchunk.flags va]
      by_cases heq : va / pageSize = page / pageSize
      · rw [if_neg (honce va heq), if_pos ((vaPath_eq_iff hva hlow').mpr heq),
          if_pos ((inPages_succ hpage).mpr (.inl heq))]
      · rw [if_neg (c := vaPath va = vaPath page) (fun hc => heq ((vaPath_eq_iff hva hlow').mp hc))]
        by_cases hin : InPages (page + pageSize) n va
        · rw [if_pos hin, if_pos ((inPages_succ hpage).mpr (.inr hin))]
        · rw [if_neg hin, if_neg (fun hc => ((inPages_succ hpage).mp hc).elim heq hin)]
    · obtain ⟨hb1, hf1⟩ := hchunk.bytes_eq hpage hlow' hseek hva
      obtain ⟨hb2, hf2⟩ := hbytes (hchunk.seeks hstart hseek) va hva
      refine ⟨?_, fun hin hcov => ((inPages_succ hpage).mp hin).elim (fun heq => hf1 heq hcov)
        fun hin' => hf2 hin' hcov⟩
      rw [hb2, hb1]
      by_cases heq : va / pageSize = page / pageSize
      · rw [if_neg (honce va heq), if_pos heq, if_pos ((inPages_succ hpage).mpr (.inl heq))]
      · rw [if_neg (c := va / pageSize = page / pageSize) heq]
        by_cases hin : InPages (page + pageSize) n va
        · rw [if_pos hin, if_pos ((inPages_succ hpage).mpr (.inr hin))]
        · rw [if_neg hin, if_neg (fun hc => ((inPages_succ hpage).mp hc).elim heq hin)]

end Pages

/-! ## The segments -/

namespace ProgHeader

variable (ph : ProgHeader)

/-- The header describes something to load. -/
def Loads : Prop := ph.type = elfProgLoad ∧ ph.memSize ≠ 0

instance : Decidable ph.Loads := inferInstanceAs (Decidable (_ ∧ _))

/-- The address belongs to the segment. -/
def Covers (va : ℕ) : Prop := ph.vaddr.toNat ≤ va ∧ va < ph.vaddr.toNat + ph.memSize.toNat

instance (va : ℕ) : Decidable (ph.Covers va) := inferInstanceAs (Decidable (_ ∧ _))

/-- The address lies on a page of the segment. -/
def Touches (va : ℕ) : Prop :=
  ph.Loads ∧ ph.vaddr.toNat / pageSize ≤ va / pageSize ∧
    va / pageSize < (ph.vaddr.toNat + ph.memSize.toNat + (pageSize - 1)) / pageSize

instance (va : ℕ) : Decidable (ph.Touches va) := inferInstanceAs (Decidable (_ ∧ _ ∧ _))

/-- What the loader has checked of a segment that it loads. -/
structure Placed : Prop where
  fileSize_le : ph.fileSize.toNat ≤ ph.memSize.toNat
  below : ph.vaddr.toNat + ph.memSize.toNat ≤ userVaBase

/-- The file bytes of the segment, if there are any, start where the loader can seek to. -/
def Seekable : Prop := ph.Loads → ph.fileSize ≠ 0 → ph.offset.toNat < 2 ^ 63

variable {ph}

theorem Covers.touches {va : ℕ} (hc : ph.Covers va) (hloads : ph.Loads) : ph.Touches va := by
  refine ⟨hloads, ?_, ?_⟩
  · exact Nat.div_le_div_right hc.1
  · have := hc.2
    unfold pageSize
    omega

theorem Placed.covers (h : ph.Placed) {va : ℕ} (hc : ph.FileCovers va) : ph.Covers va := by
  have h1 := hc.1
  have h2 := hc.2
  have h3 := h.fileSize_le
  exact ⟨h1, by omega⟩

end ProgHeader

/-- What one segment makes of the flags of an address. -/
def flagsStep (va : ℕ) (o : Option Word) (ph : ProgHeader) : Option Word :=
  if ph.Touches va then some (mergeFlags o ph.mmuFlags) else o

/-- What one segment makes of the byte at an address: its file byte, or what was there. -/
def byteStep (file : ElfFile) (va : ℕ) (o : Option UInt8) (ph : ProgHeader) : Option UInt8 :=
  if ph.Touches va then
    some (if ph.FileCovers va then file.data.getD (ph.fileOffset va) 0 else o.getD 0)
  else o

section Segments

variable {g : Pmm} {refs : Block → ℕ} {pgd₀ : Pgd} {env : Env} {file : ElfFile} {s s' : State}
  {ph : ProgHeader} {phs : List ProgHeader}

theorem seeks_first (h : ph.Seekable) (hloads : ph.Loads) : Seeks ph (ph.vaddr.toNat / pageSize * pageSize) := by
  intro hlt
  have hfirst : ph.vaddr.toNat / pageSize * pageSize + copyStart ph.vaddr.toNat
      (ph.vaddr.toNat / pageSize * pageSize) = ph.vaddr.toNat := by
    have hle := Nat.div_mul_le_self ph.vaddr.toNat pageSize
    unfold copyStart
    split <;> omega
  have hsize : ph.fileSize ≠ 0 := by
    intro hzero
    have hz : ph.fileSize.toNat = 0 := by
      rw [hzero]
      rfl
    rw [hz, Nat.add_zero] at hlt
    unfold copyEnd at hlt
    split at hlt
    · omega
    · split at hlt <;> omega
  have hoff := h hloads hsize
  omega

/-- One segment: it is checked and loaded, or there is nothing to load. -/
theorem loadSegment_spec (h : s.user.Owns g refs pgd₀) (hok : loadSegment env file s ph = .ok s') :
    s'.user.Owns g refs pgd₀ ∧ (ph.Loads → ph.Placed) ∧
      (∀ va < 2 ^ 39, s'.user.flags va = flagsStep va (s.user.flags va) ph) ∧
      (ph.Seekable → ∀ va < 2 ^ 39, s'.user.byte va = byteStep file va (s.user.byte va) ph ∧
        (ph.Loads → ph.FileCovers va → ph.fileOffset va < file.data.length)) := by
  have hskip : ¬ ph.Loads → s' = s → s'.user.Owns g refs pgd₀ ∧ (ph.Loads → ph.Placed) ∧
      (∀ va < 2 ^ 39, s'.user.flags va = flagsStep va (s.user.flags va) ph) ∧
      (ph.Seekable → ∀ va < 2 ^ 39, s'.user.byte va = byteStep file va (s.user.byte va) ph ∧
        (ph.Loads → ph.FileCovers va → ph.fileOffset va < file.data.length)) := by
    rintro hno rfl
    have htouch : ∀ va, ¬ ph.Touches va := fun va hc => hno hc.1
    exact ⟨h, fun hc => absurd hc hno, fun va _ => (if_neg (htouch va)).symm,
      fun _ va _ => ⟨(if_neg (htouch va)).symm, fun hc => absurd hc hno⟩⟩
  unfold loadSegment at hok
  split at hok
  · rename_i htype
    cases hok
    exact hskip (fun hc => htype hc.1) rfl
  rename_i htype
  split at hok
  · cases hok
  rename_i hfile
  split at hok
  · rename_i hmem
    cases hok
    exact hskip (fun hc => hc.2 hmem) rfl
  rename_i hmem
  split at hok
  · cases hok
  rename_i hrange
  rw [not_or] at hrange
  have hloads : ph.Loads := ⟨not_not.mp htype, hmem⟩
  have hplaced : ph.Placed := by
    have hnowrap : ph.vaddr.toNat + ph.memSize.toNat < 2 ^ 64 := by
      by_contra hge
      apply hrange.1
      rw [BitVec.lt_def, BitVec.toNat_add]
      have h1 := ph.vaddr.isLt
      have h2 := ph.memSize.isLt
      omega
    refine ⟨?_, ?_⟩
    · rw [gt_iff_lt, BitVec.lt_def] at hfile
      omega
    · have hle := Nat.not_lt.mp hrange.2
      rw [BitVec.toNat_add, Nat.mod_eq_of_lt hnowrap] at hle
      exact hle
  have hbelow := hplaced.below
  have hin : ∀ va, InPages (ph.vaddr.toNat / pageSize * pageSize)
      ((ph.vaddr.toNat + ph.memSize.toNat + (pageSize - 1)) / pageSize - ph.vaddr.toNat / pageSize) va ↔
      ph.Touches va := by
    intro va
    have hmono : ph.vaddr.toNat / pageSize ≤
        (ph.vaddr.toNat + ph.memSize.toNat + (pageSize - 1)) / pageSize :=
      Nat.div_le_div_right (by omega)
    unfold InPages ProgHeader.Touches
    rw [Nat.mul_div_cancel _ (by decide), Nat.add_sub_cancel' hmono]
    exact ⟨fun hc => ⟨hloads, hc⟩, fun hc => hc.2⟩
  dsimp only at hok
  obtain ⟨h1, hflags, hbytes⟩ := loadPages_spec h (Nat.mul_mod_left _ _)
    (by unfold userVaBase at hbelow; unfold pageSize; omega) (by unfold pageSize; omega) hok
  refine ⟨h1, fun _ => hplaced, fun va hva => ?_, fun hseek va hva => ?_⟩
  · rw [hflags va hva]
    unfold flagsStep
    simp only [hin]
  · obtain ⟨hb, hf⟩ := hbytes (seeks_first hseek hloads) va hva
    refine ⟨?_, fun _ hcov => hf ((hin va).mpr ((hplaced.covers hcov).touches hloads)) hcov⟩
    rw [hb]
    unfold byteStep
    simp only [hin]

/-- The whole table: flags and bytes are changed by each segment in turn. -/
theorem loadSegments_spec (h : s.user.Owns g refs pgd₀) (hok : loadSegments env file phs s = .ok s') :
    s'.user.Owns g refs pgd₀ ∧ (∀ ph ∈ phs, ph.Loads → ph.Placed) ∧
      (∀ va < 2 ^ 39, s'.user.flags va = phs.foldl (flagsStep va) (s.user.flags va)) ∧
      ((∀ ph ∈ phs, ph.Seekable) → ∀ va < 2 ^ 39,
        s'.user.byte va = phs.foldl (byteStep file va) (s.user.byte va) ∧
        ∀ ph ∈ phs, ph.Loads → ph.FileCovers va → ph.fileOffset va < file.data.length) := by
  induction phs generalizing s with
  | nil =>
    cases hok
    exact ⟨h, by simp, fun _ _ => rfl, fun _ _ _ => ⟨rfl, by simp⟩⟩
  | cons ph rest ih =>
    unfold loadSegments at hok
    obtain ⟨s1, hseg, hok⟩ := bind_eq_ok.mp hok
    obtain ⟨h1, hplaced, hflags, hbytes⟩ := loadSegment_spec h hseg
    obtain ⟨h2, hplaced', hflags', hbytes'⟩ := ih h1 hok
    refine ⟨h2, fun q hq => ?_, fun va hva => ?_, fun hseek va hva => ?_⟩
    · rcases List.mem_cons.mp hq with rfl | hq
      · exact hplaced
      · exact hplaced' q hq
    · rw [hflags' va hva, hflags va hva, List.foldl_cons]
    · obtain ⟨hb, hf⟩ := hbytes (hseek ph List.mem_cons_self) va hva
      obtain ⟨hb', hf'⟩ := hbytes' (fun q hq => hseek q (List.mem_cons_of_mem _ hq)) va hva
      refine ⟨by rw [hb', hb, List.foldl_cons], fun q hq => ?_⟩
      rcases List.mem_cons.mp hq with rfl | hq
      · exact hf
      · exact hf' q hq

end Segments

end Perspicua.Core.Elf
