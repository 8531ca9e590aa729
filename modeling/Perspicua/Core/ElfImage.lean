import Perspicua.Core.ElfTheorems

/-!
# Images

What `elf_load` accepts and what it makes of it. Two segments may share a page, and then neither
keeps what it asked for: of an executable and another one the page is executable for neither, and
a segment that lies on file bytes of an earlier one does not clear them with its zeros. A table or
a segment behind the largest file offset is read from wherever the file stands.
-/

namespace Perspicua.Core.Elf

open Perspicua.Lib Perspicua.Mm

/-! ## The headers of a file -/

namespace ElfFile

variable (file : ElfFile)

def hdr : Header := header (file.data.take headerSize)

/-- The program header table at an offset of the file. -/
def tableAt (pos : ℕ) : List ProgHeader :=
  (List.range file.hdr.phNum).map
    (progHeader ((file.data.drop pos).take (file.hdr.phNum * progHeaderSize)))

/-- The program headers of the file. -/
def progHeaders : List ProgHeader := file.tableAt file.hdr.phOffset.toNat

/-- Where the loader reads the table: a seek that is refused leaves it behind the header. -/
def tablePos : ℕ := if file.hdr.phOffset.msb then headerSize else file.hdr.phOffset.toNat

/-- The program headers that the loader goes by. -/
def headersRead : List ProgHeader := file.tableAt file.tablePos

end ElfFile

section Load

variable {g : Pmm} {refs : Block → ℕ} {pgd₀ : Pgd} {env : Env} {file : ElfFile} {user user' : UserMem}
  {entry : BitVec 64}

/-- What a load that succeeds has found and done. -/
structure Loaded (file : ElfFile) (entry : BitVec 64) (user user' : UserMem) : Prop where
  entry_eq : entry = file.hdr.entry
  table : file.tablePos + file.hdr.phNum * progHeaderSize ≤ file.data.length
  placed : ∀ ph ∈ file.headersRead, ph.Loads → ph.Placed
  flags : ∀ va < 2 ^ 39, user'.flags va = file.headersRead.foldl (flagsStep va) (user.flags va)
  bytes : (∀ ph ∈ file.headersRead, ph.Seekable) → ∀ va < 2 ^ 39,
    user'.byte va = file.headersRead.foldl (byteStep file va) (user.byte va) ∧
    ∀ ph ∈ file.headersRead, ph.Loads → ph.FileCovers va → ph.fileOffset va < file.data.length

theorem elfLoad_spec (h : user.Owns g refs pgd₀) (hopen : env.opened = .ok file)
    (hok : elfLoad env user = .ok (entry, user')) :
    user'.Owns g refs pgd₀ ∧ Loaded file entry user user' := by
  unfold elfLoad at hok
  rw [hopen] at hok
  obtain ⟨⟨bytes, s1⟩, hread, hok⟩ := bind_eq_ok.mp hok
  obtain ⟨huser1, -, -, hbytes, hpos1⟩ := readExactly_spec hread
  rw [List.drop_zero] at hbytes
  dsimp only at hok huser1 hpos1
  have hhdr : header bytes = file.hdr := by rw [hbytes, ElfFile.hdr]
  rw [hhdr] at hok
  split at hok
  · cases hok
  split at hok
  · cases hok
  rename_i hnum
  split at hok
  · cases hok
  split at hok
  · cases hok
  split at hok
  · cases hok
  obtain ⟨⟨table, s2⟩, hread2, hok⟩ := bind_eq_ok.mp hok
  obtain ⟨huser2, -, hin, htable, -⟩ := readExactly_spec hread2
  obtain ⟨s3, hload, hok⟩ := bind_eq_ok.mp hok
  cases hok
  have hpos : (vfsLseek s1 file.hdr.phOffset).pos = file.tablePos := by
    unfold vfsLseek ElfFile.tablePos
    split
    · rw [hpos1, Nat.zero_add]
    · rfl
  have huser : s2.user = user := by
    rw [huser2, ← huser1]
    unfold vfsLseek
    split <;> rfl
  rw [hpos] at hin htable
  have hheaders : (List.range file.hdr.phNum).map (progHeader table) = file.headersRead := by
    rw [htable]
    rfl
  rw [hheaders] at hload
  rw [← huser] at h ⊢
  obtain ⟨howns, hplaced, hflags, hbytes'⟩ := loadSegments_spec h hload
  have hpos' : 0 < file.hdr.phNum * progHeaderSize := by
    rw [not_or] at hnum
    unfold progHeaderSize
    omega
  exact ⟨howns, rfl, hin hpos', hplaced, hflags, hbytes'⟩

end Load

/-- Nothing is mapped. -/
def Empty (user : UserMem) : Prop := ∀ va, mmuUserQuery user.pgd va = none

theorem Empty.flags {user : UserMem} (h : Empty user) (va : ℕ) : user.flags va = none := by
  unfold UserMem.flags
  rw [h va]
  rfl

theorem Empty.byte {user : UserMem} (h : Empty user) (va : ℕ) : user.byte va = none := by
  unfold UserMem.byte
  rw [h va]
  rfl

/-- An address on a page of a segment is below the range of the stack and of `mmap`. -/
theorem ProgHeader.Placed.below_of_touches {ph : ProgHeader} (h : ph.Placed) {va : ℕ} (ht : ph.Touches va) :
    va < userVaBase := by
  have h1 := h.below
  have h2 := ht.2.2
  unfold userVaBase at *
  unfold pageSize at h2
  omega

/-! ## Permissions -/

section Permissions

variable {g : Pmm} {refs : Block → ℕ} {pgd₀ : Pgd} {env : Env} {file : ElfFile} {user user' : UserMem}
  {entry : BitVec 64} {phs : List ProgHeader} {va : ℕ}

/-- User mode can execute at the address. -/
def Executable (m : UserMem) (va : ℕ) : Prop :=
  ∃ f, m.flags va = some f ∧ has f apUser = true ∧ has f uxn = false

/-- User mode can write at the address. -/
def Writable (m : UserMem) (va : ℕ) : Prop :=
  ∃ f, m.flags va = some f ∧ has f apUser = true ∧ has f apRo = false

/-- The flags of a page that executable segments share (`x`), and others (`d`). -/
structure Shared (x d : Prop) (o : Option Word) : Prop where
  none : ¬ x → ¬ d → o = none
  code : x → ¬ d → o = some pageUserCode
  data : ¬ x → d → o = some pageUserData
  both : x → d → ∃ f, o = some f ∧ has f uxn = true

theorem Shared.exec {x d : Prop} {o : Option Word} (h : Shared x d o) :
    Shared True d (some (mergeFlags o pageUserCode)) := by
  refine ⟨fun hx => absurd trivial hx, fun _ hd => ?_, fun hx => absurd trivial hx, fun _ hd => ?_⟩
  · by_cases hx : x
    · rw [h.code hx hd]
      rfl
    · rw [h.none hx hd]
      rfl
  · by_cases hx : x
    · obtain ⟨f, rfl, hf⟩ := h.both hx hd
      exact ⟨f, congrArg some (if_pos hf), hf⟩
    · rw [h.data hx hd]
      exact ⟨pageUserData, rfl, by decide⟩

theorem Shared.other {x d : Prop} {o : Option Word} (h : Shared x d o) :
    Shared x True (some (mergeFlags o pageUserData)) := by
  refine ⟨fun _ hd => absurd trivial hd, fun _ hd => absurd trivial hd, fun hx _ => ?_, fun hx _ => ?_⟩
  · by_cases hd : d
    · rw [h.data hx hd]
      rfl
    · rw [h.none hx hd]
      rfl
  · by_cases hd : d
    · obtain ⟨f, rfl, hf⟩ := h.both hx hd
      exact ⟨f, congrArg some (if_pos hf), hf⟩
    · rw [h.code hx hd]
      exact ⟨pageUserCode ||| pageUserData, rfl, by decide⟩

theorem Shared.congr {x d x' d' : Prop} {o : Option Word} (h : Shared x d o) (hx : x ↔ x') (hd : d ↔ d') :
    Shared x' d' o := by
  rw [← propext hx, ← propext hd]
  exact h

/-- The flags after any part of the table. -/
theorem shared_foldl (phs : List ProgHeader) (va : ℕ) :
    Shared (∃ ph ∈ phs, ph.Touches va ∧ ph.isExec = true) (∃ ph ∈ phs, ph.Touches va ∧ ph.isExec = false)
      (phs.foldl (flagsStep va) none) := by
  induction phs using List.reverseRecOn with
  | nil =>
    refine ⟨fun _ _ => rfl, ?_, ?_, ?_⟩
    · rintro ⟨ph, hph, -⟩
      cases hph
    · rintro - ⟨ph, hph, -⟩
      cases hph
    · rintro ⟨ph, hph, -⟩
      cases hph
  | append_singleton phs ph ih =>
    rw [List.foldl_concat]
    unfold flagsStep
    by_cases ht : ph.Touches va
    · rw [if_pos ht]
      unfold ProgHeader.mmuFlags
      cases hx : ph.isExec with
      | true =>
        rw [if_pos rfl]
        refine ih.exec.congr ?_ ?_
        · refine ⟨fun _ => ⟨ph, by simp, ht, hx⟩, fun _ => trivial⟩
        · simp [or_and_right, exists_or, hx]
      | false =>
        rw [if_neg Bool.false_ne_true]
        refine ih.other.congr ?_ ?_
        · simp [or_and_right, exists_or, hx]
        · exact ⟨fun _ => ⟨ph, by simp, ht, hx⟩, fun _ => trivial⟩
    · rw [if_neg ht]
      refine ih.congr ?_ ?_
      · simp [or_and_right, exists_or, ht]
      · simp [or_and_right, exists_or, ht]

/-- Every page of an executable segment can be executed and every page of another that is writable
can be written exactly if no page belongs to an executable segment and to another. -/
theorem elf_permissions_iff (h : user.Owns g refs pgd₀) (hempty : Empty user) (hopen : env.opened = .ok file)
    (hok : elfLoad env user = .ok (entry, user')) :
    (∀ ph ∈ file.headersRead, ∀ va, ph.Touches va →
      (ph.isExec = true → Executable user' va) ∧
      (ph.isWrite = true → ph.isExec = false → Writable user' va)) ↔
    ∀ ph ∈ file.headersRead, ∀ q ∈ file.headersRead, ∀ va, ph.Touches va → q.Touches va →
      ph.isExec = q.isExec := by
  obtain ⟨-, hload⟩ := elfLoad_spec h hopen hok
  have hshared : ∀ ph ∈ file.headersRead, ∀ va, ph.Touches va →
      Shared (∃ ph ∈ file.headersRead, ph.Touches va ∧ ph.isExec = true)
        (∃ ph ∈ file.headersRead, ph.Touches va ∧ ph.isExec = false) (user'.flags va) := by
    intro ph hph va ht
    have hbelow := (hload.placed ph hph ht.1).below_of_touches ht
    unfold userVaBase at hbelow
    rw [hload.flags va (by omega), hempty.flags va]
    exact shared_foldl file.headersRead va
  -- a page of both kinds cannot be executed
  have hmixed : ∀ ph ∈ file.headersRead, ∀ q ∈ file.headersRead, ∀ va, ph.Touches va → q.Touches va →
      ph.isExec = true → q.isExec = false → ¬ Executable user' va := by
    rintro ph hph q hq va ht ht' hx hd ⟨f, hf, -, hfu⟩
    obtain ⟨f', hf', hfu'⟩ := (hshared ph hph va ht).both ⟨ph, hph, ht, hx⟩ ⟨q, hq, ht', hd⟩
    rw [hf] at hf'
    cases hf'
    rw [hfu] at hfu'
    cases hfu'
  constructor
  · intro hperm ph hph q hq va ht ht'
    by_contra hne
    cases hx : ph.isExec with
    | true =>
      have hd : q.isExec = false := by
        cases hq' : q.isExec with
        | true => exact absurd (hx.trans hq'.symm) hne
        | false => rfl
      exact hmixed ph hph q hq va ht ht' hx hd ((hperm ph hph va ht).1 hx)
    | false =>
      have hx' : q.isExec = true := by
        cases hq' : q.isExec with
        | true => rfl
        | false => exact absurd (hx.trans hq'.symm) hne
      exact hmixed q hq ph hph va ht' ht hx' hx ((hperm q hq va ht').1 hx')
  · intro hsame ph hph va ht
    refine ⟨fun hx => ?_, fun _ hd => ?_⟩
    · have hcode := (hshared ph hph va ht).code ⟨ph, hph, ht, hx⟩ (by
        rintro ⟨q, hq, ht', hd⟩
        rw [hsame ph hph q hq va ht ht', hd] at hx
        cases hx)
      exact ⟨_, hcode, by decide, by decide⟩
    · have hdata := (hshared ph hph va ht).data (by
        rintro ⟨q, hq, ht', hx⟩
        rw [hsame ph hph q hq va ht ht', hx] at hd
        cases hd) ⟨ph, hph, ht, hd⟩
      exact ⟨_, hdata, by decide, by decide⟩

end Permissions

/-! ## Contents -/

section Contents

variable {g : Pmm} {refs : Block → ℕ} {pgd₀ : Pgd} {env : Env} {file : ElfFile} {user user' : UserMem}
  {entry : BitVec 64} {phs : List ProgHeader} {va : ℕ}

/-- The last segment of the table that the address belongs to. -/
def lastCover (phs : List ProgHeader) (va : ℕ) : Option ProgHeader :=
  (phs.filter fun ph => ph.Loads ∧ ph.Covers va).getLast?

/-- The last segment that has a file byte for the address. -/
def lastFile (phs : List ProgHeader) (va : ℕ) : Option ProgHeader :=
  (phs.filter fun ph => ph.Loads ∧ ph.FileCovers va).getLast?

/-- The byte of a segment at one of its addresses: its file bytes, then zeros. -/
def ProgHeader.byteAt (file : ElfFile) (va : ℕ) (ph : ProgHeader) : UInt8 :=
  if ph.FileCovers va then file.data.getD (ph.fileOffset va) 0 else 0

/-- Segments laid down one over the other. -/
def imageByte (file : ElfFile) (phs : List ProgHeader) (va : ℕ) : UInt8 :=
  ((lastCover phs va).map (ProgHeader.byteAt file va)).getD 0

/-- What memory has to be after a load: the segments of the file, and nothing else. -/
structure Image (file : ElfFile) (entry : BitVec 64) (user' : UserMem) : Prop where
  entry_eq : entry = file.hdr.entry
  table : file.hdr.phOffset.toNat + file.hdr.phNum * progHeaderSize ≤ file.data.length
  segments : ∀ ph ∈ file.progHeaders, ph.Loads → ph.fileSize ≠ 0 →
    ph.offset.toNat + ph.fileSize.toNat ≤ file.data.length
  bytes : ∀ va < 2 ^ 39, user'.byte va =
    if ∃ ph ∈ file.progHeaders, ph.Touches va then some (imageByte file file.progHeaders va) else none
  below : ∀ va < 2 ^ 39, user'.byte va ≠ none → va < userVaBase

/-- A file that the loader gets right: the table and the segments can be sought, and where the last
segment of an address has no file byte, no earlier one has a byte other than zero. -/
structure Plain (file : ElfFile) : Prop where
  table : file.hdr.phOffset.toNat < 2 ^ 63
  segments : ∀ ph ∈ file.progHeaders, ph.Seekable
  zeros : ∀ va ph q, lastCover file.progHeaders va = some ph → ¬ ph.FileCovers va →
    lastFile file.progHeaders va = some q → file.data.getD (q.fileOffset va) 0 = 0

theorem mem_of_getLast?_filter {p : ProgHeader → Bool} {ph : ProgHeader}
    (h : (phs.filter p).getLast? = some ph) : ph ∈ phs ∧ p ph = true :=
  List.mem_filter.mp (List.mem_of_getLast? h)

theorem getLast?_filter_concat {p : ProgHeader → Bool} {ph : ProgHeader} (h : p ph = true) :
    ((phs ++ [ph]).filter p).getLast? = some ph := by
  rw [List.filter_append, List.filter_cons_of_pos h, List.filter_nil, List.getLast?_concat]

theorem lastFile_concat {ph : ProgHeader} (h : ph.Loads ∧ ph.FileCovers va) :
    lastFile (phs ++ [ph]) va = some ph := getLast?_filter_concat (decide_eq_true h)

theorem lastFile_concat_of_not {ph : ProgHeader} (h : ¬ (ph.Loads ∧ ph.FileCovers va)) :
    lastFile (phs ++ [ph]) va = lastFile phs va := by
  unfold lastFile
  rw [List.filter_append, List.filter_cons_of_neg (by rw [decide_eq_true_iff]; exact h), List.filter_nil,
    List.append_nil]

/-- The bytes after the whole table. -/
theorem foldl_byteStep (hplaced : ∀ ph ∈ phs, ph.Loads → ph.Placed) (va : ℕ) :
    phs.foldl (byteStep file va) none =
      if ∃ ph ∈ phs, ph.Touches va then
        some (((lastFile phs va).map fun ph => file.data.getD (ph.fileOffset va) 0).getD 0)
      else none := by
  induction phs using List.reverseRecOn with
  | nil => simp
  | append_singleton phs ph ih =>
    have ih' := ih fun q hq => hplaced q (List.mem_append_left _ hq)
    rw [List.foldl_concat, ih']
    unfold byteStep
    by_cases ht : ph.Touches va
    · have hex : ∃ q ∈ phs ++ [ph], q.Touches va := ⟨ph, by simp, ht⟩
      rw [if_pos ht, if_pos hex]
      by_cases hf : ph.FileCovers va
      · rw [if_pos hf, lastFile_concat ⟨ht.1, hf⟩]
        rfl
      · rw [if_neg hf, lastFile_concat_of_not fun hc => hf hc.2]
        by_cases hin : ∃ q ∈ phs, q.Touches va
        · rw [if_pos hin]
          rfl
        · -- no segment before this one touches the page
          have hnone : lastFile phs va = none := by
            cases hl : lastFile phs va with
            | none => rfl
            | some q =>
              obtain ⟨hq, hp⟩ := mem_of_getLast?_filter hl
              obtain ⟨hloads, hcov⟩ := of_decide_eq_true hp
              exact absurd ⟨q, hq, ((hplaced q (List.mem_append_left _ hq) hloads).covers hcov).touches hloads⟩ hin
          rw [if_neg hin, hnone]
          rfl
    · have hno : ¬ (ph.Loads ∧ ph.FileCovers va) := fun hc =>
        ht (((hplaced ph (by simp) hc.1).covers hc.2).touches hc.1)
      rw [if_neg ht, lastFile_concat_of_not hno]
      refine if_congr ?_ rfl rfl
      simp [or_and_right, exists_or, ht]

/-- Where the last segment of an address has a file byte, that is the last file byte. -/
theorem lastFile_of_lastCover {ph : ProgHeader} (hplaced : ∀ ph ∈ phs, ph.Loads → ph.Placed)
    (hlast : lastCover phs va = some ph) (hf : ph.FileCovers va) : lastFile phs va = some ph := by
  have hfilter : phs.filter (fun q => q.Loads ∧ q.FileCovers va) =
      (phs.filter fun q => q.Loads ∧ q.Covers va).filter fun q => q.FileCovers va := by
    rw [List.filter_filter]
    refine List.filter_congr fun q hq => ?_
    rw [← Bool.decide_and]
    refine decide_eq_decide.mpr ⟨fun hc => ⟨hc.2, hc.1, (hplaced q hq hc.1).covers hc.2⟩, fun hc => ⟨hc.2.1, hc.1⟩⟩
  obtain ⟨init, hinit⟩ := List.getLast?_eq_some_iff.mp hlast
  unfold lastFile
  rw [hfilter, hinit]
  exact getLast?_filter_concat (decide_eq_true hf)

/-- The byte that the loader leaves is the right one exactly if no zero had to be laid over another
byte. -/
theorem lastFile_eq_imageByte_iff (hplaced : ∀ ph ∈ phs, ph.Loads → ph.Placed) :
    ((lastFile phs va).map fun ph => file.data.getD (ph.fileOffset va) 0).getD 0 = imageByte file phs va ↔
      ∀ ph q, lastCover phs va = some ph → ¬ ph.FileCovers va → lastFile phs va = some q →
        file.data.getD (q.fileOffset va) 0 = 0 := by
  unfold imageByte
  cases hcover : lastCover phs va with
  | none =>
    have hnone : lastFile phs va = none := by
      cases hl : lastFile phs va with
      | none => rfl
      | some q =>
        obtain ⟨hq, hp⟩ := mem_of_getLast?_filter hl
        obtain ⟨hloads, hcov⟩ := of_decide_eq_true hp
        have hempty := List.getLast?_eq_none_iff.mp hcover
        have hmem : q ∈ phs.filter fun ph => ph.Loads ∧ ph.Covers va :=
          List.mem_filter.mpr ⟨hq, decide_eq_true ⟨hloads, (hplaced q hq hloads).covers hcov⟩⟩
        rw [hempty] at hmem
        cases hmem
    rw [hnone]
    simp
  | some ph =>
    by_cases hf : ph.FileCovers va
    · rw [lastFile_of_lastCover hplaced hcover hf]
      simp [ProgHeader.byteAt, hf]
    · cases hl : lastFile phs va with
      | none => simp [ProgHeader.byteAt, hf]
      | some q => simp [ProgHeader.byteAt, hf]

/-- A load that succeeds has laid the image down exactly if the file is plain. -/
theorem elf_image_iff (h : user.Owns g refs pgd₀) (hempty : Empty user) (hopen : env.opened = .ok file)
    (hok : elfLoad env user = .ok (entry, user')) : Image file entry user' ↔ Plain file := by
  obtain ⟨-, hload⟩ := elfLoad_spec h hopen hok
  have hsize := file.size_lt
  by_cases hmsb : file.hdr.phOffset.toNat < 2 ^ 63
  swap
  · -- no file is so long that the table could be in it
    exact ⟨fun himage => absurd himage.table (by omega), fun hplain => absurd hplain.table hmsb⟩
  have hread : file.headersRead = file.progHeaders := by
    have hfalse : file.hdr.phOffset.msb = false := by
      rw [BitVec.msb_eq_false_iff_two_mul_lt]
      omega
    unfold ElfFile.headersRead ElfFile.tablePos ElfFile.progHeaders
    rw [hfalse, if_neg Bool.false_ne_true]
  have htable : file.hdr.phOffset.toNat + file.hdr.phNum * progHeaderSize ≤ file.data.length := by
    have := hload.table
    unfold ElfFile.tablePos at this
    rw [BitVec.msb_eq_false_iff_two_mul_lt.mpr (by omega), if_neg Bool.false_ne_true] at this
    exact this
  have hplaced := hload.placed
  have hbytes := hload.bytes
  rw [hread] at hplaced hbytes
  by_cases hseek : ∀ ph ∈ file.progHeaders, ph.Seekable
  swap
  · refine ⟨fun himage => ?_, fun hplain => absurd hplain.segments hseek⟩
    exfalso
    refine hseek fun ph hph hloads hne => ?_
    have := himage.segments ph hph hloads hne
    omega
  have hbyte : ∀ va < 2 ^ 39, user'.byte va = if ∃ ph ∈ file.progHeaders, ph.Touches va then
      some (((lastFile file.progHeaders va).map fun ph => file.data.getD (ph.fileOffset va) 0).getD 0)
      else none := by
    intro va hva
    rw [(hbytes hseek va hva).1, hempty.byte va]
    exact foldl_byteStep hplaced va
  constructor
  · intro himage
    refine ⟨hmsb, hseek, fun va ph q hcover hf hlast => ?_⟩
    obtain ⟨hph, hp⟩ := mem_of_getLast?_filter hcover
    obtain ⟨hloads, hcov⟩ := of_decide_eq_true hp
    have htouch := hcov.touches hloads
    have hbelow := (hplaced ph hph hloads).below_of_touches htouch
    have hva : va < 2 ^ 39 := by
      unfold userVaBase at hbelow
      omega
    have heq := hbyte va hva
    rw [himage.bytes va hva, if_pos ⟨ph, hph, htouch⟩, if_pos ⟨ph, hph, htouch⟩] at heq
    exact (lastFile_eq_imageByte_iff hplaced).mp (Option.some.inj heq).symm ph q hcover hf hlast
  · intro hplain
    refine ⟨hload.entry_eq, htable, fun ph hph hloads hne => ?_, fun va hva => ?_, fun va hva hmapped => ?_⟩
    · -- the last file byte of the segment is in the file
      have hp := hplaced ph hph hloads
      have hpos : 0 < ph.fileSize.toNat := by
        apply Nat.pos_of_ne_zero
        intro hzero
        exact hne (BitVec.eq_of_toNat_eq hzero)
      have hbelow := hp.below
      have hle := hp.fileSize_le
      unfold userVaBase at hbelow
      have hlast := (hbytes hseek (ph.vaddr.toNat + ph.fileSize.toNat - 1) (by omega)).2 ph hph hloads
        ⟨by omega, by omega⟩
      unfold ProgHeader.fileOffset at hlast
      omega
    · rw [hbyte va hva, (lastFile_eq_imageByte_iff hplaced).mpr fun ph q => hplain.zeros va ph q]
    · rw [hbyte va hva] at hmapped
      by_cases hex : ∃ ph ∈ file.progHeaders, ph.Touches va
      · obtain ⟨ph, hph, ht⟩ := hex
        exact (hplaced ph hph ht.1).below_of_touches ht
      · rw [if_neg hex] at hmapped
        exact absurd rfl hmapped

end Contents

/-! ## A small image -/

/-- A segment of one byte at address `0x1000`, with `fileSize` bytes from the start of the file. -/
def sampleHeader (flags fileSize : UInt8) : List UInt8 :=
  [1, 0, 0, 0, flags, 0, 0, 0] ++ List.replicate 8 0 ++ [0, 0x10] ++ List.replicate 14 0 ++
    [fileSize] ++ List.replicate 7 0 ++ [1] ++ List.replicate 15 0

/-- An image of two such segments. -/
def sampleImage (flags₁ fileSize₁ flags₂ fileSize₂ : UInt8) : List UInt8 :=
  [0x7f, 0x45, 0x4c, 0x46, 2, 1] ++ List.replicate 10 0 ++ [2, 0, 183, 0, 0, 0, 0, 0, 0, 0x10] ++
    List.replicate 6 0 ++ [64] ++ List.replicate 21 0 ++ [56, 0, 2, 0] ++ List.replicate 6 0 ++
    sampleHeader flags₁ fileSize₁ ++ sampleHeader flags₂ fileSize₂

def sampleFile (flags₁ fileSize₁ flags₂ fileSize₂ : UInt8) : ElfFile :=
  ⟨sampleImage flags₁ fileSize₁ flags₂ fileSize₂, by
    have hlen : (sampleImage flags₁ fileSize₁ flags₂ fileSize₂).length = 176 := rfl
    omega⟩

/-- Reads get everything. -/
def sampleEnv (file : ElfFile) : Env := ⟨.ok file, fun _ => .ok 4096, true⟩

/-- The address space that a load starts from, on a machine of sixteen pages. -/
def sampleUser : Except Panic UserMem := do
  let pmm ← Pmm.boot.pmmInit 0x10000 kernelVma
  match ← allocUserTablePage pmm with
  | (none, _) => .error "mmu: table allocation failed"
  | (some page, pmm) => .ok ⟨Pgd.empty page, pmm, fun _ => 0xAA⟩

theorem sampleUser_owns {user : UserMem} (hok : sampleUser = .ok user) :
    Empty user ∧ ∃ g refs, user.Owns g refs user.pgd := by
  unfold sampleUser at hok
  obtain ⟨pmm, hinit, hok⟩ := bind_eq_ok.mp hok
  obtain ⟨⟨r, pmm'⟩, halloc, hok⟩ := bind_eq_ok.mp hok
  cases r with
  | none => cases hok
  | some page =>
    cases hok
    obtain ⟨hinv, -, hpages⟩ := Pmm.pmmInit_inv rfl hinit
    have howns := UserMem.Owns.fresh hinv (by rw [hpages]; decide) halloc fun _ => 0xAA
    exact ⟨fun va => howns.ok.query_eq_none.mpr (show has 0#64 pteValid = false by decide), _, _, howns⟩

/-- An executable segment and a writable one on one page: the image is loaded, and the page can be
executed no more. -/
theorem shared_page_not_executable : ∃ g refs user entry user',
    UserMem.Owns g refs user.pgd user ∧ Empty user ∧
    elfLoad (sampleEnv (sampleFile 5 0 6 0)) user = .ok (entry, user') ∧
    ¬ ∀ ph ∈ (sampleFile 5 0 6 0).headersRead, ∀ va, ph.Touches va →
      (ph.isExec = true → Executable user' va) ∧
      (ph.isWrite = true → ph.isExec = false → Writable user' va) := by
  have hrun : (do
      let user ← kernel sampleUser
      let r ← elfLoad (sampleEnv (sampleFile 5 0 6 0)) user
      .ok (r.2.flags 0x1000) : Except Stop (Option Word)) = .ok (some (pageUserCode ||| pageUserData)) := by
    decide +kernel
  obtain ⟨user, huser, hrun⟩ := bind_eq_ok.mp hrun
  obtain ⟨⟨entry, user'⟩, hload, hrun⟩ := bind_eq_ok.mp hrun
  obtain ⟨hempty, g, refs, howns⟩ := sampleUser_owns (kernel_eq_ok.mp huser)
  refine ⟨g, refs, user, entry, user', howns, hempty, hload, fun hall => ?_⟩
  have hsegment : ∃ ph ∈ (sampleFile 5 0 6 0).headersRead, ph.Touches 0x1000 ∧ ph.isExec = true := by
    decide +kernel
  obtain ⟨ph, hph, ht, hx⟩ := hsegment
  obtain ⟨f, hf, -, hfu⟩ := (hall ph hph 0x1000 ht).1 hx
  rw [Except.ok.inj hrun] at hf
  cases hf
  exact absurd hfu (by decide)

/-- Two executable segments on one page. -/
theorem elf_permissions_iff_sample : ∃ g refs user entry user',
    UserMem.Owns g refs user.pgd user ∧ Empty user ∧
    elfLoad (sampleEnv (sampleFile 5 0 5 0)) user = .ok (entry, user') ∧
    ((∀ ph ∈ (sampleFile 5 0 5 0).headersRead, ∀ va, ph.Touches va →
      (ph.isExec = true → Executable user' va) ∧
      (ph.isWrite = true → ph.isExec = false → Writable user' va)) ↔
    ∀ ph ∈ (sampleFile 5 0 5 0).headersRead, ∀ q ∈ (sampleFile 5 0 5 0).headersRead, ∀ va,
      ph.Touches va → q.Touches va → ph.isExec = q.isExec) := by
  have hrun : (do
      let user ← kernel sampleUser
      let r ← elfLoad (sampleEnv (sampleFile 5 0 5 0)) user
      .ok r.1.toNat : Except Stop ℕ) = .ok 0x1000 := by
    decide +kernel
  obtain ⟨user, huser, hrun⟩ := bind_eq_ok.mp hrun
  obtain ⟨⟨entry, user'⟩, hload, -⟩ := bind_eq_ok.mp hrun
  obtain ⟨hempty, g, refs, howns⟩ := sampleUser_owns (kernel_eq_ok.mp huser)
  exact ⟨g, refs, user, entry, user', howns, hempty, hload,
    elf_permissions_iff howns hempty rfl hload⟩

/-- A segment of one zero byte over a segment with a file byte: the file byte stays. -/
theorem zeros_not_laid_down : ∃ g refs user entry user',
    UserMem.Owns g refs user.pgd user ∧ Empty user ∧
    elfLoad (sampleEnv (sampleFile 6 1 6 0)) user = .ok (entry, user') ∧
    user'.byte 0x1000 = some 0x7f ∧ imageByte (sampleFile 6 1 6 0) (sampleFile 6 1 6 0).progHeaders 0x1000 = 0 ∧
    ¬ Image (sampleFile 6 1 6 0) entry user' := by
  have hrun : (do
      let user ← kernel sampleUser
      let r ← elfLoad (sampleEnv (sampleFile 6 1 6 0)) user
      .ok (r.2.byte 0x1000) : Except Stop (Option UInt8)) = .ok (some 0x7f) := by
    decide +kernel
  obtain ⟨user, huser, hrun⟩ := bind_eq_ok.mp hrun
  obtain ⟨⟨entry, user'⟩, hload, hrun⟩ := bind_eq_ok.mp hrun
  obtain ⟨hempty, g, refs, howns⟩ := sampleUser_owns (kernel_eq_ok.mp huser)
  have hbyte : user'.byte 0x1000 = some 0x7f := Except.ok.inj hrun
  have himage : imageByte (sampleFile 6 1 6 0) (sampleFile 6 1 6 0).progHeaders 0x1000 = 0 := by
    decide +kernel
  have hmapped : ∃ ph ∈ (sampleFile 6 1 6 0).progHeaders, ph.Touches 0x1000 := by decide +kernel
  refine ⟨g, refs, user, entry, user', howns, hempty, hload, hbyte, himage, fun hc => ?_⟩
  have heq := hc.bytes 0x1000 (by decide)
  rw [if_pos hmapped, hbyte, himage] at heq
  exact absurd heq (by decide)

/-- Two segments on one page, the second with a file byte. -/
theorem elf_image_iff_sample : ∃ g refs user entry user',
    UserMem.Owns g refs user.pgd user ∧ Empty user ∧
    elfLoad (sampleEnv (sampleFile 6 0 6 1)) user = .ok (entry, user') ∧
    (Image (sampleFile 6 0 6 1) entry user' ↔ Plain (sampleFile 6 0 6 1)) := by
  have hrun : (do
      let user ← kernel sampleUser
      let r ← elfLoad (sampleEnv (sampleFile 6 0 6 1)) user
      .ok r.1.toNat : Except Stop ℕ) = .ok 0x1000 := by
    decide +kernel
  obtain ⟨user, huser, hrun⟩ := bind_eq_ok.mp hrun
  obtain ⟨⟨entry, user'⟩, hload, -⟩ := bind_eq_ok.mp hrun
  obtain ⟨hempty, g, refs, howns⟩ := sampleUser_owns (kernel_eq_ok.mp huser)
  exact ⟨g, refs, user, entry, user', howns, hempty, hload, elf_image_iff howns hempty rfl hload⟩

end Perspicua.Core.Elf
