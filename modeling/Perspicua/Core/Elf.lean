import Perspicua.Mm.UserMemory

/-!
# The ELF loader

`kernel/core/elf.c`. The file is what `vfs_open` found, with its position; a read gets bytes from
the position on, as many as are asked for, as are there and as the file system manages, or fails.
An `elf_load` that does not succeed ends with `Stop`, and what it leaves behind is dropped with the
address space.
-/

namespace Perspicua.Core.Elf

open Perspicua.Mm

def enomem : ℤ := 12
def enoexec : ℤ := 8

/-- `USER_VA_BASE` -/
def userVaBase : ℕ := 0x40000000

/-- Why the loader gives up. -/
inductive Stop
  | panic (msg : Panic)
  | ret (err : ℤ)
deriving DecidableEq

/-- A call into the memory manager. -/
def kernel {α : Type} (x : Except Panic α) : Except Stop α := x.mapError Stop.panic

/-! ## The file -/

/-- The contents of a file; its size is a `vfs_off_t`. -/
structure ElfFile where
  data : List UInt8
  size_lt : data.length < 2 ^ 63

structure Env where
  /-- `vfs_open` -/
  opened : Except ℤ ElfFile
  /-- How many bytes the `n`-th read can get at most, or its error. -/
  io : ℕ → Except ℤ ℕ
  /-- `heap_malloc` has memory for the table. -/
  heap : Bool

/-- The address space, the position of the file and how many reads were made. -/
structure State where
  user : UserMem
  pos : ℕ
  reads : ℕ

/-- `vfs_lseek` with `SEEK_SET`: a negative offset is refused and the position stays. The loader
does not look at the result. -/
def vfsLseek (s : State) (offset : BitVec 64) : State :=
  if offset.msb then s else { s with pos := offset.toNat }

def vfsRead (env : Env) (file : ElfFile) (s : State) (count : ℕ) : Except ℤ (List UInt8) × State :=
  match env.io s.reads with
  | .error rc => (.error rc, { s with reads := s.reads + 1 })
  | .ok most =>
    let bytes := (file.data.drop s.pos).take (min count most)
    (.ok bytes, { s with pos := s.pos + bytes.length, reads := s.reads + 1 })

/-- A read together with the test for all its bytes: `return rc < 0 ? rc : -ENOEXEC`. -/
def readExactly (env : Env) (file : ElfFile) (s : State) (count : ℕ) : Except Stop (List UInt8 × State) :=
  match vfsRead env file s count with
  | (.error rc, _) => .error (.ret (if rc < 0 then rc else -enoexec))
  | (.ok bytes, s) => if bytes.length = count then .ok (bytes, s) else .error (.ret (-enoexec))

/-! ## Headers -/

/-- A little-endian field of `n` bytes at offset `off`. -/
def field (bs : List UInt8) (off n : ℕ) : ℕ :=
  ((bs.drop off).take n).foldr (fun b acc => b.toNat + 256 * acc) 0

/-- `struct elf64_header`, as far as it is read. -/
structure Header where
  identity : List UInt8
  type : ℕ
  machine : ℕ
  entry : BitVec 64
  phOffset : BitVec 64
  phEntrySize : ℕ
  phNum : ℕ

def headerSize : ℕ := 64

def header (bs : List UInt8) : Header :=
  { identity := bs.take 16
    type := field bs 16 2
    machine := field bs 18 2
    entry := BitVec.ofNat 64 (field bs 24 8)
    phOffset := BitVec.ofNat 64 (field bs 32 8)
    phEntrySize := field bs 54 2
    phNum := field bs 56 2 }

/-- `struct elf64_program_header`, as far as it is read. -/
structure ProgHeader where
  type : ℕ
  flags : ℕ
  offset : BitVec 64
  vaddr : BitVec 64
  fileSize : BitVec 64
  memSize : BitVec 64

def progHeaderSize : ℕ := 56

/-- Entry `i` of the program header table. -/
def progHeader (bs : List UInt8) (i : ℕ) : ProgHeader :=
  let base := i * progHeaderSize
  { type := field bs base 4
    flags := field bs (base + 4) 4
    offset := BitVec.ofNat 64 (field bs (base + 8) 8)
    vaddr := BitVec.ofNat 64 (field bs (base + 16) 8)
    fileSize := BitVec.ofNat 64 (field bs (base + 32) 8)
    memSize := BitVec.ofNat 64 (field bs (base + 40) 8) }

def elfCheckHeader (hdr : Header) : Bool :=
  (hdr.identity.take 4 == [0x7f, 0x45, 0x4c, 0x46]) && (hdr.identity.getD 4 0 == 2) &&
    (hdr.identity.getD 5 0 == 1) && (hdr.type == 2) && (hdr.machine == 183)

/-- `ELF_MAX_PHDRS` -/
def elfMaxPhdrs : ℕ := 64

/-- `ELF_PROG_LOAD` -/
def elfProgLoad : ℕ := 1

/-- `flags & ELF_PROG_FLAG_X` -/
def ProgHeader.isExec (ph : ProgHeader) : Bool := ph.flags % 2 == 1

/-- `flags & ELF_PROG_FLAG_W` -/
def ProgHeader.isWrite (ph : ProgHeader) : Bool := ph.flags / 2 % 2 == 1

/-! ## Segments -/

/-- `MMU_PAGE_USER_CODE` -/
def pageUserCode : Word := 0x20000000000FC3

/-- `MMU_PAGE_USER_DATA` -/
def pageUserData : Word := 0x60000000000F43

def ProgHeader.mmuFlags (ph : ProgHeader) : Word := if ph.isExec then pageUserCode else pageUserData

/-- The frame for a page of a segment: the one that is mapped, with its permissions changed if it
could be executed, or a new one. -/
def segmentPage (s : State) (page : ℕ) (mmuFlags : Word) : Except Stop (ℕ × State) :=
  match mmuUserQuery s.user.pgd page with
  | some (paddr, current) =>
    if has mmuFlags pageUserData && !has current uxn then do
      let pmm ← kernel (s.user.pmm.pmmHoldPage (p2v paddr))
      match ← kernel (mmuUserMapPage pmm s.user.pgd page paddr (current ||| mmuFlags)) with
      | (false, _, pmm) => do
        let _ ← kernel (pmm.pmmFreePages (p2v paddr))
        .error (.ret (-enomem))
      | (true, pgd, pmm) => .ok (paddr, { s with user := ⟨pgd, pmm, s.user.mem⟩ })
    else .ok (paddr, s)
  | none => do
    match ← kernel (s.user.mapFreshPage page mmuFlags) with
    | (none, _) => .error (.ret (-enomem))
    | (some kaddr, user) => .ok (v2p kaddr, { s with user := user })

/-- `copy_start_in_page` -/
def copyStart (vaddr page : ℕ) : ℕ := if vaddr > page then vaddr - page else 0

/-- `copy_end_in_page` -/
def copyEnd (segmentEnd page : ℕ) : ℕ :=
  if segmentEnd ≤ page then 0 else if segmentEnd ≥ page + pageSize then pageSize else segmentEnd - page

/-- The file bytes of a segment that belong to one page. -/
def copyPage (env : Env) (file : ElfFile) (s : State) (ph : ProgHeader) (page pa : ℕ) :
    Except Stop State :=
  let first := copyStart ph.vaddr.toNat page
  let last := copyEnd (ph.vaddr.toNat + ph.fileSize.toNat) page
  if first < last then do
    let s := vfsLseek s (ph.offset + BitVec.ofNat 64 (page + first - ph.vaddr.toNat))
    let (bytes, s) ← readExactly env file s (last - first)
    .ok { s with user := { s.user with mem := UserMem.store s.user.mem (pa + first) bytes } }
  else .ok s

/-- One iteration of the loop over the pages of a segment. -/
def loadPage (env : Env) (file : ElfFile) (s : State) (ph : ProgHeader) (page : ℕ) : Except Stop State := do
  let (pa, s) ← segmentPage s page ph.mmuFlags
  copyPage env file s ph page pa

/-- The loop: `n` pages are left, from `page` on. -/
def loadPages (env : Env) (file : ElfFile) (ph : ProgHeader) : ℕ → ℕ → State → Except Stop State
  | 0, _, s => .ok s
  | n + 1, page, s => do
    let s ← loadPage env file s ph page
    loadPages env file ph n (page + pageSize) s

def loadSegment (env : Env) (file : ElfFile) (s : State) (ph : ProgHeader) : Except Stop State :=
  if ph.type ≠ elfProgLoad then .ok s
  else if ph.fileSize > ph.memSize then .error (.ret (-enoexec))
  else if ph.memSize = 0 then .ok s
  else if ph.vaddr + ph.memSize < ph.vaddr ∨ (ph.vaddr + ph.memSize).toNat > userVaBase then
    .error (.ret (-enoexec))
  else
    let startVpage := ph.vaddr.toNat / pageSize
    let endVpage := (ph.vaddr.toNat + ph.memSize.toNat + (pageSize - 1)) / pageSize
    loadPages env file ph (endVpage - startVpage) (startVpage * pageSize) s

def loadSegments (env : Env) (file : ElfFile) : List ProgHeader → State → Except Stop State
  | [], s => .ok s
  | ph :: rest, s => do
    let s ← loadSegment env file s ph
    loadSegments env file rest s

/-- `elf_load`: the entry point and the address space it leaves. -/
def elfLoad (env : Env) (user : UserMem) : Except Stop (BitVec 64 × UserMem) :=
  match env.opened with
  | .error rc => .error (.ret rc)
  | .ok file => do
    let (bytes, s) ← readExactly env file { user := user, pos := 0, reads := 0 } headerSize
    let ehdr := header bytes
    if !elfCheckHeader ehdr then .error (.ret (-enoexec))
    else if ehdr.phNum = 0 ∨ ehdr.phNum > elfMaxPhdrs then .error (.ret (-enoexec))
    else if ehdr.phEntrySize ≠ progHeaderSize then .error (.ret (-enoexec))
    else if ehdr.entry = 0 ∨ ehdr.entry.toNat ≥ userVaBase then .error (.ret (-enoexec))
    else if !env.heap then .error (.ret (-enomem))
    else do
      let s := vfsLseek s ehdr.phOffset
      let (table, s) ← readExactly env file s (ehdr.phNum * progHeaderSize)
      let s ← loadSegments env file ((List.range ehdr.phNum).map (progHeader table)) s
      .ok (ehdr.entry, s.user)

end Perspicua.Core.Elf
