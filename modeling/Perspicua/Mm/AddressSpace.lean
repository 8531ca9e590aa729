import Perspicua.Lib.Run
import Perspicua.Mm.Mmu

/-!
# Processes and their address spaces

Any number of processes, each with the address space it runs in, possibly a second one it
is building (the child of a fork, the image of an exec), and the kernel operation it is in
the middle of. A step is one critical section of one process: what runs under `mmu_lock`
without interruption, one call into the page allocator, or one user store. The lock itself
is not modelled; it only rules out interleavings, and a fork here lets the others run even
between two of its entries.

The rest of the kernel uses the same page allocator. `kernelRefs` counts its references; it
allocates, holds and frees on its own account only.
-/

namespace Perspicua.Mm

open Perspicua.Lib

/-- The address space a mapping goes to: the one in use, or the one being built. -/
inductive Target
  | own
  | image
deriving DecidableEq

/-- What a process is in the middle of. -/
inductive Op
  | idle
  /-- The loops of `mmu_copy_user_pgd`; the child is the image. -/
  | fork (pos : ForkPos)
  /-- `mmu_handle_cow` between its two locked phases, before the allocation. -/
  | cowHeld (va oldPa : ℕ)
  /-- `mmu_handle_cow` between its two locked phases, with the copy made. -/
  | cowCopied (va oldPa newPage : ℕ)
  /-- A page was allocated and is about to be mapped. -/
  | mapFresh (target : Target) (va page : ℕ) (flags : Word)
  /-- `elf_load` took a reference on a page of the image to map it again with more flags. -/
  | remap (va paddr : ℕ) (flags : Word)
  /-- A page outside the allocator's memory is about to be mapped (the framebuffer). -/
  | mapDevice (va paddr : ℕ) (flags : Word)
  /-- Pages that are still to be released. -/
  | frees (pending : List Pending)

structure Proc where
  pgd : Option Pgd
  image : Option Pgd
  op : Op

def Proc.blank : Proc := { pgd := none, image := none, op := .idle }

def Proc.table (x : Proc) : Target → Option Pgd
  | .own => x.pgd
  | .image => x.image

def Proc.setTable (x : Proc) (target : Target) (pgd : Pgd) : Proc :=
  match target with
  | .own => { x with pgd := some pgd }
  | .image => { x with image := some pgd }

structure Sys (n : ℕ) where
  pmm : Pmm
  procs : Fin n → Proc
  /-- The bytes of physical memory. -/
  mem : ℕ → UInt8
  kernelRefs : Block → ℕ

namespace Sys

variable {n : ℕ}

def setProc (s : Sys n) (p : Fin n) (x : Proc) : Sys n :=
  { s with procs := Function.update s.procs p x }

/-- `memset(page, 0, PAGE_SIZE)`. -/
def zeroPage (mem : ℕ → UInt8) (page : ℕ) : ℕ → UInt8 := fun a =>
  if a / pageSize = v2p page / pageSize then 0 else mem a

/-- `memcpy(new_page, old_va, PAGE_SIZE)`. -/
def copyPage (mem : ℕ → UInt8) (newPage oldPa : ℕ) : ℕ → UInt8 := fun a =>
  if a / pageSize = v2p newPage / pageSize then mem (oldPa + a % pageSize) else mem a

/-- The process after an iteration of the fork loops. -/
def afterCopy (pmm : Pmm) (parent child : Pgd) : ForkOut → Proc
  | .next pos => { pgd := some parent, image := some child, op := .fork pos }
  | .done => { pgd := some parent, image := some child, op := .idle }
  | .oom => { pgd := some parent, image := none, op := .frees (mmuDestroyUserPgd pmm child) }

/-- The process after the first phase of `mmu_handle_cow`. -/
def afterCowFirst (x : Proc) (va : ℕ) : CowFirst → Proc
  | .fault => x
  | .promoted pgd => { x with pgd := some pgd }
  | .held oldPa => { x with op := .cowHeld va oldPa }

/-- The process after the second phase of `mmu_handle_cow`. -/
def afterCowSecond (x : Proc) (oldPa newPage : ℕ) : Option Pgd → Proc
  | none => { x with op := .frees [.leaf newPage, .leaf (p2v oldPa)] }
  | some pgd => { x with pgd := some pgd, op := .frees [.leaf (p2v oldPa), .leaf (p2v oldPa)] }

/-- The byte a process sees at a virtual address. -/
def readByte (s : Sys n) (p : Fin n) (va : ℕ) : Option UInt8 :=
  (s.procs p).pgd.bind fun pgd => (walk pgd va).bind fun r =>
    if has r.1 apUser then some (s.mem r.2) else none

/-- A user store that the translation permits. -/
inductive Store (s : Sys n) (p : Fin n) (va : ℕ) (v : UInt8) : Sys n → Prop
  | mk {pgd : Pgd} {w : Word} {pa : ℕ} (hpgd : (s.procs p).pgd = some pgd)
      (hwalk : walk pgd va = some (w, pa)) (huser : has w apUser = true)
      (hwrite : has w apRo = false) :
      Store s p va v { s with mem := Function.update s.mem pa v }

/-- One step, of process `p` or (label `none`) of the rest of the kernel. -/
inductive Step (s : Sys n) : Option (Fin n) → Sys n → Prop
  /-- `mmu_create_user_pgd` for an exec or a new process. -/
  | create {p : Fin n} {r : Option ℕ} {pmm : Pmm} (hop : (s.procs p).op = .idle)
      (himage : (s.procs p).image = none) (h : allocUserTablePage s.pmm = .ok (r, pmm)) :
      Step s (some p) ({ s with pmm := pmm }.setProc p
        { s.procs p with image := r.map Pgd.empty })
  /-- `mmu_copy_user_pgd` up to its loops. -/
  | forkStart {p : Fin n} {page : ℕ} {pmm : Pmm} {parent : Pgd}
      (hop : (s.procs p).op = .idle) (hpgd : (s.procs p).pgd = some parent)
      (himage : (s.procs p).image = none) (h : allocUserTablePage s.pmm = .ok (some page, pmm)) :
      Step s (some p) ({ s with pmm := pmm }.setProc p
        { pgd := some parent, image := some (Pgd.empty page), op := .fork (.l1 0) })
  | forkStep {p : Fin n} {pos : ForkPos} {pmm : Pmm} {parent child parent' child' : Pgd}
      {out : ForkOut} (hop : (s.procs p).op = .fork pos) (hpgd : (s.procs p).pgd = some parent)
      (himage : (s.procs p).image = some child)
      (h : mmuCopyStep s.pmm parent child pos = .ok (pmm, parent', child', out)) :
      Step s (some p) ({ s with pmm := pmm }.setProc p (afterCopy pmm parent' child' out))
  /-- The parent hands the finished address space to an unused process slot. -/
  | install {p q : Fin n} {child : Pgd} (hop : (s.procs p).op = .idle)
      (himage : (s.procs p).image = some child) (hpq : q ≠ p) (hq : s.procs q = Proc.blank) :
      Step s (some p) ((s.setProc p { s.procs p with image := none }).setProc q
        { Proc.blank with pgd := some child })
  | cowFirst {p : Fin n} {va : ℕ} {pgd : Pgd} {r : CowFirst} {pmm : Pmm}
      (hop : (s.procs p).op = .idle) (hpgd : (s.procs p).pgd = some pgd)
      (h : mmuHandleCowFirst s.pmm pgd va = .ok (r, pmm)) :
      Step s (some p) ({ s with pmm := pmm }.setProc p (afterCowFirst (s.procs p) va r))
  | cowAllocFails {p : Fin n} {va oldPa : ℕ} {pmm : Pmm} (hop : (s.procs p).op = .cowHeld va oldPa)
      (h : allocPage s.pmm = .ok (none, pmm)) :
      Step s (some p) ({ s with pmm := pmm }.setProc p
        { s.procs p with op := .frees [.leaf (p2v oldPa)] })
  | cowCopy {p : Fin n} {va oldPa page : ℕ} {pmm : Pmm} (hop : (s.procs p).op = .cowHeld va oldPa)
      (h : allocPage s.pmm = .ok (some page, pmm)) :
      Step s (some p) ({ s with pmm := pmm, mem := copyPage s.mem page oldPa }.setProc p
        { s.procs p with op := .cowCopied va oldPa page })
  | cowSecond {p : Fin n} {va oldPa page : ℕ} {pgd : Pgd}
      (hop : (s.procs p).op = .cowCopied va oldPa page) (hpgd : (s.procs p).pgd = some pgd) :
      Step s (some p) (s.setProc p (afterCowSecond (s.procs p) oldPa page
        (mmuHandleCowSecond pgd va oldPa page)))
  /-- A page for a stack, an anonymous mapping or a segment. -/
  | mapAlloc {p : Fin n} {target : Target} {va page : ℕ} {flags : Word} {pmm : Pmm}
      (hop : (s.procs p).op = .idle) (hflags : flags &&& pteAddrMask = 0#64)
      (htable : (s.procs p).table target ≠ none)
      (h : allocPage s.pmm = .ok (some page, pmm)) :
      Step s (some p) ({ s with pmm := pmm, mem := zeroPage s.mem page }.setProc p
        { s.procs p with op := .mapFresh target va page flags })
  /-- `elf_load` finds the page mapped and executable. -/
  | remapHold {p : Fin n} {va paddr : ℕ} {flags more : Word} {pgd : Pgd} {pmm : Pmm}
      (hop : (s.procs p).op = .idle) (himage : (s.procs p).image = some pgd)
      (hva : va % pageSize = 0) (hquery : mmuUserQuery pgd va = some (paddr, flags))
      (hx : has flags uxn = false) (hmore : more &&& pteAddrMask = 0#64)
      (h : s.pmm.pmmHoldPage (p2v paddr) = .ok pmm) :
      Step s (some p) ({ s with pmm := pmm }.setProc p
        { s.procs p with op := .remap va paddr (flags ||| more) })
  /-- The framebuffer driver maps device memory, which the allocator does not manage. -/
  | deviceStart {p : Fin n} {va paddr : ℕ} {flags : Word} (hop : (s.procs p).op = .idle)
      (hflags : flags &&& pteAddrMask = 0#64) (htable : (s.procs p).pgd ≠ none)
      (hdev : s.pmm.pmmIsManaged (ptePtr (mapWord paddr flags)) = false) :
      Step s (some p) (s.setProc p { s.procs p with op := .mapDevice va paddr flags })
  | mapFresh {p : Fin n} {target : Target} {va page : ℕ} {flags : Word} {ok : Bool}
      {pgd pgd' : Pgd} {pmm : Pmm} (hop : (s.procs p).op = .mapFresh target va page flags)
      (htable : (s.procs p).table target = some pgd)
      (h : mmuUserMapPage s.pmm pgd va (v2p page) flags = .ok (ok, pgd', pmm)) :
      Step s (some p) ({ s with pmm := pmm }.setProc p { (s.procs p).setTable target pgd' with
        op := if ok then .idle else .frees [.leaf page] })
  | remap {p : Fin n} {va paddr : ℕ} {flags : Word} {ok : Bool} {pgd pgd' : Pgd} {pmm : Pmm}
      (hop : (s.procs p).op = .remap va paddr flags) (himage : (s.procs p).image = some pgd)
      (h : mmuUserMapPage s.pmm pgd va paddr flags = .ok (ok, pgd', pmm)) :
      Step s (some p) ({ s with pmm := pmm }.setProc p { s.procs p with
        image := some pgd', op := if ok then .idle else .frees [.leaf (p2v paddr)] })
  | mapDevice {p : Fin n} {va paddr : ℕ} {flags : Word} {ok : Bool} {pgd pgd' : Pgd} {pmm : Pmm}
      (hop : (s.procs p).op = .mapDevice va paddr flags) (hpgd : (s.procs p).pgd = some pgd)
      (h : mmuUserMapPage s.pmm pgd va paddr flags = .ok (ok, pgd', pmm)) :
      Step s (some p) ({ s with pmm := pmm }.setProc p
        { s.procs p with pgd := some pgd', op := .idle })
  | unmap {p : Fin n} {va : ℕ} {pgd pgd' : Pgd} {pmm : Pmm} (hop : (s.procs p).op = .idle)
      (hpgd : (s.procs p).pgd = some pgd)
      (h : mmuUserUnmapPage s.pmm pgd va = .ok (pgd', pmm)) :
      Step s (some p) ({ s with pmm := pmm }.setProc p { s.procs p with pgd := some pgd' })
  | free {p : Fin n} {x : Pending} {rest : List Pending} {pmm : Pmm}
      (hop : (s.procs p).op = .frees (x :: rest)) (h : s.pmm.pmmFreePages x.ptr = .ok pmm) :
      Step s (some p) ({ s with pmm := pmm }.setProc p { s.procs p with op := .frees rest })
  | freesDone {p : Fin n} (hop : (s.procs p).op = .frees []) :
      Step s (some p) (s.setProc p { s.procs p with op := .idle })
  /-- An exec past its last failure point: the image replaces the old address space. -/
  | execCommit {p : Fin n} {pgd : Pgd} (hop : (s.procs p).op = .idle)
      (himage : (s.procs p).image = some pgd) :
      Step s (some p) (s.setProc p
        { pgd := some pgd
          image := none
          op := .frees ((s.procs p).pgd.elim [] (mmuDestroyUserPgd s.pmm)) })
  /-- A fork, an exec or a spawn gives the address space it built up again. -/
  | abort {p : Fin n} {pgd : Pgd} (hop : (s.procs p).op = .idle)
      (himage : (s.procs p).image = some pgd) :
      Step s (some p) (s.setProc p { s.procs p with
        image := none, op := .frees (mmuDestroyUserPgd s.pmm pgd) })
  | exit {p : Fin n} {pgd : Pgd} (hop : (s.procs p).op = .idle)
      (hpgd : (s.procs p).pgd = some pgd) :
      Step s (some p) (s.setProc p { s.procs p with
        pgd := none, op := .frees (mmuDestroyUserPgd s.pmm pgd) })
  | store {p : Fin n} {va : ℕ} {v : UInt8} {s' : Sys n} (h : Store s p va v s') :
      Step s (some p) s'
  | kernelAlloc {count v : ℕ} {pmm : Pmm} (h : s.pmm.pmmAllocPagesNozero count = .ok (some v, pmm)) :
      Step s none { s with
        pmm := pmm
        kernelRefs := Function.update s.kernelRefs ⟨v2p v / pageSize, Pmm.getOrder count⟩ 1 }
  | kernelHold {b : Block} {ptr : ℕ} {pmm : Pmm} (hb : 0 < s.kernelRefs b)
      (hptr : s.pmm.HeadAt ptr b) (h : s.pmm.pmmHoldPage ptr = .ok pmm) :
      Step s none { s with
        pmm := pmm
        kernelRefs := Function.update s.kernelRefs b (s.kernelRefs b + 1) }
  | kernelFree {b : Block} {ptr : ℕ} {pmm : Pmm} (hb : 0 < s.kernelRefs b)
      (hptr : s.pmm.HeadAt ptr b) (h : s.pmm.pmmFreePages ptr = .ok pmm) :
      Step s none { s with
        pmm := pmm
        kernelRefs := Function.update s.kernelRefs b (s.kernelRefs b - 1) }

/-- A machine whose allocator has just been set up. -/
def start (pmm : Pmm) (mem : ℕ → UInt8) : Sys n :=
  { pmm := pmm, procs := fun _ => Proc.blank, mem := mem, kernelRefs := fun _ => 0 }

end Sys

end Perspicua.Mm
