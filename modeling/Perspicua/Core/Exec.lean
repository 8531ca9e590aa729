import Perspicua.Core.Elf
import Perspicua.Core.Syscall

/-!
# Starting a new image

`process_exec` of `kernel/sched/process.c`, with the unprivileged loads of `arch/uaccess.S`. The
caller's memory is what those loads see: a byte, or a fault. It does not change while the caller is
inside the call. Of an `exec` that fails only the error is kept.
-/

namespace Perspicua.Core.Exec

open Perspicua.Mm Perspicua.Core.Elf

def e2big : ℤ := 7
def einval : ℤ := 22
def enametoolong : ℤ := 36

/-- What a user-mode load finds at an address. -/
abbrev Loads := BitVec 64 → Option UInt8

/-! ## Copying in -/

/-- `copy_from_user`: all bytes, or a fault. -/
def copyFromUser (mem : Loads) : BitVec 64 → ℕ → Option (List UInt8)
  | _, 0 => some []
  | src, n + 1 => do
    let b ← mem src
    let bs ← copyFromUser mem (src + 1) n
    some (b :: bs)

/-- The pointer at a user address. -/
def userPointer (mem : Loads) (src : BitVec 64) : Option (BitVec 64) :=
  (copyFromUser mem src 8).map fun bs => BitVec.ofNat 64 (field bs 0 8)

/-- `strncpy_from_user`: the string without its terminator; `count` bytes of the buffer are left. -/
def strncpyFromUser (mem : Loads) : BitVec 64 → ℕ → Except ℤ (List UInt8)
  | _, 0 => .error (-enametoolong)
  | src, count + 1 =>
    match mem src with
    | none => .error (-einval)
    | some b =>
      if b = 0 then .ok []
      else (strncpyFromUser mem (src + 1) count).map (b :: ·)

/-- `EXEC_MAX_VECTOR` -/
def execMaxVector : ℕ := 128

/-- `EXEC_MAX_ARG` -/
def execMaxArg : ℕ := 1024

structure Env where
  /-- The memory of the caller. -/
  caller : Loads
  /-- `heap_malloc` has memory for the `n`-th string. -/
  heap : ℕ → Bool
  /-- The file, as the loader sees it. -/
  elf : Elf.Env
  /-- The allocator and physical memory when the vectors have been copied. -/
  pmm : Pmm
  mem : ℕ → UInt8

/-- The loop of `copy_user_vector`: entry `count` is next, and `left` more may come. `made` strings
were copied before this vector. -/
def copyEntries (env : Env) (userVec : BitVec 64) (made : ℕ) : ℕ → ℕ → Except ℤ (List (List UInt8))
  | 0, _ => .ok []
  | left + 1, count =>
    match userPointer env.caller (userVec + BitVec.ofNat 64 (8 * count)) with
    | none => .error (-einval)
    | some uentry =>
      if uentry = 0 then .ok []
      else if !env.heap (made + count) then .error (-enomem)
      else do
        let kentry ← strncpyFromUser env.caller uentry execMaxArg
        let rest ← copyEntries env userVec made left (count + 1)
        .ok (kentry :: rest)

/-- `copy_user_vector` -/
def copyUserVector (env : Env) (userVec : BitVec 64) (made : ℕ) : Except ℤ (List (List UInt8)) :=
  if userVec = 0 then .ok [] else copyEntries env userVec made (execMaxVector - 1) 0

/-! ## The stack -/

/-- `PROCESS_USER_STACK_PAGES` -/
def processUserStackPages : ℕ := 32

/-- `PROCESS_USER_STACK_PAGES * PAGE_SIZE` -/
def stackSize : ℕ := processUserStackPages * pageSize

/-- What the two vectors may take at most, alignment included. -/
def need (kargv kenvp : List (List UInt8)) : ℕ :=
  (kargv.length + kenvp.length + 2) * 8 + 32 + (kargv.map fun s => s.length + 1 + 7).sum +
    (kenvp.map fun s => s.length + 1 + 7).sum

/-- The loop of `setup_user_stack`. -/
def mapStackPages : ℕ → ℕ → UserMem → Except Stop UserMem
  | 0, _, user => .ok user
  | n + 1, va, user => do
    match ← kernel (user.mapFreshPage va pageUserData) with
    | (none, _) => .error (.ret (-enomem))
    | (some _, user) => mapStackPages n (va + pageSize) user

/-- `setup_user_stack`, for the regions of a new process. -/
def setupUserStack (user : UserMem) (va : List Syscall.VaRegion) (pages : ℕ) :
    Except Stop (ℕ × List Syscall.VaRegion × UserMem) :=
  match Syscall.processVaAlloc va (BitVec.ofNat 64 pages) with
  | none => .error (.ret (-enomem))
  | some (vbase, va) => do
    let user ← mapStackPages pages vbase.toNat user
    .ok (vbase.toNat, va, user)

/-- `stack_copy_in`. Every round copies at least a byte, so `bytes.length` rounds are enough. -/
def stackCopyIn : ℕ → UserMem → ℕ → List UInt8 → UserMem
  | 0, user, _, _ => user
  | rounds + 1, user, dst, bytes =>
    if bytes.length = 0 then user
    else
      match mmuUserQuery user.pgd (dst / pageSize * pageSize) with
      | none => user
      | some (paddr, _) =>
        let pageOff := dst % pageSize
        let chunk := min (pageSize - pageOff) bytes.length
        stackCopyIn rounds { user with mem := UserMem.store user.mem (paddr + pageOff) (bytes.take chunk) }
          (dst + chunk) (bytes.drop chunk)

/-- The `n` low bytes of a number, the lowest first. -/
def leBytes : ℕ → ℕ → List UInt8
  | 0, _ => []
  | n + 1, w => UInt8.ofNat w :: leBytes n (w / 256)

/-- A pointer stored through the new tables; its slot does not cross a page. -/
def storePointer (user : UserMem) (va ptr : ℕ) : UserMem :=
  match mmuUserQuery user.pgd (va / pageSize * pageSize) with
  | none => user
  | some (paddr, _) => { user with mem := UserMem.store user.mem (paddr + va % pageSize) (leBytes 8 ptr) }

/-- The strings of a vector go below `sp`, each 8-byte aligned. -/
def pushStrings : List (List UInt8) → ℕ → UserMem → ℕ × List ℕ × UserMem
  | [], sp, user => (sp, [], user)
  | s :: rest, sp, user =>
    let len := s.length + 1
    let sp := (sp - len) / 8 * 8
    let below := pushStrings rest sp (stackCopyIn len user sp (s ++ [0]))
    (below.1, sp :: below.2.1, below.2.2)

/-- The pointers of a vector, with the `NULL` behind them. -/
def storePointers : List ℕ → ℕ → UserMem → UserMem
  | [], va, user => storePointer user va 0
  | p :: rest, va, user => storePointers rest (va + 8) (storePointer user va p)

/-- One vector on the stack: the strings and below them the array, which is where `sp` ends. -/
def pushVector (vec : List (List UInt8)) (sp : ℕ) (user : UserMem) : ℕ × UserMem :=
  let strings := pushStrings vec sp user
  let sp := (strings.1 - (vec.length + 1) * 8) / 16 * 16
  (sp, storePointers strings.2.1 sp strings.2.2)

/-! ## The call -/

/-- The image that `process_exec` starts: its memory and what its trap frame says. -/
structure Started where
  user : UserMem
  va : List Syscall.VaRegion
  stackBase : ℕ
  /-- `elr_el1` -/
  entry : BitVec 64
  /-- `sp_el0` -/
  sp : ℕ
  /-- `x[0]`, `x[1]` and `x[2]` -/
  argc : ℕ
  argv : ℕ
  envp : ℕ

/-- What the new image reads. -/
def Started.loads (new : Started) : Loads :=
  fun a => if a.toNat < 2 ^ 39 then new.user.byte a.toNat else none

/-- `process_exec` -/
def processExec (env : Env) (argv envp : BitVec 64) : Except Stop Started := do
  let kargv ← (copyUserVector env argv 0).mapError Stop.ret
  let kenvp ← (copyUserVector env envp kargv.length).mapError Stop.ret
  if need kargv kenvp > stackSize / 2 then .error (.ret (-e2big))
  else
    match ← kernel (allocUserTablePage env.pmm) with
    | (none, _) => .error (.ret (-enomem))
    | (some page, pmm) => do
      let (entry, user) ← elfLoad env.elf ⟨Pgd.empty page, pmm, env.mem⟩
      let (stackBase, va, user) ← setupUserStack user [] processUserStackPages
      let argvOnStack := pushVector kargv (stackBase + stackSize) user
      let envpOnStack := pushVector kenvp argvOnStack.1 argvOnStack.2
      .ok { user := envpOnStack.2, va := va, stackBase := stackBase, entry := entry,
            sp := envpOnStack.1 / 16 * 16, argc := kargv.length, argv := argvOnStack.1,
            envp := envpOnStack.1 }

end Perspicua.Core.Exec
