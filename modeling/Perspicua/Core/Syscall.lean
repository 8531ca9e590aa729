import Mathlib.Data.Int.Notation
import Mathlib.Data.Nat.Notation
import Mathlib.Logic.Function.Basic

/-!
# The system call dispatcher

`syscall_handle` of `kernel/core/syscall.c` with its table of handlers, and the handlers whose
result is wider than an `int`: `lseek` down to `vfs_lseek`, `mmap` down to `process_va_alloc`,
and those that return an id. A handler that returns an `int` may do anything to the state and
return any 32-bit value, which its `int64_t` result sign-extends; what such a handler does is
part of `Env`. So is what `process_exec` and `sigreturn` put into the trap frame.
-/

namespace Perspicua.Core.Syscall

def eperm : ℤ := 1
def esrch : ℤ := 3
def ebadf : ℤ := 9
def enomem : ℤ := 12
def enodev : ℤ := 19
def einval : ℤ := 22
def enosys : ℤ := 38

/-- An `int64_t` result `-e`. -/
def err (e : ℤ) : BitVec 64 := BitVec.ofInt 64 (-e)

/-- `SYSCALL_RETAIN_FRAME`. -/
def retainFrame : BitVec 64 := 0x7FFFFFFFFFFFFFFF#64

/-! ## State -/

/-- `struct exception_trap_frame`. -/
structure TrapFrame where
  x : ℕ → BitVec 64
  spEl0 : BitVec 64
  elrEl1 : BitVec 64
  spsrEl1 : BitVec 64

namespace TrapFrame

variable (tf : TrapFrame)

def setX (i : ℕ) (v : BitVec 64) : TrapFrame := { tf with x := Function.update tf.x i v }

/-- `(int)tf->x[i]`. -/
def int (i : ℕ) : ℤ := ((tf.x i).truncate 32).toInt

@[simp] theorem setX_x_self (i : ℕ) (v : BitVec 64) : (tf.setX i v).x i = v := by
  simp [setX]

end TrapFrame

/-- `struct va_region`. -/
structure VaRegion where
  base : BitVec 64
  pages : BitVec 64
deriving DecidableEq

/-- The fields of `struct vfs_vnode` that the handlers read. -/
structure VNode where
  isDir : Bool
  fileSize : BitVec 64
  /-- `ops->mmap` is there. -/
  hasMmap : Bool
  /-- The terminal behind a node whose `ops` are `devfs_tty_ops`. -/
  tty : Option ℕ

/-- `struct vfs_dir_pos`. -/
structure DirPos where
  fsOffset : BitVec 32
  mountIdx : BitVec 32
  dotIdx : BitVec 32

/-- `struct vfs_file`. -/
structure File where
  node : ℕ
  offset : BitVec 64
  dirPos : DirPos

/-- The fields of `struct process` that the handlers read. -/
structure Process where
  pid : BitVec 32
  parentPid : BitVec 32
  pgid : BitVec 32
  sid : BitVec 32
  running : Bool
  fdTable : ℕ → Option ℕ
  va : List VaRegion

structure World where
  /-- `sched_current_task()->pid`. -/
  pid : BitVec 32
  inSyscall : Bool
  syscallArg0 : BitVec 64
  processTable : ℕ → Option Process
  files : ℕ → File
  nodes : ℕ → VNode
  /-- `foreground_pgid` of each terminal. -/
  foreground : ℕ → BitVec 32

def tableSize : ℕ := 128

def maxFds : ℕ := 64

namespace World

variable (w : World)

/-- `process_slot`. -/
def processSlot (pid : ℕ) : Option Process := if pid < tableSize then w.processTable pid else none

/-- `process_current`. -/
def processCurrent : Option Process := w.processSlot w.pid.toNat

def setProcess (p : Process) : World :=
  { w with processTable := Function.update w.processTable w.pid.toNat (some p) }

def setFile (i : ℕ) (f : File) : World := { w with files := Function.update w.files i f }

def setNode (i : ℕ) (v : VNode) : World := { w with nodes := Function.update w.nodes i v }

end World

/-! ## The table -/

/-- The handlers, under their names in the source. -/
inductive Call
  | openHandler | writeHandler | exitHandler | getpidHandler | yieldHandler | readHandler
  | closeHandler | execHandler | forkHandler | waitpidHandler | pipeHandler | dup2Handler
  | sigreturnHandler | killHandler | getdentsHandler | chdirHandler | getcwdHandler | mmapHandler
  | sigactionHandler | sigprocmaskHandler | sigpendingHandler | sigsuspendHandler | statHandler
  | lseekHandler | syncHandler | mkdirHandler | rmdirHandler | unlinkHandler | renameHandler
  | fsyncHandler | fcntlHandler | preadHandler | pwriteHandler | getppidHandler | setpgidHandler
  | getpgidHandler | tcsetpgrpHandler | tcgetpgrpHandler | setsidHandler | getsidHandler
  | gettimeofdayHandler | clockGettimeHandler | nanosleepHandler | fstatHandler | truncateHandler
  | ftruncateHandler | sigaltstackHandler
deriving DecidableEq

/-- `syscall_table`, by number. -/
def syscallTable : ℕ → Option Call
  | 1 => some .writeHandler
  | 2 => some .exitHandler
  | 3 => some .getpidHandler
  | 4 => some .yieldHandler
  | 6 => some .openHandler
  | 7 => some .readHandler
  | 8 => some .closeHandler
  | 9 => some .execHandler
  | 10 => some .forkHandler
  | 11 => some .waitpidHandler
  | 12 => some .pipeHandler
  | 13 => some .dup2Handler
  | 15 => some .sigreturnHandler
  | 16 => some .killHandler
  | 18 => some .getdentsHandler
  | 19 => some .chdirHandler
  | 20 => some .getcwdHandler
  | 21 => some .mmapHandler
  | 22 => some .sigactionHandler
  | 23 => some .sigprocmaskHandler
  | 24 => some .sigpendingHandler
  | 25 => some .sigsuspendHandler
  | 26 => some .statHandler
  | 27 => some .lseekHandler
  | 28 => some .syncHandler
  | 29 => some .mkdirHandler
  | 30 => some .rmdirHandler
  | 31 => some .unlinkHandler
  | 32 => some .renameHandler
  | 33 => some .fsyncHandler
  | 34 => some .fcntlHandler
  | 35 => some .preadHandler
  | 36 => some .pwriteHandler
  | 37 => some .getppidHandler
  | 38 => some .setpgidHandler
  | 39 => some .getpgidHandler
  | 40 => some .tcsetpgrpHandler
  | 41 => some .tcgetpgrpHandler
  | 42 => some .setsidHandler
  | 43 => some .getsidHandler
  | 44 => some .gettimeofdayHandler
  | 45 => some .clockGettimeHandler
  | 46 => some .nanosleepHandler
  | 47 => some .fstatHandler
  | 48 => some .truncateHandler
  | 49 => some .ftruncateHandler
  | 50 => some .sigaltstackHandler
  | _ => none

/-- What the rest of the kernel does when a handler calls it. -/
structure Env where
  /-- A handler that returns an `int`. -/
  int : Call → World → TrapFrame → BitVec 32 × World
  /-- The size that `vnode_revalidate` leaves. -/
  revalidate : VNode → BitVec 64
  /-- `exec_handler` up to its test of `res`, with the frame that `process_exec` leaves. -/
  exec : World → TrapFrame → BitVec 32 × TrapFrame × World
  /-- The frame that `sigreturn_handler` restores; without one it ends the process. -/
  sigreturn : World → TrapFrame → Option (TrapFrame × World)
  /-- `ops->mmap` of a file at the new region. -/
  mapFile : World → TrapFrame → BitVec 64 → BitVec 32 × World
  /-- The pages of an anonymous mapping: whether all of them could be mapped. -/
  mapAnonymous : World → TrapFrame → BitVec 64 → Bool × World

/-- What a handler returns, and the frame and the state it leaves. -/
structure Returned where
  ret : BitVec 64
  tf : TrapFrame
  world : World

/-! ## Ids -/

section Ids

variable (w : World) (tf : TrapFrame)

/-- `getpid_handler`. -/
def getpid : BitVec 64 := w.pid.zeroExtend 64

/-- `getppid_handler`. -/
def getppid : BitVec 64 :=
  match w.processCurrent with
  | none => err esrch
  | some p => p.parentPid.zeroExtend 64

/-- `getpgid_handler` and `getsid_handler`, which differ in the field they read. -/
def getId (field : Process → BitVec 32) : BitVec 64 :=
  let currPid := w.pid.toInt
  if currPid < 0 then err esrch
  else
    let targetPid := if tf.int 0 = 0 then currPid else tf.int 0
    if targetPid < 0 ∨ targetPid ≥ tableSize then err einval
    else
      match w.processTable targetPid.toNat with
      | none => err esrch
      | some p => if p.running then (field p).zeroExtend 64 else err esrch

/-- `getpgid_handler`. -/
def getpgid : BitVec 64 := getId w tf Process.pgid

/-- `getsid_handler`. -/
def getsid : BitVec 64 := getId w tf Process.sid

/-- `tcgetpgrp_handler`. -/
def tcgetpgrp : BitVec 64 :=
  let fd := tf.int 0
  if w.pid.toInt < 0 ∨ fd < 0 ∨ fd ≥ maxFds then err einval
  else
    match w.processCurrent with
    | none => err esrch
    | some p =>
      match (p.fdTable fd.toNat).bind fun i => (w.nodes (w.files i).node).tty with
      | none => err einval
      | some t => (w.foreground t).zeroExtend 64

/-- `setsid_handler`. -/
def setsid : BitVec 64 × World :=
  if w.pid.toInt < 0 then (err esrch, w)
  else
    match w.processTable w.pid.toNat with
    | none => (err esrch, w)
    | some p =>
      if ¬ p.running then (err esrch, w)
      else if p.pgid = p.pid then (err eperm, w)
      else (p.pid.zeroExtend 64, w.setProcess { p with sid := p.pid, pgid := p.pid })

end Ids

/-! ## Seeking -/

section Seek

variable (env : Env) (w : World)

/-- `vfs_file_get`: the open file, or the error. -/
def vfsFileGet (fd : ℤ) : Except (BitVec 64) ℕ :=
  if fd < 0 ∨ fd ≥ maxFds then .error (err ebadf)
  else
    match w.processCurrent with
    | none => .error (err esrch)
    | some p =>
      match p.fdTable fd.toNat with
      | none => .error (err ebadf)
      | some i => .ok i

/-- The new offset before it is checked; the sum is that of two 64-bit words. `SEEK_END` has
the node's size read again. -/
def newOffset (i : ℕ) (offset : BitVec 64) (whence : ℤ) : Option (BitVec 64 × World) :=
  let f := w.files i
  let v := w.nodes f.node
  if whence = 0 then some (offset, w)
  else if whence = 1 then some (f.offset + offset, w)
  else if whence = 2 then
    let size := env.revalidate v
    some (size + offset, w.setNode f.node { v with fileSize := size })
  else none

/-- `vfs_lseek`. -/
def vfsLseek (fd : ℤ) (offset : BitVec 64) (whence : ℤ) : BitVec 64 × World :=
  match vfsFileGet w fd with
  | .error e => (e, w)
  | .ok i =>
    match newOffset env w i offset whence with
    | none => (err einval, w)
    | some (n, w) =>
      let f := w.files i
      if n.slt 0 then (err einval, w)
      else if (w.nodes f.node).isDir then
        if n ≠ 0 then (err einval, w)
        else (n, w.setFile i { f with offset := n, dirPos := ⟨0, 0, 0⟩ })
      else (n, w.setFile i { f with offset := n })

/-- `lseek_handler`. -/
def lseek (tf : TrapFrame) : BitVec 64 × World := vfsLseek env w (tf.int 0) (tf.x 1) (tf.int 2)

end Seek

/-! ## Mapping -/

section Mmap

def pageSize : BitVec 64 := 4096#64

/-- `USER_VA_BASE`. -/
def userVaBase : BitVec 64 := 0x40000000#64

/-- `USER_VA_LIMIT`. -/
def userVaLimit : BitVec 64 := 0x8000000000#64

/-- `USER_VA_MAX_REGIONS`. -/
def userVaMaxRegions : ℕ := 64

/-- The loop of `process_va_alloc`: the candidate it ends with, and the slot. -/
def vaScan (size : BitVec 64) : BitVec 64 → List VaRegion → BitVec 64 × ℕ
  | candidate, [] => (candidate, 0)
  | candidate, r :: rest =>
    if candidate + size ≤ r.base then (candidate, 0)
    else
      let regionEnd := r.base + r.pages * pageSize
      let found := vaScan size (if regionEnd > candidate then regionEnd else candidate) rest
      (found.1, found.2 + 1)

/-- `process_va_alloc`. -/
def processVaAlloc (va : List VaRegion) (pages : BitVec 64) : Option (BitVec 64 × List VaRegion) :=
  if pages = 0 ∨ va.length ≥ userVaMaxRegions then none
  else
    let size := pages * pageSize
    if size / pageSize ≠ pages then none
    else
      let found := vaScan size userVaBase va
      let candidate := found.1
      if candidate + size < candidate ∨ candidate + size > userVaLimit then none
      else some (candidate, va.insertIdx found.2 ⟨candidate, pages⟩)

/-- `process_va_free`. -/
def processVaFree (va : List VaRegion) (base : BitVec 64) : List VaRegion :=
  va.eraseP fun r => r.base = base

variable (env : Env) (w : World) (tf : TrapFrame)

/-- The label `mmap_fail`. -/
def mmapFail (region : BitVec 64) (e : BitVec 64) : BitVec 64 × World :=
  match w.processCurrent with
  | none => (e, w)
  | some p => (e, w.setProcess { p with va := processVaFree p.va region })

/-- `mmap_handler` once the region is reserved. -/
def mmapRegion (anonymous : Bool) (region : BitVec 64) : BitVec 64 × World :=
  if anonymous then
    let (ok, w) := env.mapAnonymous w tf region
    if ok then (region, w) else mmapFail w region (err enomem)
  else
    let (mres, w) := env.mapFile w tf region
    if mres.slt 0 then mmapFail w region (mres.signExtend 64) else (region, w)

/-- The descriptor does not fit the kind of mapping: an anonymous one takes none. -/
def mmapBadFd (anonymous : Bool) (fd : ℤ) : Bool :=
  if anonymous then fd ≠ -1 else fd < 0 ∨ fd ≥ maxFds

/-- `mmap_handler`. -/
def mmap : BitVec 64 × World :=
  let length := tf.x 1
  let flags := (tf.x 3).truncate 32
  let fd := tf.int 4
  if length = 0 ∨ length > 0x10000000#64 then (err einval, w)
  else
    match w.processCurrent with
    | none => (err esrch, w)
    | some p =>
      let anonymous : Bool := flags &&& 0x20#32 ≠ 0
      if mmapBadFd anonymous fd then (err ebadf, w)
      else if ¬ anonymous ∧
          ((p.fdTable fd.toNat).all fun i => !(w.nodes (w.files i).node).hasMmap) then
        (err enodev, w)
      else
        match processVaAlloc p.va ((length + pageSize - 1) / pageSize) with
        | none => (err enomem, w)
        | some (region, va) =>
          if region = 0 then (err enomem, w)
          else mmapRegion env (w.setProcess { p with va := va }) tf anonymous region

end Mmap

/-! ## Dispatch -/

section Dispatch

variable (env : Env) (w : World) (tf : TrapFrame)

/-- `exec_handler`. -/
def exec : Returned :=
  let (res, tf, w) := env.exec w tf
  if res.slt 0 then ⟨res.signExtend 64, tf, w⟩ else ⟨retainFrame, tf, w⟩

/-- A handler at work; `exit_handler` does not return. -/
def handler : Call → Option Returned
  | .exitHandler => none
  | .sigreturnHandler => (env.sigreturn w tf).map fun (tf, w) => ⟨retainFrame, tf, w⟩
  | .execHandler => some (exec env w tf)
  | .lseekHandler => some ⟨(lseek env w tf).1, tf, (lseek env w tf).2⟩
  | .mmapHandler => some ⟨(mmap env w tf).1, tf, (mmap env w tf).2⟩
  | .getpidHandler => some ⟨getpid w, tf, w⟩
  | .getppidHandler => some ⟨getppid w, tf, w⟩
  | .getpgidHandler => some ⟨getpgid w tf, tf, w⟩
  | .getsidHandler => some ⟨getsid w tf, tf, w⟩
  | .tcgetpgrpHandler => some ⟨tcgetpgrp w tf, tf, w⟩
  | .setsidHandler => some ⟨(setsid w).1, tf, (setsid w).2⟩
  | c => some ⟨(env.int c w tf).1.signExtend 64, tf, (env.int c w tf).2⟩

/-- The state a handler starts from. -/
def entered : World := { w with inSyscall := true, syscallArg0 := tf.x 0 }

/-- What `syscall_handle` does with what a handler returned. -/
def finish (r : Returned) : TrapFrame × World :=
  if r.ret ≠ retainFrame then (r.tf.setX 0 r.ret, r.world)
  else (r.tf, { r.world with inSyscall := false })

/-- `syscall_handle`: the frame it returns to user code with, if it returns. -/
def syscallHandle : Option (TrapFrame × World) :=
  match w.processSlot w.pid.toNat with
  | none => some (tf.setX 0 (err esrch), w)
  | some _ =>
    match syscallTable (tf.x 8).toNat with
    | some c => (handler env (entered w tf) tf c).map finish
    | none => some (tf.setX 0 (err enosys), entered w tf)

end Dispatch

end Perspicua.Core.Syscall
