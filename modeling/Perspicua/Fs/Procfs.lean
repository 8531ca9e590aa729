import Perspicua.Fs.Fat32.Names
import Perspicua.Lib.Text

/-!
# Process files

The reads of `kernel/fs/procfs.c`. Every read renders its file whole into a buffer and hands a
window of the buffer to the caller. The generated files and `maps` take the buffer from the
heap, the others from the kernel stack; neither is cleared first, so what a buffer holds before
is an argument of the read.

What the files show of the kernel is the record `Kernel`. The fields of a process that no file
shows are left out, and so are the locks: a read is one step.
-/

namespace Perspicua.Fs.Procfs

open Perspicua.Lib

/-! ## Formatted output -/

/-- A string without its terminator. -/
abbrev CString := { s : Name // 0 ∉ s }

def str (s : String) : List UInt8 := s.toList.map ch

/-- `fmt_uint`: `%lu` and, to base 16, `%lx`. -/
def fmtUint (base n : ℕ) : List UInt8 := (Nat.toDigits base n).map ch

/-- `%ld`. -/
def fmtInt (n : ℤ) : List UInt8 :=
  if n < 0 then ch '-' :: fmtUint 10 n.natAbs else fmtUint 10 n.natAbs

/-- The flag `0` with a width. -/
def zeroPad (width : ℕ) (l : List UInt8) : List UInt8 :=
  List.replicate (width - l.length) (ch '0') ++ l

/-! ## What the files show -/

/-- `CPU_MAX_CORES` -/
def cpuMaxCores : ℕ := 4

/-- `IRQ_MAX` -/
def irqMax : ℕ := 256

/-- `PROCESS_TABLE_SIZE` -/
def processTableSize : ℕ := 128

/-- `VFS_MAX_FDS` -/
def vfsMaxFds : ℕ := 64

/-- `VFS_MAX_MOUNTS` -/
def vfsMaxMounts : ℕ := 8

/-- `VFS_MAX_MOUNT_PATH` -/
def vfsMaxMountPath : ℕ := 64

/-- `VFS_MAX_PATH_LEN` -/
def vfsMaxPathLen : ℕ := 4096

/-- `PROCFS_CONTENT_MAX` -/
def procfsContentMax : ℕ := 4096

/-- `struct irq_desc` of an interrupt that has a handler. -/
structure IrqDesc where
  name : Option CString
  count : Fin cpuMaxCores → BitVec 64

/-- `struct sched_stats` -/
structure SchedStats where
  contextSwitches : BitVec 64
  idleCount : BitVec 64

/-- `struct va_region` -/
structure VaRegion where
  base : BitVec 64
  pages : BitVec 64

/-- A vnode as its path shows it: its own name and those of its ancestors that have a parent,
and the name of the vnode at the top. -/
structure Vnode where
  names : List CString
  top : CString

inductive ProcessState
  | running
  | zombie
  | dead
  | other

/-- `struct process` -/
structure Process where
  name : CString
  parentPid : BitVec 32
  state : ProcessState
  va : List VaRegion
  pendingSignals : BitVec 32
  blockedSignals : BitVec 32
  cwd : Option Vnode
  fdTable : Fin vfsMaxFds → Option Vnode

/-- What the files show. -/
structure Kernel where
  systemTime : BitVec 64
  wallTime : BitVec 64
  totalPages : BitVec 64
  freePages : BitVec 64
  slabUsed : BitVec 64
  slabTotal : BitVec 64
  processForks : BitVec 64
  irqTable : Fin irqMax → Option IrqDesc
  coreSchedStats : Fin cpuMaxCores → SchedStats
  mountTable : { l : List CString // l.length ≤ vfsMaxMounts }
  processTable : Fin processTableSize → Option Process

/-! ## The generators

Each is the list of the texts that it appends. -/

def procfsGenVersion : List (List UInt8) := [str "perspicua kernel v0.1\n"]

def procfsGenUptime (k : Kernel) : List (List UInt8) :=
  [fmtUint 10 (k.systemTime.toNat / 1000) ++ str "." ++
    zeroPad 2 (fmtUint 10 (k.systemTime.toNat % 1000 / 10)) ++ str "\n"]

def procfsGenMeminfo (k : Kernel) : List (List UInt8) :=
  [str "MemTotal: " ++ fmtUint 10 (k.totalPages * 4).toNat ++ str " kB\n" ++
    str "MemFree:  " ++ fmtUint 10 (k.freePages * 4).toNat ++ str " kB\n" ++
    str "SlabUsed: " ++ fmtUint 10 (k.slabUsed.toNat / 1024) ++ str " kB\n" ++
    str "SlabTotal:" ++ fmtUint 10 (k.slabTotal.toNat / 1024) ++ str " kB\n"]

/-- The argument of `%s`. -/
def IrqDesc.nameArg (desc : IrqDesc) : List UInt8 :=
  match desc.name with
  | none => str "(null)"
  | some name => name.val

/-- One line of `interrupts`. -/
def irqLine (irq : ℕ) (desc : IrqDesc) : List (List UInt8) :=
  (padTo 4 (fmtUint 10 irq) ++ padTo 7 desc.nameArg) ::
    (List.finRange cpuMaxCores).map (fun i => padTo 13 (fmtUint 10 (desc.count i).toNat)) ++
    [str "\n"]

def procfsGenInterrupts (k : Kernel) : List (List UInt8) :=
  str "           " ::
    (List.finRange cpuMaxCores).map (fun i => str "CPU" ++ padTo 10 (fmtUint 10 i.val)) ++
    [str "\n"] ++
    (List.finRange irqMax).flatMap fun irq => (k.irqTable irq).elim [] (irqLine irq.val)

def procfsGenSchedstat (k : Kernel) : List (List UInt8) :=
  str "cpu  context_switches  idle_entries\n" ::
    (List.finRange cpuMaxCores).map fun i =>
      padTo 5 (fmtUint 10 i.val) ++ padTo 18 (fmtUint 10 (k.coreSchedStats i).contextSwitches.toNat) ++
        padTo 13 (fmtUint 10 (k.coreSchedStats i).idleCount.toNat) ++ str "\n"

/-- `vfs_get_mount` copies what fits of a path. -/
def procfsGenMounts (k : Kernel) : List (List UInt8) :=
  k.mountTable.val.map fun path =>
    str "none " ++ path.val.take (vfsMaxMountPath - 1) ++ str " procfs rw 0 0\n"

def procfsGenCpuinfo : List (List UInt8) :=
  (List.finRange cpuMaxCores).map fun i =>
    str "processor\t: " ++ fmtUint 10 i.val ++ str "\nmodel name\t: ARM Cortex-A72 (BCM2711)\n\n"

def procfsGenStat (k : Kernel) : List (List UInt8) :=
  let totalCtx : BitVec 64 :=
    (List.finRange cpuMaxCores).foldl (fun sum i => sum + (k.coreSchedStats i).contextSwitches) 0
  let btime : BitVec 64 := k.wallTime - BitVec.ofNat 64 (k.systemTime.toNat / 1000)
  [str "ctxt " ++ fmtUint 10 totalCtx.toNat ++ str "\nbtime " ++ fmtInt btime.toInt ++
    str "\nprocesses " ++ fmtUint 10 k.processForks.toNat ++ str "\n"]

/-- `procfs_static_files` -/
inductive StaticFile
  | version
  | uptime
  | meminfo
  | interrupts
  | schedstat
  | mounts
  | cpuinfo
  | stat
deriving DecidableEq

def StaticFile.generate (k : Kernel) : StaticFile → List (List UInt8)
  | .version => procfsGenVersion
  | .uptime => procfsGenUptime k
  | .meminfo => procfsGenMeminfo k
  | .interrupts => procfsGenInterrupts k
  | .schedstat => procfsGenSchedstat k
  | .mounts => procfsGenMounts k
  | .cpuinfo => procfsGenCpuinfo
  | .stat => procfsGenStat k

/-! ## The files of a process -/

def mapsLine (r : VaRegion) : List UInt8 :=
  zeroPad 16 (fmtUint 16 r.base.toNat) ++ str "-" ++
    zeroPad 16 (fmtUint 16 (r.base + r.pages * 4096).toNat) ++ str " " ++
    fmtUint 10 r.pages.toNat ++ str " pages\n"

def ProcessState.text : ProcessState → List UInt8
  | .running => str "running"
  | .zombie => str "zombie"
  | .dead => str "dead"
  | .other => str "unknown"

def statusText (pid : ℕ) (p : Process) : List UInt8 :=
  let vmSize : BitVec 64 := p.va.foldl (fun sum r => sum + r.pages * 4) 0
  str "Name:   " ++ p.name.val ++ str "\n" ++
    str "Pid:    " ++ fmtUint 10 pid ++ str "\n" ++
    str "PPid:   " ++ fmtUint 10 p.parentPid.toNat ++ str "\n" ++
    str "State:  " ++ p.state.text ++ str "\n" ++
    str "VmSize: " ++ fmtUint 10 vmSize.toNat ++ str " kB\n" ++
    str "SigPnd: " ++ zeroPad 8 (fmtUint 16 p.pendingSignals.toNat) ++ str "\n" ++
    str "SigBlk: " ++ zeroPad 8 (fmtUint 16 p.blockedSignals.toNat) ++ str "\n"

def cmdlineText (p : Process) : List UInt8 := p.name.val ++ str "\n"

/-- The loop of `procfs_get_vnode_path`: put the names before the position, while they fit. -/
def pathLoop : List CString → Memory × ℕ → Memory × ℕ
  | [], b => b
  | name :: names, (mem, ptr) =>
    if ptr < name.val.length + 1 then (mem, ptr)
    else
      let ptr := ptr - name.val.length
      let mem := store mem ptr name.val
      let ptr := ptr - 1
      pathLoop names (store mem ptr [ch '/'], ptr)

/-- `procfs_get_vnode_path`: the path is built at the end of the buffer and moved to its start. -/
def procfsGetVnodePath (node : Vnode) (mem : Memory) (size : ℕ) : Memory × ℕ :=
  if size = 0 then (mem, 0)
  else
    let mem := store mem (size - 1) [0]
    if node.names.isEmpty ∧ node.top.val.isEmpty ∧ size < 2 then (mem, 0)
    else
      let (mem, ptr) :=
        if node.names.isEmpty ∧ node.top.val.isEmpty then (store mem (size - 2) [ch '/'], size - 2)
        else pathLoop node.names (mem, size - 1)
      let len := strlen mem ptr size
      if 0 < len then (store mem 0 (load mem ptr (len + 1)), len) else (store mem 0 [0], len)

/-! ## Reading -/

/-- A buffer from the heap: what is there before anything is written, and where memory ends. -/
structure HeapBlock where
  mem : Memory
  limit : ℕ
  fits : procfsContentMax ≤ limit

/-- The bytes returned and the new offset. -/
abbrev ReadResult := Res (List UInt8 × ℕ)

def procfsCopyOut (offset size : ℕ) (content : Memory) (len : ℕ) : List UInt8 × ℕ :=
  let bytes := window content offset size len
  (bytes, offset + bytes.length)

/-- `procfs_append`, for each text of a generator. -/
def procfsAppendAll (mem : Memory) (size : ℕ) (texts : List (List UInt8)) : Memory × ℕ :=
  render size mem texts

def procfsGeneratedRead (k : Kernel) (file : StaticFile) (heap : Option HeapBlock)
    (offset size : ℕ) : ReadResult :=
  match heap with
  | none => .error .enomem
  | some block =>
    let (buf, len) := procfsAppendAll block.mem procfsContentMax (file.generate k)
    .ok (if 0 < len then procfsCopyOut offset size buf len else ([], offset))

def procfsPidMapsRead (k : Kernel) (pid : Fin processTableSize) (heap : Option HeapBlock)
    (offset size : ℕ) : ReadResult :=
  match heap with
  | none => .error .enomem
  | some block =>
    match k.processTable pid with
    | none => .ok ([], offset)
    | some p =>
      let (buf, _) := procfsAppendAll block.mem 2048 (p.va.map mapsLine)
      .ok (procfsCopyOut offset size buf (strlen buf 0 block.limit))

def procfsPidStatusRead (k : Kernel) (pid : Fin processTableSize) (stack : Memory)
    (offset size : ℕ) : ReadResult :=
  match k.processTable pid with
  | none => .ok ([], offset)
  | some p =>
    let buf := writeText stack 0 512 (statusText pid p)
    .ok (procfsCopyOut offset size buf (strlen buf 0 512))

def procfsPidCmdlineRead (k : Kernel) (pid : Fin processTableSize) (stack : Memory)
    (offset size : ℕ) : ReadResult :=
  match k.processTable pid with
  | none => .ok ([], offset)
  | some p =>
    let buf := writeText stack 0 128 (cmdlineText p)
    .ok (procfsCopyOut offset size buf (strlen buf 0 128))

/-- What `procfs_pid_cwd_read` and `procfs_pid_fd_entry_read` do with the vnode. -/
def vnodePathRead (node : Option Vnode) (stack : Memory) (offset size : ℕ) : ReadResult :=
  match node with
  | none => .ok ([], offset)
  | some node =>
    let (buf, len) := procfsGetVnodePath node stack vfsMaxPathLen
    if 0 < len ∧ len < vfsMaxPathLen - 1 then
      .ok (procfsCopyOut offset size (store (store buf len [ch '\n']) (len + 1) [0]) (len + 1))
    else .ok (procfsCopyOut offset size buf len)

def procfsPidCwdRead (k : Kernel) (pid : Fin processTableSize) (stack : Memory)
    (offset size : ℕ) : ReadResult :=
  match k.processTable pid with
  | none => .ok ([], offset)
  | some p => vnodePathRead p.cwd stack offset size

/-- The mount table of a kernel without mounts. -/
theorem no_mounts_le : ([] : List CString).length ≤ vfsMaxMounts := Nat.zero_le _

/-- The vnode's number holds the process in its upper half and the descriptor in its lower. -/
def procfsPidFdEntryRead (k : Kernel) (info : ℕ) (stack : Memory) (offset size : ℕ) : ReadResult :=
  let pid := info / 2 ^ 16 % 2 ^ 16
  let fd := info % 2 ^ 16
  if h : pid < processTableSize ∧ fd < vfsMaxFds then
    match k.processTable ⟨pid, h.1⟩ with
    | none => .ok ([], offset)
    | some p => vnodePathRead (p.fdTable ⟨fd, h.2⟩) stack offset size
  else .error .einval

/-- The files under `/proc`. -/
inductive ProcFile
  | generated (file : StaticFile)
  | maps (pid : Fin processTableSize)
  | status (pid : Fin processTableSize)
  | cmdline (pid : Fin processTableSize)
  | cwd (pid : Fin processTableSize)
  | fdEntry (info : ℕ)

/-- The read operation of a file; `heap` is what `heap_malloc` gives, `stack` what the kernel
stack holds. -/
def procfsRead (k : Kernel) (file : ProcFile) (heap : Option HeapBlock) (stack : Memory)
    (offset size : ℕ) : ReadResult :=
  match file with
  | .generated f => procfsGeneratedRead k f heap offset size
  | .maps pid => procfsPidMapsRead k pid heap offset size
  | .status pid => procfsPidStatusRead k pid stack offset size
  | .cmdline pid => procfsPidCmdlineRead k pid stack offset size
  | .cwd pid => procfsPidCwdRead k pid stack offset size
  | .fdEntry info => procfsPidFdEntryRead k info stack offset size

end Perspicua.Fs.Procfs
