import Perspicua.Lib.Machine
import Perspicua.Sched.Process

/-!
# Process groups and sessions

The ids of the processes in `process_table` under sequences of calls: `process_fork`,
`process_exec`, `process_exit` and `process_waitpid` of `kernel/sched/process.c`, and
`setpgid_handler` and `setsid_handler` of `kernel/core/syscall.c`. A call is one step here,
and one that fails changes nothing.

`leader` is not in the source: it marks a process that the kernel created or that has called
`setsid`.
-/

namespace Perspicua.Sched.Session

open Perspicua.Lib
open Perspicua.Sched.Process (tableSize slots WaitArgs)

/-- The fields of `struct process` that decide about ids. -/
structure Member where
  pid : ℕ
  pgid : ℕ
  sid : ℕ
  parent : ℕ
  /-- `PROCESS_STATE_RUNNING`, or else a zombie. -/
  running : Bool
  hasExeced : Bool
  leader : Bool
deriving DecidableEq

/-- `process_alloc_pcb`, for a process that the kernel creates. -/
def Member.alloc (pid : ℕ) : Member where
  pid := pid
  pgid := pid
  sid := pid
  parent := 0
  running := true
  hasExeced := false
  leader := true

inductive Errno
  | esrch
  | einval
  | eacces
  | eperm
  | enfile
  | enomem
deriving DecidableEq

structure State where
  table : ℕ → Option Member

namespace State

variable (s : State)

def set (i : ℕ) (q : Option Member) : State := ⟨Function.update s.table i q⟩

/-- The process in a slot, if it runs. -/
def runner (i : ℕ) : Option Member := (s.table i).filter Member.running

/-- `pgid_session_locked`: 0 if no running process has the group. -/
def pgidSession (pgid : ℕ) : ℕ :=
  if pgid = 0 then 0
  else (slots.findSome? fun i =>
    (s.runner i).bind fun p => if p.pgid = pgid then some p.sid else none).getD 0

/-- `setpgid_handler`. -/
def setpgid (curr : ℕ) (target new : ℤ) : Except Errno State :=
  let target := if target = 0 then (curr : ℤ) else target
  let new := if new = 0 then target else new
  if target < 1 ∨ (tableSize : ℤ) ≤ target ∨ new < 1 ∨ (tableSize : ℤ) ≤ new then .error .einval
  else
    match s.runner target.toNat with
    | none => .error .esrch
    | some p =>
      if target ≠ curr ∧ p.parent ≠ curr then .error .esrch
      else if target ≠ curr ∧ p.hasExeced then .error .eacces
      else if p.sid = p.pid then .error .eperm
      else
        let groupSid := s.pgidSession new.toNat
        if groupSid = 0 then
          if new ≠ target then .error .eperm
          else .ok (s.set target.toNat (some { p with pgid := new.toNat }))
        else if groupSid ≠ p.sid then .error .eperm
        else .ok (s.set target.toNat (some { p with pgid := new.toNat }))

/-- `setsid_handler`. -/
def setsid (curr : ℕ) : Except Errno State :=
  match s.runner curr with
  | none => .error .esrch
  | some p =>
    if p.pgid = p.pid then .error .eperm
    else .ok (s.set curr (some { p with sid := p.pid, pgid := p.pid, leader := true }))

/-- The search of `process_claim_slot`. -/
def claimSlot : Option ℕ := slots.find? fun i => (s.table i).isNone

/-- `process_fork`, where `ok` says that the memory for the child is there: the pid of the
child and the new table. -/
def fork (curr : ℕ) (ok : Bool) : Except Errno (ℕ × State) :=
  match s.runner curr with
  | none => .error .esrch
  | some p =>
    match s.claimSlot with
    | none => .error .enfile
    | some i =>
      if ok then
        .ok (i, s.set i (some
          { pid := i, pgid := p.pgid, sid := p.sid, parent := curr
            running := true, hasExeced := false, leader := false }))
      else .error .enomem

/-- `process_exec`, where `ok` says that it succeeds. -/
def exec (curr : ℕ) (ok : Bool) : Except Errno State :=
  match s.runner curr with
  | none => .error .esrch
  | some p => if ok then .ok (s.set curr (some { p with hasExeced := true })) else .error .enomem

/-- `process_exit`: the process is a zombie and init has its children. -/
def exit (curr : ℕ) : State where
  table i := (s.table i).map fun p =>
    if i = curr then { p with running := false }
    else if i ∈ slots ∧ p.parent = curr then { p with parent := 1 }
    else p

/-- The walk of `process_waitpid`: the slot of the zombie that it reaps. `stopped` says which
children are stopped and have not been reported. -/
def findZombie (curr : ℕ) (args : WaitArgs) (stopped : ℕ → Bool) : List ℕ → Option ℕ
  | [] => none
  | i :: is =>
    match s.table i with
    | none => findZombie curr args stopped is
    | some p =>
      if p.parent ≠ curr then findZombie curr args stopped is
      else if args.pid ≠ -1 ∧ (p.pid : ℤ) ≠ args.pid then findZombie curr args stopped is
      else if ¬ p.running then some i
      else if args.untraced ∧ stopped i then none
      else findZombie curr args stopped is

/-- `process_waitpid`. -/
def waitpid (curr : ℕ) (args : WaitArgs) (stopped : ℕ → Bool) : State :=
  match s.findZombie curr args stopped slots with
  | none => s
  | some i => s.set i none

end State

inductive Act
  | fork (p : ℕ) (ok : Bool)
  | exec (p : ℕ) (ok : Bool)
  | exit (p : ℕ)
  | waitpid (p : ℕ) (args : WaitArgs) (stopped : ℕ → Bool)
  | setpgid (p : ℕ) (target new : ℤ)
  | setsid (p : ℕ)

/-- The process that makes the call. -/
def Act.caller : Act → ℕ
  | .fork p _ | .exec p _ | .exit p | .waitpid p _ _ | .setpgid p _ _ | .setsid p => p

namespace State

variable (s : State)

/-- The table after a call, which is the one before it where the call fails. -/
def call : Act → State
  | .fork p ok => ((s.fork p ok).map Prod.snd).toOption.getD s
  | .exec p ok => (s.exec p ok).toOption.getD s
  | .exit p => s.exit p
  | .waitpid p args stopped => s.waitpid p args stopped
  | .setpgid p target new => (s.setpgid p target new).toOption.getD s
  | .setsid p => (s.setsid p).toOption.getD s

/-- Every running process but the kernel may call. -/
def step (a : Act) : Option State :=
  if 0 < a.caller ∧ (s.runner a.caller).isSome then some (s.call a) else none

/-- `process_init`, and init after `process_create_from_file`. -/
def boot : State where
  table i := if i = 0 then some (.alloc 0) else if i = 1 then some (.alloc 1) else none

/-! ## What the calls should keep -/

/-- The pid that a fork gives to a child is no group or session of a running process. -/
def Fresh : Prop :=
  ∀ p ok child t, s.fork p ok = .ok (child, t) → ∀ i q, s.runner i = some q →
    q.pgid ≠ child ∧ q.sid ≠ child

/-- A process whose session has its pid was created as its leader or made itself that. -/
def Led : Prop := ∀ i q, s.runner i = some q → q.sid = q.pid → q.leader = true

/-- Running processes of one group are in one session. -/
def OneSession : Prop :=
  ∀ i j p q, s.runner i = some p → s.runner j = some q → p.pgid = q.pgid → p.sid = q.sid

/-- No running process has the number as its group or session. -/
def Unused (i : ℕ) : Prop := ∀ j < tableSize, ∀ q ∈ s.runner j, q.pgid ≠ i ∧ q.sid ≠ i

/-- The process is a zombie that its parent `p` may reap. -/
def Reapable (p : ℕ) (args : WaitArgs) (z : Member) : Prop :=
  z.running = false ∧ z.parent = p ∧ (args.pid = -1 ∨ args.pid = z.pid)

/-- A child that `process_waitpid` may reap is not the group or session of a running
process. -/
def ReapsUnused : Act → Prop
  | .waitpid p args _ => ∀ i < tableSize, ∀ z ∈ s.table i, Reapable p args z → s.Unused i
  | _ => True

/-- Who calls `setsid` has no other running process in the group that its pid names. -/
def LeavesNoGroup : Act → Prop
  | .setsid p => ∀ j < tableSize, j ≠ p → ∀ q ∈ s.runner j, q.pgid ≠ p
  | _ => True

instance (i : ℕ) : Decidable (s.Unused i) := inferInstanceAs (Decidable (∀ j < tableSize, _))

instance (p : ℕ) (args : WaitArgs) (z : Member) : Decidable (Reapable p args z) :=
  inferInstanceAs (Decidable (_ ∧ _))

instance : (a : Act) → Decidable (s.ReapsUnused a)
  | .waitpid .. => inferInstanceAs (Decidable (∀ i < tableSize, _))
  | .fork .. | .exec .. | .exit _ | .setpgid .. | .setsid _ => .isTrue trivial

instance : (a : Act) → Decidable (s.LeavesNoGroup a)
  | .setsid _ => inferInstanceAs (Decidable (∀ j < tableSize, _))
  | .fork .. | .exec .. | .exit _ | .setpgid .. | .waitpid .. => .isTrue trivial

end State

end Perspicua.Sched.Session
