import Mathlib
import Perspicua.Core.Signals

/-!
# The process table

`process_fork`, `process_exit` and `process_waitpid` of `kernel/sched/process.c` with the
senders of `kernel/core/signals.c`. A section under `process_table_lock` is one step, except
for the walk of `signal_send_group`: `process_fork` fills in a child that is already in the
table without the lock, so every slot the walk visits is two steps. The stores of
`process_fork` that a walk can see are steps too.

A PCB is named by the pointer to it, and so is its task. `kin` and the last three fields of a
state are not in the source: `kin` is the process that `parent_pid` stands for; one send may
be watched, with the processes that were there when it began and those whose fork had begun.
-/

namespace Perspicua.Sched.Process

open Perspicua.Lib
open Perspicua.Core.Signals (SigSet sigkill sigchld sigcont sigstop isStop nsig lowestDeliverable)

/-- `PROCESS_TABLE_SIZE`. -/
def tableSize : ℕ := 128

/-- The slots a walk over the table visits; slot 0 is the kernel. -/
def slots : List ℕ := List.range' 1 (tableSize - 1)

/-- `process_state_t`. -/
inductive ProcState
  | running
  | zombie
  | dead
deriving DecidableEq

/-- How much of a child `process_fork` has filled in. -/
inductive ForkStage
  | claimed                   -- before `parent_pid`
  | parented                  -- before `pgid`
  | grouped                   -- before `pending_signals`
  | cleared                   -- before `process_start_task`
deriving DecidableEq

/-- The arguments of `process_waitpid`. -/
structure WaitArgs where
  pid : ℤ
  nohang : Bool
  untraced : Bool
deriving DecidableEq

/-- Where the task of a process is. -/
inductive Pc
  | unborn                                            -- there is no task yet
  | idle                                              -- none of the below
  | fork                                              -- before `process_claim_slot`
  | forked (child : ℕ) (stage : ForkStage)
  | dying (sig : ℕ)                                   -- a fatal signal has been taken
  | wait (args : WaitArgs)                            -- before the locked section
  | waiting (args : WaitArgs)                         -- before `sched_schedule`
  | asleep (args : WaitArgs)                          -- in `sched_schedule`
  | reparent (status : ℤ)                             -- the state is DEAD
  | publish (status : ℤ) (orphaned : Bool)            -- before the state is ZOMBIE
  | notify (ppid : ℕ) (orphaned : Bool)               -- before `signal_send(ppid, SIGCHLD)`
  | wake (ppid : ℕ) (orphaned : Bool)                 -- before the parent is unblocked
  | notifyInit                                        -- before `signal_send(1, SIGCHLD)`
  | wakeInit                                          -- before init is unblocked
  | leave                                             -- before `sched_exit_current`
  | gone
deriving DecidableEq

structure Proc where
  pid : ℕ
  pgid : ℕ
  parent : ℕ
  state : ProcState
  /-- Whether `main_task` is set. -/
  mainTask : Bool
  exitStatus : ℤ
  stopReported : Bool
  pending : SigSet
  blocked : SigSet
  /-- The state of the task. -/
  task : TaskState
  onCpu : Bool
  pc : Pc
  kin : ℕ

/-- `process_alloc_pcb(0)`, with the slot it is published in. -/
def Proc.alloc (pid : ℕ) : Proc where
  pid := pid
  pgid := 0
  parent := 0
  state := .running
  mainTask := false
  exitStatus := 0
  stopReported := false
  pending := SigSet.empty
  blocked := SigSet.empty
  task := .ready
  onCpu := false
  pc := .unborn
  kin := 0

namespace Proc

variable (q : Proc)

/-- `signal_pending`. -/
def signalPending : Bool := (lowestDeliverable q.pending q.blocked).isSome

/-- `sched_schedule` switches away from the task. -/
def schedule (pc : Pc) : Proc := { q with onCpu := false, task := q.task.leave, pc := pc }

/-- `signal_send_target_locked`, where `discarded` is the answer of `signal_discarded`. -/
def sendTarget (sig : ℕ) (discarded : Bool) : Proc :=
  if q.state ≠ .running then q
  else
    let opposed : SigSet :=
      if isStop sig then q.pending.remove sigcont
      else if sig = sigcont then fun n => q.pending n && !isStop n
      else q.pending
    let resumed : Bool := (sig = sigcont || sig = sigkill) && q.mainTask && q.task = .stopped
    let task := if resumed then q.task.resume else q.task
    { q with
      pending := if discarded then opposed else opposed.add sig
      stopReported := if resumed then false else q.stopReported
      task := if !discarded && q.mainTask then task.unblock else task }

/-- The end of `process_exit` once the parent has been told. -/
def afterParent (orphaned : Bool) : Pc := if orphaned && q.pid ≠ 1 then .notifyInit else .leave

end Proc

/-- A child that `process_waitpid` has reported and freed. -/
structure Reap where
  child : ℕ
  reaper : ℕ
  status : ℤ

/-- A call of `signal_send_group`. -/
structure Sender where
  sig : ℕ
  pgid : ℕ
  slot : ℕ
  /-- Whether the process in the slot has been found to be a target. -/
  matched : Bool
  watched : Bool

structure State where
  procs : ℕ → Proc
  table : ℕ → Option ℕ
  /-- The next PCB that `heap_malloc` returns. -/
  next : ℕ
  /-- The group send that holds the table lock. -/
  sender : Option Sender
  reaps : List Reap
  watch : Option ℕ
  old : ℕ → Bool
  oldFork : ℕ → Bool

namespace State

variable (s : State)

def modify (p : ℕ) (f : Proc → Proc) : State :=
  { s with procs := Function.update s.procs p (f (s.procs p)) }

def goto (p : ℕ) (pc : Pc) : State := s.modify p fun q => { q with pc := pc }

def setTable (i : ℕ) (q : Option ℕ) : State := { s with table := Function.update s.table i q }

def unlocked : Bool := s.sender.isNone

/-- `process_slot`. -/
def processSlot (pid : ℕ) : Option ℕ := if pid < tableSize then s.table pid else none

/-- `process_claim_slot`: the new PCB. -/
def processClaimSlot : Option (ℕ × State) :=
  (slots.find? fun i => (s.table i).isNone).map fun i =>
    (s.next, { s with
      procs := Function.update s.procs s.next (.alloc i)
      table := Function.update s.table i (some s.next)
      next := s.next + 1 })

/-- `process_release_slot`. -/
def processReleaseSlot (pid : ℕ) : State := s.setTable pid none

/-- `signal_send`. -/
def signalSend (target sig : ℕ) (discarded : Bool) : State :=
  if target = 0 then s
  else
    match s.processSlot target with
    | none => s
    | some q => s.modify q fun k => k.sendTarget sig discarded

/-- The locked section in which an exiting task wakes a parent or init. -/
def wakeSlot (pid : ℕ) : State :=
  match s.processSlot pid with
  | none => s
  | some q =>
    if (s.procs q).state = .running ∧ (s.procs q).mainTask then
      s.modify q fun k => { k with task := k.task.unblock }
    else s

/-! ## `process_fork` -/

/-- `process_fork` returns. -/
def forkReturn (p : ℕ) : State :=
  { s.goto p .idle with oldFork := Function.update s.oldFork p false }

/-- The next step of `process_fork`. -/
def forkStep (p c : ℕ) (ok : Bool) : ForkStage → Option State
  | .claimed =>
    if ok then
      some ((s.modify c fun k => { k with parent := (s.procs p).pid, kin := p }).goto p (.forked c .parented))
    else if s.unlocked then some ((s.processReleaseSlot (s.procs c).pid).forkReturn p)
    else none
  | .parented =>
    some ((s.modify c fun k => { k with pgid := (s.procs p).pgid }).goto p (.forked c .grouped))
  | .grouped =>
    some ((s.modify c fun k => { k with pending := SigSet.empty }).goto p (.forked c .cleared))
  | .cleared =>
    if ok then
      some ((s.modify c fun k => { k with
        blocked := (s.procs p).blocked, mainTask := true, task := .ready, pc := .idle }).forkReturn p)
    else if s.unlocked then some ((s.processReleaseSlot (s.procs c).pid).forkReturn p)
    else none

/-! ## `process_exit` -/

/-- The first step of `process_exit`. -/
def exit (p : ℕ) (status : ℤ) : State :=
  s.modify p fun q =>
    if q.state = .running then { q with state := .dead, pc := .reparent status }
    else { q with pc := .leave }

/-- One slot of the walk that gives the children of process `pid` to init. -/
def reparentSlot (pid : ℕ) (x : State × Bool) (i : ℕ) : State × Bool :=
  match x.1.table i with
  | none => x
  | some q =>
    if i = pid then x
    else if (x.1.procs q).parent = pid then
      (x.1.modify q fun k => { k with parent := 1, kin := 1 },
        x.2 || (x.1.procs q).state = .zombie)
    else x

/-- The walk, and whether it met a zombie. -/
def reparent (pid : ℕ) : State × Bool := slots.foldl (reparentSlot pid) (s, false)

/-- `notify_parent`: an exiting process has a parent to tell. -/
def notifies (p : ℕ) : Bool :=
  (s.procs p).parent ≠ 0 &&
    (s.processSlot (s.procs p).parent).any fun q => (s.procs q).state = .running

/-- The locked section that publishes the zombie and looks at the parent. -/
def publish (p : ℕ) (status : ℤ) (orphaned : Bool) : State :=
  s.modify p fun q => { q with
    state := .zombie, mainTask := false, exitStatus := status
    pc := if s.notifies p then .notify q.parent orphaned else q.afterParent orphaned }

/-- `sched_exit_current`. -/
def exitCurrent (p : ℕ) : Option State :=
  match (s.procs p).task with
  | .running => some (s.modify p fun q => { q with task := .dead, onCpu := false, pc := .gone })
  | .ready => some (s.modify p fun q => q.schedule .leave)
  | _ => none

/-! ## `process_waitpid` -/

/-- What the walk of `process_waitpid` finds. -/
inductive Found
  | zombie (slot child : ℕ)
  | stopped (child : ℕ)
  | nothing (children : Bool)

/-- The walk, by a process with the given pid. -/
def findChild (pid : ℕ) (args : WaitArgs) : List ℕ → Bool → Found
  | [], children => .nothing children
  | i :: is, children =>
    match s.table i with
    | none => findChild pid args is children
    | some q =>
      let k := s.procs q
      if k.parent ≠ pid then findChild pid args is children
      else if args.pid ≠ -1 ∧ (k.pid : ℤ) ≠ args.pid then findChild pid args is children
      else if k.state = .zombie then .zombie i q
      else if args.untraced ∧ ¬ k.stopReported ∧ k.mainTask ∧ k.task = .stopped then .stopped q
      else findChild pid args is true

/-- The locked section of `process_waitpid`. -/
def waitStep (p : ℕ) (args : WaitArgs) : State :=
  match s.findChild (s.procs p).pid args slots false with
  | .zombie i q =>
    { s.setTable i none with
      reaps := { child := q, reaper := p, status := (s.procs q).exitStatus } :: s.reaps }.goto p .idle
  | .stopped q => (s.modify q fun k => { k with stopReported := true }).goto p .idle
  | .nothing children =>
    if ¬ children ∨ args.nohang ∨ (s.procs p).signalPending then s.goto p .idle
    else s.modify p fun q => { q with task := q.task.setBlocked, pc := .waiting args }

/-! ## Steps -/

/-- The next step of a process that runs. `ok` says that its allocations succeed, `discarded`
is what `signal_discarded` answers. -/
def advance (p : ℕ) (ok discarded : Bool) : Option State :=
  match (s.procs p).pc with
  | .unborn | .idle | .gone => none
  | .fork =>
    if ¬ ok then some (s.forkReturn p)
    else if ¬ s.unlocked then none
    else
      match s.processClaimSlot with
      | none => some (s.forkReturn p)
      | some (c, t) =>
        some ({ t with old := Function.update t.old c (t.oldFork p) }.goto p (.forked c .claimed))
  | .forked c stage => s.forkStep p c ok stage
  | .dying sig => some (s.exit p (128 + sig))
  | .wait args => if s.unlocked then some (s.waitStep p args) else none
  | .waiting args => some (s.modify p fun q => q.schedule (.asleep args))
  | .asleep args => some (s.goto p (.wait args))
  | .reparent status =>
    if s.unlocked then
      let x := s.reparent (s.procs p).pid
      some (x.1.goto p (.publish status x.2))
    else none
  | .publish status orphaned => if s.unlocked then some (s.publish p status orphaned) else none
  | .notify ppid orphaned =>
    if s.unlocked then some ((s.signalSend ppid sigchld discarded).goto p (.wake ppid orphaned)) else none
  | .wake ppid orphaned =>
    if s.unlocked then some ((s.wakeSlot ppid).goto p ((s.procs p).afterParent orphaned)) else none
  | .notifyInit =>
    if s.unlocked then some ((s.signalSend 1 sigchld discarded).goto p .wakeInit) else none
  | .wakeInit => if s.unlocked then some ((s.wakeSlot 1).goto p .leave) else none
  | .leave => s.exitCurrent p

/-- The next step of a group send. -/
def send (discarded : Bool) : Option State :=
  match s.sender with
  | none => none
  | some x =>
    if tableSize ≤ x.slot then some { s with sender := none }
    else
      match s.table x.slot with
      | none => some { s with sender := some { x with slot := x.slot + 1, matched := false } }
      | some q =>
        if x.matched then
          some { s.modify q (fun k => k.sendTarget x.sig (discarded && x.sig ≠ sigkill && x.sig ≠ sigstop)) with
            sender := some { x with slot := x.slot + 1, matched := false } }
        else if (s.procs q).state = .running ∧ (s.procs q).pgid = x.pgid then
          some { s with sender := some { x with matched := true } }
        else some { s with sender := some { x with slot := x.slot + 1 } }

end State

/-- What can happen next. -/
inductive Act
  | fork (p : ℕ)
  | waitpid (p : ℕ) (args : WaitArgs)
  | exit (p : ℕ) (status : ℤ)
  | advance (p : ℕ) (ok discarded : Bool)
  /-- A process takes a pending signal for delivery. -/
  | deliver (p sig : ℕ)
  | mask (p : ℕ) (m : SigSet)
  /-- A signal stops a process. -/
  | stop (p : ℕ)
  /-- `signal_send_group`, by anybody. -/
  | begin (sig pgid : ℕ) (watched : Bool)
  | send (discarded : Bool)
  /-- `signal_send`, by anybody. -/
  | signal (target sig : ℕ) (discarded : Bool)
  /-- The process blocks in another call, and anything wakes it. -/
  | sleep (p : ℕ)
  | unblock (p : ℕ)
  | preempt (p : ℕ)
  | dispatch (p : ℕ)

/-- Inside `process_fork`. -/
def Pc.inFork : Pc → Bool
  | .fork | .forked .. => true
  | _ => false

/-- A timer interrupt can be taken here. -/
def Pc.interruptible : Pc → Bool
  | .unborn | .waiting _ | .gone => false
  | _ => true

namespace State

variable (s : State)

/-- Process `p` executes code that is not listed in `Pc`. -/
def Idle (p : ℕ) : Prop := (s.procs p).onCpu = true ∧ (s.procs p).pc = .idle

instance (p : ℕ) : Decidable (s.Idle p) := inferInstanceAs (Decidable (_ ∧ _))

def step : Act → Option State
  | .fork p => if s.Idle p then some (s.goto p .fork) else none
  | .waitpid p args => if s.Idle p then some (s.goto p (.wait args)) else none
  | .exit p status => if s.Idle p then some (s.exit p status) else none
  | .advance p ok discarded => if (s.procs p).onCpu then s.advance p ok discarded else none
  | .deliver p sig =>
    if s.Idle p ∧ (s.procs p).pending sig then
      some (s.modify p fun q => { q with
        pending := q.pending.remove sig
        pc := if sig = sigkill then .dying sig else .idle })
    else none
  | .mask p m => if s.Idle p then some (s.modify p fun q => { q with blocked := m }) else none
  | .stop p =>
    if s.Idle p ∧ s.unlocked then
      some ((s.wakeSlot (s.procs p).parent).modify p fun q => { q with
        task := q.task.setStopped, stopReported := false, onCpu := false })
    else none
  | .begin sig pgid watched =>
    if s.unlocked ∧ 1 ≤ sig ∧ sig < nsig ∧ pgid ≠ 0 ∧ (watched → s.watch = none ∧ sig = sigkill) then
      let t : State := { s with
        sender := some { sig := sig, pgid := pgid, slot := 1, matched := false, watched := watched } }
      some (if watched then { t with
          watch := some pgid
          old := fun q => s.table (s.procs q).pid = some q
          oldFork := fun p => (s.procs p).pc.inFork }
        else t)
    else none
  | .send discarded => s.send discarded
  | .signal target sig discarded =>
    if s.unlocked ∧ 1 ≤ sig ∧ sig < nsig then
      some (s.signalSend target sig (discarded && sig ≠ sigkill && sig ≠ sigstop))
    else none
  | .sleep p =>
    if s.Idle p then some (s.modify p fun q => { q with task := q.task.setBlocked }) else none
  | .unblock p => some (s.modify p fun q => { q with task := q.task.unblock })
  | .preempt p =>
    if (s.procs p).onCpu ∧ (s.procs p).pc.interruptible then
      some (s.modify p fun q => q.schedule q.pc)
    else none
  | .dispatch p =>
    if ¬ (s.procs p).onCpu ∧ (s.procs p).task = .ready ∧ (s.procs p).pc ≠ .unborn then
      some (s.modify p fun q => { q with onCpu := true, task := .running })
    else none

/-- The kernel and init, which runs. -/
def boot : State where
  procs p :=
    if p = 1 then { Proc.alloc 1 with pgid := 1, mainTask := true, task := .running, onCpu := true, pc := .idle }
    else .alloc 0
  table i := if i = 0 then some 0 else if i = 1 then some 1 else none
  next := 2
  sender := none
  reaps := []
  watch := none
  old _ := false
  oldFork _ := false

end State

end Perspicua.Sched.Process
