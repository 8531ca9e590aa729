import Perspicua.Lib.Machine
import Perspicua.Sched.Task

/-!
# Signals

`kernel/core/signals.c` with the system calls that a signal interrupts: `sigsuspend`, the
interruptible wait queue, the interruptible timed sleep and `process_waitpid`. A section under
`process_table_lock` is one step where nothing outside it can see its middle. The sender is the
exception: it holds the lock while it changes the pending set and reads the state of the task,
and a sleeper publishes its state and reads the pending set without the lock, so every access
of the sender is a step.

A set of signals is the set of the bits of a `sigset_t`, by signal number. The last three
fields of a process are not in the source: they say when signals were sent.
-/

namespace Perspicua.Core.Signals

open Perspicua.Lib Perspicua.Sched

/-! ## Signal numbers and dispositions -/

def nsig : ℕ := 32

def sigkill : ℕ := 9

def sigchld : ℕ := 17

def sigcont : ℕ := 18

def sigstop : ℕ := 19

def sigtstp : ℕ := 20

def sigttin : ℕ := 21

def sigttou : ℕ := 22

def sigurg : ℕ := 23

def sigwinch : ℕ := 28

/-- The signals of `stop_mask`. -/
def isStop (sig : ℕ) : Bool := sig = sigstop || sig = sigtstp || sig = sigttin || sig = sigttou

inductive SignalDefault
  | term
  | ign
  | stop
  | cont
deriving DecidableEq

/-- `signal_default_action`. -/
def signalDefaultAction (sig : ℕ) : SignalDefault :=
  if sig = sigchld ∨ sig = sigurg ∨ sig = sigwinch then .ign
  else if sig = sigcont then .cont
  else if isStop sig then .stop
  else .term

abbrev SigSet := ℕ → Bool

namespace SigSet

def empty : SigSet := fun _ => false

def add (m : SigSet) (sig : ℕ) : SigSet := Function.update m sig true

def remove (m : SigSet) (sig : ℕ) : SigSet := Function.update m sig false

end SigSet

/-- An entry of `signal_handlers`: the two special values, or a handler with its `sa_mask` and
the flags `SA_NODEFER` and `SA_RESETHAND`. -/
inductive Handler
  | dfl
  | ign
  | user (mask : SigSet) (nodefer resethand : Bool)

/-- Whether `sa_handler` is `SIG_IGN`. -/
def Handler.isIgn : Handler → Bool
  | .ign => true
  | _ => false

/-- The lowest signal that is pending and not blocked. -/
def lowestDeliverable (pending blocked : SigSet) : Option ℕ :=
  (List.range' 1 (nsig - 1)).find? fun sig => pending sig && !blocked sig

/-! ## Processes -/

/-- The calls in which a task blocks. -/
inductive Call
  | sigsuspend
  | waitQueue
  | timedSleep
  | waitpid
  | uninterruptible           -- every wait that no signal ends
deriving DecidableEq

/-- Where a process is. -/
inductive Pc
  | idle                      -- in user code, or in kernel code that is not listed below
  | block (k : Call)          -- before the task is published as BLOCKED
  | test (k : Call)           -- before the pending signals are tested
  | undo (k : Call)           -- before the task withdraws BLOCKED
  | sleep (k : Call)          -- before `sched_schedule`
  | asleep (k : Call)         -- in `sched_schedule`
  | deliver                   -- before `signal_deliver_one` reads the deliverable signals
  | take (sig : ℕ)            -- before it clears the bit
  | act (sig : ℕ)             -- before it looks at the handler
  | stop (sig : ℕ)            -- before the locked section of the stop
  | yield (sig : ℕ)           -- before `sched_schedule`, the stop did not take
  | halt                      -- before `sched_schedule`, the task is stopped
  | gone
deriving DecidableEq

structure Proc where
  /-- Whether the state is `PROCESS_STATE_RUNNING`. -/
  running : Bool
  pending : SigSet
  blocked : SigSet
  handlers : ℕ → Handler
  /-- The state of `main_task`. -/
  state : TaskState
  onCpu : Bool
  pc : Pc
  /-- When each stop signal was last sent. -/
  sentAt : ℕ → ℕ
  /-- When `SIGCONT` was last sent. -/
  contAt : ℕ
  /-- When the stop signal that was last read for delivery had been sent. -/
  stopAt : ℕ

namespace Proc

variable (q : Proc)

/-- `signal_discarded`. -/
def signalDiscarded (sig : ℕ) : Bool :=
  if sig = sigkill ∨ sig = sigstop then false
  else
    match q.handlers sig with
    | .ign => true
    | .dfl => signalDefaultAction sig = .ign
    | .user .. => false

/-- `signal_pending`. -/
def signalPending : Bool := (lowestDeliverable q.pending q.blocked).isSome

/-- `sched_schedule` switches away from the task. -/
def schedule (pc : Pc) : Proc := { q with onCpu := false, state := q.state.leave, pc := pc }

/-- `process_exit`, as far as signals see it. -/
def exit : Proc := { q with running := false, onCpu := false, state := .dead, pc := .gone }

/-- A handler is entered: the mask it runs with, and the handler after it. -/
def enterHandler (sig : ℕ) (mask : SigSet) (nodefer resethand : Bool) : Proc :=
  { q with
    blocked := fun n => (q.blocked n || mask n || (!nodefer && n = sig)) && n ≠ sigkill && n ≠ sigstop
    handlers := if resethand then Function.update q.handlers sig .dfl else q.handlers
    pc := .idle }

/-- What `signal_deliver_one` does about a signal it has taken. -/
def deliverOne (sig : ℕ) : Proc :=
  match q.handlers sig with
  | .ign => { q with pc := .deliver }
  | .dfl =>
    match signalDefaultAction sig with
    | .ign | .cont => { q with pc := .deliver }
    | .stop => { q with pc := .stop sig }
    | .term => q.exit
  | .user mask nodefer resethand => q.enterHandler sig mask nodefer resethand

/-- The locked section of a stop. -/
def stopLocked (sig : ℕ) : Proc :=
  if q.pending sigcont || q.pending sigkill then { q with pc := .deliver }
  else if q.state = .running then { q with state := .stopped, pc := .halt }
  else { q with pc := .yield sig }

/-- The next step of a process that runs. `unlocked` says that nobody holds the table lock,
and `early` that the wait is over for a reason of its own: its condition holds, a child was
found, the time is up. -/
def advance (unlocked early : Bool) : Option Proc :=
  match q.pc with
  | .idle | .gone => none
  | .block .waitpid =>
    if !unlocked then none
    else if early || q.signalPending then some { q with pc := .idle }
    else some { q with state := q.state.setBlocked, pc := .sleep .waitpid }
  | .block k => some { q with state := q.state.setBlocked, pc := .test k }
  | .test k =>
    if early || (k ≠ .uninterruptible && q.signalPending) then some { q with pc := .undo k }
    else some { q with pc := .sleep k }
  | .undo _ => some { q with state := q.state.unwait, pc := .idle }
  | .sleep k => some (q.schedule (.asleep k))
  | .asleep k => some { q with pc := if k = .timedSleep then .idle else .block k }
  | .deliver =>
    match lowestDeliverable q.pending q.blocked with
    | none => some { q with pc := .idle }
    | some sig => some { q with
        pc := .take sig
        stopAt := if isStop sig then q.sentAt sig else q.stopAt }
  | .take sig => some { q with pending := q.pending.remove sig, pc := .act sig }
  | .act sig => some (q.deliverOne sig)
  | .stop sig => if unlocked then some (q.stopLocked sig) else none
  | .yield sig => some (q.schedule (.stop sig))
  | .halt => some (q.schedule .deliver)

/-- `sigaction`, under the table lock. -/
def sigaction (sig : ℕ) (h : Handler) : Proc :=
  { q with
    handlers := Function.update q.handlers sig h
    pending := if h.isIgn then q.pending.remove sig else q.pending }

/-- `signal_raise_fault`, under the table lock. -/
def raiseFault (sig : ℕ) : Proc :=
  if (q.handlers sig).isIgn || q.blocked sig then
    { q with
      handlers := Function.update q.handlers sig .dfl
      blocked := q.blocked.remove sig
      pending := q.pending.add sig }
  else { q with pending := q.pending.add sig }

end Proc

/-- `SIGILL`, `SIGTRAP`, `SIGBUS`, `SIGFPE` and `SIGSEGV`. -/
def isFault (sig : ℕ) : Bool := sig = 4 || sig = 5 || sig = 7 || sig = 8 || sig = 11

/-! ## The sender -/

/-- Where a sender is in `signal_send_target_locked`. -/
inductive SendStage
  | clear                     -- before the opposing bits are cleared
  | decide                    -- before `signal_discarded`
  | post                      -- before the pending bit is set
  | cont                      -- before the state is compared with STOPPED
  | resume                    -- before the swap of `sched_continue`
  | wake                      -- before the state is compared with BLOCKED
  | unblock                   -- before the swap of `sched_unblock`
deriving DecidableEq

/-- A call of `signal_send`, which has one target, or of `signal_send_group`: the targets that
are still to come, the first of them in work. -/
structure Sending where
  sig : ℕ
  targets : List ℕ
  stage : SendStage
  discarded : Bool

structure State where
  procs : ℕ → Proc
  /-- The sender that holds the table lock. -/
  sender : Option Sending
  now : ℕ

namespace State

def set (s : State) (p : ℕ) (q : Proc) : State := { s with procs := Function.update s.procs p q }

def unlocked (s : State) : Bool := s.sender.isNone

/-- The bits a signal clears before it is posted, with the time it is sent at. -/
def clear (q : Proc) (sig now : ℕ) : Proc :=
  if isStop sig then
    { q with pending := q.pending.remove sigcont, sentAt := Function.update q.sentAt sig now }
  else if sig = sigcont then
    { q with pending := fun n => q.pending n && !isStop n, contAt := now }
  else q

/-- The next step of the sender. -/
def send (s : State) : Option State :=
  match s.sender with
  | none => none
  | some x =>
    match x.targets with
    | [] => some { s with sender := none }
    | p :: rest =>
      let q := s.procs p
      let next : Sending := { x with targets := rest, stage := .clear }
      match x.stage with
      | .clear =>
        if q.running then
          some ({ s with sender := some { x with stage := .decide }, now := s.now + 1 }.set p
            (clear q x.sig (s.now + 1)))
        else some { s with sender := some next }
      | .decide =>
        some { s with sender := some { x with stage := .post, discarded := q.signalDiscarded x.sig } }
      | .post =>
        some ({ s with sender := some { x with stage := .cont } }.set p
          (if x.discarded then q else { q with pending := q.pending.add x.sig }))
      | .cont =>
        if (x.sig = sigcont ∨ x.sig = sigkill) ∧ q.state = .stopped then
          some { s with sender := some { x with stage := .resume } }
        else some { s with sender := some { x with stage := .wake } }
      | .resume =>
        some ({ s with sender := some { x with stage := .wake } }.set p
          { q with state := q.state.resume })
      | .wake =>
        if ¬ x.discarded ∧ q.state = .blocked then
          some { s with sender := some { x with stage := .unblock } }
        else some { s with sender := some next }
      | .unblock =>
        some ({ s with sender := some next }.set p { q with state := q.state.unblock })

end State

/-! ## Steps -/

/-- What can happen next. -/
inductive Act
  /-- A call of `signal_send` or `signal_send_group` takes the table lock. -/
  | begin (sig : ℕ) (targets : List ℕ)
  | send
  /-- A process enters a call. -/
  | enter (p : ℕ) (k : Call)
  /-- It returns to user code, by way of `signal_handle_pending`. -/
  | ret (p : ℕ)
  | advance (p : ℕ) (early : Bool)
  /-- `sigprocmask`, `sigreturn`, the mask of `sigsuspend`. -/
  | mask (p : ℕ) (m : SigSet)
  | sigaction (p sig : ℕ) (h : Handler)
  /-- `process_exec` resets the handlers. -/
  | exec (p : ℕ)
  | fault (p sig : ℕ)
  | exit (p : ℕ)
  /-- Anything else that calls `sched_unblock`. -/
  | wake (p : ℕ)
  | preempt (p : ℕ)
  | dispatch (p : ℕ)

/-- A timer interrupt can be taken here. -/
def Pc.interruptible : Pc → Bool
  | .test _ | .undo _ | .sleep _ | .yield _ | .halt | .gone => false
  | _ => true

namespace State

/-- Process `p` executes code that is not listed in `Pc`. -/
def Idle (s : State) (p : ℕ) : Prop := (s.procs p).onCpu = true ∧ (s.procs p).pc = .idle

instance (s : State) (p : ℕ) : Decidable (s.Idle p) := inferInstanceAs (Decidable (_ ∧ _))

def step (s : State) : Act → Option State
  | .begin sig targets =>
    if s.unlocked ∧ 1 ≤ sig ∧ sig < nsig then
      some { s with
        sender := some { sig := sig, targets := targets, stage := .clear, discarded := false } }
    else none
  | .send => s.send
  | .enter p k =>
    if s.Idle p then some (s.set p { s.procs p with pc := .block k }) else none
  | .ret p =>
    if s.Idle p then some (s.set p { s.procs p with pc := .deliver }) else none
  | .advance p early =>
    if (s.procs p).onCpu then ((s.procs p).advance s.unlocked early).map (s.set p) else none
  | .mask p m =>
    if s.Idle p then some (s.set p { s.procs p with blocked := m }) else none
  | .sigaction p sig h =>
    if s.Idle p ∧ s.unlocked ∧ sig ≠ sigkill ∧ sig ≠ sigstop then
      some (s.set p ((s.procs p).sigaction sig h))
    else none
  | .exec p =>
    if s.Idle p then
      some (s.set p { s.procs p with
        handlers := fun sig => if ((s.procs p).handlers sig).isIgn then .ign else .dfl })
    else none
  | .fault p sig =>
    if s.Idle p ∧ s.unlocked ∧ isFault sig then some (s.set p ((s.procs p).raiseFault sig)) else none
  | .exit p => if s.Idle p then some (s.set p (s.procs p).exit) else none
  | .wake p => some (s.set p { s.procs p with state := (s.procs p).state.unblock })
  | .preempt p =>
    let q := s.procs p
    if q.onCpu ∧ q.pc.interruptible then some (s.set p (q.schedule q.pc)) else none
  | .dispatch p =>
    let q := s.procs p
    if ¬ q.onCpu ∧ q.state = .ready then
      some (s.set p { q with onCpu := true, state := .running })
    else none

/-- Processes that have not met a signal yet, with any masks and handlers. -/
structure Start (s : State) : Prop where
  sender : s.sender = none
  now : s.now = 1
  procs : ∀ p, (s.procs p).running = true ∧ (s.procs p).pending = SigSet.empty ∧
    (s.procs p).pc = .idle ∧ (s.procs p).state ≠ .blocked ∧ (s.procs p).state ≠ .stopped ∧
    (s.procs p).contAt = 0

end State

/-! ## The gap of a stop -/

/-- A stop signal has been read for delivery and the task is not stopped yet. -/
def Pc.inGap : Pc → Bool
  | .take sig | .act sig => isStop sig
  | .stop _ | .yield _ => true
  | _ => false

/-- A signal that is sent while the process is in the gap of a stop leaves a `SIGCONT` to be
seen: a `SIGCONT` is not ignored, and a stop signal does not clear a pending one. -/
def Proc.LeavesCont (q : Proc) (sig : ℕ) : Prop :=
  q.pc.inGap = true → (sig = sigcont → (q.handlers sigcont).isIgn = false) ∧
    (isStop sig = true → q.pending sigcont = false)

instance (q : Proc) (sig : ℕ) : Decidable (q.LeavesCont sig) := inferInstanceAs (Decidable (_ → _ ∧ _))

/-- The step is no send that takes a `SIGCONT` away from a process in the gap of a stop. -/
def State.LeavesCont (s : State) : Act → Prop
  | .send => ∀ x ∈ s.sender, x.stage = .clear → ∀ p ∈ x.targets.head?, (s.procs p).LeavesCont x.sig
  | _ => True

instance (s : State) : (a : Act) → Decidable (s.LeavesCont a)
  | .send => inferInstanceAs (Decidable (∀ x ∈ s.sender, x.stage = .clear →
      ∀ p ∈ x.targets.head?, (s.procs p).LeavesCont x.sig))
  | .begin .. | .enter .. | .ret .. | .advance .. | .mask .. | .sigaction .. | .exec .. | .fault ..
  | .exit .. | .wake .. | .preempt .. | .dispatch .. => .isTrue trivial

end Perspicua.Core.Signals
