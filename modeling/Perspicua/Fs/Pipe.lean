import Mathlib.Data.Int.Notation
import Mathlib.Data.Fintype.Defs
import Perspicua.Lib.Machine
import Perspicua.Lib.Ring
import Perspicua.Sched.Task

/-!
# Pipes

`kernel/fs/pipe.c` with the waiting loop of `kernel/include/sched/wait.h`, by any number of
tasks that read, write and close. Every access to a wait queue of a pipe is made with
`pipe->lock` held, so the queues need no locks of their own here; their entries are named by
their tasks. A task's state is protected by no lock: every access to it is a step, and so is
every round of the two loops.

The two ends are open files with reference counts (`vfs_file_get`, `vfs_file_put`): a
descriptor counts for one, and so does a call that is in progress. `fds` is the number of
descriptors of an end in all tables together.

`written` and `taken` are not in the source: they are the bytes that have been put into the
buffer and removed from it.
-/

namespace Perspicua.Fs.Pipe

open Perspicua.Lib Perspicua.Sched

/-- `PIPE_BUF_SIZE` -/
def bufSize : ℕ := 4096

/-- The two ends, and the two wait queues. -/
inductive End
  | read
  | write
deriving DecidableEq

def End.other : End → End
  | .read => .write
  | .write => .read

inductive Errno
  | eagain
  | epipe
  | erestartsys
deriving DecidableEq

/-- The locals of `pipe_read` (how much is wanted and what has been read) and `pipe_write`
(what is left and how much has been written). -/
inductive Call (α : Type)
  | read (count : ℕ) (got : List α)
  | write (rest : List α) (written : ℕ)

namespace Call

variable {α : Type}

def side : Call α → End
  | .read .. => .read
  | .write .. => .write

/-- How many bytes the call has moved. -/
def moved : Call α → ℕ
  | .read _ got => got.length
  | .write _ written => written

/-- What the call returns when its wait is interrupted: an error, or what it has moved. -/
def interrupted : Call α → Option Errno
  | .read .. => some .erestartsys
  | .write _ written => if 0 < written then none else some .erestartsys

end Call

/-- Where a task is in `__wq_wait_event`. -/
inductive Stage
  | prepare                       -- before `wq_prepare`
  | test                          -- before the test of the condition
  | signal                        -- before `wq_signal_pending`
  | release                       -- before `spin_unlock`
  | sleep                         -- before `sched_schedule`
  | relock                        -- in or after it, before `spin_lock`
  | finish (interrupted : Bool)   -- before `wq_finish`
deriving DecidableEq

/-- Where a task is. `wakeAll` and `waking` are `wq_wake_all`, with what follows it. -/
inductive Pc (τ α : Type)
  | idle
  | start (c : Call α)                          -- before the test of `internal_info`
  | acquire (c : Call α)                        -- before `spin_lock_irqsave`
  | loop (c : Call α)                           -- before the test of the loop
  | wait (st : Stage) (c : Call α)
  | pass (c : Call α)                           -- before `wq_wake_one`
  | unlock (c : Call α) (err : Option Errno)    -- before the last unlock
  | put (e : End)                               -- before `vfs_file_put`
  | closeStart (e : End)
  | closeAcquire (e : End)
  | closing (e : End)                           -- in `pipe_close`, locked
  | closeUnlock (destroy : Bool)
  | free                                        -- before `heap_free`
  | wakeAll (e : End) (next : Pc τ α)
  | waking (rest : List τ) (next : Pc τ α)

structure Task (τ α : Type) where
  state : TaskState
  /-- Whether a core executes it. -/
  onCpu : Bool
  /-- The flag of its entry. -/
  woken : Bool
  pc : Pc τ α

structure State (τ α : Type) where
  ring : RingBuffer α
  written : List α
  taken : List α
  lock : Option τ
  queue : End → List τ
  /-- `readers` and `writers` -/
  ends : End → ℤ
  refs : End → ℕ
  fds : End → ℕ
  /-- `internal_info` is not `NULL`. -/
  attached : Bool
  freed : Bool
  panicked : Bool
  tasks : τ → Task τ α

/-- What can happen next. -/
inductive Act (τ α : Type)
  | read (t : τ) (count : ℕ)
  | write (t : τ) (bytes : List α)
  /-- A descriptor is closed. -/
  | close (t : τ) (e : End)
  /-- A descriptor is copied, by `dup2` or by a fork. -/
  | dup (e : End)
  /-- The next step of a task. The flag is `O_NONBLOCK` where the step reads that, which may
  change at any time, and what `wq_signal_pending` answers where it calls that. -/
  | advance (t : τ) (flag : Bool)
  /-- A signal, or anything else that calls `sched_unblock`. -/
  | signal (t : τ)
  /-- Outside the code of the pipe a task may block or stop. -/
  | elsewhere (t : τ) (st : TaskState)
  | preempt (t : τ)
  | dispatch (t : τ)

/-- A timer interrupt can be taken here. -/
def Pc.interruptible {τ α : Type} : Pc τ α → Bool
  | .idle | .start _ | .acquire _ | .put _ | .closeStart _ | .closeAcquire _ | .free => true
  | _ => false

namespace State

variable {τ α : Type} [DecidableEq τ] (s : State τ α)

def set (t : τ) (k : Task τ α) : State τ α := { s with tasks := Function.update s.tasks t k }

def goto (t : τ) (p : Pc τ α) : State τ α := s.set t { s.tasks t with pc := p }

def setQueue (e : End) (q : List τ) : State τ α :=
  { s with queue := Function.update s.queue e q }

def setRefs (e : End) (n : ℕ) : State τ α := { s with refs := Function.update s.refs e n }

/-- The condition a reader or a writer waits for. -/
def Cond : End → Prop
  | .read => 0 < s.ring.count ∨ s.ends .write = 0
  | .write => s.ring.count < bufSize ∨ s.ends .read = 0

instance : (e : End) → Decidable (s.Cond e)
  | .read | .write => inferInstanceAs (Decidable (_ ∨ _))

/-- A round of the loop of `pipe_read` or `pipe_write`. -/
def round (t : τ) (nonblock : Bool) : Call α → State τ α
  | .read count got =>
    if got.length < count then
      if 0 < s.ring.count then
        { s with ring := s.ring.pop bufSize, taken := s.taken ++ [s.ring.front] }.goto t
          (.loop (.read count (got ++ [s.ring.front])))
      else if 0 < got.length ∨ s.ends .write = 0 then
        s.goto t (.wakeAll .write (.unlock (.read count got) none))
      else if nonblock then
        if got.length = 0 then s.goto t (.unlock (.read count got) (some .eagain))
        else s.goto t (.wakeAll .write (.unlock (.read count got) none))
      else s.goto t (.wait .prepare (.read count got))
    else s.goto t (.wakeAll .write (.unlock (.read count got) none))
  | .write [] written => s.goto t (.wakeAll .read (.unlock (.write [] written) none))
  | .write (b :: rest) written =>
    if s.ends .read = 0 then
      s.goto t (.unlock (.write (b :: rest) written) (if 0 < written then none else some .epipe))
    else if s.ring.count < bufSize then
      { s with ring := s.ring.push bufSize b, written := s.written ++ [b] }.goto t
        (.loop (.write rest (written + 1)))
    else if nonblock then
      if written = 0 then s.goto t (.unlock (.write (b :: rest) written) (some .eagain))
      else s.goto t (.wakeAll .read (.unlock (.write (b :: rest) written) none))
    else s.goto t (.wakeAll .read (.wait .prepare (.write (b :: rest) written)))

/-- A step of `__wq_wait_event`. -/
def waitStep (t : τ) (flag : Bool) (c : Call α) : Stage → Option (State τ α)
  | .prepare =>
    let k := s.tasks t
    if t ∈ s.queue c.side then
      some (s.set t { k with state := k.state.setBlocked, pc := .wait .test c })
    else
      some ((s.setQueue c.side (s.queue c.side ++ [t])).set t
        { k with state := k.state.setBlocked, woken := false, pc := .wait .test c })
  | .test =>
    some (s.goto t (if s.Cond c.side then .wait (.finish false) c else .wait .signal c))
  | .signal => some (s.goto t (if flag then .wait (.finish true) c else .wait .release c))
  | .release => some ({ s with lock := none }.goto t (.wait .sleep c))
  | .sleep =>
    let k := s.tasks t
    some (s.set t { k with onCpu := false, state := k.state.leave, pc := .wait .relock c })
  | .relock =>
    if s.lock = none then some ({ s with lock := some t }.goto t (.wait .prepare c)) else none
  | .finish interrupted =>
    let k := s.tasks t
    let next :=
      if interrupted then if k.woken then .pass c else .unlock c c.interrupted else .loop c
    some ((s.setQueue c.side ((s.queue c.side).erase t)).set t
      { k with state := k.state.unwait, pc := next })

/-- The locked part of `pipe_close` up to the wake-ups. -/
def closeEnd (t : τ) (e : End) : State τ α :=
  let ends := Function.update s.ends e (s.ends e - 1)
  let destroy : Bool := ends .read = 0 ∧ ends .write = 0
  if destroy ∧ (s.queue .read ≠ [] ∨ s.queue .write ≠ []) then { s with panicked := true }
  else { s with ends := ends }.goto t (.wakeAll .read (.wakeAll .write (.closeUnlock destroy)))

/-- The next step of a task that is in the code of the pipe. -/
def advance (t : τ) (flag : Bool) : Option (State τ α) :=
  match (s.tasks t).pc with
  | .idle => none
  | .start c => some (s.goto t (if s.attached then .acquire c else .put c.side))
  | .acquire c => if s.lock = none then some ({ s with lock := some t }.goto t (.loop c)) else none
  | .loop c => some (s.round t flag c)
  | .wait st c => s.waitStep t flag c st
  | .pass c =>
    match s.queue c.side with
    | [] => some (s.goto t (.unlock c c.interrupted))
    | e :: rest => some (((s.setQueue c.side rest).set e { s.tasks e with woken := true }).goto t
        (.waking [e] (.unlock c c.interrupted)))
  | .unlock c _ => some ({ s with lock := none }.goto t (.put c.side))
  | .put e =>
    some ((s.setRefs e (s.refs e - 1)).goto t (if s.refs e = 1 then .closeStart e else .idle))
  | .closeStart e => some (s.goto t (if s.attached then .closeAcquire e else .idle))
  | .closeAcquire e =>
    if s.lock = none then some ({ s with lock := some t }.goto t (.closing e)) else none
  | .closing e => some (s.closeEnd t e)
  | .closeUnlock true => some ({ s with attached := false, lock := none }.goto t .free)
  | .closeUnlock false => some ({ s with lock := none }.goto t .idle)
  | .free => some ({ s with freed := true }.goto t .idle)
  | .wakeAll e next => some ((s.setQueue e []).goto t (.waking (s.queue e) next))
  | .waking [] next => some (s.goto t next)
  | .waking (e :: rest) next =>
    let k := s.tasks e
    some ((s.set e { k with state := k.state.unblock, woken := true }).goto t (.waking rest next))

/-- A call by a task that is outside the code of the pipe and has a descriptor of the end. -/
def enter (t : τ) (c : Call α) : Option (State τ α) :=
  let k := s.tasks t
  match k.pc with
  | .idle =>
    if k.onCpu ∧ 0 < s.fds c.side then
      some ((s.setRefs c.side (s.refs c.side + 1)).goto t (.start c))
    else none
  | _ => none

def step (a : Act τ α) : Option (State τ α) :=
  if s.panicked then none
  else
    match a with
    | .read t count => s.enter t (.read count [])
    | .write t bytes => s.enter t (.write bytes 0)
    | .close t e =>
      let k := s.tasks t
      match k.pc with
      | .idle =>
        if k.onCpu ∧ 0 < s.fds e then
          some ({ s with fds := Function.update s.fds e (s.fds e - 1) }.goto t (.put e))
        else none
      | _ => none
    | .dup e =>
      if 0 < s.fds e then
        some ({ s with fds := Function.update s.fds e (s.fds e + 1) }.setRefs e (s.refs e + 1))
      else none
    | .advance t flag => if (s.tasks t).onCpu then s.advance t flag else none
    | .signal t =>
      let k := s.tasks t
      some (s.set t { k with state := k.state.unblock })
    | .elsewhere t st =>
      let k := s.tasks t
      match k.pc with
      | .idle => if k.onCpu then some (s.set t { k with state := st }) else none
      | _ => none
    | .preempt t =>
      let k := s.tasks t
      if k.onCpu ∧ k.pc.interruptible then
        some (s.set t { k with onCpu := false, state := k.state.leave })
      else none
    | .dispatch t =>
      let k := s.tasks t
      if ¬ k.onCpu ∧ k.state = .ready then
        some (s.set t { k with onCpu := true, state := .running })
      else none

/-- A pipe after `pipe_create`, with one descriptor for each end. -/
structure Start (s : State τ α) : Prop where
  empty : s.ring.head = 0 ∧ s.ring.tail = 0 ∧ s.ring.count = 0
  written : s.written = []
  taken : s.taken = []
  queue : ∀ e, s.queue e = []
  ends : ∀ e, s.ends e = 1
  refs : ∀ e, s.refs e = 1
  fds : ∀ e, s.fds e = 1
  flags : s.attached = true ∧ s.freed = false ∧ s.panicked = false
  idle : ∀ t, (s.tasks t).pc = .idle

end State

/-! ## What a pipe should do -/

namespace Pc

variable {τ α : Type}

/-- The task is going to wake everybody in the queue before it gives up the lock: it is in
front of `wq_wake_all`, or in the loop of a call that has moved something for the others. -/
def WillWake (e : End) : Pc τ α → Prop
  | .wakeAll e' next => e' = e ∨ next.WillWake e
  | .waking _ next => next.WillWake e
  | .loop c => c.side = e.other ∧ c.moved ≠ 0
  | _ => False

/-- Whom the task has taken off a queue and has still to unblock. -/
def wakes : Pc τ α → List τ
  | .waking rest _ => rest
  | _ => []

/-- The task has closed the last end and is going to free the pipe. -/
def destroys : Pc τ α → Bool
  | .closeUnlock destroy => destroy
  | .free => true
  | .wakeAll _ next | .waking _ next => next.destroys
  | _ => false

end Pc

namespace State

variable {τ α : Type} (s : State τ α)

/-- The task sleeps in the waiting loop of the call. -/
def Asleep (t : τ) (c : Call α) : Prop :=
  (s.tasks t).state = .blocked ∧
    ((s.tasks t).pc = .wait .sleep c ∨ (s.tasks t).pc = .wait .relock c)

/-- What was written is what was taken and what is in the buffer, in that order; a call that
fails has moved nothing; who sleeps although its condition holds is being woken by the holder
of the lock; the pipe is freed by the one who closes the last end, when nobody uses it or
waits; and the check in `pipe_close` never fails. -/
structure Sound : Prop where
  fifo : s.written = s.taken ++ s.ring.contents bufSize
  indices : (s.ring.tail + s.ring.count) % bufSize = s.ring.head ∧ s.ring.count ≤ bufSize
  failed : ∀ t c err, (s.tasks t).pc = .unlock c (some err) → c.moved = 0
  noLoss : ∀ t c, s.Asleep t c → s.Cond c.side → ∃ u, s.lock = some u ∧
    ((s.tasks u).pc.WillWake c.side ∨ t ∈ (s.tasks u).pc.wakes)
  freed : s.freed = true → s.ends .read = 0 ∧ s.ends .write = 0 ∧ ∀ t, (s.tasks t).pc = .idle
  closed : s.ends .read = 0 → s.ends .write = 0 →
    (∀ e, s.queue e = []) ∧ (s.freed = true ∨ ∃ t, (s.tasks t).pc.destroys = true)
  calm : s.panicked = false

end State

end Perspicua.Fs.Pipe
