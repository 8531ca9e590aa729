import Mathlib
import Perspicua.Lib.Machine
import Perspicua.Sched.Task

/-!
# The sleeping mutex

`kernel/core/mutex.c` on the wait queue of `kernel/sched/wait.c`. A section under a spinlock
is one step, and so is every access to a task's state, which no lock protects: signals and
the scheduler change it at any time. `wq_wake_one` wakes its waiter while it holds the lock
of the queue, so it is two steps with the lock held in between. The flag `woken` of an entry
is read only when a wait is interrupted, and waiting for a mutex never is.

Two fields of a task are not in the source: `locks` counts its unmatched `kmutex_lock`s, and
`owed` remembers that a wake-up took it off the queue and that it has not tried the mutex
since, until its wait ends.
-/

namespace Perspicua.Sched.Mutex

open Perspicua.Lib

/-- Where a task is in `kmutex_lock` and `kmutex_unlock`. -/
inductive Pc
  | idle                  -- in neither
  | tryLock               -- before the first `kmutex_try_lock`
  | prepare               -- before `wq_prepare`
  | test                  -- before the test of the waiting loop
  | sleep                 -- before `sched_schedule`
  | finish                -- before `wq_finish`
  | wake                  -- before `wq_wake_one`
  | waking (e : ℕ)        -- in `wq_wake_one`, before `sched_unblock`
deriving DecidableEq

structure Task where
  state : TaskState
  /-- Whether a core executes it. -/
  onCpu : Bool
  pc : Pc
  locks : ℕ
  owed : Bool
deriving DecidableEq

structure State where
  depth : ℕ
  owner : Option ℕ
  /-- The wait queue, by the tasks of its entries. -/
  queue : List ℕ
  /-- Whether `wq_wake_one` holds the lock of the queue. -/
  queueLocked : Bool
  tasks : ℕ → Task
  panicked : Bool

namespace State

def set (s : State) (t : ℕ) (k : Task) : State := { s with tasks := Function.update s.tasks t k }

/-- `kmutex_try_lock` by task `t`: the depth afterwards, an `unsigned int`. -/
def tryLock (s : State) (t : ℕ) : Option ℕ :=
  if s.depth = 0 then some 1
  else if s.owner = some t then some ((s.depth + 1) % 2 ^ 32)
  else none

/-- The next step of a task that is in `kmutex_lock` or `kmutex_unlock`. -/
def advance (s : State) (t : ℕ) : Option State :=
  let k := s.tasks t
  match k.pc with
  | .idle => none
  | .tryLock =>
    match s.tryLock t with
    | some d => some ({ s with depth := d, owner := some t }.set t
        { k with pc := .idle, locks := k.locks + 1 })
    | none => some (s.set t { k with pc := .prepare })
  | .prepare =>
    if s.queueLocked then none
    else some ({ s with queue := if t ∈ s.queue then s.queue else s.queue ++ [t] }.set t
      { k with pc := .test, state := k.state.setBlocked })
  | .test =>
    match s.tryLock t with
    | some d => some ({ s with depth := d, owner := some t }.set t
        { k with pc := .finish, locks := k.locks + 1, owed := false })
    | none => some (s.set t { k with pc := .sleep, owed := false })
  | .sleep => some (s.set t { k with pc := .prepare, onCpu := false, state := k.state.leave })
  | .finish =>
    if s.queueLocked then none
    else some ({ s with queue := s.queue.erase t }.set t
      { k with pc := .idle, state := k.state.unwait, owed := false })
  | .wake =>
    if s.queueLocked then none
    else
      match s.queue with
      | [] => some (s.set t { k with pc := .idle })
      | e :: rest => some (({ s with queue := rest, queueLocked := true }.set e
          { s.tasks e with owed := true }).set t { k with pc := .waking e })
  | .waking e =>
    some (({ s with queueLocked := false }.set e
      { s.tasks e with state := (s.tasks e).state.unblock }).set t { k with pc := .idle })

/-- The guarded part of `kmutex_unlock`. -/
def unlock (s : State) (t : ℕ) : State :=
  let k := s.tasks t
  if s.depth = 0 ∨ s.owner ≠ some t then { s with panicked := true }
  else if s.depth > 1 then { s with depth := s.depth - 1 }.set t { k with locks := k.locks - 1 }
  else { s with depth := 0, owner := none }.set t { k with pc := .wake, locks := k.locks - 1 }

end State

/-- What can happen next. -/
inductive Act
  | lock (t : ℕ)
  | unlock (t : ℕ)
  | advance (t : ℕ)
  /-- A signal, or anything else that calls `sched_unblock`. -/
  | signal (t : ℕ)
  /-- Outside the code of the mutex a task may block or stop, whether it holds it or not. -/
  | elsewhere (t : ℕ) (st : TaskState)
  | preempt (t : ℕ)
  | dispatch (t : ℕ)

/-- A timer interrupt can be taken here: interrupts are on and no spinlock is held. -/
def Pc.interruptible : Pc → Bool
  | .idle | .tryLock | .prepare | .wake => true
  | _ => false

def State.step (s : State) (a : Act) : Option State :=
  if s.panicked then none
  else
    match a with
    | .lock t =>
      let k := s.tasks t
      if k.onCpu ∧ k.pc = .idle then some (s.set t { k with pc := .tryLock }) else none
    | .unlock t =>
      if (s.tasks t).onCpu ∧ (s.tasks t).pc = .idle then some (s.unlock t) else none
    | .advance t => if (s.tasks t).onCpu then s.advance t else none
    | .signal t =>
      let k := s.tasks t
      some (s.set t { k with state := k.state.unblock })
    | .elsewhere t st =>
      let k := s.tasks t
      if k.onCpu ∧ k.pc = .idle then some (s.set t { k with state := st }) else none
    | .preempt t =>
      let k := s.tasks t
      if k.onCpu ∧ k.pc.interruptible then
        some (s.set t { k with onCpu := false, state := k.state.leave })
      else none
    | .dispatch t =>
      let k := s.tasks t
      if ¬ k.onCpu ∧ k.state = .ready then
        some (s.set t { k with onCpu := true, state := .running })
      else none

/-- A mutex nobody uses yet. -/
structure State.Start (s : State) : Prop where
  depth : s.depth = 0
  owner : s.owner = none
  queue : s.queue = []
  unlocked : s.queueLocked = false
  tasks : ∀ t, (s.tasks t).pc = .idle ∧ (s.tasks t).locks = 0 ∧ (s.tasks t).owed = false

/-- The step is a `kmutex_try_lock` by the task that holds the mutex already. -/
def State.nests (s : State) : Act → Prop
  | .advance t => ((s.tasks t).pc = .tryLock ∨ (s.tasks t).pc = .test) ∧ s.owner = some t
  | _ => False

instance (s : State) : (a : Act) → Decidable (s.nests a)
  | .advance t => inferInstanceAs
      (Decidable (((s.tasks t).pc = .tryLock ∨ (s.tasks t).pc = .test) ∧ s.owner = some t))
  | .lock _ | .unlock _ | .signal _ | .elsewhere .. | .preempt _ | .dispatch _ =>
    inferInstanceAs (Decidable False)

/-- The depth has room for the step. -/
def State.Shallow (s : State) (a : Act) : Prop := s.nests a → s.depth + 1 < 2 ^ 32

instance (s : State) (a : Act) : Decidable (s.Shallow a) :=
  inferInstanceAs (Decidable (s.nests a → s.depth + 1 < 2 ^ 32))

end Perspicua.Sched.Mutex
