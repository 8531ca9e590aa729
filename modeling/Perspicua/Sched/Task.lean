import Mathlib.Logic.Function.Basic

/-!
# Task states

The states of `kernel/sched/sched.c` and the compare-and-swap transitions on them. A state
changes in no other way than by these, by a run queue taking a task in, and by the scheduler
switching to a task.
-/

namespace Perspicua.Sched

/-- `enum sched_task_state`. -/
inductive TaskState
  | running
  | ready
  | blocked
  | stopped
  | dead
deriving DecidableEq, Repr

namespace TaskState

/-- A compare-and-swap: the state afterwards. -/
def cas (st expected desired : TaskState) : TaskState := if st = expected then desired else st

/-- `sched_task_set_blocked`. -/
def setBlocked (st : TaskState) : TaskState := st.cas .running .blocked

/-- `sched_task_set_stopped`. -/
def setStopped (st : TaskState) : TaskState := st.cas .running .stopped

/-- The swap of `sched_unblock`. -/
def unblock (st : TaskState) : TaskState := st.cas .blocked .ready

/-- The swap of `sched_continue`. -/
def resume (st : TaskState) : TaskState := st.cas .stopped .ready

/-- What a waiter does to its own state when it need not sleep. -/
def unwait (st : TaskState) : TaskState := st.cas .blocked .running

/-- The state in which `sched_schedule` leaves the task it switches away from: a task that
runs goes back to a run queue. -/
def leave (st : TaskState) : TaskState := st.cas .running .ready

end TaskState

end Perspicua.Sched
