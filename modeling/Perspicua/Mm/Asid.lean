import Mathlib
import Perspicua.Lib.Machine

/-!
# Address space identifiers

`kernel/mm/asid.c` and the code that installs a TTBR0: the context switch of
`kernel/sched/sched.c`, `process_exec` and `process_exit`. A section under `asid_lock` or
`process_table_lock` is one step, and so is every write of TTBR0, every invalidation and
every unlocked read of `p->asid`: kernel code is preempted between any two of them, except in
`sched_schedule`, which masks interrupts.

A TLB is the list of its entries, an ASID with the address space the translation came from.
The field `stale` of a process is not in the source: it is the address space, other than the
current one, that translations under the process's present ASID may still come from.
-/

namespace Perspicua.Mm.Asid

open Perspicua.Lib

/-- An ASID and an address space: a user value of TTBR0, or where a TLB entry comes from. -/
abbrev Tagged := ℕ × ℕ

/-- Where a process is. -/
inductive Pc
  | gone                      -- the slot is free, or its process is a zombie
  | user
  | kernel
  | execActive                -- `user_pgd` is the new table, before `asid_get_active`
  | execRead                  -- before the argument of `mmu_switch_user` is read
  | execInstall (asid : ℕ)    -- before its `msr ttbr0_el1`
  | execField                 -- before `asid_field` is read
  | execFlush (asid : ℕ)      -- before `tlbi aside1is`
  | exitClear                 -- the state is DEAD, before `user_pgd = NULL`
  | exitLeave                 -- before `mmu_leave_user`
  | exitFree                  -- before `asid_free`
deriving DecidableEq

structure Proc where
  asid : ℕ
  generation : ℕ
  /-- The address space of `user_pgd`. -/
  pgd : Option ℕ
  /-- Whether the state is `PROCESS_STATE_RUNNING`. -/
  running : Bool
  pc : Pc
  /-- The field `on_core` of its task. -/
  core : Option ℕ
  stale : Option ℕ
deriving DecidableEq

/-- Where a core is in `sched_schedule`. -/
inductive Stage
  | run                                                     -- not in it
  | picked (next : Option ℕ)                                -- before `task_ttbr0_for`
  | loaded (next : Option ℕ) (ttbr0 : Option Tagged)        -- before `msr ttbr0_el1`
deriving DecidableEq

structure Core where
  /-- TTBR0, unless it is the empty table of the kernel. -/
  ttbr0 : Option Tagged
  /-- `cpu_asid_gen`. -/
  generation : ℕ
  tlb : List Tagged
  /-- The process of the current task; a kernel task has none. -/
  cur : Option ℕ
  stage : Stage
deriving DecidableEq

structure State where
  generation : ℕ
  bitmap : ℕ → Bool
  procs : ℕ → Proc
  cores : ℕ → Core

/-- `MAX_ASID + 1`. -/
def poolSize : ℕ := 256

/-- `get_free_asid`: the first free identifier, if there is one. -/
def getFreeAsid (bitmap : ℕ → Bool) : Option ℕ := (List.range poolSize).find? fun a => !bitmap a

namespace State

def setProc (s : State) (p : ℕ) (q : Proc) : State :=
  { s with procs := Function.update s.procs p q }

def setCore (s : State) (c : ℕ) (k : Core) : State :=
  { s with cores := Function.update s.cores c k }

/-- `tlbi vmalle1` on a core that is behind. -/
def sync (s : State) (c : ℕ) : State :=
  if (s.cores c).generation = s.generation then s
  else s.setCore c { s.cores c with tlb := [], generation := s.generation }

/-- A new generation, with `tlbi vmalle1is`. -/
def rollover (s : State) (c : ℕ) : State :=
  let generation := (s.generation + 1) % 2 ^ 64
  { s with
    generation := generation
    bitmap := fun a => decide (a = 0) && s.bitmap 0
    cores := fun d => { s.cores d with
      tlb := []
      generation := if d = c then generation else (s.cores d).generation } }

def grant (s : State) (p a : ℕ) : State :=
  { s with bitmap := Function.update s.bitmap a true }.setProc p
    { s.procs p with asid := a, generation := s.generation, stale := none }

/-- The ASID of the process is one of the current generation. -/
def Valid (s : State) (p : ℕ) : Prop :=
  (s.procs p).generation = s.generation ∧ (s.procs p).asid ≠ 0

instance (s : State) (p : ℕ) : Decidable (s.Valid p) :=
  inferInstanceAs (Decidable (_ ∧ _))

/-- `asid_get_active` by core `c` for process `p`. -/
def asidGetActive (s : State) (c p : ℕ) : State :=
  let s := s.sync c
  if s.Valid p then s
  else
    match getFreeAsid s.bitmap with
    | some a => s.grant p a
    | none =>
      let s := s.rollover c
      s.grant p ((getFreeAsid s.bitmap).getD (2 ^ 64 - 1))

/-- `tlbi aside1is`. -/
def flushAsid (s : State) (a : ℕ) : State :=
  { s with cores := fun d => { s.cores d with tlb := (s.cores d).tlb.filter fun e => e.1 ≠ a } }

/-- `asid_free`. -/
def asidFree (s : State) (p : ℕ) : State :=
  let q := s.procs p
  let s := if s.Valid p then
      { s.flushAsid q.asid with bitmap := Function.update s.bitmap q.asid false }
    else s
  s.setProc p { q with asid := 0, generation := 0 }

end State

/-- The value `task_ttbr0_for` builds. -/
def Proc.ttbr0 (q : Proc) : Option Tagged :=
  if q.running then q.pgd.map fun space => (q.asid, space) else none

/-- A process whose slot was claimed and filled: the end of `process_fork` or of
`process_create`. -/
def Proc.created (pgd : ℕ) : Proc where
  asid := 0
  generation := 0
  pgd := some pgd
  running := true
  pc := .kernel
  core := none
  stale := none

/-- What can happen next. -/
inductive Act
  /-- A process appears. -/
  | create (p pgd : ℕ)
  /-- A system call, a fault or an interrupt. -/
  | enter (p : ℕ)
  /-- The return to user code. -/
  | leave (p : ℕ)
  /-- `process_exec` replaces `user_pgd`. -/
  | exec (p pgd : ℕ)
  /-- `process_exit` begins. -/
  | exit (p : ℕ)
  /-- The next step of `process_exec` or `process_exit`. -/
  | advance (p : ℕ)
  /-- `sched_schedule` selects a task: of a process, or one of the kernel. -/
  | pick (c : ℕ) (next : Option ℕ)
  /-- `task_ttbr0_for`. -/
  | load (c : ℕ)
  /-- The write of TTBR0 and the switch of contexts. -/
  | install (c : ℕ)
  /-- The TLB gains an entry for the installed TTBR0. -/
  | fill (c : ℕ)

namespace State

/-- The core that executes process `p`. -/
def executor (s : State) (p : ℕ) : Option ℕ :=
  (s.procs p).core.filter fun c => (s.cores c).cur = some p ∧ (s.cores c).stage = .run

/-- The next step of `process_exec` or `process_exit` on core `c`. -/
def advance (s : State) (c p : ℕ) : Option State :=
  let q := s.procs p
  let k := s.cores c
  match q.pc with
  | .execActive =>
    let s := s.asidGetActive c p
    some (s.setProc p { s.procs p with pc := .execRead })
  | .execRead => some (s.setProc p { q with pc := .execInstall q.asid })
  | .execInstall a =>
    some ((s.setCore c { k with ttbr0 := q.pgd.map fun space => (a, space) }).setProc p
      { q with pc := .execField })
  | .execField => some (s.setProc p { q with pc := .execFlush q.asid })
  | .execFlush a => some ((s.flushAsid a).setProc p { q with pc := .kernel, stale := none })
  | .exitClear =>
    if q.pgd = none then
      some ((s.setCore c { k with cur := none }).setProc p { q with pc := .gone, core := none })
    else some (s.setProc p { q with pc := .exitLeave, pgd := none, stale := q.pgd })
  | .exitLeave => some ((s.setCore c { k with ttbr0 := none }).setProc p { q with pc := .exitFree })
  | .exitFree =>
    -- from here on the task is one of the kernel, and the slot can be reused
    let s := s.asidFree p
    some ((s.setCore c { s.cores c with cur := none }).setProc p
      { s.procs p with pc := .gone, core := none, stale := none })
  | _ => none

/-- A task of the kernel is always there to be picked, the idle task at least. -/
def pick (s : State) (c : ℕ) (next : Option ℕ) : Option State :=
  let k := s.cores c
  let inKernel := k.cur.all fun p => (s.procs p).pc ≠ .user
  match next with
  | none =>
    if k.stage = .run ∧ inKernel then some (s.setCore c { k with stage := .picked none }) else none
  | some p =>
    let q := s.procs p
    if k.stage = .run ∧ inKernel ∧ q.pc ≠ .gone ∧ q.core = none then
      some ((s.setCore c { k with stage := .picked (some p) }).setProc p { q with core := some c })
    else none

def load (s : State) (c : ℕ) : Option State :=
  match (s.cores c).stage with
  | .picked none => some (s.setCore c { s.cores c with stage := .loaded none none })
  | .picked (some p) =>
    let q := s.procs p
    let s := if q.running ∧ q.pgd ≠ none then s.asidGetActive c p else s
    some (s.setCore c { s.cores c with stage := .loaded (some p) (s.procs p).ttbr0 })
  | _ => none

def install (s : State) (c : ℕ) : Option State :=
  match (s.cores c).stage with
  | .loaded next v =>
    let k := s.cores c
    let s := s.setCore c { k with ttbr0 := v, cur := next, stage := .run }
    match k.cur with
    | none => some s
    | some prev => some (s.setProc prev { s.procs prev with core := none })
  | _ => none

def step (s : State) : Act → Option State
  | .create p pgd =>
    if (s.procs p).pc = .gone then some (s.setProc p (.created pgd)) else none
  | .enter p =>
    if s.executor p ≠ none ∧ (s.procs p).pc = .user then
      some (s.setProc p { s.procs p with pc := .kernel })
    else none
  | .leave p =>
    if s.executor p ≠ none ∧ (s.procs p).pc = .kernel ∧ (s.procs p).pgd ≠ none then
      some (s.setProc p { s.procs p with pc := .user })
    else none
  | .exec p pgd =>
    let q := s.procs p
    if s.executor p ≠ none ∧ q.pc = .kernel then
      some (s.setProc p { q with pc := .execActive, pgd := some pgd, stale := q.pgd })
    else none
  | .exit p =>
    let q := s.procs p
    if s.executor p ≠ none ∧ q.pc = .kernel then
      some (s.setProc p { q with pc := .exitClear, running := false })
    else none
  | .advance p => (s.executor p).bind fun c => s.advance c p
  | .pick c next => s.pick c next
  | .load c => s.load c
  | .install c => s.install c
  | .fill c =>
    match (s.cores c).ttbr0 with
    | none => none
    | some v => some (s.setCore c { s.cores c with tlb := v :: (s.cores c).tlb })

/-- After `asid_init`, before the first process. -/
def boot : State where
  generation := 1
  bitmap a := decide (a = 0)
  procs _ :=
    { asid := 0
      generation := 0
      pgd := none
      running := false
      pc := .gone
      core := none
      stale := none }
  cores _ :=
    { ttbr0 := none
      generation := 0
      tlb := []
      cur := none
      stage := .run }

/-! ## The property, and when it holds -/

/-- A core that executes user code has the address space of that process in TTBR0, and every
entry of its TLB under the installed ASID comes from that address space. -/
def Isolated (s : State) : Prop :=
  ∀ c p, (s.cores c).cur = some p → (s.procs p).pc = .user →
    ∃ a space, (s.cores c).ttbr0 = some (a, space) ∧ (s.procs p).pgd = some space ∧
      ∀ e ∈ (s.cores c).tlb, e.1 = a → e.2 = space

/-- The next `asid_get_active` for the process starts a new generation. -/
def RollsOver (s : State) (p : ℕ) : Prop := ¬ s.Valid p ∧ getFreeAsid s.bitmap = none

instance (s : State) (p : ℕ) : Decidable (s.RollsOver p) :=
  inferInstanceAs (Decidable (_ ∧ _))

/-- If `asid_get_active` flushes the TLB of its core, TTBR0 names no user table; and the
counter of generations does not wrap. -/
def ActiveOk (s : State) (c p : ℕ) : Prop :=
  ((s.cores c).generation ≠ s.generation ∨ s.RollsOver p → (s.cores c).ttbr0 = none) ∧
  (s.RollsOver p → s.generation + 1 < 2 ^ 64)

instance (s : State) (c p : ℕ) : Decidable (s.ActiveOk c p) :=
  inferInstanceAs (Decidable ((_ → _) ∧ (_ → _)))

/-- `task_ttbr0_for` calls `asid_get_active` as `ActiveOk` says. -/
def LoadOk (s : State) (c : ℕ) : Stage → Prop
  | .picked (some p) => (s.procs p).running = true ∧ (s.procs p).pgd ≠ none → s.ActiveOk c p
  | _ => True

instance (s : State) (c : ℕ) : (stage : Stage) → Decidable (s.LoadOk c stage)
  | .picked (some _) => inferInstanceAs (Decidable (_ → _))
  | .run | .picked none | .loaded .. => inferInstanceAs (Decidable True)

/-- So does `process_exec`, and it installs an ASID that is still the one of its process. -/
def ExecOk (s : State) (p : ℕ) : Pc → Prop
  | .execActive => ∀ c ∈ (s.procs p).core, s.ActiveOk c p
  | .execInstall a => a = (s.procs p).asid
  | _ => True

instance (s : State) (p : ℕ) : (pc : Pc) → Decidable (s.ExecOk p pc)
  | .execActive => inferInstanceAs (Decidable (∀ c ∈ (s.procs p).core, s.ActiveOk c p))
  | .execInstall _ => inferInstanceAs (Decidable (_ = _))
  | .gone | .user | .kernel | .execRead | .execField | .execFlush _ | .exitClear | .exitLeave
  | .exitFree => inferInstanceAs (Decidable True)

/-- The steps that keep address spaces apart. -/
def Careful (s : State) : Act → Prop
  | .load c => s.LoadOk c (s.cores c).stage
  | .advance p => s.ExecOk p (s.procs p).pc
  | _ => True

instance (s : State) : (a : Act) → Decidable (s.Careful a)
  | .load c => inferInstanceAs (Decidable (s.LoadOk c (s.cores c).stage))
  | .advance p => inferInstanceAs (Decidable (s.ExecOk p (s.procs p).pc))
  | .create .. | .enter _ | .leave _ | .exec .. | .exit _ | .pick .. | .install _ | .fill _ =>
    inferInstanceAs (Decidable True)

end State

end Perspicua.Mm.Asid
