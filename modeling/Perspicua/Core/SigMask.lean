import Mathlib.Data.Int.Notation
import Perspicua.Core.Signals

/-!
# Who can escape a signal

The masks and dispositions of the processes, as the words that `kernel/core/syscall.c`,
`kernel/core/signals.c` and `kernel/sched/process.c` keep: `blocked_signals`, the mask that
`sigsuspend` displaced, and the table of handlers. What user code supplies is arbitrary: the
`struct sigaction`, the masks of `sigprocmask` and `sigsuspend`, and the frame on its stack that
`sigreturn` reads. A write to a mask that is cleaned by the next statement is one step with it.
`sigsuspend` is two, since the process sleeps between the first write and the second.

No process ever has `SIGKILL` or `SIGSTOP` blocked, ignored or caught.
-/

namespace Perspicua.Core.SigMask

open Perspicua.Lib
open Perspicua.Core.Signals (nsig sigkill sigstop signalDefaultAction)

/-! ## Masks -/

/-- `1u << (sig - 1)`. -/
def bit (sig : ℕ) : BitVec 32 := 1#32 <<< (sig - 1)

/-- `mask & ~((1u << (SIGKILL - 1)) | (1u << (SIGSTOP - 1)))`. -/
def scrub (mask : BitVec 32) : BitVec 32 := mask &&& ~~~(bit sigkill ||| bit sigstop)

/-- Neither `SIGKILL` nor `SIGSTOP` is in the mask. -/
def Clean (mask : BitVec 32) : Prop :=
  mask.getLsbD (sigkill - 1) = false ∧ mask.getLsbD (sigstop - 1) = false

theorem clean_zero : Clean 0 := ⟨rfl, rfl⟩

theorem clean_scrub (mask : BitVec 32) : Clean (scrub mask) := by
  have hkill : (bit sigkill ||| bit sigstop).getLsbD (sigkill - 1) = true := by decide
  have hstop : (bit sigkill ||| bit sigstop).getLsbD (sigstop - 1) = true := by decide
  constructor
  · rw [scrub, BitVec.getLsbD_and, BitVec.getLsbD_not, hkill, Bool.not_true, Bool.and_false,
      Bool.and_false]
  · rw [scrub, BitVec.getLsbD_and, BitVec.getLsbD_not, hstop, Bool.not_true, Bool.and_false,
      Bool.and_false]

theorem Clean.and {mask : BitVec 32} (h : Clean mask) (m : BitVec 32) : Clean (mask &&& m) := by
  constructor
  · rw [BitVec.getLsbD_and, h.1, Bool.false_and]
  · rw [BitVec.getLsbD_and, h.2, Bool.false_and]

/-! ## Processes -/

/-- `SIG_DFL`. -/
def sigDfl : BitVec 64 := 0#64

/-- `SIG_IGN`. -/
def sigIgn : BitVec 64 := 1#64

/-- `struct sigaction`. -/
structure SigAction where
  handler : BitVec 64
  mask : BitVec 32
  flags : BitVec 32
  restorer : BitVec 64

/-- An entry cleared by `memset`, whose handler is `SIG_DFL`. -/
def SigAction.default : SigAction := ⟨sigDfl, 0, 0, 0⟩

/-- `SA_NODEFER`. -/
def SigAction.nodefer (sa : SigAction) : Bool := sa.flags &&& 0x40000000#32 ≠ 0

/-- `SA_RESETHAND`. -/
def SigAction.resethand (sa : SigAction) : Bool := sa.flags &&& 0x80000000#32 ≠ 0

/-- `SA_RESTORER` with an address of user code. -/
def SigAction.restorable (sa : SigAction) : Bool :=
  sa.flags &&& 0x04000000#32 ≠ 0 && sa.restorer ≠ 0 && sa.restorer < 0xFFFFFF8000000000#64

structure Proc where
  /-- `PROCESS_STATE_RUNNING`, or else a zombie. -/
  running : Bool
  pending : BitVec 32
  blocked : BitVec 32
  savedSigmask : BitVec 32
  hasSavedSigmask : Bool
  /-- `signal_handlers`, by index: the entry of `sig` is the one at `sig - 1`. -/
  handlers : ℕ → SigAction
  /-- The process sleeps in `sigsuspend`, with the mask it displaced in a local variable. -/
  suspended : Option (BitVec 32)

/-- `process_alloc_pcb` and `process_init_signals`. -/
def Proc.alloc : Proc where
  running := true
  pending := 0
  blocked := 0
  savedSigmask := 0
  hasSavedSigmask := false
  handlers _ := .default
  suspended := none

/-- What comes of building a frame for a handler on the user's stack. -/
inductive Entry
  /-- The stack pointer or the restorer is refused. -/
  | refused
  /-- The frame cannot be copied out. -/
  | unwritable
  | entered
deriving DecidableEq

/-- What a process does, or has done to it, about its signals. -/
inductive Call
  | sigaction (sig : ℤ) (act : SigAction)
  | sigprocmask (how : ℤ) (set : BitVec 32)
  | sigsuspend (mask : BitVec 32)
  /-- The sleep in `sigsuspend` ends. -/
  | suspendEnds
  /-- `sigreturn` with the mask of the frame; without a frame it accepts, the process exits. -/
  | sigreturn (savedMask : Option (BitVec 32))
  /-- `signal_deliver_one`. -/
  | deliverOne (entry : Entry)
  /-- The end of `signal_handle_pending`. -/
  | handlePendingEnds
  /-- `signal_send_target_locked`. -/
  | send (sig : ℕ)
  | raiseFault (sig : ℕ)
  | exec
  | exit

namespace Proc

variable (q : Proc)

/-- `process_exit`. -/
def exit : Proc := { q with running := false }

/-- `sigaction_handler`, once the new action is copied in. -/
def sigaction (sig : ℤ) (act : SigAction) : Proc :=
  if sig ≥ nsig ∨ sig < 1 ∨ sig = sigkill ∨ sig = sigstop then q
  else
    let i := (sig - 1).toNat
    { q with
      handlers := Function.update q.handlers i { act with mask := scrub act.mask }
      pending := if act.handler = sigIgn then q.pending &&& ~~~(1#32 <<< i) else q.pending }

/-- `sigprocmask_handler`, once the set is copied in. -/
def sigprocmask (how : ℤ) (set : BitVec 32) : Proc :=
  if how = 0 then { q with blocked := scrub (q.blocked ||| set) }
  else if how = 1 then { q with blocked := scrub (q.blocked &&& ~~~set) }
  else if how = 2 then { q with blocked := scrub set }
  else q

/-- `sigsuspend_handler` up to its loop. -/
def sigsuspend (mask : BitVec 32) : Proc :=
  { q with blocked := scrub mask, suspended := some q.blocked }

/-- `sigsuspend_handler` after its loop, which a deliverable signal ends. -/
def suspendEnds : Proc :=
  match q.suspended with
  | none => q
  | some mask =>
    if q.pending &&& ~~~q.blocked = 0 then q
    else { q with savedSigmask := mask, hasSavedSigmask := true, suspended := none }

/-- `sigreturn_handler`. -/
def sigreturn : Option (BitVec 32) → Proc
  | none => q.exit
  | some mask => { q with blocked := scrub mask }

/-- `__builtin_ctz` of the deliverable signals. -/
def lowestBit (mask : BitVec 32) : Option ℕ := (List.range 32).find? mask.getLsbD

/-- `signal_deliver_one` at a handler of user code. -/
def enterHandler (i : ℕ) (sa : SigAction) (entry : Entry) : Proc :=
  let oldMask := q.blocked
  let newMask := oldMask ||| sa.mask
  let newMask := if sa.nodefer then newMask else newMask ||| 1#32 <<< i
  match entry with
  | .refused => q.exit
  | .unwritable => { q with blocked := oldMask }.exit
  | .entered =>
    if sa.restorable then
      { q with
        blocked := scrub newMask
        hasSavedSigmask := false
        handlers :=
          if sa.resethand then Function.update q.handlers i { sa with handler := sigDfl }
          else q.handlers }
    else q.exit

/-- `signal_deliver_one`. A stop leaves the fields alone, whenever it ends. -/
def deliverOne (entry : Entry) : Proc :=
  match lowestBit (q.pending &&& ~~~q.blocked) with
  | none => q
  | some i =>
    let q := { q with pending := q.pending &&& ~~~(1#32 <<< i) }
    let sa := q.handlers i
    if sa.handler = sigIgn then q
    else if sa.handler = sigDfl then
      match signalDefaultAction (i + 1) with
      | .ign | .cont | .stop => q
      | .term => q.exit
    else q.enterHandler i sa entry

/-- The end of `signal_handle_pending`. -/
def handlePendingEnds : Proc :=
  if q.hasSavedSigmask then { q with blocked := q.savedSigmask, hasSavedSigmask := false } else q

/-- `signal_discarded`. -/
def signalDiscarded (sig : ℕ) : Bool :=
  if sig = sigkill ∨ sig = sigstop then false
  else (q.handlers (sig - 1)).handler = sigIgn ||
    ((q.handlers (sig - 1)).handler = sigDfl && signalDefaultAction sig = .ign)

/-- `signal_send_target_locked`, as far as the pending set goes. -/
def send (sig : ℕ) : Proc :=
  if sig < 1 ∨ sig ≥ nsig then q
  else
    let stopMask := bit 19 ||| bit 20 ||| bit 21 ||| bit 22
    let pending :=
      if Signals.isStop sig then q.pending &&& ~~~(bit Signals.sigcont)
      else if sig = Signals.sigcont then q.pending &&& ~~~stopMask
      else q.pending
    { q with pending := if q.signalDiscarded sig then pending else pending ||| bit sig }

/-- `signal_raise_fault`. -/
def raiseFault (sig : ℕ) : Proc :=
  if sig < 1 ∨ sig ≥ nsig then q
  else
    let forced := (q.handlers (sig - 1)).handler = sigIgn ∨ q.blocked &&& bit sig ≠ 0
    { q with
      handlers := if forced then Function.update q.handlers (sig - 1) .default else q.handlers
      blocked := if forced then q.blocked &&& ~~~(bit sig) else q.blocked
      pending := q.pending ||| bit sig }

/-- The handlers after `process_exec`. -/
def exec : Proc :=
  { q with handlers := fun i => if (q.handlers i).handler ≠ sigIgn then .default else q.handlers i }

def call : Call → Proc
  | .sigaction sig act => q.sigaction sig act
  | .sigprocmask how set => q.sigprocmask how set
  | .sigsuspend mask => q.sigsuspend mask
  | .suspendEnds => q.suspendEnds
  | .sigreturn savedMask => q.sigreturn savedMask
  | .deliverOne entry => q.deliverOne entry
  | .handlePendingEnds => q.handlePendingEnds
  | .send sig => q.send sig
  | .raiseFault sig => q.raiseFault sig
  | .exec => q.exec
  | .exit => q.exit

/-- What `process_fork` gives to a child. -/
def fork : Proc := { alloc with blocked := q.blocked, handlers := q.handlers }

end Proc

/-! ## The table -/

structure State where
  table : ℕ → Option Proc

inductive Act
  | call (p : ℕ) (c : Call)
  | fork (p child : ℕ)
  /-- The kernel creates a process. -/
  | create (p : ℕ)
  | reap (p : ℕ)

/-- A process in `sigsuspend` does nothing until its sleep ends; signals are sent to it. -/
def Call.possible (suspended : Bool) : Call → Bool
  | .send _ => true
  | .suspendEnds => suspended
  | _ => !suspended

namespace State

def set (s : State) (p : ℕ) (q : Option Proc) : State := ⟨Function.update s.table p q⟩

def step (s : State) : Act → Option State
  | .call p c =>
    match s.table p with
    | some q => if q.running ∧ c.possible q.suspended.isSome then some (s.set p (q.call c)) else none
    | none => none
  | .fork p child =>
    match s.table p, s.table child with
    | some q, none =>
      if q.running ∧ q.suspended = none then some (s.set child (some q.fork)) else none
    | _, _ => none
  | .create p => if (s.table p).isNone then some (s.set p (some .alloc)) else none
  | .reap p => if (s.table p).any (! ·.running) then some (s.set p none) else none

/-- No process yet. -/
def boot : State := ⟨fun _ => none⟩

end State

/-! ## What every step keeps -/

/-- The disposition of `SIGKILL` and `SIGSTOP` is the default one. -/
def Unhandled (handlers : ℕ → SigAction) : Prop :=
  (handlers (sigkill - 1)).handler = sigDfl ∧ (handlers (sigstop - 1)).handler = sigDfl

theorem Unhandled.update_default {handlers : ℕ → SigAction} (h : Unhandled handlers) (i : ℕ)
    {sa : SigAction} (hsa : sa.handler = sigDfl) : Unhandled (Function.update handlers i sa) := by
  have hentry : ∀ j, (handlers j).handler = sigDfl →
      (Function.update handlers i sa j).handler = sigDfl := by
    intro j hj
    by_cases hij : j = i
    · rw [hij, Function.update_self, hsa]
    · rw [Function.update_of_ne hij, hj]
  exact ⟨hentry _ h.1, hentry _ h.2⟩

theorem Unhandled.update_other {handlers : ℕ → SigAction} (h : Unhandled handlers) {i : ℕ}
    (sa : SigAction) (hkill : i ≠ sigkill - 1) (hstop : i ≠ sigstop - 1) :
    Unhandled (Function.update handlers i sa) :=
  ⟨by rw [Function.update_of_ne hkill.symm, h.1], by rw [Function.update_of_ne hstop.symm, h.2]⟩

namespace Proc

/-- No mask of the process, nor one it will go back to, holds `SIGKILL` or `SIGSTOP`, and
neither is handled. -/
structure Safe (q : Proc) : Prop where
  blocked : Clean q.blocked
  saved : Clean q.savedSigmask
  displaced : ∀ mask ∈ q.suspended, Clean mask
  handlers : Unhandled q.handlers

variable {q : Proc}

theorem safe_alloc : alloc.Safe where
  blocked := clean_zero
  saved := clean_zero
  displaced := by rintro _ ⟨⟩
  handlers := ⟨rfl, rfl⟩

namespace Safe

variable (h : q.Safe)
include h

theorem exit : q.exit.Safe := ⟨h.blocked, h.saved, h.displaced, h.handlers⟩

theorem sigaction (sig : ℤ) (act : SigAction) : (q.sigaction sig act).Safe := by
  unfold Proc.sigaction
  split
  · exact h
  next hsig =>
    have hkill : (sig - 1).toNat ≠ sigkill - 1 := by
      simp only [sigkill] at hsig ⊢
      omega
    have hstop : (sig - 1).toNat ≠ sigstop - 1 := by
      simp only [sigstop] at hsig ⊢
      omega
    exact ⟨h.blocked, h.saved, h.displaced, h.handlers.update_other _ hkill hstop⟩

theorem withBlocked {mask : BitVec 32} (hmask : Clean mask) : Safe { q with blocked := mask } :=
  ⟨hmask, h.saved, h.displaced, h.handlers⟩

theorem sigprocmask (how : ℤ) (set : BitVec 32) : (q.sigprocmask how set).Safe := by
  unfold Proc.sigprocmask
  split
  · exact h.withBlocked (clean_scrub _)
  split
  · exact h.withBlocked (clean_scrub _)
  split
  · exact h.withBlocked (clean_scrub _)
  · exact h

theorem sigsuspend (mask : BitVec 32) : (q.sigsuspend mask).Safe := by
  refine ⟨clean_scrub _, h.saved, ?_, h.handlers⟩
  intro m hm
  cases hm
  exact h.blocked

theorem suspendEnds : q.suspendEnds.Safe := by
  unfold Proc.suspendEnds
  split
  · exact h
  next mask hmask =>
    split
    · exact h
    · exact ⟨h.blocked, h.displaced mask hmask, by rintro _ ⟨⟩, h.handlers⟩

theorem sigreturn (savedMask : Option (BitVec 32)) : (q.sigreturn savedMask).Safe := by
  cases savedMask with
  | none => exact h.exit
  | some mask => exact h.withBlocked (clean_scrub _)

theorem enterHandler (i : ℕ) (entry : Entry) : (q.enterHandler i (q.handlers i) entry).Safe := by
  unfold Proc.enterHandler
  cases entry with
  | refused => exact h.exit
  | unwritable => exact h.exit
  | entered =>
    dsimp only
    split
    · refine ⟨clean_scrub _, h.saved, h.displaced, ?_⟩
      dsimp only
      split
      · exact h.handlers.update_default i rfl
      · exact h.handlers
    · exact h.exit

theorem withPending (pending : BitVec 32) : Safe { q with pending := pending } :=
  ⟨h.blocked, h.saved, h.displaced, h.handlers⟩

theorem deliverOne (entry : Entry) : (q.deliverOne entry).Safe := by
  unfold Proc.deliverOne
  split
  · exact h
  next i _ =>
    have h' := h.withPending (q.pending &&& ~~~(1#32 <<< i))
    dsimp only
    split
    · exact h'
    split
    · split
      · exact h'
      · exact h'
      · exact h'
      · exact h'.exit
    · exact h'.enterHandler i entry

theorem handlePendingEnds : q.handlePendingEnds.Safe := by
  unfold Proc.handlePendingEnds
  split
  · exact ⟨h.saved, h.saved, h.displaced, h.handlers⟩
  · exact h

theorem send (sig : ℕ) : (q.send sig).Safe := by
  unfold Proc.send
  split
  · exact h
  · exact h.withPending _

theorem raiseFault (sig : ℕ) : (q.raiseFault sig).Safe := by
  unfold Proc.raiseFault
  split
  · exact h
  · refine ⟨?_, h.saved, h.displaced, ?_⟩
    · dsimp only
      split
      · exact h.blocked.and _
      · exact h.blocked
    · dsimp only
      split
      · exact h.handlers.update_default _ rfl
      · exact h.handlers

theorem exec : q.exec.Safe := by
  have hentry : ∀ i, (q.handlers i).handler = sigDfl → (q.exec.handlers i).handler = sigDfl := by
    intro i hi
    simp only [Proc.exec]
    split
    · rfl
    · exact hi
  exact ⟨h.blocked, h.saved, h.displaced, hentry _ h.handlers.1, hentry _ h.handlers.2⟩

theorem call (c : Call) : (q.call c).Safe := by
  cases c with
  | sigaction sig act => exact h.sigaction sig act
  | sigprocmask how set => exact h.sigprocmask how set
  | sigsuspend mask => exact h.sigsuspend mask
  | suspendEnds => exact h.suspendEnds
  | sigreturn savedMask => exact h.sigreturn savedMask
  | deliverOne entry => exact h.deliverOne entry
  | handlePendingEnds => exact h.handlePendingEnds
  | send sig => exact h.send sig
  | raiseFault sig => exact h.raiseFault sig
  | exec => exact h.exec
  | exit => exact h.exit

theorem fork : q.fork.Safe := ⟨h.blocked, clean_zero, by rintro _ ⟨⟩, h.handlers⟩

end Safe

end Proc

namespace State

variable {s t : State}

/-- Every process in the table is safe. -/
def Safe (s : State) : Prop := ∀ p, ∀ q ∈ s.table p, q.Safe

theorem Safe.set (h : s.Safe) (p : ℕ) {r : Option Proc} (hr : ∀ q ∈ r, q.Safe) :
    (s.set p r).Safe := by
  intro p' q hq
  by_cases hp : p' = p
  · subst hp
    exact hr q (by simpa [State.set] using hq)
  · exact h p' q (by simpa [State.set, hp] using hq)

/-- A step puts at most one process into the table: one that was there after a call, the child
of one, or a new one. -/
theorem step_cases {a : Act} (h : s.step a = some t) :
    ∃ p r, t = s.set p r ∧ ∀ q ∈ r,
      (∃ q₀ c, s.table p = some q₀ ∧ q = q₀.call c) ∨
      (∃ p₀ q₀, s.table p₀ = some q₀ ∧ q = q₀.fork) ∨ q = .alloc := by
  cases a with
  | call p c =>
    rw [step] at h
    split at h
    next q₀ hq₀ =>
      split at h
      · cases h
        refine ⟨p, _, rfl, ?_⟩
        rintro q ⟨⟩
        exact .inl ⟨q₀, c, hq₀, rfl⟩
      · cases h
    · cases h
  | fork p child =>
    rw [step] at h
    split at h
    next q₀ hq₀ _ =>
      split at h
      · cases h
        refine ⟨child, _, rfl, ?_⟩
        rintro q ⟨⟩
        exact .inr (.inl ⟨p, q₀, hq₀, rfl⟩)
      · cases h
    · cases h
  | create p =>
    rw [step] at h
    split at h
    · cases h
      refine ⟨p, _, rfl, ?_⟩
      rintro q ⟨⟩
      exact .inr (.inr rfl)
    · cases h
  | reap p =>
    rw [step] at h
    split at h
    · cases h
      exact ⟨p, none, rfl, by rintro q ⟨⟩⟩
    · cases h

theorem Safe.step {a : Act} (hs : s.Safe) (h : s.step a = some t) : t.Safe := by
  obtain ⟨p, r, rfl, hr⟩ := step_cases h
  apply hs.set
  intro q hq
  obtain ⟨q₀, c, hq₀, rfl⟩ | ⟨p₀, q₀, hq₀, rfl⟩ | rfl := hr q hq
  · exact (hs p q₀ hq₀).call c
  · exact (hs p₀ q₀ hq₀).fork
  · exact Proc.safe_alloc

theorem safe_run {as : List Act} (h : Run (Moves State.step) boot as s) : s.Safe := by
  refine h.invariant Safe ?_ ?_
  · intro s a t hs hm
    exact hs.step hm
  · rintro p q ⟨⟩

/-- In every state that a run reaches, no process has `SIGKILL` or `SIGSTOP` blocked, ignored
or caught. -/
theorem kill_and_stop_run {as : List Act} (h : Run (Moves State.step) boot as s) (p : ℕ) (q : Proc)
    (hq : s.table p = some q) (sig : ℕ) (hsig : sig = sigkill ∨ sig = sigstop) :
    q.blocked.getLsbD (sig - 1) = false ∧ (q.handlers (sig - 1)).handler = sigDfl := by
  have hsafe := safe_run h p q hq
  rcases hsig with rfl | rfl
  · exact ⟨hsafe.blocked.1, hsafe.handlers.1⟩
  · exact ⟨hsafe.blocked.2, hsafe.handlers.2⟩

/-- A process that blocks every signal it can, suspends, catches `SIGUSR1` with a full mask and
returns through a frame with a full mask. -/
def escapist : List Act :=
  let act : SigAction := ⟨0x1000#64, 0xFFFFFFFF#32, 0x04000000#32, 0x2000#64⟩
  [Act.create 1, Act.call 1 (.sigaction 10 act), Act.call 1 (.sigaction 9 act),
    Act.call 1 (.sigprocmask 2 0xFFFFFFFF#32), Act.call 1 (.sigsuspend 0xFFFFFDFF#32),
    Act.call 1 (.send 10), Act.call 1 .suspendEnds, Act.call 1 (.deliverOne .entered),
    Act.call 1 (.sigreturn (some 0xFFFFFFFF#32)), Act.fork 1 2]

/-- Its child has every other signal blocked. -/
theorem kill_and_stop_run_escapist :
    ∃ s q, Run (Moves State.step) boot escapist s ∧ s.table 2 = some q ∧
      q.blocked = 0xFFFBFEFF#32 ∧ q.blocked.getLsbD (sigkill - 1) = false ∧
      (q.handlers (sigkill - 1)).handler = sigDfl := by
  have hexec : (exec State.step boot escapist).any
      (fun s => decide ((s.table 2).map Proc.blocked = some 0xFFFBFEFF#32)) = true := by
    decide +kernel
  obtain ⟨s, hrun, hs⟩ := exists_run_of_exec hexec
  obtain ⟨q, hq, hblocked⟩ := Option.map_eq_some_iff.mp (of_decide_eq_true hs)
  exact ⟨s, q, hrun, hq, hblocked, kill_and_stop_run hrun 2 q hq sigkill (.inl rfl)⟩

end State

end Perspicua.Core.SigMask
