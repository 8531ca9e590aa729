import Mathlib.Tactic.Common
import Perspicua.Core.Signals

/-!
# What a sent signal achieves

Two results about the interleavings of senders, sleepers and deliveries. No sleeper misses a
signal: a task that sleeps in an interruptible call with a deliverable signal, or is stopped
with `SIGKILL` pending, has a sender at work on it that will wake it. And a stop does not
outlive a later `SIGCONT`, unless the stop signal had been taken for delivery when the
`SIGCONT` left no pending bit to be seen.

Both are invariants of one process and of the sender at work on it. What a step can do to these
two is said once, by `Proc.Own` and `Proc.Sent`.
-/

namespace Perspicua.Core.Signals

open Perspicua.Lib Perspicua.Sched

namespace SigSet

variable (m : SigSet) (sig n : ℕ)

@[simp, grind =] theorem add_apply : m.add sig n = if n = sig then true else m n :=
  Function.update_apply ..

@[simp, grind =] theorem remove_apply : m.remove sig n = if n = sig then false else m n :=
  Function.update_apply ..

end SigSet

/-! ## What a step does to a process -/

namespace Proc

/-- The steps of a process that no sender takes. -/
inductive Own (unlocked : Bool) (q : Proc) : Proc → Prop
  | enter (k : Call) : q.pc = .idle → Own unlocked q { q with pc := .block k }
  | ret : q.pc = .idle → Own unlocked q { q with pc := .deliver }
  | advance (early : Bool) {q' : Proc} :
      q.onCpu = true → q.advance unlocked early = some q' → Own unlocked q q'
  | mask (m : SigSet) : q.pc = .idle → Own unlocked q { q with blocked := m }
  | sigaction (sig : ℕ) (k : Handler) : q.pc = .idle → Own unlocked q (q.sigaction sig k)
  | exec : q.pc = .idle →
      Own unlocked q { q with handlers := fun sig => if (q.handlers sig).isIgn then .ign else .dfl }
  | fault (sig : ℕ) : q.pc = .idle → isFault sig = true → Own unlocked q (q.raiseFault sig)
  | exit : Own unlocked q q.exit
  | wake : Own unlocked q { q with state := q.state.unblock }
  | preempt : q.pc.interruptible = true → Own unlocked q (q.schedule q.pc)
  | dispatch : Own unlocked q { q with onCpu := true, state := .running }

/-- The steps of the sender at work on a process, for the sends that meet a condition: the
process, the sender at work on it and the time, before and after. -/
inductive Sent (G : Proc → ℕ → Prop) (q : Proc) (now : ℕ) :
    Option Sending → Proc → ℕ → Option Sending → Prop
  | clear (x : Sending) : G q x.sig →
      Sent G q now none (State.clear q x.sig (now + 1)) (now + 1) (some { x with stage := .decide })
  | decide (x : Sending) : x.stage = .decide → Sent G q now (some x) q now
      (some { x with stage := .post, discarded := q.signalDiscarded x.sig })
  | post (x : Sending) : x.stage = .post → Sent G q now (some x)
      (if x.discarded then q else { q with pending := q.pending.add x.sig }) now
      (some { x with stage := .cont })
  | cont (x : Sending) : x.stage = .cont → Sent G q now (some x) q now
      (some { x with stage :=
        if (x.sig = sigcont ∨ x.sig = sigkill) ∧ q.state = .stopped then .resume else .wake })
  | resume (x : Sending) : x.stage = .resume → Sent G q now (some x)
      { q with state := q.state.resume } now (some { x with stage := .wake })
  | wake (x : Sending) : x.stage = .wake → ¬ x.discarded → q.state = .blocked →
      Sent G q now (some x) q now (some { x with stage := .unblock })
  | pass (x : Sending) : x.stage = .wake → ¬ (¬ x.discarded ∧ q.state = .blocked) →
      Sent G q now (some x) q now none
  | unblock (x : Sending) : x.stage = .unblock →
      Sent G q now (some x) { q with state := q.state.unblock } now none

theorem Sent.le {G : Proc → ℕ → Prop} {q q' : Proc} {n n' : ℕ} {w w' : Option Sending}
    (h : q.Sent G n w q' n' w') : n ≤ n' := by
  cases h <;> omega

end Proc

namespace State

variable {s s' : State} {p : ℕ} {q : Proc} {x : Sending}

@[simp, grind =] theorem set_procs {r : ℕ} : (s.set p q).procs r = if r = p then q else s.procs r :=
  Function.update_apply ..

/-- The sender at work on a process, from its first write to the last look at the task. -/
def workOn (s : State) (p : ℕ) : Option Sending :=
  s.sender.filter fun x => x.stage ≠ .clear && x.targets.head? = some p

@[simp] theorem workOn_set {r : ℕ} : (s.set p q).workOn r = s.workOn r := rfl

theorem workOn_none (h : s.sender = none) : s.workOn p = none := by
  rw [workOn, h, Option.filter_none]

theorem workOn_of_clear (h : s.sender = some x) (hx : x.stage = .clear ∨ x.targets = []) :
    s.workOn p = none := by
  rw [workOn, h, Option.filter_eq_none_iff]
  rintro y ⟨⟩
  obtain h | h := hx <;> simp [h]

theorem workOn_head {rest : List ℕ} (h : s.sender = some x) (ht : x.targets = p :: rest)
    (hx : x.stage ≠ .clear) {r : ℕ} : s.workOn r = if r = p then some x else none := by
  rw [workOn, h]
  split
  · subst r
    exact Option.filter_some_pos (by simp [hx, ht])
  · rename_i hr
    exact Option.filter_some_neg (by simp [ht, Ne.symm hr])

theorem workOn_unlocked (h : s.unlocked = true) : s.workOn p = none :=
  workOn_none (Option.isNone_iff_eq_none.mp h)

/-- A property of every process and of the sender at work on it. -/
def Everywhere (I : Proc → ℕ → Option Sending → Prop) (s : State) : Prop :=
  ∀ p, I (s.procs p) s.now (s.workOn p)

/-- The target of a step of the sender, and every other process. -/
theorem sent_at {G : Proc → ℕ → Prop} {rest : List ℕ} {y : Sending} {now : ℕ} {w : Option Sending}
    (hw : ∀ r, s.workOn r = if r = p then w else none) (hy : y.targets = p :: rest)
    (hst : y.stage ≠ .clear) (h : (s.procs p).Sent G s.now w q now (some y)) :
    let t : State := { s with sender := some y, now := now }.set p q
    (s.procs p).Sent G s.now (s.workOn p) (t.procs p) t.now (t.workOn p) ∧
      ∀ r, r ≠ p → t.procs r = s.procs r ∧ s.workOn r = none ∧ t.workOn r = none := by
  intro t
  have ht : ∀ r, t.workOn r = if r = p then some y else none := fun r => workOn_head rfl hy hst
  refine ⟨?_, fun r hr => ?_⟩
  · rw [hw, ht, if_pos rfl, if_pos rfl, set_procs, if_pos rfl]
    exact h
  · rw [hw, ht, if_neg hr, if_neg hr, set_procs, if_neg hr]
    exact ⟨rfl, rfl, rfl⟩

/-- The same for the last step on a target. -/
theorem sent_last {G : Proc → ℕ → Prop} {y : Sending} {now : ℕ} {w : Option Sending}
    (hw : ∀ r, s.workOn r = if r = p then w else none) (hst : y.stage = .clear)
    (h : (s.procs p).Sent G s.now w q now none) :
    let t : State := { s with sender := some y, now := now }.set p q
    (s.procs p).Sent G s.now (s.workOn p) (t.procs p) t.now (t.workOn p) ∧
      ∀ r, r ≠ p → t.procs r = s.procs r ∧ s.workOn r = none ∧ t.workOn r = none := by
  intro t
  have ht : ∀ r, t.workOn r = none := fun r => workOn_of_clear rfl (.inl hst)
  refine ⟨?_, fun r hr => ?_⟩
  · rw [hw, ht, if_pos rfl, set_procs, if_pos rfl]
    exact h
  · rw [hw, ht, if_neg hr, set_procs, if_neg hr]
    exact ⟨rfl, rfl, rfl⟩

theorem set_self : s.set p (s.procs p) = s := by
  simp [State.set]

/-- A step of the sender is a step on one process, and no sender is at work on any other. -/
theorem send_cases {G : Proc → ℕ → Prop} (hG : ∀ x ∈ s.sender, x.stage = .clear →
      ∀ p ∈ x.targets.head?, G (s.procs p) x.sig) (hs : s.send = some s') :
    (s'.procs = s.procs ∧ s'.now = s.now ∧ ∀ r, s.workOn r = none ∧ s'.workOn r = none) ∨
    ∃ p, (s.procs p).Sent G s.now (s.workOn p) (s'.procs p) s'.now (s'.workOn p) ∧
      ∀ r, r ≠ p → s'.procs r = s.procs r ∧ s.workOn r = none ∧ s'.workOn r = none := by
  unfold State.send at hs
  cases hx : s.sender with
  | none => simp [hx] at hs
  | some x =>
    obtain ⟨sig, targets, stage, discarded⟩ := x
    rw [hx] at hs hG
    cases targets with
    | nil =>
      cases hs
      exact .inl ⟨rfl, rfl, fun r => ⟨workOn_of_clear hx (.inr rfl), workOn_none rfl⟩⟩
    | cons p rest =>
      have hw : stage ≠ .clear → ∀ r, s.workOn r = if r = p then some ⟨sig, p :: rest, stage, discarded⟩ else none :=
        fun hst r => workOn_head hx rfl hst
      -- the steps that change no process set its record to itself
      have hself : ∀ y, ({ s with sender := y } : State).set p (s.procs p) = { s with sender := y } :=
        fun y => set_self (s := { s with sender := y })
      cases stage with
      | clear =>
        have hw : ∀ r, s.workOn r = none := fun r => workOn_of_clear hx (.inl rfl)
        simp only at hs
        split at hs
        · cases hs
          refine .inr ⟨p, sent_at (fun r => by rw [hw, ite_self]) rfl (by simp) ?_⟩
          exact .clear _ (hG _ rfl rfl p rfl)
        · cases hs
          exact .inl ⟨rfl, rfl, fun r => ⟨hw r, workOn_of_clear rfl (.inl rfl)⟩⟩
      | decide =>
        cases hs
        rw [← hself]
        exact .inr ⟨p, sent_at (hw (by decide)) rfl (by simp) (.decide _ rfl)⟩
      | post =>
        cases hs
        exact .inr ⟨p, sent_at (hw (by decide)) rfl (by simp) (.post _ rfl)⟩
      | cont =>
        have hs : s' = { s with sender := some ⟨sig, p :: rest,
            if (sig = sigcont ∨ sig = sigkill) ∧ (s.procs p).state = .stopped then .resume else .wake,
            discarded⟩ } := by
          simp only at hs
          split at hs <;> grind -ring -linarith
        rw [hs, ← hself]
        exact .inr ⟨p, sent_at (hw (by decide)) rfl (by grind -ring -linarith) (.cont _ rfl)⟩
      | resume =>
        cases hs
        exact .inr ⟨p, sent_at (hw (by decide)) rfl (by simp) (.resume _ rfl)⟩
      | wake =>
        simp only at hs
        split at hs
        · rename_i h
          cases hs
          rw [← hself]
          exact .inr ⟨p, sent_at (hw (by decide)) rfl (by simp) (.wake _ rfl h.1 h.2)⟩
        · rename_i h
          cases hs
          rw [← hself]
          exact .inr ⟨p, sent_last (hw (by decide)) rfl (.pass _ rfl h)⟩
      | unblock =>
        cases hs
        exact .inr ⟨p, sent_last (hw (by decide)) rfl (.unblock _ rfl)⟩

/-- A step is one of the sender, one that takes the table lock, or one of a process. -/
theorem step_cases {a : Act} (hs : s.step a = some s') :
    (a = .send ∧ s.send = some s') ∨
    (s'.procs = s.procs ∧ s'.now = s.now ∧ ∀ r, s.workOn r = none ∧ s'.workOn r = none) ∨
    ∃ p q, (s.procs p).Own s.unlocked q ∧ s' = s.set p q := by
  unfold State.step at hs
  cases a with
  | begin sig targets =>
    simp only [Option.ite_none_right_eq_some, Option.some.injEq] at hs
    obtain ⟨⟨hfree, -⟩, rfl⟩ := hs
    exact .inr (.inl ⟨rfl, rfl, fun r => ⟨workOn_unlocked hfree, workOn_of_clear rfl (.inl rfl)⟩⟩)
  | send => exact .inl ⟨rfl, hs⟩
  | advance p early =>
    simp only [Option.ite_none_right_eq_some, Option.map_eq_some_iff] at hs
    obtain ⟨hcpu, q, hq, rfl⟩ := hs
    exact .inr (.inr ⟨p, q, .advance early hcpu hq, rfl⟩)
  | wake p =>
    cases hs
    exact .inr (.inr ⟨p, _, .wake, rfl⟩)
  | enter p k =>
    simp only [Option.ite_none_right_eq_some, Option.some.injEq] at hs
    obtain ⟨hi, rfl⟩ := hs
    exact .inr (.inr ⟨p, _, .enter k hi.2, rfl⟩)
  | ret p =>
    simp only [Option.ite_none_right_eq_some, Option.some.injEq] at hs
    obtain ⟨hi, rfl⟩ := hs
    exact .inr (.inr ⟨p, _, .ret hi.2, rfl⟩)
  | mask p m =>
    simp only [Option.ite_none_right_eq_some, Option.some.injEq] at hs
    obtain ⟨hi, rfl⟩ := hs
    exact .inr (.inr ⟨p, _, .mask m hi.2, rfl⟩)
  | sigaction p sig k =>
    simp only [Option.ite_none_right_eq_some, Option.some.injEq] at hs
    obtain ⟨⟨hi, -⟩, rfl⟩ := hs
    exact .inr (.inr ⟨p, _, .sigaction sig k hi.2, rfl⟩)
  | exec p =>
    simp only [Option.ite_none_right_eq_some, Option.some.injEq] at hs
    obtain ⟨hi, rfl⟩ := hs
    exact .inr (.inr ⟨p, _, .exec hi.2, rfl⟩)
  | fault p sig =>
    simp only [Option.ite_none_right_eq_some, Option.some.injEq] at hs
    obtain ⟨⟨hi, -, hf⟩, rfl⟩ := hs
    exact .inr (.inr ⟨p, _, .fault sig hi.2 hf, rfl⟩)
  | exit p =>
    simp only [Option.ite_none_right_eq_some, Option.some.injEq] at hs
    obtain ⟨-, rfl⟩ := hs
    exact .inr (.inr ⟨p, _, .exit, rfl⟩)
  | preempt p =>
    simp only [Option.ite_none_right_eq_some, Option.some.injEq] at hs
    obtain ⟨⟨-, hi⟩, rfl⟩ := hs
    exact .inr (.inr ⟨p, _, .preempt hi, rfl⟩)
  | dispatch p =>
    simp only [Option.ite_none_right_eq_some, Option.some.injEq] at hs
    obtain ⟨-, rfl⟩ := hs
    exact .inr (.inr ⟨p, _, .dispatch, rfl⟩)

/-- To keep a property of every process, keep it under the steps of a process and under those of
the sender at work on it. -/
theorem Everywhere.step {I : Proc → ℕ → Option Sending → Prop} {G : Proc → ℕ → Prop} {a : Act}
    (hlater : ∀ q w n m, I q n w → n ≤ m → I q m w)
    (hown : ∀ q q' n w unlocked, I q n w → (unlocked = true → w = none) → q.Own unlocked q' → I q' n w)
    (hsent : ∀ q q' n n' w w', I q n w → q.Sent G n w q' n' w' → I q' n' w')
    (hG : a = .send → ∀ x ∈ s.sender, x.stage = .clear → ∀ p ∈ x.targets.head?, G (s.procs p) x.sig)
    (h : s.Everywhere I) (hs : s.step a = some s') : s'.Everywhere I := by
  have hquiet : s'.procs = s.procs ∧ s'.now = s.now ∧ (∀ r, s.workOn r = none ∧ s'.workOn r = none) →
      s'.Everywhere I := by
    rintro ⟨hp, hn, hw⟩ r
    rw [hp, hn, (hw r).2, ← (hw r).1]
    exact h r
  obtain ⟨rfl, hs⟩ | hq | ⟨p, q, hq, rfl⟩ := step_cases hs
  · obtain hq | ⟨p, hp, hr⟩ := send_cases (hG rfl) hs
    · exact hquiet hq
    · intro r
      by_cases hrp : r = p
      · subst r
        exact hsent _ _ _ _ _ _ (h p) hp
      · obtain ⟨h1, h2, h3⟩ := hr r hrp
        rw [h1, h3, ← h2]
        exact hlater _ _ _ _ (h r) hp.le
  · exact hquiet hq
  · intro r
    rw [set_procs]
    split
    · subst r
      exact hown _ _ _ _ _ (h p) workOn_unlocked hq
    · exact h r

end State

/-! ## No signal is missed -/

/-- In a call that a signal ends, past its test. -/
@[grind]
def Pc.sleeps : Pc → Bool
  | .sleep k | .asleep k => k ≠ .uninterruptible
  | _ => false

/-- In a call that a signal ends, from the moment BLOCKED may be published. -/
@[grind]
def Pc.waits : Pc → Bool
  | .test k | .undo k | .sleep k | .asleep k => k ≠ .uninterruptible
  | _ => false

/-- Between publishing BLOCKED and `sched_schedule`, interrupts are masked. -/
@[grind]
def Pc.masked : Pc → Bool
  | .test _ | .undo _ | .sleep _ => true
  | _ => false

theorem Pc.masked_of_interruptible {pc : Pc} (h : pc.interruptible = true) : pc.masked = false := by
  cases pc <;> first | rfl | cases h

theorem Pc.masked_of_waits {pc : Pc} (h : pc.waits = true) (hs : pc.sleeps = false) :
    pc.masked = true := by
  cases pc <;> grind -ring -linarith

/-- A sender has posted its signal and has not yet looked whether the task is blocked. -/
@[grind]
def Wakes : Option Sending → Prop
  | none => False
  | some x => x.discarded = false ∧
      (x.stage = .cont ∨ x.stage = .resume ∨ x.stage = .wake ∨ x.stage = .unblock)

/-- A sender has posted `SIGKILL` and has not yet continued the task. -/
@[grind]
def Kills : Option Sending → Prop
  | none => False
  | some x => x.sig = sigkill ∧ (x.stage = .cont ∨ x.stage = .resume)

attribute [grind =] Proc.signalPending

namespace Proc

/-- A process with which senders have kept up, unless one is at work on it. -/
structure Heard (q : Proc) (w : Option Sending) : Prop where
  blocked : q.state = .blocked → q.pc.sleeps = true → q.signalPending = true → Wakes w
  stopped : q.state = .stopped → q.pending sigkill = true → Kills w
  masked : q.pc.masked = true → q.onCpu = true

variable {q q' : Proc} {w w' : Option Sending} {unlocked early : Bool}

@[simp, grind =] theorem sigaction_pending {sig n : ℕ} {k : Handler} :
    (q.sigaction sig k).pending n = if k.isIgn = true ∧ n = sig then false else q.pending n := by
  unfold Proc.sigaction
  grind -ring -linarith

@[simp, grind =] theorem raiseFault_pending {sig n : ℕ} :
    (q.raiseFault sig).pending n = if n = sig then true else q.pending n := by
  unfold Proc.raiseFault
  split <;> exact SigSet.add_apply ..

theorem Heard.deliverOne {sig : ℕ} (h : q.Heard w) : (q.deliverOne sig).Heard w := by
  have h2 := h.stopped
  unfold Proc.deliverOne
  split
  · constructor <;> grind -ring -linarith
  · split <;> constructor <;> grind -ring -linarith [Proc.exit]
  · constructor <;> grind -ring -linarith [Proc.enterHandler]

theorem Heard.advance (h : q.Heard w) (hcpu : q.onCpu = true)
    (hq : q.advance unlocked early = some q') : q'.Heard w := by
  have h1 := h.blocked
  have h2 := h.stopped
  unfold Proc.advance at hq
  cases hpc : q.pc with
  | idle | gone => simp [hpc] at hq
  | block k =>
    cases k <;> simp only [hpc] at hq
    case waitpid =>
      constructor <;> grind -ring -linarith [TaskState.setBlocked, TaskState.cas]
    all_goals
      cases hq
      constructor <;> grind -ring -linarith [TaskState.setBlocked, TaskState.cas]
  | test k =>
    simp only [hpc] at hq
    constructor <;> grind -ring -linarith
  | undo k =>
    simp only [hpc, Option.some.injEq] at hq
    subst hq
    constructor <;> grind -ring -linarith [TaskState.unwait, TaskState.cas]
  | sleep k =>
    simp only [hpc, Option.some.injEq] at hq
    subst hq
    constructor <;> grind -ring -linarith [Proc.schedule, TaskState.leave, TaskState.cas]
  | asleep k =>
    simp only [hpc, Option.some.injEq] at hq
    subst hq
    constructor <;> grind -ring -linarith
  | deliver =>
    simp only [hpc] at hq
    constructor <;> grind -ring -linarith
  | take sig =>
    simp only [hpc, Option.some.injEq] at hq
    subst hq
    constructor <;> grind -ring -linarith
  | act sig =>
    simp only [hpc, Option.some.injEq] at hq
    subst hq
    exact h.deliverOne
  | stop sig =>
    simp only [hpc] at hq
    constructor <;> grind -ring -linarith [Proc.stopLocked]
  | yield sig =>
    simp only [hpc, Option.some.injEq] at hq
    subst hq
    constructor <;> grind -ring -linarith [Proc.schedule, TaskState.leave, TaskState.cas]
  | halt =>
    simp only [hpc, Option.some.injEq] at hq
    subst hq
    constructor <;> grind -ring -linarith [Proc.schedule, TaskState.leave, TaskState.cas]

theorem Heard.own (h : q.Heard w) (ho : q.Own unlocked q') : q'.Heard w := by
  have h1 := h.blocked
  have h2 := h.stopped
  have h3 := h.masked
  cases ho with
  | advance early hcpu hq => exact h.advance hcpu hq
  | preempt hi =>
    have hm := Pc.masked_of_interruptible hi
    constructor <;> grind -ring -linarith [Proc.schedule, TaskState.leave, TaskState.cas]
  | fault sig hpc hf =>
    have hne : sig ≠ sigkill := by
      rintro rfl
      simp [isFault, sigkill] at hf
    constructor <;> grind -ring -linarith [Proc.raiseFault]
  | sigaction sig k hpc => constructor <;> grind -ring -linarith [Proc.sigaction]
  | exit => constructor <;> grind -ring -linarith [Proc.exit]
  | wake => constructor <;> grind -ring -linarith [TaskState.unblock, TaskState.cas]
  | enter | ret | mask | exec | dispatch => constructor <;> grind -ring -linarith

/-- What clearing the opposing bits leaves alone. -/
theorem clear_frame (q : Proc) (sig now : ℕ) :
    (State.clear q sig now).blocked = q.blocked ∧ (State.clear q sig now).state = q.state ∧
    (State.clear q sig now).pc = q.pc ∧ (State.clear q sig now).onCpu = q.onCpu ∧
    (State.clear q sig now).handlers = q.handlers ∧ (State.clear q sig now).stopAt = q.stopAt := by
  unfold State.clear
  split
  · exact ⟨rfl, rfl, rfl, rfl, rfl, rfl⟩
  · split <;> exact ⟨rfl, rfl, rfl, rfl, rfl, rfl⟩

theorem pending_of_clear {sig now n : ℕ} (h : (State.clear q sig now).pending n = true) :
    q.pending n = true := by
  unfold State.clear at h
  split at h
  · simp only [SigSet.remove_apply] at h
    split at h
    · cases h
    · exact h
  · split at h
    · simp only [Bool.and_eq_true] at h
      exact h.1
    · exact h

/-- Fewer pending signals, fewer deliverable ones. -/
theorem signalPending_mono {q' : Proc} (hp : ∀ n, q'.pending n = true → q.pending n = true)
    (hb : q'.blocked = q.blocked) (h : q'.signalPending = true) : q.signalPending = true := by
  unfold Proc.signalPending lowestDeliverable at h ⊢
  rw [List.find?_isSome] at h ⊢
  obtain ⟨n, hn, hd⟩ := h
  rw [hb] at hd
  have := hp n
  exact ⟨n, hn, by grind -ring -linarith⟩

theorem Heard.sent {G : Proc → ℕ → Prop} {n n' : ℕ} (h : q.Heard w) (hs : q.Sent G n w q' n' w') :
    q'.Heard w' := by
  have h1 := h.blocked
  have h2 := h.stopped
  have h3 := h.masked
  cases hs with
  | clear x =>
    obtain ⟨hb, hstate, hpc, hcpu, -, -⟩ := clear_frame q x.sig (n + 1)
    constructor
    · intro hbl hsl hp
      rw [hstate] at hbl
      rw [hpc] at hsl
      exact (h1 hbl hsl (signalPending_mono (fun _ => pending_of_clear) hb hp)).elim
    · intro hst hp
      rw [hstate] at hst
      exact (h2 hst (pending_of_clear hp)).elim
    · rw [hpc, hcpu]
      exact h3
  | post x hx =>
    split
    · constructor <;> grind -ring -linarith
    · constructor
      · grind -ring -linarith
      · -- a pending SIGKILL that is not the one just posted had its own sender
        grind -ring -linarith
      · exact h3
  | resume x hx | unblock x hx =>
    constructor <;> grind -ring -linarith [TaskState.resume, TaskState.unblock, TaskState.cas]
  | decide x hx | cont x hx | wake x hx | pass x hx => constructor <;> grind -ring -linarith

end Proc

namespace State

variable {s s' : State}

/-- No process sleeps through a signal. -/
def NoMiss (s : State) : Prop :=
  ∀ p,
    ((s.procs p).pc.waits = true → (s.procs p).state = .blocked → (s.procs p).signalPending = true →
      -- it is still executing the call and will see the signal, or has seen it
      (s.procs p).onCpu = true ∧ (s.procs p).pc.sleeps = false) ∧
    ¬ ((s.procs p).state = .stopped ∧ (s.procs p).pending sigkill = true)

def AllHeard : State → Prop := Everywhere fun q _ w => q.Heard w

theorem AllHeard.start (h : s.Start) : s.AllHeard := by
  intro p
  obtain ⟨-, -, hpc, hb, hst, -⟩ := h.procs p
  constructor
  · exact fun hblocked => absurd hblocked hb
  · exact fun hstopped => absurd hstopped hst
  · simp [hpc, Pc.masked]

theorem AllHeard.step {a : Act} (h : s.AllHeard) (hs : s.step a = some s') : s'.AllHeard :=
  Everywhere.step (G := fun _ _ => True) (fun _ _ _ _ h _ => h) (fun _ _ _ _ _ h _ ho => h.own ho)
    (fun _ _ _ _ _ _ h hs => h.sent hs) (fun _ _ _ _ _ _ => trivial) h hs

theorem AllHeard.noMiss (h : s.AllHeard) (hs : s.sender = none) : s.NoMiss := by
  intro p
  have hp := h p
  rw [workOn_none hs] at hp
  constructor
  · intro hw hb hsig
    have hsleep : (s.procs p).pc.sleeps = false := by
      by_contra hne
      exact hp.blocked hb (by simpa using hne) hsig
    exact ⟨hp.masked (Pc.masked_of_waits hw hsleep), hsleep⟩
  · rintro ⟨hst, hk⟩
    exact hp.stopped hst hk

/-- In every state a run reaches in which no sender holds the table lock, no task is blocked
past the test of an interruptible call with a deliverable signal, and none is stopped with
`SIGKILL` pending. -/
theorem signal_run_noMiss {as : List Act} (h : s.Start) (hr : Run (Moves step) s as s')
    (hs : s'.sender = none) : s'.NoMiss :=
  (hr.invariant AllHeard (fun _ _ _ hi hstep => hi.step hstep) (.start h)).noMiss hs

/-- Every process runs in user code with the default handlers. -/
def boot : State where
  procs _ :=
    { running := true, pending := SigSet.empty, blocked := SigSet.empty, handlers := fun _ => .dfl
      state := .running, onCpu := true, pc := .idle, sentAt := fun _ => 0, contAt := 0, stopAt := 0 }
  sender := none
  now := 1

theorem boot_start : boot.Start where
  sender := rfl
  now := rfl
  procs _ := ⟨rfl, rfl, rfl, TaskState.noConfusion, TaskState.noConfusion, rfl⟩

/-- A process goes to sleep in `sigsuspend` and a `SIGKILL` wakes it. -/
theorem signal_run_noMiss_sigsuspend : ∃ s, Run (Moves step) boot
    [.enter 0 .sigsuspend, .advance 0 false, .advance 0 false, .advance 0 false, .begin sigkill [0],
      .send, .send, .send, .send, .send, .send, .send] s ∧
    (s.sender = none ∧ (s.procs 0).pc = .asleep .sigsuspend ∧ (s.procs 0).state = .ready ∧
      (s.procs 0).signalPending = true) ∧ s.NoMiss := by
  have h : (Lib.exec step boot
      [.enter 0 .sigsuspend, .advance 0 false, .advance 0 false, .advance 0 false, .begin sigkill [0],
        .send, .send, .send, .send, .send, .send, .send]).any
      (fun s => decide (s.sender.isNone = true ∧ (s.procs 0).pc = .asleep .sigsuspend ∧
        (s.procs 0).state = .ready ∧ (s.procs 0).signalPending = true)) = true := by
    decide +kernel
  obtain ⟨s, hr, hs⟩ := exists_run_of_exec h
  obtain ⟨hnone, hrest⟩ := of_decide_eq_true hs
  have hnone := Option.isNone_iff_eq_none.mp hnone
  exact ⟨s, hr, ⟨hnone, hrest⟩, signal_run_noMiss boot_start hr hnone⟩

/-- A process publishes BLOCKED before it tests for signals, so for a moment it is BLOCKED with a
signal that was sent before. -/
theorem blocked_before_test : ∃ as s, Run (Moves step) boot as s ∧ s.sender = none ∧
    (s.procs 0).pc = .test .sigsuspend ∧ (s.procs 0).state = .blocked ∧
    (s.procs 0).signalPending = true := by
  have h : (Lib.exec step boot
      [.enter 0 .sigsuspend, .begin sigkill [0], .send, .send, .send, .send, .send, .send,
        .advance 0 false]).any
      (fun s => decide (s.sender.isNone = true ∧ (s.procs 0).pc = .test .sigsuspend ∧
        (s.procs 0).state = .blocked ∧ (s.procs 0).signalPending = true)) = true := by
    decide +kernel
  obtain ⟨s, hr, hs⟩ := exists_run_of_exec h
  obtain ⟨hnone, hrest⟩ := of_decide_eq_true hs
  exact ⟨_, s, hr, Option.isNone_iff_eq_none.mp hnone, hrest⟩

end State

/-! ## A stop does not outlive a later `SIGCONT` -/

attribute [grind] Pc.inGap

@[simp, grind =] theorem isStop_sigcont : isStop sigcont = false := rfl

theorem isStop_of_isFault {sig : ℕ} (h : isFault sig = true) : isStop sig = false := by
  unfold isFault at h
  unfold isStop sigstop sigtstp sigttin sigttou
  grind -ring -linarith

theorem isStop_of_default {sig : ℕ} (h : signalDefaultAction sig = .stop) : isStop sig = true := by
  unfold signalDefaultAction at h
  grind -ring -linarith

theorem pending_of_lowestDeliverable {pending blocked : SigSet} {sig : ℕ}
    (h : lowestDeliverable pending blocked = some sig) : pending sig = true := by
  have := List.find?_some h
  grind -ring -linarith

/-- A sender is about to post a `SIGCONT`, which the process may have ignored. -/
@[grind]
def PostsCont (ignored : Bool) : Option Sending → Prop
  | none => False
  | some x => x.sig = sigcont ∧
      (x.stage = .decide ∧ ignored = false ∨ x.stage = .post ∧ x.discarded = false)

/-- A sender of `SIGCONT` is about to continue the task. -/
@[grind]
def Conts : Option Sending → Prop
  | none => False
  | some x => x.sig = sigcont ∧
      (x.stage = .decide ∨ x.stage = .post ∨ x.stage = .cont ∨ x.stage = .resume)

/-- A sender is about to post the stop signal. -/
@[grind]
def PostsStop (sig : ℕ) : Option Sending → Prop
  | none => False
  | some x => x.sig = sig ∧ (x.stage = .decide ∨ x.stage = .post)

namespace Proc

/-- Every stop signal on its way to stopping the process was sent after the last `SIGCONT`, or
will be overridden by it. -/
structure Timely (q : Proc) (now : ℕ) (w : Option Sending) : Prop where
  contAt : q.contAt ≤ now
  posting : ∀ sig, isStop sig = true → PostsStop sig w → q.contAt < q.sentAt sig
  pending : ∀ sig, isStop sig = true → q.pending sig = true → q.contAt < q.sentAt sig
  gap : q.pc.inGap = true → q.contAt < q.stopAt ∨ q.pending sigcont = true ∨
    PostsCont (q.handlers sigcont).isIgn w
  stopped : q.state = .stopped → q.contAt < q.stopAt ∨ Conts w

variable {q q' : Proc} {w w' : Option Sending} {unlocked early : Bool} {n n' : ℕ}

theorem signalDiscarded_sigcont : q.signalDiscarded sigcont = (q.handlers sigcont).isIgn := by
  unfold Proc.signalDiscarded Handler.isIgn
  rw [if_neg (by decide)]
  cases q.handlers sigcont <;> rfl

theorem unblock_stopped {st : TaskState} (h : st.unblock = .stopped) : st = .stopped := by
  grind -ring -linarith [TaskState.unblock, TaskState.cas]

theorem schedule_stopped {pc : Pc} (h : (q.schedule pc).state = .stopped) : q.state = .stopped := by
  grind -ring -linarith [Proc.schedule, TaskState.leave, TaskState.cas]

/-- A step of the process that sends and reads no stop signal. -/
theorem Timely.frame (h : q.Timely n w) (hc : q'.contAt = q.contAt) (hs : q'.sentAt = q.sentAt)
    (ha : q'.stopAt = q.stopAt)
    (hp : ∀ sig, isStop sig = true → q'.pending sig = true → q.pending sig = true)
    (hg : q'.pc.inGap = true → q.pc.inGap = true ∧ q'.handlers sigcont = q.handlers sigcont ∧
      q'.pending sigcont = q.pending sigcont)
    (hst : q'.state = .stopped → q.state = .stopped) : q'.Timely n w := by
  constructor
  · rw [hc]
    exact h.contAt
  · rw [hc, hs]
    exact h.posting
  · rw [hc, hs]
    exact fun sig hsig hq => h.pending sig hsig (hp sig hsig hq)
  · intro hq
    obtain ⟨hgap, hh, hpc⟩ := hg hq
    rw [hc, ha, hh, hpc]
    exact h.gap hgap
  · rw [hc, ha]
    exact fun hq => h.stopped (hst hq)

theorem Timely.deliverOne {sig : ℕ} (h : q.Timely n w) (hpc : q.pc = .act sig) :
    (q.deliverOne sig).Timely n w := by
  unfold Proc.deliverOne
  split
  · exact h.frame rfl rfl rfl (fun _ _ => id) nofun id
  · split
    · exact h.frame rfl rfl rfl (fun _ _ => id) nofun id
    · exact h.frame rfl rfl rfl (fun _ _ => id) nofun id
    · rename_i hdef
      refine h.frame rfl rfl rfl (fun _ _ => id) (fun _ => ⟨?_, rfl, rfl⟩) id
      rw [hpc]
      exact isStop_of_default hdef
    · exact h.frame rfl rfl rfl (fun _ _ => id) nofun nofun
  · exact h.frame rfl rfl rfl (fun _ _ => id) nofun id

theorem Timely.stopLocked {sig : ℕ} (h : q.Timely n none) (hpc : q.pc = .stop sig) :
    (q.stopLocked sig).Timely n none := by
  unfold Proc.stopLocked
  split
  · exact h.frame rfl rfl rfl (fun _ _ => id) nofun id
  · split
    · -- neither a pending SIGCONT nor a sender of one: the stop signal was sent last
      rename_i hno _
      have hgap := h.gap (by rw [hpc]; rfl)
      refine ⟨h.contAt, h.posting, h.pending, nofun, fun _ => .inl ?_⟩
      obtain hlt | hcont | hpost := hgap
      · exact hlt
      · simp [hcont] at hno
      · exact hpost.elim
    · exact h.frame rfl rfl rfl (fun _ _ => id) (fun _ => ⟨by rw [hpc]; rfl, rfl, rfl⟩) id

theorem Timely.advance (h : q.Timely n w) (hw : unlocked = true → w = none)
    (hq : q.advance unlocked early = some q') : q'.Timely n w := by
  unfold Proc.advance at hq
  cases hpc : q.pc with
  | idle | gone => simp [hpc] at hq
  | block k =>
    have hb : ∀ pc : Pc, pc.inGap = false →
        Timely { q with state := q.state.setBlocked, pc := pc } n w := fun pc hgap =>
      h.frame rfl rfl rfl (fun _ _ => id) (fun hg => by rw [hgap] at hg; cases hg) (by
        grind -ring -linarith [TaskState.setBlocked, TaskState.cas])
    cases k <;> simp only [hpc] at hq
    case waitpid =>
      split at hq
      · cases hq
      · split at hq
        · cases hq
          exact h.frame rfl rfl rfl (fun _ _ => id) nofun id
        · cases hq
          exact hb _ rfl
    all_goals
      cases hq
      exact hb _ rfl
  | test k =>
    simp only [hpc] at hq
    split at hq <;> cases hq <;> exact h.frame rfl rfl rfl (fun _ _ => id) nofun id
  | undo k =>
    simp only [hpc, Option.some.injEq] at hq
    subst hq
    exact h.frame rfl rfl rfl (fun _ _ => id) nofun (by grind -ring -linarith [TaskState.unwait, TaskState.cas])
  | sleep k =>
    simp only [hpc, Option.some.injEq] at hq
    subst hq
    exact h.frame rfl rfl rfl (fun _ _ => id) nofun schedule_stopped
  | asleep k =>
    simp only [hpc, Option.some.injEq] at hq
    subst hq
    refine h.frame rfl rfl rfl (fun _ _ => id) (fun hg => ?_) id
    simp only at hg
    split at hg <;> cases hg
  | deliver =>
    simp only [hpc] at hq
    split at hq
    · cases hq
      exact h.frame rfl rfl rfl (fun _ _ => id) nofun id
    · -- a stop signal that is read was pending, hence sent after the last SIGCONT
      rename_i sig hd
      have hsent : isStop sig = true → q.contAt < q.sentAt sig := fun hsig =>
        h.pending sig hsig (pending_of_lowestDeliverable hd)
      cases hq
      refine ⟨h.contAt, h.posting, h.pending, fun hgap => .inl ?_, fun hst => ?_⟩
      · simp only [if_pos (show isStop sig = true from hgap)]
        exact hsent hgap
      · simp only
        split
        · exact .inl (hsent ‹_›)
        · exact h.stopped hst
  | take sig =>
    simp only [hpc, Option.some.injEq] at hq
    subst hq
    have hrem : isStop sig = true → (q.pending.remove sig) sigcont = q.pending sigcont := fun hsig => by
      rw [SigSet.remove_apply, if_neg]
      rintro rfl
      cases hsig
    refine h.frame rfl rfl rfl (fun n _ hn => ?_) (fun hg => ⟨by rw [hpc]; exact hg, rfl, hrem hg⟩) id
    simp only [SigSet.remove_apply] at hn
    split at hn
    · cases hn
    · exact hn
  | act sig =>
    simp only [hpc, Option.some.injEq] at hq
    subst hq
    exact h.deliverOne hpc
  | stop sig =>
    simp only [hpc, Option.ite_none_right_eq_some, Option.some.injEq] at hq
    obtain ⟨hu, rfl⟩ := hq
    have hnone := hw hu
    subst hnone
    exact h.stopLocked hpc
  | yield sig =>
    simp only [hpc, Option.some.injEq] at hq
    subst hq
    exact h.frame rfl rfl rfl (fun _ _ => id) (fun _ => ⟨by rw [hpc]; rfl, rfl, rfl⟩) schedule_stopped
  | halt =>
    simp only [hpc, Option.some.injEq] at hq
    subst hq
    exact h.frame rfl rfl rfl (fun _ _ => id) nofun schedule_stopped

theorem Timely.own (h : q.Timely n w) (hw : unlocked = true → w = none) (ho : q.Own unlocked q') :
    q'.Timely n w := by
  -- outside the listed code no stop signal is being delivered
  have hidle : q.pc = .idle → q.pc.inGap = true → False := fun hpc hg => by
    rw [hpc] at hg
    cases hg
  cases ho with
  | advance early hcpu hq => exact h.advance hw hq
  | preempt hi => exact h.frame rfl rfl rfl (fun _ _ => id) (fun hg => ⟨hg, rfl, rfl⟩) schedule_stopped
  | fault sig hpc hf =>
    have hsig := isStop_of_isFault hf
    have hframe : ∀ (k : ℕ → Handler) (b : SigSet),
        Timely { q with handlers := k, blocked := b, pending := q.pending.add sig } n w := fun k b => by
      refine h.frame rfl rfl rfl (fun n hn hp => ?_) (fun hg => (hidle hpc hg).elim) id
      simp only [SigSet.add_apply] at hp
      split at hp
      · subst n
        rw [hsig] at hn
        cases hn
      · exact hp
    unfold Proc.raiseFault
    split
    · exact hframe _ _
    · exact hframe _ _
  | sigaction sig k hpc =>
    refine h.frame rfl rfl rfl (fun n _ hp => ?_) (fun hg => (hidle hpc hg).elim) id
    rw [sigaction_pending] at hp
    split at hp
    · cases hp
    · exact hp
  | exit => exact h.frame rfl rfl rfl (fun _ _ => id) nofun nofun
  | wake => exact h.frame rfl rfl rfl (fun _ _ => id) (fun hg => ⟨hg, rfl, rfl⟩) unblock_stopped
  | enter | ret => exact h.frame rfl rfl rfl (fun _ _ => id) nofun id
  | mask m hpc | exec hpc =>
    exact h.frame rfl rfl rfl (fun _ _ => id) (fun hg => (hidle hpc hg).elim) id
  | dispatch => exact h.frame rfl rfl rfl (fun _ _ => id) (fun hg => ⟨hg, rfl, rfl⟩) nofun

theorem Timely.clear {sig : ℕ} {x : Sending} (h : q.Timely n none) (hG : q.LeavesCont sig)
    (hx : x.sig = sig) (hst : x.stage = .decide) :
    (State.clear q sig (n + 1)).Timely (n + 1) (some x) := by
  have hle := h.contAt
  unfold State.clear
  by_cases hstop : isStop sig = true
  · -- a stop signal: it is sent after every SIGCONT
    rw [if_pos hstop]
    refine ⟨by simp only; omega, fun m _ hm => ?_, fun m hm hp => ?_, fun hg => ?_, fun hq => ?_⟩
    · obtain rfl : sig = m := hx.symm.trans hm.1
      simp only [Function.update_self]
      omega
    · simp only [SigSet.remove_apply] at hp
      simp only [Function.update_apply]
      split
      · omega
      · exact h.pending m hm (by grind -ring -linarith)
    · -- it clears no SIGCONT that a stop under way has yet to see
      obtain hlt | hcont | hpost := h.gap hg
      · exact .inl hlt
      · rw [(hG hg).2 hstop] at hcont
        cases hcont
      · exact hpost.elim
    · obtain hlt | hc := h.stopped hq
      · exact .inl hlt
      · exact hc.elim
  · rw [if_neg hstop]
    have hns : ∀ m, isStop m = true → ¬ PostsStop m (some x) := fun m hm hp =>
      hstop (by rw [← hx, hp.1]; exact hm)
    by_cases hc : sig = sigcont
    · -- a SIGCONT: no stop signal is left, and a stop under way will see it
      rw [if_pos hc]
      refine ⟨Nat.le_refl _, fun m hm hp => (hns m hm hp).elim, fun m hm hp => ?_, fun hg => ?_, fun _ => ?_⟩
      · simp [hm] at hp
      · exact .inr (.inr ⟨hx.trans hc, .inl ⟨hst, (hG hg).1 hc⟩⟩)
      · exact .inr ⟨hx.trans hc, .inl hst⟩
    · rw [if_neg hc]
      refine ⟨by omega, fun m hm hp => (hns m hm hp).elim, h.pending, fun hg => ?_, fun hq => ?_⟩
      · obtain hlt | hcont | hpost := h.gap hg
        · exact .inl hlt
        · exact .inr (.inl hcont)
        · exact hpost.elim
      · obtain hlt | hc := h.stopped hq
        · exact .inl hlt
        · exact hc.elim

theorem Timely.sent (h : q.Timely n w) (hs : q.Sent LeavesCont n w q' n' w') : q'.Timely n' w' := by
  cases hs with
  | clear x hG => exact h.clear hG rfl rfl
  | decide x hx =>
    refine ⟨h.contAt, fun m hm hp => ?_, h.pending, fun hg => ?_, fun hq => ?_⟩
    · exact h.posting m hm ⟨hp.1, .inl hx⟩
    · have := q.signalDiscarded_sigcont
      have := h.gap hg
      grind -ring -linarith
    · have := h.stopped hq
      grind -ring -linarith
  | post x hx =>
    have hgap := h.gap
    have hst := h.stopped
    split
    · refine ⟨h.contAt, ?_, h.pending, ?_, ?_⟩ <;> grind -ring -linarith
    · refine ⟨h.contAt, by grind -ring -linarith, fun m hm hp => ?_, by grind -ring -linarith,
        by grind -ring -linarith⟩
      -- the bit that was just set is that of the signal the sender recorded
      simp only [SigSet.add_apply] at hp
      split at hp
      · exact h.posting m hm ⟨by grind -ring -linarith, .inr hx⟩
      · exact h.pending m hm hp
  | cont x hx | wake x hx | pass x hx =>
    have hgap := h.gap
    have hst := h.stopped
    refine ⟨h.contAt, ?_, h.pending, ?_, ?_⟩ <;> grind -ring -linarith
  | resume x hx =>
    have hgap := h.gap
    refine ⟨h.contAt, by grind -ring -linarith, h.pending, by grind -ring -linarith, ?_⟩
    grind -ring -linarith [TaskState.resume, TaskState.cas]
  | unblock x hx =>
    have hgap := h.gap
    have hst := h.stopped
    refine ⟨h.contAt, by grind -ring -linarith, h.pending, by grind -ring -linarith, fun hq => ?_⟩
    have := hst (unblock_stopped hq)
    grind -ring -linarith

end Proc

namespace State

variable {s s' : State}

def AllTimely : State → Prop := Everywhere Proc.Timely

theorem AllTimely.start (h : s.Start) : s.AllTimely := by
  intro p
  obtain ⟨-, hpend, hpc, -, hst, hc⟩ := h.procs p
  rw [workOn_none h.sender]
  constructor
  · rw [hc]
    exact Nat.zero_le _
  · exact fun _ _ => False.elim
  · intro sig _ hp
    rw [hpend] at hp
    cases hp
  · simp [hpc, Pc.inGap]
  · exact fun hstopped => absurd hstopped hst

theorem AllTimely.step {a : Act} (h : s.AllTimely) (ha : s.LeavesCont a) (hs : s.step a = some s') :
    s'.AllTimely := by
  refine Everywhere.step (fun q w n m h hle => ?_) (fun _ _ _ _ _ h hw ho => h.own hw ho)
    (fun _ _ _ _ _ _ h hs => h.sent hs) ?_ h hs
  · exact { h with contAt := Nat.le_trans h.contAt hle }
  · rintro rfl
    exact ha

/-- No process is left stopped by a stop signal that was sent before a `SIGCONT`. -/
def NoStaleStop (s : State) : Prop :=
  ∀ p, (s.procs p).state = .stopped →
    -- the `SIGCONT` has been sent, its sender is not at work any more
    (∀ x ∈ s.sender, x.sig = sigcont → p ∉ x.targets) → (s.procs p).contAt < (s.procs p).stopAt

theorem AllTimely.noStaleStop (h : s.AllTimely) : s.NoStaleStop := by
  intro p hst hno
  obtain hlt | hc := (h p).stopped hst
  · exact hlt
  · cases hw : s.workOn p with
    | none =>
      rw [hw] at hc
      exact hc.elim
    | some x =>
      rw [hw] at hc
      obtain ⟨hx, hp⟩ := Option.filter_eq_some_iff.mp hw
      have hmem : p ∈ x.targets := List.mem_of_head? (by grind -ring -linarith)
      exact absurd hmem (hno x hx hc.1)

/-- In a run in which no send takes a `SIGCONT` away from a process in the gap of a stop, no
process is left stopped by a stop signal sent before the last `SIGCONT`. -/
theorem signal_run_noStaleStop {as : List Act} (h : s.Start)
    (hr : Run (Guarded LeavesCont (Moves step)) s as s') : s'.NoStaleStop :=
  (hr.invariant AllTimely (fun _ _ _ hi hs => hi.step hs.1 hs.2) (.start h)).noStaleStop

/-- A `SIGCONT` overrides a stop signal that has already been taken for delivery; a later stop
signal stops the process. -/
theorem signal_run_noStaleStop_again : ∃ s, Run (Guarded LeavesCont (Moves step)) boot
    [.begin sigstop [0], .send, .send, .send, .send, .send, .send, .ret 0, .advance 0 false,
      .advance 0 false, .begin sigcont [0], .send, .send, .send, .send, .send, .send,
      .advance 0 false, .advance 0 false, .advance 0 false, .advance 0 false, .advance 0 false,
      .begin sigstop [0], .send, .send, .send, .send, .send, .send,
      .advance 0 false, .advance 0 false, .advance 0 false, .advance 0 false] s ∧
    ((s.procs 0).state = .stopped ∧ (s.procs 0).contAt = 3 ∧ (s.procs 0).stopAt = 4) ∧
    s.NoStaleStop := by
  have h : (execGuarded LeavesCont step boot
      [.begin sigstop [0], .send, .send, .send, .send, .send, .send, .ret 0, .advance 0 false,
        .advance 0 false, .begin sigcont [0], .send, .send, .send, .send, .send, .send,
        .advance 0 false, .advance 0 false, .advance 0 false, .advance 0 false, .advance 0 false,
        .begin sigstop [0], .send, .send, .send, .send, .send, .send,
        .advance 0 false, .advance 0 false, .advance 0 false, .advance 0 false]).any
      (fun s => decide ((s.procs 0).state = .stopped ∧ (s.procs 0).contAt = 3 ∧
        (s.procs 0).stopAt = 4)) = true := by
    decide +kernel
  obtain ⟨s, hr, hs⟩ := exists_run_of_execGuarded h
  exact ⟨s, hr, of_decide_eq_true hs, signal_run_noStaleStop boot_start hr⟩

/-- With `SIGCONT` ignored, one that is sent between the taking of a stop signal and the stop
leaves no trace, and the process stops. -/
theorem stopped_after_cont : ∃ as s, Run (Moves step) boot as s ∧ s.sender = none ∧
    (s.procs 0).state = .stopped ∧ (s.procs 0).stopAt < (s.procs 0).contAt := by
  have h : (Lib.exec step boot
      [.sigaction 0 sigcont .ign, .begin sigstop [0], .send, .send, .send, .send, .send, .send,
        .ret 0, .advance 0 false, .advance 0 false,
        .begin sigcont [0], .send, .send, .send, .send, .send, .send,
        .advance 0 false, .advance 0 false]).any
      (fun s => decide (s.sender.isNone = true ∧ (s.procs 0).state = .stopped ∧
        (s.procs 0).stopAt < (s.procs 0).contAt)) = true := by
    decide +kernel
  obtain ⟨s, hr, hs⟩ := exists_run_of_exec h
  obtain ⟨hnone, hrest⟩ := of_decide_eq_true hs
  exact ⟨_, s, hr, Option.isNone_iff_eq_none.mp hnone, hrest⟩

end State

end Perspicua.Core.Signals
