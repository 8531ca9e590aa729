import Mathlib.Data.List.Nodup
import Mathlib.Tactic.Common
import Perspicua.Fs.Pipe

/-!
# The steps of a pipe

What the place of a task says about it, and what a step can do: `step_cases` takes the step
function apart once, and every invariant is a case analysis of `Does`.
-/

namespace Perspicua.Fs.Pipe

open Perspicua.Lib Perspicua.Sched

/-! ## What the places say -/

namespace Pc

variable {τ α : Type}

/-- The task holds `pipe->lock`. -/
def locked : Pc τ α → Bool
  | .loop _ | .pass _ | .unlock .. | .closing _ | .closeUnlock _ | .wakeAll .. | .waking .. => true
  | .wait .sleep _ | .wait .relock _ => false
  | .wait .. => true
  | _ => false

/-- The end that the task holds a reference to. -/
def inCall : Pc τ α → Option End
  | .start c | .acquire c | .loop c | .wait _ c | .pass c | .unlock c _ => some c.side
  | .put e => some e
  | .wakeAll _ next | .waking _ next => next.inCall
  | _ => none

/-- The end that the task has the last reference of taken away and has not closed yet. -/
def closes : Pc τ α → Option End
  | .closeStart e | .closeAcquire e | .closing e => some e
  | .wakeAll _ next | .waking _ next => next.closes
  | _ => none

/-- The task has closed an end and the other one was open. -/
def spares : Pc τ α → Bool
  | .closeUnlock destroy => !destroy
  | .wakeAll _ next | .waking _ next => next.spares
  | _ => false

/-- The queue that the task may have an entry in. -/
def waits : Pc τ α → Option End
  | .wait _ c => some c.side
  | _ => none

/-- The queue that the task does have an entry in. -/
def queued : Pc τ α → Option End
  | .wait .test c | .wait .signal c | .wait .release c => some c.side
  | .wakeAll _ next | .waking _ next => next.queued
  | _ => none

/-- The task has found its condition false, or is past that. -/
def tested : Pc τ α → Option End
  | .wait .signal c | .wait .release c | .wait .sleep c | .wait .relock c => some c.side
  | .wakeAll _ next | .waking _ next => next.tested
  | _ => none

/-- The task may be asleep. -/
def sleeps : Pc τ α → Option End
  | .wait .sleep c | .wait .relock c => some c.side
  | .wakeAll _ next | .waking _ next => next.sleeps
  | _ => none

/-- A read waits only if it has read nothing, and a call that fails has moved nothing. -/
def Honest : Pc τ α → Prop
  | .wait _ c | .pass c => c.side = .read → c.moved = 0
  | .unlock c err => err ≠ none → c.moved = 0
  | .wakeAll _ next | .waking _ next => next.Honest
  | _ => True

end Pc

/-! ## What a step can do -/

section Steps

variable {τ α : Type} [DecidableEq τ]

/-- The moves of a task that change nothing else. -/
inductive Goes (s : State τ α) : Pc τ α → Pc τ α → Prop
  | start (c : Call α) : Goes s (.start c) (.acquire c)
  | detached (c : Call α) (h : s.attached = false) : Goes s (.start c) (.put c.side)
  | done (c : Call α) : Goes s (.loop c) (.wakeAll c.side.other (.unlock c none))
  | again (c : Call α) (err : Errno) (h : c.moved = 0) : Goes s (.loop c) (.unlock c (some err))
  | broken (c : Call α) (h : c.side = .write) (hr : s.ends .read = 0) :
      Goes s (.loop c) (.unlock c none)
  | blockRead (c : Call α) (h : c.moved = 0) : Goes s (.loop c) (.wait .prepare c)
  | blockWrite (c : Call α) (h : c.side = .write) :
      Goes s (.loop c) (.wakeAll .read (.wait .prepare c))
  | holds (c : Call α) : Goes s (.wait .test c) (.wait (.finish false) c)
  | fails (c : Call α) (h : ¬ s.Cond c.side) : Goes s (.wait .test c) (.wait .signal c)
  | signalled (c : Call α) : Goes s (.wait .signal c) (.wait (.finish true) c)
  | quiet (c : Call α) : Goes s (.wait .signal c) (.wait .release c)
  | nobody (c : Call α) : Goes s (.pass c) (.unlock c c.interrupted)
  | closeStart (e : End) : Goes s (.closeStart e) (.closeAcquire e)
  | closeDetached (e : End) (h : s.attached = false) : Goes s (.closeStart e) .idle
  | woken (next : Pc τ α) : Goes s (.waking [] next) next

/-- The places where a task takes the lock. -/
inductive Takes : Pc τ α → Pc τ α → Prop
  | call (c : Call α) : Takes (.acquire c) (.loop c)
  | relock (c : Call α) : Takes (.wait .relock c) (.wait .prepare c)
  | close (e : End) : Takes (.closeAcquire e) (.closing e)

/-- The places where it gives it up. -/
inductive Gives : Pc τ α → Pc τ α → Prop
  | release (c : Call α) : Gives (.wait .release c) (.wait .sleep c)
  | unlock (c : Call α) (err : Option Errno) : Gives (.unlock c err) (.put c.side)
  | close : Gives (.closeUnlock false) .idle

inductive Does (s : State τ α) : State τ α → Prop
  | goes {t : τ} {p : Pc τ α} (h : Goes s (s.tasks t).pc p) : Does s (s.goto t p)
  | takes {t : τ} {p : Pc τ α} (hl : s.lock = none) (h : Takes (s.tasks t).pc p) :
      Does s ({ s with lock := some t }.goto t p)
  | gives {t : τ} {p : Pc τ α} (h : Gives (s.tasks t).pc p) :
      Does s ({ s with lock := none }.goto t p)
  | pop {t : τ} {count : ℕ} {got : List α} (h : (s.tasks t).pc = .loop (.read count got))
      (hpos : 0 < s.ring.count) :
      Does s ({ s with ring := s.ring.pop bufSize, taken := s.taken ++ [s.ring.front] }.goto t
        (.loop (.read count (got ++ [s.ring.front]))))
  | push {t : τ} {b : α} {rest : List α} {written : ℕ}
      (h : (s.tasks t).pc = .loop (.write (b :: rest) written)) (hlt : s.ring.count < bufSize) :
      Does s ({ s with ring := s.ring.push bufSize b, written := s.written ++ [b] }.goto t
        (.loop (.write rest (written + 1))))
  | prepare {t : τ} {c : Call α} {w : Bool} {q : List τ} (h : (s.tasks t).pc = .wait .prepare c)
      (hq : q = s.queue c.side ∧ t ∈ q ∨ q = s.queue c.side ++ [t] ∧ t ∉ s.queue c.side) :
      Does s ((s.setQueue c.side q).set t
        ⟨(s.tasks t).state.setBlocked, (s.tasks t).onCpu, w, .wait .test c⟩)
  | sleep {t : τ} {c : Call α} (h : (s.tasks t).pc = .wait .sleep c) :
      Does s (s.set t
        ⟨(s.tasks t).state.leave, false, (s.tasks t).woken, .wait .relock c⟩)
  | finish {t : τ} {c : Call α} {b : Bool} {p : Pc τ α} (h : (s.tasks t).pc = .wait (.finish b) c)
      (hp : p = .pass c ∨ p = .unlock c c.interrupted ∨ p = .loop c) :
      Does s ((s.setQueue c.side ((s.queue c.side).erase t)).set t
        ⟨(s.tasks t).state.unwait, (s.tasks t).onCpu, (s.tasks t).woken, p⟩)
  | pass {t u : τ} {c : Call α} {rest : List τ} (h : (s.tasks t).pc = .pass c)
      (hq : s.queue c.side = u :: rest) :
      Does s (((s.setQueue c.side rest).set u { s.tasks u with woken := true }).goto t
        (.waking [u] (.unlock c c.interrupted)))
  | put {t : τ} {e : End} (h : (s.tasks t).pc = .put e) :
      Does s ((s.setRefs e (s.refs e - 1)).goto t (if s.refs e = 1 then .closeStart e else .idle))
  | close {t : τ} {e : End} (h : (s.tasks t).pc = .closing e) : Does s (s.closeEnd t e)
  | destroy {t : τ} (h : (s.tasks t).pc = .closeUnlock true) :
      Does s ({ s with attached := false, lock := none }.goto t .free)
  | free {t : τ} (h : (s.tasks t).pc = .free) : Does s ({ s with freed := true }.goto t .idle)
  | wakeAll {t : τ} {e : End} {next : Pc τ α} (h : (s.tasks t).pc = .wakeAll e next) :
      Does s ((s.setQueue e []).goto t (.waking (s.queue e) next))
  | waking {t u : τ} {rest : List τ} {next : Pc τ α} (h : (s.tasks t).pc = .waking (u :: rest) next) :
      Does s ((s.set u { s.tasks u with state := (s.tasks u).state.unblock, woken := true }).goto t
        (.waking rest next))
  | enter {t : τ} {c : Call α} (h : (s.tasks t).pc = .idle) (hf : 0 < s.fds c.side) :
      Does s ((s.setRefs c.side (s.refs c.side + 1)).goto t (.start c))
  | closeFd {t : τ} {e : End} (h : (s.tasks t).pc = .idle) (hf : 0 < s.fds e) :
      Does s ({ s with fds := Function.update s.fds e (s.fds e - 1) }.goto t (.put e))
  | dup {e : End} (hf : 0 < s.fds e) :
      Does s ({ s with fds := Function.update s.fds e (s.fds e + 1) }.setRefs e (s.refs e + 1))
  | state {t : τ} {st : TaskState} {onCpu : Bool}
      (h : st = .blocked → (s.tasks t).state = .blocked ∨ (s.tasks t).pc = .idle) :
      Does s (s.set t { s.tasks t with state := st, onCpu := onCpu })

variable {s s' : State τ α} {t : τ} {flag : Bool} {c : Call α}

theorem round_cases (h : (s.tasks t).pc = .loop c) : Does s (s.round t flag c) := by
  cases c with
  | read count got =>
    have hdone : Does s (s.goto t (.wakeAll .write (.unlock (.read count got) none))) :=
      .goes (by rw [h]; exact .done _)
    rw [State.round]
    split
    · split
      · rename_i hpos
        exact .pop h hpos
      · split
        · exact hdone
        · rename_i hgot
          have hgot : (Call.read count got).moved = 0 := by
            show got.length = 0
            omega
          split
          · split
            · exact .goes (by rw [h]; exact .again _ _ hgot)
            · exact hdone
          · exact .goes (by rw [h]; exact .blockRead _ hgot)
    · exact hdone
  | write bytes written =>
    have hdone : Does s (s.goto t (.wakeAll .read (.unlock (.write bytes written) none))) :=
      .goes (by rw [h]; exact .done _)
    cases bytes with
    | nil => exact hdone
    | cons b rest =>
      rw [State.round]
      split
      · rename_i hends
        split
        · exact .goes (by rw [h]; exact .broken _ rfl hends)
        · rename_i hmoved
          exact .goes (by rw [h]; exact .again _ _ (Nat.eq_zero_of_not_pos hmoved))
      · split
        · rename_i hlt
          exact .push h hlt
        · split
          · split
            · rename_i hmoved
              exact .goes (by rw [h]; exact .again _ _ hmoved)
            · exact hdone
          · exact .goes (by rw [h]; exact .blockWrite _ rfl)

theorem waitStep_cases {st : Stage} (h : (s.tasks t).pc = .wait st c)
    (hs : s.waitStep t flag c st = some s') : Does s s' := by
  cases st with
  | prepare =>
    simp only [State.waitStep] at hs
    split at hs
    · rename_i hmem
      cases hs
      have hsame : s.setQueue c.side (s.queue c.side) = s := by
        unfold State.setQueue
        rw [Function.update_eq_self]
      have hdoes := Does.prepare (w := (s.tasks t).woken) h (.inl ⟨rfl, hmem⟩)
      rw [hsame] at hdoes
      exact hdoes
    · rename_i hmem
      cases hs
      exact .prepare h (.inr ⟨rfl, hmem⟩)
  | test =>
    simp only [State.waitStep] at hs
    cases hs
    split
    · exact .goes (by rw [h]; exact .holds _)
    · rename_i hcond
      exact .goes (by rw [h]; exact .fails _ hcond)
  | signal =>
    simp only [State.waitStep] at hs
    cases hs
    split
    · exact .goes (by rw [h]; exact .signalled _)
    · exact .goes (by rw [h]; exact .quiet _)
  | release =>
    cases hs
    exact .gives (by rw [h]; exact .release _)
  | sleep =>
    cases hs
    exact .sleep h
  | relock =>
    simp only [State.waitStep] at hs
    split at hs
    · rename_i hl
      cases hs
      exact .takes hl (by rw [h]; exact .relock _)
    · cases hs
  | finish b =>
    simp only [State.waitStep] at hs
    cases hs
    refine .finish h ?_
    split
    · split
      · exact .inl rfl
      · exact .inr (.inl rfl)
    · exact .inr (.inr rfl)

theorem advance_cases (hs : s.advance t flag = some s') : Does s s' := by
  unfold State.advance at hs
  cases h : (s.tasks t).pc with
  | idle =>
    simp only [h] at hs
    cases hs
  | start c =>
    simp only [h] at hs
    cases hs
    split
    · exact .goes (by rw [h]; exact .start _)
    · rename_i hatt
      exact .goes (by rw [h]; exact .detached _ (by simpa using hatt))
  | acquire c =>
    simp only [h] at hs
    split at hs
    · rename_i hl
      cases hs
      exact .takes hl (by rw [h]; exact .call _)
    · cases hs
  | loop c =>
    simp only [h] at hs
    cases hs
    exact round_cases h
  | wait st c =>
    simp only [h] at hs
    exact waitStep_cases h hs
  | pass c =>
    simp only [h] at hs
    split at hs
    · cases hs
      exact .goes (by rw [h]; exact .nobody _)
    · rename_i u rest hq
      cases hs
      exact .pass h hq
  | unlock c err =>
    simp only [h] at hs
    cases hs
    exact .gives (by rw [h]; exact .unlock _ _)
  | put e =>
    simp only [h] at hs
    cases hs
    exact .put h
  | closeStart e =>
    simp only [h] at hs
    cases hs
    split
    · exact .goes (by rw [h]; exact .closeStart _)
    · rename_i hatt
      exact .goes (by rw [h]; exact .closeDetached _ (by simpa using hatt))
  | closeAcquire e =>
    simp only [h] at hs
    split at hs
    · rename_i hl
      cases hs
      exact .takes hl (by rw [h]; exact .close _)
    · cases hs
  | closing e =>
    simp only [h] at hs
    cases hs
    exact .close h
  | closeUnlock destroy =>
    cases destroy with
    | true =>
      simp only [h] at hs
      cases hs
      exact .destroy h
    | false =>
      simp only [h] at hs
      cases hs
      exact .gives (by rw [h]; exact .close)
  | free =>
    simp only [h] at hs
    cases hs
    exact .free h
  | wakeAll e next =>
    simp only [h] at hs
    cases hs
    exact .wakeAll h
  | waking rest next =>
    cases rest with
    | nil =>
      simp only [h] at hs
      cases hs
      exact .goes (by rw [h]; exact .woken _)
    | cons u rest =>
      simp only [h] at hs
      cases hs
      exact .waking h

theorem enter_cases (hs : s.enter t c = some s') : Does s s' := by
  simp only [State.enter] at hs
  split at hs
  · rename_i h
    split at hs
    · rename_i hf
      cases hs
      exact .enter h hf.2
    · cases hs
  · cases hs

theorem step_cases {a : Act τ α} (hs : s.step a = some s') : s.panicked = false ∧ Does s s' := by
  unfold State.step at hs
  split at hs
  · cases hs
  rename_i hpanic
  refine ⟨by simpa using hpanic, ?_⟩
  cases a with
  | read t count => exact enter_cases hs
  | write t bytes => exact enter_cases hs
  | close t e =>
    simp only at hs
    split at hs
    · rename_i h
      split at hs
      · rename_i hf
        cases hs
        exact .closeFd h hf.2
      · cases hs
    · cases hs
  | dup e =>
    simp only at hs
    split at hs
    · rename_i hf
      cases hs
      exact .dup hf
    · cases hs
  | advance t flag =>
    simp only at hs
    split at hs
    · exact advance_cases hs
    · cases hs
  | signal t =>
    cases hs
    refine .state ?_
    intro h
    unfold TaskState.unblock TaskState.cas at h
    split at h
    · cases h
    · exact .inl h
  | elsewhere t st =>
    simp only at hs
    split at hs
    · rename_i h
      split at hs
      · cases hs
        exact .state fun _ => .inr h
      · cases hs
    · cases hs
  | preempt t =>
    simp only at hs
    split at hs
    · cases hs
      refine .state ?_
      intro h
      unfold TaskState.leave TaskState.cas at h
      split at h
      · cases h
      · exact .inl h
    · cases hs
  | dispatch t =>
    simp only at hs
    split at hs
    · cases hs
      refine .state ?_
      rintro ⟨⟩
    · cases hs

end Steps

end Perspicua.Fs.Pipe
