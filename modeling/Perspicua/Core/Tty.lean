import Perspicua.Sched.SessionTheorems

/-!
# The terminal and its session

The console of `kernel/core/tty.c`: the session that owns it, the group in the foreground, and
the signals that it raises. `tcsetpgrp_handler` of `kernel/core/syscall.c` checks a group when it
is put into the foreground, and the terminal remembers its number from then on. The processes
are those of `Sched.Session`, and a call or a received character is one step.

`sent` is not in the source: it lists the signals that the terminal has raised, with the
session of the target and that of the terminal at the time.

The number outlives the group. A later process with that pid can make itself the leader of a
session or of a group, and then it gets the signals of a terminal that is not its own. In a run
in which nobody does that they stay in the session of the terminal.
-/

namespace Perspicua.Core.Tty

open Perspicua.Lib Perspicua.Sched
open Perspicua.Sched.Process (tableSize slots)

def sighup : ℕ := 1

def sigint : ℕ := 2

def sigtstp : ℕ := 20

/-- `TTY_BUFFER_SIZE`. -/
def bufferSize : ℕ := 256

/-- A signal of the terminal at one process. -/
structure Delivery where
  sig : ℕ
  pid : ℕ
  sid : ℕ
  session : ℕ
deriving DecidableEq

structure State where
  procs : Session.State
  sessionId : ℕ
  foregroundPgid : ℕ
  canonEnabled : Bool
  /-- The characters between `rx_tail` and `rx_head`. -/
  rx : List ℕ
  sent : List Delivery

inductive Errno
  | einval
  | esrch
  | eperm
  | eintr
  | enotty
deriving DecidableEq

/-- `signal_send_group`: the processes that are reached. -/
def signalSendGroup (procs : Session.State) (pgid sig session : ℕ) : List Delivery :=
  if pgid = 0 then []
  else slots.filterMap fun i => (procs.runner i).bind fun q =>
    if q.pgid = pgid then some ⟨sig, i, q.sid, session⟩ else none

namespace State

variable (s : State)

/-- `tty_access_check` sends `SIGTTOU` and stops the caller. `ignored` says that the caller
ignores or blocks that signal. -/
def accessStopped (p : Session.Member) (ignored : Bool) : Bool :=
  !(s.sessionId = 0 || p.sid ≠ s.sessionId || p.pgid = s.foregroundPgid) && !ignored

/-- `tcsetpgrp_handler`. `isTty` says that the descriptor is one of the terminal. -/
def tcsetpgrp (curr : ℕ) (isTty : Bool) (new : ℤ) (ignored : Bool) : Except Errno State :=
  if new < 1 ∨ (tableSize : ℤ) ≤ new then .error .einval
  else
    match s.procs.runner curr with
    | none => .error .esrch
    | some p =>
      if ¬ isTty then .error .einval
      else
        let groupSid := s.procs.pgidSession new.toNat
        if groupSid = 0 ∨ groupSid ≠ p.sid then .error .eperm
        else if s.accessStopped p ignored then .error .eintr
        else
          let session := if s.sessionId = 0 ∧ p.sid = p.pid then p.sid else s.sessionId
          if session ≠ p.sid then .error .enotty
          else .ok { s with sessionId := session, foregroundPgid := new.toNat }

/-- `tty_session_exit`, when the process is no longer `PROCESS_STATE_RUNNING`. -/
def sessionExit (sid : ℕ) : State :=
  if s.sessionId = sid ∧ 0 < sid then
    { s with
      sessionId := 0
      foregroundPgid := 0
      sent := signalSendGroup s.procs s.foregroundPgid sighup s.sessionId ++ s.sent }
  else s

/-- `process_exit`. -/
def exit (curr : ℕ) : State :=
  let t := { s with procs := s.procs.exit curr }
  match s.procs.table curr with
  | none => t
  | some p => if p.sid = p.pid then t.sessionExit p.sid else t

/-- `tty_handle_rx`. -/
def handleRx (c : ℕ) : State :=
  let c := if c = 13 then 10 else c
  if c = 3 ∨ c = 26 then
    let sig := if c = 3 then sigint else sigtstp
    { s with sent := signalSendGroup s.procs s.foregroundPgid sig s.sessionId ++ s.sent }
  else if s.canonEnabled ∧ (c = 8 ∨ c = 127) then { s with rx := s.rx.dropLast }
  else if s.rx.length < bufferSize - 1 then { s with rx := s.rx ++ [c] }
  else s

end State

inductive Act
  /-- A call of `Sched.Session`. -/
  | call (a : Session.Act)
  | tcsetpgrp (p : ℕ) (isTty : Bool) (new : ℤ) (ignored : Bool)
  | rx (c : ℕ)

namespace State

variable (s : State)

def step : Act → Option State
  | .call (.exit p) => if 0 < p ∧ (s.procs.runner p).isSome then some (s.exit p) else none
  | .call a => (s.procs.step a).map fun procs => { s with procs := procs }
  | .tcsetpgrp p isTty new ignored =>
    if 0 < p ∧ (s.procs.runner p).isSome then
      some ((s.tcsetpgrp p isTty new ignored).toOption.getD s)
    else none
  | .rx c => some (s.handleRx c)

/-- `tty_init`, with the processes after boot. -/
def boot : State where
  procs := Session.State.boot
  sessionId := 0
  foregroundPgid := 0
  canonEnabled := false
  rx := []
  sent := []

/-- Every signal went to a process of the terminal's session. -/
def OwnSession : Prop := ∀ d ∈ s.sent, d.sid = d.session

/-- The step lets no process of another session into the foreground group: `setpgid` does not
found that group again for one, its number is not the pid of a process that calls `setsid`, and
`tcsetpgrp` names a group that is in one session. -/
def KeepsForeground : Act → Prop
  | .call (.setpgid curr target _) =>
    (if target = 0 then (curr : ℤ) else target) = s.foregroundPgid →
      s.procs.pgidSession s.foregroundPgid = 0 →
      ∀ q ∈ s.procs.runner s.foregroundPgid, q.sid = s.sessionId
  | .call (.setsid p) =>
    ∀ q ∈ s.procs.runner p, q.pid = s.foregroundPgid → q.pid = s.sessionId
  | .tcsetpgrp p _ new _ =>
    ∀ c ∈ s.procs.runner p, ∀ i ∈ slots, ∀ q ∈ s.procs.runner i, (q.pgid : ℤ) = new → q.sid = c.sid
  | _ => True

instance : (a : Act) → Decidable (s.KeepsForeground a)
  | .call (.setpgid ..) => inferInstanceAs (Decidable (_ → _ → _))
  | .call (.setsid _) => inferInstanceAs (Decidable (∀ q ∈ s.procs.runner _, _ → _))
  | .tcsetpgrp .. => inferInstanceAs (Decidable (∀ c ∈ s.procs.runner _, ∀ i ∈ slots, _))
  | .call (.fork ..) | .call (.exec ..) | .call (.exit _) | .call (.waitpid ..) | .rx _ =>
    .isTrue trivial

end State

/-! ## The foreground group -/

theorem mem_signalSendGroup {procs : Session.State} {pgid sig session : ℕ} {d : Delivery}
    (h : d ∈ signalSendGroup procs pgid sig session) :
    d.session = session ∧ pgid ≠ 0 ∧
      ∃ i q, i ∈ slots ∧ procs.runner i = some q ∧ q.pgid = pgid ∧ d.sid = q.sid := by
  unfold signalSendGroup at h
  split at h
  · cases h
  next hpgid =>
    obtain ⟨i, hi, hd⟩ := List.mem_filterMap.mp h
    obtain ⟨q, hq, hd⟩ := Option.bind_eq_some_iff.mp hd
    split at hd
    next hqg =>
      cases hd
      exact ⟨rfl, hpgid, i, q, hi, hq, hqg, rfl⟩
    · cases hd

/-- The running processes of a group are in a session. -/
def Within (procs : Session.State) (pgid sid : ℕ) : Prop :=
  ∀ i q, i ∈ slots → procs.runner i = some q → q.pgid = pgid → q.sid = sid

section Within

variable {procs procs' : Session.State} {pgid sid i curr : ℕ} {q : Session.Member}

theorem Within.signalSendGroup (h : pgid ≠ 0 → Within procs pgid sid) (sig : ℕ) :
    ∀ d ∈ signalSendGroup procs pgid sig sid, d.sid = d.session := by
  intro d hd
  obtain ⟨hsession, hne, i, q, hi, hq, hqg, hdq⟩ := mem_signalSendGroup hd
  rw [hsession, hdq, h hne i q hi hq hqg]

theorem Within.set (h : Within procs pgid sid) (hq : q.pgid = pgid → q.sid = sid) :
    Within (procs.set i (some q)) pgid sid := by
  intro j r hj hr hrg
  obtain ⟨-, rfl⟩ | ⟨-, hr⟩ := Session.State.runner_set hr
  · exact hq hrg
  · exact h j r hj hr hrg

theorem Within.clear (h : Within procs pgid sid) : Within (procs.set i none) pgid sid := by
  intro j r hj hr hrg
  exact h j r hj (Session.State.runner_clear hr).2 hrg

theorem Within.exit (h : Within procs pgid sid) : Within (procs.exit curr) pgid sid := by
  intro j r hj hr hrg
  obtain ⟨-, parent, hr⟩ := Session.State.runner_exit hr
  exact h j { r with parent := parent } hj hr hrg

/-- A group that is in one session is in the one that `pgid_session_locked` finds. -/
theorem Within.pgidSession (h : Within procs pgid sid) (hne : procs.pgidSession pgid ≠ 0) :
    procs.pgidSession pgid = sid := by
  obtain ⟨i, q, hi, hq, hqg, hqs⟩ := Session.State.pgidSession_spec hne
  rw [← hqs, h i q hi hq hqg]

end Within

namespace State

variable {s t : State}

/-- What `setpgid` does about the foreground group. -/
theorem within_setpgid (h : Within s.procs s.foregroundPgid s.sessionId) {curr : ℕ}
    {target new : ℤ} (hk : s.KeepsForeground (.call (.setpgid curr target new))) :
    Within (s.procs.call (.setpgid curr target new)) s.foregroundPgid s.sessionId := by
  show Within ((s.procs.setpgid curr target new).toOption.getD s.procs) _ _
  cases hd : s.procs.setpgid curr target new with
  | error e => exact h
  | ok procs =>
    obtain ⟨i, p, g, hi, -, hp, -, -, hgroup, rfl⟩ := Session.State.setpgid_spec hd
    apply h.set
    intro hg
    have hg : g = s.foregroundPgid := hg
    show p.sid = s.sessionId
    rcases hgroup with ⟨hzero, hgi⟩ | ⟨hne, hsid⟩
    · -- the group is founded anew, by the process whose pid it has
      have hfg : i = s.foregroundPgid := hgi.symm.trans hg
      rw [hfg] at hi hp
      rw [hg] at hzero
      exact hk hi.symm hzero p hp
    · rw [hg] at hne hsid
      rw [← hsid, h.pgidSession hne]

/-- What a call does about the foreground group. -/
theorem within_call (hplaced : s.procs.Placed)
    (h : Within s.procs s.foregroundPgid s.sessionId) {a : Session.Act} (ha : 0 < a.caller)
    (hk : s.KeepsForeground (.call a)) :
    Within (s.procs.call a) s.foregroundPgid s.sessionId := by
  have hslot : ∀ {i q}, 0 < i → s.procs.runner i = some q → i ∈ slots := by
    intro i q hi hq
    exact Session.State.mem_slots.mpr ⟨hi, (hplaced.runner hq).2⟩
  have hd := Session.State.call_cases s.procs a
  generalize hprocs : s.procs.call a = procs at hd ⊢
  cases hd with
  | same => exact h
  | @fork curr i p ok hp hi hfree =>
    apply h.set
    intro hg
    exact h curr p (hslot ha hp) hp hg
  | @exec curr p ok hp =>
    apply h.set
    intro hg
    exact h curr p (hslot ha hp) hp hg
  | exit curr => exact h.exit
  | reap hi hz hreap => exact h.clear
  | setpgid hi hp hg hlead hgroup =>
    rw [← hprocs]
    exact within_setpgid h hk
  | setsid hp =>
    apply h.set
    intro hg
    exact hk _ hp hg

/-- The foreground group is in the session of the terminal, and so were all targets. -/
structure Held (s : State) : Prop where
  placed : s.procs.Placed
  foreground : s.foregroundPgid ≠ 0 → Within s.procs s.foregroundPgid s.sessionId
  sent : s.OwnSession

theorem Held.call (h : s.Held) {a : Session.Act} (ha : 0 < a.caller)
    (hk : s.KeepsForeground (.call a)) : Held { s with procs := s.procs.call a } where
  placed := h.placed.does (Session.State.call_cases s.procs a)
  foreground hne := within_call h.placed (h.foreground hne) ha hk
  sent := h.sent

theorem OwnSession.append (h : s.OwnSession) {l : List Delivery}
    (hl : ∀ d ∈ l, d.sid = d.session) : ∀ d ∈ l ++ s.sent, d.sid = d.session := by
  intro d hd
  rcases List.mem_append.mp hd with hd | hd
  · exact hl d hd
  · exact h d hd

/-- The hangup reaches the group that was in the foreground, and leaves none there. -/
theorem Held.sessionExit (h : s.Held) (sid : ℕ) : (s.sessionExit sid).Held := by
  unfold State.sessionExit
  split
  · refine ⟨h.placed, ?_, ?_⟩
    · intro hne
      exact absurd rfl hne
    · exact h.sent.append (Within.signalSendGroup h.foreground sighup)
  · exact h

theorem Held.exit (h : s.Held) (curr : ℕ) : (s.exit curr).Held := by
  have ht : Held { s with procs := s.procs.exit curr } :=
    ⟨h.placed.exit, fun hne => (h.foreground hne).exit, h.sent⟩
  unfold State.exit
  dsimp only
  split
  · exact ht
  · split
    · exact ht.sessionExit _
    · exact ht

theorem Held.handleRx (h : s.Held) (c : ℕ) : (s.handleRx c).Held := by
  unfold State.handleRx
  dsimp only
  generalize (if c = 13 then 10 else c) = c
  split
  · exact ⟨h.placed, h.foreground, h.sent.append (Within.signalSendGroup h.foreground _)⟩
  split
  · exact ⟨h.placed, h.foreground, h.sent⟩
  split
  · exact ⟨h.placed, h.foreground, h.sent⟩
  · exact h

/-- The group that `tcsetpgrp` puts into the foreground is in the session of its caller, and
that is the session of the terminal from then on. -/
theorem Held.tcsetpgrp (h : s.Held) {curr : ℕ} {isTty ignored : Bool} {new : ℤ}
    (hk : s.KeepsForeground (.tcsetpgrp curr isTty new ignored))
    (ht : s.tcsetpgrp curr isTty new ignored = .ok t) : t.Held := by
  unfold State.tcsetpgrp at ht
  dsimp only at ht
  split at ht
  · cases ht
  next hrange =>
    split at ht
    · cases ht
    next p hp =>
      generalize (if s.sessionId = 0 ∧ p.sid = p.pid then p.sid else s.sessionId) = session at ht
      split at ht
      · cases ht
      split at ht
      · cases ht
      split at ht
      · cases ht
      split at ht
      · cases ht
      next hsession =>
        cases ht
        refine ⟨h.placed, ?_, h.sent⟩
        intro _ i q hi hq hqg
        have hnew : (q.pgid : ℤ) = new := by
          have hqg : q.pgid = new.toNat := hqg
          omega
        show q.sid = _
        rw [hk p hp i hi q hq hnew]
        exact (not_not.mp hsession).symm

/-- The calls whose step is that of the process table. -/
theorem step_call {a : Session.Act} (h : s.step (.call a) = some t) :
    0 < a.caller ∧ (t = { s with procs := s.procs.call a } ∨ ∃ p, a = .exit p ∧ t = s.exit p) := by
  cases a with
  | exit p =>
    rw [step] at h
    split at h
    next hp => exact ⟨hp.1, .inr ⟨p, rfl, (Option.some.inj h).symm⟩⟩
    · cases h
  | _ =>
    obtain ⟨procs, hprocs, rfl⟩ := Option.map_eq_some_iff.mp h
    rw [Session.State.step] at hprocs
    split at hprocs
    next hc => exact ⟨hc.1, .inl (by rw [← Option.some.inj hprocs])⟩
    · cases hprocs

theorem Held.step (h : s.Held) {a : Act} (hk : s.KeepsForeground a) (ht : s.step a = some t) :
    t.Held := by
  cases a with
  | call a =>
    obtain ⟨ha, rfl | ⟨p, rfl, rfl⟩⟩ := step_call ht
    · exact h.call ha hk
    · exact h.exit p
  | tcsetpgrp p isTty new ignored =>
    rw [State.step] at ht
    split at ht
    · cases ht
      cases hr : s.tcsetpgrp p isTty new ignored with
      | error e => exact h
      | ok r => exact h.tcsetpgrp hk hr
    · cases ht
  | rx c =>
    cases ht
    exact h.handleRx c

end State

end Perspicua.Core.Tty
