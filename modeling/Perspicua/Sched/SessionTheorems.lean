import Perspicua.Sched.Session

/-!
# Theorems about process groups and sessions

`call_cases` says once what a call can do to the table. Two things follow for runs: a new pid
is fresh as long as nobody reaps a process that a running one still names as its group or
session, and groups stay within a session as long as nobody leaves a group behind that has
the number of the session it starts.
-/

namespace Perspicua.Sched.Session.State

open Perspicua.Lib
open Perspicua.Sched.Process (tableSize slots WaitArgs)

variable {s s' : State} {a : Act} {i j curr : ℕ} {p q : Member}

theorem runner_eq_some : s.runner i = some q ↔ s.table i = some q ∧ q.running = true := by
  unfold runner
  rw [Option.filter_eq_some_iff]

@[simp] theorem set_table (x : Option Member) (j : ℕ) :
    (s.set i x).table j = if j = i then x else s.table j := by
  unfold set
  by_cases h : j = i
  · subst h
    simp
  · simp [h]

theorem mem_slots : i ∈ slots ↔ 1 ≤ i ∧ i < tableSize := by
  unfold slots
  rw [List.mem_range'_1]
  unfold tableSize
  omega

/-! ## What the calls do -/

/-- What `pgid_session_locked` answers is the session of some running process of the group. -/
theorem pgidSession_spec {g : ℕ} (h : s.pgidSession g ≠ 0) :
    ∃ i q, i ∈ slots ∧ s.runner i = some q ∧ q.pgid = g ∧ q.sid = s.pgidSession g := by
  unfold pgidSession at h ⊢
  by_cases hg : g = 0
  · rw [if_pos hg] at h
    exact absurd rfl h
  · rw [if_neg hg] at h ⊢
    cases hf : slots.findSome? fun i =>
        (s.runner i).bind fun p => if p.pgid = g then some p.sid else none with
    | none =>
      rw [hf] at h
      exact absurd rfl h
    | some sid =>
      obtain ⟨i, hmem, hi⟩ := List.exists_of_findSome?_eq_some hf
      obtain ⟨q, hq, hq'⟩ := Option.bind_eq_some_iff.mp hi
      by_cases hqg : q.pgid = g
      · rw [if_pos hqg] at hq'
        exact ⟨i, q, hmem, hq, hqg, Option.some.inj hq'⟩
      · rw [if_neg hqg] at hq'
        cases hq'

/-- Where it answers 0 and running processes have sessions, the group has no members. -/
theorem pgidSession_eq_zero {g : ℕ} (h : s.pgidSession g = 0) (hg : g ≠ 0)
    (hsid : ∀ i q, i ∈ slots → s.runner i = some q → q.sid ≠ 0) (hi : i ∈ slots)
    (hq : s.runner i = some q) : q.pgid ≠ g := by
  intro hqg
  unfold pgidSession at h
  rw [if_neg hg] at h
  cases hf : slots.findSome? fun i =>
      (s.runner i).bind fun p => if p.pgid = g then some p.sid else none with
  | none =>
    have := List.findSome?_eq_none_iff.mp hf i hi
    simp [hq, hqg] at this
  | some sid =>
    obtain ⟨j, hj, hj'⟩ := List.exists_of_findSome?_eq_some hf
    obtain ⟨r, hr, hr'⟩ := Option.bind_eq_some_iff.mp hj'
    rw [hf, Option.getD_some] at h
    split at hr'
    · have := hsid j r hj hr
      rw [Option.some.inj hr'] at this
      exact this h
    · cases hr'

/-- What a call can do. -/
inductive Does (s : State) : Act → State → Prop
  | same (a : Act) : Does s a s
  | fork {curr i : ℕ} {p : Member} {ok : Bool} (hp : s.runner curr = some p) (hi : i ∈ slots)
      (hfree : s.table i = none) : Does s (.fork curr ok) (s.set i (some
        { pid := i, pgid := p.pgid, sid := p.sid, parent := curr
          running := true, hasExeced := false, leader := false }))
  | exec {curr : ℕ} {p : Member} {ok : Bool} (hp : s.runner curr = some p) :
      Does s (.exec curr ok) (s.set curr (some { p with hasExeced := true }))
  | exit (curr : ℕ) : Does s (.exit curr) (s.exit curr)
  | reap {curr i : ℕ} {z : Member} {args : WaitArgs} {stopped : ℕ → Bool} (hi : i ∈ slots)
      (hz : s.table i = some z) (hreap : Reapable curr args z) :
      Does s (.waitpid curr args stopped) (s.set i none)
  | setpgid {curr i g : ℕ} {p : Member} {target new : ℤ} (hi : i ∈ slots)
      (hp : s.runner i = some p) (hg : g ≠ 0) (hlead : p.sid ≠ p.pid)
      (hgroup : s.pgidSession g = 0 ∧ g = i ∨ s.pgidSession g ≠ 0 ∧ s.pgidSession g = p.sid) :
      Does s (.setpgid curr target new) (s.set i (some { p with pgid := g }))
  | setsid {curr : ℕ} {p : Member} (hp : s.runner curr = some p) :
      Does s (.setsid curr)
        (s.set curr (some { p with sid := p.pid, pgid := p.pid, leader := true }))

theorem findZombie_spec {args : WaitArgs} {stopped : ℕ → Bool} {l : List ℕ}
    (h : s.findZombie curr args stopped l = some i) :
    i ∈ l ∧ ∃ z, s.table i = some z ∧ Reapable curr args z := by
  induction l with
  | nil => cases h
  | cons j l ih =>
    have hrest : s.findZombie curr args stopped l = some i →
        i ∈ j :: l ∧ ∃ z, s.table i = some z ∧ Reapable curr args z := by
      intro h
      exact (ih h).imp_left (List.mem_cons_of_mem j)
    unfold findZombie at h
    cases hj : s.table j with
    | none =>
      simp only [hj] at h
      exact hrest h
    | some z =>
      simp only [hj] at h
      split at h
      · exact hrest h
      · split at h
        · exact hrest h
        · split at h
          · cases h
            rename_i hparent hpid hrun
            refine ⟨List.mem_cons_self, z, hj, by simpa using hrun, by simpa using hparent, ?_⟩
            by_cases hall : args.pid = -1
            · exact .inl hall
            · refine .inr ?_
              by_contra hne
              exact hpid ⟨hall, fun h' => hne h'.symm⟩
          · split at h
            · cases h
            · exact hrest h

/-- `setpgid` puts its target into a group: one with members, all of them in the target's
session as far as `pgid_session_locked` sees, or the one that the target's pid names. -/
theorem setpgid_spec {target new : ℤ} (h : s.setpgid curr target new = .ok s') :
    ∃ (i : ℕ) (p : Member) (g : ℕ), (i : ℤ) = (if target = 0 then (curr : ℤ) else target) ∧ i ∈ slots ∧
      s.runner i = some p ∧ g ≠ 0 ∧ p.sid ≠ p.pid ∧
      (s.pgidSession g = 0 ∧ g = i ∨ s.pgidSession g ≠ 0 ∧ s.pgidSession g = p.sid) ∧
      s' = s.set i (some { p with pgid := g }) := by
  unfold setpgid at h
  simp only at h
  generalize (if target = 0 then (curr : ℤ) else target) = t at h ⊢
  generalize (if new = 0 then t else new) = g at h
  split at h
  · cases h
  · rename_i hrange
    have ht : t.toNat ∈ slots := by
      rw [mem_slots]
      omega
    have hcast : (t.toNat : ℤ) = t := by omega
    have hg : g.toNat ≠ 0 := by omega
    cases hr : s.runner t.toNat with
    | none =>
      simp only [hr] at h
      cases h
    | some p =>
      simp only [hr] at h
      split at h
      · cases h
      split at h
      · cases h
      split at h
      · cases h
      rename_i hlead
      split at h
      case isTrue hzero =>
        split at h
        · cases h
        · rename_i hown
          cases h
          have hgt : g.toNat = t.toNat := by rw [not_not.mp hown]
          exact ⟨t.toNat, p, g.toNat, hcast, ht, hr, hg, hlead, .inl ⟨hzero, hgt⟩, rfl⟩
      case isFalse hzero =>
        split at h
        · cases h
        · rename_i hsid
          cases h
          exact ⟨t.toNat, p, g.toNat, hcast, ht, hr, hg, hlead, .inr ⟨hzero, not_not.mp hsid⟩, rfl⟩

theorem setpgid_cases {target new : ℤ} (h : s.setpgid curr target new = .ok s') :
    Does s (.setpgid curr target new) s' := by
  obtain ⟨i, p, g, -, hi, hp, hg, hlead, hgroup, rfl⟩ := setpgid_spec h
  exact .setpgid hi hp hg hlead hgroup

theorem claimSlot_spec (h : s.claimSlot = some i) : i ∈ slots ∧ s.table i = none := by
  unfold claimSlot at h
  exact ⟨List.mem_of_find?_eq_some h, by simpa using List.find?_some h⟩

/-- A fork that succeeds fills a free slot. -/
theorem fork_spec {ok : Bool} (h : s.fork curr ok = .ok (i, s')) :
    ∃ p, s.runner curr = some p ∧ i ∈ slots ∧ s.table i = none ∧
      s' = s.set i (some
        { pid := i, pgid := p.pgid, sid := p.sid, parent := curr
          running := true, hasExeced := false, leader := false }) := by
  unfold fork at h
  cases hp : s.runner curr with
  | none =>
    simp only [hp] at h
    cases h
  | some p =>
    cases hc : s.claimSlot with
    | none =>
      simp only [hp, hc] at h
      cases h
    | some c =>
      simp only [hp, hc] at h
      split at h
      · cases h
        obtain ⟨hi, hfree⟩ := claimSlot_spec hc
        exact ⟨p, rfl, hi, hfree, rfl⟩
      · cases h

theorem exec_cases {ok : Bool} (h : s.exec curr ok = .ok s') : Does s (.exec curr ok) s' := by
  unfold exec at h
  cases hp : s.runner curr with
  | none =>
    simp only [hp] at h
    cases h
  | some p =>
    simp only [hp] at h
    split at h
    · cases h
      exact .exec hp
    · cases h

theorem setsid_cases (h : s.setsid curr = .ok s') : Does s (.setsid curr) s' := by
  unfold setsid at h
  cases hp : s.runner curr with
  | none =>
    simp only [hp] at h
    cases h
  | some p =>
    simp only [hp] at h
    split at h
    · cases h
    · cases h
      exact .setsid hp

/-- A call that fails changes nothing. -/
theorem Does.of_ok {r : Except Errno State} (h : ∀ t, r = .ok t → Does s a t) :
    Does s a (r.toOption.getD s) := by
  cases r with
  | error e => exact .same a
  | ok t => exact h t rfl

/-- Every call does one of these things. -/
theorem call_cases (s : State) (a : Act) : Does s a (s.call a) := by
  cases a with
  | fork curr ok =>
    apply Does.of_ok
    intro t h
    cases hf : s.fork curr ok with
    | error e =>
      rw [hf] at h
      cases h
    | ok r =>
      obtain ⟨p, hp, hi, hfree, ht⟩ := fork_spec hf
      rw [hf] at h
      cases h
      show Does s (.fork curr ok) r.2
      rw [ht]
      exact .fork hp hi hfree
  | exec curr ok => exact Does.of_ok fun _ => exec_cases
  | exit curr => exact .exit curr
  | waitpid curr args stopped =>
    show Does s _ (s.waitpid curr args stopped)
    unfold waitpid
    cases hi : s.findZombie curr args stopped slots with
    | none => exact .same _
    | some i =>
      obtain ⟨hmem, z, hz, hreap⟩ := findZombie_spec hi
      exact .reap hmem hz hreap
  | setpgid curr target new => exact Does.of_ok fun _ => setpgid_cases
  | setsid curr => exact Does.of_ok fun _ => setsid_cases

/-- The running processes after a call: one that ran before, with its ids, or the one that
the call changed. -/
theorem runner_set {x : Member} (h : (s.set i (some x)).runner j = some q) :
    j = i ∧ q = x ∨ j ≠ i ∧ s.runner j = some q := by
  obtain ⟨h1, h2⟩ := runner_eq_some.mp h
  rw [set_table] at h1
  by_cases hj : j = i
  · rw [if_pos hj] at h1
    exact .inl ⟨hj, (Option.some.inj h1).symm⟩
  · rw [if_neg hj] at h1
    exact .inr ⟨hj, runner_eq_some.mpr ⟨h1, h2⟩⟩

theorem runner_clear (h : (s.set i none).runner j = some q) : j ≠ i ∧ s.runner j = some q := by
  obtain ⟨h1, h2⟩ := runner_eq_some.mp h
  rw [set_table] at h1
  by_cases hj : j = i
  · rw [if_pos hj] at h1
    cases h1
  · rw [if_neg hj] at h1
    exact ⟨hj, runner_eq_some.mpr ⟨h1, h2⟩⟩

/-- An exit changes at most the parent of those that go on running. -/
theorem runner_exit (h : (s.exit i).runner j = some q) :
    j ≠ i ∧ ∃ parent, s.runner j = some { q with parent := parent } := by
  obtain ⟨h1, h2⟩ := runner_eq_some.mp h
  obtain ⟨r, hr, hrq⟩ := Option.map_eq_some_iff.mp h1
  by_cases hj : j = i
  · rw [if_pos hj] at hrq
    rw [← hrq] at h2
    cases h2
  · rw [if_neg hj] at hrq
    refine ⟨hj, r.parent, runner_eq_some.mpr ⟨?_, h2⟩⟩
    rw [hr, ← hrq]
    split
    · rfl
    · rfl

/-! ## The table -/

/-- A process is in the slot of its pid. -/
def Placed (s : State) : Prop := ∀ i q, s.table i = some q → q.pid = i ∧ i < tableSize

theorem Placed.runner (h : s.Placed) (hq : s.runner i = some q) : q.pid = i ∧ i < tableSize :=
  h i q (runner_eq_some.mp hq).1

theorem Placed.set (h : s.Placed) (hi : i < tableSize) (hq : q.pid = i) :
    (s.set i (some q)).Placed := by
  intro j r hr
  rw [set_table] at hr
  by_cases hj : j = i
  · rw [if_pos hj] at hr
    cases hr
    rw [hj]
    exact ⟨hq, hi⟩
  · rw [if_neg hj] at hr
    exact h j r hr

theorem Placed.clear (h : s.Placed) : (s.set i none).Placed := by
  intro j r hr
  rw [set_table] at hr
  split at hr
  · cases hr
  · exact h j r hr

theorem Placed.exit (h : s.Placed) : (s.exit curr).Placed := by
  intro i q hq
  obtain ⟨r, hr, hrq⟩ := Option.map_eq_some_iff.mp hq
  obtain ⟨h1, h2⟩ := h i r hr
  refine ⟨?_, h2⟩
  rw [← hrq, ← h1]
  split
  · rfl
  · split
    · rfl
    · rfl

theorem Placed.does (h : s.Placed) (hd : Does s a s') : s'.Placed := by
  cases hd with
  | same => exact h
  | fork hp hi hfree => exact h.set (mem_slots.mp hi).2 rfl
  | exec hp => exact h.set (h.runner hp).2 (h.runner hp).1
  | exit curr => exact h.exit
  | reap hi hz hreap => exact h.clear
  | setpgid hi hp hg hlead hgroup => exact h.set (h.runner hp).2 (h.runner hp).1
  | setsid hp => exact h.set (h.runner hp).2 (h.runner hp).1

theorem boot_placed : boot.Placed := by
  intro i q hq
  have hq : (if i = 0 then some (Member.alloc 0) else
      if i = 1 then some (Member.alloc 1) else none) = some q := hq
  unfold tableSize
  split at hq
  · cases hq
    exact ⟨by simp_all [Member.alloc], by omega⟩
  · split at hq
    · cases hq
      exact ⟨by simp_all [Member.alloc], by omega⟩
    · cases hq

/-! ## New pids -/

/-- The group and the session of a running process are still in the table. -/
def Anchored (s : State) : Prop :=
  ∀ i q, s.runner i = some q → (s.table q.pgid).isSome ∧ (s.table q.sid).isSome

/-- What keeps new pids apart from the ids in use. -/
structure Named (s : State) : Prop where
  placed : s.Placed
  anchored : s.Anchored
  led : s.Led

theorem isSome_set {x : Member} (h : (s.table j).isSome) : ((s.set i (some x)).table j).isSome := by
  rw [set_table]
  split
  · rfl
  · exact h

/-- Changing the ids of one process. -/
theorem Named.set (h : s.Named) {x : Member} (hi : i < tableSize) (hpid : x.pid = i)
    (hgroup : x.pgid = i ∨ (s.table x.pgid).isSome)
    (hsession : x.sid = i ∨ (s.table x.sid).isSome) (hled : x.sid = x.pid → x.leader = true) :
    (s.set i (some x)).Named where
  placed := h.placed.set hi hpid
  anchored j q hq := by
    have hself : ((s.set i (some x)).table i).isSome := by simp
    rcases runner_set hq with ⟨rfl, rfl⟩ | ⟨-, hq⟩
    · refine ⟨?_, ?_⟩
      · rcases hgroup with h1 | h1
        · rw [h1]
          exact hself
        · exact isSome_set h1
      · rcases hsession with h1 | h1
        · rw [h1]
          exact hself
        · exact isSome_set h1
    · obtain ⟨h1, h2⟩ := h.anchored j q hq
      exact ⟨isSome_set h1, isSome_set h2⟩
  led j q hq := by
    rcases runner_set hq with ⟨-, rfl⟩ | ⟨-, hq⟩
    · exact hled
    · exact h.led j q hq

theorem Named.does (h : s.Named) (hc : s.ReapsUnused a) (hd : Does s a s') : s'.Named := by
  cases hd with
  | same => exact h
  | @fork curr i p ok hp hi hfree =>
    obtain ⟨h1, h2⟩ := h.anchored curr p hp
    refine h.set (mem_slots.mp hi).2 rfl (.inr h1) (.inr h2) ?_
    -- the session of the parent is in the table and the new slot was not
    intro hsid
    rw [show p.sid = i from hsid, hfree] at h2
    cases h2
  | @exec curr p ok hp =>
    obtain ⟨h1, h2⟩ := h.placed.runner hp
    obtain ⟨h3, h4⟩ := h.anchored curr p hp
    exact h.set h2 h1 (.inr h3) (.inr h4) (h.led curr p hp)
  | exit curr =>
    refine ⟨h.placed.exit, ?_, ?_⟩
    · intro j q hq
      obtain ⟨-, parent, hr⟩ := runner_exit hq
      obtain ⟨h1, h2⟩ := h.anchored j _ hr
      exact ⟨by simpa [State.exit] using h1, by simpa [State.exit] using h2⟩
    · intro j q hq hsid
      obtain ⟨-, parent, hr⟩ := runner_exit hq
      exact h.led j { q with parent := parent } hr hsid
  | @reap curr i z args stopped hi hz hreap =>
    refine ⟨h.placed.clear, ?_, ?_⟩
    · intro j q hq
      obtain ⟨-, hq⟩ := runner_clear hq
      obtain ⟨h1, h2⟩ := h.anchored j q hq
      obtain ⟨hgroup, hsession⟩ : q.pgid ≠ i ∧ q.sid ≠ i :=
        hc i (mem_slots.mp hi).2 z hz hreap j (h.placed.runner hq).2 q hq
      rw [set_table, set_table, if_neg hgroup, if_neg hsession]
      exact ⟨h1, h2⟩
    · intro j q hq
      exact h.led j q (runner_clear hq).2
  | @setpgid curr i g p target new hi hp hg hlead hgroup =>
    obtain ⟨h1, h2⟩ := h.placed.runner hp
    obtain ⟨-, h4⟩ := h.anchored i p hp
    refine h.set h2 h1 ?_ (.inr h4) (h.led i p hp)
    rcases hgroup with ⟨-, hgi⟩ | ⟨hne, -⟩
    · exact .inl hgi
    · obtain ⟨j, q, -, hq, hqg, -⟩ := pgidSession_spec hne
      right
      rw [show ({ p with pgid := g } : Member).pgid = q.pgid from hqg.symm]
      exact (h.anchored j q hq).1
  | @setsid curr p hp =>
    obtain ⟨h1, h2⟩ := h.placed.runner hp
    exact h.set h2 h1 (.inl h1) (.inl h1) fun _ => rfl

/-- A slot that is not in use is nobody's group or session. -/
theorem Named.fresh (h : s.Named) : s.Fresh := by
  intro curr ok child t hf i q hq
  obtain ⟨h1, h2⟩ := h.anchored i q hq
  obtain ⟨-, -, -, hfree, -⟩ := fork_spec hf
  constructor
  · intro h3
    rw [h3, hfree] at h1
    cases h1
  · intro h3
    rw [h3, hfree] at h2
    cases h2

theorem step_cases (h : s.step a = some s') : Does s a s' := by
  unfold step at h
  split at h
  · cases h
    exact call_cases s a
  · cases h

/-- At boot a running process is the kernel or init, as it was created. -/
theorem boot_runner (h : boot.runner i = some q) : q = Member.alloc i ∧ i ≤ 1 := by
  have h : (if i = 0 then some (Member.alloc 0) else
      if i = 1 then some (Member.alloc 1) else none) = some q := (runner_eq_some.mp h).1
  split at h
  · rename_i hi
    rw [hi]
    exact ⟨(Option.some.inj h).symm, by omega⟩
  · split at h
    · rename_i hi
      rw [hi]
      exact ⟨(Option.some.inj h).symm, by omega⟩
    · cases h

theorem boot_named : boot.Named where
  placed := boot_placed
  anchored i q hq := by
    have htable : (boot.table i).isSome := by rw [(runner_eq_some.mp hq).1]; rfl
    rw [(boot_runner hq).1]
    exact ⟨htable, htable⟩
  led i q hq _ := by
    rw [(boot_runner hq).1]
    rfl

/-- In every run in which `process_waitpid` reaps no process that a running one names as its
group or session, a new pid is no group or session in use, and who has the pid of its session
leads it. -/
theorem fresh_run {as : List Act} (h : Run (Guarded ReapsUnused (Moves step)) boot as s) :
    s.Fresh ∧ s.Led := by
  have hnamed : s.Named := by
    refine h.invariant Named ?_ boot_named
    intro s a t hs ⟨hc, hm⟩
    exact hs.does hc (step_cases hm)
  exact ⟨hnamed.fresh, hnamed.led⟩

/-- Init starts a child that leads a session, exits and is reaped; the next child has its pid
again. -/
theorem fresh_run_reaped :
    ∃ s, Run (Guarded ReapsUnused (Moves step)) boot
        [.fork 1 true, .fork 2 true, .setsid 2, .exit 2, .waitpid 1 ⟨2, false, false⟩ fun _ => false,
          .fork 1 true] s ∧
      (s.runner 2).map Member.sid = some 1 ∧ s.Fresh ∧ s.Led := by
  have h : (execGuarded ReapsUnused step boot
      [.fork 1 true, .fork 2 true, .setsid 2, .exit 2, .waitpid 1 ⟨2, false, false⟩ fun _ => false,
        .fork 1 true]).any
      (fun s => decide ((s.runner 2).map Member.sid = some 1)) = true := by decide +kernel
  obtain ⟨s, hrun, hs⟩ := exists_run_of_execGuarded h
  exact ⟨s, hrun, of_decide_eq_true hs, fresh_run hrun⟩

/-- The leader of a session exits and is reaped while its child runs on in the session. The
next fork of that child gets the pid that is their group and session, and has the pid of its
session without leading it. -/
theorem reused_pid_names_session :
    ∃ s, Run (Moves step) boot
        [.fork 1 true, .setsid 2, .fork 2 true, .exit 2,
          .waitpid 1 ⟨-1, false, false⟩ fun _ => false] s ∧ ¬ s.Fresh ∧
      ∃ t, s.step (.fork 3 true) = some t ∧ ¬ t.Led := by
  have h : (Lib.exec step boot
      [.fork 1 true, .setsid 2, .fork 2 true, .exit 2,
        .waitpid 1 ⟨-1, false, false⟩ fun _ => false]).any
      (fun s => decide ((s.fork 3 true).toOption.map Prod.fst = some 2 ∧
          (s.runner 3).map Member.pgid = some 2) &&
        (s.step (.fork 3 true)).any fun t => decide ((t.runner 2).map
          (fun q => (q.pid, q.sid, q.leader)) = some (2, 2, false))) = true := by decide +kernel
  obtain ⟨s, hrun, hs⟩ := exists_run_of_exec h
  obtain ⟨hs, ht⟩ := (Bool.and_eq_true ..).mp hs
  obtain ⟨hfork, hgroup⟩ := of_decide_eq_true hs
  refine ⟨s, hrun, ?_, ?_⟩
  · intro hfresh
    obtain ⟨⟨child, t⟩, hok, hchild⟩ := Option.map_eq_some_iff.mp hfork
    obtain ⟨q, hq, hpgid⟩ := Option.map_eq_some_iff.mp hgroup
    have hok : s.fork 3 true = .ok (child, t) := by
      cases hf : s.fork 3 true with
      | error e =>
        rw [hf] at hok
        cases hok
      | ok r =>
        rw [hf] at hok
        cases hok
        rfl
    exact (hfresh 3 true child t hok 3 q hq).1 (hpgid.trans hchild.symm)
  · obtain ⟨t, hstep, ht⟩ := (Option.any_eq_true ..).mp ht
    obtain ⟨q, hq, hids⟩ := Option.map_eq_some_iff.mp (of_decide_eq_true ht)
    injection hids with hpid hids
    injection hids with hsid hleader
    refine ⟨t, hstep, ?_⟩
    intro hled
    have := hled 2 q hq (hsid.trans hpid.symm)
    rw [hleader] at this
    cases this

/-! ## Groups -/

/-- What keeps a group within one session: only the kernel is in group 0, and no other process
is in session 0. -/
structure Grouped (s : State) : Prop where
  placed : s.Placed
  one : s.OneSession
  kernel : ∀ q, s.runner 0 = some q → q.pgid = 0
  group : ∀ i q, i ≠ 0 → s.runner i = some q → q.pgid ≠ 0
  session : ∀ i q, i ≠ 0 → s.runner i = some q → q.sid ≠ 0

/-- Changing the ids of one process, where the others of its group are in its session. -/
theorem Grouped.set (h : s.Grouped) {x : Member} (hi : i < tableSize)
    (hi0 : i ≠ 0) (hpid : x.pid = i) (hgroup : x.pgid ≠ 0) (hsession : x.sid ≠ 0)
    (hone : ∀ j q, j ≠ i → s.runner j = some q → q.pgid = x.pgid → q.sid = x.sid) :
    (s.set i (some x)).Grouped where
  placed := h.placed.set hi hpid
  one j k p q hp hq hpq := by
    rcases runner_set hp with ⟨-, hpx⟩ | ⟨hj, hp⟩
    · rcases runner_set hq with ⟨-, hqx⟩ | ⟨hk, hq⟩
      · rw [hpx, hqx]
      · rw [hpx] at hpq ⊢
        exact (hone k q hk hq hpq.symm).symm
    · rcases runner_set hq with ⟨-, hqx⟩ | ⟨-, hq⟩
      · rw [hqx] at hpq ⊢
        exact hone j p hj hp hpq
      · exact h.one j k p q hp hq hpq
  kernel q hq := by
    rcases runner_set hq with ⟨h0, -⟩ | ⟨-, hq⟩
    · exact absurd h0.symm hi0
    · exact h.kernel q hq
  group j q hj hq := by
    rcases runner_set hq with ⟨-, rfl⟩ | ⟨-, hq⟩
    · exact hgroup
    · exact h.group j q hj hq
  session j q hj hq := by
    rcases runner_set hq with ⟨-, rfl⟩ | ⟨-, hq⟩
    · exact hsession
    · exact h.session j q hj hq

/-- Where the running processes afterwards ran before with the same ids. -/
theorem Grouped.of_runner (h : s.Grouped) (hplaced : s'.Placed)
    (hrun : ∀ i q, s'.runner i = some q → ∃ r, s.runner i = some r ∧
      r.pgid = q.pgid ∧ r.sid = q.sid) : s'.Grouped where
  placed := hplaced
  one i j p q hp hq hpq := by
    obtain ⟨p', hp', hpg, hps⟩ := hrun i p hp
    obtain ⟨q', hq', hqg, hqs⟩ := hrun j q hq
    rw [← hps, ← hqs]
    exact h.one i j p' q' hp' hq' (hpg.trans (hpq.trans hqg.symm))
  kernel q hq := by
    obtain ⟨r, hr, hg, -⟩ := hrun 0 q hq
    rw [← hg]
    exact h.kernel r hr
  group i q hi hq := by
    obtain ⟨r, hr, hg, -⟩ := hrun i q hq
    rw [← hg]
    exact h.group i r hi hr
  session i q hi hq := by
    obtain ⟨r, hr, -, hs⟩ := hrun i q hq
    rw [← hs]
    exact h.session i r hi hr

theorem Grouped.does (h : s.Grouped) (hcall : a.caller ≠ 0) (hc : s.LeavesNoGroup a)
    (hd : Does s a s') : s'.Grouped := by
  cases hd with
  | same => exact h
  | @fork curr i p ok hp hi hfree =>
    obtain ⟨hi0, hi⟩ := mem_slots.mp hi
    refine h.set hi (by omega) rfl (h.group curr p hcall hp) (h.session curr p hcall hp) ?_
    intro j q _ hq hgroup
    exact h.one j curr q p hq hp hgroup
  | @exec curr p ok hp =>
    obtain ⟨hpid, hlt⟩ := h.placed.runner hp
    refine h.set hlt hcall hpid (h.group curr p hcall hp)
      (h.session curr p hcall hp) ?_
    intro j q _ hq hgroup
    exact h.one j curr q p hq hp hgroup
  | exit curr =>
    refine h.of_runner h.placed.exit ?_
    intro i q hq
    obtain ⟨-, parent, hr⟩ := runner_exit hq
    exact ⟨_, hr, rfl, rfl⟩
  | reap hi hz hreap =>
    refine h.of_runner h.placed.clear ?_
    intro i q hq
    exact ⟨q, (runner_clear hq).2, rfl, rfl⟩
  | @setpgid curr i g p target new hi hp hg hlead hgroup =>
    obtain ⟨hpid, hlt⟩ := h.placed.runner hp
    have hi0 : i ≠ 0 := by
      have := (mem_slots.mp hi).1
      omega
    refine h.set hlt hi0 hpid hg (h.session i p hi0 hp) ?_
    intro j q _ hq hqg
    have hqg : q.pgid = g := hqg
    rcases hgroup with ⟨hzero, -⟩ | ⟨hne, hsid⟩
    · -- nobody is in the group: the kernel is in group 0 and the others were searched
      have hj0 : j ≠ 0 := by
        rintro rfl
        rw [h.kernel q hq] at hqg
        exact hg hqg.symm
      have hj : j ∈ slots := mem_slots.mpr ⟨by omega, (h.placed.runner hq).2⟩
      have hall : ∀ k r, k ∈ slots → s.runner k = some r → r.sid ≠ 0 := by
        intro k r hk hr
        have := (mem_slots.mp hk).1
        exact h.session k r (by omega) hr
      exact absurd hqg (pgidSession_eq_zero hzero hg hall hj hq)
    · obtain ⟨k, r, -, hr, hrg, hrs⟩ := pgidSession_spec hne
      rw [h.one j k q r hq hr (hqg.trans hrg.symm), hrs]
      exact hsid
  | @setsid curr p hp =>
    obtain ⟨hpid, hlt⟩ := h.placed.runner hp
    have hcall : curr ≠ 0 := hcall
    refine h.set hlt hcall hpid (by rw [hpid]; exact hcall)
      (by rw [hpid]; exact hcall) ?_
    intro j q hj hq hqg
    exact absurd (hqg.trans hpid) (hc j (h.placed.runner hq).2 hj q hq)

end Perspicua.Sched.Session.State
