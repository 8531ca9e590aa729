import Perspicua.Sched.ProcessInv

/-!
# Exits, reparenting and `waitpid`

Every zombie stays in the table until its parent reaps it, once, and no parent sleeps in
`process_waitpid` over a zombie child unless an exiting task is still due to wake it. The
parent that is meant is the process itself, not the number it goes by.
-/

namespace Perspicua.Sched.Process

open Perspicua.Lib
open Perspicua.Core.Signals (SigSet sigkill sigcont sigchld isStop)

/-- Asleep in `process_waitpid`, or about to be. -/
@[grind]
def Pc.sleeper : Pc → Option WaitArgs
  | .waiting args | .asleep args => some args
  | _ => none

/-- An exiting task with the given pid has yet to wake the process with pid `w`. -/
@[grind]
def Pc.due (pid w : ℕ) : Pc → Prop
  | .publish _ orphaned => orphaned = true ∧ pid ≠ 1 ∧ w = 1
  | .notify ppid orphaned | .wake ppid orphaned => w = ppid ∨ orphaned = true ∧ pid ≠ 1 ∧ w = 1
  | .notifyInit | .wakeInit => w = 1
  | _ => False

/-- A child with this pid is one the call waits for. -/
def WaitArgs.wants (args : WaitArgs) (pid : ℕ) : Prop := args.pid = -1 ∨ (pid : ℤ) = args.pid

namespace State

variable {s t : State} {p c : ℕ}

/-- The process is blocked in `process_waitpid`. -/
def Waits (s : State) (p : ℕ) (args : WaitArgs) : Prop :=
  (s.procs p).pc.sleeper = some args ∧ (s.procs p).task = .blocked

def Due (s : State) (e w : ℕ) : Prop := (s.procs e).pc.due (s.procs e).pid w

/-- Whoever sleeps over a zombie child will be woken. -/
def Woken (s : State) : Prop :=
  ∀ p args i z, s.Waits p args → s.table i = some z → (s.procs z).parent = (s.procs p).pid →
    (s.procs z).state = .zombie → args.wants (s.procs z).pid → ∃ e, s.Due e (s.procs p).pid

/-- To keep it: no new sleeper, no new zombie child, and whoever was due to wake somebody still
is or has done so. -/
theorem Woken.of_frame (h : s.Woken)
    (hwait : ∀ p args, t.Waits p args → s.Waits p args ∧ (t.procs p).pid = (s.procs p).pid)
    (hzombie : ∀ i z, t.table i = some z → (t.procs z).state = .zombie →
      s.table i = some z ∧ (s.procs z).state = .zombie ∧
        (t.procs z).parent = (s.procs z).parent ∧ (t.procs z).pid = (s.procs z).pid)
    (hdue : ∀ e w, s.Due e w → t.Due e w ∨ ∀ p args, t.Waits p args → (t.procs p).pid ≠ w) :
    t.Woken := by
  intro p args i z hw hi hparent hz hwants
  obtain ⟨hws, hpid⟩ := hwait p args hw
  obtain ⟨his, hzs, hpar, hzpid⟩ := hzombie i z hi hz
  rw [hpar, hpid] at hparent
  rw [hzpid] at hwants
  obtain ⟨e, he⟩ := h p args i z hws his hparent hzs hwants
  obtain hd | hno := hdue e _ he
  · exact ⟨e, by rw [hpid]; exact hd⟩
  · exact (hno p args hw hpid).elim

theorem Soft.due_iff {e w : ℕ} (hs : s.Soft t) : t.Due e w ↔ s.Due e w := by
  unfold Due
  rw [(hs.procs e).pc, (hs.procs e).pid]

theorem Woken.soft (h : s.Woken) (hs : s.Soft t) : t.Woken := by
  have htable : t.table = s.table := by rw [hs.rest]
  refine h.of_frame (fun p args hw => ?_) (fun i z hi hz => ?_) (fun e w he => .inl (hs.due_iff.mpr he))
  · refine ⟨⟨?_, (hs.procs p).task hw.2⟩, (hs.procs p).pid⟩
    rw [← (hs.procs p).pc]
    exact hw.1
  · rw [htable] at hi
    rw [(hs.procs z).state] at hz
    exact ⟨hi, hz, (hs.procs z).parent, (hs.procs z).pid⟩

/-- A step of one process that leaves its place in the family alone. -/
theorem Woken.modify {f : Proc → Proc} (h : s.Woken)
    (hf : (f (s.procs p)).pid = (s.procs p).pid ∧
      ((f (s.procs p)).state = .zombie → (s.procs p).state = .zombie ∧
        (f (s.procs p)).parent = (s.procs p).parent))
    (hwait : ∀ args, (f (s.procs p)).pc.sleeper = some args → (f (s.procs p)).task = .blocked →
      (s.procs p).pc.sleeper = some args ∧ (s.procs p).task = .blocked)
    (hdue : ∀ w, s.Due p w → (f (s.procs p)).pc.due (s.procs p).pid w ∨
      ∀ q args, s.Waits q args → (s.procs q).pid ≠ w) : (s.modify p f).Woken := by
  have hwaits : ∀ q args, (s.modify p f).Waits q args → s.Waits q args ∧
      ((s.modify p f).procs q).pid = (s.procs q).pid := by
    intro q args hw
    unfold Waits at hw ⊢
    rw [modify_procs] at hw ⊢
    split at hw
    · subst q
      rw [if_pos rfl]
      exact ⟨hwait args hw.1 hw.2, hf.1⟩
    · rw [if_neg ‹_›]
      exact ⟨hw, rfl⟩
  refine h.of_frame hwaits (fun i z hi hz => ?_) (fun e w he => ?_)
  · rw [modify_procs] at hz ⊢
    split at hz
    · subst z
      rw [if_pos rfl]
      exact ⟨hi, (hf.2 hz).1, (hf.2 hz).2, hf.1⟩
    · rw [if_neg ‹_›]
      exact ⟨hi, hz, rfl, rfl⟩
  · by_cases hep : e = p
    · subst e
      refine (hdue w he).imp (fun hd => ?_) (fun hno q args hq => ?_)
      · unfold Due
        rw [modify_procs, if_pos rfl, hf.1]
        exact hd
      · rw [(hwaits q args hq).2]
        exact hno q args (hwaits q args hq).1
    · left
      unfold Due
      rw [modify_procs, if_neg hep]
      exact he

/-- A process goes on within its phase, or an exiting one does with everybody still told. -/
theorem Woken.goto {pc : Pc} (h : s.Woken)
    (hwait : ∀ args, pc.sleeper = some args → (s.procs p).pc.sleeper = some args)
    (hdue : ∀ w, s.Due p w → pc.due (s.procs p).pid w ∨ ∀ q args, s.Waits q args → (s.procs q).pid ≠ w) :
    (s.goto p pc).Woken :=
  h.modify ⟨rfl, fun hz => ⟨hz, rfl⟩⟩ (fun args ha hb => ⟨hwait args ha, hb⟩) hdue

theorem Woken.setTable_none {i : ℕ} (h : s.Woken) : (s.setTable i none).Woken := by
  refine h.of_frame (fun p args hw => ⟨hw, rfl⟩) (fun j z hj hz => ?_) (fun e w he => .inl he)
  unfold State.setTable at hj
  simp only [Function.update_apply] at hj
  split at hj
  · cases hj
  · exact ⟨hj, hz, rfl, rfl⟩

/-! ## Sleepers are in the table -/

theorem phase_of_sleeper {pc : Pc} {args : WaitArgs} (h : pc.sleeper = some args) : pc.phase = .live := by
  cases pc <;> first | rfl | cases h

/-- The process that a pid stands for, if it sleeps in `process_waitpid`. -/
theorem IsFamily.of_sleeper {args : WaitArgs} (h : s.IsFamily)
    (hp : (s.procs p).pc.sleeper = some args) :
    s.processSlot (s.procs p).pid = some p ∧ (s.procs p).pid ≠ 0 ∧ (s.procs p).state = .running ∧
      (s.procs p).mainTask = true := by
  have hlive : (s.face p).phase = .live := phase_of_sleeper hp
  have hhome : (s.face p).phase.home = true := by
    rw [hlive]
    rfl
  have htable := h.home p hhome
  have hstate := h.state p
  rw [hlive] at hstate
  refine ⟨?_, h.pid_ne_zero hhome, hstate, h.task p hlive⟩
  unfold processSlot
  rw [if_pos]
  · exact htable
  · exact (h.slot _ p htable).2

/-- After `wakeSlot` the process in the slot does not sleep in `process_waitpid`. -/
theorem IsFamily.wakeSlot_waits {args : WaitArgs} {w q : ℕ} (h : s.IsFamily)
    (hq : (s.wakeSlot w).Waits q args) : ((s.wakeSlot w).procs q).pid ≠ w := by
  intro hpid
  have hsoft : s.Soft (s.wakeSlot w) := .wakeSlot
  have hsleep : (s.procs q).pc.sleeper = some args := by
    rw [← (hsoft.procs q).pc]
    exact hq.1
  obtain ⟨hslot, -, hrun, htask⟩ := h.of_sleeper hsleep
  rw [← (hsoft.procs q).pid, hpid] at hslot
  have hblocked := hq.2
  unfold State.wakeSlot at hblocked
  rw [hslot] at hblocked
  simp only [hrun, htask, and_self, if_true, modify_procs] at hblocked
  grind -ring -linarith [TaskState.unblock, TaskState.cas]

/-! ## The steps -/

theorem Woken.forkReturn (h : s.Woken) (hp : ∀ w, ¬ s.Due p w) : (s.forkReturn p).Woken :=
  h.goto nofun (fun w hd => (hp w hd).elim)

theorem not_due_of_phase (hp : (s.procs p).pc.phase ≠ .zombie ∧ (s.procs p).pc.phase ≠ .closed) :
    ∀ w, ¬ s.Due p w := by
  intro w hd
  unfold Due at hd
  cases hpc : (s.procs p).pc <;> rw [hpc] at hd hp <;> simp [Pc.phase, Pc.due] at hd hp

theorem Woken.claimSlot (h : s.Woken) (hf : s.IsFamily) (hc : s.processClaimSlot = some (c, t)) :
    t.Woken := by
  obtain ⟨-, hnext, -, ⟨i, hprocs, htable, hnone⟩, -⟩ := hf.processClaimSlot hc
  have hself : t.procs c = .alloc i := by rw [hprocs, Function.update_self]
  have hother : ∀ q, q ≠ c → t.procs q = s.procs q := fun q hq => by
    rw [hprocs, Function.update_of_ne hq]
  refine h.of_frame (fun p args hw => ?_) (fun j z hj hz => ?_) (fun e w he => .inl ?_)
  · have hpc : p ≠ c := by
      rintro rfl
      unfold Waits at hw
      rw [hself] at hw
      cases hw.1
    unfold Waits at hw ⊢
    rw [hother p hpc] at hw ⊢
    exact ⟨hw, rfl⟩
  · have hzc : z ≠ c := by
      rintro rfl
      rw [hself] at hz
      cases hz
    rw [hother z hzc] at hz ⊢
    refine ⟨?_, hz, rfl, rfl⟩
    rw [htable, Function.update_apply] at hj
    split at hj
    · cases hj
      exact (hzc rfl).elim
    · exact hj
  · have hec : e ≠ c := by
      rintro rfl
      have hphase : (s.procs e).pc.phase = .unborn := (hf.fresh e (by omega)).1
      unfold Due at he
      rw [unborn_of_phase hphase] at he
      exact he
    unfold Due
    rw [hother e hec]
    exact he

theorem Woken.forkStep {ok : Bool} {stage : ForkStage} (h : s.Woken) (hf : s.IsFamily)
    (hp : (s.procs p).pc = .forked c stage) (ht : s.forkStep p c ok stage = some t) : t.Woken := by
  obtain ⟨-, hphase, -, -⟩ := hf.building p c (phase_forked hp)
  have hunborn : (s.procs c).pc = .unborn := unborn_of_phase hphase
  have hrun : (s.procs c).state = .running := by
    have := hf.state c
    rw [hphase] at this
    exact this
  have hpc : p ≠ c := by
    rintro rfl
    rw [hunborn] at hp
    cases hp
  have hnotdue : ∀ w, ¬ s.Due p w := not_due_of_phase (by rw [hp]; simp [Pc.phase])
  -- a store to the child, which is not a zombie and sleeps nowhere
  have hchild : ∀ g : Proc → Proc, (g (s.procs c)).pid = (s.procs c).pid →
      (g (s.procs c)).state = .running → (g (s.procs c)).pc.sleeper = none →
      (s.modify c g).Woken ∧ ∀ w, ¬ (s.modify c g).Due p w := by
    intro g hpid hstate hsleep
    refine ⟨h.modify ⟨hpid, fun hz => ?_⟩ (fun args ha => ?_) (fun w hd => ?_), fun w => ?_⟩
    · rw [hstate] at hz
      cases hz
    · rw [hsleep] at ha
      cases ha
    · unfold Due at hd
      rw [hunborn] at hd
      exact hd.elim
    · unfold Due
      rw [modify_procs, if_neg hpc]
      exact hnotdue w
  have hgoto : ∀ (g : Proc → Proc) (st : ForkStage), (g (s.procs c)).pid = (s.procs c).pid →
      (g (s.procs c)).state = .running → (g (s.procs c)).pc.sleeper = none →
      ((s.modify c g).goto p (.forked c st)).Woken := by
    intro g st h1 h2 h3
    obtain ⟨hw, hd⟩ := hchild g h1 h2 h3
    exact hw.goto nofun (fun w hdue => (hd w hdue).elim)
  have hrelease : (State.forkReturn (s.processReleaseSlot (s.procs c).pid) p).Woken := by
    unfold processReleaseSlot
    exact h.setTable_none.forkReturn hnotdue
  unfold State.forkStep at ht
  cases stage with
  | claimed =>
    simp only at ht
    split at ht
    · cases ht
      exact hgoto _ _ rfl hrun (by rw [hunborn]; rfl)
    · split at ht
      · cases ht
        exact hrelease
      · cases ht
  | parented | grouped =>
    cases ht
    exact hgoto _ _ rfl hrun (by rw [hunborn]; rfl)
  | cleared =>
    simp only at ht
    split at ht
    · cases ht
      obtain ⟨hw, hd⟩ := hchild (fun k => { k with
        blocked := (s.procs p).blocked, mainTask := true, task := .ready, pc := .idle }) rfl hrun rfl
      exact hw.forkReturn hd
    · split at ht
      · cases ht
        exact hrelease
      · cases ht

/-- An exiting process remembers that it gave a zombie to init. -/
theorem Woken.reparent {status : ℤ} (h : s.Woken) (hf : s.IsFamily)
    (hp : (s.procs p).pc = .reparent status) :
    ((s.reparent (s.procs p).pid).1.goto p
      (.publish status (s.reparent (s.procs p).pid).2)).Woken := by
  have hhome : (s.face p).phase.home = true := by
    unfold face Proc.face
    rw [hp]
    rfl
  obtain ⟨h1, h2⟩ := hf.reparent_eq hhome
  rw [h1]
  generalize (s.reparent (s.procs p).pid).2 = orphaned at h2 ⊢
  have hkeep : ∀ r, ((s.giveToInit (s.ChildOf p)).procs r).pid = (s.procs r).pid ∧
      ((s.giveToInit (s.ChildOf p)).procs r).state = (s.procs r).state ∧
      ((s.giveToInit (s.ChildOf p)).procs r).pc = (s.procs r).pc ∧
      ((s.giveToInit (s.ChildOf p)).procs r).task = (s.procs r).task := by
    intro r
    rw [giveToInit_procs]
    split <;> exact ⟨rfl, rfl, rfl, rfl⟩
  intro q args i z hw hi hparent hz hwants
  have hqp : q ≠ p := by
    rintro rfl
    unfold Waits at hw
    rw [goto_procs, if_pos rfl] at hw
    cases hw.1
  have hws : s.Waits q args := by
    unfold Waits at hw ⊢
    rw [goto_procs, if_neg hqp, (hkeep q).2.2.1, (hkeep q).2.2.2] at hw
    exact hw
  have hzp : z ≠ p := by
    rintro rfl
    rw [goto_procs, if_pos rfl] at hz
    have hz : (s.face z).state = .zombie := (hkeep z).2.1.symm.trans hz
    have := hf.state z
    rw [hz] at this
    unfold face Proc.face at this
    rw [hp] at this
    cases this
  have hi : s.table i = some z := hi
  rw [goto_procs, if_neg hzp] at hparent hz hwants
  rw [goto_procs, if_neg hqp, (hkeep q).1] at hparent ⊢
  rw [(hkeep z).2.1] at hz
  rw [(hkeep z).1] at hwants
  by_cases hchild : s.ChildOf p z
  · -- the zombie now belongs to init, which is `q` and not the exiting process
    rw [giveToInit_procs, if_pos hchild] at hparent
    have horphaned := h2.mpr ⟨z, hchild, hz⟩
    have hq1 := hf.init.2.2.2 q hparent.symm
    refine ⟨p, ?_⟩
    unfold Due
    rw [goto_procs, if_pos rfl, (hkeep p).1]
    refine ⟨horphaned, fun hp1 => ?_, hparent.symm⟩
    have := hf.init.2.2.2 p hp1
    omega
  · rw [giveToInit_procs, if_neg hchild] at hparent
    obtain ⟨e, he⟩ := h q args i z hws hi hparent hz hwants
    have hep : e ≠ p := by
      rintro rfl
      unfold Due at he
      rw [hp] at he
      exact he
    refine ⟨e, ?_⟩
    unfold Due at he ⊢
    rw [goto_procs, if_neg hep, (hkeep e).1, (hkeep e).2.2.1]
    exact he

/-- An exiting process sees its parent under the lock under which it becomes a zombie. -/
theorem Woken.publish {status : ℤ} {orphaned : Bool} (h : s.Woken) (hf : s.IsFamily)
    (hp : (s.procs p).pc = .publish status orphaned) : (s.publish p status orphaned).Woken := by
  intro q args i z hw hi hparent hz hwants
  unfold State.publish at hw hi hparent hz hwants ⊢
  have hqp : q ≠ p := by
    rintro rfl
    unfold Waits at hw
    rw [modify_procs, if_pos rfl] at hw
    have := phase_of_sleeper hw.1
    simp only at this
    split at this
    · cases this
    · rw [afterParent_phase] at this
      cases this
  have hws : s.Waits q args := by
    unfold Waits at hw ⊢
    rw [modify_procs, if_neg hqp] at hw
    exact hw
  rw [modify_procs (r := q), if_neg hqp] at hparent ⊢
  by_cases hzp : z = p
  · subst z
    rw [modify_procs, if_pos rfl] at hparent
    have hparent : (s.procs p).parent = (s.procs q).pid := hparent
    obtain ⟨hslot, hpid, hrun, -⟩ := hf.of_sleeper hws.1
    have hnotify : s.notifies p = true := by
      unfold notifies
      rw [hparent, hslot]
      simp [hpid, hrun]
    refine ⟨p, ?_⟩
    unfold Due
    rw [modify_procs, if_pos rfl]
    simp only [hnotify, if_true]
    exact .inl hparent.symm
  · rw [modify_procs, if_neg hzp] at hparent hz hwants
    obtain ⟨e, he⟩ := h q args i z hws hi hparent hz hwants
    refine ⟨e, ?_⟩
    unfold Due at he ⊢
    rw [modify_procs]
    split
    · -- it goes on to tell init
      subst e
      rw [hp] at he
      obtain ⟨ho, h1, hw1⟩ := he
      simp only
      split
      · exact .inr ⟨ho, h1, hw1⟩
      · unfold Proc.afterParent
        simp only [ho, h1, Bool.true_and, ne_eq, decide_not, decide_false, Bool.not_false, if_true]
        exact hw1
    · exact he

theorem Woken.waitStep {args : WaitArgs} (h : s.Woken) (hf : s.IsFamily)
    (hp : (s.procs p).pc = .wait args) : (s.waitStep p args).Woken := by
  have hnotdue : ∀ w, ¬ s.Due p w := not_due_of_phase (by rw [hp]; simp [Pc.phase])
  unfold State.waitStep
  split
  · rename_i i z _
    have hw : (s.setTable i none).Woken := h.setTable_none
    exact Woken.goto (s := { s.setTable i none with reaps := _ :: s.reaps }) hw nofun
      (fun w hd => (hnotdue w hd).elim)
  · rename_i z _
    have hsoft : s.Soft (s.modify z fun k => { k with stopReported := true }) :=
      .modify ⟨rfl, rfl, rfl, id, id⟩
    exact (h.soft hsoft).goto nofun (fun w hd => (hnotdue w (hsoft.due_iff.mp hd)).elim)
  · rename_i children hnothing
    split
    · exact h.goto nofun (fun w hd => (hnotdue w hd).elim)
    · -- the process has just looked at all its children
      intro q args' i z hw hi hparent hz hwants
      have hzp : z ≠ p := by
        rintro rfl
        rw [modify_procs, if_pos rfl] at hz
        have := hf.state z
        rw [show (s.face z).state = .zombie from hz] at this
        unfold face Proc.face at this
        rw [hp] at this
        cases this
      rw [modify_procs, if_neg hzp] at hparent hz hwants
      have hi : s.table i = some z := hi
      by_cases hqp : q = p
      · subst q
        unfold Waits at hw
        rw [modify_procs, if_pos rfl] at hw hparent
        obtain rfl : args = args' := Option.some.inj hw.1
        have hslot : i ∈ slots := by
          have hsize := (hf.slot i z hi).2
          have h0 : i ≠ 0 := by
            rintro rfl
            rw [hf.kernel.1] at hi
            cases hi
            have := hf.state 0
            rw [show (s.face 0).state = .zombie from hz, hf.kernel.2.1] at this
            cases this
          unfold slots
          rw [List.mem_range'_1]
          omega
        exact (findChild_nothing hnothing hslot hi hparent hwants hz).elim
      · have hws : s.Waits q args' := by
          unfold Waits at hw ⊢
          rw [modify_procs, if_neg hqp] at hw
          exact hw
        rw [modify_procs, if_neg hqp] at hparent ⊢
        obtain ⟨e, he⟩ := h q args' i z hws hi hparent hz hwants
        have hep : e ≠ p := by
          rintro rfl
          exact hnotdue _ he
        refine ⟨e, ?_⟩
        unfold Due
        rw [modify_procs, if_neg hep]
        exact he

theorem Woken.exit {status : ℤ} (h : s.Woken) (hf : s.IsFamily) (hp : (s.procs p).pc.phase = .live) :
    (s.exit p status).Woken := by
  have hrun : (s.procs p).state = .running := by
    have := hf.state p
    rw [phase_live hp] at this
    exact this
  have hnotdue : ∀ w, ¬ s.Due p w := not_due_of_phase (by rw [hp]; exact ⟨nofun, nofun⟩)
  unfold State.exit
  refine h.modify ?_ (fun args => ?_) (fun w hd => (hnotdue w hd).elim)
  · rw [if_pos hrun]
    exact ⟨rfl, fun hz => by cases hz⟩
  · rw [if_pos hrun]
    exact fun ha => by cases ha

/-- An exiting task tells somebody, and will wake them next. -/
theorem Woken.signalSend {target sig : ℕ} {discarded : Bool} {pc : Pc} (h : s.Woken)
    (hpc : pc.sleeper = none) (hdue : ∀ w, s.Due p w → pc.due (s.procs p).pid w) :
    ((s.signalSend target sig discarded).goto p pc).Woken := by
  have hsoft : s.Soft (s.signalSend target sig discarded) := .signalSend
  refine (h.soft hsoft).goto (fun args ha => ?_) (fun w hd => .inl ?_)
  · rw [hpc] at ha
    cases ha
  · rw [(hsoft.procs p).pid]
    exact hdue w (hsoft.due_iff.mp hd)

/-- An exiting task wakes the process in a slot. -/
theorem Woken.wakeSlot {target : ℕ} {pc : Pc} (h : s.Woken) (hf : s.IsFamily)
    (hpc : pc.sleeper = none)
    (hdue : ∀ w, s.Due p w → w = target ∨ pc.due (s.procs p).pid w) :
    ((s.wakeSlot target).goto p pc).Woken := by
  have hsoft : s.Soft (s.wakeSlot target) := .wakeSlot
  refine (h.soft hsoft).goto (fun args ha => ?_) (fun w hd => ?_)
  · rw [hpc] at ha
    cases ha
  · obtain rfl | hd := hdue w (hsoft.due_iff.mp hd)
    · exact .inr fun q args hq => hf.wakeSlot_waits hq
    · rw [(hsoft.procs p).pid]
      exact .inl hd

theorem afterParent_sleeper (q : Proc) (orphaned : Bool) : (q.afterParent orphaned).sleeper = none := by
  unfold Proc.afterParent
  split <;> rfl

theorem Woken.advance (h : s.Woken) (hf : s.IsFamily) (ht : s.Advanced p (s.procs p).pc t) :
    t.Woken := by
  generalize hpc : (s.procs p).pc = pc at ht
  have hdue : ∀ w, s.Due p w → pc.due (s.procs p).pid w := by
    intro w hd
    rw [← hpc]
    exact hd
  cases ht with
  | forkFail => exact h.forkReturn hdue
  | @claim c u hc =>
    have hw := h.claimSlot hf hc
    refine Woken.goto (s := { u with old := _ }) hw nofun (fun w hd => ?_)
    -- claiming a slot changes nothing for the process that forks
    obtain ⟨-, hnext, -, ⟨i, hprocs, -, -⟩, -⟩ := hf.processClaimSlot hc
    have hpn : p ≠ c := by
      rintro rfl
      have hphase : (s.procs p).pc.phase = .unborn := (hf.fresh p (by omega)).1
      rw [hpc] at hphase
      cases hphase
    have hd : u.Due p w := hd
    unfold Due at hd
    rw [hprocs, Function.update_of_ne hpn] at hd
    exact (hdue w hd).elim
  | forked hstep => exact h.forkStep hf hpc hstep
  | dying =>
    apply h.exit hf
    rw [hpc]
    rfl
  | wait => exact h.waitStep hf hpc
  | waiting =>
    refine h.modify ⟨rfl, fun hz => ⟨hz, rfl⟩⟩ (fun args' ha hb => ?_) (fun w hd => .inl (hdue w hd))
    rw [hpc]
    refine ⟨ha, ?_⟩
    unfold Proc.schedule TaskState.leave TaskState.cas at hb
    grind -ring -linarith
  | asleep => exact h.goto nofun (fun w hd => (hdue w hd).elim)
  | reparent => exact h.reparent hf hpc
  | publish => exact h.publish hf hpc
  | notify | notifyInit => exact h.signalSend rfl hdue
  | wake =>
    refine h.wakeSlot hf (afterParent_sleeper ..) fun w hd => ?_
    refine (hdue w hd).imp_right fun ⟨ho, h1, hw1⟩ => ?_
    unfold Proc.afterParent
    rw [if_pos (by simp [ho, h1])]
    exact hw1
  | wakeInit => exact h.wakeSlot hf rfl fun w hd => .inl (hdue w hd)
  | exitCurrent | yield =>
    exact h.modify ⟨rfl, fun hz => ⟨hz, rfl⟩⟩ (fun _ ha => by cases ha)
      (fun w hd => (hdue w hd).elim)

theorem Woken.step {a : Act} (h : s.Woken) (hf : s.IsFamily) (ht : s.step a = some t) : t.Woken := by
  -- outside the listed code a process owes nobody a wake-up
  have hidle : ∀ p, s.Idle p → ∀ w, ¬ s.Due p w := by
    intro p hp w hd
    unfold Due at hd
    rw [hp.2] at hd
    exact hd
  cases stepped ht with
  | soft hs => exact h.soft hs
  | fork hi | waitpid hi => exact h.goto nofun (fun w hd => (hidle _ hi w hd).elim)
  | exit hi =>
    apply h.exit hf
    rw [hi.2]
    rfl
  | advance hadv => exact h.advance hf hadv
  | deliver hi =>
    refine h.modify ⟨rfl, fun hz => ⟨hz, rfl⟩⟩ (fun args ha => ?_) (fun w hd => (hidle _ hi w hd).elim)
    simp only at ha
    split at ha <;> cases ha
  | sleep hi =>
    refine h.modify ⟨rfl, fun hz => ⟨hz, rfl⟩⟩ (fun args ha => ?_) (fun w hd => (hidle _ hi w hd).elim)
    rw [hi.2] at ha
    cases ha
  | begin _ hsame =>
    intro p args i z
    unfold Waits Due
    rw [hsame.1, hsame.2.1]
    exact h p args i z
  | send hsend =>
    obtain ⟨x, -, ⟨-, rfl⟩ | ⟨q, d, -, -, rfl⟩ | ⟨y, -, -, -, -, rfl⟩⟩ := send_cases hsend
    · exact h
    · exact h.soft (t := s.modify q fun k => k.sendTarget x.sig d) (.modify (.sendTarget ..))
    · exact h

theorem boot_woken : boot.Woken := by
  intro p args i z hw
  unfold Waits boot at hw
  simp only at hw
  split at hw <;> cases hw.1

/-! ## Every run -/

/-- What exits and waits keep. -/
structure Sound (s : State) : Prop where
  /-- No child is reaped twice. -/
  once : (s.reaps.map Reap.child).Nodup
  /-- A child is reaped by its parent. -/
  byParent : ∀ r ∈ s.reaps, r.reaper = (s.procs r.child).kin
  /-- While a child is in the table, `parent_pid` stands for its parent. -/
  parent : ∀ i q, s.table i = some q → (s.procs q).parent ≠ 0 →
    s.table (s.procs q).parent = some (s.procs q).kin
  /-- A zombie stays in the table until it is reaped. -/
  reachable : ∀ q, (s.procs q).state = .zombie →
    s.table (s.procs q).pid = some q ∨ ∃ r ∈ s.reaps, r.child = q
  woken : s.Woken

theorem IsFamily.sound (h : s.IsFamily) (hw : s.Woken) : s.Sound where
  once := h.nodup
  byParent r hr := (h.reaped r hr).2.2.symm
  parent i q hi hq := (h.kin i q hi hq).1
  reachable q hq := by
    apply h.zombie q
    have := h.state q
    rw [show (s.face q).state = .zombie from hq] at this
    cases hphase : (s.face q).phase <;> rw [hphase] at this <;> first | rfl | cases this
  woken := hw

/-- Whatever processes fork, exit and wait in whatever order: a zombie is reaped at most once and
by its parent, it stays in the table until then, and no parent sleeps over a zombie child unless
an exiting task is still due to wake it. -/
theorem process_run_sound {as : List Act} (hr : Run (Moves step) boot as s) : s.Sound := by
  have h : s.IsFamily ∧ s.Woken :=
    hr.invariant (fun s => s.IsFamily ∧ s.Woken) (fun _ _ _ h hs => ⟨h.1.step hs, h.2.step h.1 hs⟩)
      ⟨boot_isFamily, boot_woken⟩
  exact h.1.sound h.2

/-- Init waits for a child, sleeps until it exits, and reaps it. -/
theorem process_run_sound_wait : ∃ s, Run (Moves step) boot
    [.fork 1, .advance 1 true false, .advance 1 true false, .advance 1 true false,
      .advance 1 true false, .advance 1 true false, .waitpid 1 ⟨-1, false, false⟩,
      .advance 1 true false, .advance 1 true false, .dispatch 2, .exit 2 7, .advance 2 true false,
      .advance 2 true false, .advance 2 true true, .advance 2 true false, .dispatch 1,
      .advance 1 true false, .advance 1 true false] s ∧
    (s.reaps.map fun r => (r.child, r.reaper, r.status)) = [(2, 1, 7)] ∧ s.Sound := by
  have h : (Lib.exec step boot
      [.fork 1, .advance 1 true false, .advance 1 true false, .advance 1 true false,
        .advance 1 true false, .advance 1 true false, .waitpid 1 ⟨-1, false, false⟩,
        .advance 1 true false, .advance 1 true false, .dispatch 2, .exit 2 7, .advance 2 true false,
        .advance 2 true false, .advance 2 true true, .advance 2 true false, .dispatch 1,
        .advance 1 true false, .advance 1 true false]).any
      (fun s => decide ((s.reaps.map fun r => (r.child, r.reaper, r.status)) = [(2, 1, 7)])) = true := by
    decide +kernel
  obtain ⟨s, hr, hs⟩ := exists_run_of_exec h
  exact ⟨s, hr, of_decide_eq_true hs, process_run_sound hr⟩

end State

end Perspicua.Sched.Process
