import Perspicua.Sched.ProcessInv

/-!
# Killing a process group

`signal_send_group(g, SIGKILL)` walks the table under the lock, but `process_fork` publishes a
child before it gives it a group and an empty set of pending signals, and it does both without
the lock. A fork that a member of the group has begun can therefore bring forth a member that
the walk has missed, or forget the signal that the walk has posted. When no such fork is before
the store to `pending_signals`, every member is hit.
-/

namespace Perspicua.Sched.Process

open Perspicua.Lib
open Perspicua.Core.Signals (SigSet sigkill sigcont isStop)

/-- In `process_fork`, before the pending signals of the child are cleared. -/
@[grind]
def Pc.filling : Pc → Bool
  | .fork => true
  | .forked _ stage => stage ≠ .cleared
  | _ => false

/-- `SIGKILL` has been taken for delivery. -/
@[grind]
def Pc.killed : Pc → Bool
  | .dying sig => sig = sigkill
  | _ => false

namespace State

variable {s t : State} {p c : ℕ}

/-- The watched send does not begin while a member of the group is filling in a child. -/
def NoneFilling (s : State) : Act → Prop
  | .begin _ pgid true => ∀ p < s.next, (s.procs p).pgid = pgid → (s.procs p).pc.filling = false
  | _ => True

instance (s : State) : (a : Act) → Decidable (s.NoneFilling a)
  | .begin _ pgid true => inferInstanceAs (Decidable (∀ p < s.next, (s.procs p).pgid = pgid →
      (s.procs p).pc.filling = false))
  | .begin _ _ false | .fork .. | .waitpid .. | .exit .. | .advance .. | .deliver .. | .mask ..
  | .stop .. | .send .. | .signal .. | .sleep .. | .unblock .. | .preempt .. | .dispatch .. => .isTrue trivial

/-- The process has `SIGKILL` pending, or has taken it and is about to exit. -/
def Hit (q : Proc) : Prop := q.pending sigkill = true ∨ q.pc.killed = true

/-- The walk of the watched send has yet to visit the slot. -/
def Unvisited (s : State) (g i : ℕ) : Prop :=
  ∃ x, s.sender = some x ∧ x.watched = true ∧ x.sig = sigkill ∧ x.pgid = g ∧ x.slot ≤ i

structure Watch (s : State) : Prop where
  group : s.watch ≠ some 0
  sender : ∀ x, s.sender = some x → x.watched = true → x.sig = sigkill ∧ s.watch = some x.pgid
  kernel : (s.procs 0).pgid = 0
  oldFork : ∀ p, s.oldFork p = true → (s.procs p).pc.inFork = true
  begun : ∀ g p, s.watch = some g → (s.procs p).pc = .fork → s.oldFork p = true → (s.procs p).pgid ≠ g
  filling : ∀ g p c stage, s.watch = some g → (s.procs p).pc = .forked c stage → stage ≠ .cleared →
    s.old c = true → (s.procs p).pgid ≠ g
  pgid : ∀ p c stage, (s.procs p).pc = .forked c stage →
    (s.procs c).pgid = if stage = .claimed ∨ stage = .parented then 0 else (s.procs p).pgid
  hit : ∀ g q, s.watch = some g → s.old q = true → s.table (s.procs q).pid = some q →
    (s.procs q).state = .running → (s.procs q).pgid = g → Hit (s.procs q) ∨ s.Unvisited g (s.procs q).pid

/-- A step that changes no group, no place in the code and no state, and takes no `SIGKILL` away. -/
theorem Watch.frame {procs : ℕ → Proc} (h : s.Watch)
    (hprocs : ∀ q, (procs q).pid = (s.procs q).pid ∧ (procs q).state = (s.procs q).state ∧
      (procs q).pgid = (s.procs q).pgid ∧ (procs q).pc = (s.procs q).pc ∧
      ((s.procs q).pending sigkill = true → (procs q).pending sigkill = true)) :
    Watch { s with procs := procs } := by
  have hpid := fun q => (hprocs q).1
  have hstate := fun q => (hprocs q).2.1
  have hpgid := fun q => (hprocs q).2.2.1
  have hpc := fun q => (hprocs q).2.2.2.1
  constructor
  · exact h.group
  · exact h.sender
  · exact (hpgid 0).trans h.kernel
  · simp only [hpc]
    exact h.oldFork
  · simp only [hpc, hpgid]
    exact h.begun
  · simp only [hpc, hpgid]
    exact h.filling
  · simp only [hpc, hpgid]
    exact h.pgid
  · simp only [hpid, hstate, hpgid]
    intro g q hg ho htable hrun hq
    refine (h.hit g q hg ho htable hrun hq).imp_left (Or.imp (hprocs q).2.2.2.2 fun hk => ?_)
    rw [hpc]
    exact hk

theorem Watch.soft (h : s.Watch) (hs : s.Soft t) : t.Watch := by
  rw [hs.rest]
  exact h.frame fun q => ⟨(hs.procs q).pid, (hs.procs q).state, (hs.procs q).pgid, (hs.procs q).pc,
    (hs.procs q).kill⟩

theorem Watch.giveToInit {P : ℕ → Prop} [DecidablePred P] (h : s.Watch) : (s.giveToInit P).Watch := by
  apply h.frame
  intro q
  split <;> exact ⟨rfl, rfl, rfl, rfl, id⟩

theorem Watch.setTable_none {i : ℕ} (h : s.Watch) : (s.setTable i none).Watch := by
  refine { h with hit := fun g q hg ho htable => h.hit g q hg ho ?_ }
  unfold State.setTable at htable
  simp only [Function.update_apply] at htable
  split at htable
  · cases htable
  · exact htable

/-- A process does something outside `process_fork`, or begins a fork. -/
theorem Watch.modify {f : Proc → Proc} (h : s.Watch)
    (hf : (f (s.procs p)).pid = (s.procs p).pid ∧ (f (s.procs p)).pgid = (s.procs p).pgid ∧
      ((f (s.procs p)).state = .running → (s.procs p).state = .running))
    (hfork : (s.procs p).pc.inFork = false)
    (hpc : (f (s.procs p)).pc.inFork = false ∨ (f (s.procs p)).pc = .fork)
    (hhit : (f (s.procs p)).state = .running → Hit (s.procs p) → Hit (f (s.procs p))) :
    (s.modify p f).Watch := by
  have hold : s.oldFork p = false := by
    by_contra hne
    rw [h.oldFork p (by simpa using hne)] at hfork
    cases hfork
  have hpgid : ∀ q, ((s.modify p f).procs q).pgid = (s.procs q).pgid := by
    intro q
    rw [modify_procs]
    split
    · subst q
      exact hf.2.1
    · rfl
  -- whoever has a child under construction is another process
  have hforked : ∀ q d stage, ((s.modify p f).procs q).pc = .forked d stage →
      (s.procs q).pc = .forked d stage := by
    intro q d stage hq
    rw [modify_procs] at hq
    split at hq
    · subst q
      obtain hpc | hpc := hpc <;> rw [hq] at hpc <;> cases hpc
    · exact hq
  constructor
  · exact h.group
  · exact h.sender
  · exact (hpgid 0).trans h.kernel
  · intro q hq
    have hqp : q ≠ p := by
      rintro rfl
      exact Bool.noConfusion (hq.symm.trans hold)
    rw [modify_procs, if_neg hqp]
    exact h.oldFork q hq
  · intro g q hg hq ho
    have hqp : q ≠ p := by
      rintro rfl
      exact Bool.noConfusion (ho.symm.trans hold)
    rw [modify_procs, if_neg hqp] at hq ⊢
    exact h.begun g q hg hq ho
  · intro g q d stage hg hq hst ho
    rw [hpgid]
    exact h.filling g q d stage hg (hforked q d stage hq) hst ho
  · intro q d stage hq
    rw [hpgid, hpgid]
    exact h.pgid q d stage (hforked q d stage hq)
  · intro g q hg ho htable hrun hq
    rw [hpgid] at hq
    rw [modify_procs] at htable hrun ⊢
    split at hrun
    · subst q
      rw [if_pos rfl, hf.1] at htable ⊢
      exact (h.hit g p hg ho htable (hf.2.2 hrun) hq).imp_left (hhit hrun)
    · rw [if_neg ‹_›] at htable ⊢
      exact h.hit g q hg ho htable hrun hq

theorem Watch.goto {pc : Pc} (h : s.Watch) (hfork : (s.procs p).pc.inFork = false)
    (hpc : pc.inFork = false ∨ pc = .fork) (hkilled : (s.procs p).pc.killed = false) :
    (s.goto p pc).Watch :=
  h.modify ⟨rfl, rfl, id⟩ hfork hpc fun _ hh => .inl (hh.resolve_right (by rw [hkilled]; exact nofun))

/-! ## `process_fork` -/

theorem killed_of_inFork {pc : Pc} (h : pc.inFork = true) : pc.killed = false := by
  cases pc <;> first | rfl | cases h

/-- A fork returns. -/
theorem Watch.forkReturn (h : s.Watch) (hp : (s.procs p).pc.inFork = true) :
    (s.forkReturn p).Watch := by
  have hprocs : ∀ q, (s.forkReturn p).procs q =
      if q = p then { s.procs p with pc := .idle } else s.procs q := fun q => goto_procs
  have hold : ∀ q, (s.forkReturn p).oldFork q = if q = p then false else s.oldFork q := fun q =>
    Function.update_apply ..
  have hpgid : ∀ q, ((s.forkReturn p).procs q).pgid = (s.procs q).pgid := by
    intro q
    rw [hprocs]
    split
    · subst q
      rfl
    · rfl
  have hne : ∀ q, ((s.forkReturn p).procs q).pc.inFork = true → q ≠ p := by
    rintro q hq rfl
    rw [hprocs, if_pos rfl] at hq
    cases hq
  constructor
  · exact h.group
  · exact h.sender
  · exact (hpgid 0).trans h.kernel
  · intro q hq
    rw [hold] at hq
    split at hq
    · cases hq
    · rw [hprocs, if_neg ‹_›]
      exact h.oldFork q hq
  · intro g q hg hq ho
    have hqp := hne q (by rw [hq]; rfl)
    rw [hold, if_neg hqp] at ho
    rw [hprocs, if_neg hqp] at hq ⊢
    exact h.begun g q hg hq ho
  · intro g q d stage hg hq hst ho
    have hqp := hne q (by rw [hq]; rfl)
    rw [hprocs, if_neg hqp] at hq ⊢
    exact h.filling g q d stage hg hq hst ho
  · intro q d stage hq
    have hqp := hne q (by rw [hq]; rfl)
    rw [hpgid, hpgid]
    rw [hprocs, if_neg hqp] at hq
    exact h.pgid q d stage hq
  · intro g q hg ho htable hrun hq
    rw [hpgid] at hq
    rw [hprocs] at htable hrun ⊢
    split at hrun
    · subst q
      rw [if_pos rfl] at htable ⊢
      refine (h.hit g p hg ho htable hrun hq).imp_left fun hh => .inl ?_
      exact hh.resolve_right (by rw [killed_of_inFork hp]; exact nofun)
    · rw [if_neg ‹_›] at htable ⊢
      exact h.hit g q hg ho htable hrun hq

/-- The parent and the child it builds change, nobody else. -/
theorem Watch.build (stage : ForkStage) (h : s.Watch) (hp : (s.procs p).pc.inFork = true)
    (hc0 : c ≠ 0) (hunborn : (s.procs c).pc = .unborn)
    (hnone : ∀ q d st, q ≠ p → (s.procs q).pc = .forked d st → d ≠ c)
    (hself : t.procs p = { s.procs p with pc := .forked c stage })
    (hother : ∀ q, q ≠ p → q ≠ c → t.procs q = s.procs q) (hchild : (t.procs c).pc = .unborn)
    (hrest : t.sender = s.sender ∧ t.watch = s.watch ∧ t.oldFork = s.oldFork)
    (hold : ∀ q, q ≠ c → t.old q = s.old q)
    (htable : ∀ q, q ≠ c → t.table (s.procs q).pid = some q → s.table (s.procs q).pid = some q)
    (hfilling : ∀ g, s.watch = some g → stage ≠ .cleared → t.old c = true → (s.procs p).pgid ≠ g)
    (hpgid : (t.procs c).pgid =
      if stage = .claimed ∨ stage = .parented then 0 else (s.procs p).pgid)
    (hhit : ∀ g, s.watch = some g → t.old c = true → t.table (t.procs c).pid = some c →
      (t.procs c).pgid = g → Hit (t.procs c) ∨ s.Unvisited g (t.procs c).pid) : t.Watch := by
  obtain ⟨hsender, hwatch, holdFork⟩ := hrest
  have hpc : p ≠ c := by
    rintro rfl
    rw [hunborn] at hp
    cases hp
  have hkeep : ∀ q, q ≠ c → (t.procs q).pid = (s.procs q).pid ∧
      (t.procs q).state = (s.procs q).state ∧ (t.procs q).pgid = (s.procs q).pgid ∧
      (Hit (s.procs q) → Hit (t.procs q)) := by
    intro q hqc
    by_cases hqp : q = p
    · subst q
      rw [hself]
      refine ⟨rfl, rfl, rfl, fun hh => .inl (hh.resolve_right ?_)⟩
      rw [killed_of_inFork hp]
      exact nofun
    · rw [hother q hqp hqc]
      exact ⟨rfl, rfl, rfl, id⟩
  have hforked : ∀ q d st, (t.procs q).pc = .forked d st →
      q ≠ c ∧ (q = p ∧ d = c ∧ st = stage ∨ d ≠ c ∧ (s.procs q).pc = .forked d st) := by
    intro q d st hq
    have hqc : q ≠ c := by
      rintro rfl
      rw [hchild] at hq
      cases hq
    by_cases hqp : q = p
    · subst q
      rw [hself] at hq
      cases hq
      exact ⟨hqc, .inl ⟨rfl, rfl, rfl⟩⟩
    · rw [hother q hqp hqc] at hq
      exact ⟨hqc, .inr ⟨hnone q d st hqp hq, hq⟩⟩
  constructor
  · rw [hwatch]
    exact h.group
  · rw [hwatch, hsender]
    exact h.sender
  · rw [(hkeep 0 hc0.symm).2.2.1]
    exact h.kernel
  · intro q hq
    rw [holdFork] at hq
    have hq' := h.oldFork q hq
    by_cases hqp : q = p
    · subst q
      rw [hself]
      rfl
    · rw [hother q hqp (by rintro rfl; rw [hunborn] at hq'; cases hq')]
      exact hq'
  · intro g q hg hq ho
    rw [hwatch] at hg
    rw [holdFork] at ho
    have hqp : q ≠ p := by
      rintro rfl
      rw [hself] at hq
      cases hq
    have hqc : q ≠ c := by
      rintro rfl
      rw [hchild] at hq
      cases hq
    rw [hother q hqp hqc] at hq ⊢
    exact h.begun g q hg hq ho
  · intro g q d st hg hq hst ho
    rw [hwatch] at hg
    obtain ⟨hqc, ⟨rfl, rfl, rfl⟩ | ⟨hd, hq⟩⟩ := hforked q d st hq
    · rw [(hkeep q hqc).2.2.1]
      exact hfilling g hg hst ho
    · rw [(hkeep q hqc).2.2.1]
      exact h.filling g q d st hg hq hst (hold d hd ▸ ho)
  · intro q d st hq
    obtain ⟨hqc, ⟨rfl, rfl, rfl⟩ | ⟨hd, hq⟩⟩ := hforked q d st hq
    · rw [(hkeep q hqc).2.2.1]
      exact hpgid
    · rw [(hkeep q hqc).2.2.1, (hkeep d hd).2.2.1]
      exact h.pgid q d st hq
  · intro g q hg ho htab hrun hq
    rw [hwatch] at hg
    unfold Unvisited
    rw [hsender]
    by_cases hqc : q = c
    · subst q
      exact hhit g hg ho htab hq
    · obtain ⟨hpid, hstate, hgroup, hh⟩ := hkeep q hqc
      rw [hpid] at htab ⊢
      rw [hstate] at hrun
      rw [hgroup] at hq
      exact (h.hit g q hg (hold q hqc ▸ ho) (htable q hqc htab) hrun hq).imp_left hh

/-- A slot is claimed: the child counts if the fork had begun before the send. -/
theorem Watch.claimSlot (h : s.Watch) (hf : s.IsFamily) (hp : (s.procs p).pc = .fork)
    (hc : s.processClaimSlot = some (c, t)) :
    (State.goto { t with old := Function.update t.old c (t.oldFork p) } p (.forked c .claimed)).Watch := by
  obtain ⟨-, hnext, hc0, ⟨i, hprocs, htable, hfree⟩, -⟩ := hf.processClaimSlot hc
  have hrest : t.sender = s.sender ∧ t.watch = s.watch ∧ t.old = s.old ∧ t.oldFork = s.oldFork := by
    unfold processClaimSlot at hc
    obtain ⟨j, -, heq⟩ := Option.map_eq_some_iff.mp hc
    obtain ⟨-, rfl⟩ := Prod.mk.inj heq
    exact ⟨rfl, rfl, rfl, rfl⟩
  obtain ⟨hsender, hwatch, hold, holdFork⟩ := hrest
  have hfresh := hf.fresh c (by omega)
  have hunborn : (s.procs c).pc = .unborn := unborn_of_phase hfresh.1
  have hpc : p ≠ c := by
    rintro rfl
    rw [hunborn] at hp
    cases hp
  have hchild : (State.goto { t with old := Function.update t.old c (t.oldFork p) } p
      (.forked c .claimed)).procs c = .alloc i := by
    rw [goto_procs, if_neg hpc.symm]
    show t.procs c = _
    rw [hprocs, Function.update_self]
  refine h.build .claimed (by rw [hp]; rfl) hc0 hunborn ?_ ?_ ?_ (by rw [hchild]; rfl)
    ⟨hsender, hwatch, holdFork⟩ ?_ ?_ ?_ (by rw [hchild]; rfl) ?_
  · -- nobody builds a child that did not exist
    rintro q d st - hq rfl
    exact hfresh.2.1 _ (hf.building q d (phase_forked hq)).2.2.1
  · have hpt : t.procs p = s.procs p := by rw [hprocs, Function.update_of_ne hpc]
    rw [goto_procs, if_pos rfl, ← hpt]
  · intro q hqp hqc
    rw [goto_procs, if_neg hqp]
    show t.procs q = _
    rw [hprocs, Function.update_of_ne hqc]
  · intro q hqc
    show Function.update t.old c (t.oldFork p) q = _
    rw [Function.update_of_ne hqc, hold]
  · intro q hqc htab
    have htab' : t.table (s.procs q).pid = some q := htab
    rw [htable, Function.update_apply] at htab'
    split at htab'
    · cases htab'
      exact (hqc rfl).elim
    · exact htab'
  · intro g hg _ ho
    have ho' : Function.update t.old c (t.oldFork p) c = true := ho
    rw [Function.update_self, holdFork] at ho'
    exact h.begun g p hg hp ho'
  · -- the child is in no group yet
    intro g hg _ _ hq
    rw [hchild] at hq
    exact (h.group (by rw [hg, ← hq]; rfl)).elim

/-- A store to a child under construction. -/
theorem Watch.fill {g : Proc → Proc} {stage stage' : ForkStage} (h : s.Watch) (hf : s.IsFamily)
    (hp : (s.procs p).pc = .forked c stage)
    (hg : (g (s.procs c)).pid = (s.procs c).pid ∧ (g (s.procs c)).pc = (s.procs c).pc)
    (hpgid : (g (s.procs c)).pgid =
      if stage' = .claimed ∨ stage' = .parented then 0 else (s.procs p).pgid)
    (hstage : stage' ≠ .cleared → stage ≠ .cleared)
    (hhit : ∀ gr, s.watch = some gr → s.old c = true → (g (s.procs c)).pgid = gr →
      (s.procs c).pgid = gr ∧ (Hit (s.procs c) → Hit (g (s.procs c)))) :
    ((s.modify c g).goto p (.forked c stage')).Watch := by
  obtain ⟨-, hphase, -, hc0⟩ := hf.building p c (phase_forked hp)
  have hunborn : (s.procs c).pc = .unborn := unborn_of_phase hphase
  have hrun : (s.procs c).state = .running := by
    have := hf.state c
    rw [hphase] at this
    exact this
  have hpc : p ≠ c := by
    rintro rfl
    rw [hunborn] at hp
    cases hp
  have hchild : ((s.modify c g).goto p (.forked c stage')).procs c = g (s.procs c) := by
    rw [goto_procs, if_neg hpc.symm, modify_procs, if_pos rfl]
  refine h.build stage' (by rw [hp]; rfl) hc0 hunborn ?_ ?_ ?_ ?_ ⟨rfl, rfl, rfl⟩ (fun _ _ => rfl)
    (fun _ _ htab => htab) ?_ (by rw [hchild]; exact hpgid) ?_
  · rintro q d st hqp hq rfl
    exact hqp (hf.unique q p d (phase_forked hq) (phase_forked hp))
  · rw [goto_procs, if_pos rfl, modify_procs, if_neg hpc]
  · intro q hqp hqc
    rw [goto_procs, if_neg hqp, modify_procs, if_neg hqc]
  · rw [hchild, hg.2]
    exact hunborn
  · exact fun gr hgr hst ho => h.filling gr p c stage hgr hp (hstage hst) ho
  · intro gr hgr ho htab hq
    rw [hchild] at hq htab ⊢
    rw [hg.1] at htab ⊢
    obtain ⟨hgroup, hh⟩ := hhit gr hgr ho hq
    exact (h.hit gr c hgr ho htab hrun hgroup).imp_left hh

theorem Watch.forkStep {ok : Bool} {stage : ForkStage} (h : s.Watch) (hf : s.IsFamily)
    (hp : (s.procs p).pc = .forked c stage) (ht : s.forkStep p c ok stage = some t) : t.Watch := by
  obtain ⟨-, hphase, -, -⟩ := hf.building p c (phase_forked hp)
  have hunborn : (s.procs c).pc = .unborn := unborn_of_phase hphase
  have hpc : p ≠ c := by
    rintro rfl
    rw [hunborn] at hp
    cases hp
  have hfork : (s.procs p).pc.inFork = true := by
    rw [hp]
    rfl
  have hpgid := h.pgid p c stage hp
  have hrelease : (State.forkReturn (s.processReleaseSlot (s.procs c).pid) p).Watch := by
    unfold processReleaseSlot
    exact h.setTable_none.forkReturn hfork
  unfold State.forkStep at ht
  cases stage with
  | claimed =>
    simp only at ht
    split at ht
    · cases ht
      exact h.fill hf hp ⟨rfl, rfl⟩ hpgid (fun _ => nofun) (fun gr _ _ hgr => ⟨hgr, id⟩)
    · split at ht
      · cases ht
        exact hrelease
      · cases ht
  | parented =>
    cases ht
    refine h.fill hf hp ⟨rfl, rfl⟩ rfl (fun _ => nofun) (fun gr hw ho hgr => ?_)
    exact (h.filling gr p c .parented hw hp nofun ho hgr).elim
  | grouped =>
    cases ht
    refine h.fill hf hp ⟨rfl, rfl⟩ hpgid (fun _ => nofun) (fun gr hw ho hgr => ?_)
    -- the signals it forgets are those of a child of another group
    exact (h.filling gr p c .grouped hw hp nofun ho (hpgid.symm.trans hgr)).elim
  | cleared =>
    simp only at ht
    split at ht
    · cases ht
      have hstart : (s.modify c fun k => { k with
          blocked := (s.procs p).blocked, mainTask := true, task := .ready, pc := .idle }).Watch := by
        refine h.modify ⟨rfl, rfl, id⟩ (by rw [hunborn]; rfl) (.inl rfl) (fun _ hh => .inl (hh.resolve_right ?_))
        rw [hunborn]
        exact nofun
      apply hstart.forkReturn
      rw [modify_procs, if_neg hpc]
      exact hfork
    · split at ht
      · cases ht
        exact hrelease
      · cases ht

/-! ## The send -/

/-- `SIGKILL` is never discarded. -/
theorem hit_sendTarget {q : Proc} (h : q.state = .running) : Hit (q.sendTarget sigkill false) := by
  have hadd : ∀ m : SigSet, m.add sigkill sigkill = true := fun m => Function.update_self ..
  left
  unfold Proc.sendTarget
  simp only [h, ne_eq, not_true_eq_false, Bool.false_eq_true, if_false]
  exact hadd _

theorem Watch.send {discarded : Bool} (h : s.Watch) (hf : s.IsFamily)
    (ht : s.send discarded = some t) : t.Watch := by
  obtain ⟨x, hx, ⟨hsize, rfl⟩ | ⟨r, d, hr, hd, rfl⟩ | ⟨y, hsig, hpg, hwt, hslot, rfl⟩⟩ := send_cases ht
  · -- the walk is over: every slot has been visited
    refine { h with sender := nofun, hit := fun g q hg ho htable hrun hq => ?_ }
    refine .inl ((h.hit g q hg ho htable hrun hq).resolve_right ?_)
    rintro ⟨y, hy, -, -, -, hle⟩
    rw [hx] at hy
    cases hy
    have hlt : (s.procs q).pid < tableSize := (hf.slot _ q htable).2
    omega
  · have hsoft : s.Soft (s.modify r fun k => k.sendTarget x.sig d) := .modify (.sendTarget ..)
    have hw := h.soft hsoft
    refine { hw with sender := fun y hy hyw => ?_, hit := fun g q hg ho htable hrun hq => ?_ }
    · cases hy
      exact h.sender x hx hyw
    · obtain hh | ⟨y, hy, hyw, hys, hyg, hle⟩ := hw.hit g q hg ho htable hrun hq
      · exact .inl hh
      · have hy : s.sender = some y := hy
        rw [hx] at hy
        cases hy
        have hpid : ((s.modify r fun k => k.sendTarget x.sig d).procs q).pid = (s.procs q).pid :=
          (hsoft.procs q).pid
        by_cases hqr : x.slot = (s.procs q).pid
        · -- the process in this slot has just been hit
          left
          have htab : s.table (s.procs q).pid = some q := hpid ▸ htable
          rw [hqr, htab] at hr
          cases hr
          have hrun : (s.procs r).state = .running := (hsoft.procs r).state ▸ hrun
          show Hit ((s.modify r fun k => k.sendTarget x.sig d).procs r)
          rw [modify_procs, if_pos rfl, hys, hd hys]
          exact hit_sendTarget hrun
        · right
          refine ⟨_, rfl, hyw, hys, hyg, ?_⟩
          have hle : x.slot ≤ (s.procs q).pid := hpid ▸ hle
          show x.slot + 1 ≤ ((s.modify r fun k => k.sendTarget x.sig d).procs q).pid
          omega
  · refine { h with sender := fun z hz hzw => ?_, hit := fun g q hg ho htable hrun hq => ?_ }
    · cases hz
      rw [hsig, hpg]
      exact h.sender x hx (hwt ▸ hzw)
    · refine (h.hit g q hg ho htable hrun hq).imp_right ?_
      rintro ⟨z, hz, hzw, hzs, hzg, hle⟩
      rw [hx] at hz
      cases hz
      refine ⟨y, rfl, hwt ▸ hzw, hsig ▸ hzs, hpg ▸ hzg, ?_⟩
      show y.slot ≤ (s.procs q).pid
      obtain heq | ⟨heq, hno⟩ := hslot
      · omega
      · -- the walk passes a slot only if its process is no member
        have : x.slot ≠ (s.procs q).pid := by
          intro hslot
          exact hno q (by rw [hslot]; exact htable) ⟨hrun, hq.trans hzg.symm⟩
        omega

theorem Watch.begin {sig pgid : ℕ} {watched : Bool} (h : s.Watch) (hf : s.IsFamily)
    (hguard : s.NoneFilling (.begin sig pgid watched))
    (ht : s.step (.begin sig pgid watched) = some t) : t.Watch := by
  unfold State.step at ht
  simp only [Option.ite_none_right_eq_some, Option.some.injEq] at ht
  obtain ⟨⟨hfree, -, -, hpgid, hwatched⟩, rfl⟩ := ht
  have hnone : s.sender = none := Option.isNone_iff_eq_none.mp hfree
  cases watched with
  | false =>
    refine { h with sender := fun x hx hxw => ?_, hit := fun g q hg ho htable hrun hq => ?_ }
    · cases hx
      cases hxw
    · refine .inl ((h.hit g q hg ho htable hrun hq).resolve_right ?_)
      rintro ⟨x, hx, -⟩
      rw [hnone] at hx
      cases hx
  | true =>
    obtain ⟨-, hkill⟩ := hwatched rfl
    -- the condition speaks of the PCBs there are; the others have no task
    have hno : ∀ p, (s.procs p).pc.filling = true → (s.procs p).pgid ≠ pgid := by
      intro p hp hg
      have hlt : p < s.next := by
        by_contra hge
        rw [unborn_of_phase (hf.fresh p (by omega)).1] at hp
        cases hp
      rw [hguard p hlt hg] at hp
      cases hp
    constructor
    · intro h0
      exact hpgid (Option.some.inj h0)
    · rintro x ⟨⟩ -
      exact ⟨hkill, rfl⟩
    · exact h.kernel
    · exact fun p hp => hp
    · rintro g p ⟨⟩ hp -
      exact hno p (by rw [show (s.procs p).pc = .fork from hp]; rfl)
    · rintro g p c stage ⟨⟩ hp hst -
      apply hno p
      rw [show (s.procs p).pc = .forked c stage from hp]
      simpa [Pc.filling] using hst
    · exact h.pgid
    · rintro g q ⟨⟩ - htable - hq
      refine .inr ⟨_, rfl, rfl, hkill, rfl, ?_⟩
      -- slot 0, which the walk leaves out, is the kernel's
      show 1 ≤ (s.procs q).pid
      by_contra h0
      have h0 : (s.procs q).pid = 0 := by omega
      have htable : s.table (s.procs q).pid = some q := htable
      rw [h0, hf.kernel.1] at htable
      cases htable
      exact hpgid (hq.symm.trans h.kernel)

/-! ## Every step -/

theorem Watch.exit {status : ℤ} (h : s.Watch) (hf : s.IsFamily) (hp : (s.procs p).pc.phase = .live)
    (hfork : (s.procs p).pc.inFork = false) : (s.exit p status).Watch := by
  have hrun : (s.procs p).state = .running := by
    have := hf.state p
    rw [phase_live hp] at this
    exact this
  unfold State.exit
  refine h.modify ?_ hfork ?_ ?_
  · rw [if_pos hrun]
    exact ⟨rfl, rfl, fun _ => hrun⟩
  · rw [if_pos hrun]
    exact .inl rfl
  · rw [if_pos hrun]
    exact fun hdead => by cases hdead

theorem afterParent_inFork (q : Proc) (orphaned : Bool) : (q.afterParent orphaned).inFork = false := by
  unfold Proc.afterParent
  split <;> rfl

/-- A process that is not about to die of `SIGKILL` goes on, after a soft step. -/
theorem Watch.softGoto {pc : Pc} (h : s.Watch) (hs : s.Soft t) (hp : (s.procs p).pc.inFork = false)
    (hk : (s.procs p).pc.killed = false) (hpc : pc.inFork = false) : (t.goto p pc).Watch := by
  refine (h.soft hs).goto ?_ (.inl hpc) ?_
  · rw [(hs.procs p).pc]
    exact hp
  · rw [(hs.procs p).pc]
    exact hk

theorem Watch.waitStep {args : WaitArgs} (h : s.Watch) (hp : (s.procs p).pc = .wait args) :
    (s.waitStep p args).Watch := by
  have hfork : (s.procs p).pc.inFork = false := by
    rw [hp]
    rfl
  have hkilled : (s.procs p).pc.killed = false := by
    rw [hp]
    rfl
  unfold State.waitStep
  split
  · rename_i i z _
    have hw : (s.setTable i none).Watch := h.setTable_none
    exact Watch.goto (s := { s.setTable i none with reaps := _ :: s.reaps }) { hw with } hfork
      (.inl rfl) hkilled
  · exact h.softGoto (.modify ⟨rfl, rfl, rfl, id, id⟩) hfork hkilled rfl
  · split
    · exact h.goto hfork (.inl rfl) hkilled
    · refine h.modify ⟨rfl, rfl, id⟩ hfork (.inl rfl) (fun _ hh => .inl (hh.resolve_right ?_))
      rw [hkilled]
      exact nofun

theorem Watch.advance (h : s.Watch) (hf : s.IsFamily) (ht : s.Advanced p (s.procs p).pc t) :
    t.Watch := by
  generalize hpc : (s.procs p).pc = pc at ht
  have hfork : (s.procs p).pc.inFork = pc.inFork := by rw [hpc]
  have hkilled : (s.procs p).pc.killed = pc.killed := by rw [hpc]
  -- a process that is not on its way out has the signal still pending
  have hhit : pc.killed = false → Hit (s.procs p) → (s.procs p).pending sigkill = true :=
    fun hk hh => hh.resolve_right (by rw [hkilled, hk]; exact nofun)
  cases ht with
  | forkFail => exact h.forkReturn hfork
  | claim hc => exact h.claimSlot hf hpc hc
  | forked hstep => exact h.forkStep hf hpc hstep
  | dying => apply h.exit hf <;> rw [hpc] <;> rfl
  | wait => exact h.waitStep hpc
  | waiting | exitCurrent | yield =>
    exact h.modify ⟨rfl, rfl, id⟩ hfork (.inl rfl) (fun _ hh => .inl (hhit rfl hh))
  | asleep => exact h.goto hfork (.inl rfl) hkilled
  | @reparent status =>
    have hhome : (s.face p).phase.home = true := by
      unfold face Proc.face
      rw [hpc]
      rfl
    rw [(hf.reparent_eq hhome).1]
    have hsame : ((s.giveToInit (s.ChildOf p)).procs p).pc = .reparent status := by
      rw [giveToInit_procs]
      split <;> exact hpc
    exact h.giveToInit.goto (by rw [hsame]; rfl) (.inl rfl) (by rw [hsame]; rfl)
  | publish =>
    refine h.modify ⟨rfl, rfl, fun hz => by cases hz⟩ hfork (.inl ?_) (fun hz => by cases hz)
    simp only
    split
    · rfl
    · exact afterParent_inFork ..
  | notify | notifyInit => exact h.softGoto .signalSend hfork hkilled rfl
  | wake => exact h.softGoto .wakeSlot hfork hkilled (afterParent_inFork ..)
  | wakeInit => exact h.softGoto .wakeSlot hfork hkilled rfl

theorem Watch.step {a : Act} (h : s.Watch) (hf : s.IsFamily) (ha : s.NoneFilling a)
    (ht : s.step a = some t) : t.Watch := by
  have hidle : ∀ p, s.Idle p → (s.procs p).pc.inFork = false ∧ (s.procs p).pc.killed = false := by
    intro p hp
    rw [hp.2]
    exact ⟨rfl, rfl⟩
  cases stepped ht with
  | soft hs => exact h.soft hs
  | begin hbegin _ => exact h.begin hf ha hbegin
  | fork hi => exact h.goto (hidle _ hi).1 (.inr rfl) (hidle _ hi).2
  | waitpid hi => exact h.goto (hidle _ hi).1 (.inl rfl) (hidle _ hi).2
  | exit hi => exact h.exit hf (by rw [hi.2]; rfl) (hidle _ hi).1
  | advance hadv => exact h.advance hf hadv
  | @deliver p sig hi =>
    refine h.modify ⟨rfl, rfl, id⟩ (hidle p hi).1 (.inl ?_) (fun _ hh => ?_)
    · simp only
      split <;> rfl
    · -- taking `SIGKILL` leads to the exit, taking another signal leaves it pending
      have hpend := hh.resolve_right (by rw [(hidle p hi).2]; exact nofun)
      by_cases hsig : sig = sigkill
      · right
        simp only [hsig, if_true]
        rfl
      · left
        show (s.procs p).pending.remove sig sigkill = true
        rw [SigSet.remove, Function.update_of_ne (Ne.symm hsig)]
        exact hpend
  | sleep hi => exact h.modify ⟨rfl, rfl, id⟩ (hidle _ hi).1 (.inl (hidle _ hi).1) (fun _ => id)
  | send hsend => exact h.send hf hsend

end State

end Perspicua.Sched.Process
