import Mathlib.Data.List.Nodup
import Mathlib.Tactic.Common
import Perspicua.Fs.PipeSteps
import Perspicua.Lib.Count

/-!
# Pipes lose nothing

The invariant has three parts on top of the mutual exclusion of the lock: the buffer and the
bytes that went through it, the references to the two ends, and the wait queues. The last one
is about responsibility: while a waiter whose condition holds is in a queue, the holder of
the lock is going to wake that queue.
-/

namespace Perspicua.Fs.Pipe

open Perspicua.Lib Perspicua.Sched

section Places

variable {τ α : Type} {s : State τ α} {p p' : Pc τ α}

theorem Goes.locked (h : Goes s p p') (hl : p'.locked = true) : p.locked = true := by
  cases h <;> first | rfl | cases hl

theorem Gives.locked (h : Gives p p') : p.locked = true ∧ p'.locked = false := by
  cases h <;> exact ⟨rfl, rfl⟩

theorem interrupted_moved {c : Call α} (h : c.side = .read → c.moved = 0)
    (he : c.interrupted ≠ none) : c.moved = 0 := by
  cases c with
  | read count got => exact h rfl
  | write rest written =>
    by_contra hw
    exact he (if_pos (Nat.pos_of_ne_zero hw))

theorem Goes.honest (h : Goes s p p') (hp : p.Honest) : p'.Honest := by
  cases h with
  | start => trivial
  | detached => trivial
  | done => exact fun he => absurd rfl he
  | again c err h => exact fun _ => h
  | broken => exact fun he => absurd rfl he
  | blockRead c h => exact fun _ => h
  | blockWrite c h =>
    intro hr
    rw [h] at hr
    cases hr
  | holds => exact hp
  | fails => exact hp
  | signalled => exact hp
  | quiet => exact hp
  | nobody => exact interrupted_moved hp
  | closeStart => trivial
  | closeDetached => trivial
  | woken => exact hp

theorem Takes.honest (h : Takes p p') (hp : p.Honest) : p'.Honest := by
  cases h with
  | call => trivial
  | relock => exact hp
  | close => trivial

theorem Gives.honest (h : Gives p p') (hp : p.Honest) : p'.Honest := by
  cases h with
  | release => exact hp
  | unlock => trivial
  | close => trivial

/-- A task that is not idle is in a call, about to close an end, or in the rest of a close. -/
def Pc.Busy (p : Pc τ α) : Prop :=
  p.inCall ≠ none ∨ p.closes ≠ none ∨ p.destroys = true ∨ p.spares = true

/-- What the references to the ends depend on. -/
structure SameHold (p p' : Pc τ α) : Prop where
  inCall : p'.inCall = p.inCall
  closes : p'.closes = p.closes
  destroys : p'.destroys = p.destroys
  spares : p'.spares = p.spares

theorem Goes.sameHold (h : Goes s p p') (hclose : ∀ e, p.closes = some e → s.attached = true) :
    SameHold p p' := by
  cases h
  case closeDetached e hdet =>
    rw [hclose e rfl] at hdet
    cases hdet
  all_goals exact ⟨rfl, rfl, rfl, rfl⟩

theorem Takes.sameHold (h : Takes p p') : SameHold p p' := by
  cases h <;> exact ⟨rfl, rfl, rfl, rfl⟩

theorem locked_of_spares (h : p.spares = true) : p.locked = true := by
  cases p <;> first | rfl | cases h

theorem inCall_of_waits {e : End} (h : p.waits = some e) : p.inCall = some e := by
  cases p <;> first | exact h | cases h

theorem not_willWake_of_waits {e e' : End} (h : p.waits = some e) : ¬ p.WillWake e' := by
  cases p <;> first | exact id | cases h

theorem locked_of_queued {e e' : End} (hw : p.waits = some e) (h : p.queued = some e') :
    p.locked = true := by
  cases p with
  | wait st c => cases st <;> first | rfl | cases h
  | _ => cases hw

theorem locked_of_willWake {e : End} (h : p.WillWake e) : p.locked = true := by
  cases p <;> first | rfl | exact h.elim

theorem locked_of_wakes {t : τ} (h : t ∈ p.wakes) : p.locked = true := by
  cases p <;> first | rfl | cases h

end Places

section Lock

variable {τ α : Type} [DecidableEq τ] {s s' : State τ α} {t u : τ} {k : Task τ α}

theorem set_tasks (s : State τ α) (t : τ) (k : Task τ α) (u : τ) :
    (s.set t k).tasks u = if u = t then k else s.tasks u :=
  Function.update_apply ..

/-- Changing anything of a task but its place. -/
theorem set_pc (hk : k.pc = (s.tasks t).pc) (u : τ) :
    ((s.set t k).tasks u).pc = (s.tasks u).pc := by
  rw [set_tasks]
  split
  · rename_i hut
    rw [hut]
    exact hk
  · rfl

theorem goto_pc (s : State τ α) (t : τ) (p : Pc τ α) (u : τ) :
    ((s.goto t p).tasks u).pc = if u = t then p else (s.tasks u).pc := by
  unfold State.goto
  rw [set_tasks]
  split
  · rfl
  · rfl

/-- Who is at a locked place holds the lock. -/
def Exclusive (s : State τ α) : Prop := ∀ t, (s.tasks t).pc.locked = true → s.lock = some t

theorem Exclusive.eq (h : Exclusive s) (ht : (s.tasks t).pc.locked = true)
    (hu : (s.tasks u).pc.locked = true) : u = t :=
  Option.some.inj ((h u hu).symm.trans (h t ht))

theorem Exclusive.move (h : Exclusive s) (hl : s'.lock = s.lock)
    (hp : ∀ u, (s'.tasks u).pc.locked = true → (s.tasks u).pc.locked = true) : Exclusive s' := by
  intro u hu
  rw [hl]
  exact h u (hp u hu)

/-- A task at a locked place moves. -/
theorem Exclusive.set (h : Exclusive s) (hl : s'.lock = s.lock)
    (ht : s'.tasks = Function.update s.tasks t k)
    (hk : k.pc.locked = true → (s.tasks t).pc.locked = true) : Exclusive s' := by
  refine h.move hl ?_
  intro u hu
  rw [ht, Function.update_apply] at hu
  split at hu
  · rename_i hut
    rw [hut]
    exact hk hu
  · exact hu

theorem Exclusive.does (h : Exclusive s) (hd : Does s s') : Exclusive s' := by
  cases hd with
  | goes hg => exact h.set rfl rfl hg.locked
  | takes hl hg =>
    intro u hu
    rw [goto_pc] at hu
    split at hu
    · rename_i hut
      rw [hut]
      rfl
    · have := h u hu
      rw [hl] at this
      cases this
  | gives hg =>
    intro u hu
    rw [goto_pc] at hu
    split at hu
    · rw [hg.locked.2] at hu
      cases hu
    · rename_i hut
      exact absurd (h.eq hg.locked.1 hu) hut
  | pop hp => exact h.set rfl rfl fun _ => by rw [hp]; rfl
  | push hp => exact h.set rfl rfl fun _ => by rw [hp]; rfl
  | prepare hp => exact h.set rfl rfl fun _ => by rw [hp]; rfl
  | sleep hp => exact h.set rfl rfl fun hl => by cases hl
  | finish hp => exact h.set rfl rfl fun _ => by rw [hp]; rfl
  | @pass t u c rest hp hq =>
    have hflag : Exclusive ((s.setQueue c.side rest).set u { s.tasks u with woken := true }) :=
      h.set rfl rfl id
    refine hflag.set rfl rfl ?_
    intro _
    rw [set_pc]
    · show (s.tasks t).pc.locked = true
      rw [hp]
      rfl
    · rfl
  | put hp =>
    refine h.set rfl rfl ?_
    intro hl
    split at hl
    · cases hl
    · cases hl
  | @close t e hp =>
    unfold State.closeEnd
    simp only
    split
    · exact h
    · exact h.set rfl rfl fun _ => by rw [hp]; rfl
  | destroy hp =>
    intro u hu
    rw [goto_pc] at hu
    split at hu
    · cases hu
    · rename_i hut
      exact absurd (h.eq (by rw [hp]; rfl) hu) hut
  | free hp => exact h.set rfl rfl fun hl => by cases hl
  | wakeAll hp => exact h.set rfl rfl fun _ => by rw [hp]; rfl
  | @waking t u rest next hp =>
    have hflag : Exclusive (s.set u
        { s.tasks u with state := (s.tasks u).state.unblock, woken := true }) := h.set rfl rfl id
    refine hflag.set rfl rfl ?_
    intro _
    rw [set_pc]
    · rw [hp]
      rfl
    · rfl
  | enter hp => exact h.set rfl rfl fun hl => by cases hl
  | closeFd hp => exact h.set rfl rfl fun hl => by cases hl
  | dup hf => exact h
  | state hst => exact h.set rfl rfl id

/-! ## The buffer -/

structure Data (s : State τ α) : Prop where
  ring : s.ring.Ok bufSize
  fifo : s.written = s.taken ++ s.ring.contents bufSize
  honest : ∀ t, (s.tasks t).pc.Honest

theorem Data.set (h : Data s) (hr : s'.ring = s.ring)
    (hlog : s'.written = s.written ∧ s'.taken = s.taken)
    (ht : s'.tasks = Function.update s.tasks t k)
    (hk : (s.tasks t).pc.Honest → k.pc.Honest) : Data s' where
  ring := by
    rw [hr]
    exact h.ring
  fifo := by
    rw [hlog.1, hlog.2, hr]
    exact h.fifo
  honest u := by
    rw [ht, Function.update_apply]
    split
    · exact hk (h.honest t)
    · exact h.honest u

theorem Data.does (h : Data s) (hd : Does s s') : Data s' := by
  cases hd with
  | goes hg => exact h.set rfl ⟨rfl, rfl⟩ rfl hg.honest
  | takes hl hg => exact h.set rfl ⟨rfl, rfl⟩ rfl hg.honest
  | gives hg => exact h.set rfl ⟨rfl, rfl⟩ rfl hg.honest
  | @pop t count got hp hpos =>
    refine ⟨h.ring.pop hpos, ?_, ?_⟩
    · show s.written = s.taken ++ [s.ring.front] ++ (s.ring.pop bufSize).contents bufSize
      rw [h.fifo, h.ring.contents_pop hpos, List.append_assoc, List.singleton_append]
    · intro u
      rw [goto_pc]
      split
      · trivial
      · exact h.honest u
  | @push t b rest written hp hlt =>
    refine ⟨h.ring.push hlt, ?_, ?_⟩
    · show s.written ++ [b] = s.taken ++ (s.ring.push bufSize b).contents bufSize
      rw [h.fifo, h.ring.contents_push hlt, List.append_assoc]
    · intro u
      rw [goto_pc]
      split
      · trivial
      · exact h.honest u
  | prepare hp => exact h.set rfl ⟨rfl, rfl⟩ rfl fun hh => by rw [hp] at hh; exact hh
  | sleep hp => exact h.set rfl ⟨rfl, rfl⟩ rfl fun hh => by rw [hp] at hh; exact hh
  | @finish t c b p hp hnext =>
    refine h.set rfl ⟨rfl, rfl⟩ rfl ?_
    intro hh
    rw [hp] at hh
    rcases hnext with rfl | rfl | rfl
    · exact hh
    · exact interrupted_moved hh
    · trivial
  | @pass t u c rest hp hq =>
    have hflag : Data ((s.setQueue c.side rest).set u { s.tasks u with woken := true }) :=
      h.set rfl ⟨rfl, rfl⟩ rfl id
    refine hflag.set rfl ⟨rfl, rfl⟩ rfl ?_
    intro _
    have hh := h.honest t
    rw [hp] at hh
    exact interrupted_moved hh
  | @put t e hp =>
    refine h.set rfl ⟨rfl, rfl⟩ rfl ?_
    intro _
    split
    · trivial
    · trivial
  | close hp =>
    unfold State.closeEnd
    simp only
    split
    · exact ⟨h.ring, h.fifo, h.honest⟩
    · exact h.set rfl ⟨rfl, rfl⟩ rfl fun _ => trivial
  | destroy hp => exact h.set rfl ⟨rfl, rfl⟩ rfl fun _ => trivial
  | free hp => exact h.set rfl ⟨rfl, rfl⟩ rfl fun _ => trivial
  | wakeAll hp => exact h.set rfl ⟨rfl, rfl⟩ rfl fun hh => by rw [hp] at hh; exact hh
  | @waking t u rest next hp =>
    have hflag : Data (s.set u
        { s.tasks u with state := (s.tasks u).state.unblock, woken := true }) :=
      h.set rfl ⟨rfl, rfl⟩ rfl id
    refine hflag.set rfl ⟨rfl, rfl⟩ rfl ?_
    intro _
    have hh := h.honest t
    rw [hp] at hh
    exact hh
  | enter hp => exact h.set rfl ⟨rfl, rfl⟩ rfl fun _ => trivial
  | closeFd hp => exact h.set rfl ⟨rfl, rfl⟩ rfl fun _ => trivial
  | dup hf => exact ⟨h.ring, h.fifo, h.honest⟩
  | state hst => exact h.set rfl ⟨rfl, rfl⟩ rfl id

end Lock

/-! ## The ends -/

section Files

variable {τ α : Type} [DecidableEq τ] [Fintype τ] {s s' : State τ α} {t u : τ} {k : Task τ α}
  {e : End}

/-- How many calls on an end are in progress. -/
noncomputable def calls (T : τ → Task τ α) (e : End) : ℕ := ∑ᶠ t, ind ((T t).pc.inCall = some e)

/-- How many tasks are about to close an end. -/
noncomputable def closers (T : τ → Task τ α) (e : End) : ℕ := ∑ᶠ t, ind ((T t).pc.closes = some e)

/-- How many tasks are about to free the pipe. -/
noncomputable def destroyers (T : τ → Task τ α) : ℕ := ∑ᶠ t, ind ((T t).pc.destroys = true)

theorem calls_update (T : τ → Task τ α) (t : τ) (k : Task τ α) (e : End) :
    calls (Function.update T t k) e + ind ((T t).pc.inCall = some e) =
      calls T e + ind (k.pc.inCall = some e) :=
  finsum_update (fun k : Task τ α => ind (k.pc.inCall = some e)) T t k

theorem closers_update (T : τ → Task τ α) (t : τ) (k : Task τ α) (e : End) :
    closers (Function.update T t k) e + ind ((T t).pc.closes = some e) =
      closers T e + ind (k.pc.closes = some e) :=
  finsum_update (fun k : Task τ α => ind (k.pc.closes = some e)) T t k

theorem destroyers_update (T : τ → Task τ α) (t : τ) (k : Task τ α) :
    destroyers (Function.update T t k) + ind ((T t).pc.destroys = true) =
      destroyers T + ind (k.pc.destroys = true) :=
  finsum_update (fun k : Task τ α => ind (k.pc.destroys = true)) T t k

/-- Both ends are closed. -/
def State.Closed (s : State τ α) : Prop := s.ends .read = 0 ∧ s.ends .write = 0

/-- An end is open while there are references to its file, and until whoever took away the
last one has closed it. Exactly one task frees the pipe once both are closed. -/
structure Files (s : State τ α) : Prop where
  refs : ∀ e, s.refs e = s.fds e + calls s.tasks e
  ends : ∀ e, s.ends e = (ind (0 < s.refs e) + closers s.tasks e : ℕ)
  once : ind s.Closed = ind (s.freed = true) + destroyers s.tasks
  spared : ∀ t, (s.tasks t).pc.spares = true → ¬ s.Closed
  detached : s.attached = false → s.Closed
  busy : ∀ t, (s.tasks t).pc = .idle ∨ (s.tasks t).pc.Busy

theorem Files.refs_pos (h : Files s) (ht : (s.tasks t).pc.inCall = some e) : 0 < s.refs e := by
  have hle : ind ((s.tasks t).pc.inCall = some e) ≤ calls s.tasks e :=
    le_finsum (fun t => ind ((s.tasks t).pc.inCall = some e)) t
  rw [ind_pos ht] at hle
  rw [h.refs e]
  omega

theorem closers_pos (ht : (s.tasks t).pc.closes = some e) : 0 < closers s.tasks e := by
  have hle : ind ((s.tasks t).pc.closes = some e) ≤ closers s.tasks e :=
    le_finsum (fun t => ind ((s.tasks t).pc.closes = some e)) t
  rw [ind_pos ht] at hle
  exact hle

theorem destroyers_pos (ht : (s.tasks t).pc.destroys = true) : 0 < destroyers s.tasks := by
  have hle : ind ((s.tasks t).pc.destroys = true) ≤ destroyers s.tasks :=
    le_finsum (fun t => ind ((s.tasks t).pc.destroys = true)) t
  rw [ind_pos ht] at hle
  exact hle

/-- An end with references is open. -/
theorem Files.open_of_refs (h : Files s) (hr : 0 < s.refs e) : s.ends e ≠ 0 := by
  rw [h.ends e, ind_pos hr]
  omega

theorem Files.open_of_closes (h : Files s) (ht : (s.tasks t).pc.closes = some e) :
    s.ends e ≠ 0 := by
  have := closers_pos ht
  rw [h.ends e]
  omega

theorem Files.not_closed (h : s.ends e ≠ 0) : ¬ s.Closed := by
  cases e with
  | read => exact fun hc => h hc.1
  | write => exact fun hc => h hc.2

theorem Files.closed_of_destroys (h : Files s) (ht : (s.tasks t).pc.destroys = true) :
    s.Closed := by
  have hpos := destroyers_pos ht
  apply of_ind_pos
  rw [h.once]
  omega

/-- A task moves: its contributions to the counts are exchanged. -/
theorem Files.change (h : Files s) (ht : s'.tasks = Function.update s.tasks t k)
    (hrefs : ∀ e, s'.refs e + s.fds e + ind ((s.tasks t).pc.inCall = some e) =
      s.refs e + s'.fds e + ind (k.pc.inCall = some e))
    (hends : ∀ e, s'.ends e + ind (0 < s.refs e) + ind ((s.tasks t).pc.closes = some e) =
      s.ends e + ind (0 < s'.refs e) + ind (k.pc.closes = some e))
    (honce : ind s'.Closed + ind (s.freed = true) + ind ((s.tasks t).pc.destroys = true) =
      ind s.Closed + ind (s'.freed = true) + ind (k.pc.destroys = true))
    (hspared : k.pc.spares = true → ¬ s'.Closed)
    (hothers : ∀ u, u ≠ t → (s.tasks u).pc.spares = true → ¬ s.Closed → ¬ s'.Closed)
    (hdetached : s'.attached = false → s'.Closed)
    (hbusy : k.pc = .idle ∨ k.pc.Busy) : Files s' := by
  refine ⟨?_, ?_, ?_, ?_, hdetached, ?_⟩
  · intro e
    have h1 := calls_update s.tasks t k e
    have h2 := h.refs e
    have h3 := hrefs e
    rw [ht]
    omega
  · intro e
    have h1 := closers_update s.tasks t k e
    have h2 := h.ends e
    have h3 := hends e
    rw [ht]
    omega
  · have h1 := destroyers_update s.tasks t k
    have h2 := h.once
    rw [ht]
    omega
  · intro u hu
    rw [ht, Function.update_apply] at hu
    split at hu
    · exact hspared hu
    · rename_i hut
      exact hothers u hut hu (h.spared u hu)
  · intro u
    rw [ht, Function.update_apply]
    split
    · exact hbusy
    · exact h.busy u

/-- A task moves that keeps its references and whatever it is about to close. -/
theorem Files.set (h : Files s) (hr : s'.refs = s.refs) (hf : s'.fds = s.fds)
    (he : s'.ends = s.ends) (hx : s'.freed = s.freed) (ha : s'.attached = s.attached)
    (ht : s'.tasks = Function.update s.tasks t k) (hk : SameHold (s.tasks t).pc k.pc)
    (hidle : (s.tasks t).pc = .idle → k.pc = .idle) : Files s' := by
  have hclosed : s'.Closed ↔ s.Closed := by
    unfold State.Closed
    rw [he]
  refine h.change ht ?_ ?_ ?_ ?_ ?_ ?_ ?_
  · intro e
    rw [hr, hf, hk.inCall]
  · intro e
    rw [he, hr, hk.closes]
  · rw [ind_congr hclosed, hx, hk.destroys]
  · rw [hclosed, hk.spares]
    exact h.spared t
  · intro u _ _
    rw [hclosed]
    exact id
  · rw [hclosed, ha]
    exact h.detached
  · rcases h.busy t with hi | hb
    · exact .inl (hidle hi)
    · unfold Pc.Busy at hb ⊢
      rw [hk.inCall, hk.closes, hk.destroys, hk.spares]
      exact .inr hb

/-- The same for a task that is in the code of the pipe. -/
theorem Files.keep {p : Pc τ α} (h : Files s) (hp : (s.tasks t).pc = p) (hne : p ≠ .idle)
    (hk : SameHold p k.pc) (hr : s'.refs = s.refs) (hf : s'.fds = s.fds)
    (he : s'.ends = s.ends) (hx : s'.freed = s.freed) (ha : s'.attached = s.attached)
    (ht : s'.tasks = Function.update s.tasks t k) : Files s' := by
  subst hp
  exact h.set hr hf he hx ha ht hk fun hi => absurd hi hne

theorem setRefs_refs (s : State τ α) (e e' : End) (n : ℕ) :
    (s.setRefs e n).refs e' = if e' = e then n else s.refs e' :=
  Function.update_apply ..

/-- A call ends, or a descriptor is gone: who takes the last reference will close the end. -/
theorem Files.put (h : Files s) (hp : (s.tasks t).pc = .put e) :
    Files ((s.setRefs e (s.refs e - 1)).goto t
      (if s.refs e = 1 then .closeStart e else .idle)) := by
  have hpos : 0 < s.refs e := h.refs_pos (by rw [hp]; rfl)
  by_cases hlast : s.refs e = 1
  · rw [if_pos hlast]
    refine h.change rfl ?_ ?_ ?_ ?_ ?_ h.detached (.inr (.inr (.inl (by simp [Pc.closes]))))
    · intro e'
      show (s.setRefs e (s.refs e - 1)).refs e' + _ + _ = _ + s.fds e' + _
      rw [hp, setRefs_refs]
      by_cases he : e' = e
      · subst he
        simp [Pc.inCall]
        omega
      · simp [Pc.inCall, he, Ne.symm he]
    · intro e'
      show s.ends e' + _ + _ = s.ends e' + ind (0 < (s.setRefs e (s.refs e - 1)).refs e') + _
      rw [hp, setRefs_refs]
      by_cases he : e' = e
      · subst he
        simp [Pc.closes, hlast]
      · simp [Pc.closes, he, Ne.symm he]
    · rw [hp]
      rfl
    · rintro ⟨⟩
    · exact fun _ _ _ => id
  · rw [if_neg hlast]
    refine h.change rfl ?_ ?_ ?_ ?_ ?_ h.detached (.inl rfl)
    · intro e'
      show (s.setRefs e (s.refs e - 1)).refs e' + _ + _ = _ + s.fds e' + _
      rw [hp, setRefs_refs]
      by_cases he : e' = e
      · subst he
        simp [Pc.inCall]
        omega
      · simp [Pc.inCall, he, Ne.symm he]
    · intro e'
      show s.ends e' + _ + _ = s.ends e' + ind (0 < (s.setRefs e (s.refs e - 1)).refs e') + _
      rw [hp, setRefs_refs]
      by_cases he : e' = e
      · subst he
        rw [if_pos rfl, ind_pos hpos, ind_pos (by omega : 0 < s.refs e' - 1)]
        rfl
      · rw [if_neg he]
        rfl
    · rw [hp]
      rfl
    · rintro ⟨⟩
    · exact fun _ _ _ => id

/-- A call begins: there are references already. -/
theorem Files.enter {c : Call α} (h : Files s) (hp : (s.tasks t).pc = .idle)
    (hf : 0 < s.fds c.side) :
    Files ((s.setRefs c.side (s.refs c.side + 1)).goto t (.start c)) := by
  have hpos : 0 < s.refs c.side := by
    rw [h.refs]
    omega
  refine h.change rfl ?_ ?_ ?_ ?_ ?_ h.detached (.inr (.inl (by simp [Pc.inCall])))
  · intro e'
    show (s.setRefs c.side (s.refs c.side + 1)).refs e' + _ + _ = _ + s.fds e' + _
    rw [hp, setRefs_refs]
    by_cases he : e' = c.side
    · subst he
      simp [Pc.inCall]
      omega
    · simp [Pc.inCall, he, Ne.symm he]
  · intro e'
    show s.ends e' + _ + _ = s.ends e' + ind (0 < (s.setRefs c.side (s.refs c.side + 1)).refs e') + _
    rw [hp, setRefs_refs]
    by_cases he : e' = c.side
    · subst he
      rw [if_pos rfl, ind_pos hpos, ind_pos (Nat.succ_pos _)]
      rfl
    · rw [if_neg he]
      rfl
  · rw [hp]
    rfl
  · rintro ⟨⟩
  · exact fun _ _ _ => id

/-- A descriptor is taken out of its table. -/
theorem Files.closeFd (h : Files s) (hp : (s.tasks t).pc = .idle) (hf : 0 < s.fds e) :
    Files ({ s with fds := Function.update s.fds e (s.fds e - 1) }.goto t (.put e)) := by
  refine h.change rfl ?_ ?_ ?_ ?_ ?_ h.detached (.inr (.inl (by simp [Pc.inCall])))
  · intro e'
    show s.refs e' + s.fds e' + _ = s.refs e' + Function.update s.fds e (s.fds e - 1) e' + _
    rw [hp, Function.update_apply]
    by_cases he : e' = e
    · subst he
      simp [Pc.inCall]
      omega
    · simp [Pc.inCall, he, Ne.symm he]
  · intro e'
    rw [hp]
    rfl
  · rw [hp]
    rfl
  · rintro ⟨⟩
  · exact fun _ _ _ => id

theorem Files.dup (h : Files s) (hf : 0 < s.fds e) :
    Files ({ s with fds := Function.update s.fds e (s.fds e + 1) }.setRefs e (s.refs e + 1)) := by
  have hpos : 0 < s.refs e := by
    rw [h.refs]
    omega
  refine ⟨?_, ?_, h.once, h.spared, h.detached, h.busy⟩
  · intro e'
    show Function.update s.refs e (s.refs e + 1) e' =
      Function.update s.fds e (s.fds e + 1) e' + calls s.tasks e'
    rw [Function.update_apply, Function.update_apply]
    have hr := h.refs e'
    split
    · rename_i he
      subst he
      omega
    · exact hr
  · intro e'
    show s.ends e' = ((ind (0 < Function.update s.refs e (s.refs e + 1) e') + _ : ℕ) : ℤ)
    rw [Function.update_apply, h.ends e']
    split
    · rename_i he
      subst he
      rw [ind_pos hpos, ind_pos (Nat.succ_pos _)]
      rfl
    · rfl

/-- An end is closed, by the only task that may. -/
theorem Files.closeEnd (h : Files s) (hx : Exclusive s) (hp : (s.tasks t).pc = .closing e)
    (hd : Bool) (ends : End → ℤ) (hends : ends = Function.update s.ends e (s.ends e - 1))
    (hdestroy : hd = true ↔ ends .read = 0 ∧ ends .write = 0) :
    Files ({ s with ends := ends }.goto t (.wakeAll .read (.wakeAll .write (.closeUnlock hd)))) := by
  have hopen : s.ends e ≠ 0 := h.open_of_closes (by rw [hp]; rfl)
  have hlock : (s.tasks t).pc.locked = true := by rw [hp]; rfl
  have honce := h.once
  rw [ind_neg (Files.not_closed hopen)] at honce
  refine h.change rfl ?_ ?_ ?_ ?_ ?_ ?_ ?_
  · intro e'
    rw [hp]
    rfl
  · intro e'
    show ends e' + _ + _ = s.ends e' + ind (0 < s.refs e') + _
    rw [hp, hends, Function.update_apply]
    by_cases he : e' = e
    · subst he
      simp [Pc.closes]
      omega
    · simp [Pc.closes, he, Ne.symm he]
  · show ind (ends .read = 0 ∧ ends .write = 0) + ind (s.freed = true) + _ =
      _ + ind (s.freed = true) + ind (hd = true)
    rw [hp, ind_neg (Files.not_closed hopen), ind_congr hdestroy]
    simp [Pc.destroys]
    omega
  · intro hs hc
    have hs : (!hd) = true := hs
    rw [hdestroy.mpr hc] at hs
    cases hs
  · intro u hut hu
    exact absurd (hx.eq hlock (locked_of_spares hu)) hut
  · intro hatt
    exact absurd (h.detached hatt) (Files.not_closed hopen)
  · cases hd with
    | true => exact .inr (.inr (.inr (.inl rfl)))
    | false => exact .inr (.inr (.inr (.inr rfl)))

theorem Files.destroy (h : Files s) (hp : (s.tasks t).pc = .closeUnlock true) :
    Files ({ s with attached := false, lock := none }.goto t .free) := by
  have hclosed : s.Closed := h.closed_of_destroys (by rw [hp]; rfl)
  refine h.change rfl ?_ ?_ ?_ ?_ (fun _ _ _ => id) (fun _ => hclosed)
    (.inr (.inr (.inr (.inl rfl))))
  · intro e'
    rw [hp]
    rfl
  · intro e'
    rw [hp]
    rfl
  · rw [hp]
    rfl
  · rintro ⟨⟩

/-- Nobody else frees the pipe. -/
theorem Files.free (h : Files s) (hp : (s.tasks t).pc = .free) :
    Files ({ s with freed := true }.goto t .idle) := by
  have hdes : (s.tasks t).pc.destroys = true := by rw [hp]; rfl
  have hpos := destroyers_pos hdes
  have honce := h.once
  have hle := ind_le s.Closed
  refine h.change rfl ?_ ?_ ?_ ?_ (fun _ _ _ => id) h.detached (.inl rfl)
  · intro e'
    rw [hp]
    rfl
  · intro e'
    rw [hp]
    rfl
  · show ind s.Closed + ind (s.freed = true) + _ = ind s.Closed + ind (true = true) + _
    rw [ind_pos hdes, ind_pos rfl]
    show _ = _ + ind (false = true)
    have hidle : ind (false = true) = 0 := ind_neg (by decide)
    omega
  · rintro ⟨⟩

theorem Files.spare (h : Files s) (hp : (s.tasks t).pc = .closeUnlock false) :
    Files ({ s with lock := none }.goto t .idle) := by
  refine h.change rfl ?_ ?_ ?_ ?_ (fun _ _ _ => id) h.detached (.inl rfl)
  · intro e'
    rw [hp]
    rfl
  · intro e'
    rw [hp]
    rfl
  · rw [hp]
    rfl
  · rintro ⟨⟩

theorem Files.panic (h : Files s) : Files { s with panicked := true } :=
  ⟨h.refs, h.ends, h.once, h.spared, h.detached, h.busy⟩

/-- Whoever is about to close an end finds the pipe attached. -/
theorem Files.attached_of_closes (h : Files s) (ht : (s.tasks t).pc.closes = some e) :
    s.attached = true := by
  by_contra hatt
  exact Files.not_closed (h.open_of_closes ht) (h.detached (by simpa using hatt))

theorem Files.does (h : Files s) (hx : Exclusive s) (hd : Does s s') : Files s' := by
  cases hd with
  | @goes t p hg =>
    refine h.set rfl rfl rfl rfl rfl rfl (hg.sameHold fun e => h.attached_of_closes) ?_
    intro hi
    rw [hi] at hg
    cases hg
  | @takes t p hl hg =>
    refine h.set rfl rfl rfl rfl rfl rfl hg.sameHold ?_
    intro hi
    rw [hi] at hg
    cases hg
  | @gives t p hg =>
    generalize hp : (s.tasks t).pc = p at hg
    cases hg with
    | release c => exact h.keep hp (by rintro ⟨⟩) ⟨rfl, rfl, rfl, rfl⟩ rfl rfl rfl rfl rfl rfl
    | unlock c err => exact h.keep hp (by rintro ⟨⟩) ⟨rfl, rfl, rfl, rfl⟩ rfl rfl rfl rfl rfl rfl
    | close => exact h.spare hp
  | pop hp => exact h.keep hp (by rintro ⟨⟩) ⟨rfl, rfl, rfl, rfl⟩ rfl rfl rfl rfl rfl rfl
  | push hp => exact h.keep hp (by rintro ⟨⟩) ⟨rfl, rfl, rfl, rfl⟩ rfl rfl rfl rfl rfl rfl
  | prepare hp => exact h.keep hp (by rintro ⟨⟩) ⟨rfl, rfl, rfl, rfl⟩ rfl rfl rfl rfl rfl rfl
  | sleep hp => exact h.keep hp (by rintro ⟨⟩) ⟨rfl, rfl, rfl, rfl⟩ rfl rfl rfl rfl rfl rfl
  | finish hp hnext =>
    refine h.keep hp (by rintro ⟨⟩) ?_ rfl rfl rfl rfl rfl rfl
    rcases hnext with rfl | rfl | rfl
    · exact ⟨rfl, rfl, rfl, rfl⟩
    · exact ⟨rfl, rfl, rfl, rfl⟩
    · exact ⟨rfl, rfl, rfl, rfl⟩
  | @pass t u c rest hp hq =>
    have hflag : Files ((s.setQueue c.side rest).set u { s.tasks u with woken := true }) :=
      h.set rfl rfl rfl rfl rfl rfl ⟨rfl, rfl, rfl, rfl⟩ id
    have hpc : (((s.setQueue c.side rest).set u { s.tasks u with woken := true }).tasks t).pc =
        .pass c := by
      rw [set_pc]
      · exact hp
      · rfl
    exact hflag.keep hpc (by rintro ⟨⟩) ⟨rfl, rfl, rfl, rfl⟩ rfl rfl rfl rfl rfl rfl
  | put hp => exact h.put hp
  | @close t e hp =>
    unfold State.closeEnd
    simp only
    split
    · exact h.panic
    · exact h.closeEnd hx hp _ _ rfl (by simp)
  | destroy hp => exact h.destroy hp
  | free hp => exact h.free hp
  | wakeAll hp => exact h.keep hp (by rintro ⟨⟩) ⟨rfl, rfl, rfl, rfl⟩ rfl rfl rfl rfl rfl rfl
  | @waking t u rest next hp =>
    have hflag : Files (s.set u
        { s.tasks u with state := (s.tasks u).state.unblock, woken := true }) :=
      h.set rfl rfl rfl rfl rfl rfl ⟨rfl, rfl, rfl, rfl⟩ id
    have hpc : ((s.set u { s.tasks u with state := (s.tasks u).state.unblock, woken := true }).tasks
        t).pc = .waking (u :: rest) next := by
      rw [set_pc]
      · exact hp
      · rfl
    exact hflag.keep hpc (by rintro ⟨⟩) ⟨rfl, rfl, rfl, rfl⟩ rfl rfl rfl rfl rfl rfl
  | enter hp hf => exact h.enter hp hf
  | closeFd hp hf => exact h.closeFd hp hf
  | dup hf => exact h.dup hf
  | state hst => exact h.set rfl rfl rfl rfl rfl rfl ⟨rfl, rfl, rfl, rfl⟩ id

end Files

/-! ## The wait queues -/

section Queues

variable {τ α : Type} [DecidableEq τ] {s s' : State τ α} {t u : τ} {k : Task τ α} {e : End}

/-- Who has an entry waits, and who is blocked has an entry or is about to be unblocked. Who
waits although its condition holds is not forgotten. -/
structure Wake (s : State τ α) : Prop where
  nodup : ∀ e, (s.queue e).Nodup
  waits : ∀ e, ∀ t ∈ s.queue e, (s.tasks t).pc.waits = some e
  queued : ∀ t e, (s.tasks t).pc.queued = some e → t ∈ s.queue e
  asleep : ∀ t e, (s.tasks t).pc.sleeps = some e → (s.tasks t).state = .blocked →
    t ∈ s.queue e ∨ ∃ u, t ∈ (s.tasks u).pc.wakes
  noLoss : ∀ e, ∀ t ∈ s.queue e, (s.tasks t).pc.tested = some e → s.Cond e →
    ∃ u, (s.tasks u).pc.WillWake e

theorem Wake.not_queued (h : Wake s) (hw : (s.tasks t).pc.waits = none) (e : End) :
    t ∉ s.queue e := by
  intro hmem
  rw [h.waits e t hmem] at hw
  cases hw

/-- A task moves. It may change the queues, as long as those it takes off are woken, and it
may make a condition true, as long as it wakes the queue. -/
theorem Wake.change (h : Wake s) (ht : s'.tasks = Function.update s.tasks t k)
    (hnodup : ∀ e, (s'.queue e).Nodup)
    (hin : ∀ e, ∀ u ∈ s'.queue e, u ≠ t → u ∈ s.queue e)
    (hout : ∀ e, ∀ u ∈ s.queue e, u ≠ t →
      u ∈ s'.queue e ∨ u ∈ k.pc.wakes ∧ (s.tasks u).pc.queued = none)
    (hwaits : ∀ e, t ∈ s'.queue e → k.pc.waits = some e)
    (hqueued : ∀ e, k.pc.queued = some e → t ∈ s'.queue e)
    (hasleep : ∀ e, k.pc.sleeps = some e → k.state = .blocked →
      t ∈ s'.queue e ∨ ∃ u, t ∈ (s'.tasks u).pc.wakes)
    (hwakes : ∀ u ∈ (s.tasks t).pc.wakes, u ∈ k.pc.wakes ∨ (s.tasks u).state ≠ .blocked)
    (hlost : ∀ e, (s.tasks t).pc.WillWake e → k.pc.WillWake e ∨
      ∀ u ∈ s'.queue e, u ≠ t → (s.tasks u).pc.tested ≠ some e)
    (hcond : ∀ e, s'.Cond e → s.Cond e ∨ k.pc.WillWake e)
    (htested : ∀ e, t ∈ s'.queue e → k.pc.tested = some e → s'.Cond e →
      t ∈ s.queue e ∧ (s.tasks t).pc.tested = some e) : Wake s' := by
  have hself : s'.tasks t = k := by rw [ht, Function.update_self]
  have hother : ∀ u, u ≠ t → s'.tasks u = s.tasks u := by
    intro u hut
    rw [ht, Function.update_of_ne hut]
  refine ⟨hnodup, ?_, ?_, ?_, ?_⟩
  · intro e u hu
    by_cases hut : u = t
    · subst hut
      rw [hself]
      exact hwaits e hu
    · rw [hother u hut]
      exact h.waits e u (hin e u hu hut)
  · intro u e hu
    by_cases hut : u = t
    · subst hut
      rw [hself] at hu
      exact hqueued e hu
    · rw [hother u hut] at hu
      rcases hout e u (h.queued u e hu) hut with hmem | ⟨-, hnone⟩
      · exact hmem
      · rw [hu] at hnone
        cases hnone
  · intro u e hu hb
    by_cases hut : u = t
    · subst hut
      rw [hself] at hu hb
      exact hasleep e hu hb
    · rw [hother u hut] at hu hb
      rcases h.asleep u e hu hb with hmem | ⟨w, hw⟩
      · refine (hout e u hmem hut).imp_right ?_
        rintro ⟨hk, -⟩
        exact ⟨t, by rwa [hself]⟩
      · right
        by_cases hwt : w = t
        · subst hwt
          rcases hwakes u hw with hk | hst
          · exact ⟨w, by rwa [hself]⟩
          · exact absurd hb hst
        · exact ⟨w, by rwa [hother w hwt]⟩
  · intro e u hu htest hc
    have hkeep : ∀ w, (s.tasks w).pc.WillWake e → (w = t → k.pc.WillWake e) →
        ∃ w, (s'.tasks w).pc.WillWake e := by
      intro w hw hwt
      by_cases hwt' : w = t
      · exact ⟨t, by rw [hself]; exact hwt hwt'⟩
      · exact ⟨w, by rwa [hother w hwt']⟩
    rcases hcond e hc with hc' | hk
    · by_cases hut : u = t
      · subst hut
        rw [hself] at htest
        obtain ⟨hmem, hold⟩ := htested e hu htest hc
        obtain ⟨w, hw⟩ := h.noLoss e u hmem hold hc'
        refine hkeep w hw ?_
        rintro rfl
        exact absurd hw (not_willWake_of_waits (h.waits e w hmem))
      · rw [hother u hut] at htest
        obtain ⟨w, hw⟩ := h.noLoss e u (hin e u hu hut) htest hc'
        refine hkeep w hw ?_
        rintro rfl
        rcases hlost e hw with hk | hnone
        · exact hk
        · exact absurd htest (hnone u hu hut)
    · exact ⟨t, by rwa [hself]⟩

/-- The queues stay as they are. -/
theorem Wake.turn (h : Wake s) (ht : s'.tasks = Function.update s.tasks t k)
    (hq : s'.queue = s.queue) (hcond : ∀ e, s'.Cond e → s.Cond e ∨ k.pc.WillWake e)
    (hwaits : ∀ e, t ∈ s.queue e → k.pc.waits = some e)
    (hqueued : ∀ e, k.pc.queued = some e → t ∈ s.queue e)
    (hasleep : ∀ e, k.pc.sleeps = some e → k.state = .blocked →
      t ∈ s.queue e ∨ ∃ u, t ∈ (s'.tasks u).pc.wakes)
    (hwakes : ∀ u ∈ (s.tasks t).pc.wakes, u ∈ k.pc.wakes ∨ (s.tasks u).state ≠ .blocked)
    (hlost : ∀ e, (s.tasks t).pc.WillWake e → k.pc.WillWake e ∨
      ∀ u ∈ s.queue e, u ≠ t → (s.tasks u).pc.tested ≠ some e)
    (htested : ∀ e, t ∈ s.queue e → k.pc.tested = some e → s'.Cond e →
      (s.tasks t).pc.tested = some e) : Wake s' := by
  refine h.change ht ?_ ?_ ?_ ?_ ?_ ?_ hwakes ?_ hcond ?_ <;> rw [hq]
  · exact h.nodup
  · exact fun e u hu _ => hu
  · exact fun e u hu _ => .inl hu
  · exact hwaits
  · exact hqueued
  · exact hasleep
  · exact hlost
  · exact fun e hu htest hc => ⟨hu, htested e hu htest hc⟩

/-- A task moves that is not in a waiting loop. -/
theorem Wake.plain (h : Wake s) (ht : s'.tasks = Function.update s.tasks t k)
    (hq : s'.queue = s.queue) (hcond : ∀ e, s'.Cond e → s.Cond e ∨ k.pc.WillWake e)
    (hw : (s.tasks t).pc.waits = none)
    (hk : k.pc.queued = none ∧ k.pc.sleeps = none ∧ k.pc.tested = none)
    (hwakes : (s.tasks t).pc.wakes = [])
    (hlost : ∀ e, (s.tasks t).pc.WillWake e → k.pc.WillWake e ∨
      ∀ u ∈ s.queue e, u ≠ t → (s.tasks u).pc.tested ≠ some e) : Wake s' := by
  obtain ⟨h1, h2, h3⟩ := hk
  refine h.turn ht hq hcond ?_ ?_ ?_ ?_ hlost ?_
  · exact fun e hu => absurd hu (h.not_queued hw e)
  · intro e hu
    rw [h1] at hu
    cases hu
  · intro e hu
    rw [h2] at hu
    cases hu
  · intro u hu
    rw [hwakes] at hu
    cases hu
  · exact fun e hu => absurd hu (h.not_queued hw e)

/-- A task moves that neither waits nor owes anybody a wake-up, before or afterwards. -/
theorem Wake.aside {p : Pc τ α} (h : Wake s) (hp : (s.tasks t).pc = p)
    (ht : s'.tasks = Function.update s.tasks t k) (hq : s'.queue = s.queue)
    (hcond : ∀ e, s'.Cond e → s.Cond e ∨ k.pc.WillWake e) (hw : p.waits = none)
    (hk : k.pc.queued = none ∧ k.pc.sleeps = none ∧ k.pc.tested = none)
    (hwakes : p.wakes = []) (hnone : ∀ e, ¬ p.WillWake e) : Wake s' := by
  subst hp
  exact h.plain ht hq hcond hw hk hwakes fun e he => absurd he (hnone e)

/-- Nobody waits at an end that is closed. -/
theorem Wake.no_waiter [Fintype τ] (h : Wake s) (hf : Files s) (he : s.ends e = 0) (t : τ) :
    t ∉ s.queue e := by
  intro hmem
  have hin := inCall_of_waits (h.waits e t hmem)
  exact hf.open_of_refs (hf.refs_pos hin) he

/-- A waiter goes on to a place where it still waits. -/
theorem Wake.stage {st st' : Stage} {c : Call α} (h : Wake s)
    (hp : (s.tasks t).pc = .wait st c) (ht : s'.tasks = Function.update s.tasks t k)
    (hk : k.pc = .wait st' c) (hq : s'.queue = s.queue) (hcond : ∀ e, s'.Cond e → s.Cond e)
    (hqueued : k.pc.queued = some c.side → t ∈ s.queue c.side)
    (hasleep : k.pc.sleeps = some c.side → k.state = .blocked →
      t ∈ s.queue c.side ∨ ∃ u, t ∈ (s.tasks u).pc.wakes)
    (htested : k.pc.tested = some c.side → s'.Cond c.side →
      (s.tasks t).pc.tested = some c.side) : Wake s' := by
  have hside : ∀ e, t ∈ s.queue e → c.side = e := by
    intro e hmem
    have := h.waits e t hmem
    rw [hp] at this
    exact Option.some.inj this
  have hown : ∀ {e}, k.pc.queued = some e ∨ k.pc.sleeps = some e → c.side = e := by
    intro e he
    rw [hk] at he
    cases st' <;> rcases he with he | he <;> first | exact Option.some.inj he | cases he
  refine h.turn ht hq (fun e he => .inl (hcond e he)) ?_ ?_ ?_ ?_ ?_ ?_
  · intro e hmem
    rw [hk, ← hside e hmem]
    rfl
  · intro e hu
    obtain rfl := hown (.inl hu)
    exact hqueued hu
  · intro e hu hb
    obtain rfl := hown (.inr hu)
    refine (hasleep hu hb).imp_right ?_
    rintro ⟨u, hu⟩
    refine ⟨u, ?_⟩
    rw [ht, Function.update_of_ne]
    · exact hu
    · rintro rfl
      rw [hp] at hu
      cases hu
  · intro u hu
    rw [hp] at hu
    cases hu
  · intro e hw
    rw [hp] at hw
    exact hw.elim
  · intro e hmem htest hc
    obtain rfl := hside e hmem
    exact htested htest hc

theorem Wake.goes [Fintype τ] {p : Pc τ α} (h : Wake s) (hf : Files s)
    (hg : Goes s (s.tasks t).pc p) : Wake (s.goto t p) := by
  generalize hp : (s.tasks t).pc = q at hg
  have hsame : ∀ e, (s.goto t p).Cond e → s.Cond e := fun e he => he
  cases hg with
  | start c =>
    exact h.aside hp rfl rfl (fun e he => .inl he) rfl ⟨rfl, rfl, rfl⟩ rfl fun e => id
  | detached c hatt =>
    exact h.aside hp rfl rfl (fun e he => .inl he) rfl ⟨rfl, rfl, rfl⟩ rfl fun e => id
  | done c =>
    refine h.plain rfl rfl (fun e he => .inl he) (by rw [hp]; rfl) ⟨rfl, rfl, rfl⟩ (by rw [hp]; rfl) ?_
    rw [hp]
    rintro e ⟨hside, -⟩
    refine .inl (.inl ?_)
    rw [hside]
    cases e <;> rfl
  | again c err hmoved =>
    refine h.plain rfl rfl (fun e he => .inl he) (by rw [hp]; rfl) ⟨rfl, rfl, rfl⟩ (by rw [hp]; rfl) ?_
    rw [hp]
    exact fun e hw => absurd hmoved hw.2
  | broken c hside hends =>
    refine h.plain rfl rfl (fun e he => .inl he) (by rw [hp]; rfl) ⟨rfl, rfl, rfl⟩ (by rw [hp]; rfl) ?_
    rw [hp]
    intro e hw
    right
    intro u hu
    cases e with
    | read => exact absurd hu (h.no_waiter hf hends u)
    | write =>
      have := hw.1
      rw [hside] at this
      cases this
  | blockRead c hmoved =>
    refine h.plain rfl rfl (fun e he => .inl he) (by rw [hp]; rfl) ⟨rfl, rfl, rfl⟩ (by rw [hp]; rfl) ?_
    rw [hp]
    exact fun e hw => absurd hmoved hw.2
  | blockWrite c hside =>
    refine h.plain rfl rfl (fun e he => .inl he) (by rw [hp]; rfl) ⟨rfl, rfl, rfl⟩ (by rw [hp]; rfl) ?_
    rw [hp]
    intro e hw
    refine .inl (.inl ?_)
    have := hw.1
    rw [hside] at this
    cases e with
    | read => rfl
    | write => cases this
  | holds c => exact h.stage hp rfl rfl rfl hsame (by rintro ⟨⟩) (by rintro ⟨⟩) (by rintro ⟨⟩)
  | fails c hcond =>
    refine h.stage hp rfl rfl rfl hsame ?_ (by rintro ⟨⟩) ?_
    · exact fun _ => h.queued t c.side (by rw [hp]; rfl)
    · exact fun _ hc => absurd hc hcond
  | signalled c => exact h.stage hp rfl rfl rfl hsame (by rintro ⟨⟩) (by rintro ⟨⟩) (by rintro ⟨⟩)
  | quiet c =>
    refine h.stage hp rfl rfl rfl hsame ?_ (by rintro ⟨⟩) ?_
    · exact fun _ => h.queued t c.side (by rw [hp]; rfl)
    · exact fun _ _ => by rw [hp]; rfl
  | nobody c =>
    exact h.aside hp rfl rfl (fun e he => .inl he) rfl ⟨rfl, rfl, rfl⟩ rfl fun e => id
  | closeStart e =>
    exact h.aside hp rfl rfl (fun e he => .inl he) rfl ⟨rfl, rfl, rfl⟩ rfl fun e => id
  | closeDetached e hatt =>
    exact h.aside hp rfl rfl (fun e he => .inl he) rfl ⟨rfl, rfl, rfl⟩ rfl fun e => id
  | woken =>
    have hout : ∀ e, t ∉ s.queue e := h.not_queued (by rw [hp]; rfl)
    refine h.turn rfl rfl (fun e he => .inl he) ?_ ?_ ?_ ?_ ?_ ?_
    · exact fun e hu => absurd hu (hout e)
    · intro e hu
      exact h.queued t e (by rw [hp]; exact hu)
    · intro e hu hb
      refine (h.asleep t e (by rw [hp]; exact hu) hb).imp_right ?_
      rintro ⟨u, hu⟩
      refine ⟨u, ?_⟩
      rw [goto_pc, if_neg]
      · exact hu
      · rintro rfl
        rw [hp] at hu
        cases hu
    · intro u hu
      rw [hp] at hu
      cases hu
    · intro e hw
      rw [hp] at hw
      exact .inl hw
    · exact fun e hu => absurd hu (hout e)

theorem Wake.takes {p : Pc τ α} (h : Wake s) (hg : Takes (s.tasks t).pc p) :
    Wake ({ s with lock := some t }.goto t p) := by
  generalize hp : (s.tasks t).pc = q at hg
  cases hg with
  | call c =>
    exact h.aside hp rfl rfl (fun e he => .inl he) rfl ⟨rfl, rfl, rfl⟩ rfl fun e => id
  | relock c =>
    exact h.stage hp rfl rfl rfl (fun e he => he) (by rintro ⟨⟩) (by rintro ⟨⟩) (by rintro ⟨⟩)
  | close e =>
    exact h.aside hp rfl rfl (fun e he => .inl he) rfl ⟨rfl, rfl, rfl⟩ rfl fun e => id

theorem Wake.gives {p : Pc τ α} (h : Wake s) (hg : Gives (s.tasks t).pc p) :
    Wake ({ s with lock := none }.goto t p) := by
  generalize hp : (s.tasks t).pc = q at hg
  cases hg with
  | release c =>
    refine h.stage hp rfl rfl rfl (fun e he => he) (by rintro ⟨⟩) ?_ ?_
    · exact fun _ _ => .inl (h.queued t c.side (by rw [hp]; rfl))
    · exact fun _ _ => by rw [hp]; rfl
  | unlock c err =>
    exact h.aside hp rfl rfl (fun e he => .inl he) rfl ⟨rfl, rfl, rfl⟩ rfl fun e => id
  | close =>
    exact h.aside hp rfl rfl (fun e he => .inl he) rfl ⟨rfl, rfl, rfl⟩ rfl fun e => id

/-- A reader takes a byte and owes the writers a wake-up. -/
theorem Wake.pop {count : ℕ} {got : List α} (h : Wake s)
    (hp : (s.tasks t).pc = .loop (.read count got)) :
    Wake ({ s with ring := s.ring.pop bufSize, taken := s.taken ++ [s.ring.front] }.goto t
      (.loop (.read count (got ++ [s.ring.front])))) := by
  have hmoved : (Call.read count (got ++ [s.ring.front])).moved ≠ 0 := by
    simp [Call.moved]
  refine h.plain rfl rfl ?_ (by rw [hp]; rfl) ⟨rfl, rfl, rfl⟩ (by rw [hp]; rfl) ?_
  · intro e he
    cases e with
    | read =>
      left
      have he : 0 < s.ring.count - 1 ∨ s.ends .write = 0 := he
      exact he.imp_left fun h1 => by omega
    | write => exact .inr ⟨rfl, hmoved⟩
  · rw [hp]
    exact fun e hw => .inl ⟨hw.1, hmoved⟩

/-- A writer puts a byte and owes the readers a wake-up. -/
theorem Wake.push {b : α} {rest : List α} {written : ℕ} (h : Wake s)
    (hp : (s.tasks t).pc = .loop (.write (b :: rest) written)) :
    Wake ({ s with ring := s.ring.push bufSize b, written := s.written ++ [b] }.goto t
      (.loop (.write rest (written + 1)))) := by
  have hmoved : (Call.write rest (written + 1)).moved ≠ 0 := Nat.succ_ne_zero written
  refine h.plain rfl rfl ?_ (by rw [hp]; rfl) ⟨rfl, rfl, rfl⟩ (by rw [hp]; rfl) ?_
  · intro e he
    cases e with
    | read => exact .inr ⟨rfl, hmoved⟩
    | write =>
      left
      have he : s.ring.count + 1 < bufSize ∨ s.ends .read = 0 := he
      exact he.imp_left fun h1 => by omega
  · rw [hp]
    exact fun e hw => .inl ⟨hw.1, hmoved⟩

theorem setQueue_queue (s : State τ α) (e e' : End) (q : List τ) :
    (s.setQueue e q).queue e' = if e' = e then q else s.queue e' :=
  Function.update_apply ..

theorem Wake.prepare {c : Call α} {q : List τ} {w : Bool} (h : Wake s)
    (hp : (s.tasks t).pc = .wait .prepare c)
    (hq : q = s.queue c.side ∧ t ∈ q ∨ q = s.queue c.side ++ [t] ∧ t ∉ s.queue c.side) :
    Wake ((s.setQueue c.side q).set t
      ⟨(s.tasks t).state.setBlocked, (s.tasks t).onCpu, w, .wait .test c⟩) := by
  have hqueue : ∀ e, ((s.setQueue c.side q).set t
      ⟨(s.tasks t).state.setBlocked, (s.tasks t).onCpu, w, .wait .test c⟩).queue e =
      if e = c.side then q else s.queue e := fun e => setQueue_queue s c.side e q
  have hmem : t ∈ q := by
    rcases hq with ⟨-, hmem⟩ | ⟨rfl, -⟩
    · exact hmem
    · exact List.mem_append_right _ List.mem_cons_self
  have hothers : ∀ u, u ≠ t → (u ∈ q ↔ u ∈ s.queue c.side) := by
    intro u hut
    rcases hq with ⟨rfl, -⟩ | ⟨rfl, -⟩
    · exact Iff.rfl
    · simp [hut]
  have hsame : ∀ e u, u ≠ t → (u ∈ (if e = c.side then q else s.queue e) ↔ u ∈ s.queue e) := by
    intro e u hut
    split
    · rename_i he
      rw [he]
      exact hothers u hut
    · exact Iff.rfl
  refine h.change rfl ?_ ?_ ?_ ?_ ?_ (by rintro e ⟨⟩) ?_ ?_ (fun e he => .inl he) (by rintro e - ⟨⟩)
  · intro e
    rw [hqueue]
    split
    · rcases hq with ⟨rfl, -⟩ | ⟨rfl, hnot⟩
      · exact h.nodup _
      · exact List.nodup_append.mpr ⟨h.nodup _, List.nodup_singleton t, by
          rintro x hx y hy rfl
          rw [List.mem_singleton] at hy
          exact hnot (hy ▸ hx)⟩
    · exact h.nodup e
  · intro e u hu hut
    rw [hqueue] at hu
    exact (hsame e u hut).mp hu
  · intro e u hu hut
    rw [hqueue]
    exact .inl ((hsame e u hut).mpr hu)
  · intro e hu
    rw [hqueue] at hu
    split at hu
    · rename_i he
      rw [he]
      rfl
    · have := h.waits e t hu
      rw [hp] at this
      exact this
  · intro e he
    rw [hqueue, if_pos (Option.some.inj he).symm]
    exact hmem
  · intro u hu
    rw [hp] at hu
    cases hu
  · intro e hw
    rw [hp] at hw
    exact hw.elim

theorem Wake.finish {c : Call α} {b : Bool} {p : Pc τ α} (h : Wake s)
    (hp : (s.tasks t).pc = .wait (.finish b) c)
    (hnext : p = .pass c ∨ p = .unlock c c.interrupted ∨ p = .loop c) :
    Wake ((s.setQueue c.side ((s.queue c.side).erase t)).set t
      ⟨(s.tasks t).state.unwait, (s.tasks t).onCpu, (s.tasks t).woken, p⟩) := by
  have hqueue : ∀ e, ((s.setQueue c.side ((s.queue c.side).erase t)).set t
      ⟨(s.tasks t).state.unwait, (s.tasks t).onCpu, (s.tasks t).woken, p⟩).queue e =
      if e = c.side then (s.queue c.side).erase t else s.queue e := fun e => setQueue_queue s c.side e _
  have hsame : ∀ e u, u ∈ (if e = c.side then (s.queue c.side).erase t else s.queue e) ↔
      u ≠ t ∧ u ∈ s.queue e := by
    intro e u
    split
    · rename_i he
      rw [he]
      exact (h.nodup _).mem_erase_iff
    · rename_i he
      refine ⟨fun hu => ⟨?_, hu⟩, fun hu => hu.2⟩
      rintro rfl
      have := h.waits e u hu
      rw [hp] at this
      exact he (Option.some.inj this).symm
  have hplace : p.queued = none ∧ p.sleeps = none ∧ p.tested = none := by
    rcases hnext with rfl | rfl | rfl <;> exact ⟨rfl, rfl, rfl⟩
  obtain ⟨h1, h2, h3⟩ := hplace
  refine h.change rfl ?_ ?_ ?_ ?_ ?_ ?_ ?_ ?_ (fun e he => .inl he) ?_
  · intro e
    rw [hqueue]
    split
    · exact (h.nodup _).erase t
    · exact h.nodup e
  · intro e u hu _
    rw [hqueue, hsame] at hu
    exact hu.2
  · intro e u hu hut
    rw [hqueue, hsame]
    exact .inl ⟨hut, hu⟩
  · intro e hu
    rw [hqueue, hsame] at hu
    exact absurd rfl hu.1
  · intro e hu
    have hu : p.queued = some e := hu
    rw [h1] at hu
    cases hu
  · intro e hu
    have hu : p.sleeps = some e := hu
    rw [h2] at hu
    cases hu
  · intro u hu
    rw [hp] at hu
    cases hu
  · intro e hw
    rw [hp] at hw
    exact hw.elim
  · intro e hu
    rw [hqueue, hsame] at hu
    exact absurd rfl hu.1

/-- Changing the flags of a task, and its state unless that blocks it. -/
theorem Wake.flags (h : Wake s) (ht : s'.tasks = Function.update s.tasks t k)
    (hq : s'.queue = s.queue) (hcond : ∀ e, s'.Cond e → s.Cond e)
    (hk : k.pc = (s.tasks t).pc)
    (hst : k.state = .blocked → (s.tasks t).state = .blocked ∨ (s.tasks t).pc = .idle) :
    Wake s' := by
  refine h.turn ht hq (fun e he => .inl (hcond e he)) ?_ ?_ ?_ ?_ ?_ ?_
  · rw [hk]
    exact fun e => h.waits e t
  · rw [hk]
    exact h.queued t
  · rw [hk]
    intro e he hb
    rcases hst hb with hb | hi
    · refine (h.asleep t e he hb).imp_right ?_
      rintro ⟨u, hu⟩
      refine ⟨u, ?_⟩
      rw [ht, Function.update_apply]
      split
      · rename_i hut
        rw [hut] at hu
        rw [hk]
        exact hu
      · exact hu
    · rw [hi] at he
      cases he
  · rw [hk]
    exact fun u hu => .inl hu
  · rw [hk]
    exact fun e he => .inl he
  · rw [hk]
    exact fun e _ he _ => he

/-- Everybody in the queue is taken off to be unblocked. -/
theorem Wake.wakeAll {next : Pc τ α} (h : Wake s) (hx : Exclusive s)
    (hp : (s.tasks t).pc = .wakeAll e next) :
    Wake ((s.setQueue e []).goto t (.waking (s.queue e) next)) := by
  have hqueue : ∀ e', ((s.setQueue e []).goto t (.waking (s.queue e) next)).queue e' =
      if e' = e then [] else s.queue e' := fun e' => setQueue_queue s e e' []
  have hout : ∀ e, t ∉ s.queue e := h.not_queued (by rw [hp]; rfl)
  refine h.change rfl ?_ ?_ ?_ ?_ ?_ ?_ ?_ ?_ (fun e he => .inl he) ?_
  · intro e'
    rw [hqueue]
    split
    · exact List.nodup_nil
    · exact h.nodup e'
  · intro e' u hu _
    rw [hqueue] at hu
    split at hu
    · cases hu
    · exact hu
  · intro e' u hu hut
    rw [hqueue]
    split
    · rename_i he
      rw [he] at hu
      refine .inr ⟨hu, ?_⟩
      by_contra hq
      obtain ⟨e'', hq⟩ := Option.ne_none_iff_exists'.mp hq
      exact hut (hx.eq (by rw [hp]; rfl) (locked_of_queued (h.waits e u hu) hq))
    · exact .inl hu
  · intro e' hu
    rw [hqueue] at hu
    split at hu
    · cases hu
    · exact absurd hu (hout e')
  · intro e' hu
    exact absurd (h.queued t e' (by rw [hp]; exact hu)) (hout e')
  · intro e' hu hb
    rcases h.asleep t e' (by rw [hp]; exact hu) hb with hmem | ⟨u, hu⟩
    · exact absurd hmem (hout e')
    · refine .inr ⟨u, ?_⟩
      rw [goto_pc, if_neg]
      · exact hu
      · rintro rfl
        rw [hp] at hu
        cases hu
  · intro u hu
    rw [hp] at hu
    cases hu
  · rw [hp]
    rintro e' (rfl | hw)
    · right
      intro u hu
      rw [hqueue, if_pos rfl] at hu
      cases hu
    · exact .inl hw
  · intro e' hu
    rw [hqueue] at hu
    split at hu
    · cases hu
    · exact absurd hu (hout e')

/-- The next one is unblocked. -/
theorem Wake.waking {rest : List τ} {next : Pc τ α} (h : Wake s)
    (hp : (s.tasks t).pc = .waking (u :: rest) next) :
    Wake ((s.set u { s.tasks u with state := (s.tasks u).state.unblock, woken := true }).goto t
      (.waking rest next)) := by
  generalize hs1 : s.set u { s.tasks u with state := (s.tasks u).state.unblock, woken := true } = s1
  have hready : (s1.tasks u).state ≠ .blocked := by
    rw [← hs1, set_tasks, if_pos rfl]
    show (s.tasks u).state.unblock ≠ .blocked
    unfold TaskState.unblock TaskState.cas
    split
    · decide
    · assumption
  have hpc : (s1.tasks t).pc = .waking (u :: rest) next := by
    rw [← hs1, set_pc]
    · exact hp
    · rfl
  have h1 : Wake s1 := by
    subst hs1
    refine h.flags rfl rfl (fun e he => he) rfl ?_
    intro hb
    rw [set_tasks, if_pos rfl] at hready
    exact absurd hb hready
  have hout : ∀ e, t ∉ s1.queue e := h1.not_queued (by rw [hpc]; rfl)
  refine h1.turn rfl rfl (fun e he => .inl he) ?_ ?_ ?_ ?_ ?_ ?_
  · exact fun e hu => absurd hu (hout e)
  · intro e hu
    exact h1.queued t e (by rw [hpc]; exact hu)
  · intro e he hb
    have hb : (s1.tasks t).state = .blocked := hb
    refine (h1.asleep t e (by rw [hpc]; exact he) hb).imp_right ?_
    rintro ⟨w, hw⟩
    refine ⟨w, ?_⟩
    rw [goto_pc]
    split
    · rename_i hwt
      rw [hwt, hpc] at hw
      rcases List.mem_cons.mp hw with rfl | hw
      · exact absurd hb hready
      · exact hw
    · exact hw
  · intro w hw
    rw [hpc] at hw
    rcases List.mem_cons.mp hw with rfl | hw
    · exact .inr hready
    · exact .inl hw
  · intro e hw
    rw [hpc] at hw
    exact .inl hw
  · exact fun e hu => absurd hu (hout e)

/-- The first in the queue is taken off to be unblocked. -/
theorem Wake.pass {c : Call α} {rest : List τ} (h : Wake s) (hx : Exclusive s)
    (hp : (s.tasks t).pc = .pass c) (hq : s.queue c.side = u :: rest) :
    Wake (((s.setQueue c.side rest).set u { s.tasks u with woken := true }).goto t
      (.waking [u] (.unlock c c.interrupted))) := by
  generalize hs1 : s.set u { s.tasks u with woken := true } = s1
  have hpc : (s1.tasks t).pc = .pass c := by
    rw [← hs1, set_pc]
    · exact hp
    · rfl
  have h1 : Wake s1 := by
    subst hs1
    exact h.flags rfl rfl (fun e he => he) rfl .inl
  have hx1 : Exclusive s1 := by
    subst hs1
    exact hx.set rfl rfl id
  have hq1 : s1.queue c.side = u :: rest := by
    subst hs1
    exact hq
  have hstate : ((s.setQueue c.side rest).set u { s.tasks u with woken := true }).goto t
      (.waking [u] (.unlock c c.interrupted)) =
      (s1.setQueue c.side rest).goto t (.waking [u] (.unlock c c.interrupted)) := by
    subst hs1
    rfl
  rw [hstate]
  have hqueue : ∀ e, ((s1.setQueue c.side rest).goto t
      (.waking [u] (.unlock c c.interrupted))).queue e =
      if e = c.side then rest else s1.queue e := fun e => setQueue_queue s1 c.side e rest
  have hout : ∀ e, t ∉ s1.queue e := h1.not_queued (by rw [hpc]; rfl)
  refine h1.change rfl ?_ ?_ ?_ ?_ (by rintro e ⟨⟩) (by rintro e ⟨⟩) ?_ ?_ (fun e he => .inl he)
    (by rintro e - ⟨⟩)
  · intro e
    rw [hqueue]
    split
    · have := h1.nodup c.side
      rw [hq1] at this
      exact (List.nodup_cons.mp this).2
    · exact h1.nodup e
  · intro e w hw _
    rw [hqueue] at hw
    split at hw
    · rename_i he
      rw [he, hq1]
      exact List.mem_cons_of_mem u hw
    · exact hw
  · intro e w hw hwt
    rw [hqueue]
    split
    · rename_i he
      rw [he] at hw
      have hwaits := h1.waits c.side w hw
      rw [hq1] at hw
      rcases List.mem_cons.mp hw with rfl | hw
      · refine .inr ⟨List.mem_singleton_self w, ?_⟩
        by_contra hne
        obtain ⟨e'', hq'⟩ := Option.ne_none_iff_exists'.mp hne
        exact hwt (hx1.eq (by rw [hpc]; rfl) (locked_of_queued hwaits hq'))
      · exact .inl hw
    · exact .inl hw
  · intro e hw
    rw [hqueue] at hw
    refine absurd ?_ (hout e)
    split at hw
    · rename_i he
      rw [he, hq1]
      exact List.mem_cons_of_mem u hw
    · exact hw
  · intro w hw
    rw [hpc] at hw
    cases hw
  · intro e hw
    rw [hpc] at hw
    exact hw.elim

theorem Wake.close (h : Wake s) (hp : (s.tasks t).pc = .closing e) : Wake (s.closeEnd t e) := by
  unfold State.closeEnd
  simp only
  split
  · exact ⟨h.nodup, h.waits, h.queued, h.asleep, h.noLoss⟩
  · refine h.aside hp rfl rfl ?_ rfl ⟨rfl, rfl, rfl⟩ rfl fun e => id
    intro e' _
    right
    cases e' with
    | read => exact .inl rfl
    | write => exact .inr (.inl rfl)

theorem Wake.does [Fintype τ] (h : Wake s) (hx : Exclusive s) (hf : Files s) (hd : Does s s') :
    Wake s' := by
  cases hd with
  | goes hg => exact h.goes hf hg
  | takes hl hg => exact h.takes hg
  | gives hg => exact h.gives hg
  | pop hp => exact h.pop hp
  | push hp => exact h.push hp
  | prepare hp hq => exact h.prepare hp hq
  | @sleep t c hp =>
    refine h.stage hp rfl rfl rfl (fun e he => he) (by rintro ⟨⟩) ?_ ?_
    · intro _ hb
      have hb : (s.tasks t).state.leave = .blocked := hb
      refine h.asleep t c.side (by rw [hp]; rfl) ?_
      unfold TaskState.leave TaskState.cas at hb
      split at hb
      · cases hb
      · exact hb
    · exact fun _ _ => by rw [hp]; rfl
  | finish hp hnext => exact h.finish hp hnext
  | pass hp hq => exact h.pass hx hp hq
  | put hp =>
    refine h.aside hp rfl rfl (fun e he => .inl he) rfl ?_ rfl fun e => id
    show Pc.queued (if _ then _ else _) = none ∧ Pc.sleeps (if _ then _ else _) = none ∧
      Pc.tested (if _ then _ else _) = none
    split <;> exact ⟨rfl, rfl, rfl⟩
  | close hp => exact h.close hp
  | destroy hp =>
    -- nothing of the close is left to be woken
    exact h.aside hp rfl rfl (fun e he => .inl he) rfl ⟨rfl, rfl, rfl⟩ rfl fun e => id
  | free hp => exact h.aside hp rfl rfl (fun e he => .inl he) rfl ⟨rfl, rfl, rfl⟩ rfl fun e => id
  | wakeAll hp => exact h.wakeAll hx hp
  | waking hp => exact h.waking hp
  | enter hp => exact h.aside hp rfl rfl (fun e he => .inl he) rfl ⟨rfl, rfl, rfl⟩ rfl fun e => id
  | closeFd hp => exact h.aside hp rfl rfl (fun e he => .inl he) rfl ⟨rfl, rfl, rfl⟩ rfl fun e => id
  | dup hf => exact ⟨h.nodup, h.waits, h.queued, h.asleep, h.noLoss⟩
  | state hst => exact h.flags rfl rfl (fun e he => he) rfl hst

end Queues

/-! ## Runs -/

section Runs

variable {τ α : Type} [DecidableEq τ] [Fintype τ] {s s' : State τ α} {t : τ} {a : Act τ α}

structure Inv (s : State τ α) : Prop where
  lock : Exclusive s
  data : Data s
  files : Files s
  wake : Wake s
  calm : s.panicked = false

/-- The check in `pipe_close` does not fail: a waiter keeps its end open. -/
theorem Inv.closeEnd_calm {e : End} (h : Inv s) (hp : (s.tasks t).pc = .closing e) :
    (s.closeEnd t e).panicked = false := by
  have hopen : ∀ e', s.queue e' ≠ [] → Function.update s.ends e (s.ends e - 1) e' ≠ 0 := by
    intro e' hne
    obtain ⟨u, hu⟩ := List.exists_mem_of_ne_nil _ hne
    have hrefs := h.files.refs_pos (inCall_of_waits (h.wake.waits e' u hu))
    exact (h.files.closeEnd h.lock hp _ _ rfl (decide_eq_true_iff)).open_of_refs hrefs
  unfold State.closeEnd
  simp only
  split
  · rename_i hpanic
    obtain ⟨hdestroy, hne⟩ := hpanic
    obtain ⟨hr, hw⟩ := of_decide_eq_true hdestroy
    rcases hne with hne | hne
    · exact absurd hr (hopen .read hne)
    · exact absurd hw (hopen .write hne)
  · exact h.calm

theorem Inv.step (h : Inv s) (hs : s.step a = some s') : Inv s' := by
  obtain ⟨-, hd⟩ := step_cases hs
  refine ⟨h.lock.does hd, h.data.does hd, h.files.does h.lock hd,
    h.wake.does h.lock h.files hd, ?_⟩
  cases hd with
  | close hp => exact h.closeEnd_calm hp
  | _ => exact h.calm

theorem Inv.start (h : s.Start) : Inv s where
  lock t ht := by
    rw [h.idle t] at ht
    cases ht
  data := by
    obtain ⟨hhead, htail, hcount⟩ := h.empty
    refine ⟨⟨?_, ?_, ?_⟩, ?_, ?_⟩
    · rw [hhead, htail, hcount]
      rfl
    · rw [htail]
      decide
    · rw [hcount]
      exact Nat.zero_le _
    · rw [h.written, h.taken]
      unfold RingBuffer.contents
      rw [hcount]
      rfl
    · intro t
      rw [h.idle t]
      trivial
  files := by
    obtain ⟨hatt, hfreed, -⟩ := h.flags
    have hopen : ¬ s.Closed := by
      intro hc
      have := hc.1
      rw [h.ends] at this
      cases this
    refine ⟨?_, ?_, ?_, ?_, ?_, fun t => .inl (h.idle t)⟩
    · intro e
      have hzero : calls s.tasks e = 0 := finsum_eq_zero fun t => by
        rw [h.idle t]
        exact ind_neg (by rintro ⟨⟩)
      rw [h.refs, h.fds, hzero]
    · intro e
      have hzero : closers s.tasks e = 0 := finsum_eq_zero fun t => by
        rw [h.idle t]
        exact ind_neg (by rintro ⟨⟩)
      rw [h.ends, h.refs, hzero, ind_pos Nat.one_pos]
      rfl
    · have hzero : destroyers s.tasks = 0 := finsum_eq_zero fun t => by
        rw [h.idle t]
        exact ind_neg (by rintro ⟨⟩)
      rw [ind_neg hopen, hzero, hfreed]
      exact (ind_neg (by decide)).symm
    · exact fun _ _ => hopen
    · intro hdet
      rw [hatt] at hdet
      cases hdet
  wake := by
    refine ⟨?_, ?_, ?_, ?_, ?_⟩
    · intro e
      rw [h.queue e]
      exact List.nodup_nil
    · intro e t ht
      rw [h.queue e] at ht
      cases ht
    · intro t e ht
      rw [h.idle t] at ht
      cases ht
    · intro t e ht
      rw [h.idle t] at ht
      cases ht
    · intro e t ht
      rw [h.queue e] at ht
      cases ht
  calm := h.flags.2.2

/-- After the pipe is freed nobody is in its code. -/
theorem Files.idle_of_freed (h : Files s) (hfreed : s.freed = true) :
    s.Closed ∧ ∀ t, (s.tasks t).pc = .idle := by
  have honce := h.once
  have hle := ind_le s.Closed
  rw [ind_pos hfreed] at honce
  have hclosed : s.Closed := of_ind_pos (by omega)
  refine ⟨hclosed, ?_⟩
  intro t
  rcases h.busy t with hidle | hbusy
  · exact hidle
  exfalso
  rcases hbusy with hin | hcl | hd | hs
  · obtain ⟨e, he⟩ := Option.ne_none_iff_exists'.mp hin
    exact Files.not_closed (h.open_of_refs (h.refs_pos he)) hclosed
  · obtain ⟨e, he⟩ := Option.ne_none_iff_exists'.mp hcl
    exact Files.not_closed (h.open_of_closes he) hclosed
  · have := destroyers_pos hd
    omega
  · exact h.spared t hs hclosed

/-- Once both ends are closed, the pipe is freed or somebody is about to free it. -/
theorem Files.freed_of_closed (h : Files s) (hclosed : s.Closed) :
    s.freed = true ∨ ∃ t, (s.tasks t).pc.destroys = true := by
  by_contra hno
  obtain ⟨hfreed, hnone⟩ := not_or.mp hno
  have hzero : destroyers s.tasks = 0 :=
    finsum_eq_zero fun t => ind_neg fun ht => hnone ⟨t, ht⟩
  have honce := h.once
  rw [ind_pos hclosed, ind_neg hfreed, hzero] at honce
  cases honce

theorem Inv.sound (h : Inv s) : s.Sound where
  fifo := h.data.fifo
  indices := ⟨h.data.ring.head, h.data.ring.count⟩
  failed t c err hp := by
    have := h.data.honest t
    rw [hp] at this
    exact this (by rintro ⟨⟩)
  noLoss t c hasleep hcond := by
    obtain ⟨hblocked, hpc⟩ := hasleep
    have hplace : (s.tasks t).pc.sleeps = some c.side ∧ (s.tasks t).pc.tested = some c.side := by
      rcases hpc with hpc | hpc <;> rw [hpc] <;> exact ⟨rfl, rfl⟩
    rcases h.wake.asleep t c.side hplace.1 hblocked with hmem | ⟨u, hu⟩
    · obtain ⟨u, hu⟩ := h.wake.noLoss c.side t hmem hplace.2 hcond
      exact ⟨u, h.lock u (locked_of_willWake hu), .inl hu⟩
    · exact ⟨u, h.lock u (locked_of_wakes hu), .inr hu⟩
  freed hfreed := by
    obtain ⟨hclosed, hidle⟩ := h.files.idle_of_freed hfreed
    exact ⟨hclosed.1, hclosed.2, hidle⟩
  closed hr hw := by
    refine ⟨?_, h.files.freed_of_closed ⟨hr, hw⟩⟩
    intro e
    have hends : s.ends e = 0 := by
      cases e with
      | read => exact hr
      | write => exact hw
    exact List.eq_nil_iff_forall_not_mem.mpr (h.wake.no_waiter h.files hends)
  calm := h.calm

end Runs

/-- A pipe that two tasks can use. -/
def fresh : State Bool ℕ where
  ring := ⟨fun _ => 0, 0, 0, 0⟩
  written := []
  taken := []
  lock := none
  queue _ := []
  ends _ := 1
  refs _ := 1
  fds _ := 1
  attached := true
  freed := false
  panicked := false
  tasks _ := ⟨.running, true, false, .idle⟩

theorem fresh_start : fresh.Start where
  empty := ⟨rfl, rfl, rfl⟩
  written := rfl
  taken := rfl
  queue _ := rfl
  ends _ := rfl
  refs _ := rfl
  fds _ := rfl
  flags := ⟨rfl, rfl, rfl⟩
  idle _ := rfl

end Perspicua.Fs.Pipe
