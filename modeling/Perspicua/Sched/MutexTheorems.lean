import Perspicua.Sched.Mutex

/-!
# No wake-up of the mutex is lost

The mutex has at most one holder, and it is never free while a waiter sleeps on its queue
unless somebody is about to wake a waiter or a woken waiter has yet to try the mutex. The
second half is an invariant about who is responsible: a task that frees the mutex until it
has taken a waiter off the queue, and from then on that waiter, until it tries the mutex.
-/

namespace Perspicua.Sched.Mutex

open Perspicua.Lib

/-- A task at such a place may have an entry in the queue. -/
@[grind]
def Pc.waiting : Pc → Bool
  | .prepare | .test | .sleep | .finish => true
  | _ => false

/-- A task at such a place will test the mutex before it leaves `kmutex_lock`. -/
@[grind]
def Pc.retries : Pc → Bool
  | .prepare | .test | .sleep => true
  | _ => false

theorem Pc.retries_of_waiting {p : Pc} (h : p.waiting = true) (hf : p ≠ .finish) :
    p.retries = true := by
  cases p <;> simp_all [Pc.waiting, Pc.retries]

/-- A waiter whose last test failed and which is blocked. -/
def State.Asleep (s : State) (t : ℕ) : Prop :=
  (s.tasks t).state = .blocked ∧ ((s.tasks t).pc = .sleep ∨ (s.tasks t).pc = .prepare)

/-- Somebody will see to it that a waiter tries the mutex. -/
def State.Covered (s : State) : Prop :=
  (∃ u, (s.tasks u).pc = .wake) ∨ ∃ u, (s.tasks u).owed = true

structure Inv (s : State) : Prop where
  owned : ∀ t, s.owner = some t → 0 < s.depth ∧ (s.tasks t).locks = s.depth
  other : ∀ t, s.owner ≠ some t → (s.tasks t).locks = 0
  free : s.owner = none → s.depth = 0
  nodup : s.queue.Nodup
  linked : ∀ t ∈ s.queue, (s.tasks t).pc.waiting = true
  finish : ∀ t, (s.tasks t).pc = .finish → s.owner = some t
  owed : ∀ t, (s.tasks t).owed = true → (s.tasks t).state = .blocked →
    (s.tasks t).pc = .test ∨ ∃ u, (s.tasks u).pc = .waking t
  owedAt : ∀ t, (s.tasks t).owed = true → (s.tasks t).pc.waiting = true
  waker : ∀ t e, (s.tasks t).pc = .waking e → e ≠ t
  noLoss : s.depth = 0 → ∀ t ∈ s.queue, s.Asleep t → s.Covered

namespace State

variable (s : State) (t u : ℕ) (k : Task)

@[simp, grind =] theorem set_tasks : (s.set t k).tasks u = if u = t then k else s.tasks u :=
  Function.update_apply ..

@[simp, grind =] theorem set_depth : (s.set t k).depth = s.depth := rfl

@[simp, grind =] theorem set_owner : (s.set t k).owner = s.owner := rfl

@[simp, grind =] theorem set_queue : (s.set t k).queue = s.queue := rfl

end State

variable {s s' : State} {t e : ℕ} {k : Task} {d : ℕ}

theorem Inv.start (h : s.Start) : Inv s where
  owned t ht := by rw [h.owner] at ht; cases ht
  other t _ := (h.tasks t).2.1
  free _ := h.depth
  nodup := by rw [h.queue]; exact List.nodup_nil
  linked t ht := by rw [h.queue] at ht; cases ht
  finish t ht := by rw [(h.tasks t).1] at ht; cases ht
  owed t ht := by rw [(h.tasks t).2.2] at ht; cases ht
  owedAt t ht := by rw [(h.tasks t).2.2] at ht; cases ht
  waker t e ht := by rw [(h.tasks t).1] at ht; cases ht
  noLoss _ t ht := by rw [h.queue] at ht; cases ht

/-- A task that changes nothing but its own record. What it owes to others stays: a waker
that has not reached the queue yet, and a woken waiter while the mutex is free. -/
theorem Inv.setTask (h : Inv s) (hlocks : k.locks = (s.tasks t).locks)
    (hlinked : t ∈ s.queue → k.pc.waiting = true) (hfinish : k.pc = .finish → s.owner = some t)
    (howed : k.owed = true → k.state = .blocked → k.pc = .test ∨ ∃ u, (s.tasks u).pc = .waking t)
    (howedAt : k.owed = true → k.pc.waiting = true)
    (hwaking : ∀ e, (s.tasks t).pc = .waking e → (s.tasks e).state = .blocked → k.pc = .waking e)
    (hnew : ∀ e, k.pc = .waking e → (s.tasks t).pc = .waking e)
    (hwake : s.depth = 0 → s.queue ≠ [] → (s.tasks t).pc = .wake → k.pc = .wake)
    (hkeep : s.depth = 0 → (s.tasks t).owed = true → k.owed = true)
    (hsleep : s.depth = 0 → t ∈ s.queue → k.state = .blocked → k.pc = .sleep ∨ k.pc = .prepare → s.Asleep t) :
    Inv (s.set t k) where
  owned u hu := by grind -ring -linarith [h.owned u hu]
  other u hu := by grind -ring -linarith [h.other u hu]
  free := h.free
  nodup := h.nodup
  linked u hu := by grind -ring -linarith [h.linked u hu]
  finish u hu := by grind -ring -linarith [h.finish u]
  owed u ho hb := by
    -- the waker of `u` is still there: if it is `t`, it keeps its place
    have hmove : (∃ w, (s.tasks w).pc = .waking u) → ∃ w, ((s.set t k).tasks w).pc = .waking u := by
      rintro ⟨w, hw⟩
      have := h.waker w u hw
      exact ⟨w, by grind -ring -linarith⟩
    by_cases hut : u = t
    · subst hut
      simp only [State.set_tasks, if_true] at ho hb
      rw [State.set_tasks, if_pos rfl]
      exact (howed ho hb).imp_right hmove
    · rw [State.set_tasks, if_neg hut] at ho hb ⊢
      exact (h.owed u ho hb).imp_right hmove
  owedAt u hu := by grind -ring -linarith [h.owedAt u]
  waker u e hu := by grind -ring -linarith [h.waker u e]
  noLoss hd u hu ha := by
    have hs : s.Asleep u := by
      by_cases hut : u = t
      · subst hut
        apply hsleep hd hu
        · simpa using ha.1
        · simpa using ha.2
      · simpa [State.Asleep, hut] using ha
    obtain ⟨w, hw⟩ | ⟨w, hw⟩ := h.noLoss hd u hu hs
    · have hne : s.queue ≠ [] := List.ne_nil_of_mem hu
      exact .inl ⟨w, by grind -ring -linarith⟩
    · exact .inr ⟨w, by grind -ring -linarith⟩

/-- Whoever takes the mutex discharges every debt: a free mutex is what is owed for. -/
theorem Inv.acquire (h : Inv s) (hd : s.tryLock t = some d)
    (hroom : s.owner = some t → s.depth + 1 < 2 ^ 32)
    (hlocks : k.locks = (s.tasks t).locks + 1)
    (hlinked : t ∈ s.queue → k.pc.waiting = true) (hplace : ∀ e, (s.tasks t).pc ≠ .waking e)
    (hnew : ∀ e, k.pc ≠ .waking e) (howedAt : k.owed = true → k.pc.waiting = true)
    (howed : k.owed = true → k.state = .blocked → ∃ u, (s.tasks u).pc = .waking t) :
    Inv ({ s with depth := d, owner := some t }.set t k) := by
  -- the mutex was free, or `t` had it
  have hcase : (s.depth = 0 ∧ d = 1) ∨ (s.owner = some t ∧ d = s.depth + 1) := by
    unfold State.tryLock at hd
    by_cases h0 : s.depth = 0
    · rw [if_pos h0] at hd
      exact .inl ⟨h0, (Option.some.inj hd).symm⟩
    · rw [if_neg h0] at hd
      by_cases ho : s.owner = some t
      · rw [if_pos ho, Nat.mod_eq_of_lt (hroom ho)] at hd
        exact .inr ⟨ho, (Option.some.inj hd).symm⟩
      · rw [if_neg ho] at hd
        cases hd
  -- nobody but `t` holds anything
  have hother : ∀ u, u ≠ t → (s.tasks u).locks = 0 := by
    intro u hu
    obtain ⟨h0, -⟩ | ⟨ho, -⟩ := hcase
    · by_cases hou : s.owner = some u
      · have := (h.owned u hou).1
        omega
      · exact h.other u hou
    · exact h.other u (by rw [ho]; simpa using Ne.symm hu)
  have hmine : (s.tasks t).locks + 1 = d := by
    obtain ⟨h0, rfl⟩ | ⟨ho, rfl⟩ := hcase
    · by_cases ho : s.owner = some t
      · have := (h.owned t ho).1
        omega
      · rw [h.other t ho]
    · rw [(h.owned t ho).2]
  have hpos : 0 < d := by omega
  exact {
    owned := by
      intro u hu
      obtain rfl : t = u := by simpa using hu
      simpa using ⟨hpos, hlocks.trans hmine⟩
    other := by
      intro u hu
      have hut : u ≠ t := by simpa [eq_comm] using hu
      simpa [hut] using hother u hut
    free := by simp
    nodup := h.nodup
    linked := by
      intro u hu
      have := h.linked u hu
      grind -ring -linarith
    finish := by
      intro u hu
      by_cases hut : u = t
      · rw [hut]
        rfl
      · -- another waiter at the end of its wait would hold the mutex as well
        have hf : (s.tasks u).pc = .finish := by simpa [hut] using hu
        have hl := h.owned u (h.finish u hf)
        have := hother u hut
        omega
    owed := by
      intro u ho hb
      have hmove : (∃ w, (s.tasks w).pc = .waking u) → ∃ w, (({ s with depth := d, owner := some t } :
          State).set t k |>.tasks w).pc = .waking u := by
        rintro ⟨w, hw⟩
        have hwt : w ≠ t := by
          rintro rfl
          exact hplace u hw
        exact ⟨w, by simpa [hwt] using hw⟩
      by_cases hut : u = t
      · subst hut
        simp only [State.set_tasks, if_true] at ho hb
        exact .inr (hmove (howed ho hb))
      · rw [State.set_tasks, if_neg hut] at ho hb ⊢
        exact (h.owed u ho hb).imp_right hmove
    owedAt := by
      intro u hu
      have := h.owedAt u
      grind -ring -linarith
    waker := by
      intro u e hu
      have := h.waker u e
      grind -ring -linarith
    noLoss := by
      intro h0
      simp only [State.set_depth] at h0
      omega }

/-- Taking an entry off the queue or putting one in leaves the debts alone. -/
theorem Inv.requeue {q : List ℕ} (h : Inv s) (hnodup : q.Nodup)
    (hlinked : ∀ u ∈ q, (s.tasks u).pc.waiting = true)
    (hsleep : ∀ u ∈ q, s.Asleep u → u ∈ s.queue) : Inv { s with queue := q } where
  owned := h.owned
  other := h.other
  free := h.free
  nodup := hnodup
  linked := hlinked
  finish := h.finish
  owed := h.owed
  owedAt := h.owedAt
  waker := h.waker
  noLoss hd u hu ha := h.noLoss hd u (hsleep u hu ha) ha

theorem Inv.setQueueLocked (h : Inv s) (b : Bool) : Inv { s with queueLocked := b } := by
  obtain ⟨h1, h2, h3, h4, h5, h6, h7, h8, h9, h10⟩ := h
  exact ⟨h1, h2, h3, h4, h5, h6, h7, h8, h9, h10⟩

/-! ## The steps of `kmutex_lock` -/

theorem State.depth_of_tryLock_none (h : s.tryLock t = none) : s.depth ≠ 0 := by
  intro h0
  rw [State.tryLock, if_pos h0] at h
  cases h

theorem Inv.not_queued (h : Inv s) (hpc : (s.tasks t).pc.waiting = false) : t ∉ s.queue := by
  intro ht
  rw [h.linked t ht] at hpc
  cases hpc

theorem Inv.tryLock (h : Inv s) (hpc : (s.tasks t).pc = .tryLock)
    (hroom : s.owner = some t → s.depth + 1 < 2 ^ 32) (hs : s.advance t = some s') : Inv s' := by
  have hq : t ∉ s.queue := h.not_queued (by rw [hpc]; rfl)
  have how := h.owed t
  have hat := h.owedAt t
  simp only [State.advance, hpc] at hs
  split at hs
  case h_1 d hd =>
    cases hs
    apply h.acquire hd hroom <;> grind -ring -linarith
  case h_2 hd =>
    cases hs
    have h0 := State.depth_of_tryLock_none hd
    apply h.setTask <;> grind -ring -linarith

theorem Inv.prepare (h : Inv s) (hpc : (s.tasks t).pc = .prepare) (hs : s.advance t = some s') :
    Inv s' := by
  simp only [State.advance, hpc] at hs
  split at hs
  · cases hs
  cases hs
  have h1 : Inv (s.set t { s.tasks t with pc := .test, state := (s.tasks t).state.setBlocked }) := by
    apply h.setTask <;> grind -ring -linarith
  apply h1.requeue
  · -- the entry goes in once
    split
    · exact h.nodup
    · rename_i ht
      exact List.nodup_append.mpr ⟨h.nodup, List.pairwise_singleton _ t, by grind -ring -linarith⟩
  · intro u hu
    have := h.linked u
    grind -ring -linarith
  · intro u hu ha
    have hut : u ≠ t := by
      rintro rfl
      simp [State.Asleep] at ha
    grind -ring -linarith

theorem Inv.test (h : Inv s) (hpc : (s.tasks t).pc = .test)
    (hroom : s.owner = some t → s.depth + 1 < 2 ^ 32) (hs : s.advance t = some s') : Inv s' := by
  simp only [State.advance, hpc] at hs
  split at hs
  case h_1 d hd =>
    cases hs
    apply h.acquire hd hroom <;> grind -ring -linarith
  case h_2 hd =>
    cases hs
    have h0 := State.depth_of_tryLock_none hd
    apply h.setTask <;> grind -ring -linarith

theorem Inv.sleep (h : Inv s) (hpc : (s.tasks t).pc = .sleep) (hs : s.advance t = some s') :
    Inv s' := by
  have how := h.owed t
  have hat := h.owedAt t
  simp only [State.advance, hpc] at hs
  cases hs
  apply h.setTask <;> grind -ring -linarith [State.Asleep, TaskState.leave, TaskState.cas]

theorem Inv.finished (h : Inv s) (hpc : (s.tasks t).pc = .finish) (hs : s.advance t = some s') :
    Inv s' := by
  simp only [State.advance, hpc] at hs
  split at hs
  · cases hs
  cases hs
  have h1 : Inv { s with queue := s.queue.erase t } :=
    h.requeue (h.nodup.erase t) (fun u hu => h.linked u (List.mem_of_mem_erase hu))
      (fun u hu _ => List.mem_of_mem_erase hu)
  have hq : t ∉ s.queue.erase t := h.nodup.not_mem_erase
  have hd := (h.owned t (h.finish t hpc)).1
  apply h1.setTask <;> grind -ring -linarith [TaskState.unwait, TaskState.cas]

/-! ## The steps of `kmutex_unlock` -/

theorem Inv.ne_head {rest : List ℕ} (h : Inv s) (hpc : (s.tasks t).pc = .wake)
    (hq : s.queue = e :: rest) : e ≠ t := by
  rintro rfl
  exact h.not_queued (by rw [hpc]; rfl) (hq ▸ List.mem_cons_self)

/-- The debt passes from the waker to the waiter it takes off the queue. -/
theorem Inv.handOver {rest : List ℕ} (h : Inv s) (hpc : (s.tasks t).pc = .wake)
    (hq : s.queue = e :: rest) :
    Inv (({ s with queue := rest, queueLocked := true }.set e
      { s.tasks e with owed := true }).set t { s.tasks t with pc := .waking e }) where
  owned u hu := by grind -ring -linarith [h.owned u hu]
  other u hu := by grind -ring -linarith [h.other u hu]
  free := h.free
  nodup := (List.nodup_cons.mp (hq ▸ h.nodup)).2
  linked u hu := by
    have hut : u ≠ t := by
      rintro rfl
      exact h.not_queued (by rw [hpc]; rfl) (hq ▸ List.mem_cons_of_mem e hu)
    grind -ring -linarith [h.linked u]
  finish u hu := by grind -ring -linarith [h.finish u]
  owed u ho hb := by
    have hmove : (∃ w, (s.tasks w).pc = .waking u) → ∃ w, ((({ s with queue := rest, queueLocked := true } :
        State).set e { s.tasks e with owed := true }).set t
          { s.tasks t with pc := .waking e } |>.tasks w).pc = .waking u := by
      rintro ⟨w, hw⟩
      exact ⟨w, by grind -ring -linarith⟩
    by_cases hue : u = e
    · exact .inr ⟨t, by simp [hue]⟩
    · have := h.owed u
      grind -ring -linarith
  owedAt u hu := by
    have := h.linked e (hq ▸ List.mem_cons_self)
    have := h.ne_head hpc hq
    have := h.owedAt t
    grind -ring -linarith [h.owedAt u]
  waker u e' hu := by
    have het := h.ne_head hpc hq
    grind -ring -linarith [h.waker u e']
  noLoss _ _ _ _ := .inr ⟨e, by simp [h.ne_head hpc hq]⟩

theorem Inv.wake (h : Inv s) (hpc : (s.tasks t).pc = .wake) (hs : s.advance t = some s') :
    Inv s' := by
  simp only [State.advance, hpc] at hs
  split at hs
  · cases hs
  split at hs
  case h_1 hq =>
    -- nobody waits, so nobody is owed a wake-up
    cases hs
    have how := h.owed t
    have hat := h.owedAt t
    apply h.setTask <;> grind -ring -linarith
  case h_2 e rest hq =>
    cases hs
    exact h.handOver hpc hq

theorem Inv.waking (h : Inv s) (hpc : (s.tasks t).pc = .waking e) (hs : s.advance t = some s') :
    Inv s' := by
  have het : e ≠ t := h.waker t e hpc
  have hq : t ∉ s.queue := h.not_queued (by rw [hpc]; rfl)
  simp only [State.advance, hpc] at hs
  cases hs
  have h1 : Inv ({ s with queueLocked := false }.set e
      { s.tasks e with state := (s.tasks e).state.unblock }) := by
    have hl := h.linked e
    have hf := h.finish e
    have hat := h.owedAt e
    apply (h.setQueueLocked false).setTask <;>
      grind -ring -linarith [State.Asleep, TaskState.unblock, TaskState.cas]
  have how := h1.owed t
  have hat := h1.owedAt t
  apply h1.setTask <;> grind -ring -linarith [TaskState.unblock, TaskState.cas]

/-- Giving up one of several locks. -/
theorem Inv.release (h : Inv s) (ho : s.owner = some t) (hd : s.depth > 1) :
    Inv ({ s with depth := s.depth - 1 }.set t
      { s.tasks t with locks := (s.tasks t).locks - 1 }) where
  owned u hu := by
    have := h.owned u hu
    grind -ring -linarith
  other u hu := by grind -ring -linarith [h.other u hu]
  free := by simp [ho]
  nodup := h.nodup
  linked u hu := by grind -ring -linarith [h.linked u hu]
  finish u hu := by grind -ring -linarith [h.finish u]
  owed u hou hb := by
    have hmove : (∃ w, (s.tasks w).pc = .waking u) → ∃ w, (({ s with depth := s.depth - 1 } :
        State).set t { s.tasks t with locks := (s.tasks t).locks - 1 } |>.tasks w).pc = .waking u := by
      rintro ⟨w, hw⟩
      exact ⟨w, by grind -ring -linarith⟩
    have := h.owed u
    grind -ring -linarith
  owedAt u hu := by grind -ring -linarith [h.owedAt u]
  waker u e hu := by grind -ring -linarith [h.waker u e]
  noLoss h0 := by
    simp only [State.set_depth] at h0
    omega

/-- Giving up the last lock: from here on the task owes a wake-up. -/
theorem Inv.releaseLast (h : Inv s) (hpc : (s.tasks t).pc = .idle) (ho : s.owner = some t)
    (hd : s.depth = 1) :
    Inv ({ s with depth := 0, owner := none }.set t
      { s.tasks t with pc := .wake, locks := (s.tasks t).locks - 1 }) where
  owned u hu := by simp at hu
  other u _ := by
    have h1 := (h.owned t ho).2
    have h2 := h.other u
    grind -ring -linarith
  free _ := rfl
  nodup := h.nodup
  linked u hu := by
    have hut : u ≠ t := by
      rintro rfl
      exact h.not_queued (by rw [hpc]; rfl) hu
    grind -ring -linarith [h.linked u hu]
  finish u hu := by
    -- whoever is at the end of a wait holds the mutex, and `t` held it alone
    have := h.finish u
    grind -ring -linarith
  owed u hou hb := by
    have hmove : (∃ w, (s.tasks w).pc = .waking u) → ∃ w, (({ s with depth := 0, owner := none } :
        State).set t { s.tasks t with pc := .wake, locks := (s.tasks t).locks - 1 } |>.tasks w).pc =
          .waking u := by
      rintro ⟨w, hw⟩
      exact ⟨w, by grind -ring -linarith⟩
    have := h.owed u
    grind -ring -linarith
  owedAt u hu := by
    have := h.owedAt t
    grind -ring -linarith [h.owedAt u]
  waker u e hu := by grind -ring -linarith [h.waker u e]
  noLoss _ _ _ _ := .inl ⟨t, by simp⟩

theorem Inv.unlock (h : Inv s) (hpc : (s.tasks t).pc = .idle) : Inv (s.unlock t) := by
  unfold State.unlock
  by_cases hheld : s.depth = 0 ∨ s.owner ≠ some t
  · rw [if_pos hheld]
    obtain ⟨h1, h2, h3, h4, h5, h6, h7, h8, h9, h10⟩ := h
    exact ⟨h1, h2, h3, h4, h5, h6, h7, h8, h9, h10⟩
  rw [if_neg hheld]
  obtain ⟨hd, ho⟩ := not_or.mp hheld
  have ho : s.owner = some t := not_not.mp ho
  by_cases h1 : s.depth > 1
  · rw [if_pos h1]
    exact h.release ho h1
  · rw [if_neg h1]
    exact h.releaseLast hpc ho (by omega)

/-! ## Runs -/

theorem Inv.advance (h : Inv s) (hroom : s.Shallow (.advance t)) (hs : s.advance t = some s') :
    Inv s' := by
  have hlock : (s.tasks t).pc = .tryLock ∨ (s.tasks t).pc = .test →
      s.owner = some t → s.depth + 1 < 2 ^ 32 := fun hp ho => hroom ⟨hp, ho⟩
  cases hpc : (s.tasks t).pc with
  | idle => simp [State.advance, hpc] at hs
  | tryLock => exact h.tryLock hpc (hlock (.inl hpc)) hs
  | prepare => exact h.prepare hpc hs
  | test => exact h.test hpc (hlock (.inr hpc)) hs
  | sleep => exact h.sleep hpc hs
  | finish => exact h.finished hpc hs
  | wake => exact h.wake hpc hs
  | waking e => exact h.waking hpc hs

/-- A step that changes the state of a task and nothing else keeps the invariant unless it
blocks the task. -/
theorem Inv.setState {st : TaskState} {b : Bool} (h : Inv s)
    (hst : st = .blocked → (s.tasks t).state = .blocked) :
    Inv (s.set t { s.tasks t with state := st, onCpu := b }) := by
  have hl := h.linked t
  have hf := h.finish t
  have how := h.owed t
  have hat := h.owedAt t
  apply h.setTask <;> grind -ring -linarith [State.Asleep]

theorem Inv.step {a : Act} (h : Inv s) (hroom : s.Shallow a) (hs : s.step a = some s') :
    Inv s' := by
  unfold State.step at hs
  split at hs
  · cases hs
  cases a with
  | lock t =>
    simp only [Option.ite_none_right_eq_some, Option.some.injEq] at hs
    obtain ⟨⟨-, hpc⟩, rfl⟩ := hs
    have hq : t ∉ s.queue := h.not_queued (by rw [hpc]; rfl)
    have how := h.owed t
    have hat := h.owedAt t
    apply h.setTask <;> grind -ring -linarith
  | unlock t =>
    simp only [Option.ite_none_right_eq_some, Option.some.injEq] at hs
    obtain ⟨⟨-, hpc⟩, rfl⟩ := hs
    exact h.unlock hpc
  | advance t =>
    simp only [Option.ite_none_right_eq_some] at hs
    exact h.advance hroom hs.2
  | signal t =>
    cases hs
    exact h.setState (b := (s.tasks t).onCpu) (by unfold TaskState.unblock TaskState.cas; grind -ring -linarith)
  | elsewhere t st =>
    simp only [Option.ite_none_right_eq_some, Option.some.injEq] at hs
    obtain ⟨⟨-, hpc⟩, rfl⟩ := hs
    have hq : t ∉ s.queue := h.not_queued (by rw [hpc]; rfl)
    have hat := h.owedAt t
    apply h.setTask <;> grind -ring -linarith
  | preempt t =>
    simp only [Option.ite_none_right_eq_some, Option.some.injEq] at hs
    obtain ⟨-, rfl⟩ := hs
    exact h.setState (by unfold TaskState.leave TaskState.cas; grind -ring -linarith)
  | dispatch t =>
    simp only [Option.ite_none_right_eq_some, Option.some.injEq] at hs
    obtain ⟨-, rfl⟩ := hs
    exact h.setState (by simp)

theorem Inv.run {as : List Act} (h : Inv s)
    (hr : Run (Guarded State.Shallow (Moves State.step)) s as s') : Inv s' :=
  hr.invariant Inv (fun _ _ _ hi hs => hi.step hs.1 hs.2) h

/-- What the mutex promises: one holder, whose locks the depth counts, and no lost wake-up.
A blocked waiter of a free mutex is about to test the mutex, or somebody is on the way to
wake a waiter, or a woken waiter has still to test and nothing keeps it asleep. -/
structure State.Sound (s : State) : Prop where
  exclusive : ∀ t u, 0 < (s.tasks t).locks → 0 < (s.tasks u).locks → t = u
  counted : ∀ t, 0 < (s.tasks t).locks → s.owner = some t ∧ s.depth = (s.tasks t).locks
  unheld : (∀ t, (s.tasks t).locks = 0) → s.depth = 0
  noLoss : s.depth = 0 → ∀ t ∈ s.queue, (s.tasks t).state = .blocked →
    (s.tasks t).pc = .test ∨ (∃ u, (s.tasks u).pc = .wake) ∨
    ∃ u, (s.tasks u).owed = true ∧ (s.tasks u).pc.retries = true ∧
      ((s.tasks u).state = .blocked → (s.tasks u).pc = .test ∨ ∃ w, (s.tasks w).pc = .waking u)

theorem Inv.owner_of_locks (h : Inv s) (hl : 0 < (s.tasks t).locks) : s.owner = some t := by
  by_contra ho
  have := h.other t ho
  omega

theorem Inv.sound (h : Inv s) : s.Sound where
  exclusive t u ht hu := by
    have := (h.owner_of_locks ht).symm.trans (h.owner_of_locks hu)
    exact Option.some.inj this
  counted t ht := ⟨h.owner_of_locks ht, (h.owned t (h.owner_of_locks ht)).2.symm⟩
  unheld hall := by
    cases ho : s.owner with
    | none => exact h.free ho
    | some t => rw [← (h.owned t ho).2, hall t]
  noLoss hd t ht hb := by
    by_cases hpc : (s.tasks t).pc = .test
    · exact .inl hpc
    -- a waiter at the end of its wait would hold the mutex
    have hfinish : ∀ u, (s.tasks u).pc ≠ .finish := by
      intro u hf
      have := (h.owned u (h.finish u hf)).1
      omega
    have ha : s.Asleep t := ⟨hb, by grind -ring -linarith [h.linked t ht, hfinish t]⟩
    obtain hw | ⟨u, hu⟩ := h.noLoss hd t ht ha
    · exact .inr (.inl hw)
    · have hat := h.owedAt u hu
      exact .inr (.inr ⟨u, hu, Pc.retries_of_waiting hat (hfinish u), h.owed u hu⟩)

/-- In every run that takes no lock at the greatest depth the counter can hold, the mutex
keeps its promises in every state reached. -/
theorem kmutex_run_sound {as : List Act} (h : s.Start)
    (hr : Run (Guarded State.Shallow (Moves State.step)) s as s') : s'.Sound :=
  ((Inv.start h).run hr).sound

/-- A free mutex and tasks that all run, each on a core of its own. -/
def fresh : State where
  depth := 0
  owner := none
  queue := []
  queueLocked := false
  tasks _ := { state := .running, onCpu := true, pc := .idle, locks := 0, owed := false }
  panicked := false

theorem fresh_start : fresh.Start := ⟨rfl, rfl, rfl, rfl, fun _ => ⟨rfl, rfl, rfl⟩⟩

/-- Task 1 waits for task 0, which frees the mutex and has not woken it yet. -/
theorem kmutex_run_sound_contended : ∃ s, Run (Guarded State.Shallow (Moves State.step)) fresh
    [.lock 0, .advance 0, .lock 1, .advance 1, .advance 1, .advance 1, .advance 1, .unlock 0] s ∧
    (s.depth = 0 ∧ s.queue = [1] ∧ (s.tasks 1).state = .blocked ∧ (s.tasks 1).pc = .prepare) ∧
    s.Sound := by
  have h : (execGuarded State.Shallow State.step fresh
      [.lock 0, .advance 0, .lock 1, .advance 1, .advance 1, .advance 1, .advance 1, .unlock 0]).any
      (fun s => decide (s.depth = 0 ∧ s.queue = [1] ∧ (s.tasks 1).state = .blocked ∧
        (s.tasks 1).pc = .prepare)) = true := by
    decide +kernel
  obtain ⟨s, hr, hs⟩ := exists_run_of_execGuarded h
  exact ⟨s, hr, of_decide_eq_true hs, kmutex_run_sound fresh_start hr⟩

/-! ## The depth at its greatest value -/

/-- A `kmutex_lock` that succeeds at once. -/
theorem run_lock {n : ℕ} (hc : s.panicked = false)
    (ht : s.tasks t = ⟨.running, true, .idle, n, false⟩) (hd : s.tryLock t = some d) :
    Run (Moves State.step) s [.lock t, .advance t] ({ s with depth := d, owner := some t }.set t
      ⟨.running, true, .idle, n + 1, false⟩) := by
  have h1 : Moves State.step s (.lock t) (s.set t ⟨.running, true, .tryLock, n, false⟩) := by
    simp [Moves, State.step, hc, ht]
  refine .cons h1 (.single ?_)
  have hd' : (s.set t ⟨.running, true, .tryLock, n, false⟩).tryLock t = some d := hd
  simp only [Moves, State.step, State.advance, hd', State.set_tasks]
  simp [State.set, hc]

/-- Task 0 has called `kmutex_lock` `n` times, and task 1 has not called it. -/
structure State.Nested (s : State) (n : ℕ) : Prop where
  calm : s.panicked = false
  depth : s.depth = n % 2 ^ 32
  owner : s.depth ≠ 0 → s.owner = some 0
  first : s.tasks 0 = ⟨.running, true, .idle, n, false⟩
  second : s.tasks 1 = ⟨.running, true, .idle, 0, false⟩

theorem State.Nested.tryLock {n : ℕ} (h : s.Nested n) : s.tryLock 0 = some ((n + 1) % 2 ^ 32) := by
  unfold State.tryLock
  by_cases h0 : s.depth = 0
  · rw [if_pos h0]
    have := h.depth
    congr 1
    omega
  · rw [if_neg h0, if_pos (h.owner h0), h.depth, Nat.mod_add_mod]

theorem exists_run_nested (n : ℕ) : ∃ as s, Run (Moves State.step) fresh as s ∧ s.Nested n := by
  induction n with
  | zero => exact ⟨[], fresh, .nil _, ⟨rfl, rfl, fun h => absurd rfl h, rfl, rfl⟩⟩
  | succ n ih =>
    obtain ⟨as, s, hr, hn⟩ := ih
    have hlock := run_lock hn.calm hn.first hn.tryLock
    exact ⟨_, _, hr.append hlock, ⟨hn.calm, rfl, fun _ => rfl, by simp, by simpa using hn.second⟩⟩

/-- The counter wraps: after `2 ^ 32` nested calls the mutex looks free while task 0 holds
it, and task 1 takes it as well. -/
theorem kmutex_two_holders : ∃ as s, Run (Moves State.step) fresh as s ∧
    0 < (s.tasks 0).locks ∧ 0 < (s.tasks 1).locks := by
  obtain ⟨as, s, hr, hn⟩ := exists_run_nested (2 ^ 32)
  have hd : s.depth = 0 := by rw [hn.depth, Nat.mod_self]
  have hlock := run_lock hn.calm hn.second (if_pos hd)
  exact ⟨_, _, hr.append hlock, by simp [hn.first], by simp⟩

end Perspicua.Sched.Mutex
