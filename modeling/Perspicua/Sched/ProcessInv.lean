import Perspicua.Sched.Process

/-!
# The family of processes

What `process_fork`, `process_exit` and `process_waitpid` keep of the process table: who is in
it, who is whose parent, and who has been reaped. Of a process this needs only its `Face`; most
steps change none, and the others are the nine steps below.
-/

namespace Perspicua.Sched.Process

open Perspicua.Lib
open Perspicua.Core.Signals (SigSet sigkill sigcont isStop)

/-- A stage in the life of a process. -/
inductive Phase
  | unborn
  | live
  | building (child : ℕ)                        -- in `process_fork`, with a child in the table
  | dead                                        -- before its children are given to init
  | closed                                      -- after that
  | zombie
deriving DecidableEq

def Pc.phase : Pc → Phase
  | .unborn => .unborn
  | .idle | .fork | .dying _ | .wait _ | .waiting _ | .asleep _ => .live
  | .forked c _ => .building c
  | .reparent _ => .dead
  | .publish .. => .closed
  | .notify .. | .wake .. | .notifyInit | .wakeInit | .leave | .gone => .zombie

theorem unborn_of_phase {pc : Pc} (h : pc.phase = .unborn) : pc = .unborn := by
  cases pc <;> first | rfl | cases h

/-- The state of the process in each phase. -/
@[grind]
def Phase.state : Phase → ProcState
  | .unborn | .live | .building .. => .running
  | .dead | .closed => .dead
  | .zombie => .zombie

/-- The process has a task and is in the table. -/
@[grind]
def Phase.home : Phase → Bool
  | .live | .building .. | .dead | .closed => true
  | .unborn | .zombie => false

/-- The process can still be a parent. -/
@[grind]
def Phase.rears : Phase → Bool
  | .live | .building .. | .dead => true
  | .unborn | .closed | .zombie => false

/-- The part of a process that the family depends on. -/
structure Face where
  pid : ℕ
  parent : ℕ
  kin : ℕ
  state : ProcState
  mainTask : Bool
  phase : Phase

def Proc.face (q : Proc) : Face where
  pid := q.pid
  parent := q.parent
  kin := q.kin
  state := q.state
  mainTask := q.mainTask
  phase := q.pc.phase

/-- The processes, the table, the number of PCBs and the reaped children fit together. -/
structure Family (f : ℕ → Face) (table : ℕ → Option ℕ) (next : ℕ) (reaps : List Reap) : Prop where
  fresh : ∀ q, next ≤ q → (f q).phase = .unborn ∧ (∀ i, table i ≠ some q) ∧ ∀ r ∈ reaps, r.child ≠ q
  slot : ∀ i q, table i = some q → (f q).pid = i ∧ i < tableSize
  state : ∀ q, (f q).state = (f q).phase.state
  home : ∀ q, (f q).phase.home = true → table (f q).pid = some q
  task : ∀ q, (f q).phase = .live → (f q).mainTask = true
  building : ∀ p c, (f p).phase = .building c →
    (f p).mainTask = true ∧ (f c).phase = .unborn ∧ table (f c).pid = some c ∧ c ≠ 0
  unique : ∀ p p' c, (f p).phase = .building c → (f p').phase = .building c → p = p'
  kernel : table 0 = some 0 ∧ (f 0).phase = .unborn ∧ (f 0).parent = 0
  init : table 1 = some 1 ∧ (f 1).parent = 0 ∧ (f 1).phase ≠ .unborn ∧ ∀ q, (f q).pid = 1 → q = 1
  self : ∀ i q, table i = some q → (f q).parent ≠ 0 → (f q).parent ≠ (f q).pid
  kin : ∀ i q, table i = some q → (f q).parent ≠ 0 →
    table (f q).parent = some (f q).kin ∧ ((f q).kin = 1 ∨ (f (f q).kin).phase.rears = true)
  zombie : ∀ q, (f q).phase = .zombie → table (f q).pid = some q ∨ ∃ r ∈ reaps, r.child = q
  reaped : ∀ r ∈ reaps, (∀ i, table i ≠ some r.child) ∧ (f r.child).phase = .zombie ∧
    (f r.child).kin = r.reaper
  nodup : (reaps.map Reap.child).Nodup

namespace Family

variable {f : ℕ → Face} {table : ℕ → Option ℕ} {next : ℕ} {reaps : List Reap} {p c : ℕ}

theorem inj (h : Family f table next reaps) {i j q : ℕ} (hi : table i = some q)
    (hj : table j = some q) : i = j := by
  rw [← (h.slot i q hi).1, ← (h.slot j q hj).1]

/-- A process with a task is not the kernel. -/
theorem pid_ne_zero (h : Family f table next reaps) (hp : (f p).phase.home = true) :
    (f p).pid ≠ 0 := by
  intro h0
  have hhome := h.home p hp
  rw [h0, h.kernel.1] at hhome
  cases hhome
  rw [h.kernel.2.1] at hp
  cases hp

/-- A process moves on to another phase. -/
theorem turn {k : Face} (h : Family f table next reaps)
    (hk : k.pid = (f p).pid ∧ k.parent = (f p).parent ∧ k.kin = (f p).kin)
    (hstate : k.state = k.phase.state)
    (hold : (f p).phase ≠ .unborn) (hnew : k.phase ≠ .unborn)
    (hhome : k.phase.home = true → (f p).phase.home = true)
    (htask : k.phase = .live → k.mainTask = true)
    (hbuild : ∀ c, k.phase = .building c → k.mainTask = true ∧ (f c).phase = .unborn ∧
      table (f c).pid = some c ∧ c ≠ 0 ∧ ∀ p', (f p').phase = .building c → p' = p)
    (hrears : (f p).phase.rears = true → k.phase.rears = true ∨ p = 1 ∨
      ∀ i q, table i = some q → (f q).parent ≠ 0 → (f q).kin ≠ p)
    (hzombie : k.phase = .zombie → table (f p).pid = some p ∨ ∃ r ∈ reaps, r.child = p)
    (hreaped : (f p).phase = .zombie → k.phase = .zombie) :
    Family (Function.update f p k) table next reaps := by
  have hkeep : ∀ q, (Function.update f p k q).pid = (f q).pid ∧
      (Function.update f p k q).parent = (f q).parent ∧ (Function.update f p k q).kin = (f q).kin := by
    intro q
    by_cases hq : q = p
    · subst q
      rw [Function.update_self]
      exact hk
    · rw [Function.update_of_ne hq]
      exact ⟨rfl, rfl, rfl⟩
  constructor
  · intro q hq
    have := h.fresh q hq
    grind -ring -linarith [Function.update_apply]
  · intro i q hi
    rw [(hkeep q).1]
    exact h.slot i q hi
  · intro q
    have := h.state q
    grind -ring -linarith [Function.update_apply]
  · intro q hq
    rw [(hkeep q).1]
    have := h.home q
    grind -ring -linarith [Function.update_apply]
  · intro q hq
    have := h.task q
    grind -ring -linarith [Function.update_apply]
  · intro r c hr
    rw [(hkeep c).1]
    have := h.building r c
    have := hbuild c
    grind -ring -linarith [Function.update_apply]
  · intro r r' c hr hr'
    have h1 := h.unique r r' c
    have h2 := hbuild c
    have h3 := h.building r c
    grind -ring -linarith [Function.update_apply]
  · obtain ⟨h1, h2, h3⟩ := h.kernel
    refine ⟨h1, ?_, ?_⟩
    · grind -ring -linarith [Function.update_apply]
    · rw [(hkeep 0).2.1]
      exact h3
  · obtain ⟨h1, h2, h3, h4⟩ := h.init
    refine ⟨h1, ?_, ?_, fun q hq => ?_⟩
    · rw [(hkeep 1).2.1]
      exact h2
    · grind -ring -linarith [Function.update_apply]
    · rw [(hkeep q).1] at hq
      exact h4 q hq
  · intro i q hi
    rw [(hkeep q).1, (hkeep q).2.1]
    exact h.self i q hi
  · intro i q hi hne
    rw [(hkeep q).2.1] at hne
    rw [(hkeep q).2.1, (hkeep q).2.2]
    have := h.kin i q hi hne
    refine ⟨this.1, ?_⟩
    by_cases hkp : (f q).kin = p
    · rw [hkp, Function.update_self]
      have := hrears
      grind -ring -linarith
    · rw [Function.update_of_ne hkp]
      exact this.2
  · intro q hq
    rw [(hkeep q).1]
    have := h.zombie q
    grind -ring -linarith [Function.update_apply]
  · intro r hr
    rw [(hkeep r.child).2.2]
    have := h.reaped r hr
    grind -ring -linarith [Function.update_apply]
  · exact h.nodup

/-- A fresh PCB is published in a free slot. -/
theorem claim {i : ℕ} {k : Face} (h : Family f table next reaps) (hi : table i = none)
    (hsize : i < tableSize) (hpid : k.pid = i) (hparent : k.parent = 0) (hstate : k.state = .running)
    (hphase : k.phase = .unborn) :
    Family (Function.update f next k) (Function.update table i (some next)) (next + 1) reaps := by
  obtain ⟨hunborn, hfree, hreaps⟩ := h.fresh next (Nat.le_refl _)
  have hne : ∀ j q, table j = some q → q ≠ next ∧ j ≠ i := by
    intro j q hj
    constructor
    · rintro rfl
      exact hfree j hj
    · rintro rfl
      rw [hi] at hj
      cases hj
  constructor
  · intro q hq
    have := h.fresh q (by omega)
    grind -ring -linarith [Function.update_apply]
  · intro j q hj
    have := h.slot j q
    grind -ring -linarith [Function.update_apply]
  · intro q
    have := h.state q
    grind -ring -linarith [Function.update_apply]
  · intro q hq
    have := h.home q
    grind -ring -linarith [Function.update_apply]
  · intro q
    have := h.task q
    grind -ring -linarith [Function.update_apply]
  · intro p c hp
    have := h.building p c
    grind -ring -linarith [Function.update_apply]
  · intro p p' c
    have := h.unique p p' c
    grind -ring -linarith [Function.update_apply]
  · have := h.kernel
    grind -ring -linarith [Function.update_apply]
  · obtain ⟨h1, h2, h3, h4⟩ := h.init
    have := hne 1 1 h1
    refine ⟨?_, ?_, ?_, fun q => ?_⟩
    · grind -ring -linarith [Function.update_apply]
    · grind -ring -linarith [Function.update_apply]
    · grind -ring -linarith [Function.update_apply]
    · have := h4 q
      grind -ring -linarith [Function.update_apply]
  · intro j q hj
    have := h.self j q
    grind -ring -linarith [Function.update_apply]
  · intro j q hj
    have := h.kin j q
    have := hne (f q).parent (f q).kin
    grind -ring -linarith [Function.update_apply]
  · intro q hq
    have := h.zombie q
    grind -ring -linarith [Function.update_apply]
  · intro r hr
    have h1 := h.reaped r hr
    have h2 := hreaps r hr
    refine ⟨fun j => ?_, ?_, ?_⟩
    · have := h1.1 j
      grind -ring -linarith [Function.update_apply]
    · grind -ring -linarith [Function.update_apply]
    · grind -ring -linarith [Function.update_apply]
  · exact h.nodup

/-- The child learns who its parent is. -/
theorem adopt (h : Family f table next reaps) (hp : (f p).phase = .building c) :
    Family (Function.update f c { f c with parent := (f p).pid, kin := p }) table next reaps := by
  obtain ⟨-, hc, htable, hc0⟩ := h.building p c hp
  have hhome := h.home p (by rw [hp]; rfl)
  have hpc : p ≠ c := by
    rintro rfl
    rw [hp] at hc
    cases hc
  have hrears : (f p).phase.rears = true := by
    rw [hp]
    rfl
  have hkeep : ∀ q, (Function.update f c { f c with parent := (f p).pid, kin := p } q).pid = (f q).pid ∧
      (Function.update f c { f c with parent := (f p).pid, kin := p } q).phase = (f q).phase ∧
      (Function.update f c { f c with parent := (f p).pid, kin := p } q).mainTask = (f q).mainTask ∧
      (Function.update f c { f c with parent := (f p).pid, kin := p } q).state = (f q).state := by
    intro q
    by_cases hq : q = c
    · subst q
      simp
    · simp [hq]
  constructor
  · intro q
    rw [(hkeep q).2.1]
    exact h.fresh q
  · intro i q
    rw [(hkeep q).1]
    exact h.slot i q
  · intro q
    rw [(hkeep q).2.1, (hkeep q).2.2.2]
    exact h.state q
  · intro q
    rw [(hkeep q).2.1, (hkeep q).1]
    exact h.home q
  · intro q
    rw [(hkeep q).2.1, (hkeep q).2.2.1]
    exact h.task q
  · intro r d
    rw [(hkeep r).2.1, (hkeep r).2.2.1, (hkeep d).2.1, (hkeep d).1]
    exact h.building r d
  · intro r r' d
    rw [(hkeep r).2.1, (hkeep r').2.1]
    exact h.unique r r' d
  · rw [Function.update_of_ne hc0.symm]
    exact h.kernel
  · obtain ⟨h1, h2, h3, h4⟩ := h.init
    refine ⟨h1, ?_, ?_, fun q hq => ?_⟩
    · grind -ring -linarith [Function.update_apply]
    · rw [(hkeep 1).2.1]
      exact h3
    · rw [(hkeep q).1] at hq
      exact h4 q hq
  · intro i q hi hne
    rw [(hkeep q).1]
    by_cases hq : q = c
    · -- two processes of the table have different pids
      subst q
      simp only [Function.update_self]
      intro heq
      rw [heq, htable] at hhome
      exact hpc (Option.some.inj hhome).symm
    · rw [Function.update_of_ne hq] at hne ⊢
      exact h.self i q hi hne
  · intro i q hi hne
    by_cases hq : q = c
    · subst q
      rw [Function.update_self]
      exact ⟨hhome, .inr (by rw [(hkeep p).2.1]; exact hrears)⟩
    · rw [Function.update_of_ne hq] at hne ⊢
      rw [(hkeep _).2.1]
      exact h.kin i q hi hne
  · intro q
    rw [(hkeep q).2.1, (hkeep q).1]
    exact h.zombie q
  · intro r hr
    have hrc : r.child ≠ c := by
      rintro rfl
      exact (h.reaped r hr).1 _ htable
    rw [Function.update_of_ne hrc]
    exact h.reaped r hr
  · exact h.nodup

/-- The task of a child is created. -/
theorem birth {k : Face} (h : Family f table next reaps)
    (hk : k.pid = (f c).pid ∧ k.parent = (f c).parent ∧ k.kin = (f c).kin)
    (hphase : k.phase = .live) (hstate : k.state = .running) (htask : k.mainTask = true)
    (hc : (f c).phase = .unborn) (hc0 : c ≠ 0) (htable : table (f c).pid = some c)
    (hnone : ∀ p, (f p).phase ≠ .building c) :
    Family (Function.update f c k) table next reaps := by
  have hlt : c < next := by
    by_contra hge
    exact (h.fresh c (by omega)).2.1 _ htable
  have hkeep : ∀ q, (Function.update f c k q).pid = (f q).pid ∧
      (Function.update f c k q).parent = (f q).parent ∧ (Function.update f c k q).kin = (f q).kin := by
    intro q
    by_cases hq : q = c
    · subst q
      rw [Function.update_self]
      exact hk
    · rw [Function.update_of_ne hq]
      exact ⟨rfl, rfl, rfl⟩
  constructor
  · intro q hq
    rw [Function.update_of_ne (by omega)]
    exact h.fresh q hq
  · intro i q
    rw [(hkeep q).1]
    exact h.slot i q
  · intro q
    have := h.state q
    grind -ring -linarith [Function.update_apply]
  · intro q hq
    rw [(hkeep q).1]
    have := h.home q
    grind -ring -linarith [Function.update_apply]
  · intro q
    have := h.task q
    grind -ring -linarith [Function.update_apply]
  · intro p d hp
    rw [(hkeep d).1]
    have := h.building p d
    have := hnone p
    grind -ring -linarith [Function.update_apply]
  · intro p p' d
    have := h.unique p p' d
    grind -ring -linarith [Function.update_apply]
  · rw [Function.update_of_ne hc0.symm]
    exact h.kernel
  · obtain ⟨h1, h2, h3, h4⟩ := h.init
    refine ⟨h1, ?_, ?_, fun q hq => ?_⟩
    · rw [(hkeep 1).2.1]
      exact h2
    · grind -ring -linarith [Function.update_apply]
    · rw [(hkeep q).1] at hq
      exact h4 q hq
  · intro i q
    rw [(hkeep q).1, (hkeep q).2.1]
    exact h.self i q
  · intro i q hi hne
    rw [(hkeep q).2.1] at hne
    rw [(hkeep q).2.1, (hkeep q).2.2]
    obtain ⟨h1, h2⟩ := h.kin i q hi hne
    refine ⟨h1, ?_⟩
    grind -ring -linarith [Function.update_apply]
  · intro q hq
    rw [(hkeep q).1]
    have := h.zombie q
    grind -ring -linarith [Function.update_apply]
  · intro r hr
    rw [(hkeep r.child).2.2]
    have := h.reaped r hr
    grind -ring -linarith [Function.update_apply]
  · exact h.nodup

/-- A child that was never started leaves the table. -/
theorem release (h : Family f table next reaps) (hc : (f c).phase = .unborn) (hc0 : c ≠ 0)
    (htable : table (f c).pid = some c) (hnone : ∀ p, (f p).phase ≠ .building c) :
    Family f (Function.update table (f c).pid none) next reaps := by
  have hne : ∀ i q, table i = some q → q ≠ c → i ≠ (f c).pid := by
    rintro i q hi hq rfl
    rw [htable] at hi
    cases hi
    exact hq rfl
  have hstays : ∀ i q, table i = some q → q ≠ c →
      Function.update table (f c).pid none i = some q := by
    intro i q hi hq
    rw [Function.update_of_ne (hne i q hi hq)]
    exact hi
  have hwas : ∀ i q, Function.update table (f c).pid none i = some q → table i = some q := by
    intro i q hi
    grind -ring -linarith [Function.update_apply]
  constructor
  · intro q hq
    obtain ⟨h1, h2, h3⟩ := h.fresh q hq
    exact ⟨h1, fun i hi => h2 i (hwas i q hi), h3⟩
  · exact fun i q hi => h.slot i q (hwas i q hi)
  · exact h.state
  · intro q hq
    refine hstays _ _ (h.home q hq) ?_
    rintro rfl
    rw [hc] at hq
    cases hq
  · exact h.task
  · intro p d hp
    obtain ⟨h1, h2, h3, h4⟩ := h.building p d hp
    refine ⟨h1, h2, hstays _ _ h3 ?_, h4⟩
    rintro rfl
    exact hnone p hp
  · exact h.unique
  · exact ⟨hstays _ _ h.kernel.1 hc0.symm, h.kernel.2⟩
  · obtain ⟨h1, h2, h3, h4⟩ := h.init
    refine ⟨hstays _ _ h1 ?_, h2, h3, h4⟩
    rintro rfl
    exact h3 hc
  · exact fun i q hi => h.self i q (hwas i q hi)
  · intro i q hi hp
    obtain ⟨h1, h2⟩ := h.kin i q (hwas i q hi) hp
    refine ⟨hstays _ _ h1 ?_, h2⟩
    -- an unborn process is nobody's parent
    intro hk
    have := h.init.2.2.1
    grind -ring -linarith
  · intro q hq
    obtain h1 | h1 := h.zombie q hq
    · refine .inl (hstays _ _ h1 ?_)
      rintro rfl
      rw [hc] at hq
      cases hq
    · exact .inr h1
  · intro r hr
    obtain ⟨h1, h2⟩ := h.reaped r hr
    exact ⟨fun i hi => h1 i (hwas i _ hi), h2⟩
  · exact h.nodup

/-- A zombie is reaped by a process with the pid of its parent, and that is its parent. -/
theorem reap {i z : ℕ} (status : ℤ) (h : Family f table next reaps) (hp : (f p).phase = .live)
    (hi : table i = some z) (hz : (f z).phase = .zombie) (hparent : (f z).parent = (f p).pid) :
    Family f (Function.update table i none) next
      ({ child := z, reaper := p, status := status } :: reaps) := by
  have hlive : (f p).phase.home = true := by
    rw [hp]
    rfl
  have hpid := h.pid_ne_zero hlive
  have hhome := h.home p hlive
  obtain ⟨hkin, -⟩ := h.kin i z hi (by rw [hparent]; exact hpid)
  have hzp : (f z).kin = p := by
    rw [hparent, hhome] at hkin
    exact (Option.some.inj hkin).symm
  have hz1 : z ≠ 1 := by
    rintro rfl
    rw [h.init.2.1] at hparent
    exact hpid hparent.symm
  have hstays : ∀ j q, table j = some q → q ≠ z → Function.update table i none j = some q := by
    intro j q hj hq
    rw [Function.update_of_ne]
    · exact hj
    · rintro rfl
      rw [hi] at hj
      cases hj
      exact hq rfl
  have hwas : ∀ j q, Function.update table i none j = some q → table j = some q ∧ q ≠ z := by
    intro j q hj
    by_cases hji : j = i
    · subst j
      rw [Function.update_self] at hj
      cases hj
    · rw [Function.update_of_ne hji] at hj
      refine ⟨hj, ?_⟩
      rintro rfl
      exact hji (h.inj hj hi)
  have hnz : ∀ q, (f q).phase ≠ .zombie → q ≠ z := by
    rintro q hq rfl
    exact hq hz
  constructor
  · intro q hq
    obtain ⟨h1, h2, h3⟩ := h.fresh q hq
    refine ⟨h1, fun j hj => h2 j (hwas j q hj).1, ?_⟩
    have := hnz q (by rw [h1]; exact Phase.noConfusion)
    grind -ring -linarith
  · exact fun j q hj => h.slot j q (hwas j q hj).1
  · exact h.state
  · intro q hq
    refine hstays _ _ (h.home q hq) (hnz q ?_)
    intro hzq
    rw [hzq] at hq
    cases hq
  · exact h.task
  · intro r d hr
    obtain ⟨h1, h2, h3, h4⟩ := h.building r d hr
    exact ⟨h1, h2, hstays _ _ h3 (hnz d (by rw [h2]; exact Phase.noConfusion)), h4⟩
  · exact h.unique
  · exact ⟨hstays _ _ h.kernel.1 (hnz 0 (by rw [h.kernel.2.1]; exact Phase.noConfusion)), h.kernel.2⟩
  · obtain ⟨h1, h2, h3, h4⟩ := h.init
    exact ⟨hstays _ _ h1 hz1.symm, h2, h3, h4⟩
  · exact fun j q hj => h.self j q (hwas j q hj).1
  · intro j q hj hq
    obtain ⟨h1, h2⟩ := h.kin j q (hwas j q hj).1 hq
    refine ⟨hstays _ _ h1 ?_, h2⟩
    -- a zombie is nobody's parent
    intro hk
    obtain h2 | h2 := h2
    · exact hz1 (hk.symm.trans h2)
    · rw [hk, hz] at h2
      cases h2
  · intro q hq
    by_cases hqz : q = z
    · subst q
      exact .inr ⟨_, List.mem_cons_self, rfl⟩
    · obtain h1 | ⟨r, hr, h1⟩ := h.zombie q hq
      · exact .inl (hstays _ _ h1 hqz)
      · exact .inr ⟨r, List.mem_cons_of_mem _ hr, h1⟩
  · intro r hr
    obtain rfl | hr := List.mem_cons.mp hr
    · exact ⟨fun j hj => (hwas j z hj).2 rfl, hz, hzp⟩
    · obtain ⟨h1, h2⟩ := h.reaped r hr
      exact ⟨fun j hj => h1 j (hwas j _ hj).1, h2⟩
  · rw [List.map_cons, List.nodup_cons]
    refine ⟨fun hmem => ?_, h.nodup⟩
    obtain ⟨r, hr, hrz⟩ := List.mem_map.mp hmem
    exact (h.reaped r hr).1 i (by rw [hrz]; exact hi)

/-- The children of an exiting process are given to init. -/
theorem reparent {g : ℕ → Face} (h : Family f table next reaps) (hp : (f p).phase.home = true)
    (hg : ∀ q, g q =
      if table (f q).pid = some q ∧ (f q).pid ≠ (f p).pid ∧ (f q).parent = (f p).pid then
        { f q with parent := 1, kin := 1 }
      else f q) :
    Family g table next reaps ∧ ∀ i q, table i = some q → (g q).parent ≠ 0 → (g q).kin ≠ p ∨ p = 1 := by
  have hpid := h.pid_ne_zero hp
  have hhome := h.home p hp
  have hkeep : ∀ q, (g q).pid = (f q).pid ∧ (g q).phase = (f q).phase ∧
      (g q).mainTask = (f q).mainTask ∧ (g q).state = (f q).state := by
    intro q
    rw [hg]
    split <;> exact ⟨rfl, rfl, rfl, rfl⟩
  have h1 := h.init
  refine ⟨?_, ?_⟩
  · constructor
    · intro q
      rw [(hkeep q).2.1]
      exact h.fresh q
    · intro i q
      rw [(hkeep q).1]
      exact h.slot i q
    · intro q
      rw [(hkeep q).2.1, (hkeep q).2.2.2]
      exact h.state q
    · intro q
      rw [(hkeep q).2.1, (hkeep q).1]
      exact h.home q
    · intro q
      rw [(hkeep q).2.1, (hkeep q).2.2.1]
      exact h.task q
    · intro r d
      rw [(hkeep r).2.1, (hkeep r).2.2.1, (hkeep d).2.1, (hkeep d).1]
      exact h.building r d
    · intro r r' d
      rw [(hkeep r).2.1, (hkeep r').2.1]
      exact h.unique r r' d
    · obtain ⟨h2, h3, h4⟩ := h.kernel
      refine ⟨h2, by rw [(hkeep 0).2.1]; exact h3, ?_⟩
      rw [hg, if_neg]
      · exact h4
      · rintro ⟨-, -, hpar⟩
        rw [h4] at hpar
        exact hpid hpar.symm
    · refine ⟨h1.1, ?_, ?_, fun q hq => ?_⟩
      · rw [hg, if_neg]
        · exact h1.2.1
        · rintro ⟨-, -, hpar⟩
          rw [h1.2.1] at hpar
          exact hpid hpar.symm
      · rw [(hkeep 1).2.1]
        exact h1.2.2.1
      · rw [(hkeep q).1] at hq
        exact h1.2.2.2 q hq
    · intro i q hi
      rw [(hkeep q).1, hg]
      split
      · rename_i hq
        intro _ heq
        -- init is not among the children
        have hq1 := h1.2.2.2 q heq.symm
        subst hq1
        rw [h1.2.1] at hq
        exact hpid hq.2.2.symm
      · exact h.self i q hi
    · intro i q hi
      rw [(hkeep _).2.1, hg]
      split
      · exact fun _ => ⟨h1.1, .inl rfl⟩
      · exact h.kin i q hi
    · intro q
      rw [(hkeep q).2.1, (hkeep q).1]
      exact h.zombie q
    · intro r hr
      rw [hg, if_neg fun hc => (h.reaped r hr).1 _ hc.1]
      exact h.reaped r hr
    · exact h.nodup
  · intro i q hi
    rw [hg]
    split
    · -- only init gets new children
      intro _
      by_cases hp1 : p = 1
      · exact .inr hp1
      · exact .inl (Ne.symm hp1)
    · rename_i hq
      intro hne
      refine .inl fun hk => hq ?_
      obtain ⟨hpar, -⟩ := h.kin i q hi hne
      rw [hk] at hpar
      have hpp := h.inj hpar hhome
      refine ⟨by rw [(h.slot i q hi).1]; exact hi, ?_, hpp⟩
      -- nobody is its own parent
      rw [← hpp]
      exact (h.self i q hi hne).symm

end Family

/-! ## The steps of the machine -/

theorem sendTarget_face (q : Proc) (sig : ℕ) (discarded : Bool) :
    (q.sendTarget sig discarded).face = q.face := by
  unfold Proc.sendTarget
  split <;> rfl

/-- A process whose signals and task state change, without its task being put to sleep. -/
structure Proc.Soft (q q' : Proc) : Prop where
  face : q'.face = q.face
  pc : q'.pc = q.pc
  pgid : q'.pgid = q.pgid
  task : q'.task = .blocked → q.task = .blocked
  kill : q.pending sigkill = true → q'.pending sigkill = true

theorem Proc.Soft.pid {q q' : Proc} (h : q.Soft q') : q'.pid = q.pid := congrArg Face.pid h.face

theorem Proc.Soft.parent {q q' : Proc} (h : q.Soft q') : q'.parent = q.parent :=
  congrArg Face.parent h.face

theorem Proc.Soft.state {q q' : Proc} (h : q.Soft q') : q'.state = q.state :=
  congrArg Face.state h.face

theorem Proc.Soft.refl {q : Proc} : q.Soft q := ⟨rfl, rfl, rfl, id, id⟩

theorem Proc.Soft.sendTarget (q : Proc) (sig : ℕ) (discarded : Bool) :
    q.Soft (q.sendTarget sig discarded) := by
  unfold Proc.sendTarget
  split
  · exact .refl
  · refine ⟨rfl, rfl, rfl, ?_, fun h => ?_⟩
    · grind -ring -linarith [TaskState.resume, TaskState.unblock, TaskState.cas]
    · -- `SIGKILL` is no signal that another one takes away
      generalize hm : (if isStop sig then q.pending.remove sigcont
        else if sig = sigcont then fun n => q.pending n && !isStop n else q.pending : SigSet) = m
      have hkill : m sigkill = true := by
        rw [← hm]
        split
        · rw [SigSet.remove, Function.update_of_ne (by decide)]
          exact h
        · split
          · simp only [h]
            rfl
          · exact h
      show (if discarded then m else m.add sig) sigkill = true
      split
      · exact hkill
      · rw [SigSet.add, Function.update_apply, hkill, ite_self]

theorem Proc.Soft.unblock {q : Proc} : q.Soft { q with task := q.task.unblock } := by
  refine ⟨rfl, rfl, rfl, ?_, id⟩
  grind -ring -linarith [TaskState.unblock, TaskState.cas]

theorem afterParent_phase (q : Proc) (orphaned : Bool) : (q.afterParent orphaned).phase = .zombie := by
  unfold Proc.afterParent
  split <;> rfl

namespace State

variable {s t : State} {p c : ℕ}

def face (s : State) : ℕ → Face := fun p => (s.procs p).face

def IsFamily (s : State) : Prop := Family s.face s.table s.next s.reaps

@[simp, grind =] theorem modify_procs {f : Proc → Proc} {r : ℕ} :
    (s.modify p f).procs r = if r = p then f (s.procs p) else s.procs r :=
  Function.update_apply ..

@[simp, grind =] theorem goto_procs {pc : Pc} {r : ℕ} :
    (s.goto p pc).procs r = if r = p then { s.procs p with pc := pc } else s.procs r :=
  Function.update_apply ..

theorem modify_face {f : Proc → Proc} :
    (s.modify p f).face = Function.update s.face p (f (s.procs p)).face := by
  funext r
  simp only [face, modify_procs, Function.update_apply]
  split <;> rfl

/-- A step that changes no face. -/
theorem IsFamily.congr (h : s.IsFamily) (hf : t.face = s.face) (ht : t.table = s.table)
    (hn : t.next = s.next) (hr : t.reaps = s.reaps) : t.IsFamily := by
  unfold IsFamily
  rw [hf, ht, hn, hr]
  exact h

theorem modify_face_eq {f : Proc → Proc} (hf : (f (s.procs p)).face = (s.procs p).face) :
    (s.modify p f).face = s.face := by
  rw [modify_face, hf]
  exact Function.update_eq_self p s.face

theorem IsFamily.modify {f : Proc → Proc} (h : s.IsFamily)
    (hf : (f (s.procs p)).face = (s.procs p).face) : (s.modify p f).IsFamily :=
  h.congr (modify_face_eq hf) rfl rfl rfl

/-- A step within a phase. -/
theorem IsFamily.goto {pc : Pc} (h : s.IsFamily) (hpc : pc.phase = (s.procs p).pc.phase) :
    (s.goto p pc).IsFamily := by
  apply h.modify
  unfold Proc.face
  rw [hpc]

/-- Nothing happens but to signals and to the states of tasks, and no task is put to sleep. -/
structure Soft (s t : State) : Prop where
  procs : ∀ q, (s.procs q).Soft (t.procs q)
  rest : t = { s with procs := t.procs }

theorem Soft.refl : s.Soft s := ⟨fun _ => .refl, rfl⟩

theorem Soft.trans {u : State} (hst : s.Soft t) (htu : t.Soft u) : s.Soft u := by
  refine ⟨fun q => ?_, by rw [htu.rest, hst.rest]⟩
  obtain ⟨h1, h2, h3, h4, h5⟩ := hst.procs q
  obtain ⟨k1, k2, k3, k4, k5⟩ := htu.procs q
  exact ⟨k1.trans h1, k2.trans h2, k3.trans h3, h4 ∘ k4, k5 ∘ h5⟩

theorem Soft.modify {f : Proc → Proc} (hf : (s.procs p).Soft (f (s.procs p))) : s.Soft (s.modify p f) := by
  refine ⟨fun q => ?_, rfl⟩
  rw [modify_procs]
  split
  · subst q
    exact hf
  · exact .refl

theorem Soft.signalSend {target sig : ℕ} {discarded : Bool} :
    s.Soft (s.signalSend target sig discarded) := by
  unfold State.signalSend
  split
  · exact .refl
  · split
    · exact .refl
    · exact .modify (.sendTarget ..)

theorem Soft.wakeSlot {pid : ℕ} : s.Soft (s.wakeSlot pid) := by
  unfold State.wakeSlot
  split
  · exact .refl
  · split
    · exact .modify .unblock
    · exact .refl

theorem IsFamily.soft (h : s.IsFamily) (hs : s.Soft t) : t.IsFamily := by
  rw [hs.rest]
  refine h.congr ?_ rfl rfl rfl
  funext q
  exact (hs.procs q).face

/-! ### Kinds of steps -/

/-- What a process that runs can do next, from where its task is. -/
inductive Advanced (s : State) (p : ℕ) : Pc → State → Prop
  | forkFail : s.Advanced p .fork (s.forkReturn p)
  | claim {c : ℕ} {u : State} (h : s.processClaimSlot = some (c, u)) :
    s.Advanced p .fork
      ({ u with old := Function.update u.old c (u.oldFork p) }.goto p (.forked c .claimed))
  | forked {c : ℕ} {stage : ForkStage} {ok : Bool} {t : State} (h : s.forkStep p c ok stage = some t) :
    s.Advanced p (.forked c stage) t
  | dying {sig : ℕ} : s.Advanced p (.dying sig) (s.exit p (128 + sig))
  | wait {args : WaitArgs} : s.Advanced p (.wait args) (s.waitStep p args)
  | waiting {args : WaitArgs} :
    s.Advanced p (.waiting args) (s.modify p fun q => q.schedule (.asleep args))
  | asleep {args : WaitArgs} : s.Advanced p (.asleep args) (s.goto p (.wait args))
  | reparent {status : ℤ} : s.Advanced p (.reparent status)
      ((s.reparent (s.procs p).pid).1.goto p (.publish status (s.reparent (s.procs p).pid).2))
  | publish {status : ℤ} {orphaned : Bool} :
    s.Advanced p (.publish status orphaned) (s.publish p status orphaned)
  | notify {ppid : ℕ} {orphaned discarded : Bool} : s.Advanced p (.notify ppid orphaned)
      ((s.signalSend ppid sigchld discarded).goto p (.wake ppid orphaned))
  | wake {ppid : ℕ} {orphaned : Bool} : s.Advanced p (.wake ppid orphaned)
      ((s.wakeSlot ppid).goto p ((s.procs p).afterParent orphaned))
  | notifyInit {discarded : Bool} :
    s.Advanced p .notifyInit ((s.signalSend 1 sigchld discarded).goto p .wakeInit)
  | wakeInit : s.Advanced p .wakeInit ((s.wakeSlot 1).goto p .leave)
  | exitCurrent :
    s.Advanced p .leave (s.modify p fun q => { q with task := .dead, onCpu := false, pc := .gone })
  | yield : s.Advanced p .leave (s.modify p fun q => q.schedule .leave)

theorem advanced {ok discarded : Bool} (ht : s.advance p ok discarded = some t) :
    s.Advanced p (s.procs p).pc t := by
  unfold State.advance at ht
  cases hpc : (s.procs p).pc <;>
    simp only [hpc, Option.ite_none_right_eq_some, Option.some.injEq, reduceCtorEq] at ht
  case fork =>
    split at ht
    · cases ht
      exact .forkFail
    · split at ht
      · cases ht
      · split at ht
        · cases ht
          exact .forkFail
        · rename_i hc
          cases ht
          exact .claim hc
  case forked => exact .forked ht
  case leave =>
    unfold State.exitCurrent at ht
    split at ht
    · cases ht
      exact .exitCurrent
    · cases ht
      exact .yield
    · cases ht
  case dying | waiting | asleep =>
    subst ht
    constructor
  all_goals
    obtain ⟨-, rfl⟩ := ht
    constructor

/-- What can happen. Where the family is not touched, no task put to sleep and no signal taken, the
step is soft. -/
inductive Stepped (s : State) : Act → State → Prop
  | fork {p : ℕ} (hi : s.Idle p) : s.Stepped (.fork p) (s.goto p .fork)
  | waitpid {p : ℕ} {args : WaitArgs} (hi : s.Idle p) : s.Stepped (.waitpid p args) (s.goto p (.wait args))
  | exit {p : ℕ} {status : ℤ} (hi : s.Idle p) : s.Stepped (.exit p status) (s.exit p status)
  | advance {p : ℕ} {ok discarded : Bool} {t : State} (h : s.Advanced p (s.procs p).pc t) :
    s.Stepped (.advance p ok discarded) t
  | deliver {p sig : ℕ} (hi : s.Idle p) : s.Stepped (.deliver p sig) (s.modify p fun q => { q with
      pending := q.pending.remove sig
      pc := if sig = sigkill then .dying sig else .idle })
  | sleep {p : ℕ} (hi : s.Idle p) :
    s.Stepped (.sleep p) (s.modify p fun q => { q with task := q.task.setBlocked })
  | begin {sig pgid : ℕ} {watched : Bool} {t : State} (h : s.step (.begin sig pgid watched) = some t)
      (hprocs : t.procs = s.procs ∧ t.table = s.table ∧ t.next = s.next ∧ t.reaps = s.reaps) :
    s.Stepped (.begin sig pgid watched) t
  | send {discarded : Bool} {t : State} (h : s.send discarded = some t) : s.Stepped (.send discarded) t
  | soft {a : Act} {t : State} (h : s.Soft t) : s.Stepped a t

theorem stepped {a : Act} (ht : s.step a = some t) : s.Stepped a t := by
  cases a with
  | begin sig pgid watched =>
    refine .begin ht ?_
    simp only [State.step, Option.ite_none_right_eq_some, Option.some.injEq] at ht
    obtain ⟨-, rfl⟩ := ht
    split <;> exact ⟨rfl, rfl, rfl, rfl⟩
  | unblock p =>
    cases ht
    exact .soft (.modify .unblock)
  | send discarded => exact .send ht
  | advance p ok discarded =>
    simp only [State.step, Option.ite_none_right_eq_some] at ht
    exact .advance (advanced ht.2)
  | fork p | waitpid p args | exit p status | sleep p =>
    simp only [State.step, Option.ite_none_right_eq_some, Option.some.injEq] at ht
    obtain ⟨hi, rfl⟩ := ht
    constructor
    exact hi
  | deliver p sig =>
    simp only [State.step, Option.ite_none_right_eq_some, Option.some.injEq] at ht
    obtain ⟨hi, rfl⟩ := ht
    exact .deliver hi.1
  | mask p m =>
    simp only [State.step, Option.ite_none_right_eq_some, Option.some.injEq] at ht
    obtain ⟨-, rfl⟩ := ht
    exact .soft (.modify ⟨rfl, rfl, rfl, id, id⟩)
  | stop p =>
    simp only [State.step, Option.ite_none_right_eq_some, Option.some.injEq] at ht
    obtain ⟨-, rfl⟩ := ht
    refine .soft (Soft.wakeSlot.trans (.modify ⟨rfl, rfl, rfl, ?_, id⟩))
    grind -ring -linarith [TaskState.setStopped, TaskState.cas]
  | signal target sig discarded =>
    simp only [State.step, Option.ite_none_right_eq_some, Option.some.injEq] at ht
    obtain ⟨-, rfl⟩ := ht
    exact .soft .signalSend
  | preempt p =>
    simp only [State.step, Option.ite_none_right_eq_some, Option.some.injEq] at ht
    obtain ⟨-, rfl⟩ := ht
    refine .soft (.modify ⟨rfl, rfl, rfl, ?_, id⟩)
    grind -ring -linarith [Proc.schedule, TaskState.leave, TaskState.cas]
  | dispatch p =>
    simp only [State.step, Option.ite_none_right_eq_some, Option.some.injEq] at ht
    obtain ⟨-, rfl⟩ := ht
    exact .soft (.modify ⟨rfl, rfl, rfl, (by simp), id⟩)

/-! ### `process_fork` -/

theorem phase_forked {stage : ForkStage} (hp : (s.procs p).pc = .forked c stage) :
    (s.face p).phase = .building c := by
  unfold face Proc.face
  rw [hp]
  rfl

theorem phase_live (hp : (s.procs p).pc.phase = .live) : (s.face p).phase = .live := hp

/-- A fork that has a child returns, having started or released it. -/
theorem IsFamily.forkedReturn (h : s.IsFamily) (hp : (s.face p).phase = .building c) :
    (s.forkReturn p).IsFamily := by
  have hstate := h.state p
  rw [hp] at hstate
  show (s.goto p .idle).IsFamily
  unfold IsFamily State.goto
  rw [modify_face]
  refine h.turn ⟨rfl, rfl, rfl⟩ hstate ?_ ?_ ?_ ?_ ?_ ?_ ?_ ?_
  · rw [hp]
    exact Phase.noConfusion
  · exact Phase.noConfusion
  · exact fun _ => by rw [hp]; rfl
  · exact fun _ => (h.building p c hp).1
  · exact fun _ hb => by cases hb
  · exact fun _ => .inl rfl
  · exact fun hz => by cases hz
  · exact fun hz => by rw [hp] at hz; cases hz

theorem slots_find {i : ℕ} (h : (slots.find? fun i => (s.table i).isNone) = some i) :
    s.table i = none ∧ i < tableSize := by
  have h1 := List.find?_some h
  have h2 := List.mem_of_find?_eq_some h
  unfold slots at h2
  rw [List.mem_range'_1] at h2
  have hsize : tableSize = 128 := rfl
  exact ⟨Option.isNone_iff_eq_none.mp h1, by omega⟩

/-- What `process_claim_slot` gives: an unborn process that nobody knows yet. -/
theorem IsFamily.processClaimSlot (h : s.IsFamily) (hc : s.processClaimSlot = some (c, t)) :
    t.IsFamily ∧ c = s.next ∧ c ≠ 0 ∧ (∃ i, t.procs = Function.update s.procs c (.alloc i) ∧
      t.table = Function.update s.table i (some c) ∧ s.table i = none) ∧
      ∀ p, (t.face p).phase ≠ .building c := by
  unfold State.processClaimSlot at hc
  obtain ⟨i, hi, heq⟩ := Option.map_eq_some_iff.mp hc
  obtain ⟨rfl, rfl⟩ := Prod.mk.inj heq
  obtain ⟨hnone, hsize⟩ := slots_find hi
  have hclaim := h.claim (k := (Proc.alloc i).face) hnone hsize rfl rfl rfl rfl
  have hface : ∀ r, (Function.update s.procs s.next (.alloc i) r).face =
      Function.update s.face s.next (Proc.alloc i).face r := by
    intro r
    by_cases hr : r = s.next
    · rw [hr, Function.update_self, Function.update_self]
    · rw [Function.update_of_ne hr, Function.update_of_ne hr]
      rfl
  refine ⟨?_, rfl, ?_, ⟨i, rfl, rfl, hnone⟩, fun p hp => ?_⟩
  · rw [← funext hface] at hclaim
    exact hclaim
  · intro h0
    exact (h.fresh 0 (by omega)).2.1 0 h.kernel.1
  · -- nobody builds a child that did not exist
    unfold face at hp
    rw [hface p, Function.update_apply] at hp
    split at hp
    · cases hp
    · exact (h.fresh s.next (Nat.le_refl _)).2.1 _ (h.building p s.next hp).2.2.1

theorem IsFamily.claimSlot (h : s.IsFamily) (hp : (s.procs p).pc.phase = .live)
    (hc : s.processClaimSlot = some (c, t)) : (t.goto p (.forked c .claimed)).IsFamily := by
  obtain ⟨ht, hnext, hc0, ⟨i, hprocs, htable, -⟩, hnone⟩ := h.processClaimSlot hc
  have hpc : p ≠ c := by
    rintro rfl
    have := (h.fresh p (by omega)).1
    rw [phase_live hp] at this
    cases this
  have hproc : t.procs p = s.procs p := by rw [hprocs, Function.update_of_ne hpc]
  have hlive : (t.face p).phase = .live := by
    unfold face
    rw [hproc]
    exact hp
  have hchild : t.procs c = .alloc i := by rw [hprocs, Function.update_self]
  have hstate := ht.state p
  rw [hlive] at hstate
  unfold IsFamily State.goto
  rw [modify_face]
  refine ht.turn ⟨rfl, rfl, rfl⟩ hstate ?_ ?_ ?_ ?_ ?_ ?_ ?_ ?_
  · rw [hlive]
    exact Phase.noConfusion
  · exact Phase.noConfusion
  · exact fun _ => by rw [hlive]; rfl
  · exact fun hb => by cases hb
  · intro d hb
    cases hb
    refine ⟨ht.task p hlive, ?_, ?_, hc0, fun p' hp' => (hnone p' hp').elim⟩
    · unfold face
      rw [hchild]
      rfl
    · unfold face
      rw [hchild, htable]
      exact Function.update_self ..
  · exact fun _ => .inl rfl
  · exact fun hz => by cases hz
  · exact fun hz => by rw [hlive] at hz; cases hz

/-- Once the process that built it has returned, nobody builds the child. -/
theorem IsFamily.not_built_after (h : s.IsFamily) (hp : (s.face p).phase = .building c) :
    ∀ r, ((s.forkReturn p).face r).phase ≠ .building c := by
  intro r hr
  by_cases hrp : r = p
  · subst r
    have : ((s.forkReturn p).face p).phase = .live := by
      show (((s.goto p .idle).procs p).face).phase = _
      rw [goto_procs, if_pos rfl]
      rfl
    rw [this] at hr
    cases hr
  · have hr' : (s.face r).phase = .building c := by
      rw [← hr]
      show _ = (((s.goto p .idle).procs r).face).phase
      rw [goto_procs, if_neg hrp]
      rfl
    exact hrp (h.unique r p c hr' hp)

/-- The child leaves the table again. -/
theorem IsFamily.forkFails (h : s.IsFamily) (hp : (s.face p).phase = .building c) :
    ((s.processReleaseSlot (s.procs c).pid).forkReturn p).IsFamily := by
  obtain ⟨-, hc, htable, hc0⟩ := h.building p c hp
  have hret := h.forkedReturn hp
  have hpc : c ≠ p := by
    rintro rfl
    rw [hp] at hc
    cases hc
  have hface : (s.forkReturn p).face c = s.face c := by
    show ((s.goto p .idle).procs c).face = _
    rw [goto_procs, if_neg hpc]
    rfl
  have hrel := hret.release (c := c) (by rw [hface]; exact hc) hc0 (by rw [hface]; exact htable)
    (h.not_built_after hp)
  rw [hface] at hrel
  exact hrel

/-- The child gets its task. -/
theorem IsFamily.forkStarts {g : Proc → Proc} (h : s.IsFamily)
    (hp : (s.face p).phase = .building c)
    (hg : (g (s.procs c)).face = { s.face c with mainTask := true, phase := .live }) :
    ((s.modify c g).forkReturn p).IsFamily := by
  obtain ⟨-, hc, htable, hc0⟩ := h.building p c hp
  have hpc : c ≠ p := by
    rintro rfl
    rw [hp] at hc
    cases hc
  have hret := h.forkedReturn hp
  have hface : (s.forkReturn p).face c = s.face c := by
    show ((s.goto p .idle).procs c).face = _
    rw [goto_procs, if_neg hpc]
    rfl
  have hstate := h.state c
  rw [hc] at hstate
  have hbirth := hret.birth (c := c) (k := (g (s.procs c)).face) (by rw [hg, hface]; exact ⟨rfl, rfl, rfl⟩)
    (by rw [hg]) (by rw [hg]; exact hstate) (by rw [hg]) (by rw [hface]; exact hc) hc0
    (by rw [hface]; exact htable) (h.not_built_after hp)
  have hswap : ((s.modify c g).forkReturn p).face =
      Function.update (s.forkReturn p).face c (g (s.procs c)).face := by
    funext r
    show (((s.modify c g).goto p .idle).procs r).face = _
    rw [goto_procs, Function.update_apply]
    by_cases hrp : r = p
    · subst r
      rw [if_pos rfl, if_neg hpc.symm, modify_procs, if_neg hpc.symm]
      show _ = ((s.goto p .idle).procs p).face
      rw [goto_procs, if_pos rfl]
    · rw [if_neg hrp, modify_procs]
      split
      · rfl
      · show _ = ((s.goto p .idle).procs r).face
        rw [goto_procs, if_neg hrp]
  unfold IsFamily
  rw [hswap]
  exact hbirth

theorem IsFamily.forkStep {ok : Bool} {stage : ForkStage} (h : s.IsFamily)
    (hp : (s.procs p).pc = .forked c stage) (ht : s.forkStep p c ok stage = some t) : t.IsFamily := by
  have hphase := phase_forked hp
  obtain ⟨-, hc, htable, hc0⟩ := h.building p c hphase
  have hpc : p ≠ c := by
    rintro rfl
    rw [hphase] at hc
    cases hc
  unfold State.forkStep at ht
  cases stage with
  | claimed =>
    simp only at ht
    split at ht
    · cases ht
      have hadopt : (s.modify c fun k => { k with parent := (s.procs p).pid, kin := p }).IsFamily := by
        unfold IsFamily
        rw [modify_face]
        exact h.adopt hphase
      apply hadopt.goto
      rw [modify_procs, if_neg hpc, hp]
      rfl
    · split at ht
      · cases ht
        exact h.forkFails hphase
      · cases ht
  | parented =>
    cases ht
    apply IsFamily.goto (h.modify rfl)
    rw [modify_procs, if_neg hpc, hp]
    rfl
  | grouped =>
    cases ht
    apply IsFamily.goto (h.modify rfl)
    rw [modify_procs, if_neg hpc, hp]
    rfl
  | cleared =>
    simp only at ht
    split at ht
    · cases ht
      exact h.forkStarts hphase rfl
    · split at ht
      · cases ht
        exact h.forkFails hphase
      · cases ht

/-! ### `process_exit` -/

theorem IsFamily.exit {status : ℤ} (h : s.IsFamily) (hp : (s.procs p).pc.phase = .live) :
    (s.exit p status).IsFamily := by
  have hlive := phase_live hp
  have hrun : (s.procs p).state = .running := by
    have := h.state p
    rw [hlive] at this
    exact this
  unfold IsFamily State.exit
  rw [modify_face, if_pos hrun]
  refine h.turn ⟨rfl, rfl, rfl⟩ rfl ?_ ?_ ?_ ?_ ?_ ?_ ?_ ?_
  · rw [hlive]
    exact Phase.noConfusion
  · exact Phase.noConfusion
  · exact fun _ => by rw [hlive]; rfl
  · exact fun hb => by cases hb
  · exact fun _ hb => by cases hb
  · exact fun _ => .inl rfl
  · exact fun hz => by cases hz
  · exact fun hz => by rw [hlive] at hz; cases hz

/-- The process in a slot is given to init. -/
def Given (s : State) (pid i q : ℕ) : Prop :=
  s.table i = some q ∧ i ≠ pid ∧ (s.procs q).parent = pid

instance (pid i q : ℕ) : Decidable (s.Given pid i q) := inferInstanceAs (Decidable (_ ∧ _ ∧ _))

/-- The processes with a property become children of init. -/
def giveToInit (s : State) (P : ℕ → Prop) [DecidablePred P] : State :=
  { s with
    procs := fun q => if P q then { s.procs q with parent := 1, kin := 1 } else s.procs q }

@[simp, grind =] theorem giveToInit_procs {P : ℕ → Prop} [DecidablePred P] {q : ℕ} :
    (s.giveToInit P).procs q = if P q then { s.procs q with parent := 1, kin := 1 } else s.procs q := rfl

@[simp, grind =] theorem giveToInit_table {P : ℕ → Prop} [DecidablePred P] :
    (s.giveToInit P).table = s.table := rfl

theorem giveToInit_twice {P Q R : ℕ → Prop} [DecidablePred P] [DecidablePred Q] [DecidablePred R]
    (h : ∀ q, R q ↔ P q ∨ Q q) : (s.giveToInit P).giveToInit Q = s.giveToInit R := by
  have hprocs : ((s.giveToInit P).giveToInit Q).procs = (s.giveToInit R).procs := by
    funext q
    have := h q
    grind -ring -linarith
  unfold giveToInit at hprocs ⊢
  simp only at hprocs
  rw [hprocs]

theorem giveToInit_congr {P Q : ℕ → Prop} [DecidablePred P] [DecidablePred Q]
    (h : ∀ q, P q ↔ Q q) : s.giveToInit P = s.giveToInit Q := by
  unfold giveToInit
  simp only [h]

theorem giveToInit_none {P : ℕ → Prop} [DecidablePred P] (h : ∀ q, ¬ P q) : s.giveToInit P = s := by
  simp [giveToInit, h]

theorem reparentSlot_eq {pid i : ℕ} {b : Bool} :
    (reparentSlot pid (s, b) i).1 = s.giveToInit (s.Given pid i) ∧
    ((reparentSlot pid (s, b) i).2 = true ↔
      b = true ∨ ∃ q, s.Given pid i q ∧ (s.procs q).state = .zombie) := by
  unfold reparentSlot
  simp only
  split
  · rename_i hnone
    have hno : ∀ q, ¬ s.Given pid i q := by grind -ring -linarith [Given]
    rw [giveToInit_none hno]
    grind -ring -linarith
  · rename_i r hr
    split
    · rename_i hi
      have hno : ∀ q, ¬ s.Given pid i q := by grind -ring -linarith [Given]
      rw [giveToInit_none hno]
      grind -ring -linarith
    · rename_i hi
      split
      · rename_i hpar
        have hyes : ∀ q, s.Given pid i q ↔ q = r := by grind -ring -linarith [Given]
        constructor
        · unfold State.modify giveToInit
          simp only [State.mk.injEq, and_true]
          funext q
          rw [Function.update_apply]
          grind -ring -linarith
        · grind -ring -linarith
      · rename_i hpar
        have hno : ∀ q, ¬ s.Given pid i q := by grind -ring -linarith [Given]
        rw [giveToInit_none hno]
        grind -ring -linarith

/-- Which children the walk gives away, and what it says about zombies. -/
theorem reparent_foldl (pid : ℕ) (l : List ℕ) (s : State) (b : Bool) :
    (l.foldl (reparentSlot pid) (s, b)).1 = s.giveToInit (fun q => ∃ i ∈ l, s.Given pid i q) ∧
    ((l.foldl (reparentSlot pid) (s, b)).2 = true ↔
      b = true ∨ ∃ q, (∃ i ∈ l, s.Given pid i q) ∧ (s.procs q).state = .zombie) := by
  induction l generalizing s b with
  | nil => simp [giveToInit]
  | cons i l ih =>
    rw [List.foldl_cons]
    obtain ⟨h1, h2⟩ := @reparentSlot_eq s pid i b
    generalize reparentSlot pid (s, b) i = x at h1 h2 ⊢
    obtain ⟨s₁, b₁⟩ := x
    obtain rfl : s₁ = s.giveToInit (s.Given pid i) := h1
    obtain ⟨ih1, ih2⟩ := ih (s.giveToInit (s.Given pid i)) b₁
    rw [ih1, ih2, h2]
    -- a child that has been given away is not given away again, unless it was init's before
    have hagain : ∀ j q, (s.giveToInit (s.Given pid i)).Given pid j q →
        s.Given pid j q ∨ s.Given pid i q := by
      grind -ring -linarith [Given]
    have hfirst : ∀ j q, s.Given pid j q →
        (s.giveToInit (s.Given pid i)).Given pid j q ∨ s.Given pid i q := by
      grind -ring -linarith [Given]
    have hmem : ∀ q, (∃ j ∈ i :: l, s.Given pid j q) ↔
        s.Given pid i q ∨ ∃ j ∈ l, (s.giveToInit (s.Given pid i)).Given pid j q := by
      intro q
      rw [List.exists_mem_cons_iff]
      constructor
      · rintro (h | ⟨j, hj, h⟩)
        · exact .inl h
        · obtain h | h := hfirst j q h
          · exact .inr ⟨j, hj, h⟩
          · exact .inl h
      · rintro (h | ⟨j, hj, h⟩)
        · exact .inl h
        · obtain h | h := hagain j q h
          · exact .inr ⟨j, hj, h⟩
          · exact .inl h
    constructor
    · exact giveToInit_twice hmem
    · have hzombie : ∀ q, ((s.giveToInit (s.Given pid i)).procs q).state = (s.procs q).state := by
        intro q
        rw [giveToInit_procs]
        split <;> rfl
      simp only [hzombie, hmem]
      grind -ring -linarith

/-- The children of an exiting process: those in the table that name it as their parent. -/
theorem IsFamily.given_iff (h : s.IsFamily) (hp : (s.face p).phase.home = true) {q : ℕ} :
    (∃ i ∈ slots, s.Given (s.procs p).pid i q) ↔
      s.table (s.procs q).pid = some q ∧ (s.procs q).pid ≠ (s.procs p).pid ∧
        (s.procs q).parent = (s.procs p).pid := by
  have hpid := h.pid_ne_zero hp
  unfold Given
  constructor
  · rintro ⟨i, -, hi, hne, hpar⟩
    obtain ⟨rfl, -⟩ := h.slot i q hi
    exact ⟨hi, hne, hpar⟩
  · rintro ⟨hi, hne, hpar⟩
    refine ⟨(s.procs q).pid, ?_, hi, hne, hpar⟩
    have hsize : (s.procs q).pid < tableSize := (h.slot _ q hi).2
    have hq : (s.procs q).pid ≠ 0 := by
      intro h0
      rw [h0, h.kernel.1] at hi
      cases hi
      have : (s.procs 0).parent = 0 := h.kernel.2.2
      rw [this] at hpar
      exact hpid hpar.symm
    unfold slots
    rw [List.mem_range'_1]
    omega

/-- The child of an exiting process, in the table. -/
def ChildOf (s : State) (p q : ℕ) : Prop :=
  s.table (s.procs q).pid = some q ∧ (s.procs q).pid ≠ (s.procs p).pid ∧
    (s.procs q).parent = (s.procs p).pid

instance (p q : ℕ) : Decidable (s.ChildOf p q) := inferInstanceAs (Decidable (_ ∧ _ ∧ _))

theorem IsFamily.reparent_eq (h : s.IsFamily) (hp : (s.face p).phase.home = true) :
    (s.reparent (s.procs p).pid).1 = s.giveToInit (s.ChildOf p) ∧
    ((s.reparent (s.procs p).pid).2 = true ↔ ∃ q, s.ChildOf p q ∧ (s.procs q).state = .zombie) := by
  obtain ⟨h1, h2⟩ := reparent_foldl (s.procs p).pid slots s false
  unfold State.reparent
  rw [h1, h2]
  simp only [h.given_iff hp, Bool.false_eq_true, false_or]
  exact ⟨giveToInit_congr fun q => Iff.rfl, Iff.rfl⟩

theorem IsFamily.reparent {status : ℤ} {orphaned : Bool} (h : s.IsFamily)
    (hp : (s.procs p).pc.phase = .dead) :
    ((s.reparent (s.procs p).pid).1.goto p (.publish status orphaned)).IsFamily := by
  have hdead : (s.face p).phase = .dead := hp
  have hhome : (s.face p).phase.home = true := by
    rw [hdead]
    rfl
  have hpid := h.pid_ne_zero hhome
  rw [(h.reparent_eq hhome).1]
  generalize ht : s.giveToInit (s.ChildOf p) = t
  have hface : ∀ q, t.face q = if s.table (s.face q).pid = some q ∧
      (s.face q).pid ≠ (s.face p).pid ∧ (s.face q).parent = (s.face p).pid then
      { s.face q with parent := 1, kin := 1 } else s.face q := by
    intro q
    subst ht
    unfold face
    rw [giveToInit_procs]
    show Proc.face (ite (s.ChildOf p q) _ _) = ite (s.ChildOf p q) _ _
    split <;> rfl
  obtain ⟨hfam, hkin⟩ := Family.reparent h hhome hface
  have htable : t.table = s.table := by rw [← ht, giveToInit_table]
  have hfam : t.IsFamily := by
    unfold IsFamily
    rw [htable, ← ht]
    rw [← ht] at hfam
    exact hfam
  have hsame : t.face p = s.face p := by
    rw [hface, if_neg]
    rintro ⟨-, hne, -⟩
    exact hne rfl
  have hstate := hfam.state p
  rw [hsame, hdead] at hstate
  unfold IsFamily State.goto
  rw [modify_face]
  refine hfam.turn ⟨rfl, rfl, rfl⟩ ?_ ?_ ?_ ?_ ?_ ?_ ?_ ?_ ?_
  · show (t.face p).state = _
    rw [hsame, hstate]
    rfl
  · rw [hsame, hdead]
    exact Phase.noConfusion
  · exact Phase.noConfusion
  · exact fun _ => by rw [hsame]; exact hhome
  · exact fun hb => by cases hb
  · exact fun _ hb => by cases hb
  · intro _
    by_cases hp1 : p = 1
    · exact .inr (.inl hp1)
    · refine .inr (.inr fun i q hi hq => ?_)
      rw [htable] at hi
      exact (hkin i q hi hq).resolve_right hp1
  · exact fun hz => by cases hz
  · exact fun hz => by rw [hsame, hdead] at hz; cases hz

theorem IsFamily.publish {status : ℤ} {orphaned : Bool} (h : s.IsFamily)
    (hp : (s.procs p).pc.phase = .closed) : (s.publish p status orphaned).IsFamily := by
  have hclosed : (s.face p).phase = .closed := hp
  unfold IsFamily State.publish
  rw [modify_face]
  generalize hpc : (if s.notifies p then Pc.notify (s.procs p).parent orphaned else
    (s.procs p).afterParent orphaned) = pc
  have hphase : pc.phase = .zombie := by
    rw [← hpc]
    split
    · rfl
    · exact afterParent_phase ..
  refine h.turn ⟨rfl, rfl, rfl⟩ ?_ ?_ ?_ ?_ ?_ ?_ ?_ ?_ ?_
  · show ProcState.zombie = pc.phase.state
    rw [hphase]
    rfl
  · rw [hclosed]
    exact Phase.noConfusion
  · show pc.phase ≠ _
    rw [hphase]
    exact Phase.noConfusion
  · exact fun _ => by rw [hclosed]; rfl
  · show pc.phase = _ → _
    rw [hphase]
    exact fun hb => by cases hb
  · show ∀ c, pc.phase = _ → _
    rw [hphase]
    exact fun _ hb => by cases hb
  · exact fun hb => by rw [hclosed] at hb; cases hb
  · exact fun _ => .inl (h.home p (by rw [hclosed]; rfl))
  · exact fun hz => by rw [hclosed] at hz; cases hz

/-! ### `process_waitpid` -/

theorem findChild_zombie {pid i q : ℕ} {args : WaitArgs} {l : List ℕ} {b : Bool}
    (h : s.findChild pid args l b = .zombie i q) :
    s.table i = some q ∧ (s.procs q).parent = pid ∧ (s.procs q).state = .zombie := by
  induction l generalizing b with
  | nil => cases h
  | cons j l ih =>
    unfold findChild at h
    split at h
    · exact ih h
    · rename_i r hr
      simp only at h
      split at h
      · exact ih h
      · split at h
        · exact ih h
        · split at h
          · cases h
            exact ⟨hr, by grind -ring -linarith, by assumption⟩
          · split at h
            · cases h
            · exact ih h

/-- Where the walk finds nothing there is no zombie to be reaped. -/
theorem findChild_nothing {pid : ℕ} {args : WaitArgs} {l : List ℕ} {b b' : Bool}
    (h : s.findChild pid args l b = .nothing b') {i q : ℕ} (hi : i ∈ l) (hq : s.table i = some q)
    (hparent : (s.procs q).parent = pid) (hpid : args.pid = -1 ∨ ((s.procs q).pid : ℤ) = args.pid) :
    (s.procs q).state ≠ .zombie := by
  induction l generalizing b with
  | nil => cases hi
  | cons j l ih =>
    unfold findChild at h
    obtain rfl | hi := List.mem_cons.mp hi
    · rw [hq] at h
      simp only at h
      rw [if_neg (by simpa using hparent), if_neg (by grind -ring -linarith)] at h
      split at h
      · cases h
      · assumption
    · split at h
      · exact ih h hi
      · simp only at h
        split at h
        · exact ih h hi
        · split at h
          · exact ih h hi
          · split at h
            · cases h
            · split at h
              · cases h
              · exact ih h hi

theorem IsFamily.waitStep {args : WaitArgs} (h : s.IsFamily) (hp : (s.procs p).pc = .wait args) :
    (s.waitStep p args).IsFamily := by
  have hlive : (s.procs p).pc.phase = .live := by
    rw [hp]
    rfl
  unfold State.waitStep
  split
  · rename_i i q hfind
    obtain ⟨hi, hparent, hz⟩ := findChild_zombie hfind
    have hzombie : (s.face q).phase = .zombie := by
      have := h.state q
      rw [show (s.face q).state = .zombie from hz] at this
      cases hphase : (s.face q).phase <;> rw [hphase] at this <;> first | rfl | cases this
    have hreap := h.reap (s.procs q).exitStatus (phase_live hlive) hi hzombie hparent
    refine IsFamily.goto (s := { s.setTable i none with reaps := _ :: s.reaps }) hreap ?_
    show Phase.live = (s.procs p).pc.phase
    rw [hlive]
  · apply IsFamily.goto (h.modify rfl)
    rw [modify_procs]
    split
    · rename_i hpq
      rw [← hpq]
      exact hlive.symm
    · exact hlive.symm
  · split
    · exact h.goto hlive.symm
    · apply h.modify
      unfold Proc.face
      rw [hlive]
      rfl

/-! ### All steps -/

theorem IsFamily.advance (h : s.IsFamily) (ht : s.Advanced p (s.procs p).pc t) : t.IsFamily := by
  generalize hpc : (s.procs p).pc = pc at ht
  have hphase : (s.procs p).pc.phase = pc.phase := by rw [hpc]
  cases ht with
  | forkFail => exact h.goto hphase.symm
  | claim hc => exact IsFamily.congr (h.claimSlot hphase hc) rfl rfl rfl rfl
  | forked hstep => exact h.forkStep hpc hstep
  | dying => exact h.exit hphase
  | wait => exact h.waitStep hpc
  | waiting | exitCurrent | yield =>
    apply h.modify
    unfold Proc.face
    rw [hphase]
    rfl
  | asleep => exact h.goto hphase.symm
  | reparent => exact h.reparent hphase
  | publish => exact h.publish hphase
  | notify | notifyInit =>
    apply (h.soft .signalSend).goto
    rw [(Soft.signalSend.procs p).pc, hphase]
    rfl
  | wake =>
    apply (h.soft .wakeSlot).goto
    rw [(Soft.wakeSlot.procs p).pc, hphase, afterParent_phase]
    rfl
  | wakeInit =>
    apply (h.soft .wakeSlot).goto
    rw [(Soft.wakeSlot.procs p).pc, hphase]
    rfl

/-- What a step of a group send does: it ends, it posts the signal to the process in its slot, or
it only moves on. -/
theorem send_cases {discarded : Bool} (ht : s.send discarded = some t) :
    ∃ x, s.sender = some x ∧
      ((tableSize ≤ x.slot ∧ t = { s with sender := none }) ∨
      (∃ q d, s.table x.slot = some q ∧ (x.sig = sigkill → d = false) ∧
        t = { s.modify q (fun k => k.sendTarget x.sig d) with
          sender := some { x with slot := x.slot + 1, matched := false } }) ∨
      ∃ y, y.sig = x.sig ∧ y.pgid = x.pgid ∧ y.watched = x.watched ∧
        (y.slot = x.slot ∨ y.slot = x.slot + 1 ∧ ∀ q, s.table x.slot = some q →
          ¬ ((s.procs q).state = .running ∧ (s.procs q).pgid = x.pgid)) ∧
        t = { s with sender := some y }) := by
  unfold State.send at ht
  cases hx : s.sender with
  | none => simp [hx] at ht
  | some x =>
    refine ⟨x, rfl, ?_⟩
    simp only [hx] at ht
    split at ht
    · rename_i hsize
      cases ht
      exact .inl ⟨hsize, rfl⟩
    · cases hq : s.table x.slot with
      | none =>
        simp only [hq, Option.some.injEq] at ht
        subst ht
        exact .inr (.inr ⟨{ x with slot := x.slot + 1, matched := false }, rfl, rfl, rfl,
          .inr ⟨rfl, nofun⟩, rfl⟩)
      | some q =>
        simp only [hq] at ht
        split at ht
        · cases ht
          refine .inr (.inl ⟨q, _, rfl, fun hkill => ?_, rfl⟩)
          simp [hkill]
        · split at ht
          · cases ht
            exact .inr (.inr ⟨{ x with matched := true }, rfl, rfl, rfl, .inl rfl, rfl⟩)
          · rename_i hno
            cases ht
            refine .inr (.inr ⟨{ x with slot := x.slot + 1 }, rfl, rfl, rfl, .inr ⟨rfl, ?_⟩, rfl⟩)
            rintro r ⟨⟩
            exact hno

theorem IsFamily.send {discarded : Bool} (h : s.IsFamily) (ht : s.send discarded = some t) :
    t.IsFamily := by
  obtain ⟨x, -, ⟨-, rfl⟩ | ⟨q, d, -, -, rfl⟩ | ⟨y, -, -, -, -, rfl⟩⟩ := send_cases ht
  · exact h
  · exact h.modify (f := fun k => k.sendTarget x.sig d) (sendTarget_face ..)
  · exact h

theorem IsFamily.step {a : Act} (h : s.IsFamily) (ht : s.step a = some t) : t.IsFamily := by
  cases stepped ht with
  | soft hs => exact h.soft hs
  | fork hi | waitpid hi =>
    apply h.goto
    rw [hi.2]
    rfl
  | exit hi =>
    apply h.exit
    rw [hi.2]
    rfl
  | advance hadv => exact h.advance hadv
  | deliver hi =>
    apply h.modify
    unfold Proc.face
    rw [hi.2]
    simp only
    split <;> rfl
  | sleep hi => exact h.modify rfl
  | begin _ hsame => exact h.congr (by unfold face; rw [hsame.1]) hsame.2.1 hsame.2.2.1 hsame.2.2.2
  | send hsend => exact h.send hsend

theorem boot_isFamily : boot.IsFamily := by
  have hphase : ∀ q, (boot.face q).phase = if q = 1 then .live else .unborn := by
    intro q
    unfold face boot
    simp only
    split <;> rfl
  have hparent : ∀ q, (boot.face q).parent = 0 := by
    intro q
    unfold face boot
    simp only
    split <;> rfl
  have hpid : ∀ q, (boot.face q).pid = if q = 1 then 1 else 0 := by
    intro q
    unfold face boot
    simp only
    split <;> rfl
  have hstate : ∀ q, (boot.face q).state = .running := by
    intro q
    unfold face boot
    simp only
    split <;> rfl
  have htable : ∀ i q, boot.table i = some q → i = q ∧ q ≤ 1 := by
    intro i q hi
    unfold boot at hi
    grind -ring -linarith
  constructor
  · intro q hq
    have hq : 2 ≤ q := hq
    refine ⟨by rw [hphase, if_neg (by omega)], fun i hi => ?_, fun r hr => by cases hr⟩
    have := htable i q hi
    omega
  · intro i q hi
    have := htable i q hi
    have hsize : tableSize = 128 := rfl
    rw [hpid]
    grind -ring -linarith
  · intro q
    rw [hstate, hphase]
    split <;> rfl
  · intro q hq
    rw [hphase] at hq
    split at hq
    · subst q
      rfl
    · cases hq
  · intro q hq
    rw [hphase] at hq
    split at hq
    · subst q
      rfl
    · cases hq
  · intro p c hp
    rw [hphase] at hp
    split at hp <;> cases hp
  · intro p p' c hp
    rw [hphase] at hp
    split at hp <;> cases hp
  · exact ⟨rfl, rfl, rfl⟩
  · refine ⟨rfl, rfl, by rw [hphase]; exact Phase.noConfusion, fun q hq => ?_⟩
    rw [hpid] at hq
    grind -ring -linarith
  · exact fun i q _ hq => (hq (hparent q)).elim
  · exact fun i q _ hq => (hq (hparent q)).elim
  · intro q hq
    rw [hphase] at hq
    split at hq <;> cases hq
  · exact fun r hr => by cases hr
  · exact List.nodup_nil

end State

end Perspicua.Sched.Process
