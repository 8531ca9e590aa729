import Perspicua.Lib.Run

/-!
# Machines

A machine is a partial step function: a label says who moves and how, and the step is
undefined where that is not possible. Its runs are runs of the relation `Moves`; `Guarded`
restricts them to steps that meet a condition on the state before the step. A concrete run
is computed by `exec`.
-/

namespace Perspicua.Lib

variable {σ α : Type*} {step : σ → α → Option σ} {s t : σ} {a : α} {as : List α}

/-- The relation of a step function. -/
def Moves (step : σ → α → Option σ) (s : σ) (a : α) (t : σ) : Prop := step s a = some t

/-- The steps that meet a condition. -/
def Guarded (P : σ → α → Prop) (R : σ → α → σ → Prop) (s : σ) (a : α) (t : σ) : Prop :=
  P s a ∧ R s a t

/-- Take steps one after the other. -/
def exec (step : σ → α → Option σ) : σ → List α → Option σ
  | s, [] => some s
  | s, a :: as => (step s a).bind fun t => exec step t as

theorem run_of_exec (h : exec step s as = some t) : Run (Moves step) s as t := by
  induction as generalizing s with
  | nil =>
    cases h
    exact .nil _
  | cons a as ih =>
    obtain ⟨u, hu, h⟩ := Option.bind_eq_some_iff.mp h
    exact .cons hu (ih h)

/-- A run computed step by step, each step meeting the condition. -/
def execGuarded (P : σ → α → Prop) [∀ s a, Decidable (P s a)] (step : σ → α → Option σ) :
    σ → List α → Option σ :=
  exec fun s a => if P s a then step s a else none

theorem run_of_execGuarded {P : σ → α → Prop} [∀ s a, Decidable (P s a)]
    (h : execGuarded P step s as = some t) : Run (Guarded P (Moves step)) s as t := by
  refine (run_of_exec h).mono ?_
  intro s a t hm
  by_cases hp : P s a
  · exact ⟨hp, by simpa only [Moves, if_pos hp] using hm⟩
  · simp only [Moves, if_neg hp, reduceCtorEq] at hm

/-- To find a run into a state with a decidable property, evaluate. -/
theorem exists_run_of_exec {p : σ → Bool} (h : (exec step s as).any p = true) :
    ∃ t, Run (Moves step) s as t ∧ p t = true := by
  obtain ⟨t, ht, hp⟩ := (Option.any_eq_true ..).mp h
  exact ⟨t, run_of_exec ht, hp⟩

theorem exists_run_of_execGuarded {P : σ → α → Prop} [∀ s a, Decidable (P s a)] {p : σ → Bool}
    (h : (execGuarded P step s as).any p = true) :
    ∃ t, Run (Guarded P (Moves step)) s as t ∧ p t = true := by
  obtain ⟨t, ht, hp⟩ := (Option.any_eq_true ..).mp h
  exact ⟨t, run_of_execGuarded ht, hp⟩

end Perspicua.Lib
