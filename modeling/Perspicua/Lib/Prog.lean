import Mathlib.Data.List.Basic
import Mathlib.Tactic.Common

/-!
# Programs over a state

A program reads and changes a state and returns a value; it always returns. What a program
does is stated as `Ends x s Q`: run from `s`, it ends with a value and a state that satisfy
`Q`. The rules below take a program apart from its first statement on, so that a proof
follows the program text; `Ends.and` combines facts proved separately about one run.

`iterate` is a loop over a list with an early return, and `iterate_ends` the rule for it:
an invariant about what has been visited so far.
-/

namespace Perspicua.Lib

def Prog (σ α : Type) : Type := σ → α × σ

namespace Prog

variable {σ α β ρ : Type}

instance : Monad (Prog σ) where
  pure a := fun s => (a, s)
  bind x f := fun s =>
    match x s with
    | (a, t) => f a t

def get : Prog σ σ := fun s => (s, s)

def modify (f : σ → σ) : Prog σ Unit := fun s => ((), f s)

/-- Run from `s`, the program ends in `Q`. -/
def Ends (x : Prog σ α) (s : σ) (Q : α → σ → Prop) : Prop := Q (x s).1 (x s).2

section Rules

variable {x : Prog σ α} {f : α → Prog σ β} {s : σ} {Q R : α → σ → Prop} {P : β → σ → Prop}

theorem Ends.mono (h : Ends x s Q) (hq : ∀ a t, Q a t → R a t) : Ends x s R := hq _ _ h

theorem Ends.and (h : Ends x s Q) (h' : Ends x s R) : Ends x s fun a t => Q a t ∧ R a t := ⟨h, h'⟩

theorem ends_pure {a : α} : Ends (pure a) s Q ↔ Q a s := Iff.rfl

theorem ends_bind : Ends (x >>= f) s P ↔ Ends x s fun a t => Ends (f a) t P := Iff.rfl

theorem ends_get {Q : σ → σ → Prop} : Ends get s Q ↔ Q s s := Iff.rfl

theorem ends_modify {g : σ → σ} {Q : Unit → σ → Prop} : Ends (modify g) s Q ↔ Q () (g s) := Iff.rfl

/-- The first statement of a program, by what is known about it. -/
theorem Ends.bind (h : Ends x s Q) (hf : ∀ a t, Q a t → Ends (f a) t P) : Ends (x >>= f) s P :=
  hf _ _ h

theorem ends_ite {c : Prop} [Decidable c] {y : Prog σ α} (ht : c → Ends x s Q)
    (hf : ¬ c → Ends y s Q) : Ends (if c then x else y) s Q := by
  by_cases h : c
  · rw [if_pos h]
    exact ht h
  · rw [if_neg h]
    exact hf h

/-- A statement that depends on a condition, with what follows it in both branches. -/
theorem ends_ite_bind {c : Prop} [Decidable c] {y : Prog σ α} (h : Ends (if c then x else y) s Q)
    (hf : ∀ a t, Q a t → Ends (f a) t P) : Ends (if c then x >>= f else y >>= f) s P := by
  split at h
  next hc =>
    rw [if_pos hc]
    exact h.bind hf
  next hc =>
    rw [if_neg hc]
    exact h.bind hf

end Rules

/-! ## Loops -/

/-- How one round of a loop ends: the next round's variables, or the loop's result. -/
inductive Ctl (β ρ : Type)
  | next (b : β)
  | ret (r : ρ)

/-- One round for each member of the list, unless a round returns. -/
def iterate (f : α → β → Prog σ (Ctl β ρ)) : List α → β → Prog σ (Ctl β ρ)
  | [], b => pure (.next b)
  | x :: xs, b => do
    match ← f x b with
    | .next b => iterate f xs b
    | .ret r => pure (.ret r)

/-- A condition on the end of a loop: one for running through, one for returning. -/
def Ctl.Sat (J : β → σ → Prop) (R : ρ → σ → Prop) : Ctl β ρ → σ → Prop
  | .next b, s => J b s
  | .ret r, s => R r s

/-- The loop rule. `J` speaks of the members visited so far. -/
theorem iterate_ends {f : α → β → Prog σ (Ctl β ρ)} {xs : List α} {b : β} {s : σ}
    (J : List α → β → σ → Prop) (R : ρ → σ → Prop)
    (hstep : ∀ pre x post, xs = pre ++ x :: post → ∀ b s, J pre b s →
      Ends (f x b) s (Ctl.Sat (J (pre ++ [x])) R))
    (h : J [] b s) : Ends (iterate f xs b) s (Ctl.Sat (J xs) R) := by
  -- generalise over the part already visited
  suffices hgen : ∀ ys pre b s, xs = pre ++ ys → J pre b s →
      Ends (iterate f ys b) s (Ctl.Sat (J xs) R) from hgen xs [] b s rfl h
  intro ys
  induction ys with
  | nil =>
    intro pre b s hxs hj
    rw [List.append_nil] at hxs
    rw [iterate, ends_pure, hxs]
    exact hj
  | cons x ys ih =>
    intro pre b s hxs hj
    rw [iterate]
    apply (hstep pre x ys hxs b s hj).bind
    intro c t hc
    cases c with
    | next b' => exact ih (pre ++ [x]) b' t (by rw [hxs, List.append_assoc]; rfl) hc
    | ret r => exact hc

end Prog

end Perspicua.Lib
