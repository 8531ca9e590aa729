import Mathlib.Logic.Basic
import Mathlib.Data.List.Basic

/-!
# Runs of a labelled transition relation

Every reachability result of this development is a statement about `Run`: a property that
holds at the start and that one step preserves holds wherever a run ends. A restriction on
the steps is a restriction of the relation (`Run.mono` forgets it again).
-/

namespace Perspicua.Lib

variable {σ α : Type*} {step step' : σ → α → σ → Prop} {s t u : σ} {a : α} {as bs : List α}

/-- The labels `as` can take `s` to `t`, one step each. -/
inductive Run (step : σ → α → σ → Prop) : σ → List α → σ → Prop
  | nil (s : σ) : Run step s [] s
  | cons {s t u : σ} {a : α} {as : List α} :
      step s a t → Run step t as u → Run step s (a :: as) u

namespace Run

theorem single (h : step s a t) : Run step s [a] t := cons h (nil t)

theorem append (h : Run step s as t) (h' : Run step t bs u) : Run step s (as ++ bs) u := by
  induction h with
  | nil s => exact h'
  | cons hs _ ih => exact cons hs (ih h')

theorem mono (hle : ∀ s a t, step s a t → step' s a t) (h : Run step s as t) :
    Run step' s as t := by
  induction h with
  | nil s => exact nil s
  | cons hs _ ih => exact cons (hle _ _ _ hs) ih

/-- What one step preserves, a run preserves. -/
theorem invariant (Inv : σ → Prop) (hstep : ∀ s a t, Inv s → step s a t → Inv t)
    (h : Run step s as t) (hs : Inv s) : Inv t := by
  induction h with
  | nil s => exact hs
  | cons h1 _ ih => exact ih (hstep _ _ _ hs h1)

/-- If every step from a state of the invariant is a step of a second system between the
images of its states, then so is every run. -/
theorem simulate {τ : Type*} {step' : τ → α → τ → Prop} (Inv : σ → Prop) (f : σ → τ)
    (hstep : ∀ s a t, Inv s → step s a t → Inv t ∧ step' (f s) a (f t)) (h : Run step s as t)
    (hs : Inv s) : Run step' (f s) as (f t) := by
  induction h with
  | nil s => exact nil (f s)
  | cons h1 _ ih =>
    obtain ⟨ht, h1'⟩ := hstep _ _ _ hs h1
    exact cons h1' (ih ht)

end Run

end Perspicua.Lib
