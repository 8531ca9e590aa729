import Mathlib.Data.List.Basic
import Mathlib.Logic.Function.Basic

/-!
# Singly linked chains

A chain is threaded through a link map `next`, `none` ending it.
-/

namespace Perspicua.Lib

variable {α : Type*}

/-- The links lead from `h` over the nodes `l` to `t`. -/
def Path (next : α → Option α) : Option α → List α → Option α → Prop
  | h, [], t => h = t
  | h, x :: l, t => h = some x ∧ Path next (next x) l t

end Perspicua.Lib
