import Mathlib
import Perspicua.Lib.Prog

/-!
# The stores of a program

`Via S x` says that the program `x` changes the state only by stores that `S` allows. It is proved
along the program text: each construct has a rule, each callee an instance, and `grind` applies
them. What every store of `S` keeps, the program keeps.
-/

namespace Perspicua.Lib.Prog

variable {σ α β ρ : Type}

/-- From every state, stores of `S` lead to the state in which the program ends. -/
class Via (S : σ → σ → Prop) (x : Prog σ α) : Prop where
  stores : ∀ s, Relation.ReflTransGen S s (x s).2

namespace Via

variable {S : σ → σ → Prop} {x : Prog σ α} {f : α → Prog σ β}

@[grind ←]
instance pure {a : α} : Via S (Pure.pure a : Prog σ α) := ⟨fun _ => .refl⟩

@[grind ←]
instance get : Via S (Prog.get : Prog σ σ) := ⟨fun _ => .refl⟩

theorem of_ends (h : ∀ s, Ends x s fun _ t => Relation.ReflTransGen S s t) : Via S x := ⟨h⟩

theorem modify {g : σ → σ} (h : ∀ s, S s (g s)) : Via S (Prog.modify g) := ⟨fun s => .single (h s)⟩

@[grind ←]
theorem bind (hx : Via S x) (hf : ∀ a, Via S (f a)) : Via S (x >>= f) :=
  ⟨fun s => (hx.stores s).trans ((hf _).stores _)⟩

/-- The same, with what is known of the first program's result. -/
theorem bind_of {Q : α → Prop} (hx : Via S x) (hq : ∀ s, Q (x s).1) (hf : ∀ a, Q a → Via S (f a)) :
    Via S (x >>= f) :=
  ⟨fun s => (hx.stores s).trans ((hf _ (hq s)).stores _)⟩

@[grind ←]
theorem discard (hx : Via S x) : Via S (Functor.discard x) := .bind hx fun _ => .pure

@[grind ←]
theorem iterate {f : α → β → Prog σ (Ctl β ρ)} {xs : List α} {b : β} (hf : ∀ x b, Via S (f x b)) :
    Via S (Prog.iterate f xs b) := by
  induction xs generalizing b with
  | nil => exact .pure
  | cons x xs ih =>
    refine .bind (hf x b) fun r => ?_
    cases r with
    | next b => exact ih
    | ret r => exact .pure

/-- A property that no store of `S` destroys holds where the program ends. -/
theorem keeps (hx : Via S x) {Inv : σ → Prop} (h : ∀ s t, S s t → Inv s → Inv t) {s : σ} (hs : Inv s) :
    Inv (x s).2 := by
  have hst := hx.stores s
  generalize (x s).2 = t at hst
  induction hst with
  | refl => exact hs
  | tail _ hst ih => exact h _ _ hst ih

end Via

end Perspicua.Lib.Prog
