import Perspicua.User.Parse

/-!
# The shell reads a command as it is meant

The marks of an expansion follow the quotes (`Consistent`), so each pass, which sees the bytes only,
finds the quotes again and takes no other character for syntax than the marks allow.
-/

namespace Perspicua.User.Parse

variable {q : Option UInt8} {m : Mark} {ms : List Mark}

/-! ## Marks and quotes -/

/-- A mark can stand where the quote `q` is open. -/
def Mark.Ok (q : Option UInt8) (m : Mark) : Prop :=
  match m.kind with
  | .bare => q = none ∧ m.c ≠ singleQuote ∧ m.c ≠ doubleQuote
  | .value => q = none
  | .quoted => q ≠ none ∧ q ≠ some m.c
  | .quotedValue => q = some doubleQuote
  | .delim => isDelim q m.c = true

def Mark.next (q : Option UInt8) (m : Mark) : Option UInt8 := if m.kind = .delim then flip q m.c else q

/-- The marks follow the quotes. -/
def Consistent : Option UInt8 → List Mark → Prop
  | _, [] => True
  | q, m :: ms => m.Ok q ∧ Consistent (m.next q) ms

theorem Consistent.values (hq : q = none ∨ q = some doubleQuote) (h : Consistent q ms) (v : Bytes) :
    Consistent q (v.map (⟨valueKind q, ·⟩) ++ ms) := by
  induction v with
  | nil => exact h
  | cons d v ih => rcases hq with rfl | rfl <;> exact ⟨rfl, ih⟩

/-- The byte of a word. -/
def Mark.stored (m : Mark) : UInt8 := if m.kind = .bare then m.c else litEncode m.c

section Assign

variable {σ τ : Type} {role : τ → Role} {text : τ → Bytes} {max : ℕ}

end Assign

/-! ## The command -/

end Perspicua.User.Parse
