import Perspicua.Libc.PrintfTheorems

/-!
# Streams

`fread`, `fwrite` and `vfprintf` of `libc/user/file.c`. Each makes one system call, which may
transfer less than it is asked for, and none makes another one for the rest. What the call returns is
an argument of the function: an error, or a count that an `int` can hold. The pointers are not NULL.
-/

namespace Perspicua.Libc

open Perspicua.Lib

/-- `FILE` without the descriptor. -/
structure File where
  error : Bool
  eof : Bool

/-- What `write` of `len` bytes can return. -/
abbrev Written (len : ℕ) := { r : Option ℕ // ∀ c ∈ r, c ≤ len ∧ c < 2 ^ 31 }

end Perspicua.Libc
