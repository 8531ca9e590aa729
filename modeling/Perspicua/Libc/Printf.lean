import Mathlib
import Perspicua.Lib.Text
import Perspicua.Libc.String

/-!
# Formatted output

`libc/src/printf.c` as user space compiles it. `fmt_core` reads a format and its arguments and gives
the characters one by one to a `struct fmt_buf`, which keeps what fits or, as a sink, writes itself
out whenever it is full.

A format is its bytes before the NUL. An argument is the word of its slot or the string that its
pointer leads to; a directive that finds no argument of its kind has no defined behaviour, and the
functions return `none`. Lengths of strings are counted without a bound.
-/

namespace Perspicua.Libc

open Perspicua.Lib

/-! ## The buffer -/

/-- `struct fmt_buf`, with what has been passed to `__libc_write`. `direct` says that `buf` is
NULL. -/
structure FmtBuf where
  buf : Memory
  size : ℕ
  pos : ℕ := 0
  total : ℕ := 0
  crlf : Bool := false
  sink : Bool := false
  direct : Bool := false
  written : List (List UInt8) := []

namespace FmtBuf

def fbFlush (fb : FmtBuf) : FmtBuf :=
  if 0 < fb.pos then { fb with written := fb.written ++ [load fb.buf 0 fb.pos], pos := 0 } else fb

/-- `fb->buf[fb->pos++] = c` -/
def push (fb : FmtBuf) (c : UInt8) : FmtBuf :=
  { fb with buf := store fb.buf fb.pos [c], pos := fb.pos + 1 }

def fbPutc (fb : FmtBuf) (c : UInt8) : FmtBuf :=
  let fb := { fb with total := fb.total + 1 }
  if fb.direct then { fb with written := fb.written ++ [[c]] }
  else if fb.sink then (if fb.pos = fb.size then fb.fbFlush else fb).push c
  else if fb.pos < fb.size - 1 then fb.push c
  else { fb with pos := fb.pos + 1 }

/-- A loop of `fb_putc`. -/
def fbPuts (fb : FmtBuf) (cs : List UInt8) : FmtBuf := cs.foldl fbPutc fb

/-- A character of the format or of a string. -/
def fbPutText (fb : FmtBuf) (c : UInt8) : FmtBuf :=
  (if c = '\n'.toUInt8 ∧ fb.crlf then fb.fbPutc '\r'.toUInt8 else fb).fbPutc c

end FmtBuf

/-! ## Arguments -/

/-- A slot of the `va_list`. -/
inductive Arg
  | word (v : BitVec 64)
  | str (s : Option (List UInt8))
deriving DecidableEq

def vaWord : List Arg → Option (BitVec 64 × List Arg)
  | .word v :: args => some (v, args)
  | _ => none

/-- `va_arg(args, int)` is the lower half of the slot. -/
def vaInt (args : List Arg) : Option (BitVec 32 × List Arg) :=
  (vaWord args).map fun r => (r.1.setWidth 32, r.2)

def vaStr : List Arg → Option (Option (List UInt8) × List Arg)
  | .str s :: args => some (s, args)
  | _ => none

/-- The length modifiers. -/
inductive Length
  | int
  | long
  | longlong
  | size
deriving DecidableEq

/-- The argument of `d` and `i`, as an `int64_t`. -/
def vaSigned (len : Length) (args : List Arg) : Option (ℤ × List Arg) :=
  (vaWord args).map fun r => (if len = .int then (r.1.setWidth 32).toInt else r.1.toInt, r.2)

/-- The argument of the unsigned conversions, as a `uint64_t`. -/
def vaUnsigned (len : Length) (args : List Arg) : Option (ℕ × List Arg) :=
  (vaWord args).map fun r => (if len = .int then (r.1.setWidth 32).toNat else r.1.toNat, r.2)

/-! ## Directives -/

structure Flags where
  left : Bool := false
  zero : Bool := false
  plus : Bool := false
  space : Bool := false
deriving DecidableEq

def fmtFlags (f : Flags) : List UInt8 → Flags × List UInt8
  | [] => (f, [])
  | c :: p =>
    if c = '-'.toUInt8 then fmtFlags { f with left := true } p
    else if c = '0'.toUInt8 then fmtFlags { f with zero := true } p
    else if c = '+'.toUInt8 then fmtFlags { f with plus := true } p
    else if c = ' '.toUInt8 then fmtFlags { f with space := true } p
    else (f, c :: p)

/-- The width is an `int`; the smallest one has no positive counterpart. -/
def fmtWidth (f : Flags) (p : List UInt8) (args : List Arg) :
    Option ((Flags × BitVec 32) × List UInt8 × List Arg) :=
  if p.head? = some '*'.toUInt8 then
    (vaInt args).map fun (width, args) =>
      (if width.toInt < 0 then ({ f with left := true, zero := false }, -width) else (f, width),
        p.tail, args)
  else
    let (width, p) := digitLoop 32 0 p
    some ((f, width), p, args)

theorem fmtWidth_digits {f : Flags} {p : List UInt8} (h : p.head? ≠ some '*'.toUInt8) (args : List Arg) :
    fmtWidth f p args = some ((f, (digitLoop 32 0 p).1), (digitLoop 32 0 p).2, args) := by
  rw [fmtWidth, if_neg h]

/-- The precision; -1 if there is none. -/
def fmtPrec (p : List UInt8) (args : List Arg) : Option (BitVec 32 × List UInt8 × List Arg) :=
  if p.head? = some '.'.toUInt8 then
    let p := p.tail
    if p.head? = some '*'.toUInt8 then
      (vaInt args).map fun (prec, args) => (if prec.toInt < 0 then 0 else prec, p.tail, args)
    else
      let (prec, p) := digitLoop 32 0 p
      some (prec, p, args)
  else some (-1, p, args)

theorem fmtPrec_digits {p : List UInt8} (h : p.head? ≠ some '*'.toUInt8) (args : List Arg) :
    fmtPrec ('.'.toUInt8 :: p) args = some ((digitLoop 32 0 p).1, (digitLoop 32 0 p).2, args) := by
  rw [fmtPrec, if_pos List.head?_cons]
  exact if_neg h

def fmtLength (p : List UInt8) : Length × List UInt8 :=
  if p.head? = some 'l'.toUInt8 then
    if p.tail.head? = some 'l'.toUInt8 then (.longlong, p.tail.tail) else (.long, p.tail)
  else if p.head? = some 'z'.toUInt8 then (.size, p.tail)
  else (.int, p)

/-- What stands before the conversion. -/
structure Spec where
  flags : Flags
  width : BitVec 32
  prec : BitVec 32
  len : Length

def fmtSpec (p : List UInt8) (args : List Arg) : Option (Spec × List UInt8 × List Arg) :=
  let (f, p) := fmtFlags {} p
  let f := if f.left then { f with zero := false } else f
  (fmtWidth f p args).bind fun ((f, width), p, args) =>
    (fmtPrec p args).bind fun (prec, p, args) =>
      let (len, p) := fmtLength p
      some (⟨f, width, prec, len⟩, p, args)

/-- The loop of `fmt_uint`, the last digit first. A 64-bit value has at most 64 digits. -/
def fmtUintLoop (base : ℕ) (uppercase : Bool) : ℕ → ℕ → List UInt8
  | 0, _ => []
  | fuel + 1, val =>
    if val = 0 then []
    else
      let d := val % base
      (if d < 10 then '0'.toUInt8 + .ofNat d
        else (if uppercase then 'A'.toUInt8 else 'a'.toUInt8) + .ofNat (d - 10)) ::
          fmtUintLoop base uppercase fuel (val / base)

def fmtUint (base : ℕ) (uppercase : Bool) (val : ℕ) : List UInt8 :=
  if val = 0 then ['0'.toUInt8] else (fmtUintLoop base uppercase 64 val).reverse

/-- The sign and the digits of a signed number. -/
def fmtSigned (f : Flags) (val : ℤ) : List UInt8 × List UInt8 :=
  if val < 0 then (['-'.toUInt8], fmtUint 10 false ((-(val + 1)).toNat + 1))
  else
    (if f.plus then ['+'.toUInt8] else if f.space then [' '.toUInt8] else [],
      fmtUint 10 false val.toNat)

/-- `(width > field) ? width - field : 0` -/
def Spec.pad (spec : Spec) (field : ℕ) : ℕ := (spec.width.toInt - field).toNat

namespace FmtBuf

/-- `for (int i = 0; i < pad; i++) fb_putc(fb, c)`, under a condition. -/
def fbPad (fb : FmtBuf) (cond : Bool) (pad : ℕ) (c : Char) : FmtBuf :=
  if cond then fb.fbPuts (List.replicate pad c.toUInt8) else fb

/-- `emit_number` -/
def emitNumber (fb : FmtBuf) (spec : Spec) (sign num : List UInt8) : FmtBuf :=
  let pad := spec.pad (num.length + sign.length)
  let fb := fb.fbPad (!spec.flags.left && !spec.flags.zero) pad ' '
  let fb := fb.fbPuts sign
  let fb := fb.fbPad (!spec.flags.left && spec.flags.zero) pad '0'
  let fb := fb.fbPuts num
  fb.fbPad spec.flags.left pad ' '

/-- What the conversions `s` and `c` have in common. -/
def emitText (fb : FmtBuf) (spec : Spec) (t : List UInt8) (put : FmtBuf → UInt8 → FmtBuf) : FmtBuf :=
  let pad := spec.pad t.length
  let fb := fb.fbPad (!spec.flags.left) pad ' '
  let fb := t.foldl put fb
  fb.fbPad spec.flags.left pad ' '

end FmtBuf

/-- The conversions, by their character. -/
inductive Conv
  | signed
  | unsigned (base : ℕ) (uppercase : Bool)
  | pointer
  | string
  | char
  | percent
  | other (c : UInt8)
deriving DecidableEq

def fmtConv (c : UInt8) : Conv :=
  if c = 'd'.toUInt8 ∨ c = 'i'.toUInt8 then .signed
  else if c = 'u'.toUInt8 then .unsigned 10 false
  else if c = 'x'.toUInt8 then .unsigned 16 false
  else if c = 'X'.toUInt8 then .unsigned 16 true
  else if c = 'o'.toUInt8 then .unsigned 8 false
  else if c = 'b'.toUInt8 then .unsigned 2 false
  else if c = 'p'.toUInt8 then .pointer
  else if c = 's'.toUInt8 then .string
  else if c = 'c'.toUInt8 then .char
  else if c = '%'.toUInt8 then .percent
  else .other c

/-- The part of a string that the precision lets through. -/
def Spec.cut (spec : Spec) (s : List UInt8) : List UInt8 :=
  if 0 ≤ spec.prec.toInt then s.take spec.prec.toInt.toNat else s

def nullText : List UInt8 := "(null)".toList.map Char.toUInt8

/-- The switch of `fmt_core`. -/
def fmtSwitch (fb : FmtBuf) (spec : Spec) (args : List Arg) : Conv → Option (FmtBuf × List Arg)
  | .signed =>
    (vaSigned spec.len args).map fun (val, args) =>
      let (sign, num) := fmtSigned spec.flags val
      (fb.emitNumber spec sign num, args)
  | .unsigned base uppercase =>
    (vaUnsigned spec.len args).map fun (val, args) =>
      (fb.emitNumber spec [] (fmtUint base uppercase val), args)
  | .pointer =>
    (vaWord args).map fun (val, args) =>
      let fb := fb.fbPuts ['0'.toUInt8, 'x'.toUInt8]
      let num := fmtUint 16 false val.toNat
      let fb := fb.fbPuts (List.replicate (16 - num.length) '0'.toUInt8)
      (fb.fbPuts num, args)
  | .string =>
    (vaStr args).map fun (s, args) => (fb.emitText spec (spec.cut (s.getD nullText)) .fbPutText, args)
  | .char =>
    (vaInt args).map fun (c, args) => (fb.emitText spec [UInt8.ofBitVec (c.setWidth 8)] .fbPutc, args)
  | .percent => some (fb.fbPutc '%'.toUInt8, args)
  | .other c => some (fb.fbPuts ['%'.toUInt8, c], args)

/-- One directive, after its `%`. At the end of the format there is nothing to convert. -/
def fmtDirective (fb : FmtBuf) (p : List UInt8) (args : List Arg) :
    Option (FmtBuf × List UInt8 × List Arg) :=
  (fmtSpec p args).bind fun (spec, p, args) =>
    match p with
    | [] => some (fb, [], args)
    | c :: p => (fmtSwitch fb spec args (fmtConv c)).map fun (fb, args) => (fb, p, args)

/-! ## Formats -/

theorem length_fmtFlags (f : Flags) (p : List UInt8) : (fmtFlags f p).2.length ≤ p.length := by
  induction p generalizing f with
  | nil => exact Nat.le_refl _
  | cons c p ih =>
    rw [fmtFlags]
    split_ifs <;> first | exact Nat.le_succ_of_le (ih _) | exact Nat.le_refl _

theorem length_fmtWidth {f : Flags} {p : List UInt8} {args : List Arg}
    {r : (Flags × BitVec 32) × List UInt8 × List Arg} (h : fmtWidth f p args = some r) :
    r.2.1.length ≤ p.length := by
  unfold fmtWidth at h
  split_ifs at h
  · obtain ⟨a, -, rfl⟩ := Option.map_eq_some_iff.mp h
    simp
  · cases h
    exact length_digitLoop ..

theorem length_fmtPrec {p : List UInt8} {args : List Arg} {r : BitVec 32 × List UInt8 × List Arg}
    (h : fmtPrec p args = some r) : r.2.1.length ≤ p.length := by
  unfold fmtPrec at h
  dsimp only at h
  split_ifs at h
  · obtain ⟨a, -, rfl⟩ := Option.map_eq_some_iff.mp h
    simp
    omega
  · cases h
    refine Nat.le_trans (length_digitLoop ..) ?_
    simp
  · cases h
    exact Nat.le_refl _

theorem length_fmtLength (p : List UInt8) : (fmtLength p).2.length ≤ p.length := by
  unfold fmtLength
  split_ifs <;> simp
  omega

/-- A directive leaves less of the format than it finds. -/
theorem length_fmtDirective {fb : FmtBuf} {p : List UInt8} {args : List Arg}
    {r : FmtBuf × List UInt8 × List Arg} (h : fmtDirective fb p args = some r) :
    r.2.1.length ≤ p.length := by
  obtain ⟨⟨spec, q, args'⟩, hspec, h⟩ := Option.bind_eq_some_iff.mp h
  have hq : q.length ≤ p.length := by
    obtain ⟨⟨⟨f, w⟩, q1, args1⟩, hwidth, hspec⟩ := Option.bind_eq_some_iff.mp hspec
    obtain ⟨⟨prec, q2, args2⟩, hprec, hspec⟩ := Option.bind_eq_some_iff.mp hspec
    cases hspec
    calc (fmtLength q2).2.length ≤ q2.length := length_fmtLength q2
      _ ≤ q1.length := length_fmtPrec hprec
      _ ≤ (fmtFlags {} p).2.length := length_fmtWidth hwidth
      _ ≤ p.length := length_fmtFlags {} p
  cases q with
  | nil =>
    cases h
    exact Nat.zero_le _
  | cons c q =>
    obtain ⟨a, -, rfl⟩ := Option.map_eq_some_iff.mp h
    exact Nat.le_trans (Nat.le_succ _) hq

/-- `fmt_core` -/
def fmtCore (fb : FmtBuf) (p : List UInt8) (args : List Arg) : Option FmtBuf :=
  match p with
  | [] => some fb
  | c :: p =>
    if c ≠ '%'.toUInt8 then fmtCore (fb.fbPutText c) p args
    else
      match _h : fmtDirective fb p args with
      | none => none
      | some (fb, p, args) => fmtCore fb p args
termination_by p.length
decreasing_by
  · exact Nat.lt_succ_self _
  · exact Nat.lt_succ_of_le (length_fmtDirective _h)

/-- `PRINTF_BUF_SIZE` -/
def printfBufSize : ℕ := 256

/-- `(int)fb->total` -/
def FmtBuf.ret (fb : FmtBuf) : ℤ := (BitVec.ofNat 32 fb.total).toInt

/-- `vsnprintf` into a buffer that is not NULL. -/
def vsnprintf (buf : Memory) (size : ℕ) (fmt : List UInt8) (args : List Arg) : Option (Memory × ℤ) :=
  if size = 0 then some (buf, 0)
  else
    (fmtCore { buf, size } fmt args).map fun fb =>
      (store fb.buf (if fb.pos < size then fb.pos else size - 1) [0], fb.ret)

/-- The calls of `__libc_write` and the value returned; `stack` is what is in the buffer at first. -/
def vprintf (stack : Memory) (fmt : List UInt8) (args : List Arg) : Option (List (List UInt8) × ℤ) :=
  (fmtCore { buf := stack, size := printfBufSize, sink := true } fmt args).map fun fb =>
    (fb.fbFlush.written, fb.fbFlush.ret)

end Perspicua.Libc
