import Perspicua.Libc.PrintfTheorems

/-!
# What the standard prescribes

The text that the C standard prescribes for a directive, for the directives that `fmt_core` reads,
and when `fmt_core` produces it. It reads every directive as the standard does and pads as the
standard does, but it pays no attention to the precision of a number, and it takes a negative
precision for 0 where the standard takes it for none.

Where the standard leaves the behaviour undefined or to the locale there is no text: a flag `0` with
a string, a precision with a character, anything between the two characters of `%%`, a length
modifier with a string or a character, a NULL string.
-/

namespace Perspicua.Libc

open Perspicua.Lib FmtBuf

/-! ## The syntax of a directive -/

inductive Flag
  | minus
  | zero
  | plus
  | space
deriving DecidableEq

def Flag.char : Flag → UInt8
  | .minus => '-'.toUInt8
  | .zero => '0'.toUInt8
  | .plus => '+'.toUInt8
  | .space => ' '.toUInt8

/-- A width or a precision: an argument, or digits. -/
inductive Amount
  | star
  | digits (ds : { l : List UInt8 // ∀ c ∈ l, isDigit c = true })

def Amount.text : Amount → List UInt8
  | .star => ['*'.toUInt8]
  | .digits ds => ds.val

def Length.text : Length → List UInt8
  | .int => []
  | .long => ['l'.toUInt8]
  | .longlong => ['l'.toUInt8, 'l'.toUInt8]
  | .size => ['z'.toUInt8]

/-- The conversion characters. -/
inductive Letter
  | d
  | i
  | u
  | x
  | X
  | o
  | s
  | c
  | percent

def Letter.char : Letter → UInt8
  | .d => 'd'.toUInt8
  | .i => 'i'.toUInt8
  | .u => 'u'.toUInt8
  | .x => 'x'.toUInt8
  | .X => 'X'.toUInt8
  | .o => 'o'.toUInt8
  | .s => 's'.toUInt8
  | .c => 'c'.toUInt8
  | .percent => '%'.toUInt8

/-- What a character converts. -/
def Letter.conv : Letter → Conv
  | .d => .signed
  | .i => .signed
  | .u => .unsigned 10 false
  | .x => .unsigned 16 false
  | .X => .unsigned 16 true
  | .o => .unsigned 8 false
  | .s => .string
  | .c => .char
  | .percent => .percent

/-- A directive without its `%`. No digits are no width; a 0 in front of them would be a flag. -/
structure Directive where
  flags : List Flag
  width : Amount
  width_head : width.text.head? ≠ some '0'.toUInt8
  prec : Option Amount
  len : Length
  letter : Letter

namespace Directive

def precText (d : Directive) : List UInt8 := d.prec.elim [] fun a => '.'.toUInt8 :: a.text

def text (d : Directive) : List UInt8 :=
  d.flags.map Flag.char ++ (d.width.text ++ (d.precText ++ (d.len.text ++ [d.letter.char])))

end Directive

/-! ## The meaning of a directive -/

/-- What a directive asks for: the flags in effect, the width, and the precision if there is one. -/
structure Given where
  flags : Flags
  width : ℕ
  prec : Option ℤ

def Amount.read : Amount → List Arg → Option (ℤ × List Arg)
  | .star, args => (vaInt args).map fun r => (r.1.toInt, r.2)
  | .digits ds, args => some ((digitsValue ds.val : ℤ), args)

/-- A negative width is a flag `-` and a positive width; `-` overrides `0`. -/
def Directive.given (d : Directive) (w : ℤ) (prec : Option ℤ) : Given :=
  let left := decide (.minus ∈ d.flags) || decide (w < 0)
  ⟨⟨left, decide (.zero ∈ d.flags) && !left, decide (.plus ∈ d.flags), decide (.space ∈ d.flags)⟩,
    w.natAbs, prec⟩

def Directive.readPrec (d : Directive) (args : List Arg) : Option (Option ℤ × List Arg) :=
  match d.prec with
  | none => some (none, args)
  | some a => (a.read args).map fun r => (some r.1, r.2)

def Directive.read (d : Directive) (args : List Arg) : Option (Given × List Arg) :=
  (d.width.read args).bind fun (w, args) =>
    (d.readPrec args).map fun (prec, args) => (d.given w prec, args)

namespace Given

/-- Spaces up to the width. -/
def fill (g : Given) (t : List UInt8) : List UInt8 :=
  let spaces := List.replicate (g.width - t.length) ' '.toUInt8
  if g.flags.left then t ++ spaces else spaces ++ t

/-- The digits that a number has at least, without a precision. -/
def minDigits (g : Given) (sign : List UInt8) : ℕ :=
  if g.flags.zero then max 1 (g.width - sign.length) else 1

/-- The precision, if it is in effect: a negative one is taken for none. -/
def cut (g : Given) : Option ℕ := g.prec.bind fun k => if k < 0 then none else some k.toNat

/-- A number of at least `k` digits. -/
def digits (g : Given) (k : ℕ) (sign ds : List UInt8) : List UInt8 :=
  g.fill (sign ++ List.replicate (k - ds.length) '0'.toUInt8 ++ ds)

def number (g : Given) (sign ds : List UInt8) : List UInt8 :=
  g.digits (g.cut.getD (g.minDigits sign)) sign ds

def sign (g : Given) (v : ℤ) : List UInt8 :=
  if v < 0 then ['-'.toUInt8]
  else if g.flags.plus then ['+'.toUInt8]
  else if g.flags.space then [' '.toUInt8]
  else []

end Given

def digitChar (uppercase : Bool) (d : ℕ) : UInt8 :=
  ((if uppercase then "0123456789ABCDEF" else "0123456789abcdef").toList.getD d ' ').toUInt8

/-- A number's digits, without zeros in front; 0 has none. -/
def numeral (base : ℕ) (uppercase : Bool) (n : ℕ) : List UInt8 :=
  ((Nat.digits base n).map (digitChar uppercase)).reverse

/-- The text of a directive and the arguments after its own. -/
def Directive.standard (d : Directive) (args : List Arg) : Option (List UInt8 × List Arg) :=
  (d.read args).bind fun (g, args) =>
    match d.letter.conv with
    | .signed =>
      (vaSigned d.len args).map fun r => (g.number (g.sign r.1) (numeral 10 false r.1.natAbs), r.2)
    | .unsigned base uppercase =>
      (vaUnsigned d.len args).map fun r => (g.number [] (numeral base uppercase r.1), r.2)
    | .string =>
      if d.len = .int ∧ .zero ∉ d.flags then
        (vaStr args).bind fun r => r.1.map fun s => (g.fill (g.cut.elim s s.take), r.2)
      else none
    | .char =>
      if d.len = .int ∧ .zero ∉ d.flags ∧ d.prec.isNone then
        (vaInt args).map fun r => (g.fill [UInt8.ofBitVec (r.1.setWidth 8)], r.2)
      else none
    | .percent => if d.text = ['%'.toUInt8] then some (['%'.toUInt8], args) else none
    | _ => none

/-- The precision of a number asks for the zeros that there are without it. -/
def Given.Zeros (g : Given) (sign ds : List UInt8) : Prop :=
  ∀ k, g.cut = some k → k - ds.length = g.minDigits sign - ds.length

/-- Where `fmt_core` produces the text of the standard: a number's precision makes no difference, and
a string whose precision is negative is spaces that the width makes up for. -/
def Directive.GoodFor (d : Directive) (g : Given) (args : List Arg) : Prop :=
  match d.letter.conv with
  | .signed => ∀ r, vaSigned d.len args = some r → g.Zeros (g.sign r.1) (numeral 10 false r.1.natAbs)
  | .unsigned base uppercase =>
    ∀ r, vaUnsigned d.len args = some r → g.Zeros [] (numeral base uppercase r.1)
  | .string => ∀ s rest, vaStr args = some (some s, rest) → ∀ k, g.prec = some k →
      0 ≤ k ∨ s.length ≤ g.width ∧ ∀ c ∈ s, c = ' '.toUInt8
  | _ => True

def Directive.Good (d : Directive) (args : List Arg) : Prop :=
  ∀ g args', d.read args = some (g, args') → d.GoodFor g args'

/-- The precision fits an `int`. -/
def Directive.Fits (d : Directive) (args : List Arg) : Prop :=
  ∀ g args', d.read args = some (g, args') → ∀ k, g.prec = some k → k < 2 ^ 31

/-! ## Reading a directive -/

/-- The characters that a directive ends with. -/
def letters : List UInt8 := "lzdiuxXosc%".toList.map Char.toUInt8

theorem letter_facts : ∀ c ∈ letters, isDigit c = false ∧ c ≠ '*'.toUInt8 ∧ c ≠ '.'.toUInt8 ∧
    c ≠ '-'.toUInt8 ∧ c ≠ '0'.toUInt8 ∧ c ≠ '+'.toUInt8 ∧ c ≠ ' '.toUInt8 := by
  decide +kernel

theorem digit_ne {c : UInt8} (h : isDigit c = true) : c ≠ '*'.toUInt8 ∧ c ≠ '-'.toUInt8 ∧
    c ≠ '+'.toUInt8 ∧ c ≠ ' '.toUInt8 := by
  refine ⟨?_, ?_, ?_, ?_⟩ <;>
  · rintro rfl
    exact absurd h (by decide)

theorem fmtFlags_append (flags : List Flag) (f : Flags) {p : List UInt8}
    (hp : ∀ c ∈ p.head?, c ≠ '-'.toUInt8 ∧ c ≠ '0'.toUInt8 ∧ c ≠ '+'.toUInt8 ∧ c ≠ ' '.toUInt8) :
    fmtFlags f (flags.map Flag.char ++ p) =
      (⟨f.left || decide (.minus ∈ flags), f.zero || decide (.zero ∈ flags),
        f.plus || decide (.plus ∈ flags), f.space || decide (.space ∈ flags)⟩, p) := by
  induction flags generalizing f with
  | nil =>
    cases p with
    | nil => simp [fmtFlags]
    | cons c p =>
      obtain ⟨h1, h2, h3, h4⟩ := hp c rfl
      simp [fmtFlags, h1, h2, h3, h4]
  | cons flag flags ih =>
    rw [List.map_cons, List.cons_append, fmtFlags]
    cases flag <;> simp +decide [ih]

variable {d : Directive} {g : Given} {rest : List UInt8}

theorem head_tail (d : Directive) (rest : List UInt8) :
    ∃ c p, d.len.text ++ [d.letter.char] ++ rest = c :: p ∧ c ∈ letters := by
  cases d.len <;> cases d.letter <;> exact ⟨_, _, rfl, by decide⟩

theorem fmtLength_append :
    fmtLength (d.len.text ++ [d.letter.char] ++ rest) = (d.len, d.letter.char :: rest) := by
  cases d.len <;> cases d.letter <;> rfl

/-- The precision as `fmt_core` keeps it. -/
def precWord : Option ℤ → BitVec 32
  | none => -1
  | some k => if k < 0 then 0 else BitVec.ofInt 32 k

theorem head_digits_append {ds : List UInt8} (hds : ∀ c ∈ ds, isDigit c = true) {c : UInt8}
    (hc : c ≠ '*'.toUInt8) (q : List UInt8) : (ds ++ c :: q).head? ≠ some '*'.toUInt8 := by
  cases ds with
  | nil => simpa using hc
  | cons e l => simpa using (digit_ne (hds e List.mem_cons_self)).1

theorem fmtPrec_append (args : List Arg) {p : List UInt8}
    (hp : ∃ c q, p = c :: q ∧ c ∈ letters) :
    fmtPrec (d.precText ++ p) args =
      (d.readPrec args).map fun r => (precWord r.1, p, r.2) := by
  obtain ⟨c, q, rfl, hc⟩ := hp
  obtain ⟨hdigit, hstar, hdot, -⟩ := letter_facts c hc
  unfold Directive.precText Directive.readPrec
  cases d.prec with
  | none => simp [fmtPrec, hdot, precWord]
  | some a =>
    cases a with
    | star =>
      have hstar : fmtPrec ('.'.toUInt8 :: '*'.toUInt8 :: c :: q) args = (vaInt args).map fun r =>
          (if r.1.toInt < 0 then 0 else r.1, c :: q, r.2) := rfl
      show fmtPrec ('.'.toUInt8 :: '*'.toUInt8 :: c :: q) args =
        (((vaInt args).map fun r => (r.1.toInt, r.2)).map fun r => (some r.1, r.2)).map _
      rw [hstar, Option.map_map, Option.map_map]
      refine congrArg (Option.map · (vaInt args)) ?_
      funext r
      simp only [Function.comp, precWord, BitVec.ofInt_toInt]
    | digits ds =>
      show fmtPrec ('.'.toUInt8 :: (ds.val ++ c :: q)) args = _
      rw [fmtPrec_digits (head_digits_append ds.property hstar q),
        digitLoop_append 32 ds.property (by simpa using hdigit)]
      show _ = some (precWord (some (digitsValue ds.val : ℤ)), c :: q, args)
      rw [precWord, if_neg (Int.not_lt.mpr (Int.natCast_nonneg _)), BitVec.ofInt_natCast]

theorem fmtWidth_append (f : Flags) (args : List Arg) {p : List UInt8}
    (hp : ∃ c q, p = c :: q ∧ isDigit c = false ∧ c ≠ '*'.toUInt8) :
    fmtWidth f (d.width.text ++ p) args = (d.width.read args).map fun r =>
      ((if r.1 < 0 then { f with left := true, zero := false } else f, BitVec.ofNat 32 r.1.natAbs),
        p, r.2) := by
  obtain ⟨c, q, rfl, hdigit, hstar⟩ := hp
  cases d.width with
  | star =>
    have hstar : fmtWidth f ('*'.toUInt8 :: c :: q) args = (vaInt args).map fun r =>
        (if r.1.toInt < 0 then ({ f with left := true, zero := false }, -r.1) else (f, r.1),
          c :: q, r.2) := rfl
    show fmtWidth f ('*'.toUInt8 :: c :: q) args = ((vaInt args).map fun r => (r.1.toInt, r.2)).map _
    rw [hstar, Option.map_map]
    refine congrArg (Option.map · (vaInt args)) ?_
    funext ⟨w, args⟩
    have hword : BitVec.ofNat 32 w.toInt.natAbs = if w.toInt < 0 then -w else w := by
      rw [← BitVec.ofInt_natCast]
      split_ifs with hneg
      · rw [Int.ofNat_natAbs_of_nonpos (Int.le_of_lt hneg), BitVec.ofInt_neg, BitVec.ofInt_toInt]
      · rw [Int.natAbs_of_nonneg (Int.not_lt.mp hneg), BitVec.ofInt_toInt]
    simp only [Function.comp, hword]
    split_ifs <;> rfl
  | digits ds =>
    show fmtWidth f (ds.val ++ c :: q) args = _
    rw [fmtWidth_digits (head_digits_append ds.property hstar q),
      digitLoop_append 32 ds.property (by simpa using hdigit), Amount.read, Option.map_some,
      if_neg (Int.not_lt.mpr (Int.natCast_nonneg _)), Int.natAbs_natCast]

/-- What `fmt_core` makes of a directive. -/
def Given.spec (g : Given) (len : Length) : Spec :=
  ⟨g.flags, BitVec.ofNat 32 g.width, precWord g.prec, len⟩

/-- `fmt_core` reads a directive as it is meant. -/
theorem fmtSpec_text (args : List Arg) :
    fmtSpec (d.text ++ rest) args =
      (d.read args).map fun r => (r.1.spec d.len, d.letter.char :: rest, r.2) := by
  have htail := head_tail d rest
  have hprec : ∃ c q, d.precText ++ (d.len.text ++ [d.letter.char] ++ rest) = c :: q ∧
      (c = '.'.toUInt8 ∨ c ∈ letters) := by
    obtain ⟨c, q, heq, hc⟩ := htail
    rw [heq]
    unfold Directive.precText
    cases d.prec with
    | none => exact ⟨c, q, rfl, .inr hc⟩
    | some a => exact ⟨_, _, rfl, .inl rfl⟩
  have hstop : ∀ c, c = '.'.toUInt8 ∨ c ∈ letters → isDigit c = false ∧ c ≠ '*'.toUInt8 ∧
      c ≠ '-'.toUInt8 ∧ c ≠ '0'.toUInt8 ∧ c ≠ '+'.toUInt8 ∧ c ≠ ' '.toUInt8 := by
    rintro c (rfl | hc)
    · decide
    · obtain ⟨h1, h2, -, h3⟩ := letter_facts c hc
      exact ⟨h1, h2, h3⟩
  have hflag : ∀ c ∈ (d.width.text ++ (d.precText ++ (d.len.text ++ [d.letter.char] ++ rest))).head?,
      c ≠ '-'.toUInt8 ∧ c ≠ '0'.toUInt8 ∧ c ≠ '+'.toUInt8 ∧ c ≠ ' '.toUInt8 := by
    obtain ⟨e, q, heq, he⟩ := hprec
    rw [heq]
    have hhead := d.width_head
    intro c hc
    cases hwidth : d.width with
    | star =>
      rw [hwidth] at hc
      cases hc
      decide
    | digits ds =>
      rw [hwidth] at hc hhead
      obtain ⟨_ | ⟨b, l⟩, hds⟩ := ds
      · cases hc
        exact (hstop _ he).2.2
      · cases hc
        obtain ⟨-, h1, h3, h4⟩ := digit_ne (hds _ List.mem_cons_self)
        exact ⟨h1, by simpa [Amount.text] using hhead, h3, h4⟩
  have hwidth : ∃ c q, d.precText ++ (d.len.text ++ [d.letter.char] ++ rest) = c :: q ∧
      isDigit c = false ∧ c ≠ '*'.toUInt8 := by
    obtain ⟨c, q, heq, hc⟩ := hprec
    exact ⟨c, q, heq, (hstop c hc).1, (hstop c hc).2.1⟩
  have htext : d.text ++ rest = d.flags.map Flag.char ++
      (d.width.text ++ (d.precText ++ (d.len.text ++ [d.letter.char] ++ rest))) := by
    simp [Directive.text]
  unfold fmtSpec Directive.read
  rw [htext, fmtFlags_append _ _ hflag]
  simp only [fmtWidth_append _ _ hwidth]
  cases d.width.read args with
  | none => rfl
  | some r =>
    simp only [Option.map_some, Option.bind_some, fmtPrec_append _ htail]
    cases d.readPrec r.2 with
    | none => rfl
    | some q =>
      simp only [Option.map_some, Option.bind_some, fmtLength_append, Directive.given, Given.spec]
      by_cases hleft : Flag.minus ∈ d.flags <;> by_cases hneg : r.1 < 0 <;> simp [hleft, hneg]

theorem directiveText_text (args : List Arg) :
    directiveText (d.text ++ rest) args = (d.read args).bind fun r =>
      (switchText (r.1.spec d.len) r.2 d.letter.conv).map fun q => (q.1, rest, q.2) := by
  have hconv : fmtConv d.letter.char = d.letter.conv := by cases d.letter <;> rfl
  unfold directiveText
  rw [fmtSpec_text, ← hconv]
  cases d.read args <;> rfl

/-- `-` overrides `0`. -/
theorem read_flags {args args' : List Arg} (h : d.read args = some (g, args'))
    (hzero : g.flags.zero = true) : g.flags.left = false := by
  obtain ⟨⟨w, args1⟩, -, h⟩ := Option.bind_eq_some_iff.mp h
  obtain ⟨⟨prec, args2⟩, -, h⟩ := Option.map_eq_some_iff.mp h
  cases h
  have hleft : (!(d.given w prec).flags.left) = true := (Bool.and_eq_true .. ▸ hzero).2
  simpa using hleft

/-! ## The digits -/

theorem fmtUintLoop_eq {base : ℕ} (hbase : 1 < base) (hsmall : base ≤ 16) (uppercase : Bool)
    {fuel val : ℕ} (hval : val < 2 ^ fuel) :
    fmtUintLoop base uppercase fuel val = (Nat.digits base val).map (digitChar uppercase) := by
  have hchar : ∀ d < 16, (if d < 10 then '0'.toUInt8 + .ofNat d
      else (if uppercase then 'A'.toUInt8 else 'a'.toUInt8) + .ofNat (d - 10)) =
        digitChar uppercase d := by
    cases uppercase <;> decide
  induction fuel generalizing val with
  | zero =>
    rw [Nat.lt_one_iff.mp hval, Nat.digits_zero]
    rfl
  | succ fuel ih =>
    rw [fmtUintLoop]
    by_cases hzero : val = 0
    · rw [if_pos hzero, hzero, Nat.digits_zero]
      rfl
    · have hless : val / base < 2 ^ fuel := by
        rw [Nat.div_lt_iff_lt_mul (by omega)]
        calc val < 2 ^ fuel * 2 := hval
          _ ≤ 2 ^ fuel * base := Nat.mul_le_mul_left _ hbase
      have hdigit : val % base < 16 := (Nat.mod_lt _ (by omega)).trans_le hsmall
      rw [if_neg hzero, Nat.digits_def' hbase (Nat.pos_of_ne_zero hzero), List.map_cons,
        ← hchar _ hdigit, ← ih hless]

/-- `fmt_uint` writes one digit at least. -/
theorem fmtUint_eq {base : ℕ} (hbase : 1 < base) (hsmall : base ≤ 16) (uppercase : Bool) {val : ℕ}
    (hval : val < 2 ^ 64) :
    fmtUint base uppercase val =
      List.replicate (1 - (numeral base uppercase val).length) '0'.toUInt8 ++
        numeral base uppercase val := by
  unfold fmtUint numeral
  split_ifs with hzero
  · rw [hzero, Nat.digits_zero]
    rfl
  · have hlen : 0 < (Nat.digits base val).length :=
      List.length_pos_iff.mpr (Nat.digits_ne_nil_iff_ne_zero.mpr hzero)
    rw [fmtUintLoop_eq hbase hsmall uppercase hval, List.length_reverse, List.length_map,
      Nat.sub_eq_zero_of_le hlen]
    rfl

theorem fmtSigned_eq (g : Given) (v : ℤ) :
    fmtSigned g.flags v = (g.sign v, fmtUint 10 false v.natAbs) := by
  unfold fmtSigned Given.sign
  split_ifs with hneg
  · rw [show (-(v + 1)).toNat + 1 = v.natAbs by omega]
  all_goals rw [show v.toNat = v.natAbs by omega]

theorem vaSigned_lt {len : Length} {args : List Arg} {r : ℤ × List Arg}
    (h : vaSigned len args = some r) : r.1.natAbs < 2 ^ 64 := by
  obtain ⟨⟨w, args'⟩, -, rfl⟩ := Option.map_eq_some_iff.mp h
  dsimp only
  split_ifs
  · have h1 := BitVec.toInt_lt (x := w.setWidth 32)
    have h2 := BitVec.le_toInt (w.setWidth 32)
    omega
  · have h1 := BitVec.toInt_lt (x := w)
    have h2 := BitVec.le_toInt w
    omega

theorem vaUnsigned_lt {len : Length} {args : List Arg} {r : ℕ × List Arg}
    (h : vaUnsigned len args = some r) : r.1 < 2 ^ 64 := by
  obtain ⟨⟨w, args'⟩, -, rfl⟩ := Option.map_eq_some_iff.mp h
  dsimp only
  split_ifs
  · exact (w.setWidth 32).isLt.trans (by decide)
  · exact w.isLt

/-! ## The texts -/

namespace Given

theorem length_fill (g : Given) (t : List UInt8) : (g.fill t).length = max g.width t.length := by
  unfold fill
  split_ifs <;> simp <;> omega

theorem count_fill (g : Given) (t : List UInt8) :
    (g.fill t).count '0'.toUInt8 = t.count '0'.toUInt8 := by
  have hspaces : (List.replicate (g.width - t.length) ' '.toUInt8).count '0'.toUInt8 = 0 := by
    rw [List.count_replicate]
    rfl
  unfold fill
  split_ifs <;> simp [hspaces]

/-- The spaces of a width and a text of spaces look alike. -/
theorem fill_nil_iff (g : Given) (s : List UInt8) :
    g.fill [] = g.fill s ↔ s.length ≤ g.width ∧ ∀ c ∈ s, c = ' '.toUInt8 := by
  have hnil : g.fill [] = List.replicate g.width ' '.toUInt8 := by
    unfold fill
    split_ifs <;> simp
  rw [hnil]
  constructor
  · intro heq
    have hlen := congrArg List.length heq
    rw [length_fill, List.length_replicate] at hlen
    refine ⟨by omega, fun c hc => ?_⟩
    have hmem : c ∈ g.fill s := by
      unfold fill
      split_ifs <;> simp [hc]
    rw [← heq] at hmem
    exact List.eq_of_mem_replicate hmem
  · rintro ⟨hlen, hspaces⟩
    rw [List.eq_replicate_of_mem hspaces]
    unfold fill
    split_ifs <;>
    · simp only [List.length_replicate, List.replicate_append_replicate]
      congr 1
      omega

theorem digits_inj {k m : ℕ} {sign ds : List UInt8} (h : g.digits k sign ds = g.digits m sign ds) :
    k - ds.length = m - ds.length := by
  have hcount := congrArg (List.count '0'.toUInt8) h
  unfold digits at hcount
  simp only [count_fill, List.count_append, List.count_replicate_self] at hcount
  omega

theorem digits_eq_number_iff (g : Given) (sign ds : List UInt8) :
    g.digits (g.minDigits sign) sign ds = g.number sign ds ↔ g.Zeros sign ds := by
  unfold number Zeros
  cases g.cut with
  | none => simp
  | some k =>
    constructor
    · rintro h _ ⟨⟩
      exact (digits_inj h).symm
    · intro h
      have hk := h k rfl
      unfold digits
      rw [Option.getD_some, hk]

variable {len : Length}

theorem pad_spec (hw : g.width < 2 ^ 31) (field : ℕ) : (g.spec len).pad field = g.width - field := by
  have hint := toInt_ofNat hw
  show ((BitVec.ofNat 32 g.width).toInt - field).toNat = _
  omega

theorem stringText_spec (hw : g.width < 2 ^ 31) (t : List UInt8) :
    (g.spec len).stringText t = g.fill t := by
  unfold Spec.stringText padText fill
  rw [pad_spec hw]
  show (if !g.flags.left then _ else _) ++ t ++ (if g.flags.left then _ else _) = _
  cases g.flags.left <;> simp

theorem numberText_spec (hw : g.width < 2 ^ 31)
    (hzero : g.flags.zero = true → g.flags.left = false) (sign ds : List UInt8) :
    (g.spec len).numberText sign (List.replicate (1 - ds.length) '0'.toUInt8 ++ ds) =
      g.digits (g.minDigits sign) sign ds := by
  unfold Spec.numberText padText digits minDigits fill
  rw [pad_spec hw]
  show (if !g.flags.left && !g.flags.zero then _ else _) ++ sign ++
    (if !g.flags.left && g.flags.zero then _ else _) ++ _ ++ (if g.flags.left then _ else _) = _
  by_cases hz : g.flags.zero = true
  · -- the zeros fill the width, so there are no spaces
    rw [hzero hz, hz]
    have hnone : g.width - (sign.length + (max 1 (g.width - sign.length) - ds.length) + ds.length) = 0 := by
      omega
    simp only [Bool.not_false, Bool.not_true, Bool.and_false, Bool.and_true, if_true, if_false,
      Bool.false_eq_true, List.length_append, List.length_replicate, hnone, List.replicate_zero,
      List.nil_append, List.append_nil, ← List.append_assoc]
    rw [List.append_assoc sign, List.replicate_append_replicate]
    congr 4
    omega
  · rw [Bool.not_eq_true] at hz
    rw [hz]
    cases g.flags.left <;> simp [Nat.add_comm]

theorem numberText_iff {base val : ℕ} {uppercase : Bool} {sign : List UInt8} (hbase : 1 < base)
    (hsmall : base ≤ 16) (hval : val < 2 ^ 64) (hzero : g.flags.zero = true → g.flags.left = false)
    (hshort : (g.number sign (numeral base uppercase val)).length < 2 ^ 31) :
    (g.spec len).numberText sign (fmtUint base uppercase val) =
        g.number sign (numeral base uppercase val) ↔
      g.Zeros sign (numeral base uppercase val) := by
  have hw : g.width < 2 ^ 31 := by
    unfold number digits at hshort
    rw [length_fill] at hshort
    omega
  rw [fmtUint_eq hbase hsmall uppercase hval, numberText_spec hw hzero, digits_eq_number_iff]

end Given

/-! ## Directives -/

theorem Directive.good_iff {args args' : List Arg} (hread : d.read args = some (g, args')) :
    d.Good args ↔ d.GoodFor g args' := by
  unfold Directive.Good
  rw [hread]
  constructor
  · intro h
    exact h g args' rfl
  · rintro h _ _ ⟨⟩
    exact h

theorem cut_spec {len : Length} {s : List UInt8} (hfits : ∀ k, g.prec = some k → k < 2 ^ 31) :
    (g.spec len).cut s = match g.prec with
      | none => s
      | some k => s.take k.toNat := by
  unfold Spec.cut
  show (if 0 ≤ (precWord g.prec).toInt then s.take (precWord g.prec).toInt.toNat else s) = _
  cases hprec : g.prec with
  | none => rfl
  | some k =>
    have hk := hfits k hprec
    have hword : (precWord (some k)).toInt = k.toNat := by
      rw [precWord]
      split_ifs with hneg
      · rw [Int.toNat_of_nonpos (by omega)]
        rfl
      · rw [BitVec.toInt_ofInt, Int.toNat_of_nonneg (by omega)]
        exact Int.bmod_eq_of_le (by omega) (by omega)
    rw [hword, if_pos (Int.natCast_nonneg _), Int.toNat_natCast]

/-- A directive that the standard gives a text produces it exactly if it is a good one. -/
theorem directiveText_standard {args args' : List Arg} {t : List UInt8} (rest : List UInt8)
    (h : d.standard args = some (t, args')) (hshort : t.length < 2 ^ 31) (hfits : d.Fits args) :
    ∃ u, directiveText (d.text ++ rest) args = some (u, rest, args') ∧ (u = t ↔ d.Good args) := by
  obtain ⟨⟨g, a⟩, hread, h⟩ := Option.bind_eq_some_iff.mp h
  have hzero := read_flags hread
  have hfits := hfits g a hread
  rw [directiveText_text, hread, Directive.good_iff hread, Directive.GoodFor]
  simp only [Option.bind_some]
  have hwidth : ∀ u : List UInt8, (g.fill u).length < 2 ^ 31 → g.width < 2 ^ 31 := by
    intro u hu
    rw [Given.length_fill] at hu
    omega
  cases hletter : d.letter.conv with
  | signed =>
    simp only [hletter] at h
    obtain ⟨r, hr, h⟩ := Option.map_eq_some_iff.mp h
    cases h
    refine ⟨_, by rw [switchText, show vaSigned (g.spec d.len).len a = some r from hr]; rfl, ?_⟩
    have hsigned : fmtSigned (g.spec d.len).flags r.1 = _ := fmtSigned_eq g r.1
    dsimp only
    rw [hsigned,
      Given.numberText_iff (by decide) (by decide) (vaSigned_lt hr) hzero hshort]
    simp [hr]
  | unsigned base uppercase =>
    simp only [hletter] at h
    obtain ⟨r, hr, h⟩ := Option.map_eq_some_iff.mp h
    cases h
    have hbase : 1 < base ∧ base ≤ 16 := by
      revert hletter
      cases d.letter <;> rintro ⟨⟩ <;> decide
    refine ⟨_, by rw [switchText, show vaUnsigned (g.spec d.len).len a = some r from hr]; rfl, ?_⟩
    rw [Given.numberText_iff hbase.1 hbase.2 (vaUnsigned_lt hr) hzero hshort]
    simp [hr]
  | string =>
    simp only [hletter] at h
    split_ifs at h
    obtain ⟨⟨s, b⟩, hs, h⟩ := Option.bind_eq_some_iff.mp h
    obtain ⟨s, rfl, h⟩ := Option.map_eq_some_iff.mp h
    cases h
    refine ⟨_, by rw [switchText, hs]; rfl, ?_⟩
    dsimp only [Option.getD_some]
    rw [Given.stringText_spec (hwidth _ hshort), cut_spec hfits]
    unfold Given.cut
    cases hprec : g.prec with
    | none => simp
    | some k =>
      by_cases hneg : k < 0
      · simp [hs, hneg, Int.toNat_of_nonpos (Int.le_of_lt hneg), Given.fill_nil_iff, Int.not_le.mpr hneg]
      · simp [hneg, hs, Int.not_lt.mp hneg]
  | char =>
    simp only [hletter] at h
    split_ifs at h
    obtain ⟨r, hr, h⟩ := Option.map_eq_some_iff.mp h
    cases h
    refine ⟨_, by rw [switchText, hr]; rfl, ?_⟩
    dsimp only
    rw [Given.stringText_spec (hwidth _ hshort)]
    exact iff_of_true rfl trivial
  | percent =>
    simp only [hletter] at h
    split_ifs at h
    cases h
    exact ⟨_, rfl, by simp⟩
  | pointer => simp [hletter] at h
  | other c => simp [hletter] at h

/-! ## Formats -/

/-- A part of a format: a character that is not `%`, or a directive. -/
inductive Piece
  | plain (c : UInt8) (h : c ≠ '%'.toUInt8)
  | directive (d : Directive)

def formatText (ps : List Piece) : List UInt8 :=
  ps.flatMap fun
    | .plain c _ => [c]
    | .directive d => '%'.toUInt8 :: d.text

/-- The text that the standard prescribes for a format. -/
def standardText : List Piece → List Arg → Option (List UInt8)
  | [], _ => some []
  | .plain c _ :: ps, args => (standardText ps args).map (c :: ·)
  | .directive d :: ps, args =>
    (d.standard args).bind fun r => (standardText ps r.2).map (r.1 ++ ·)

/-- All directives of a format are good ones. -/
def GoodFormat : List Piece → List Arg → Prop
  | [], _ => True
  | .plain _ _ :: ps, args => GoodFormat ps args
  | .directive d :: ps, args =>
    d.Fits args ∧ d.Good args ∧ ∀ r, d.standard args = some r → GoodFormat ps r.2

theorem formats_standard {ps : List Piece} {args : List Arg} {t : List UInt8}
    (h : standardText ps args = some t) (hshort : t.length < 2 ^ 31) (hgood : GoodFormat ps args) :
    Formats (formatText ps) args t := by
  induction ps generalizing args t with
  | nil =>
    cases h
    intro fb _
    exact fmtCore.eq_def .. 
  | cons piece ps ih =>
    intro fb hfb
    have hcrlf : ∀ u, (fb.fbPuts u).crlf = false := fun u => (fbPuts_crlf fb u).trans hfb
    cases piece with
    | plain c hc =>
      obtain ⟨u, hu, rfl⟩ := Option.map_eq_some_iff.mp h
      rw [List.length_cons] at hshort
      show fmtCore fb (c :: formatText ps) args = _
      rw [fmtCore_cons hfb hc, ih hu (by omega) hgood _ (hcrlf _)]
      rfl
    | directive d =>
      obtain ⟨⟨t, args'⟩, hd, h⟩ := Option.bind_eq_some_iff.mp h
      obtain ⟨u, hu, rfl⟩ := Option.map_eq_some_iff.mp h
      rw [List.length_append] at hshort
      obtain ⟨v, hv, hiff⟩ :=
        directiveText_standard (formatText ps) hd (by dsimp only at hshort; omega) hgood.1
      cases hiff.mpr hgood.2.1
      show fmtCore fb ('%'.toUInt8 :: (d.text ++ formatText ps)) args = _
      rw [fmtCore_directive hfb, hv]
      show fmtCore (fb.fbPuts t) (formatText ps) args' = _
      rw [ih hu (by omega) (hgood.2.2 _ hd) _ (hcrlf _), fbPuts_append]

/-- A format of good directives is printed as the standard prescribes; of a single directive, that is
so for no others. -/
theorem vprintf_standard (stack : Memory) :
    (∀ ps args t, standardText ps args = some t → t.length < 2 ^ 31 → GoodFormat ps args →
      ∃ writes, vprintf stack (formatText ps) args = some (writes, (t.length : ℤ)) ∧
        writes.flatten = t) ∧
    ∀ (d : Directive) args t rest, d.standard args = some (t, rest) → t.length < 2 ^ 31 → d.Fits args →
      ((∃ writes ret, vprintf stack ('%'.toUInt8 :: d.text) args = some (writes, ret) ∧
        writes.flatten = t) ↔ d.Good args) := by
  refine ⟨?_, ?_⟩
  · intro ps args t h hshort hgood
    obtain ⟨writes, hprint, htext⟩ := vprintf_eq stack (formats_standard h hshort hgood)
    rw [toInt_ofNat hshort] at hprint
    exact ⟨writes, hprint, htext⟩
  · intro d args t rest h hshort hfits
    obtain ⟨u, hu, hiff⟩ := directiveText_standard [] h hshort hfits
    rw [List.append_nil] at hu
    have hout : Formats ('%'.toUInt8 :: d.text) args u := by
      intro fb hfb
      rw [fmtCore_directive hfb, hu]
      exact fmtCore.eq_def ..
    obtain ⟨writes, hprint, htext⟩ := vprintf_eq stack hout
    rw [← hiff, hprint]
    constructor
    · rintro ⟨_, _, ⟨⟩, h⟩
      exact htext.symm.trans h
    · intro heq
      exact ⟨writes, _, rfl, htext.trans heq⟩

/-- `%.5d` -/
def fiveDigits : Directive where
  flags := []
  width := .digits ⟨[], by simp⟩
  width_head := by decide
  prec := some (.digits ⟨['5'.toUInt8], by decide +kernel⟩)
  len := .int
  letter := .d

/-- `%.5d` prints 12345, and `%d` prints 7. -/
theorem vprintf_standard_numbers :
    (∃ writes ret, vprintf (fun _ => 0) ('%'.toUInt8 :: fiveDigits.text) [.word 12345] =
      some (writes, ret) ∧ writes.flatten = "12345".toList.map Char.toUInt8) ∧
    ∃ writes, vprintf (fun _ => 0) (formatText [.directive { fiveDigits with prec := none }]) [.word 7] =
      some (writes, 1) ∧ writes.flatten = ['7'.toUInt8] := by
  have hgood : fiveDigits.Good [.word 12345] := by
    rintro g args' ⟨⟩ r ⟨⟩ k ⟨⟩
    decide +kernel
  have hplain : GoodFormat [.directive { fiveDigits with prec := none }] [.word 7] := by
    refine ⟨?_, ?_, fun r _ => trivial⟩
    · rintro g args' ⟨⟩ k ⟨⟩
    · rintro g args' ⟨⟩ r ⟨⟩ k ⟨⟩
  refine ⟨((vprintf_standard _).2 fiveDigits _ _ [] (by decide +kernel) (by decide) ?_).mpr hgood,
    (vprintf_standard _).1 _ _ ['7'.toUInt8] (by decide +kernel) (by decide) hplain⟩
  rintro g args' ⟨⟩ k ⟨⟩
  decide +kernel

/-- `%.5d` prints 42 without zeros in front. -/
theorem vprintf_ignores_precision :
    fiveDigits.standard [.word 42] = some ("00042".toList.map Char.toUInt8, []) ∧
      ∃ writes ret, vprintf (fun _ => 0) ('%'.toUInt8 :: fiveDigits.text) [.word 42] =
        some (writes, ret) ∧ writes.flatten = "42".toList.map Char.toUInt8 := by
  have hout : Formats ('%'.toUInt8 :: fiveDigits.text) [.word 42] ("42".toList.map Char.toUInt8) := by
    intro fb hfb
    have hd : directiveText fiveDigits.text [.word 42] = some ("42".toList.map Char.toUInt8, [], []) := rfl
    rw [fmtCore_directive hfb, hd]
    exact fmtCore.eq_def ..
  obtain ⟨writes, hprint, htext⟩ := vprintf_eq (fun _ => 0) hout
  exact ⟨by decide +kernel, writes, _, hprint, htext⟩

end Perspicua.Libc
