import Mathlib.Data.Nat.Notation
import Mathlib.Tactic.SplitIfs
import Mathlib.Tactic.Common

/-!
# How the shell reads a command

A command without `;`, `&&` and `||` goes through `expand_variables` and `expand_operators`, is
split at its pipes by `execute_pipeline`, and each part is cut into words by `parse_command`
(`user/apps/sh/parse.c`, `exec.c`). What an expansion produces and what stands in quotes is text: its
syntax characters travel as the bytes 1 to 6 and are put back at the end.

Every character that `expand_variables` puts out is marked here with where it comes from; the passes
see its byte. What a command means is said on the marks, without stand-ins and without limits, and
`parsePipeline` is compared with it.
-/

namespace Perspicua.User.Parse

abbrev Bytes := List UInt8

def singleQuote : UInt8 := 39
def doubleQuote : UInt8 := 34
def lt : UInt8 := 60
def gt : UInt8 := 62
def pipe : UInt8 := 124
def amp : UInt8 := 38
def dollar : UInt8 := 36

def isBlank (c : UInt8) : Bool := c = 32 || c = 9

/-! ## Stand-ins -/

/-- `lit_syntax` -/
def litSyntax : Bytes := [pipe, lt, gt, amp, doubleQuote, singleQuote]

def litEncode (c : UInt8) : UInt8 :=
  if c ∈ litSyntax then UInt8.ofNat (1 + litSyntax.idxOf c) else c

def isStandIn (c : UInt8) : Bool := 1 ≤ c && c ≤ 6

/-- Where a character comes from: the command, outside or inside quotes, or a value, or it is a quote. -/
inductive Kind
  | bare
  | value
  | quoted
  | quotedValue
  | delim
deriving DecidableEq

structure Mark where
  kind : Kind
  c : UInt8
deriving DecidableEq

/-- The byte in the buffer. -/
def Mark.byte (m : Mark) : UInt8 :=
  if m.kind = .value ∨ m.kind = .quotedValue then litEncode m.c else m.c

def bytes (ms : List Mark) : Bytes := ms.map Mark.byte

/-- A quote opens or closes here; `q` is the quote that is open. -/
def isDelim (q : Option UInt8) (c : UInt8) : Bool :=
  (c = singleQuote || c = doubleQuote) && (q = none || q = some c)

def flip (q : Option UInt8) (c : UInt8) : Option UInt8 := if q = none then some c else none

/-- The environment, and the texts of `$?` and `$$`. -/
structure Shell where
  getenv : Bytes → Option Bytes
  status : Bytes
  pid : Bytes

def isNameChar (c : UInt8) : Bool :=
  (65 ≤ c && c ≤ 90) || (97 ≤ c && c ≤ 122) || (48 ≤ c && c ≤ 57) || c = 95

/-- The value after a `$`, and how many characters name it. -/
def expansion (sh : Shell) (src : Bytes) : Option (Bytes × ℕ) :=
  if src.head? = some 63 then some (sh.status, 1)
  else if src.head? = some dollar then some (sh.pid, 1)
  else if src.head? = some 123 then
    let name := src.tail.takeWhile isNameChar
    if name = [] ∨ src.tail[name.length]? ≠ some 125 then none
    else some ((sh.getenv name).getD [], name.length + 2)
  else
    let name := src.takeWhile isNameChar
    if name = [] then none else some ((sh.getenv name).getD [], name.length)

/-- The kind of a character of the command, and of a value. -/
def sourceKind (q : Option UInt8) : Kind := if q = none then .bare else .quoted
def valueKind (q : Option UInt8) : Kind := if q = none then .value else .quotedValue

/-- The loop of `expand_variables`; `skip` counts the characters of a name. -/
def expandLoop (sh : Shell) : ℕ → Option UInt8 → Bytes → List Mark
  | _, _, [] => []
  | skip + 1, q, _ :: src => expandLoop sh skip q src
  | 0, q, c :: src =>
    if isDelim q c then ⟨.delim, c⟩ :: expandLoop sh 0 (flip q c) src
    else if c = dollar ∧ q ≠ some singleQuote then
      match expansion sh src with
      | none => ⟨sourceKind q, c⟩ :: expandLoop sh 0 q src
      | some (v, n) => v.map (⟨valueKind q, ·⟩) ++ expandLoop sh n q src
    else ⟨sourceKind q, c⟩ :: expandLoop sh 0 q src

/-- `name[64]` -/
def Shell.cut (sh : Shell) : Shell := { sh with getenv := fun name => sh.getenv (name.take 63) }

def isOperator (c : UInt8) : Bool := c = lt || c = gt || c = pipe

structure Command where
  argv : List Bytes := []
  infile : Option Bytes := none
  outfile : Option Bytes := none
  append : Bool := false
  background : Bool := false
deriving DecidableEq

def Command.addArg (cmd : Command) (max : ℕ) (arg : Bytes) : Command :=
  if cmd.argv.length < max then { cmd with argv := cmd.argv ++ [arg] } else cmd

inductive Role
  | infile
  | outfile
  | append
  | background
  | word
deriving DecidableEq

/-- The last loop of `parse_command`, for words of any kind. -/
def assign {τ : Type} (role : τ → Role) (text : τ → Bytes) (max : ℕ) : Command → List τ → Command
  | cmd, [] => cmd
  | cmd, [t] => if role t = .background then { cmd with background := true } else cmd.addArg max (text t)
  | cmd, t :: u :: ts =>
    match role t with
    | .infile => assign role text max { cmd with infile := some (text u) } ts
    | .outfile => assign role text max { cmd with outfile := some (text u) } ts
    | .append => assign role text max { cmd with append := true, outfile := some (text u) } ts
    | .background => assign role text max { cmd with background := true } (u :: ts)
    | .word => assign role text max (cmd.addArg max (text t)) (u :: ts)

/-- `CMD_MAX_LEN * 2` -/
def bufferSize : ℕ := 1024

def space : Mark := ⟨.bare, 32⟩

/-- Operators are words of their own. -/
def padOperators : List Mark → List Mark
  | [] => []
  | [m] => if m.kind = .bare ∧ isOperator m.c then [space, m, space] else [m]
  | m :: n :: ms =>
    if m = ⟨.bare, gt⟩ ∧ n = ⟨.bare, gt⟩ then space :: m :: n :: space :: padOperators ms
    else if m.kind = .bare ∧ isOperator m.c then space :: m :: space :: padOperators (n :: ms)
    else m :: padOperators (n :: ms)

/-- Words end at blanks outside quotes. -/
def Mark.separates (m : Mark) : Bool := (m.kind = .bare || m.kind = .value) && isBlank m.c

/-- The words of a command, without their quotes. A pair of quotes is a word even if it is empty. -/
def wordsOf : Option (List Mark) → List Mark → List (List Mark)
  | w, [] => w.toList
  | w, m :: ms =>
    if m.separates then w.toList ++ wordsOf none ms
    else if m.kind = .delim then wordsOf (some (w.getD [])) ms
    else wordsOf (some (w.getD [] ++ [m])) ms

/-- Only characters of the command outside quotes are operators. -/
def wordRole (w : List Mark) : Role :=
  if w = [⟨.bare, lt⟩] then .infile
  else if w = [⟨.bare, gt⟩] then .outfile
  else if w = [⟨.bare, gt⟩, ⟨.bare, gt⟩] then .append
  else if w = [⟨.bare, amp⟩] then .background
  else .word

def wordText (w : List Mark) : Bytes := w.map Mark.c

def meaningOf (ms : List Mark) : Command :=
  assign wordRole wordText (wordsOf none ms).length {} (wordsOf none ms)

def isPipe (m : Mark) : Bool := m = ⟨.bare, pipe⟩

/-- The parts between the pipes. -/
def parts (sh : Shell) (cmd : Bytes) : List (List Mark) :=
  (padOperators (expandLoop sh 0 none cmd)).splitOnP isPipe

/-- The command stays within the limits of the shell, and none of its text is a stand-in. -/
structure Fits (sh : Shell) (cmd : Bytes) : Prop where
  names : expandLoop sh.cut 0 none cmd = expandLoop sh 0 none cmd
  standIns : ∀ ms ∈ parts sh cmd, ∀ m ∈ ms, isStandIn m.c = false
  expanded : (expandLoop sh 0 none cmd).length < bufferSize
  padded : (padOperators (expandLoop sh 0 none cmd)).length + 4 ≤ bufferSize
  words : ∀ ms ∈ parts sh cmd, (wordsOf none ms).length ≤ 64
  args : ∀ ms ∈ parts sh cmd, (meaningOf ms).argv.length ≤ 31

end Perspicua.User.Parse
