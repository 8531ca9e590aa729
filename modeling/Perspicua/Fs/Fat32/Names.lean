import Perspicua.Fs.Fat32.State

/-!
# Names and dates in directory entries

The long name of an entry is assembled from the fragments before it; its short name is its
own first eleven bytes. Names are compared without regard to case.
-/

namespace Perspicua.Fs

/-- An ASCII character as a byte. -/
def ch (c : Char) : UInt8 := UInt8.ofNat c.toNat

def foldUpper (c : UInt8) : UInt8 := if ch 'a' ≤ c ∧ c ≤ ch 'z' then c - 32 else c

def nameEqNocase (a b : Name) : Bool := a.map foldUpper == b.map foldUpper

/-- Fill up with blanks. -/
def padTo (n : ℕ) (l : List UInt8) : List UInt8 := l ++ List.replicate (n - l.length) (ch ' ')

/-- `name_as_83`: name and extension the way an 8.3 entry holds them, case folded. -/
def nameAs83 (name : Name) : Option (List UInt8) :=
  if name.isEmpty || name.head? == some (ch '.') then none
  else
    let base := name.takeWhile (· != ch '.')
    let ext := (name.dropWhile (· != ch '.')).drop 1
    if base.length > 8 || ext.length > 3 || ext.contains (ch '.') then none
    else some (padTo 8 (base.map foldUpper) ++ padTo 3 (ext.map foldUpper))

/-- Characters FAT accepts in a short name. -/
def shortNameCharOk (c : UInt8) : Bool :=
  (ch 'A' ≤ c && c ≤ ch 'Z') || (ch '0' ≤ c && c ≤ ch '9') ||
    ("$%'-_@~`!()\x7b\x7d^#&".toList.map ch).contains c

/-- `name_fits_83`: the name survives the trip through an 8.3 entry. -/
def nameFits83 (name : Name) : Bool :=
  let base := name.takeWhile (· != ch '.')
  let ext := (name.dropWhile (· != ch '.')).drop 1
  !base.isEmpty && base.all shortNameCharOk && ext.all shortNameCharOk && base.length ≤ 8 &&
    ext.length ≤ 3

def lfnChecksum (short : List UInt8) : UInt8 :=
  short.foldl (fun sum b => ((sum &&& 1) <<< 7) + (sum >>> 1) + b) 0

/-! ## Long names -/

/-- `struct lfn_run`: a long name being assembled. -/
structure LfnRun where
  name : ℕ → UInt8
  active : Bool
  nextSeq : ℕ
  sum : UInt8

def lfnReset (run : LfnRun) : LfnRun := { run with name := fun _ => 0, active := false, nextSeq := 0 }

def LfnRun.start : LfnRun := { name := fun _ => 0, active := false, nextSeq := 0, sum := 0 }

/-- The string in the name buffer. -/
def LfnRun.string (run : LfnRun) : Name := ((List.range 256).map run.name).takeWhile (· != 0)

/-- `lfn->sequence & 0x3F`. -/
def lfnSeq (e : DirEntry) : ℕ := (e 0 &&& 0x3F).toNat

def lfnIsLast (e : DirEntry) : Bool := e 0 &&& 0x40 != 0

/-- The low byte of character `k` of a fragment. -/
def lfnChar (e : DirEntry) (k : ℕ) : UInt8 :=
  if k < 5 then e (Fin.ofNat 32 (1 + 2 * k))
  else if k < 11 then e (Fin.ofNat 32 (14 + 2 * (k - 5)))
  else e (Fin.ofNat 32 (28 + 2 * (k - 11)))

/-- `extract_lfn_part`: place one fragment, or refuse its sequence number. -/
def extractLfnPart (e : DirEntry) (buf : ℕ → UInt8) : Option (ℕ → UInt8) :=
  let seq := lfnSeq e
  if seq < 1 || seq > 20 then none
  else
    let pos := (seq - 1) * 13
    some fun k => if pos ≤ k ∧ k < pos + 13 ∧ k < 255 then lfnChar e (k - pos) else buf k

/-- `lfn_add`: the run after a fragment, and whether the fragment extended it. -/
def lfnAdd (run : LfnRun) (e : DirEntry) : Bool × LfnRun :=
  let run := if lfnIsLast e then
    { lfnReset run with active := true, nextSeq := lfnSeq e, sum := e 13 } else run
  if !run.active || lfnSeq e != run.nextSeq || e 13 != run.sum then (false, lfnReset run)
  else
    match extractLfnPart e run.name with
    | none => (false, lfnReset run)
    | some name => (true, { run with name := name, nextSeq := run.nextSeq - 1 })

/-- `lfn_names`: the run is complete and belongs to this entry. -/
def lfnNames (run : LfnRun) (e : DirEntry) : Bool :=
  run.active && run.nextSeq == 0 && run.sum == lfnChecksum e.shortName

/-- `entry_named`: whether a name is how an entry is known. -/
def entryNamed (name : Name) (e : DirEntry) (lfnName : Option Name) : Bool :=
  if e.isLabel then false
  else if lfnName.elim false (nameEqNocase name) then true
  else nameAs83 name == some e.shortName

/-- The fragment with sequence number `seq` out of `count` of a long name. -/
def lfnEntry (name : Name) (count seq : ℕ) (checksum : UInt8) : DirEntry :=
  let char (k : ℕ) : UInt8 × UInt8 :=
    let idx := (seq - 1) * 13 + k
    if idx < name.length then (name.getD idx 0, 0)
    else if idx = name.length then (0, 0)
    else (0xFF, 0xFF)
  let half (k : ℕ) : UInt8 := if k % 2 = 0 then (char (k / 2)).1 else (char (k / 2)).2
  fun i =>
    if i.val = 0 then UInt8.ofNat (if seq = count then 0x40 ||| seq else seq)
    else if i.val < 11 then half (i - 1)
    else if i.val = 11 then 0x0F
    else if i.val = 12 then 0
    else if i.val = 13 then checksum
    else if i.val < 26 then half (i - 14 + 10)
    else if i.val < 28 then 0
    else half (i - 28 + 22)

/-! ## Short names for long ones -/

/-- The base and the extension `generate_short_name` starts from. -/
def aliasBase (name : Name) : List UInt8 × List UInt8 :=
  let sane (c : UInt8) : UInt8 := if shortNameCharOk c then c else ch '_'
  let hasDot := name.contains (ch '.')
  let ext := if hasDot then (name.reverse.takeWhile (· != ch '.')).reverse else []
  let stem := if hasDot then name.take (name.length - ext.length - 1) else name
  let base := (((stem.map foldUpper).filter (· != ch ' ')).map sane).take 6
  (if base.isEmpty then [ch '_'] else base, ((ext.map foldUpper).map sane).take 3)

def decimal (n : ℕ) : List UInt8 := (Nat.toDigits 10 n).map ch

/-- `alias_with_tail`: `BASE~N`, shortening the base to make room for the tail. -/
def aliasWithTail (base : List UInt8) (n : ℕ) : Option (List UInt8) :=
  let tail := ch '~' :: decimal n
  if tail.length > 7 then none
  else
    let keep := if base.length + tail.length > 8 then 8 - tail.length else base.length
    some (padTo 8 (base.take keep ++ tail))

/-- The tail number `alias_scan_cb` reads off a name, 0 for none. -/
def aliasNumber (name : List UInt8) : ℕ :=
  let digits := ((name.dropWhile (· != ch '~')).drop 1).takeWhile fun c => ch '0' ≤ c && c ≤ ch '9'
  digits.foldl (fun n c => n * 10 + (c - ch '0').toNat) 0

/-! ## Dates -/

/-- The date and the time `fat32_stamp_entry` packs for a second since 1970. -/
def fatDateTime (secs : ℕ) : ℕ × ℕ :=
  let rem := secs % 86400
  let z := secs / 86400 + 719468
  let era := z / 146097
  let doe := z - era * 146097
  let yoe := (doe - doe / 1460 + doe / 36524 - doe / 146096) / 365
  let doy := doe - (365 * yoe + yoe / 4 - yoe / 100)
  let mp := (5 * doy + 2) / 153
  let d := doy - (153 * mp + 2) / 5 + 1
  let month := if mp < 10 then mp + 3 else mp - 9
  let y := yoe + era * 400 + if month ≤ 2 then 1 else 0
  let y := if y < 1980 then 1980 else y
  ((((y - 1980) <<< 9) ||| (month <<< 5) ||| d) % 2 ^ 16,
    (((rem / 3600) <<< 11) ||| ((rem % 3600 / 60) <<< 5) ||| (rem % 60 / 2)) % 2 ^ 16)

/-- Store a 16-bit field. -/
def DirEntry.setU16 (e : DirEntry) (i j : Fin 32) (x : ℕ) : DirEntry :=
  Function.update (Function.update e i (UInt8.ofNat x)) j (UInt8.ofNat (x / 2 ^ 8))

/-- `fat32_stamp_entry`. -/
def stampEntry (e : DirEntry) (secs : ℕ) (created : Bool) : DirEntry :=
  let dt := fatDateTime secs
  let e := ((e.setU16 24 25 dt.1).setU16 22 23 dt.2).setU16 18 19 dt.1
  if created then Function.update ((e.setU16 16 17 dt.1).setU16 14 15 dt.2) 13 0 else e

end Perspicua.Fs
