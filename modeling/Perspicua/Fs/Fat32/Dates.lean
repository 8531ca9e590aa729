import Perspicua.Fs.Fat32.Dir
import Perspicua.Fs.Fat32.Walk

/-!
# Times in directory entries

`fat32_stamp_entry` turns a day number into a date with the arithmetic of 400-year eras, whose years
begin in March, and packs date and time into two 16-bit fields. `fat32_decode_time` unpacks them and
counts the days with a formula of its own. The two are inverse from 1980 to 2107, the years that
the format has, up to the odd second that it has no bit for; `fat32_stat` reports the result in 32
bits, which end in 2106.
-/

namespace Perspicua.Fs

open Perspicua.Lib Prog

/-! ## Decoding -/

/-- `days_from_civil`, in `core/timer.c`. -/
def daysFromCivil (year month day : ℤ) : ℤ :=
  let year := if month ≤ 2 then year - 1 else year
  let era := (if year ≥ 0 then year else year - 399).tdiv 400
  let yoe := year - era * 400
  let doy := (153 * (month + if month > 2 then -3 else 9) + 2).tdiv 5 + day - 1
  let doe := yoe * 365 + yoe.tdiv 4 - yoe.tdiv 100 + doy
  era * 146097 + doe - 719468

/-- `timer_civil_to_epoch`. -/
def timerCivilToEpoch (year month day hour min sec : ℤ) : ℤ :=
  daysFromCivil year month day * 86400 + hour * 3600 + min * 60 + sec

/-- `fat32_decode_time`. -/
def fat32DecodeTime (date time : ℕ) : ℤ :=
  if date = 0 then 0  -- never stamped
  else
    let year := 1980 + (date >>> 9)
    let month := (date >>> 5) &&& 0x0F
    let day := date &&& 0x1F
    let hour := time >>> 11
    let min := (time >>> 5) &&& 0x3F
    let sec := (time &&& 0x1F) * 2
    if month < 1 ∨ month > 12 ∨ day < 1 ∨ day > 31 then 0
    else timerCivilToEpoch year month day hour min sec

namespace DirEntry

def createTime (e : DirEntry) : ℕ := le16 (e 14) (e 15)

def createDate (e : DirEntry) : ℕ := le16 (e 16) (e 17)

def lastModTime (e : DirEntry) : ℕ := le16 (e 22) (e 23)

def lastModDate (e : DirEntry) : ℕ := le16 (e 24) (e 25)

end DirEntry

/-- The fields of `struct stat` that `fat32_stat` fills in; they have 32 bits. -/
structure StatTimes where
  stMtime : UInt32
  stCtime : UInt32
  stAtime : UInt32

/-- The times of an entry, as `fat32_stat` reports them. -/
def statTimes (e : DirEntry) : StatTimes :=
  let mtime := UInt32.ofInt (fat32DecodeTime e.lastModDate e.lastModTime)
  { stMtime := mtime
    stCtime := UInt32.ofInt (fat32DecodeTime e.createDate e.createTime)
    stAtime := mtime }

def statCb (name : Name) : WalkCb (Option StatTimes) := fun buf pos ctx =>
  let e := buf pos.slot.index
  pure <|
    if e.first = 0 then { action := .stop, buf := buf, dirty := false, ctx := ctx }
    else if e.first = 0xE5 then { action := .cont, buf := buf, dirty := false, ctx := ctx }
    else if !entryNamed name e pos.lfnName then
      { action := .cont, buf := buf, dirty := false, ctx := ctx }
    else { action := .stop, buf := buf, dirty := false, ctx := some (statTimes e) }

/-- `fat32_stat`: the times it fills in, if it finds the entry. -/
def fat32Stat (m : Mount) (v : ℕ) : FsM (Res (Option StatTimes)) := do
  let n ← node v
  match n.parent with
  | none => pure (.ok none)
  | some p => do
    let parent ← node p
    match ← dirWalk m (statCb n.name) parent.cluster false none with
    | (.ok _, times) | (.error .enoent, times) => pure (.ok times)
    | (.error e, _) => pure (.error e)

/-! ## The years of an era -/

/-- The days of an era before its year `y`. -/
def yearStart (y : ℕ) : ℕ := 365 * y + y / 4 - y / 100

/-- The year of a day of an era, as `fat32_stamp_entry` computes it. -/
def yearOfEra (doe : ℕ) : ℕ := (doe - doe / 1460 + doe / 36524 - doe / 146096) / 365

theorem yearOfEra_mono : Monotone yearOfEra := by
  refine monotone_nat_of_le_succ fun n => ?_
  -- an era ends with its last century, so the last correction comes with the one before it
  have hlast : ∀ k : ℕ, k / 146096 = k / 36524 / 4 := fun k => by omega
  unfold yearOfEra
  rw [hlast, hlast]
  apply Nat.div_le_div_right
  omega

/-- The first and the last day of each year. The last year is a day longer than the formula says. -/
theorem yearOfEra_year : ∀ y < 400, yearOfEra (yearStart y) = y ∧
    yearOfEra ((if y = 399 then 146097 else yearStart (y + 1)) - 1) = y := by
  decide +kernel

theorem exists_year {n doe : ℕ} (h : doe < yearStart n) :
    ∃ y < n, yearStart y ≤ doe ∧ doe < yearStart (y + 1) := by
  induction n with
  | zero => exact absurd h (Nat.not_lt_zero doe)
  | succ n ih =>
    by_cases hn : doe < yearStart n
    · obtain ⟨y, hy, hdoe⟩ := ih hn
      exact ⟨y, Nat.lt_succ_of_lt hy, hdoe⟩
    · exact ⟨n, Nat.lt_succ_self n, Nat.le_of_not_lt hn, h⟩

/-- A day of an era lies in its year. -/
theorem yearOfEra_spec {doe : ℕ} (h : doe < 146097) :
    yearOfEra doe < 400 ∧ yearStart (yearOfEra doe) ≤ doe ∧ doe ≤ yearStart (yearOfEra doe) + 365 := by
  -- the year that contains the day is the one that the formula gives for its first and last day
  have hyear : ∀ y < 400, yearStart y ≤ doe →
      doe ≤ (if y = 399 then 146097 else yearStart (y + 1)) - 1 → yearOfEra doe = y := by
    intro y hy hlo hhi
    obtain ⟨hfirst, hlast⟩ := yearOfEra_year y hy
    have h1 := yearOfEra_mono hlo
    have h2 := yearOfEra_mono hhi
    omega
  by_cases hday : doe < yearStart 400
  · obtain ⟨y, hy, hlo, hhi⟩ := exists_year hday
    have heq : yearOfEra doe = y := by
      refine hyear y hy hlo ?_
      split
      · omega
      · omega
    rw [heq]
    unfold yearStart at hlo hhi ⊢
    omega
  · have hlast : doe = 146096 := by
      have : yearStart 400 = 146096 := rfl
      omega
    subst hlast
    decide

/-! ## Dates -/

/-- The month, from March on, of a day of the year. -/
def monthOfYear (doy : ℕ) : ℕ := (5 * doy + 2) / 153

/-- The days of the year before a month. -/
def monthStart (mp : ℕ) : ℕ := (153 * mp + 2) / 5

theorem monthOfYear_spec {doy : ℕ} (h : doy ≤ 365) :
    monthOfYear doy ≤ 11 ∧ monthStart (monthOfYear doy) ≤ doy ∧
      doy ≤ monthStart (monthOfYear doy) + 30 := by
  unfold monthStart monthOfYear
  omega

/-- The date that `fat32_stamp_entry` computes for a day: era, year of the era, month, day. -/
structure CivilDate where
  era : ℕ
  yoe : ℕ
  month : ℕ
  day : ℕ

def civilDate (days : ℕ) : CivilDate :=
  let z := days + 719468
  let era := z / 146097
  let doe := z - era * 146097
  let yoe := yearOfEra doe
  let doy := doe - yearStart yoe
  let mp := monthOfYear doy
  { era := era
    yoe := yoe
    month := if mp < 10 then mp + 3 else mp - 9
    day := doy - monthStart mp + 1 }

/-- Years begin in March, so January and February belong to the next one. -/
def CivilDate.year (c : CivilDate) : ℕ := c.yoe + c.era * 400 + if c.month ≤ 2 then 1 else 0

/-- The month from March on. -/
def CivilDate.fromMarch (c : CivilDate) : ℕ := if c.month > 2 then c.month - 3 else c.month + 9

theorem civilDate_spec (days : ℕ) :
    (civilDate days).yoe < 400 ∧ 1 ≤ (civilDate days).month ∧ (civilDate days).month ≤ 12 ∧
      1 ≤ (civilDate days).day ∧ (civilDate days).day ≤ 31 ∧
      days + 719468 = (civilDate days).era * 146097 + yearStart (civilDate days).yoe +
        monthStart (civilDate days).fromMarch + (civilDate days).day - 1 := by
  unfold civilDate
  dsimp only
  generalize hera : (days + 719468) / 146097 = era
  have hdoe : days + 719468 - era * 146097 < 146097 := by omega
  have hsum : days + 719468 = era * 146097 + (days + 719468 - era * 146097) := by omega
  generalize days + 719468 - era * 146097 = doe at hdoe hsum ⊢
  obtain ⟨hyoe, hlo, hhi⟩ := yearOfEra_spec hdoe
  obtain ⟨hmp, hmlo, hmhi⟩ := monthOfYear_spec (show doe - yearStart (yearOfEra doe) ≤ 365 by omega)
  generalize monthOfYear (doe - yearStart (yearOfEra doe)) = mp at hmp hmlo hmhi ⊢
  have hmarch : CivilDate.fromMarch ⟨era, yearOfEra doe, if mp < 10 then mp + 3 else mp - 9,
      doe - yearStart (yearOfEra doe) - monthStart mp + 1⟩ = mp := by
    unfold CivilDate.fromMarch
    dsimp only
    split <;> split <;> omega
  rw [hmarch]
  refine ⟨hyoe, ?_, ?_, by omega, by omega, by omega⟩
  · split <;> omega
  · split <;> omega

/-- The two formulas are inverse. -/
theorem daysFromCivil_civilDate (days : ℕ) :
    daysFromCivil (civilDate days).year (civilDate days).month (civilDate days).day = days := by
  obtain ⟨hyoe, hm1, hm12, hd1, -, hsum⟩ := civilDate_spec days
  generalize civilDate days = c at hyoe hm1 hm12 hd1 hsum ⊢
  have hyear : (if (c.month : ℤ) ≤ 2 then (c.year : ℤ) - 1 else c.year) =
      ((c.yoe + c.era * 400 : ℕ) : ℤ) := by
    unfold CivilDate.year
    split <;> split <;> omega
  have hmonth : 153 * ((c.month : ℤ) + if (c.month : ℤ) > 2 then -3 else 9) + 2 =
      ((153 * c.fromMarch + 2 : ℕ) : ℤ) := by
    unfold CivilDate.fromMarch
    split <;> split <;> omega
  unfold daysFromCivil
  dsimp only
  rw [hyear, hmonth, if_pos (Int.natCast_nonneg _)]
  have hera : ((c.yoe + c.era * 400 : ℕ) : ℤ).tdiv 400 = c.era := by
    rw [Int.tdiv_eq_ediv_of_nonneg (Int.natCast_nonneg _)]
    omega
  have hrest : ((c.yoe + c.era * 400 : ℕ) : ℤ) - c.era * 400 = c.yoe := by omega
  rw [hera, hrest, Int.tdiv_eq_ediv_of_nonneg (Int.natCast_nonneg _),
    Int.tdiv_eq_ediv_of_nonneg (Int.natCast_nonneg _), Int.tdiv_eq_ediv_of_nonneg (Int.natCast_nonneg _)]
  unfold yearStart monthStart at hsum
  omega

/-- The days from the start of 1980 to the end of 2107. -/
theorem civilDate_year_range {days : ℕ} (hlo : 3652 ≤ days) (hhi : days < 50403) :
    1980 ≤ (civilDate days).year ∧ (civilDate days).year ≤ 2107 := by
  obtain ⟨hyoe, hm1, hm12, hd1, hd31, hsum⟩ := civilDate_spec days
  generalize civilDate days = c at hyoe hm1 hm12 hd1 hd31 hsum ⊢
  unfold CivilDate.year
  unfold yearStart monthStart CivilDate.fromMarch at hsum
  -- the range lies in two eras
  have hera : c.era = 4 ∨ c.era = 5 := by
    split at hsum <;> omega
  rcases hera with hera | hera
  · rw [hera] at hsum ⊢
    split at hsum <;> split <;> omega
  · rw [hera] at hsum ⊢
    split at hsum <;> split <;> omega

/-! ## Packed fields -/

/-- Three fields side by side: the last of five bits, the one before it of `k`. -/
theorem packed_eq {k a b d : ℕ} (hb : b < 2 ^ k) (hd : d < 32) :
    (a <<< (k + 5) ||| b <<< 5 ||| d) = (a * 2 ^ k + b) * 32 + d := by
  have hmid : b <<< 5 < 2 ^ (k + 5) := by
    rw [Nat.shiftLeft_eq, Nat.pow_add]
    exact Nat.mul_lt_mul_of_pos_right hb (by decide)
  have hhigh : (a <<< (k + 5) ||| b <<< 5) = (a * 2 ^ k + b) <<< 5 := by
    rw [← Nat.shiftLeft_add_eq_or_of_lt hmid, Nat.shiftLeft_eq, Nat.shiftLeft_eq, Nat.shiftLeft_eq,
      Nat.pow_add, ← Nat.mul_assoc, Nat.add_mul]
  rw [hhigh, ← Nat.shiftLeft_add_eq_or_of_lt hd, Nat.shiftLeft_eq]

theorem fatDateTime_date {secs : ℕ} (hlo : 3652 ≤ secs / 86400) (hhi : secs / 86400 < 50403) :
    (fatDateTime secs).1 = (((civilDate (secs / 86400)).year - 1980) * 16 +
      (civilDate (secs / 86400)).month) * 32 + (civilDate (secs / 86400)).day := by
  obtain ⟨hy, hy'⟩ := civilDate_year_range hlo hhi
  obtain ⟨-, -, hm, -, hd, -⟩ := civilDate_spec (secs / 86400)
  show (((if (civilDate (secs / 86400)).year < 1980 then 1980 else (civilDate (secs / 86400)).year) -
    1980) <<< 9 ||| (civilDate (secs / 86400)).month <<< 5 ||| (civilDate (secs / 86400)).day) % 2 ^ 16 = _
  rw [if_neg (by omega), packed_eq (k := 4) (by omega) (by omega)]
  omega

theorem fatDateTime_time (secs : ℕ) :
    (fatDateTime secs).2 = (secs % 86400 / 3600 * 64 + secs % 86400 % 3600 / 60) * 32 +
      secs % 86400 % 60 / 2 := by
  show ((secs % 86400 / 3600) <<< 11 ||| (secs % 86400 % 3600 / 60) <<< 5 ||| (secs % 86400 % 60 / 2)) %
    2 ^ 16 = _
  rw [packed_eq (k := 6) (by omega) (by omega)]
  omega

/-- What was packed is unpacked, and the odd second is gone. -/
theorem decode_fatDateTime {secs : ℕ} (hlo : 3652 ≤ secs / 86400) (hhi : secs / 86400 < 50403) :
    fat32DecodeTime (fatDateTime secs).1 (fatDateTime secs).2 = ((secs - secs % 2 : ℕ) : ℤ) := by
  have hdays := daysFromCivil_civilDate (secs / 86400)
  obtain ⟨hy, hy'⟩ := civilDate_year_range hlo hhi
  obtain ⟨-, hm1, hm12, hd1, hd31, -⟩ := civilDate_spec (secs / 86400)
  rw [fatDateTime_date hlo hhi, fatDateTime_time]
  generalize civilDate (secs / 86400) = c at hdays hy hy' hm1 hm12 hd1 hd31 ⊢
  unfold fat32DecodeTime
  simp only [Nat.shiftRight_eq_div_pow]
  rw [show (0x0F : ℕ) = 2 ^ 4 - 1 by decide, show (0x1F : ℕ) = 2 ^ 5 - 1 by decide,
    show (0x3F : ℕ) = 2 ^ 6 - 1 by decide]
  simp only [Nat.and_two_pow_sub_one_eq_mod]
  have hyear : 1980 + (((c.year - 1980) * 16 + c.month) * 32 + c.day) / 2 ^ 9 = c.year := by omega
  have hmonth : (((c.year - 1980) * 16 + c.month) * 32 + c.day) / 2 ^ 5 % 2 ^ 4 = c.month := by omega
  have hday : (((c.year - 1980) * 16 + c.month) * 32 + c.day) % 2 ^ 5 = c.day := by omega
  rw [hyear, hmonth, hday, if_neg (by omega), if_neg (by omega)]
  unfold timerCivilToEpoch
  rw [hdays]
  omega

/-! ## The entry -/

theorem le16_ofNat {x : ℕ} (h : x < 2 ^ 16) : le16 (UInt8.ofNat x) (UInt8.ofNat (x / 256)) = x := by
  rw [le16, UInt8.toNat_ofNat', UInt8.toNat_ofNat']
  omega

theorem stampEntry_lastMod (e : DirEntry) (secs : ℕ) (created : Bool) :
    (stampEntry e secs created).lastModDate = (fatDateTime secs).1 ∧
      (stampEntry e secs created).lastModTime = (fatDateTime secs).2 := by
  have hdate : (fatDateTime secs).1 < 2 ^ 16 := Nat.mod_lt _ (by decide)
  have htime : (fatDateTime secs).2 < 2 ^ 16 := Nat.mod_lt _ (by decide)
  unfold DirEntry.lastModDate DirEntry.lastModTime stampEntry
  cases created <;>
    simp [DirEntry.setU16, le16_ofNat hdate, le16_ofNat htime]

/-- The modification time that is reported for an entry stamped between 1980 and 2107 is the time of
the stamp, rounded down to an even second, exactly if that is before 2^32. -/
theorem statTimes_stampEntry_iff (e : DirEntry) (secs : ℕ) (created : Bool) (hlo : 315532800 ≤ secs)
    (hhi : secs ≤ 4354819199) :
    (statTimes (stampEntry e secs created)).stMtime.toNat = secs - secs % 2 ↔ secs < 2 ^ 32 := by
  obtain ⟨hdate, htime⟩ := stampEntry_lastMod e secs created
  have hdecode := decode_fatDateTime (show 3652 ≤ secs / 86400 by omega) (by omega)
  have hcut : (statTimes (stampEntry e secs created)).stMtime.toNat = (secs - secs % 2) % 2 ^ 32 := by
    unfold statTimes
    dsimp only
    rw [hdate, htime, hdecode, UInt32.ofInt, UInt32.toNat_ofNat']
    omega
  rw [hcut]
  omega

/-- At half past six on 7 February 2106 the reported time starts again at 0. -/
theorem time_wraps : (statTimes (stampEntry DirEntry.zero 4294967296 true)).stMtime = 0 := by
  decide +kernel

theorem statTimes_stampEntry_iff_epoch : (315532800 ≤ 4294967295 ∧ 4294967295 ≤ 4354819199) ∧
    ((statTimes (stampEntry DirEntry.zero 4294967295 true)).stMtime.toNat = 4294967295 - 4294967295 % 2 ↔
      4294967295 < 2 ^ 32) :=
  ⟨by decide, statTimes_stampEntry_iff DirEntry.zero 4294967295 true (by decide) (by decide)⟩

end Perspicua.Fs
