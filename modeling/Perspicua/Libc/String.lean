import Mathlib.Data.Nat.Notation

/-!
# memmove

`memmove` of `libc/src/string.c` copies in place, eight bytes at a time and then the rest byte by
byte, upwards if the destination is below the source and downwards if it is above. An access of
several bytes reads all of them before the first one is written.
-/

namespace Perspicua.Libc

/-- Bytes by address. -/
abbrev Memory := ℕ → UInt8

/-- One access of `w` bytes: `*d = *s`. -/
def access (w d s : ℕ) (mem : Memory) : Memory := fun x =>
  if d ≤ x ∧ x < d + w then mem (s + (x - d)) else mem x

/-- The variables of `memmove`. -/
structure Move where
  mem : Memory
  d : ℕ
  s : ℕ
  count : ℕ

/-- `while (count >= w) *d++ = *s++`. The loop ends within `count` rounds. -/
def upwards (w : ℕ) : ℕ → Move → Move
  | 0, m => m
  | fuel + 1, m =>
    if w ≤ m.count then
      upwards w fuel ⟨access w m.d m.s m.mem, m.d + w, m.s + w, m.count - w⟩
    else m

/-- `while (count >= w) *--d = *--s`. -/
def downwards (w : ℕ) : ℕ → Move → Move
  | 0, m => m
  | fuel + 1, m =>
    if w ≤ m.count then
      downwards w fuel ⟨access w (m.d - w) (m.s - w) m.mem, m.d - w, m.s - w, m.count - w⟩
    else m

/-- `memmove`. -/
def memmove (mem : Memory) (dest src count : ℕ) : Memory :=
  if dest < src then
    (upwards 1 count (upwards 8 count ⟨mem, dest, src, count⟩)).mem
  else if src < dest then
    (downwards 1 count (downwards 8 count ⟨mem, dest + count, src + count, count⟩)).mem
  else mem

/-- The bytes from `lo` to `hi` of the destination have been copied, and no others. -/
def Copied (mem : Memory) (dest src lo hi : ℕ) (m : Memory) : Prop :=
  ∀ x, m x = if dest + lo ≤ x ∧ x < dest + hi then mem (src + (x - dest)) else mem x

variable {mem : Memory} {dest src n : ℕ}

/-- After some rounds upwards. -/
structure Up (mem : Memory) (dest src n : ℕ) (m : Move) : Prop where
  copied : Copied mem dest src 0 (n - m.count) m.mem
  d : m.d = dest + (n - m.count)
  s : m.s = src + (n - m.count)
  count : m.count ≤ n

/-- After some rounds downwards. -/
structure Down (mem : Memory) (dest src n : ℕ) (m : Move) : Prop where
  copied : Copied mem dest src m.count n m.mem
  d : m.d = dest + m.count
  s : m.s = src + m.count
  count : m.count ≤ n

/-- Reading is ahead of writing: what is read has not been overwritten. -/
theorem Up.access {m : Move} {w : ℕ} (h : Up mem dest src n m) (hlt : dest < src)
    (hw : w ≤ m.count) :
    Up mem dest src n ⟨Libc.access w m.d m.s m.mem, m.d + w, m.s + w, m.count - w⟩ := by
  have hcount := h.count
  refine ⟨?_, ?_, ?_, ?_⟩
  · intro x
    dsimp only [Libc.access]
    rw [h.copied x, h.copied (m.s + (x - m.d)), h.d, h.s]
    by_cases hin : dest + (n - m.count) ≤ x ∧ x < dest + (n - m.count) + w
    · rw [if_pos hin, if_neg (by omega), if_pos (by omega)]
      congr 1
      omega
    · rw [if_neg hin]
      congr 1
      simp only [eq_iff_iff]
      omega
  · dsimp only
    rw [h.d]
    omega
  · dsimp only
    rw [h.s]
    omega
  · show m.count - w ≤ n
    omega

theorem Down.access {m : Move} {w : ℕ} (h : Down mem dest src n m) (hlt : src < dest)
    (hw : w ≤ m.count) :
    Down mem dest src n
      ⟨Libc.access w (m.d - w) (m.s - w) m.mem, m.d - w, m.s - w, m.count - w⟩ := by
  have hcount := h.count
  refine ⟨?_, ?_, ?_, ?_⟩
  · intro x
    dsimp only [Libc.access]
    rw [h.copied x, h.copied (m.s - w + (x - (m.d - w))), h.d, h.s]
    by_cases hin : dest + m.count - w ≤ x ∧ x < dest + m.count - w + w
    · rw [if_pos hin, if_neg (by omega), if_pos (by omega)]
      congr 1
      omega
    · rw [if_neg hin]
      congr 1
      simp only [eq_iff_iff]
      omega
  · dsimp only
    rw [h.d]
    omega
  · dsimp only
    rw [h.s]
    omega
  · show m.count - w ≤ n
    omega

/-- A loop keeps what one access keeps, and ends when too little is left. -/
theorem Up.upwards {w : ℕ} (hw : 0 < w) (hlt : dest < src) (fuel : ℕ) {m : Move}
    (h : Up mem dest src n m) (hfuel : m.count ≤ fuel) :
    Up mem dest src n (Libc.upwards w fuel m) ∧ (Libc.upwards w fuel m).count < w := by
  induction fuel generalizing m with
  | zero =>
    rw [Libc.upwards]
    exact ⟨h, by omega⟩
  | succ fuel ih =>
    rw [Libc.upwards]
    split
    next hle => exact ih (h.access hlt hle) (by show m.count - w ≤ fuel; omega)
    next hle => exact ⟨h, Nat.not_le.mp hle⟩

theorem Down.downwards {w : ℕ} (hw : 0 < w) (hlt : src < dest) (fuel : ℕ) {m : Move}
    (h : Down mem dest src n m) (hfuel : m.count ≤ fuel) :
    Down mem dest src n (Libc.downwards w fuel m) ∧ (Libc.downwards w fuel m).count < w := by
  induction fuel generalizing m with
  | zero =>
    rw [Libc.downwards]
    exact ⟨h, by omega⟩
  | succ fuel ih =>
    rw [Libc.downwards]
    split
    next hle => exact ih (h.access hlt hle) (by show m.count - w ≤ fuel; omega)
    next hle => exact ⟨h, Nat.not_le.mp hle⟩

/-- The destination holds what the source held, however the two overlap, and every other byte is
what it was. -/
theorem memmove_spec (mem : Memory) (dest src count : ℕ) (x : ℕ) :
    memmove mem dest src count x =
      if dest ≤ x ∧ x < dest + count then mem (src + (x - dest)) else mem x := by
  unfold memmove
  rcases Nat.lt_trichotomy dest src with hlt | heq | hlt
  · have hstart : Up mem dest src count ⟨mem, dest, src, count⟩ :=
      ⟨fun y => by rw [if_neg (by simp only; omega)], by simp, by simp, Nat.le_refl _⟩
    obtain ⟨hwords, -⟩ := hstart.upwards (w := 8) (by decide) hlt count (Nat.le_refl _)
    obtain ⟨hbytes, hend⟩ := hwords.upwards (w := 1) (by decide) hlt count hwords.count
    rw [if_pos hlt, hbytes.copied x, Nat.lt_one_iff.mp hend]
    rfl
  · rw [if_neg (by omega), if_neg (by omega), heq]
    split
    next hin => rw [Nat.add_sub_cancel' hin.1]
    next => rfl
  · have hstart : Down mem dest src count ⟨mem, dest + count, src + count, count⟩ :=
      ⟨fun y => by rw [if_neg (by simp only; omega)], rfl, rfl, Nat.le_refl _⟩
    obtain ⟨hwords, -⟩ := hstart.downwards (w := 8) (by decide) hlt count (Nat.le_refl _)
    obtain ⟨hbytes, hend⟩ := hwords.downwards (w := 1) (by decide) hlt count hwords.count
    rw [if_neg (by omega), if_pos hlt, hbytes.copied x, Nat.lt_one_iff.mp hend]
    rfl

end Perspicua.Libc
