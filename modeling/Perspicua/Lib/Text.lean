import Mathlib.Data.List.GetD
import Mathlib.Data.List.Induction

/-!
# Text in a buffer

Memory is a function from offsets to bytes, counted from the start of a buffer. `render` writes
one text after the other, each cut off at the size of the buffer and ended by a zero byte, and
counts the bytes that there would be without the cut. What was in the buffer before shows in a
window of it only where nothing was written.
-/

namespace Perspicua.Lib

/-- Memory from the start of a buffer on. -/
abbrev Memory := ℕ → UInt8

/-- Write bytes at a position. -/
def store (mem : Memory) (pos : ℕ) (l : List UInt8) : Memory := fun k =>
  if pos ≤ k ∧ k < pos + l.length then l.getD (k - pos) 0 else mem k

/-- Read bytes from a position on. -/
def load (mem : Memory) (pos n : ℕ) : List UInt8 := (List.range n).map fun k => mem (pos + k)

/-- The memory has these bytes at a position. -/
def Reads (mem : Memory) (pos : ℕ) (l : List UInt8) : Prop :=
  ∀ k < l.length, mem (pos + k) = l.getD k 0

variable {mem : Memory} {pos at' size limit n : ℕ} {l t u : List UInt8}

theorem reads_store (mem : Memory) (pos : ℕ) (l : List UInt8) : Reads (store mem pos l) pos l := by
  intro k hk
  unfold store
  rw [if_pos (by omega), Nat.add_sub_cancel_left]

/-- Bytes elsewhere stay. -/
theorem Reads.store_apart (h : Reads mem pos l)
    (hapart : pos + l.length ≤ at' ∨ at' + t.length ≤ pos) : Reads (store mem at' t) pos l := by
  intro k hk
  unfold store
  rw [if_neg (by omega)]
  exact h k hk

theorem reads_append : Reads mem pos (t ++ u) ↔ Reads mem pos t ∧ Reads mem (pos + t.length) u := by
  unfold Reads
  rw [List.length_append]
  constructor
  · intro h
    refine ⟨?_, ?_⟩
    · intro k hk
      rw [h k (by omega), List.getD_append _ _ _ _ hk]
    · intro k hk
      rw [Nat.add_assoc, h (t.length + k) (by omega), List.getD_append_right _ _ _ _ (by omega),
        Nat.add_sub_cancel_left]
  · rintro ⟨ht, hu⟩ k hk
    by_cases hold : k < t.length
    · rw [ht k hold, List.getD_append _ _ _ _ hold]
    · have := hu (k - t.length) (by omega)
      rw [Nat.add_assoc, Nat.add_sub_cancel' (by omega)] at this
      rw [this, List.getD_append_right _ _ _ _ (by omega)]

theorem load_eq (h : Reads mem pos t) : load mem pos t.length = t := by
  unfold load
  apply List.ext_getElem
  · rw [List.length_map, List.length_range]
  · intro k _ hk
    rw [List.getElem_map, List.getElem_range, h k hk]
    exact List.getD_eq_getElem _ _ hk

/-! ## Appending -/

/-- `snprintf`: write a text at a position where `room` bytes are left, the last of them for the
zero byte. -/
def writeText (mem : Memory) (pos room : ℕ) (t : List UInt8) : Memory :=
  store mem pos (t.take (room - 1) ++ [0])

/-- Append a text; nothing happens once the position is past the buffer. -/
def appendText (size : ℕ) (b : Memory × ℕ) (t : List UInt8) : Memory × ℕ :=
  if size ≤ b.2 then b else (writeText b.1 b.2 (size - b.2) t, b.2 + t.length)

/-- Append texts from the start of the buffer on. -/
def render (size : ℕ) (mem : Memory) (ts : List (List UInt8)) : Memory × ℕ :=
  ts.foldl (appendText size) (mem, 0)

/-- The texts appended so far make up `t`: the buffer has as much of it as fits, and the position
is its length as far as it still matters. -/
structure Holds (size : ℕ) (t : List UInt8) (b : Memory × ℕ) : Prop where
  pos : b.2 = t.length ∨ size ≤ b.2 ∧ size ≤ t.length
  text : Reads b.1 0 (t.take (size - 1))

theorem Holds.append {b : Memory × ℕ} (h : Holds size t b) (u : List UInt8) :
    Holds size (t ++ u) (appendText size b u) ∧
      (b.2 < size ∨ Reads b.1 0 (t.take (size - 1) ++ [0]) →
        Reads (appendText size b u).1 0 ((t ++ u).take (size - 1) ++ [0])) := by
  unfold appendText
  by_cases hfull : size ≤ b.2
  · -- the buffer is full and stays as it is
    rw [if_pos hfull]
    have hlen : size ≤ t.length := by
      rcases h.pos with hpos | hpos
      · omega
      · exact hpos.2
    have htake : (t ++ u).take (size - 1) = t.take (size - 1) :=
      List.take_append_of_le_length (by omega)
    rw [htake]
    refine ⟨⟨.inr ⟨hfull, by rw [List.length_append]; omega⟩, by rw [htake]; exact h.text⟩, ?_⟩
    intro hor
    exact hor.resolve_left (by omega)
  · rw [if_neg hfull]
    have hpos : b.2 = t.length := by
      rcases h.pos with hpos | hpos
      · exact hpos
      · omega
    have htake : (t ++ u).take (size - 1) = t ++ u.take (size - b.2 - 1) := by
      rw [List.take_append, List.take_of_length_le (by omega), hpos,
        show size - 1 - t.length = size - t.length - 1 by omega]
    have hold : Reads b.1 0 t := by
      have := h.text
      rwa [List.take_of_length_le (by omega)] at this
    have hall : Reads (writeText b.1 b.2 (size - b.2) u) 0 ((t ++ u).take (size - 1) ++ [0]) := by
      rw [htake, List.append_assoc, reads_append, Nat.zero_add]
      refine ⟨hold.store_apart (.inl (by omega)), ?_⟩
      rw [← hpos]
      exact reads_store _ _ _
    refine ⟨⟨?_, (reads_append.mp hall).1⟩, fun _ => hall⟩
    dsimp only
    rw [List.length_append]
    omega

theorem render_append (size : ℕ) (mem : Memory) (ts : List (List UInt8)) (u : List UInt8) :
    render size mem (ts ++ [u]) = appendText size (render size mem ts) u := by
  rw [render, List.foldl_append]
  rfl

/-- The buffer after a number of texts; with at least one text there is a zero byte behind. -/
theorem render_holds (hsize : 0 < size) (mem : Memory) (ts : List (List UInt8)) :
    Holds size ts.flatten (render size mem ts) ∧
      (ts ≠ [] → Reads (render size mem ts).1 0 (ts.flatten.take (size - 1) ++ [0])) := by
  induction ts using List.reverseRecOn with
  | nil =>
    refine ⟨⟨.inl rfl, ?_⟩, fun h => absurd rfl h⟩
    intro k hk
    simp at hk
  | append_singleton ts u ih =>
    obtain ⟨hholds, hzero⟩ := ih
    rw [render_append, List.flatten_append, List.flatten_singleton]
    obtain ⟨happ, hz⟩ := hholds.append u
    refine ⟨happ, fun _ => hz ?_⟩
    by_cases hts : ts = []
    · left
      rw [hts]
      exact hsize
    · exact .inr (hzero hts)

/-! ## Reading it back -/

/-- `strlen` of the string at a position, in a memory of `limit` bytes. -/
def strlen (mem : Memory) (pos limit : ℕ) : ℕ :=
  ((List.range (limit - pos)).takeWhile fun k => mem (pos + k) != 0).length

theorem strlen_eq (h : Reads mem pos (t ++ [0])) (hnul : 0 ∉ t) (hlimit : pos + t.length < limit) :
    strlen mem pos limit = t.length := by
  obtain ⟨ht, hz⟩ := reads_append.mp h
  obtain ⟨d, hd⟩ := Nat.exists_eq_add_of_lt hlimit
  unfold strlen
  rw [show limit - pos = t.length + (d + 1) by omega, List.range_add, List.takeWhile_append_of_pos,
    List.range_succ_eq_map, List.map_cons, List.takeWhile_cons_of_neg, List.append_nil,
    List.length_range]
  · have := hz 0 (by simp)
    simpa using this
  · intro k hk
    have hk := List.mem_range.mp hk
    rw [ht k hk, List.getD_eq_getElem _ _ hk, bne_iff_ne]
    intro heq
    exact hnul (heq ▸ List.getElem_mem hk)

/-- The bytes from `offset` on, `count` of them at most, of the first `len`. -/
def window (mem : Memory) (offset count len : ℕ) : List UInt8 :=
  if len ≤ offset then [] else load mem offset (min count (len - offset))

/-- A window of a text that is in the memory. -/
theorem window_eq (h : Reads mem 0 t) (offset count : ℕ) :
    window mem offset count t.length = (t.drop offset).take count := by
  unfold window
  split
  next hle => rw [List.drop_eq_nil_of_le hle, List.take_nil]
  next hlt =>
    -- split the text in what is before the window, the window, and what is behind it
    have hsplit :
        t.take offset ++ ((t.drop offset).take count ++ (t.drop offset).drop count) = t := by
      rw [List.take_append_drop, List.take_append_drop]
    rw [← hsplit, reads_append, reads_append, Nat.zero_add] at h
    have hwin := load_eq h.2.1
    have hoffset : (t.take offset).length = offset := by
      rw [List.length_take]
      omega
    rwa [hoffset, List.length_take, List.length_drop] at hwin

/-! ## Numbers -/

def isDigit (c : UInt8) : Bool := 48 ≤ c && c ≤ 57

/-- The digits at the start of a text, added up in `w` bits, and the text after them. -/
def digitLoop (w : ℕ) : BitVec w → List UInt8 → BitVec w × List UInt8
  | v, [] => (v, [])
  | v, c :: cs =>
    if isDigit c then digitLoop w (v * 10 + BitVec.ofNat w (c - 48).toNat) cs else (v, c :: cs)

/-- The number after the digits, the first one being worth the most. -/
def digitsValue (cs : List UInt8) : ℕ := cs.foldl (fun v c => v * 10 + (c - 48).toNat) 0

/-- The loop's sum is the number to `w` bits. -/
theorem digitLoop_append (w : ℕ) {cs rest : List UInt8} (hdigits : ∀ c ∈ cs, isDigit c = true)
    (hrest : ∀ c ∈ rest.head?, isDigit c = false) :
    digitLoop w 0 (cs ++ rest) = (BitVec.ofNat w (digitsValue cs), rest) := by
  have hloop : ∀ v : ℕ, digitLoop w (BitVec.ofNat w v) (cs ++ rest) =
      (BitVec.ofNat w (cs.foldl (fun v c => v * 10 + (c - 48).toNat) v), rest) := by
    induction cs with
    | nil =>
      intro v
      cases rest with
      | nil => rfl
      | cons c rest =>
        rw [List.nil_append, digitLoop, hrest c rfl]
        rfl
    | cons c cs ih =>
      intro v
      have hsum : BitVec.ofNat w v * 10 + BitVec.ofNat w (c - 48).toNat =
          BitVec.ofNat w (v * 10 + (c - 48).toNat) := by
        rw [BitVec.ofNat_add, BitVec.ofNat_mul]
        rfl
      rw [List.cons_append, digitLoop, if_pos (hdigits c List.mem_cons_self), hsum,
        ih fun d hd => hdigits d (List.mem_cons_of_mem _ hd)]
      rfl
  exact hloop 0

theorem length_digitLoop (w : ℕ) (v : BitVec w) (cs : List UInt8) :
    (digitLoop w v cs).2.length ≤ cs.length := by
  induction cs generalizing v with
  | nil => exact Nat.le_refl _
  | cons c cs ih =>
    rw [digitLoop]
    split
    · exact Nat.le_succ_of_le (ih _)
    · exact Nat.le_refl _

end Perspicua.Lib
