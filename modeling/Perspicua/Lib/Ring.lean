import Mathlib.Data.List.Basic
import Mathlib.Data.Nat.ModEq
import Mathlib.Tactic.SplitIfs

/-!
# Ring buffers

A queue in `n` cells: elements go in at `head` and come out at `tail`. The contents are what
the queue holds, oldest first; `push` appends to them and `pop` removes their first element.
-/

namespace Perspicua.Lib

structure RingBuffer (α : Type*) where
  buffer : ℕ → α
  head : ℕ
  tail : ℕ
  count : ℕ

namespace RingBuffer

variable {α : Type*} {n : ℕ} {r : RingBuffer α} {x : α}

def push (n : ℕ) (r : RingBuffer α) (x : α) : RingBuffer α where
  buffer := Function.update r.buffer r.head x
  head := (r.head + 1) % n
  tail := r.tail
  count := r.count + 1

def front (r : RingBuffer α) : α := r.buffer r.tail

def pop (n : ℕ) (r : RingBuffer α) : RingBuffer α :=
  { r with tail := (r.tail + 1) % n, count := r.count - 1 }

def contents (n : ℕ) (r : RingBuffer α) : List α :=
  (List.range r.count).map fun i => r.buffer ((r.tail + i) % n)

/-- The count matches the two indices. -/
structure Ok (n : ℕ) (r : RingBuffer α) : Prop where
  head : (r.tail + r.count) % n = r.head
  tail : r.tail < n
  count : r.count ≤ n

theorem Ok.push (h : r.Ok n) (hlt : r.count < n) : (r.push n x).Ok n where
  head := by
    show (r.tail + (r.count + 1)) % n = (r.head + 1) % n
    rw [← h.head, Nat.mod_add_mod, Nat.add_assoc]
  tail := h.tail
  count := hlt

theorem Ok.pop (h : r.Ok n) (hpos : 0 < r.count) : (r.pop n).Ok n where
  head := by
    show ((r.tail + 1) % n + (r.count - 1)) % n = r.head
    rw [Nat.mod_add_mod, ← h.head]
    congr 1
    omega
  tail := Nat.mod_lt _ (Nat.zero_lt_of_lt h.tail)
  count := (Nat.sub_le ..).trans h.count

/-- The cells in use are not the one that `push` fills. -/
theorem Ok.cell_ne_head (h : r.Ok n) (hlt : r.count < n) {i : ℕ} (hi : i < r.count) :
    (r.tail + i) % n ≠ r.head := by
  intro heq
  rw [← h.head] at heq
  have hmod : i ≡ r.count [MOD n] := Nat.ModEq.add_left_cancel' r.tail heq
  have := hmod.eq_of_lt_of_lt (hi.trans hlt) hlt
  omega

theorem Ok.contents_push (h : r.Ok n) (hlt : r.count < n) :
    (r.push n x).contents n = r.contents n ++ [x] := by
  show (List.range (r.count + 1)).map _ = _
  rw [List.range_succ, List.map_append, List.map_singleton]
  congr 1
  · apply List.map_congr_left
    intro i hi
    exact Function.update_of_ne (h.cell_ne_head hlt (List.mem_range.mp hi)) ..
  · show [Function.update r.buffer r.head x ((r.tail + r.count) % n)] = [x]
    rw [h.head, Function.update_self]

theorem Ok.contents_pop (h : r.Ok n) (hpos : 0 < r.count) :
    r.contents n = r.front :: (r.pop n).contents n := by
  obtain ⟨m, hm⟩ : ∃ m, r.count = m + 1 := ⟨r.count - 1, by omega⟩
  have hrest : (r.pop n).count = m := by
    show r.count - 1 = m
    omega
  unfold contents
  rw [hm, hrest, List.range_succ_eq_map, List.map_cons, List.map_map]
  congr 1
  · rw [Nat.add_zero, Nat.mod_eq_of_lt h.tail]
    rfl
  · apply List.map_congr_left
    intro i _
    show r.buffer ((r.tail + (i + 1)) % n) = r.buffer (((r.tail + 1) % n + i) % n)
    rw [Nat.mod_add_mod]
    congr 2
    omega

end RingBuffer

/-! ## Rings of two indices

A ring that keeps no count is empty when its indices are equal, so one cell is always left
free. -/

structure IndexRing (α : Type*) where
  buffer : ℕ → α
  head : ℕ
  tail : ℕ

namespace IndexRing

variable {α : Type*} {n : ℕ} {r : IndexRing α} {x : α}

def count (n : ℕ) (r : IndexRing α) : ℕ := (r.head + n - r.tail) % n

def counted (n : ℕ) (r : IndexRing α) : RingBuffer α := ⟨r.buffer, r.head, r.tail, r.count n⟩

def contents (n : ℕ) (r : IndexRing α) : List α := (r.counted n).contents n

def push (n : ℕ) (r : IndexRing α) (x : α) : IndexRing α where
  buffer := Function.update r.buffer r.head x
  head := (r.head + 1) % n
  tail := r.tail

def front (r : IndexRing α) : α := r.buffer r.tail

def pop (n : ℕ) (r : IndexRing α) : IndexRing α := { r with tail := (r.tail + 1) % n }

/-- Take back the last `push`. -/
def unpush (n : ℕ) (r : IndexRing α) : IndexRing α := { r with head := (r.head + n - 1) % n }

structure Ok (n : ℕ) (r : IndexRing α) : Prop where
  head : r.head < n
  tail : r.tail < n

theorem length_contents (n : ℕ) (r : IndexRing α) : (r.contents n).length = r.count n := by
  rw [contents, RingBuffer.contents, List.length_map, List.length_range]
  rfl

namespace Ok

theorem pos (h : r.Ok n) : 0 < n := Nat.zero_lt_of_lt h.head

/-- The count, without the modulus. -/
theorem count_eq (h : r.Ok n) :
    r.count n = if r.tail ≤ r.head then r.head - r.tail else r.head + n - r.tail := by
  have hh := h.head
  have ht := h.tail
  unfold IndexRing.count
  split
  · rename_i hle
    have heq : r.head + n - r.tail = r.head - r.tail + n := by omega
    rw [heq, Nat.add_mod_right, Nat.mod_eq_of_lt (by omega)]
  · exact Nat.mod_eq_of_lt (by omega)

theorem count_lt (h : r.Ok n) : r.count n < n := Nat.mod_lt _ h.pos

theorem counted_ok (h : r.Ok n) : (r.counted n).Ok n where
  head := by
    have hh := h.head
    have ht := h.tail
    show (r.tail + r.count n) % n = r.head
    rw [IndexRing.count, Nat.add_mod_mod]
    have heq : r.tail + (r.head + n - r.tail) = r.head + n := by omega
    rw [heq, Nat.add_mod_right, Nat.mod_eq_of_lt hh]
  tail := h.tail
  count := Nat.le_of_lt h.count_lt

theorem count_eq_zero_iff (h : r.Ok n) : r.count n = 0 ↔ r.head = r.tail := by
  have hh := h.head
  have ht := h.tail
  rw [h.count_eq]
  split <;> omega

theorem contents_eq_nil_iff (h : r.Ok n) : r.contents n = [] ↔ r.head = r.tail := by
  rw [← List.length_eq_zero_iff, length_contents, h.count_eq_zero_iff]

/-- The successor of an index. -/
theorem succ_mod (hx : r.head < n) : (r.head + 1) % n = if r.head + 1 < n then r.head + 1 else 0 := by
  split
  · exact Nat.mod_eq_of_lt ‹_›
  · have heq : r.head + 1 = n := by omega
    rw [heq, Nat.mod_self]

theorem push (h : r.Ok n) : (r.push n x).Ok n := ⟨Nat.mod_lt _ h.pos, h.tail⟩

theorem pop (h : r.Ok n) : (r.pop n).Ok n := ⟨h.head, Nat.mod_lt _ h.pos⟩

theorem unpush (h : r.Ok n) : (r.unpush n).Ok n := ⟨Nat.mod_lt _ h.pos, h.tail⟩

theorem count_push (h : r.Ok n) (hroom : (r.head + 1) % n ≠ r.tail) :
    (r.push n x).count n = r.count n + 1 := by
  have hh := h.head
  have ht := h.tail
  have hcount := h.count_eq
  have hcount' := (h.push (x := x)).count_eq
  have hhead : (r.push n x).head = (r.head + 1) % n := rfl
  have htail : (r.push n x).tail = r.tail := rfl
  rw [hhead, htail] at hcount'
  rw [succ_mod hh] at hroom hcount'
  rw [hcount', hcount]
  clear hcount hcount'
  split_ifs at hroom ⊢ <;> omega

theorem contents_push (h : r.Ok n) (hroom : (r.head + 1) % n ≠ r.tail) :
    (r.push n x).contents n = r.contents n ++ [x] := by
  have hlt : r.count n < n := h.count_lt
  have hcounted : (r.push n x).counted n = (r.counted n).push n x := by
    unfold counted RingBuffer.push
    rw [h.count_push hroom]
    rfl
  rw [IndexRing.contents, hcounted]
  exact h.counted_ok.contents_push hlt

theorem count_pop (h : r.Ok n) (hne : r.head ≠ r.tail) :
    (r.pop n).count n = r.count n - 1 := by
  have hh := h.head
  have ht := h.tail
  have hcount := h.count_eq
  have hcount' := h.pop.count_eq
  have hhead : (r.pop n).head = r.head := rfl
  have htail : (r.pop n).tail = if r.tail + 1 < n then r.tail + 1 else 0 :=
    succ_mod (r := ⟨r.buffer, r.tail, r.tail⟩) ht
  rw [hhead, htail] at hcount'
  rw [hcount', hcount]
  clear hcount hcount'
  split_ifs <;> omega

theorem contents_pop (h : r.Ok n) (hne : r.head ≠ r.tail) :
    r.contents n = r.front :: (r.pop n).contents n := by
  have hpos : 0 < r.count n := Nat.pos_of_ne_zero fun hz => hne (h.count_eq_zero_iff.mp hz)
  have hcounted : (r.pop n).counted n = (r.counted n).pop n := by
    unfold counted RingBuffer.pop
    rw [h.count_pop hne]
    rfl
  rw [IndexRing.contents, h.counted_ok.contents_pop hpos, IndexRing.contents, hcounted]
  rfl

theorem count_unpush (h : r.Ok n) (hne : r.head ≠ r.tail) :
    (r.unpush n).count n + 1 = r.count n := by
  have hh := h.head
  have ht := h.tail
  have hcount := h.count_eq
  have hcount' := h.unpush.count_eq
  have htail : (r.unpush n).tail = r.tail := rfl
  have hhead : (r.unpush n).head = if r.head = 0 then n - 1 else r.head - 1 := by
    show (r.head + n - 1) % n = _
    split
    · rename_i hz
      rw [hz, Nat.zero_add]
      exact Nat.mod_eq_of_lt (by omega)
    · have heq : r.head + n - 1 = r.head - 1 + n := by omega
      rw [heq, Nat.add_mod_right, Nat.mod_eq_of_lt (by omega)]
  rw [hhead, htail] at hcount'
  rw [hcount', hcount]
  clear hcount hcount'
  split_ifs <;> omega

theorem contents_unpush (h : r.Ok n) (hne : r.head ≠ r.tail) :
    (r.unpush n).contents n = (r.contents n).dropLast := by
  have hcount := h.count_unpush hne
  show (List.range ((r.unpush n).count n)).map _ = ((List.range (r.count n)).map _).dropLast
  rw [← hcount, List.range_succ, List.map_append, List.map_singleton, List.dropLast_concat]
  rfl

end Ok

end IndexRing

end Perspicua.Lib
