import Mathlib
import Perspicua.Lib.Prog

/-!
# Lists handed out in parts

A reader hands out a list in parts: it is given a position and the number of entries its caller
has room for, and gives back entries and a new position. `Hands` says of a reader that it gives
the entries in order, `At p l` meaning that the entries `l` are left at the position `p`; the new
position is good for as long as the room is used up. A reader whose positions are always good can
be called again and again with any room, and the parts are the list (`calls_ends`).

`firstLive` is the search of a reader that goes over a table of slots, some of which are empty.
-/

namespace Perspicua.Lib

open Prog

section Readers

variable {σ ε π α : Type}

/-- At most so many entries from a position on, and the position behind them. -/
abbrev Reader (σ ε π α : Type) := π → ℕ → Prog σ (Except ε (List α × π))

/-- The reader hands out what is left. It fails only for the reason `Err`, and the state keeps
`Inv`. -/
def Hands (read : Reader σ ε π α) (Err : Prop) (Inv : σ → Prop) (At : π → List α → Prop) : Prop :=
  ∀ p l n s, At p l → 1 ≤ n → Inv s → Ends (read p n) s fun r t => Inv t ∧
    match r with
    | .error _ => Err
    | .ok (out, p') => out = l.take n ∧ (n ≤ l.length → At p' (l.drop n))

/-- The reader hands out what is left, and can always be called again. -/
def Keeps (read : Reader σ ε π α) (Err : Prop) (Inv : σ → Prop) (At : π → List α → Prop) : Prop :=
  ∀ p l n s, At p l → 1 ≤ n → Inv s → Ends (read p n) s fun r t => Inv t ∧
    match r with
    | .error _ => Err
    | .ok (out, p') => out = l.take n ∧ At p' (l.drop n)

/-- Calls with the given room, one after the other; a call that fails leaves the position. The
entries of the calls that succeed, and how much room they had. -/
def calls (read : Reader σ ε π α) : List ℕ → π → Prog σ (List α × ℕ)
  | [], _ => pure ([], 0)
  | n :: ns, p => do
    match ← read p n with
    | .error _ => calls read ns p
    | .ok (out, p') => do
      let rest ← calls read ns p'
      pure (out ++ rest.1, n + rest.2)

/-- The parts that any calls give are the list. -/
theorem calls_ends {read : Reader σ ε π α} {Err : Prop} {Inv : σ → Prop} {At : π → List α → Prop}
    (hread : Keeps read Err Inv At) {sizes : List ℕ} (hsizes : ∀ n ∈ sizes, 1 ≤ n) {p : π} {l : List α}
    {s : σ} (hat : At p l) (hs : Inv s) :
    Ends (calls read sizes p) s fun r _ => r.1 = l.take r.2 ∧ (r.2 = sizes.sum ∨ Err) := by
  induction sizes generalizing p l s with
  | nil => exact ⟨rfl, .inl rfl⟩
  | cons n sizes ih =>
    have hrest : ∀ k ∈ sizes, 1 ≤ k := fun k hk => hsizes k (List.mem_cons_of_mem n hk)
    rw [calls]
    refine (hread p l n s hat (hsizes n List.mem_cons_self) hs).bind ?_
    rintro (e | ⟨out, p'⟩) t ⟨ht, hr⟩
    · refine (ih hrest hat ht).mono ?_
      rintro r u ⟨hout, -⟩
      exact ⟨hout, .inr hr⟩
    · obtain ⟨rfl, hat'⟩ := hr
      refine Ends.bind (ih hrest hat' ht) ?_
      rintro r u ⟨hout, hsum⟩
      refine ends_pure.mpr ⟨?_, ?_⟩
      · rw [hout, List.take_add]
      · rcases hsum with hsum | herr
        · left
          rw [hsum, List.sum_cons]
        · exact .inr herr

end Readers

/-! ## Slots -/

/-- The first of the slots `i`, …, `i + n - 1` that is in use. -/
def firstLive (live : ℕ → Bool) : ℕ → ℕ → Option ℕ
  | 0, _ => none
  | n + 1, i => if live i then some i else firstLive live n (i + 1)

/-- The slots that are in use, from `i` on. -/
def liveSlots (live : ℕ → Bool) (size i : ℕ) : List ℕ := (List.range' i (size - i)).filter live

section Slots

variable {live : ℕ → Bool} {size i j : ℕ}

theorem liveSlots_step (h : i < size) :
    liveSlots live size i = (if live i then [i] else []) ++ liveSlots live size (i + 1) := by
  have hlen : size - i = size - (i + 1) + 1 := by omega
  rw [liveSlots, hlen, List.range'_succ, List.filter_cons]
  split <;> rfl

theorem firstLive_none (h : firstLive live (size - i) i = none) : liveSlots live size i = [] := by
  obtain ⟨n, hn⟩ : ∃ n, n = size - i := ⟨_, rfl⟩
  rw [← hn] at h
  induction n generalizing i with
  | zero =>
    rw [liveSlots, ← hn]
    rfl
  | succ n ih =>
    rw [firstLive] at h
    split at h
    · cases h
    next hdead =>
      rw [liveSlots_step (by omega), if_neg hdead, ih (i := i + 1) h (by omega)]
      rfl

theorem firstLive_some (h : firstLive live (size - i) i = some j) :
    i ≤ j ∧ j < size ∧ liveSlots live size i = j :: liveSlots live size (j + 1) := by
  obtain ⟨n, hn⟩ : ∃ n, n = size - i := ⟨_, rfl⟩
  rw [← hn] at h
  induction n generalizing i with
  | zero => cases h
  | succ n ih =>
    rw [firstLive] at h
    split at h
    next hlive =>
      obtain rfl := Option.some.inj h
      refine ⟨Nat.le_refl _, by omega, ?_⟩
      rw [liveSlots_step (by omega), if_pos hlive]
      rfl
    next hdead =>
      obtain ⟨hle, hlt, heq⟩ := ih (i := i + 1) h (by omega)
      refine ⟨by omega, hlt, ?_⟩
      rw [liveSlots_step (by omega), if_neg hdead, heq]
      rfl

end Slots

end Perspicua.Lib
