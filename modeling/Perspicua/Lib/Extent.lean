import Mathlib

/-!
# Extents

Memory that is cut into extents. `Retiles` says that two families of extents are two ways of
cutting the same memory: cutting one extent in two, joining two neighbours and reordering are.
`insertMerge` adds an extent to a family that is kept in the order of the addresses with no
two neighbours in it, joining the extent with the neighbours that it has.
-/

namespace Perspicua.Lib

structure Extent where
  start : ℕ
  len : ℕ
deriving DecidableEq

namespace Extent

/-- The first address behind it. -/
def stop (e : Extent) : ℕ := e.start + e.len

/-- The extent holds an address. -/
def Has (e : Extent) (x : ℕ) : Prop := e.start ≤ x ∧ x < e.start + e.len

/-- Some extent of the family holds the address. -/
def Covers (l : List Extent) (x : ℕ) : Prop := ∃ e ∈ l, e.Has x

/-- No address is in two of them. -/
def Apart (l : List Extent) : Prop := l.Pairwise fun e f => ∀ x, e.Has x → ¬ f.Has x

def total (l : List Extent) : ℕ := (l.map len).sum

/-- Two ways of cutting the same memory. -/
structure Retiles (l l' : List Extent) : Prop where
  apart : Apart l → Apart l'
  covers : ∀ x, Covers l' x ↔ Covers l x
  total : total l' = total l

variable {e f : Extent} {l l' l'' : List Extent} {x : ℕ}

theorem covers_cons : Covers (e :: l) x ↔ e.Has x ∨ Covers l x := by
  unfold Covers
  simp

theorem covers_append : Covers (l ++ l') x ↔ Covers l x ∨ Covers l' x := by
  unfold Covers
  simp only [List.mem_append, or_and_right, exists_or]

theorem apart_cons : Apart (e :: l) ↔ (∀ x, e.Has x → ¬ Covers l x) ∧ Apart l := by
  unfold Apart
  rw [List.pairwise_cons]
  refine and_congr_left fun _ => ⟨?_, ?_⟩
  · rintro h x hx ⟨f, hf, hfx⟩
    exact h f hf x hx hfx
  · intro h f hf x hx hfx
    exact h x hx ⟨f, hf, hfx⟩

theorem total_cons : total (e :: l) = e.len + total l := List.sum_cons

theorem total_append : total (l ++ l') = total l + total l' := by
  unfold total
  rw [List.map_append, List.sum_append]

namespace Retiles

theorem refl (l : List Extent) : Retiles l l := ⟨id, fun _ => Iff.rfl, rfl⟩

theorem trans (h : Retiles l l') (h' : Retiles l' l'') : Retiles l l'' :=
  ⟨fun ha => h'.apart (h.apart ha), fun x => (h'.covers x).trans (h.covers x),
    h'.total.trans h.total⟩

theorem perm (h : l.Perm l') : Retiles l l' where
  apart ha := (h.pairwise_iff fun hef x hf he => hef x he hf).mp ha
  covers x := by
    unfold Covers
    exact exists_congr fun e => and_congr_left fun _ => h.symm.mem_iff
  total := ((h.map len).sum_eq).symm

theorem cons (h : Retiles l l') (e : Extent) : Retiles (e :: l) (e :: l') where
  apart ha := by
    rw [apart_cons] at ha ⊢
    refine ⟨?_, h.apart ha.2⟩
    intro x hx
    rw [h.covers]
    exact ha.1 x hx
  covers x := by
    rw [covers_cons, covers_cons, h.covers]
  total := by
    rw [total_cons, total_cons, h.total]

theorem append_left (h : Retiles l l') (m : List Extent) : Retiles (m ++ l) (m ++ l') := by
  induction m with
  | nil => exact h
  | cons e m ih => exact ih.cons e

theorem append_right (h : Retiles l l') (m : List Extent) : Retiles (l ++ m) (l' ++ m) :=
  (perm List.perm_append_comm).trans ((h.append_left m).trans (perm List.perm_append_comm))

/-- Neighbours can be joined. -/
theorem join (hef : e.stop = f.start) (l : List Extent) :
    Retiles (e :: f :: l) (⟨e.start, e.len + f.len⟩ :: l) := by
  have hhas : ∀ x, Has ⟨e.start, e.len + f.len⟩ x ↔ e.Has x ∨ f.Has x := by
    intro x
    unfold Has stop at *
    simp only
    omega
  refine ⟨?_, ?_, ?_⟩
  · rw [apart_cons, apart_cons, apart_cons]
    rintro ⟨he, hf, hl⟩
    refine ⟨?_, hl⟩
    intro x hx hcov
    rcases (hhas x).mp hx with hx | hx
    · exact he x hx (covers_cons.mpr (.inr hcov))
    · exact hf x hx hcov
  · intro x
    rw [covers_cons, covers_cons, covers_cons, hhas, or_assoc]
  · rw [total_cons, total_cons, total_cons, Nat.add_assoc]

/-- An extent can be cut. -/
theorem cut (a m n : ℕ) (l : List Extent) :
    Retiles (⟨a, m + n⟩ :: l) (⟨a, m⟩ :: ⟨a + m, n⟩ :: l) := by
  have hhas : ∀ x, Has ⟨a, m + n⟩ x ↔ Has ⟨a, m⟩ x ∨ Has ⟨a + m, n⟩ x := by
    intro x
    unfold Has
    simp only
    omega
  refine ⟨?_, ?_, ?_⟩
  · rw [apart_cons, apart_cons, apart_cons]
    rintro ⟨h, hl⟩
    refine ⟨?_, ?_, hl⟩
    · intro x hx hcov
      rcases covers_cons.mp hcov with hx' | hcov
      · unfold Has at hx hx'
        simp only at hx hx'
        omega
      · exact h x ((hhas x).mpr (.inl hx)) hcov
    · intro x hx
      exact h x ((hhas x).mpr (.inr hx))
  · intro x
    rw [covers_cons, covers_cons, covers_cons, hhas, or_assoc]
  · rw [total_cons, total_cons, total_cons, Nat.add_assoc]

end Retiles

/-- A family cuts up the memory of some regions. -/
structure Tiles (regions l : List Extent) : Prop where
  apart : Apart l
  covers : ∀ x, Covers l x ↔ Covers regions x
  total : total l = total regions

theorem Tiles.retile {regions : List Extent} (h : Tiles regions l) (h' : Retiles l l') :
    Tiles regions l' :=
  ⟨h'.apart h.apart, fun x => (h'.covers x).trans (h.covers x), h'.total.trans h.total⟩

theorem Tiles.perm {regions : List Extent} (h : Tiles regions l) (h' : l.Perm l') :
    Tiles regions l' := h.retile (.perm h')

/-- New memory is another region and another extent. -/
theorem Tiles.cons {regions : List Extent} (h : Tiles regions l)
    (he : ∀ x, e.Has x → ¬ Covers regions x) : Tiles (e :: regions) (e :: l) where
  apart := apart_cons.mpr ⟨fun x hx hc => he x hx ((h.covers x).mp hc), h.apart⟩
  covers x := by rw [covers_cons, covers_cons, h.covers]
  total := by rw [total_cons, total_cons, h.total]

/-! ## Free lists -/

/-- In the order of the addresses, disjoint, and no two of them neighbours. -/
def Separated (l : List Extent) : Prop := l.Pairwise fun e f => e.stop < f.start

/-- Join with the next one, if that is a neighbour. -/
def joinNext (b : Extent) : List Extent → List Extent
  | [] => [b]
  | n :: rest => if b.stop = n.start then ⟨b.start, b.len + n.len⟩ :: rest else b :: n :: rest

/-- Join the first one of the second list with the last of the first, if that is a
neighbour. -/
def joinPrev (before : List Extent) : List Extent → List Extent
  | [] => before
  | b :: rest =>
    match before.getLast? with
    | none => b :: rest
    | some p =>
      if p.stop = b.start then before.dropLast ++ ⟨p.start, p.len + b.len⟩ :: rest
      else before ++ b :: rest

def insertMerge (b : Extent) (l : List Extent) : List Extent :=
  joinPrev (l.takeWhile fun e => e.start < b.start)
    (joinNext b (l.dropWhile fun e => e.start < b.start))

theorem joinNext_retiles (b : Extent) (l : List Extent) : Retiles (b :: l) (joinNext b l) := by
  cases l with
  | nil => exact .refl _
  | cons n rest =>
    rw [joinNext]
    split
    · rename_i h
      exact .join h rest
    · exact .refl _

theorem joinPrev_retiles (l l' : List Extent) : Retiles (l ++ l') (joinPrev l l') := by
  cases l' with
  | nil =>
    rw [List.append_nil]
    exact .refl _
  | cons b rest =>
    rcases l.eq_nil_or_concat' with rfl | ⟨pre, p, rfl⟩
    · exact .refl _
    · rw [joinPrev, List.getLast?_concat]
      simp only
      split
      · rename_i h
        rw [List.dropLast_concat, List.append_assoc]
        exact (Retiles.join h rest).append_left pre
      · exact .refl _

/-- The list with the extent inserted cuts the same memory. -/
theorem insertMerge_retiles (b : Extent) (l : List Extent) :
    Retiles (b :: l) (insertMerge b l) := by
  have hperm : (b :: l).Perm ((l.takeWhile fun e => e.start < b.start) ++
      b :: l.dropWhile fun e => e.start < b.start) := by
    have hl := @List.takeWhile_append_dropWhile _ (fun e : Extent => e.start < b.start) l
    conv_lhs => rw [← hl]
    exact List.perm_middle.symm
  exact (Retiles.perm hperm).trans
    (((joinNext_retiles b _).append_left _).trans (joinPrev_retiles _ _))

theorem joinNext_separated {b : Extent} (hl : Separated l) (hb : ∀ f ∈ l, b.stop ≤ f.start) :
    Separated (joinNext b l) ∧ ∀ c ∈ joinNext b l, b.start ≤ c.start := by
  cases l with
  | nil => simp [joinNext, Separated]
  | cons n rest =>
    have hn := List.pairwise_cons.mp hl
    have hbn := hb n List.mem_cons_self
    -- what comes behind the next one is strictly behind the new one
    have hrest : ∀ f ∈ rest, b.stop < f.start := by
      intro f hf
      have := hn.1 f hf
      unfold stop at *
      omega
    rw [joinNext]
    split
    · rename_i h
      refine ⟨List.pairwise_cons.mpr ⟨?_, hn.2⟩, ?_⟩
      · intro f hf
        have := hn.1 f hf
        unfold stop at *
        simp only
        omega
      · intro c hc
        rcases List.mem_cons.mp hc with rfl | hc
        · exact le_rfl
        · have := hrest c hc
          unfold stop at this
          omega
    · rename_i h
      refine ⟨List.pairwise_cons.mpr ⟨?_, hl⟩, ?_⟩
      · intro f hf
        rcases List.mem_cons.mp hf with rfl | hf
        · omega
        · exact hrest f hf
      · intro c hc
        rcases List.mem_cons.mp hc with rfl | hc
        · exact le_rfl
        · have := hb c hc
          unfold stop at this
          omega

theorem joinPrev_separated (hl : Separated l) (hl' : Separated l')
    (hle : ∀ e ∈ l, ∀ f ∈ l', e.stop ≤ f.start) : Separated (joinPrev l l') := by
  cases l' with
  | nil => exact hl
  | cons b rest =>
    rcases l.eq_nil_or_concat' with rfl | ⟨pre, p, rfl⟩
    · exact hl'
    · have hb := List.pairwise_cons.mp hl'
      have hp := List.pairwise_append.mp hl
      have hpb := hle p (by simp) b List.mem_cons_self
      have hpre : ∀ e ∈ pre, e.stop < p.start := fun e he => hp.2.2 e he p (by simp)
      rw [joinPrev, List.getLast?_concat]
      simp only
      split
      · rename_i h
        rw [List.dropLast_concat]
        refine List.pairwise_append.mpr ⟨hp.1, List.pairwise_cons.mpr ⟨?_, hb.2⟩, ?_⟩
        · intro f hf
          have := hb.1 f hf
          unfold stop at *
          simp only
          omega
        · intro e he f hf
          have := hpre e he
          rcases List.mem_cons.mp hf with rfl | hf
          · exact this
          · have := hb.1 f hf
            unfold stop at *
            omega
      · rename_i h
        refine List.pairwise_append.mpr ⟨hl, hl', ?_⟩
        intro e he f hf
        have hef : e.stop ≤ p.stop := by
          rcases List.mem_append.mp he with he | he
          · have := hpre e he
            unfold stop at *
            omega
          · rw [List.mem_singleton.mp he]
        have hbf : b.start ≤ f.start := by
          rcases List.mem_cons.mp hf with rfl | hf
          · exact le_rfl
          · have := hb.1 f hf
            unfold stop at this
            omega
        omega

/-- Disjoint extents that are not empty lie one behind the other. -/
theorem stop_le_of_disjoint (h : ∀ x, e.Has x → ¬ f.Has x) (hf : 0 < f.len)
    (hef : e.start ≤ f.start) : e.stop ≤ f.start := by
  have hx := h f.start
  unfold Has at hx
  unfold stop
  omega

theorem insertMerge_separated {b : Extent} (hl : Separated l) (hb : Apart (b :: l))
    (hpos : ∀ e ∈ b :: l, 0 < e.len) : Separated (insertMerge b l) := by
  have happ := @List.takeWhile_append_dropWhile _ (fun e : Extent => e.start < b.start) l
  have hparts := hl
  rw [← happ] at hparts
  obtain ⟨hbefore, hbehind, -⟩ := List.pairwise_append.mp hparts
  have hdisj := (List.pairwise_cons.mp hb).1
  have hlt : ∀ e ∈ l.takeWhile (fun e => e.start < b.start), e.stop ≤ b.start := by
    intro e he
    have hmem := (List.takeWhile_sublist _).subset he
    have hstart := List.mem_takeWhile_imp he
    refine stop_le_of_disjoint (fun x hx hbx => hdisj e hmem x hbx hx)
      (hpos b List.mem_cons_self) ?_
    simp only [decide_eq_true_eq] at hstart
    omega
  have hge : ∀ f ∈ l.dropWhile (fun e => e.start < b.start), b.stop ≤ f.start := by
    intro f hf
    have hmem := (List.dropWhile_sublist _).subset hf
    refine stop_le_of_disjoint (hdisj f hmem) (hpos f (List.mem_cons_of_mem _ hmem)) ?_
    -- the walk ended at the first of them, and the list is in order
    cases hdrop : l.dropWhile (fun e => e.start < b.start) with
    | nil => simp [hdrop] at hf
    | cons n rest =>
      have hn : b.start ≤ n.start := by
        have := @List.head?_dropWhile_not _ (fun e : Extent => e.start < b.start) l
        rw [hdrop] at this
        simpa using this
      rw [hdrop] at hf hbehind
      rcases List.mem_cons.mp hf with rfl | hf
      · exact hn
      · have := (List.pairwise_cons.mp hbehind).1 f hf
        unfold stop at this
        omega
  have hnext := joinNext_separated hbehind hge
  refine joinPrev_separated hbefore hnext.1 ?_
  intro e he f hf
  exact (hlt e he).trans (hnext.2 f hf)

/-- The inserted extent is in the list, alone or as a part of a larger one. -/
theorem exists_len_le_insertMerge (b : Extent) (l : List Extent) :
    ∃ c ∈ insertMerge b l, b.len ≤ c.len := by
  obtain ⟨c, rest, hnext, hc⟩ : ∃ c rest,
      joinNext b (l.dropWhile fun e => e.start < b.start) = c :: rest ∧ b.len ≤ c.len := by
    cases l.dropWhile fun e => e.start < b.start with
    | nil => exact ⟨b, [], rfl, le_rfl⟩
    | cons n rest =>
      rw [joinNext]
      split
      · exact ⟨_, rest, rfl, Nat.le_add_right _ _⟩
      · exact ⟨b, n :: rest, rfl, le_rfl⟩
  rw [insertMerge, hnext, joinPrev]
  split
  · exact ⟨c, List.mem_cons_self, hc⟩
  · split
    · exact ⟨_, List.mem_append_right _ List.mem_cons_self, hc.trans (Nat.le_add_left _ _)⟩
    · exact ⟨c, List.mem_append_right _ List.mem_cons_self, hc⟩

end Extent

end Perspicua.Lib
