import Mathlib

/-!
# Dyadic blocks and tilings

A block of order `k` is a run of `2 ^ k` consecutive numbers that starts at a multiple of
its size. A *tiling* cuts an initial segment of `ℕ`, minus a set `R` of reserved numbers,
into pairwise disjoint blocks. Halving a block and joining two buddies both keep a tiling,
which is all a binary buddy system does to it.
-/

namespace Perspicua.Lib

/-- A run of `2 ^ order` numbers starting at `base`. -/
@[ext]
structure Block where
  base : ℕ
  order : ℕ
deriving DecidableEq, Repr

namespace Block

instance : Membership ℕ Block := ⟨fun b q => b.base ≤ q ∧ q < b.base + 2 ^ b.order⟩

theorem mem_iff {b : Block} {q : ℕ} : q ∈ b ↔ b.base ≤ q ∧ q < b.base + 2 ^ b.order := Iff.rfl

theorem base_mem (b : Block) : b.base ∈ b :=
  mem_iff.mpr ⟨le_rfl, Nat.lt_add_of_pos_right (Nat.two_pow_pos _)⟩

/-- The left half of a block of order `k + 1` starting at `p`. -/
theorem mem_split {p k q : ℕ} :
    q ∈ Block.mk p (k + 1) ↔ q ∈ Block.mk p k ∨ q ∈ Block.mk (p + 2 ^ k) k := by
  simp only [mem_iff, pow_succ]
  omega

end Block

/-! ## Buddies -/

/-- The buddy of a left half is the right half. -/
theorem xor_two_pow_left {p k : ℕ} (h : 2 ^ (k + 1) ∣ p) : p ^^^ 2 ^ k = p + 2 ^ k := by
  obtain ⟨m, rfl⟩ := h
  rw [show 2 ^ (k + 1) * m = (2 * m) <<< k by rw [Nat.shiftLeft_eq]; ring,
    show (2 : ℕ) ^ k = 1 <<< k by rw [Nat.shiftLeft_eq, one_mul], ← Nat.shiftLeft_xor_distrib,
    Nat.xor_one_of_even (even_two_mul m)]
  simp only [Nat.shiftLeft_eq]
  ring

/-- The buddy of a right half is the left half. -/
theorem xor_two_pow_right {p k : ℕ} (h : 2 ^ (k + 1) ∣ p) : (p + 2 ^ k) ^^^ 2 ^ k = p := by
  rw [← xor_two_pow_left h, Nat.xor_assoc, Nat.xor_self, Nat.xor_zero]

/-- An aligned block is the left or the right half of the block one order up. -/
theorem aligned_cases {p k : ℕ} (h : 2 ^ k ∣ p) :
    2 ^ (k + 1) ∣ p ∨ ∃ l, p = l + 2 ^ k ∧ 2 ^ (k + 1) ∣ l := by
  obtain ⟨m, rfl⟩ := h
  rcases Nat.even_or_odd' m with ⟨r, rfl | rfl⟩
  · exact Or.inl ⟨r, by ring⟩
  · exact Or.inr ⟨2 ^ (k + 1) * r, by ring, dvd_mul_right _ _⟩

theorem xor_two_pow_ne (p k : ℕ) : p ^^^ 2 ^ k ≠ p := by
  intro h
  have h2 : p ^^^ (p ^^^ 2 ^ k) = p ^^^ p := by rw [h]
  rw [← Nat.xor_assoc, Nat.xor_self, Nat.zero_xor] at h2
  exact absurd h2 (Nat.two_pow_pos k).ne'

theorem xor_xor_two_pow (p k : ℕ) : (p ^^^ 2 ^ k) ^^^ 2 ^ k = p := by
  rw [Nat.xor_assoc, Nat.xor_self, Nat.xor_zero]

/-! ## Tilings -/

/-- `B` cuts `[0, lim)` minus the reserved numbers `R` into aligned blocks of order at
most `top`. -/
structure Tiling (R : ℕ → Prop) (top lim : ℕ) (B : Set Block) : Prop where
  order_le : ∀ b ∈ B, b.order ≤ top
  aligned : ∀ b ∈ B, 2 ^ b.order ∣ b.base
  bound : ∀ b ∈ B, b.base + 2 ^ b.order ≤ lim
  unreserved : ∀ b ∈ B, ∀ q ∈ b, ¬ R q
  disjoint : ∀ b ∈ B, ∀ c ∈ B, ∀ q, q ∈ b → q ∈ c → b = c
  cover : ∀ q < lim, R q ∨ ∃ b ∈ B, q ∈ b

variable {R : ℕ → Prop} {top lim : ℕ} {B : Set Block}

theorem tiling_empty : Tiling R top 0 ∅ where
  order_le := by simp
  aligned := by simp
  bound := by simp
  unreserved := by simp
  disjoint := by simp
  cover := by simp

namespace Tiling

/-- Distinct blocks of a tiling have distinct bases. -/
theorem eq_of_base (h : Tiling R top lim B) {b c : Block} (hb : b ∈ B) (hc : c ∈ B)
    (he : b.base = c.base) : b = c :=
  h.disjoint b hb c hc b.base b.base_mem (he ▸ c.base_mem)

theorem base_lt (h : Tiling R top lim B) {b : Block} (hb : b ∈ B) : b.base < lim :=
  Nat.lt_of_lt_of_le b.base_mem.2 (h.bound b hb)

/-- Step over a reserved number. -/
theorem skip (h : Tiling R top lim B) (hr : R lim) : Tiling R top (lim + 1) B where
  order_le := h.order_le
  aligned := h.aligned
  bound b hb := (h.bound b hb).trans (Nat.le_succ _)
  unreserved := h.unreserved
  disjoint := h.disjoint
  cover q hq := by
    rcases Nat.lt_succ_iff_lt_or_eq.mp hq with hq | rfl
    · exact h.cover q hq
    · exact Or.inl hr

/-- Extend the tiling by a block that starts where it ends. -/
theorem push (h : Tiling R top lim B) {k : ℕ} (hk : k ≤ top) (ha : 2 ^ k ∣ lim)
    (hr : ∀ q ∈ Block.mk lim k, ¬ R q) :
    Tiling R top (lim + 2 ^ k) (insert ⟨lim, k⟩ B) where
  order_le := by
    rintro b (rfl | hb)
    · exact hk
    · exact h.order_le b hb
  aligned := by
    rintro b (rfl | hb)
    · exact ha
    · exact h.aligned b hb
  bound := by
    rintro b (rfl | hb)
    · exact le_rfl
    · exact (h.bound b hb).trans (Nat.le_add_right _ _)
  unreserved := by
    rintro b (rfl | hb)
    · exact hr
    · exact h.unreserved b hb
  disjoint := by
    -- old blocks end before `lim`, where the new one starts
    have hlt : ∀ b ∈ B, ∀ q ∈ b, ¬ lim ≤ q := fun b hb q hq =>
      Nat.not_le.mpr (Nat.lt_of_lt_of_le hq.2 (h.bound b hb))
    rintro b (rfl | hb) c (rfl | hc) q hqb hqc
    · rfl
    · exact absurd hqb.1 (hlt c hc q hqc)
    · exact absurd hqc.1 (hlt b hb q hqb)
    · exact h.disjoint b hb c hc q hqb hqc
  cover q hq := by
    rcases Nat.lt_or_ge q lim with hlt | hge
    · rcases h.cover q hlt with hr | ⟨b, hb, hq⟩
      · exact Or.inl hr
      · exact Or.inr ⟨b, Or.inr hb, hq⟩
    · exact Or.inr ⟨⟨lim, k⟩, Or.inl rfl, hge, hq⟩

/-- Replace a set of blocks by another one that occupies the same numbers. -/
theorem replace (h : Tiling R top lim B) {old new : Set Block} (hold : old ⊆ B)
    (horder : ∀ b ∈ new, b.order ≤ top) (halign : ∀ b ∈ new, 2 ^ b.order ∣ b.base)
    (hdisj : ∀ b ∈ new, ∀ c ∈ new, ∀ q, q ∈ b → q ∈ c → b = c)
    (hmem : ∀ q, (∃ b ∈ new, q ∈ b) ↔ ∃ b ∈ old, q ∈ b) :
    Tiling R top lim ((B \ old) ∪ new) where
  order_le := by
    rintro b (hb | hb)
    · exact h.order_le b hb.1
    · exact horder b hb
  aligned := by
    rintro b (hb | hb)
    · exact h.aligned b hb.1
    · exact halign b hb
  bound := by
    rintro b (hb | hb)
    · exact h.bound b hb.1
    · -- the last number of a new block lies in an old one
      have hlast : b.base + 2 ^ b.order - 1 ∈ b :=
        ⟨by have := Nat.two_pow_pos b.order; omega, by have := Nat.two_pow_pos b.order; omega⟩
      obtain ⟨c, hc, hqc⟩ := (hmem _).mp ⟨b, hb, hlast⟩
      have := h.bound c (hold hc)
      have := hqc.2
      omega
  unreserved := by
    rintro b (hb | hb) q hq
    · exact h.unreserved b hb.1 q hq
    · obtain ⟨c, hc, hqc⟩ := (hmem q).mp ⟨b, hb, hq⟩
      exact h.unreserved c (hold hc) q hqc
  disjoint := by
    have hcross : ∀ b ∈ B \ old, ∀ c ∈ new, ∀ q, q ∈ b → q ∉ c := by
      intro b hb c hc q hqb hqc
      obtain ⟨d, hd, hqd⟩ := (hmem q).mp ⟨c, hc, hqc⟩
      exact hb.2 (h.disjoint b hb.1 d (hold hd) q hqb hqd ▸ hd)
    rintro b (hb | hb) c (hc | hc) q hqb hqc
    · exact h.disjoint b hb.1 c hc.1 q hqb hqc
    · exact absurd hqc (hcross b hb c hc q hqb)
    · exact absurd hqb (hcross c hc b hb q hqc)
    · exact hdisj b hb c hc q hqb hqc
  cover q hq := by
    rcases h.cover q hq with hr | ⟨b, hb, hqb⟩
    · exact Or.inl hr
    · by_cases hbo : b ∈ old
      · obtain ⟨c, hc, hqc⟩ := (hmem q).mpr ⟨b, hbo, hqb⟩
        exact Or.inr ⟨c, Or.inr hc, hqc⟩
      · exact Or.inr ⟨b, Or.inl ⟨hb, hbo⟩, hqb⟩

/-- Cut a block into its two halves. -/
theorem split (h : Tiling R top lim B) {p k : ℕ} (hb : ⟨p, k + 1⟩ ∈ B) :
    Tiling R top lim ((B \ {⟨p, k + 1⟩}) ∪ {⟨p, k⟩, ⟨p + 2 ^ k, k⟩}) := by
  have hdvd : 2 ^ k ∣ p := (pow_dvd_pow 2 (Nat.le_succ k)).trans (h.aligned _ hb)
  have hle : k + 1 ≤ top := h.order_le _ hb
  refine h.replace (by simpa using hb) ?_ ?_ ?_ ?_
  · rintro b (rfl | rfl) <;> exact (Nat.le_succ k).trans hle
  · rintro b (rfl | rfl)
    · exact hdvd
    · exact dvd_add hdvd dvd_rfl
  · rintro b (rfl | rfl) c (rfl | rfl) q hqb hqc
    · rfl
    · simp only [Block.mem_iff] at hqb hqc; omega
    · simp only [Block.mem_iff] at hqb hqc; omega
    · rfl
  · intro q
    simp [Block.mem_split]

/-- Join two buddies into the block one order up. -/
theorem merge (h : Tiling R top lim B) {p k : ℕ} (hk : k < top) (hp : 2 ^ (k + 1) ∣ p)
    (hl : ⟨p, k⟩ ∈ B) (hr : ⟨p + 2 ^ k, k⟩ ∈ B) :
    Tiling R top lim ((B \ {⟨p, k⟩, ⟨p + 2 ^ k, k⟩}) ∪ {⟨p, k + 1⟩}) := by
  refine h.replace ?_ ?_ ?_ ?_ ?_
  · rintro b (rfl | rfl)
    · exact hl
    · exact hr
  · rintro b rfl
    exact hk
  · rintro b rfl
    exact hp
  · rintro b rfl c rfl _ _ _
    rfl
  · intro q
    simp [Block.mem_split]

end Tiling

/-! ## Canonical families -/

namespace Block

variable {b : Block} {p q k : ℕ}

theorem mem_iff_div (hb : 2 ^ b.order ∣ b.base) :
    q ∈ b ↔ q / 2 ^ b.order = b.base / 2 ^ b.order := by
  obtain ⟨m, hm⟩ := hb
  have hpos := Nat.two_pow_pos b.order
  rw [mem_iff, hm, Nat.mul_div_cancel_left m hpos, Nat.div_eq_iff hpos, Nat.mul_comm m]
  omega

/-- An aligned block holds both or none of two numbers that a smaller one does not tell
apart. -/
theorem mem_congr (hb : 2 ^ b.order ∣ b.base) (hk : k ≤ b.order) (hq : q / 2 ^ k = p / 2 ^ k) :
    q ∈ b ↔ p ∈ b := by
  have hpow : 2 ^ b.order = 2 ^ k * 2 ^ (b.order - k) := by
    rw [← pow_add, Nat.add_sub_of_le hk]
  have hdiv : q / 2 ^ b.order = p / 2 ^ b.order := by
    rw [hpow, ← Nat.div_div_eq_div_mul, hq, Nat.div_div_eq_div_mul]
  rw [mem_iff_div hb, mem_iff_div hb, hdiv]

/-- An aligned block is known from its order and an aligned number in it. -/
theorem eq_of_mem (hb : 2 ^ b.order ∣ b.base) (hp : 2 ^ k ∣ p) (hk : b.order = k) (hpb : p ∈ b) :
    b = ⟨p, k⟩ := by
  subst hk
  rw [mem_iff_div hb] at hpb
  refine Block.ext ?_ rfl
  rw [← Nat.div_mul_cancel hb, ← hpb, Nat.div_mul_cancel hp]

end Block

/-- Disjoint aligned blocks among which there are no two buddies that could be joined. -/
structure Canonical (top : ℕ) (B : Set Block) : Prop where
  order_le : ∀ b ∈ B, b.order ≤ top
  aligned : ∀ b ∈ B, 2 ^ b.order ∣ b.base
  disjoint : ∀ b ∈ B, ∀ c ∈ B, ∀ q, q ∈ b → q ∈ c → b = c
  no_buddies : ∀ p k, k < top → ⟨p, k⟩ ∈ B → ⟨p ^^^ 2 ^ k, k⟩ ∉ B

namespace Canonical

variable {C : Set Block}

/-- In a canonical family an aligned run lies in one block. -/
theorem exists_of_run (h : Canonical top B) {k : ℕ} (hk : k ≤ top) : ∀ {p : ℕ}, 2 ^ k ∣ p →
    (∀ q ∈ Block.mk p k, ∃ b ∈ B, q ∈ b) → ∃ b ∈ B, k ≤ b.order ∧ p ∈ b := by
  induction k with
  | zero =>
    intro p _ hrun
    obtain ⟨b, hb, hpb⟩ := hrun p (Block.base_mem ⟨p, 0⟩)
    exact ⟨b, hb, Nat.zero_le _, hpb⟩
  | succ k ih =>
    intro p hp hrun
    have hpk : 2 ^ k ∣ p := (pow_dvd_pow 2 (Nat.le_succ k)).trans hp
    have hright : 2 ^ k ∣ p + 2 ^ k := (Nat.dvd_add_right hpk).mpr (dvd_refl _)
    -- each half lies in one block
    obtain ⟨b, hb, hbk, hpb⟩ := ih (Nat.le_of_succ_le hk) hpk fun q hq =>
      hrun q (Block.mem_split.mpr (.inl hq))
    obtain ⟨c, hc, hck, hpc⟩ := ih (Nat.le_of_succ_le hk) hright fun q hq =>
      hrun q (Block.mem_split.mpr (.inr hq))
    rcases Nat.lt_or_ge k b.order with hlt | hle
    · exact ⟨b, hb, hlt, hpb⟩
    have hhalf : (p + 2 ^ k) / 2 ^ (k + 1) = p / 2 ^ (k + 1) := by
      have hmem : p + 2 ^ k ∈ Block.mk p (k + 1) :=
        Block.mem_split.mpr (.inr (Block.base_mem ⟨p + 2 ^ k, k⟩))
      exact (@Block.mem_iff_div ⟨p, k + 1⟩ _ hp).mp hmem
    rcases Nat.lt_or_ge k c.order with hlt' | hle'
    · -- a larger block with the right half has the left one too
      exact ⟨c, hc, hlt', (Block.mem_congr (h.aligned c hc) hlt' hhalf).mp hpc⟩
    · -- the two halves would be buddies
      have hbp := Block.eq_of_mem (h.aligned b hb) hpk (le_antisymm hle hbk) hpb
      have hcp := Block.eq_of_mem (h.aligned c hc) hright (le_antisymm hle' hck) hpc
      rw [← xor_two_pow_left hp] at hcp
      exact absurd (hcp ▸ hc) (h.no_buddies p k hk (hbp ▸ hb))

theorem subset_of_covers (h : Canonical top B) (h' : Canonical top C)
    (hcov : ∀ q, (∃ b ∈ B, q ∈ b) ↔ ∃ c ∈ C, q ∈ c) : B ⊆ C := by
  intro b hb
  -- a block of the one lies in a block of the other, and that in one of the first
  obtain ⟨c, hc, hbc, hbase⟩ := h'.exists_of_run (h.order_le b hb) (h.aligned b hb) fun q hq =>
    (hcov q).mp ⟨b, hb, hq⟩
  obtain ⟨d, hd, hcd, hbase'⟩ := h.exists_of_run (h'.order_le c hc) (h'.aligned c hc) fun q hq =>
    (hcov q).mpr ⟨c, hc, hq⟩
  have hbd : b.base ∈ d := by
    refine (Block.mem_congr (h.aligned d hd) hcd ?_).mp hbase'
    exact ((Block.mem_iff_div (h'.aligned c hc)).mp hbase).symm
  have hdb := h.disjoint b hb d hd b.base b.base_mem hbd
  have horder : c.order = b.order := le_antisymm (hdb ▸ hcd) hbc
  have hcb : c = b := Block.eq_of_mem (h'.aligned c hc) (h.aligned b hb) horder hbase
  exact hcb ▸ hc

/-- A canonical family is known from the numbers it covers. -/
theorem unique (h : Canonical top B) (h' : Canonical top C)
    (hcov : ∀ q, (∃ b ∈ B, q ∈ b) ↔ ∃ c ∈ C, q ∈ c) : B = C :=
  Set.Subset.antisymm (h.subset_of_covers h' hcov) (h'.subset_of_covers h fun q => (hcov q).symm)

end Canonical

end Perspicua.Lib
