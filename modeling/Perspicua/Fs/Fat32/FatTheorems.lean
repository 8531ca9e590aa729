import Perspicua.Fs.Fat32.Walk
import Perspicua.Lib.Chain

/-!
# What the table operations do

Every operation on the file allocation table changes the words of few clusters, in some or all
of its copies, and the driver reads the first copy. A chain whose clusters keep their words is
the same chain; a free cluster is on no chain.
-/

namespace Perspicua.Fs

open Perspicua.Lib Prog

/-! ## Words of the table -/

namespace Volume

variable {vol : Volume} {c x copies value : ℕ}

/-- The first `copies` copies of the table have a new word for `c`. -/
def setFats (vol : Volume) (copies c value : ℕ) : Volume :=
  (List.range copies).foldl (fun v i => v.setFat i c (value % 2 ^ 28)) vol

theorem setFats_succ :
    vol.setFats (copies + 1) c value = (vol.setFats copies c value).setFat copies c (value % 2 ^ 28) := by
  rw [setFats, List.range_succ, List.foldl_append]
  rfl

@[simp] theorem setFat_data (i w : ℕ) : (vol.setFat i c w).data = vol.data := rfl

@[simp] theorem setFats_data : (vol.setFats copies c value).data = vol.data := by
  induction copies with
  | zero => rfl
  | succ n ih => rw [setFats_succ, setFat_data, ih]

theorem setFats_fat_of_ne (i : ℕ) (h : x ≠ c) : (vol.setFats copies c value).fat i x = vol.fat i x := by
  induction copies with
  | zero => rfl
  | succ n ih =>
    rw [setFats_succ, ← ih]
    unfold setFat
    dsimp only
    by_cases hi : i = n
    · rw [hi, Function.update_self, Function.update_of_ne h]
    · rw [Function.update_of_ne hi]

/-- The word of `c` in every copy. -/
theorem setFats_fat_self (i : ℕ) :
    (vol.setFats copies c value).fat i c = if i < copies then value % 2 ^ 28 else vol.fat i c := by
  induction copies with
  | zero => rfl
  | succ n ih =>
    rw [setFats_succ]
    unfold setFat
    dsimp only
    by_cases hi : i = n
    · rw [hi, Function.update_self, Function.update_self, if_pos (Nat.lt_succ_self n)]
    · rw [Function.update_of_ne hi, ih]
      exact if_congr (by omega) rfl rfl

end Volume

/-! ## Chains -/

variable (m : Mount)

theorem not_valid_of_eoc {m : Mount} {c : ℕ} (h : clusterEocMin ≤ c) : clusterValid m c = false := by
  have hmax := m.max_le
  unfold clusterEocMin at h
  unfold clusterValid
  rw [Bool.and_eq_false_iff, decide_eq_false_iff_not, decide_eq_false_iff_not]
  omega

/-! ## Writing words -/

section Writes

variable {m} {s : FsState} {use : FatUse} {c value : ℕ}

/-- A write to a copy of the table fails. -/
def FatFails (m : Mount) (use : FatUse) (copy : ℕ) : Prop :=
  ∃ k, m.env.blockFails (.fatRead use copy) k = true ∨ m.env.blockFails (.fatWrite use copy) k = true

/-- Only the volume, the hint and the number of requests have changed. -/
def OnDisk (s t : FsState) : Prop :=
  ∃ vol hint n, t = { s with vol := vol, nextFreeHint := hint, tick := n }

theorem OnDisk.refl (s : FsState) : OnDisk s s := ⟨s.vol, s.nextFreeHint, s.tick, rfl⟩

theorem OnDisk.trans {s t u : FsState} (h : OnDisk s t) (h' : OnDisk t u) : OnDisk s u := by
  obtain ⟨vol, hint, n, rfl⟩ := h
  obtain ⟨vol', hint', n', rfl⟩ := h'
  exact ⟨vol', hint', n', rfl⟩

theorem OnDisk.tick {s t : FsState} (h : OnDisk s t) (n : ℕ) : OnDisk s { t with tick := n } := by
  obtain ⟨vol, hint, k, rfl⟩ := h
  exact ⟨vol, hint, n, rfl⟩

theorem OnDisk.setVol {s t : FsState} (h : OnDisk s t) (vol : Volume) :
    OnDisk s { t with vol := vol } := by
  obtain ⟨vol', hint, k, rfl⟩ := h
  exact ⟨vol, hint, k, rfl⟩

/-- The copies are written one after the other, up to the one that fails. -/
theorem setFatCopies_ends (use : FatUse) (c value : ℕ) (d k : ℕ) (s t : FsState) (hdisk : OnDisk s t)
    (hvol : t.vol = s.vol.setFats k c value) :
    Ends (setFatCopies m use c value (List.range' k d)) t fun r u => OnDisk s u ∧
      ((r = .ok () ∧ u.vol = s.vol.setFats (k + d) c value) ∨
        r ≠ .ok () ∧ ∃ j < k + d, u.vol = s.vol.setFats j c value ∧ FatFails m use j) := by
  induction d generalizing k t with
  | zero => exact ⟨hdisk, .inl ⟨rfl, hvol⟩⟩
  | succ d ih =>
    rw [List.range'_succ, setFatCopies]
    refine Ends.bind (Q := fun fails u => u = { t with tick := t.tick + 1 } ∧
      (fails = true → FatFails m use k)) ⟨rfl, fun h => ⟨t.tick, .inl h⟩⟩ ?_
    rintro fails _ ⟨rfl, hfails⟩
    apply ends_ite
    · intro hf
      exact ⟨hdisk.tick _, .inr ⟨by simp, k, by omega, hvol, hfails hf⟩⟩
    intro _
    refine Ends.bind (Q := fun fails u => u = { t with tick := t.tick + 2 } ∧
      (fails = true → FatFails m use k)) ⟨rfl, fun h => ⟨t.tick + 1, .inr h⟩⟩ ?_
    rintro fails _ ⟨rfl, hfails⟩
    apply ends_ite
    · intro hf
      exact ⟨hdisk.tick _, .inr ⟨by simp, k, by omega, hvol, hfails hf⟩⟩
    intro _
    rw [ends_bind, ends_modify, show k + (d + 1) = k + 1 + d by omega]
    refine ih (k + 1) _ ((hdisk.tick _).setVol _) ?_
    dsimp only
    rw [hvol, Volume.setFats_succ]

theorem setFatEntry_ends (use : FatUse) (c value : ℕ) (s : FsState) :
    Ends (setFatEntry m use c value) s fun r t => OnDisk s t ∧
      ((r = .ok () ∧ clusterValid m c = true ∧ t.vol = s.vol.setFats m.numFats c value) ∨
        r ≠ .ok () ∧ ∃ k < m.numFats, t.vol = s.vol.setFats k c value ∧
          (clusterValid m c = true → FatFails m use k)) := by
  have hpos := m.numFats_pos
  unfold setFatEntry
  apply ends_ite
  · intro hbad
    refine ⟨.refl s, .inr ⟨by simp, 0, hpos, rfl, ?_⟩⟩
    intro hvalid
    rw [hvalid] at hbad
    cases hbad
  · intro hgood
    have hvalid : clusterValid m c = true := by simpa using hgood
    rw [List.range_eq_range']
    refine (setFatCopies_ends use c value m.numFats 0 s s (.refl s) rfl).mono ?_
    rintro r t ⟨hdisk, ⟨hr, hvol⟩ | ⟨hr, k, hk, hvol, hfails⟩⟩
    · rw [Nat.zero_add] at hvol
      exact ⟨hdisk, .inl ⟨hr, hvalid, hvol⟩⟩
    · rw [Nat.zero_add] at hk
      exact ⟨hdisk, .inr ⟨hr, k, hk, hvol, fun _ => hfails⟩⟩

/-! ## Allocating a cluster -/

/-- The search tries valid clusters only. -/
theorem allocCandidate_valid {hint n : ℕ} (hhint : 2 ≤ hint ∧ hint ≤ m.maxCluster)
    (hn : n < m.maxCluster - 1) : clusterValid m (allocCandidate m hint n) = true := by
  unfold clusterValid allocCandidate
  rw [Bool.and_eq_true, decide_eq_true_iff, decide_eq_true_iff]
  split <;> omega

/-- The search tries every valid cluster. -/
theorem exists_allocCandidate {hint x : ℕ} (hhint : 2 ≤ hint ∧ hint ≤ m.maxCluster)
    (hx : clusterValid m x = true) : ∃ n < m.maxCluster - 1, allocCandidate m hint n = x := by
  unfold clusterValid at hx
  rw [Bool.and_eq_true, decide_eq_true_iff, decide_eq_true_iff] at hx
  unfold allocCandidate
  by_cases hle : hint ≤ x
  · refine ⟨x - hint, by omega, ?_⟩
    rw [if_neg (by omega)]
    omega
  · -- behind the wrap
    refine ⟨x + m.maxCluster - 1 - hint, by omega, ?_⟩
    rw [if_pos (by omega)]
    omega

/-- What `allocate_cluster` leaves: a cluster that was free, marked in every copy of the table, or
nothing. If a copy could not be written, a free cluster is marked in those before it. -/
def Allocated (m : Mount) (s : FsState) (c : ℕ) (t : FsState) : Prop :=
  OnDisk s t ∧
    ((clusterValid m c = true ∧ s.vol.next c = 0 ∧ t.vol = s.vol.setFats m.numFats c clusterEoc) ∨
      c = 0 ∧ t.vol = s.vol ∧ ((∃ k, m.env.blockFails .scan k = true) ∨
        ∀ x, clusterValid m x = true → s.vol.next x ≠ 0) ∨
      c = 0 ∧ ∃ x, s.vol.next x = 0 ∧ ∃ k, FatFails m .alloc k ∧ t.vol = s.vol.setFats k x clusterEoc)

/-- Marking the free cluster that the search has found. -/
theorem allocMark_ends {x : ℕ} (hvalid : clusterValid m x = true) (s t : FsState) (hdisk : OnDisk s t)
    (hvol : t.vol = s.vol) (hfree : s.vol.next x = 0) :
    Ends (do
      match ← setFatEntry m .alloc x clusterEoc with
      | .error _ => pure 0
      | .ok _ => do
        Prog.modify fun s => { s with nextFreeHint := if x < m.maxCluster then x + 1 else 2 }
        pure x) t (Allocated m s) := by
  refine (setFatEntry_ends .alloc x clusterEoc t).bind ?_
  rintro r u ⟨hdisk', ⟨rfl, -, hu⟩ | ⟨hr, k, -, hu, hfails⟩⟩
  · rw [hvol] at hu
    refine ⟨?_, .inl ⟨hvalid, hfree, hu⟩⟩
    obtain ⟨vol, h, j, rfl⟩ := hdisk.trans hdisk'
    exact ⟨vol, _, j, rfl⟩
  · cases r with
    | ok _ => exact absurd rfl hr
    | error e =>
      rw [hvol] at hu
      exact ⟨hdisk.trans hdisk', .inr (.inr ⟨rfl, x, hfree, k, hfails hvalid, hu⟩)⟩

theorem allocScan_ends {hint : ℕ} (hhint : 2 ≤ hint ∧ hint ≤ m.maxCluster) (rounds n : ℕ)
    (last : Option ℕ) (hrounds : n + rounds = m.maxCluster - 1) (s t : FsState)
    (hdisk : OnDisk s t) (hvol : t.vol = s.vol)
    (hfull : ∀ k < n, s.vol.next (allocCandidate m hint k) ≠ 0) :
    Ends (allocScan m hint rounds n last) t (Allocated m s) := by
  induction rounds generalizing n last t with
  | zero =>
    refine ⟨hdisk, .inr (.inl ⟨rfl, hvol, .inr ?_⟩)⟩
    intro x hx
    obtain ⟨k, hk, rfl⟩ := exists_allocCandidate hhint hx
    exact hfull k (by omega)
  | succ rounds ih =>
    rw [allocScan]
    -- the sector of the table is read, or has just been read
    refine ends_ite_bind (Q := fun failed u => OnDisk s u ∧ u.vol = s.vol ∧
      (failed = true → ∃ k, m.env.blockFails .scan k = true)) ?_ ?_
    · apply ends_ite
      · intro _
        exact ⟨hdisk, hvol, by rintro ⟨⟩⟩
      · intro _
        exact ⟨hdisk.tick _, hvol, fun h => ⟨_, h⟩⟩
    rintro failed u ⟨hdisk', hvol', hfailed⟩
    apply ends_ite
    · intro hf
      exact ⟨hdisk', .inr (.inl ⟨rfl, hvol', .inl (hfailed hf)⟩)⟩
    intro _
    rw [ends_bind, ends_get]
    apply ends_ite
    · intro hfree
      rw [hvol'] at hfree
      exact allocMark_ends (allocCandidate_valid hhint (by omega)) s u hdisk' hvol' hfree
    · intro hused
      refine ih (n + 1) _ (by omega) u hdisk' hvol' ?_
      intro k hk
      by_cases hkn : k = n
      · rwa [hkn, ← hvol']
      · exact hfull k (by omega)

theorem allocateCluster_ends (s : FsState) : Ends (allocateCluster m) s (Allocated m s) := by
  have hroot := Nat.le_trans m.root_ge m.root_le
  unfold allocateCluster
  rw [ends_bind, ends_modify, ends_bind, ends_get]
  split
  · exact allocScan_ends ⟨Nat.le_refl 2, hroot⟩ _ 0 none (Nat.zero_add _) s _
      ⟨s.vol, 2, s.tick, rfl⟩ rfl (by simp)
  · exact allocScan_ends (by omega) _ 0 none (Nat.zero_add _) s s (.refl s) rfl (by simp)

section NoFailure

variable (hio : ∀ site k, m.env.blockFails site k = false)

include hio

theorem not_fatFails (use : FatUse) (k : ℕ) : ¬ FatFails m use k := by
  rintro ⟨j, h | h⟩
  · rw [hio] at h
    cases h
  · rw [hio] at h
    cases h

/-- Where nothing fails, the search finds a free cluster if there is one. -/
theorem allocateCluster_found (s : FsState) :
    Ends (allocateCluster m) s fun c t => OnDisk s t ∧
      ((clusterValid m c = true ∧ s.vol.next c = 0 ∧ t.vol = s.vol.setFats m.numFats c clusterEoc) ∨
        c = 0 ∧ t.vol = s.vol ∧ ∀ x, clusterValid m x = true → s.vol.next x ≠ 0) := by
  refine (allocateCluster_ends s).mono ?_
  rintro c t ⟨hdisk, h | ⟨hc, ht, ⟨k, hk⟩ | hfull⟩ | ⟨-, x, -, k, hk, -⟩⟩
  · exact ⟨hdisk, .inl h⟩
  · rw [hio] at hk
    cases hk
  · exact ⟨hdisk, .inr ⟨hc, ht, hfull⟩⟩
  · exact absurd hk (not_fatFails hio _ _)

/-- A free cluster that the hint names is the one that is taken. -/
theorem allocateCluster_hint (s : FsState) (hvalid : clusterValid m s.nextFreeHint = true)
    (hfree : s.vol.next s.nextFreeHint = 0) :
    Ends (allocateCluster m) s fun c _ => c = s.nextFreeHint := by
  have hroot := Nat.le_trans m.root_ge m.root_le
  have hhint : 2 ≤ s.nextFreeHint ∧ s.nextFreeHint ≤ m.maxCluster := by
    simpa [clusterValid] using hvalid
  have hcand : allocCandidate m s.nextFreeHint 0 = s.nextFreeHint := if_neg (by omega)
  unfold allocateCluster
  rw [ends_bind, ends_modify, ends_bind, ends_get, if_neg (by omega),
    show m.maxCluster - 1 = (m.maxCluster - 2) + 1 by omega, allocScan, hcand]
  refine ends_ite_bind (Q := fun failed u => failed = false ∧ u.vol = s.vol) ?_ ?_
  · rw [if_neg (by simp)]
    exact ⟨hio _ _, rfl⟩
  rintro _ u ⟨rfl, hu⟩
  show Ends (do
    let t ← Prog.get
    if t.vol.next s.nextFreeHint = 0 then _ else _) u _
  rw [ends_bind, ends_get, if_pos (by rw [hu]; exact hfree)]
  refine (setFatEntry_ends .alloc s.nextFreeHint clusterEoc u).bind ?_
  rintro r v ⟨-, ⟨rfl, -, -⟩ | ⟨-, k, -, -, hfails⟩⟩
  · exact rfl
  · exact absurd (hfails hvalid) (not_fatFails hio _ _)

end NoFailure

/-- `allocate_cluster` returns 0 exactly if no cluster is free, and else marks one that was free as
the end of a chain, in every copy, without touching other words or the reserved bits of any. -/
def AllocatesWell (m : Mount) (s : FsState) : Prop :=
  Ends (allocateCluster m) s fun c t =>
    (c = 0 ↔ ∀ x, clusterValid m x = true → s.vol.next x ≠ 0) ∧
    (c ≠ 0 → clusterValid m c = true ∧ s.vol.next c = 0 ∧
      ∀ i < m.numFats, t.vol.fat i c % 2 ^ 28 = clusterEoc) ∧
    (∀ i x, x ≠ c → t.vol.fat i x = s.vol.fat i x) ∧
    (∀ i x, t.vol.fat i x / 2 ^ 28 = s.vol.fat i x / 2 ^ 28) ∧ t.vol.data = s.vol.data

/-- A table in which the reserved bits of all free clusters are clear. -/
def ReservedClear (m : Mount) (vol : Volume) : Prop :=
  ∀ x, clusterValid m x = true → vol.next x = 0 → ∀ i < m.numFats, vol.fat i x < 2 ^ 28

theorem allocatesWell_of_reservedClear (hio : ∀ site k, m.env.blockFails site k = false) {s : FsState}
    (hclear : ReservedClear m s.vol) : AllocatesWell m s := by
  refine (allocateCluster_found hio s).mono ?_
  rintro c t ⟨-, ⟨hvalid, hfree, ht⟩ | ⟨rfl, ht, hfull⟩⟩
  · have hc : c ≠ 0 := by
      rintro rfl
      simp [clusterValid] at hvalid
    rw [ht]
    refine ⟨iff_of_false hc fun h => h c hvalid hfree, fun _ => ⟨hvalid, hfree, ?_⟩, ?_, ?_, ?_⟩
    · intro i hi
      rw [Volume.setFats_fat_self, if_pos hi]
      rfl
    · intro i x hx
      exact Volume.setFats_fat_of_ne i hx
    · intro i x
      by_cases hx : x = c
      · rw [hx, Volume.setFats_fat_self]
        split
        next hi => rw [Nat.div_eq_of_lt (hclear c hvalid hfree i hi), Nat.div_eq_of_lt (by decide)]
        next => rfl
      · rw [Volume.setFats_fat_of_ne i hx]
    · rw [Volume.setFats_data]
  · rw [ht]
    exact ⟨iff_of_true rfl hfull, fun h => absurd rfl h, fun _ _ _ => rfl, fun _ _ => rfl, rfl⟩

/-- For every hint the search does what it should exactly if the words of free clusters have no
reserved bits set: `set_fat_entry` writes a whole word. -/
theorem allocateCluster_well_iff (m : Mount) (hio : ∀ site k, m.env.blockFails site k = false)
    (vol : Volume) : (∀ s : FsState, s.vol = vol → AllocatesWell m s) ↔ ReservedClear m vol := by
  constructor
  · intro h x hx hfree i hi
    -- the hint decides which free cluster is taken
    let s : FsState :=
      { vol := vol, opens := [], nextFreeHint := x, entryGen := 0, vnodes := fun _ => none,
        nextVnode := 0, cache := [], tick := 0 }
    have hwell := h s rfl
    have htaken := (allocateCluster_hint hio s hx hfree).and ((allocateCluster_found hio s).and hwell)
    obtain ⟨hc, ⟨-, ⟨-, -, ht⟩ | ⟨h0, -, hfull⟩⟩, -, -, -, htop, -⟩ := htaken
    · have hword := htop i x
      rw [ht, hc, Volume.setFats_fat_self, if_pos hi, Nat.div_eq_of_lt (by decide)] at hword
      exact (Nat.div_eq_zero_iff.mp hword.symm).resolve_left (by decide)
    · exact absurd hfree (hfull x hx)
  · rintro hclear s rfl
    exact allocatesWell_of_reservedClear hio hclear

/-- A volume whose cluster 3 is free with reserved bits set. -/
def reservedBits : Volume where
  fat _ c := if c = 3 then 0xF0000000 else clusterEoc
  data _ _ _ := DirEntry.zero

def reservedState : FsState where
  vol := reservedBits
  opens := []
  nextFreeHint := 2
  entryGen := 0
  vnodes _ := none
  nextVnode := 0
  cache := []
  tick := 0

/-- Allocating cluster 3 clears its reserved bits. -/
theorem reserved_bits_lost : (allocateCluster smallMount reservedState).1 = 3 ∧
    reservedState.vol.fat 0 3 / 2 ^ 28 = 0xF ∧
    (allocateCluster smallMount reservedState).2.vol.fat 0 3 / 2 ^ 28 = 0 := by
  decide +kernel

theorem allocateCluster_well_iff_small :
    (∀ site k, smallMount.env.blockFails site k = false) ∧
      ((∀ s : FsState, s.vol = reservedBits → AllocatesWell smallMount s) ↔
        ReservedClear smallMount reservedBits) :=
  ⟨fun _ _ => rfl, allocateCluster_well_iff smallMount (fun _ _ => rfl) reservedBits⟩

/-! ## Clearing a cluster -/

/-- A sector of a valid cluster can be read unless the transfer fails. -/
theorem readSector_cases (site : Site) (c sec : ℕ) (s : FsState) :
    Ends (readSector m site c sec) s fun r t => t = { s with tick := s.tick + 1 } ∧
      (r = .ok (s.vol.data c sec) ∨
        r = .error .eio ∧ (clusterValid m c = true → m.env.blockFails site s.tick = true)) := by
  unfold readSector
  refine Ends.bind (Q := fun fails t => fails = m.env.blockFails site s.tick ∧
    t = { s with tick := s.tick + 1 }) ⟨rfl, rfl⟩ ?_
  rintro fails _ ⟨rfl, rfl⟩
  apply ends_ite
  · intro hf
    exact ⟨rfl, .inr ⟨rfl, fun _ => hf⟩⟩
  intro _
  apply ends_ite
  · intro hbad
    refine ⟨rfl, .inr ⟨rfl, fun hvalid => ?_⟩⟩
    rw [hvalid] at hbad
    cases hbad
  · intro _
    exact ⟨rfl, .inl rfl⟩

/-! ## Extending a chain -/

/-! ## Freeing a chain -/

/-- The clusters on the way from `start` along valid links: the way ends at an end mark, at a link to
no valid cluster, a free cluster's for one, or where it comes back to itself. -/
inductive OnPath (m : Mount) (vol : Volume) (start : ℕ) : ℕ → Prop
  | start (h : clusterValid m start = true) : OnPath m vol start start
  | next {x : ℕ} (hx : OnPath m vol start x) (h : clusterValid m (vol.next x) = true) :
    OnPath m vol start (vol.next x)

/-- The loop of `fat32_free_cluster_chain` as it runs, with no bound on its rounds. -/
inductive FreeLoop (m : Mount) : ℕ → FsState → Res Unit → FsState → Prop
  | done {c : ℕ} {s : FsState} (h : clusterValid m c = false) : FreeLoop m c s (.ok ()) s
  | failed {c : ℕ} {s : FsState} {e : Errno} (h : clusterValid m c = true)
    (hset : (setFatEntry m .free c 0 (getNextCluster m c s).2).1 = .error e) :
    FreeLoop m c s (.error .eio) (setFatEntry m .free c 0 (getNextCluster m c s).2).2
  | round {c : ℕ} {s t : FsState} {r : Res Unit} (h : clusterValid m c = true)
    (hset : (setFatEntry m .free c 0 (getNextCluster m c s).2).1 = .ok ())
    (hrest : FreeLoop m (getNextCluster m c s).1
      (setFatEntry m .free c 0 (getNextCluster m c s).2).2 r t) : FreeLoop m c s r t

/-- The words of the clusters `freed` are cleared in every copy, and nothing else has changed. -/
structure Freed (m : Mount) (s : FsState) (freed : List ℕ) (t : FsState) : Prop where
  disk : OnDisk s t
  data : t.vol.data = s.vol.data
  fat : ∀ i x, t.vol.fat i x = if i < m.numFats ∧ x ∈ freed then 0 else s.vol.fat i x

namespace Freed

variable {s t : FsState} {freed : List ℕ}

theorem next_of_mem (h : Freed m s freed t) (hc : c ∈ freed) : t.vol.next c = 0 := by
  rw [Volume.next, h.fat, if_pos ⟨m.numFats_pos, hc⟩, Nat.zero_mod]

theorem next_of_not_mem (h : Freed m s freed t) (hc : c ∉ freed) : t.vol.next c = s.vol.next c := by
  rw [Volume.next, h.fat, if_neg fun h => hc h.2]
  rfl

/-- One more round. -/
theorem cons (h : Freed m s freed t) {u : FsState} (hdisk : OnDisk t u)
    (hu : u.vol = t.vol.setFats m.numFats c 0) : Freed m s (c :: freed) u := by
  refine ⟨h.disk.trans hdisk, by rw [hu, Volume.setFats_data, h.data], ?_⟩
  intro i x
  rw [hu]
  by_cases hx : x = c
  · rw [hx, Volume.setFats_fat_self, h.fat]
    by_cases hi : i < m.numFats
    · rw [if_pos hi, if_pos ⟨hi, List.mem_cons_self⟩, Nat.zero_mod]
    · rw [if_neg hi, if_neg fun h => hi h.1, if_neg fun h => hi h.1]
  · rw [Volume.setFats_fat_of_ne i hx, h.fat]
    refine if_congr ?_ rfl rfl
    rw [List.mem_cons, or_iff_right hx]

end Freed

/-- A round of the loop, where nothing fails. -/
theorem freeRound (hio : ∀ site k, m.env.blockFails site k = false)
    (hvalid : clusterValid m c = true) (s : FsState) :
    (getNextCluster m c s).1 = s.vol.next c ∧
      (setFatEntry m .free c 0 (getNextCluster m c s).2).1 = .ok () ∧
      OnDisk s (setFatEntry m .free c 0 (getNextCluster m c s).2).2 ∧
      (setFatEntry m .free c 0 (getNextCluster m c s).2).2.vol = s.vol.setFats m.numFats c 0 := by
  have hnext : Ends (getNextCluster m c) s fun n t =>
      n = s.vol.next c ∧ t = { s with tick := s.tick + 1 } := by
    unfold getNextCluster
    rw [hvalid]
    refine Ends.bind (Q := fun fails t => fails = false ∧ t = { s with tick := s.tick + 1 })
      ⟨hio _ _, rfl⟩ ?_
    rintro _ _ ⟨rfl, rfl⟩
    exact ⟨rfl, rfl⟩
  have hset := setFatEntry_ends (m := m) .free c 0 (getNextCluster m c s).2
  obtain ⟨hn, ht⟩ := hnext
  obtain ⟨hdisk, ⟨hr, -, hu⟩ | ⟨-, k, -, -, hfails⟩⟩ := hset
  · refine ⟨hn, hr, ?_, ?_⟩
    · refine OnDisk.trans ?_ hdisk
      rw [ht]
      exact (OnDisk.refl s).tick _
    · rw [hu, ht]
  · exact absurd (hfails hvalid) (not_fatFails hio _ _)

/-- Where the loop is after some rounds: what is freed is on the path and every link out of it leads
to a freed cluster, to the cluster that comes next, or nowhere. -/
structure FreeInv (m : Mount) (vol : Volume) (start : ℕ) (freed : List ℕ) (c : ℕ) : Prop where
  nodup : freed.Nodup
  onPath : ∀ x ∈ freed, OnPath m vol start x
  current : clusterValid m c = true → OnPath m vol start c
  first : start ∈ freed ∨ start = c
  closed : ∀ x ∈ freed, vol.next x ∈ freed ∨ vol.next x = c ∨ clusterValid m (vol.next x) = false

namespace FreeInv

variable {vol : Volume} {start : ℕ} {freed : List ℕ}

theorem init (m : Mount) (vol : Volume) (start : ℕ) : FreeInv m vol start [] start :=
  ⟨List.nodup_nil, by simp, .start, .inr rfl, by simp⟩

/-- When the loop ends, the whole path is freed. -/
theorem mem_iff (h : FreeInv m vol start freed c) (hc : clusterValid m c = false) {x : ℕ} :
    x ∈ freed ↔ OnPath m vol start x := by
  refine ⟨h.onPath x, ?_⟩
  intro hx
  induction hx with
  | start hvalid =>
    refine h.first.resolve_right ?_
    rintro rfl
    rw [hvalid] at hc
    cases hc
  | @next x _ hvalid ih =>
    rcases h.closed x ih with hmem | heq | hbad
    · exact hmem
    · rw [← heq, hvalid] at hc
      cases hc
    · rw [hvalid] at hbad
      cases hbad

theorem cons (h : FreeInv m vol start freed c) (hc : clusterValid m c = true) (hnew : c ∉ freed) :
    FreeInv m vol start (c :: freed) (vol.next c) := by
  have hon := h.current hc
  refine ⟨List.nodup_cons.mpr ⟨hnew, h.nodup⟩, ?_, hon.next, ?_, ?_⟩
  · intro x hx
    rcases List.mem_cons.mp hx with rfl | hx
    · exact hon
    · exact h.onPath x hx
  · left
    rcases h.first with hmem | heq
    · exact List.mem_cons_of_mem _ hmem
    · rw [heq]
      exact List.mem_cons_self
  · intro x hx
    rcases List.mem_cons.mp hx with rfl | hx
    · exact .inr (.inl rfl)
    · rcases h.closed x hx with hmem | heq | hbad
      · exact .inl (List.mem_cons_of_mem _ hmem)
      · rw [heq]
        exact .inl List.mem_cons_self
      · exact .inr (.inr hbad)

/-- Coming back to a freed cluster, the loop reads the link that it has cleared. -/
theorem again (h : FreeInv m vol start freed c) (hmem : c ∈ freed) : FreeInv m vol start freed 0 := by
  refine ⟨h.nodup, h.onPath, ?_, ?_, ?_⟩
  · intro h0
    simp [clusterValid] at h0
  · rcases h.first with hfirst | heq
    · exact .inl hfirst
    · rw [heq]
      exact .inl hmem
  · intro x hx
    rcases h.closed x hx with hmem' | heq | hbad
    · exact .inl hmem'
    · rw [heq]
      exact .inl hmem
    · exact .inr (.inr hbad)

/-- There are `maxCluster - 1` valid clusters. -/
theorem length_lt (h : FreeInv m vol start freed c) : freed.length < m.maxCluster := by
  have hroot := Nat.le_trans m.root_ge m.root_le
  have hsub : freed ⊆ List.range' 2 (m.maxCluster - 1) := by
    intro x hx
    have hvalid : clusterValid m x = true := by
      cases h.onPath x hx with
      | start h => exact h
      | next _ h => exact h
    rw [List.mem_range'_1]
    simp only [clusterValid, Bool.and_eq_true, decide_eq_true_eq] at hvalid
    omega
  have hle := (h.nodup.subperm hsub).length_le
  rw [List.length_range'] at hle
  omega

end FreeInv

theorem freeChainFrom_round {rounds : ℕ} {t : FsState} (hvalid : clusterValid m c = true)
    (hset : (setFatEntry m .free c 0 (getNextCluster m c t).2).1 = .ok ()) :
    freeChainFrom m (rounds + 1) c t = freeChainFrom m rounds (getNextCluster m c t).1
      (setFatEntry m .free c 0 (getNextCluster m c t).2).2 := by
  rw [freeChainFrom, hvalid]
  show (match (setFatEntry m .free c 0 (getNextCluster m c t).2).1 with
    | .error _ => (pure (.error .eio) : FsM (Res Unit))
    | .ok _ => freeChainFrom m rounds (getNextCluster m c t).1)
      (setFatEntry m .free c 0 (getNextCluster m c t).2).2 = _
  rw [hset]

/-- The loop ends by itself, within the rounds that the model gives it. -/
theorem freeChainFrom_frees (hio : ∀ site k, m.env.blockFails site k = false) (start : ℕ) (s : FsState)
    (rounds : ℕ) (freed : List ℕ) (c : ℕ) (t : FsState) (hinv : FreeInv m s.vol start freed c)
    (hfreed : Freed m s freed t) (hrounds : m.maxCluster + 1 ≤ rounds + freed.length) :
    ∃ u freed', FreeLoop m c t (.ok ()) u ∧ freeChainFrom m rounds c t = (.ok (), u) ∧
      Freed m s freed' u ∧ ∀ x, x ∈ freed' ↔ OnPath m s.vol start x := by
  have hlen := hinv.length_lt
  induction rounds generalizing freed c t with
  | zero => omega
  | succ rounds ih =>
    cases hvalid : clusterValid m c with
    | false =>
      refine ⟨t, freed, .done hvalid, ?_, hfreed, fun x => hinv.mem_iff hvalid⟩
      rw [freeChainFrom, hvalid]
      rfl
    | true =>
      obtain ⟨hnext, hset, hdisk, hvol⟩ := freeRound hio hvalid t
      have hrun := fun u => FreeLoop.round (t := u) (r := .ok ()) hvalid hset
      rw [freeChainFrom_round hvalid hset]
      rw [hnext] at hrun ⊢
      by_cases hmem : c ∈ freed
      · have hsame : Freed m s freed (setFatEntry m .free c 0 (getNextCluster m c t).2).2 := by
          refine ⟨(hfreed.cons hdisk hvol).disk, (hfreed.cons hdisk hvol).data, ?_⟩
          intro i x
          rw [(hfreed.cons hdisk hvol).fat]
          refine if_congr ?_ rfl rfl
          rw [List.mem_cons, or_iff_right_of_imp]
          rintro rfl
          exact hmem
        rw [hfreed.next_of_mem hmem] at hrun ⊢
        refine ⟨_, freed, hrun _ (.done rfl), ?_, hsame, fun x => (hinv.again hmem).mem_iff rfl⟩
        cases rounds with
        | zero => rfl
        | succ rounds => rfl
      · have hinv' := hinv.cons hvalid hmem
        rw [hfreed.next_of_not_mem hmem] at hrun ⊢
        obtain ⟨u, freed', hloop, hfun, hpost⟩ := ih (c :: freed) _ _ hinv' (hfreed.cons hdisk hvol)
          (by rw [List.length_cons]; omega) hinv'.length_lt
        exact ⟨u, freed', hrun _ hloop, hfun, hpost⟩

/-- With no failing transfer, `fat32_free_cluster_chain` ends, on every table and from every start,
and frees exactly the clusters on the path from the start. -/
theorem freeClusterChain_frees_path (m : Mount) (hio : ∀ site k, m.env.blockFails site k = false)
    (start : ℕ) (s : FsState) :
    FreeLoop m start s (.ok ()) (freeClusterChain m start s).2 ∧
      Ends (freeClusterChain m start) s fun r t => r = .ok () ∧ t.vol.data = s.vol.data ∧
        (∀ i < m.numFats, ∀ x, OnPath m s.vol start x → t.vol.fat i x = 0) ∧
        ∀ i x, ¬ (i < m.numFats ∧ OnPath m s.vol start x) → t.vol.fat i x = s.vol.fat i x := by
  have hstart : Freed m s [] s := by
    refine ⟨.refl s, rfl, ?_⟩
    intro i x
    rw [if_neg fun h => List.not_mem_nil h.2]
  obtain ⟨t, freed, hloop, hfun, hfreed, hmem⟩ := freeChainFrom_frees hio start s (m.maxCluster + 1) []
    start s (.init m s.vol start) hstart (Nat.le_refl _)
  have hrun : freeClusterChain m start s = (.ok (), t) := hfun
  unfold Ends
  rw [hrun]
  refine ⟨hloop, rfl, hfreed.data, ?_, ?_⟩
  · intro i hi x hx
    rw [hfreed.fat, if_pos ⟨hi, (hmem x).mpr hx⟩]
  · intro i x hx
    rw [hfreed.fat, if_neg fun h => hx ⟨h.1, (hmem x).mp h.2⟩]

/-- A chain that comes back to its second cluster: 3, 4, 5, 4 and so on. -/
def cyclicState : FsState where
  vol := { fat := fun _ c => if c = 3 then 4 else if c = 4 then 5 else if c = 5 then 4 else clusterEoc
           data := fun _ _ _ => DirEntry.zero }
  opens := []
  nextFreeHint := 2
  entryGen := 0
  vnodes _ := none
  nextVnode := 0
  cache := []
  tick := 0

theorem freeClusterChain_frees_cycle :
    (∀ site k, smallMount.env.blockFails site k = false) ∧
      FreeLoop smallMount 3 cyclicState (.ok ()) (freeClusterChain smallMount 3 cyclicState).2 ∧
      (freeClusterChain smallMount 3 cyclicState).2.vol.fat 0 5 = 0 := by
  have h := freeClusterChain_frees_path smallMount (fun _ _ => rfl) 3 cyclicState
  refine ⟨fun _ _ => rfl, h.1, h.2.2.2.1 0 (by decide) 5 ?_⟩
  have h3 : OnPath smallMount cyclicState.vol 3 3 := .start rfl
  have h4 : OnPath smallMount cyclicState.vol 3 4 := h3.next rfl
  exact h4.next rfl

end Writes

end Perspicua.Fs
