import Perspicua.Fs.Fat32.DirOps
import Perspicua.Fs.Fat32.Walk

/-!
# Generated short names

`generate_short_name` scans the directory for the numbers in use and takes the lowest one that
is free. The scan reads the number of an entry after its first tilde. Where the base of the
name has a tilde itself that is not the number of the alias, and the alias is not counted: the
next name with that base can be given an alias that is in use.
-/

namespace Perspicua.Fs

open Perspicua.Lib Prog

variable {m : Mount} {s t : FsState} {c : ℕ}

/-! ## Aliases -/

theorem padTo_length {n : ℕ} {l : List UInt8} (h : l.length ≤ n) : (padTo n l).length = n := by
  rw [padTo, List.length_append, List.length_replicate]
  omega

theorem aliasWithTail_length {base a : List UInt8} {n : ℕ} (h : aliasWithTail base n = some a) :
    a.length = 8 := by
  unfold aliasWithTail at h
  dsimp only at h
  split at h
  · cases h
  next htail =>
    cases h
    apply padTo_length
    rw [List.length_append, List.length_take]
    split
    · omega
    · omega

theorem take_eight_of_eq {short a ext : List UInt8} (h : short = a ++ ext) (ha : a.length = 8) :
    short.take 8 = a ∧ short.drop 8 = ext := by
  subst h
  exact ⟨by rw [← ha, List.take_left], by rw [← ha, List.drop_left]⟩

/-- The alias `BASE~N.EXT` is the short name of one of the entries. -/
def AliasInUse (live : List DirEntry) (base ext : List UInt8) (n : ℕ) : Prop :=
  ∃ a, aliasWithTail base n = some a ∧ ∃ e ∈ live, e.shortName = a ++ ext

/-- The number after the first tilde of `BASE~N` is `N`. -/
def ReadsBack (base : List UInt8) (n : ℕ) : Prop := ∀ a, aliasWithTail base n = some a → aliasNumber a = n

/-- The first number that the scan does not count is in use all the same: its alias reads as
another number, and the aliases with smaller numbers are in use and read back. -/
def Misread (live : List DirEntry) (base ext : List UInt8) : Prop :=
  ∃ n, 1 ≤ n ∧ n ≤ aliasScanMax ∧ AliasInUse live base ext n ∧ ¬ ReadsBack base n ∧
    ∀ k, 1 ≤ k → k < n → AliasInUse live base ext k ∧ ReadsBack base k

/-- The live entries of a directory. -/
def liveEntries (m : Mount) (vol : Volume) (c : ℕ) : List DirEntry :=
  (dirList m vol c).map fun pos => vol.slot pos.slot

/-! ## The walks -/

/-- The entry counts for the number `n`. -/
def Counts (base ext : List UInt8) (e : DirEntry) (n : ℕ) : Prop :=
  1 ≤ n ∧ n ≤ aliasScanMax ∧ e.shortName.drop 8 = ext ∧ aliasNumber (e.shortName.take 8) = n ∧
    aliasWithTail base n = some (e.shortName.take 8)

theorem counts_iff {base ext : List UInt8} {e : DirEntry} {n : ℕ} :
    Counts base ext e n ↔ 1 ≤ n ∧ n ≤ aliasScanMax ∧ ReadsBack base n ∧
      ∃ a, aliasWithTail base n = some a ∧ e.shortName = a ++ ext := by
  constructor
  · rintro ⟨h1, h2, hext, hnum, halias⟩
    refine ⟨h1, h2, ?_, e.shortName.take 8, halias, ?_⟩
    · intro a ha
      rw [halias] at ha
      cases ha
      exact hnum
    · rw [← hext, List.take_append_drop]
  · rintro ⟨h1, h2, hback, a, halias, hshort⟩
    obtain ⟨htake, hdrop⟩ := take_eight_of_eq hshort (aliasWithTail_length halias)
    refine ⟨h1, h2, hdrop, ?_, ?_⟩
    · rw [htake]
      exact hback a halias
    · rw [htake]
      exact halias

theorem aliasScanCb_skipsFree (base ext : List UInt8) : SkipsFree (aliasScanCb base ext) where
  deleted buf pos ctx h := by
    have hne : ¬ (0xE5 : UInt8) = 0 := by decide
    simp only [aliasScanCb, h, hne, if_false, true_or, if_true]
  marker buf pos ctx h := by
    right
    simp only [aliasScanCb, h, if_true]

theorem shortNameTakenCb_skipsFree (short : List UInt8) : SkipsFree (shortNameTakenCb short) where
  deleted buf pos ctx h := by
    have hne : ¬ (0xE5 : UInt8) = 0 := by decide
    simp only [shortNameTakenCb, h, hne, if_false, if_true]
  marker buf pos ctx h := by
    right
    simp only [shortNameTakenCb, h, if_true]

/-- At a live entry the scan adds the number that the entry counts for. -/
theorem aliasScanCb_live (base ext : List UInt8) (buf : Sector) (pos : DirPos) (taken : List ℕ)
    (hzero : (buf pos.slot.index).first ≠ 0) (hdel : (buf pos.slot.index).first ≠ 0xE5) :
    ∃ taken', aliasScanCb base ext buf pos taken = pure ⟨.cont, buf, false, taken'⟩ ∧
      ∀ n, n ∈ taken' ↔ n ∈ taken ∨ Counts base ext (buf pos.slot.index) n := by
  unfold aliasScanCb
  generalize buf pos.slot.index = e at hzero hdel ⊢
  dsimp only
  rw [if_neg hzero]
  split
  next hskip =>
    refine ⟨taken, rfl, ?_⟩
    intro n
    refine (or_iff_left ?_).symm
    rintro ⟨h1, h2, hext, rfl, -⟩
    rcases hskip with h | h | h | h
    · exact hdel h
    · exact h hext
    · omega
    · omega
  next hskip =>
    simp only [not_or, ne_eq, not_not, Nat.not_lt] at hskip
    refine ⟨_, rfl, ?_⟩
    intro n
    split
    next halias =>
      rw [List.mem_cons, or_comm]
      refine or_congr_right ⟨?_, ?_⟩
      · rintro rfl
        exact ⟨by omega, hskip.2.2.2, hskip.2.1, rfl, halias⟩
      · rintro ⟨-, -, -, hn, -⟩
        exact hn.symm
    next halias =>
      refine (or_iff_left ?_).symm
      rintro ⟨-, -, -, rfl, h⟩
      exact halias h

/-- The scan lists the numbers in use that read back, or fails. -/
theorem aliasScan_ends (base ext : List UInt8) (s : FsState) (c : ℕ) :
    Ends (dirWalk m (aliasScanCb base ext) c false []) s fun r t =>
      Quiet s t ∧ (r.1 = .error .eio ∨ (r.1 = .ok () ∨ r.1 = .error .enoent) ∧
        ∀ n, n ∈ r.2 ↔ 1 ≤ n ∧ n ≤ aliasScanMax ∧ ReadsBack base n ∧
          AliasInUse (liveEntries m s.vol c) base ext n) := by
  refine dirWalk_list s.vol (aliasScanCb_skipsFree base ext)
    (J := fun pre taken t => Quiet s t ∧
      ∀ n, n ∈ taken ↔ ∃ pos ∈ pre, Counts base ext (s.vol.slot pos.slot) n)
    (fun _ _ _ h => h.1.vol) (fun _ _ _ h => ⟨h.1.tick, h.2⟩) (fun _ _ _ h => ⟨h.1, .inl rfl⟩)
    ?_ ?_ ⟨.refl s, by simp⟩
  · rintro pre pos post hlist taken t ⟨hq, htaken⟩
    have hfree : (s.vol.slot pos.slot).free = false :=
      (mem_listFrom (hlist ▸ List.mem_append_right pre List.mem_cons_self)).2.2
    obtain ⟨hzero, hdel⟩ := live_first hfree
    obtain ⟨taken', hcb, htaken'⟩ := aliasScanCb_live base ext
      (s.vol.data pos.slot.cluster pos.slot.sector) pos taken hzero hdel
    refine walkShow_clean hcb rfl ⟨rfl, hq, ?_⟩
    intro n
    rw [htaken' n, htaken n]
    constructor
    · rintro (⟨p, hp, hc⟩ | hc)
      · exact ⟨p, List.mem_append_left _ hp, hc⟩
      · exact ⟨pos, List.mem_append_right _ List.mem_cons_self, hc⟩
    · rintro ⟨p, hp, hc⟩
      rcases List.mem_append.mp hp with hp | hp
      · exact .inl ⟨p, hp, hc⟩
      · rw [List.mem_singleton.mp hp] at hc
        exact .inr hc
  · rintro r taken t hr ⟨hq, htaken⟩
    refine ⟨hq, .inr ⟨hr, ?_⟩⟩
    intro n
    rw [htaken n]
    constructor
    · rintro ⟨pos, hpos, hc⟩
      obtain ⟨h1, h2, hback, a, ha, hshort⟩ := counts_iff.mp hc
      exact ⟨h1, h2, hback, a, ha, _, List.mem_map_of_mem hpos, hshort⟩
    · rintro ⟨h1, h2, hback, a, ha, e, he, hshort⟩
      obtain ⟨pos, hpos, rfl⟩ := List.mem_map.mp he
      exact ⟨pos, hpos, counts_iff.mpr ⟨h1, h2, hback, a, ha, hshort⟩⟩

theorem shortNameTakenCb_live (short : List UInt8) (buf : Sector) (pos : DirPos) (taken : Bool)
    (hzero : (buf pos.slot.index).first ≠ 0) (hdel : (buf pos.slot.index).first ≠ 0xE5) :
    shortNameTakenCb short buf pos taken =
      pure (if (buf pos.slot.index).shortName = short then ⟨.stop, buf, false, true⟩
        else ⟨.cont, buf, false, taken⟩) := by
  unfold shortNameTakenCb
  dsimp only
  rw [if_neg hzero, if_neg hdel]

/-- The walk for one candidate finds it, or passes every entry. -/
theorem shortNameTaken_ends (short : List UInt8) (s : FsState) (c : ℕ) :
    Ends (dirWalk m (shortNameTakenCb short) c false false) s fun r t =>
      Quiet s t ∧ (r.1 = .error .eio ∨ (r.1 = .ok () ∨ r.1 = .error .enoent) ∧
        (r.2 = false → ∀ e ∈ liveEntries m s.vol c, e.shortName ≠ short)) := by
  refine dirWalk_list s.vol (shortNameTakenCb_skipsFree short)
    (J := fun pre taken t => Quiet s t ∧
      (taken = false → ∀ pos ∈ pre, (s.vol.slot pos.slot).shortName ≠ short))
    (fun _ _ _ h => h.1.vol) (fun _ _ _ h => ⟨h.1.tick, h.2⟩) (fun _ _ _ h => ⟨h.1, .inl rfl⟩)
    ?_ ?_ ⟨.refl s, by rintro - _ ⟨⟩⟩
  · rintro pre pos post hlist taken t ⟨hq, htaken⟩
    have hfree : (s.vol.slot pos.slot).free = false :=
      (mem_listFrom (hlist ▸ List.mem_append_right pre List.mem_cons_self)).2.2
    obtain ⟨hzero, hdel⟩ := live_first hfree
    have hcb := shortNameTakenCb_live short (s.vol.data pos.slot.cluster pos.slot.sector) pos
      taken hzero hdel
    by_cases hshort : (s.vol.slot pos.slot).shortName = short
    · refine walkShow_clean (hcb.trans (congrArg pure (if_pos hshort))) rfl ?_
      exact ⟨hq, .inr ⟨.inl rfl, by rintro ⟨⟩⟩⟩
    · refine walkShow_clean (hcb.trans (congrArg pure (if_neg hshort))) rfl ⟨rfl, hq, ?_⟩
      intro hfalse p hp
      rcases List.mem_append.mp hp with hp | hp
      · exact htaken hfalse p hp
      · rw [List.mem_singleton.mp hp]
        exact hshort
  · rintro r taken t hr ⟨hq, htaken⟩
    refine ⟨hq, .inr ⟨hr, ?_⟩⟩
    intro hfalse e he
    obtain ⟨pos, hpos, rfl⟩ := List.mem_map.mp he
    exact htaken hfalse pos hpos

/-- Past the scanned range every candidate is looked up. -/
theorem aliasSearch_ends (base ext : List UInt8) (c rounds n : ℕ) (s : FsState) :
    Ends (aliasSearch m c base ext rounds n) s fun r t =>
      Quiet s t ∧ ∀ short, r = .ok short → ∀ e ∈ liveEntries m s.vol c, e.shortName ≠ short := by
  induction rounds generalizing n s with
  | zero => exact ends_pure.mpr ⟨.refl s, by rintro _ ⟨⟩⟩
  | succ rounds ih =>
    rw [aliasSearch]
    cases halias : aliasWithTail base n with
    | none => exact ends_pure.mpr ⟨.refl s, by rintro _ ⟨⟩⟩
    | some name =>
      refine Ends.bind (shortNameTaken_ends (name ++ ext) s c) ?_
      rintro ⟨r, taken⟩ t ⟨hq, hr⟩
      rcases hr with rfl | ⟨hr, hdone⟩
      · exact ends_pure.mpr ⟨hq, by rintro _ ⟨⟩⟩
      have hgo : Ends (if taken = true then aliasSearch m c base ext rounds (n + 1)
          else pure (.ok (name ++ ext))) t fun r t =>
            Quiet s t ∧ ∀ short, r = .ok short → ∀ e ∈ liveEntries m s.vol c, e.shortName ≠ short := by
        apply ends_ite
        · intro _
          refine (ih (n + 1) t).mono ?_
          rintro r u ⟨hqu, hru⟩
          rw [hq.vol] at hru
          exact ⟨hq.trans hqu, hru⟩
        · intro htaken
          refine ends_pure.mpr ⟨hq, ?_⟩
          rintro short ⟨⟩
          exact hdone (by simpa using htaken)
      rcases hr with rfl | rfl
      · exact hgo
      · exact hgo

/-- The numbers that the scan lists. -/
def Listed (live : List DirEntry) (base ext : List UInt8) (taken : List ℕ) : Prop :=
  ∀ n, n ∈ taken ↔ 1 ≤ n ∧ n ≤ aliasScanMax ∧ ReadsBack base n ∧ AliasInUse live base ext n

/-- The alias with the first number that is not listed. -/
theorem Listed.fresh_iff {live : List DirEntry} {base ext : List UInt8} {taken : List ℕ}
    (h : Listed live base ext taken) {k : ℕ} {name : List UInt8}
    (hfind : (List.range aliasScanMax).find? (fun k => !taken.contains (k + 1)) = some k)
    (hname : aliasWithTail base (k + 1) = some name) :
    (∀ e ∈ live, e.shortName ≠ name ++ ext) ↔ ¬ Misread live base ext := by
  obtain ⟨hk, hmem, hbefore⟩ := List.find?_range_eq_some.mp hfind
  have hlt : k < aliasScanMax := List.mem_range.mp hmem
  have hfree : k + 1 ∉ taken := by simpa using hk
  have hused : ∀ j, 1 ≤ j → j < k + 1 → j ∈ taken := by
    intro j h1 h2
    have := hbefore (j - 1) (by omega)
    rw [show j - 1 + 1 = j by omega] at this
    simpa using this
  constructor
  · -- a number that is misread is not listed, so it is this one
    rintro hfresh ⟨n, h1, h2, ⟨a, ha, e, he, hshort⟩, hback, hsmaller⟩
    have hn : n = k + 1 := by
      rcases Nat.lt_trichotomy n (k + 1) with hlt | heq | hgt
      · exact absurd ((h n).mp (hused n h1 hlt)).2.2.1 hback
      · exact heq
      · obtain ⟨hin, hread⟩ := hsmaller (k + 1) (by omega) hgt
        exact absurd ((h (k + 1)).mpr ⟨by omega, by omega, hread, hin⟩) hfree
    subst hn
    rw [hname] at ha
    cases ha
    exact hfresh e he hshort
  · intro hnot e he hshort
    have hin : AliasInUse live base ext (k + 1) := ⟨name, hname, e, he, hshort⟩
    apply hnot
    refine ⟨k + 1, by omega, by omega, hin, ?_, ?_⟩
    · intro hread
      exact hfree ((h (k + 1)).mpr ⟨by omega, by omega, hread, hin⟩)
    · intro j h1 h2
      obtain ⟨-, -, hread, hinj⟩ := (h j).mp (hused j h1 h2)
      exact ⟨hinj, hread⟩

theorem Listed.not_misread {live : List DirEntry} {base ext : List UInt8} {taken : List ℕ}
    (h : Listed live base ext taken)
    (hfind : (List.range aliasScanMax).find? (fun k => !taken.contains (k + 1)) = none) :
    ¬ Misread live base ext := by
  rintro ⟨n, h1, h2, -, hback, -⟩
  have hn := List.find?_eq_none.mp hfind (n - 1) (List.mem_range.mpr (by omega))
  rw [show n - 1 + 1 = n by omega] at hn
  exact hback ((h n).mp (by simpa using hn)).2.2.1

/-- Where a short name is found for a name, it differs from those of the directory exactly if
the first number that the scan does not count is not in use. -/
theorem generateShortName_fresh_iff (m : Mount) (c : ℕ) (filename : Name) (s : FsState) :
    Ends (generateShortName m c filename) s fun r t =>
      Quiet s t ∧ ∀ short, r = .ok short →
        ((∀ e ∈ liveEntries m s.vol c, e.shortName ≠ short) ↔
          ¬ Misread (liveEntries m s.vol c) (aliasBase filename).1 (padTo 3 (aliasBase filename).2)) := by
  unfold generateShortName
  dsimp only
  generalize (aliasBase filename).1 = base
  generalize padTo 3 (aliasBase filename).2 = ext
  refine Ends.bind (aliasScan_ends base ext s c) ?_
  rintro ⟨r, taken⟩ t ⟨hq, hr⟩
  rcases hr with rfl | ⟨hr, htaken⟩
  · exact ends_pure.mpr ⟨hq, by rintro _ ⟨⟩⟩
  have hlisted : Listed (liveEntries m s.vol c) base ext taken := htaken
  rcases hr with rfl | rfl
  all_goals
    dsimp only
    split
    next k hfind =>
      split
      next name hname =>
        refine ends_pure.mpr ⟨hq, ?_⟩
        rintro short ⟨⟩
        exact hlisted.fresh_iff hfind hname
      · exact ends_pure.mpr ⟨hq, by rintro _ ⟨⟩⟩
    next hfind =>
      refine (aliasSearch_ends base ext c _ _ t).mono ?_
      rintro r u ⟨hqu, hru⟩
      rw [hq.vol] at hru
      refine ⟨hq.trans hqu, ?_⟩
      intro short hshort
      exact iff_of_true (hru short hshort) (hlisted.not_misread hfind)

/-! ## An alias that is given twice -/

/-- A root directory whose first slot holds the file `A~~1`. -/
def tildeState : FsState where
  vol :=
    { fat := fun _ _ => clusterEoc
      data := fun _ _ i =>
        if i = 0 then
          ((DirEntry.zero.setShortName (padTo 11 ("A~~1".toList.map ch))).setAttributes 0x20).setCluster 3
        else DirEntry.zero }
  opens := []
  nextFreeHint := 2
  entryGen := 0
  vnodes _ := none
  nextVnode := 0
  cache := []
  tick := 0

/-- The alias for `a~` is `A~~1`, which the directory holds. -/
theorem alias_given_twice :
    ∃ short, (generateShortName smallMount 2 ("a~".toList.map ch) tildeState).1 = .ok short ∧
      ∃ e ∈ liveEntries smallMount tildeState.vol 2, e.shortName = short := by
  have hshort : (match (generateShortName smallMount 2 ("a~".toList.map ch) tildeState).1 with
      | .ok short => decide (short = padTo 11 ("A~~1".toList.map ch))
      | .error _ => false) = true := by decide +kernel
  have hlive : (liveEntries smallMount tildeState.vol 2).any
      (fun e => decide (e.shortName = padTo 11 ("A~~1".toList.map ch))) = true := by decide +kernel
  obtain ⟨e, he, hname⟩ := List.any_eq_true.mp hlive
  split at hshort
  next short hr =>
    rw [of_decide_eq_true hshort] at hr
    exact ⟨_, hr, e, he, of_decide_eq_true hname⟩
  · cases hshort

end Perspicua.Fs
