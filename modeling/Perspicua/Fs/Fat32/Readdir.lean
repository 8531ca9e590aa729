import Perspicua.Fs.Fat32.FatTheorems
import Perspicua.Fs.Fat32.File

/-!
# Listing a directory

`fat32_vfs_readdir` goes through a directory on its own, without `fat32_dir_walk`: a call starts
at the offset where the last one stopped and ends when the caller's buffer is full. A long name
is assembled within one call, which is enough, since a buffer fills up behind an entry and never
between its fragments.

The caller asks again as long as its buffer comes back full, and a buffer that is not full ends
the listing: that is how `vfs_readdir` uses it, and what `readdirCalls` does. A listing is
compared with the entries that a walk shows (`dirList`). A call that fails leaves the offset to
`vfs_readdir`, which puts it back, so that it returns none here. A buffer holds fewer than 2³¹
entries.
-/

namespace Perspicua.Fs

open Perspicua.Lib Prog

/-! ## The driver -/

/-- `struct dirent` -/
structure Dirent where
  name : Name
  ino : ℕ
deriving DecidableEq

def foldLower (c : UInt8) : UInt8 := if ch 'A' ≤ c ∧ c ≤ ch 'Z' then c - ch 'A' + ch 'a' else c

/-- What is shown of the name or the extension of an 8.3 entry. -/
def shortPart (part : List UInt8) : Name := (part.filter fun c => c != ch ' ' && c != 0).map foldLower

/-- The name of an entry without a long name. -/
def shortText (short : List UInt8) : Name :=
  shortPart (short.take 8) ++
    if short.getD 8 0 = ch ' ' ∨ short.getD 8 0 = 0 then [] else ch '.' :: shortPart (short.drop 8)

/-- The variables of the loops: `file->offset`, the long name and the entries in the buffer. -/
structure Listing where
  offset : ℕ
  run : LfnRun
  out : List Dirent

/-- One slot; the end marker ends the call. -/
def readdirEntry (b : Listing) (e : DirEntry) : Ctl Listing Listing :=
  let b := { b with offset := b.offset + 32 }
  if e.first = 0 then .ret b
  else if e.first = 0xE5 then .next { b with run := lfnReset b.run }
  else if e.attributes = 0x0F then .next { b with run := (lfnAdd b.run e).2 }
  -- meant for `.`, `..` and the volume label
  else if e.first = ch '.' ∨ e.isLabel then .next { b with run := lfnReset b.run }
  else
    let name := if lfnNames b.run e then b.run.string else shortText e.shortName
    .next { b with run := lfnReset b.run, out := b.out ++ [⟨name, e.cluster⟩] }

section Driver

variable (m : Mount) (maxEntries : ℕ)

/-- One round of the loop over the slots of a sector: nothing, once the buffer is full. -/
def readdirSlot (dirs : Sector) (i : Fin 16) (b : Listing) : FsM (Ctl Listing Listing) :=
  pure (if b.out.length < maxEntries then readdirEntry b (dirs i) else .next b)

/-- One round of the loop over the sectors of a cluster. -/
def readdirSector (c sec : ℕ) (b : Listing) : FsM (Ctl Listing (Res Listing)) := do
  if b.out.length < maxEntries then do
    match ← readSector m .dirRead c sec with
    | .error _ => pure (.ret (.error .eio))
    | .ok dirs => do
      match ← iterate (readdirSlot maxEntries dirs) ((List.finRange 16).drop (b.offset % 512 / 32)) b with
      | .ret b => pure (.ret (.ok b))
      | .next b => pure (.next b)
  else pure (.next b)

/-- The loop over the clusters, with the number of clusters the call may still visit. The result
of `get_next_cluster` is not looked at: what is no cluster ends the loop. -/
def readdirClusters : ℕ → ℕ → Listing → FsM (Res Listing)
  | visits, c, b =>
    if !clusterValid m c || b.out.length ≥ maxEntries then pure (.ok b)
    else
      match visits with
      | 0 => pure (.error .eio)
      | visits + 1 => do
        match ← iterate (readdirSector m maxEntries c)
            ((List.range m.sectorsPerCluster).drop (b.offset % bytesPerCluster m / 512)) b with
        | .ret r => pure r
        | .next b => do
          let next ← getNextCluster m c
          readdirClusters visits next b

/-- The loop over the clusters before the offset; none when the chain ends first. -/
def readdirSkip : ℕ → ℕ → FsM (Option ℕ)
  | 0, c => pure (some c)
  | k + 1, c => do
    let next ← getNextCluster m c
    if next ≥ clusterEocMin then pure none else readdirSkip k next

/-- `fat32_vfs_readdir` of a file whose vnode is a directory or not: the entries and the new
offset. -/
def fat32VfsReaddir (dir : Bool) (cluster offset : ℕ) : FsM (Res (List Dirent × ℕ)) := do
  if !dir then pure (.error .enotdir)
  else if offset / bytesPerCluster m > maxDirClusters then pure (.ok ([], offset))
  else do
    match ← readdirSkip m (offset / bytesPerCluster m) cluster with
    | none => pure (.ok ([], offset))
    | some c => do
      match ← readdirClusters m maxEntries maxDirClusters c ⟨offset, .start, []⟩ with
      | .error e => pure (.error e)
      | .ok b => pure (.ok (b.out, b.offset))

end Driver

/-- The entries `.` and `..`. -/
def DirEntry.isDots (e : DirEntry) : Bool :=
  e.shortName == padTo 11 [ch '.'] || e.shortName == padTo 11 [ch '.', ch '.']

/-- The name under which a walk shows an entry: the long one, or its own. -/
def nameAt (vol : Volume) (pos : DirPos) : Name :=
  pos.lfnName.getD (shortText (vol.slot pos.slot).shortName)

def direntAt (vol : Volume) (pos : DirPos) : Dirent := ⟨nameAt vol pos, (vol.slot pos.slot).cluster⟩

/-- What is listed of the entries that a walk shows. -/
def listed (vol : Volume) (entries : List DirPos) : List Dirent :=
  (entries.filter fun pos => !(vol.slot pos.slot).isDots && !(vol.slot pos.slot).isLabel).map
    (direntAt vol)

/-- The listing of the directory that starts at `c`. -/
def dirents (m : Mount) (vol : Volume) (c : ℕ) : List Dirent := listed vol (dirList m vol c)

theorem listed_append (vol : Volume) (l r : List DirPos) :
    listed vol (l ++ r) = listed vol l ++ listed vol r := by
  unfold listed
  rw [List.filter_append, List.map_append]

/-! ## Long names across calls -/

/-- Two runs that read the fragments to come alike. -/
def SameRun (r r' : LfnRun) : Prop := r = r' ∨ (r.active = false ∧ r'.active = false)

theorem SameRun.reset (r r' : LfnRun) : SameRun (lfnReset r) (lfnReset r') := .inr ⟨rfl, rfl⟩

theorem lfnAdd_inactive {r : LfnRun} {e : DirEntry} (hlast : lfnIsLast e = false)
    (h : r.active = false) : (lfnAdd r e).2.active = false := by
  unfold lfnAdd
  rw [hlast]
  simp only [Bool.false_eq_true, if_false, h, Bool.not_false, Bool.true_or, if_true]
  rfl

theorem SameRun.add {r r' : LfnRun} (h : SameRun r r') (e : DirEntry) :
    SameRun (lfnAdd r e).2 (lfnAdd r' e).2 := by
  obtain rfl | ⟨hr, hr'⟩ := h
  · exact .inl rfl
  cases hlast : lfnIsLast e with
  | true =>
    -- the fragment starts a run of its own
    left
    unfold lfnAdd
    rw [hlast]
    rfl
  | false => exact .inr ⟨lfnAdd_inactive hlast hr, lfnAdd_inactive hlast hr'⟩

theorem SameRun.names {r r' : LfnRun} (h : SameRun r r') (e : DirEntry) :
    (if lfnNames r e then some r.string else none) = if lfnNames r' e then some r'.string else none := by
  obtain rfl | ⟨hr, hr'⟩ := h
  · rfl
  · unfold lfnNames
    rw [hr, hr']
    rfl

/-! ## One slot -/

section Slots

variable {vol : Volume} {all : List Slot} {n : ℕ}

/-- What the condition on a directory says of one entry: only `.` and `..` start with a dot. -/
def DotsOnly (e : DirEntry) : Prop := e.first = ch '.' → e.isDots = true ∨ e.isLabel = true

/-- The call is behind the slots `pre`, and the listing has come as far; `before` is what the
calls before it listed. -/
structure Behind (vol : Volume) (before : List Dirent) (pre : List Slot) (b : Listing) : Prop where
  offset : b.offset = 32 * pre.length
  noEnd : NoEnd vol pre
  run : SameRun b.run (passed vol pre).run
  out : before ++ b.out = listed vol (listFrom vol .start pre)

/-- A position at which a call can start: no run of fragments is open. -/
structure Resumes (vol : Volume) (all : List Slot) (before : List Dirent) (offset : ℕ) : Prop where
  pos : ∃ pre post, all = pre ++ post ∧ offset = 32 * pre.length ∧ NoEnd vol pre ∧
    (passed vol pre).run.active = false ∧ before = listed vol (listFrom vol .start pre)

/-- The buffer is full and the next call can go on. -/
structure Full (vol : Volume) (all : List Slot) (n : ℕ) (before : List Dirent) (b : Listing) :
    Prop where
  length : b.out.length = n
  resumes : Resumes vol all (before ++ b.out) b.offset

/-- The buffer is not full and the listing is complete. -/
structure Complete (vol : Volume) (all : List Slot) (n : ℕ) (before : List Dirent) (b : Listing) :
    Prop where
  length : b.out.length < n
  out : before ++ b.out = listed vol (listFrom vol .start all)

/-- The invariant of the loops. -/
def Reading (vol : Volume) (all : List Slot) (n : ℕ) (before : List Dirent) (pre : List Slot)
    (b : Listing) : Prop :=
  (b.out.length < n ∧ Behind vol before pre b) ∨ Full vol all n before b

variable {before : List Dirent} {pre post : List Slot} {b : Listing} {sl : Slot}

theorem NoEnd.snoc (h : NoEnd vol pre) (hsl : (vol.slot sl).first ≠ 0) : NoEnd vol (pre ++ [sl]) := by
  intro sl' hsl'
  rcases List.mem_append.mp hsl' with hsl' | hsl'
  · exact h sl' hsl'
  · rw [List.mem_singleton.mp hsl']
    exact hsl

/-- Passing a slot that lists nothing. -/
theorem Behind.skip (h : Behind vol before pre b) {run : LfnRun}
    (hfirst : (vol.slot sl).first ≠ 0) (hrun : SameRun run ((passed vol pre).pass vol sl).run)
    (hnone : listed vol (listFrom vol (passed vol pre) [sl]) = []) :
    Behind vol before (pre ++ [sl]) ⟨b.offset + 32, run, b.out⟩ := by
  refine ⟨?_, h.noEnd.snoc hfirst, ?_, ?_⟩
  · show b.offset + 32 = _
    rw [h.offset, List.length_append, List.length_singleton]
    omega
  · rw [passed_append_singleton]
    exact hrun
  · rw [listFrom_append h.noEnd, listed_append, ← h.out]
    show _ = _ ++ listed vol (listFrom vol (passed vol pre) [sl])
    rw [hnone, List.append_nil]

theorem pass_entry_run (w : WalkLfn) (h : ¬ (vol.slot sl).isLfn = true) :
    (w.pass vol sl).run = lfnReset w.run := by
  rw [WalkLfn.pass, if_neg h]
  rfl

theorem first_of_isDots {e : DirEntry} (h : e.isDots = true) : e.first = ch '.' := by
  unfold DirEntry.isDots at h
  rw [Bool.or_eq_true, beq_iff_eq, beq_iff_eq] at h
  have hhead : e.shortName.head? = some e.first := rfl
  rcases h with h | h
  · rw [h] at hhead
    exact (Option.some.inj hhead).symm
  · rw [h] at hhead
    exact (Option.some.inj hhead).symm

/-- The entry that a call puts into the buffer is the one that the walk shows. -/
theorem direntAt_pos {run : LfnRun} {w : WalkLfn} (h : SameRun run w.run) :
    direntAt vol (w.pos sl (vol.slot sl)) =
      ⟨if lfnNames run (vol.slot sl) then run.string else shortText (vol.slot sl).shortName,
        (vol.slot sl).cluster⟩ := by
  unfold direntAt nameAt
  rw [WalkLfn.pos_slot]
  congr 1
  show (if lfnNames w.run (vol.slot sl) then some w.run.string else none).getD _ = _
  rw [← h.names]
  split <;> rfl

/-- What one slot does to a call that has room for another entry. -/
theorem readdirEntry_reading (hall : all = pre ++ sl :: post) (hdots : DotsOnly (vol.slot sl))
    (hlt : b.out.length < n) (h : Behind vol before pre b) :
    match readdirEntry b (vol.slot sl) with
    | .ret b' => Complete vol all n before b'
    | .next b' => Reading vol all n before (pre ++ [sl]) b' := by
  set e := vol.slot sl with he
  unfold readdirEntry
  dsimp only
  by_cases hzero : e.first = 0
  · rw [if_pos hzero]
    refine ⟨hlt, ?_⟩
    rw [hall, listFrom_append h.noEnd, listFrom_marker _ _ hzero, List.append_nil]
    exact h.out
  rw [if_neg hzero]
  by_cases hdel : e.first = 0xE5
  · rw [if_pos hdel]
    have hlfn : ¬ e.isLfn = true := fun hlfn => first_ne_deleted_of_isLfn hlfn hdel
    refine .inl ⟨hlt, h.skip hzero ?_ ?_⟩
    · rw [pass_entry_run _ hlfn]
      exact .reset _ _
    · rw [listFrom_deleted _ _ hdel]
      rfl
  rw [if_neg hdel]
  by_cases hattr : e.attributes = 0x0F
  · rw [if_pos hattr]
    have hlfn : e.isLfn = true := by simp [DirEntry.isLfn, DirEntry.free, hattr, hzero, hdel]
    refine .inl ⟨hlt, h.skip hzero ?_ ?_⟩
    · rw [WalkLfn.pass, if_pos hlfn]
      exact h.run.add e
    · rw [listFrom_fragment _ _ hlfn]
      rfl
  rw [if_neg hattr]
  have hlfn : ¬ e.isLfn = true := by simp [DirEntry.isLfn, hattr]
  have hshow : listFrom vol (passed vol pre) [sl] = [(passed vol pre).pos sl e] := by
    rw [listFrom_live _ _ hlfn hzero hdel]
    rfl
  by_cases hskip : e.first = ch '.' ∨ e.isLabel = true
  · rw [if_pos hskip]
    refine .inl ⟨hlt, h.skip hzero ?_ ?_⟩
    · rw [pass_entry_run _ hlfn]
      exact .reset _ _
    · have hhidden : e.isDots = true ∨ e.isLabel = true := by
        rcases hskip with hdot | hlabel
        · exact hdots hdot
        · exact .inr hlabel
      rw [hshow]
      unfold listed
      rw [List.filter_singleton, WalkLfn.pos_slot, ← he]
      rcases hhidden with hhidden | hhidden
      · rw [hhidden]
        rfl
      · rw [hhidden, Bool.not_true, Bool.and_false]
        rfl
  rw [if_neg hskip]
  obtain ⟨hdot, hlabel⟩ := not_or.mp hskip
  have hnodots : e.isDots = false := Bool.eq_false_iff.mpr fun hd => hdot (first_of_isDots hd)
  set name := if lfnNames b.run e then b.run.string else shortText e.shortName with hname
  have hlist : listed vol (listFrom vol .start (pre ++ [sl])) = before ++ (b.out ++ [⟨name, e.cluster⟩]) := by
    rw [listFrom_append h.noEnd, listed_append, ← h.out]
    show _ ++ listed vol (listFrom vol (passed vol pre) [sl]) = _
    rw [hshow, List.append_assoc]
    unfold listed
    rw [List.filter_singleton, WalkLfn.pos_slot, ← he, hnodots,
      show e.isLabel = false by simpa using hlabel]
    show before ++ (b.out ++ [direntAt vol ((passed vol pre).pos sl e)]) = _
    rw [direntAt_pos h.run]
  have hlength : (b.out ++ [(⟨name, e.cluster⟩ : Dirent)]).length = b.out.length + 1 := by
    rw [List.length_append, List.length_singleton]
  have hoffset : b.offset + 32 = 32 * (pre ++ [sl]).length := by
    rw [h.offset, List.length_append, List.length_singleton]
    omega
  by_cases hroom : b.out.length + 1 < n
  · refine .inl ⟨by rw [hlength]; exact hroom, hoffset, h.noEnd.snoc hzero, ?_, hlist.symm⟩
    rw [passed_append_singleton, pass_entry_run _ hlfn]
    exact .reset _ _
  · refine .inr ⟨by rw [hlength]; omega, ⟨pre ++ [sl], post, ?_, hoffset, h.noEnd.snoc hzero, ?_, hlist.symm⟩⟩
    · rw [hall, List.append_assoc]
      rfl
    · rw [passed_append_singleton, pass_entry_run _ hlfn]
      rfl

end Slots

/-! ## The loops -/

section Loops

variable {m : Mount} {vol : Volume} {all : List Slot} {n : ℕ} {before : List Dirent}
  {pre post : List Slot} {b : Listing} {s : FsState} {c : ℕ}

/-- How a call ends: it fails when a sector of the directory cannot be read, or the buffer is
full or the listing complete. -/
def Outcome (m : Mount) (vol : Volume) (all : List Slot) (n : ℕ) (before : List Dirent)
    (r : Res Listing) (t : FsState) : Prop :=
  t.vol = vol ∧
    match r with
    | .error _ => ∃ k, m.env.blockFails .dirRead k = true
    | .ok b => Full vol all n before b ∨ Complete vol all n before b

@[simp] theorem length_sectorSlots (c sec : ℕ) : (sectorSlots c sec).length = 16 := rfl

theorem length_sectors (c : ℕ) (secs : List ℕ) :
    (secs.flatMap (sectorSlots c)).length = 16 * secs.length := by
  induction secs with
  | nil => rfl
  | cons sec secs ih =>
    rw [List.flatMap_cons, List.length_append, ih, length_sectorSlots, List.length_cons]
    omega

theorem length_clusterSlots (m : Mount) (c : ℕ) :
    (clusterSlots m c).length = 16 * m.sectorsPerCluster := by
  rw [clusterSlots, length_sectors, List.length_range]

theorem readdirSector_ends {sec : ℕ} {l l' : List Slot} (hvalid : clusterValid m c = true)
    (hsector : sectorSlots c sec = l ++ l') (hl : l.length < 16)
    (hall : all = (pre ++ l) ++ (l' ++ post)) (hpre : pre.length % 16 = 0)
    (hdots : ∀ sl ∈ all, DotsOnly (vol.slot sl)) (hvol : s.vol = vol)
    (h : Reading vol all n before (pre ++ l) b) :
    Ends (readdirSector m n c sec b) s
      (Ctl.Sat (fun b' t => t.vol = vol ∧ Reading vol all n before (pre ++ sectorSlots c sec) b')
        (Outcome m vol all n before)) := by
  unfold readdirSector
  obtain ⟨hlt, h⟩ | h := h
  swap
  · -- the buffer is full: the rounds that are left do nothing
    rw [if_neg (by rw [h.length]; omega)]
    exact ⟨hvol, .inr h⟩
  rw [if_pos hlt]
  refine (readSector_cases .dirRead c sec s).bind ?_
  rintro r t ⟨rfl, rfl | ⟨rfl, hfails⟩⟩
  swap
  · exact ⟨hvol, s.tick, hfails hvalid⟩
  have hstart : b.offset % 512 / 32 = l.length := by
    rw [h.offset, List.length_append]
    omega
  have hrest : l' = ((List.finRange 16).drop l.length).map fun i => (⟨c, sec, i⟩ : Slot) := by
    have hdrop := congrArg (List.drop l.length) hsector
    rw [List.drop_left, sectorSlots, ← List.map_drop] at hdrop
    exact hdrop.symm
  rw [hstart]
  refine Ends.bind (iterate_ends (J := fun is b t => t.vol = vol ∧
    Reading vol all n before (pre ++ l ++ is.map fun i => ⟨c, sec, i⟩) b)
    (R := fun b t => t.vol = vol ∧ Complete vol all n before b) ?_ ?_) ?_
  · rintro is i js hijs b t ⟨ht, hb⟩
    unfold readdirSlot
    obtain ⟨hlt, hb⟩ | hb := hb
    · rw [if_pos hlt]
      have hslot : vol.slot ⟨c, sec, i⟩ = s.vol.data c sec i := by
        rw [hvol]
        rfl
      have hpos : all = (pre ++ l ++ is.map fun i => ⟨c, sec, i⟩) ++ ⟨c, sec, i⟩ ::
          ((js.map fun i => ⟨c, sec, i⟩) ++ post) := by
        rw [hall, hrest, hijs, List.map_append, List.map_cons]
        simp only [List.append_assoc, List.cons_append]
      have hentry := readdirEntry_reading hpos (hdots _ (by rw [hpos]; simp)) hlt hb
      rw [hslot] at hentry
      rw [ends_pure]
      cases hr : readdirEntry b (s.vol.data c sec i) with
      | ret b' =>
        rw [hr] at hentry
        exact ⟨ht, hentry⟩
      | next b' =>
        rw [hr] at hentry
        refine ⟨ht, ?_⟩
        rw [List.map_append, ← List.append_assoc]
        exact hentry
    · rw [if_neg (by rw [hb.length]; omega)]
      exact ⟨ht, .inr hb⟩
  · refine ⟨hvol, .inl ⟨hlt, ?_⟩⟩
    rw [List.map_nil, List.append_nil]
    exact h
  · rintro (b' | b') t ⟨ht, hb'⟩
    · refine ⟨ht, ?_⟩
      rw [hsector, ← List.append_assoc, hrest]
      exact hb'
    · exact ⟨ht, .inr hb'⟩

theorem spc_pos (m : Mount) : 0 < m.sectorsPerCluster := by
  obtain ⟨k, -, hspc⟩ := m.spc_pow
  rw [hspc]
  exact Nat.two_pow_pos k

/-- Where in a cluster a call starts: `s0` sectors behind its first one, and behind the slots `l`
of that sector. -/
theorem start_sector {k s0 j : ℕ} (hpre : pre.length = 16 * m.sectorsPerCluster * k)
    (hs0 : s0 < m.sectorsPerCluster) (hj : j < 16) (hoff : b.offset = 32 * (pre.length + (16 * s0 + j))) :
    b.offset % bytesPerCluster m / 512 = s0 := by
  have hoff' : b.offset = bytesPerCluster m * k + (512 * s0 + 32 * j) := by
    rw [hoff, hpre, bytesPerCluster]
    ring
  have hsmall : 512 * s0 + 32 * j < bytesPerCluster m := by
    rw [bytesPerCluster]
    omega
  rw [hoff', Nat.mul_add_mod, Nat.mod_eq_of_lt hsmall]
  omega

/-- The loop over the sectors of a cluster, from the slot behind `l` in the sector `s0` on. -/
theorem readdirCluster_ends {k s0 : ℕ} {l l' : List Slot} (hvalid : clusterValid m c = true)
    (hs0 : s0 < m.sectorsPerCluster) (hsector : sectorSlots c s0 = l ++ l') (hl : l.length < 16)
    (hall : all = pre ++ clusterSlots m c ++ post) (hpre : pre.length = 16 * m.sectorsPerCluster * k)
    (hdots : ∀ sl ∈ all, DotsOnly (vol.slot sl)) (hvol : s.vol = vol) (hlt : b.out.length < n)
    (h : Behind vol before (pre ++ ((List.range s0).flatMap (sectorSlots c) ++ l)) b) :
    Ends (iterate (readdirSector m n c)
        ((List.range m.sectorsPerCluster).drop (b.offset % bytesPerCluster m / 512)) b) s
      (Ctl.Sat (fun b' t => t.vol = vol ∧ Reading vol all n before (pre ++ clusterSlots m c) b')
        (Outcome m vol all n before)) := by
  have hstart : b.offset % bytesPerCluster m / 512 = s0 := by
    apply start_sector hpre hs0 hl
    rw [h.offset, List.length_append, List.length_append, length_sectors, List.length_range]
  have hrange : List.range m.sectorsPerCluster = List.range s0 ++ (List.range m.sectorsPerCluster).drop s0 := by
    conv_lhs => rw [← List.take_append_drop s0 (List.range m.sectorsPerCluster)]
    rw [List.take_range, Nat.min_eq_left (Nat.le_of_lt hs0)]
  rw [hstart]
  -- the slots passed are those of the sectors passed, but for the part of the first one
  refine (iterate_ends (J := fun secs b t => t.vol = vol ∧ Reading vol all n before
    (pre ++ if secs = [] then (List.range s0).flatMap (sectorSlots c) ++ l
      else (List.range s0 ++ secs).flatMap (sectorSlots c)) b) (R := Outcome m vol all n before)
    ?_ ?_).mono ?_
  · rintro secs sec rest hsecs b t ⟨ht, hb⟩
    have hcluster : clusterSlots m c = (List.range s0 ++ secs).flatMap (sectorSlots c) ++
        (sectorSlots c sec ++ rest.flatMap (sectorSlots c)) := by
      rw [clusterSlots, hrange, hsecs]
      simp only [List.flatMap_append, List.flatMap_cons, List.append_assoc]
    have hmod : (pre ++ (List.range s0 ++ secs).flatMap (sectorSlots c)).length % 16 = 0 := by
      rw [List.length_append, length_sectors, hpre, Nat.mul_assoc]
      omega
    have hnext : Ends (readdirSector m n c sec b) t (Ctl.Sat (fun b' t => t.vol = vol ∧
        Reading vol all n before
          (pre ++ (List.range s0 ++ secs).flatMap (sectorSlots c) ++ sectorSlots c sec) b')
        (Outcome m vol all n before)) := by
      cases secs with
      | nil =>
        have hsec : sec = s0 := by
          have hhead := congrArg List.head? hsecs
          rw [List.head?_drop, List.getElem?_range hs0] at hhead
          exact (Option.some.inj hhead).symm
        subst hsec
        rw [List.append_nil] at hcluster hmod ⊢
        rw [if_pos rfl, ← List.append_assoc] at hb
        have hall' : all = (pre ++ (List.range sec).flatMap (sectorSlots c) ++ l) ++
            (l' ++ (rest.flatMap (sectorSlots c) ++ post)) := by
          rw [hall, hcluster, hsector]
          simp only [List.append_assoc]
        exact readdirSector_ends hvalid hsector hl hall' hmod hdots ht hb
      | cons x secs =>
        rw [if_neg (List.cons_ne_nil x secs)] at hb
        have hall' : all = (pre ++ (List.range s0 ++ x :: secs).flatMap (sectorSlots c) ++ []) ++
            (sectorSlots c sec ++ (rest.flatMap (sectorSlots c) ++ post)) := by
          rw [hall, hcluster]
          simp only [List.append_assoc, List.nil_append]
        refine readdirSector_ends hvalid rfl (by decide) hall' hmod hdots ht ?_
        rw [List.append_nil]
        exact hb
    refine hnext.mono ?_
    rintro (b' | r) u hu
    · refine ⟨hu.1, ?_⟩
      rw [if_neg (by simp), ← List.append_assoc, List.flatMap_append, List.flatMap_singleton,
        ← List.append_assoc]
      exact hu.2
    · exact hu
  · refine ⟨hvol, .inl ⟨hlt, ?_⟩⟩
    rw [if_pos rfl]
    exact h
  · rintro (b' | r) t ht
    · refine ⟨ht.1, ?_⟩
      have hne : (List.range m.sectorsPerCluster).drop s0 ≠ [] := by
        rw [Ne, List.drop_eq_nil_iff, List.length_range]
        omega
      have hread := ht.2
      rw [if_neg hne, ← hrange] at hread
      exact hread
    · exact ht

/-! ## The chain -/

/-- The links lead from `c` over the clusters `cs` to `d`. -/
structure Leads (m : Mount) (vol : Volume) (c : ℕ) (cs : List ℕ) (d : ℕ) : Prop where
  path : Path (fun x => some (vol.next x)) (some c) cs (some d)
  valid : ∀ x ∈ cs, clusterValid m x = true

theorem Leads.nil {d : ℕ} (h : Leads m vol c [] d) : c = d := Option.some.inj h.path

theorem Leads.cons {x d : ℕ} {cs : List ℕ} (h : Leads m vol c (x :: cs) d) :
    x = c ∧ clusterValid m c = true ∧ Leads m vol (vol.next c) cs d := by
  obtain rfl : c = x := Option.some.inj h.path.1
  exact ⟨rfl, h.valid c List.mem_cons_self, h.path.2, fun y hy => h.valid y (List.mem_cons_of_mem _ hy)⟩

theorem Leads.append {cs cs' : List ℕ} {d : ℕ} (h : Leads m vol c (cs ++ cs') d) :
    ∃ x, Leads m vol c cs x ∧ Leads m vol x cs' d := by
  induction cs generalizing c with
  | nil => exact ⟨c, ⟨rfl, by rintro _ ⟨⟩⟩, h⟩
  | cons y cs ih =>
    obtain ⟨rfl, hvalid, hrest⟩ := Leads.cons h
    obtain ⟨x, hx, hx'⟩ := ih hrest
    refine ⟨x, ⟨⟨rfl, hx.path⟩, ?_⟩, hx'⟩
    intro z hz
    rcases List.mem_cons.mp hz with rfl | hz
    · exact hvalid
    · exact hx.valid z hz

/-- The clusters that a walk visits are followed by something that is no cluster, unless the walk
has to stop before. -/
theorem chainClusters_leads (m : Mount) (vol : Volume) (visits c : ℕ) :
    ∃ d, Leads m vol c (chainClusters m vol visits c) d ∧
      ((chainClusters m vol visits c).length < visits → clusterValid m d = false) := by
  induction visits generalizing c with
  | zero => exact ⟨c, ⟨rfl, by rintro _ ⟨⟩⟩, fun h => absurd h (Nat.not_lt_zero _)⟩
  | succ visits ih =>
    rw [chainClusters]
    by_cases hvalid : clusterValid m c = true
    swap
    · rw [Bool.not_eq_true] at hvalid
      rw [hvalid]
      exact ⟨c, ⟨rfl, by rintro _ ⟨⟩⟩, fun _ => hvalid⟩
    rw [hvalid]
    simp only [Bool.not_true, Bool.false_eq_true, if_false]
    by_cases hnext : vol.next c < clusterEocMin
    · rw [if_pos hnext]
      obtain ⟨d, hd, hend⟩ := ih (vol.next c)
      refine ⟨d, ⟨⟨rfl, hd.path⟩, ?_⟩, ?_⟩
      · intro x hx
        rcases List.mem_cons.mp hx with rfl | hx
        · exact hvalid
        · exact hd.valid x hx
      · intro hlen
        exact hend (by rw [List.length_cons] at hlen; omega)
    · rw [if_neg hnext]
      refine ⟨vol.next c, ⟨⟨rfl, rfl⟩, ?_⟩, fun _ => not_valid_of_eoc (Nat.le_of_not_lt hnext)⟩
      intro x hx
      rw [List.mem_singleton.mp hx]
      exact hvalid

theorem length_chainClusters_le (m : Mount) (vol : Volume) (visits c : ℕ) :
    (chainClusters m vol visits c).length ≤ visits := by
  induction visits generalizing c with
  | zero => exact Nat.le_refl _
  | succ visits ih =>
    rw [chainClusters]
    split
    · exact Nat.zero_le _
    · rw [List.length_cons]
      split
      · exact Nat.succ_le_succ (ih _)
      · simp

/-- A walk that comes to the end of a chain visits no more clusters when it may. -/
theorem chainClusters_succ (m : Mount) (vol : Volume) {visits c : ℕ}
    (h : (chainClusters m vol (visits + 1) c).length ≤ visits) :
    chainClusters m vol (visits + 1) c = chainClusters m vol visits c := by
  induction visits generalizing c with
  | zero => exact List.length_eq_zero_iff.mp (Nat.le_zero.mp h)
  | succ visits ih =>
    have heq (v : ℕ) : chainClusters m vol (v + 1) c = if !clusterValid m c then [] else
        c :: if vol.next c < clusterEocMin then chainClusters m vol v (vol.next c) else [] := rfl
    rw [heq] at h ⊢
    rw [heq]
    split
    · rfl
    next hvalid =>
      rw [if_neg hvalid, List.length_cons] at h
      split
      next hnext =>
        rw [if_pos hnext] at h
        rw [ih (Nat.le_of_succ_le_succ h)]
      · rfl

/-- `get_next_cluster` when the table can be read. -/
theorem getNextCluster_reads (hfat : ∀ k, m.env.blockFails (.fatRead .next 0) k = false)
    (hvalid : clusterValid m c = true) (s : FsState) :
    Ends (getNextCluster m c) s fun x t => x = s.vol.next c ∧ t.vol = s.vol := by
  unfold getNextCluster
  rw [hvalid]
  refine Ends.bind (Q := fun fails t => fails = false ∧ t.vol = s.vol) ⟨hfat _, rfl⟩ ?_
  rintro _ t ⟨rfl, ht⟩
  exact ⟨by rw [← ht]; rfl, ht⟩

/-- The clusters before the offset are skipped. -/
theorem readdirSkip_ends {q : List ℕ} {x : ℕ}
    (hfat : ∀ k, m.env.blockFails (.fatRead .next 0) k = false) (h : Leads m s.vol c q x) :
    Ends (readdirSkip m q.length c) s fun r t => t.vol = s.vol ∧
      (r = some x ∨ r = none ∧ clusterValid m x = false) := by
  induction q generalizing c s with
  | nil =>
    rw [← h.nil]
    exact ⟨rfl, .inl rfl⟩
  | cons y q ih =>
    obtain ⟨rfl, hvalid, hrest⟩ := h.cons
    rw [List.length_cons, readdirSkip]
    refine (getNextCluster_reads hfat hvalid s).bind ?_
    rintro _ t ⟨rfl, ht⟩
    apply ends_ite
    · intro hge
      refine ⟨ht, .inr ⟨rfl, ?_⟩⟩
      have hinvalid : clusterValid m (s.vol.next y) = false := not_valid_of_eoc hge
      cases q with
      | nil =>
        rw [← hrest.nil]
        exact hinvalid
      | cons z q =>
        obtain ⟨-, hz, -⟩ := hrest.cons
        rw [hz] at hinvalid
        cases hinvalid
    · intro _
      rw [← ht]
      apply ih
      rw [ht]
      exact hrest

/-- A part of a cluster is some sectors of it and a part of the next one. -/
theorem cluster_part {x : ℕ} {l l' r : List Slot} (hsplit : clusterSlots m x ++ r = l ++ l')
    (hl : l.length < 16 * m.sectorsPerCluster) :
    ∃ s0 l0 l0', s0 < m.sectorsPerCluster ∧ sectorSlots x s0 = l0 ++ l0' ∧ l0.length < 16 ∧
      l = (List.range s0).flatMap (sectorSlots x) ++ l0 := by
  obtain ⟨s0, hs0⟩ : ∃ s0, s0 = l.length / 16 := ⟨_, rfl⟩
  have hs0lt : s0 < m.sectorsPerCluster := by omega
  have hrange : List.range m.sectorsPerCluster =
      List.range s0 ++ s0 :: (List.range m.sectorsPerCluster).drop (s0 + 1) := by
    have hdrop := List.drop_eq_getElem_cons (l := List.range m.sectorsPerCluster) (i := s0)
      (by rw [List.length_range]; exact hs0lt)
    rw [List.getElem_range] at hdrop
    rw [← hdrop]
    conv_lhs => rw [← List.take_append_drop s0 (List.range m.sectorsPerCluster)]
    rw [List.take_range, Nat.min_eq_left (Nat.le_of_lt hs0lt)]
  refine ⟨s0, (sectorSlots x s0).take (l.length % 16), (sectorSlots x s0).drop (l.length % 16), hs0lt,
    (List.take_append_drop _ _).symm, ?_, ?_⟩
  · rw [List.length_take, length_sectorSlots]
    omega
  · have htake := congrArg (List.take l.length) hsplit
    have hbefore : ((List.range s0).flatMap (sectorSlots x)).length = 16 * s0 := by
      rw [length_sectors, List.length_range]
    have hleft : l.length - 16 * s0 = l.length % 16 := by omega
    rw [List.take_left, clusterSlots, hrange, List.flatMap_append, List.flatMap_cons, List.append_assoc,
      List.append_assoc, List.take_append, hbefore, List.take_of_length_le (by rw [hbefore]; omega),
      hleft, List.take_append_of_le_length (by rw [length_sectorSlots]; omega)] at htake
    exact htake.symm

theorem readdirClusters_full {visits : ℕ} (h : Full vol all n before b) (hvol : s.vol = vol) :
    Ends (readdirClusters m n visits c b) s (Outcome m vol all n before) := by
  unfold readdirClusters
  rw [if_pos (by simp [h.length])]
  exact ⟨hvol, .inl h⟩

/-- The loop over the clusters, from the slot behind `l` in the first one on. -/
theorem readdirClusters_ends {visits k d : ℕ} {cs : List ℕ} {l l' : List Slot}
    (hfat : ∀ k, m.env.blockFails (.fatRead .next 0) k = false) (hlead : Leads m vol c cs d)
    (hvisits : cs.length ≤ visits) (hend : clusterValid m d = false ∨ ¬ NoEnd vol all)
    (hall : all = pre ++ cs.flatMap (clusterSlots m)) (hpre : pre.length = 16 * m.sectorsPerCluster * k)
    (hsplit : cs.flatMap (clusterSlots m) = l ++ l') (hl : l.length < 16 * m.sectorsPerCluster)
    (hdots : ∀ sl ∈ all, DotsOnly (vol.slot sl)) (hvol : s.vol = vol) (hlt : b.out.length < n)
    (h : Behind vol before (pre ++ l) b) :
    Ends (readdirClusters m n visits c b) s (Outcome m vol all n before) := by
  induction cs generalizing c visits k pre l l' b s with
  | nil =>
    rw [List.flatMap_nil] at hsplit hall
    obtain ⟨rfl, rfl⟩ := List.append_eq_nil_iff.mp hsplit.symm
    rw [List.append_nil] at hall h
    subst hall
    have hinvalid : clusterValid m c = false := by
      rw [hlead.nil]
      exact hend.resolve_right fun hno => hno h.noEnd
    unfold readdirClusters
    rw [hinvalid]
    exact ⟨hvol, .inr ⟨hlt, h.out⟩⟩
  | cons x cs ih =>
    obtain ⟨rfl, hvalid, hrest⟩ := hlead.cons
    rw [List.flatMap_cons] at hsplit hall
    obtain ⟨s0, l0, l0', hs0, hsector, hl0, rfl⟩ := cluster_part hsplit hl
    cases visits with
    | zero => exact absurd hvisits (Nat.not_succ_le_zero _)
    | succ visits =>
      rw [readdirClusters, if_neg (by simpa [hvalid] using hlt)]
      have hall' : all = pre ++ clusterSlots m x ++ cs.flatMap (clusterSlots m) := by
        rw [hall, List.append_assoc]
      refine (readdirCluster_ends hvalid hs0 hsector hl0 hall' hpre hdots hvol hlt h).bind ?_
      rintro (b' | r) t ht
      swap
      · exact ht
      obtain ⟨ht, hb'⟩ := ht
      refine (getNextCluster_reads hfat hvalid t).bind ?_
      rintro _ u ⟨rfl, hu⟩
      rw [ht] at hu ⊢
      obtain ⟨hlt', hb'⟩ | hb' := hb'
      · have hnone : cs.flatMap (clusterSlots m) = [] ++ cs.flatMap (clusterSlots m) := rfl
        refine ih (k := k + 1) hrest (Nat.le_of_succ_le_succ hvisits) hall' ?_ hnone ?_ hu hlt' ?_
        · rw [List.length_append, length_clusterSlots, hpre]
          ring
        · rw [List.length_nil]
          have := spc_pos m
          omega
        · rw [List.append_nil]
          exact hb'
      · exact readdirClusters_full hb' hu

end Loops

/-! ## Calls -/

section Calls

variable {m : Mount} {vol : Volume} {c n offset : ℕ} {before : List Dirent} {s : FsState}

/-- The directories that are listed as a walk shows them: the table can be read, the chain is not
longer than a walk can follow unless the end marker comes first, and only `.` and `..` start with
a dot. -/
structure Listable (m : Mount) (vol : Volume) (c : ℕ) : Prop where
  fat : ∀ k, m.env.blockFails (.fatRead .next 0) k = false
  ends : (chainClusters m vol (maxDirClusters + 1) c).length ≤ maxDirClusters ∨
    ∃ sl ∈ dirSlots m vol c, (vol.slot sl).first = 0
  dots : ∀ sl ∈ dirSlots m vol c, DotsOnly (vol.slot sl)

theorem length_clusters (m : Mount) (cs : List ℕ) :
    (cs.flatMap (clusterSlots m)).length = 16 * m.sectorsPerCluster * cs.length := by
  induction cs with
  | nil => rfl
  | cons c cs ih =>
    rw [List.flatMap_cons, List.length_append, ih, length_clusterSlots, List.length_cons]
    ring

/-- The clusters of a directory lead to its end, if the end marker is not met before. -/
theorem Listable.leads (h : Listable m vol c) :
    ∃ d, Leads m vol c (chainClusters m vol maxDirClusters c) d ∧
      (clusterValid m d = false ∨ ¬ NoEnd vol (dirSlots m vol c)) := by
  rcases h.ends with hlen | ⟨sl, hsl, hzero⟩
  · obtain ⟨d, hd, hend⟩ := chainClusters_leads m vol (maxDirClusters + 1) c
    have hinvalid := hend (Nat.lt_succ_of_le hlen)
    rw [chainClusters_succ m vol hlen] at hd
    exact ⟨d, hd, .inl hinvalid⟩
  · obtain ⟨d, hd, -⟩ := chainClusters_leads m vol maxDirClusters c
    exact ⟨d, hd, .inr fun hno => hno sl hsl hzero⟩

/-- What one call does. -/
theorem fat32VfsReaddir_ends (hdir : Listable m vol c) (hn : 1 ≤ n) (hvol : s.vol = vol)
    (h : Resumes vol (dirSlots m vol c) before offset) :
    Ends (fat32VfsReaddir m n true c offset) s fun r t => t.vol = vol ∧
      match r with
      | .error _ => ∃ k, m.env.blockFails .dirRead k = true
      | .ok (out, offset') =>
        (out.length = n ∧ Resumes vol (dirSlots m vol c) (before ++ out) offset') ∨
          (out.length < n ∧ before ++ out = dirents m vol c) := by
  obtain ⟨pre, post, hall, rfl, hno, hrun, rfl⟩ := h.pos
  obtain ⟨d, hlead, hend⟩ := hdir.leads
  set cs := chainClusters m vol maxDirClusters c with hcs
  have hcslen : cs.length ≤ maxDirClusters := length_chainClusters_le m vol maxDirClusters c
  have hslots : dirSlots m vol c = cs.flatMap (clusterSlots m) := rfl
  -- the cluster of the offset, and the slots before it
  have hspc := spc_pos m
  obtain ⟨w, hw⟩ : ∃ w, w = 16 * m.sectorsPerCluster := ⟨_, rfl⟩
  obtain ⟨ci, hci⟩ : ∃ ci, ci = pre.length / w := ⟨_, rfl⟩
  have hindex : 32 * pre.length / bytesPerCluster m = ci := by
    rw [hci, hw, show bytesPerCluster m = 32 * (16 * m.sectorsPerCluster) by rw [bytesPerCluster]; ring]
    exact Nat.mul_div_mul_left _ _ (by decide)
  have hdiv : w * ci + pre.length % w = pre.length := by
    rw [hci]
    exact Nat.div_add_mod _ _
  have hmod : pre.length % w < w := Nat.mod_lt _ (by omega)
  have hlen : pre.length + post.length = w * cs.length := by
    rw [hw, ← length_clusters, ← hslots, hall, List.length_append]
  have hcile : ci ≤ cs.length := by
    rw [hci]
    exact Nat.div_le_of_le_mul (by omega)
  have htake : (cs.take ci).length = ci := by rw [List.length_take, Nat.min_eq_left hcile]
  have hlead' : Leads m vol c (cs.take ci ++ cs.drop ci) d := by
    rw [List.take_append_drop]
    exact hlead
  obtain ⟨x, hskip, hrest⟩ := hlead'.append
  unfold fat32VfsReaddir
  rw [hindex, if_neg (by decide), if_neg (by omega)]
  have hskipped := readdirSkip_ends (s := s) hdir.fat (hvol ▸ hskip)
  rw [htake] at hskipped
  refine hskipped.bind ?_
  rintro r t ⟨ht, rfl | ⟨rfl, hinvalid⟩⟩
  swap
  · -- the chain ends where the last call has come to
    have hdone : cs.drop ci = [] := by
      cases hcases : cs.drop ci with
      | nil => rfl
      | cons y ys =>
        rw [hcases] at hrest
        obtain ⟨-, hy, -⟩ := hrest.cons
        rw [hinvalid] at hy
        cases hy
    have hcieq : cs.length ≤ ci := List.drop_eq_nil_iff.mp hdone
    have hpost : post = [] := by
      apply List.length_eq_zero_iff.mp
      have := Nat.mul_le_mul_left w hcieq
      omega
    have hlisted : listed vol (listFrom vol .start pre) ++ [] = dirents m vol c := by
      rw [List.append_nil, dirents, dirList, hall, hpost, List.append_nil]
    exact ends_pure.mpr ⟨ht.trans hvol, .inr ⟨hn, hlisted⟩⟩
  · obtain ⟨skipped, hskippeds⟩ : ∃ l, l = (cs.take ci).flatMap (clusterSlots m) := ⟨_, rfl⟩
    have hskippedLen : skipped.length = w * ci := by rw [hskippeds, length_clusters, htake, hw]
    have hsplit : skipped ++ (cs.drop ci).flatMap (clusterSlots m) = pre ++ post := by
      rw [hskippeds, ← List.flatMap_append, List.take_append_drop, ← hslots, hall]
    obtain ⟨l, rfl⟩ : ∃ l, pre = skipped ++ l := by
      refine ⟨pre.drop skipped.length, ?_⟩
      have htakes := congrArg (List.take skipped.length) hsplit
      rw [List.take_left, List.take_append_of_le_length (by omega)] at htakes
      conv_lhs => rw [← List.take_append_drop skipped.length pre, ← htakes]
    rw [List.append_assoc] at hsplit
    rw [List.length_append] at hdiv hmod
    have hbehind : Behind vol (listed vol (listFrom vol .start (skipped ++ l))) (skipped ++ l)
        ⟨32 * (skipped ++ l).length, .start, []⟩ :=
      ⟨rfl, hno, .inr ⟨rfl, hrun⟩, List.append_nil _⟩
    refine Ends.bind (readdirClusters_ends (k := ci) hdir.fat hrest ?_ hend ?_ ?_
      (List.append_cancel_left hsplit) ?_ hdir.dots (ht.trans hvol) hn hbehind) ?_
    · rw [List.length_drop]
      omega
    · rw [hall, List.append_assoc, ← hsplit]
    · rw [hskippedLen, hw]
    · omega
    · rintro (e | b) u ⟨hu, hb⟩
      · exact ends_pure.mpr ⟨hu, hb⟩
      · rcases hb with hb | hb
        · exact ends_pure.mpr ⟨hu, .inl ⟨hb.length, hb.resumes⟩⟩
        · exact ends_pure.mpr ⟨hu, .inr ⟨hb.length, hb.out⟩⟩

theorem Resumes.prefix_dirents (h : Resumes vol (dirSlots m vol c) before offset) :
    before <+: dirents m vol c := by
  obtain ⟨pre, post, hall, -, hno, -, rfl⟩ := h.pos
  rw [dirents, dirList, hall, listFrom_append hno, listed_append]
  exact List.prefix_append _ _

/-- The listing starts at offset 0. -/
theorem resumes_zero (vol : Volume) (all : List Slot) : Resumes vol all [] 0 :=
  ⟨[], all, rfl, rfl, by rintro _ ⟨⟩, rfl, rfl⟩

end Calls

/-! ## A directory of two clusters -/

/-- A file with a name of one letter. -/
def letterEntry (letter : Char) : DirEntry := DirEntry.zero.setShortName (padTo 11 [ch letter])

/-- The directory in cluster 2 goes on in cluster 3; the file `A` is in the first cluster and `B` in
the second. -/
def twoClusterState : FsState where
  vol :=
    { fat := fun _ c => if c = 2 then 3 else clusterEoc
      data := fun c _ i =>
        if c = 2 then if i = 0 then letterEntry 'A' else DirEntry.zero.setFirst 0xE5
        else if i = 0 then letterEntry 'B' else DirEntry.zero }
  opens := []
  nextFreeHint := 4
  entryGen := 0
  vnodes _ := none
  nextVnode := 0
  cache := []
  tick := 0

theorem listable_twoCluster : Listable smallMount twoClusterState.vol 2 := by
  have hdots : (dirSlots smallMount twoClusterState.vol 2).all
      (fun sl => decide ((twoClusterState.vol.slot sl).first ≠ ch '.')) = true := by decide +kernel
  refine ⟨fun _ => rfl, .inl (by decide +kernel), ?_⟩
  intro sl hsl hdot
  exact absurd hdot (of_decide_eq_true (List.all_eq_true.mp hdots sl hsl))

end Perspicua.Fs
