import Perspicua.Fs.Readdir

/-!
# Listings in parts

However the room of the calls is chosen, `vfs_readdir` gives the same list: the dots, the entries of
the file system, the mounts below the directory. Each phase is a reader of its own (`Hands`), with a
relation between its positions and what is left; `vfsReaddir_keeps` puts the three together.
-/

namespace Perspicua.Fs.Vfs

open Perspicua.Lib Prog

/-! ## The loops of procfs and devfs -/

/-- At every offset `next` gives the first entry of what is left. -/
structure Steps (next : ℕ → Option (Dirent × ℕ)) (At : ℕ → List Dirent → Prop) : Prop where
  done : ∀ {offset}, At offset [] → next offset = none
  step : ∀ {offset entry l}, At offset (entry :: l) →
    ∃ offset', next offset = some (entry, offset') ∧ At offset' l

theorem readdirLoop_hands {next : ℕ → Option (Dirent × ℕ)} {stop : ℕ → ℕ}
    {At : ℕ → List Dirent → Prop} (h : Steps next At) {offset : ℕ} {l : List Dirent}
    (hat : At offset l) (n : ℕ) :
    (readdirLoop next stop offset n).1 = l.take n ∧
      (n ≤ l.length → At (readdirLoop next stop offset n).2 (l.drop n)) := by
  induction n generalizing offset l with
  | zero => exact ⟨rfl, fun _ => hat⟩
  | succ n ih =>
    cases l with
    | nil =>
      rw [readdirLoop, h.done hat]
      exact ⟨rfl, fun hle => absurd hle (Nat.not_succ_le_zero n)⟩
    | cons entry l =>
      obtain ⟨offset', hnext, hat'⟩ := h.step hat
      obtain ⟨hout, hpos⟩ := ih hat'
      rw [readdirLoop, hnext]
      refine ⟨?_, ?_⟩
      · show entry :: (readdirLoop next stop offset' n).1 = _
        rw [hout]
        rfl
      · intro hle
        exact hpos (Nat.le_of_succ_le_succ hle)

/-- The entries of a table of names. -/
def tableDirents (names : List Name) (base : ℕ) : List Dirent :=
  names.zipIdx.map fun p => ⟨p.1, p.2 + base⟩

theorem tableDirents_drop {names : List Name} {offset : ℕ} (base : ℕ) (h : offset < names.length) :
    (tableDirents names base).drop offset =
      ⟨names.getD offset [], offset + base⟩ :: (tableDirents names base).drop (offset + 1) := by
  have hlen : offset < (tableDirents names base).length := by
    rw [tableDirents, List.length_map, List.length_zipIdx]
    exact h
  rw [List.drop_eq_getElem_cons hlen]
  congr 1
  simp [tableDirents, List.getD_eq_getElem?_getD, List.getElem?_eq_getElem h]

theorem firstLive_of_nil {live : ℕ → Bool} {size i : ℕ} (h : liveSlots live size i = []) :
    firstLive live (size - i) i = none := by
  cases hfirst : firstLive live (size - i) i with
  | none => rfl
  | some j =>
    rw [(firstLive_some hfirst).2.2] at h
    cases h

theorem firstLive_of_cons {live : ℕ → Bool} {size i j : ℕ} {l : List ℕ}
    (h : liveSlots live size i = j :: l) :
    firstLive live (size - i) i = some j ∧ j < size ∧ l = liveSlots live size (j + 1) := by
  cases hfirst : firstLive live (size - i) i with
  | none =>
    rw [firstLive_none hfirst] at h
    cases h
  | some k =>
    obtain ⟨-, hlt, heq⟩ := firstLive_some hfirst
    rw [heq] at h
    obtain ⟨rfl, rfl⟩ := List.cons.inj h
    exact ⟨rfl, hlt, rfl⟩

/-- What is left at an offset of the root of procfs. -/
def ProcfsRootAt (k : Procfs.Kernel) (offset : ℕ) (l : List Dirent) : Prop :=
  offset ≤ staticCount + Procfs.processTableSize ∧
    l = (tableDirents procfsStaticNames 1).drop offset ++
      (liveSlots (processLive k) Procfs.processTableSize (offset - staticCount)).map pidDirent

theorem length_staticDirents : (tableDirents procfsStaticNames 1).length = staticCount := rfl

theorem procfsRoot_steps (k : Procfs.Kernel) : Steps (procfsRootNext k) (ProcfsRootAt k) := by
  constructor
  · rintro offset ⟨-, hl⟩
    obtain ⟨hstatic, hpids⟩ := List.append_eq_nil_iff.mp hl.symm
    have hge := List.drop_eq_nil_iff.mp hstatic
    rw [length_staticDirents] at hge
    rw [procfsRootNext, if_neg (Nat.not_lt.mpr hge)]
    dsimp only
    rw [firstLive_of_nil (List.map_eq_nil_iff.mp hpids)]
    rfl
  · rintro offset entry l ⟨hle, hl⟩
    by_cases hlt : offset < staticCount
    · rw [tableDirents_drop 1 hlt, List.cons_append] at hl
      obtain ⟨rfl, rfl⟩ := List.cons.inj hl
      refine ⟨offset + 1, by rw [procfsRootNext, if_pos hlt], ?_, ?_⟩
      · omega
      · rw [show offset + 1 - staticCount = offset - staticCount by omega]
    · rw [List.drop_eq_nil_of_le (by rw [length_staticDirents]; omega), List.nil_append] at hl
      cases hlive : liveSlots (processLive k) Procfs.processTableSize (offset - staticCount) with
      | nil =>
        rw [hlive] at hl
        cases hl
      | cons j rest =>
        rw [hlive, List.map_cons] at hl
        obtain ⟨rfl, rfl⟩ := List.cons.inj hl
        obtain ⟨hfirst, hj, rfl⟩ := firstLive_of_cons hlive
        refine ⟨staticCount + j + 1, ?_, by omega, ?_⟩
        · rw [procfsRootNext, if_neg hlt]
          dsimp only
          rw [hfirst]
          rfl
        · rw [List.drop_eq_nil_of_le (by rw [length_staticDirents]; omega),
            show staticCount + j + 1 - staticCount = j + 1 by omega]
          rfl

/-- What is left at an offset of a process directory. -/
def ProcfsPidAt (offset : ℕ) (l : List Dirent) : Prop :=
  offset ≤ 5 ∧ l = (tableDirents pidStaticNames 10).drop offset

theorem procfsPid_steps : Steps procfsPidNext ProcfsPidAt := by
  have hlength : (tableDirents pidStaticNames 10).length = 5 := rfl
  constructor
  · rintro offset ⟨-, hl⟩
    have hge := List.drop_eq_nil_iff.mp hl.symm
    rw [procfsPidNext, if_neg (by omega)]
  · rintro offset entry l ⟨hle, hl⟩
    have hlt : offset < 5 := by
      by_contra hge
      rw [List.drop_eq_nil_of_le (by omega)] at hl
      cases hl
    rw [tableDirents_drop 10 hlt] at hl
    obtain ⟨rfl, rfl⟩ := List.cons.inj hl
    exact ⟨offset + 1, by rw [procfsPidNext, if_pos hlt], hlt, rfl⟩

/-- What is left at an offset of the descriptors of a process. -/
def ProcfsFdAt (p : Procfs.Process) (offset : ℕ) (l : List Dirent) : Prop :=
  offset ≤ Procfs.vfsMaxFds ∧ l = (liveSlots (fdLive p) Procfs.vfsMaxFds offset).map fdDirent

theorem procfsFd_steps (p : Procfs.Process) : Steps (procfsPidFdNext p) (ProcfsFdAt p) := by
  constructor
  · rintro offset ⟨-, hl⟩
    rw [procfsPidFdNext, firstLive_of_nil (List.map_eq_nil_iff.mp hl.symm)]
    rfl
  · rintro offset entry l ⟨-, hl⟩
    cases hlive : liveSlots (fdLive p) Procfs.vfsMaxFds offset with
    | nil =>
      rw [hlive] at hl
      cases hl
    | cons j rest =>
      rw [hlive, List.map_cons] at hl
      obtain ⟨rfl, rfl⟩ := List.cons.inj hl
      obtain ⟨hfirst, hj, rfl⟩ := firstLive_of_cons hlive
      exact ⟨j + 1, by rw [procfsPidFdNext, hfirst]; rfl, hj, rfl⟩

/-! ## The entries of a directory -/

/-- What a directory lists of its own. -/
def fsDirents (m : Mount) (s : Systems) (o : FsObject) : List Dirent :=
  match o.ops with
  | .fat32 => dirents m s.fat.vol (o.internalInfo % 2 ^ 32)
  | .procfsRoot =>
    tableDirents procfsStaticNames 1 ++
      (liveSlots (processLive s.kernel) Procfs.processTableSize 0).map pidDirent
  | .procfsPidDir => tableDirents pidStaticNames 10
  | .procfsPidFdDir =>
    match processSlot s.kernel (o.internalInfo % 2 ^ 32) with
    | none => []
    | some p => (liveSlots (fdLive p) Procfs.vfsMaxFds 0).map fdDirent
  | .devfsRoot => s.devices.map fun name => ⟨name, 0⟩
  | .procfsFile | .device => []

/-- The directories whose readdir gives them whole: a directory on the volume that is listed as a
walk shows it, and positions that fit into 32 bits. -/
def Steady (m : Mount) (s : Systems) (o : FsObject) : Prop :=
  match o.ops with
  | .fat32 =>
    Listable m s.fat.vol (o.internalInfo % 2 ^ 32) ∧
      bytesPerCluster m * (chainClusters m s.fat.vol maxDirClusters (o.internalInfo % 2 ^ 32)).length <
        2 ^ 32
  | .devfsRoot => s.devices.length < 2 ^ 32
  | _ => True

/-- The listings have not changed. -/
structure SameListing (s t : Systems) : Prop where
  vol : t.fat.vol = s.fat.vol
  kernel : t.kernel = s.kernel
  devices : t.devices = s.devices

/-- A sector of a directory cannot be read. -/
def DirReadFails (m : Mount) : Prop := ∃ k, m.env.blockFails .dirRead k = true

section Readers

variable {m : Mount} {s : Systems}

theorem fat32_hands {c : ℕ} (hdir : Listable m s.fat.vol c) :
    Hands (fun offset n => onFat (fat32VfsReaddir m n true c offset)) (DirReadFails m) (SameListing s)
      (fun offset l => ∃ before, Resumes s.fat.vol (dirSlots m s.fat.vol c) before offset ∧
        dirents m s.fat.vol c = before ++ l) := by
  rintro offset l n t ⟨before, hres, hl⟩ hn ht
  refine ends_onFat.mpr ((fat32VfsReaddir_ends hdir hn ht.vol hres).mono ?_)
  rintro (e | ⟨out, offset'⟩) u ⟨hu, hr⟩
  · exact ⟨⟨hu, ht.kernel, ht.devices⟩, hr⟩
  refine ⟨⟨hu, ht.kernel, ht.devices⟩, ?_⟩
  obtain ⟨hlen, hres'⟩ | ⟨hlt, hout⟩ := hr
  · -- the buffer is full: what follows is left
    obtain ⟨rest, hrest⟩ := hres'.prefix_dirents
    have hl' : l = out ++ rest := by
      rw [hl, List.append_assoc] at hrest
      exact (List.append_cancel_left hrest).symm
    subst hl'
    refine ⟨by rw [← hlen, List.take_left], fun _ => ⟨before ++ out, hres', ?_⟩⟩
    rw [← hlen, List.drop_left, hrest]
  · have hl' : out = l := List.append_cancel_left (hout.trans hl)
    subst hl'
    exact ⟨(List.take_of_length_le (Nat.le_of_lt hlt)).symm, fun hle => absurd hle (Nat.not_le.mpr hlt)⟩

theorem devfs_hands :
    Hands (ε := Fs.Errno) (fun offset n => fun s => (.ok (devfsRootReaddir s.devices offset n), s))
      (DirReadFails m) (SameListing s)
      (fun offset l => offset ≤ s.devices.length ∧ s.devices.length < 2 ^ 32 ∧
        l = (s.devices.drop offset).map fun name => (⟨name, 0⟩ : Dirent)) := by
  rintro offset l n t ⟨hle, hlt, rfl⟩ - ht
  refine ⟨ht, ?_⟩
  dsimp only
  unfold devfsRootReaddir
  rw [ht.devices, Nat.mod_eq_of_lt (Nat.lt_of_le_of_lt hle hlt)]
  dsimp only
  refine ⟨List.map_take, ?_⟩
  intro hn
  rw [List.length_map, List.length_drop] at hn
  rw [List.length_map, List.length_take, List.length_drop, Nat.min_eq_left hn]
  refine ⟨by omega, hlt, ?_⟩
  rw [← List.map_drop, List.drop_drop]

/-- The readdir of every file system hands out what the directory lists. -/
theorem opsReaddir_hands {o : FsObject} {readdir : Reader Systems Fs.Errno ℕ Dirent}
    (hop : opsReaddir m o = some readdir) (hsteady : Steady m s o) :
    ∃ At, Hands readdir (DirReadFails m) (SameListing s) At ∧ At 0 (fsDirents m s o) ∧
      ∀ p l, At p l → p < 2 ^ 32 := by
  unfold opsReaddir at hop
  unfold Steady at hsteady
  unfold fsDirents
  cases hops : o.ops with
  | fat32 =>
    rw [hops] at hop hsteady
    obtain rfl := Option.some.inj hop
    obtain ⟨hdir, hsmall⟩ := hsteady
    refine ⟨_, fat32_hands hdir, ⟨[], resumes_zero _ _, rfl⟩, ?_⟩
    rintro p l ⟨before, ⟨pre, post, hall, rfl, -⟩, -⟩
    have hlen := congrArg List.length hall
    rw [dirSlots, length_clusters, List.length_append] at hlen
    unfold bytesPerCluster at hsmall
    have hbytes : 32 * (pre.length + post.length) < 2 ^ 32 := by
      rw [← hlen]
      calc 32 * (16 * m.sectorsPerCluster * _) = m.sectorsPerCluster * 512 * _ := by ring
        _ < 2 ^ 32 := hsmall
    omega
  | procfsRoot =>
    rw [hops] at hop
    obtain rfl := Option.some.inj hop
    refine ⟨ProcfsRootAt s.kernel, ?_, ⟨Nat.zero_le _, rfl⟩, ?_⟩
    · intro offset l n t hat _ ht
      refine ⟨ht, ?_⟩
      dsimp only
      rw [ht.kernel]
      exact readdirLoop_hands (procfsRoot_steps s.kernel) hat n
    · rintro p l ⟨hle, -⟩
      exact Nat.lt_of_le_of_lt hle (by decide)
  | procfsPidDir =>
    rw [hops] at hop
    obtain rfl := Option.some.inj hop
    refine ⟨ProcfsPidAt, ?_, ⟨Nat.zero_le _, rfl⟩, ?_⟩
    · intro offset l n t hat _ ht
      exact ⟨ht, readdirLoop_hands procfsPid_steps hat n⟩
    · rintro p l ⟨hle, -⟩
      exact Nat.lt_of_le_of_lt hle (by decide)
  | procfsPidFdDir =>
    rw [hops] at hop
    obtain rfl := Option.some.inj hop
    dsimp only
    cases hslot : processSlot s.kernel (o.internalInfo % 2 ^ 32) with
    | none =>
      refine ⟨fun p l => p = 0 ∧ l = [], ?_, ⟨rfl, rfl⟩, ?_⟩
      · rintro offset l n t ⟨rfl, rfl⟩ hn ht
        refine ⟨ht, ?_⟩
        dsimp only
        rw [ht.kernel, procfsPidFdReaddir, hslot]
        exact ⟨List.take_nil.symm, fun hle => absurd hle (by rw [List.length_nil]; omega)⟩
      · rintro p l ⟨rfl, -⟩
        decide
    | some proc =>
      refine ⟨ProcfsFdAt proc, ?_, ⟨Nat.zero_le _, rfl⟩, ?_⟩
      · intro offset l n t hat _ ht
        refine ⟨ht, ?_⟩
        dsimp only
        rw [ht.kernel, procfsPidFdReaddir, hslot]
        exact readdirLoop_hands (procfsFd_steps proc) hat n
      · rintro p l ⟨hle, -⟩
        exact Nat.lt_of_le_of_lt hle (by decide)
  | devfsRoot =>
    rw [hops] at hop hsteady
    obtain rfl := Option.some.inj hop
    refine ⟨_, devfs_hands, ⟨Nat.zero_le _, hsteady, rfl⟩, ?_⟩
    rintro p l ⟨hle, hlt, -⟩
    omega
  | procfsFile =>
    rw [hops] at hop
    cases hop
  | device =>
    rw [hops] at hop
    cases hop

end Readers

/-! ## The dots and the mounts -/

def dotDirents : List Dirent := [⟨dot, 1⟩, ⟨dotdot, 2⟩]

theorem readdirDots_spec {d n : ℕ} (hd : d ≤ 2) (hn : 1 ≤ n) :
    (readdirDots d n).1 = (dotDirents.drop d).take n ∧ (readdirDots d n).2 ≤ 2 ∧
      dotDirents.drop (readdirDots d n).2 = (dotDirents.drop d).drop n := by
  obtain rfl | ⟨n, rfl⟩ : n = 1 ∨ ∃ k, n = k + 2 := by
    obtain rfl | hn := Nat.eq_or_lt_of_le hn
    · exact .inl rfl
    · exact .inr ⟨n - 2, by omega⟩
  · obtain rfl | rfl | rfl : d = 0 ∨ d = 1 ∨ d = 2 := by omega
    · exact ⟨rfl, by decide, rfl⟩
    · exact ⟨rfl, by decide, rfl⟩
    · exact ⟨rfl, by decide, rfl⟩
  · obtain rfl | rfl | rfl : d = 0 ∨ d = 1 ∨ d = 2 := by omega
    · simp [readdirDots, dotDirents]
    · simp [readdirDots, dotDirents]
    · simp [readdirDots, dotDirents]

/-- The entries that `f` gives for mounts with the numbers from `i` on. -/
def collect (f : ℕ → MountEntry → Option Dirent) : ℕ → List MountEntry → List Dirent
  | _, [] => []
  | i, e :: es => (f i e).toList ++ collect f (i + 1) es

theorem collect_congr {f g : ℕ → MountEntry → Option Dirent} {es : List MountEntry}
    (h : ∀ e ∈ es, ∀ i, f i e = g i e) (i : ℕ) : collect f i es = collect g i es := by
  induction es generalizing i with
  | nil => rfl
  | cons e es ih =>
    rw [collect, collect, h e List.mem_cons_self, ih fun e' he' => h e' (List.mem_cons_of_mem e he')]

section Mounts

variable {v : State FsObject} {node : ℕ}

theorem readdirMounts_spec (v : State FsObject) (node : ℕ) {n : ℕ} (es : List MountEntry) {idx : ℕ} {out : List Dirent}
    (hidx : 1 ≤ idx) (hout : out.length ≤ n) :
    (readdirMounts v node n es idx out).1 =
        out ++ (collect (mountDirent v node) (idx - 1) es).take (n - out.length) ∧
      idx ≤ (readdirMounts v node n es idx out).2 ∧
      collect (mountDirent v node) ((readdirMounts v node n es idx out).2 - 1)
          (es.drop ((readdirMounts v node n es idx out).2 - idx)) =
        (collect (mountDirent v node) (idx - 1) es).drop (n - out.length) := by
  induction es generalizing idx out with
  | nil => exact ⟨by simp [readdirMounts, collect], Nat.le_refl _, by simp [readdirMounts, collect]⟩
  | cons e es ih =>
    rw [readdirMounts]
    by_cases hroom : out.length < n
    swap
    · -- the buffer is full: the mount is left for the next call
      have hfull : n - out.length = 0 := by omega
      rw [if_neg hroom, hfull, List.take_zero, List.append_nil, Nat.sub_self]
      exact ⟨rfl, Nat.le_refl _, rfl⟩
    rw [if_pos hroom]
    set entry := mountDirent v node (idx - 1) e with hentry
    have hlen : entry.toList.length ≤ 1 := by
      cases entry with
      | none => exact Nat.zero_le _
      | some d => exact Nat.le_refl _
    have hfits : (out ++ entry.toList).length ≤ n := by
      rw [List.length_append]
      omega
    have hidx' : 1 ≤ idx + 1 := by omega
    obtain ⟨hlist, hle, hleft⟩ := ih hidx' hfits
    set r := readdirMounts v node n es (idx + 1) (out ++ entry.toList) with hr
    have hcollect : collect (mountDirent v node) (idx - 1) (e :: es) =
        entry.toList ++ collect (mountDirent v node) idx es := by
      rw [collect, ← hentry, Nat.sub_add_cancel hidx]
    have hsub : n - (out ++ entry.toList).length = n - out.length - entry.toList.length := by
      rw [List.length_append]
      omega
    have hroom' : entry.toList.length ≤ n - out.length := by omega
    rw [Nat.add_sub_cancel, hsub] at hlist hleft
    rw [hcollect]
    refine ⟨?_, by omega, ?_⟩
    · rw [hlist, List.append_assoc, List.take_append, List.take_of_length_le hroom']
    · rw [show r.2 - idx = r.2 - (idx + 1) + 1 by omega, List.drop_succ_cons, hleft, List.drop_append,
        List.drop_eq_nil_of_le hroom', List.nil_append]

/-- What is left at a position of an open directory; `At` says it of the file system. -/
structure VfsAt (v : State FsObject) (node : ℕ) (At : ℕ → List Dirent → Prop) (pos : DirPos)
    (l : List Dirent) : Prop where
  dots : pos.dotIdx ≤ 2
  left : ∃ rest, l = dotDirents.drop pos.dotIdx ++ rest ∧
    if pos.mountIdx = 0 then
      ∃ entries, At pos.fsOffset entries ∧ rest = entries ++ collect (mountDirent v node) 0 v.mounts
    else rest = collect (mountDirent v node) (pos.mountIdx - 1) (v.mounts.drop (pos.mountIdx - 1))

/-- The third phase gives the mounts that are left. -/
theorem readdirMountPhase_spec {At : ℕ → List Dirent → Prop} {n fsOffset mountIdx dotIdx : ℕ}
    {out : List Dirent} (hidx : 1 ≤ mountIdx) (hout : out.length ≤ n) (hdot : dotIdx ≤ 2)
    (hdots : dotDirents.drop dotIdx = []) {rest : List Dirent}
    (hrest : rest = collect (mountDirent v node) (mountIdx - 1) (v.mounts.drop (mountIdx - 1))) :
    (readdirMountPhase v node n fsOffset mountIdx dotIdx out).1 = (out ++ rest).take n ∧
      VfsAt v node At (readdirMountPhase v node n fsOffset mountIdx dotIdx out).2 ((out ++ rest).drop n) := by
  subst hrest
  obtain ⟨hlist, hle, hleft⟩ := readdirMounts_spec v node (v.mounts.drop (mountIdx - 1)) hidx hout
  unfold readdirMountPhase
  set r := readdirMounts v node n (v.mounts.drop (mountIdx - 1)) mountIdx out with hr
  refine ⟨?_, hdot, collect (mountDirent v node) (r.2 - 1) (v.mounts.drop (r.2 - 1)), ?_, ?_⟩
  · rw [List.take_append, List.take_of_length_le hout]
    exact hlist
  · show _ = dotDirents.drop dotIdx ++ _
    rw [hdots, List.nil_append, List.drop_append, List.drop_eq_nil_of_le hout, List.nil_append, ← hleft,
      List.drop_drop, show mountIdx - 1 + (r.2 - mountIdx) = r.2 - 1 by omega]
  · show if r.2 = 0 then _ else _
    rw [if_neg (by omega)]

end Mounts

/-! ## The three phases together -/

section Phases

variable {m : Mount} {s : Systems} {v : State FsObject} {node : ℕ}

/-- A call gives the first entries that are left, whichever phases they come from. -/
theorem vfsReaddir_keeps {readdir : Reader Systems Fs.Errno ℕ Dirent} {At : ℕ → List Dirent → Prop}
    {Err : Prop} (hdir : (v.vnodes node).dir = true)
    (hop : opsReaddir m (v.vnodes node).object = some readdir)
    (hread : Hands readdir Err (SameListing s) At) (hsmall : ∀ p l, At p l → p < 2 ^ 32) :
    Keeps (vfsReaddir v node m) Err (SameListing s) (VfsAt v node At) := by
  intro pos l n t hat hn ht
  obtain ⟨rest, rfl, hrest⟩ := hat.left
  obtain ⟨hdots, hdotIdx, hdotsLeft⟩ := readdirDots_spec hat.dots hn
  unfold vfsReaddir
  rw [if_neg (Nat.one_le_iff_ne_zero.mp hn), hdir, hop]
  simp only [Bool.not_true, Bool.false_eq_true, if_false]
  set left := dotDirents.drop pos.dotIdx with hleft
  apply ends_ite
  · -- the dots fill the buffer
    rintro ⟨-, hfull⟩
    rw [hdots, List.length_take] at hfull
    have hle : n ≤ left.length := by omega
    refine ends_pure.mpr ⟨ht, ?_, hdotIdx, rest, ?_, hrest⟩
    · rw [hdots, List.take_append_of_le_length hle]
    · rw [List.drop_append_of_le_length hle]
      show _ = dotDirents.drop (readdirDots pos.dotIdx n).2 ++ rest
      rw [hdotsLeft]
  intro hroom
  have hlt : left.length < n := by
    by_contra hge
    apply hroom
    have hne : 0 < left.length := by omega
    rw [hleft, List.length_drop] at hne
    have htwo : dotDirents.length = 2 := rfl
    refine ⟨by omega, ?_⟩
    rw [hdots, List.length_take]
    omega
  have hall : (readdirDots pos.dotIdx n).1 = left := by
    rw [hdots, List.take_of_length_le (Nat.le_of_lt hlt)]
  have hnone : dotDirents.drop (readdirDots pos.dotIdx n).2 = [] := by
    rw [hdotsLeft, List.drop_eq_nil_of_le (Nat.le_of_lt hlt)]
  rw [hall]
  apply ends_ite
  · intro hphase
    rw [if_pos hphase] at hrest
    obtain ⟨entries, hat', rfl⟩ := hrest
    refine (hread pos.fsOffset entries (n - left.length) t hat' (by omega) ht).bind ?_
    rintro (e | ⟨out, offset⟩) u ⟨hu, hr⟩
    · exact ends_pure.mpr ⟨hu, hr⟩
    obtain ⟨rfl, hnext⟩ := hr
    apply ends_ite
    · -- the file system fills the buffer
      intro hfull
      rw [List.length_append, List.length_take] at hfull
      have hle : n - left.length ≤ entries.length := by omega
      have hoffset := hsmall _ _ (hnext hle)
      refine ends_pure.mpr ⟨hu, ?_, hdotIdx, entries.drop (n - left.length) ++ collect (mountDirent v node) 0 v.mounts,
        ?_, ?_⟩
      · rw [List.take_append, List.take_of_length_le (Nat.le_of_lt hlt), List.take_append_of_le_length hle]
      · rw [List.drop_append, List.drop_eq_nil_of_le (Nat.le_of_lt hlt), List.drop_append_of_le_length hle]
        show _ = dotDirents.drop (readdirDots pos.dotIdx n).2 ++ _
        rw [hnone]
      · rw [if_pos rfl]
        refine ⟨_, ?_, rfl⟩
        rw [Nat.mod_eq_of_lt hoffset]
        exact hnext hle
    · intro hpart
      have hentries : entries.length < n - left.length := by
        rw [List.length_append, List.length_take] at hpart
        omega
      rw [List.take_of_length_le (Nat.le_of_lt hentries)]
      refine ends_pure.mpr ⟨hu, ?_⟩
      rw [← List.append_assoc]
      exact readdirMountPhase_spec (Nat.le_refl 1) (by rw [List.length_append]; omega) hdotIdx hnone rfl
  · intro hphase
    rw [if_neg hphase] at hrest
    exact ends_pure.mpr ⟨ht, readdirMountPhase_spec (by omega) (Nat.le_of_lt hlt) hdotIdx hnone hrest⟩

end Phases

/-! ## Mounts below a directory -/

/-- The entry for a mount whose path is one component longer than the way to the directory. -/
def belowDirent (way : List Name) (i : ℕ) (e : MountEntry) : Option Dirent :=
  (tokens e.path).getLast?.bind fun n =>
    if tokens e.path = way ++ [n] then some ⟨n, 9000 + i⟩ else none

/-- The listing of a directory: the dots, its own entries, the mounts below it. -/
def listing (m : Mount) (s : Systems) (v : State FsObject) (node : ℕ) (way : List Name) :
    List Dirent :=
  dotDirents ++ (fsDirents m s (v.vnodes node).object ++ collect (belowDirent way) 0 v.mounts)

section Below

variable {v : State FsObject} {node : ℕ} {place : List (Name × Found FsObject)} {e : MountEntry}

/-- A path below another than the root has a separator inside. -/
theorem slash_mem_tail_below {path n : Name} (habs : path.head? = some slash) (hne : path ≠ [slash]) :
    slash ∈ (below path n).tail := by
  rw [below, if_neg hne]
  cases path with
  | nil => cases habs
  | cons c path => simp

/-- For a mount the pointer decides: the test by path finds nothing that it does not. -/
theorem isChild_iff (hv : WellMounted v) (hloc : Located v node place) (he : e ∈ v.mounts) :
    isChild v node e = true ↔ (v.vnodes e.root).parent = some node := by
  unfold isChild
  rw [Bool.or_eq_true, beq_iff_eq]
  refine ⟨?_, .inl⟩
  rintro (hparent | hpath)
  · exact hparent
  simp only [Bool.and_eq_true, beq_iff_eq, bne_iff_ne, ne_eq, Bool.not_eq_eq_eq_not, Bool.not_true,
    List.contains_eq_mem, decide_eq_false_iff_not] at hpath
  obtain ⟨⟨⟨⟨hroot, -⟩, -⟩, htail⟩, hslash⟩ := hpath
  -- a vnode without a parent is the root
  cases hloc with
  | @first e0 hhead =>
    rcases hv.mem_cases he with ⟨-, hpath⟩ | he
    · rw [hpath] at htail
      exact absurd rfl htail
    · obtain ⟨e', he', n, hn, hpath, hparent, -⟩ := hv.further e he
      have hpath' : e'.path = [slash] := by
        by_contra hne
        rw [hpath] at hslash
        exact hslash (slash_mem_tail_below (hv.abs he') hne)
      have h0 : e0 ∈ v.mounts := List.mem_of_mem_head? hhead
      have heq : e' = e0 := hv.eq_of_tokens he' h0 (by rw [hpath', (hv.first e0 hhead).1])
      rw [hparent, heq]
  | mount _ _ _ _ hparent => rw [hparent] at hroot; cases hroot
  | child _ hparent => rw [hparent] at hroot; cases hroot

theorem mountDirent_eq (hv : WellMounted v) (hloc : Located v node place) (he : e ∈ v.mounts) (i : ℕ) :
    mountDirent v node i e = belowDirent (way place) i e := by
  have hchild := isChild_iff hv hloc he
  unfold mountDirent belowDirent
  rcases hv.mem_cases he with ⟨hhead, hpath⟩ | htail
  · -- the first mount lies below nothing
    rw [(hv.first e hhead).2] at hchild
    rw [if_neg (by rw [hchild]; simp), hpath]
    rfl
  · obtain ⟨e', he', n, hn, hpath, hparent, hname⟩ := hv.further e htail
    have hlast : (tokens e.path).getLast? = some n := by
      rw [hpath, tokens_below hn, List.getLast?_concat]
    have hiff := crossing_iff hv hloc htail n
    rw [hname, eq_self_iff_true, and_true] at hiff
    rw [hlast, hname, Option.bind_some]
    by_cases hbelow : tokens e.path = way place ++ [n]
    · rw [if_pos hbelow, if_pos (hchild.mpr (hiff.mpr hbelow))]
    · rw [if_neg hbelow, if_neg fun h => hbelow (hiff.mp (hchild.mp h))]

end Below

/-! ## Any calls give the listing -/

section Calls

variable {m : Mount} {s : Systems} {v : State FsObject} {node : ℕ}

theorem vfsReaddir_located {place : List (Name × Found FsObject)} (hv : WellMounted v)
    (hloc : Located v node place) (hdir : (v.vnodes node).dir = true)
    {readdir : Reader Systems Fs.Errno ℕ Dirent}
    (hop : opsReaddir m (v.vnodes node).object = some readdir)
    (hsteady : Steady m s (v.vnodes node).object) {sizes : List ℕ} (hsizes : ∀ n ∈ sizes, 1 ≤ n) :
    Ends (calls (vfsReaddir v node m) sizes .start) s fun r _ =>
      r.1 = (listing m s v node (way place)).take r.2 ∧ (r.2 = sizes.sum ∨ DirReadFails m) := by
  obtain ⟨At, hread, hstart, hsmall⟩ := opsReaddir_hands hop hsteady
  refine calls_ends (vfsReaddir_keeps hdir hop hread hsmall) hsizes ?_ ⟨rfl, rfl, rfl⟩
  refine ⟨Nat.zero_le _, _, rfl, ?_⟩
  rw [if_pos (show DirPos.start.mountIdx = 0 from rfl)]
  refine ⟨_, hstart, ?_⟩
  rw [collect_congr fun e he i => (mountDirent_eq hv hloc he i).symm]

/-- After every run that mounts only directly below mounts: whatever room the calls have, the
entries they return are the listing of the directory, from its start on. -/
theorem vfsReaddir_lists_run {v0 : State FsObject} {as : List (Act FsObject)} (hempty : v0.mounts = [])
    (hrun : Run (Guarded MountsBelow (Moves step)) v0 as v) {place : List (Name × Found FsObject)}
    (hloc : Located v node place) (hdir : (v.vnodes node).dir = true)
    (hop : (opsReaddir m (v.vnodes node).object).isSome = true)
    (hsteady : Steady m s (v.vnodes node).object) {sizes : List ℕ} (hsizes : ∀ n ∈ sizes, 1 ≤ n) :
    Ends (calls (vfsReaddir v node m) sizes .start) s fun r _ =>
      r.1 = (listing m s v node (way place)).take r.2 ∧ (r.2 = sizes.sum ∨ DirReadFails m) := by
  have hv : WellMounted v :=
    hrun.invariant WellMounted (fun _ _ _ hs h => step_wellMounted hs h) (wellMounted_of_empty hempty)
  obtain ⟨readdir, hop⟩ := Option.isSome_iff_exists.mp hop
  exact vfsReaddir_located hv hloc hdir hop hsteady hsizes

end Calls

/-! ## A mount below a directory that is looked up again -/

/-- The volume of `twoClusterState`; no processes, no devices. -/
def twoClusterSystems : Systems where
  fat := twoClusterState
  kernel :=
    { systemTime := 0, wallTime := 0, totalPages := 0, freePages := 0, slabUsed := 0, slabTotal := 0,
      processForks := 0, irqTable := fun _ => none, coreSchedStats := fun _ => ⟨0, 0⟩,
      mountTable := ⟨[], Procfs.no_mounts_le⟩, processTable := fun _ => none }
  devices := []

def emptyTable : State FsObject where
  vnodes _ := ⟨⟨⟨.fat32, 0⟩, false, false⟩, [], none⟩
  next := 0
  mounts := []

/-- Every name leads to an empty directory. -/
def anyLookup : Lookup FsObject := fun _ _ => some ⟨⟨.fat32, 0⟩, true, true⟩

/-- The volume is mounted at the root and devfs at `point`. -/
def mountDev (point : Name) : List (Act FsObject) :=
  [Act.create ⟨⟨.fat32, 2⟩, true, true⟩ [], Act.create ⟨⟨.devfsRoot, 0⟩, true, true⟩ [],
    Act.mount anyLookup [slash] 0, Act.mount anyLookup point 1]

theorem vfsReaddir_lists_run_dev :
    ∃ v s, Run (Guarded MountsBelow (Moves step)) emptyTable (mountDev (name "/dev")) v ∧
      Located v 0 [] ∧
      listing smallMount s v 0 [] = dotDirents ++
        [⟨[ch 'a'], 0⟩, ⟨[ch 'b'], 0⟩, ⟨name "dev", 9001⟩] ∧
      Ends (calls (vfsReaddir v 0 smallMount) [1, 3, 1, 2] .start) s fun r _ =>
        r.1 = (listing smallMount s v 0 []).take r.2 ∧
          (r.2 = [1, 3, 1, 2].sum ∨ DirReadFails smallMount) := by
  have hexec : (execGuarded MountsBelow step emptyTable (mountDev (name "/dev"))).any (fun v =>
      decide (v.mounts = [⟨[slash], 0⟩, ⟨name "/dev", 1⟩] ∧ v.found 0 = ⟨⟨.fat32, 2⟩, true, true⟩ ∧
        listing smallMount twoClusterSystems v 0 [] = dotDirents ++
          [⟨[ch 'a'], 0⟩, ⟨[ch 'b'], 0⟩, ⟨name "dev", 9001⟩])) = true := by
    decide +kernel
  obtain ⟨v, hrun, hv⟩ := exists_run_of_execGuarded hexec
  obtain ⟨hmounts, hroot, hlisting⟩ := of_decide_eq_true hv
  have hobject : (v.vnodes 0).object = ⟨.fat32, 2⟩ := congrArg Found.object hroot
  have hloc : Located v 0 [] := Located.first (e := ⟨[slash], 0⟩) (by rw [hmounts]; rfl)
  have hsteady : Steady smallMount twoClusterSystems (v.vnodes 0).object := by
    rw [hobject]
    exact ⟨listable_twoCluster, by decide +kernel⟩
  exact ⟨v, _, hrun, hloc, hlisting, vfsReaddir_lists_run rfl hrun hloc (congrArg Found.dir hroot)
    (by rw [hobject]; rfl) hsteady (by decide)⟩

/-- Devfs is mounted at `/a/b`. The listing of `/a` ends after the dots: `a` is looked up again and
is not the vnode that the mount has for its parent. -/
theorem nested_mount_unlisted :
    ∃ v, Run (Moves step) emptyTable (mountDev (name "/a/b")) v ∧
      v.mounts = [⟨[slash], 0⟩, ⟨name "/a/b", 1⟩] ∧
      (vfsResolvePath anyLookup (name "/a") none v).1 = .ok 3 ∧
      (calls (vfsReaddir (vfsResolvePath anyLookup (name "/a") none v).2 3 smallMount) [4, 4] .start
        twoClusterSystems).1 = (dotDirents, 8) ∧
      listing smallMount twoClusterSystems (vfsResolvePath anyLookup (name "/a") none v).2 3 [name "a"] =
        dotDirents ++ [⟨name "b", 9001⟩] := by
  have hexec : (exec step emptyTable (mountDev (name "/a/b"))).any (fun v =>
      decide (v.mounts = [⟨[slash], 0⟩, ⟨name "/a/b", 1⟩] ∧
        (vfsResolvePath anyLookup (name "/a") none v).1.toOption = some 3 ∧
        (calls (vfsReaddir (vfsResolvePath anyLookup (name "/a") none v).2 3 smallMount) [4, 4] .start
          twoClusterSystems).1 = (dotDirents, 8) ∧
        listing smallMount twoClusterSystems (vfsResolvePath anyLookup (name "/a") none v).2 3 [name "a"] =
          dotDirents ++ [⟨name "b", 9001⟩])) = true := by
    decide +kernel
  obtain ⟨v, hrun, hv⟩ := exists_run_of_exec hexec
  obtain ⟨hmounts, hopen, hcalls, hlisting⟩ := of_decide_eq_true hv
  refine ⟨v, hrun, hmounts, ?_, hcalls, hlisting⟩
  cases hr : (vfsResolvePath anyLookup (name "/a") none v).1 with
  | error e =>
    rw [hr] at hopen
    cases hopen
  | ok c =>
    rw [hr] at hopen
    rw [Option.some.inj hopen]

end Perspicua.Fs.Vfs
