import Perspicua.Fs.Fat32.Dates
import Perspicua.Fs.Fat32.Ops
import Perspicua.Fs.Fat32.Readdir
import Perspicua.Lib.Effect

/-!
# What the driver stores

Whatever an operation of the driver does, and wherever a transfer or a request for memory
fails, it changes the disk only through `set_fat_entry` and through writes to sectors of
clusters that exist, and the list of open files in one of few ways. This is shown function by
function (`Stores`). What these stores keep, every run of the driver keeps.
-/

namespace Perspicua.Fs

open Perspicua.Lib Prog

/-- A change of the list of open files. -/
inductive OpenStep (l : List OpenFile) : List OpenFile → Prop
  | fresh {c : ℕ} (hc : 2 ≤ c) (h : openFind c l = none) : OpenStep l (⟨c, 1, false⟩ :: l)
  | again (c : ℕ) : OpenStep l (openUpdate c (fun o => { o with count := o.count + 1 }) l)
  | close {c : ℕ} {o : OpenFile} (h : openFind c l = some o) (ho : 1 < o.count) :
      OpenStep l (openUpdate c (fun o => { o with count := o.count - 1 }) l)
  | last (c : ℕ) : OpenStep l (l.filter fun o => o.cluster != c)
  | orphan (c : ℕ) : OpenStep l (openUpdate c (fun o => { o with orphaned := true }) l)

/-- What the driver writes to the table: a free cluster, the end of a chain, or a cluster. -/
def FatWord (m : Mount) (w : ℕ) : Prop := w = 0 ∨ w = clusterEoc ∨ clusterValid m w = true

/-- A store of the driver. -/
inductive Store (m : Mount) : FsState → FsState → Prop
  | fat {s : FsState} {w : ℕ} (use : FatUse) (c : ℕ) (hw : FatWord m w) :
      Store m s (setFatEntry m use c w s).2
  | sector {s : FsState} {c : ℕ} (h : clusterValid m c = true) (i : ℕ) (sec : Sector) :
      Store m s { s with vol := s.vol.setSector c i sec }
  | opens {s : FsState} {l : List OpenFile} (h : OpenStep s.opens l) : Store m s { s with opens := l }
  | rest {s t : FsState} (hv : t.vol = s.vol) (ho : t.opens = s.opens) : Store m s t

/-- A program that makes no other stores. -/
abbrev Stores {α : Type} (m : Mount) (x : FsM α) : Prop := Via (Store m) x

section Driver

variable {m : Mount} {site : Site} {use : FatUse} {c d i k n v : ℕ} {sec : Sector} {sl : Slot}
  {e : DirEntry} {g : Bool} {name name' : Name}

@[grind ←]
theorem via_rest {f : FsState → FsState} (h : (fun s => ((f s).vol, (f s).opens)) = fun s => (s.vol, s.opens)) :
    Stores m (modify f) :=
  .modify fun s => .rest (congrArg Prod.fst (congrFun h s)) (congrArg Prod.snd (congrFun h s))

/-! ## Sectors and chains -/

@[grind ←]
instance via_node : Stores m (node c) := .bind .get fun _ => .pure

@[grind ←]
instance via_wallTime : Stores m (wallTime m) := .bind .get fun _ => .pure

@[grind ←]
theorem fatWord_zero : FatWord m 0 := .inl rfl

@[grind ←]
theorem fatWord_eoc : FatWord m clusterEoc := .inr (.inl rfl)

@[grind ←]
theorem via_setFatEntry (hw : FatWord m d) : Stores m (setFatEntry m use c d) :=
  ⟨fun _ => .single (.fat use c hw)⟩

@[grind ←]
instance via_blockFails : Stores m (blockFails m site) := by grind [blockFails]

@[grind ←]
instance via_allocFails : Stores m (allocFails m) := by grind [allocFails]

@[grind ←]
instance via_readSector : Stores m (readSector m site c i) := by grind [readSector]

@[grind ←]
instance via_writeSector : Stores m (writeSector m site c i sec) := by
  have hwrite (h : clusterValid m c = true) := Via.modify fun s => Store.sector (s := s) h i sec
  grind [writeSector]

@[grind ←]
instance via_getNextCluster : Stores m (getNextCluster m c) := by grind [getNextCluster]

@[grind ←]
instance via_allocScan {last : Option ℕ} : Stores m (allocScan m c n i last) := by
  induction n generalizing i last with
  | zero => exact .pure
  | succ n ih => grind [allocScan]

@[grind ←]
instance via_allocateCluster : Stores m (allocateCluster m) := by
  refine .bind (.modify fun s => ?_) fun _ => .bind .get fun s => via_allocScan
  split <;> exact .rest rfl rfl

@[grind ←]
instance via_zeroCluster : Stores m (zeroCluster m g c) := by
  unfold zeroCluster
  generalize List.range m.sectorsPerCluster = is
  fun_induction zeroSectors <;> grind

@[grind ←]
instance via_extendClusterChain : Stores m (extendClusterChain m c) := by
  -- the link is written with what the search returned, which is a cluster
  refine via_allocateCluster.bind_of (Q := fun new => new = 0 ∨ FatWord m new) (fun s => ?_) fun new hnew => ?_
  · have hnew := (allocateCluster_ends (m := m) s).2
    grind [FatWord]
  · grind

@[grind ←]
instance via_freeClusterChain : Stores m (freeClusterChain m c) := by
  unfold freeClusterChain
  generalize m.maxCluster + 1 = rounds
  fun_induction freeChainFrom <;> grind

/-! ## Directories -/

section Walk

variable {γ : Type} {cb : WalkCb γ} {x : γ} {pos : DirPos} (h : ∀ buf pos x, Stores m (cb buf pos x))

include h

@[grind ←]
theorem via_walkSlot {j : Fin 16} {b : Sector × WalkLfn × γ} : Stores m (walkSlot m cb c i j b) := by
  unfold walkSlot walkShow
  grind

@[grind ←]
theorem via_walkSector {b : WalkLfn × γ} : Stores m (walkSector m cb c i b) := by
  unfold walkSector
  grind

/-- A walk stores what its callback stores, and what it takes to make the directory longer. -/
@[grind ←]
theorem via_dirWalk : Stores m (dirWalk m cb c g x) := by
  unfold dirWalk
  generalize maxDirClusters = visits, (WalkLfn.start, x) = b
  induction visits generalizing c b with
  | zero =>
    unfold walkClusters
    grind
  | succ n ih =>
    unfold walkClusters
    split
    · exact .pure
    · refine .bind (.iterate fun _ _ => via_walkSector h) fun r => ?_
      split
      · exact .pure
      · refine .bind via_getNextCluster fun next => ?_
        grind

@[grind ←]
theorem via_searchCb {wanted : DirEntry → DirPos → Bool} :
    Stores m (searchCb wanted cb sec pos x) := by
  unfold searchCb
  grind

end Walk

@[grind ←]
instance via_putSlot : Stores m (putSlot m sl e) := by grind [putSlot]

@[grind ←]
instance via_deleteSlot : Stores m (deleteSlot m sl) := by grind [deleteSlot]

@[grind ←]
instance via_deleteSlots {sls : List Slot} : Stores m (deleteSlots m sls) := by
  fun_induction deleteSlots <;> grind

@[grind ←]
instance via_clearLfnSlots {sls : List Slot} : Stores m (clearLfnSlots m sl sls sec) := by
  fun_induction clearLfnSlots <;> grind

variable {pos : DirPos}

@[grind ←]
instance via_updateEntryCb {n : Vnode} {u : Unit} : Stores m (updateEntryCb m n sec pos u) := by
  unfold updateEntryCb
  grind

@[grind ←]
instance via_dirEmptyCb {u : Unit} : Stores m (dirEmptyCb sec pos u) := via_searchCb fun _ _ _ => .pure

@[grind ←]
instance via_shortNameTakenCb {short : List UInt8} : Stores m (shortNameTakenCb short sec pos g) := .pure

@[grind ←]
instance via_aliasScanCb {base ext : List UInt8} {taken : List ℕ} :
    Stores m (aliasScanCb base ext sec pos taken) := .pure

@[grind ←]
instance via_renameFindCb {x : Option RenameFind} : Stores m (renameFindCb name sec pos x) :=
  via_searchCb fun _ _ _ => .pure

@[grind ←]
theorem via_fat32DirIsEmpty : Stores m (fat32DirIsEmpty m c) := by grind [fat32DirIsEmpty]

@[grind ←]
instance via_removeEntryCb : Stores m (removeEntryCb m name g sec pos d) := by
  unfold removeEntryCb
  grind

@[grind ←]
theorem via_fat32UpdateDirEntry : Stores m (fat32UpdateDirEntry m c) := by
  unfold fat32UpdateDirEntry
  grind

@[grind ←]
theorem via_fat32Stat : Stores m (fat32Stat m v) := by
  have hwalk : ∀ name c x, Stores m (dirWalk m (statCb name) c false x) := fun _ _ _ => via_dirWalk fun _ _ _ => .pure
  unfold fat32Stat
  grind

@[grind ←]
instance via_aliasSearch {base ext : List UInt8} : Stores m (aliasSearch m c base ext n k) := by
  fun_induction aliasSearch <;> grind

@[grind ←]
instance via_generateShortName : Stores m (generateShortName m c name) := by
  unfold generateShortName
  grind

@[grind ←]
instance via_putSlots {es : List (Slot × DirEntry)} : Stores m (putSlots m es) := by
  fun_induction putSlots <;> grind

@[grind ←]
theorem via_fat32WriteDirEntries : Stores m (fat32WriteDirEntries m c name e) := by
  unfold fat32WriteDirEntries
  have hslots : ∀ x, Stores m (dirWalk m findSlotsCb c true x) := fun x => via_dirWalk fun _ _ _ => .pure
  -- along the program: each call by its lemma, then the branches on its result
  repeat' first | refine .bind (by grind) fun _ => ?_ | split | grind

@[grind ←]
instance via_renameFind : Stores m (renameFind m c name) := by grind [renameFind]

@[grind ←]
instance via_renamePlace {src : RenameFind} {target : Option RenameFind} :
    Stores m (renamePlace m src target c name) := by
  unfold renamePlace
  grind

@[grind ←]
theorem via_fat32SetDotdot : Stores m (fat32SetDotdot m c d) := by grind [fat32SetDotdot]

/-! ## File contents -/

@[grind ←]
instance via_readSkip : Stores m (readSkip m n c) := by
  fun_induction readSkip <;> grind

@[grind ←]
instance via_readSectors {page : Page} : Stores m (readSectors m d k n c i page) := by
  induction n generalizing c i page with
  | zero => exact .pure
  | succ n ih => grind [readSectors]

@[grind ←]
theorem via_fat32ReadPage : Stores m (fat32ReadPage m c i) := by grind [fat32ReadPage]

@[grind ←]
instance via_nextOrExtend : Stores m (nextOrExtend m c) := by grind [nextOrExtend]

@[grind ←]
instance via_writeSkip : Stores m (writeSkip m n c) := by
  fun_induction writeSkip <;> grind

@[grind ←]
instance via_writeSectors {page : Page} : Stores m (writeSectors m d k page n c i) := by
  induction n generalizing c i with
  | zero => exact .pure
  | succ n ih =>
    unfold writeSectors
    split
    · dsimp only
      split
      · refine .bind via_readSector fun old => ?_
        split <;> grind
      · grind
    · exact .pure

@[grind ←]
instance via_readdirSector {b : Listing} : Stores m (readdirSector m k c i b) := by
  unfold readdirSector readdirSlot
  grind

@[grind ←]
instance via_readdirClusters {b : Listing} : Stores m (readdirClusters m k n c b) := by
  induction n generalizing c b with
  | zero => grind [readdirClusters]
  | succ n ih =>
    unfold readdirClusters
    grind

@[grind ←]
theorem via_fat32VfsReaddir : Stores m (fat32VfsReaddir m k g c i) := by
  have hskip : ∀ n c, Stores m (readdirSkip m n c) := by
    intro n c
    fun_induction readdirSkip <;> grind
  grind [fat32VfsReaddir]

@[grind ←]
instance via_lastKept : Stores m (lastKept m n c) := by
  fun_induction lastKept <;> grind

@[grind ←]
instance via_insertNew {a : UInt8} : Stores m (insertNew m c name a d) := by grind [insertNew]

@[grind ←]
theorem via_fat32Create : Stores m (fat32Create m c name) := by grind [fat32Create]

/-! ## Open files and vnodes -/

@[grind ←]
instance via_openTrack : Stores m (openTrack m c) := by
  unfold openTrack
  split
  · exact .pure
  next hc =>
    refine .of_ends fun s => ?_
    rw [ends_bind, ends_get]
    split
    · exact .single (.opens (.again c))
    next hnone =>
      -- the request for memory leaves the list alone, so the file is still not in it
      have hfails : Ends (allocFails m) s fun _ t => t = { s with tick := s.tick + 1 } := Eq.refl _
      refine hfails.bind fun fails t ht => ?_
      subst ht
      split
      · exact .single (.rest rfl rfl)
      · refine .head (b := { s with tick := s.tick + 1 }) (.rest rfl rfl) (.single ?_)
        exact .opens (.fresh (by omega) hnone)

@[grind ←]
instance via_openUntrack : Stores m (openUntrack m c) := by
  refine .of_ends fun s => ?_
  unfold openUntrack
  rw [ends_bind, ends_get]
  split
  · exact .refl
  next o ho =>
    apply ends_ite
    · exact fun hcount => .single (.opens (.close ho hcount))
    · intro _
      have hfree : Stores m (if o.orphaned then do
          pagecacheDiscard c
          let _ ← freeClusterChain m c
          pure () else pure ()) := by grind [pagecacheDiscard]
      exact .head (.opens (.last c)) (hfree.stores _)

@[grind ←]
theorem via_fat32ReleaseChain : Stores m (fat32ReleaseChain m c) := by
  have horphan := Via.modify fun s => Store.opens (m := m) (s := s) (.orphan c)
  grind [fat32ReleaseChain, pagecacheDiscard]

@[grind ←]
instance via_updateNode {f : Vnode → Vnode} : Stores m (updateNode v f) := via_rest rfl

@[grind ←]
instance via_stampNode : Stores m (stampNode v) := by grind [stampNode]

@[grind ←]
instance via_nodeTakeCluster : Stores m (nodeTakeCluster m v c) := by grind [nodeTakeCluster]

@[grind ←]
theorem via_fat32Revalidate : Stores m (fat32Revalidate m v) := by
  have hwalk : ∀ n c, Stores m (dirWalk m (revalidateCb m v n) c false ()) := by
    refine fun n c => via_dirWalk fun _ _ _ => via_searchCb fun buf pos x => ?_
    grind
  unfold fat32Revalidate
  repeat' first | refine .bind (by grind) fun _ => ?_ | split | grind

@[grind ←]
theorem via_fat32VfsLookup : Stores m (fat32VfsLookup m v name) := by
  refine .bind via_node fun d => .bind (via_dirWalk fun _ _ _ => via_searchCb fun buf pos x => ?_) fun _ => .pure
  repeat' first | refine .bind (by grind) fun _ => ?_ | refine .bind (via_rest rfl) fun _ => ?_ | split | grind

@[grind ←]
theorem via_vnodePut : Stores m (vnodePut m n v) := by
  induction n generalizing v with
  | zero => exact .pure
  | succ n ih =>
    have hfree : Stores m (modify fun s => s.setVnode v none) := via_rest rfl
    unfold vnodePut pagecacheForgetVnode
    repeat' first | refine .bind (by grind) fun _ => ?_ | split | grind

/-! ## Pages -/

@[grind ←]
instance via_giveStartCluster : Stores m (giveStartCluster m v) := by grind [giveStartCluster]

@[grind ←]
theorem via_fat32WritePage {page : Page} : Stores m (fat32WritePage m v i page d) := by
  unfold fat32WritePage fat32EnsureStartCluster
  grind

@[grind ←]
instance via_pagecacheUpdate {f : CachePage → CachePage} : Stores m (pagecacheUpdate v i f) := by
  grind [pagecacheUpdate]

@[grind ←]
instance via_pagecacheGetPage : Stores m (pagecacheGetPage v i) := by grind [pagecacheGetPage]

@[grind ←]
instance via_pagecacheAddPage {page : Page} : Stores m (pagecacheAddPage m v i page) := by
  have hroom : Stores m (pagecacheRoom m) := by
    unfold pagecacheRoom
    repeat' first | refine .bind (by grind) fun _ => ?_ | split | grind
  unfold pagecacheAddPage
  grind

@[grind ←]
instance via_pagecacheInvalidate : Stores m (pagecacheInvalidate m v) := by
  have hback : ∀ ps, Stores m (writeBack m v ps) := by
    intro ps
    fun_induction writeBack <;> grind
  grind [pagecacheInvalidate, pagecacheDiscard]

@[grind ←]
instance via_cachedPage : Stores m (cachedPage m v i) := by
  unfold cachedPage
  repeat' first | refine .bind (by grind) fun _ => ?_ | split | grind

/-! ## Operations -/

@[grind ←]
theorem via_fat32VfsRead : Stores m (fat32VfsRead m v k i) := by
  have hloop : ∀ n d out, Stores m (readLoop m v i d n out) := by
    intro n d out
    induction n generalizing out with
    | zero => exact .pure
    | succ n ih => grind [readLoop, pagecachePutPage]
  grind [fat32VfsRead]

@[grind ←]
theorem via_fat32VfsWrite {bytes : List UInt8} : Stores m (fat32VfsWrite m v bytes i) := by
  have hloop : ∀ n k, Stores m (writeLoop m v i bytes n k) := by
    intro n k
    induction n generalizing k with
    | zero => exact .pure
    | succ n ih =>
      unfold writeLoop pagecachePutPage pagecacheMarkDirty pagecacheClearDirty pagecacheDropPage
      repeat' first | refine .bind (by grind) fun _ => ?_ | split | dsimp only | grind
  unfold fat32VfsWrite
  repeat' first | refine .bind (by grind) fun _ => ?_ | split | grind [fat32EnsureStartCluster]

@[grind ←]
theorem via_fat32Truncate : Stores m (fat32Truncate m v n) := by
  unfold fat32Truncate
  repeat' first | refine .bind (by grind) fun _ => ?_ | split | dsimp only | grind

@[grind ←]
theorem via_fat32RemoveEntry : Stores m (fat32RemoveEntry m c name g) := by grind [fat32RemoveEntry]

@[grind ←]
theorem via_fat32Unlink : Stores m (fat32Unlink m c name) := .bind via_node fun _ => via_fat32RemoveEntry

@[grind ←]
theorem via_fat32Rmdir : Stores m (fat32Rmdir m c name) := .bind via_node fun _ => via_fat32RemoveEntry

@[grind ←]
theorem via_fat32Rename : Stores m (fat32Rename m c name d name') := by
  have hfinish : ∀ src c d i, Stores m (renameFinish m src c d i) := by grind [renameFinish]
  unfold fat32Rename
  repeat' first | refine .bind (by grind) fun _ => ?_ | split | grind

@[grind ←]
theorem via_fat32Mkdir : Stores m (fat32Mkdir m c name) := by
  unfold fat32Mkdir
  repeat' first | refine .bind (by grind [vfsVnodePut]) fun _ => ?_ | split | grind

end Driver

/-! ## Runs -/

/-- The registered operations. -/
inductive DriverOp
  | read (v size pos : ℕ)
  | write (v : ℕ) (bytes : List UInt8) (pos : ℕ)
  | revalidate (v : ℕ)
  | release (v : ℕ)
  | truncate (v length : ℕ)
  | stat (v : ℕ)
  | lookup (dir : ℕ) (name : Name)
  | readdir (v maxEntries offset : ℕ)
  | writePage (v pageIndex : ℕ) (page : Page) (validBytes : ℕ)
  | mkdir (dir : ℕ) (name : Name)
  | create (dir : ℕ) (name : Name)
  | rmdir (dir : ℕ) (name : Name)
  | unlink (dir : ℕ) (name : Name)
  | rename (old : ℕ) (oldName : Name) (new : ℕ) (newName : Name)

def DriverOp.run (m : Mount) : DriverOp → FsM Unit
  | read v size pos => discard (fat32VfsRead m v size pos)
  | write v bytes pos => discard (fat32OpWrite m v bytes pos)
  | revalidate v => discard (fat32Revalidate m v)
  | release v => vfsVnodePut m v
  | truncate v length => discard (fat32OpTruncate m v length)
  | stat v => discard (fat32Stat m v)
  | lookup dir name => discard (fat32VfsLookup m dir name)
  | readdir v maxEntries offset => do
    let n ← node v
    discard (fat32VfsReaddir m maxEntries (n.type = .dir) n.cluster offset)
  | writePage v pageIndex page validBytes => discard (fat32WritePage m v pageIndex page validBytes)
  | mkdir dir name => discard (fat32OpMkdir m dir name)
  | create dir name => discard (fat32OpCreate m dir name)
  | rmdir dir name => discard (fat32OpRmdir m dir name)
  | unlink dir name => discard (fat32OpUnlink m dir name)
  | rename old oldName new newName => discard (fat32OpRename m old oldName new newName)

section Kept

variable {m : Mount} {s t : FsState} {vol : Volume} {use : FatUse} {c w : ℕ}

/-- Every open file has one record, and its count is not zero. -/
def OpensOk (l : List OpenFile) : Prop :=
  (l.map (·.cluster)).Nodup ∧ ∀ o ∈ l, 2 ≤ o.cluster ∧ 1 ≤ o.count

theorem OpensOk.update {l : List OpenFile} {f : OpenFile → OpenFile} (hl : OpensOk l)
    (hf : ∀ o ∈ l, o.cluster = c → (f o).cluster = c ∧ 1 ≤ (f o).count) : OpensOk (openUpdate c f l) := by
  have hmap : (openUpdate c f l).map (·.cluster) = l.map (·.cluster) := by
    rw [openUpdate, List.map_map]
    exact List.map_congr_left (by grind)
  grind [openUpdate, OpensOk]

theorem OpenStep.ok {l l' : List OpenFile} (h : OpenStep l l') (hl : OpensOk l) : OpensOk l' := by
  cases h with
  | fresh hc h => grind [OpensOk, openFind]
  | again c => exact hl.update fun o ho hc => ⟨hc, by simp⟩
  | close h ho =>
    refine hl.update fun o' ho' hc => ⟨hc, ?_⟩
    -- the record found is the only one of its cluster
    have hinj := List.inj_on_of_nodup_map hl.1
    grind [openFind]
  | last c => exact ⟨hl.1.sublist (List.filter_sublist.map _), fun o ho => hl.2 o (List.mem_of_mem_filter ho)⟩
  | orphan c => exact hl.update fun o ho hc => ⟨hc, (hl.2 o ho).2⟩

end Kept

end Perspicua.Fs
