import Perspicua.Fs.Procfs

/-!
# What a read of a process file returns

A read returns a slice of the text that its file has at that moment, and nothing of what was in
the buffer before, unless the file is the `maps` of a process without regions, where nothing is
written in front of `strlen`, or `interrupts` has grown past its buffer.
-/

namespace Perspicua.Fs.Procfs

open Perspicua.Lib

variable {k : Kernel} {mem : Memory} {block : HeapBlock} {offset size : ℕ} {t : List UInt8}

/-! ## The texts -/

/-- The path of a vnode from as many of the last names as fit. -/
def pathText : List CString → ℕ → List UInt8
  | [], _ => []
  | name :: names, room =>
    if room < name.val.length + 1 then []
    else pathText names (room - name.val.length - 1) ++ ch '/' :: name.val

def nodeText (node : Vnode) (size : ℕ) : List UInt8 :=
  if node.names.isEmpty ∧ node.top.val.isEmpty then [ch '/'] else pathText node.names (size - 1)

/-- A path as a line, if the newline fits. -/
def lineText (t : List UInt8) : List UInt8 :=
  if 0 < t.length ∧ t.length < vfsMaxPathLen - 1 then t ++ [ch '\n'] else t

def vnodeText (node : Option Vnode) : List UInt8 :=
  node.elim [] fun node => lineText (nodeText node vfsMaxPathLen)

theorem pid_lt_of_info {info : ℕ}
    (h : info / 2 ^ 16 % 2 ^ 16 < processTableSize ∧ info % 2 ^ 16 < vfsMaxFds) :
    info / 2 ^ 16 % 2 ^ 16 < processTableSize := h.1

theorem fd_lt_of_info {info : ℕ}
    (h : info / 2 ^ 16 % 2 ^ 16 < processTableSize ∧ info % 2 ^ 16 < vfsMaxFds) :
    info % 2 ^ 16 < vfsMaxFds := h.2

def fdEntryText (k : Kernel) (info : ℕ) : List UInt8 :=
  if h : info / 2 ^ 16 % 2 ^ 16 < processTableSize ∧ info % 2 ^ 16 < vfsMaxFds then
    (k.processTable ⟨_, pid_lt_of_info h⟩).elim [] fun p => vnodeText (p.fdTable ⟨_, fd_lt_of_info h⟩)
  else []

/-- The text of a file, as much of it as its buffer has room for. -/
def fileText (k : Kernel) : ProcFile → List UInt8
  | .generated f => (f.generate k).flatten.take (procfsContentMax - 1)
  | .maps pid => (k.processTable pid).elim [] fun p => (p.va.map mapsLine).flatten.take (2048 - 1)
  | .status pid => (k.processTable pid).elim [] fun p => (statusText pid p).take (512 - 1)
  | .cmdline pid => (k.processTable pid).elim [] fun p => (cmdlineText p).take (128 - 1)
  | .cwd pid => (k.processTable pid).elim [] fun p => vnodeText p.cwd
  | .fdEntry info => fdEntryText k info

/-- What a read at `offset` returns of a text, and the offset after it. -/
def slice (t : List UInt8) (offset size : ℕ) : List UInt8 × ℕ :=
  ((t.drop offset).take size, offset + ((t.drop offset).take size).length)

theorem slice_nil (offset size : ℕ) : slice [] offset size = ([], offset) := by
  simp [slice]

/-! ## No text has a zero byte -/

theorem ch_digitChar_ne_zero : ∀ d < 16, ch (Nat.digitChar d) ≠ 0 := by
  decide

theorem mem_toDigits {b n : ℕ} {c : Char} (hb : 1 < b) (hc : c ∈ Nat.toDigits b n) :
    ∃ d < b, c = Nat.digitChar d := by
  induction n using Nat.strongRecOn with
  | ind n ih =>
    rw [Nat.toDigits_eq_if hb] at hc
    split at hc
    next hlt => exact ⟨n, hlt, List.mem_singleton.mp hc⟩
    next hle =>
      rcases List.mem_append.mp hc with hc | hc
      · exact ih (n / b) (Nat.div_lt_self (by omega) hb) hc
      · exact ⟨n % b, Nat.mod_lt _ (by omega), List.mem_singleton.mp hc⟩

theorem fmtUint_no_nul {b : ℕ} (hb : 1 < b ∧ b ≤ 16) (n : ℕ) : 0 ∉ fmtUint b n := by
  intro hmem
  obtain ⟨c, hc, hzero⟩ := List.mem_map.mp hmem
  obtain ⟨d, hd, rfl⟩ := mem_toDigits hb.1 hc
  exact ch_digitChar_ne_zero d (by omega) hzero

theorem zeroPad_no_nul {width : ℕ} (h : 0 ∉ t) : 0 ∉ zeroPad width t := by
  intro hmem
  rcases List.mem_append.mp hmem with hz | hz
  · exact absurd (List.eq_of_mem_replicate hz) (by decide)
  · exact h hz

theorem append_no_nul {u : List UInt8} (ht : 0 ∉ t) (hu : 0 ∉ u) : 0 ∉ t ++ u := by
  rw [List.mem_append]
  exact not_or.mpr ⟨ht, hu⟩

theorem take_no_nul {n : ℕ} (h : 0 ∉ t) : 0 ∉ t.take n := fun hmem => h (List.mem_of_mem_take hmem)

theorem mapsLine_no_nul (r : VaRegion) : 0 ∉ mapsLine r := by
  unfold mapsLine
  refine append_no_nul (append_no_nul (append_no_nul (append_no_nul (append_no_nul ?_ ?_) ?_) ?_) ?_)
    (by decide)
  · exact zeroPad_no_nul (fmtUint_no_nul (by decide) _)
  · decide
  · exact zeroPad_no_nul (fmtUint_no_nul (by decide) _)
  · decide
  · exact fmtUint_no_nul (by decide) _

theorem mapsLines_no_nul (va : List VaRegion) : 0 ∉ (va.map mapsLine).flatten := by
  intro hmem
  obtain ⟨line, hline, hzero⟩ := List.mem_flatten.mp hmem
  obtain ⟨r, -, rfl⟩ := List.mem_map.mp hline
  exact mapsLine_no_nul r hzero

theorem ProcessState.text_no_nul (state : ProcessState) : 0 ∉ state.text := by
  cases state <;> decide

theorem statusText_no_nul (pid : ℕ) (p : Process) : 0 ∉ statusText pid p := by
  have hnum : ∀ n, 0 ∉ fmtUint 10 n := fmtUint_no_nul (by decide)
  have hhex : ∀ n, 0 ∉ zeroPad 8 (fmtUint 16 n) :=
    fun n => zeroPad_no_nul (fmtUint_no_nul (by decide) n)
  have hlit : 0 ∉ str "Name:   " ∧ 0 ∉ str "\n" ∧ 0 ∉ str "Pid:    " ∧ 0 ∉ str "PPid:   " ∧
      0 ∉ str "State:  " ∧ 0 ∉ str "VmSize: " ∧ 0 ∉ str " kB\n" ∧ 0 ∉ str "SigPnd: " ∧
      0 ∉ str "SigBlk: " := by decide
  obtain ⟨h1, h2, h3, h4, h5, h6, h7, h8, h9⟩ := hlit
  unfold statusText
  simp only [List.mem_append, h1, h2, h3, h4, h5, h6, h7, h8, h9, hnum, hhex, p.name.property,
    p.state.text_no_nul, or_self, not_false_iff]

theorem cmdlineText_no_nul (p : Process) : 0 ∉ cmdlineText p :=
  append_no_nul p.name.property (by decide)

theorem pathText_no_nul (names : List CString) (room : ℕ) : 0 ∉ pathText names room := by
  induction names generalizing room with
  | nil => exact List.not_mem_nil
  | cons name names ih =>
    rw [pathText]
    split
    next => exact List.not_mem_nil
    next =>
      refine append_no_nul (ih _) ?_
      rw [List.mem_cons, not_or]
      exact ⟨by decide, name.property⟩

theorem nodeText_no_nul (node : Vnode) (size : ℕ) : 0 ∉ nodeText node size := by
  unfold nodeText
  split
  next => decide
  next => exact pathText_no_nul _ _

/-! ## What the buffers hold -/

theorem procfsCopyOut_eq (h : Reads mem 0 t) (offset size : ℕ) :
    procfsCopyOut offset size mem t.length = slice t offset size := by
  unfold procfsCopyOut slice
  rw [window_eq h]

/-- A text that `snprintf` puts into a buffer on the stack. -/
theorem writeText_copyOut {room : ℕ} (hroom : 0 < room) (hnul : 0 ∉ t) (stack : Memory) :
    procfsCopyOut offset size (writeText stack 0 room t)
      (strlen (writeText stack 0 room t) 0 room) = slice (t.take (room - 1)) offset size := by
  have hreads : Reads (writeText stack 0 room t) 0 (t.take (room - 1) ++ [0]) := reads_store _ _ _
  have hlen : 0 + (t.take (room - 1)).length < room := by
    rw [List.length_take]
    omega
  rw [strlen_eq hreads (take_no_nul hnul) hlen]
  exact procfsCopyOut_eq (reads_append.mp hreads).1 offset size

/-- The loop puts the path in front of the text at the position. -/
theorem pathLoop_reads (names : List CString) (mem : Memory) (ptr : ℕ) (t : List UInt8)
    (h : Reads mem ptr t) :
    (pathLoop names (mem, ptr)).2 + (pathText names ptr).length = ptr ∧
      Reads (pathLoop names (mem, ptr)).1 (pathLoop names (mem, ptr)).2
        (pathText names ptr ++ t) := by
  induction names generalizing mem ptr t with
  | nil => exact ⟨rfl, h⟩
  | cons name names ih =>
    rw [pathLoop, pathText]
    split
    next => exact ⟨rfl, h⟩
    next hfits =>
      dsimp only
      set ptr' := ptr - name.val.length - 1 with hptr
      set mem' := store (store mem (ptr - name.val.length) name.val) ptr' [ch '/'] with hmem
      have hone : [ch '/'].length = 1 := rfl
      have hreads : Reads mem' ptr' ([ch '/'] ++ (name.val ++ t)) := by
        rw [reads_append, reads_append, hone, hmem]
        refine ⟨reads_store _ _ _, ?_, ?_⟩
        · rw [show ptr' + 1 = ptr - name.val.length by omega]
          exact (reads_store _ _ _).store_apart (.inr (by omega))
        · rw [show ptr' + 1 + name.val.length = ptr by omega]
          exact (h.store_apart (.inr (by omega))).store_apart (.inr (by omega))
      obtain ⟨hlen, hrest⟩ := ih mem' ptr' _ hreads
      refine ⟨?_, ?_⟩
      · rw [List.length_append, List.length_cons]
        omega
      · rwa [List.append_assoc, List.cons_append, ← List.singleton_append]

/-- `procfs_get_vnode_path` puts the path at the start of the buffer. -/
theorem procfsGetVnodePath_reads (node : Vnode) (mem : Memory) {size : ℕ} (hsize : 2 ≤ size) :
    (procfsGetVnodePath node mem size).2 = (nodeText node size).length ∧
      Reads (procfsGetVnodePath node mem size).1 0 (nodeText node size) := by
  unfold procfsGetVnodePath
  rw [if_neg (by omega)]
  dsimp only
  rw [if_neg (by omega)]
  -- the position and the memory after the path has been built at the end of the buffer
  have hbuilt : ∀ b, b = (if node.names.isEmpty ∧ node.top.val.isEmpty then
        (store (store mem (size - 1) [0]) (size - 2) [ch '/'], size - 2)
        else pathLoop node.names (store mem (size - 1) [0], size - 1)) →
      b.2 + (nodeText node size).length = size - 1 ∧ Reads b.1 b.2 (nodeText node size ++ [0]) := by
    rintro b rfl
    unfold nodeText
    split
    next =>
      have hone : [ch '/'].length = 1 := rfl
      refine ⟨by rw [hone]; dsimp only; omega, ?_⟩
      rw [reads_append, hone]
      refine ⟨reads_store _ _ _, ?_⟩
      dsimp only
      rw [show size - 2 + 1 = size - 1 by omega]
      exact (reads_store _ _ _).store_apart (.inr (by rw [hone]; omega))
    next => exact pathLoop_reads node.names _ _ _ (reads_store _ _ _)
  obtain ⟨hend, hreads⟩ := hbuilt _ rfl
  generalize (if node.names.isEmpty ∧ node.top.val.isEmpty then
    (store (store mem (size - 1) [0]) (size - 2) [ch '/'], size - 2)
    else pathLoop node.names (store mem (size - 1) [0], size - 1)) = b at hend hreads ⊢
  have hlen : strlen b.1 b.2 size = (nodeText node size).length :=
    strlen_eq hreads (nodeText_no_nul node size) (by omega)
  obtain ⟨buf, ptr⟩ := b
  dsimp only at hlen hreads ⊢
  rw [hlen]
  split
  next =>
    refine ⟨rfl, ?_⟩
    have hload := load_eq hreads
    rw [List.length_append] at hload
    dsimp only
    rw [show (nodeText node size).length + 1 = (nodeText node size).length + [(0 : UInt8)].length
      from rfl, hload]
    exact (reads_append.mp (reads_store _ _ _)).1
  next hzero =>
    refine ⟨rfl, ?_⟩
    rw [List.eq_nil_of_length_eq_zero (Nat.eq_zero_of_not_pos hzero)]
    intro k hk
    simp at hk

theorem vnodePathRead_eq (node : Option Vnode) (stack : Memory) (offset size : ℕ) :
    vnodePathRead node stack offset size = .ok (slice (vnodeText node) offset size) := by
  cases node with
  | none =>
    show _ = Except.ok (slice [] offset size)
    rw [slice_nil]
    rfl
  | some node =>
    obtain ⟨hlen, hreads⟩ := procfsGetVnodePath_reads node stack (show 2 ≤ vfsMaxPathLen by decide)
    unfold vnodePathRead vnodeText lineText
    dsimp only [Option.elim]
    generalize procfsGetVnodePath node stack vfsMaxPathLen = b at hlen hreads ⊢
    generalize nodeText node vfsMaxPathLen = t at hlen hreads ⊢
    obtain ⟨buf, len⟩ := b
    obtain rfl : len = t.length := hlen
    dsimp only
    split
    next =>
      have hline : Reads (store (store buf t.length [ch '\n']) (t.length + 1) [0]) 0
          (t ++ [ch '\n']) := by
        rw [reads_append, Nat.zero_add]
        refine ⟨?_, ?_⟩
        · exact (hreads.store_apart (.inl (by omega))).store_apart (.inl (by omega))
        · exact (reads_store _ _ _).store_apart (.inl (Nat.le_refl _))
      have := procfsCopyOut_eq hline offset size
      rw [List.length_append] at this
      exact congrArg Except.ok this
    next => exact congrArg Except.ok (procfsCopyOut_eq hreads offset size)

/-! ## How long the generated files are -/

theorem length_str (s : String) : (str s).length = s.toList.length := List.length_map _

@[simp] theorem length_zeroPad (width : ℕ) (t : List UInt8) :
    (zeroPad width t).length = max width t.length := by
  rw [zeroPad, List.length_append, List.length_replicate]
  omega

@[simp] theorem length_padTo (n : ℕ) (t : List UInt8) : (padTo n t).length = max n t.length := by
  rw [padTo, List.length_append, List.length_replicate]
  omega

theorem length_fmtUint_le {n : ℕ} (h : n < 2 ^ 64) : (fmtUint 10 n).length ≤ 20 := by
  rw [fmtUint, List.length_map, Nat.length_toDigits_le_iff (by decide) (by decide)]
  omega

theorem length_fmtInt_le (x : BitVec 64) : (fmtInt x.toInt).length ≤ 21 := by
  have habs : x.toInt.natAbs < 2 ^ 64 := by
    have h1 := BitVec.toInt_lt (x := x)
    have h2 := BitVec.le_toInt (x := x)
    omega
  have := length_fmtUint_le habs
  unfold fmtInt
  split
  next => rw [List.length_cons]; omega
  next => omega

theorem length_flatten_le {ts : List (List UInt8)} {b : ℕ} (h : ∀ t ∈ ts, t.length ≤ b) :
    ts.flatten.length ≤ ts.length * b := by
  induction ts with
  | nil => simp
  | cons t ts ih =>
    have ht := h t List.mem_cons_self
    have := ih fun t ht => h t (List.mem_cons_of_mem _ ht)
    rw [List.flatten_cons, List.length_append, List.length_cons, Nat.succ_mul]
    omega

/-- Every generated file but `interrupts` is a few short texts. -/
theorem generate_short (k : Kernel) {f : StaticFile} (hf : f ≠ .interrupts) :
    (f.generate k).length ≤ 8 ∧ ∀ t ∈ f.generate k, t.length ≤ 200 := by
  have hnat : ∀ n < 2 ^ 64, (fmtUint 10 n).length ≤ 20 := fun n => length_fmtUint_le
  have hword : ∀ x : BitVec 64, (fmtUint 10 x.toNat).length ≤ 20 := fun x => hnat _ x.isLt
  have hdiv : ∀ (x : BitVec 64) d, (fmtUint 10 (x.toNat / d)).length ≤ 20 :=
    fun x d => hnat _ (Nat.lt_of_le_of_lt (Nat.div_le_self _ _) x.isLt)
  have hcore : ∀ i : Fin cpuMaxCores, (fmtUint 10 i.val).length ≤ 20 :=
    fun i => hnat _ (Nat.lt_trans i.isLt (by decide))
  cases f with
  | version =>
    show procfsGenVersion.length ≤ 8 ∧ ∀ t ∈ procfsGenVersion, t.length ≤ 200
    decide
  | uptime =>
    have h1 := hdiv k.systemTime 1000
    have h2 := hnat (k.systemTime.toNat % 1000 / 10) (by omega)
    refine ⟨Nat.le_of_ble_eq_true rfl, ?_⟩
    simp only [StaticFile.generate, procfsGenUptime, List.forall_mem_singleton, List.length_append,
      length_str, length_zeroPad, String.reduceToList, List.length_cons,
      List.length_nil]
    omega
  | meminfo =>
    have h1 := hword (k.totalPages * 4)
    have h2 := hword (k.freePages * 4)
    have h3 := hdiv k.slabUsed 1024
    have h4 := hdiv k.slabTotal 1024
    refine ⟨Nat.le_of_ble_eq_true rfl, ?_⟩
    simp only [StaticFile.generate, procfsGenMeminfo, List.forall_mem_singleton, List.length_append,
      length_str, String.reduceToList, List.length_cons,
      List.length_nil]
    omega
  | interrupts => exact absurd rfl hf
  | schedstat =>
    refine ⟨by simp [StaticFile.generate, procfsGenSchedstat, cpuMaxCores], ?_⟩
    intro t ht
    rcases List.mem_cons.mp ht with rfl | ht
    · decide
    · obtain ⟨i, -, rfl⟩ := List.mem_map.mp ht
      have h1 := hcore i
      have h2 := hword (k.coreSchedStats i).contextSwitches
      have h3 := hword (k.coreSchedStats i).idleCount
      simp only [List.length_append, length_str, length_padTo, String.reduceToList, List.length_cons,
      List.length_nil]
      omega
  | mounts =>
    refine ⟨by rw [StaticFile.generate, procfsGenMounts, List.length_map]; exact k.mountTable.property, ?_⟩
    intro t ht
    obtain ⟨path, -, rfl⟩ := List.mem_map.mp ht
    simp only [List.length_append, length_str, List.length_take, String.reduceToList, List.length_cons,
      List.length_nil, vfsMaxMountPath]
    omega
  | cpuinfo =>
    refine ⟨by simp [StaticFile.generate, procfsGenCpuinfo, cpuMaxCores], ?_⟩
    intro t ht
    obtain ⟨i, -, rfl⟩ := List.mem_map.mp ht
    have h1 := hcore i
    simp only [List.length_append, length_str, String.reduceToList, List.length_cons,
      List.length_nil]
    omega
  | stat =>
    have h1 := hword ((List.finRange cpuMaxCores).foldl
      (fun sum i => sum + (k.coreSchedStats i).contextSwitches) 0)
    have h2 := length_fmtInt_le (k.wallTime - BitVec.ofNat 64 (k.systemTime.toNat / 1000))
    have h3 := hword k.processForks
    refine ⟨Nat.le_of_ble_eq_true rfl, ?_⟩
    simp only [StaticFile.generate, procfsGenStat, List.forall_mem_singleton, List.length_append,
      length_str, String.reduceToList, List.length_cons,
      List.length_nil]
    omega

/-- The length of a line of `interrupts`: a name of more than seven bytes and a count of more than
thirteen digits make it longer. -/
def irqLineLength (desc : IrqDesc) : ℕ :=
  4 + max 7 desc.nameArg.length +
    ((List.finRange cpuMaxCores).map fun i => max 13 (fmtUint 10 (desc.count i).toNat).length).sum + 1

/-- The length of `interrupts`: a heading and a line for every interrupt that has a handler. -/
def interruptsLength (k : Kernel) : ℕ :=
  64 + ((List.finRange irqMax).map fun irq => (k.irqTable irq).elim 0 irqLineLength).sum

theorem length_irqLine (irq : Fin irqMax) (desc : IrqDesc) :
    (irqLine irq desc).flatten.length = irqLineLength desc := by
  have hirq : (fmtUint 10 irq.val).length ≤ 4 := by
    rw [fmtUint, List.length_map, Nat.length_toDigits_le_iff (by decide) (by decide)]
    exact Nat.lt_trans irq.isLt (by decide)
  have hfold : (List.map List.length ((List.finRange cpuMaxCores).map fun i =>
      padTo 13 (fmtUint 10 (desc.count i).toNat))).sum = ((List.finRange cpuMaxCores).map fun i =>
      max 13 (fmtUint 10 (desc.count i).toNat).length).sum := by
    rw [List.map_map]
    simp only [Function.comp_def, length_padTo]
  rw [irqLine, irqLineLength, List.flatten_append, List.flatten_cons, List.length_append,
    List.length_append, List.length_append, length_padTo, length_padTo, List.length_flatten, hfold,
    Nat.max_eq_left hirq]
  rfl

theorem length_procfsGenInterrupts (k : Kernel) :
    (procfsGenInterrupts k).flatten.length = interruptsLength k := by
  have hlines : ((List.finRange irqMax).flatMap fun irq =>
      (k.irqTable irq).elim [] (irqLine irq.val)).flatten.length =
      ((List.finRange irqMax).map fun irq => (k.irqTable irq).elim 0 irqLineLength).sum := by
    induction List.finRange irqMax with
    | nil => rfl
    | cons irq irqs ih =>
      rw [List.flatMap_cons, List.flatten_append, List.length_append, ih, List.map_cons,
        List.sum_cons]
      congr 1
      cases k.irqTable irq with
      | none => rfl
      | some desc => exact length_irqLine irq desc
  rw [procfsGenInterrupts, List.flatten_append, List.length_append, hlines, interruptsLength]
  rfl

/-! ## Reads -/

/-- What keeps the old contents of the heap out of a file: a process has at least one region, and
the interrupts fit into their buffer. -/
def Determined (k : Kernel) : ProcFile → Prop
  | .generated .interrupts => interruptsLength k < procfsContentMax
  | .maps pid => ∀ p, k.processTable pid = some p → p.va ≠ []
  | _ => True

/-- A generated file that fits its buffer. -/
theorem procfsGeneratedRead_eq {f : StaticFile} (h : (f.generate k).flatten.length < procfsContentMax)
    (block : HeapBlock) (offset size : ℕ) :
    procfsGeneratedRead k f (some block) offset size =
      .ok (slice (fileText k (.generated f)) offset size) := by
  have hcut : (f.generate k).flatten.take (procfsContentMax - 1) = (f.generate k).flatten :=
    List.take_of_length_le (by omega)
  obtain ⟨⟨hpos, hreads⟩, -⟩ :=
    render_holds (show 0 < procfsContentMax by decide) block.mem (f.generate k)
  have hlen : (render procfsContentMax block.mem (f.generate k)).2 =
      (f.generate k).flatten.length := by
    rcases hpos with hpos | hpos
    · exact hpos
    · omega
  rw [procfsGeneratedRead, procfsAppendAll, fileText]
  rw [hcut] at hreads ⊢
  generalize render procfsContentMax block.mem (f.generate k) = b at hlen hreads ⊢
  generalize (f.generate k).flatten = t at hlen hreads ⊢
  obtain ⟨buf, len⟩ := b
  obtain rfl : len = t.length := hlen
  dsimp only
  split
  next => exact congrArg Except.ok (procfsCopyOut_eq hreads offset size)
  next hzero =>
    rw [List.eq_nil_of_length_eq_zero (Nat.eq_zero_of_not_pos hzero), slice_nil]

/-- The regions of a process that has some. -/
theorem procfsPidMapsRead_eq {pid : Fin processTableSize}
    (h : ∀ p, k.processTable pid = some p → p.va ≠ []) (block : HeapBlock) (offset size : ℕ) :
    procfsPidMapsRead k pid (some block) offset size =
      .ok (slice (fileText k (.maps pid)) offset size) := by
  unfold procfsPidMapsRead procfsAppendAll
  rw [fileText]
  cases hp : k.processTable pid with
  | none =>
    dsimp only [Option.elim]
    rw [slice_nil]
  | some p =>
    obtain ⟨-, hzero⟩ := render_holds (show 0 < 2048 by decide) block.mem (p.va.map mapsLine)
    have hreads := hzero (by simpa using h p hp)
    have hfits := block.fits
    have hlen : 0 + ((p.va.map mapsLine).flatten.take (2048 - 1)).length < block.limit := by
      rw [List.length_take]
      unfold procfsContentMax at hfits
      omega
    dsimp only [Option.elim]
    rw [strlen_eq hreads (take_no_nul (mapsLines_no_nul p.va)) hlen]
    exact congrArg Except.ok (procfsCopyOut_eq (reads_append.mp hreads).1 offset size)

theorem procfsPidStatusRead_eq (pid : Fin processTableSize) (stack : Memory) (offset size : ℕ) :
    procfsPidStatusRead k pid stack offset size =
      .ok (slice (fileText k (.status pid)) offset size) := by
  rw [procfsPidStatusRead, fileText]
  cases k.processTable pid with
  | none =>
    dsimp only [Option.elim]
    rw [slice_nil]
  | some p =>
    dsimp only [Option.elim]
    rw [writeText_copyOut (by decide) (statusText_no_nul pid p)]

theorem procfsPidCmdlineRead_eq (pid : Fin processTableSize) (stack : Memory) (offset size : ℕ) :
    procfsPidCmdlineRead k pid stack offset size =
      .ok (slice (fileText k (.cmdline pid)) offset size) := by
  rw [procfsPidCmdlineRead, fileText]
  cases k.processTable pid with
  | none =>
    dsimp only [Option.elim]
    rw [slice_nil]
  | some p =>
    dsimp only [Option.elim]
    rw [writeText_copyOut (by decide) (cmdlineText_no_nul p)]

theorem procfsPidCwdRead_eq (pid : Fin processTableSize) (stack : Memory) (offset size : ℕ) :
    procfsPidCwdRead k pid stack offset size = .ok (slice (fileText k (.cwd pid)) offset size) := by
  rw [procfsPidCwdRead, fileText]
  cases k.processTable pid with
  | none =>
    dsimp only [Option.elim]
    rw [slice_nil]
  | some p => exact vnodePathRead_eq p.cwd stack offset size

theorem procfsPidFdEntryRead_ok {info : ℕ} {stack : Memory} {r : List UInt8 × ℕ}
    (h : procfsPidFdEntryRead k info stack offset size = .ok r) :
    r = slice (fileText k (.fdEntry info)) offset size := by
  unfold procfsPidFdEntryRead at h
  show r = slice (fdEntryText k info) offset size
  unfold fdEntryText
  dsimp only at h
  split at h
  next hbounds =>
    rw [dif_pos hbounds]
    split at h
    next hnone =>
      rw [hnone]
      cases h
      exact (slice_nil offset size).symm
    next p hsome =>
      rw [hsome]
      rw [vnodePathRead_eq] at h
      cases h
      rfl
  next => cases h

/-- A generated file that does not pass `Determined` is `interrupts`. -/
theorem generate_fits {f : StaticFile} (h : Determined k (.generated f)) :
    (f.generate k).flatten.length < procfsContentMax := by
  by_cases hf : f = .interrupts
  · subst hf
    exact (length_procfsGenInterrupts k).symm ▸ h
  · obtain ⟨hcount, hshort⟩ := generate_short k hf
    have := length_flatten_le hshort
    have : (f.generate k).length * 200 ≤ 8 * 200 := Nat.mul_le_mul_right _ hcount
    unfold procfsContentMax
    omega

/-- A read returns a slice of the text of its file. -/
theorem procfsRead_ok {f : ProcFile} (h : Determined k f) {heap : Option HeapBlock} {stack : Memory}
    {r : List UInt8 × ℕ} (hr : procfsRead k f heap stack offset size = .ok r) :
    r = slice (fileText k f) offset size := by
  cases f with
  | generated f =>
    cases heap with
    | none => cases hr
    | some block =>
      rw [procfsRead, procfsGeneratedRead_eq (generate_fits h)] at hr
      exact (Except.ok.inj hr).symm
  | maps pid =>
    cases heap with
    | none => cases hr
    | some block =>
      rw [procfsRead, procfsPidMapsRead_eq h] at hr
      exact (Except.ok.inj hr).symm
  | status pid =>
    rw [procfsRead, procfsPidStatusRead_eq] at hr
    exact (Except.ok.inj hr).symm
  | cmdline pid =>
    rw [procfsRead, procfsPidCmdlineRead_eq] at hr
    exact (Except.ok.inj hr).symm
  | cwd pid =>
    rw [procfsRead, procfsPidCwdRead_eq] at hr
    exact (Except.ok.inj hr).symm
  | fdEntry info => exact procfsPidFdEntryRead_ok hr

/-- Two heaps that both have room give the same result. -/
theorem procfsRead_heap {f : ProcFile} (h : Determined k f) (block block' : HeapBlock) (stack : Memory) :
    procfsRead k f (some block) stack offset size = procfsRead k f (some block') stack offset size := by
  cases f with
  | generated f =>
    rw [procfsRead, procfsRead, procfsGeneratedRead_eq (generate_fits h),
      procfsGeneratedRead_eq (generate_fits h)]
  | maps pid => rw [procfsRead, procfsRead, procfsPidMapsRead_eq h, procfsPidMapsRead_eq h]
  | status _ | cmdline _ | cwd _ | fdEntry _ => rfl

/-! ## What goes wrong otherwise -/

/-- A heap whose buffer begins with a byte of other data. -/
def dirtyBlock : HeapBlock where
  mem k := if k = 0 then 1 else 0
  limit := procfsContentMax
  fits := Nat.le_refl _

theorem strlen_dirtyBlock : strlen dirtyBlock.mem 0 dirtyBlock.limit = 1 := by
  refine strlen_eq (t := [1]) ?_ (by decide) (by decide)
  intro k hk
  have hk : k < 2 := hk
  interval_cases k <;> rfl

/-- Without a region nothing is written, and the old byte is returned. -/
theorem maps_returns_heap {pid : Fin processTableSize} {p : Process}
    (hp : k.processTable pid = some p) (hva : p.va = []) (stack : Memory) :
    procfsRead k (.maps pid) (some dirtyBlock) stack 0 1 = .ok ([1], 1) ∧ fileText k (.maps pid) = [] := by
  refine ⟨?_, ?_⟩
  · rw [procfsRead, procfsPidMapsRead, hp]
    dsimp only
    rw [hva]
    show Except.ok (procfsCopyOut 0 1 dirtyBlock.mem (strlen dirtyBlock.mem 0 dirtyBlock.limit)) = _
    rw [strlen_dirtyBlock]
    rfl
  · rw [fileText, hp]
    show List.take (2048 - 1) (p.va.map mapsLine).flatten = []
    rw [hva]
    rfl

/-- Interrupts that do not fit make the read return more than the buffer has of them. -/
theorem interrupts_returns_more (h : procfsContentMax ≤ interruptsLength k) (stack : Memory) :
    ∃ bytes next, procfsRead k (.generated .interrupts) (some dirtyBlock) stack 0 procfsContentMax =
      .ok (bytes, next) ∧ bytes.length = procfsContentMax := by
  obtain ⟨⟨hpos, -⟩, -⟩ :=
    render_holds (show 0 < procfsContentMax by decide) dirtyBlock.mem (procfsGenInterrupts k)
  have hlen : procfsContentMax ≤ (render procfsContentMax dirtyBlock.mem (procfsGenInterrupts k)).2 := by
    rcases hpos with hpos | hpos
    · rw [hpos, length_procfsGenInterrupts]
      exact h
    · exact hpos.1
  rw [procfsRead, procfsGeneratedRead]
  dsimp only [StaticFile.generate, procfsAppendAll]
  generalize render procfsContentMax dirtyBlock.mem (procfsGenInterrupts k) = b at hlen ⊢
  have hpositive : 0 < procfsContentMax := by decide
  rw [if_pos (by omega)]
  refine ⟨_, _, rfl, ?_⟩
  unfold window
  rw [if_neg (by omega), load, List.length_map, List.length_range]
  omega

/-- Every read returns a slice of the text of the file and depends on nothing that the heap held
before, exactly if the file is `Determined`. -/
theorem procfsRead_slice_iff (k : Kernel) (f : ProcFile) :
    ((∀ heap stack offset size bytes next,
        procfsRead k f heap stack offset size = .ok (bytes, next) →
          bytes = ((fileText k f).drop offset).take size) ∧
      (∀ (block : HeapBlock) (mem stack : Memory) (offset size : ℕ),
        procfsRead k f (some { block with mem := mem }) stack offset size =
          procfsRead k f (some block) stack offset size)) ↔ Determined k f := by
  constructor
  · rintro ⟨hslice, -⟩
    cases f with
    | generated f =>
      cases f with
      | interrupts =>
        by_contra hlong
        obtain ⟨bytes, next, hread, hlen⟩ := interrupts_returns_more (Nat.le_of_not_lt hlong) fun _ => 0
        have := congrArg List.length (hslice _ _ _ _ _ _ hread)
        rw [hlen, List.drop_zero, fileText, List.length_take, List.length_take] at this
        unfold procfsContentMax at this
        omega
      | _ => exact trivial
    | maps pid =>
      intro p hp hva
      obtain ⟨hread, htext⟩ := maps_returns_heap hp hva fun _ => 0
      have := hslice _ _ _ _ _ _ hread
      rw [htext] at this
      cases this
    | _ => exact trivial
  · intro h
    refine ⟨?_, ?_⟩
    · intro heap stack offset size bytes next hread
      exact congrArg Prod.fst (procfsRead_ok h hread)
    · intro block mem stack offset size
      exact procfsRead_heap h _ _ stack

def zombiePid : Fin processTableSize := ⟨5, by decide⟩

/-- Process 5 has exited and not been waited for. -/
def zombieKernel : Kernel where
  systemTime := 0
  wallTime := 0
  totalPages := 0
  freePages := 0
  slabUsed := 0
  slabTotal := 0
  processForks := 1
  irqTable _ := none
  coreSchedStats _ := ⟨0, 0⟩
  mountTable := ⟨[], no_mounts_le⟩
  processTable pid :=
    if pid = zombiePid then
      some { name := ⟨str "sh", by decide⟩, parentPid := 1, state := .zombie, va := [],
             pendingSignals := 0, blockedSignals := 0, cwd := none, fdTable := fun _ => none }
    else none

/-- The `maps` of a zombie are whatever the heap held. -/
theorem zombie_maps_show_heap :
    procfsRead zombieKernel (.maps zombiePid) (some dirtyBlock) (fun _ => 0) 0 64 = .ok ([1], 1) ∧
      procfsRead zombieKernel (.maps zombiePid) (some { dirtyBlock with mem := fun _ => 0 }) (fun _ => 0) 0 64 =
        .ok ([], 0) ∧ fileText zombieKernel (.maps zombiePid) = [] := by
  refine ⟨?_, ?_, rfl⟩
  · show Except.ok (procfsCopyOut 0 64 dirtyBlock.mem (strlen dirtyBlock.mem 0 dirtyBlock.limit)) = _
    rw [strlen_dirtyBlock]
    rfl
  · decide +kernel

end Perspicua.Fs.Procfs
