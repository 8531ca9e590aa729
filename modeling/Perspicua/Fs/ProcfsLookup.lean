import Perspicua.Fs.ProcfsTheorems

/-!
# Lookups by number

The lookups of `kernel/fs/procfs.c` that read a number: a process under `/proc` and a descriptor
under a process's `fd` directory. The digits are added up in a `long` and in a `uint32_t`, and the
bound is tested after the last one, so a number is found under every number that is the same to
that many bits.
-/

namespace Perspicua.Fs.Procfs

open Perspicua.Lib

/-! ## The lookups -/

/-- `procfs_static_files[i].name` -/
def StaticFile.name : StaticFile → List UInt8
  | .version => str "version"
  | .uptime => str "uptime"
  | .meminfo => str "meminfo"
  | .interrupts => str "interrupts"
  | .schedstat => str "schedstat"
  | .mounts => str "mounts"
  | .cpuinfo => str "cpuinfo"
  | .stat => str "stat"

def procfsStaticFiles : List StaticFile :=
  [.version, .uptime, .meminfo, .interrupts, .schedstat, .mounts, .cpuinfo, .stat]

/-- The vnode that a lookup returns: the one of a generated file, or a new one with the operations
of a process's directory or of a descriptor, its number and its name. -/
inductive Found
  | generated (file : StaticFile)
  | pidDir (internalInfo : ℕ) (name : List UInt8)
  | fdEntry (internalInfo : ℕ) (name : List UInt8)
deriving DecidableEq

/-- `process_table[n]`; past the end there is nothing. -/
def Kernel.slot (k : Kernel) (n : ℕ) : Option Process :=
  if h : n < processTableSize then k.processTable ⟨n, h⟩ else none

/-- `p->fd_table[n]` -/
def Process.file (p : Process) (n : ℕ) : Option Vnode :=
  if h : n < vfsMaxFds then p.fdTable ⟨n, h⟩ else none

/-- `alloc` says whether the slab has room for the new vnode. The loop of the source leaves the
function at a byte that is no digit. -/
def procfsPidFdLookup (k : Kernel) (pid : Fin processTableSize) (alloc : Bool)
    (filename : List UInt8) : Option Found :=
  if filename = [] then none
  else
    let (fd, rest) := digitLoop 32 0 filename
    if rest ≠ [] then none
    else if vfsMaxFds ≤ fd.toNat then none
    else
      match k.processTable pid with
      | none => none
      | some p =>
        if (p.file fd.toNat).isNone then none
        else if alloc then
          some (.fdEntry (BitVec.ofNat 32 pid.val <<< 16 ||| fd).toNat (filename.take 255))
        else none

/-- `current` is what `process_current_pid` returns, if it is not negative. -/
def procfsRootLookup (k : Kernel) (current : Option ℕ) (alloc : Bool) (filename : List UInt8) :
    Option Found :=
  match procfsStaticFiles.find? fun f => filename == f.name with
  | some f => some (.generated f)
  | none =>
    if filename = str "self" then
      current.bind fun pid => if alloc then some (.pidDir pid (str "self")) else none
    else
      let pid : ℤ :=
        if (filename.head?.any isDigit) then
          let (pid, rest) := digitLoop 64 0 filename
          if rest ≠ [] then -1 else pid.toInt
        else -1
      if 0 ≤ pid ∧ pid < processTableSize then
        if (k.slot pid.toNat).isNone then none
        else if alloc then some (.pidDir pid.toNat (fmtInt pid))
        else none
      else none

/-! ## The numbers -/

/-- A name that is a number. -/
abbrev DigitString := { s : List UInt8 // s ≠ [] ∧ ∀ c ∈ s, isDigit c = true }

def DigitString.value (s : DigitString) : ℕ := digitsValue s.val

/-- The process has the descriptor open. -/
def OpenFd (k : Kernel) (pid : Fin processTableSize) (n : ℕ) : Prop :=
  ∃ p, k.processTable pid = some p ∧ (p.file n).isSome = true

theorem OpenFd.lt {k : Kernel} {pid : Fin processTableSize} {n : ℕ} (h : OpenFd k pid n) :
    n < vfsMaxFds := by
  obtain ⟨p, -, hfile⟩ := h
  unfold Process.file at hfile
  by_contra hge
  rw [dif_neg hge] at hfile
  exact absurd hfile (by decide)

/-- The slot of the process table is in use. -/
def SlotInUse (k : Kernel) (n : ℕ) : Prop := (k.slot n).isSome = true

theorem SlotInUse.lt {k : Kernel} {n : ℕ} (h : SlotInUse k n) : n < processTableSize := by
  unfold SlotInUse Kernel.slot at h
  by_contra hge
  rw [dif_neg hge] at h
  exact absurd h (by decide)

/-- The vnode stands for the descriptor: `procfs_pid_fd_entry_read` takes its number apart so. -/
def Found.IsFd (pid : Fin processTableSize) (n : ℕ) : Found → Prop
  | .fdEntry info _ => info / 2 ^ 16 % 2 ^ 16 = pid.val ∧ info % 2 ^ 16 = n
  | _ => False

/-- The vnode stands for the process. -/
def Found.IsPid (n : ℕ) : Found → Prop
  | .pidDir info _ => info = n
  | _ => False

/-- A lookup finds what has the number `v`, and nothing else. -/
def Exact (found : Option Found) (Has : ℕ → Prop) (Is : ℕ → Found → Prop) (v : ℕ) : Prop :=
  (found.isSome = true ↔ Has v) ∧ ∀ node, found = some node → Is v node

theorem digitLoop_value (w : ℕ) (s : DigitString) :
    digitLoop w 0 s.val = (BitVec.ofNat w s.value, []) := by
  have hloop := digitLoop_append w s.property.2 (nofun : ∀ c ∈ ([] : List UInt8).head?, _)
  rwa [List.append_nil] at hloop

/-- A lookup that tests the number to `w` bits is exact unless it has no memory for what it should
find, or the number is too long and is something's number to `w` bits. -/
theorem exact_iff {found : Option Found} {Has : ℕ → Prop} {Is : ℕ → Found → Prop} {alloc : Bool}
    {w v : ℕ} (hsmall : ∀ n, Has n → n < 2 ^ w)
    (hfound : found.isSome = true ↔ alloc = true ∧ Has (v % 2 ^ w))
    (his : ∀ node, found = some node → ∀ n, Is n node ↔ n = v % 2 ^ w) :
    Exact found Has Is v ↔
      (Has v → alloc = true) ∧ (2 ^ w ≤ v → alloc = true → ¬ Has (v % 2 ^ w)) := by
  unfold Exact
  rw [hfound]
  by_cases hv : v < 2 ^ w
  · rw [Nat.mod_eq_of_lt hv] at his ⊢
    constructor
    · rintro ⟨hhas, -⟩
      exact ⟨fun h => (hhas.mpr h).1, fun hge => absurd hv (Nat.not_lt.mpr hge)⟩
    · rintro ⟨halloc, -⟩
      exact ⟨⟨And.right, fun h => ⟨halloc h, h⟩⟩, fun node hnode => (his node hnode v).mpr rfl⟩
  · have hnone : ¬ Has v := fun h => hv (hsmall v h)
    constructor
    · rintro ⟨hhas, -⟩
      exact ⟨fun h => absurd h hnone, fun _ halloc h => hnone (hhas.mp ⟨halloc, h⟩)⟩
    · rintro ⟨-, hwrap⟩
      have hno : ¬ (alloc = true ∧ Has (v % 2 ^ w)) := fun h => hwrap (Nat.not_lt.mp hv) h.1 h.2
      refine ⟨iff_of_false hno hnone, ?_⟩
      intro node hnode
      exact absurd (hfound.mp (by rw [hnode]; rfl)) hno

/-! ## What the lookups find -/

variable {k : Kernel} {pid : Fin processTableSize} {alloc : Bool} {s : DigitString}

/-- The two numbers do not meet in the word. -/
theorem fdEntry_info {fd : BitVec 32} (h : fd.toNat < vfsMaxFds) :
    (BitVec.ofNat 32 pid.val <<< 16 ||| fd).toNat = pid.val * 2 ^ 16 + fd.toNat := by
  have hpid : pid.val < 128 := pid.isLt
  have hfd : fd.toNat < 2 ^ 16 := h.trans (by decide)
  rw [BitVec.toNat_or, BitVec.toNat_shiftLeft, BitVec.toNat_ofNat,
    Nat.mod_eq_of_lt (by omega : pid.val < 2 ^ 32), Nat.shiftLeft_eq,
    Nat.mod_eq_of_lt (by omega : pid.val * 2 ^ 16 < 2 ^ 32), ← Nat.shiftLeft_eq,
    Nat.shiftLeft_add_eq_or_of_lt hfd]

theorem procfsPidFdLookup_eq_some {node : Found} :
    procfsPidFdLookup k pid alloc s.val = some node ↔
      alloc = true ∧ OpenFd k pid (s.value % 2 ^ 32) ∧
        node = .fdEntry (pid.val * 2 ^ 16 + s.value % 2 ^ 32) (s.val.take 255) := by
  unfold procfsPidFdLookup
  rw [if_neg s.property.1, digitLoop_value]
  have hword : (BitVec.ofNat 32 s.value).toNat = s.value % 2 ^ 32 := BitVec.toNat_ofNat ..
  generalize BitVec.ofNat 32 s.value = fd at hword
  rw [← hword]
  dsimp only
  rw [if_neg (not_not.mpr rfl)]
  by_cases h : vfsMaxFds ≤ fd.toNat
  · rw [if_pos h]
    exact iff_of_false nofun fun hopen => absurd hopen.2.1.lt (Nat.not_lt.mpr h)
  · rw [if_neg h, fdEntry_info (Nat.not_le.mp h)]
    unfold OpenFd
    cases k.processTable pid with
    | none => simp
    | some p => cases hfile : p.file fd.toNat <;> cases alloc <;> simp [hfile, @eq_comm _ node]

/-- No file's name starts with a digit. -/
theorem find_static : (procfsStaticFiles.find? fun f => s.val == f.name) = none := by
  obtain ⟨_ | ⟨c, cs⟩, hne, hdigits⟩ := s
  · exact absurd rfl hne
  · have hc := hdigits c List.mem_cons_self
    rw [List.find?_eq_none]
    intro f _ heq
    have hhead : f.name.head? = some c := by rw [← eq_of_beq heq]; rfl
    revert hc
    cases f <;> cases hhead <;> decide

theorem procfsRootLookup_eq_some {current : Option ℕ} {node : Found} :
    procfsRootLookup k current alloc s.val = some node ↔
      alloc = true ∧ SlotInUse k (s.value % 2 ^ 64) ∧
        node = .pidDir (s.value % 2 ^ 64) (fmtInt (s.value % 2 ^ 64 : ℕ)) := by
  have hhead : s.val.head?.any isDigit = true ∧ s.val ≠ str "self" := by
    obtain ⟨_ | ⟨c, cs⟩, hne, hdigits⟩ := s
    · exact absurd rfl hne
    · refine ⟨hdigits c List.mem_cons_self, ?_⟩
      intro heq
      have hc := hdigits c List.mem_cons_self
      rw [show c = ch 's' from List.head_eq_of_cons_eq heq] at hc
      exact absurd hc (by decide)
  unfold procfsRootLookup
  rw [find_static]
  dsimp only
  rw [if_neg hhead.2, if_pos hhead.1, digitLoop_value]
  have hword : (BitVec.ofNat 64 s.value).toNat = s.value % 2 ^ 64 := BitVec.toNat_ofNat ..
  generalize BitVec.ofNat 64 s.value = word at hword
  rw [← hword]
  dsimp only
  rw [if_neg (not_not.mpr rfl)]
  by_cases h : word.toNat < processTableSize
  · -- the number is far below the sign bit
    have hint : word.toInt = (word.toNat : ℤ) := by
      have : word.toNat < 128 := h
      rw [BitVec.toInt_eq_toNat_cond, if_pos (by omega)]
    rw [hint, if_pos ⟨Int.natCast_nonneg _, Int.ofNat_lt.mpr h⟩, Int.toNat_natCast]
    unfold SlotInUse
    cases hslot : k.slot word.toNat <;> cases alloc <;> simp [@eq_comm _ node]
  · have hno : ¬ (0 ≤ word.toInt ∧ word.toInt < processTableSize) := by
      have := word.isLt
      unfold processTableSize at h ⊢
      rw [BitVec.toInt_eq_toNat_cond]
      split_ifs <;> omega
    rw [if_neg hno]
    exact iff_of_false nofun fun hused => absurd hused.2.1.lt h

/-- The lookups of a number are exact, unless there is no memory for the vnode of what has the
number, or the number is longer than the word it is added up in and something has the number that
is left of it. -/
theorem procfsLookup_exact_iff (k : Kernel) (pid : Fin processTableSize) (current : Option ℕ)
    (alloc : Bool) (s : DigitString) :
    (Exact (procfsPidFdLookup k pid alloc s.val) (OpenFd k pid) (Found.IsFd pid) s.value ↔
      (OpenFd k pid s.value → alloc = true) ∧
        (2 ^ 32 ≤ s.value → alloc = true → ¬ OpenFd k pid (s.value % 2 ^ 32))) ∧
    (Exact (procfsRootLookup k current alloc s.val) (SlotInUse k) Found.IsPid s.value ↔
      (SlotInUse k s.value → alloc = true) ∧
        (2 ^ 64 ≤ s.value → alloc = true → ¬ SlotInUse k (s.value % 2 ^ 64))) := by
  constructor
  · refine exact_iff ?_ ?_ ?_
    · exact fun n hn => hn.lt.trans (by decide)
    · rw [Option.isSome_iff_exists]
      simp only [procfsPidFdLookup_eq_some, exists_and_left, exists_eq, and_true]
    · intro node hnode n
      obtain ⟨-, hopen, rfl⟩ := procfsPidFdLookup_eq_some.mp hnode
      have hpid : pid.val < 128 := pid.isLt
      have hfd : s.value % 2 ^ 32 < 64 := hopen.lt
      show (_ = pid.val ∧ _ = n) ↔ _
      omega
  · refine exact_iff ?_ ?_ ?_
    · exact fun n hn => hn.lt.trans (by decide)
    · rw [Option.isSome_iff_exists]
      simp only [procfsRootLookup_eq_some, exists_and_left, exists_eq, and_true]
    · intro node hnode n
      obtain ⟨-, -, rfl⟩ := procfsRootLookup_eq_some.mp hnode
      exact eq_comm

/-- Process 5 has all its descriptors open. -/
def openKernel : Kernel :=
  { zombieKernel with
    processTable := fun pid => (zombieKernel.processTable pid).map fun p =>
      { p with fdTable := fun _ => some ⟨[], ⟨[], by decide⟩⟩ } }

/-- `/proc/5/fd/4294967296` is descriptor 0. -/
theorem fd_lookup_wraps :
    procfsPidFdLookup openKernel zombiePid true (str "4294967296") =
        some (.fdEntry (5 * 2 ^ 16) (str "4294967296")) ∧
      DigitString.value ⟨str "4294967296", by decide +kernel⟩ = 2 ^ 32 ∧
      ¬ OpenFd openKernel zombiePid (2 ^ 32) := by
  refine ⟨by decide +kernel, by decide +kernel, ?_⟩
  intro hopen
  exact absurd hopen.lt (by decide)

end Perspicua.Fs.Procfs
