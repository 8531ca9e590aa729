import Mathlib.Tactic.SplitIfs
import Perspicua.Core.Syscall

/-!
# What reaches the caller of a system call

`syscall_handle` takes one value of a handler, `SYSCALL_RETAIN_FRAME`, as the order to leave
the frame alone. No handler but `exec` and `sigreturn` returns it, except `lseek`: the offset
`2 ^ 63 - 1` is a legal one, and the caller of an `lseek` that goes there is left with its own
first argument.
-/

namespace Perspicua.Core.Syscall

/-! ## Results that are not the sentinel -/

theorem signExtend_ne_retainFrame (v : BitVec 32) : v.signExtend 64 ≠ retainFrame := by
  intro h
  have hv : (v.signExtend 64).toInt = v.toInt := BitVec.toInt_signExtend_of_le (by decide)
  have hlt : v.toInt < 2 ^ 31 := BitVec.toInt_lt
  have hr : retainFrame.toInt = 2 ^ 63 - 1 := by decide
  rw [h, hr] at hv
  omega

theorem zeroExtend_ne_retainFrame (v : BitVec 32) : v.zeroExtend 64 ≠ retainFrame := by
  intro h
  have hv : (v.zeroExtend 64).toNat = v.toNat := BitVec.toNat_setWidth_of_le (by decide)
  have hlt : v.toNat < 2 ^ 32 := v.isLt
  have hr : retainFrame.toNat = 2 ^ 63 - 1 := by decide
  rw [h, hr] at hv
  omega

theorem getId_ne_retainFrame (w : World) (tf : TrapFrame) (field : Process → BitVec 32) :
    getId w tf field ≠ retainFrame := by
  unfold getId
  dsimp only
  split
  · decide
  generalize (if tf.int 0 = 0 then w.pid.toInt else tf.int 0) = pid
  split
  · decide
  split
  · decide
  · split
    · exact zeroExtend_ne_retainFrame _
    · decide

theorem getppid_ne_retainFrame (w : World) : getppid w ≠ retainFrame := by
  unfold getppid
  split
  · decide
  · exact zeroExtend_ne_retainFrame _

theorem tcgetpgrp_ne_retainFrame (w : World) (tf : TrapFrame) : tcgetpgrp w tf ≠ retainFrame := by
  unfold tcgetpgrp
  dsimp only
  split
  · decide
  split
  · decide
  split
  · decide
  · exact zeroExtend_ne_retainFrame _

theorem setsid_ne_retainFrame (w : World) : (setsid w).1 ≠ retainFrame := by
  unfold setsid
  split
  · exact (by decide : err esrch ≠ retainFrame)
  split
  · exact (by decide : err esrch ≠ retainFrame)
  split
  · exact (by decide : err esrch ≠ retainFrame)
  split
  · exact (by decide : err eperm ≠ retainFrame)
  · exact zeroExtend_ne_retainFrame _

/-! ### Addresses -/

/-- A region ends below `USER_VA_LIMIT`. -/
theorem processVaAlloc_lt {va va' : List VaRegion} {pages base : BitVec 64}
    (h : processVaAlloc va pages = some (base, va')) : base ≤ userVaLimit := by
  unfold processVaAlloc at h
  dsimp only at h
  split at h
  · cases h
  split at h
  · cases h
  split at h
  · cases h
  next hfit =>
    obtain ⟨rfl, -⟩ := Prod.mk.inj (Option.some.inj h)
    rw [not_or] at hfit
    exact BitVec.le_trans (BitVec.not_lt.mp hfit.1) (BitVec.not_lt.mp hfit.2)

theorem region_ne_retainFrame {base : BitVec 64} (h : base ≤ userVaLimit) : base ≠ retainFrame := by
  rintro rfl
  exact absurd h (by decide)

theorem mmapFail_ne_retainFrame (w : World) (region : BitVec 64) {e : BitVec 64}
    (h : e ≠ retainFrame) : (mmapFail w region e).1 ≠ retainFrame := by
  unfold mmapFail
  split
  · exact h
  · exact h

theorem mmapRegion_ne_retainFrame (env : Env) (w : World) (tf : TrapFrame) (anonymous : Bool)
    {region : BitVec 64} (h : region ≠ retainFrame) :
    (mmapRegion env w tf anonymous region).1 ≠ retainFrame := by
  unfold mmapRegion
  split
  · dsimp only
    split
    · exact h
    · exact mmapFail_ne_retainFrame _ _ (by decide)
  · dsimp only
    split
    · exact mmapFail_ne_retainFrame _ _ (signExtend_ne_retainFrame _)
    · exact h

theorem mmap_ne_retainFrame (env : Env) (w : World) (tf : TrapFrame) :
    (mmap env w tf).1 ≠ retainFrame := by
  unfold mmap
  dsimp only
  split
  · exact (by decide : err einval ≠ retainFrame)
  split
  · exact (by decide : err esrch ≠ retainFrame)
  split
  · exact (by decide : err ebadf ≠ retainFrame)
  split
  · exact (by decide : err enodev ≠ retainFrame)
  split
  · exact (by decide : err enomem ≠ retainFrame)
  next hva =>
    split
    · exact (by decide : err enomem ≠ retainFrame)
    · exact mmapRegion_ne_retainFrame _ _ _ _ (region_ne_retainFrame (processVaAlloc_lt hva))

/-! ## Where `lseek` goes -/

/-- What `whence` counts from. -/
def seekBase (env : Env) (w : World) (i : ℕ) (whence : ℤ) : Option (BitVec 64) :=
  if whence = 0 then some 0
  else if whence = 1 then some (w.files i).offset
  else if whence = 2 then some (env.revalidate (w.nodes (w.files i).node))
  else none

/-- The call is an `lseek` on an open file, no directory, and the offset it names is
`2 ^ 63 - 1`. -/
def SeeksToSentinel (env : Env) (w : World) (tf : TrapFrame) : Prop :=
  (tf.x 8).toNat = 27 ∧ 0 ≤ tf.int 0 ∧ tf.int 0 < maxFds ∧
    ∃ p i base, w.processCurrent = some p ∧ p.fdTable (tf.int 0).toNat = some i ∧
      (w.nodes (w.files i).node).isDir = false ∧ seekBase env w i (tf.int 2) = some base ∧
      base + tf.x 1 = 0x7FFFFFFFFFFFFFFF#64

theorem vfsFileGet_ok_iff {w : World} {fd : ℤ} {i : ℕ} :
    vfsFileGet w fd = .ok i ↔
      0 ≤ fd ∧ fd < maxFds ∧ ∃ p, w.processCurrent = some p ∧ p.fdTable fd.toNat = some i := by
  unfold vfsFileGet
  split
  next hfd =>
    constructor
    · intro h
      cases h
    · rintro ⟨h0, h1, -⟩
      omega
  next hfd =>
    have hfd : 0 ≤ fd ∧ fd < maxFds := by omega
    cases hp : w.processCurrent with
    | none => simp
    | some p => cases hi : p.fdTable fd.toNat <;> simp [hfd, hi]

theorem vfsFileGet_error_ne {w : World} {fd : ℤ} {e : BitVec 64} (h : vfsFileGet w fd = .error e) :
    e ≠ retainFrame := by
  unfold vfsFileGet at h
  split at h
  · cases h
    decide
  split at h
  · cases h
    decide
  split at h
  · cases h
    decide
  · cases h

/-- The new offset counts from the base, and neither the file nor the kind of its node has
changed. -/
theorem newOffset_spec {env : Env} {w w' : World} {i : ℕ} {offset n : BitVec 64} {whence : ℤ} :
    newOffset env w i offset whence = some (n, w') →
      (∃ base, seekBase env w i whence = some base ∧ n = base + offset) ∧ w'.files = w.files ∧
        (w'.nodes (w.files i).node).isDir = (w.nodes (w.files i).node).isDir := by
  intro h
  unfold newOffset at h
  unfold seekBase
  dsimp only at h
  split_ifs at h ⊢ with h0 h1 h2
  · obtain ⟨rfl, rfl⟩ := Prod.mk.inj (Option.some.inj h)
    exact ⟨⟨0, rfl, (BitVec.zero_add _).symm⟩, rfl, rfl⟩
  · obtain ⟨rfl, rfl⟩ := Prod.mk.inj (Option.some.inj h)
    exact ⟨⟨_, rfl, rfl⟩, rfl, rfl⟩
  · obtain ⟨rfl, rfl⟩ := Prod.mk.inj (Option.some.inj h)
    exact ⟨⟨_, rfl, rfl⟩, rfl, by simp [World.setNode]⟩

theorem newOffset_none {env : Env} {w : World} {i : ℕ} {offset : BitVec 64} {whence : ℤ}
    (h : newOffset env w i offset whence = none) : seekBase env w i whence = none := by
  unfold newOffset at h
  unfold seekBase
  dsimp only at h
  split_ifs at h ⊢
  rfl

/-- `vfs_lseek` of an open file with a base to count from. -/
theorem vfsLseek_eq {env : Env} {w w' : World} {fd whence : ℤ} {i : ℕ} {offset n : BitVec 64}
    (hi : vfsFileGet w fd = .ok i) (hn : newOffset env w i offset whence = some (n, w')) :
    vfsLseek env w fd offset whence =
      let f := w'.files i
      if n.slt 0 then (err einval, w')
      else if (w'.nodes f.node).isDir then
        if n ≠ 0 then (err einval, w')
        else (n, w'.setFile i { f with offset := n, dirPos := ⟨0, 0, 0⟩ })
      else (n, w'.setFile i { f with offset := n }) := by
  rw [vfsLseek, hi]
  dsimp only
  rw [hn]

theorem err_einval_ne_retainFrame : err einval ≠ retainFrame := by decide

theorem vfsLseek_eq_retainFrame_iff {env : Env} {w : World} {fd whence : ℤ} {offset : BitVec 64} :
    (vfsLseek env w fd offset whence).1 = retainFrame ↔
      ∃ i base, vfsFileGet w fd = .ok i ∧ (w.nodes (w.files i).node).isDir = false ∧
        seekBase env w i whence = some base ∧ base + offset = retainFrame := by
  cases hi : vfsFileGet w fd with
  | error e =>
    have he := vfsFileGet_error_ne hi
    simp [vfsLseek, hi, he]
  | ok i =>
    cases hn : newOffset env w i offset whence with
    | none =>
      simp [vfsLseek, hi, hn, newOffset_none hn, err_einval_ne_retainFrame]
    | some r =>
      obtain ⟨n, w'⟩ := r
      obtain ⟨⟨base, hb, rfl⟩, hf, hd⟩ := newOffset_spec hn
      rw [vfsLseek_eq hi hn, hf]
      dsimp only
      rw [hd]
      have hslt : retainFrame.slt 0 = false := by decide
      have hzero : (0 : BitVec 64) ≠ retainFrame := by decide
      split_ifs with hneg hdir hz
      · simp only [err_einval_ne_retainFrame, false_iff]
        rintro ⟨j, b, hj, -, hb', hsum⟩
        cases hj
        rw [hb] at hb'
        cases hb'
        rw [hsum, hslt] at hneg
        cases hneg
      · simp only [err_einval_ne_retainFrame, false_iff]
        rintro ⟨j, b, hj, hfile, -⟩
        cases hj
        rw [hdir] at hfile
        cases hfile
      · have hz : base + offset = 0 := Classical.not_not.mp hz
        simp only [hz, hzero, false_iff]
        rintro ⟨j, b, hj, hfile, -⟩
        cases hj
        rw [hdir] at hfile
        cases hfile
      · constructor
        · intro h
          exact ⟨i, base, rfl, by simpa using hdir, hb, h⟩
        · rintro ⟨j, b, hj, -, hb', hsum⟩
          cases hj
          rw [hb] at hb'
          cases hb'
          exact hsum

/-- The offset of the file after a seek that did not fail is the result. -/
theorem vfsLseek_offset {env : Env} {w : World} {fd whence : ℤ} {offset : BitVec 64} {i : ℕ}
    (hi : vfsFileGet w fd = .ok i)
    (hok : (vfsLseek env w fd offset whence).1.slt 0 = false) :
    ((vfsLseek env w fd offset whence).2.files i).offset =
      (vfsLseek env w fd offset whence).1 := by
  have heinval : (err einval).slt 0 = true := by decide
  cases hn : newOffset env w i offset whence with
  | none =>
    rw [vfsLseek, hi] at hok
    dsimp only at hok
    rw [hn, heinval] at hok
    cases hok
  | some r =>
    obtain ⟨n, w'⟩ := r
    rw [vfsLseek_eq hi hn] at hok ⊢
    dsimp only at hok ⊢
    split_ifs at hok ⊢ with hneg hdir hz
    · rw [heinval] at hok
      cases hok
    · rw [heinval] at hok
      cases hok
    · simp [World.setFile]
    · simp [World.setFile]

theorem lseek_eq_retainFrame_iff {env : Env} {w : World} {tf : TrapFrame}
    (hnr : (tf.x 8).toNat = 27) :
    (lseek env (entered w tf) tf).1 = retainFrame ↔ SeeksToSentinel env w tf := by
  unfold lseek SeeksToSentinel
  rw [vfsLseek_eq_retainFrame_iff]
  simp only [vfsFileGet_ok_iff, hnr, true_and]
  constructor
  · rintro ⟨i, base, ⟨h0, h1, p, hp, hfd⟩, hfile, hb, hsum⟩
    exact ⟨h0, h1, p, i, base, hp, hfd, hfile, hb, hsum⟩
  · rintro ⟨h0, h1, p, i, base, hp, hfd, hfile, hb, hsum⟩
    exact ⟨i, base, ⟨h0, h1, p, hp, hfd⟩, hfile, hb, hsum⟩

/-! ## Dispatch -/

theorem syscallTable_lseek {n : ℕ} : syscallTable n = some .lseekHandler ↔ n = 27 := by
  constructor
  · intro h
    unfold syscallTable at h
    split at h <;> first | rfl | cases h
  · rintro rfl
    rfl

/-- Only `lseek` can return the sentinel where it is not meant as one. -/
theorem handler_ne_retainFrame {env : Env} {w : World} {tf : TrapFrame} {c : Call} {r : Returned}
    (hr : handler env w tf c = some r) (hs : c ≠ .sigreturnHandler)
    (hx : c = .execHandler → (env.exec w tf).1.slt 0) (hl : c ≠ .lseekHandler) :
    r.ret ≠ retainFrame := by
  cases c
  case sigreturnHandler => exact absurd rfl hs
  case lseekHandler => exact absurd rfl hl
  case exitHandler => cases hr
  case execHandler =>
    cases hr
    rw [exec]
    dsimp only
    rw [if_pos (hx rfl)]
    exact signExtend_ne_retainFrame _
  case mmapHandler => cases hr; exact mmap_ne_retainFrame env w tf
  case getpidHandler => cases hr; exact zeroExtend_ne_retainFrame _
  case getppidHandler => cases hr; exact getppid_ne_retainFrame w
  case getpgidHandler => cases hr; exact getId_ne_retainFrame w tf _
  case getsidHandler => cases hr; exact getId_ne_retainFrame w tf _
  case tcgetpgrpHandler => cases hr; exact tcgetpgrp_ne_retainFrame w tf
  case setsidHandler => cases hr; exact setsid_ne_retainFrame w
  all_goals cases hr; exact signExtend_ne_retainFrame _

/-- An `lseek` that is lost leaves the descriptor in `x0`, and no descriptor is `2 ^ 63 - 1`. -/
theorem SeeksToSentinel.x0_ne {env : Env} {w : World} {tf : TrapFrame}
    (h : SeeksToSentinel env w tf) : tf.x 0 ≠ retainFrame := by
  intro h0
  have hfd : tf.int 0 = -1 := by
    rw [TrapFrame.int, h0]
    decide
  have := h.2.1
  omega

theorem finish_eq {r : Returned} (h : r.ret ≠ retainFrame) :
    finish r = (r.tf.setX 0 r.ret, r.world) := by rw [finish, if_pos h]

/-- For every call but a successful `exec` and a `sigreturn`, the caller's `x0` holds what the
handler computed, and with it the offset a successful `lseek` set, exactly when the call is not
an `lseek` to the offset `2 ^ 63 - 1` of an open file. -/
theorem syscallHandle_x0_iff (env : Env) (w : World) (tf : TrapFrame) (c : Call) (r : Returned)
    (hp : w.processCurrent.isSome) (hc : syscallTable (tf.x 8).toNat = some c)
    (hr : handler env (entered w tf) tf c = some r) (hs : c ≠ .sigreturnHandler)
    (hx : c = .execHandler → (env.exec (entered w tf) tf).1.slt 0) :
    (∃ tf' w', syscallHandle env w tf = some (tf', w') ∧ tf'.x 0 = r.ret ∧
      (c = .lseekHandler → ∀ i, vfsFileGet w (tf.int 0) = .ok i → r.ret.slt 0 = false →
        (w'.files i).offset = tf'.x 0)) ↔
      ¬ SeeksToSentinel env w tf := by
  obtain ⟨p, hp⟩ := Option.isSome_iff_exists.mp hp
  have hcall : syscallHandle env w tf = some (finish r) := by
    rw [syscallHandle, show w.processSlot w.pid.toNat = some p from hp]
    dsimp only
    rw [hc]
    dsimp only
    rw [hr, Option.map_some]
  simp only [hcall, Option.some.injEq]
  by_cases hret : r.ret = retainFrame
  · have hl : c = .lseekHandler := by
      by_contra hl
      exact handler_ne_retainFrame hr hs hx hl hret
    subst hl
    cases hr
    have hseek := (lseek_eq_retainFrame_iff (syscallTable_lseek.mp hc)).mp hret
    refine iff_of_false ?_ (not_not_intro hseek)
    rintro ⟨tf', w', hfin, hx0, -⟩
    rw [finish, if_neg (not_not_intro hret)] at hfin
    cases hfin
    exact hseek.x0_ne (hx0.trans hret)
  · refine iff_of_true ⟨_, _, finish_eq hret, TrapFrame.setX_x_self .., ?_⟩ ?_
    · rintro rfl i hi hok
      cases hr
      rw [TrapFrame.setX_x_self]
      exact vfsLseek_offset hi hok
    · intro hseek
      have hl : c = .lseekHandler := by
        have := syscallTable_lseek.mpr hseek.1
        rw [hc] at this
        exact Option.some.inj this
      subst hl
      cases hr
      exact hret ((lseek_eq_retainFrame_iff hseek.1).mpr hseek)

/-! ## A seek that is lost -/

/-- A kernel in which every call that returns an `int` returns 0. -/
def quietEnv : Env where
  int _ w _ := (0, w)
  revalidate v := v.fileSize
  exec w tf := (0, tf, w)
  sigreturn w tf := some (tf, w)
  mapFile w _ _ := (0, w)
  mapAnonymous w _ _ := (true, w)

/-- Process 1 with one regular file of 10 bytes open as descriptor 3. -/
def oneFileOpen : World where
  pid := 1
  inSyscall := false
  syscallArg0 := 0
  processTable i := if i = 1 then some
    { pid := 1, parentPid := 0, pgid := 1, sid := 1, running := true
      fdTable := fun fd => if fd = 3 then some 0 else none
      va := [] } else none
  files _ := { node := 0, offset := 0, dirPos := ⟨0, 0, 0⟩ }
  nodes _ := { isDir := false, fileSize := 10, hasMmap := false, tty := none }
  foreground _ := 0

/-- The frame of `lseek(3, offset, SEEK_SET)`. -/
def lseekFrame (offset : BitVec 64) : TrapFrame where
  x i := if i = 0 then 3 else if i = 1 then offset else if i = 8 then 27 else 0
  spEl0 := 0
  elrEl1 := 0
  spsrEl1 := 0

/-- The seek to `2 ^ 63 - 1` sets the offset and computes it, and the caller reads 3, its own
descriptor. -/
theorem lseek_result_lost :
    (lseek quietEnv (entered oneFileOpen (lseekFrame retainFrame)) (lseekFrame retainFrame)).1 =
        retainFrame ∧
      ∃ out ∈ syscallHandle quietEnv oneFileOpen (lseekFrame retainFrame),
        out.1.x 0 = 3 ∧ (out.2.files 0).offset = retainFrame := by
  refine ⟨by decide, _, rfl, by decide, by decide⟩

/-- The seek to 4. -/
theorem syscallHandle_x0_seek_four :
    ∃ tf' w', syscallHandle quietEnv oneFileOpen (lseekFrame 4) = some (tf', w') ∧ tf'.x 0 = 4 ∧
      (w'.files 0).offset = 4 := by
  have hno : ¬ SeeksToSentinel quietEnv oneFileOpen (lseekFrame 4) := by
    rintro ⟨-, -, -, p, i, base, -, -, -, hb, hsum⟩
    have hb : some 0 = some base := hb
    cases hb
    exact absurd hsum (by decide)
  obtain ⟨tf', w', hcall, hx0, hoff⟩ :=
    (syscallHandle_x0_iff quietEnv oneFileOpen (lseekFrame 4) .lseekHandler _ rfl rfl rfl
      (by decide) (by rintro ⟨⟩)).mpr hno
  have hret : tf'.x 0 = 4 := hx0
  exact ⟨tf', w', hcall, hret, (hoff rfl 0 rfl (by decide)).trans hret⟩

end Perspicua.Core.Syscall
