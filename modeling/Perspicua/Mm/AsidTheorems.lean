import Perspicua.Mm.Asid

/-!
# Address spaces do not share an identifier

A core is synced when it has flushed its TLB for the current generation. On a synced core
every TLB entry belongs to the process that holds its ASID in this generation. A core that is
behind keeps the entries of the processes that ran on it, and none of them matters: it uses no
new ASID before it flushes. What carries over from one case to the other is the set of live
processes of a core, whose ASIDs its TTBR0 has, will have, or is about to have.
-/

namespace Perspicua.Mm.Asid

open Perspicua.Lib

namespace Pc

/-- The process has read, or is about to read, the ASID that `process_exec` installs. -/
@[grind]
def armed : Pc → Bool
  | .execRead | .execInstall _ => true
  | _ => false

/-- In `process_exec`, from the new `user_pgd` on. -/
@[grind]
def execs : Pc → Bool
  | .execActive | .execRead | .execInstall _ | .execField | .execFlush _ => true
  | _ => false

/-- In `process_exit`, after `user_pgd = NULL`. -/
@[grind]
def unmapped : Pc → Bool
  | .exitLeave | .exitFree => true
  | _ => false

/-- TTBR0 is what `user_pgd` and the ASID say. -/
@[grind]
def mounted : Pc → Bool
  | .user | .kernel | .execField | .execFlush _ => true
  | _ => false

/-- Neither gone nor in `process_exit`. -/
theorem present_of_mounted {pc : Pc} (h : pc.mounted = true ∨ pc.armed = true) :
    pc ≠ .gone ∧ pc ≠ .exitClear ∧ pc.unmapped = false := by
  cases pc <;> simp_all [mounted, armed, unmapped]

end Pc

/-- Translations under the ASID of the process may come from this address space. -/
@[grind]
def Proc.Spans (q : Proc) (space : ℕ) : Prop := q.pgd = some space ∨ q.stale = some space

/-- What the place of a process says about its other fields. -/
structure Proc.Ok (q : Proc) : Prop where
  running : q.running = true ↔ q.pc ≠ .gone ∧ q.pc ≠ .exitClear ∧ q.pc.unmapped = false
  mapped : q.pgd ≠ none ↔ q.pc ≠ .gone ∧ q.pc.unmapped = false
  stale : q.stale ≠ none → q.pc.execs = true ∨ q.pc.unmapped = true
  flush : ∀ a, q.pc = .execFlush a → q.stale ≠ none → a = q.asid
  gone : q.pc = .gone → q.core = none ∧ q.asid = 0

/-- What the place of the current process says about TTBR0. -/
@[grind]
def Proc.Mounted (q : Proc) (ttbr0 : Option Tagged) : Prop :=
  (q.pc.mounted = true → ∀ space, q.pgd = some space → ttbr0 = some (q.asid, space)) ∧
  (q.pc = .exitFree → ttbr0 = none)

/-- The ASID of the process is one of this generation. -/
def Proc.Current (q : Proc) (generation : ℕ) : Prop := q.generation = generation ∧ q.asid ≠ 0

namespace Core

variable (k : Core) (procs : ℕ → Proc) (p : ℕ)

/-- TTBR0 of the core names the process, will name it after the switch in progress, or will
name it after its `process_exec`. -/
def Live : Prop :=
  (k.cur = some p ∧ (k.ttbr0 ≠ none ∨ k.stage = .run ∧ (procs p).pc.armed = true)) ∨
  ∃ v, k.stage = .loaded (some p) (some v)

/-- The process of the task a core switches to. -/
def next : Option ℕ :=
  match k.stage with
  | .run => none
  | .picked n => n
  | .loaded n _ => n

end Core

/-- What holds of core `c`. -/
structure CoreOk (g : ℕ) (procs : ℕ → Proc) (c : ℕ) (k : Core) : Prop where
  generation : k.generation ≤ g
  cur : ∀ p, k.cur = some p → (procs p).core = some c
  next : ∀ p, k.next = some p → (procs p).core = some c ∧ k.cur ≠ some p
  loaded : ∀ n v, k.stage = .loaded n v → v = n.bind fun p => (procs p).ttbr0
  mounted : ∀ p, k.cur = some p → (procs p).Mounted k.ttbr0
  ttbr0 : ∀ e, k.ttbr0 = some e →
    ∃ p, k.cur = some p ∧ (procs p).asid = e.1 ∧ (procs p).Spans e.2
  liveTlb : ∀ p, k.Live procs p → ∀ e ∈ k.tlb, e.1 = (procs p).asid → (procs p).Spans e.2
  liveUniq : ∀ p r, k.Live procs p → k.Live procs r → (procs p).asid = (procs r).asid → p = r
  liveCurrent : k.generation = g → ∀ p, k.Live procs p → (procs p).Current g
  tlb : k.generation = g → ∀ e ∈ k.tlb,
    ∃ p, (procs p).Current g ∧ (procs p).asid = e.1 ∧ (procs p).Spans e.2

structure State.Inv (s : State) : Prop where
  zero : s.bitmap 0 = true
  used : ∀ p, s.Valid p → s.bitmap (s.procs p).asid = true
  uniq : ∀ p r, s.Valid p → s.Valid r → (s.procs p).asid = (s.procs r).asid → p = r
  generation : ∀ p, (s.procs p).generation ≤ s.generation
  ok : ∀ p, (s.procs p).Ok
  cores : ∀ c, CoreOk s.generation s.procs c (s.cores c)

/-! ## Reading an updated state -/

namespace State

variable (s : State) (c d p r : ℕ) (q : Proc) (k : Core)

@[simp, grind =] theorem setProc_procs : (s.setProc p q).procs r = if r = p then q else s.procs r :=
  Function.update_apply ..

@[simp, grind =] theorem setProc_cores : (s.setProc p q).cores = s.cores := rfl

@[simp, grind =] theorem setProc_generation : (s.setProc p q).generation = s.generation := rfl

@[simp, grind =] theorem setProc_bitmap : (s.setProc p q).bitmap = s.bitmap := rfl

@[simp, grind =] theorem setCore_cores : (s.setCore c k).cores d = if d = c then k else s.cores d :=
  Function.update_apply ..

@[simp, grind =] theorem setCore_procs : (s.setCore c k).procs = s.procs := rfl

@[simp, grind =] theorem setCore_generation : (s.setCore c k).generation = s.generation := rfl

@[simp, grind =] theorem setCore_bitmap : (s.setCore c k).bitmap = s.bitmap := rfl

end State

variable {s s' : State} {c d p : ℕ} {q : Proc} {k k' : Core} {procs : ℕ → Proc} {g : ℕ}

theorem Core.next_of_loaded {n : Option ℕ} {v : Option Tagged} (h : k.stage = .loaded n v) :
    k.next = n := by
  simp [Core.next, h]

theorem Core.next_of_picked {n : Option ℕ} (h : k.stage = .picked n) : k.next = n := by
  simp [Core.next, h]

theorem CoreOk.attached (h : CoreOk g procs c k) (hl : k.Live procs p) :
    (procs p).core = some c := by
  obtain ⟨hcur, -⟩ | ⟨v, hv⟩ := hl
  · exact h.cur p hcur
  · exact (h.next p (Core.next_of_loaded hv)).1

namespace State

theorem Inv.core_eq (h : s.Inv) (hp : (s.procs p).core = some c)
    (hl : (s.cores d).Live s.procs p) : d = c := by
  have := (h.cores d).attached hl
  rw [hp] at this
  exact (Option.some.inj this).symm

/-- On a synced core, the holder of a current ASID finds only its own entries under it. -/
theorem Inv.tlb_of_valid (h : s.Inv) (hc : (s.cores c).generation = s.generation)
    (hp : s.Valid p) :
    ∀ e ∈ (s.cores c).tlb, e.1 = (s.procs p).asid → (s.procs p).Spans e.2 := by
  intro e he ha
  obtain ⟨r, hr, hre, hspan⟩ := (h.cores c).tlb hc e he
  obtain rfl : r = p := h.uniq r p hr hp (hre.trans ha)
  exact hspan

theorem Inv.isolated (h : s.Inv) : s.Isolated := by
  intro c p hcur hpc
  have hmap : (s.procs p).pgd ≠ none := (h.ok p).mapped.mpr (by simp [hpc, Pc.unmapped])
  obtain ⟨space, hpgd⟩ := Option.ne_none_iff_exists'.mp hmap
  have ht := ((h.cores c).mounted p hcur).1 (by rw [hpc]; rfl) space hpgd
  refine ⟨(s.procs p).asid, space, ht, hpgd, ?_⟩
  intro e he ha
  have hlive : (s.cores c).Live s.procs p := .inl ⟨hcur, .inl (by simp [ht])⟩
  have hstale : (s.procs p).stale = none := by
    by_contra hne
    have := (h.ok p).stale hne
    simp [hpc, Pc.execs, Pc.unmapped] at this
  have hspan := (h.cores c).liveTlb p hlive e he ha
  simpa [Proc.Spans, hpgd, hstale, eq_comm] using hspan

theorem boot_inv : boot.Inv where
  zero := rfl
  used p h := absurd rfl h.2
  uniq p q h := absurd rfl h.2
  generation p := Nat.zero_le _
  ok p := by constructor <;> simp [boot]
  cores c := by constructor <;> simp [boot, Core.Live, Core.next]

/-! ## Changes of one record -/

theorem Inv.setCore (h : s.Inv) (hk : CoreOk s.generation s.procs c k) : (s.setCore c k).Inv where
  zero := h.zero
  used := h.used
  uniq := h.uniq
  generation := h.generation
  ok := h.ok
  cores d := by
    rw [setCore_cores]
    split
    · subst d
      exact hk
    · exact h.cores d

/-- A process that keeps its ASID changes its own record: it may forget an address space only
if no translation of it is left. -/
theorem Inv.setProc (h : s.Inv) (hasid : q.asid = (s.procs p).asid)
    (hgen : q.generation = (s.procs p).generation)
    (hcore : q.core = (s.procs p).core ∨ ∀ d, (s.cores d).cur ≠ some p)
    (hok : q.Ok) (hrun : ∀ d, (s.cores d).next ≠ some p)
    (harm : q.pc.armed = true → ∀ d, (s.cores d).cur = some p → (s.cores d).stage = .run →
      (s.cores d).Live s.procs p ∨ (s.cores d).generation = s.generation ∧ s.Valid p)
    (hmount : ∀ d, (s.cores d).cur = some p → q.Mounted (s.cores d).ttbr0)
    (hspans : ∀ space, (s.procs p).Spans space → q.Spans space ∨
      (∀ d, ((s.procs p).asid, space) ∉ (s.cores d).tlb) ∧
      ∀ d, (s.cores d).cur = some p → (s.cores d).ttbr0 ≠ some ((s.procs p).asid, space)) :
    (s.setProc p q).Inv := by
  have hvalid : ∀ r, (s.setProc p q).Valid r ↔ s.Valid r := by
    intro r
    unfold Valid
    grind -ring -linarith
  have hasid' : ∀ r, ((s.setProc p q).procs r).asid = (s.procs r).asid := by grind -ring -linarith
  have hlive : ∀ d r, (s.cores d).Live (s.setProc p q).procs r → (s.cores d).Live s.procs r ∨
      r = p ∧ (s.cores d).generation = s.generation ∧ s.Valid p := by
    intro d r hl
    by_cases hrp : r = p
    · subst hrp
      unfold Core.Live at hl
      grind -ring -linarith [Core.Live]
    · left
      simpa [Core.Live, hrp] using hl
  have hspans' : ∀ r e, (s.procs r).Spans e → (∃ d, ((s.procs r).asid, e) ∈ (s.cores d).tlb ∨
      (s.cores d).cur = some r ∧ (s.cores d).ttbr0 = some ((s.procs r).asid, e)) →
      ((s.setProc p q).procs r).Spans e := by
    intro r e hr hd
    rw [setProc_procs]
    split
    · subst r
      grind -ring -linarith
    · exact hr
  exact {
    zero := h.zero
    used := by
      intro r hr
      rw [hasid']
      exact h.used r ((hvalid r).mp hr)
    uniq := by
      intro r t hr ht ha
      rw [hasid', hasid'] at ha
      exact h.uniq r t ((hvalid r).mp hr) ((hvalid t).mp ht) ha
    generation := by
      intro r
      have := h.generation r
      grind -ring -linarith
    ok := by
      intro r
      have := h.ok r
      grind -ring -linarith
    cores := fun d => {
      generation := (h.cores d).generation
      cur := by
        intro r hr
        have hc := (h.cores d).cur r hr
        rw [setProc_procs]
        split
        · subst r
          exact (hcore.resolve_right fun hne => hne d hr).trans hc
        · exact hc
      next := by
        intro r hr
        have := (h.cores d).next r hr
        grind -ring -linarith
      loaded := by
        intro n v hv
        rw [(h.cores d).loaded n v hv]
        cases n with
        | none => rfl
        | some r =>
          have hrp : r ≠ p := by
            rintro rfl
            exact hrun d (Core.next_of_loaded hv)
          simp [hrp]
      mounted := by
        intro r hr
        rw [setProc_procs]
        split
        · subst r
          exact hmount d hr
        · exact (h.cores d).mounted r hr
      ttbr0 := by
        intro e ht
        obtain ⟨r, hr, ha, hs⟩ := (h.cores d).ttbr0 e ht
        exact ⟨r, hr, (hasid' r).trans ha, hspans' r e.2 hs ⟨d, .inr ⟨hr, ha ▸ ht⟩⟩⟩
      liveTlb := by
        intro r hl e he ha
        rw [hasid'] at ha
        have hs : (s.procs r).Spans e.2 := by
          obtain hl' | ⟨rfl, hd, hr⟩ := hlive d r hl
          · exact (h.cores d).liveTlb r hl' e he ha
          · exact h.tlb_of_valid hd hr e he ha
        exact hspans' r e.2 hs ⟨d, .inl (ha ▸ he)⟩
      liveUniq := by
        intro r t hr ht ha
        rw [hasid', hasid'] at ha
        obtain hr' | ⟨rfl, hd, hv⟩ := hlive d r hr
        · obtain ht' | ⟨rfl, hd, hv⟩ := hlive d t ht
          · exact (h.cores d).liveUniq r t hr' ht' ha
          · exact h.uniq r t ((h.cores d).liveCurrent hd r hr') hv ha
        · obtain ht' | ⟨rfl, -, -⟩ := hlive d t ht
          · exact h.uniq r t hv ((h.cores d).liveCurrent hd t ht') ha
          · rfl
      liveCurrent := by
        intro hd r hl
        obtain hl' | ⟨rfl, -, hv⟩ := hlive d r hl
        · exact (hvalid r).mpr ((h.cores d).liveCurrent hd r hl')
        · exact (hvalid r).mpr hv
      tlb := by
        intro hd e he
        obtain ⟨r, hr, ha, hs⟩ := (h.cores d).tlb hd e he
        exact ⟨r, (hvalid r).mpr hr, (hasid' r).trans ha,
          hspans' r e.2 hs ⟨d, .inl (ha ▸ he)⟩⟩ } }

/-! ## The allocator -/

/-- Invalidations keep the invariant. -/
theorem Inv.invalidate {f : ℕ → List Tagged} (h : s.Inv) (hf : ∀ d, f d ⊆ (s.cores d).tlb) :
    Inv { s with cores := fun d => { s.cores d with tlb := f d } } :=
  { h with
    cores := fun d =>
      { h.cores d with
        liveTlb := fun r hl e he => (h.cores d).liveTlb r hl e (hf d he)
        tlb := fun hd e he => (h.cores d).tlb hd e (hf d he) } }

theorem Inv.flushAsid (h : s.Inv) (a : ℕ) : (s.flushAsid a).Inv :=
  h.invalidate fun _ => List.filter_subset_self _

/-- A core flushes for the current generation while no process is live on it. -/
theorem Inv.sync (h : s.Inv)
    (hidle : (s.cores c).generation ≠ s.generation → ∀ r, ¬ (s.cores c).Live s.procs r) :
    (s.sync c).Inv := by
  unfold State.sync
  by_cases hc : (s.cores c).generation = s.generation
  · rw [if_pos hc]
    exact h
  · rw [if_neg hc]
    apply h.setCore
    exact { h.cores c with
      generation := Nat.le_refl _
      liveTlb := fun r hl => absurd hl (hidle hc r)
      liveUniq := fun r t hl => absurd hl (hidle hc r)
      liveCurrent := fun _ r hl => absurd hl (hidle hc r)
      tlb := fun _ e he => by cases he }

/-- In a new generation no ASID is valid, and no core but the one that starts it is synced. -/
theorem Inv.rollover (h : s.Inv) (hidle : ∀ r, ¬ (s.cores c).Live s.procs r)
    (hwrap : s.generation + 1 < 2 ^ 64) : (s.rollover c).Inv ∧ ∀ r, ¬ (s.rollover c).Valid r := by
  have hgen : (s.rollover c).generation = s.generation + 1 := Nat.mod_eq_of_lt hwrap
  have hinvalid : ∀ r, ¬ (s.rollover c).Valid r := by
    intro r hr
    have h1 := h.generation r
    have h2 : (s.procs r).generation = (s.rollover c).generation := hr.1
    omega
  have hcores : ∀ d, ((s.rollover c).cores d).generation =
      if d = c then (s.rollover c).generation else (s.cores d).generation := fun d => rfl
  have hsynced : ∀ d, ((s.rollover c).cores d).generation = (s.rollover c).generation → d = c := by
    intro d hd
    by_contra hdc
    have := (h.cores d).generation
    rw [hcores, if_neg hdc] at hd
    omega
  refine ⟨?_, hinvalid⟩
  exact {
    zero := by simp [State.rollover, h.zero]
    used := fun r hr => absurd hr (hinvalid r)
    uniq := fun r _ hr => absurd hr (hinvalid r)
    generation := fun r => by
      have h1 : (s.procs r).generation ≤ s.generation := h.generation r
      show (s.procs r).generation ≤ _
      omega
    ok := h.ok
    cores := fun d =>
      { h.cores d with
        generation := by
          have := (h.cores d).generation
          rw [hcores]
          split <;> omega
        liveTlb := fun r _ e he => by cases he
        liveCurrent := by
          intro hd r hl
          obtain rfl := hsynced d hd
          exact absurd hl (hidle r)
        tlb := fun _ e he => by cases he } }

/-- A process that is live on no core takes a free ASID. -/
theorem Inv.grant {a : ℕ} (h : s.Inv) (hfree : s.bitmap a = false) (hinvalid : ¬ s.Valid p)
    (hpresent : (s.procs p).pc ≠ .gone)
    (hidle : ∀ d, ¬ (s.cores d).Live s.procs p)
    (hnot : ∀ d v, (s.cores d).stage ≠ .loaded (some p) v) :
    (s.grant p a).Inv ∧ (s.grant p a).Valid p := by
  have hne : a ≠ 0 := by
    rintro rfl
    rw [h.zero] at hfree
    cases hfree
  have hprocs : ∀ r, r ≠ p → (s.grant p a).procs r = s.procs r := by
    intro r hr
    simp [State.grant, hr]
  have hself : (s.grant p a).procs p =
      { s.procs p with asid := a, generation := s.generation, stale := none } := by
    simp [State.grant]
  have hvalid : ∀ r, r ≠ p → ((s.grant p a).Valid r ↔ s.Valid r) := by
    intro r hr
    unfold Valid
    rw [hprocs r hr]
    rfl
  have hpc : ∀ r, ((s.grant p a).procs r).pc = (s.procs r).pc := by
    intro r
    by_cases hr : r = p
    · rw [hr, hself]
    · rw [hprocs r hr]
  have hcore : ∀ r, ((s.grant p a).procs r).core = (s.procs r).core := by
    intro r
    by_cases hr : r = p
    · rw [hr, hself]
    · rw [hprocs r hr]
  have hlive : ∀ d r, (s.cores d).Live (s.grant p a).procs r →
      (s.cores d).Live s.procs r ∧ r ≠ p := by
    intro d r hl
    have hl' : (s.cores d).Live s.procs r := by
      unfold Core.Live at hl ⊢
      rwa [hpc] at hl
    exact ⟨hl', by rintro rfl; exact hidle d hl'⟩
  -- nobody else has the new ASID
  have hfresh : ∀ r, s.Valid r → (s.procs r).asid ≠ a := by
    rintro r hr rfl
    rw [h.used r hr] at hfree
    cases hfree
  have hpvalid : (s.grant p a).Valid p := by
    unfold Valid
    rw [hself]
    exact ⟨rfl, hne⟩
  refine ⟨?_, hpvalid⟩
  exact {
    zero := by
      show Function.update s.bitmap a true 0 = true
      simp [Function.update_apply, h.zero]
    used := by
      intro r hr
      show Function.update s.bitmap a true _ = true
      by_cases hrp : r = p
      · subst hrp
        rw [hself]
        simp
      · rw [hprocs r hrp, Function.update_of_ne (hfresh r ((hvalid r hrp).mp hr))]
        exact h.used r ((hvalid r hrp).mp hr)
    uniq := by
      intro r t hr ht ha
      by_cases hrp : r = p <;> by_cases htp : t = p
      · rw [hrp, htp]
      · subst hrp
        rw [hself, hprocs t htp] at ha
        exact absurd ha.symm (hfresh t ((hvalid t htp).mp ht))
      · subst htp
        rw [hself, hprocs r hrp] at ha
        exact absurd ha (hfresh r ((hvalid r hrp).mp hr))
      · rw [hprocs r hrp, hprocs t htp] at ha
        exact h.uniq r t ((hvalid r hrp).mp hr) ((hvalid t htp).mp ht) ha
    generation := by
      intro r
      by_cases hrp : r = p
      · subst hrp
        rw [hself]
        exact Nat.le_refl _
      · rw [hprocs r hrp]
        exact h.generation r
    ok := by
      intro r
      by_cases hrp : r = p
      · subst hrp
        rw [hself]
        exact { h.ok r with
          stale := fun hs => absurd rfl hs
          flush := fun _ _ hs => absurd rfl hs
          gone := fun hg => absurd hg hpresent }
      · rw [hprocs r hrp]
        exact h.ok r
    cores := fun d => {
      generation := (h.cores d).generation
      cur := by
        intro r hr
        rw [hcore]
        exact (h.cores d).cur r hr
      next := by
        intro r hr
        rw [hcore]
        exact (h.cores d).next r hr
      loaded := by
        intro n v hv
        rw [(h.cores d).loaded n v hv]
        cases n with
        | none => rfl
        | some r =>
          have hrp : r ≠ p := by
            rintro rfl
            exact hnot d v hv
          simp [hprocs r hrp]
      mounted := by
        intro r hr
        have hm := (h.cores d).mounted r hr
        by_cases hrp : r = p
        · -- a process that is mounted is live
          subst hrp
          rw [hself]
          refine ⟨fun hmt space hpgd => ?_, hm.2⟩
          have ht := hm.1 hmt space hpgd
          exact absurd (.inl ⟨hr, .inl (by simp [ht])⟩) (hidle d)
        · rw [hprocs r hrp]
          exact hm
      ttbr0 := by
        intro e ht
        obtain ⟨r, hr, hx, hs⟩ := (h.cores d).ttbr0 e ht
        have hrp : r ≠ p := by
          rintro rfl
          exact hidle d (.inl ⟨hr, .inl (by simp [show (s.cores d).ttbr0 = _ from ht])⟩)
        exact ⟨r, hr, by rw [hprocs r hrp]; exact ⟨hx, hs⟩⟩
      liveTlb := by
        intro r hl e he
        obtain ⟨hl', hrp⟩ := hlive d r hl
        rw [hprocs r hrp]
        exact (h.cores d).liveTlb r hl' e he
      liveUniq := by
        intro r t hr ht
        obtain ⟨hr', hrp⟩ := hlive d r hr
        obtain ⟨ht', htp⟩ := hlive d t ht
        rw [hprocs r hrp, hprocs t htp]
        exact (h.cores d).liveUniq r t hr' ht'
      liveCurrent := by
        intro hd r hl
        obtain ⟨hl', hrp⟩ := hlive d r hl
        exact (hvalid r hrp).mpr ((h.cores d).liveCurrent hd r hl')
      tlb := by
        intro hd e he
        obtain ⟨r, hr, ha, hs⟩ := (h.cores d).tlb hd e he
        have hrp : r ≠ p := by
          rintro rfl
          exact hinvalid hr
        exact ⟨r, (hvalid r hrp).mpr hr, by rw [hprocs r hrp]; exact ⟨ha, hs⟩⟩ } }

/-- The fields that the allocator does not touch. -/
structure Frame (s s' : State) : Prop where
  cur : ∀ d, (s'.cores d).cur = (s.cores d).cur
  ttbr0 : ∀ d, (s'.cores d).ttbr0 = (s.cores d).ttbr0
  stage : ∀ d, (s'.cores d).stage = (s.cores d).stage
  pc : ∀ r, (s'.procs r).pc = (s.procs r).pc
  pgd : ∀ r, (s'.procs r).pgd = (s.procs r).pgd
  running : ∀ r, (s'.procs r).running = (s.procs r).running
  core : ∀ r, (s'.procs r).core = (s.procs r).core

theorem Frame.trans {s'' : State} (h : Frame s s') (h' : Frame s' s'') : Frame s s'' where
  cur d := (h'.cur d).trans (h.cur d)
  ttbr0 d := (h'.ttbr0 d).trans (h.ttbr0 d)
  stage d := (h'.stage d).trans (h.stage d)
  pc r := (h'.pc r).trans (h.pc r)
  pgd r := (h'.pgd r).trans (h.pgd r)
  running r := (h'.running r).trans (h.running r)
  core r := (h'.core r).trans (h.core r)

theorem frame_sync : Frame s (s.sync c) := by
  unfold State.sync
  split
  · constructor <;> simp
  · constructor <;> grind -ring -linarith

theorem frame_grant {a : ℕ} : Frame s (s.grant p a) := by
  unfold State.grant
  constructor <;> grind -ring -linarith

theorem frame_rollover : Frame s (s.rollover c) := by
  constructor <;> exact fun _ => rfl

theorem Frame.live (h : Frame s s') {r : ℕ} (hl : (s'.cores d).Live s'.procs r) :
    (s.cores d).Live s.procs r := by
  simpa only [Core.Live, h.cur, h.ttbr0, h.stage, h.pc] using hl

theorem generation_sync : ((s.sync c).cores c).generation = (s.sync c).generation := by
  unfold State.sync
  split
  · assumption
  · simp

theorem getFreeAsid_some {bitmap : ℕ → Bool} {a : ℕ} (h : getFreeAsid bitmap = some a) :
    bitmap a = false := by
  simpa using List.find?_some h

theorem getFreeAsid_rollover :
    ∃ a, getFreeAsid (s.rollover c).bitmap = some a := by
  apply Option.isSome_iff_exists.mp
  rw [getFreeAsid, List.find?_isSome]
  exact ⟨1, by simp [poolSize], by simp [State.rollover]⟩

/-- `asid_get_active` for a process that the core runs or is about to run. -/
theorem Inv.asidGetActive (h : s.Inv) (hcore : (s.procs p).core = some c)
    (hidle : (s.cores c).generation ≠ s.generation ∨ s.RollsOver p →
      ∀ r, ¬ (s.cores c).Live s.procs r)
    (hnot : ∀ v, (s.cores c).stage ≠ .loaded (some p) v)
    (hwrap : s.RollsOver p → s.generation + 1 < 2 ^ 64) :
    (s.asidGetActive c p).Inv ∧ (s.asidGetActive c p).Valid p ∧
      ((s.asidGetActive c p).cores c).generation = (s.asidGetActive c p).generation ∧
      Frame s (s.asidGetActive c p) := by
  have h1 : (s.sync c).Inv := h.sync fun hc => hidle (.inl hc)
  have hf1 : Frame s (s.sync c) := frame_sync
  have hsync : (s.sync c).procs = s.procs ∧ (s.sync c).generation = s.generation ∧
      (s.sync c).bitmap = s.bitmap := by
    unfold State.sync
    split <;> exact ⟨rfl, rfl, rfl⟩
  have hvalid : (s.sync c).Valid p ↔ s.Valid p := by
    unfold Valid
    rw [hsync.1, hsync.2.1]
  have hnot' : ∀ {t}, Frame s t → ∀ d v, (t.cores d).stage ≠ .loaded (some p) v := by
    intro t hft d v hv
    rw [hft.stage] at hv
    obtain rfl : d = c := by
      have := ((h.cores d).next p (Core.next_of_loaded hv)).1
      rw [hcore] at this
      exact (Option.some.inj this).symm
    exact hnot v hv
  have hpresent : (s.procs p).pc ≠ .gone := by
    intro hg
    rw [((h.ok p).gone hg).1] at hcore
    cases hcore
  unfold State.asidGetActive
  by_cases hv : s.Valid p
  · rw [if_pos (hvalid.mpr hv)]
    exact ⟨h1, hvalid.mpr hv, generation_sync, hf1⟩
  rw [if_neg (mt hvalid.mp hv)]
  -- the process has no valid ASID, so it is live nowhere
  have hdead : ∀ d, ¬ ((s.sync c).cores d).Live (s.sync c).procs p := by
    intro d hl
    obtain rfl : d = c := h.core_eq hcore (hf1.live hl)
    exact hv (hvalid.mp ((h1.cores d).liveCurrent generation_sync p hl))
  cases hfree : getFreeAsid (s.sync c).bitmap with
  | some a =>
    obtain ⟨h2, hp⟩ := h1.grant (getFreeAsid_some hfree) (mt hvalid.mp hv)
      (by rwa [hf1.pc]) hdead (hnot' hf1)
    exact ⟨h2, hp, generation_sync (s := s), hf1.trans frame_grant⟩
  | none =>
    have hroll : s.RollsOver p := ⟨hv, hsync.2.2 ▸ hfree⟩
    have hwrap' : (s.sync c).generation + 1 < 2 ^ 64 := by
      rw [hsync.2.1]
      exact hwrap hroll
    obtain ⟨h2, hinvalid⟩ :=
      h1.rollover (c := c) (fun r hl => hidle (.inr hroll) r (hf1.live hl)) hwrap'
    have hf2 : Frame s ((s.sync c).rollover c) := hf1.trans frame_rollover
    obtain ⟨a, ha⟩ := getFreeAsid_rollover (s := s.sync c) (c := c)
    obtain ⟨h3, hp⟩ := h2.grant (getFreeAsid_some ha) (hinvalid p) (by rwa [hf2.pc])
      (fun d hl => hdead d (frame_rollover.live hl)) (hnot' hf2)
    simp only [ha, Option.getD_some]
    refine ⟨h3, hp, ?_, hf2.trans frame_grant⟩
    show (if c = c then _ else _) = _
    rw [if_pos rfl]
    rfl

/-! ## Changes of a core -/

/-- TTBR0 changes while the core runs its current process. -/
theorem Inv.setTtbr0 {v : Option Tagged} (h : s.Inv) (hcur : (s.cores c).cur = some p)
    (hv : ∀ e, v = some e → (s.cores c).Live s.procs p ∧ (s.procs p).asid = e.1 ∧
      (s.procs p).Spans e.2)
    (hm : (s.procs p).Mounted v) : (s.setCore c { s.cores c with ttbr0 := v }).Inv := by
  have hlive : ∀ r, Core.Live { s.cores c with ttbr0 := v } s.procs r →
      (s.cores c).Live s.procs r := by
    intro r hl
    cases v with
    | none =>
      unfold Core.Live at hl ⊢
      grind -ring -linarith
    | some e =>
      have := (hv e rfl).1
      unfold Core.Live at hl this ⊢
      grind -ring -linarith
  apply h.setCore
  exact { h.cores c with
    mounted := by
      intro r hr
      obtain rfl : p = r := Option.some.inj (hcur.symm.trans hr)
      exact hm
    ttbr0 := fun e ht => ⟨p, hcur, (hv e ht).2⟩
    liveTlb := fun r hl => (h.cores c).liveTlb r (hlive r hl)
    liveUniq := fun r t hr ht => (h.cores c).liveUniq r t (hlive r hr) (hlive t ht)
    liveCurrent := fun hd r hl => (h.cores c).liveCurrent hd r (hlive r hl) }

/-- The TLB gains an entry: its process is the live one that TTBR0 names. -/
theorem Inv.fill {v : Tagged} (h : s.Inv) (hv : (s.cores c).ttbr0 = some v) :
    (s.setCore c { s.cores c with tlb := v :: (s.cores c).tlb }).Inv := by
  obtain ⟨p, hcur, ha, hspan⟩ := (h.cores c).ttbr0 v hv
  have hp : (s.cores c).Live s.procs p := .inl ⟨hcur, .inl (by simp [hv])⟩
  apply h.setCore
  exact { h.cores c with
    liveTlb := by
      intro r hl e he hea
      obtain rfl | he := List.mem_cons.mp he
      · obtain rfl := (h.cores c).liveUniq r p hl hp (hea.symm.trans ha.symm)
        exact hspan
      · exact (h.cores c).liveTlb r hl e he hea
    tlb := by
      intro hd e he
      obtain rfl | he := List.mem_cons.mp he
      · exact ⟨p, (h.cores c).liveCurrent hd p hp, ha, hspan⟩
      · exact (h.cores c).tlb hd e he }

/-- A process that no TTBR0 will name and whose translations are gone gives up its ASID. -/
theorem Inv.retire (h : s.Inv) (hasid : q.asid = 0) (hgen : q.generation = 0) (hok : q.Ok)
    (hcur : ∀ d, (s.cores d).cur = some p → (s.cores d).ttbr0 = none ∧ q.core = some d ∧
      q.Mounted none ∧ q.pc.armed = false)
    (hnext : ∀ d, (s.cores d).next ≠ some p)
    (htlb : s.Valid p → ∀ d, ∀ e ∈ (s.cores d).tlb, e.1 ≠ (s.procs p).asid) :
    (s.setProc p q).Inv := by
  have hprocs : ∀ r, r ≠ p → (s.setProc p q).procs r = s.procs r := by
    intro r hr
    simp [hr]
  have hne : ∀ r, (s.setProc p q).Valid r → r ≠ p := by
    rintro r hr rfl
    simp [Valid, hasid] at hr
  have hvalid : ∀ r, r ≠ p → ((s.setProc p q).Valid r ↔ s.Valid r) := by
    intro r hr
    simp [Valid, hr]
  have hlive : ∀ d r, (s.cores d).Live (s.setProc p q).procs r →
      (s.cores d).Live s.procs r ∧ r ≠ p := by
    intro d r hl
    have hrp : r ≠ p := by
      rintro rfl
      obtain ⟨hc, ht | ⟨-, ha⟩⟩ | ⟨v, hv⟩ := hl
      · exact ht (hcur d hc).1
      · rw [setProc_procs, if_pos rfl, (hcur d hc).2.2.2] at ha
        cases ha
      · exact hnext d (Core.next_of_loaded hv)
    exact ⟨by simpa [Core.Live, hrp] using hl, hrp⟩
  exact {
    zero := h.zero
    used := by
      intro r hr
      rw [hprocs r (hne r hr)]
      exact h.used r ((hvalid r (hne r hr)).mp hr)
    uniq := by
      intro r t hr ht
      rw [hprocs r (hne r hr), hprocs t (hne t ht)]
      exact h.uniq r t ((hvalid r (hne r hr)).mp hr) ((hvalid t (hne t ht)).mp ht)
    generation := by
      intro r
      have := h.generation r
      grind -ring -linarith
    ok := by
      intro r
      have := h.ok r
      grind -ring -linarith
    cores := fun d => {
      generation := (h.cores d).generation
      cur := by
        intro r hr
        rw [setProc_procs]
        split
        · subst r
          exact (hcur d hr).2.1
        · exact (h.cores d).cur r hr
      next := by
        intro r hr
        have hrp : r ≠ p := by
          rintro rfl
          exact hnext d hr
        rw [hprocs r hrp]
        exact (h.cores d).next r hr
      loaded := by
        intro n v hv
        rw [(h.cores d).loaded n v hv]
        cases n with
        | none => rfl
        | some r =>
          have hrp : r ≠ p := by
            rintro rfl
            exact hnext d (Core.next_of_loaded hv)
          simp [hrp]
      mounted := by
        intro r hr
        rw [setProc_procs]
        split
        · subst r
          have hq := hcur d hr
          rw [show ((s.setProc p q).cores d).ttbr0 = none from hq.1]
          exact hq.2.2.1
        · exact (h.cores d).mounted r hr
      ttbr0 := by
        intro e ht
        obtain ⟨r, hr, hrest⟩ := (h.cores d).ttbr0 e ht
        have hrp : r ≠ p := by
          rintro rfl
          cases (hcur d hr).1.symm.trans ht
        exact ⟨r, hr, by rwa [hprocs r hrp]⟩
      liveTlb := by
        intro r hl e he
        obtain ⟨hl', hrp⟩ := hlive d r hl
        rw [hprocs r hrp]
        exact (h.cores d).liveTlb r hl' e he
      liveUniq := by
        intro r t hr ht
        obtain ⟨hr', hrp⟩ := hlive d r hr
        obtain ⟨ht', htp⟩ := hlive d t ht
        rw [hprocs r hrp, hprocs t htp]
        exact (h.cores d).liveUniq r t hr' ht'
      liveCurrent := by
        intro hd r hl
        obtain ⟨hl', hrp⟩ := hlive d r hl
        exact (hvalid r hrp).mpr ((h.cores d).liveCurrent hd r hl')
      tlb := by
        intro hd e he
        obtain ⟨r, hr, ha, hs⟩ := (h.cores d).tlb hd e he
        have hrp : r ≠ p := by
          rintro rfl
          exact htlb hr d e he ha.symm
        exact ⟨r, (hvalid r hrp).mpr hr, by rw [hprocs r hrp]; exact ⟨ha, hs⟩⟩ } }

/-! ## The steps of a process -/

/-- Core `c` executes process `p`. -/
structure Runs (s : State) (c p : ℕ) : Prop where
  core : (s.procs p).core = some c
  cur : (s.cores c).cur = some p
  stage : (s.cores c).stage = .run

theorem runs_of_executor (h : s.executor p = some c) : s.Runs c p := by
  obtain ⟨hc, hr⟩ := Option.filter_eq_some_iff.mp h
  obtain ⟨hcur, hstage⟩ := of_decide_eq_true hr
  exact ⟨hc, hcur, hstage⟩

theorem exists_runs (h : s.executor p ≠ none) : ∃ c, s.Runs c p := by
  obtain ⟨c, hc⟩ := Option.ne_none_iff_exists'.mp h
  exact ⟨c, runs_of_executor hc⟩

theorem Runs.next_ne (hr : s.Runs c p) (h : s.Inv) : (s.cores d).next ≠ some p := by
  intro hn
  obtain rfl : d = c := by
    have := ((h.cores d).next p hn).1
    rw [hr.core] at this
    exact (Option.some.inj this).symm
  simp [Core.next, hr.stage] at hn

theorem Runs.cur_eq (hr : s.Runs c p) (h : s.Inv) (hd : (s.cores d).cur = some p) : d = c := by
  have := (h.cores d).cur p hd
  rw [hr.core] at this
  exact (Option.some.inj this).symm

/-- The running process changes its own record and forgets no address space. -/
theorem Inv.runProc (h : s.Inv) (hr : s.Runs c p) (hasid : q.asid = (s.procs p).asid)
    (hgen : q.generation = (s.procs p).generation) (hcore : q.core = (s.procs p).core)
    (hok : q.Ok) (harm : q.pc.armed = true → (s.cores c).Live s.procs p ∨
      (s.cores c).generation = s.generation ∧ s.Valid p)
    (hmount : q.Mounted (s.cores c).ttbr0)
    (hspans : ∀ space, (s.procs p).Spans space → q.Spans space) : (s.setProc p q).Inv := by
  apply h.setProc hasid hgen (.inl hcore) hok
  · exact fun d => hr.next_ne h
  · intro ha d hd _
    obtain rfl := hr.cur_eq h hd
    exact harm ha
  · intro d hd
    obtain rfl := hr.cur_eq h hd
    exact hmount
  · exact fun space hs => .inl (hspans space hs)

theorem Inv.enter (h : s.Inv) (hr : s.Runs c p) (hpc : (s.procs p).pc = .user) :
    (s.setProc p { s.procs p with pc := .kernel }).Inv := by
  have hm := (h.cores c).mounted p hr.cur
  have hok := h.ok p
  refine h.runProc hr rfl rfl rfl ?_ ?_ ?_ ?_
  · constructor <;> grind -ring -linarith [Proc.Ok]
  · simp [Pc.armed]
  · grind -ring -linarith
  · exact fun _ hs => hs

theorem Inv.leave (h : s.Inv) (hr : s.Runs c p) (hpc : (s.procs p).pc = .kernel) :
    (s.setProc p { s.procs p with pc := .user }).Inv := by
  have hm := (h.cores c).mounted p hr.cur
  have hok := h.ok p
  refine h.runProc hr rfl rfl rfl ?_ ?_ ?_ ?_
  · constructor <;> grind -ring -linarith [Proc.Ok]
  · simp [Pc.armed]
  · grind -ring -linarith
  · exact fun _ hs => hs

theorem Inv.exec {pgd : ℕ} (h : s.Inv) (hr : s.Runs c p) (hpc : (s.procs p).pc = .kernel) :
    (s.setProc p { s.procs p with pc := .execActive, pgd := some pgd, stale := (s.procs p).pgd }).Inv := by
  have hok := h.ok p
  refine h.runProc hr rfl rfl rfl ?_ ?_ ?_ ?_
  · constructor <;> grind -ring -linarith [Proc.Ok]
  · simp [Pc.armed]
  · grind -ring -linarith
  · intro space hs
    have := hok.stale
    grind -ring -linarith

theorem Inv.exit (h : s.Inv) (hr : s.Runs c p) (hpc : (s.procs p).pc = .kernel) :
    (s.setProc p { s.procs p with pc := .exitClear, running := false }).Inv := by
  have hok := h.ok p
  refine h.runProc hr rfl rfl rfl ?_ ?_ ?_ ?_
  · constructor <;> grind -ring -linarith [Proc.Ok]
  · simp [Pc.armed]
  · grind -ring -linarith
  · exact fun _ hs => hs

theorem Inv.create {pgd : ℕ} (h : s.Inv) (hpc : (s.procs p).pc = .gone) :
    (s.setProc p (.created pgd)).Inv := by
  obtain ⟨hcore, hasid⟩ := (h.ok p).gone hpc
  apply h.retire rfl rfl
  · constructor <;> simp [Proc.created, Pc.unmapped]
  · intro d hd
    rw [(h.cores d).cur p hd] at hcore
    cases hcore
  · intro d hd
    rw [((h.cores d).next p hd).1] at hcore
    cases hcore
  · intro hv
    exact absurd hasid hv.2

/-! ## `process_exec` -/

theorem Inv.execActive (h : s.Inv) (hr : s.Runs c p) (hpc : (s.procs p).pc = .execActive)
    (hok : s.ActiveOk c p) : ((s.asidGetActive c p).setProc p
      { (s.asidGetActive c p).procs p with pc := .execRead }).Inv := by
  -- with the empty table in TTBR0 nothing is live on the core
  have hidle : (s.cores c).ttbr0 = none → ∀ r, ¬ (s.cores c).Live s.procs r := by
    rintro ht r (⟨hcur, hne | ⟨-, ha⟩⟩ | ⟨v, hv⟩)
    · exact hne ht
    · obtain rfl : p = r := Option.some.inj (hr.cur.symm.trans hcur)
      simp [hpc, Pc.armed] at ha
    · rw [hr.stage] at hv
      cases hv
  obtain ⟨h1, hvalid, hsynced, hf⟩ := h.asidGetActive hr.core (fun hc => hidle (hok.1 hc))
    (by simp [hr.stage]) hok.2
  have hr' : (s.asidGetActive c p).Runs c p :=
    ⟨by rw [hf.core, hr.core], by rw [hf.cur, hr.cur], by rw [hf.stage, hr.stage]⟩
  have hpc' : ((s.asidGetActive c p).procs p).pc = .execActive := by rw [hf.pc, hpc]
  have hp := h1.ok p
  refine h1.runProc hr' rfl rfl rfl ?_ ?_ ?_ ?_
  · constructor <;> grind -ring -linarith [Proc.Ok]
  · exact fun _ => .inr ⟨hsynced, hvalid⟩
  · simp [Proc.Mounted, Pc.mounted]
  · exact fun _ hs => hs

theorem Inv.execRead (h : s.Inv) (hr : s.Runs c p) (hpc : (s.procs p).pc = .execRead) :
    (s.setProc p { s.procs p with pc := .execInstall (s.procs p).asid }).Inv := by
  have hok := h.ok p
  refine h.runProc hr rfl rfl rfl ?_ ?_ ?_ ?_
  · constructor <;> grind -ring -linarith [Proc.Ok]
  · exact fun _ => .inl (.inl ⟨hr.cur, .inr ⟨hr.stage, by rw [hpc]; rfl⟩⟩)
  · simp [Proc.Mounted, Pc.mounted]
  · exact fun _ hs => hs

theorem Inv.execInstall (h : s.Inv) (hr : s.Runs c p)
    (hpc : (s.procs p).pc = .execInstall (s.procs p).asid) :
    ((s.setCore c { s.cores c with
      ttbr0 := (s.procs p).pgd.map fun space => ((s.procs p).asid, space) }).setProc p
        { s.procs p with pc := .execField }).Inv := by
  have hok := h.ok p
  have hlive : (s.cores c).Live s.procs p :=
    .inl ⟨hr.cur, .inr ⟨hr.stage, by rw [hpc]; rfl⟩⟩
  have h1 : (s.setCore c { s.cores c with
      ttbr0 := (s.procs p).pgd.map fun space => ((s.procs p).asid, space) }).Inv := by
    apply h.setTtbr0 hr.cur
    · intro e he
      obtain ⟨space, hpgd, rfl⟩ := Option.map_eq_some_iff.mp he
      exact ⟨hlive, rfl, .inl hpgd⟩
    · simp [Proc.Mounted, hpc, Pc.mounted]
  have hr1 : (s.setCore c { s.cores c with
      ttbr0 := (s.procs p).pgd.map fun space => ((s.procs p).asid, space) }).Runs c p :=
    ⟨hr.core, by simpa using hr.cur, by simpa using hr.stage⟩
  refine h1.runProc hr1 rfl rfl rfl ?_ ?_ ?_ ?_
  · constructor <;> grind -ring -linarith [Proc.Ok]
  · simp [Pc.armed]
  · simp [Proc.Mounted]
  · exact fun _ hs => hs

theorem Inv.execField (h : s.Inv) (hr : s.Runs c p) (hpc : (s.procs p).pc = .execField) :
    (s.setProc p { s.procs p with pc := .execFlush (s.procs p).asid }).Inv := by
  have hm := (h.cores c).mounted p hr.cur
  have hok := h.ok p
  refine h.runProc hr rfl rfl rfl ?_ ?_ ?_ ?_
  · constructor <;> grind -ring -linarith [Proc.Ok]
  · simp [Pc.armed]
  · grind -ring -linarith
  · exact fun _ hs => hs

/-- The invalidation at the end of `process_exec` removes what the old address space left,
unless the process has got another ASID since, which the old one never had. -/
theorem Inv.execFlush {a : ℕ} (h : s.Inv) (hr : s.Runs c p)
    (hpc : (s.procs p).pc = .execFlush a) :
    ((s.flushAsid a).setProc p { s.procs p with pc := .kernel, stale := none }).Inv := by
  have hm := (h.cores c).mounted p hr.cur
  have hok := h.ok p
  have h1 := h.flushAsid a
  have hr1 : (s.flushAsid a).Runs c p := ⟨hr.core, hr.cur, hr.stage⟩
  obtain ⟨space, hpgd⟩ : ∃ space, (s.procs p).pgd = some space :=
    Option.ne_none_iff_exists'.mp (hok.mapped.mpr (by simp [hpc, Pc.unmapped]))
  have ht := hm.1 (by rw [hpc]; rfl) space hpgd
  refine h1.setProc (q := { s.procs p with pc := .kernel, stale := none }) rfl rfl (.inl rfl)
    ?_ ?_ ?_ ?_ ?_
  · constructor <;> grind -ring -linarith [Proc.Ok]
  · exact fun d => hr1.next_ne h1
  · simp [Pc.armed]
  · intro d hd
    obtain rfl := hr1.cur_eq h1 hd
    refine ⟨fun _ space' hp => ?_, by simp⟩
    obtain rfl : space = space' := Option.some.inj (hpgd.symm.trans hp)
    exact ht
  · intro old hs
    by_cases hold : old = space
    · exact .inl (.inl (hold ▸ hpgd))
    · right
      have hstale : (s.procs p).stale = some old := by
        obtain hp | hs := hs
        · exact absurd (Option.some.inj (hp.symm.trans hpgd)) hold
        · exact hs
      obtain rfl : a = (s.procs p).asid := hok.flush a hpc (by simp [hstale])
      constructor
      · intro d hd
        exact of_decide_eq_true (List.mem_filter.mp hd).2 rfl
      · intro d hd htd
        obtain rfl := hr1.cur_eq h1 hd
        exact hold (congrArg Prod.snd (Option.some.inj (htd.symm.trans ht)))

/-! ## `process_exit` -/

theorem Inv.exitClear (h : s.Inv) (hr : s.Runs c p) (hpc : (s.procs p).pc = .exitClear) :
    (s.setProc p { s.procs p with pc := .exitLeave, pgd := none, stale := (s.procs p).pgd }).Inv := by
  have hok := h.ok p
  refine h.runProc hr rfl rfl rfl ?_ ?_ ?_ ?_
  · constructor <;> grind -ring -linarith [Proc.Ok]
  · simp [Pc.armed]
  · simp [Proc.Mounted, Pc.mounted]
  · intro space hs
    have := hok.stale
    grind -ring -linarith

theorem Inv.exitLeave (h : s.Inv) (hr : s.Runs c p) (hpc : (s.procs p).pc = .exitLeave) :
    ((s.setCore c { s.cores c with ttbr0 := none }).setProc p
      { s.procs p with pc := .exitFree }).Inv := by
  have hok := h.ok p
  have h1 : (s.setCore c { s.cores c with ttbr0 := none }).Inv := by
    apply h.setTtbr0 hr.cur
    · simp
    · simp [Proc.Mounted, hpc, Pc.mounted]
  have hr1 : (s.setCore c { s.cores c with ttbr0 := none }).Runs c p :=
    ⟨hr.core, by simpa using hr.cur, by simpa using hr.stage⟩
  refine h1.runProc hr1 rfl rfl rfl ?_ ?_ ?_ ?_
  · constructor <;> grind -ring -linarith [Proc.Ok]
  · simp [Pc.armed]
  · simp [Proc.Mounted, Pc.mounted]
  · exact fun _ hs => hs

/-- The current task stops being the one of a process while TTBR0 is empty. -/
theorem Inv.detach (h : s.Inv) (hr : s.Runs c p) (ht : (s.cores c).ttbr0 = none) :
    (s.setCore c { s.cores c with cur := none }).Inv := by
  apply h.setCore
  have hlive : ∀ r, ¬ Core.Live { s.cores c with cur := none } s.procs r := by
    simp [Core.Live, hr.stage]
  exact { h.cores c with
    cur := fun r hr' => by cases hr'
    next := fun r hn => by simp [Core.next, hr.stage] at hn
    mounted := fun r hr' => by cases hr'
    ttbr0 := fun e he => by simp [ht] at he
    liveTlb := fun r hl => absurd hl (hlive r)
    liveUniq := fun r t hl => absurd hl (hlive r)
    liveCurrent := fun _ r hl => absurd hl (hlive r) }

theorem Inv.freeBit {a : ℕ} (h : s.Inv) (ha : a ≠ 0) (hfree : ∀ r, s.Valid r → (s.procs r).asid ≠ a) :
    Inv { s with bitmap := Function.update s.bitmap a false } :=
  { h with
    zero := by
      show Function.update s.bitmap a false 0 = true
      rw [Function.update_of_ne ha.symm]
      exact h.zero
    used := by
      intro r hr
      show Function.update s.bitmap a false _ = true
      rw [Function.update_of_ne (hfree r hr)]
      exact h.used r hr }

/-- `asid_free` for a process whose core has left its address space. -/
theorem Inv.asidFree (h : s.Inv) (hr : s.Runs c p) (hpc : (s.procs p).pc = .exitFree) :
    (s.asidFree p).Inv := by
  have hok := h.ok p
  have hm := (h.cores c).mounted p hr.cur
  have hretire : ∀ t : State, t.Inv → t.procs = s.procs → (∀ d, (t.cores d).cur = (s.cores d).cur) →
      (∀ d, (t.cores d).ttbr0 = (s.cores d).ttbr0) → (∀ d, (t.cores d).next = (s.cores d).next) →
      (t.Valid p → ∀ d, ∀ e ∈ (t.cores d).tlb, e.1 ≠ (s.procs p).asid) →
      (t.setProc p { s.procs p with asid := 0, generation := 0 }).Inv := by
    intro t ht hprocs hcur httbr hnext htlb
    refine ht.retire (q := { s.procs p with asid := 0, generation := 0 }) rfl rfl ?_ ?_ ?_ ?_
    · constructor <;> grind -ring -linarith [Proc.Ok]
    · intro d hd
      rw [hcur] at hd
      obtain rfl := hr.cur_eq h hd
      exact ⟨(httbr d).trans (hm.2 hpc), hr.core, by simp [Proc.Mounted, hpc, Pc.mounted],
        by rw [hpc]; rfl⟩
    · intro d hd
      rw [hnext] at hd
      exact hr.next_ne h hd
    · rwa [hprocs]
  by_cases hv : s.Valid p
  · simp only [State.asidFree, if_pos hv]
    have h1 := hretire _ (h.flushAsid (s.procs p).asid) rfl (fun _ => rfl) (fun _ => rfl)
      (fun _ => rfl) fun _ d e he => of_decide_eq_true (List.mem_filter.mp he).2
    -- nobody else holds the ASID that becomes free
    refine h1.freeBit hv.2 ?_
    intro r hvr ha
    have hrp : r ≠ p := by
      rintro rfl
      simp [Valid] at hvr
    rw [setProc_procs, if_neg hrp] at ha
    have hvr' : s.Valid r := by
      unfold Valid at hvr
      rwa [setProc_procs, if_neg hrp] at hvr
    exact hrp (h.uniq r p hvr' hv ha)
  · simp only [State.asidFree, if_neg hv]
    exact hretire s h rfl (fun _ => rfl) (fun _ => rfl) (fun _ => rfl) fun hv' => absurd hv' hv

theorem Inv.exitFree (h : s.Inv) (hr : s.Runs c p) (hpc : (s.procs p).pc = .exitFree) :
    (((s.asidFree p).setCore c { (s.asidFree p).cores c with cur := none }).setProc p
      { (s.asidFree p).procs p with pc := .gone, core := none, stale := none }).Inv := by
  have hself : (s.asidFree p).procs p = { s.procs p with asid := 0, generation := 0 } := by
    simp [State.asidFree]
  have hcores : ∀ d, ((s.asidFree p).cores d).cur = (s.cores d).cur ∧
      ((s.asidFree p).cores d).ttbr0 = (s.cores d).ttbr0 ∧
      ((s.asidFree p).cores d).stage = (s.cores d).stage := by
    intro d
    unfold State.asidFree
    by_cases hv : s.Valid p
    · simp only [if_pos hv]
      exact ⟨rfl, rfl, rfl⟩
    · simp only [if_neg hv]
      exact ⟨rfl, rfl, rfl⟩
  have h1 := h.asidFree hr hpc
  have hr1 : (s.asidFree p).Runs c p :=
    ⟨by rw [hself]; exact hr.core, by rw [(hcores c).1, hr.cur], by rw [(hcores c).2.2, hr.stage]⟩
  have ht : ((s.asidFree p).cores c).ttbr0 = none := by
    rw [(hcores c).2.1]
    exact ((h.cores c).mounted p hr.cur).2 hpc
  have hok := h1.ok p
  have hpc1 : ((s.asidFree p).procs p).pc = .exitFree := by rw [hself]; exact hpc
  have h2 := h1.detach hr1 ht
  refine h2.retire (q := { (s.asidFree p).procs p with pc := .gone, core := none, stale := none })
    (by rw [hself]) (by rw [hself]) ?_ ?_ ?_ ?_
  · constructor <;> grind -ring -linarith [Proc.Ok]
  · intro d hd
    by_cases hdc : d = c
    · simp [hdc] at hd
    · exact absurd (hr1.cur_eq h1 (by simpa [hdc] using hd)) hdc
  · intro d hd
    by_cases hdc : d = c
    · simp [hdc, Core.next, hr1.stage] at hd
    · exact hr1.next_ne h1 (by simpa [hdc] using hd)
  · intro hv
    simp [Valid, hself] at hv

/-! ## The context switch -/

theorem Inv.pickNone (h : s.Inv) :
    (s.setCore c { s.cores c with stage := .picked none }).Inv := by
  apply h.setCore
  have hlive : ∀ r, Core.Live { s.cores c with stage := .picked none } s.procs r →
      (s.cores c).Live s.procs r := by
    intro r hl
    unfold Core.Live at hl ⊢
    grind -ring -linarith
  exact { h.cores c with
    next := fun r hn => by simp [Core.next] at hn
    loaded := fun n v hv => by cases hv
    liveTlb := fun r hl => (h.cores c).liveTlb r (hlive r hl)
    liveUniq := fun r t hr ht => (h.cores c).liveUniq r t (hlive r hr) (hlive t ht)
    liveCurrent := fun hd r hl => (h.cores c).liveCurrent hd r (hlive r hl) }

theorem Inv.pickSome (h : s.Inv) (hpc : (s.procs p).pc ≠ .gone) (hcore : (s.procs p).core = none) :
    ((s.setCore c { s.cores c with stage := .picked (some p) }).setProc p
      { s.procs p with core := some c }).Inv := by
  have hcur : ∀ d, (s.cores d).cur ≠ some p := by
    intro d hd
    rw [(h.cores d).cur p hd] at hcore
    cases hcore
  have hok := h.ok p
  have h1 : (s.setProc p { s.procs p with core := some c }).Inv := by
    refine h.setProc (q := { s.procs p with core := some c }) rfl rfl (.inr hcur) ?_ ?_ ?_ ?_ ?_
    · exact { hok with gone := fun hg => absurd hg hpc }
    · intro d hd
      rw [((h.cores d).next p hd).1] at hcore
      cases hcore
    · exact fun _ d hd => absurd hd (hcur d)
    · exact fun d hd => absurd hd (hcur d)
    · exact fun _ hs => .inl hs
  -- the two updates commute
  show ((s.setProc p { s.procs p with core := some c }).setCore c
    { s.cores c with stage := .picked (some p) }).Inv
  apply h1.setCore
  have hlive : ∀ r, Core.Live { s.cores c with stage := .picked (some p) }
      (s.setProc p { s.procs p with core := some c }).procs r →
      (s.cores c).Live (s.setProc p { s.procs p with core := some c }).procs r := by
    intro r hl
    unfold Core.Live at hl ⊢
    grind -ring -linarith
  exact { h1.cores c with
    next := by
      intro r hn
      obtain rfl : p = r := by simpa [Core.next] using hn
      exact ⟨by simp, hcur c⟩
    loaded := fun n v hv => by cases hv
    liveTlb := fun r hl => (h1.cores c).liveTlb r (hlive r hl)
    liveUniq := fun r t hr ht => (h1.cores c).liveUniq r t (hlive r hr) (hlive t ht)
    liveCurrent := fun hd r hl => (h1.cores c).liveCurrent hd r (hlive r hl) }

/-- The value of TTBR0 for the next task is computed. If it is a user value, the core is synced
and the ASID valid. -/
theorem Inv.setLoaded {n : Option ℕ} (h : s.Inv) (hstage : (s.cores c).stage = .picked n)
    (hload : ∀ p, n = some p → (s.procs p).ttbr0 ≠ none →
      (s.cores c).generation = s.generation ∧ s.Valid p) :
    (s.setCore c { s.cores c with
      stage := .loaded n (n.bind fun p => (s.procs p).ttbr0) }).Inv := by
  apply h.setCore
  have hlive : ∀ r, Core.Live { s.cores c with
      stage := .loaded n (n.bind fun p => (s.procs p).ttbr0) } s.procs r →
      (s.cores c).Live s.procs r ∨ (s.cores c).generation = s.generation ∧ s.Valid r := by
    rintro r (⟨hcur, ht | ⟨hrun, -⟩⟩ | ⟨v, hv⟩)
    · exact .inl (.inl ⟨hcur, .inl ht⟩)
    · cases hrun
    · obtain ⟨rfl, hv⟩ : n = some r ∧ (n.bind fun p => (s.procs p).ttbr0) = some v := by
        simpa using hv
      exact .inr (hload r rfl (by rw [show (s.procs r).ttbr0 = some v from hv]; simp))
  exact { h.cores c with
    next := by
      intro r hn
      exact (h.cores c).next r ((Core.next_of_picked hstage).trans (by simpa [Core.next] using hn))
    loaded := by
      intro m v hv
      obtain ⟨rfl, rfl⟩ : n = m ∧ (n.bind fun p => (s.procs p).ttbr0) = v := by simpa using hv
      rfl
    liveTlb := by
      intro r hl e he ha
      obtain hl' | ⟨hd, hv⟩ := hlive r hl
      · exact (h.cores c).liveTlb r hl' e he ha
      · exact h.tlb_of_valid hd hv e he ha
    liveUniq := by
      intro r t hr ht ha
      obtain hr' | ⟨hd, hvr⟩ := hlive r hr
      · obtain ht' | ⟨hd, hvt⟩ := hlive t ht
        · exact (h.cores c).liveUniq r t hr' ht' ha
        · exact h.uniq r t ((h.cores c).liveCurrent hd r hr') hvt ha
      · obtain ht' | ⟨-, hvt⟩ := hlive t ht
        · exact h.uniq r t hvr ((h.cores c).liveCurrent hd t ht') ha
        · exact h.uniq r t hvr hvt ha
    liveCurrent := by
      intro hd r hl
      obtain hl' | ⟨-, hv⟩ := hlive r hl
      · exact (h.cores c).liveCurrent hd r hl'
      · exact hv }

theorem Inv.load (h : s.Inv) (hcare : s.Careful (.load c)) (hs : s.load c = some s') : s'.Inv := by
  unfold State.load at hs
  split at hs
  case h_1 hstage =>
    cases hs
    exact h.setLoaded hstage fun p hp => by cases hp
  case h_3 => cases hs
  case h_2 p hstage =>
    simp only [State.Careful, hstage, State.LoadOk] at hcare
    by_cases hrun : (s.procs p).running = true ∧ (s.procs p).pgd ≠ none
    · simp only [if_pos hrun, Option.some.injEq] at hs
      subst hs
      have hok := hcare hrun
      -- with the empty table in TTBR0 nothing is live on the core
      have hidle : (s.cores c).ttbr0 = none → ∀ r, ¬ (s.cores c).Live s.procs r := by
        rintro ht r (⟨-, hne | ⟨hst, -⟩⟩ | ⟨v, hv⟩)
        · exact hne ht
        · rw [hstage] at hst
          cases hst
        · rw [hstage] at hv
          cases hv
      have hcore := ((h.cores c).next p (Core.next_of_picked hstage)).1
      obtain ⟨h1, hvalid, hsynced, hf⟩ := h.asidGetActive hcore (fun hc => hidle (hok.1 hc))
        (by simp [hstage]) hok.2
      refine h1.setLoaded (n := some p) (by rw [hf.stage, hstage]) ?_
      intro r hr _
      obtain rfl := Option.some.inj hr
      exact ⟨hsynced, hvalid⟩
    · simp only [if_neg hrun, Option.some.injEq] at hs
      subst hs
      refine h.setLoaded (n := some p) hstage ?_
      intro r hr ht
      obtain rfl := Option.some.inj hr
      unfold Proc.ttbr0 at ht
      grind -ring -linarith

theorem ttbr0_of_armed (hok : q.Ok) (ha : q.pc.armed = true) : q.ttbr0 ≠ none := by
  obtain ⟨hg, hc, hu⟩ := Pc.present_of_mounted (.inr ha)
  rw [Proc.ttbr0, if_pos (hok.running.mpr ⟨hg, hc, hu⟩)]
  simpa using hok.mapped.mpr ⟨hg, hu⟩

theorem Inv.install (h : s.Inv) (hs : s.install c = some s') : s'.Inv := by
  unfold State.install at hs
  split at hs
  case h_2 => cases hs
  case h_1 n v hstage =>
    have hv := (h.cores c).loaded n v hstage
    have hnext : (s.cores c).next = n := Core.next_of_loaded hstage
    have h1 : (s.setCore c { s.cores c with ttbr0 := v, cur := n, stage := .run }).Inv := by
      apply h.setCore
      have hlive : ∀ r, Core.Live { s.cores c with ttbr0 := v, cur := n, stage := .run } s.procs r →
          (s.cores c).Live s.procs r := by
        rintro r (⟨rfl, hl⟩ | ⟨w, hw⟩)
        · right
          have : v ≠ none := by
            obtain ht | ⟨-, ha⟩ := hl
            · exact ht
            · rw [hv]
              exact ttbr0_of_armed (h.ok r) ha
          obtain ⟨w, rfl⟩ := Option.ne_none_iff_exists'.mp this
          exact ⟨w, hstage⟩
        · cases hw
      exact { h.cores c with
        cur := fun r hr => ((h.cores c).next r (hnext.trans hr)).1
        next := fun r hn => by simp [Core.next] at hn
        loaded := fun m w hw => by cases hw
        mounted := by
          rintro r rfl
          have hok := h.ok r
          have hrun := hok.running
          simp only [Option.bind_some] at hv
          subst hv
          constructor
          · intro hm space hpgd
            simp [Proc.ttbr0, hpgd, hrun.mpr (Pc.present_of_mounted (.inl hm))]
          · intro hpc
            have : (s.procs r).running = false := by grind -ring -linarith
            simp [Proc.ttbr0, this]
        ttbr0 := by
          intro e he
          cases n with
          | none =>
            rw [hv] at he
            cases he
          | some r =>
            have he' : (s.procs r).ttbr0 = some e := hv.symm.trans he
            unfold Proc.ttbr0 at he'
            split at he'
            · obtain ⟨space, hpgd, rfl⟩ := Option.map_eq_some_iff.mp he'
              exact ⟨r, rfl, rfl, .inl hpgd⟩
            · cases he'
        liveTlb := fun r hl => (h.cores c).liveTlb r (hlive r hl)
        liveUniq := fun r t hr ht => (h.cores c).liveUniq r t (hlive r hr) (hlive t ht)
        liveCurrent := fun hd r hl => (h.cores c).liveCurrent hd r (hlive r hl) }
    simp only at hs
    cases hcur : (s.cores c).cur with
    | none =>
      rw [hcur] at hs
      cases hs
      exact h1
    | some prev =>
      rw [hcur] at hs
      cases hs
      have hprev := (h.cores c).cur prev hcur
      have hgone : ∀ d, ((s.setCore c { s.cores c with ttbr0 := v, cur := n, stage := .run }).cores d).cur ≠
          some prev := by
        intro d hd
        by_cases hdc : d = c
        · subst hdc
          simp only [setCore_cores, if_true] at hd
          exact ((h.cores d).next prev (hnext.trans hd)).2 hcur
        · simp only [setCore_cores, if_neg hdc] at hd
          have := (h.cores d).cur prev hd
          rw [hprev] at this
          exact hdc (Option.some.inj this).symm
      have hok := h.ok prev
      refine h1.setProc (q := { s.procs prev with core := none }) rfl rfl (.inr hgone) ?_ ?_ ?_ ?_ ?_
      · exact { hok with gone := fun hg => ⟨rfl, (hok.gone hg).2⟩ }
      · intro d hd
        by_cases hdc : d = c
        · subst hdc
          simp [Core.next] at hd
        · simp only [setCore_cores, if_neg hdc] at hd
          have := ((h.cores d).next prev hd).1
          rw [hprev] at this
          exact hdc (Option.some.inj this).symm
      · exact fun _ d hd => absurd hd (hgone d)
      · exact fun d hd => absurd hd (hgone d)
      · exact fun _ hs => .inl hs

/-! ## Runs -/

theorem Inv.advance (h : s.Inv) (hr : s.Runs c p) (hcare : s.Careful (.advance p))
    (hs : s.advance c p = some s') : s'.Inv := by
  unfold State.advance at hs
  unfold State.Careful State.ExecOk at hcare
  cases hpc : (s.procs p).pc with
  | gone | user | kernel => simp [hpc] at hs
  | execActive =>
    simp only [hpc, Option.some.injEq] at hs hcare
    subst hs
    exact h.execActive hr hpc (hcare c hr.core)
  | execRead =>
    simp only [hpc, Option.some.injEq] at hs
    subst hs
    exact h.execRead hr hpc
  | execInstall a =>
    simp only [hpc, Option.some.injEq] at hs hcare
    subst hs hcare
    exact h.execInstall hr hpc
  | execField =>
    simp only [hpc, Option.some.injEq] at hs
    subst hs
    exact h.execField hr hpc
  | execFlush a =>
    simp only [hpc, Option.some.injEq] at hs
    subst hs
    exact h.execFlush hr hpc
  | exitClear =>
    have hmap : (s.procs p).pgd ≠ none := (h.ok p).mapped.mpr (by simp [hpc, Pc.unmapped])
    simp only [hpc, if_neg hmap, Option.some.injEq] at hs
    subst hs
    exact h.exitClear hr hpc
  | exitLeave =>
    simp only [hpc, Option.some.injEq] at hs
    subst hs
    exact h.exitLeave hr hpc
  | exitFree =>
    simp only [hpc, Option.some.injEq] at hs
    subst hs
    exact h.exitFree hr hpc

theorem Inv.pick {n : Option ℕ} (h : s.Inv) (hs : s.pick c n = some s') : s'.Inv := by
  unfold State.pick at hs
  cases n with
  | none =>
    simp only [Option.ite_none_right_eq_some, Option.some.injEq] at hs
    obtain ⟨-, rfl⟩ := hs
    exact h.pickNone
  | some p =>
    simp only [Option.ite_none_right_eq_some, Option.some.injEq] at hs
    obtain ⟨⟨-, -, hpc, hcore⟩, rfl⟩ := hs
    exact h.pickSome hpc hcore

theorem Inv.step {a : Act} (h : s.Inv) (hcare : s.Careful a) (hs : s.step a = some s') :
    s'.Inv := by
  unfold State.step at hs
  cases a with
  | create p pgd =>
    simp only [Option.ite_none_right_eq_some, Option.some.injEq] at hs
    obtain ⟨hpc, rfl⟩ := hs
    exact h.create hpc
  | enter p =>
    simp only [Option.ite_none_right_eq_some, Option.some.injEq] at hs
    obtain ⟨⟨hx, hpc⟩, rfl⟩ := hs
    obtain ⟨c, hr⟩ := exists_runs hx
    exact h.enter hr hpc
  | leave p =>
    simp only [Option.ite_none_right_eq_some, Option.some.injEq] at hs
    obtain ⟨⟨hx, hpc, -⟩, rfl⟩ := hs
    obtain ⟨c, hr⟩ := exists_runs hx
    exact h.leave hr hpc
  | exec p pgd =>
    simp only [Option.ite_none_right_eq_some, Option.some.injEq] at hs
    obtain ⟨⟨hx, hpc⟩, rfl⟩ := hs
    obtain ⟨c, hr⟩ := exists_runs hx
    exact h.exec hr hpc
  | exit p =>
    simp only [Option.ite_none_right_eq_some, Option.some.injEq] at hs
    obtain ⟨⟨hx, hpc⟩, rfl⟩ := hs
    obtain ⟨c, hr⟩ := exists_runs hx
    exact h.exit hr hpc
  | advance p =>
    obtain ⟨c, hx, hs⟩ := Option.bind_eq_some_iff.mp hs
    exact h.advance (runs_of_executor hx) hcare hs
  | pick c n => exact h.pick hs
  | load c => exact h.load hcare hs
  | install c => exact h.install hs
  | fill c =>
    simp only at hs
    split at hs
    · cases hs
    · rename_i v hv
      cases hs
      exact h.fill hv

/-- In every run in which no TLB is flushed under a user TTBR0, `process_exec` installs only
ASIDs its process still has, and the generation does not wrap, no core executes user code with
foreign translations. -/
theorem asid_run_isolated {as : List Act} (hr : Run (Guarded Careful (Moves step)) boot as s) :
    s.Isolated :=
  (hr.invariant Inv (fun _ _ _ hi hs => hi.step hs.1 hs.2) boot_inv).isolated

/-- A process replaces its address space and is back in user code. -/
theorem asid_run_isolated_exec : ∃ s, Run (Guarded Careful (Moves step)) boot
    [.create 0 10, .pick 0 (some 0), .load 0, .install 0, .leave 0, .fill 0, .enter 0, .exec 0 11,
      .advance 0, .advance 0, .advance 0, .fill 0, .advance 0, .advance 0, .fill 0, .leave 0] s ∧
    ((s.cores 0).cur = some 0 ∧ (s.procs 0).pc = .user ∧ (s.cores 0).tlb ≠ []) ∧ s.Isolated := by
  have h : (execGuarded Careful step boot
    [.create 0 10, .pick 0 (some 0), .load 0, .install 0, .leave 0, .fill 0, .enter 0, .exec 0 11,
      .advance 0, .advance 0, .advance 0, .fill 0, .advance 0, .advance 0, .fill 0, .leave 0]).any
    (fun s => decide ((s.cores 0).cur = some 0 ∧ (s.procs 0).pc = .user ∧ (s.cores 0).tlb ≠ [])) = true := by
    decide +kernel
  obtain ⟨s, hr, hs⟩ := exists_run_of_execGuarded h
  exact ⟨s, hr, of_decide_eq_true hs, asid_run_isolated hr⟩

/-! ## A full pool -/

/-- `n` processes have run on core 0, one after the other, and have taken the first ASIDs. -/
def crowd (n : ℕ) : State where
  generation := 1
  bitmap a := decide (a ≤ n)
  procs p := if p < n then { Proc.created p with asid := p + 1, generation := 1 } else boot.procs p
  cores c := if c = 0 then { boot.cores 0 with generation := if n = 0 then 0 else 1 } else boot.cores c

theorem crowd_zero : crowd 0 = boot := by
  have hb : (fun a => decide (a ≤ 0)) = boot.bitmap := by
    funext a
    simp [boot]
  have hc : (crowd 0).cores = boot.cores := by
    funext c
    simp [crowd, boot]
  have hp : (crowd 0).procs = boot.procs := by
    funext p
    simp [crowd]
  rw [show crowd 0 = ⟨1, fun a => decide (a ≤ 0), (crowd 0).procs, (crowd 0).cores⟩ from rfl, hb, hp, hc]
  rfl

/-- The first processes of the crowd, one more process and core 0 in a state of their own. -/
def crowdWith (n : ℕ) (bitmap : ℕ → Bool) (q : Proc) (k : Core) : State :=
  (({ crowd n with bitmap := bitmap } : State).setProc n q).setCore 0 k

theorem getFreeAsid_crowd {n : ℕ} (h : n < 255) : getFreeAsid (crowd n).bitmap = some (n + 1) := by
  rw [getFreeAsid, List.find?_range_eq_some]
  refine ⟨?_, ?_, fun j hj => ?_⟩
  · simp [crowd]
  · rw [List.mem_range]
    unfold poolSize
    omega
  · have : j ≤ n := by omega
    simp [crowd, this]

theorem bitmap_crowd (n : ℕ) :
    Function.update (crowd n).bitmap (n + 1) true = (crowd (n + 1)).bitmap := by
  funext a
  by_cases ha : a = n + 1
  · simp [ha, crowd]
  · have : (a ≤ n) ↔ (a ≤ n + 1) := by omega
    simp [ha, crowd, this]

/-- Process `n` in the crowd: where its task is, and the ASID it has. -/
def member (n : ℕ) (core : Option ℕ) (asid generation : ℕ) : Proc :=
  { Proc.created n with core := core, asid := asid, generation := generation }

def seat (generation : ℕ) (ttbr0 : Option Tagged) (cur : Option ℕ) (stage : Stage) : Core :=
  { boot.cores 0 with generation := generation, ttbr0 := ttbr0, cur := cur, stage := stage }

theorem asidGetActive_crowd {n : ℕ} (h : n < 255) :
    (crowdWith n (crowd n).bitmap (member n (some 0) 0 0)
      (seat (if n = 0 then 0 else 1) none none (.picked (some n)))).asidGetActive 0 n =
    crowdWith n (crowd (n + 1)).bitmap (member n (some 0) (n + 1) 1)
      (seat 1 none none (.picked (some n))) := by
  have hfree := getFreeAsid_crowd h
  have hbit := bitmap_crowd n
  have hsync : (crowdWith n (crowd n).bitmap (member n (some 0) 0 0)
      (seat (if n = 0 then 0 else 1) none none (.picked (some n)))).sync 0 =
      crowdWith n (crowd n).bitmap (member n (some 0) 0 0) (seat 1 none none (.picked (some n))) := by
    by_cases hn : n = 0
    · simp [sync, crowdWith, seat, hn, crowd, boot, setCore, setProc]
    · simp [sync, crowdWith, seat, hn, crowd, boot, setCore, setProc]
  unfold asidGetActive
  rw [hsync]
  have hv : ¬ (crowdWith n (crowd n).bitmap (member n (some 0) 0 0)
      (seat 1 none none (.picked (some n)))).Valid n := by
    simp [Valid, crowdWith, member]
  rw [if_neg hv, show getFreeAsid (crowdWith n (crowd n).bitmap (member n (some 0) 0 0)
      (seat 1 none none (.picked (some n)))).bitmap = some (n + 1) from hfree]
  simp only [grant, crowdWith, setCore, setProc, hbit, member, Proc.created]
  simp [crowd]

theorem exec_crowd {n : ℕ} (h : n < 255) : exec step (crowd n)
    [.create n n, .pick 0 (some n), .load 0, .install 0, .pick 0 none, .load 0, .install 0] =
      some (crowd (n + 1)) := by
  have hact := asidGetActive_crowd h
  have h1 : step (crowd n) (.create n n) = some ((crowd n).setProc n (.created n)) := by
    simp [step, crowd, boot]
  have h2 : step ((crowd n).setProc n (.created n)) (.pick 0 (some n)) =
      some (crowdWith n (crowd n).bitmap (member n (some 0) 0 0)
        (seat (if n = 0 then 0 else 1) none none (.picked (some n)))) := by
    simp [step, pick, crowd, boot, Proc.created, crowdWith, setProc, setCore, member, seat]
  have h3 : step (crowdWith n (crowd n).bitmap (member n (some 0) 0 0)
        (seat (if n = 0 then 0 else 1) none none (.picked (some n)))) (.load 0) =
      some (crowdWith n (crowd (n + 1)).bitmap (member n (some 0) (n + 1) 1)
        (seat 1 none none (.loaded (some n) (some (n + 1, n))))) := by
    have hstage : ((crowdWith n (crowd n).bitmap (member n (some 0) 0 0)
        (seat (if n = 0 then 0 else 1) none none (.picked (some n)))).cores 0).stage = .picked (some n) := by
      simp [crowdWith, seat]
    have hrun : ((crowdWith n (crowd n).bitmap (member n (some 0) 0 0)
        (seat (if n = 0 then 0 else 1) none none (.picked (some n)))).procs n).running = true ∧
        ((crowdWith n (crowd n).bitmap (member n (some 0) 0 0)
        (seat (if n = 0 then 0 else 1) none none (.picked (some n)))).procs n).pgd ≠ none := by
      simp [crowdWith, member, Proc.created]
    simp only [step, load, hstage, if_pos hrun, hact]
    simp [crowdWith, setCore, setProc, seat, member, Proc.created, Proc.ttbr0]
  have h4 : step (crowdWith n (crowd (n + 1)).bitmap (member n (some 0) (n + 1) 1)
        (seat 1 none none (.loaded (some n) (some (n + 1, n))))) (.install 0) =
      some (crowdWith n (crowd (n + 1)).bitmap (member n (some 0) (n + 1) 1)
        (seat 1 (some (n + 1, n)) (some n) .run)) := by
    simp [step, install, crowdWith, seat, boot, setProc, setCore]
  have h5 : step (crowdWith n (crowd (n + 1)).bitmap (member n (some 0) (n + 1) 1)
        (seat 1 (some (n + 1, n)) (some n) .run)) (.pick 0 none) =
      some (crowdWith n (crowd (n + 1)).bitmap (member n (some 0) (n + 1) 1)
        (seat 1 (some (n + 1, n)) (some n) (.picked none))) := by
    simp [step, pick, crowdWith, seat, boot, setProc, setCore, member, Proc.created]
  have h6 : step (crowdWith n (crowd (n + 1)).bitmap (member n (some 0) (n + 1) 1)
        (seat 1 (some (n + 1, n)) (some n) (.picked none))) (.load 0) =
      some (crowdWith n (crowd (n + 1)).bitmap (member n (some 0) (n + 1) 1)
        (seat 1 (some (n + 1, n)) (some n) (.loaded none none))) := by
    simp [step, load, crowdWith, seat, boot, setProc, setCore]
  have h7 : step (crowdWith n (crowd (n + 1)).bitmap (member n (some 0) (n + 1) 1)
        (seat 1 (some (n + 1, n)) (some n) (.loaded none none))) (.install 0) =
      some (crowdWith n (crowd (n + 1)).bitmap (member n none (n + 1) 1) (seat 1 none none .run)) := by
    simp [step, install, crowdWith, seat, boot, setProc, setCore, member]
  have h8 : crowdWith n (crowd (n + 1)).bitmap (member n none (n + 1) 1) (seat 1 none none .run) =
      crowd (n + 1) := by
    have hp : Function.update (crowd n).procs n (member n none (n + 1) 1) = (crowd (n + 1)).procs := by
      funext p
      by_cases hpn : p = n
      · simp [hpn, crowd, member, Proc.created]
      · have : p < n ↔ p < n + 1 := by omega
        simp [hpn, crowd, this]
    have hc : Function.update (crowd n).cores 0 (seat 1 none none .run) = (crowd (n + 1)).cores := by
      funext c
      by_cases hc : c = 0
      · simp [hc, crowd, seat, boot]
      · simp [hc, crowd]
    simp only [crowdWith, setCore, setProc, hp, hc]
    rfl
  simp [exec, h1, h2, h3, h4, h5, h6, h7, h8]

theorem exists_run_crowd (n : ℕ) (h : n ≤ 255) : ∃ as, Run (Moves step) boot as (crowd n) := by
  induction n with
  | zero => exact ⟨[], crowd_zero ▸ .nil _⟩
  | succ n ih =>
    obtain ⟨as, hr⟩ := ih (by omega)
    exact ⟨_, hr.append (run_of_exec (exec_crowd (by omega)))⟩

/-- Process 0 runs on core 1 when the pool is full. Core 0 starts a new generation, in which
process 255 takes the ASID that process 0 had. Core 1 flushes for that generation while its
TTBR0 still names process 0, and refills. Then it runs process 255 with the translations of
process 0. -/
theorem asid_shared_after_rollover : ∃ as s, Run (Moves step) boot as s ∧
    (s.cores 1).cur = some 255 ∧ (s.procs 255).pc = .user ∧ (s.procs 255).pgd = some 255 ∧
    (s.cores 1).ttbr0 = some (1, 255) ∧ (1, 0) ∈ (s.cores 1).tlb := by
  obtain ⟨as, hr⟩ := exists_run_crowd 255 (by omega)
  have h : (Lib.exec step (crowd 255)
      [.pick 1 (some 0), .load 1, .install 1,
        .create 255 255, .pick 0 (some 255), .load 0, .install 0, .pick 0 none, .load 0, .install 0,
        .pick 1 (some 1), .load 1, .fill 1, .install 1,
        .pick 1 (some 255), .load 1, .install 1, .leave 255]).any
      (fun s => decide ((s.cores 1).cur = some 255 ∧ (s.procs 255).pc = .user ∧
        (s.procs 255).pgd = some 255 ∧ (s.cores 1).ttbr0 = some (1, 255) ∧
        (1, 0) ∈ (s.cores 1).tlb)) = true := by
    decide +kernel
  obtain ⟨s, hr', hs⟩ := exists_run_of_exec h
  exact ⟨_, s, hr.append hr', of_decide_eq_true hs⟩

end State

end Perspicua.Mm.Asid
