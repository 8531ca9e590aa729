import Perspicua.Mm.AddressSpaceTheorems

/-!
# Reference counts and isolation in every reachable state

Every step keeps `Sys.Inv`, so every run does. In the terms of the page tables this says:
the allocator's count of a user page is the number of leaves that map it plus what the
operations in flight hold, and a leaf that can be written is the only one of its page.
-/

namespace Perspicua.Mm.Sys

open Perspicua.Lib

variable {n : ℕ} {g : Pmm} {s s' : Sys n}

/-! ## Steps that are not one process's own -/

theorem setProc_self (s : Sys n) (p : Fin n) (x : Proc) : (s.setProc p x).procs p = x := by
  unfold setProc
  dsimp only
  rw [Function.update_self]

theorem setProc_of_ne (s : Sys n) {p q : Fin n} (h : q ≠ p) (x : Proc) :
    (s.setProc p x).procs q = s.procs q := by
  unfold setProc
  dsimp only
  rw [Function.update_of_ne h]

/-- A total that two processes exchange between themselves. -/
theorem finsum_exchange (f : Proc → ℕ) (s : Sys n) {p q : Fin n} {x y : Proc} (hpq : q ≠ p)
    (h : f x + f y = f (s.procs p) + f (s.procs q)) :
    ∑ᶠ r, f (((s.setProc p x).setProc q y).procs r) = ∑ᶠ r, f (s.procs r) := by
  obtain ⟨rest, hold, hnew⟩ := split_off f s p
  obtain ⟨rest', hold', hnew'⟩ := split_off f (s.setProc p x) q
  have h1 := hnew x
  have h2 := hnew' y
  rw [setProc_of_ne s hpq] at hold'
  change ∑ᶠ r, f (Function.update s.procs p x r) = _ at hold'
  change ∑ᶠ r, f (((s.setProc p x).setProc q y).procs r) = _ at h2
  omega

theorem Inv.install (h : Inv g s) {p q : Fin n} {child : Pgd} (hop : (s.procs p).op = .idle)
    (himage : (s.procs p).image = some child) (hpq : q ≠ p) (hq : s.procs q = Proc.blank) :
    Inv g ((s.setProc p { s.procs p with image := none }).setProc q
      { Proc.blank with pgd := some child }) := by
  obtain ⟨refs, hinv, hbal⟩ := h.balance
  have htab : ∀ f : Pgd → ℕ, (s.procs p).pgd.elim 0 f + 0 + (f child + 0)
      = (s.procs p).pgd.elim 0 f + (s.procs p).image.elim 0 f + (0 + 0) := by
    intro f
    rw [himage, Option.elim_some]
    omega
  refine ⟨h.ranges, ⟨refs, hinv, fun b => ?_⟩, fun r => ?_⟩
  · have hb := hbal b
    unfold leaves writable holds Sys.fresh Sys.tables at hb ⊢
    rw [finsum_exchange (Proc.leaves g b) s hpq (by rw [hq]; exact htab _),
      finsum_exchange (Proc.writable g b) s hpq (by rw [hq]; exact htab _),
      finsum_exchange (fun x => x.op.holds g b) s hpq (by rw [hq]),
      finsum_exchange (fun x => x.op.fresh b) s hpq (by rw [hq]),
      finsum_exchange (Proc.tables b) s hpq ?_]
    · exact hb
    · have ht := htab (Pgd.tables b)
      rw [hq]
      simp only [Proc.tables, Proc.blank, hop, Option.elim_none, Option.elim_some]
      omega
  · by_cases hrq : r = q
    · subst hrq
      rw [setProc_self]
      exact ⟨fun d hd => Option.some.inj hd ▸ (h.procs p).image child himage,
        fun d hd => absurd hd (by simp [Proc.blank]), trivial⟩
    · rw [setProc_of_ne _ hrq]
      by_cases hrp : r = p
      · subst hrp
        rw [setProc_self]
        refine ⟨(h.procs r).pgd, fun d hd => absurd hd (by simp), ?_⟩
        unfold Proc.OpOk
        rw [hop]
        trivial
      · rw [setProc_of_ne _ hrp]
        exact h.procs r

/-- The rest of the kernel changes its own references only. -/
theorem Inv.kernel (h : Inv g s) {pmm : Pmm} {kernelRefs : Block → ℕ}
    (hstep : ∀ refs, s.pmm.PmmInv refs → (∀ b, s.kernelRefs b ≤ refs b) →
      ∃ refs', pmm.PmmInv refs' ∧ s.pmm.SameRanges pmm ∧
        ∀ b leaf wr hold fresh kern, wr ≤ leaf →
          Balanced leaf wr hold fresh (kern + s.kernelRefs b) (refs b) →
          Balanced leaf wr hold fresh (kern + kernelRefs b) (refs' b)) :
    Inv g { s with pmm := pmm, kernelRefs := kernelRefs } := by
  obtain ⟨refs, hinv, hbal⟩ := h.balance
  obtain ⟨refs', hinv', hsame, hnew⟩ := hstep refs hinv fun b => by
    have hle := (hbal b).le
    omega
  exact ⟨sameRanges_trans h.ranges hsame, ⟨refs', hinv', fun b =>
    hnew b _ _ _ _ _ (finsum_mono fun p => Proc.writable_le g b (s.procs p)) (hbal b)⟩, h.procs⟩

theorem Inv.kernelAlloc (h : Inv g s) {count v : ℕ} {pmm : Pmm}
    (hok : s.pmm.pmmAllocPagesNozero count = .ok (some v, pmm)) :
    Inv g { s with
      pmm := pmm
      kernelRefs := Function.update s.kernelRefs ⟨v2p v / pageSize, Pmm.getOrder count⟩ 1 } := by
  refine h.kernel fun refs hinv _ => ?_
  rcases Pmm.pmmAllocPagesNozero_inv hinv count with hnull | ⟨pfn, t, ht, hlt, hnew, hinv', hsame⟩
  · rw [hnull] at hok
    cases hok
  rw [ht] at hok
  cases hok
  have hbase : v2p (p2v (pfn * pageSize)) / pageSize = pfn := by
    have hn := hinv.core.pages_lt
    unfold pmmPfnNull at hn
    rw [Pmm.v2p_p2v (by unfold pageSize; omega)]
    exact Nat.mul_div_cancel pfn (by decide)
  rw [hbase]
  refine ⟨_, hinv', hsame, fun b leaf wr hold fresh kern hwl hb => ?_⟩
  by_cases he : b = ⟨pfn, Pmm.getOrder count⟩
  · subst he
    have hzero : refs ⟨pfn, Pmm.getOrder count⟩ = 0 := Nat.eq_zero_of_not_pos hnew
    have hle := hb.le
    rw [Function.update_self, Function.update_self, balanced_iff]
    omega
  · rw [Function.update_of_ne he, Function.update_of_ne he]
    exact hb

theorem Inv.kernelHold (h : Inv g s) {b : Block} {ptr : ℕ} {pmm : Pmm} (hpos : 0 < s.kernelRefs b)
    (hptr : s.pmm.HeadAt ptr b) (hok : s.pmm.pmmHoldPage ptr = .ok pmm) :
    Inv g { s with
      pmm := pmm
      kernelRefs := Function.update s.kernelRefs b (s.kernelRefs b + 1) } := by
  refine h.kernel fun refs hinv hle => ?_
  obtain ⟨hinv', hsame⟩ := Pmm.pmmHoldPage_inv hinv hok
  refine ⟨_, hinv', hsame, fun c leaf wr hold fresh kern _ hb => ?_⟩
  have hlive : 0 < refs b := Nat.lt_of_lt_of_le hpos (hle b)
  by_cases hc : c = b
  · subst hc
    rw [if_pos ⟨hptr.1, hptr.2, hlive⟩, Function.update_self]
    rw [balanced_iff] at hb ⊢
    omega
  · rw [if_neg fun ⟨_, hbase, hlive'⟩ =>
      hc (hinv.eq_of_base hlive' hlive (hbase.trans hptr.2.symm)), Function.update_of_ne hc]
    exact hb

theorem Inv.kernelFree (h : Inv g s) {b : Block} {ptr : ℕ} {pmm : Pmm} (hpos : 0 < s.kernelRefs b)
    (hptr : s.pmm.HeadAt ptr b) (hok : s.pmm.pmmFreePages ptr = .ok pmm) :
    Inv g { s with
      pmm := pmm
      kernelRefs := Function.update s.kernelRefs b (s.kernelRefs b - 1) } := by
  refine h.kernel fun refs hinv hle => ?_
  have hlive : 0 < refs b := Nat.lt_of_lt_of_le hpos (hle b)
  obtain ⟨hinv', hsame⟩ := hinv.free hok fun _ => ⟨b, Or.inr hlive, hptr⟩
  refine ⟨_, hinv', hsame, fun c leaf wr hold fresh kern _ hb => ?_⟩
  by_cases hc : c = b
  · subst hc
    rw [if_pos hptr, Function.update_self]
    rw [balanced_iff] at hb ⊢
    omega
  · rw [Function.update_of_ne hc]
    by_cases hhead : s.pmm.HeadAt ptr c
    · -- another block with this head is not live
      have hdead : refs c = 0 := by
        apply Nat.eq_zero_of_not_pos
        intro hlive'
        exact hc (hinv.eq_of_base hlive' hlive (hhead.2.trans hptr.2.symm))
      rw [if_pos hhead, hdead]
      rw [hdead] at hb
      exact hb
    · rw [if_neg hhead]
      exact hb

/-! ## One step -/

theorem Inv.step (h : Inv g s) {label : Option (Fin n)} (hstep : Step s label s') : Inv g s' := by
  cases hstep with
  | create hop himage hok => exact h.frame _ (keeps_create hop himage hok)
  | forkStart hop hpgd himage hok =>
    rw [← hpgd]
    exact h.frame _ (keeps_forkStart hop himage hok)
  | forkStep hop hpgd himage hok => exact h.frame _ (keeps_forkStep hop hpgd himage hok)
  | install hop himage hpq hq => exact h.install hop himage hpq hq
  | cowFirst hop hpgd hok => exact h.frame _ (keeps_cowFirst hop hpgd hok)
  | cowAllocFails hop hok => exact h.frame _ (keeps_cowAllocFails hop hok)
  | cowCopy hop hok => exact h.frame _ (keeps_cowCopy hop hok)
  | cowSecond hop hpgd => exact h.frame _ (shifts_cowSecond hop hpgd).keeps
  | mapAlloc hop hflags _ hok => exact h.frame _ (keeps_mapAlloc hop hflags hok)
  | remapHold hop himage hva hquery _ hmore hok =>
    exact h.frame _ (keeps_remapHold hop himage hva hquery hmore hok)
  | deviceStart hop _ _ hdev => exact h.frame _ (shifts_deviceStart h.ranges hop hdev).keeps
  | mapFresh hop htable hok => exact h.frame _ (keeps_mapFresh hop htable hok)
  | remap hop himage hok => exact h.frame _ (keeps_remap hop himage hok)
  | mapDevice hop hpgd hok => exact h.frame _ (keeps_mapDevice hop hpgd hok)
  | unmap hop hpgd hok => exact h.frame _ (keeps_unmap hop hpgd hok)
  | free hop hok => exact h.frame _ (keeps_free hop hok)
  | freesDone hop => exact h.frame _ (shifts_freesDone hop).keeps
  | execCommit hop himage => exact h.frame _ (shifts_execCommit h.ranges hop himage).keeps
  | abort hop himage =>
    exact h.frame _ (shifts_dropImage h.ranges (hop ▸ Op.bare_idle) himage).keeps
  | exit hop hpgd => exact h.frame _ (shifts_exit h.ranges hop hpgd).keeps
  | store hstore =>
    cases hstore
    exact ⟨h.ranges, h.balance, h.procs⟩
  | kernelAlloc hok => exact h.kernelAlloc hok
  | kernelHold hpos hptr hok => exact h.kernelHold hpos hptr hok
  | kernelFree hpos hptr hok => exact h.kernelFree hpos hptr hok

/-- Nothing is mapped on a machine that has just booted. -/
theorem Inv.start {pmm : Pmm} (hinv : pmm.PmmInv fun _ => 0) (mem : ℕ → UInt8) :
    Inv pmm (start (n := n) pmm mem) := by
  refine ⟨⟨rfl, rfl⟩, ⟨_, hinv, fun b => ?_⟩, fun p => ⟨fun d hd => (nomatch hd),
    fun d hd => (nomatch hd), trivial⟩⟩
  have hzero : leaves pmm (Sys.start (n := n) pmm mem) b = 0 ∧
      writable pmm (Sys.start (n := n) pmm mem) b = 0 ∧
      holds pmm (Sys.start (n := n) pmm mem) b = 0 ∧
      Sys.fresh (Sys.start (n := n) pmm mem) b = 0 ∧
      Sys.tables (Sys.start (n := n) pmm mem) b = 0 :=
    ⟨finsum_eq_zero fun _ => rfl, finsum_eq_zero fun _ => rfl, finsum_eq_zero fun _ => rfl,
      finsum_eq_zero fun _ => rfl, finsum_eq_zero fun _ => rfl⟩
  obtain ⟨h1, h2, h3, h4, h5⟩ := hzero
  rw [h1, h2, h3, h4, h5, balanced_iff]
  simp [Sys.start]

/-! ## What the invariant says about the page tables -/

/-- Process `p` has the word `w` as the leaf at path `x` of one of its two tables. -/
def Leaf (s : Sys n) (p : Fin n) (t : Target) (x : Ix × Ix × Ix) (w : Word) : Prop :=
  ∃ pgd, (s.procs p).table t = some pgd ∧ pgd.entry x = w ∧ has w pteValid = true

/-- What holds between two steps. `g` says which pages the allocator manages. -/
structure Consistent (g : Pmm) (s : Sys n) : Prop where
  /-- The count of a page that is mapped or in flight is the number of its leaves plus the
  references of the operations in flight. -/
  refcount : ∀ ptr, g.pmmIsManaged ptr = true →
    0 < s.leaves g (blockOf ptr) + s.holds g (blockOf ptr) + s.fresh (blockOf ptr) →
    s.pmm.pmmPageRefcount ptr
      = s.leaves g (blockOf ptr) + s.holds g (blockOf ptr) + s.fresh (blockOf ptr)
  /-- There are no leaves but those of the third level. -/
  no_blocks : ∀ p t pgd y w, (s.procs p).table t = some pgd → pgd.l2 y ≠ .block w
  /-- A leaf of a managed page without the read-only bit is the only one of its page. -/
  sole : ∀ p t x w, s.Leaf p t x w → g.pmmIsManaged (ptePtr w) = true → has w apRo = false →
    ∀ q u y v, s.Leaf q u y v → pteAddr v = pteAddr w → (q, u, y) = (p, t, x)
  /-- A store by one process changes no byte another reads from a managed page. -/
  isolated : ∀ p va b s', Store s p va b s' → ∀ q, q ≠ p → ∀ va' pgd w pa,
    (s.procs q).pgd = some pgd → walk pgd va' = some (w, pa) →
    g.pmmIsManaged (ptePtr w) = true → s'.readByte q va' = s.readByte q va'

theorem Inv.leaf_eq (h : Inv g s) {p : Fin n} {t : Target} {x : Ix × Ix × Ix} {w : Word}
    (hleaf : s.Leaf p t x w) : ∃ pgd, (s.procs p).table t = some pgd ∧ pgd.Ok g ∧ pgd.l3 x = w := by
  obtain ⟨pgd, htable, hw, -⟩ := hleaf
  have hp := (h.procs p).table htable
  exact ⟨pgd, htable, hp, (hp.entry_eq x).symm.trans hw⟩

/-- Two different leaves of one page are two references. -/
theorem Inv.two_le_leaves (h : Inv g s) {p q : Fin n} {t u : Target} {x y : Ix × Ix × Ix}
    {w v : Word} {b : Block} (hw : s.Leaf p t x w) (hv : s.Leaf q u y v)
    (hone : leafOne g b w = 1) (hone' : leafOne g b v = 1) (hne : (q, u, y) ≠ (p, t, x)) :
    2 ≤ s.leaves g b := by
  obtain ⟨pgd, htable, hp, rfl⟩ := h.leaf_eq hw
  obtain ⟨pgd', htable', hp', rfl⟩ := h.leaf_eq hv
  have h1 := Pgd.leafOne_le_leaves hp b x
  have h2 := Pgd.leafOne_le_leaves hp' b y
  have hle := Proc.le_leaves_of_table (g := g) htable b
  have hle' := Proc.le_leaves_of_table (g := g) htable' b
  have hsum := le_finsum (fun r => (s.procs r).leaves g b) p
  unfold leaves
  by_cases hpq : q = p
  · subst hpq
    by_cases htu : u = t
    · subst htu
      cases htable.symm.trans htable'
      have hxy : y ≠ x := fun hc => hne (by rw [hc])
      have h3 := Pgd.leafOne_add_le_leaves hp b hxy
      omega
    · -- the two tables of one process
      have h3 := Proc.add_le_leaves_of_table (g := g) htable htable' htu b
      omega
  · have h3 := add_le_finsum (fun r => (s.procs r).leaves g b) hpq
    omega

/-- A leaf the hardware finds is a leaf of the table. -/
theorem Inv.leaf_of_walk (h : Inv g s) {p : Fin n} {pgd : Pgd} {va pa : ℕ} {w : Word}
    (hpgd : (s.procs p).pgd = some pgd) (hwalk : walk pgd va = some (w, pa)) :
    s.Leaf p .own (vaPath va) w ∧ pa = pteAddr w + va % pageSize := by
  have hp := (h.procs p).pgd pgd hpgd
  unfold walk at hwalk
  dsimp only at hwalk
  split at hwalk
  · split at hwalk
    · rename_i hvalid
      rw [Bool.and_eq_true] at hvalid
      cases hwalk
      exact ⟨⟨pgd, hpgd, hp.entry_eq _, hvalid.1⟩, rfl⟩
    · cases hwalk
  · rename_i hblock
    exact absurd hblock (hp.no_block _ _)
  · cases hwalk

theorem Inv.sole (h : Inv g s) {p q : Fin n} {t u : Target} {x y : Ix × Ix × Ix} {w v : Word}
    (hw : s.Leaf p t x w) (hm : g.pmmIsManaged (ptePtr w) = true) (hrw : has w apRo = false)
    (hv : s.Leaf q u y v) (haddr : pteAddr v = pteAddr w) : (q, u, y) = (p, t, x) := by
  by_contra hne
  have hvalid : has w pteValid = true := hw.choose_spec.2.2
  have hvalid' : has v pteValid = true := hv.choose_spec.2.2
  have hptr : ptePtr v = ptePtr w := by rw [ptePtr, haddr, ptePtr]
  have hone : leafOne g (blockOf (ptePtr w)) w = 1 := by
    rw [leafOne_of_managed hvalid hm, one_blockOf]
  have hone' : leafOne g (blockOf (ptePtr w)) v = 1 := by
    rw [leafOne_congr (hvalid'.trans hvalid.symm) hptr, hone]
  have htwo := h.two_le_leaves hw hv hone hone' hne
  -- but a writable leaf leaves room for one only
  obtain ⟨pgd, htable, hp, rfl⟩ := h.leaf_eq hw
  obtain ⟨refs, -, hbal⟩ := h.balance
  have hwr : 0 < s.writable g (blockOf (ptePtr (pgd.l3 x))) := by
    have h1 := Pgd.writableOne_le_writable hp (blockOf (ptePtr (pgd.l3 x))) x
    rw [writableOne_of_rw g _ hrw, hone] at h1
    have h2 := Proc.le_writable_of_table (g := g) htable (blockOf (ptePtr (pgd.l3 x)))
    have h3 := le_finsum (fun r => (s.procs r).writable g (blockOf (ptePtr (pgd.l3 x)))) p
    unfold writable
    omega
  have hex := (hbal (blockOf (ptePtr (pgd.l3 x)))).exclusive hwr
  omega

/-- Two bytes of different pages are different bytes. -/
theorem pteAddr_eq_of_offset {w v : Word} {i j : ℕ}
    (h : pteAddr w + i % pageSize = pteAddr v + j % pageSize) : pteAddr w = pteAddr v := by
  obtain ⟨a, -, ha⟩ := pteAddr_eq_page w
  obtain ⟨b, -, hb⟩ := pteAddr_eq_page v
  rw [ha, hb] at h ⊢
  have hdiv : ∀ c k : ℕ, (c * pageSize + k % pageSize) / pageSize = c := by
    intro c k
    rw [Nat.mul_comm, Nat.mul_add_div (by decide), Nat.div_eq_of_lt (Nat.mod_lt k (by decide))]
    rfl
  rw [← hdiv a i, h, hdiv b j]

theorem Inv.isolated (h : Inv g s) {p q : Fin n} {va va' pa : ℕ} {b : UInt8} {pgd : Pgd} {w : Word}
    (hstore : Store s p va b s') (hqp : q ≠ p) (hpgd : (s.procs q).pgd = some pgd)
    (hwalk : walk pgd va' = some (w, pa)) (hm : g.pmmIsManaged (ptePtr w) = true) :
    s'.readByte q va' = s.readByte q va' := by
  cases hstore with
  | @mk pgd₁ w₁ pa₁ hpgd₁ hwalk₁ _ hrw =>
    obtain ⟨hleaf, hpa⟩ := h.leaf_of_walk hpgd hwalk
    obtain ⟨hleaf₁, hpa₁⟩ := h.leaf_of_walk hpgd₁ hwalk₁
    have hne : pa ≠ pa₁ := by
      intro hc
      rw [hpa, hpa₁] at hc
      have haddr := pteAddr_eq_of_offset hc
      have hm₁ : g.pmmIsManaged (ptePtr w₁) = true := by
        rw [ptePtr, ← haddr]
        exact hm
      have hpos := h.sole hleaf₁ hm₁ hrw hleaf haddr
      exact hqp (congrArg Prod.fst hpos)
    unfold readByte
    rw [hpgd]
    simp only [Option.bind_some, hwalk, Function.update_of_ne hne]

theorem Inv.consistent (h : Inv g s) : Consistent g s where
  refcount ptr hm hpos := by
    obtain ⟨refs, hinv, hbal⟩ := h.balance
    have hb := hbal (blockOf ptr)
    rw [← pmmIsManaged_congr h.ranges] at hm
    rw [balanced_iff] at hb
    rw [pmmPageRefcount_spec hinv hm (by omega)]
    omega
  no_blocks p t pgd y w htable := ((h.procs p).table htable).no_block y w
  sole p t x w hw hm hrw q u y v hv haddr := h.sole hw hm hrw hv haddr
  isolated p va b s' hstore q hqp va' pgd w pa hpgd hwalk hm :=
    h.isolated hstore hqp hpgd hwalk hm

/-- From any boot of the allocator and through any interleaving: reference counts are the
number of leaves plus the holds in flight, writable leaves are alone on their page, and a
store stays within its process. -/
theorem run_consistent {s₀ pmm : Pmm} {memSize kernelEnd : ℕ} {rs : List (ℕ × ℕ)}
    {mem : ℕ → UInt8} {labels : List (Option (Fin n))} (hreserve : Run Pmm.Reserve Pmm.boot rs s₀)
    (hinit : s₀.pmmInit memSize kernelEnd = .ok pmm) (hrun : Run Step (start pmm mem) labels s) :
    Consistent pmm s := by
  have hboot := (Pmm.pmmInit_inv (Pmm.reserve_run hreserve).1 hinit).1
  exact (hrun.invariant (Inv pmm) (fun _ _ _ h hstep => h.step hstep) (Inv.start hboot mem)).consistent

/-- Two processes on a machine of sixteen pages: the first builds an address space with one
writable page, moves into it and stores a byte. -/
theorem run_consistent_small : ∃ (pmm : Pmm) (labels : List (Option (Fin 2))) (s : Sys 2),
    Pmm.boot.pmmInit 0x10000 kernelVma = .ok pmm ∧
    Run Step (start pmm fun _ => 0) labels s ∧ Consistent pmm s ∧ s.readByte 0 0x400008 = some 7 := by
  -- the calls into the allocator, evaluated once
  have hcalls : (do
      let m₀ ← Pmm.boot.pmmInit 0x10000 kernelVma
      let r₁ ← allocUserTablePage m₀
      let r₂ ← allocPage r₁.2
      let r₃ ← mmuUserMapPage r₂.2 (Pgd.empty (r₁.1.getD 0)) 0x400000 (v2p (r₂.1.getD 0)) apUser
      Except.ok (r₁.1.isSome && r₂.1.isSome && r₃.1 &&
        (walk r₃.2.1 0x400008).elim false fun r => has r.1 apUser && !has r.1 apRo)) = .ok true := by
    decide +kernel
  obtain ⟨m₀, h₀, hcalls⟩ := bind_eq_ok.mp hcalls
  obtain ⟨⟨o₁, m₁⟩, h₁, hcalls⟩ := bind_eq_ok.mp hcalls
  obtain ⟨⟨o₂, m₂⟩, h₂, hcalls⟩ := bind_eq_ok.mp hcalls
  obtain ⟨⟨ok, pgd, m₃⟩, h₃, hcalls⟩ := bind_eq_ok.mp hcalls
  have hall := Except.ok.inj hcalls
  simp only [Bool.and_eq_true, Option.isSome_iff_exists] at hall
  obtain ⟨⟨⟨⟨root, rfl⟩, ⟨page, rfl⟩⟩, rfl⟩, hwalk⟩ := hall
  cases hw : walk pgd 0x400008 with
  | none =>
    rw [hw] at hwalk
    cases hwalk
  | some r =>
    rw [hw, Option.elim_some, Bool.and_eq_true, Bool.not_eq_true'] at hwalk
    have hrun : ∃ labels s, Run Step (start (n := 2) m₀ fun _ => 0) labels s ∧
        (s.procs 0).pgd = some pgd ∧ s.mem r.2 = 7 := by
      refine ⟨_, _, .cons (@Step.create 2 _ 0 _ _ rfl rfl h₁)
        (.cons (@Step.mapAlloc 2 _ 0 .image 0x400000 _ apUser _ rfl (by decide) (fun hc => ?_) h₂)
        (.cons (@Step.mapFresh 2 _ 0 .image 0x400000 page apUser true (Pgd.empty root) pgd _ rfl rfl h₃)
        (.cons (@Step.execCommit 2 _ 0 pgd rfl rfl)
        (.single (.store (@Store.mk 2 _ 0 0x400008 7 pgd r.1 r.2 rfl hw hwalk.1 hwalk.2)))))), ?_, ?_⟩
      · cases hc
      · rfl
      · exact Function.update_self _ _ _
    obtain ⟨labels, s, hrun, hpgd, hmem⟩ := hrun
    refine ⟨m₀, labels, s, h₀, hrun, run_consistent (Run.nil _) h₀ hrun, ?_⟩
    rw [readByte, hpgd, Option.bind_some, hw, Option.bind_some, if_pos hwalk.1, hmem]

end Perspicua.Mm.Sys
