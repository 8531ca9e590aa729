import Perspicua.Fs.Fat32.Dir

/-!
# Rules for directory walks

`fat32_dir_walk` is three loops, over clusters, sectors and slots. A directory is one list of
slots here (`dirSlots`), and the rules speak of the slots that a walk has passed: an invariant
that holds at the start and that every slot keeps holds at the end, or the callback has ended
the walk. `walkCluster_ends` is the rule for one cluster, for callbacks that change the
directory on the way; `dirWalk_reads` is the rule for those that read until they stop.
-/

namespace Perspicua.Fs

open Perspicua.Lib Prog

variable (m : Mount)

/-! ## Requests -/

/-- Nothing has changed but the number of requests. -/
def Quiet (s t : FsState) : Prop := ∃ n, t = { s with tick := n }

section Quiet

variable {s t u : FsState}

theorem Quiet.refl (s : FsState) : Quiet s s := ⟨s.tick, rfl⟩

theorem Quiet.trans (h : Quiet s t) (h' : Quiet t u) : Quiet s u := by
  obtain ⟨n, rfl⟩ := h
  obtain ⟨k, rfl⟩ := h'
  exact ⟨k, rfl⟩

theorem Quiet.tick (h : Quiet s t) : Quiet s { t with tick := t.tick + 1 } := by
  obtain ⟨n, rfl⟩ := h
  exact ⟨n + 1, rfl⟩

theorem Quiet.vol (h : Quiet s t) : t.vol = s.vol := by
  obtain ⟨n, rfl⟩ := h
  rfl

end Quiet

/-! ## The slots of a directory -/

def sectorSlots (c sec : ℕ) : List Slot := (List.finRange 16).map fun i => ⟨c, sec, i⟩

/-- The slots of a cluster in the order of the walk. -/
def clusterSlots (c : ℕ) : List Slot :=
  (List.range m.sectorsPerCluster).flatMap (sectorSlots c)

/-- The clusters that a walk visits from `c` on, `visits` of them at most. -/
def chainClusters (vol : Volume) : ℕ → ℕ → List ℕ
  | 0, _ => []
  | visits + 1, c =>
    if !clusterValid m c then []
    else c :: if vol.next c < clusterEocMin then chainClusters vol visits (vol.next c) else []

/-- The slots of the directory that starts at `c`. -/
def dirSlots (vol : Volume) (c : ℕ) : List Slot :=
  (chainClusters m vol maxDirClusters c).flatMap (clusterSlots m)

/-- What a walk knows about fragments when it has passed one more slot. -/
def WalkLfn.pass (vol : Volume) (w : WalkLfn) (sl : Slot) : WalkLfn :=
  if (vol.slot sl).isLfn then w.fragment sl (vol.slot sl) else w.entry

/-- What a walk knows about fragments when it has passed the slots. -/
def passed (vol : Volume) (slots : List Slot) : WalkLfn := slots.foldl (WalkLfn.pass vol) .start

@[simp] theorem passed_append_singleton (vol : Volume) (pre : List Slot) (sl : Slot) :
    passed vol (pre ++ [sl]) = (passed vol pre).pass vol sl := by
  rw [passed, List.foldl_append]
  rfl

/-! ## One slot -/

section Rules

variable {m} {γ : Type} {cb : WalkCb γ}

/-- How the walk goes on when it has shown an entry: it ends in `Q`, or `J` holds with the slot
passed. -/
def After (J : WalkLfn → γ → FsState → Prop) (Q : Res Unit × γ → FsState → Prop) (sl : Slot)
    (w : WalkLfn) : Res Unit × CbOut γ → FsState → Prop
  | (.error _, out), t => Q (.error .eio, out.ctx) t
  | (.ok _, out), t =>
    match out.action with
    | .stop => Q (.ok (), out.ctx) t
    | .error e => Q (.error e, out.ctx) t
    | .cont =>
      t.vol.data sl.cluster sl.sector = out.buf ∧
        if (out.buf sl.index).first = 0 then Q (.error .enoent, out.ctx) t else J w.entry out.ctx t

/-- What one slot does. -/
def SlotStep (cb : WalkCb γ) (J : WalkLfn → γ → FsState → Prop)
    (Q : Res Unit × γ → FsState → Prop) (sl : Slot) (w : WalkLfn) (ctx : γ) (s : FsState) : Prop :=
  if (s.vol.slot sl).isLfn then J (w.fragment sl (s.vol.slot sl)) ctx s
  else
    Ends (walkShow m cb (s.vol.data sl.cluster sl.sector) (w.pos sl (s.vol.slot sl)) ctx) s
      (After J Q sl w)

theorem walkSlot_ends {J : WalkLfn → γ → FsState → Prop} {Q : Res Unit × γ → FsState → Prop}
    {c sec : ℕ} {i : Fin 16} {w : WalkLfn} {ctx : γ} {s : FsState}
    (h : SlotStep (m := m) cb J Q ⟨c, sec, i⟩ w ctx s) :
    Ends (walkSlot m cb c sec i (s.vol.data c sec, w, ctx)) s
      (Ctl.Sat (fun b t => t.vol.data c sec = b.1 ∧ J b.2.1 b.2.2 t) Q) := by
  have hslot : s.vol.slot ⟨c, sec, i⟩ = s.vol.data c sec i := rfl
  unfold SlotStep at h
  rw [hslot] at h
  unfold walkSlot
  dsimp only at h ⊢
  by_cases hlfn : (s.vol.data c sec i).isLfn
  · rw [if_pos hlfn] at h ⊢
    exact ends_pure.mpr ⟨rfl, h⟩
  · rw [if_neg hlfn] at h ⊢
    refine Ends.bind h ?_
    intro r t hr
    obtain ⟨r, out⟩ := r
    cases r with
    | error e => exact hr
    | ok u =>
      unfold After at hr
      dsimp only at hr ⊢
      cases hact : out.action with
      | stop =>
        rw [hact] at hr
        exact hr
      | error e =>
        rw [hact] at hr
        exact hr
      | cont =>
        rw [hact] at hr
        dsimp only at hr ⊢
        obtain ⟨hbuf, hr⟩ := hr
        by_cases hfirst : (out.buf i).first = 0
        · rw [if_pos hfirst] at hr ⊢
          exact hr
        · rw [if_neg hfirst] at hr ⊢
          exact ends_pure.mpr ⟨hbuf, hr⟩

/-! ## One sector, one cluster -/

theorem blockFails_ends {site : Site} {s : FsState} {Q : Bool → FsState → Prop}
    (h : ∀ fails, Q fails { s with tick := s.tick + 1 }) : Ends (blockFails m site) s Q := h _

/-- A read gives the sector as it is, or fails; only the number of requests changes. -/
theorem readSector_ends {site : Site} {c sec : ℕ} {s : FsState} {Q : Res Sector → FsState → Prop}
    (hfail : Q (.error .eio) { s with tick := s.tick + 1 })
    (hread : Q (.ok (s.vol.data c sec)) { s with tick := s.tick + 1 }) :
    Ends (readSector m site c sec) s Q := by
  unfold readSector
  refine Ends.bind (blockFails_ends fun fails => rfl) ?_
  rintro fails _ rfl
  apply ends_ite
  · intro _
    exact hfail
  · intro _
    apply ends_ite
    · intro _
      exact hfail
    · intro _
      exact hread

/-- The invariant of a walk: the slots passed, what is known about fragments, the context. -/
abbrev WalkInv (γ : Type) := List Slot → WalkLfn → γ → FsState → Prop

/-- What every walk needs to know about its invariant: a request may fail, and that ends the
walk. -/
structure Stable (J : WalkInv γ) (Q : Res Unit × γ → FsState → Prop) : Prop where
  tick : ∀ {pre w ctx s}, J pre w ctx s → J pre w ctx { s with tick := s.tick + 1 }
  io : ∀ {pre w ctx s}, J pre w ctx s → Q (.error .eio, ctx) s

variable {J : WalkInv γ} {Q : Res Unit × γ → FsState → Prop}

theorem walkSector_ends {c sec : ℕ} {pre : List Slot} {w : WalkLfn} {ctx : γ} {s : FsState}
    (hJ : Stable J Q)
    (hslot : ∀ l i l', sectorSlots c sec = l ++ ⟨c, sec, i⟩ :: l' → ∀ w ctx s, J (pre ++ l) w ctx s →
      SlotStep (m := m) cb (J (pre ++ l ++ [⟨c, sec, i⟩])) Q ⟨c, sec, i⟩ w ctx s)
    (h : J pre w ctx s) :
    Ends (walkSector m cb c sec (w, ctx)) s
      (Ctl.Sat (fun b t => J (pre ++ sectorSlots c sec) b.1 b.2 t) Q) := by
  unfold walkSector
  refine Ends.bind (readSector_ends (Q := fun r t =>
    (r = .error .eio ∨ r = .ok (s.vol.data c sec)) ∧ t = { s with tick := s.tick + 1 })
    ⟨.inl rfl, rfl⟩ ⟨.inr rfl, rfl⟩) ?_
  rintro r _ ⟨rfl | rfl, rfl⟩
  · exact hJ.io (hJ.tick h)
  · -- the loop over the slots; its buffer is the sector on the volume
    refine Ends.bind (iterate_ends
      (J := fun is b t => t.vol.data c sec = b.1 ∧
        J (pre ++ is.map fun i => ⟨c, sec, i⟩) b.2.1 b.2.2 t) (R := Q) ?_ ?_) ?_
    · rintro is i js hijs ⟨buf, w, ctx⟩ t ⟨hbuf, ht⟩
      dsimp only at hbuf ht
      subst hbuf
      have hsplit : sectorSlots c sec = is.map (fun i => (⟨c, sec, i⟩ : Slot)) ++ ⟨c, sec, i⟩ ::
          js.map fun i => ⟨c, sec, i⟩ := by
        rw [sectorSlots, hijs, List.map_append, List.map_cons]
      refine (walkSlot_ends (hslot _ i _ hsplit w ctx t ht)).mono ?_
      intro r u hr
      cases r with
      | next b =>
        refine ⟨hr.1, ?_⟩
        rw [List.map_append, ← List.append_assoc]
        exact hr.2
      | ret r => exact hr
    · exact ⟨rfl, by rw [List.map_nil, List.append_nil]; exact hJ.tick h⟩
    · intro r t hr
      cases r with
      | next b => exact hr.2
      | ret r => exact hr

/-- The rule for one cluster. -/
theorem walkCluster_ends {c : ℕ} {pre : List Slot} {w : WalkLfn} {ctx : γ} {s : FsState}
    (hJ : Stable J Q)
    (hslot : ∀ l sl l', clusterSlots m c = l ++ sl :: l' → ∀ w ctx s, J (pre ++ l) w ctx s →
      SlotStep (m := m) cb (J (pre ++ l ++ [sl])) Q sl w ctx s)
    (h : J pre w ctx s) :
    Ends (iterate (walkSector m cb c) (List.range m.sectorsPerCluster) (w, ctx)) s
      (Ctl.Sat (fun b t => J (pre ++ clusterSlots m c) b.1 b.2 t) Q) := by
  refine iterate_ends
    (J := fun secs (b : WalkLfn × γ) t => J (pre ++ secs.flatMap (sectorSlots c)) b.1 b.2 t)
    (R := Q) ?_ (by rw [List.flatMap_nil, List.append_nil]; exact h)
  rintro secs sec rest hsecs ⟨w, ctx⟩ t ht
  refine (walkSector_ends hJ ?_ ht).mono ?_
  · intro l i l' hl w ctx u hu
    have hsplit : clusterSlots m c = (secs.flatMap (sectorSlots c) ++ l) ++ ⟨c, sec, i⟩ ::
        (l' ++ rest.flatMap (sectorSlots c)) := by
      rw [clusterSlots, hsecs, List.flatMap_append, List.flatMap_cons, hl]
      simp only [List.append_assoc, List.cons_append]
    have := hslot _ _ _ hsplit w ctx u (by rw [← List.append_assoc]; exact hu)
    rwa [← List.append_assoc pre] at this
  · intro r u hr
    cases r with
    | next b =>
      show J _ _ _ _
      rw [List.flatMap_append, List.flatMap_singleton, ← List.append_assoc]
      exact hr
    | ret r => exact hr

/-! ## A directory that is read -/

/-- `get_next_cluster` reads the link, or fails. -/
theorem getNextCluster_ends {c : ℕ} {s : FsState} {Q : ℕ → FsState → Prop}
    (hvalid : clusterValid m c = true) (hfail : Q clusterIoerr { s with tick := s.tick + 1 })
    (hread : Q (s.vol.next c) { s with tick := s.tick + 1 }) : Ends (getNextCluster m c) s Q := by
  unfold getNextCluster
  rw [hvalid]
  refine Ends.bind (blockFails_ends fun fails => rfl) ?_
  rintro fails _ rfl
  apply ends_ite
  · intro _
    exact hfail
  · intro _
    exact hread

/-- What a callback that reads must show about one slot, `pre` being the slots before it. -/
def ReadStep (cb : WalkCb γ) (vol : Volume) (J : List Slot → γ → FsState → Prop)
    (Q : Res Unit × γ → FsState → Prop) (pre : List Slot) (sl : Slot) (ctx : γ) (s : FsState) : Prop :=
  if (vol.slot sl).isLfn then J (pre ++ [sl]) ctx s
  else
    Ends (walkShow m cb (vol.data sl.cluster sl.sector) ((passed vol pre).pos sl (vol.slot sl)) ctx) s
      (After (fun _ => J (pre ++ [sl])) Q sl .start)

/-- The rule for a walk that leaves the volume alone until its callback ends it. -/
theorem walkClusters_reads (vol : Volume) (all : List Slot) {J : List Slot → γ → FsState → Prop}
    (hvol : ∀ pre ctx s, J pre ctx s → s.vol = vol)
    (htick : ∀ pre ctx s, J pre ctx s → J pre ctx { s with tick := s.tick + 1 })
    (hio : ∀ pre ctx s, J pre ctx s → Q (.error .eio, ctx) s)
    (hslot : ∀ pre sl post, all = pre ++ sl :: post → ∀ ctx s, J pre ctx s →
      ReadStep (m := m) cb vol J Q pre sl ctx s)
    (hend : ∀ ctx s, J all ctx s → Q (.error .enoent, ctx) s) (visits c : ℕ) (pre : List Slot)
    (hall : all = pre ++ (chainClusters m vol visits c).flatMap (clusterSlots m)) (ctx : γ)
    (s : FsState) (h : J pre ctx s) :
    Ends (walkClusters m cb false visits c (passed vol pre, ctx)) s Q := by
  induction visits generalizing c pre ctx s with
  | zero =>
    rw [walkClusters]
    apply ends_ite
    · intro _
      apply hend
      rw [hall, chainClusters, List.flatMap_nil, List.append_nil]
      exact h
    · intro _
      exact hio pre ctx s h
  | succ visits ih =>
    rw [walkClusters]
    apply ends_ite
    · intro hinvalid
      apply hend
      rw [hall, chainClusters, if_pos hinvalid, List.flatMap_nil, List.append_nil]
      exact h
    · intro hvalid
      rw [chainClusters, if_neg hvalid, List.flatMap_cons] at hall
      have hrule : Ends (iterate (walkSector m cb c) (List.range m.sectorsPerCluster)
          (passed vol pre, ctx)) s (Ctl.Sat (fun b t => b.1 = passed vol (pre ++ clusterSlots m c) ∧
            J (pre ++ clusterSlots m c) b.2 t) Q) := walkCluster_ends
        (J := fun l w ctx s => w = passed vol l ∧ J l ctx s)
        ⟨fun h => ⟨h.1, htick _ _ _ h.2⟩, fun h => hio _ _ _ h.2⟩ ?_ ⟨rfl, h⟩
      · refine Ends.bind hrule ?_
        rintro (⟨w, ctx⟩ | r) t hr
        · obtain ⟨rfl, hr⟩ := hr
          dsimp only at hr ⊢
          have hnext : t.vol.next c = vol.next c := by rw [hvol _ _ _ hr]
          refine Ends.bind (getNextCluster_ends (Q := fun n u =>
            (n = clusterIoerr ∨ n = vol.next c) ∧ J (pre ++ clusterSlots m c) ctx u)
            (by simpa using hvalid) ⟨.inl rfl, htick _ _ _ hr⟩
            ⟨.inr hnext, htick _ _ _ hr⟩) ?_
          rintro n u ⟨hn, hu⟩
          apply ends_ite
          · intro _
            exact hio _ _ _ hu
          · intro hne
            have hn : n = vol.next c := hn.resolve_left hne
            subst hn
            apply ends_ite
            · intro hlt
              rw [if_pos hlt] at hall
              apply ih
              · rw [hall, List.append_assoc]
              · exact hu
            · intro hlt
              rw [if_neg hlt, List.flatMap_nil, List.append_nil] at hall
              apply hend
              rw [hall]
              exact hu
        · exact hr
      · rintro l sl l' hl w ctx t ⟨rfl, ht⟩
        have hstep := hslot (pre ++ l) sl _ (by
          rw [hall, hl]
          simp only [List.append_assoc, List.cons_append]
          rfl) ctx t ht
        have ht' := hvol _ _ _ ht
        subst ht'
        unfold SlotStep
        unfold ReadStep at hstep
        split
        next hlfn =>
          rw [if_pos hlfn] at hstep
          exact ⟨by rw [passed_append_singleton, WalkLfn.pass, if_pos hlfn], hstep⟩
        next hlfn =>
          rw [if_neg hlfn] at hstep
          refine hstep.mono ?_
          rintro ⟨_ | _, out⟩ u hu
          · exact hu
          · unfold After at hu ⊢
            dsimp only at hu ⊢
            cases hact : out.action with
            | stop => simpa only [hact] using hu
            | error e => simpa only [hact] using hu
            | cont =>
              rw [hact] at hu
              dsimp only at hu ⊢
              refine ⟨hu.1, ?_⟩
              obtain ⟨-, hu⟩ := hu
              split
              next hfirst =>
                rw [if_pos hfirst] at hu
                exact hu
              next hfirst =>
                rw [if_neg hfirst] at hu
                exact ⟨by rw [passed_append_singleton, WalkLfn.pass, if_neg hlfn], hu⟩

end Rules

/-! ## The entries of a directory -/

/-- The live entries among the slots, as a walk shows them. -/
def listFrom (vol : Volume) : WalkLfn → List Slot → List DirPos
  | _, [] => []
  | w, sl :: rest =>
    let e := vol.slot sl
    if e.isLfn then listFrom vol (w.fragment sl e) rest
    else if e.first = 0 then []
    else if e.first = 0xE5 then listFrom vol w.entry rest
    else w.pos sl e :: listFrom vol w.entry rest

/-- The live entries of the directory that starts at `c`. -/
def dirList (vol : Volume) (c : ℕ) : List DirPos := listFrom vol .start (dirSlots m vol c)

@[simp] theorem WalkLfn.pos_slot (w : WalkLfn) (sl : Slot) (e : DirEntry) : (w.pos sl e).slot = sl := rfl

/-- None of the slots is the end marker. -/
def NoEnd (vol : Volume) (slots : List Slot) : Prop := ∀ sl ∈ slots, (vol.slot sl).first ≠ 0

theorem first_ne_zero_of_isLfn {e : DirEntry} (h : e.isLfn = true) : e.first ≠ 0 := by
  intro hz
  simp [DirEntry.isLfn, DirEntry.free, hz] at h

theorem first_ne_deleted_of_isLfn {e : DirEntry} (h : e.isLfn = true) : e.first ≠ 0xE5 := by
  intro hz
  simp [DirEntry.isLfn, DirEntry.free, hz] at h

theorem live_first {e : DirEntry} (h : e.free = false) : e.first ≠ 0 ∧ e.first ≠ 0xE5 := by
  constructor
  · intro hz
    simp [DirEntry.free, hz] at h
  · intro hz
    simp [DirEntry.free, hz] at h

section listFrom

variable {vol : Volume} {sl : Slot} (w : WalkLfn) (rest : List Slot)

theorem listFrom_fragment (h : (vol.slot sl).isLfn = true) :
    listFrom vol w (sl :: rest) = listFrom vol (w.fragment sl (vol.slot sl)) rest := by
  rw [listFrom]
  exact if_pos h

theorem listFrom_marker (h : (vol.slot sl).first = 0) : listFrom vol w (sl :: rest) = [] := by
  rw [listFrom]
  exact (if_neg fun hlfn => first_ne_zero_of_isLfn hlfn h).trans (if_pos h)

theorem listFrom_deleted (h : (vol.slot sl).first = 0xE5) :
    listFrom vol w (sl :: rest) = listFrom vol w.entry rest := by
  rw [listFrom]
  refine (if_neg fun hlfn => first_ne_deleted_of_isLfn hlfn h).trans ?_
  refine (if_neg ?_).trans (if_pos h)
  rw [h]
  decide

theorem listFrom_live (hlfn : ¬ (vol.slot sl).isLfn = true) (hzero : (vol.slot sl).first ≠ 0)
    (hdel : (vol.slot sl).first ≠ 0xE5) :
    listFrom vol w (sl :: rest) = w.pos sl (vol.slot sl) :: listFrom vol w.entry rest := by
  rw [listFrom]
  exact (if_neg hlfn).trans ((if_neg hzero).trans (if_neg hdel))

end listFrom

theorem listFrom_append {vol : Volume} {pre : List Slot} (h : NoEnd vol pre) (w : WalkLfn)
    (post : List Slot) :
    listFrom vol w (pre ++ post) =
      listFrom vol w pre ++ listFrom vol (pre.foldl (WalkLfn.pass vol) w) post := by
  induction pre generalizing w with
  | nil => rfl
  | cons sl pre ih =>
    have hpre : NoEnd vol pre := fun sl' hsl' => h sl' (List.mem_cons_of_mem _ hsl')
    have hsl : (vol.slot sl).first ≠ 0 := h sl List.mem_cons_self
    rw [List.cons_append, List.foldl_cons, WalkLfn.pass]
    by_cases hlfn : (vol.slot sl).isLfn = true
    · rw [listFrom_fragment _ _ hlfn, listFrom_fragment _ _ hlfn, if_pos hlfn, ih hpre]
    · rw [if_neg hlfn]
      by_cases hdel : (vol.slot sl).first = 0xE5
      · rw [listFrom_deleted _ _ hdel, listFrom_deleted _ _ hdel, ih hpre]
      · rw [listFrom_live _ _ hlfn hsl hdel, listFrom_live _ _ hlfn hsl hdel, ih hpre,
          List.cons_append]

theorem mem_listFrom {vol : Volume} {w : WalkLfn} {slots : List Slot} {pos : DirPos}
    (h : pos ∈ listFrom vol w slots) :
    pos.slot ∈ slots ∧ (vol.slot pos.slot).isLfn = false ∧ (vol.slot pos.slot).free = false := by
  induction slots generalizing w with
  | nil => cases h
  | cons sl slots ih =>
    by_cases hlfn : (vol.slot sl).isLfn = true
    · rw [listFrom_fragment _ _ hlfn] at h
      obtain ⟨hmem, hrest⟩ := ih h
      exact ⟨List.mem_cons_of_mem _ hmem, hrest⟩
    by_cases hzero : (vol.slot sl).first = 0
    · rw [listFrom_marker _ _ hzero] at h
      cases h
    by_cases hdel : (vol.slot sl).first = 0xE5
    · rw [listFrom_deleted _ _ hdel] at h
      obtain ⟨hmem, hrest⟩ := ih h
      exact ⟨List.mem_cons_of_mem _ hmem, hrest⟩
    rw [listFrom_live _ _ hlfn hzero hdel] at h
    rcases List.mem_cons.mp h with rfl | h
    · exact ⟨List.mem_cons_self, by simpa using hlfn, by simp [DirEntry.free, w.pos_slot, hzero, hdel]⟩
    · obtain ⟨hmem, hrest⟩ := ih h
      exact ⟨List.mem_cons_of_mem _ hmem, hrest⟩

section List

variable {m} {γ : Type} {cb : WalkCb γ} {J : List DirPos → γ → FsState → Prop}
  {Q : Res Unit × γ → FsState → Prop}

/-- The callback passes over free slots, or stops at the end marker. -/
structure SkipsFree (cb : WalkCb γ) : Prop where
  deleted : ∀ buf pos ctx, (buf pos.slot.index).first = 0xE5 →
    cb buf pos ctx = pure ⟨.cont, buf, false, ctx⟩
  marker : ∀ buf pos ctx, (buf pos.slot.index).first = 0 →
    cb buf pos ctx = pure ⟨.cont, buf, false, ctx⟩ ∨ cb buf pos ctx = pure ⟨.stop, buf, false, ctx⟩

/-- How the walk goes on when it has shown a live entry. -/
def AfterLive (vol : Volume) (J : γ → FsState → Prop) (Q : Res Unit × γ → FsState → Prop)
    (pos : DirPos) : Res Unit × CbOut γ → FsState → Prop
  | (.error _, out), t => Q (.error .eio, out.ctx) t
  | (.ok _, out), t =>
    match out.action with
    | .stop => Q (.ok (), out.ctx) t
    | .error e => Q (.error e, out.ctx) t
    | .cont => out.buf = vol.data pos.slot.cluster pos.slot.sector ∧ J out.ctx t

theorem walkShow_clean {buf : Sector} {pos : DirPos} {ctx : γ} {out : CbOut γ} {s : FsState}
    {Q : Res Unit × CbOut γ → FsState → Prop} (hcb : cb buf pos ctx = pure out)
    (hclean : out.dirty = false) (h : Q (.ok (), out) s) : Ends (walkShow m cb buf pos ctx) s Q := by
  unfold walkShow
  rw [hcb]
  show Ends (if out.dirty = true then _ else _) s Q
  rw [hclean]
  exact h

/-- The rule for a walk over the live entries that leaves the volume alone until its callback
ends it. -/
theorem dirWalk_list (vol : Volume) {c : ℕ} {ctx : γ} {s : FsState} (hskip : SkipsFree cb)
    (hvol : ∀ pre ctx s, J pre ctx s → s.vol = vol)
    (htick : ∀ pre ctx s, J pre ctx s → J pre ctx { s with tick := s.tick + 1 })
    (hio : ∀ pre ctx s, J pre ctx s → Q (.error .eio, ctx) s)
    (hshow : ∀ pre pos post, dirList m vol c = pre ++ pos :: post → ∀ ctx s, J pre ctx s →
      Ends (walkShow m cb (vol.data pos.slot.cluster pos.slot.sector) pos ctx) s
        (AfterLive vol (J (pre ++ [pos])) Q pos))
    (hend : ∀ r ctx s, r = .ok () ∨ r = .error .enoent → J (dirList m vol c) ctx s → Q (r, ctx) s)
    (h : J [] ctx s) : Ends (dirWalk m cb c false ctx) s Q := by
  refine walkClusters_reads vol (dirSlots m vol c)
    (J := fun pre ctx s => NoEnd vol pre ∧ J (listFrom vol .start pre) ctx s)
    (fun _ _ _ h => hvol _ _ _ h.2) (fun _ _ _ h => ⟨h.1, htick _ _ _ h.2⟩)
    (fun _ _ _ h => hio _ _ _ h.2) ?_ ?_ maxDirClusters c [] rfl ctx s
    ⟨by rintro _ ⟨⟩, h⟩
  · rintro pre sl post hall ctx s ⟨hno, hs⟩
    have hlist : dirList m vol c =
        listFrom vol .start pre ++ listFrom vol (passed vol pre) (sl :: post) := by
      rw [dirList, hall, listFrom_append hno]
      rfl
    have hpassed : listFrom vol .start (pre ++ [sl]) =
        listFrom vol .start pre ++ listFrom vol (passed vol pre) [sl] := listFrom_append hno _ _
    have hsnoc : (vol.slot sl).first ≠ 0 → NoEnd vol (pre ++ [sl]) := by
      intro hfirst sl' hsl'
      rcases List.mem_append.mp hsl' with hsl' | hsl'
      · exact hno sl' hsl'
      · rw [List.mem_singleton.mp hsl']
        exact hfirst
    unfold ReadStep
    dsimp only
    rw [hpassed]
    split
    next hlfn =>
      refine ⟨hsnoc (first_ne_zero_of_isLfn hlfn), ?_⟩
      rw [listFrom_fragment _ _ hlfn, listFrom, List.append_nil]
      exact hs
    next hlfn =>
      by_cases hzero : (vol.slot sl).first = 0
      · -- the end marker: the walk is over, whatever the callback says
        have hdone : J (dirList m vol c) ctx s := by
          rw [hlist, listFrom_marker _ _ hzero, List.append_nil]
          exact hs
        rcases hskip.marker (vol.data sl.cluster sl.sector) ((passed vol pre).pos sl (vol.slot sl)) ctx
          hzero with hcb | hcb
        · refine walkShow_clean hcb rfl ⟨by rw [hvol _ _ _ hs], ?_⟩
          show if (vol.slot sl).first = 0 then _ else _
          rw [if_pos hzero]
          exact hend _ _ _ (.inr rfl) hdone
        · exact walkShow_clean hcb rfl (hend _ _ _ (.inl rfl) hdone)
      by_cases hdel : (vol.slot sl).first = 0xE5
      · have hcb := hskip.deleted (vol.data sl.cluster sl.sector)
          ((passed vol pre).pos sl (vol.slot sl)) ctx hdel
        refine walkShow_clean hcb rfl ⟨by rw [hvol _ _ _ hs], ?_⟩
        show if (vol.slot sl).first = 0 then _ else _
        rw [if_neg hzero, listFrom_deleted _ _ hdel, listFrom, List.append_nil]
        exact ⟨hsnoc hzero, hs⟩
      · have hpos := hlist
        rw [listFrom_live _ _ hlfn hzero hdel] at hpos
        rw [listFrom_live _ _ hlfn hzero hdel, listFrom]
        refine (hshow _ _ _ hpos ctx s hs).mono ?_
        rintro ⟨_ | _, out⟩ t ht
        · exact ht
        · unfold AfterLive at ht
          unfold After
          dsimp only at ht ⊢
          cases hact : out.action with
          | stop => simpa only [hact] using ht
          | error e => simpa only [hact] using ht
          | cont =>
            rw [hact] at ht
            obtain ⟨hout, ht⟩ := ht
            refine ⟨by rw [hvol _ _ _ ht]; exact hout.symm, ?_⟩
            rw [hout]
            show if (vol.slot sl).first = 0 then _ else _
            rw [if_neg hzero]
            exact ⟨hsnoc hzero, ht⟩
  · rintro ctx s ⟨-, hs⟩
    exact hend _ _ _ (.inr rfl) hs

end List

end Perspicua.Fs
