import Perspicua.Fs.VfsTheorems
import Perspicua.Lib.Except

/-!
# The working directory

`vfs_chdir` and `vfs_getcwd` of `kernel/fs/vfs.c`. The working directory is a vnode, and its path is
put together from the names on the way up to the root. That is the way back only if every vnode
keeps its name whole, and if walking down the names enters the mounts that the way up came through.
-/

namespace Perspicua.Fs.Vfs

open Perspicua.Lib Prog

variable {Obj : Type} {s t : State Obj} {look : Lookup Obj}

/-! ## The calls -/

/-- `vfs_chdir`: the new working directory. -/
def vfsChdir (look : Lookup Obj) (path : Name) (cwd : Option ℕ) : Prog (State Obj) (Except Errno ℕ) := do
  match ← vfsResolvePath look path cwd with
  | .error e => pure (.error e)
  | .ok node => do
    let s ← Prog.get
    if !(s.vnodes node).dir then pure (.error .enotdir) else pure (.ok node)

/-- The loop of `vfs_getcwd`, with the part of `temp_path` that is filled. Every round fills at least
a byte, so the buffer is full before the rounds run out. -/
def cwdLoop (s : State Obj) : ℕ → ℕ → Name → Except Errno Name
  | 0, _, _ => .error .einval
  | rounds + 1, node, path =>
    match (s.vnodes node).parent with
    | none => .ok path
    | some parent =>
      if vfsMaxPathLen - 1 - path.length < (s.vnodes node).name.length + 1 then .error .einval
      else cwdLoop s rounds parent (slash :: (s.vnodes node).name ++ path)

/-- `vfs_getcwd` with a buffer of `size` bytes. -/
def vfsGetcwd (s : State Obj) (cwd : Option ℕ) (size : ℕ) : Except Errno Name :=
  if size = 0 then .error .einval
  else
    match cwd with
    | none => .error .enoent
    | some curr =>
      if (s.vnodes curr).parent = none then if size < 2 then .error .einval else .ok [slash]
      else
        match cwdLoop s vfsMaxPathLen curr [] with
        | .error e => .error e
        | .ok path => if path.length ≥ size then .error .einval else .ok path

/-- The vnodes and mounts, and the working directory of a process. -/
structure Cwd (Obj : Type) where
  table : State Obj
  cwd : Option ℕ

/-- The process changes its directory, or some process resolves a path. -/
inductive CwdAct
  | chdir (path : Name)
  | resolve (path : Name) (cwd : Option ℕ)

def cwdStep (look : Lookup Obj) (x : Cwd Obj) : CwdAct → Option (Cwd Obj)
  | .chdir path =>
    match vfsChdir look path x.cwd x.table with
    | (.error _, table) => some { x with table := table }
    | (.ok node, table) => some ⟨table, some node⟩
  | .resolve path cwd => some { x with table := (vfsResolvePath look path cwd x.table).2 }

/-! ## Names -/

/-- What a component does to the names on the way up. -/
def stepNames (names : List Name) (token : Name) : List Name :=
  if token = dot then names else if token = dotdot then names.tail else token :: names

/-- The names from a vnode up to the root. -/
inductive Named (s : State Obj) : ℕ → List Name → Prop
  | root {c : ℕ} : c < s.next → (s.vnodes c).parent = none → Named s c []
  | child {c p : ℕ} {names : List Name} : c < s.next → (s.vnodes c).parent = some p →
      Proper (s.vnodes c).name → Named s p names → Named s c ((s.vnodes c).name :: names)

theorem Named.grows {c : ℕ} {names : List Name} (h : Named s c names) (hg : Grows s t) : Named t c names := by
  induction h with
  | @root c hlt hparent =>
    refine .root (Nat.lt_of_lt_of_le hlt hg.next) ?_
    rw [hg.vnodes c hlt]
    exact hparent
  | @child c p names hlt hparent hproper _ ih =>
    have hvnode := hg.vnodes c hlt
    rw [← hvnode] at hparent hproper ⊢
    exact .child (Nat.lt_of_lt_of_le hlt hg.next) hparent hproper ih

theorem Named.proper {c : ℕ} {names : List Name} (h : Named s c names) : ∀ n ∈ names, Proper n := by
  induction h with
  | root => exact fun n hn => absurd hn List.not_mem_nil
  | child _ _ hproper _ ih =>
    intro n hn
    rcases List.mem_cons.mp hn with rfl | hn
    · exact hproper
    · exact ih n hn

theorem tokensFrom_valid {acc path : Name} (hacc : slash ∉ acc) :
    ∀ n ∈ tokensFrom acc path, n ≠ [] ∧ slash ∉ n := by
  induction path generalizing acc with
  | nil =>
    intro n hn
    unfold tokensFrom at hn
    by_cases hempty : acc = []
    · rw [if_pos hempty] at hn
      cases hn
    · rw [if_neg hempty, List.mem_singleton] at hn
      rw [hn]
      exact ⟨hempty, hacc⟩
  | cons c path ih =>
    intro n hn
    unfold tokensFrom at hn
    by_cases hslash : c = slash
    · rw [if_pos hslash] at hn
      by_cases hempty : acc = []
      · rw [if_pos hempty] at hn
        exact ih List.not_mem_nil n hn
      · rw [if_neg hempty] at hn
        rcases List.mem_cons.mp hn with rfl | hn
        · exact ⟨hempty, hacc⟩
        · exact ih List.not_mem_nil n hn
    · rw [if_neg hslash] at hn
      refine ih ?_ n hn
      rw [List.mem_append, List.mem_singleton, not_or]
      exact ⟨hacc, Ne.symm hslash⟩

/-- A component of a path is neither empty nor does it have a separator. -/
theorem tokens_valid {path n : Name} (hn : n ∈ tokens path) : n ≠ [] ∧ slash ∉ n :=
  tokensFrom_valid List.not_mem_nil n hn

/-- A name that a vnode keeps whole, if any directory has it. -/
def Fits (look : Lookup Obj) (n : Name) : Prop := n.length ≤ 255 ∨ ∀ o, look o n = none

/-- One component down or up, the names go along. -/
theorem resolveToken_named {c : ℕ} {names : List Name} {token : Name} (hs : WellMounted s)
    (h : Named s c names) (hvalid : token ≠ [] ∧ slash ∉ token) (hfits : Fits look token) :
    Ends (resolveToken look c token) s fun r t => ∀ c', r = .ok c' → Named t c' (stepNames names token) := by
  unfold resolveToken stepNames
  rw [ends_bind, ends_get]
  dsimp only
  apply ends_ite
  · rintro _ c' ⟨⟩
  intro _
  apply ends_ite
  · rintro hdot c' ⟨⟩
    rw [if_pos hdot]
    exact h
  intro hdot
  rw [if_neg hdot]
  apply ends_ite
  · rintro hdotdot c' ⟨⟩
    rw [if_pos hdotdot]
    cases h with
    | root hlt hparent =>
      rw [hparent]
      exact .root hlt hparent
    | child _ hparent _ hup =>
      rw [hparent]
      exact hup
  intro hdotdot
  rw [if_neg hdotdot]
  have hproper : Proper token := ⟨hvalid.1, hvalid.2, hdot, hdotdot⟩
  cases hcross : crossing s c token with
  | some e =>
    rintro c' ⟨⟩
    obtain ⟨htail, hparent, hname⟩ := crossing_some hcross
    subst hname
    exact .child (hs.lt e (List.mem_of_mem_tail htail)) hparent hproper h
  | none =>
    apply ends_ite
    · rintro _ c' ⟨⟩
    intro _
    cases hfound : look (s.vnodes c).object token with
    | none => rintro c' ⟨⟩
    | some f =>
      rw [ends_bind, ends_modify, ends_pure]
      rintro c' ⟨⟩
      -- the name is short, or it would not have been found
      have hshort : token.take 255 = token := by
        refine List.take_of_length_le (hfits.resolve_right fun hnone => ?_)
        rw [hnone] at hfound
        cases hfound
      have hg := s.alloc_grows { f with name := token.take 255, parent := some c }
      have hnew := s.alloc_next { f with name := token.take 255, parent := some c }
      have hname : ((s.alloc { f with name := token.take 255, parent := some c }).vnodes s.next).name = token := by
        rw [hnew]
        exact hshort
      have hchild := Named.child (Nat.lt_succ_self s.next) (by rw [hnew]) (by rw [hname]; exact hproper)
        (h.grows hg)
      rw [hname] at hchild
      exact hchild

/-- The root of a mount is named by the mount's path. -/
theorem WellMounted.named (hs : WellMounted s) {e : MountEntry} (he : e ∈ s.mounts) :
    Named s e.root (tokens e.path).reverse := by
  refine hs.induct (P := fun e => Named s e.root (tokens e.path).reverse) ?_ ?_ he
  · intro e hfirst hpath
    rw [hpath]
    exact .root (hs.lt e (List.mem_of_mem_head? hfirst)) (hs.first e hfirst).2
  · intro e htail e' he' n hn hpath hparent hname ih
    rw [hpath, tokens_below hn, List.reverse_append, List.reverse_singleton, List.singleton_append]
    subst hname
    exact .child (hs.lt e (List.mem_of_mem_tail htail)) hparent hn ih

/-! ## Places that can be walked to -/

section Stands

variable {points : List (List Name × Found Obj)} {top : Found Obj} {place place' : List (Name × Found Obj)}

theorem componentWalk_append (xs ys : List Name) (place : List (Name × Found Obj)) :
    componentWalk look points top (xs ++ ys) place =
      (componentWalk look points top xs place).bind (componentWalk look points top ys) := by
  induction xs generalizing place with
  | nil => rfl
  | cons x xs ih =>
    rw [List.cons_append, componentWalk, componentWalk]
    cases componentStep look points top place x with
    | error e => rfl
    | ok place' => exact ih place'

/-- Where one component leads. -/
theorem componentStep_cases {token : Name} (h : componentStep look points top place token = .ok place') :
    token = dot ∧ place' = place ∨ token = dotdot ∧ place' = place.tail ∨
      token ≠ dot ∧ token ≠ dotdot ∧ ∃ f, place' = (token, f) :: place := by
  unfold componentStep at h
  split at h
  · cases h
  split at h
  next hdot =>
    cases h
    exact .inl ⟨hdot, rfl⟩
  next hdot =>
    split at h
    next hdotdot =>
      cases h
      exact .inr (.inl ⟨hdotdot, rfl⟩)
    next hdotdot =>
      refine .inr (.inr ⟨hdot, hdotdot, ?_⟩)
      split at h
      · cases h
        exact ⟨_, rfl⟩
      · split at h
        · cases h
        · split at h
          · cases h
          · cases h
            exact ⟨_, rfl⟩

theorem componentStep_names {token : Name} (h : componentStep look points top place token = .ok place') :
    place'.map Prod.fst = stepNames (place.map Prod.fst) token := by
  unfold stepNames
  rcases componentStep_cases h with ⟨hdot, rfl⟩ | ⟨hdotdot, rfl⟩ | ⟨hdot, hdotdot, f, rfl⟩
  · rw [if_pos hdot]
  · rw [if_neg (by rw [hdotdot]; decide), if_pos hdotdot, List.map_tail]
  · rw [if_neg hdot, if_neg hdotdot]
    rfl

/-- The names on the way to a place lead there, from the root. -/
def Stands (look : Lookup Obj) (points : List (List Name × Found Obj)) (top : Found Obj)
    (place : List (Name × Found Obj)) : Prop :=
  componentWalk look points top (way place) [] = .ok place

theorem Stands.tail (h : Stands look points top place) (hproper : ∀ n ∈ place.map Prod.fst, Proper n) :
    Stands look points top place.tail := by
  cases place with
  | nil => exact h
  | cons first place =>
    obtain ⟨n, f⟩ := first
    have hn := hproper n (List.mem_cons_self)
    unfold Stands at h
    rw [way_cons, componentWalk_append] at h
    obtain ⟨mid, hw, h⟩ := bind_eq_ok.mp h
    obtain ⟨place', hstep, h⟩ := bind_eq_ok.mp h
    cases h
    rcases componentStep_cases hstep with ⟨hdot, -⟩ | ⟨hdotdot, -⟩ | ⟨-, -, f', heq⟩
    · exact absurd hdot hn.ne_dot
    · exact absurd hdotdot hn.ne_dotdot
    · cases heq
      exact hw

theorem Stands.step {token : Name} (h : Stands look points top place)
    (hproper : ∀ n ∈ place.map Prod.fst, Proper n)
    (hstep : componentStep look points top place token = .ok place') : Stands look points top place' := by
  rcases componentStep_cases hstep with ⟨-, rfl⟩ | ⟨-, rfl⟩ | ⟨-, -, f, rfl⟩
  · exact h
  · exact h.tail hproper
  · unfold Stands at h ⊢
    rw [way_cons, componentWalk_append, h]
    show (componentStep look points top place token).bind _ = _
    rw [hstep]
    rfl

end Stands

/-! ## Walking to a vnode -/

/-- A vnode at a place that its names lead to. -/
structure At (look : Lookup Obj) (s : State Obj) (c : ℕ) (place : List (Name × Found Obj)) : Prop where
  located : Located s c place
  named : Named s c (place.map Prod.fst)
  stands : ∀ e0, s.mounts.head? = some e0 → Stands look s.points (s.found e0.root) place

section Walk

variable {c : ℕ} {place : List (Name × Found Obj)} {e0 : MountEntry}

theorem Located.head (h : Located s c place) : ∃ e0, s.mounts.head? = some e0 := by
  induction h with
  | first hhead => exact ⟨_, hhead⟩
  | mount _ _ _ _ _ _ ih => exact ih
  | child _ _ _ _ _ ih => exact ih

theorem WellMounted.found_grows (hs : WellMounted s) (hhead : s.mounts.head? = some e0) (hg : Grows s t) :
    t.found e0.root = s.found e0.root :=
  congrArg Vnode.toFound (hg.vnodes _ (hs.lt e0 (List.mem_of_mem_head? hhead)))

theorem At.grows (h : At look s c place) (hs : WellMounted s) (hg : Grows s t) : At look t c place := by
  refine ⟨h.located.grows hs hg, h.named.grows hg, fun e0 hhead => ?_⟩
  rw [hg.mounts] at hhead
  rw [State.points_grows hs hg, hs.found_grows hhead hg]
  exact h.stands e0 hhead

/-- Where a step of the resolution ends, if it does. -/
def Reaches (look : Lookup Obj) (s t : State Obj) (r : Except Errno ℕ) : Prop :=
  Grows s t ∧ ∀ c, r = .ok c → ∃ place, At look t c place

theorem resolveToken_at (hs : WellMounted s) (hhead : s.mounts.head? = some e0) (h : At look s c place)
    {token : Name} (hvalid : token ≠ [] ∧ slash ∉ token) (hfits : Fits look token) :
    Ends (resolveToken look c token) s fun r t => Reaches look s t r := by
  refine ((resolveToken_agrees hs hhead h.located token).and
    (resolveToken_named hs h.named hvalid hfits)).mono ?_
  rintro r t ⟨⟨hg, hr⟩, hnamed⟩
  refine ⟨hg, fun c' hc' => ?_⟩
  subst hc'
  cases hstep : componentStep look s.points (s.found e0.root) place token with
  | error e =>
    rw [hstep] at hr
    exact hr.elim
  | ok place' =>
    rw [hstep] at hr
    refine ⟨place', hr, ?_, fun e1 hhead1 => ?_⟩
    · rw [componentStep_names hstep]
      exact hnamed c' rfl
    · rw [hg.mounts] at hhead1
      obtain rfl := Option.some.inj (hhead.symm.trans hhead1)
      rw [State.points_grows hs hg, hs.found_grows hhead hg]
      exact (h.stands e0 hhead).step h.named.proper hstep

theorem resolveTokens_at (names : List Name) (hs : WellMounted s) (hhead : s.mounts.head? = some e0)
    (h : At look s c place) (hnames : ∀ n ∈ names, (n ≠ [] ∧ slash ∉ n) ∧ Fits look n) :
    Ends (resolveTokens look names c) s fun r t => Reaches look s t r := by
  induction names generalizing s c place with
  | nil => exact ⟨.refl s, fun c' hc' => ⟨place, by cases hc'; exact h⟩⟩
  | cons token names ih =>
    obtain ⟨hvalid, hfits⟩ := hnames token List.mem_cons_self
    rw [resolveTokens]
    refine (resolveToken_at hs hhead h hvalid hfits).bind ?_
    rintro r t ⟨hg, hr⟩
    cases r with
    | error e => exact ⟨hg, fun c' hc' => by cases hc'⟩
    | ok c' =>
      obtain ⟨place', h'⟩ := hr c' rfl
      have hrest := ih (hs.grows hg) (by rw [hg.mounts]; exact hhead) h'
        fun n hn => hnames n (List.mem_cons_of_mem _ hn)
      exact hrest.mono fun r u hu => ⟨hg.trans hu.1, hu.2⟩

/-- The root of a mount is where its path leads. -/
theorem WellMounted.at_mount (hs : WellMounted s) (look : Lookup Obj) {e : MountEntry} (he : e ∈ s.mounts) :
    ∃ place, At look s e.root place := by
  obtain ⟨e0, hhead⟩ : ∃ e0, s.mounts.head? = some e0 := by
    cases hm : s.mounts with
    | nil => rw [hm] at he; cases he
    | cons e0 rest => exact ⟨e0, rfl⟩
  obtain ⟨place, hl, hwalk⟩ := componentWalk_mount look hs hhead he
  have hway := hl.way_root hs he rfl
  refine ⟨place, hl, ?_, fun e1 hhead1 => ?_⟩
  · have hnames : place.map Prod.fst = (tokens e.path).reverse := by
      rw [← hway, way, List.reverse_reverse]
    rw [hnames]
    exact hs.named he
  · obtain rfl := Option.some.inj (hhead.symm.trans hhead1)
    unfold Stands
    rw [hway]
    have hall := hwalk []
    rw [List.append_nil] at hall
    exact hall

/-- A path that is copied whole and whose names are kept whole. -/
def PathFits (look : Lookup Obj) (path : Name) : Prop :=
  path.length < vfsMaxPathLen ∧ ∀ n ∈ tokens path, Fits look n

theorem resolveRest_at {path rest : Name} (hs : WellMounted s) (h : At look s c place)
    (hrest : PathFits look rest) :
    Ends (resolveRest look path rest c) s fun r t => Reaches look s t r := by
  have hstay : Reaches look s s (.ok c) := ⟨.refl s, fun c' hc' => ⟨place, by cases hc'; exact h⟩⟩
  obtain ⟨e0, hhead⟩ := h.located.head
  unfold resolveRest
  apply ends_ite
  · intro _
    exact hstay
  intro _
  rw [List.take_of_length_le (by have := hrest.1; omega)]
  refine (resolveTokens_at (tokens rest) hs hhead h fun n hn => ⟨tokens_valid hn, hrest.2 n hn⟩).bind ?_
  rintro r t ⟨hg, hr⟩
  cases r with
  | error e => exact ⟨hg, fun c' hc' => by cases hc'⟩
  | ok c' =>
    dsimp only
    rw [ends_bind, ends_get]
    apply ends_ite
    · intro _
      exact ⟨hg, fun c' hc' => by cases hc'⟩
    · intro _
      exact ⟨hg, hr⟩

/-- Every path ends where its names, put together on the way up, lead to again. -/
theorem vfsResolvePath_at {path : Name} {cwd : Option ℕ} (hs : WellMounted s)
    (hcwd : ∀ v, cwd = some v → ∃ place, At look s v place) (hpath : PathFits look path) :
    Ends (vfsResolvePath look path cwd) s fun r t => Reaches look s t r := by
  have hfail : ∀ e, Reaches look s s (.error e) := fun e => ⟨.refl s, fun c' hc' => by cases hc'⟩
  unfold vfsResolvePath
  rw [ends_bind, ends_get]
  apply ends_ite
  · intro habs
    cases hbest : findMount s.mounts path with
    | none => exact hfail _
    | some best =>
      obtain ⟨hmem, hcovers⟩ := findMount_some hbest
      obtain ⟨place, h⟩ := hs.at_mount look hmem
      dsimp only
      apply ends_ite
      · intro _
        exact ⟨.refl s, fun c' hc' => ⟨place, by cases hc'; exact h⟩⟩
      intro _
      have hsplit := covers_split hcovers (hs.path_root hmem)
      refine resolveRest_at hs h ⟨?_, fun n hn => hpath.2 n ?_⟩
      · refine Nat.lt_of_le_of_lt ?_ hpath.1
        split
        · rw [List.length_tail, List.length_drop]
          omega
        · rw [List.length_drop]
          omega
      · rw [hsplit]
        exact List.mem_append_right _ hn
  · intro _
    cases cwd with
    | some v =>
      obtain ⟨place, h⟩ := hcwd v rfl
      exact resolveRest_at hs h hpath
    | none =>
      cases hbest : findMount s.mounts [slash] with
      | none => exact hfail _
      | some best =>
        obtain ⟨place, h⟩ := hs.at_mount look (findMount_some hbest).1
        exact resolveRest_at hs h hpath

end Walk

/-! ## The way back -/

section Back

variable {c : ℕ} {place : List (Name × Found Obj)}

/-- What the loop puts together: the names, if they fit. -/
theorem Named.cwdLoop_eq {names : List Name} (h : Named s c names) : ∀ {rounds : ℕ} {path : Name},
    path.length < vfsMaxPathLen → vfsMaxPathLen ≤ rounds + path.length →
    cwdLoop s rounds c path =
      if (names.reverse.flatMap fun n => slash :: n).length + path.length < vfsMaxPathLen then
        .ok ((names.reverse.flatMap fun n => slash :: n) ++ path)
      else .error .einval := by
  induction h with
  | @root c _ hparent =>
    intro rounds path hpath hrounds
    obtain ⟨rounds, rfl⟩ := Nat.exists_eq_succ_of_ne_zero (show rounds ≠ 0 by omega)
    unfold cwdLoop
    rw [hparent, List.reverse_nil, List.flatMap_nil, List.length_nil, Nat.zero_add, if_pos hpath]
    rfl
  | @child c p names _ hparent _ _ ih =>
    intro rounds path hpath hrounds
    obtain ⟨rounds, rfl⟩ := Nat.exists_eq_succ_of_ne_zero (show rounds ≠ 0 by omega)
    have hflat : ((s.vnodes c).name :: names).reverse.flatMap (fun n => slash :: n) =
        names.reverse.flatMap (fun n => slash :: n) ++ slash :: (s.vnodes c).name := by
      rw [List.reverse_cons, List.flatMap_append, List.flatMap_singleton]
    unfold cwdLoop
    rw [hparent, hflat, List.length_append, List.length_cons]
    dsimp only
    by_cases hfull : vfsMaxPathLen - 1 - path.length < (s.vnodes c).name.length + 1
    · rw [if_pos hfull, if_neg (by omega)]
    · have hlen : (slash :: (s.vnodes c).name ++ path).length = (s.vnodes c).name.length + 1 + path.length := by
        rw [List.length_append, List.length_cons]
      rw [if_neg hfull, ih (by omega) (by omega), hlen, ← Nat.add_assoc, List.append_assoc]

/-- What `vfs_getcwd` returns: the path spelled from the names, unless it does not fit. -/
theorem At.vfsGetcwd_eq (h : At look s c place) (size : ℕ) : vfsGetcwd s (some c) size =
    if (spell (way place)).length < vfsMaxPathLen ∧ (spell (way place)).length < size then
      .ok (spell (way place)) else .error .einval := by
  have hnamed := h.named
  have hway : (place.map Prod.fst).reverse = way place := rfl
  unfold vfsGetcwd
  generalize hnames : place.map Prod.fst = names at hnamed hway
  cases hnamed with
  | root hlt hparent =>
    rw [← hway]
    have hlen : (spell ([] : List Name).reverse).length = 1 := rfl
    rw [hlen]
    dsimp only
    by_cases hzero : size = 0
    · rw [if_pos hzero, if_neg (by omega)]
    · rw [if_neg hzero, if_pos hparent]
      by_cases hsmall : size < 2
      · rw [if_pos hsmall, if_neg (by omega)]
      · rw [if_neg hsmall, if_pos ⟨by decide, by omega⟩]
        rfl
  | @child _ p names hlt hparent hproper hup =>
    have hspell : spell (way place) =
        ((s.vnodes c).name :: names).reverse.flatMap fun n => slash :: n := by
      rw [← hway, spell, if_neg (by simp)]
    have hloop := (Named.child hlt hparent hproper hup).cwdLoop_eq
      (show ([] : Name).length < vfsMaxPathLen by decide) (Nat.le_add_right vfsMaxPathLen _)
    rw [List.length_nil, Nat.add_zero, List.append_nil, ← hspell] at hloop
    dsimp only
    rw [hloop]
    by_cases hzero : size = 0
    · rw [if_pos hzero, if_neg (by omega)]
    rw [if_neg hzero, if_neg (by rw [hparent]; simp)]
    by_cases hlong : (spell (way place)).length < vfsMaxPathLen
    · rw [if_pos hlong]
      dsimp only
      by_cases hfit : (spell (way place)).length < size
      · rw [if_neg (by omega), if_pos ⟨hlong, hfit⟩]
      · rw [if_pos (by omega), if_neg (fun hc => hfit hc.2)]
    · rw [if_neg hlong, if_neg (fun hc => hlong hc.1)]

theorem tokens_spell {names : List Name} (h : ∀ n ∈ names, Proper n) : tokens (spell names) = names := by
  unfold spell
  by_cases hempty : names = []
  · rw [if_pos hempty, hempty]
    rfl
  rw [if_neg hempty]
  clear hempty
  induction names using List.reverseRecOn with
  | nil => rfl
  | append_singleton names n ih =>
    rw [List.flatMap_append, List.flatMap_singleton, tokens_append,
      ih fun m hm => h m (List.mem_append_left _ hm), (h n (by simp)).tokens]

theorem spell_abs (names : List Name) : (spell names).head? = some slash := by
  unfold spell
  cases names with
  | nil => rfl
  | cons n names => rfl

/-- The path of a directory resolves to that directory. -/
theorem At.resolve_spell (hs : WellMounted s) (h : At look s c place) (hdir : (s.vnodes c).dir = true)
    (hlen : (spell (way place)).length < vfsMaxPathLen) (cwd : Option ℕ) :
    Ends (vfsResolvePath look (spell (way place)) cwd) s fun r t => r.map t.found = .ok (s.found c) := by
  obtain ⟨e0, hhead⟩ := h.located.head
  have hproper : ∀ n ∈ way place, Proper n := fun n hn => h.named.proper n (List.mem_reverse.mp hn)
  refine (hs.resolve_eq (spell_abs _) hlen cwd).mono ?_
  intro r t hr
  rw [hr]
  unfold componentResolve
  rw [hs.points_top hhead]
  dsimp only
  rw [tokens_spell hproper, show componentWalk _ _ _ _ _ = _ from h.stands e0 hhead]
  show (if _ then _ else _) = _
  rw [h.located.here_eq hhead, show (s.found c).dir = true from hdir, Bool.not_true, Bool.and_false,
    if_neg Bool.false_ne_true]

end Back

/-! ## Every run -/

/-- The paths that the process changes to are kept whole. -/
def NamesKept (look : Lookup Obj) (_ : Cwd Obj) : CwdAct → Prop
  | .chdir path => PathFits look path
  | .resolve .. => True

/-- The working directory is a directory that its names lead to. -/
structure CwdOk (look : Lookup Obj) (x : Cwd Obj) : Prop where
  mounted : WellMounted x.table
  here : ∀ v, x.cwd = some v → (x.table.vnodes v).dir = true ∧ ∃ place, At look x.table v place

theorem CwdOk.grows {x : Cwd Obj} (h : CwdOk look x) (hg : Grows x.table t) : CwdOk look { x with table := t } := by
  refine ⟨h.mounted.grows hg, fun v hv => ?_⟩
  obtain ⟨hdir, place, hat⟩ := h.here v hv
  refine ⟨?_, place, hat.grows h.mounted hg⟩
  rw [hg.vnodes v (hat.located.lt h.mounted)]
  exact hdir

theorem CwdOk.step {x y : Cwd Obj} {a : CwdAct} (h : CwdOk look x)
    (hstep : Guarded (NamesKept look) (Moves (cwdStep look)) x a y) : CwdOk look y := by
  obtain ⟨hkept, hmove⟩ := hstep
  cases a with
  | resolve path cwd =>
    obtain rfl := Option.some.inj hmove
    exact h.grows (vfsResolvePath_grows path cwd x.table)
  | chdir path =>
    have hends : Ends (vfsChdir look path x.cwd) x.table fun r t => Grows x.table t ∧
        ∀ c, r = .ok c → (t.vnodes c).dir = true ∧ ∃ place, At look t c place := by
      unfold vfsChdir
      refine (vfsResolvePath_at h.mounted (fun v hv => (h.here v hv).2) hkept).bind ?_
      rintro r t ⟨hg, hr⟩
      cases r with
      | error e => exact ⟨hg, fun c hc => by cases hc⟩
      | ok c =>
        dsimp only
        rw [ends_bind, ends_get]
        apply ends_ite
        · intro _
          exact ⟨hg, fun c hc => by cases hc⟩
        · intro hdir
          refine ⟨hg, fun c' hc' => ?_⟩
          cases hc'
          refine ⟨?_, hr c rfl⟩
          show (t.vnodes c).dir = true
          simpa using hdir
    rw [Moves, cwdStep] at hmove
    obtain ⟨hg, hr⟩ := hends
    cases hres : vfsChdir look path x.cwd x.table with
    | mk r t =>
      rw [hres] at hmove hg hr
      cases r with
      | error e =>
        obtain rfl := Option.some.inj hmove
        exact h.grows hg
      | ok c =>
        obtain rfl := Option.some.inj hmove
        refine ⟨h.mounted.grows hg, fun v hv => ?_⟩
        obtain rfl := Option.some.inj hv
        exact hr c rfl

/-- After every run that mounts only directly below mounts, and after any changes of directory along
paths whose names are kept, over a tree that stays as it is: `vfs_getcwd` gives the absolute path
of the components `names`, or fails because it does not fit, and the path resolves to the working
directory. -/
theorem getcwd_resolves_run {s₀ : State Obj} {as : List (Act Obj)} {bs : List CwdAct} {x : Cwd Obj} {c : ℕ}
    (hempty : s₀.mounts = []) (hmount : Run (Guarded MountsBelow (Moves step)) s₀ as s)
    (hrun : Run (Guarded (NamesKept look) (Moves (cwdStep look))) ⟨s, none⟩ bs x) (hcwd : x.cwd = some c) :
    ∃ names, (∀ n ∈ names, Proper n) ∧
      (∀ size, vfsGetcwd x.table x.cwd size =
        if (spell names).length < vfsMaxPathLen ∧ (spell names).length < size then .ok (spell names)
        else .error .einval) ∧
      ((spell names).length < vfsMaxPathLen → ∀ cwd,
        (vfsResolvePath look (spell names) cwd x.table).1.map
          (vfsResolvePath look (spell names) cwd x.table).2.found = .ok (x.table.found c)) := by
  have hs : WellMounted s :=
    hmount.invariant WellMounted (fun _ _ _ hs h => step_wellMounted hs h) (wellMounted_of_empty hempty)
  have hok : CwdOk look x :=
    hrun.invariant (CwdOk look) (fun _ _ _ h hstep => h.step hstep) ⟨hs, fun v hv => by cases hv⟩
  obtain ⟨hdir, place, hat⟩ := hok.here c hcwd
  refine ⟨way place, fun n hn => hat.named.proper n (List.mem_reverse.mp hn), fun size => ?_, fun hlen cwd => ?_⟩
  · rw [hcwd]
    exact hat.vfsGetcwd_eq size
  · exact hat.resolve_spell hok.mounted hdir hlen cwd

/-- A mount at `/a`, entered from the root. -/
theorem getcwd_resolves_run_two : ∃ s x c,
    Run (Guarded MountsBelow (Moves step)) bootState (mountTwo (name "/a")) s ∧
    Run (Guarded (NamesKept nestedLookup) (Moves (cwdStep nestedLookup))) ⟨s, none⟩
      [.chdir (name "a//.././a/")] x ∧ x.cwd = some c ∧
    ∃ names, (∀ n ∈ names, Proper n) ∧
      (∀ size, vfsGetcwd x.table x.cwd size =
        if (spell names).length < vfsMaxPathLen ∧ (spell names).length < size then .ok (spell names)
        else .error .einval) ∧
      ((spell names).length < vfsMaxPathLen → ∀ cwd,
        (vfsResolvePath nestedLookup (spell names) cwd x.table).1.map
          (vfsResolvePath nestedLookup (spell names) cwd x.table).2.found = .ok (x.table.found c)) := by
  have hexec : (execGuarded MountsBelow step bootState (mountTwo (name "/a"))).any (fun s =>
      (cwdStep nestedLookup ⟨s, none⟩ (.chdir (name "a//.././a/"))).any fun x => x.cwd = some 1) = true := by
    decide +kernel
  obtain ⟨s, hmount, hx⟩ := exists_run_of_execGuarded hexec
  obtain ⟨x, hmove, hcwd⟩ := (Option.any_eq_true ..).mp hx
  have hshort : ∀ n ∈ tokens (name "a//.././a/"), n.length ≤ 255 := by decide
  have hrun : Run (Guarded (NamesKept nestedLookup) (Moves (cwdStep nestedLookup))) ⟨s, none⟩
      [.chdir (name "a//.././a/")] x := .single ⟨⟨by decide, fun n hn => .inl (hshort n hn)⟩, hmove⟩
  exact ⟨s, x, 1, hmount, hrun, of_decide_eq_true hcwd,
    getcwd_resolves_run rfl hmount hrun (of_decide_eq_true hcwd)⟩

/-- With a mount at `/a/b`, the directory that it covers is entered from `/a`. Its path is that of
the mount. -/
theorem getcwd_names_mount : ∃ s x c, Run (Moves step) bootState (mountTwo (name "/a/b")) s ∧
    Run (Moves (cwdStep nestedLookup)) ⟨s, none⟩ [.chdir (name "/a"), .chdir (name "b")] x ∧
    x.cwd = some c ∧ x.table.found c = ⟨2, true, true⟩ ∧
    vfsGetcwd x.table x.cwd 64 = .ok (name "/a/b") ∧
    (vfsResolvePath nestedLookup (name "/a/b") x.cwd x.table).1.map
      (vfsResolvePath nestedLookup (name "/a/b") x.cwd x.table).2.found = .ok ⟨9, true, true⟩ := by
  have hexec : (exec step bootState (mountTwo (name "/a/b"))).any (fun s =>
      (exec (cwdStep nestedLookup) ⟨s, none⟩ [.chdir (name "/a"), .chdir (name "b")]).any fun x =>
        decide (x.cwd.map x.table.found = some ⟨2, true, true⟩ ∧
          vfsGetcwd x.table x.cwd 64 = .ok (name "/a/b") ∧
          (vfsResolvePath nestedLookup (name "/a/b") x.cwd x.table).1.map
            (vfsResolvePath nestedLookup (name "/a/b") x.cwd x.table).2.found = .ok ⟨9, true, true⟩)) = true := by
    decide +kernel
  obtain ⟨s, hmount, hx⟩ := exists_run_of_exec hexec
  obtain ⟨x, hrun, hx⟩ := exists_run_of_exec hx
  obtain ⟨hcwd, hgetcwd, hresolve⟩ := of_decide_eq_true hx
  obtain ⟨c, hc, hfound⟩ := Option.map_eq_some_iff.mp hcwd
  exact ⟨s, x, c, hmount, hrun, hc, hfound, hgetcwd, hresolve⟩

end Perspicua.Fs.Vfs
