import Perspicua.Fs.Vfs

/-!
# Longest prefix and component by component

`vfs_resolve_path` starts at the mount whose path is the longest prefix of the path as it is
spelled, and from there crosses into a mount where the vnode it stands at is the very vnode
the mount has for its parent. The second test fails for a directory that is looked up again, so
the two agree only as long as every mount lies directly below the root of another one.
-/

namespace Perspicua.Fs.Vfs

open Perspicua.Lib Prog

variable {Obj : Type} {s t u : State Obj} {look : Lookup Obj}

/-! ## Tokens -/

theorem tokensFrom_append (acc l r : Name) :
    tokensFrom acc (l ++ slash :: r) = tokensFrom acc l ++ tokens r := by
  induction l generalizing acc with
  | nil =>
    have hslash : tokensFrom acc (slash :: r) =
        if acc = [] then tokens r else acc :: tokens r := by
      rw [tokensFrom, if_pos rfl]
      rfl
    rw [List.nil_append, hslash, tokensFrom]
    split <;> rfl
  | cons c l ih =>
    rw [List.cons_append, tokensFrom, tokensFrom, ih, ih]
    split
    next => split <;> rfl
    next => rfl

/-- A separator separates. -/
theorem tokens_append (l r : Name) : tokens (l ++ slash :: r) = tokens l ++ tokens r :=
  tokensFrom_append [] l r

theorem tokens_slash (r : Name) : tokens (slash :: r) = tokens r := tokens_append [] r

theorem tokensFrom_name {acc n : Name} (h : slash ∉ n) (hne : acc ++ n ≠ []) :
    tokensFrom acc n = [acc ++ n] := by
  induction n generalizing acc with
  | nil =>
    rw [List.append_nil] at hne ⊢
    rw [tokensFrom, if_neg hne]
  | cons c n ih =>
    rw [List.mem_cons, not_or] at h
    rw [tokensFrom, if_neg (Ne.symm h.1), ih h.2 (by simp), List.append_assoc,
      List.singleton_append]

/-- A name that can be the last component of a mount's path. -/
structure Proper (n : Name) : Prop where
  ne_nil : n ≠ []
  slash : Vfs.slash ∉ n
  ne_dot : n ≠ dot
  ne_dotdot : n ≠ dotdot

instance (n : Name) : Decidable (Proper n) :=
  decidable_of_iff (n ≠ [] ∧ slash ∉ n ∧ n ≠ dot ∧ n ≠ dotdot)
    ⟨fun h => ⟨h.1, h.2.1, h.2.2.1, h.2.2.2⟩, fun h => ⟨h.1, h.2, h.3, h.4⟩⟩

theorem Proper.tokens {n : Name} (h : Proper n) : Vfs.tokens n = [n] := tokensFrom_name h.2 h.1

/-- The path of a name in a directory. -/
def below (path n : Name) : Name := if path = [slash] then slash :: n else path ++ slash :: n

theorem tokens_below {path n : Name} (h : Proper n) : tokens (below path n) = tokens path ++ [n] := by
  unfold below
  split
  next hroot =>
    rw [hroot, tokens_slash, h.tokens]
    rfl
  next => rw [tokens_append, h.tokens]

/-- The path spelled from its components. -/
def spell (names : List Name) : Name :=
  if names = [] then [slash] else names.flatMap fun n => slash :: n

theorem spell_below {names : List Name} (n : Name) (hne : names ≠ [] → spell names ≠ [slash]) :
    spell (names ++ [n]) = below (spell names) n := by
  unfold below
  rw [spell, if_neg (by simp), List.flatMap_append, List.flatMap_singleton]
  by_cases h : names = []
  · rw [h]
    rfl
  · rw [if_neg (hne h), spell, if_neg h]

/-! ## Mount tables -/

/-- Every mount lies at the root or directly below the root of another one. -/
structure WellMounted (s : State Obj) : Prop where
  first : ∀ e, s.mounts.head? = some e → e.path = [slash] ∧ (s.vnodes e.root).parent = none
  further : ∀ e ∈ s.mounts.tail, ∃ e' ∈ s.mounts, ∃ n, Proper n ∧ e.path = below e'.path n ∧
    (s.vnodes e.root).parent = some e'.root ∧ (s.vnodes e.root).name = n
  dir : ∀ e ∈ s.mounts, (s.vnodes e.root).dir = true
  lt : ∀ e ∈ s.mounts, e.root < s.next
  paths : (s.mounts.map MountEntry.path).Nodup
  roots : (s.mounts.map MountEntry.root).Nodup

theorem length_below (path : Name) {n : Name} (h : n ≠ []) : path.length < (below path n).length := by
  have := List.length_pos_iff.mpr h
  unfold below
  split
  next hroot => rw [hroot, List.length_cons, List.length_cons]; simpa using this
  next => rw [List.length_append, List.length_cons]; omega

theorem one_lt_length_below (path : Name) {n : Name} (h : n ≠ []) : 1 < (below path n).length := by
  have := List.length_pos_iff.mpr h
  unfold below
  split
  next => rw [List.length_cons]; omega
  next => rw [List.length_append, List.length_cons]; omega

namespace WellMounted

variable {e e' : MountEntry}

theorem mem_cases (h : WellMounted s) (he : e ∈ s.mounts) :
    s.mounts.head? = some e ∧ e.path = [slash] ∨ e ∈ s.mounts.tail := by
  cases hm : s.mounts with
  | nil => rw [hm] at he; cases he
  | cons e0 rest =>
    rw [hm] at he
    rcases List.mem_cons.mp he with rfl | he
    · exact .inl ⟨rfl, (h.first e (by rw [hm]; rfl)).1⟩
    · exact .inr he

/-- Induction over the mounts, from the root down. -/
theorem induct (h : WellMounted s) {P : MountEntry → Prop}
    (hfirst : ∀ e, s.mounts.head? = some e → e.path = [slash] → P e)
    (hfurther : ∀ e ∈ s.mounts.tail, ∀ e' ∈ s.mounts, ∀ n, Proper n → e.path = below e'.path n →
      (s.vnodes e.root).parent = some e'.root → (s.vnodes e.root).name = n → P e' → P e)
    (he : e ∈ s.mounts) : P e := by
  induction hlen : e.path.length using Nat.strongRecOn generalizing e with
  | ind k ih =>
    rcases h.mem_cases he with ⟨hhead, hpath⟩ | htail
    · exact hfirst e hhead hpath
    · obtain ⟨e', he', n, hn, hpath, hparent, hname⟩ := h.further e htail
      refine hfurther e htail e' he' n hn hpath hparent hname (ih _ ?_ he' rfl)
      rw [← hlen, hpath]
      exact length_below _ hn.ne_nil

theorem spell_tokens (h : WellMounted s) (he : e ∈ s.mounts) : e.path = spell (tokens e.path) := by
  refine h.induct (P := fun e => e.path = spell (tokens e.path)) ?_ ?_ he
  · intro e _ hpath
    rw [hpath]
    rfl
  · intro e _ e' he' n hn hpath _ _ ih
    rw [hpath, tokens_below hn, spell_below, ← ih]
    intro hne hspell
    rw [← ih] at hspell
    rw [hspell] at hne
    exact hne rfl

/-- The components of a mount's path determine it. -/
theorem eq_of_tokens (h : WellMounted s) (he : e ∈ s.mounts) (he' : e' ∈ s.mounts)
    (htokens : tokens e.path = tokens e'.path) : e = e' := by
  have hpath : e.path = e'.path := by
    rw [h.spell_tokens he, h.spell_tokens he', htokens]
  exact List.inj_on_of_nodup_map h.paths he he' hpath

theorem eq_of_root (h : WellMounted s) (he : e ∈ s.mounts) (he' : e' ∈ s.mounts)
    (hroot : e.root = e'.root) : e = e' := List.inj_on_of_nodup_map h.roots he he' hroot

theorem canonical_tokens (h : WellMounted s) (he : e ∈ s.mounts) :
    canonical (tokens e.path) = tokens e.path := by
  refine h.induct (P := fun e => canonical (tokens e.path) = tokens e.path) ?_ ?_ he
  · intro e _ hpath
    rw [hpath]
    rfl
  · intro e _ e' he' n hn hpath _ _ ih
    rw [hpath, tokens_below hn, canonical, List.foldl_append]
    rw [canonical] at ih
    rw [ih, List.foldl_cons, List.foldl_nil, if_neg hn.ne_dot, if_neg hn.ne_dotdot]

end WellMounted

/-! ## What a resolution leaves alone -/

/-- The mounts and the vnodes there were are as they were. -/
structure Grows (s t : State Obj) : Prop where
  mounts : t.mounts = s.mounts
  next : s.next ≤ t.next
  vnodes : ∀ v < s.next, t.vnodes v = s.vnodes v

theorem Grows.refl (s : State Obj) : Grows s s := ⟨rfl, Nat.le_refl _, fun _ _ => rfl⟩

theorem Grows.trans (h : Grows s t) (h' : Grows t u) : Grows s u :=
  ⟨h'.mounts.trans h.mounts, Nat.le_trans h.next h'.next,
    fun v hv => (h'.vnodes v (Nat.lt_of_lt_of_le hv h.next)).trans (h.vnodes v hv)⟩

theorem State.alloc_grows (s : State Obj) (n : Vnode Obj) : Grows s (s.alloc n) := by
  refine ⟨rfl, Nat.le_succ _, fun v hv => ?_⟩
  exact Function.update_of_ne (Nat.ne_of_lt hv) _ _

theorem State.alloc_next (s : State Obj) (n : Vnode Obj) : (s.alloc n).vnodes s.next = n :=
  Function.update_self _ _ _

theorem State.setVnode_self (s : State Obj) (v : ℕ) (n : Vnode Obj) : (s.setVnode v n).vnodes v = n :=
  Function.update_self _ _ _

/-- What a table needs of the vnodes is about the roots. -/
theorem WellMounted.of_roots (h : WellMounted s) (hmounts : t.mounts = s.mounts)
    (hnext : s.next ≤ t.next) (hvnodes : ∀ e ∈ s.mounts, t.vnodes e.root = s.vnodes e.root) :
    WellMounted t := by
  constructor
  · intro e he
    rw [hmounts] at he
    rw [hvnodes e (List.mem_of_mem_head? he)]
    exact h.first e he
  · intro e he
    rw [hmounts] at he ⊢
    rw [hvnodes e (List.mem_of_mem_tail he)]
    exact h.further e he
  · intro e he
    rw [hmounts] at he
    rw [hvnodes e he]
    exact h.dir e he
  · intro e he
    rw [hmounts] at he
    exact Nat.lt_of_lt_of_le (h.lt e he) hnext
  · rw [hmounts]
    exact h.paths
  · rw [hmounts]
    exact h.roots

theorem WellMounted.grows (h : WellMounted s) (hg : Grows s t) : WellMounted t :=
  h.of_roots hg.mounts hg.next fun e he => hg.vnodes _ (h.lt e he)

theorem State.points_grows (h : WellMounted s) (hg : Grows s t) : t.points = s.points := by
  unfold State.points State.found
  rw [hg.mounts]
  apply List.map_congr_left
  intro e he
  rw [hg.vnodes _ (h.lt e he)]

/-! ## Where a vnode is -/

/-- A vnode that a walk from the root has reached, and the place it has reached with it. -/
inductive Located (s : State Obj) : ℕ → List (Name × Found Obj) → Prop
  | first {e : MountEntry} : s.mounts.head? = some e → Located s e.root []
  | mount {e e' : MountEntry} {n : Name} {place : List (Name × Found Obj)} :
      e ∈ s.mounts.tail → e' ∈ s.mounts → Proper n → e.path = below e'.path n →
      (s.vnodes e.root).parent = some e'.root → Located s e'.root place →
      Located s e.root ((n, s.found e.root) :: place)
  | child {c p : ℕ} {n : Name} {place : List (Name × Found Obj)} :
      Located s p place → (s.vnodes c).parent = some p → c < s.next →
      (∀ e ∈ s.mounts, e.root ≠ c) → (∀ e ∈ s.mounts, tokens e.path ≠ way place ++ [n]) →
      Located s c ((n, s.found c) :: place)

@[simp] theorem way_cons (n : Name) (f : Found Obj) (place : List (Name × Found Obj)) :
    way ((n, f) :: place) = way place ++ [n] := by
  rw [way, List.map_cons, List.reverse_cons]
  rfl

namespace Located

variable {c : ℕ} {place : List (Name × Found Obj)} {e : MountEntry}

theorem lt (h : Located s c place) (hs : WellMounted s) : c < s.next := by
  cases h with
  | first hhead => exact hs.lt _ (List.mem_of_mem_head? hhead)
  | mount htail => exact hs.lt _ (List.mem_of_mem_tail htail)
  | child _ _ hlt => exact hlt

theorem grows (h : Located s c place) (hs : WellMounted s) (hg : Grows s t) : Located t c place := by
  induction h with
  | first hhead => exact .first (by rw [hg.mounts]; exact hhead)
  | @mount e e' n place htail he' hn hpath hparent _ ih =>
    have hvnode := hg.vnodes e.root (hs.lt e (List.mem_of_mem_tail htail))
    have := Located.mount (s := t) (by rw [hg.mounts]; exact htail) (by rw [hg.mounts]; exact he') hn
      hpath (by rw [hvnode]; exact hparent) ih
    rwa [State.found, hvnode] at this
  | @child c p n place _ hparent hlt hroot hpoint ih =>
    have hvnode := hg.vnodes c hlt
    have := Located.child (s := t) (n := n) ih (by rw [hvnode]; exact hparent)
      (Nat.lt_of_lt_of_le hlt hg.next) (by rw [hg.mounts]; exact hroot)
      (by rw [hg.mounts]; exact hpoint)
    rwa [State.found, hvnode] at this

/-- The root of a mount is reached on the way that its path spells. -/
theorem way_root (h : Located s c place) (hs : WellMounted s) (he : e ∈ s.mounts)
    (hc : c = e.root) : way place = tokens e.path := by
  induction h generalizing e with
  | @first e1 hhead =>
    obtain rfl := hs.eq_of_root (List.mem_of_mem_head? hhead) he hc
    rw [(hs.first _ hhead).1]
    rfl
  | @mount e1 e' n place htail he' hn hpath _ _ ih =>
    obtain rfl := hs.eq_of_root (List.mem_of_mem_tail htail) he hc
    rw [way_cons, hpath, tokens_below hn, ih he' rfl]
  | child _ _ _ hroot => exact absurd hc.symm (hroot e he)

/-- Only the root of a mount is reached on that way. -/
theorem eq_root (h : Located s c place) (hs : WellMounted s) (he : e ∈ s.mounts)
    (hway : way place = tokens e.path) : c = e.root := by
  cases h with
  | @first e1 hhead =>
    have he1 := List.mem_of_mem_head? hhead
    have : tokens e1.path = tokens e.path := by
      rw [← hway, (hs.first _ hhead).1]
      rfl
    rw [hs.eq_of_tokens he1 he this]
  | @mount e1 e' n place htail he' hn hpath hparent hl =>
    have he1 := List.mem_of_mem_tail htail
    have : tokens e1.path = tokens e.path := by
      rw [← hway, way_cons, hpath, tokens_below hn, hl.way_root hs he' rfl]
    rw [hs.eq_of_tokens he1 he this]
  | child _ _ _ _ hpoint => exact absurd hway.symm (by rw [way_cons]; exact hpoint e he)

/-- The vnode is one of the object at the place. -/
theorem here_eq (h : Located s c place) {e0 : MountEntry} (hhead : s.mounts.head? = some e0) :
    here (s.found e0.root) place = s.found c := by
  cases h with
  | first h => rw [Option.some.inj (h.symm.trans hhead)]; rfl
  | mount => rfl
  | child => rfl

/-- The parent is one place up, and the root has none. -/
theorem parent (h : Located s c place) (hs : WellMounted s) :
    Located s ((s.vnodes c).parent.getD c) place.tail := by
  cases h with
  | first hhead =>
    rw [(hs.first _ hhead).2]
    exact .first hhead
  | mount _ _ _ _ hparent hl => rw [hparent]; exact hl
  | child hl hparent => rw [hparent]; exact hl

end Located

/-! ## Crossing into a mount -/

/-- The test by pointer and name finds the mount whose mount point is reached. -/
theorem crossing_iff {c : ℕ} {place : List (Name × Found Obj)} {e : MountEntry} (hs : WellMounted s)
    (hl : Located s c place) (he : e ∈ s.mounts.tail) (token : Name) :
    ((s.vnodes e.root).parent = some c ∧ (s.vnodes e.root).name = token) ↔
      tokens e.path = way place ++ [token] := by
  obtain ⟨e', he', n, hn, hpath, hparent, hname⟩ := hs.further e he
  rw [hparent, hname, hpath, tokens_below hn]
  constructor
  · rintro ⟨hc, rfl⟩
    rw [hl.way_root hs he' (Option.some.inj hc).symm]
  · intro htokens
    obtain ⟨hway, hlast⟩ := List.append_inj' htokens rfl
    refine ⟨?_, by simpa using hlast⟩
    rw [hl.eq_root hs he' hway.symm]

theorem crossing_some {c : ℕ} {token : Name} {e : MountEntry} (h : crossing s c token = some e) :
    e ∈ s.mounts.tail ∧ (s.vnodes e.root).parent = some c ∧ (s.vnodes e.root).name = token := by
  unfold crossing at h
  exact ⟨List.mem_of_find?_eq_some h, by simpa using List.find?_some h⟩

theorem crossing_none {c : ℕ} {token : Name} {e : MountEntry} (h : crossing s c token = none)
    (he : e ∈ s.mounts.tail) :
    ¬ ((s.vnodes e.root).parent = some c ∧ (s.vnodes e.root).name = token) := by
  unfold crossing at h
  simpa using List.find?_eq_none.mp h e he

/-- Both ways of looking for a mount find the same one. -/
theorem crossing_eq {c : ℕ} {place : List (Name × Found Obj)} (hs : WellMounted s)
    (hl : Located s c place) (token : Name) :
    (crossing s c token).map (fun e => (canonical (tokens e.path), s.found e.root)) =
      s.points.find? fun p => p.1 = way place ++ [token] := by
  have hpoints : (s.points.find? fun p => p.1 = way place ++ [token]) =
      (s.mounts.find? fun e => canonical (tokens e.path) = way place ++ [token]).map
        fun e => (canonical (tokens e.path), s.found e.root) := List.find?_map
  rw [hpoints, crossing]
  congr 1
  cases hm : s.mounts with
  | nil => rfl
  | cons e0 rest =>
    have hfirst : e0.path = [slash] := (hs.first e0 (by rw [hm]; rfl)).1
    have hmem : ∀ e ∈ rest, e ∈ s.mounts.tail := fun e he => by rw [hm]; exact he
    rw [List.find?_cons_of_neg (by rw [hfirst]; simp [tokens, tokensFrom, canonical]), List.tail_cons]
    rw [← List.head?_filter, ← List.head?_filter]
    congr 1
    apply List.filter_congr
    intro e he
    have hiff := crossing_iff hs hl (hmem e he) token
    rw [hs.canonical_tokens (List.mem_of_mem_tail (hmem e he))]
    exact decide_eq_decide.mpr hiff

/-! ## The walk -/

/-- How a resolution and a walk over components end together: with the same error, or at a place
with a vnode for it. -/
def Agrees (s t : State Obj) (r : Except Errno ℕ) (r' : Except Errno (List (Name × Found Obj))) :
    Prop :=
  Grows s t ∧
    match r, r' with
    | .error e, .error e' => e = e'
    | .ok c, .ok place => Located t c place
    | _, _ => False

theorem resolveToken_agrees {c : ℕ} {place : List (Name × Found Obj)} {e0 : MountEntry}
    (hs : WellMounted s) (hhead : s.mounts.head? = some e0) (hl : Located s c place) (token : Name) :
    Ends (resolveToken look c token) s fun r t =>
      Agrees s t r (componentStep look s.points (s.found e0.root) place token) := by
  unfold resolveToken componentStep
  rw [ends_bind, ends_get, hl.here_eq hhead, ← crossing_eq hs hl]
  dsimp only
  apply ends_ite
  · intro hdir
    rw [if_pos (show (!(s.found c).dir) = true from hdir), ends_pure]
    exact ⟨.refl s, rfl⟩
  intro hdir
  rw [if_neg (show ¬ (!(s.found c).dir) = true from hdir)]
  apply ends_ite
  · intro hdot
    rw [if_pos hdot, ends_pure]
    exact ⟨.refl s, hl⟩
  intro hdot
  rw [if_neg hdot]
  apply ends_ite
  · intro hdotdot
    rw [if_pos hdotdot, ends_pure]
    exact ⟨.refl s, hl.parent hs⟩
  intro hdotdot
  rw [if_neg hdotdot]
  cases hcross : crossing s c token with
  | some e =>
    -- the mount's parent is a mount, and its path is one component longer
    rw [Option.map_some, ends_pure]
    refine ⟨.refl s, ?_⟩
    obtain ⟨htail, hparent, hname⟩ := crossing_some hcross
    obtain ⟨e', he', n, hn, hpath, hparent', hname'⟩ := hs.further e htail
    obtain rfl : c = e'.root := Option.some.inj (hparent.symm.trans hparent')
    obtain rfl : n = token := hname'.symm.trans hname
    exact .mount htail he' hn hpath hparent' hl
  | none =>
    rw [Option.map_none]
    apply ends_ite
    · intro hlookup
      rw [if_pos (show (!(s.found c).hasLookup) = true from hlookup), ends_pure]
      exact ⟨.refl s, rfl⟩
    intro hlookup
    rw [if_neg (show ¬ (!(s.found c).hasLookup) = true from hlookup)]
    cases hfound : look (s.vnodes c).object token with
    | none =>
      rw [show look (s.found c).object token = none from hfound]
      exact ⟨.refl s, rfl⟩
    | some f =>
      rw [show look (s.found c).object token = some f from hfound]
      rw [ends_bind, ends_modify, ends_pure]
      have hg := s.alloc_grows { f with name := token.take 255, parent := some c }
      refine ⟨hg, ?_⟩
      have hnew := s.alloc_next { f with name := token.take 255, parent := some c }
      have hno : ∀ e ∈ s.mounts, tokens e.path ≠ way place ++ [token] := by
        intro e he htokens
        rcases hs.mem_cases he with ⟨-, hpath⟩ | htail
        · rw [hpath] at htokens
          simp [tokens, tokensFrom] at htokens
        · exact crossing_none hcross htail ((crossing_iff hs hl htail token).mpr htokens)
      have := Located.child (s := s.alloc { f with name := token.take 255, parent := some c })
        (n := token) (hl.grows hs hg) (by rw [hnew]) (Nat.lt_succ_self _)
        (fun e he => Nat.ne_of_lt (hs.lt e he)) hno
      rwa [State.found, hnew] at this

theorem resolveTokens_agrees {e0 : MountEntry} (names : List Name) {c : ℕ}
    {place : List (Name × Found Obj)} (hs : WellMounted s) (hhead : s.mounts.head? = some e0)
    (hl : Located s c place) :
    Ends (resolveTokens look names c) s fun r t =>
      Agrees s t r (componentWalk look s.points (s.found e0.root) names place) := by
  induction names generalizing s c place with
  | nil => exact ⟨.refl s, hl⟩
  | cons token names ih =>
    rw [resolveTokens, componentWalk]
    refine (resolveToken_agrees hs hhead hl token).bind ?_
    rintro r t ⟨hg, hr⟩
    generalize componentStep look s.points (s.found e0.root) place token = r' at hr ⊢
    rcases r with e | c' <;> rcases r' with e' | place'
    · exact ⟨hg, hr⟩
    · exact hr.elim
    · exact hr.elim
    · have hs' := hs.grows hg
      have htop : t.found e0.root = s.found e0.root :=
        congrArg Vnode.toFound (hg.vnodes _ (hs.lt e0 (List.mem_of_mem_head? hhead)))
      have hrest := ih hs' (by rw [hg.mounts]; exact hhead) hr
      rw [State.points_grows hs hg, htop] at hrest
      exact hrest.mono fun r u h => ⟨hg.trans h.1, h.2⟩

/-- A walk along a mount's path ends at the mount. -/
theorem componentWalk_mount (look : Lookup Obj) {e e0 : MountEntry} (hs : WellMounted s)
    (hhead : s.mounts.head? = some e0) (he : e ∈ s.mounts) :
    ∃ place, Located s e.root place ∧
      ∀ rest, componentWalk look s.points (s.found e0.root) (tokens e.path ++ rest) [] =
        componentWalk look s.points (s.found e0.root) rest place := by
  refine hs.induct (P := fun e => ∃ place, Located s e.root place ∧
    ∀ rest, componentWalk look s.points (s.found e0.root) (tokens e.path ++ rest) [] =
      componentWalk look s.points (s.found e0.root) rest place) ?_ ?_ he
  · intro e hfirst hpath
    refine ⟨[], .first hfirst, ?_⟩
    intro rest
    rw [hpath]
    rfl
  · rintro e htail e' he' n hn hpath hparent hname ⟨place, hl, hwalk⟩
    have hcross := crossing_iff hs hl htail n
    refine ⟨_, .mount htail he' hn hpath hparent hl, ?_⟩
    intro rest
    rw [hpath, tokens_below hn, List.append_assoc, hwalk, List.singleton_append, componentWalk]
    have hpoint : (s.points.find? fun p => p.1 = way place ++ [n]) =
        some (canonical (tokens e.path), s.found e.root) := by
      rw [← crossing_eq hs hl]
      have hsome : crossing s e'.root n = some e := by
        cases hfind : crossing s e'.root n with
        | none => exact absurd ⟨hparent, hname⟩ (crossing_none hfind htail)
        | some e1 =>
          obtain ⟨htail1, hfound⟩ := crossing_some hfind
          have h1 := (crossing_iff hs hl htail1 n).mp hfound
          rw [hs.eq_of_tokens (List.mem_of_mem_tail htail1) (List.mem_of_mem_tail htail)
            (h1.trans (hcross.mp ⟨hparent, hname⟩).symm)]
      rw [hsome]
      rfl
    have hstep : componentStep look s.points (s.found e0.root) place n =
        .ok ((n, s.found e.root) :: place) := by
      unfold componentStep
      rw [hl.here_eq hhead, State.found, hs.dir e' he', if_neg (by simp), if_neg hn.ne_dot,
        if_neg hn.ne_dotdot, hpoint]
    rw [hstep]
    rfl

/-! ## Absolute paths -/

/-- One round of the walk that looks for the mount with the longest path. -/
def longerMount (path : Name) (best : Option MountEntry) (e : MountEntry) : Option MountEntry :=
  if e.covers path then
    match best with
    | none => some e
    | some b => if b.path.length ≤ e.path.length then some e else best
  else best

theorem findMount_eq (mounts : List MountEntry) (path : Name) :
    findMount mounts path = mounts.foldl (longerMount path) none := rfl

theorem longerMount_cases (path : Name) (best : Option MountEntry) (e : MountEntry) :
    longerMount path best e = best ∨ longerMount path best e = some e ∧ e.covers path = true := by
  unfold longerMount
  grind

theorem findMount_some {mounts : List MountEntry} {path : Name} {best : MountEntry}
    (h : findMount mounts path = some best) : best ∈ mounts ∧ best.covers path = true := by
  rw [findMount_eq] at h
  -- from the end of the list, where the last round was
  induction mounts using List.reverseRecOn generalizing best with
  | nil => cases h
  | append_singleton mounts e ih =>
    rw [List.foldl_concat] at h
    obtain heq | ⟨heq, hcovers⟩ := longerMount_cases path (mounts.foldl (longerMount path) none) e
    · rw [heq] at h
      exact (ih h).imp_left (List.mem_append_left _)
    · rw [heq] at h
      obtain rfl := Option.some.inj h
      exact ⟨by simp, hcovers⟩

/-- The first mount covers every absolute path, so one is found. -/
theorem findMount_ne_none {mounts : List MountEntry} {path : Name} {e0 : MountEntry}
    (hhead : mounts.head? = some e0) (hcovers : e0.covers path = true) :
    findMount mounts path ≠ none := by
  cases mounts with
  | nil => cases hhead
  | cons e mounts =>
    obtain rfl : e = e0 := Option.some.inj hhead
    rw [findMount_eq, List.foldl_cons, longerMount, if_pos hcovers]
    -- once there is a best one there always is
    show mounts.foldl (longerMount path) (some e) ≠ none
    generalize e = b
    induction mounts generalizing b with
    | nil => simp
    | cons e mounts ih =>
      rw [List.foldl_cons]
      obtain heq | ⟨heq, -⟩ := longerMount_cases path (some b) e
      · rw [heq]
        exact ih rfl b
      · rw [heq]
        exact ih rfl e

/-- What is left of a path that a mount covers, and the components of both. -/
theorem covers_split {e : MountEntry} {path : Name} (h : e.covers path = true)
    (hroot : e.path.length ≤ 1 → e.path = [slash]) :
    tokens path = tokens e.path ++
      tokens (if (path.drop e.path.length).head? = some slash then (path.drop e.path.length).tail
        else path.drop e.path.length) := by
  unfold MountEntry.covers at h
  rw [Bool.and_eq_true] at h
  obtain ⟨⟨rest, rfl⟩, hsep⟩ := And.imp_left List.isPrefixOf_iff_prefix.mp h
  rw [List.drop_left] at hsep ⊢
  by_cases hlen : e.path.length ≤ 1
  · rw [hroot hlen, List.singleton_append, tokens_slash]
    show tokens rest = tokens _
    split
    next hhead =>
      obtain ⟨rest', rfl⟩ : ∃ rest', rest = slash :: rest' := by
        cases rest with
        | nil => cases hhead
        | cons c rest' => exact ⟨rest', by rw [Option.some.inj hhead]⟩
      exact tokens_slash rest'
    next => rfl
  · cases rest with
    | nil => simp [tokens, tokensFrom]
    | cons c rest =>
      have hc : c = slash := by
        rw [Bool.or_eq_true] at hsep
        have := hsep.resolve_left (by simpa using hlen)
        simpa using this
      subst hc
      rw [tokens_append]
      rfl

theorem WellMounted.path_root (hs : WellMounted s) {e : MountEntry} (he : e ∈ s.mounts) :
    e.path.length ≤ 1 → e.path = [slash] := by
  intro hle
  rcases hs.mem_cases he with ⟨-, hpath⟩ | htail
  · exact hpath
  · obtain ⟨e', -, n, hn, hpath, -⟩ := hs.further e htail
    have := one_lt_length_below e'.path hn.ne_nil
    rw [← hpath] at this
    omega

/-- An absolute path is resolved as it is component by component. -/
theorem vfsResolvePath_agrees {path : Name} {cwd : Option ℕ} {e0 : MountEntry} (hs : WellMounted s)
    (hhead : s.mounts.head? = some e0) (habs : path.head? = some slash)
    (hlen : path.length < vfsMaxPathLen) :
    Ends (vfsResolvePath look path cwd) s fun r t => Grows s t ∧
      match componentWalk look s.points (s.found e0.root) (tokens path) [] with
      | .error e => r = .error e
      | .ok place =>
        if hasTrailingSlash path && !(here (s.found e0.root) place).dir then r = .error .enotdir
        else ∃ c, r = .ok c ∧ Located t c place := by
  have hcovers0 : e0.covers path = true := by
    rw [MountEntry.covers, (hs.first e0 hhead).1]
    cases path with
    | nil => cases habs
    | cons c path =>
      rw [Option.some.inj habs]
      simp
  unfold vfsResolvePath
  rw [ends_bind, ends_get, if_pos habs]
  cases hbest : findMount s.mounts path with
  | none => exact absurd hbest (findMount_ne_none hhead hcovers0)
  | some best =>
    obtain ⟨hmem, hcovers⟩ := findMount_some hbest
    have hsplit := covers_split hcovers (hs.path_root hmem)
    obtain ⟨place, hl, hwalk⟩ := componentWalk_mount look hs hhead hmem
    rw [hsplit, hwalk]
    have hdir : (here (s.found e0.root) place).dir = true := by
      rw [hl.here_eq hhead]
      exact hs.dir best hmem
    -- nothing is left of the path: the place is the mount
    have hdone : ∀ rest, tokens rest = [] → Grows s s ∧
        match componentWalk look s.points (s.found e0.root) (tokens rest) place with
        | .error e => (.ok best.root : Except Errno ℕ) = .error e
        | .ok place =>
          if hasTrailingSlash path && !(here (s.found e0.root) place).dir then
            (.ok best.root : Except Errno ℕ) = .error .enotdir
          else ∃ c, (.ok best.root : Except Errno ℕ) = .ok c ∧ Located s c place := by
      intro rest hrest
      rw [hrest]
      refine ⟨.refl s, ?_⟩
      show if hasTrailingSlash path && !(here (s.found e0.root) place).dir then _ else _
      rw [hdir, Bool.not_true, Bool.and_false, if_neg (by simp)]
      exact ⟨best.root, rfl, hl⟩
    dsimp only
    apply ends_ite
    · intro hpath
      rw [ends_pure]
      apply hdone
      rw [hpath, List.drop_length]
      rfl
    intro _
    generalize hrem : (if (path.drop best.path.length).head? = some slash then
      (path.drop best.path.length).tail else path.drop best.path.length) = rest
    have hrestlen : rest.length ≤ path.length := by
      rw [← hrem]
      split
      · rw [List.length_tail, List.length_drop]; omega
      · rw [List.length_drop]; omega
    unfold resolveRest
    apply ends_ite
    · intro hempty
      rw [ends_pure]
      apply hdone
      rw [hempty]
      rfl
    intro _
    rw [List.take_of_length_le (by omega)]
    refine (resolveTokens_agrees (tokens rest) hs hhead hl).bind ?_
    rintro r t ⟨hg, hr⟩
    generalize componentWalk look s.points (s.found e0.root) (tokens rest) place = r' at hr ⊢
    rcases r with e | c <;> rcases r' with e' | place'
    · exact ⟨hg, congrArg Except.error hr⟩
    · exact hr.elim
    · exact hr.elim
    · have htop : t.found e0.root = s.found e0.root :=
        congrArg Vnode.toFound (hg.vnodes _ (hs.lt e0 (List.mem_of_mem_head? hhead)))
      have hhere : here (s.found e0.root) place' = t.found c := by
        rw [← htop]
        exact Located.here_eq hr (by rw [hg.mounts]; exact hhead)
      dsimp only
      rw [ends_bind, ends_get, hhere]
      apply ends_ite
      · intro hbad
        refine ⟨hg, ?_⟩
        rw [if_pos (show (hasTrailingSlash path && !(t.found c).dir) = true from hbad)]
        rfl
      · intro hgood
        refine ⟨hg, ?_⟩
        rw [if_neg (show ¬ (hasTrailingSlash path && !(t.found c).dir) = true from hgood)]
        exact ⟨c, rfl, hr⟩

/-! ## Mounting -/

/-- What keeps the two resolutions together, on a step: the first mount is at the root, every
further one directly below a mount, and the vnode is a directory that is not mounted yet. -/
def MountsBelow (s : State Obj) : Act Obj → Prop
  | .mount _ path root =>
    (s.vnodes root).dir = true ∧ (∀ e ∈ s.mounts, e.root ≠ root) ∧
      (s.mounts = [] ∧ path = [slash] ∨
        Proper (afterLast path) ∧ ∃ e ∈ s.mounts, path = below e.path (afterLast path))
  | _ => True

instance (s : State Obj) (a : Act Obj) : Decidable (MountsBelow s a) :=
  match a with
  | .mount .. => inferInstanceAs (Decidable (_ ∧ _ ∧ (_ ∨ _)))
  | .create .. | .resolve .. => inferInstanceAs (Decidable True)

theorem beforeLast_append {l n : Name} (h : slash ∉ n) : beforeLast (l ++ slash :: n) = l := by
  unfold beforeLast
  rw [List.reverse_append, List.reverse_cons, List.append_assoc, List.dropWhile_append_of_pos,
    List.singleton_append, List.dropWhile_cons_of_neg (by simp), List.drop_one, List.tail_cons,
    List.reverse_reverse]
  intro c hc
  rw [bne_iff_ne]
  rintro rfl
  exact h (List.mem_reverse.mp hc)

/-- The parent of a path below a mount is the mount's path. -/
theorem mountParentPath_below {path n : Name} (h : slash ∉ n) (hpath : path ≠ []) :
    mountParentPath (below path n) = path := by
  unfold mountParentPath below
  split
  next hroot =>
    rw [← List.nil_append (slash :: n), beforeLast_append h, if_pos rfl, hroot]
  next => rw [beforeLast_append h, if_neg hpath]

theorem WellMounted.abs (hs : WellMounted s) {e : MountEntry} (he : e ∈ s.mounts) :
    e.path.head? = some slash := by
  refine hs.induct (P := fun e => e.path.head? = some slash) ?_ ?_ he
  · intro e _ hpath
    rw [hpath]
    rfl
  · intro e _ e' _ n _ hpath _ _ ih
    rw [hpath, below]
    split
    next => rfl
    next =>
      cases hp : e'.path with
      | nil => rw [hp] at ih; cases ih
      | cons c rest => rw [hp] at ih; exact ih

/-- A mount's path resolves to its root. -/
theorem vfsResolvePath_mount (look : Lookup Obj) (cwd : Option ℕ) {e : MountEntry} (hs : WellMounted s)
    (he : e ∈ s.mounts) (hlen : e.path.length < vfsMaxPathLen) :
    Ends (vfsResolvePath look e.path cwd) s fun r t => Grows s t ∧ r = .ok e.root := by
  obtain ⟨e0, hhead⟩ : ∃ e0, s.mounts.head? = some e0 := by
    cases hm : s.mounts with
    | nil => rw [hm] at he; cases he
    | cons e0 rest => exact ⟨e0, rfl⟩
  obtain ⟨place, hl, hwalk⟩ := componentWalk_mount look hs hhead he
  have hplace := hwalk []
  rw [List.append_nil] at hplace
  refine (vfsResolvePath_agrees hs hhead (hs.abs he) hlen).mono ?_
  rintro r t ⟨hg, hr⟩
  rw [hplace] at hr
  have hdir : (here (s.found e0.root) place).dir = true := by
    rw [hl.here_eq hhead]
    exact hs.dir e he
  simp only [componentWalk, hdir, Bool.not_true, Bool.and_false, Bool.false_eq_true, if_false] at hr
  obtain ⟨c, rfl, hc⟩ := hr
  refine ⟨hg, ?_⟩
  rw [hc.eq_root (hs.grows hg) (by rw [hg.mounts]; exact he) (hl.way_root hs he rfl)]

/-- The table with one more mount. -/
theorem WellMounted.append {path : Name} {root : ℕ} (hs : WellMounted s)
    (hdir : (s.vnodes root).dir = true) (hlt : root < s.next) (hroot : ∀ e ∈ s.mounts, e.root ≠ root)
    (hpath : ∀ e ∈ s.mounts, path ≠ e.path)
    (hplace : s.mounts = [] ∧ path = [slash] ∧ (s.vnodes root).parent = none ∨
      ∃ e ∈ s.mounts, ∃ n, Proper n ∧ path = below e.path n ∧
        (s.vnodes root).parent = some e.root ∧ (s.vnodes root).name = n) :
    WellMounted { s with mounts := s.mounts ++ [⟨path, root⟩] } := by
  have hmem : ∀ e ∈ s.mounts ++ [⟨path, root⟩], e ∈ s.mounts ∨ e = ⟨path, root⟩ := by
    intro e he
    rcases List.mem_append.mp he with he | he
    · exact .inl he
    · exact .inr (List.mem_singleton.mp he)
  constructor
  · intro e he
    dsimp only at he
    rw [List.head?_append] at he
    cases hm : s.mounts with
    | nil =>
      rw [hm] at he
      obtain rfl := Option.some.inj he
      rcases hplace with ⟨-, hpath, hparent⟩ | ⟨e, he, -⟩
      · exact ⟨hpath, hparent⟩
      · rw [hm] at he
        cases he
    | cons e0 rest =>
      rw [hm] at he
      exact hs.first e (by rw [hm]; exact he)
  · intro e he
    dsimp only at he ⊢
    cases hm : s.mounts with
    | nil =>
      rw [hm] at he
      cases he
    | cons e0 rest =>
      rw [hm, List.cons_append, List.tail_cons] at he
      rcases List.mem_append.mp he with he | he
      · obtain ⟨e', he', h⟩ := hs.further e (by rw [hm]; exact he)
        rw [hm] at he'
        exact ⟨e', List.mem_append_left _ he', h⟩
      · obtain rfl := List.mem_singleton.mp he
        rcases hplace with ⟨hnil, -⟩ | ⟨e', he', h⟩
        · rw [hm] at hnil
          cases hnil
        · rw [hm] at he'
          exact ⟨e', List.mem_append_left _ he', h⟩
  · intro e he
    rcases hmem e he with he | rfl
    · exact hs.dir e he
    · exact hdir
  · intro e he
    rcases hmem e he with he | rfl
    · exact hs.lt e he
    · exact hlt
  · rw [List.map_append, List.nodup_append]
    refine ⟨hs.paths, List.nodup_singleton _, ?_⟩
    intro p hp q hq
    obtain ⟨e, he, rfl⟩ := List.mem_map.mp hp
    rw [List.mem_singleton.mp hq]
    exact (hpath e he).symm
  · rw [List.map_append, List.nodup_append]
    refine ⟨hs.roots, List.nodup_singleton _, ?_⟩
    intro p hp q hq
    obtain ⟨e, he, rfl⟩ := List.mem_map.mp hp
    rw [List.mem_singleton.mp hq]
    exact hroot e he

/-- A vnode that is not mounted may be changed. -/
theorem WellMounted.setVnode {root : ℕ} (hs : WellMounted s) (hroot : ∀ e ∈ s.mounts, e.root ≠ root)
    (n : Vnode Obj) : WellMounted (s.setVnode root n) :=
  hs.of_roots rfl (Nat.le_refl _) fun e he => Function.update_of_ne (hroot e he) _ _

theorem mountEnter_ends {path : Name} {root : ℕ} {parent : Option ℕ} (hs : WellMounted s)
    (hdir : (s.vnodes root).dir = true) (hlt : root < s.next) (hroot : ∀ e ∈ s.mounts, e.root ≠ root)
    (hplace : s.mounts = [] ∧ path = [slash] ∧ (s.vnodes root).parent = none ∧ parent = none ∨
      ∃ e ∈ s.mounts, ∃ n, Proper n ∧ path = below e.path n ∧ parent = some e.root ∧
        (s.vnodes root).name = n) :
    Ends (mountEnter path root parent) s fun _ t => WellMounted t := by
  unfold mountEnter
  rw [ends_bind, ends_get]
  apply ends_ite
  · intro _
    exact hs
  intro _
  apply ends_ite
  · intro _
    exact hs
  intro hnew
  have hpath : ∀ e ∈ s.mounts, path ≠ e.path := by simpa using hnew
  rcases hplace with ⟨hnil, hpath', hparent, rfl⟩ | ⟨e, he, n, hn, hbelow, rfl, hname⟩
  · exact hs.append hdir hlt hroot hpath (.inl ⟨hnil, hpath', hparent⟩)
  · have hset : ((s.setVnode root { s.vnodes root with parent := some e.root }).vnodes root) =
        { s.vnodes root with parent := some e.root } := s.setVnode_self _ _
    refine (hs.setVnode hroot _).append ?_ hlt hroot hpath (.inr ⟨e, he, n, hn, hbelow, ?_, ?_⟩)
    · rw [hset]
      exact hdir
    · rw [hset]
    · rw [hset]
      exact hname

/-- `vfs_mount` keeps the table in order. -/
theorem vfsMount_ends {path : Name} {root : ℕ} (hs : WellMounted s) (hlt : root < s.next)
    (h : MountsBelow s (.mount look path root)) :
    Ends (vfsMount look path root) s fun _ t => WellMounted t := by
  obtain ⟨hdir, hroot, hplace⟩ := h
  unfold vfsMount
  apply ends_ite
  · intro _
    exact hs
  intro _
  apply ends_ite
  · intro _
    exact hs
  intro hlen
  show Ends (mountParent look path root >>= mountEnter path root) s fun _ t => WellMounted t
  unfold mountParent
  rcases hplace with ⟨hnil, rfl⟩ | ⟨hn, e, he, hpath⟩
  · rw [if_neg (by simp)]
    refine mountEnter_ends (hs.setVnode hroot _) ?_ hlt hroot (.inl ⟨hnil, rfl, ?_, rfl⟩)
    · rw [State.setVnode_self]
      exact hdir
    · rw [State.setVnode_self]
  · have hlt' := length_below e.path hn.ne_nil
    rw [← hpath] at hlt'
    have hne : path ≠ [slash] := by
      intro hroot
      have := one_lt_length_below e.path hn.ne_nil
      rw [← hpath, hroot] at this
      simp at this
    have hparent : mountParentPath path = e.path := by
      rw [hpath]
      apply mountParentPath_below hn.slash
      intro hnil
      have := hs.abs he
      rw [hnil] at this
      cases this
    have hname : (afterLast path).take 255 = afterLast path := by
      apply List.take_of_length_le
      have : (afterLast path).length ≤ path.length := by
        rw [afterLast, List.length_reverse]
        exact Nat.le_trans (List.takeWhile_sublist _).length_le (Nat.le_of_eq List.length_reverse)
      unfold vfsMaxMountPath at hlen
      omega
    rw [if_pos hne, if_pos hn.ne_nil, hparent, hname]
    set s1 := s.setVnode root { s.vnodes root with name := afterLast path } with hs1
    have hw : WellMounted s1 := hs.setVnode hroot _
    have hvnode : s1.vnodes root = { s.vnodes root with name := afterLast path } :=
      s.setVnode_self _ _
    have hshort : e.path.length < vfsMaxPathLen := by
      unfold vfsMaxMountPath at hlen
      unfold vfsMaxPathLen
      omega
    have hres := vfsResolvePath_mount look none hw he hshort
    rw [ends_bind, ends_bind, ends_modify]
    refine hres.bind ?_
    rintro _ t ⟨hg, rfl⟩
    show Ends (mountEnter path root (some e.root)) t fun _ t => WellMounted t
    have ht : t.vnodes root = s1.vnodes root := hg.vnodes root hlt
    refine mountEnter_ends (hw.grows hg) ?_ (Nat.lt_of_lt_of_le hlt hg.next) ?_
      (.inr ⟨e, ?_, _, hn, hpath, rfl, ?_⟩)
    · rw [ht, hvnode]
      exact hdir
    · rw [hg.mounts]
      exact hroot
    · rw [hg.mounts]
      exact he
    · rw [ht, hvnode]

/-! ## Every run -/

/-- A relative path, or one in an empty table, leaves the vnodes there are alone too. -/
theorem resolveTokens_grows (names : List Name) (c : ℕ) (s : State Obj) :
    Ends (resolveTokens look names c) s fun _ t => Grows s t := by
  induction names generalizing s c with
  | nil => exact .refl s
  | cons token names ih =>
    rw [resolveTokens]
    refine Ends.bind (Q := fun _ t => Grows s t) ?_ ?_
    · unfold resolveToken
      rw [ends_bind, ends_get]
      dsimp only
      refine ends_ite (fun _ => .refl s) fun _ => ends_ite (fun _ => .refl s) fun _ =>
        ends_ite (fun _ => .refl s) fun _ => ?_
      split
      · exact .refl s
      · refine ends_ite (fun _ => .refl s) fun _ => ?_
        split
        · exact .refl s
        · exact s.alloc_grows _
    · intro r t hg
      cases r with
      | error e => exact hg
      | ok c' => exact (ih c' t).mono fun _ u h => hg.trans h

theorem vfsResolvePath_grows (path : Name) (cwd : Option ℕ) (s : State Obj) :
    Ends (vfsResolvePath look path cwd) s fun _ t => Grows s t := by
  have hrest : ∀ remainder c, Ends (resolveRest look path remainder c) s fun _ t => Grows s t := by
    intro remainder c
    unfold resolveRest
    refine ends_ite (fun _ => .refl s) fun _ => ?_
    refine (resolveTokens_grows _ c s).bind ?_
    intro r t hg
    cases r with
    | error e => exact hg
    | ok v =>
      dsimp only
      rw [ends_bind, ends_get]
      exact ends_ite (fun _ => hg) fun _ => hg
  unfold vfsResolvePath
  rw [ends_bind, ends_get]
  apply ends_ite
  · intro _
    split
    · exact .refl s
    · exact ends_ite (fun _ => .refl s) fun _ => hrest _ _
  · intro _
    split
    · exact hrest _ _
    · split
      · exact .refl s
      · exact hrest _ _

theorem step_wellMounted {a : Act Obj} (hs : WellMounted s)
    (h : Guarded MountsBelow (Moves step) s a t) : WellMounted t := by
  obtain ⟨hbelow, hmove⟩ := h
  cases a with
  | create f name =>
    obtain rfl := Option.some.inj hmove
    exact hs.grows (s.alloc_grows _)
  | mount look path root =>
    rw [Moves, step] at hmove
    split at hmove
    next hlt =>
      obtain rfl := Option.some.inj hmove
      exact vfsMount_ends hs hlt hbelow
    next => cases hmove
  | resolve look path cwd =>
    obtain rfl := Option.some.inj hmove
    exact hs.grows (vfsResolvePath_grows path cwd s)

theorem wellMounted_of_empty (h : s.mounts = []) : WellMounted s := by
  constructor <;> simp [h]

/-- The way to the root is empty. -/
theorem WellMounted.points_top (hs : WellMounted s) {e0 : MountEntry} (hhead : s.mounts.head? = some e0) :
    (s.points.find? fun p => p.1 = []) = some (canonical (tokens e0.path), s.found e0.root) := by
  obtain ⟨rest, hm⟩ : ∃ rest, s.mounts = e0 :: rest := List.head?_eq_some_iff.mp hhead
  rw [State.points, hm, List.map_cons, List.find?_cons_of_pos]
  rw [(hs.first e0 hhead).1]
  rfl

/-- In a table in order every absolute path means what it means component by component. -/
theorem WellMounted.resolve_eq (hs : WellMounted s) {path : Name} (habs : path.head? = some slash)
    (hlen : path.length < vfsMaxPathLen) (cwd : Option ℕ) :
    Ends (vfsResolvePath look path cwd) s fun r t => r.map t.found = componentResolve s look path := by
  cases hm : s.mounts with
  | nil =>
    have hnone : componentResolve s look path = .error .enoent := by
      rw [componentResolve, State.points, hm]
      rfl
    unfold vfsResolvePath
    rw [ends_bind, ends_get, if_pos habs, hm, hnone]
    rfl
  | cons e0 rest =>
    have hhead : s.mounts.head? = some e0 := by rw [hm]; rfl
    refine (vfsResolvePath_agrees hs hhead habs hlen).mono ?_
    rintro r t ⟨hg, hr⟩
    unfold componentResolve
    rw [hs.points_top hhead]
    dsimp only
    generalize componentWalk look s.points (s.found e0.root) (tokens path) [] = r' at hr ⊢
    cases r' with
    | error e =>
      obtain rfl : r = .error e := hr
      rfl
    | ok place =>
      dsimp only at hr
      show _ = if hasTrailingSlash path && !(here (s.found e0.root) place).dir then _ else _
      split at hr
      next hbad =>
        rw [if_pos hbad, hr]
        rfl
      next hgood =>
        obtain ⟨c, rfl, hc⟩ := hr
        have hfound : t.found e0.root = s.found e0.root :=
          congrArg Vnode.toFound (hg.vnodes _ (hs.lt e0 (List.mem_of_mem_head? hhead)))
        rw [if_neg hgood, ← hfound, hc.here_eq (by rw [hg.mounts]; exact hhead)]
        rfl

/-- After every run that mounts only directly below mounts, every absolute path resolves to what
it resolves to component by component. -/
theorem resolve_eq_component_run {s s' : State Obj} {as : List (Act Obj)} (hempty : s.mounts = [])
    (hrun : Run (Guarded MountsBelow (Moves step)) s as s') (look : Lookup Obj) (path : Name)
    (cwd : Option ℕ) (habs : path.head? = some slash) (hlen : path.length < vfsMaxPathLen) :
    (vfsResolvePath look path cwd s').1.map (vfsResolvePath look path cwd s').2.found =
      componentResolve s' look path := by
  have hs : WellMounted s' :=
    hrun.invariant WellMounted (fun _ _ _ hs h => step_wellMounted hs h) (wellMounted_of_empty hempty)
  exact hs.resolve_eq habs hlen cwd

/-! ## A directory that is looked up again -/

/-- The table after `vfs_init`. -/
def bootState : State ℕ where
  vnodes _ := ⟨⟨0, false, false⟩, [], none⟩
  next := 0
  mounts := []

def name (s : String) : Name := s.toList.map ch

/-- A root directory with a directory `a` in it, which has a directory `b`. -/
def nestedLookup : Lookup ℕ
  | 0, n => if n = name "a" then some ⟨1, true, true⟩ else none
  | 1, n => if n = name "b" then some ⟨2, true, true⟩ else none
  | _, _ => none

/-- Mount a file system at the root and another one, with the root object 9, at `point`. -/
def mountTwo (point : Name) : List (Act ℕ) :=
  [Act.create ⟨0, true, true⟩ [], Act.create ⟨9, true, true⟩ [],
    Act.mount nestedLookup [slash] 0, Act.mount nestedLookup point 1]

theorem resolve_eq_component_run_two :
    ∃ s, Run (Guarded MountsBelow (Moves step)) bootState (mountTwo (name "/a")) s ∧
      (vfsResolvePath nestedLookup (name "/./a//..///a/") none s).1.map
        (vfsResolvePath nestedLookup (name "/./a//..///a/") none s).2.found =
          componentResolve s nestedLookup (name "/./a//..///a/") ∧
      componentResolve s nestedLookup (name "/./a//..///a/") = .ok ⟨9, true, true⟩ := by
  have hexec : (execGuarded MountsBelow step bootState (mountTwo (name "/a"))).any (fun s =>
      decide (componentResolve s nestedLookup (name "/./a//..///a/") = .ok ⟨9, true, true⟩)) = true := by
    decide +kernel
  obtain ⟨s, hrun, hres⟩ := exists_run_of_execGuarded hexec
  exact ⟨s, hrun, resolve_eq_component_run rfl hrun nestedLookup _ none (by decide) (by decide),
    of_decide_eq_true hres⟩

/-- A mount at `/a/b` is accepted. The path `/./a/b` leads past it, to the directory it covers,
because `a` is looked up again and is not the vnode that the mount has for its parent. -/
theorem nested_mount_missed :
    ∃ s, Run (Moves step) bootState (mountTwo (name "/a/b")) s ∧
      s.mounts = [⟨name "/", 0⟩, ⟨name "/a/b", 1⟩] ∧
      (vfsResolvePath nestedLookup (name "/a/b") none s).1.map
        (vfsResolvePath nestedLookup (name "/a/b") none s).2.found = .ok ⟨9, true, true⟩ ∧
      (vfsResolvePath nestedLookup (name "/./a/b") none s).1.map
        (vfsResolvePath nestedLookup (name "/./a/b") none s).2.found = .ok ⟨2, true, true⟩ ∧
      componentResolve s nestedLookup (name "/./a/b") = .ok ⟨9, true, true⟩ := by
  have hexec : (exec step bootState (mountTwo (name "/a/b"))).any (fun s =>
      decide (s.mounts = [⟨name "/", 0⟩, ⟨name "/a/b", 1⟩] ∧
        (vfsResolvePath nestedLookup (name "/a/b") none s).1.map
          (vfsResolvePath nestedLookup (name "/a/b") none s).2.found = .ok ⟨9, true, true⟩ ∧
        (vfsResolvePath nestedLookup (name "/./a/b") none s).1.map
          (vfsResolvePath nestedLookup (name "/./a/b") none s).2.found = .ok ⟨2, true, true⟩ ∧
        componentResolve s nestedLookup (name "/./a/b") = .ok ⟨9, true, true⟩)) = true := by
    decide +kernel
  obtain ⟨s, hrun, hres⟩ := exists_run_of_exec hexec
  exact ⟨s, hrun, of_decide_eq_true hres⟩

end Perspicua.Fs.Vfs
