import Mathlib

/-!
# Intrusive doubly linked lists

A list threaded through two link maps `next` and `prev` over an arbitrary node type `ι`,
with a distinguished `null` link. `Seg` is a list segment; `DList` is a whole list hanging
off a head pointer. The two operations an intrusive list has, linking a node in at the
front and unlinking an arbitrary node, are stated on the link maps alone.
-/

namespace Perspicua.Lib

variable {ι : Type} {null : ι}

/-- `Seg next prev null p h l t q`: walking `next` from `h` visits exactly `l` and then
arrives at `t`. The node before `h` is `p`, the last node of the walk is `q` (`p` when the
segment is empty), and every `prev` link points one node back. -/
def Seg (next prev : ι → ι) (null : ι) : ι → ι → List ι → ι → ι → Prop
  | p, h, [], t, q => h = t ∧ q = p
  | p, h, x :: xs, t, q => h = x ∧ x ≠ null ∧ prev x = p ∧ Seg next prev null x (next x) xs t q

/-- A null-terminated doubly linked list without repetitions. -/
def DList (next prev : ι → ι) (null h : ι) (l : List ι) : Prop :=
  l.Nodup ∧ ∃ q, Seg next prev null null h l null q

/-! ## Segments -/

theorem Seg.congr {next prev next' prev' : ι → ι} {p h t q : ι} {l : List ι}
    (hs : Seg next prev null p h l t q) (hn : ∀ x ∈ l, next' x = next x)
    (hp : ∀ x ∈ l, prev' x = prev x) : Seg next' prev' null p h l t q := by
  induction l generalizing p h with
  | nil => exact hs
  | cons x xs ih =>
    obtain ⟨hh, hx, hpx, hs⟩ := hs
    refine ⟨hh, hx, (hp x (by simp)).trans hpx, ?_⟩
    rw [hn x (by simp)]
    exact ih hs (fun y hy => hn y (by simp [hy])) (fun y hy => hp y (by simp [hy]))

theorem seg_append {next prev : ι → ι} {p h t q : ι} {l r : List ι} :
    Seg next prev null p h (l ++ r) t q ↔
      ∃ m k, Seg next prev null p h l m k ∧ Seg next prev null k m r t q := by
  induction l generalizing p h with
  | nil => simp [Seg]
  | cons x xs ih =>
    simp only [List.cons_append, Seg, ih]
    constructor
    · rintro ⟨hh, hx, hp, m, k, h1, h2⟩
      exact ⟨m, k, ⟨hh, hx, hp, h1⟩, h2⟩
    · rintro ⟨m, k, ⟨hh, hx, hp, h1⟩, h2⟩
      exact ⟨hh, hx, hp, m, k, h1, h2⟩

/-- The last node of a nonempty segment is one of its nodes. -/
theorem Seg.last_mem {next prev : ι → ι} {p h t q : ι} {l : List ι}
    (hs : Seg next prev null p h l t q) (hl : l ≠ []) : q ∈ l := by
  induction l generalizing p h with
  | nil => exact absurd rfl hl
  | cons x xs ih =>
    obtain ⟨-, -, -, hs⟩ := hs
    cases xs with
    | nil => exact List.mem_singleton.mpr hs.2
    | cons y ys => exact List.mem_cons_of_mem _ (ih hs (by simp))

theorem Seg.ne_null {next prev : ι → ι} {p h t q : ι} {l : List ι}
    (hs : Seg next prev null p h l t q) : ∀ x ∈ l, x ≠ null := by
  induction l generalizing p h with
  | nil => simp
  | cons x xs ih =>
    obtain ⟨-, hx, -, hs⟩ := hs
    intro y hy
    rcases List.mem_cons.mp hy with rfl | hy
    · exact hx
    · exact ih hs y hy

/-! ## Whole lists -/

theorem DList.congr {next prev next' prev' : ι → ι} {h : ι} {l : List ι}
    (hd : DList next prev null h l) (hn : ∀ x ∈ l, next' x = next x)
    (hp : ∀ x ∈ l, prev' x = prev x) : DList next' prev' null h l :=
  ⟨hd.1, hd.2.imp fun _ hs => hs.congr hn hp⟩

theorem dlist_nil (next prev : ι → ι) : DList next prev null null [] :=
  ⟨List.nodup_nil, null, rfl, rfl⟩

theorem DList.head_eq {next prev : ι → ι} {h : ι} {l : List ι}
    (hd : DList next prev null h l) (hh : h ≠ null) : ∃ xs, l = h :: xs := by
  obtain ⟨-, q, hs⟩ := hd
  cases l with
  | nil => exact absurd hs.1 hh
  | cons x xs => exact ⟨xs, by rw [hs.1]⟩

theorem DList.head_null {next prev : ι → ι} {l : List ι}
    (hd : DList next prev null null l) : l = [] := by
  obtain ⟨-, q, hs⟩ := hd
  cases l with
  | nil => rfl
  | cons x xs => exact absurd hs.1.symm hs.2.1

/-- The first node of a list has no predecessor; the others have a real one. -/
theorem DList.prev_eq_null_iff {next prev : ι → ι} {h x : ι} {l : List ι}
    (hd : DList next prev null h l) (hx : x ∈ l) : prev x = null ↔ h = x := by
  obtain ⟨hnd, q, hs⟩ := hd
  obtain ⟨a, b, rfl⟩ := List.append_of_mem hx
  obtain ⟨m, k, ha, rfl, -, hpx, hb⟩ := seg_append.mp hs
  rw [hpx]
  cases a with
  | nil => simp [ha.1, ha.2]
  | cons y ys =>
    have hk : k ∈ y :: ys := ha.last_mem (by simp)
    have hkn : k ≠ null := ha.ne_null k hk
    have hhx : h ≠ m := by
      rw [ha.1]
      rintro rfl
      exact (List.nodup_append.mp hnd).2.2 y (by simp) y (by simp) rfl
    simp [hkn, hhx]

/-- A link out of a list node is null or leads to a node of the same list. -/
theorem DList.next_mem {next prev : ι → ι} {h x : ι} {l : List ι}
    (hd : DList next prev null h l) (hx : x ∈ l) : next x = null ∨ next x ∈ l := by
  obtain ⟨-, q, hs⟩ := hd
  obtain ⟨a, b, rfl⟩ := List.append_of_mem hx
  obtain ⟨m, k, -, rfl, -, -, hb⟩ := seg_append.mp hs
  cases b with
  | nil => exact Or.inl hb.1
  | cons y ys => exact Or.inr (by simp [hb.1])

theorem DList.prev_mem {next prev : ι → ι} {h x : ι} {l : List ι}
    (hd : DList next prev null h l) (hx : x ∈ l) : prev x = null ∨ prev x ∈ l := by
  obtain ⟨-, q, hs⟩ := hd
  obtain ⟨a, b, rfl⟩ := List.append_of_mem hx
  obtain ⟨m, k, ha, rfl, -, hp, -⟩ := seg_append.mp hs
  rw [hp]
  cases a with
  | nil => exact Or.inl ha.2
  | cons y ys => exact Or.inr (List.mem_append_left _ (ha.last_mem (by simp)))

/-! ## Redirecting links -/

variable [DecidableEq ι]

/-- Redirecting the `next` link of the last node moves the segment's end. -/
theorem Seg.update_next {next prev : ι → ι} {p h t q : ι} {l : List ι}
    (hs : Seg next prev null p h l t q) (hnd : l.Nodup) (hl : l ≠ []) (t' : ι) :
    Seg (Function.update next q t') prev null p h l t' q := by
  induction l generalizing p h with
  | nil => exact absurd rfl hl
  | cons x xs ih =>
    obtain ⟨hh, hx, hp, hs⟩ := hs
    obtain ⟨hxs, hnd⟩ := List.nodup_cons.mp hnd
    refine ⟨hh, hx, hp, ?_⟩
    cases xs with
    | nil =>
      obtain ⟨-, rfl⟩ := hs
      simp [Seg]
    | cons y ys =>
      have hq : x ≠ q := fun he => hxs (he ▸ hs.last_mem (by simp))
      rw [Function.update_of_ne hq]
      exact ih hs hnd (by simp)

/-- Redirecting the `prev` link of the first node changes what the segment hangs off. -/
theorem Seg.update_prev {next prev : ι → ι} {p h t q : ι} {x : ι} {xs : List ι}
    (hs : Seg next prev null p h (x :: xs) t q) (hnd : (x :: xs).Nodup) (p' : ι) :
    Seg next (Function.update prev h p') null p' h (x :: xs) t q := by
  obtain ⟨rfl, hx, -, hs⟩ := hs
  refine ⟨rfl, hx, by simp, hs.congr (fun _ _ => rfl) fun y hy => ?_⟩
  have hne : y ≠ h := fun he => (List.nodup_cons.mp hnd).1 (he ▸ hy)
  rw [Function.update_of_ne hne]

/-! ## Linking and unlinking a node -/

/-- The `next` map after linking `x` in front of `h`. -/
def pushNext (next : ι → ι) (h x : ι) : ι → ι := Function.update next x h

/-- The `prev` map after linking `x` in front of `h`. -/
def pushPrev (prev : ι → ι) (null h x : ι) : ι → ι :=
  let prev := Function.update prev x null
  if h = null then prev else Function.update prev h x

theorem DList.push {next prev : ι → ι} {h x : ι} {l : List ι}
    (hd : DList next prev null h l) (hx : x ≠ null) (hxl : x ∉ l) :
    DList (pushNext next h x) (pushPrev prev null h x) null x (x :: l) := by
  obtain ⟨hnd, q, hs⟩ := hd
  refine ⟨List.nodup_cons.mpr ⟨hxl, hnd⟩, ?_⟩
  have hfar : ∀ y ∈ l, y ≠ x := fun y hy he => hxl (he ▸ hy)
  by_cases hh : h = null
  · subst hh
    have hl := DList.head_null ⟨hnd, q, hs⟩
    subst hl
    exact ⟨x, rfl, hx, by simp [pushPrev], by simp [pushNext, Seg]⟩
  · obtain ⟨ys, rfl⟩ := DList.head_eq ⟨hnd, q, hs⟩ hh
    have hhx : x ≠ h := (hfar h (by simp)).symm
    have hs' : Seg (pushNext next h x) (Function.update prev x null) null null h (h :: ys) null q :=
      hs.congr (fun y hy => by rw [pushNext, Function.update_of_ne (hfar y hy)])
        (fun y hy => by rw [Function.update_of_ne (hfar y hy)])
    refine ⟨q, rfl, hx, by simp [pushPrev, hh, hhx], ?_⟩
    rw [show pushNext next h x x = h by simp [pushNext], pushPrev, if_neg hh]
    exact hs'.update_prev hnd x

/-- The `next` map after unlinking `x`. -/
def unlinkNext (next prev : ι → ι) (null x : ι) : ι → ι :=
  if prev x = null then next else Function.update next (prev x) (next x)

/-- The `prev` map after unlinking `x`. -/
def unlinkPrev (next prev : ι → ι) (null x : ι) : ι → ι :=
  if next x = null then prev else Function.update prev (next x) (prev x)

/-- The head pointer after unlinking `x`. -/
def unlinkHead (next prev : ι → ι) (null h x : ι) : ι :=
  if prev x = null then next x else h

theorem DList.unlink {next prev : ι → ι} {h x : ι} {l : List ι}
    (hd : DList next prev null h l) (hx : x ∈ l) :
    DList (unlinkNext next prev null x) (unlinkPrev next prev null x) null
      (unlinkHead next prev null h x) (l.erase x) := by
  have hpn := hd.prev_eq_null_iff hx
  obtain ⟨hnd, q, hs⟩ := hd
  refine ⟨hnd.erase x, ?_⟩
  obtain ⟨a, b, rfl⟩ := List.append_of_mem hx
  obtain ⟨m, k, ha, rfl, hm, rfl, hb⟩ := seg_append.mp hs
  obtain ⟨hnda, hndb, hdis⟩ := List.nodup_append.mp hnd
  obtain ⟨hmb, hndb⟩ := List.nodup_cons.mp hndb
  have hma : m ∉ a := fun hma => hdis m hma m (by simp) rfl
  rw [List.erase_append_right _ hma, List.erase_cons_head]
  -- the part before `m` now ends at `next m`, the part after it hangs off `prev m`
  have hA : Seg (unlinkNext next prev null m) prev null null
      (unlinkHead next prev null h m) a (next m) (prev m) := by
    cases a with
    | nil => simp [unlinkHead, Seg, ha.2]
    | cons y ys =>
      have hk : prev m ≠ null := ha.ne_null _ (ha.last_mem (by simp))
      simp only [unlinkNext, unlinkHead, if_neg hk]
      exact ha.update_next hnda (by simp) (next m)
  have hB : ∃ q', Seg next (unlinkPrev next prev null m) null (prev m) (next m) b null q' := by
    cases b with
    | nil => exact ⟨_, hb.1, rfl⟩
    | cons y ys =>
      have hy : next m ≠ null := by rw [hb.1]; exact hb.2.1
      rw [unlinkPrev, if_neg hy]
      exact ⟨q, hb.update_prev hndb _⟩
  obtain ⟨q', hB⟩ := hB
  refine ⟨q', seg_append.mpr ⟨next m, prev m, ?_, ?_⟩⟩
  · refine hA.congr (fun _ _ => rfl) fun y hy => ?_
    rw [unlinkPrev]
    split
    · rfl
    · rename_i hnm
      have hyb : next m ∈ b := by
        cases b with
        | nil => exact absurd hb.1 hnm
        | cons z zs => rw [hb.1]; simp
      rw [Function.update_of_ne]
      rintro rfl
      exact hdis _ hy _ (by simp [hyb]) rfl
  · refine hB.congr (fun y hy => ?_) fun _ _ => rfl
    rw [unlinkNext]
    split
    · rfl
    · rename_i hpm
      have hka : prev m ∈ a := by
        cases a with
        | nil => exact absurd ha.2 hpm
        | cons z zs => exact ha.last_mem (by simp)
      rw [Function.update_of_ne]
      rintro rfl
      exact hdis _ hka _ (by simp [hy]) rfl

end Perspicua.Lib
