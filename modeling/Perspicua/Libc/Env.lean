import Mathlib.Data.Int.Notation
import Mathlib.Data.Nat.Notation
import Mathlib.Tactic.SplitIfs

/-!
# The environment

`libc/user/env.c` keeps the environment as an array of texts `name=value`. The calls refine updates of
a map from names to values as long as no name is too long for the buffer in which `putenv` looks it
up, and as long as `getenv` is asked for names only, which have no `=` in them.

A call that runs out of memory is left out. So is whether the array itself came from `malloc`, which
decides only how a longer one is made.
-/

namespace Perspicua.Libc

/-- The bytes of a string. -/
abbrev Bytes := List UInt8

/-- `=` -/
def equals : UInt8 := 61

/-- `environ`; `none` is NULL. -/
abbrev Environ := Option (List Bytes)

/-- `strncmp(e, name, len) == 0 && e[len] == '='` -/
def isEntry (name e : Bytes) : Bool := e.take name.length == name && e[name.length]? == some equals

def getenv (s : Environ) (name : Bytes) : Option Bytes :=
  ((s.getD []).find? (isEntry name)).map fun e => e.drop (name.length + 1)

/-- `environ[i] = entry` for the first entry of the name. -/
def replaceFirst (name entry : Bytes) : List Bytes → List Bytes
  | [] => []
  | e :: l => if isEntry name e then entry :: l else e :: replaceFirst name entry l

/-- Shift down what comes after the first entry of the name. -/
def removeFirst (name : Bytes) : List Bytes → List Bytes
  | [] => []
  | e :: l => if isEntry name e then l else e :: removeFirst name l

/-- What `setenv` and `putenv` do with a new entry. -/
def putEntry (s : Environ) (name entry : Bytes) : Environ :=
  if (getenv s name).isSome then s.map (replaceFirst name entry) else some (s.getD [] ++ [entry])

def setenv (s : Environ) (name : Bytes) (value : Option Bytes) (overwrite : Bool) : ℤ × Environ :=
  if name = [] ∨ equals ∈ name then (-1, s)
  else if (getenv s name).isSome ∧ overwrite = false then (0, s)
  else (0, putEntry s name (name ++ equals :: value.getD []))

def unsetenv (s : Environ) (name : Bytes) : ℤ × Environ :=
  if s = none ∨ name = [] ∨ equals ∈ name then (-1, s)
  else (0, s.map (removeFirst name))

/-- The name in front of the first `=`. -/
def nameOf (string : Bytes) : Bytes := string.takeWhile (· ≠ equals)

/-- The name is cut off at the size of a buffer. -/
def putenv (s : Environ) (string : Bytes) : ℤ × Environ :=
  if equals ∉ string then (-1, s)
  else (0, putEntry s ((nameOf string).take 127) string)

inductive Call
  | getenv (name : Bytes)
  | setenv (name : Bytes) (value : Option Bytes) (overwrite : Bool)
  | putenv (string : Bytes)
  | unsetenv (name : Bytes)

/-- What a call returns. -/
inductive Reply
  | value (v : Option Bytes)
  | code (n : ℤ)
deriving DecidableEq

def envStep (s : Environ) : Call → Reply × Environ
  | .getenv name => (.value (getenv s name), s)
  | .setenv name value overwrite => let r := setenv s name value overwrite; (.code r.1, r.2)
  | .putenv string => let r := putenv s string; (.code r.1, r.2)
  | .unsetenv name => let r := unsetenv s name; (.code r.1, r.2)

/-- The replies of a sequence of calls, and the environment after it. -/
def envRun (s : Environ) : List Call → List Reply × Environ
  | [] => ([], s)
  | c :: cs => let r := envRun (envStep s c).2 cs; ((envStep s c).1 :: r.1, r.2)

/-! ## The map -/

abbrev EnvMap := Bytes → Option Bytes

def EnvMap.set (m : EnvMap) (name : Bytes) (v : Option Bytes) : EnvMap := fun n =>
  if n = name then v else m n

/-- What a call does to the map. A call that is refused does nothing. -/
def EnvMap.apply (m : EnvMap) : Call → Reply → EnvMap
  | .setenv name value overwrite, .code 0 =>
    if (m name).isSome ∧ overwrite = false then m else m.set name (some (value.getD []))
  | .putenv string, .code 0 =>
    m.set (nameOf string) (some (string.drop ((nameOf string).length + 1)))
  | .unsetenv name, .code 0 => m.set name none
  | _, _ => m

/-- The replies of `getenv` are the values of the map. -/
def EnvMap.Agrees : EnvMap → List Call → List Reply → Prop
  | m, c :: cs, r :: rs =>
    (∀ name, c = .getenv name → r = .value (m name)) ∧ EnvMap.Agrees (m.apply c r) cs rs
  | _, _, _ => True

/-- The values of a name, the first one first. -/
def values (s : Environ) (name : Bytes) : List Bytes :=
  ((s.getD []).filter (isEntry name)).map fun e => e.drop (name.length + 1)

/-- The environment stands for the map: it has one value for a name that is set. -/
def Stands (s : Environ) (m : EnvMap) : Prop := ∀ n, equals ∉ n → values s n = (m n).toList

/-- A call without names that are too long or are none. -/
def Call.Plain : Call → Prop
  | .getenv name => equals ∉ name
  | .putenv string => (nameOf string).length ≤ 127
  | _ => True

/-! ## Entries -/

variable {s : Environ} {m : EnvMap} {name n v : Bytes}

theorem isEntry_iff {e : Bytes} : isEntry n e = true ↔ ∃ v, e = n ++ equals :: v := by
  unfold isEntry
  rw [Bool.and_eq_true, beq_iff_eq, beq_iff_eq]
  constructor
  · rintro ⟨htake, hget⟩
    obtain ⟨hlt, hget⟩ := List.getElem?_eq_some_iff.mp hget
    refine ⟨e.drop (n.length + 1), ?_⟩
    calc e = e.take n.length ++ e.drop n.length := (List.take_append_drop _ _).symm
      _ = n ++ equals :: e.drop (n.length + 1) := by rw [htake, List.drop_eq_getElem_cons hlt, hget]
  · rintro ⟨v, rfl⟩
    simp

/-- An entry has one name. -/
theorem entry_inj (hn : equals ∉ n) (hname : equals ∉ name) {w : Bytes}
    (h : n ++ equals :: v = name ++ equals :: w) : n = name := by
  have htake : ∀ {l : Bytes} (u : Bytes), equals ∉ l → nameOf (l ++ equals :: u) = l := by
    intro l u hl
    unfold nameOf
    rw [List.takeWhile_append_of_pos fun c hc => by
      simpa using fun heq : c = equals => hl (heq ▸ hc)]
    simp
  rw [← htake v hn, h, htake w hname]

theorem isEntry_entry (hn : equals ∉ n) (hname : equals ∉ name) :
    isEntry n (name ++ equals :: v) = decide (n = name) := by
  by_cases h : n = name
  · rw [decide_eq_true h, isEntry_iff]
    exact ⟨v, by rw [h]⟩
  · rw [decide_eq_false h, ← Bool.not_eq_true, isEntry_iff]
    rintro ⟨w, heq⟩
    exact h (entry_inj hn hname heq.symm)

theorem nameOf_spec {string : Bytes} (h : equals ∈ string) :
    equals ∉ nameOf string ∧ ∃ v, string = nameOf string ++ equals :: v := by
  induction string with
  | nil => cases h
  | cons c l ih =>
    by_cases hc : c = equals
    · subst hc
      simp [nameOf]
    · obtain ⟨hname, v, hv⟩ := ih (List.mem_of_ne_of_mem (Ne.symm hc) h)
      have hcons : nameOf (c :: l) = c :: nameOf l := by simp [nameOf, hc]
      rw [hcons]
      refine ⟨by simp [Ne.symm hc, hname], v, ?_⟩
      rw [List.cons_append, ← hv]

/-- An entry of one name is not an entry of another. -/
theorem isEntry_other {e : Bytes} (hn : equals ∉ n) (hname : equals ∉ name) (hne : n ≠ name)
    (he : isEntry name e = true) : isEntry n e = false := by
  obtain ⟨w, rfl⟩ := isEntry_iff.mp he
  rw [isEntry_entry hn hname, decide_eq_false hne]

theorem getenv_eq : getenv s n = (values s n).head? := by
  unfold getenv values
  rw [List.head?_map, List.head?_filter]

/-! ## What the calls do to the values -/

theorem values_replaceFirst (hn : equals ∉ n) (hname : equals ∉ name) (l : List Bytes)
    (h : values (some l) name ≠ []) :
    values (some (replaceFirst name (name ++ equals :: v) l)) n =
      if n = name then v :: (values (some l) n).tail else values (some l) n := by
  unfold values at h ⊢
  induction l with
  | nil => exact absurd rfl h
  | cons e l ih =>
    rw [replaceFirst]
    by_cases he : isEntry name e = true
    · rw [if_pos he]
      by_cases hne : n = name
      · subst hne
        simp [isEntry_entry hn hname, he]
      · simp [isEntry_entry hn hname, isEntry_other hn hname hne he, hne]
    · rw [if_neg he]
      have hrest : values (some l) name ≠ [] := by simpa [values, List.filter_cons, he] using h
      have hih := ih hrest
      by_cases hne : n = name
      · subst hne
        simpa [List.filter_cons, he] using hih
      · by_cases hen : isEntry n e = true
        · simpa [List.filter_cons, hen, hne] using hih
        · simpa [List.filter_cons, hen, hne] using hih

theorem values_removeFirst (hn : equals ∉ n) (hname : equals ∉ name) (l : List Bytes) :
    values (some (removeFirst name l)) n =
      if n = name then (values (some l) n).tail else values (some l) n := by
  unfold values
  induction l with
  | nil => simp [removeFirst]
  | cons e l ih =>
    rw [removeFirst]
    by_cases he : isEntry name e = true
    · rw [if_pos he]
      by_cases hne : n = name
      · subst hne
        simp [he]
      · simp [isEntry_other hn hname hne he, hne]
    · rw [if_neg he]
      by_cases hne : n = name
      · subst hne
        simpa [List.filter_cons, he] using ih
      · by_cases hen : isEntry n e = true
        · simpa [List.filter_cons, hen, hne] using ih
        · simpa [List.filter_cons, hen, hne] using ih

theorem Stands.putEntry (h : Stands s m) (hname : equals ∉ name) :
    Stands (putEntry s name (name ++ equals :: v)) (m.set name (some v)) := by
  intro n hn
  have hvalues := h n hn
  unfold Libc.putEntry EnvMap.set
  rw [getenv_eq, h name hname]
  cases hm : m name with
  | none =>
    have happ : values (some (s.getD [] ++ [name ++ equals :: v])) n =
        values s n ++ if n = name then [v] else [] := by
      unfold values
      rw [Option.getD_some, List.filter_append, List.map_append, List.filter_cons,
        isEntry_entry hn hname]
      by_cases hne : n = name <;> simp [hne]
    rw [if_neg (by simp), happ, hvalues]
    by_cases hne : n = name
    · subst hne
      simp [hm]
    · simp [hne]
  | some w =>
    have hset : values s name = [w] := by rw [h name hname, hm]; rfl
    cases s with
    | none => exact absurd hset (by simp [values])
    | some l =>
      rw [if_pos (by simp)]
      show values (some (replaceFirst name (name ++ equals :: v) l)) n = _
      rw [values_replaceFirst hn hname l (by rw [hset]; simp)]
      by_cases hne : n = name
      · subst hne
        simp [hset]
      · simp [hne, hvalues]

/-- One call. -/
theorem Stands.step (h : Stands s m) {c : Call} (hc : c.Plain) :
    (∀ name, c = .getenv name → (envStep s c).1 = .value (m name)) ∧
      Stands (envStep s c).2 (m.apply c (envStep s c).1) := by
  have hget : ∀ name, equals ∉ name → getenv s name = m name := by
    intro name hname
    rw [getenv_eq, h name hname]
    cases m name <;> rfl
  cases c with
  | getenv name =>
    refine ⟨?_, h⟩
    rintro _ ⟨⟩
    exact congrArg Reply.value (hget name hc)
  | setenv name value overwrite =>
    refine ⟨nofun, ?_⟩
    simp only [envStep, setenv]
    split_ifs with hbad hkeep
    · exact h
    · have hname : equals ∉ name := fun hmem => hbad (.inr hmem)
      rw [hget name hname] at hkeep
      simp only [EnvMap.apply, if_pos hkeep]
      exact h
    · have hname : equals ∉ name := fun hmem => hbad (.inr hmem)
      rw [hget name hname] at hkeep
      simp only [EnvMap.apply, if_neg hkeep]
      exact h.putEntry hname
  | putenv string =>
    refine ⟨nofun, ?_⟩
    simp only [envStep, putenv]
    by_cases hmem : equals ∈ string
    · obtain ⟨hname, v, hv⟩ := nameOf_spec hmem
      have hdrop : string.drop ((nameOf string).length + 1) = v := by
        calc _ = (nameOf string ++ equals :: v).drop ((nameOf string).length + 1) := by rw [← hv]
          _ = v := by simp
      have hput := Stands.putEntry (v := v) h hname
      rw [← hv] at hput
      rw [if_neg fun hno => hno hmem, List.take_of_length_le hc]
      simp only [EnvMap.apply, hdrop]
      exact hput
    · rw [if_pos hmem]
      exact h
  | unsetenv name =>
    refine ⟨nofun, ?_⟩
    simp only [envStep, unsetenv]
    split_ifs with hbad
    · exact h
    · rw [not_or, not_or] at hbad
      obtain ⟨l, rfl⟩ := Option.ne_none_iff_exists'.mp hbad.1
      intro n hn
      show values (some (removeFirst name l)) n = _
      rw [values_removeFirst hn hbad.2.2, h n hn]
      unfold EnvMap.apply EnvMap.set
      by_cases hne : n = name
      · subst hne
        cases m n <;> simp
      · simp [hne]

/-- No two entries have the same name. -/
def Distinct (s : Environ) : Prop :=
  (s.getD []).Pairwise fun e f => ∀ n, equals ∉ n → ¬ (isEntry n e = true ∧ isEntry n f = true)

/-- The variables of an environment. -/
def envVariables (s : Environ) : EnvMap := fun n => (values s n).head?

theorem Distinct.stands (h : Distinct s) : Stands s (envVariables s) := by
  intro n hn
  have hpair := List.Pairwise.filter (isEntry n) h
  unfold envVariables values
  match hl : (s.getD []).filter (isEntry n) with
  | [] => rfl
  | [e] => rfl
  | e :: f :: l =>
    have hall : ∀ x ∈ e :: f :: l, isEntry n x = true := fun x hx => by
      rw [← hl] at hx
      exact (List.mem_filter.mp hx).2
    rw [hl] at hpair
    exact absurd ⟨hall e (by simp), hall f (by simp)⟩ (List.rel_of_pairwise_cons hpair (by simp) n hn)

/-- In every sequence of calls whose names `putenv` can look up, `getenv` returns what the map of the
variables has after the calls before. -/
theorem envRun_agrees {cs : List Call} (hdistinct : Distinct s) (hplain : ∀ c ∈ cs, c.Plain) :
    (envVariables s).Agrees cs (envRun s cs).1 := by
  have hrun : ∀ m, Stands s m → EnvMap.Agrees m cs (envRun s cs).1 := by
    clear hdistinct
    induction cs generalizing s with
    | nil => exact fun m _ => trivial
    | cons c cs ih =>
      intro m h
      obtain ⟨hreply, hnext⟩ := h.step (hplain c List.mem_cons_self)
      exact ⟨hreply, ih (fun d hd => hplain d (List.mem_cons_of_mem _ hd)) _ hnext⟩
  exact hrun _ hdistinct.stands

/-- `A=1`, then `A` is set to `2`. -/
theorem envRun_agrees_set : (envVariables (some [[65, 61, 49]])).Agrees
    [.setenv [65] (some [50]) true, .getenv [65]] [.code 0, .value (some [50])] := by
  have hdistinct : Distinct (some [[65, 61, 49]]) := List.pairwise_singleton _ _
  exact envRun_agrees hdistinct (by simp [Call.Plain, equals])

/-- `name=v`, with a name of 128 bytes. -/
def longEntry (v : UInt8) : Bytes := List.replicate 128 65 ++ [equals, v]

/-- Two calls of `putenv` leave the first value in place. -/
theorem putenv_long_name :
    (envRun none [.putenv (longEntry 49), .putenv (longEntry 50),
      .getenv (List.replicate 128 65)]).1 = [.code 0, .code 0, .value (some [49])] ∧
    ¬ (envVariables none).Agrees
      [.putenv (longEntry 49), .putenv (longEntry 50), .getenv (List.replicate 128 65)]
      [.code 0, .code 0, .value (some [49])] := by
  refine ⟨by decide +kernel, ?_⟩
  rintro ⟨-, -, hreply, -⟩
  have hvalue := hreply _ rfl
  revert hvalue
  decide +kernel

end Perspicua.Libc
