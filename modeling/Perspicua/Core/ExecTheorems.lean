import Perspicua.Core.ElfImage
import Perspicua.Core.Exec
import Perspicua.Core.VaRegions

/-!
# The vectors of a new image

The strings that `process_exec` copies in end up on the new stack, each where its pointer says, and
the size it computes beforehand covers what the layout takes. What it copies in is the caller's
vector up to 127 entries: the loop ends there and does not look for the `NULL`.
-/

namespace Perspicua.Core.Exec

open Perspicua.Lib Perspicua.Mm Perspicua.Core.Elf

/-! ## Strings and vectors in memory -/

/-- A terminated string at an address. -/
structure StringAt (mem : Loads) (a : BitVec 64) (s : List UInt8) : Prop where
  bytes : ∀ i (h : i < s.length), mem (a + BitVec.ofNat 64 i) = some s[i] ∧ s[i] ≠ 0
  terminated : mem (a + BitVec.ofNat 64 s.length) = some 0

/-- The pointer in slot `i` of an array. -/
def slot (mem : Loads) (vec : BitVec 64) (i : ℕ) : Option (BitVec 64) :=
  userPointer mem (vec + BitVec.ofNat 64 (8 * i))

/-- An array of pointers to strings with a `NULL` at its end. -/
structure ArrayAt (mem : Loads) (vec : BitVec 64) (strs : List (List UInt8)) : Prop where
  strings : ∀ i (h : i < strs.length), ∃ p, slot mem vec i = some p ∧ p ≠ 0 ∧ StringAt mem p strs[i]
  null : slot mem vec strs.length = some 0

/-- The strings that an argument of `exec` stands for; `NULL` is the empty vector. -/
def IsVector (mem : Loads) (vec : BitVec 64) (strs : List (List UInt8)) : Prop :=
  if vec = 0 then strs = [] else ArrayAt mem vec strs

section Strings

variable {mem : Loads}

theorem add_ofNat_succ (a : BitVec 64) (i : ℕ) :
    a + 1 + BitVec.ofNat 64 i = a + BitVec.ofNat 64 (i + 1) := by
  rw [BitVec.add_assoc, Nat.add_comm i 1, BitVec.ofNat_add]
  rfl

theorem copyFromUser_eq_some {n : ℕ} : ∀ {src : BitVec 64} {bs : List UInt8}, bs.length = n →
    (∀ i (h : i < bs.length), mem (src + BitVec.ofNat 64 i) = some bs[i]) →
    copyFromUser mem src n = some bs := by
  induction n with
  | zero =>
    intro src bs hlen _
    rw [List.eq_nil_of_length_eq_zero hlen]
    rfl
  | succ n ih =>
    intro src bs hlen hbytes
    obtain ⟨b, bs, rfl⟩ := List.exists_cons_of_length_eq_add_one hlen
    have hfirst := hbytes 0 (by simp)
    rw [BitVec.add_zero] at hfirst
    have hrest : copyFromUser mem (src + 1) n = some bs := by
      refine ih (by simpa using hlen) fun i hi => ?_
      rw [add_ofNat_succ]
      exact hbytes (i + 1) (by simpa using hi)
    unfold copyFromUser
    rw [hfirst, hrest]
    rfl

/-- What is copied is the whole string, and it ends within the buffer. -/
theorem strncpyFromUser_spec {count : ℕ} : ∀ {src : BitVec 64} {s : List UInt8},
    strncpyFromUser mem src count = .ok s → StringAt mem src s ∧ s.length < count := by
  induction count with
  | zero =>
    intro src s hok
    cases hok
  | succ count ih =>
    intro src s hok
    unfold strncpyFromUser at hok
    cases hb : mem src with
    | none =>
      rw [hb] at hok
      cases hok
    | some b =>
      rw [hb] at hok
      dsimp only at hok
      by_cases hzero : b = 0
      · rw [if_pos hzero] at hok
        cases hok
        subst hzero
        refine ⟨⟨fun i hi => absurd hi (Nat.not_lt_zero i), ?_⟩, Nat.succ_pos count⟩
        rw [List.length_nil, BitVec.add_zero]
        exact hb
      · rw [if_neg hzero] at hok
        obtain ⟨rest, hrest, rfl⟩ := map_eq_ok.mp hok
        obtain ⟨⟨hbytes, hend⟩, hlen⟩ := ih hrest
        refine ⟨⟨fun i hi => ?_, ?_⟩, by simpa using hlen⟩
        · cases i with
          | zero =>
            rw [BitVec.add_zero]
            exact ⟨hb, hzero⟩
          | succ i =>
            rw [← add_ofNat_succ]
            exact hbytes i (by simpa using hi)
        · rw [List.length_cons, ← add_ofNat_succ]
          exact hend

end Strings

/-- An array has one end. -/
theorem ArrayAt.length_le {mem : Loads} {vec : BitVec 64} {strs strs' : List (List UInt8)}
    (h : ArrayAt mem vec strs) (h' : ArrayAt mem vec strs') : strs'.length ≤ strs.length := by
  by_contra hlt
  obtain ⟨p, hp, hne, -⟩ := h'.strings strs.length (by omega)
  rw [h.null] at hp
  exact hne (Option.some.inj hp).symm

theorem IsVector.length_eq {mem : Loads} {vec : BitVec 64} {strs strs' : List (List UInt8)}
    (h : IsVector mem vec strs) (h' : IsVector mem vec strs') : strs.length = strs'.length := by
  unfold IsVector at h h'
  by_cases hvec : vec = 0
  · rw [if_pos hvec] at h h'
    rw [h, h']
  · rw [if_neg hvec] at h h'
    exact le_antisymm (h'.length_le h) (h.length_le h')

/-! ## Copying the vectors in -/

section CopyIn

variable {env : Env} {vec : BitVec 64} {made : ℕ} {strs : List (List UInt8)}

/-- The strings copied in are those of the entries from `count` on, up to a `NULL` or until no more
may come. -/
theorem copyEntries_spec {left : ℕ} : ∀ {count : ℕ} {strs : List (List UInt8)},
    copyEntries env vec made left count = .ok strs →
    strs.length ≤ left ∧
    (∀ i (h : i < strs.length), ∃ p, slot env.caller vec (count + i) = some p ∧ p ≠ 0 ∧
      StringAt env.caller p strs[i]) ∧
    (strs.length < left → slot env.caller vec (count + strs.length) = some 0) := by
  induction left with
  | zero =>
    intro count strs hok
    cases hok
    exact ⟨le_rfl, fun i hi => absurd hi (Nat.not_lt_zero i), fun hlt => absurd hlt (Nat.lt_irrefl 0)⟩
  | succ left ih =>
    intro count strs hok
    unfold copyEntries at hok
    cases hp : userPointer env.caller (vec + BitVec.ofNat 64 (8 * count)) with
    | none =>
      rw [hp] at hok
      cases hok
    | some p =>
      rw [hp] at hok
      dsimp only at hok
      by_cases hzero : p = 0
      · rw [if_pos hzero] at hok
        cases hok
        subst hzero
        exact ⟨Nat.zero_le _, fun i hi => absurd hi (Nat.not_lt_zero i), fun _ => hp⟩
      · rw [if_neg hzero] at hok
        cases hheap : env.heap (made + count) with
        | false =>
          rw [hheap] at hok
          cases hok
        | true =>
          rw [hheap] at hok
          obtain ⟨s, hs, hok⟩ := bind_eq_ok.mp hok
          obtain ⟨rest, hrest, hok⟩ := bind_eq_ok.mp hok
          cases hok
          obtain ⟨hlen, hstrs, hnull⟩ := ih hrest
          refine ⟨Nat.succ_le_succ hlen, fun i hi => ?_, fun hlt => ?_⟩
          · cases i with
            | zero => exact ⟨p, hp, hzero, (strncpyFromUser_spec hs).1⟩
            | succ i =>
              obtain ⟨q, hq, hne, hstring⟩ := hstrs i (by simpa using hi)
              refine ⟨q, ?_, hne, hstring⟩
              rw [← hq]
              congr 1
              omega
          · rw [← hnull (by simpa using hlt), List.length_cons]
            congr 1
            omega

/-- What a copied vector is: the caller's strings, all of them if it is not full. -/
structure Copied (mem : Loads) (vec : BitVec 64) (strs : List (List UInt8)) : Prop where
  length_lt : strs.length < execMaxVector
  strings : ∀ i (h : i < strs.length), ∃ p, slot mem vec i = some p ∧ p ≠ 0 ∧ StringAt mem p strs[i]
  null : vec ≠ 0 → strs.length < execMaxVector - 1 → slot mem vec strs.length = some 0
  empty : vec = 0 → strs = []

theorem copyUserVector_spec (hok : copyUserVector env vec made = .ok strs) : Copied env.caller vec strs := by
  unfold copyUserVector at hok
  by_cases hvec : vec = 0
  · rw [if_pos hvec] at hok
    cases hok
    exact ⟨by decide, fun i hi => absurd hi (Nat.not_lt_zero i), fun h => absurd hvec h, fun _ => rfl⟩
  · rw [if_neg hvec] at hok
    obtain ⟨hlen, hstrs, hnull⟩ := copyEntries_spec hok
    simp only [Nat.zero_add] at hstrs hnull
    refine ⟨?_, hstrs, fun _ => hnull, fun h => absurd h hvec⟩
    unfold execMaxVector at hlen ⊢
    omega

/-- A vector that ends where the loop still sees it: its `NULL` is among the first 128 pointers. -/
def Ends (mem : Loads) (vec : BitVec 64) : Prop :=
  vec = 0 ∨ ∃ i < execMaxVector, slot mem vec i = some 0

theorem Copied.isVector {mem : Loads} (h : Copied mem vec strs) (hends : Ends mem vec) :
    IsVector mem vec strs := by
  unfold IsVector
  by_cases hvec : vec = 0
  · rw [if_pos hvec]
    exact h.empty hvec
  rw [if_neg hvec]
  refine ⟨h.strings, ?_⟩
  by_cases hlt : strs.length < execMaxVector - 1
  · exact h.null hvec hlt
  -- the vector is full, and every slot before its end holds a string
  obtain ⟨i, hi, hzero⟩ := hends.resolve_left hvec
  have hlen := h.length_lt
  have hend : i = strs.length := by
    by_contra hne
    unfold execMaxVector at hlen hlt hi
    obtain ⟨p, hp, hp0, -⟩ := h.strings i (by omega)
    rw [hp] at hzero
    exact hp0 (Option.some.inj hzero)
  rw [← hend]
  exact hzero

theorem Copied.ends {mem : Loads} (h : Copied mem vec strs) {strs' : List (List UInt8)}
    (hvec : IsVector mem vec strs') (hlen : strs'.length = strs.length) : Ends mem vec := by
  unfold IsVector at hvec
  by_cases hzero : vec = 0
  · exact .inl hzero
  rw [if_neg hzero] at hvec
  refine .inr ⟨strs'.length, ?_, hvec.null⟩
  rw [hlen]
  exact h.length_lt

theorem Copied.nonzero {mem : Loads} (h : Copied mem vec strs) {s : List UInt8} (hs : s ∈ strs) :
    ∀ b ∈ s, b ≠ 0 := by
  intro b hb
  obtain ⟨i, hi, rfl⟩ := List.getElem_of_mem hs
  obtain ⟨p, -, -, hstring⟩ := h.strings i hi
  obtain ⟨j, hj, rfl⟩ := List.getElem_of_mem hb
  exact (hstring.bytes j hj).2

end CopyIn

/-! ## Stores through the new tables -/

/-- The bytes that an address space reads from an address on. -/
def Reads (user : UserMem) (va : ℕ) (bytes : List UInt8) : Prop :=
  ∀ i (h : i < bytes.length), user.byte (va + i) = some bytes[i]

/-- Every address of a range is mapped. -/
def Mapped (user : UserMem) (lo hi : ℕ) : Prop :=
  ∀ va, lo ≤ va → va < hi → has (user.pgd.l3 (vaPath va)) pteValid = true

section Stores

variable {g : Pmm} {refs : Block → ℕ} {pgd₀ : Pgd} {user user' : UserMem} {lo hi dst : ℕ} {bytes : List UInt8}

theorem Mapped.mono (h : Mapped user lo hi) {lo' hi' : ℕ} (hlo : lo ≤ lo') (hhi : hi' ≤ hi) :
    Mapped user lo' hi' := fun va hva hva' => h va (le_trans hlo hva) (lt_of_lt_of_le hva' hhi)

theorem Mapped.of_writes (h : Mapped user lo hi) (hw : user.Writes user' dst bytes) : Mapped user' lo hi := by
  intro va hlo hhi
  rw [hw.pgd_eq]
  exact h va hlo hhi

theorem reads_append {va : ℕ} {bs cs : List UInt8} :
    Reads user va (bs ++ cs) ↔ Reads user va bs ∧ Reads user (va + bs.length) cs := by
  constructor
  · intro h
    refine ⟨fun i hi => ?_, fun i hi => ?_⟩
    · rw [h i (by rw [List.length_append]; omega), List.getElem_append_left hi]
    · rw [Nat.add_assoc, h (bs.length + i) (by rw [List.length_append]; omega),
        List.getElem_append_right (by omega)]
      simp
  · rintro ⟨hb, hc⟩ i hi
    by_cases hlt : i < bs.length
    · rw [List.getElem_append_left hlt]
      exact hb i hlt
    · rw [List.getElem_append_right (by omega)]
      have hi' : i - bs.length < cs.length := by
        rw [List.length_append] at hi
        omega
      rw [← hc (i - bs.length) hi']
      congr 1
      omega

theorem Reads.of_writes (hw : user.Writes user' dst bytes) (hdst : dst + bytes.length ≤ 2 ^ 39) :
    Reads user' dst bytes := by
  intro i hi
  rw [hw.byte_eq _ (by omega), if_pos ⟨by omega, by omega⟩, Nat.add_sub_cancel_left,
    List.getD_eq_getElem _ _ hi]

/-- Writing below a block leaves it. -/
theorem Reads.keep {va : ℕ} {bs : List UInt8} (h : Reads user va bs) (hw : user.Writes user' dst bytes)
    (hbelow : dst + bytes.length ≤ va) (hva : va + bs.length ≤ 2 ^ 39) : Reads user' va bs := by
  intro i hi
  rw [hw.byte_eq _ (by omega), if_neg (by omega)]
  exact h i hi

/-- The loop of `stack_copy_in` writes everything, page by page. -/
theorem stackCopyIn_writes {rounds : ℕ} : ∀ {user : UserMem} {dst : ℕ} {bytes : List UInt8},
    user.Owns g refs pgd₀ → Mapped user dst (dst + bytes.length) → dst + bytes.length ≤ 2 ^ 39 →
    bytes.length ≤ rounds → user.Writes (stackCopyIn rounds user dst bytes) dst bytes := by
  induction rounds with
  | zero =>
    intro user dst bytes _ _ _ hle
    rw [List.eq_nil_of_length_eq_zero (Nat.le_zero.mp hle)]
    exact UserMem.writes_nil user dst
  | succ rounds ih =>
    intro user dst bytes howns hmapped hend hle
    unfold stackCopyIn
    by_cases hempty : bytes.length = 0
    · rw [if_pos hempty, List.eq_nil_of_length_eq_zero hempty]
      exact UserMem.writes_nil user dst
    have hvalid := hmapped dst le_rfl (by omega)
    rw [if_neg hempty, howns.query_page (by omega) hvalid]
    dsimp only
    generalize hchunk : min (pageSize - dst % pageSize) bytes.length = chunk
    have hmod : dst % pageSize < pageSize := Nat.mod_lt _ (by decide)
    have htake : (bytes.take chunk).length = chunk := by
      rw [List.length_take]
      omega
    have hdrop : (bytes.drop chunk).length = bytes.length - chunk := List.length_drop
    have hin : dst % pageSize + (bytes.take chunk).length ≤ pageSize := by omega
    have hfirst := howns.writes_store (by omega) hvalid hin
    have hmapped' : Mapped _ (dst + chunk) (dst + chunk + (bytes.drop chunk).length) :=
      (hmapped.of_writes hfirst).mono (by omega) (by omega)
    have hrest := ih (hfirst.owns howns) hmapped' (by omega) (by omega)
    have hall := hfirst.append (by rw [htake]; exact hrest)
    rw [List.take_append_drop] at hall
    exact hall

theorem length_leBytes (n w : ℕ) : (leBytes n w).length = n := by
  induction n generalizing w with
  | zero => rfl
  | succ n ih => exact congrArg (· + 1) (ih (w / 256))

theorem storePointer_writes (h : user.Owns g refs pgd₀) {va : ℕ} (halign : va % 8 = 0) (hva : va < 2 ^ 39)
    (hvalid : has (user.pgd.l3 (vaPath va)) pteValid = true) (ptr : ℕ) :
    user.Writes (storePointer user va ptr) va (leBytes 8 ptr) := by
  unfold storePointer
  rw [h.query_page hva hvalid]
  apply h.writes_store hva hvalid
  rw [length_leBytes]
  unfold pageSize
  omega

/-- The bytes of an array of pointers. -/
def arrayBytes (ptrs : List ℕ) : List UInt8 := (ptrs ++ [0]).flatMap (leBytes 8)

theorem length_arrayBytes (ptrs : List ℕ) : (arrayBytes ptrs).length = 8 * (ptrs.length + 1) := by
  unfold arrayBytes
  rw [List.length_flatMap]
  simp [length_leBytes]
  omega

theorem storePointers_writes {ptrs : List ℕ} : ∀ {user : UserMem} {va : ℕ}, user.Owns g refs pgd₀ →
    va % 8 = 0 → Mapped user va (va + 8 * (ptrs.length + 1)) → va + 8 * (ptrs.length + 1) ≤ 2 ^ 39 →
    user.Writes (storePointers ptrs va user) va (arrayBytes ptrs) := by
  induction ptrs with
  | nil =>
    intro user va h halign hmapped hva
    exact storePointer_writes h halign (by omega) (hmapped va le_rfl (by omega)) 0
  | cons p ptrs ih =>
    intro user va h halign hmapped hva
    rw [List.length_cons] at hmapped hva
    have hfirst := storePointer_writes h halign (by omega) (hmapped va le_rfl (by omega)) p
    have hmapped' : Mapped _ (va + 8) (va + 8 + 8 * (ptrs.length + 1)) :=
      (hmapped.of_writes hfirst).mono (by omega) (by omega)
    have hrest := ih (hfirst.owns h) (by omega) hmapped' (by omega)
    exact hfirst.append (by rw [length_leBytes]; exact hrest)

/-- Every pointer of an array that reads back. -/
theorem Reads.pointer {ws : List ℕ} {va : ℕ} (h : Reads user va (ws.flatMap (leBytes 8))) :
    ∀ i (hi : i < ws.length), Reads user (va + 8 * i) (leBytes 8 ws[i]) := by
  induction ws generalizing va with
  | nil => exact fun i hi => absurd hi (Nat.not_lt_zero i)
  | cons w ws ih =>
    rw [List.flatMap_cons, reads_append, length_leBytes] at h
    intro i hi
    cases i with
    | zero => exact h.1
    | succ i =>
      have := ih h.2 i (by simpa using hi)
      rw [show va + 8 * (i + 1) = va + 8 + 8 * i by omega]
      exact this

end Stores

/-! ## The layout -/

/-- Blocks laid down one below the other between `lo` and `hi`, all of which read back. -/
structure Laid (user : UserMem) (lo hi : ℕ) (blocks : List (ℕ × List UInt8)) : Prop where
  le : lo ≤ hi
  reads : ∀ b ∈ blocks, Reads user b.1 b.2
  inside : ∀ b ∈ blocks, lo ≤ b.1 ∧ b.1 + b.2.length ≤ hi
  apart : blocks.Pairwise fun b c => c.1 + c.2.length ≤ b.1

/-- The blocks of the strings of a vector. -/
def stringBlocks (ptrs : List ℕ) (strs : List (List UInt8)) : List (ℕ × List UInt8) :=
  List.zipWith (fun p s => (p, s ++ [0])) ptrs strs

/-- The blocks of a vector: its strings and its array. -/
def vectorBlocks (array : ℕ) (ptrs : List ℕ) (strs : List (List UInt8)) : List (ℕ × List UInt8) :=
  stringBlocks ptrs strs ++ [(array, arrayBytes ptrs)]

/-- What the strings of a vector take at most. -/
def stringsNeed (strs : List (List UInt8)) : ℕ := (strs.map fun s => s.length + 1 + 7).sum

theorem mem_vectorBlocks {array : ℕ} {ptrs : List ℕ} {strs : List (List UInt8)} {i : ℕ}
    (hi : i < ptrs.length) (hi' : i < strs.length) :
    (ptrs[i], strs[i] ++ [0]) ∈ vectorBlocks array ptrs strs := by
  apply List.mem_append_left
  unfold stringBlocks
  rw [List.mem_iff_getElem]
  exact ⟨i, by rw [List.length_zipWith]; omega, by rw [List.getElem_zipWith]⟩

section Layout

variable {g : Pmm} {refs : Block → ℕ} {pgd₀ : Pgd} {base lo hi : ℕ}

theorem Laid.push {user user' : UserMem} {blocks : List (ℕ × List UInt8)} {dst : ℕ} {bytes : List UInt8}
    (h : Laid user lo hi blocks) (hhi : hi ≤ 2 ^ 39) (hw : user.Writes user' dst bytes)
    (hbelow : dst + bytes.length ≤ lo) : Laid user' dst hi (blocks ++ [(dst, bytes)]) := by
  have hle := h.le
  refine ⟨by omega, fun b hb => ?_, fun b hb => ?_, ?_⟩
  · rcases List.mem_append.mp hb with hb | hb
    · obtain ⟨hlo, htop⟩ := h.inside b hb
      exact (h.reads b hb).keep hw (by omega) (by omega)
    · rw [List.mem_singleton.mp hb]
      exact Reads.of_writes hw (le_trans hbelow (le_trans hle hhi))
  · rcases List.mem_append.mp hb with hb | hb
    · obtain ⟨hlo, htop⟩ := h.inside b hb
      exact ⟨by omega, htop⟩
    · rw [List.mem_singleton.mp hb]
      exact ⟨le_rfl, by dsimp only; omega⟩
  · rw [List.pairwise_append]
    refine ⟨h.apart, List.pairwise_singleton _ _, fun b hb c hc => ?_⟩
    rw [List.mem_singleton.mp hc]
    exact le_trans hbelow (h.inside b hb).1

/-- One string after the other: the room they take is at most `stringsNeed`. -/
theorem pushStrings_laid {strs : List (List UInt8)} : ∀ {user : UserMem} {lo : ℕ}
    {blocks : List (ℕ × List UInt8)}, user.Owns g refs pgd₀ → Mapped user base hi → hi ≤ 2 ^ 39 →
    Laid user lo hi blocks → base + stringsNeed strs ≤ lo →
    ∃ sp ptrs user', pushStrings strs lo user = (sp, ptrs, user') ∧ user'.Owns g refs pgd₀ ∧
      Mapped user' base hi ∧ ptrs.length = strs.length ∧ lo ≤ sp + stringsNeed strs ∧
      Laid user' sp hi (blocks ++ stringBlocks ptrs strs) := by
  induction strs with
  | nil =>
    intro user lo blocks howns hmapped _ hlaid _
    refine ⟨lo, [], user, rfl, howns, hmapped, rfl, Nat.le_add_right _ _, ?_⟩
    rw [stringBlocks, List.zipWith_nil_left, List.append_nil]
    exact hlaid
  | cons s strs ih =>
    intro user lo blocks howns hmapped hhi hlaid hroom
    have hneed : stringsNeed (s :: strs) = s.length + 1 + 7 + stringsNeed strs := rfl
    have hle := hlaid.le
    have hlen : (s ++ [0]).length = s.length + 1 := List.length_append
    generalize hsp : (lo - (s.length + 1)) / 8 * 8 = sp
    have hfit : base + stringsNeed strs ≤ sp ∧ lo ≤ sp + (s.length + 1 + 7) ∧
        sp + (s.length + 1) ≤ lo := by
      have hdiv := Nat.div_add_mod (lo - (s.length + 1)) 8
      have hmod := Nat.mod_lt (lo - (s.length + 1)) (show 8 > 0 by decide)
      omega
    have hw : user.Writes (stackCopyIn (s.length + 1) user sp (s ++ [0])) sp (s ++ [0]) :=
      stackCopyIn_writes howns (hmapped.mono (by omega) (by omega)) (by omega) (by omega)
    obtain ⟨sp', ptrs, user', heq, howns', hmapped', hptrs, hbound, hlaid'⟩ :=
      ih (hw.owns howns) (hmapped.of_writes hw) hhi (hlaid.push hhi hw (by omega)) (by omega)
    refine ⟨sp', sp :: ptrs, user', ?_, howns', hmapped', congrArg (· + 1) hptrs, by omega, ?_⟩
    · unfold pushStrings
      dsimp only
      rw [hsp, heq]
    · rw [stringBlocks, List.zipWith_cons_cons, ← List.singleton_append, ← List.append_assoc]
      exact hlaid'

/-- One vector: what it takes, and that its array is aligned. -/
theorem pushVector_laid {strs : List (List UInt8)} {user : UserMem} {blocks : List (ℕ × List UInt8)}
    (howns : user.Owns g refs pgd₀) (hmapped : Mapped user base hi) (hhi : hi ≤ 2 ^ 39)
    (hlaid : Laid user lo hi blocks) (hroom : base + stringsNeed strs + (strs.length + 1) * 8 + 15 ≤ lo) :
    ∃ sp ptrs user', pushVector strs lo user = (sp, user') ∧ user'.Owns g refs pgd₀ ∧
      Mapped user' base hi ∧ ptrs.length = strs.length ∧ sp % 16 = 0 ∧
      lo ≤ sp + stringsNeed strs + (strs.length + 1) * 8 + 15 ∧
      Laid user' sp hi (blocks ++ vectorBlocks sp ptrs strs) := by
  have hroom' : base + stringsNeed strs ≤ lo := by omega
  obtain ⟨mid, ptrs, user₁, heq, howns₁, hmapped₁, hptrs, hbound, hlaid₁⟩ :=
    pushStrings_laid howns hmapped hhi hlaid hroom'
  have hle := hlaid₁.le
  generalize hsp : (mid - (strs.length + 1) * 8) / 16 * 16 = sp
  have hfit : base ≤ sp ∧ mid ≤ sp + (strs.length + 1) * 8 + 15 ∧ sp + 8 * (ptrs.length + 1) ≤ mid ∧
      sp % 16 = 0 := by
    have hdiv := Nat.div_add_mod (mid - (strs.length + 1) * 8) 16
    have hmod := Nat.mod_lt (mid - (strs.length + 1) * 8) (show 16 > 0 by decide)
    omega
  have hw : user₁.Writes (storePointers ptrs sp user₁) sp (arrayBytes ptrs) :=
    storePointers_writes howns₁ (by omega) (hmapped₁.mono (by omega) (by omega)) (by omega)
  have hlaid₂ := hlaid₁.push hhi hw (by rw [length_arrayBytes]; omega)
  refine ⟨sp, ptrs, storePointers ptrs sp user₁, ?_, hw.owns howns₁, hmapped₁.of_writes hw, hptrs, hfit.2.2.2,
    by omega, ?_⟩
  · unfold pushVector
    rw [heq]
    dsimp only
    rw [hsp]
  · rw [vectorBlocks, ← List.append_assoc]
    exact hlaid₂

end Layout

/-! ## The new stack -/

section Stack

variable {g : Pmm} {refs : Block → ℕ} {pgd₀ : Pgd}

theorem pageUserData_and_addrMask : pageUserData &&& pteAddrMask = 0#64 := by decide

theorem mapStackPages_spec {n : ℕ} : ∀ {va : ℕ} {user user' : UserMem}, user.Owns g refs pgd₀ →
    va + n * pageSize ≤ 2 ^ 39 → va % pageSize = 0 → mapStackPages n va user = .ok user' →
    user'.Owns g refs pgd₀ ∧ (∀ x, has (user.pgd.l3 x) pteValid = true → has (user'.pgd.l3 x) pteValid = true) ∧
      Mapped user' va (va + n * pageSize) := by
  induction n with
  | zero =>
    intro va user user' howns _ _ hok
    cases hok
    exact ⟨howns, fun x hx => hx, fun a hlo hhi => absurd hhi (by omega)⟩
  | succ n ih =>
    intro va user user' howns hbound halign hok
    unfold mapStackPages at hok
    obtain ⟨⟨r, user₁⟩, hmap, hok⟩ := bind_eq_ok.mp hok
    cases r with
    | none => cases hok
    | some kaddr =>
      obtain ⟨howns₁, hgain⟩ := howns.mapFreshPage pageUserData_and_addrMask (kernel_eq_ok.mp hmap)
      have hvalid : has (user₁.pgd.l3 (vaPath va)) pteValid = true := by
        rw [hgain.leaf]
        exact has_mapWord_valid _ _
      rw [Nat.succ_mul] at hbound ⊢
      have halign' : (va + pageSize) % pageSize = 0 := by rw [Nat.add_mod_right, halign]
      obtain ⟨howns', hkeep, hrest⟩ := ih howns₁ (by omega) halign' hok
      refine ⟨howns', fun x hx => hkeep x ?_, fun a hlo hhi => ?_⟩
      · by_cases he : x = vaPath va
        · rw [he]
          exact hvalid
        · rw [hgain.other x he]
          exact hx
      · by_cases hlt : a < va + pageSize
        · have hpage : vaPath a = vaPath va := by
            refine (vaPath_eq_iff (by omega) (by omega)).mpr ?_
            unfold pageSize at halign hlt ⊢
            omega
          rw [hpage]
          exact hkeep _ hvalid
        · exact hrest a (by omega) (by omega)

/-- The stack of a new image is at the start of the window, and mapped. -/
theorem setupUserStack_spec {user user' : UserMem} {base : ℕ} {va : List Syscall.VaRegion}
    (howns : user.Owns g refs pgd₀)
    (hok : setupUserStack user [] processUserStackPages = .ok (base, va, user')) :
    base = 0x40000000 ∧ user'.Owns g refs pgd₀ ∧ Mapped user' base (base + stackSize) := by
  have halloc : Syscall.processVaAlloc [] (BitVec.ofNat 64 processUserStackPages) =
      some (0x40000000#64, [⟨0x40000000#64, 32#64⟩]) := by decide
  unfold setupUserStack at hok
  rw [halloc] at hok
  obtain ⟨user₁, hmap, hok⟩ := bind_eq_ok.mp hok
  cases hok
  obtain ⟨howns', -, hmapped⟩ := mapStackPages_spec howns (by decide) (by decide) hmap
  exact ⟨rfl, howns', hmapped⟩

end Stack

/-! ## Reading the new image -/

section Image

variable {new : Started}

theorem loads_ofNat {a i : ℕ} (h : a + i < 2 ^ 39) :
    new.loads (BitVec.ofNat 64 a + BitVec.ofNat 64 i) = new.user.byte (a + i) := by
  have hnat : (BitVec.ofNat 64 a + BitVec.ofNat 64 i).toNat = a + i := by
    rw [← BitVec.ofNat_add, BitVec.toNat_ofNat, Nat.mod_eq_of_lt (by omega)]
  unfold Started.loads
  rw [hnat, if_pos h]

theorem foldr_leBytes (n w : ℕ) :
    (leBytes n w).foldr (fun b acc => b.toNat + 256 * acc) 0 = w % 256 ^ n := by
  induction n generalizing w with
  | zero => rw [Nat.pow_zero, Nat.mod_one]; rfl
  | succ n ih =>
    rw [leBytes, List.foldr_cons, ih, Nat.pow_succ', Nat.mod_mul]
    congr 1

theorem field_leBytes (w : ℕ) : field (leBytes 8 w) 0 8 = w % 256 ^ 8 := by
  unfold field
  rw [List.drop_zero, List.take_of_length_le (by rw [length_leBytes]), foldr_leBytes]

theorem Reads.userPointer {va w : ℕ} (h : Reads new.user va (leBytes 8 w)) (hva : va + 8 ≤ 2 ^ 39) :
    userPointer new.loads (BitVec.ofNat 64 va) = some (BitVec.ofNat 64 w) := by
  have hcopy : copyFromUser new.loads (BitVec.ofNat 64 va) 8 = some (leBytes 8 w) := by
    refine copyFromUser_eq_some (length_leBytes 8 w) fun i hi => ?_
    rw [length_leBytes] at hi
    rw [loads_ofNat (by omega), h i (by rw [length_leBytes]; exact hi)]
  unfold Exec.userPointer
  rw [hcopy, Option.map_some, field_leBytes]
  congr 1
  apply BitVec.eq_of_toNat_eq
  rw [BitVec.toNat_ofNat, BitVec.toNat_ofNat, Nat.mod_mod_of_dvd _ (by decide)]

theorem Reads.stringAt {a : ℕ} {s : List UInt8} (h : Reads new.user a (s ++ [0]))
    (ha : a + (s ++ [0]).length ≤ 2 ^ 39) (hs : ∀ b ∈ s, b ≠ 0) :
    StringAt new.loads (BitVec.ofNat 64 a) s := by
  rw [List.length_append, List.length_singleton] at ha
  obtain ⟨hbytes, hzero⟩ := reads_append.mp h
  refine ⟨fun i hi => ⟨?_, hs _ (List.getElem_mem hi)⟩, ?_⟩
  · rw [loads_ofNat (by omega)]
    exact hbytes i hi
  · rw [loads_ofNat (by omega)]
    exact hzero 0 (by simp)

/-- An array of the new image, with the addresses of its strings. -/
structure Points (mem : Loads) (array : ℕ) (ptrs : List ℕ) (strs : List (List UInt8)) : Prop where
  length_eq : ptrs.length = strs.length
  pointers : ∀ i (h : i < ptrs.length), slot mem (BitVec.ofNat 64 array) i = some (BitVec.ofNat 64 ptrs[i])
  null : slot mem (BitVec.ofNat 64 array) ptrs.length = some 0
  strings : ∀ i (h : i < ptrs.length) (h' : i < strs.length),
    StringAt mem (BitVec.ofNat 64 ptrs[i]) strs[i]

theorem Laid.points {lo hi array : ℕ} {blocks : List (ℕ × List UInt8)} {ptrs : List ℕ}
    {strs : List (List UInt8)} (h : Laid new.user lo hi blocks) (hhi : hi ≤ 2 ^ 39)
    (hsub : vectorBlocks array ptrs strs ⊆ blocks) (hlen : ptrs.length = strs.length)
    (hs : ∀ s ∈ strs, ∀ b ∈ s, b ≠ 0) : Points new.loads array ptrs strs := by
  have hmem : (array, arrayBytes ptrs) ∈ blocks := hsub (by simp [vectorBlocks])
  obtain ⟨-, htop⟩ := h.inside _ hmem
  rw [length_arrayBytes] at htop
  have hslot : ∀ i (hi' : i < (ptrs ++ [0]).length),
      slot new.loads (BitVec.ofNat 64 array) i = some (BitVec.ofNat 64 (ptrs ++ [0])[i]) := by
    intro i hi'
    have hread := Reads.pointer (h.reads _ hmem) i hi'
    rw [List.length_append, List.length_singleton] at hi'
    unfold slot
    rw [← BitVec.ofNat_add]
    exact hread.userPointer (by dsimp only; omega)
  refine ⟨hlen, fun i hi' => ?_, ?_, fun i hi' hi'' => ?_⟩
  · rw [hslot i (by rw [List.length_append]; omega), List.getElem_append_left hi']
  · rw [hslot ptrs.length (by simp), List.getElem_append_right le_rfl]
    simp
  · have hstring : (ptrs[i], strs[i] ++ [0]) ∈ blocks := hsub (mem_vectorBlocks hi' hi'')
    obtain ⟨-, htop'⟩ := h.inside _ hstring
    exact (h.reads _ hstring).stringAt (le_trans htop' hhi) (hs _ (List.getElem_mem hi''))

end Image

/-! ## The call -/

section Call

variable {env : Env} {refs : Block → ℕ} {argv envp : BitVec 64} {new : Started}

/-- The stack of an image that was started with two vectors. -/
structure OnStack (new : Started) (kargv kenvp : List (List UInt8)) (ptrs eptrs : List ℕ) : Prop where
  argc : new.argc = kargv.length
  aligned : new.sp % 16 = 0
  sp_eq : new.sp = new.envp
  base_pos : 0 < new.stackBase
  base_le : new.stackBase ≤ new.sp
  top_le : new.stackBase + stackSize ≤ 2 ^ 39
  mapped : Mapped new.user new.stackBase (new.stackBase + stackSize)
  length_ptrs : ptrs.length = kargv.length
  length_eptrs : eptrs.length = kenvp.length
  laid : Laid new.user new.sp (new.stackBase + stackSize)
    (vectorBlocks new.argv ptrs kargv ++ vectorBlocks new.envp eptrs kenvp)

theorem mapError_eq_ok {α ε ε' : Type} {f : ε → ε'} {x : Except ε α} {a : α} :
    x.mapError f = .ok a ↔ x = .ok a := by
  cases x with
  | error e => exact ⟨fun h => (by cases h), fun h => (by cases h)⟩
  | ok b => exact ⟨fun h => congrArg _ (Except.ok.inj h), fun h => congrArg _ (Except.ok.inj h)⟩

theorem elfLoad_owns {g : Pmm} {refs : Block → ℕ} {pgd₀ : Pgd} {elf : Elf.Env} {user user' : UserMem}
    {entry : BitVec 64} (h : user.Owns g refs pgd₀) (hok : elfLoad elf user = .ok (entry, user')) :
    user'.Owns g refs pgd₀ := by
  cases hopen : elf.opened with
  | error rc =>
    unfold elfLoad at hok
    rw [hopen] at hok
    cases hok
  | ok file => exact (elfLoad_spec h hopen hok).1

theorem need_eq (kargv kenvp : List (List UInt8)) : need kargv kenvp =
    (kargv.length + kenvp.length + 2) * 8 + 32 + stringsNeed kargv + stringsNeed kenvp := rfl

theorem processExec_spec (hinv : env.pmm.PmmInv refs) (hpages : env.pmm.numPages ≤ 2 ^ 27)
    (hok : processExec env argv envp = .ok new) :
    ∃ kargv kenvp ptrs eptrs, copyUserVector env argv 0 = .ok kargv ∧
      copyUserVector env envp kargv.length = .ok kenvp ∧ OnStack new kargv kenvp ptrs eptrs := by
  unfold processExec at hok
  obtain ⟨kargv, hargv, hok⟩ := bind_eq_ok.mp hok
  obtain ⟨kenvp, henvp, hok⟩ := bind_eq_ok.mp hok
  by_cases hbig : need kargv kenvp > stackSize / 2
  · rw [if_pos hbig] at hok
    cases hok
  rw [if_neg hbig] at hok
  obtain ⟨⟨r, pmm⟩, htable, hok⟩ := bind_eq_ok.mp hok
  cases r with
  | none => cases hok
  | some page =>
    have howns := UserMem.Owns.fresh hinv hpages (kernel_eq_ok.mp htable) env.mem
    obtain ⟨⟨entry, user₁⟩, hload, hok⟩ := bind_eq_ok.mp hok
    obtain ⟨⟨base, va, user₂⟩, hstack, hok⟩ := bind_eq_ok.mp hok
    obtain ⟨hbase, howns₂, hmapped⟩ := setupUserStack_spec (elfLoad_owns howns hload) hstack
    have hsize : stackSize = 131072 := rfl
    rw [need_eq, hsize] at hbig
    have htop : base + stackSize ≤ 2 ^ 39 := by omega
    have hstart : Laid user₂ (base + stackSize) (base + stackSize) [] :=
      ⟨le_rfl, fun b hb => absurd hb List.not_mem_nil, fun b hb => absurd hb List.not_mem_nil, List.Pairwise.nil⟩
    have hroom : base + stringsNeed kargv + (kargv.length + 1) * 8 + 15 ≤ base + stackSize := by omega
    obtain ⟨sp₁, ptrs, user₃, hpush, howns₃, hmapped₃, hptrs, -, hbound, hlaid⟩ :=
      pushVector_laid howns₂ hmapped htop hstart hroom
    have hroom' : base + stringsNeed kenvp + (kenvp.length + 1) * 8 + 15 ≤ sp₁ := by omega
    obtain ⟨sp₂, eptrs, user₄, hpush', -, hmapped₄, heptrs, halign, hbound', hlaid'⟩ :=
      pushVector_laid howns₃ hmapped₃ htop hlaid hroom'
    dsimp only at hok
    rw [hpush] at hok
    dsimp only at hok
    rw [hpush'] at hok
    cases hok
    have hsp : sp₂ / 16 * 16 = sp₂ := by omega
    refine ⟨kargv, kenvp, ptrs, eptrs, mapError_eq_ok.mp hargv, mapError_eq_ok.mp henvp,
      ⟨rfl, Nat.mul_mod_left _ _, hsp, ?_, ?_, htop, hmapped₄, hptrs, heptrs, ?_⟩⟩
    · dsimp only
      omega
    · dsimp only
      omega
    · dsimp only
      rw [hsp]
      exact hlaid'

theorem OnStack.points {kargv kenvp : List (List UInt8)} {ptrs eptrs : List ℕ}
    (h : OnStack new kargv kenvp ptrs eptrs) (hargv : ∀ s ∈ kargv, ∀ b ∈ s, b ≠ 0)
    (henvp : ∀ s ∈ kenvp, ∀ b ∈ s, b ≠ 0) :
    Points new.loads new.argv ptrs kargv ∧ Points new.loads new.envp eptrs kenvp :=
  ⟨h.laid.points h.top_le (List.subset_append_left _ _) h.length_ptrs hargv,
    h.laid.points h.top_le (List.subset_append_right _ _) h.length_eptrs henvp⟩

/-- Two blocks have no address in common. -/
def Apart (b c : ℕ × List UInt8) : Prop := b.1 + b.2.length ≤ c.1 ∨ c.1 + c.2.length ≤ b.1

/-- The stack of every image that is started: the stack pointer is aligned and on the stack, which is
mapped; the pointers of both arrays lead to the strings, and a `NULL` follows them; strings and
arrays are blocks of the stack that do not meet. -/
theorem exec_stack (hinv : env.pmm.PmmInv refs) (hpages : env.pmm.numPages ≤ 2 ^ 27)
    (hok : processExec env argv envp = .ok new) :
    ∃ kargv kenvp, copyUserVector env argv 0 = .ok kargv ∧
      copyUserVector env envp kargv.length = .ok kenvp ∧
      new.argc = kargv.length ∧ new.sp % 16 = 0 ∧ new.stackBase ≤ new.sp ∧
      Mapped new.user new.stackBase (new.stackBase + stackSize) ∧
      ∃ ptrs eptrs, Points new.loads new.argv ptrs kargv ∧ Points new.loads new.envp eptrs kenvp ∧
        (vectorBlocks new.argv ptrs kargv ++ vectorBlocks new.envp eptrs kenvp).Pairwise Apart ∧
        ∀ b ∈ vectorBlocks new.argv ptrs kargv ++ vectorBlocks new.envp eptrs kenvp,
          new.sp ≤ b.1 ∧ b.1 + b.2.length ≤ new.stackBase + stackSize := by
  obtain ⟨kargv, kenvp, ptrs, eptrs, hargv, henvp, h⟩ := processExec_spec hinv hpages hok
  obtain ⟨hpoints, hpoints'⟩ := h.points (fun s => (copyUserVector_spec hargv).nonzero)
    (fun s => (copyUserVector_spec henvp).nonzero)
  exact ⟨kargv, kenvp, hargv, henvp, h.argc, h.aligned, h.base_le, h.mapped, ptrs, eptrs, hpoints, hpoints',
    h.laid.apart.imp fun hle => .inr hle, h.laid.inside⟩

/-- A string lies where its pointer says, so the array is a vector for the new image. -/
theorem Points.isVector {mem : Loads} {array : ℕ} {ptrs : List ℕ} {strs : List (List UInt8)}
    (h : Points mem array ptrs strs) (harray : 0 < array ∧ array < 2 ^ 39)
    (hptrs : ∀ p ∈ ptrs, 0 < p ∧ p < 2 ^ 39) : IsVector mem (BitVec.ofNat 64 array) strs := by
  have hne : ∀ {a : ℕ}, 0 < a ∧ a < 2 ^ 39 → BitVec.ofNat 64 a ≠ 0 := by
    intro a ha hzero
    have hnat := congrArg BitVec.toNat hzero
    rw [BitVec.toNat_ofNat, Nat.mod_eq_of_lt (by omega)] at hnat
    exact absurd hnat (Nat.ne_of_gt ha.1)
  unfold IsVector
  rw [if_neg (hne harray)]
  refine ⟨fun i hi => ?_, by rw [← h.length_eq]; exact h.null⟩
  have hi' : i < ptrs.length := by rw [h.length_eq]; exact hi
  exact ⟨_, h.pointers i hi', hne (hptrs _ (List.getElem_mem hi')), h.strings i hi' hi⟩

/-- The new image is given the strings of the caller's two vectors. -/
def SameStrings (env : Env) (argv envp : BitVec 64) (new : Started) : Prop :=
  ∃ args vars, IsVector env.caller argv args ∧ IsVector env.caller envp vars ∧ new.argc = args.length ∧
    IsVector new.loads (BitVec.ofNat 64 new.argv) args ∧ IsVector new.loads (BitVec.ofNat 64 new.envp) vars

theorem OnStack.isVector {kargv kenvp : List (List UInt8)} {ptrs eptrs : List ℕ}
    (h : OnStack new kargv kenvp ptrs eptrs) (hargv : ∀ s ∈ kargv, ∀ b ∈ s, b ≠ 0)
    (henvp : ∀ s ∈ kenvp, ∀ b ∈ s, b ≠ 0) :
    IsVector new.loads (BitVec.ofNat 64 new.argv) kargv ∧
      IsVector new.loads (BitVec.ofNat 64 new.envp) kenvp := by
  -- every block has an address, and it is on the stack
  have hin : ∀ b ∈ vectorBlocks new.argv ptrs kargv ++ vectorBlocks new.envp eptrs kenvp,
      0 < b.2.length → 0 < b.1 ∧ b.1 < 2 ^ 39 := by
    intro b hb hpos
    obtain ⟨hlo, hhi⟩ := h.laid.inside b hb
    have hbase := h.base_pos
    have hle := h.base_le
    have htop := h.top_le
    omega
  have hstring : ∀ {array : ℕ} {ps : List ℕ} {strs : List (List UInt8)}, ps.length = strs.length →
      vectorBlocks array ps strs ⊆ vectorBlocks new.argv ptrs kargv ++ vectorBlocks new.envp eptrs kenvp →
      (0 < array ∧ array < 2 ^ 39) ∧ ∀ p ∈ ps, 0 < p ∧ p < 2 ^ 39 := by
    intro array ps strs hlen hsub
    refine ⟨hin (array, arrayBytes ps) (hsub (by simp [vectorBlocks])) ?_, fun p hp => ?_⟩
    · rw [length_arrayBytes]
      omega
    · obtain ⟨i, hi, rfl⟩ := List.getElem_of_mem hp
      have hmem : (ps[i], strs[i] ++ [0]) ∈ vectorBlocks array ps strs := mem_vectorBlocks hi (hlen ▸ hi)
      exact hin _ (hsub hmem) (by simp)
  obtain ⟨hpoints, hpoints'⟩ := h.points hargv henvp
  obtain ⟨harray, hptrs⟩ := hstring h.length_ptrs (List.subset_append_left _ _)
  obtain ⟨harray', hptrs'⟩ := hstring h.length_eptrs (List.subset_append_right _ _)
  exact ⟨hpoints.isVector harray hptrs, hpoints'.isVector harray' hptrs'⟩

/-- The strings of the caller can only be all there if both vectors end in time. -/
theorem SameStrings.ends (hinv : env.pmm.PmmInv refs) (hpages : env.pmm.numPages ≤ 2 ^ 27)
    (hok : processExec env argv envp = .ok new) (hsame : SameStrings env argv envp new) :
    Ends env.caller argv ∧ Ends env.caller envp := by
  obtain ⟨kargv, kenvp, ptrs, eptrs, hargv, henvp, h⟩ := processExec_spec hinv hpages hok
  have hcopied := copyUserVector_spec hargv
  have hcopied' := copyUserVector_spec henvp
  obtain ⟨hnew, hnew'⟩ := h.isVector (fun s => hcopied.nonzero) (fun s => hcopied'.nonzero)
  obtain ⟨args, vars, hargs, hvars, -, hargs', hvars'⟩ := hsame
  exact ⟨hcopied.ends hargs (hargs'.length_eq hnew), hcopied'.ends hvars (hvars'.length_eq hnew')⟩

/-- An image that is started has the caller's strings exactly if both of the caller's vectors end
within the entries that `exec` looks at. -/
theorem exec_same_strings_iff (hinv : env.pmm.PmmInv refs) (hpages : env.pmm.numPages ≤ 2 ^ 27)
    (hok : processExec env argv envp = .ok new) :
    SameStrings env argv envp new ↔ Ends env.caller argv ∧ Ends env.caller envp := by
  refine ⟨SameStrings.ends hinv hpages hok, ?_⟩
  rintro ⟨hends, hends'⟩
  obtain ⟨kargv, kenvp, ptrs, eptrs, hargv, henvp, h⟩ := processExec_spec hinv hpages hok
  have hcopied := copyUserVector_spec hargv
  have hcopied' := copyUserVector_spec henvp
  obtain ⟨hnew, hnew'⟩ := h.isVector (fun s => hcopied.nonzero) (fun s => hcopied'.nonzero)
  exact ⟨kargv, kenvp, hcopied.isVector hends, hcopied'.isVector hends', h.argc, hnew, hnew'⟩

end Call

/-! ## A small caller -/

/-- `n` pointers to the string `a`, from `0x2000` on. -/
def sampleCaller (n : ℕ) : Loads := fun a =>
  let x := a.toNat
  if x = 0x1000 then some 0x61
  else if x = 0x1001 then some 0
  else if 0x2000 ≤ x ∧ x < 0x2000 + 8 * n then some (if x % 8 = 1 then 0x10 else 0)
  else if 0x2000 + 8 * n ≤ x ∧ x < 0x2008 + 8 * n then some 0
  else none

/-- A machine of 64 pages with memory enough for everything. -/
def sampleMachine : Except Panic Pmm := Pmm.boot.pmmInit 0x40000 kernelVma

def sampleExecEnv (n : ℕ) (pmm : Pmm) : Env :=
  { caller := sampleCaller n, heap := fun _ => true, elf := sampleEnv (sampleFile 5 0 5 0), pmm := pmm
    mem := fun _ => 0xAA }

/-- The arguments that an image gets from a caller with `n` of them. -/
def sampleArgc (n : ℕ) : Except Stop ℕ := do
  let pmm ← kernel sampleMachine
  let new ← processExec (sampleExecEnv n pmm) 0x2000 0
  .ok new.argc

theorem sampleArgc_run {n argc : ℕ} (hok : sampleArgc n = .ok argc) : ∃ pmm refs new,
    (sampleExecEnv n pmm).pmm.PmmInv refs ∧ (sampleExecEnv n pmm).pmm.numPages ≤ 2 ^ 27 ∧
    processExec (sampleExecEnv n pmm) 0x2000 0 = .ok new ∧ new.argc = argc := by
  unfold sampleArgc at hok
  obtain ⟨pmm, hpmm, hok⟩ := bind_eq_ok.mp hok
  obtain ⟨new, hexec, hargc⟩ := bind_eq_ok.mp hok
  obtain ⟨hinv, -, hpages⟩ := Pmm.pmmInit_inv rfl (kernel_eq_ok.mp hpmm)
  refine ⟨pmm, _, new, hinv, ?_, hexec, Except.ok.inj hargc⟩
  show pmm.numPages ≤ 2 ^ 27
  rw [hpages]
  decide

/-- Two arguments and no environment. -/
theorem exec_stack_sample : ∃ env refs new, env.pmm.PmmInv refs ∧ env.pmm.numPages ≤ 2 ^ 27 ∧
    processExec env 0x2000 0 = .ok new ∧
    ∃ kargv kenvp, copyUserVector env 0x2000 0 = .ok kargv ∧
      copyUserVector env 0 kargv.length = .ok kenvp ∧
      new.argc = kargv.length ∧ new.sp % 16 = 0 ∧ new.stackBase ≤ new.sp ∧
      Mapped new.user new.stackBase (new.stackBase + stackSize) ∧
      ∃ ptrs eptrs, Points new.loads new.argv ptrs kargv ∧ Points new.loads new.envp eptrs kenvp ∧
        (vectorBlocks new.argv ptrs kargv ++ vectorBlocks new.envp eptrs kenvp).Pairwise Apart ∧
        ∀ b ∈ vectorBlocks new.argv ptrs kargv ++ vectorBlocks new.envp eptrs kenvp,
          new.sp ≤ b.1 ∧ b.1 + b.2.length ≤ new.stackBase + stackSize := by
  have hrun : sampleArgc 2 = .ok 2 := by decide +kernel
  obtain ⟨pmm, refs, new, hinv, hpages, hexec, -⟩ := sampleArgc_run hrun
  exact ⟨sampleExecEnv 2 pmm, refs, new, hinv, hpages, hexec,
    exec_stack hinv hpages hexec⟩

/-- The longest vector that is taken over whole. -/
theorem exec_same_strings_iff_full : ∃ env refs new, env.pmm.PmmInv refs ∧ env.pmm.numPages ≤ 2 ^ 27 ∧
    processExec env 0x2000 0 = .ok new ∧ new.argc = 127 ∧
    (SameStrings env 0x2000 0 new ↔ Ends env.caller 0x2000 ∧ Ends env.caller 0) := by
  have hrun : sampleArgc 127 = .ok 127 := by decide +kernel
  obtain ⟨pmm, refs, new, hinv, hpages, hexec, hargc⟩ := sampleArgc_run hrun
  exact ⟨sampleExecEnv 127 pmm, refs, new, hinv, hpages, hexec, hargc,
    exec_same_strings_iff hinv hpages hexec⟩

/-- Of 128 arguments the last one is dropped, and the call succeeds. -/
theorem last_argument_dropped : ∃ env refs new, env.pmm.PmmInv refs ∧ env.pmm.numPages ≤ 2 ^ 27 ∧
    processExec env 0x2000 0 = .ok new ∧
    slot env.caller 0x2000 127 = some 0x1000 ∧ slot env.caller 0x2000 128 = some 0 ∧
    new.argc = 127 ∧ ¬ SameStrings env 0x2000 0 new := by
  have hrun : sampleArgc 128 = .ok 127 := by decide +kernel
  obtain ⟨pmm, refs, new, hinv, hpages, hexec, hargc⟩ := sampleArgc_run hrun
  have hcut : ¬ ((0x2000 : BitVec 64) = 0 ∨ ∃ i < execMaxVector, slot (sampleCaller 128) 0x2000 i = some 0) := by
    decide +kernel
  refine ⟨sampleExecEnv 128 pmm, refs, new, hinv, hpages, hexec, ?_, ?_, hargc, fun hsame => ?_⟩
  · show slot (sampleCaller 128) 0x2000 127 = some 0x1000
    decide +kernel
  · show slot (sampleCaller 128) 0x2000 128 = some 0
    decide +kernel
  · exact hcut (SameStrings.ends hinv hpages hexec hsame).1

end Perspicua.Core.Exec
