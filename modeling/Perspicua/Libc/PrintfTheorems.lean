import Perspicua.Libc.Printf

/-!
# The characters of a format

`fmt_core` gives the same characters to every buffer. A sink has written them all when it has been
flushed; a buffer keeps the first of them, as many as fit before the NUL.
-/

namespace Perspicua.Libc

open Perspicua.Lib

theorem load_store (mem : Memory) (n : ℕ) (c : UInt8) :
    load (store mem n [c]) 0 (n + 1) = load mem 0 n ++ [c] := by
  unfold load
  rw [List.range_succ, List.map_append, List.map_singleton]
  congr 1
  · refine List.map_congr_left fun k hk => ?_
    have : k < n := List.mem_range.mp hk
    rw [store, if_neg (by omega)]
  · simp [store]

theorem store_append (mem : Memory) (t u : List UInt8) :
    store (store mem 0 t) t.length u = store mem 0 (t ++ u) := by
  funext k
  unfold store
  rw [List.length_append]
  by_cases hk : k < t.length
  · rw [if_neg (by omega), if_pos (by omega), if_pos (by omega), Nat.sub_zero,
      List.getD_append _ _ _ _ hk]
  · rw [if_neg (by omega : ¬ (0 ≤ k ∧ k < 0 + t.length)), Nat.sub_zero, Nat.zero_add,
      List.getD_append_right _ _ _ _ (by omega)]
    simp only [Nat.zero_le, true_and, Nat.not_lt.mp hk]

namespace FmtBuf

variable {fb : FmtBuf} {t : List UInt8}

/-! ## Loops of `fb_putc` -/

@[simp] theorem fbPuts_singleton (fb : FmtBuf) (c : UInt8) : fb.fbPuts [c] = fb.fbPutc c := rfl

theorem fbPuts_append (fb : FmtBuf) (t u : List UInt8) :
    fb.fbPuts (t ++ u) = (fb.fbPuts t).fbPuts u := List.foldl_append

/-- What every `fb_putc` carries on. -/
theorem fbPuts_induction (Inv : FmtBuf → List UInt8 → Prop)
    (hstep : ∀ fb t c, Inv fb t → Inv (fb.fbPutc c) (t ++ [c])) (h : Inv fb t) (u : List UInt8) :
    Inv (fb.fbPuts u) (t ++ u) := by
  induction u generalizing fb t with
  | nil => rwa [List.append_nil]
  | cons c u ih =>
    have hrest := ih (hstep fb t c h)
    rwa [List.append_assoc] at hrest

theorem fbPuts_crlf (fb : FmtBuf) (u : List UInt8) : (fb.fbPuts u).crlf = fb.crlf := by
  refine fbPuts_induction (fun b _ => b.crlf = fb.crlf) ?_ rfl u (t := [])
  intro b t c hb
  rw [← hb]
  unfold fbPutc fbFlush push
  dsimp only
  split_ifs <;> rfl

theorem fbPutText_eq (h : fb.crlf = false) (c : UInt8) : fb.fbPutText c = fb.fbPutc c := by
  unfold fbPutText
  rw [h, if_neg (by simp)]

theorem foldl_fbPutText (h : fb.crlf = false) (t : List UInt8) : t.foldl fbPutText fb = fb.fbPuts t := by
  induction t generalizing fb with
  | nil => rfl
  | cons c t ih =>
    rw [List.foldl_cons, fbPutText_eq h, ← fbPuts_singleton, ih ((fbPuts_crlf fb [c]).trans h)]
    rfl

/-- The characters of `fbPad`. -/
def padText (cond : Bool) (pad : ℕ) (c : Char) : List UInt8 :=
  if cond then List.replicate pad c.toUInt8 else []

theorem fbPad_eq (fb : FmtBuf) (cond : Bool) (pad : ℕ) (c : Char) :
    fb.fbPad cond pad c = fb.fbPuts (padText cond pad c) := by
  unfold fbPad padText
  split_ifs <;> rfl

end FmtBuf

open FmtBuf

/-! ## Directives -/

/-- The characters of a number. -/
def Spec.numberText (spec : Spec) (sign num : List UInt8) : List UInt8 :=
  let pad := spec.pad (num.length + sign.length)
  padText (!spec.flags.left && !spec.flags.zero) pad ' ' ++ sign ++
    padText (!spec.flags.left && spec.flags.zero) pad '0' ++ num ++ padText spec.flags.left pad ' '

/-- The characters of a string. -/
def Spec.stringText (spec : Spec) (t : List UInt8) : List UInt8 :=
  padText (!spec.flags.left) (spec.pad t.length) ' ' ++ t ++
    padText spec.flags.left (spec.pad t.length) ' '

theorem emitNumber_eq (fb : FmtBuf) (spec : Spec) (sign num : List UInt8) :
    fb.emitNumber spec sign num = fb.fbPuts (spec.numberText sign num) := by
  unfold emitNumber Spec.numberText
  simp only [fbPad_eq, ← fbPuts_append, List.append_assoc]

theorem emitText_eq {fb : FmtBuf} (h : fb.crlf = false) (spec : Spec) {t : List UInt8}
    {put : FmtBuf → UInt8 → FmtBuf}
    (hput : ∀ b : FmtBuf, b.crlf = false → t.foldl put b = b.fbPuts t) :
    fb.emitText spec t put = fb.fbPuts (spec.stringText t) := by
  unfold emitText Spec.stringText
  simp only [fbPad_eq]
  rw [hput _ ((fbPuts_crlf _ _).trans h), fbPuts_append, fbPuts_append]

/-- The characters that the switch produces, and the arguments it leaves. -/
def switchText (spec : Spec) (args : List Arg) : Conv → Option (List UInt8 × List Arg)
  | .signed =>
    (vaSigned spec.len args).map fun r =>
      (spec.numberText (fmtSigned spec.flags r.1).1 (fmtSigned spec.flags r.1).2, r.2)
  | .unsigned base uppercase =>
    (vaUnsigned spec.len args).map fun r => (spec.numberText [] (fmtUint base uppercase r.1), r.2)
  | .pointer =>
    (vaWord args).map fun r =>
      let num := fmtUint 16 false r.1.toNat
      (['0'.toUInt8, 'x'.toUInt8] ++ List.replicate (16 - num.length) '0'.toUInt8 ++ num, r.2)
  | .string => (vaStr args).map fun r => (spec.stringText (spec.cut (r.1.getD nullText)), r.2)
  | .char => (vaInt args).map fun r => (spec.stringText [UInt8.ofBitVec (r.1.setWidth 8)], r.2)
  | .percent => some (['%'.toUInt8], args)
  | .other c => some (['%'.toUInt8, c], args)

theorem fmtSwitch_eq {fb : FmtBuf} (h : fb.crlf = false) (spec : Spec) (args : List Arg) (conv : Conv) :
    fmtSwitch fb spec args conv = (switchText spec args conv).map fun r => (fb.fbPuts r.1, r.2) := by
  cases conv with
  | percent => rfl
  | other c => rfl
  | _ =>
    rw [fmtSwitch, switchText, Option.map_map]
    congr 1
    funext r
    simp only [Function.comp, emitNumber_eq, emitText_eq h spec fun _ hb => foldl_fbPutText hb _,
      emitText_eq h spec fun _ _ => rfl, fbPuts_append]

/-- The characters of one directive, and what is left of the format and of the arguments. -/
def directiveText (p : List UInt8) (args : List Arg) : Option (List UInt8 × List UInt8 × List Arg) :=
  (fmtSpec p args).bind fun (spec, p, args) =>
    match p with
    | [] => some ([], [], args)
    | c :: p => (switchText spec args (fmtConv c)).map fun (t, args) => (t, p, args)

theorem fmtDirective_eq {fb : FmtBuf} (h : fb.crlf = false) (p : List UInt8) (args : List Arg) :
    fmtDirective fb p args = (directiveText p args).map fun r => (fb.fbPuts r.1, r.2) := by
  unfold fmtDirective directiveText
  rw [Option.map_bind]
  congr 1
  funext ⟨spec, p, args⟩
  cases p with
  | nil => rfl
  | cons c p =>
    simp only [fmtSwitch_eq h, Option.map_map, Function.comp]
    rfl

theorem length_directiveText {p : List UInt8} {args : List Arg} {r : List UInt8 × List UInt8 × List Arg}
    (h : directiveText p args = some r) : r.2.1.length ≤ p.length := by
  have heq := fmtDirective_eq (rfl : FmtBuf.crlf { buf := fun _ => 0, size := 0 } = false) p args
  rw [h] at heq
  exact length_fmtDirective heq

theorem fmtCore_cons {fb : FmtBuf} (h : fb.crlf = false) {c : UInt8} (hc : c ≠ '%'.toUInt8)
    (p : List UInt8) (args : List Arg) :
    fmtCore fb (c :: p) args = fmtCore (fb.fbPuts [c]) p args := by
  rw [fmtCore, if_pos hc, fbPutText_eq h]
  rfl

theorem fmtCore_directive {fb : FmtBuf} (h : fb.crlf = false) (p : List UInt8) (args : List Arg) :
    fmtCore fb ('%'.toUInt8 :: p) args =
      (directiveText p args).bind fun r => fmtCore (fb.fbPuts r.1) r.2.1 r.2.2 := by
  rw [fmtCore, if_neg (not_not.mpr rfl)]
  have heq := fmtDirective_eq h p args
  cases hd : directiveText p args with
  | none =>
    rw [hd] at heq
    split
    · rfl
    · simp_all
  | some r =>
    obtain ⟨t, p', args'⟩ := r
    rw [hd] at heq
    split
    · simp_all
    · next heq' =>
      cases heq'.symm.trans heq
      rfl

/-- The characters do not depend on the buffer. -/
theorem fmtCore_eq (fmt : List UInt8) (args : List Arg) :
    ∃ out : Option (List UInt8), ∀ fb, fb.crlf = false → fmtCore fb fmt args = out.map fb.fbPuts := by
  induction hn : fmt.length using Nat.strongRecOn generalizing fmt args with
  | _ n ih =>
    cases fmt with
    | nil => exact ⟨some [], fun fb _ => by rw [fmtCore]; rfl⟩
    | cons c p =>
      rw [List.length_cons] at hn
      -- the characters so far, then those of the rest
      have hrest : ∀ t p' args', p'.length < n → ∃ out : Option (List UInt8), ∀ fb : FmtBuf,
          fb.crlf = false → fmtCore (fb.fbPuts t) p' args' = out.map fb.fbPuts := by
        intro t p' args' hlt
        obtain ⟨out, hout⟩ := ih _ hlt p' args' rfl
        refine ⟨out.map (t ++ ·), fun fb h => ?_⟩
        rw [hout _ ((fbPuts_crlf fb t).trans h), Option.map_map]
        congr 1
        funext u
        exact (fbPuts_append fb t u).symm
      by_cases hc : c = '%'.toUInt8
      · subst hc
        cases hd : directiveText p args with
        | none =>
          refine ⟨none, fun fb h => ?_⟩
          rw [fmtCore_directive h, hd]
          rfl
        | some r =>
          have hlen := length_directiveText hd
          obtain ⟨out, hout⟩ := hrest r.1 r.2.1 r.2.2 (by omega)
          refine ⟨out, fun fb h => ?_⟩
          rw [fmtCore_directive h, hd]
          exact hout fb h
      · obtain ⟨out, hout⟩ := hrest [c] p args (by omega)
        refine ⟨out, fun fb h => ?_⟩
        rw [fmtCore_cons h hc]
        exact hout fb h

/-! ## The two buffers -/

/-- A sink that has been given the characters `t`. -/
structure Sinks (fb : FmtBuf) (t : List UInt8) : Prop where
  sink : fb.sink = true
  direct : fb.direct = false
  room : 0 < fb.size
  pos : fb.pos ≤ fb.size
  text : fb.written.flatten ++ load fb.buf 0 fb.pos = t
  total : fb.total = t.length

theorem Sinks.flush {fb : FmtBuf} {t : List UInt8} (h : Sinks fb t) :
    Sinks fb.fbFlush t ∧ fb.fbFlush.pos = 0 := by
  unfold fbFlush
  split_ifs with hpos
  · refine ⟨⟨h.sink, h.direct, h.room, Nat.zero_le _, ?_, h.total⟩, rfl⟩
    simp [← h.text, load]
  · exact ⟨h, by omega⟩

theorem Sinks.putc {fb : FmtBuf} {t : List UInt8} (c : UInt8) (h : Sinks fb t) :
    Sinks (fb.fbPutc c) (t ++ [c]) := by
  have hpush : ∀ b : FmtBuf, Sinks b t → b.pos < b.size →
      Sinks (push { b with total := b.total + 1 } c) (t ++ [c]) := by
    intro b hb hpos
    refine ⟨hb.sink, hb.direct, hb.room, hpos, ?_, ?_⟩
    · show b.written.flatten ++ load (store b.buf b.pos [c]) 0 (b.pos + 1) = _
      rw [load_store, ← List.append_assoc, hb.text]
    · rw [List.length_append, ← hb.total]
      rfl
  unfold fbPutc
  dsimp only
  rw [if_neg (by simp [h.direct]), if_pos h.sink]
  split_ifs with hfull
  · obtain ⟨hflush, hzero⟩ := h.flush
    have hpushed := hpush _ hflush (hzero ▸ hflush.room)
    have hpos : 0 < fb.pos := hfull ▸ h.room
    unfold fbFlush at hpushed ⊢
    rw [if_pos hpos] at hpushed
    rwa [if_pos hpos]
  · exact hpush fb h (Nat.lt_of_le_of_ne h.pos hfull)

/-- A buffer that has been given the characters `t`. -/
structure Kept (mem : Memory) (n : ℕ) (fb : FmtBuf) (t : List UInt8) : Prop where
  sink : fb.sink = false
  direct : fb.direct = false
  size : fb.size = n
  pos : fb.pos = t.length
  total : fb.total = t.length
  text : fb.buf = store mem 0 (t.take (n - 1))

theorem Kept.putc {mem : Memory} {n : ℕ} {fb : FmtBuf} {t : List UInt8} (c : UInt8)
    (h : Kept mem n fb t) : Kept mem n (fb.fbPutc c) (t ++ [c]) := by
  have hpos := h.pos
  have hsize := h.size
  unfold fbPutc
  dsimp only
  rw [if_neg (by simp [h.direct]), if_neg (by simp [h.sink])]
  split_ifs with hroom
  · refine ⟨h.sink, h.direct, h.size, ?_, ?_, ?_⟩
    · simp [push, h.pos]
    · simp [push, h.total]
    · show store fb.buf fb.pos [c] = _
      rw [h.text, h.pos, List.take_of_length_le (by omega), store_append,
        List.take_of_length_le (by simp; omega)]
  · refine ⟨h.sink, h.direct, h.size, by simp [h.pos], by simp [h.total], ?_⟩
    show fb.buf = _
    rw [h.text, List.take_append_of_le_length (by omega)]

theorem toInt_ofNat {n : ℕ} (hn : n < 2 ^ 31) : (BitVec.ofNat 32 n).toInt = n := by
  rw [BitVec.toInt_ofNat']
  exact Int.bmod_eq_of_le (by omega) (by omega)

/-- The characters of a format with its arguments. -/
def Formats (fmt : List UInt8) (args : List Arg) (t : List UInt8) : Prop :=
  ∀ fb : FmtBuf, fb.crlf = false → fmtCore fb fmt args = some (fb.fbPuts t)

theorem vprintf_eq {fmt t : List UInt8} {args : List Arg} (stack : Memory) (h : Formats fmt args t) :
    ∃ writes, vprintf stack fmt args = some (writes, (BitVec.ofNat 32 t.length).toInt) ∧
      writes.flatten = t := by
  have hstart : Sinks { buf := stack, size := printfBufSize, sink := true } [] :=
    ⟨rfl, rfl, (by decide : 0 < printfBufSize), Nat.zero_le _, rfl, rfl⟩
  obtain ⟨hsinks, hzero⟩ := (fbPuts_induction _ (fun _ _ c h => h.putc c) hstart t).flush
  rw [List.nil_append] at hsinks
  refine ⟨_, by rw [vprintf, h _ rfl, ← hsinks.total]; rfl, ?_⟩
  have htext := hsinks.text
  rw [hzero] at htext
  simpa [load] using htext

theorem vsnprintf_eq {fmt t : List UInt8} {args : List Arg} (buf : Memory) {n : ℕ} (hn : 1 ≤ n)
    (h : Formats fmt args t) : vsnprintf buf n fmt args =
      some (store buf 0 (t.take (n - 1) ++ [0]), (BitVec.ofNat 32 t.length).toInt) := by
  have hstart : Kept buf n { buf, size := n } [] := by
    refine ⟨rfl, rfl, rfl, rfl, rfl, ?_⟩
    funext k
    simp [store]
  have hkept := fbPuts_induction _ (fun _ _ c h => h.putc c) hstart t
  rw [List.nil_append] at hkept
  rw [vsnprintf, if_neg (by omega), h _ rfl]
  have hend : (if (fbPuts { buf, size := n } t).pos < n then (fbPuts { buf, size := n } t).pos
      else n - 1) = (t.take (n - 1)).length := by
    rw [hkept.pos, List.length_take]
    split_ifs <;> omega
  simp only [Option.map_some, hend, hkept.text, store_append, FmtBuf.ret, hkept.total]

/-- `vprintf` writes, over all its calls of `__libc_write`, the characters of which `vsnprintf` stores
those that fit before the NUL, and both return how many there are. -/
theorem vprintf_vsnprintf {stack : Memory} {fmt : List UInt8} {args : List Arg}
    {writes : List (List UInt8)} {ret : ℤ} (hprint : vprintf stack fmt args = some (writes, ret))
    (hshort : writes.flatten.length < 2 ^ 31) :
    ret = writes.flatten.length ∧
      ∀ (buf : Memory) (n : ℕ), 1 ≤ n → vsnprintf buf n fmt args =
        some (store buf 0 (writes.flatten.take (n - 1) ++ [0]), (writes.flatten.length : ℤ)) := by
  obtain ⟨out, hout⟩ := fmtCore_eq fmt args
  cases out with
  | none =>
    rw [vprintf, hout _ rfl] at hprint
    cases hprint
  | some t =>
    obtain ⟨writes', hprint', htext⟩ := vprintf_eq stack hout
    cases hprint.symm.trans hprint'
    rw [htext, ← toInt_ofNat (htext ▸ hshort)]
    exact ⟨rfl, fun buf n hn => vsnprintf_eq buf hn hout⟩

/-- `%d` and a newline. -/
theorem vprintf_vsnprintf_seven : ∃ writes ret,
    vprintf (fun _ => 0) ['%'.toUInt8, 'd'.toUInt8, '\n'.toUInt8] [.word 7] = some (writes, ret) ∧
      writes.flatten = ['7'.toUInt8, '\n'.toUInt8] ∧ ret = writes.flatten.length := by
  have hout : Formats ['%'.toUInt8, 'd'.toUInt8, '\n'.toUInt8] [.word 7]
      ['7'.toUInt8, '\n'.toUInt8] := by
    intro fb h
    have hd : directiveText ['d'.toUInt8, '\n'.toUInt8] [.word 7] =
        some (['7'.toUInt8], ['\n'.toUInt8], []) := by rfl
    rw [fmtCore_directive h, hd]
    show fmtCore (fb.fbPuts ['7'.toUInt8]) ['\n'.toUInt8] [] = _
    rw [fmtCore_cons ((fbPuts_crlf _ _).trans h) (by decide), fmtCore]
    rfl
  obtain ⟨writes, hprint, htext⟩ := vprintf_eq (fun _ => 0) hout
  exact ⟨writes, _, hprint, htext, (vprintf_vsnprintf hprint (by rw [htext]; decide)).1⟩

end Perspicua.Libc
