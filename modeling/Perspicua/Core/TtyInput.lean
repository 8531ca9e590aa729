import Perspicua.Core.Tty
import Perspicua.Lib.Ring

/-!
# Lines typed at the terminal

`tty_handle_rx`, `tty_has_line`, `tty_rx_ready` and `tty_read` of `kernel/core/tty.c` in canonical
mode: received characters go into a ring, an erase character takes the last one out again, and a
reader gets one line at most once there is one. Each of them holds the lock of the terminal, so a
received character or a read is one step.

`wakes`, `given`, `done` and `line` are not in the source: how often readers were woken, what the
reads have returned, and what was typed after editing, as the text of the lines that are finished
and the line that is not. A character that finds the ring full is lost; a newline never is, and an
erase character edits the unfinished line only.

In the source an erase character takes out whatever came last, also the newline of a finished line
that nobody has read yet, and a newline that finds the ring full is lost. In a run in which neither
happens the lines are as they were typed.
-/

namespace Perspicua.Core.TtyInput

open Perspicua.Lib
open Perspicua.Core.Tty (bufferSize)

structure Tty where
  canonEnabled : Bool
  rx : IndexRing ℕ
  wakes : ℕ

/-- The loop of `tty_has_line`. -/
def hasLineFrom (rx : IndexRing ℕ) : ℕ → ℕ → Bool
  | 0, _ => false
  | fuel + 1, i =>
    if i = rx.head then false
    else if rx.buffer i = 10 then true
    else hasLineFrom rx fuel ((i + 1) % bufferSize)

/-- The loop of `tty_read`, with what is left of `count`. -/
def readLoop (canon : Bool) : ℕ → IndexRing ℕ → List ℕ × IndexRing ℕ
  | 0, rx => ([], rx)
  | count + 1, rx =>
    if rx.head = rx.tail then ([], rx)
    else if canon && rx.front == 10 then ([rx.front], rx.pop bufferSize)
    else
      let r := readLoop canon count (rx.pop bufferSize)
      (rx.front :: r.1, r.2)

namespace Tty

variable (t : Tty)

/-- `tty_has_line`: a ring has no more cells than that. -/
def hasLine : Bool := hasLineFrom t.rx bufferSize t.rx.tail

def rxReady : Bool :=
  if t.rx.head = t.rx.tail then false else if t.canonEnabled then t.hasLine else true

/-- There is a free cell, besides the one that always is. -/
def hasRoom : Bool := (t.rx.head + 1) % bufferSize ≠ t.rx.tail

/-- `tty_handle_rx`. -/
def handleRx (c : ℕ) : Tty :=
  let c := if c = 13 then 10 else c
  if c = 3 ∨ c = 26 then t
  else if t.canonEnabled ∧ (c = 8 ∨ c = 127) then
    if t.rx.head ≠ t.rx.tail then { t with rx := t.rx.unpush bufferSize } else t
  else
    { t with
      rx := if t.hasRoom then t.rx.push bufferSize c else t.rx
      wakes := if ¬ t.canonEnabled ∨ c = 10 then t.wakes + 1 else t.wakes }

/-- `tty_read` by a process that may read: what it returns, unless it has to wait. -/
def read (count : ℕ) : Option (List ℕ × Tty) :=
  if count = 0 then some ([], t)
  else if t.rxReady then
    let r := readLoop t.canonEnabled count t.rx
    some (r.1, { t with rx := r.2 })
  else none

end Tty

structure State extends Tty where
  given : List (List ℕ)
  done : List ℕ
  line : List ℕ

inductive Act
  | rx (c : ℕ)
  | read (count : ℕ)

def isErase (c : ℕ) : Bool := c = 8 || c = 127

def isNewline (c : ℕ) : Bool := c = 10 || c = 13

/-- What was typed, with one more character. -/
def State.typed (s : State) (c : ℕ) : List ℕ × List ℕ :=
  if c = 3 ∨ c = 26 then (s.done, s.line)
  else if isErase c then (s.done, s.line.dropLast)
  else if isNewline c then (s.done ++ s.line ++ [10], [])
  else if s.hasRoom then (s.done, s.line ++ [c])
  else (s.done, s.line)

def step (s : State) : Act → Option State
  | .rx c => some ⟨s.toTty.handleRx c, s.given, (s.typed c).1, (s.typed c).2⟩
  | .read count => (s.toTty.read count).map fun r => ⟨r.2, s.given ++ [r.1], s.done, s.line⟩

/-- The ring is empty. -/
def start : State := ⟨⟨true, ⟨fun _ => 0, 0, 0⟩, 0⟩, [], [], []⟩

/-- What came last is not the end of a line when a character is erased, and there is room for a
newline that is received. -/
def Spares (s : State) : Act → Prop
  | .rx c =>
    (isErase c = true → s.rx.head ≠ s.rx.tail →
      s.rx.buffer ((s.rx.head + bufferSize - 1) % bufferSize) ≠ 10) ∧
    (isNewline c = true → s.hasRoom = true)
  | .read _ => True

instance (s : State) (a : Act) : Decidable (Spares s a) :=
  match a with
  | .rx _ => inferInstanceAs (Decidable (_ ∧ _))
  | .read _ => inferInstanceAs (Decidable True)

/-! ## One call -/

variable {s s' : State} {t : Tty} {rx : IndexRing ℕ} {l k : List ℕ} {c count : ℕ}

def Tty.contents (t : Tty) : List ℕ := t.rx.contents bufferSize

/-- From any cell on, `tty_has_line` looks at the characters from there. -/
theorem hasLineFrom_eq (fuel : ℕ) (h : rx.Ok bufferSize) (hfuel : rx.count bufferSize < fuel) :
    hasLineFrom rx fuel rx.tail = decide (10 ∈ rx.contents bufferSize) := by
  induction fuel generalizing rx with
  | zero => omega
  | succ fuel ih =>
    rw [hasLineFrom]
    by_cases hne : rx.tail = rx.head
    · rw [if_pos hne, h.contents_eq_nil_iff.mpr hne.symm]
      rfl
    · have hne' : rx.head ≠ rx.tail := fun he => hne he.symm
      have hpos : rx.count bufferSize ≠ 0 := fun hz => hne' (h.count_eq_zero_iff.mp hz)
      have hrec := ih h.pop (by rw [h.count_pop hne']; omega)
      have hhead : (rx.pop bufferSize).tail = (rx.tail + 1) % bufferSize := rfl
      have hsame : ∀ n i, hasLineFrom (rx.pop bufferSize) n i = hasLineFrom rx n i := by
        intro n
        induction n with
        | zero => exact fun _ => rfl
        | succ n ihn =>
          intro i
          rw [hasLineFrom, hasLineFrom, ihn]
          rfl
      rw [hhead, hsame] at hrec
      rw [if_neg hne, hrec, h.contents_pop hne']
      have hfront : rx.front = rx.buffer rx.tail := rfl
      rw [hfront]
      split
      · rename_i hten
        rw [hten]
        simp
      · rename_i hten
        simp [Ne.symm hten]

theorem rxReady_iff (h : t.rx.Ok bufferSize) (hcanon : t.canonEnabled = true) :
    t.rxReady = true ↔ 10 ∈ t.contents := by
  unfold Tty.rxReady Tty.hasLine
  rw [hasLineFrom_eq bufferSize h h.count_lt, hcanon]
  split
  · rename_i heq
    rw [Tty.contents, h.contents_eq_nil_iff.mpr heq]
    simp
  · rw [if_pos rfl, decide_eq_true_eq]
    rfl

/-- What a read takes. -/
def takeLine : ℕ → List ℕ → List ℕ
  | 0, _ => []
  | _ + 1, [] => []
  | count + 1, c :: l => if c = 10 then [c] else c :: takeLine count l

theorem readLoop_spec (count : ℕ) (h : rx.Ok bufferSize) :
    (readLoop true count rx).2.Ok bufferSize ∧
      (readLoop true count rx).1 = takeLine count (rx.contents bufferSize) ∧
      rx.contents bufferSize =
        (readLoop true count rx).1 ++ (readLoop true count rx).2.contents bufferSize := by
  induction count generalizing rx with
  | zero => exact ⟨h, rfl, rfl⟩
  | succ count ih =>
    rw [readLoop]
    by_cases hne : rx.head = rx.tail
    · rw [if_pos hne]
      simp only
      rw [h.contents_eq_nil_iff.mpr hne]
      exact ⟨h, rfl, rfl⟩
    · rw [if_neg hne, h.contents_pop hne]
      by_cases hten : rx.front = 10
      · rw [if_pos (by simp [hten]), takeLine, if_pos hten]
        exact ⟨h.pop, rfl, rfl⟩
      · obtain ⟨hok, htake, hsplit⟩ := ih h.pop
        rw [if_neg (by simp [hten]), takeLine, if_neg hten]
        exact ⟨hok, congrArg (rx.front :: ·) htake, congrArg (rx.front :: ·) hsplit⟩

/-- A read ends at a newline. -/
theorem not_mem_dropLast_takeLine (count : ℕ) (l : List ℕ) : 10 ∉ (takeLine count l).dropLast := by
  induction count generalizing l with
  | zero => simp [takeLine]
  | succ count ih =>
    cases l with
    | nil => simp [takeLine]
    | cons c l =>
      rw [takeLine]
      split
      · simp
      · rename_i hc
        cases htake : takeLine count l with
        | nil => simp
        | cons d r =>
          have hrec := ih l
          rw [htake] at hrec
          rw [List.dropLast_cons_of_ne_nil (List.cons_ne_nil _ _), List.mem_cons]
          rintro (rfl | hmem)
          · exact hc rfl
          · exact hrec hmem

/-- Text that consists of whole lines. -/
def Whole (l : List ℕ) : Prop := ∀ x ∈ l.getLast?, x = 10

/-- A read takes nothing of a line that is not finished. -/
theorem takeLine_whole (count : ℕ) (hk : Whole k) (hne : k ≠ []) (l : List ℕ) :
    ∃ k', k = takeLine count (k ++ l) ++ k' ∧ Whole k' := by
  induction count generalizing k with
  | zero => exact ⟨k, rfl, hk⟩
  | succ count ih =>
    cases k with
    | nil => exact absurd rfl hne
    | cons c k =>
      rw [List.cons_append, takeLine]
      have hrest : k = [] → c = 10 := by
        rintro rfl
        exact hk c rfl
      have hwhole : Whole k := by
        intro x hx
        cases k with
        | nil => cases hx
        | cons d k => exact hk x (by rw [List.getLast?_cons_cons]; exact hx)
      split
      · exact ⟨k, rfl, hwhole⟩
      · rename_i hc
        obtain ⟨k', heq, hk'⟩ := ih hwhole (fun hnil => hc (hrest hnil))
        exact ⟨k', by rw [List.cons_append, ← heq], hk'⟩

/-! ## Runs -/

/-- What is in the ring are whole lines that nobody has read, and the unfinished line. -/
structure Inv (s : State) : Prop where
  canon : s.canonEnabled = true
  ok : s.rx.Ok bufferSize
  single : ∀ r ∈ s.given, 10 ∉ r.dropLast
  kept : ∃ kept, s.done = s.given.flatten ++ kept ∧ s.contents = kept ++ s.line ∧ Whole kept
  line : 10 ∉ s.line

theorem inv_start : Inv start :=
  ⟨rfl, ⟨by decide, by decide⟩, by simp [start], ⟨[], rfl, rfl, by simp [Whole]⟩, by simp [start]⟩

/-- The last character of the ring. -/
theorem getLast?_contents (h : rx.Ok bufferSize) (hne : rx.head ≠ rx.tail) :
    (rx.contents bufferSize).getLast? =
      some (rx.buffer ((rx.head + bufferSize - 1) % bufferSize)) := by
  have hcount := h.count_unpush hne
  have hhead : (rx.tail + (rx.unpush bufferSize).count bufferSize) % bufferSize =
      (rx.head + bufferSize - 1) % bufferSize := h.unpush.counted_ok.head
  show ((List.range (rx.count bufferSize)).map _).getLast? = _
  rw [← hcount, List.range_succ, List.map_append, List.map_singleton, List.getLast?_concat]
  exact congrArg (fun i => some (rx.buffer i)) hhead

theorem whole_of_concat (l : List ℕ) : Whole (l ++ [10]) := by
  intro x hx
  rw [List.getLast?_concat] at hx
  exact (Option.mem_some.mp hx).symm

/-- An erase character takes the last character of the unfinished line. -/
theorem Inv.erase (h : Inv s) (hc : isErase c = true) (hspares : Spares s (.rx c)) :
    (s.toTty.handleRx c).rx.Ok bufferSize ∧ (s.toTty.handleRx c).canonEnabled = true ∧
      ∃ kept, s.done = s.given.flatten ++ kept ∧ s.contents = kept ++ s.line ∧ Whole kept ∧
        (s.toTty.handleRx c).contents = kept ++ s.line.dropLast := by
  obtain ⟨kept, hdone, hcont, hwhole⟩ := h.kept
  have herase : c = 8 ∨ c = 127 := by simpa [isErase] using hc
  have hsig : ¬ (c = 3 ∨ c = 26) := by omega
  have hcr : ¬ c = 13 := by omega
  unfold Tty.handleRx
  simp only [if_neg hcr, if_neg hsig, h.canon, herase, and_self, if_true]
  by_cases hne : s.rx.head = s.rx.tail
  · rw [if_neg (not_not.mpr hne)]
    have hnil : s.contents = [] := h.ok.contents_eq_nil_iff.mpr hne
    rw [hcont, List.append_eq_nil_iff] at hnil
    refine ⟨h.ok, h.canon, kept, hdone, hcont, hwhole, ?_⟩
    rw [hcont, hnil.2]
    rfl
  · rw [if_pos hne]
    refine ⟨h.ok.unpush, rfl, kept, hdone, hcont, hwhole, ?_⟩
    have hlast := getLast?_contents h.ok hne
    have hten := hspares.1 hc hne
    -- whole lines end with a newline, so the unfinished line is not empty
    have hline : s.line ≠ [] := by
      intro hnil
      have hlast' : s.contents.getLast? = _ := hlast
      rw [hcont, hnil, List.append_nil] at hlast'
      exact hten (hwhole _ hlast')
    have hdrop : (s.rx.unpush bufferSize).contents bufferSize = s.contents.dropLast :=
      h.ok.contents_unpush hne
    show (s.rx.unpush bufferSize).contents bufferSize = _
    rw [hdrop, hcont, List.dropLast_append_of_ne_nil hline]

/-- A newline finishes the line. -/
theorem Inv.newline (h : Inv s) (hc : isNewline c = true) (hspares : Spares s (.rx c)) :
    (s.toTty.handleRx c).rx.Ok bufferSize ∧ (s.toTty.handleRx c).canonEnabled = true ∧
      (s.toTty.handleRx c).contents = s.contents ++ [10] ∧
      (s.toTty.handleRx c).wakes = s.wakes + 1 := by
  have hnl : c = 10 ∨ c = 13 := by simpa [isNewline] using hc
  have hroom := hspares.2 hc
  have hten : (if c = 13 then 10 else c) = 10 := by
    split <;> omega
  have hfree : (s.rx.head + 1) % bufferSize ≠ s.rx.tail := of_decide_eq_true hroom
  unfold Tty.handleRx
  simp only [hten, hroom, h.canon, if_true]
  exact ⟨h.ok.push, rfl, h.ok.contents_push hfree, rfl⟩

theorem inv_step (h : Inv s) {a : Act} (hspares : Spares s a) (hstep : step s a = some s') :
    Inv s' := by
  cases a with
  | rx c =>
    cases hstep
    obtain ⟨kept, hdone, hcont, hwhole⟩ := h.kept
    unfold State.typed
    by_cases hsig : c = 3 ∨ c = 26
    · have hcr : ¬ c = 13 := by omega
      have hsame : s.toTty.handleRx c = s.toTty := by
        unfold Tty.handleRx
        simp only [if_neg hcr, if_pos hsig]
      rw [if_pos hsig, hsame]
      exact ⟨h.canon, h.ok, h.single, h.kept, h.line⟩
    rw [if_neg hsig]
    by_cases herase : isErase c = true
    · obtain ⟨hok, hcanon, kept, hdone, -, hwhole, hafter⟩ := h.erase herase hspares
      rw [if_pos herase]
      exact ⟨hcanon, hok, h.single, ⟨kept, hdone, hafter, hwhole⟩,
        fun hmem => h.line (List.dropLast_subset _ hmem)⟩
    rw [if_neg herase]
    by_cases hnl : isNewline c = true
    · obtain ⟨hok, hcanon, hafter, -⟩ := h.newline hnl hspares
      rw [if_pos hnl]
      refine ⟨hcanon, hok, h.single, ⟨kept ++ s.line ++ [10], ?_, ?_, whole_of_concat _⟩,
        List.not_mem_nil⟩
      · rw [hdone]
        simp only [List.append_assoc]
      · show (s.toTty.handleRx c).contents = _
        rw [hafter, hcont, List.append_nil]
    rw [if_neg hnl]
    have hcr : ¬ c = 13 := by
      rintro rfl
      exact hnl rfl
    have hten : ¬ c = 10 := by
      rintro rfl
      exact hnl rfl
    have hdel : ¬ (c = 8 ∨ c = 127) := by simpa [isErase] using herase
    have hrx : s.toTty.handleRx c = { s.toTty with
        rx := if s.hasRoom then s.rx.push bufferSize c else s.rx } := by
      unfold Tty.handleRx
      simp only [if_neg hcr, if_neg hsig, h.canon, hdel, and_false, if_false, hten, not_true,
        or_self]
    rw [hrx]
    split
    · rename_i hroom
      have hfree : (s.rx.head + 1) % bufferSize ≠ s.rx.tail := of_decide_eq_true hroom
      refine ⟨h.canon, h.ok.push, h.single, ⟨kept, hdone, ?_, hwhole⟩, ?_⟩
      · show (s.rx.push bufferSize c).contents bufferSize = _
        rw [h.ok.contents_push hfree, ← List.append_assoc, ← hcont]
        rfl
      · rw [List.mem_append, List.mem_singleton]
        rintro (hmem | heq)
        · exact h.line hmem
        · exact hten heq.symm
    · exact ⟨h.canon, h.ok, h.single, h.kept, h.line⟩
  | read count =>
    obtain ⟨⟨r, t⟩, hread, heq⟩ := Option.map_eq_some_iff.mp hstep
    cases heq
    obtain ⟨kept, hdone, hcont, hwhole⟩ := h.kept
    have hflat : ∀ r, (s.given ++ [r]).flatten = s.given.flatten ++ r := by simp
    unfold Tty.read at hread
    split at hread
    · cases hread
      refine ⟨h.canon, h.ok, ?_, ⟨kept, ?_, hcont, hwhole⟩, h.line⟩
      · exact List.forall_mem_append.mpr ⟨h.single, by simp⟩
      · rw [hflat, List.append_nil]
        exact hdone
    · obtain ⟨hready, hread⟩ := Option.ite_none_right_eq_some.mp hread
      rw [h.canon] at hread
      cases hread
      obtain ⟨hok, htake, hsplit⟩ := readLoop_spec count h.ok
      -- the line that makes the reader ready is a finished one
      have hmem := (rxReady_iff h.ok h.canon).mp hready
      have hne : kept ≠ [] := by
        rintro rfl
        rw [hcont, List.nil_append] at hmem
        exact h.line hmem
      have hcont' : s.rx.contents bufferSize = kept ++ s.line := hcont
      rw [hcont'] at htake hsplit
      obtain ⟨k', hk, hk'⟩ := takeLine_whole count hwhole hne s.line
      rw [← htake] at hk
      refine ⟨rfl, hok, ?_, ⟨k', ?_, ?_, hk'⟩, h.line⟩
      · refine List.forall_mem_append.mpr ⟨h.single, ?_⟩
        rw [List.forall_mem_singleton, htake]
        exact not_mem_dropLast_takeLine _ _
      · rw [hflat, List.append_assoc, ← hk]
        exact hdone
      · show (readLoop true count s.rx).2.contents bufferSize = k' ++ s.line
        rw [hk, List.append_assoc] at hsplit
        exact (List.append_cancel_left hsplit).symm

/-- The reads have returned what was typed, in order and a line at a time; the rest is in the
ring. -/
structure Sound (s : State) : Prop where
  order : s.given.flatten ++ s.contents = s.done ++ s.line
  single : ∀ r ∈ s.given, 10 ∉ r.dropLast

theorem Inv.sound (h : Inv s) : Sound s where
  order := by
    obtain ⟨kept, hdone, hcont, -⟩ := h.kept
    rw [hcont, hdone, List.append_assoc]
  single := h.single

/-- In every run in which no end of a line is erased and no newline finds the ring full, reads
return the lines as they were typed, an erase character takes the last character of the unfinished
line only, and a newline wakes the readers and lets them go on. -/
theorem ttyInput_run {as : List Act} (hrun : Run (Guarded Spares (Moves step)) start as s) :
    Sound s ∧
    (∀ c, isErase c = true → Spares s (.rx c) → ∃ kept, Whole kept ∧
      s.contents = kept ++ s.line ∧ (s.toTty.handleRx c).contents = kept ++ s.line.dropLast) ∧
    (∀ c, isNewline c = true → Spares s (.rx c) →
      (s.toTty.handleRx c).rxReady = true ∧ (s.toTty.handleRx c).wakes = s.wakes + 1) := by
  have h := hrun.invariant Inv (fun _ _ _ hi hm => inv_step hi hm.1 hm.2) inv_start
  refine ⟨h.sound, ?_, ?_⟩
  · intro c hc hspares
    obtain ⟨-, -, kept, -, hcont, hwhole, hafter⟩ := h.erase hc hspares
    exact ⟨kept, hwhole, hcont, hafter⟩
  · intro c hc hspares
    obtain ⟨hok, hcanon, hafter, hwakes⟩ := h.newline hc hspares
    refine ⟨(rxReady_iff hok hcanon).mpr ?_, hwakes⟩
    rw [hafter]
    exact List.mem_append_right _ List.mem_cons_self

/-- A line with a typing error, and a read of half of it. -/
def sampleTyping : List Act := [.rx 97, .rx 98, .rx 127, .rx 99, .rx 13, .rx 100, .read 2]

theorem ttyInput_run_sample : ∃ s, Run (Guarded Spares (Moves step)) start sampleTyping s ∧
    Sound s ∧ s.given = [[97, 99]] ∧ s.contents = [10, 100] := by
  have heval : (execGuarded Spares step start sampleTyping).any (fun s =>
      s.given = [[97, 99]] ∧ s.contents = [10, 100]) = true := by
    decide +kernel
  obtain ⟨s, hrun, hs⟩ := exists_run_of_execGuarded heval
  exact ⟨s, hrun, (ttyInput_run hrun).1, of_decide_eq_true hs⟩

/-- A newline is erased after its line was finished, and a newline finds the ring full: no reader
can go on. -/
theorem ttyInput_loses :
    (∃ s, Run (Moves step) start [.rx 97, .rx 10, .rx 8] s ∧ ¬ Sound s ∧ s.done = [97, 10] ∧
      s.rxReady = false) ∧
    ∃ s, Run (Moves step) start (List.replicate 255 (.rx 97) ++ [.rx 10]) s ∧
      s.rxReady = false := by
  constructor
  · have heval : (exec step start [.rx 97, .rx 10, .rx 8]).any (fun s =>
        s.given = [] ∧ s.contents = [97] ∧ s.line = [] ∧ s.done = [97, 10] ∧
          s.rxReady = false) = true := by
      decide +kernel
    obtain ⟨s, hrun, hs⟩ := exists_run_of_exec heval
    obtain ⟨hgiven, hcont, hline, hdone, hready⟩ := of_decide_eq_true hs
    refine ⟨s, hrun, ?_, hdone, hready⟩
    intro hsound
    have horder := hsound.order
    rw [hgiven, hcont, hline, hdone] at horder
    exact absurd horder (by decide)
  · have heval : (exec step start (List.replicate 255 (.rx 97) ++ [.rx 10])).any (fun s =>
        s.rxReady = false) = true := by
      decide +kernel
    obtain ⟨s, hrun, hs⟩ := exists_run_of_exec heval
    exact ⟨s, hrun, of_decide_eq_true hs⟩

end Perspicua.Core.TtyInput
