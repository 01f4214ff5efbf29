import LearnC.Machine.Stdio
import LearnC.Machine.Run

/-! `1.pipe.c`: the parent writes its message into a pipe `count` times, and the child reads the
pipe line by line and prints what it reads. The kernel decides how many bytes go in or out at
a time. -/

namespace LearnC.Process.Pipe

/-- What `fgets` has room for: `sizeof (buffer)` without the terminator. -/
def room : Nat := 1023

/-- Where the writer stands: before the test of `count`; in `fflush`, with the bytes that are
not in the pipe yet; behind `close`. -/
inductive Writer where
  | testing (count : Int)
  | flushing (count : Int) (unsent : List UInt8)
  | closed
  deriving DecidableEq

/-- Where the reader stands: before the test of `feof`; in `fgets`, with the bytes that are in
the buffer; behind the loop. -/
inductive Reader where
  | testing
  | reading (piece : List UInt8)
  | done
  deriving DecidableEq

/-- The pipe, what the stream of the reader holds of it, whether that has met the end, and
what is printed, call by call. -/
structure Sys where
  writer : Writer
  pipe : List UInt8
  buffered : List UInt8
  eof : Bool
  reader : Reader
  output : List (List UInt8)
  deriving DecidableEq

/-- The side that takes a step. Where that is a call of the kernel, `bytes` go through. -/
inductive Act where
  | write (bytes : Nat)
  | read (bytes : Nat)
  deriving DecidableEq

/-- `fgets` is through: the piece ends its line, or the buffer is full. -/
def Full (piece : List UInt8) : Prop := piece.length = room ∨ piece.getLast? = some lineFeed

instance (piece : List UInt8) : Decidable (Full piece) := inferInstanceAs (Decidable (_ ∨ _))

/-- `fputs` prints up to the first zero. -/
def fputs (piece : List UInt8) : List UInt8 := piece.takeWhile (· ≠ 0)

namespace Sys

/-- The next step of the writer. The pipe has room for `capacity` bytes. -/
def stepWriter (message : List UInt8) (capacity : Nat) (σ : Sys) (bytes : Nat) : Option Sys :=
  match σ.writer with
  | .testing count =>
    if 0 < count then some { σ with writer := .flushing count (message ++ [lineFeed]) }
    else some { σ with writer := .closed }
  | .flushing count unsent =>
    if unsent = [] then some { σ with writer := .testing (count - 1) }
    else if 0 < bytes ∧ bytes ≤ unsent.length ∧ σ.pipe.length + bytes ≤ capacity then
      some { σ with
        writer := .flushing count (unsent.drop bytes)
        pipe := σ.pipe ++ unsent.take bytes }
    else none
  | .closed => none

/-- The next step of the reader. It waits at an empty pipe until that is closed. -/
def stepReader (σ : Sys) (bytes : Nat) : Option Sys :=
  match σ.reader with
  | .testing =>
    if σ.eof then some { σ with reader := .done } else some { σ with reader := .reading [] }
  | .reading piece =>
    if Full piece then
      some { σ with reader := .testing, output := σ.output ++ [fputs piece] }
    else match σ.buffered with
      | b :: rest => some { σ with reader := .reading (piece ++ [b]), buffered := rest }
      | [] =>
        if σ.pipe = [] then
          if σ.writer = .closed then
            if piece = [] then some { σ with eof := true, reader := .done }
            else some { σ with
              eof := true
              reader := .testing
              output := σ.output ++ [fputs piece] }
          else none
        else if 0 < bytes ∧ bytes ≤ σ.pipe.length then
          some { σ with pipe := σ.pipe.drop bytes, buffered := σ.pipe.take bytes }
        else none
  | .done => none

def step (message : List UInt8) (capacity : Nat) (σ : Sys) : Act → Option Sys
  | .write bytes => σ.stepWriter message capacity bytes
  | .read bytes => σ.stepReader bytes

end Sys

def Step (message : List UInt8) (capacity : Nat) (σ : Sys) (a : Act) (σ' : Sys) : Prop :=
  σ.step message capacity a = some σ'

/-- Behind `fork`. -/
def start (count : Int) : Sys where
  writer := .testing count
  pipe := []
  buffered := []
  eof := false
  reader := .testing
  output := []

/-- What the writer is to write: the message and a line feed, `count` times. -/
def copies (message : List UInt8) (count : Int) : List UInt8 :=
  (List.replicate count.toNat (message ++ [lineFeed])).flatten

/-! ## What is on its way -/

/-- What is still to go into the pipe. -/
def Writer.pending (message : List UInt8) : Writer → List UInt8
  | .testing count => copies message count
  | .flushing count unsent => unsent ++ copies message (count - 1)
  | .closed => []

/-- What `fgets` has put into the buffer. -/
def Reader.piece : Reader → List UInt8
  | .reading piece => piece
  | _ => []

/-- Everything that is not printed, in order. -/
def Sys.coming (message : List UInt8) (σ : Sys) : List UInt8 :=
  σ.reader.piece ++ (σ.buffered ++ (σ.pipe ++ σ.writer.pending message))

structure Piped (message : List UInt8) (count : Int) (σ : Sys) : Prop where
  text : 0 ∉ σ.coming message
  order : σ.output ++ pieces lineFeed room (σ.coming message) =
    pieces lineFeed room (copies message count)
  short : σ.reader.piece.length ≤ room
  free : lineFeed ∉ σ.reader.piece.dropLast
  ended : σ.eof = true → σ.writer = .closed ∧ σ.pipe = [] ∧ σ.buffered = [] ∧
    (σ.reader = .testing ∨ σ.reader = .done)
  done : σ.reader = .done → σ.eof = true

section
variable {message : List UInt8} {capacity bytes : Nat} {count : Int} {σ σ' : Sys} {a : Act}
  {piece rest : List UInt8}

theorem copies_pos (pos : 0 < count) :
    copies message count = (message ++ [lineFeed]) ++ copies message (count - 1) := by
  have succ : count.toNat = (count - 1).toNat + 1 := by omega
  rw [copies, succ, List.replicate_succ, List.flatten_cons]
  rfl

theorem copies_nonpos (le : count ≤ 0) : copies message count = [] := by
  rw [copies, Int.toNat_of_nonpos le]
  rfl

theorem fputs_text (text : 0 ∉ piece) : fputs piece = piece := by
  apply List.takeWhile_eq_self_iff.mpr
  intro b mem
  exact decide_eq_true fun zero : b = 0 => text (zero ▸ mem)

theorem pieces_full (full : Full piece) (short : piece.length ≤ room)
    (free : lineFeed ∉ piece.dropLast) :
    pieces lineFeed room (piece ++ rest) = piece :: pieces lineFeed room rest := by
  have ne : piece ≠ [] := by
    rintro rfl
    simp [Full, room] at full
  have split := List.dropLast_append_getLast ne
  have here : fgets lineFeed room (piece ++ rest) = (piece, rest) := by
    by_cases last : piece.getLast ne = lineFeed
    · rw [last] at split
      have fits : piece.dropLast.length < room := by
        have := List.length_pos_iff.mpr ne
        rw [List.length_dropLast]
        omega
      have line := fgets_line (b := rest) free fits
      rwa [← List.singleton_append, ← List.append_assoc, split] at line
    · have whole : piece.length = room := by
        apply full.resolve_right
        rw [List.getLast?_eq_some_getLast ne, Option.some_inj]
        exact last
      have clean : lineFeed ∉ piece := by
        rw [← split, List.mem_append, List.mem_singleton, not_or]
        exact ⟨free, Ne.symm last⟩
      rw [← whole]
      exact fgets_full clean
  rw [pieces_cons (by simp [ne]) (by decide), here]

theorem not_full (open' : ¬ Full piece) (short : piece.length ≤ room)
    (free : lineFeed ∉ piece.dropLast) : lineFeed ∉ piece ∧ piece.length < room := by
  rw [Full, not_or] at open'
  refine ⟨fun mem => ?_, Nat.lt_of_le_of_ne short open'.1⟩
  have ne : piece ≠ [] := List.ne_nil_of_mem mem
  rw [← List.dropLast_append_getLast ne, List.mem_append, List.mem_singleton] at mem
  have last := mem.resolve_left free
  exact open'.2 (by rw [List.getLast?_eq_some_getLast ne, ← last])

theorem coming_writer (step : σ.stepWriter message capacity bytes = some σ') :
    σ'.coming message = σ.coming message ∧ σ'.reader = σ.reader ∧ σ'.output = σ.output ∧
      σ'.eof = σ.eof ∧ σ'.buffered = σ.buffered ∧ σ.writer ≠ .closed := by
  unfold Sys.stepWriter at step
  split at step
  · next count pc =>
    split at step
    · next pos =>
      cases step
      simp [Sys.coming, Writer.pending, pc, copies_pos pos]
    · next le =>
      cases step
      simp [Sys.coming, Writer.pending, pc, copies_nonpos (Int.not_lt.mp le)]
  · next count unsent pc =>
    split at step
    · next empty =>
      cases step
      simp [Sys.coming, Writer.pending, pc, empty]
    · split at step
      · cases step
        have cut := List.take_append_drop bytes unsent
        refine ⟨?_, rfl, rfl, rfl, rfl, by simp [pc]⟩
        simp only [Sys.coming, Writer.pending, pc, List.append_assoc]
        rw [← List.append_assoc (unsent.take bytes), cut]
      · cases step
  · cases step

theorem Piped.writer (P : Piped message count σ)
    (step : σ.stepWriter message capacity bytes = some σ') : Piped message count σ' := by
  obtain ⟨coming, reader, output, eof, buffered, going⟩ := coming_writer step
  constructor
  · rw [coming]
    exact P.text
  · rw [output, coming]
    exact P.order
  · rw [reader]
    exact P.short
  · rw [reader]
    exact P.free
  · rw [eof]
    exact fun ended => absurd (P.ended ended).1 going
  · rw [eof, reader]
    exact P.done

theorem print {output : List (List UInt8)} {coming : List UInt8} {all : List (List UInt8)}
    (text : 0 ∉ coming) (order : output ++ pieces lineFeed room coming = all)
    (first : pieces lineFeed room coming = piece :: pieces lineFeed room rest)
    (split : coming = piece ++ rest) :
    0 ∉ rest ∧ (output ++ [fputs piece]) ++ pieces lineFeed room rest = all := by
  rw [split, List.mem_append, not_or] at text
  rw [first] at order
  rw [fputs_text text.1, ← order, List.append_assoc, List.singleton_append]
  exact ⟨text.2, rfl⟩

/-- The end of the file is met behind the last piece. -/
theorem Piped.prints_last (P : Piped message count σ) (pc : σ.reader = .reading piece)
    (clean : lineFeed ∉ piece) (fits : piece.length < room) (ne : piece ≠ [])
    (empty : σ.buffered = []) (drained : σ.pipe = []) (closed : σ.writer = .closed) :
    Piped message count { σ with
      eof := true
      reader := .testing
      output := σ.output ++ [fputs piece] } := by
  have text := P.text
  have order := P.order
  have whole : σ.writer.pending message = [] := by rw [closed, Writer.pending]
  simp only [Sys.coming, pc, Reader.piece, empty, drained, whole, List.append_nil] at text order
  have first : pieces lineFeed room piece = piece :: pieces lineFeed room [] := by
    rw [pieces_cons ne (by decide), fgets_last clean (Nat.le_of_lt fits)]
  obtain ⟨_, order⟩ := print text order first (List.append_nil _).symm
  refine ⟨?_, ?_, Nat.zero_le _, by simp [Reader.piece],
    fun _ => ⟨closed, drained, empty, Or.inl rfl⟩, by simp⟩
  · simp [Sys.coming, Reader.piece, empty, drained, whole]
  · simpa [Sys.coming, Reader.piece, empty, drained, whole] using order

theorem Piped.at_end (P : Piped message count σ) (pc : σ.reader = .reading [])
    (empty : σ.buffered = []) (drained : σ.pipe = []) (closed : σ.writer = .closed) :
    Piped message count { σ with eof := true, reader := .done } := by
  have order := P.order
  have whole : σ.writer.pending message = [] := by rw [closed, Writer.pending]
  simp only [Sys.coming, pc, Reader.piece, empty, drained, whole, List.append_nil] at order
  refine ⟨?_, ?_, Nat.zero_le _, by simp [Reader.piece],
    fun _ => ⟨closed, drained, empty, Or.inr rfl⟩, fun _ => rfl⟩
  · simp [Sys.coming, Reader.piece, empty, drained, whole]
  · simpa [Sys.coming, Reader.piece, empty, drained, whole] using order

theorem Piped.refills (P : Piped message count σ) (pc : σ.reader = .reading piece)
    (empty : σ.buffered = []) (going : σ.eof ≠ true) :
    Piped message count { σ with
      pipe := σ.pipe.drop bytes
      buffered := σ.pipe.take bytes } := by
  have same : Sys.coming message { σ with
      pipe := σ.pipe.drop bytes
      buffered := σ.pipe.take bytes } = σ.coming message := by
    simp only [Sys.coming, empty, List.nil_append]
    rw [← List.append_assoc (σ.pipe.take bytes), List.take_append_drop]
  refine ⟨?_, ?_, P.short, P.free, fun eof => absurd eof going, by simp [pc]⟩
  · rw [same]
    exact P.text
  · rw [same]
    exact P.order

/-- A byte comes into the buffer, or the piece is through. -/
theorem Piped.gets (P : Piped message count σ) (pc : σ.reader = .reading piece)
    (step : σ.stepReader bytes = some σ') : Piped message count σ' := by
  have text := P.text
  have order := P.order
  have short := P.short
  have free := P.free
  have going : σ.eof ≠ true := by
    intro eof
    have left := (P.ended eof).2.2.2
    simp [pc] at left
  simp only [Sys.coming, pc, Reader.piece] at text order short free
  simp only [Sys.stepReader, pc] at step
  split at step
  · next full =>
    cases step
    obtain ⟨text, order⟩ := print text order (pieces_full full short free) rfl
    exact ⟨text, order, Nat.zero_le _, by simp [Reader.piece], fun eof => absurd eof going, by simp⟩
  · next more =>
    obtain ⟨clean, fits⟩ := not_full more short free
    split at step
    · next b rest filled =>
      cases step
      rw [filled, List.cons_append, List.append_cons] at text order
      refine ⟨text, order, ?_, ?_, fun eof => absurd eof going, by simp⟩
      · simp only [Reader.piece, List.length_append, List.length_singleton]
        omega
      · simpa only [Reader.piece, List.dropLast_concat] using clean
    · next empty =>
      split at step
      · next drained =>
        obtain ⟨closed, step⟩ := Option.ite_none_right_eq_some.mp step
        split at step <;> cases step
        · next nothing => exact P.at_end (nothing ▸ pc) empty drained closed
        · next ne => exact P.prints_last pc clean fits ne empty drained closed
      · obtain ⟨_, step⟩ := Option.ite_none_right_eq_some.mp step
        cases step
        have refilled : Piped message count { σ with
            pipe := σ.pipe.drop bytes
            buffered := σ.pipe.take bytes } := P.refills pc empty going
        rwa [pc] at refilled

theorem Piped.reader (P : Piped message count σ) (step : σ.stepReader bytes = some σ') :
    Piped message count σ' := by
  cases pc : σ.reader with
  | reading piece => exact P.gets pc step
  | testing =>
    have text := P.text
    have order := P.order
    simp only [Sys.coming, pc, Reader.piece] at text order
    simp only [Sys.stepReader, pc] at step
    split at step <;> cases step
    · next eof =>
      obtain ⟨closed, pipe, buffered, _⟩ := P.ended eof
      exact ⟨text, order, Nat.zero_le _, by simp [Reader.piece],
        fun _ => ⟨closed, pipe, buffered, Or.inr rfl⟩, fun _ => eof⟩
    · next going =>
      exact ⟨text, order, Nat.zero_le _, by simp [Reader.piece], fun eof => absurd eof going,
        by simp⟩
  | done => simp [Sys.stepReader, pc] at step

theorem start_piped (text : 0 ∉ message) (count : Int) : Piped message count (start count) := by
  have clean : 0 ∉ copies message count := by
    intro mem
    obtain ⟨line, all, mem⟩ := List.mem_flatten.mp mem
    rw [(List.mem_replicate.mp all).2, List.mem_append, List.mem_singleton] at mem
    exact mem.elim text (by decide)
  exact ⟨clean, rfl, Nat.zero_le _, by simp [start, Reader.piece], by simp [start], by simp [start]⟩

theorem Piped.step (P : Piped message count σ) (step : Step message capacity σ a σ') :
    Piped message count σ' := by
  cases a with
  | write bytes => exact P.writer step
  | read bytes => exact P.reader step

/-! ## Both come to their end -/

/-- What each byte of a line costs on its way, and what each line costs besides. -/
def Writer.work (message : List UInt8) : Writer → Nat
  | .testing count => count.toNat * (5 * (message.length + 1) + 2) + 1
  | .flushing count unsent =>
    (count - 1).toNat * (5 * (message.length + 1) + 2) + 5 * unsent.length + 2
  | .closed => 0

def Reader.work : Reader → Nat
  | .testing => 2
  | .reading piece => 2 * piece.length + 1
  | .done => 0

def Sys.work (message : List UInt8) (σ : Sys) : Nat :=
  σ.writer.work message + 4 * σ.pipe.length + 3 * σ.buffered.length + σ.reader.work

theorem work_writer (step : σ.stepWriter message capacity bytes = some σ') :
    σ'.work message < σ.work message := by
  unfold Sys.stepWriter at step
  split at step
  · next count pc =>
    split at step <;> cases step
    · next pos =>
      have succ : count.toNat = (count - 1).toNat + 1 := by omega
      simp only [Sys.work, pc, Writer.work, List.length_append, List.length_singleton]
      rw [succ, Nat.add_mul]
      omega
    · simp only [Sys.work, pc, Writer.work]
      omega
  · next count unsent pc =>
    split at step
    · cases step
      simp only [Sys.work, pc, Writer.work]
      omega
    · split at step
      · next fits =>
        cases step
        simp only [Sys.work, pc, Writer.work, List.length_append, List.length_take,
          List.length_drop]
        omega
      · cases step
  · cases step

theorem work_reader (step : σ.stepReader bytes = some σ') : σ'.work message < σ.work message := by
  unfold Sys.stepReader at step
  split at step
  · next pc =>
    split at step <;> cases step <;> simp only [Sys.work, pc, Reader.work] <;> simp
  · next piece pc =>
    split at step
    · next full =>
      have ne : piece ≠ [] := by
        rintro rfl
        simp [Full, room] at full
      have pos := List.length_pos_iff.mpr ne
      cases step
      simp only [Sys.work, pc, Reader.work]
      omega
    · split at step
      · next b rest filled =>
        cases step
        simp only [Sys.work, pc, Reader.work, filled, List.length_append, List.length_cons,
          List.length_nil]
        omega
      · next empty =>
        split at step
        · split at step
          · split at step
            · cases step
              simp only [Sys.work, pc, Reader.work]
              omega
            · next ne =>
              have pos := List.length_pos_iff.mpr ne
              cases step
              simp only [Sys.work, pc, Reader.work]
              omega
          · cases step
        · split at step
          · next fits =>
            cases step
            simp only [Sys.work, empty, List.length_take, List.length_drop, List.length_nil]
            omega
          · cases step
  · cases step

/-- As long as the reader has not returned, one side has a next step. -/
theorem Piped.steps (P : Piped message count σ) (pos : 0 < capacity)
    (going : ¬ (σ.writer = .closed ∧ σ.reader = .done)) :
    ∃ a, (σ.step message capacity a).isSome = true := by
  cases pc : σ.reader with
  | testing =>
    refine ⟨.read 0, ?_⟩
    simp only [Sys.step, Sys.stepReader, pc]
    split <;> rfl
  | done => exact absurd ⟨(P.ended (P.done pc)).1, pc⟩ going
  | reading piece =>
    by_cases full : Full piece
    · exact ⟨.read 0, by simp [Sys.step, Sys.stepReader, pc, full]⟩
    cases filled : σ.buffered with
    | cons b rest => exact ⟨.read 0, by simp [Sys.step, Sys.stepReader, pc, full, filled]⟩
    | nil =>
      by_cases drained : σ.pipe = []
      · cases writer : σ.writer with
        | closed =>
          refine ⟨.read 0, ?_⟩
          simp only [Sys.step, Sys.stepReader, pc, full, filled, drained, writer, ↓reduceIte]
          split <;> rfl
        | testing count =>
          refine ⟨.write 0, ?_⟩
          simp only [Sys.step, Sys.stepWriter, writer]
          split <;> rfl
        | flushing count unsent =>
          refine ⟨.write 1, ?_⟩
          simp only [Sys.step, Sys.stepWriter, writer]
          split
          · rfl
          · next ne =>
            have some := List.length_pos_iff.mpr ne
            rw [if_pos (by simp only [drained, List.length_nil]; omega)]
            rfl
      · have some := List.length_pos_iff.mpr drained
        have one : 0 < 1 ∧ 1 ≤ σ.pipe.length := ⟨Nat.one_pos, some⟩
        exact ⟨.read 1, by simp [Sys.step, Sys.stepReader, pc, full, filled, drained, one]⟩

end

/-- However the kernel cuts it and in every order of steps, the child prints the copies of the
message in order, a piece of a line at a time, and all of them before it returns; until both
have ended one of them has a next step, and the run ends. -/
theorem copies_printed (message : List UInt8) (text : 0 ∉ message) (capacity : Nat)
    (pos : 0 < capacity) (count : Int) (acts : List Act) (σ : Sys)
    (run : Run (Step message capacity) (start count) acts σ) :
    (σ.output <+: pieces lineFeed room (copies message count) ∧
      (σ.reader = .done → σ.output.flatten = copies message count)) ∧
    acts.length + σ.work message ≤ count.toNat * (5 * (message.length + 1) + 2) + 3 ∧
    (¬ (σ.writer = .closed ∧ σ.reader = .done) →
      ∃ a, (σ.step message capacity a).isSome = true) := by
  have P : Piped message count σ :=
    run.invariant (start_piped text count) fun _ _ _ P step => P.step step
  refine ⟨⟨⟨_, P.order⟩, fun done => ?_⟩, ?_, P.steps pos⟩
  · obtain ⟨closed, drained, empty, _⟩ := P.ended (P.done done)
    have order := P.order
    simp only [Sys.coming, done, Reader.piece, empty, drained, closed, Writer.pending,
      List.append_nil, pieces_nil] at order
    rw [order, pieces_flatten (by decide)]
  · clear P
    induction run with
    | nil => simp [Sys.work, start, Writer.work, Reader.work]
    | @snoc acts τ σ a _ step ih =>
      have less : σ.work message < τ.work message := by
        cases a with
        | write bytes => exact work_writer step
        | read bytes => exact work_reader step
      rw [List.length_append, List.length_singleton]
      omega

/-- `Hello, world.` -/
def hello : List UInt8 :=
  [0x48, 0x65, 0x6c, 0x6c, 0x6f, 0x2c, 0x20, 0x77, 0x6f, 0x72, 0x6c, 0x64, 0x2e]

/-- A part of the line is in the stream of the reader when the writer goes on. -/
theorem hello_printed : ∃ σ,
    Run (Step hello 65536) (start 5) [.write 0, .read 0, .write 9, .read 4] σ ∧
    σ.output <+: pieces lineFeed room (copies hello 5) ∧
    ∃ a, (σ.step hello 65536 a).isSome = true := by
  have ran : (execute (Sys.step hello 65536) (start 5) [.write 0, .read 0, .write 9, .read 4]).map
      (fun σ => σ.reader) = some (.reading []) := by
    decide +kernel
  obtain ⟨σ, ret, pc⟩ := Option.map_eq_some_iff.mp ran
  have run : Run (Step hello 65536) (start 5) [.write 0, .read 0, .write 9, .read 4] σ :=
    execute_run (fun _ _ _ step => step) ret
  have printed := copies_printed hello (by decide) 65536 (by decide) 5 _ σ run
  exact ⟨σ, run, printed.1.1, printed.2.2 (by simp [pc])⟩

end LearnC.Process.Pipe
