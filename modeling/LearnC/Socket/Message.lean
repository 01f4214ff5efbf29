import LearnC.Machine.Strings

/-! A text sent over a stream socket behind its length, and what the server makes of the
bytes it reads. -/

namespace LearnC.Socket

/-- An `int` with the low 32 bits of `v`. -/
def toInt (v : Nat) : Int :=
  if v % 2 ^ 32 < 2 ^ 31 then (v % 2 ^ 32 : Nat) else (v % 2 ^ 32 : Nat) - 2 ^ 32

def intBytes (v : Int) : List UInt8 :=
  (List.range 4).map fun i => UInt8.ofNat ((v % 2 ^ 32).toNat / 256 ^ i)

/-- `write_text`: what goes into the stream. A negative length is no count for `write`. -/
def writeText (text : List UInt8) : List UInt8 :=
  let length := toInt (text.length + 1)
  intBytes length ++ if length < 0 then [] else (text ++ [0]).take length.toNat

/-- `read` of at most `n` bytes: `cut` of them, but one at least and no more than there are. -/
def read (cut n : Nat) (stream : List UInt8) : List UInt8 × List UInt8 :=
  let count := min (max 1 cut) n
  (stream.take count, stream.drop count)

/-- How a call of `server` ends: without a message, in memory that is not its own, or with
the text and the length it prints and the value it returns. -/
inductive Outcome
  | closed
  | fault
  | served (text : List UInt8) (length : Int) (ret : Nat)
deriving DecidableEq

/-- `length` and `text` are where they lie, with what is there before; `first` and
`second` are the cuts of the two calls of `read`. -/
def server (length text : Image) (first second : Nat) (stream : List UInt8) : Outcome :=
  let (got, stream) := read first 4 stream
  if got = [] then .closed
  else
    let length := toInt ((length.write 0 got).get 0 4)
    if length = 0 then .closed
    -- `malloc` of a negative length, which is a huge one, gives no memory for `memset`.
    else if length < 0 then .fault
    else
      let text := text.fill 0 length.toNat fun _ => 0
      let (got, _) := read second length.toNat stream
      let text := text.write 0 got
      match text.cString 0 length.toNat with
      | none => .fault
      | some text => .served text length (if text = chars "quit" then 1 else 0)

/-- The server prints the client's text and length, and returns 1 just for `quit`. -/
def Received (text : List UInt8) (outcome : Outcome) : Prop :=
  outcome = .served text (text.length + 1) (if text = chars "quit" then 1 else 0)

variable {m length heap : Image} {text stream : List UInt8} {first second v : Nat}

theorem toInt_lt : toInt v < 2 ^ 31 := by
  unfold toInt
  split <;> omega

theorem toInt_small (lt : v < 2 ^ 31) : toInt v = v := by
  unfold toInt
  split <;> omega

theorem intBytes_length {v : Int} : (intBytes v).length = 4 := by simp [intBytes]

theorem get_intBytes (lt : v < 2 ^ 31) : (m.write 0 (intBytes (v : Int))).get 0 4 = v := by
  have same : (m.write 0 (intBytes (v : Int))).get 0 4 = (m.set 0 4 v).get 0 4 := by
    apply Image.get_congr
    intro i _ hi
    rw [Image.write, Image.set, Image.fill_in (Nat.zero_le i) (by simpa [intBytes_length] using hi),
      Image.fill_in (Nat.zero_le i) hi]
    have small : ((v : Int) % 2 ^ 32).toNat = v := by omega
    simp only [intBytes, small, Nat.sub_zero]
    rw [List.getD_eq_getElem _ _ (by simpa using hi)]
    simp
  rw [same, Image.get_set (by omega)]

theorem writeText_small (lt : text.length + 1 < 2 ^ 31) :
    writeText text = intBytes ((text.length + 1 : Nat) : Int) ++ (text ++ [0]) := by
  have whole : (text ++ [0]).take (text.length + 1) = text ++ [0] :=
    List.take_of_length_le (by rw [List.length_append, List.length_singleton])
  rw [writeText, toInt_small lt, if_neg (by omega), Int.toNat_natCast, whole]

/-- A read that stops early leaves the rest of the buffer zero, so that what has come is
a string. -/
theorem read_string {k : Nat} (free : 0 ∉ text) (le : k ≤ text.length + 1) :
    ((heap.fill 0 (text.length + 1) fun _ => 0).write 0 ((text ++ [0]).take k)).cString 0
      (text.length + 1) = some (text.take k) := by
  have short : (text.take k).length < text.length + 1 :=
    Nat.lt_succ_of_le (List.length_take_le' k text)
  apply Image.Str.cString _ short
  refine ⟨?_, fun mem => free (List.mem_of_mem_take mem)⟩
  rcases Nat.lt_or_eq_of_le le with lt | eq
  · have got : (text ++ [0]).take k = text.take k := List.take_append_of_le_length (by omega)
    rw [got, Image.holds_append]
    refine ⟨Image.holds_write, ?_, trivial⟩
    rw [Image.write_out (Or.inr (Nat.le_refl _)), Image.fill_in (Nat.zero_le _) (by omega)]
  · have all : (text ++ [0]).take k = text ++ [0] :=
      List.take_of_length_le (by rw [List.length_append, List.length_singleton, eq])
    rw [all, List.take_of_length_le (by omega)]
    exact Image.holds_write

theorem server_reads (free : 0 ∉ text) (lt : text.length + 1 < 2 ^ 31) (whole : 4 ≤ first) :
    server length heap first second (writeText text) =
      .served (text.take (max 1 second)) (text.length + 1)
        (if text.take (max 1 second) = chars "quit" then 1 else 0) := by
  have bytes := intBytes_length (v := ((text.length + 1 : Nat) : Int))
  have head : read first 4 (writeText text) =
      (intBytes ((text.length + 1 : Nat) : Int), text ++ [0]) := by
    have four : min (max 1 first) 4 = 4 := by omega
    rw [writeText_small lt, read, four]
    rw [List.take_append_of_le_length (Nat.le_of_eq bytes.symm),
      List.drop_append_of_le_length (Nat.le_of_eq bytes.symm),
      List.take_of_length_le (Nat.le_of_eq bytes), List.drop_of_length_le (Nat.le_of_eq bytes)]
    rfl
  have some : intBytes ((text.length + 1 : Nat) : Int) ≠ [] :=
    List.ne_nil_of_length_eq_add_one bytes
  unfold server
  simp only [head, if_neg some, get_intBytes lt, toInt_small lt]
  rw [if_neg (by omega), if_neg (by omega), Int.toNat_natCast, read]
  simp only [read_string free (Nat.min_le_right (max 1 second) (text.length + 1))]
  have same : text.take (min (max 1 second) (text.length + 1)) = text.take (max 1 second) := by
    rcases Nat.le_total (max 1 second) (text.length + 1) with le | le
    · rw [Nat.min_eq_left le]
    · rw [Nat.min_eq_right le, List.take_of_length_le (by omega), List.take_of_length_le (by omega)]
  rw [same]
  rfl

theorem served_lt {t : List UInt8} {l : Int} {r : Nat}
    (h : server length heap first second stream = .served t l r) : l < 2 ^ 31 := by
  unfold server at h
  simp only at h
  split at h
  · cases h
  · split at h
    · cases h
    · split at h
      · cases h
      · split at h
        · cases h
        · cases h
          exact toInt_lt

theorem toInt_neg (le : 2 ^ 31 ≤ v) (lt : v < 2 ^ 32) : toInt v < 0 := by
  unfold toInt
  split <;> omega

theorem server_short (short : first < 4) :
    server (fun _ => 255) heap first second stream = .closed ∨
      server (fun _ => 255) heap first second stream = .fault := by
  have got : (read first 4 stream).1.length < 4 := by
    rw [read, List.length_take]
    omega
  unfold server
  simp only
  generalize (read first 4 stream).1 = bytes at got
  have last : Image.write (fun _ => 255) 0 bytes 3 = 255 := Image.write_out (Or.inr (by omega))
  have big : 2 ^ 31 ≤ (Image.write (fun _ => 255) 0 bytes).get 0 4 := by
    simp only [Image.get, Nat.zero_add, Nat.reduceAdd, last, UInt8.reduceToNat]
    omega
  have negative := toInt_neg big Image.get_lt
  split
  · exact Or.inl rfl
  · rw [if_neg (Int.ne_of_lt negative)]
    exact Or.inr rfl

/-- The message is received whatever is in memory just where its length fits into an
`int`, the first read brings all of the length, and the second all of the text. -/
theorem received_iff (text : List UInt8) (first second : Nat) (free : 0 ∉ text) :
    (∀ length heap, Received text (server length heap first second (writeText text))) ↔
      text.length + 1 < 2 ^ 31 ∧ 4 ≤ first ∧ text.length ≤ max 1 second := by
  constructor
  · intro received
    have lt : text.length + 1 < 2 ^ 31 := by
      have := served_lt (received (fun _ => 0) (fun _ => 0))
      omega
    have whole : 4 ≤ first := by
      by_contra short
      have got := received (fun _ => 255) (fun _ => 0)
      rw [Received] at got
      rcases server_short (Nat.lt_of_not_le short) with closed | fault
      · rw [got] at closed
        cases closed
      · rw [got] at fault
        cases fault
    have got := received (fun _ => 0) (fun _ => 0)
    rw [Received, server_reads free lt whole, Outcome.served.injEq] at got
    have all := congrArg List.length got.1
    rw [List.length_take] at all
    exact ⟨lt, whole, by omega⟩
  · rintro ⟨lt, whole, all⟩ length heap
    rw [Received, server_reads free lt whole, List.take_of_length_le all]

theorem quit_received : Received (chars "quit")
    (server (fun _ => 7) (fun _ => 9) 4 5 (writeText (chars "quit"))) :=
  (received_iff (chars "quit") 4 5 (by decide)).mpr (by decide) _ _

/-- The second read brings two bytes of the text: `quit` is not seen. -/
theorem quit_cut_short :
    server (fun _ => 0) (fun _ => 0) 4 2 (writeText (chars "quit")) = .served (chars "qu") 5 0 ∧
      ¬Received (chars "quit")
        (server (fun _ => 0) (fun _ => 0) 4 2 (writeText (chars "quit"))) := by
  have cut : server (fun _ => 0) (fun _ => 0) 4 2 (writeText (chars "quit")) =
      .served (chars "qu") 5 0 := by decide
  refine ⟨cut, ?_⟩
  rw [cut, Received]
  decide

end LearnC.Socket
