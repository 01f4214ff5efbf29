import LearnC.Machine.Lines
import LearnC.Machine.Strings

/-! Programs that read a stream line by line into a buffer, and what can be seen of
what they do with the buffer. -/

namespace LearnC

/-- What a program does: bytes stored from a place on, counted from the start of its
buffer, bytes handed to a socket, and bytes printed. -/
inductive Act where
  | store (start : Int) (len : Nat)
  | send (bytes : List UInt8)
  | print (bytes : List UInt8)
deriving DecidableEq

/-- A store stays in a buffer of `size` bytes. -/
def Act.Inside (size : Nat) : Act → Prop
  | .store start len => 0 ≤ start ∧ start + len ≤ size
  | .send _ => True
  | .print _ => True

instance (size : Nat) (a : Act) : Decidable (a.Inside size) :=
  match a with
  | .store _ _ => inferInstanceAs (Decidable (_ ∧ _))
  | .send _ => inferInstanceAs (Decidable True)
  | .print _ => inferInstanceAs (Decidable True)

def sent : List Act → List (List UInt8)
  | [] => []
  | .send bytes :: acts => bytes :: sent acts
  | .store _ _ :: acts => sent acts
  | .print _ :: acts => sent acts

def printed : List Act → List (List UInt8)
  | [] => []
  | .print bytes :: acts => bytes :: printed acts
  | .store _ _ :: acts => printed acts
  | .send _ :: acts => printed acts

def lineFeed : UInt8 := 10

/-- A stream with its end-of-file indicator. -/
structure Stream where
  rest : List UInt8
  eof : Bool
deriving DecidableEq

def Stream.opened (file : List UInt8) : Stream := ⟨file, false⟩

/-- `fgets` with room for `n` characters and a zero: the piece, or `NULL` where nothing
is left. It is at the end of the file when it asks for a character behind the last. -/
def Stream.gets (s : Stream) (n : Nat) : Option (List UInt8) × Stream :=
  match fgets lineFeed n s.rest with
  | ([], rest) => (none, ⟨rest, true⟩)
  | (b :: piece, rest) =>
    (some (b :: piece), ⟨rest, decide (rest = [] ∧ piece.length + 1 < n ∧ lineFeed ∉ b :: piece)⟩)

/-- The piece in the buffer, or the buffer as it was. -/
def Image.put (m : Image) : Option (List UInt8) → Image
  | none => m
  | some piece => m.write 0 (piece ++ [0])

/-- The stores of the buffer that go with it. -/
def putActs : Option (List UInt8) → List Act
  | none => []
  | some piece => [.store 0 (piece.length + 1)]

def Image.bytes (m : Image) (off : Nat) : Nat → List UInt8
  | 0 => []
  | n + 1 => m off :: m.bytes (off + 1) n

section
variable {m : Image} {off n : Nat} {l piece : List UInt8} {s t : Stream}
  {acts acts' : List Act}

theorem Image.bytes_of_holds (h : m.Holds off l) : m.bytes off l.length = l := by
  induction l generalizing off with
  | nil => rfl
  | cons b l ih => rw [List.length_cons, Image.bytes, h.1, ih h.2]

@[simp] theorem sent_append : sent (acts ++ acts') = sent acts ++ sent acts' := by
  induction acts with
  | nil => rfl
  | cons a acts ih => cases a <;> simp [sent, ih]

@[simp] theorem sent_putActs (piece : Option (List UInt8)) : sent (putActs piece) = [] := by
  cases piece <;> rfl

theorem gets_end (done : s.rest = []) : s.gets n = (none, ⟨[], true⟩) := by
  rw [Stream.gets, done]
  cases n <;> rfl

theorem gets_piece (ne : s.rest ≠ []) (room : n ≠ 0) :
    s.gets n = (some (fgets lineFeed n s.rest).1, ⟨(fgets lineFeed n s.rest).2,
      decide ((fgets lineFeed n s.rest).2 = [] ∧ (fgets lineFeed n s.rest).1.length < n ∧
        lineFeed ∉ (fgets lineFeed n s.rest).1)⟩) := by
  have some := fgets_ne (c := lineFeed) ne room
  unfold Stream.gets
  cases got : fgets lineFeed n s.rest with
  | mk piece rest =>
    rw [got] at some
    cases piece with
    | nil => exact absurd rfl some
    | cons b piece => rfl

theorem gets_shrinks (room : n ≠ 0) :
    (s.gets n).2.eof = true ∨ (s.gets n).2.rest.length < s.rest.length := by
  by_cases ne : s.rest = []
  · rw [gets_end ne]
    exact Or.inl rfl
  · rw [gets_piece ne room]
    exact Or.inr (fgets_shorter ne room)

end

end LearnC
