import LearnC.Machine.Stdio

/-! The chat by multicast, `5.net/udp/multicast/demo1`: `server.c` sends what it reads
from its standard input, and `client.c` prints what arrives. -/

namespace LearnC.Net.Multicast

/-- `N`. -/
def bufSize : Nat := 32

structure Server where
  buf : Image
  stdin : Stream

def Server.start (input : List UInt8) : Server := ⟨fun _ => 0, Stream.opened input⟩

/-- A round of the loop of `server.c`. The byte in front of `buf`, where the store goes
when the text is empty, is none of `buf`. -/
def Server.turn (s : Server) : Server × List Act :=
  let piece := (s.stdin.gets (bufSize - 1)).1
  let buf := s.buf.put piece
  let last : Int := buf.strlen 0 bufSize - 1
  let buf := if 0 ≤ last then buf.set last.toNat 1 0 else buf
  (⟨buf, (s.stdin.gets (bufSize - 1)).2⟩,
    putActs piece ++ [.store last 1, .send (buf.bytes 0 bufSize)])

/-- The first rounds of the loop, which never ends. -/
def Server.turns (s : Server) : Nat → List Act
  | 0 => []
  | k + 1 => s.turn.2 ++ s.turn.1.turns k

/-- The texts that the loop of `client.c` prints between `-->` and a line feed, up to a
datagram that begins with `quit`. -/
def client (buf : Image) : List (List UInt8) → List (List UInt8)
  | [] => []
  | datagram :: datagrams =>
    let buf := buf.write 0 (datagram.take bufSize)
    if buf.bytes 0 4 = chars "quit" then [] else buf.textAt 0 bufSize :: client buf datagrams

/-- The characters of the lines before the first that begins with `quit`. -/
def said (input : List UInt8) : List UInt8 :=
  ((lines lineFeed input).takeWhile fun line => line.take 4 != chars "quit").flatMap
    (·.filter (· != lineFeed))

/-- The chat works: the sender stores in its buffer alone, and in the end the receiver
has printed what was said. -/
structure Delivers (input : List UInt8) : Prop where
  inside : ∀ k, ∀ a ∈ (Server.start input).turns k, a.Inside bufSize
  heard : ∃ enough, ∀ k, enough ≤ k →
    (client (fun _ => 0) (sent ((Server.start input).turns k))).flatten = said input

variable {s : Server} {m : Image} {l p : List UInt8} {off k : Nat}

theorem str_of_holds (h : m.Holds off (p ++ [0])) :
    ∃ l, m.Str off l ∧ l.length ≤ p.length := by
  induction p generalizing off with
  | nil => exact ⟨[], ⟨h, by simp⟩, Nat.le_refl 0⟩
  | cons b p ih =>
    by_cases zero : b = 0
    · subst zero
      exact ⟨[], ⟨⟨h.1, trivial⟩, by simp⟩, Nat.zero_le _⟩
    · obtain ⟨l, str, le⟩ := ih h.2
      refine ⟨b :: l, ⟨⟨h.1, str.bytes⟩, ?_⟩, Nat.succ_le_succ le⟩
      rw [List.mem_cons, not_or]
      exact ⟨Ne.symm zero, str.text⟩

theorem turn_empty (str : (s.buf.put (s.stdin.gets (bufSize - 1)).1).Str 0 []) :
    ∃ a ∈ s.turn.2, ¬ a.Inside bufSize := by
  refine ⟨.store (-1) 1, ?_, by simp [Act.Inside]⟩
  have none := str.strlen (n := bufSize) (by decide)
  simp [Server.turn, none]

theorem turn_chops {x : UInt8} (str : (s.buf.put (s.stdin.gets (bufSize - 1)).1).Str 0 (l ++ [x]))
    (short : (l ++ [x]).length < bufSize) : s.turn.1.buf.Str 0 l := by
  have length := str.strlen short
  have chopped := str.split.1
  rw [List.length_append, List.length_singleton] at length
  have place : ((l.length + 1 : Nat) : Int) - 1 = l.length := by omega
  simpa [Server.turn, length, place] using chopped

theorem turn_stdin : s.turn.1.stdin = (s.stdin.gets (bufSize - 1)).2 := rfl

def Overruns (s : Server) : Prop := ∃ k, ∃ a ∈ s.turns k, ¬ a.Inside bufSize

theorem overruns_now (out : ∃ a ∈ s.turn.2, ¬ a.Inside bufSize) : Overruns s := by
  obtain ⟨a, ha, out⟩ := out
  exact ⟨1, a, List.mem_append_left _ ha, out⟩

theorem overruns_later (later : Overruns s.turn.1) : Overruns s := by
  obtain ⟨k, a, ha, out⟩ := later
  exact ⟨k + 1, a, List.mem_append_right _ ha, out⟩

/-- Behind the end of the input every round takes a character away, until none is left. -/
theorem overruns_at_end (str : s.buf.Str 0 l) (short : l.length < bufSize)
    (done : s.stdin.rest = []) : Overruns s := by
  have ends : s.stdin.gets (bufSize - 1) = (none, ⟨[], true⟩) := gets_end done
  induction l using List.reverseRecOn generalizing s with
  | nil => exact overruns_now (turn_empty (by rw [ends]; exact str))
  | append_singleton l x ih =>
    have chopped := turn_chops (by rw [ends]; exact str) short
    have short' : l.length < bufSize := by
      rw [List.length_append] at short
      omega
    have stdin : s.turn.1.stdin = ⟨[], true⟩ := by rw [turn_stdin, ends]
    exact overruns_later (ih chopped short' (by rw [stdin]) (by rw [stdin, gets_end rfl]))

theorem overruns (str : s.buf.Str 0 l) (short : l.length < bufSize) : Overruns s := by
  induction h : s.stdin.rest.length using Nat.strong_induction_on generalizing s l with
  | _ k ih =>
    by_cases done : s.stdin.rest = []
    · exact overruns_at_end str short done
    · have room : bufSize - 1 ≠ 0 := by decide
      have got := gets_piece done room
      have fits := fgets_length (c := lineFeed) (n := bufSize - 1) (l := s.stdin.rest)
      have holds : (s.buf.put (s.stdin.gets (bufSize - 1)).1).Holds 0
          ((fgets lineFeed (bufSize - 1) s.stdin.rest).1 ++ [0]) := by
        rw [got]
        exact Image.holds_write
      obtain ⟨text, str', le⟩ := str_of_holds holds
      have short' : text.length < bufSize := by
        have : bufSize - 1 < bufSize := by decide
        omega
      induction text using List.reverseRecOn with
      | nil => exact overruns_now (turn_empty str')
      | append_singleton text x _ =>
        have less : s.turn.1.stdin.rest.length < k := by
          rw [turn_stdin, got, ← h]
          exact fgets_shorter done room
        rw [List.length_append] at short'
        exact overruns_later (ih _ less (turn_chops str' (by simpa using short')) (by omega) rfl)

/-- For no input does the chat work. -/
theorem never_delivers (input : List UInt8) : ¬ Delivers input := by
  intro delivers
  have empty : (Server.start input).buf.Str 0 [] := ⟨⟨rfl, trivial⟩, by simp⟩
  obtain ⟨k, a, ha, out⟩ := overruns empty (by decide)
  exact out (delivers.inside k a ha)

/-- Behind one line of three characters: the rounds repeat its beginning, and the fourth
stores in front of the buffer. -/
theorem line_repeated :
    client (fun _ => 0) (sent ((Server.start (chars "hi!\n")).turns 4)) =
      [chars "hi!", chars "hi", chars "h", []] ∧
    .store (-1) 1 ∈ (Server.start (chars "hi!\n")).turns 5 ∧ ¬ Delivers (chars "hi!\n") := by
  have stored : .store (-1) 1 ∈ (Server.start (chars "hi!\n")).turns 5 := by decide
  refine ⟨by decide, stored, fun delivers => ?_⟩
  exact absurd (delivers.inside 5 _ stored) (by simp [Act.Inside])

end LearnC.Net.Multicast
