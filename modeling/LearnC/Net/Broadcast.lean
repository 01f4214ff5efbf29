import LearnC.Machine.Stdio

/-! The file sent by broadcast, `5.net/udp/broadcast`: `server.c` reads it in pieces,
and `client.c` prints what arrives. -/

namespace LearnC.Net.Broadcast

def buffSize : Nat := 30

/-- The loop of `server.c` over what is left of the file. No result when there is no
zero behind the start of `buff` in the `reach` bytes of its memory. -/
def serve (reach : Nat) (buff : Image) (fp : Stream) : Option (List Act) :=
  if fp.eof then some []
  else
    let piece := (fp.gets (buffSize - 1)).1
    let buff := buff.put piece
    match buff.cString 0 reach with
    | none => none
    | some text => (serve reach buff (fp.gets (buffSize - 1)).2).map fun acts =>
        putActs piece ++ [.print text, .send text] ++ acts
termination_by if fp.eof then 0 else fp.rest.length + 1
decreasing_by
  rename_i going
  have shrinks := gets_shrinks (s := fp) (n := buffSize - 1) (by decide)
  split <;> simp_all

/-- What `main` of `server.c` does with the file; `buff` is not initialised. -/
def server (reach : Nat) (buff : Image) (file : List UInt8) : Option (List Act) :=
  serve reach buff (Stream.opened file)

/-- The loop of `client.c`, a round for each datagram that arrives; `buff` is not
initialised. `recvfrom` drops what is longer than it asks for. -/
def client (buff : Image) : List (List UInt8) → List Act
  | [] => []
  | datagram :: datagrams =>
    let got := datagram.take (buffSize - 1)
    let buff := (buff.write 0 got).set buffSize 1 0
    [.store 0 got.length, .store buffSize 1, .print (buff.textAt 0 (buffSize + 1))] ++
      client buff datagrams

/-- The file arrives: the sender ends, and the receiver prints it with stores in its
buffer alone. -/
def Arrives (reach : Nat) (buff buff' : Image) (file : List UInt8) : Prop :=
  ∃ acts, server reach buff file = some acts ∧
    (printed (client buff' (sent acts))).flatten = file ∧
    ∀ a ∈ client buff' (sent acts), a.Inside buffSize

variable {reach : Nat} {buff : Image} {fp : Stream} {file : List UInt8} {acts : List Act}
  {datagrams : List (List UInt8)}

theorem serve_open (going : fp.eof = false) : serve reach buff fp =
    match (buff.put (fp.gets (buffSize - 1)).1).cString 0 reach with
    | none => none
    | some text =>
      (serve reach (buff.put (fp.gets (buffSize - 1)).1) (fp.gets (buffSize - 1)).2).map
        fun acts => putActs (fp.gets (buffSize - 1)).1 ++ [.print text, .send text] ++ acts := by
  rw [serve, going]
  rfl

theorem serve_eof (stops : fp.eof = true) : serve reach buff fp = some [] := by
  rw [serve, stops]
  rfl

theorem server_sends (ret : server reach buff file = some acts) : sent acts ≠ [] := by
  rw [server, serve_open rfl] at ret
  split at ret
  · cases ret
  · obtain ⟨rest, _, rfl⟩ := Option.map_eq_some_iff.mp ret
    simp [sent]

/-- `fgets` has met the end of the file behind the piece. -/
def MetEnd (piece : List UInt8) : Prop := piece.length < buffSize - 1 ∧ lineFeed ∉ piece

instance (piece : List UInt8) : Decidable (MetEnd piece) := inferInstanceAs (Decidable (_ ∧ _))

theorem cString_put {piece : List UInt8} (buff : Image) (text : 0 ∉ piece)
    (fits : piece.length < reach) : (buff.put (some piece)).cString 0 reach = some piece :=
  (Image.str_write text).cString fits

theorem serve_again {piece : List UInt8} (text : buff.cString 0 reach = some piece) :
    serve reach buff ⟨[], false⟩ = some [.print piece, .send piece] := by
  rw [serve_open rfl, gets_end rfl]
  simp only [Image.put, text, serve_eof, putActs, Option.map_some, List.nil_append, List.append_nil]

/-- The pieces of a text go out in order, and the last of them twice unless it ends
short of its room without a line feed. -/
theorem serve_pieces (room : buffSize ≤ reach) {rest : List UInt8} (text : 0 ∉ rest)
    (ne : rest ≠ []) (buff : Image) :
    ∃ acts last, serve reach buff ⟨rest, false⟩ = some acts ∧
      (pieces lineFeed (buffSize - 1) rest).getLast? = some last ∧
      sent acts = pieces lineFeed (buffSize - 1) rest ++ if MetEnd last then [] else [last] := by
  induction h : rest.length using Nat.strong_induction_on generalizing rest buff with
  | _ k ih =>
    have some_room : buffSize - 1 ≠ 0 := by decide
    have split := fgets_split (c := lineFeed) (n := buffSize - 1) (l := rest)
    have shorter := fgets_shorter (c := lineFeed) ne some_room
    have short := fgets_length (c := lineFeed) (n := buffSize - 1) (l := rest)
    have open' : serve reach buff ⟨rest, false⟩ = _ := serve_open rfl
    rw [gets_piece ne some_room] at open'
    rw [pieces_cons ne some_room]
    generalize (fgets lineFeed (buffSize - 1) rest).1 = piece at split short open'
    generalize (fgets lineFeed (buffSize - 1) rest).2 = later at split shorter open' ⊢
    rw [← split, List.mem_append, not_or] at text
    have fits : piece.length < reach := by
      have : buffSize - 1 < buffSize := by decide
      omega
    have copied := cString_put buff text.1 fits
    simp only [copied] at open'
    generalize flag : decide (later = [] ∧ piece.length < buffSize - 1 ∧ lineFeed ∉ piece) = eof
      at open'
    cases eof with
    | true =>
      obtain ⟨rfl, met⟩ := of_decide_eq_true flag
      have met : MetEnd piece := met
      have stops : serve reach (buff.put (some piece)) ⟨[], true⟩ = some [] := serve_eof rfl
      rw [stops] at open'
      exact ⟨_, piece, open', by simp, by simp [sent, met]⟩
    | false =>
      have unmet := of_decide_eq_false flag
      by_cases last : later = []
      · subst last
        have unmet : ¬ MetEnd piece := fun met => unmet ⟨rfl, met⟩
        rw [serve_again copied] at open'
        exact ⟨_, piece, open', by simp, by simp [sent, unmet]⟩
      · obtain ⟨acts, p, ret, is_last, eq⟩ := ih later.length (h ▸ shorter) text.2 last
          (buff.put (some piece)) rfl
        rw [ret] at open'
        refine ⟨_, p, open', ?_, by simp [sent, eq]⟩
        rw [List.getLast?_cons, is_last, Option.getD_some]

theorem client_overruns (buff : Image) (ne : datagrams ≠ []) :
    ¬ ∀ a ∈ client buff datagrams, a.Inside buffSize := by
  cases datagrams with
  | nil => exact absurd rfl ne
  | cons datagram datagrams =>
    intro inside
    have behind := inside (.store buffSize 1) (by simp [client])
    simp only [Act.Inside, Nat.cast_one] at behind
    omega

/-- No file arrives with the stores inside the buffer. -/
theorem never_arrives (reach : Nat) (buff buff' : Image) (file : List UInt8) :
    ¬ Arrives reach buff buff' file := by
  rintro ⟨acts, ret, _, inside⟩
  exact client_overruns buff' (server_sends ret) inside

/-- A line is sent and printed once more when the end of the file is behind its line
feed. -/
theorem line_printed_twice :
    (server 30 (fun _ => 0) (chars "hi\n")).map sent = some [chars "hi\n", chars "hi\n"] ∧
    (printed (client (fun _ => 0) [chars "hi\n", chars "hi\n"])).flatten = chars "hi\nhi\n" ∧
    ¬ Arrives 30 (fun _ => 0) (fun _ => 0) (chars "hi\n") := by
  have sends : (server 30 (fun _ => 0) (chars "hi\n")).map sent =
      some [chars "hi\n", chars "hi\n"] := by decide +kernel
  have prints : (printed (client (fun _ => 0) [chars "hi\n", chars "hi\n"])).flatten =
      chars "hi\nhi\n" := by decide
  refine ⟨sends, prints, ?_⟩
  rintro ⟨acts, ret, print, _⟩
  rw [ret] at sends
  rw [Option.some.inj sends, prints] at print
  exact absurd print (by decide)

end LearnC.Net.Broadcast
