import LearnC.Machine.Stdio

/-! The echo server, `5.net/tcp/server.c`: what it receives is printed and sent back. -/

namespace LearnC.Net.Tcp

def bufsiz : Nat := 8192

/-- The loop of `main`. A round is what `recv` puts into the buffer and whether the
`send` behind it succeeds; behind the last round `recv` returns 0 or an error. -/
def serve (buf : Image) : List (List UInt8 × Bool) → List Act
  | [] => []
  | (got, ok) :: rounds =>
    let len := got.length
    let buf := (buf.write 0 got).set len 1 0
    [.store 0 len, .store len 1, .print (buf.textAt 0 (len + 1) ++ [lineFeed]),
      .send (buf.bytes 0 len)] ++ if ok then serve buf rounds else []

/-- What `recv` returned up to the end of the loop, call by call. -/
def received : List (List UInt8 × Bool) → List (List UInt8)
  | [] => []
  | (got, ok) :: rounds => got :: if ok then received rounds else []

variable {buf : Image} {got : List UInt8} {rounds : List (List UInt8 × Bool)}

theorem received_bytes (buf : Image) (got : List UInt8) :
    ((buf.write 0 got).set got.length 1 0).bytes 0 got.length = got := by
  apply Image.bytes_of_holds
  apply Image.Holds.congr Image.holds_write
  intro i _ hi
  exact Image.set_out (Or.inl (by omega))

/-- What goes back is what came in, whatever its parts. -/
theorem sent_serve (buf : Image) (rounds : List (List UInt8 × Bool)) :
    sent (serve buf rounds) = received rounds := by
  induction rounds generalizing buf with
  | nil => rfl
  | cons round rounds ih =>
    obtain ⟨got, ok⟩ := round
    cases ok with
    | false => simp [serve, received, sent, received_bytes]
    | true => simp [serve, received, sent, received_bytes, ih]

theorem serve_inside_iff (buf : Image) (rounds : List (List UInt8 × Bool)) :
    (∀ a ∈ serve buf rounds, a.Inside bufsiz) ↔ ∀ got ∈ received rounds, got.length < bufsiz := by
  induction rounds generalizing buf with
  | nil => simp [serve, received]
  | cons round rounds ih =>
    obtain ⟨got, ok⟩ := round
    have first : (∀ a ∈ [Act.store 0 got.length, .store got.length 1,
        .print ((((buf.write 0 got).set got.length 1 0).textAt 0 (got.length + 1)) ++ [lineFeed]),
        .send (((buf.write 0 got).set got.length 1 0).bytes 0 got.length)],
        a.Inside bufsiz) ↔ got.length < bufsiz := by
      simp only [List.mem_cons, List.not_mem_nil, or_false, forall_eq_or_imp, forall_eq,
        Act.Inside, and_true, Nat.cast_one]
      omega
    rw [serve, List.forall_mem_append, first, received, List.forall_mem_cons]
    cases ok with
    | false => simp
    | true =>
      simp only [↓reduceIte]
      rw [ih]

/-- The loop writes inside `buf` and sends the stream back exactly when no `recv`
fills the buffer. -/
theorem echo_iff (buf : Image) (rounds : List (List UInt8 × Bool))
    (seg : ∀ round ∈ rounds, 0 < round.1.length ∧ round.1.length ≤ bufsiz) :
    ((∀ a ∈ serve buf rounds, a.Inside bufsiz) ∧
      (sent (serve buf rounds)).flatten = (received rounds).flatten) ↔
    ∀ got ∈ received rounds, got.length ≠ bufsiz := by
  have bounded : ∀ got ∈ received rounds, got.length ≤ bufsiz := by
    induction rounds with
    | nil => simp [received]
    | cons round rounds ih =>
      obtain ⟨got, ok⟩ := round
      rw [List.forall_mem_cons] at seg
      rw [received, List.forall_mem_cons]
      refine ⟨seg.1.2, ?_⟩
      cases ok with
      | false => simp
      | true => exact ih seg.2
  rw [serve_inside_iff, sent_serve]
  simp only [and_true]
  constructor
  · intro room got mem
    have := room got mem
    omega
  · intro ne got mem
    have := bounded got mem
    have := ne got mem
    omega

theorem full_segment_overruns :
    ¬ ∀ a ∈ serve (fun _ => 0) [(List.replicate bufsiz 65, true)], a.Inside bufsiz := by
  rw [serve_inside_iff]
  simp [received]

theorem short_segment_echoed :
    (∀ a ∈ serve (fun _ => 0) [(chars "abc", true)], a.Inside bufsiz) ∧
      (sent (serve (fun _ => 0) [(chars "abc", true)])).flatten =
        (received [(chars "abc", true)]).flatten :=
  (echo_iff (fun _ => 0) [(chars "abc", true)] (by decide)).mpr (by decide)

end LearnC.Net.Tcp
