import LearnC.Convert.Hex
import LearnC.Machine.Stdio

/-! `main` of `conv_str_hex.c`: what its three buffers of 64 bytes are given on the two ways
in, and the places that the two conversions write. -/

namespace LearnC.Convert

/-- The digits come as `argv[1]`, or there is none and they are read from `stdin`. -/
inductive Source where
  | arg (text : List UInt8)
  | stdin (file : List UInt8)

/-- A source gives a string: as its argument, or as its first line. -/
inductive Gives (s : List UInt8) : Source → Prop
  | arg : Gives s (.arg s)
  | line (rest : List UInt8) : Gives s (.stdin (s ++ lineFeed :: rest))
  | last (some : s ≠ []) : Gives s (.stdin s)

/-- `instr` when the conversion is called; `memcpy` copies no zero byte. -/
def readInstr (instr : Image) : Source → Image
  | .arg text => instr.write 0 text
  | .stdin file =>
    let instr := instr.put ((Stream.opened file).gets 63).1
    instr.set (instr.strcspn 0 64 lineFeed) 1 0

def flipPlaces (i : Nat) : Nat → List Nat
  | 0 => []
  | j + 1 => if i ≤ j then i :: j :: flipPlaces (i + 1) j else []

def packPlaces : Nat → List Nat
  | 0 => []
  | i + 1 => packPlaces i ++ [i / 2]

/-- The places of `outstr` that the calls of `sprintf` write, each a digit and a zero byte. -/
def unpackPlaces : Nat → List Nat
  | 0 => []
  | i + 1 => unpackPlaces i ++ [i * 2, i * 2 + 1, i * 2 + 1, i * 2 + 2]

/-- All places that `convert_str_to_hex` writes, in `str` and in `outbuf`. -/
def strToHexPlaces (instr : Image) : List Nat :=
  let len := instr.strlen 0 64
  let str : Image := fun _ => 0
  let str := str.fill 0 len instr
  let flipped := flipString str 0 64
  List.range len ++ flipPlaces 0 (str.strlen 0 64) ++ packPlaces (flipped.strlen 0 64)

/-- All places that `convert_hex_to_str` writes in `outstr`. -/
def hexToStrPlaces (inbuf outstr : Image) (cnt : Nat) : List Nat :=
  unpackPlaces cnt ++ flipPlaces 0 ((unpackLoop inbuf outstr cnt).strlen 0 64)

/-- A run of the program on a source that gives `s`, from any content of the buffers. -/
structure Safe (after : Nat → List UInt8) (source : Source) (instr buf outstr : Image)
    (s : List UInt8) : Prop where
  received : (readInstr instr source).Str 0 s
  packed : ∀ p ∈ strToHexPlaces (readInstr instr source), p < 64
  unpacked : ∀ p ∈ hexToStrPlaces (convertStrToHex 64 after (readInstr instr source) buf) outstr
    (byteInStr (readInstr instr source) 64), p < 64
  /-- The string that is printed, its zero byte included, is one that was written. -/
  fresh : ∃ t, (convertHexToStr 64 (convertStrToHex 64 after (readInstr instr source) buf) outstr
      (byteInStr (readInstr instr source) 64)).Str 0 t ∧
    ∀ p ≤ t.length, p ∈ unpackPlaces (byteInStr (readInstr instr source) 64)

variable {after : Nat → List UInt8} {source : Source} {m instr buf outstr inbuf : Image}
  {s file bytes : List UInt8} {i j n p : Nat} {x : UInt8}

/-! ## The places -/

theorem flipPlaces_lt (mem : p ∈ flipPlaces i j) : p < j := by
  induction j generalizing i with
  | zero => cases mem
  | succ j ih =>
    rw [flipPlaces] at mem
    split at mem
    · rw [List.mem_cons, List.mem_cons] at mem
      rcases mem with rfl | rfl | mem
      · omega
      · omega
      · exact Nat.lt_succ_of_lt (ih mem)
    · cases mem

theorem flipLoop_keeps (out : p ∉ flipPlaces i j) : flipLoop m 0 i j p = m p := by
  induction j generalizing m i with
  | zero => rfl
  | succ j ih =>
    rw [flipPlaces] at out
    split at out
    case isTrue le =>
      rw [List.mem_cons, List.mem_cons, not_or, not_or] at out
      rw [flipLoop_step le, ih out.2.2, Image.write_out, Image.write_out]
      all_goals
        rw [List.length_singleton]
        omega
    case isFalse gt => rw [flipLoop_done (by omega)]

theorem packLoop_keeps {str outbuf : Image} (out : p ∉ packPlaces n) :
    packLoop after str outbuf n p = outbuf p := by
  induction n with
  | zero => rfl
  | succ n ih =>
    rw [packPlaces, List.mem_append, List.mem_singleton, not_or] at out
    have apart : p < n / 2 ∨ n / 2 + 1 ≤ p := Nat.lt_or_gt_of_ne out.2
    rw [packLoop, packDigit]
    split
    · exact (Image.write_out apart).trans (ih out.1)
    · exact (Image.write_out apart).trans (ih out.1)

theorem mem_packPlaces : p ∈ packPlaces n ↔ ∃ i < n, p = i / 2 := by
  induction n with
  | zero => simp [packPlaces]
  | succ n ih =>
    rw [packPlaces, List.mem_append, ih, List.mem_singleton]
    constructor
    · rintro (⟨i, lt, rfl⟩ | rfl)
      · exact ⟨i, Nat.lt_succ_of_lt lt, rfl⟩
      · exact ⟨n, Nat.lt_succ_self n, rfl⟩
    · rintro ⟨i, lt, rfl⟩
      rcases Nat.lt_succ_iff_lt_or_eq.mp lt with lt | rfl
      · exact Or.inl ⟨i, lt, rfl⟩
      · exact Or.inr rfl

theorem mem_unpackPlaces : p ∈ unpackPlaces n ↔ n ≠ 0 ∧ p ≤ 2 * n := by
  induction n with
  | zero => simp [unpackPlaces]
  | succ n ih =>
    rw [unpackPlaces, List.mem_append, ih]
    simp only [List.mem_cons, List.not_mem_nil, or_false]
    omega

theorem unpackLoop_keeps (out : p ∉ unpackPlaces n) : unpackLoop inbuf outstr n p = outstr p := by
  induction n with
  | zero => rfl
  | succ n ih =>
    rw [mem_unpackPlaces, not_and] at out
    have behind : 2 * (n + 1) < p := Nat.lt_of_not_le (out (Nat.succ_ne_zero n))
    rw [unpackLoop, Image.write_out (Or.inr _), Image.write_out (Or.inr _)]
    · apply ih
      rw [mem_unpackPlaces]
      omega
    all_goals
      simp only [List.length_cons, List.length_nil]
      omega

/-! ## The two ways in -/

theorem hex_text (hex : ∀ b ∈ s, IsHex b) : 0 ∉ s ∧ lineFeed ∉ s := by
  constructor
  · exact fun mem => absurd (hex 0 mem) (by decide)
  · exact fun mem => absurd (hex lineFeed mem) (by decide)

/-- The line feed or the zero byte behind the line is replaced. -/
theorem line_ended (h : m.Holds 0 (s ++ [x])) (ends : x = lineFeed ∨ x = 0) (text : 0 ∉ s)
    (free : lineFeed ∉ s) (lt : s.length < 64) :
    (m.set (m.strcspn 0 64 lineFeed) 1 0).Str 0 s := by
  have hit : (x == lineFeed || x == 0) = true := by
    cases ends with
    | inl eq => simp [eq]
    | inr eq => simp [eq]
  have found : m.strcspn 0 64 lineFeed = 0 + s.length := by
    rw [Image.strcspn, Image.scan_eq h (Image.passes free text) hit lt, Nat.sub_zero]
  rw [found]
  exact ⟨(Image.holds_append.mp h).1.set_one (b := []) Image.holds_nil, text⟩

theorem stdin_put (ne : file ≠ []) : readInstr instr (.stdin file) =
    let m := instr.write 0 ((fgets lineFeed 63 file).1 ++ [0])
    m.set (m.strcspn 0 64 lineFeed) 1 0 := by
  have got : ((Stream.opened file).gets 63).1 = some (fgets lineFeed 63 file).1 := by
    rw [gets_piece ne (Nat.succ_ne_zero 62)]
    rfl
  rw [readInstr, got]
  rfl

theorem stdin_received (gives : Gives s (.stdin file)) (hex : ∀ b ∈ s, IsHex b)
    (le : s.length ≤ 63) : (readInstr instr (.stdin file)).Str 0 s := by
  obtain ⟨text, free⟩ := hex_text hex
  have lt : s.length < 64 := Nat.lt_succ_of_le le
  cases gives with
  | line rest =>
    rw [stdin_put (by simp)]
    by_cases full : s.length = 63
    · -- The line feed is left in the stream.
      rw [← full, fgets_full free]
      exact line_ended Image.holds_write (Or.inr rfl) text free lt
    · rw [fgets_line free (by omega)]
      have put : (instr.write 0 (s ++ [lineFeed] ++ [0])).Holds 0 (s ++ [lineFeed] ++ [0]) :=
        Image.holds_write
      exact line_ended (Image.holds_append.mp put).1 (Or.inl rfl) text free lt
  | last some =>
    rw [stdin_put some, fgets_last free le]
    exact line_ended Image.holds_write (Or.inr rfl) text free lt

/-- The argument ends where a zero byte was left from before. -/
theorem arg_received (text : 0 ∉ s) :
    (readInstr instr (.arg s)).Str 0 s ↔ instr s.length = 0 := by
  have kept : readInstr instr (.arg s) s.length = instr s.length := Image.write_out (by omega)
  constructor
  · intro h
    have ends := h.at_end
    rwa [Nat.zero_add, kept] at ends
  · intro zero
    refine ⟨Image.holds_append.mpr ⟨Image.holds_write, ?_, trivial⟩, text⟩
    rw [Nat.zero_add, kept, zero]

theorem instr_str_iff (gives : Gives s source) (hex : ∀ b ∈ s, IsHex b) (le : s.length ≤ 63) :
    (readInstr instr source).Str 0 s ↔ ∀ text, source = .arg text → instr s.length = 0 := by
  cases source with
  | arg text =>
    cases gives
    rw [arg_received (hex_text hex).1]
    exact ⟨fun zero _ _ => zero, fun all => all s rfl⟩
  | stdin file =>
    constructor
    · intro _ _ eq
      cases eq
    · exact fun _ => stdin_received gives hex le

/-! ## The two conversions -/

theorem strToHex_inside (h : instr.Str 0 s) (le : s.length ≤ 63) :
    ∀ p ∈ strToHexPlaces instr, p < 64 := by
  have lt : s.length < 64 := Nat.lt_succ_of_le le
  have copied := copied_str h
  have flipped := (flipString_str copied lt).strlen (n := 64) (by rwa [List.length_reverse])
  intro p mem
  unfold strToHexPlaces at mem
  simp only [h.strlen lt, copied.strlen lt, flipped, List.length_reverse, List.mem_append,
    List.mem_range, mem_packPlaces] at mem
  rcases mem with (lt | mem) | ⟨i, lt, rfl⟩
  · omega
  · have := flipPlaces_lt mem
    omega
  · omega

theorem count_eq (h : instr.Str 0 s) (le : s.length ≤ 63) :
    byteInStr instr 64 = (s.length + 1) / 2 := by
  rw [byteInStr, h.strlen (Nat.lt_succ_of_le le)]

/-- Digits and a zero byte, which the calls of `sprintf` have written, and nothing else. -/
theorem hexToStr_fresh (outstr : Image) (h : inbuf.Holds 0 bytes) (some : bytes ≠ [])
    (fits : bytes.length < 32) :
    (∀ p ∈ hexToStrPlaces inbuf outstr bytes.length, p < 64) ∧
      ∃ t, (convertHexToStr 64 inbuf outstr bytes.length).Str 0 t ∧
        ∀ p ≤ t.length, p ∈ unpackPlaces bytes.length := by
  have pos := List.length_pos_iff.mpr some
  have digits : ((unpack bytes).map hexDigit).length = 2 * bytes.length := by
    rw [List.length_map, unpack_length]
  constructor
  · intro p mem
    rw [hexToStrPlaces, List.mem_append, mem_unpackPlaces] at mem
    cases mem with
    | inl written => omega
    | inr mem =>
      have text : (unpackLoop inbuf outstr bytes.length).Str 0 ((unpack bytes).map hexDigit) :=
        unpackLoop_str h some
      rw [text.strlen (by omega)] at mem
      have := flipPlaces_lt mem
      omega
  · refine ⟨_, convertHexToStr_str h some (by omega), fun p le => ?_⟩
    rw [List.length_reverse, digits] at le
    rw [mem_unpackPlaces]
    omega

/-- A run is safe exactly on a string of one to 62 digits, and as an argument only where a
zero byte happens to stand behind it in `instr`. -/
theorem main_safe_iff (after : Nat → List UInt8) (source : Source) (instr buf outstr : Image)
    (s : List UInt8) (gives : Gives s source) (hex : ∀ b ∈ s, IsHex b) (le : s.length ≤ 63) :
    Safe after source instr buf outstr s ↔ 1 ≤ s.length ∧ s.length ≤ 62 ∧
      ∀ text, source = .arg text → instr s.length = 0 := by
  constructor
  · rintro ⟨received, _, unpacked, t, _, fresh⟩
    rw [count_eq received le] at unpacked fresh
    have first := mem_unpackPlaces.mp (fresh 0 (Nat.zero_le _))
    have last : 2 * ((s.length + 1) / 2) ∈ unpackPlaces ((s.length + 1) / 2) :=
      mem_unpackPlaces.mpr ⟨first.1, Nat.le_refl _⟩
    have inside := unpacked _ (List.mem_append_left _ last)
    exact ⟨by omega, by omega, (instr_str_iff gives hex le).mp received⟩
  · rintro ⟨some, fits, zero⟩
    have received := (instr_str_iff gives hex le).mpr zero
    have lt : s.length < 64 := Nat.lt_succ_of_le le
    have packed : (convertStrToHex 64 after (readInstr instr source) buf).Holds 0
        (pack (nibblesRead after s.reverse)) := convertStrToHex_nibbles received lt
    have length : (pack (nibblesRead after s.reverse)).length = (s.length + 1) / 2 := by
      rw [pack_length, nibblesRead_length, List.length_reverse]
    have written := hexToStr_fresh outstr packed (List.length_pos_iff.mp (by omega)) (by omega)
    rw [length, ← count_eq received le] at written
    exact ⟨received, strToHex_inside received le, written.1, written.2⟩

/-- One digit as an argument and as a line. -/
theorem one_digit_safe :
    Safe (fun _ => [50]) (.arg [49]) (fun _ => 0) (fun _ => 7) (fun _ => 7) [49] ∧
      Safe (fun _ => [50]) (.stdin [49, 10]) (fun _ => 7) (fun _ => 7) (fun _ => 7) [49] := by
  have hex : ∀ b ∈ ([49] : List UInt8), IsHex b := List.forall_iff_forall_mem.mp (by decide)
  constructor
  · exact (main_safe_iff _ (.arg [49]) _ _ _ [49] .arg hex (by decide)).mpr
      ⟨by decide, by decide, fun _ _ => rfl⟩
  · exact (main_safe_iff _ (.stdin [49, 10]) _ _ _ [49] (.line []) hex (by decide)).mpr
      ⟨by decide, by decide, fun _ eq => by cases eq⟩

/-- An argument in front of other bytes, an empty line, and 63 digits. -/
theorem ends_unsafe :
    ¬ Safe (fun _ => []) (.arg [49]) (fun _ => 7) (fun _ => 7) (fun _ => 7) [49] ∧
      ¬ Safe (fun _ => []) (.stdin [10]) (fun _ => 7) (fun _ => 7) (fun _ => 7) [] ∧
      ¬ Safe (fun _ => []) (.stdin (List.replicate 63 49 ++ [10])) (fun _ => 7) (fun _ => 7)
        (fun _ => 7) (List.replicate 63 49) := by
  refine ⟨fun safe => ?_, fun safe => ?_, fun safe => ?_⟩
  · have ends := safe.received.at_end
    revert ends
    decide
  · obtain ⟨_, _, fresh⟩ := safe.fresh
    rw [count_eq safe.received (by decide)] at fresh
    exact (mem_unpackPlaces.mp (fresh 0 (Nat.zero_le _))).1 rfl
  · have unpacked := safe.unpacked
    rw [count_eq safe.received (by decide)] at unpacked
    have last : 64 ∈ unpackPlaces 32 := by decide
    exact absurd (unpacked 64 (List.mem_append_left _ last)) (by decide)

end LearnC.Convert
