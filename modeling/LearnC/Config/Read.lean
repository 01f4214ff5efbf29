import LearnC.Config.Trim
import LearnC.Machine.Lines

/-! `read_config_file`: the pieces that `fgets` reads are taken for lines. -/

namespace LearnC.Config

def newline : UInt8 := 10

def hash : UInt8 := 35

def equals : UInt8 := 61

/-- The size of `line`. -/
def lineSize : Nat := 256

/-- How an entry is printed, by its key. -/
inductive Shown
  | number (n : Int)
  | boolean (b : Bool)
  | string
deriving DecidableEq

/-- What is made of one line: nothing, one of two warnings, or an entry. -/
inductive Line
  | skipped
  | missingEquals
  | emptyKey
  | entry (key value : List UInt8) (shown : Shown)
deriving DecidableEq

def toLowercase (l : List UInt8) : List UInt8 :=
  l.map fun b => if 65 ≤ b ∧ b ≤ 90 then b + 32 else b

/-- `temp` has 16 bytes. -/
def parseBool (temp : Image) (value : List UInt8) : Bool :=
  let temp := (temp.strncpy 0 15 value).set 15 1 0
  let temp := temp.write 0 (toLowercase (temp.textAt 0 16))
  let temp := trimString temp 0 16
  temp.textAt 0 16 == chars "true" || temp.textAt 0 16 == chars "1" ||
    temp.textAt 0 16 == chars "yes"

def shown (temp : Image) (key value : List UInt8) : Shown :=
  if key = chars "server_port" ∨ key = chars "timeout" then .number (atoi value)
  else if key = chars "debug_mode" then .boolean (parseBool temp value)
  else .string

/-- The body of the loop, behind `line_num++`; `temp` is the buffer of `parse_bool`. -/
def readLine (temp line : Image) : Line × Image :=
  if line 0 = hash ∨ line 0 = newline then (.skipped, line)
  else
    let line := line.set (line.strcspn 0 lineSize newline) 1 0
    match line.strchr 0 lineSize equals with
    | none => (.missingEquals, line)
    | some equals =>
      let line := line.set equals 1 0
      let line := trimString line 0 lineSize
      let line := trimString line (equals + 1) (lineSize - (equals + 1))
      if line.strlen 0 lineSize = 0 then (.emptyKey, line)
      else
        let key := line.textAt 0 lineSize
        let value := line.textAt (equals + 1) (lineSize - (equals + 1))
        (.entry key value (shown temp key value), line)

/-- What the loop has made of a piece, under which line number, and the number of the
line in the file that the piece is from. -/
structure Record where
  lineNum : Nat
  physical : Nat
  line : Line
deriving DecidableEq

/-- The loop over what `fgets` reads; `physical` is not in the source. -/
def readLoop (temp line : Image) (lineNum physical : Nat) : List (List UInt8) → List Record
  | [] => []
  | piece :: rest =>
    let (made, line) := readLine temp (line.write 0 (piece ++ [0]))
    ⟨lineNum + 1, physical, made⟩ ::
      readLoop temp line (lineNum + 1) (physical + piece.count newline) rest

/-- `line` and `temp` are not initialised. -/
def readConfigFile (temp line : Image) (file : List UInt8) : List Record :=
  readLoop temp line 0 1 (pieces newline (lineSize - 1) file)

/-! ## On the text of a piece -/

/-- A piece of the file without the line feed at its end. -/
def chomp (piece : List UInt8) : List UInt8 :=
  ((cutAt newline piece).map Prod.fst).getD piece

def Skipped (piece : List UInt8) : Prop :=
  piece.head? = some hash ∨ piece.head? = some newline

instance (piece : List UInt8) : Decidable (Skipped piece) := inferInstanceAs (Decidable (_ ∨ _))

/-- `readLine` on the text in the buffer. -/
def lineOf (temp : Image) (piece : List UInt8) : Line :=
  if Skipped piece then .skipped
  else match cutAt equals (chomp piece) with
    | none => .missingEquals
    | some (key, value) =>
      if strip isSpace key = [] then .emptyKey
      else .entry (strip isSpace key) (strip isSpace value)
        (shown temp (strip isSpace key) (strip isSpace value))

variable {temp line m : Image} {piece key value file l : List UInt8} {lineNum physical : Nat}

theorem lowercase_text (text : 0 ∉ l) : 0 ∉ toLowercase l := by
  intro mem
  obtain ⟨b, mem, zero⟩ := List.mem_map.mp mem
  split at zero
  case isTrue upper =>
    have := congrArg UInt8.toNat zero
    have le := UInt8.le_iff_toNat_le.mp upper.2
    simp only [UInt8.toNat_add, UInt8.reduceToNat] at this le
    omega
  case isFalse => exact text (zero ▸ mem)

/-- `parse_bool` sees fifteen characters of the value, and nothing of the old buffer. -/
theorem parseBool_eq (text : 0 ∉ l) : parseBool temp l = true ↔
    strip isSpace (toLowercase (l.take 15)) ∈ [chars "true", chars "1", chars "yes"] := by
  have copied : ((temp.strncpy 0 15 l).set 15 1 0).cString 0 16 = some (l.take 15) :=
    Image.cString_strncpy text 15
  obtain ⟨lt, str⟩ := Image.cString_iff.mp copied
  unfold parseBool
  generalize (temp.strncpy 0 15 l).set 15 1 0 = m at str
  have length : (toLowercase (l.take 15)).length = (l.take 15).length := List.length_map _
  have lower : (m.write 0 (toLowercase (l.take 15))).Str 0 (toLowercase (l.take 15)) := by
    refine ⟨Image.holds_append.mpr ⟨Image.holds_write, ?_, trivial⟩, lowercase_text str.text⟩
    rw [Image.write_out (Or.inr (Nat.le_refl _)), length]
    exact str.at_end
  simp only [str.textAt lt]
  have trimmed := (trimString_str (n := 16) lower (by omega)).1
  have short : (strip isSpace (toLowercase (l.take 15))).length < 16 := by
    have le : (strip isSpace (toLowercase (l.take 15))).length ≤ (toLowercase (l.take 15)).length :=
      strip_sublist.length_le
    omega
  rw [trimmed.textAt short]
  simp [or_assoc]

theorem skipped_iff (h : line.Str 0 piece) :
    (line 0 = hash ∨ line 0 = newline) ↔ Skipped piece := by
  cases piece with
  | nil =>
    have ends := h.at_end
    rw [List.length_nil, Nat.add_zero] at ends
    rw [ends]
    decide
  | cons b piece =>
    rw [h.bytes.1, Skipped, List.head?_cons, Option.some.injEq, Option.some.injEq]

/-- The key and the value that the two calls of `trim_string` leave. -/
theorem trimmed_pair (h : line.Str 0 (key ++ equals :: value))
    (lt : (key ++ equals :: value).length < lineSize) :
    let line := line.set key.length 1 0
    let line := trimString line 0 lineSize
    let line := trimString line (key.length + 1) (lineSize - (key.length + 1))
    line.Str 0 (strip isSpace key) ∧ line.Str (key.length + 1) (strip isSpace value) := by
  intro cut trimmed line
  have both := h.split
  rw [Nat.zero_add] at both
  rw [List.length_append, List.length_cons] at lt
  obtain ⟨left, kept⟩ := trimString_str (n := lineSize) both.1 (by omega)
  have rest : trimmed.Str (key.length + 1) value :=
    both.2.congr fun i le _ => kept i (Or.inr (by omega))
  obtain ⟨right, kept'⟩ := trimString_str (n := lineSize - (key.length + 1)) rest (by omega)
  have short : (strip isSpace key).length ≤ key.length := strip_sublist.length_le
  exact ⟨left.congr fun i _ le => kept' i (Or.inl (by omega)), right⟩

theorem chomp_prefix : chomp piece <+: piece := by
  unfold chomp
  cases cut : cutAt newline piece with
  | none => exact List.prefix_refl piece
  | some p =>
    obtain ⟨a, b⟩ := p
    exact ⟨newline :: b, (cutAt_eq_some.mp cut).1.symm⟩

/-- The in-place work of the loop's body comes down to the text of the piece. -/
theorem readLine_eq (h : line.Str 0 piece) (lt : piece.length < lineSize) :
    (readLine temp line).1 = lineOf temp piece := by
  unfold readLine lineOf
  by_cases skip : Skipped piece
  · rw [if_pos ((skipped_iff h).mpr skip), if_pos skip]
  · rw [if_neg (mt (skipped_iff h).mp skip), if_neg skip]
    have ended := h.cut_end (c := newline) lt
    rw [Nat.zero_add, ← chomp] at ended
    have short : (chomp piece).length < lineSize := Nat.lt_of_le_of_lt chomp_prefix.length_le lt
    generalize line.set (line.strcspn 0 lineSize newline) 1 0 = line at ended
    have found := ended.strchr (c := equals) short (by decide)
    cases cut : cutAt equals (chomp piece) with
    | none =>
      rw [cut] at found
      simp only [found, Option.map_none]
    | some p =>
      obtain ⟨key, value⟩ := p
      rw [cut, Option.map_some, Nat.zero_add] at found
      rw [(cutAt_eq_some.mp cut).1] at ended short
      simp only [found]
      obtain ⟨left, right⟩ := trimmed_pair ended short
      rw [List.length_append, List.length_cons] at short
      have shorter : (strip isSpace key).length ≤ key.length := strip_sublist.length_le
      have shorter' : (strip isSpace value).length ≤ value.length := strip_sublist.length_le
      rw [left.strlen (by omega), left.textAt (by omega), right.textAt (by omega)]
      simp only [List.length_eq_zero_iff]
      split <;> rfl

/-- `readLoop` on the texts of the pieces. -/
def records (temp : Image) (lineNum physical : Nat) : List (List UInt8) → List Record
  | [] => []
  | piece :: rest =>
    ⟨lineNum + 1, physical, lineOf temp piece⟩ ::
      records temp (lineNum + 1) (physical + piece.count newline) rest

/-- What an earlier line has left in the buffer does not matter. -/
theorem readLoop_eq {file : List (List UInt8)}
    (text : ∀ piece ∈ file, 0 ∉ piece ∧ piece.length < lineSize) :
    readLoop temp line lineNum physical file = records temp lineNum physical file := by
  induction file generalizing line lineNum physical with
  | nil => rfl
  | cons piece file ih =>
    rw [List.forall_mem_cons] at text
    rw [readLoop, records, ← readLine_eq (Image.str_write text.1.1) text.1.2]
    exact congrArg _ (ih text.2)

theorem readConfigFile_eq (text : 0 ∉ file) : readConfigFile temp line file =
    records temp 0 1 (pieces newline (lineSize - 1) file) := by
  apply readLoop_eq
  intro piece mem
  constructor
  · exact fun zero => text (pieces_subset (by decide) mem zero)
  · exact Nat.lt_of_le_of_lt (pieces_bounds mem).1 (by decide)

end LearnC.Config
