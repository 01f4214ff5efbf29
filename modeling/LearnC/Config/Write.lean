import LearnC.Config.Grammar

/-! `write_config_file`, and what the two readers find in what it writes. -/

namespace LearnC.Config

theorem ends_trimmed (m : List UInt8) :
    (m.head?.all (!isSpace ·) && m.getLast?.all (!isSpace ·)) = true ↔ Trimmed isSpace m := by
  simp only [Bool.and_eq_true, Option.all_eq_true, Bool.not_eq_true']
  exact ⟨fun ends => ⟨ends.1, ends.2⟩, fun trimmed => ⟨trimmed.head, trimmed.last⟩⟩

instance (m : List UInt8) : Decidable (Trimmed isSpace m) :=
  decidable_of_iff _ (ends_trimmed m)

/-- An entry that fits on one line of the file, without blanks at the ends of its two texts. -/
structure Entry where
  key : List UInt8
  value : List UInt8
  named : key ≠ [] := by decide
  shown : key.head? ≠ some hash := by decide
  free : equals ∉ key := by decide
  trimmed : Trimmed isSpace key ∧ Trimmed isSpace value := by decide +kernel
  line : newline ∉ key ∧ newline ∉ value := by decide
  text : 0 ∉ key ∧ 0 ∉ value := by decide
  fits : key.length + value.length + 4 < lineSize := by decide

/-- One `fprintf` of an entry. -/
def Entry.written (e : Entry) : List UInt8 :=
  e.key ++ chars " = " ++ e.value ++ [newline]

/-- The comment in front of the entries. -/
structure Comment where
  text : List UInt8
  line : newline ∉ text := by decide
  ended : 0 ∉ text := by decide
  fits : text.length + 2 < lineSize := by decide

def Comment.written (c : Comment) : List UInt8 := hash :: c.text ++ [newline]

def write (c : Comment) (es : List Entry) : List UInt8 := c.written ++ es.flatMap Entry.written

/-- What stands in front of the second `=` of the line. -/
def Entry.found (e : Entry) : List UInt8 := strip isSpace (e.value.takeWhile (· ≠ equals))

variable {temp line key : Image} {copies : Nat → Image} {e : Entry} {c : Comment}
  {es : List Entry} {lineNum physical : Nat}

theorem chars_equals : chars " = " = [32, equals, 32] := by decide

/-- The line of an entry, at its `=`. -/
theorem Entry.written_cut (e : Entry) :
    e.written = (e.key ++ [32]) ++ equals :: (32 :: e.value ++ [newline]) := by
  rw [Entry.written, chars_equals]
  simp

theorem Entry.cut (e : Entry) :
    cutAt equals e.written = some (e.key ++ [32], 32 :: e.value ++ [newline]) := by
  rw [e.written_cut]
  apply cutAt_append
  rw [List.mem_append, not_or]
  exact ⟨e.free, by decide⟩

theorem Entry.head (e : Entry) : e.written.head? = e.key.head? := by
  obtain ⟨x, rest, eq⟩ := List.exists_cons_of_ne_nil e.named
  simp [Entry.written, eq]

theorem Entry.unskipped (e : Entry) : ¬ Skipped e.written := by
  rw [Skipped, e.head, not_or]
  exact ⟨e.shown, fun feed => e.line.1 (List.mem_of_head? feed)⟩

theorem Entry.ended (e : Entry) : Ended newline e.written := by
  refine ⟨e.key ++ chars " = " ++ e.value, rfl, ?_⟩
  simp only [List.mem_append, not_or, chars_equals]
  exact ⟨⟨e.line.1, by decide⟩, e.line.2⟩

theorem Entry.length (e : Entry) : e.written.length ≤ lineSize - 1 := by
  have fits := e.fits
  simp only [Entry.written, chars_equals, List.length_append, List.length_cons, List.length_nil]
  omega

theorem strip_key (e : Entry) : strip isSpace (e.key ++ [32]) = e.key :=
  strip_eq (u := []) e.trimmed.1 (by simp) (by simp [isSpace])

theorem strip_value (e : Entry) : strip isSpace (32 :: e.value ++ [newline]) = e.value :=
  strip_eq (u := [32]) e.trimmed.2 (by simp [isSpace]) (by simp [isSpace, newline])

theorem Comment.ended_line (c : Comment) : Ended newline c.written :=
  ⟨hash :: c.text, rfl, List.not_mem_cons_of_ne_of_not_mem (by decide) c.line⟩

/-! ## The pieces -/

theorem pieces_entries :
    pieces newline (lineSize - 1) (es.flatMap Entry.written) = es.map Entry.written := by
  induction es with
  | nil => simp
  | cons e es ih =>
    have text : e.written ≠ [] := by simp [Entry.written]
    rw [List.flatMap_cons, pieces_append (by decide) e.ended,
      pieces_fits (by decide) (.inl e.ended) text e.length, ih]
    rfl

theorem pieces_write :
    pieces newline (lineSize - 1) (write c es) = c.written :: es.map Entry.written := by
  have short : c.written.length ≤ lineSize - 1 := by
    have fits := c.fits
    simp only [Comment.written, List.length_append, List.length_cons, List.length_nil]
    omega
  rw [write, pieces_append (by decide) c.ended_line,
    pieces_fits (by decide) (.inl c.ended_line) (by simp [Comment.written]) short, pieces_entries]
  rfl

theorem write_text : 0 ∉ write c es := by
  rw [write, List.mem_append, not_or, List.mem_flatMap]
  constructor
  · have ended := c.ended
    simp [Comment.written, ended, hash, newline]
  · rintro ⟨e, _, zero⟩
    obtain ⟨key, value⟩ := e.text
    simp [Entry.written, chars_equals, key, value, equals, newline] at zero

theorem skipped_comment (c : Comment) : Skipped c.written := .inl rfl

/-! ## What is read -/

theorem lineOf_entry :
    lineOf temp e.written = .entry e.key e.value (shown temp e.key e.value) := by
  rw [lineOf_eq (.inl e.ended), if_neg e.unskipped, e.cut]
  simp only [strip_key, strip_value, e.named, if_false]

theorem records_entries : records temp lineNum physical (es.map Entry.written) =
    es.mapIdx fun i e => ⟨lineNum + i + 1, physical + i, .entry e.key e.value
      (shown temp e.key e.value)⟩ := by
  induction es generalizing lineNum physical with
  | nil => rfl
  | cons e es ih =>
    have one : e.written.count newline = 1 := by
      obtain ⟨a, eq, free⟩ := e.ended
      simp [eq, List.count_eq_zero_of_not_mem free]
    rw [List.map_cons, records, ih, lineOf_entry, one, List.mapIdx_cons]
    congr 2
    funext i e
    congr 1 <;> omega

/-- What `write_config_file` writes is read back: the comment is skipped, and behind it the
entries come in their order, with their line numbers and without a warning. -/
theorem written_read (temp line : Image) (c : Comment) (es : List Entry) :
    readConfigFile temp line (write c es) = ⟨1, 1, .skipped⟩ ::
      es.mapIdx fun i e => ⟨i + 2, i + 2, .entry e.key e.value (shown temp e.key e.value)⟩ := by
  have one : c.written.count newline = 1 := by
    obtain ⟨a, eq, free⟩ := c.ended_line
    simp [eq, List.count_eq_zero_of_not_mem free]
  rw [readConfigFile_eq write_text, pieces_write, records, one, records_entries, lineOf,
    if_pos (skipped_comment c)]
  congr 2
  funext i e
  congr 1 <;> omega

/-! ## What is found -/

theorem value_token (e : Entry) :
    (token equals (32 :: e.value ++ [newline])).map (fun p => strip isSpace p.1) =
      some e.found := by
  have blank : ∀ b ∈ [(32 : UInt8)], isSpace b = true := by simp [isSpace]
  have feed : equals ∉ [newline] := by decide
  have start : token equals (32 :: e.value ++ [newline]) =
      some ((cutAt equals (32 :: e.value ++ [newline])).getD (32 :: e.value ++ [newline], [])) :=
    token_start (by simp) (by simp [equals])
  rw [start, Option.map_some, Entry.found, cutAt_append_right feed]
  congr 1
  cases cut : cutAt equals e.value with
  | none =>
    have free := cutAt_eq_none.mp cut
    have none : cutAt equals (32 :: e.value) = none :=
      cutAt_eq_none.mpr (List.not_mem_cons_of_ne_of_not_mem (by decide) free)
    have whole : e.value.takeWhile (· ≠ equals) = e.value :=
      List.takeWhile_eq_self_iff.mpr fun b mem => by
        have ne : b ≠ equals := fun eq => free (eq ▸ mem)
        simpa using ne
    rw [none, whole, Option.map_none, Option.getD_none, strip_value,
      strip_of_trimmed e.trimmed.2]
  | some p =>
    obtain ⟨a, b⟩ := p
    obtain ⟨eq, free⟩ := cutAt_eq_some.mp cut
    have some : cutAt equals (32 :: e.value) = some (32 :: a, b) := by
      rw [eq, ← List.cons_append]
      exact cutAt_append (List.not_mem_cons_of_ne_of_not_mem (by decide) free)
    have front : e.value.takeWhile (· ≠ equals) = a := by
      rw [eq, List.takeWhile_append_of_pos]
      · simp
      · intro x mem
        have ne : x ≠ equals := fun same => free (same ▸ mem)
        simpa using ne
    rw [some, front, Option.map_some, Option.getD_some]
    exact strip_blank_left blank

theorem valueOf_entry {searchKey : List UInt8} :
    valueOf searchKey e.written = if e.key = searchKey then some e.found else none := by
  have head : e.written.head? ≠ some equals := by
    rw [e.head]
    exact fun first => e.free (List.mem_of_head? first)
  have text : e.written ≠ [] := by simp [Entry.written]
  rw [valueOf, if_neg e.unskipped, token_start text head, e.cut, Option.getD_some]
  simp only [strip_key, value_token]

theorem values_entries {searchKey : List UInt8} :
    (es.map Entry.written).filterMap (valueOf searchKey) =
      (es.filter fun e => e.key = searchKey).map Entry.found := by
  induction es with
  | nil => rfl
  | cons e es ih =>
    rw [List.map_cons, List.filterMap_cons, valueOf_entry, List.filter_cons, ih]
    by_cases same : e.key = searchKey <;> simp [same]

/-- For what has been typed, without the blanks around it, the search finds every entry with
that key in their order, each up to a second `=`. -/
theorem written_found (key line : Image) (copies : Nat → Image) (typed : List UInt8)
    (text : 0 ∉ typed) (named : strip isSpace (fgets newline 99 typed).1 ≠ []) (c : Comment)
    (es : List Entry) : searchConfig key line copies typed (write c es) =
      some ((es.filter fun e => e.key = strip isSpace (fgets newline 99 typed).1).map
        Entry.found) := by
  rw [searchConfig_eq text named, search_eq write_text, pieces_write, List.filterMap_cons,
    values_entries]
  rw [show valueOf _ c.written = none from if_pos (skipped_comment c)]

/-! ## The file of the program -/

/-- `write_config_file`, where the file can be created. -/
def writeConfigFile : List UInt8 :=
  chars "# Sample configuration file\n" ++ chars "server_ip = 192.168.1.100\n" ++
    chars "server_port = 8080\n" ++ chars "timeout = 30\n" ++ chars "debug_mode = true\n" ++
    chars "username = admin\n" ++ chars "welcome_message = Hello, World!\n"

def sample : List Entry :=
  [{ key := chars "server_ip", value := chars "192.168.1.100" },
    { key := chars "server_port", value := chars "8080" },
    { key := chars "timeout", value := chars "30" },
    { key := chars "debug_mode", value := chars "true" },
    { key := chars "username", value := chars "admin" },
    { key := chars "welcome_message", value := chars "Hello, World!" }]

theorem writeConfigFile_eq :
    writeConfigFile = write { text := chars " Sample configuration file" } sample := by
  decide +kernel

theorem timeout_found :
    searchConfig (fun _ => 0) (fun _ => 1) (fun _ _ => 2) (chars " timeout\n") writeConfigFile =
      some [chars "30"] := by
  rw [writeConfigFile_eq,
    written_found _ _ _ (chars " timeout\n") (by decide) (by decide) _ sample]
  decide

end LearnC.Config
