import LearnC.Config.Read

/-! `search_config`: the same pieces, cut with `strtok_r`. -/

namespace LearnC.Config

/-- The body of the loop of `search_config`: the value it prints. -/
def searchLine (line copy : Image) (searchKey : List UInt8) : Option (List UInt8) :=
  if line 0 = hash ∨ line 0 = newline then none
  else
    let copy := copy.strncpy 0 lineSize (line.textAt 0 lineSize)
    match copy.strtokR 0 lineSize equals with
    | (none, _, _) => none
    | (some key, saveptr, copy) =>
      let copy := trimString copy key (lineSize - key)
      if copy.textAt key (lineSize - key) = searchKey then
        match copy.strtokR saveptr (lineSize - saveptr) equals with
        | (none, _, _) => none
        | (some value, _, copy) =>
          let copy := trimString copy value (lineSize - value)
          some (copy.textAt value (lineSize - value))
      else none

/-- The values found, in order; `line_copy` is a new buffer in each round. -/
def searchLoop (line : Image) (copies : Nat → Image) (searchKey : List UInt8) :
    List (List UInt8) → List (List UInt8)
  | [] => []
  | piece :: rest =>
    let line := line.write 0 (piece ++ [0])
    (searchLine line (copies 0) searchKey).toList ++
      searchLoop line (fun i => copies (i + 1)) searchKey rest

def search (line : Image) (copies : Nat → Image) (searchKey file : List UInt8) :
    List (List UInt8) :=
  searchLoop line copies searchKey (pieces newline (lineSize - 1) file)

/-- `search_key` has 100 bytes; without a key the file is not searched. -/
def searchConfig (key line : Image) (copies : Nat → Image) (typed file : List UInt8) :
    Option (List (List UInt8)) :=
  let key := trimString (key.write 0 ((fgets newline 99 typed).1 ++ [0])) 0 100
  if key.strlen 0 100 = 0 then none else some (search line copies (key.textAt 0 100) file)

/-! ## On the text of a piece -/

/-- `searchLine` on the text in the buffer. -/
def valueOf (searchKey piece : List UInt8) : Option (List UInt8) :=
  if Skipped piece then none
  else match token equals piece with
    | none => none
    | some (key, rest) =>
      if strip isSpace key = searchKey then (token equals rest).map fun p => strip isSpace p.1
      else none

variable {line copy m : Image} {copies : Nat → Image} {piece searchKey file typed key : List UInt8}

theorem searchLine_eq (h : line.Str 0 piece) (lt : piece.length < lineSize) :
    searchLine line copy searchKey = valueOf searchKey piece := by
  unfold searchLine valueOf
  by_cases skip : Skipped piece
  · rw [if_pos ((skipped_iff h).mpr skip), if_pos skip]
  · rw [if_neg (mt (skipped_iff h).mp skip), if_neg skip, h.textAt lt]
    have copied : (copy.strncpy 0 lineSize piece).Str 0 piece := Image.str_strncpy h.text lt
    generalize copy.strncpy 0 lineSize piece = copy at copied
    have first := copied.strtokR (c := equals) lt (by decide)
    cases cut : token equals piece with
    | none =>
      rw [cut] at first
      obtain ⟨_, _, eq⟩ := first
      simp only [eq]
    | some p =>
      obtain ⟨key, rest⟩ := p
      rw [cut] at first
      obtain ⟨s, q, copy, eq, _, behind, inside, left, right⟩ := first
      obtain ⟨left, kept⟩ := trimString_str (n := lineSize - s) left (by omega)
      have right := right.congr fun i le _ => kept i (Or.inr (by omega))
      have shorter : (strip isSpace key).length ≤ key.length := strip_sublist.length_le
      simp only [eq]
      rw [left.textAt (by omega)]
      by_cases same : strip isSpace key = searchKey
      · rw [if_pos same, if_pos same]
        generalize trimString copy s (lineSize - s) = copy at right
        have second := right.strtokR (n := lineSize - q) (c := equals) (by omega) (by decide)
        cases cut' : token equals rest with
        | none =>
          rw [cut'] at second
          obtain ⟨_, _, eq'⟩ := second
          simp only [eq', Option.map_none]
        | some p =>
          obtain ⟨value, rest'⟩ := p
          rw [cut'] at second
          obtain ⟨s', q', copy, eq', _, behind', inside', left', _⟩ := second
          have done := (trimString_str (n := lineSize - s') left' (by omega)).1
          have shorter' : (strip isSpace value).length ≤ value.length := strip_sublist.length_le
          simp only [eq']
          rw [done.textAt (by omega)]
          rfl
      · rw [if_neg same, if_neg same]

theorem searchLoop_eq {file : List (List UInt8)}
    (text : ∀ piece ∈ file, 0 ∉ piece ∧ piece.length < lineSize) :
    searchLoop line copies searchKey file = file.filterMap (valueOf searchKey) := by
  induction file generalizing line copies with
  | nil => rfl
  | cons piece file ih =>
    rw [List.forall_mem_cons] at text
    rw [searchLoop, searchLine_eq (Image.str_write text.1.1) text.1.2, ih text.2]
    cases value : valueOf searchKey piece with
    | none => rw [List.filterMap_cons_none value, Option.toList_none, List.nil_append]
    | some v => rw [List.filterMap_cons_some value, Option.toList_some, List.singleton_append]

theorem search_eq (text : 0 ∉ file) : search line copies searchKey file =
    (pieces newline (lineSize - 1) file).filterMap (valueOf searchKey) := by
  apply searchLoop_eq
  intro piece mem
  constructor
  · exact fun zero => text (pieces_subset (by decide) mem zero)
  · exact Nat.lt_of_le_of_lt (pieces_bounds mem).1 (by decide)

/-- The key is what has been typed without the blanks at its ends. -/
theorem searchConfig_eq {m : Image} (text : 0 ∉ typed)
    (ne : strip isSpace (fgets newline 99 typed).1 ≠ []) :
    searchConfig m line copies typed file =
      some (search line copies (strip isSpace (fgets newline 99 typed).1) file) := by
  have text' : 0 ∉ (fgets newline 99 typed).1 := by
    intro mem
    apply text
    rw [← fgets_split (c := newline) (n := 99) (l := typed)]
    exact List.mem_append_left _ mem
  have le : (fgets newline 99 typed).1.length ≤ 99 := fgets_length
  have shorter : (strip isSpace (fgets newline 99 typed).1).length ≤
      (fgets newline 99 typed).1.length := strip_sublist.length_le
  have put : (m.write 0 ((fgets newline 99 typed).1 ++ [0])).Str 0 (fgets newline 99 typed).1 :=
    Image.str_write text'
  have key := (trimString_str (n := 100) put (by omega)).1
  simp only [searchConfig]
  rw [key.strlen (by omega), if_neg, key.textAt (by omega)]
  exact mt List.length_eq_zero_iff.mp ne

end LearnC.Config
