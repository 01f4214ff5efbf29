import LearnC.Config.Search

/-! The values that `read_config_file` and `search_config` see for one key. -/

namespace LearnC.Config

/-! ## Two ways to read a list -/

section
variable {α β : Type} {f g : α → Option β} {l : List α}

end

/-! ## The values of a key -/

/-- The line gives `key` the value `v` at its first `=`. -/
def Assigns (key v line : List UInt8) : Prop :=
  ¬Skipped line ∧ ∃ a b, cutAt equals line = some (a, b) ∧ strip isSpace a = key ∧
    strip isSpace b = v

/-- The line ends with the `=` behind `key`, without a line feed. -/
def Bare (key line : List UInt8) : Prop :=
  Assigns key [] line ∧ line.getLast? = some equals

variable {temp line' m : Image} {key v line file : List UInt8} {lines : List (List UInt8)}

theorem feed_blank : ∀ b ∈ [newline], isSpace b = true := List.forall_mem_singleton.mpr rfl

/-- Without the line feed there is the same `=`, and less behind it. -/
theorem chomp_cut (ended : Ended newline line ∨ newline ∉ line) : ∃ t,
    (∀ b ∈ t, isSpace b = true) ∧
      cutAt equals line = (cutAt equals (chomp line)).map fun p => (p.1, p.2 ++ t) := by
  rcases ended with ⟨a, rfl, free⟩ | free
  · have text : chomp (a ++ [newline]) = a := by
      rw [chomp, cutAt_append free, Option.map_some, Option.getD_some]
    refine ⟨[newline], feed_blank, ?_⟩
    rw [text, cutAt_append_right (by decide)]
  · have text : chomp line = line := by
      rw [chomp, cutAt_eq_none.mpr free, Option.map_none, Option.getD_none]
    refine ⟨[], by simp, ?_⟩
    rw [text]
    simp

/-- `lineOf` does not depend on whether the line feed is still there. -/
theorem lineOf_eq (ended : Ended newline line ∨ newline ∉ line) : lineOf temp line =
    if Skipped line then .skipped
    else match cutAt equals line with
      | none => .missingEquals
      | some (key, value) =>
        if strip isSpace key = [] then .emptyKey
        else .entry (strip isSpace key) (strip isSpace value)
          (shown temp (strip isSpace key) (strip isSpace value)) := by
  obtain ⟨t, blank, cut⟩ := chomp_cut ended
  rw [lineOf, cut]
  cases cutAt equals (chomp line) with
  | none => rfl
  | some p =>
    obtain ⟨a, b⟩ := p
    simp only [Option.map_some, strip_blank_right blank]

/-- Lines of which only the last may be without its line feed. -/
structure Text (lines : List (List UInt8)) : Prop where
  line : ∀ l ∈ lines, l ≠ [] ∧ (Ended newline l ∨ newline ∉ l)
  ended : ∀ before l after, lines = before ++ l :: after → after ≠ [] → Ended newline l

theorem text_lines : Text (LearnC.lines newline file) where
  line := fun _ mem => ⟨(mem_lines mem).1, (mem_lines mem).2.2⟩
  ended := fun _ _ _ eq ne => lines_ended eq ne

/-- Only the last line can end with the `=`. -/
theorem Text.bare_last (T : Text lines) {before after : List (List UInt8)}
    (eq : lines = before ++ line :: after) (bare : Bare key line) : after = [] := by
  by_contra ne
  obtain ⟨a, rfl, _⟩ := T.ended before line after eq ne
  have last := bare.2
  rw [List.getLast?_append, List.getLast?_singleton] at last
  cases last

theorem Text.filled (T : Text lines) {before : List (List UInt8)} {last : List UInt8}
    (eq : lines = before ++ [last]) (mem : line ∈ before) : ¬Bare key line := by
  intro bare
  obtain ⟨front, rest, rfl⟩ := List.append_of_mem mem
  have whole : lines = front ++ line :: (rest ++ [last]) := by simp [eq]
  have none := T.bare_last whole bare
  simp at none

/-- An empty buffer. -/
def blank : Image := fun _ => 0

end LearnC.Config
