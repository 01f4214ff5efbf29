import LearnC.Config.Read

/-! What the fifteen characters that `parse_bool` copies say about the whole value. -/

namespace LearnC.Config

/-- The words for true. -/
def yesWords : List (List UInt8) := [chars "true", chars "1", chars "yes"]

/-- A word for true, in letters of either case. -/
def YesWord (w : List UInt8) : Prop := toLowercase w ∈ yesWords

/-- `v` is `w` with blanks around it. -/
structure Between (u w s v : List UInt8) : Prop where
  eq : v = u ++ w ++ s
  left : ∀ b ∈ u, isSpace b = true
  right : ∀ b ∈ s, isSpace b = true

/-- The word stands, at least in part, behind the first fifteen characters. -/
def WordCut (v : List UInt8) : Prop :=
  ∃ u w s, Between u w s v ∧ YesWord w ∧ 15 < (u ++ w).length

/-- The first fifteen characters are a word between blanks, and other text follows. -/
def TextBehind (v : List UInt8) : Prop :=
  ∃ u w s t, v = u ++ w ++ s ++ t ∧ Between u w s (u ++ w ++ s) ∧ YesWord w ∧
    (u ++ w ++ s).length = 15 ∧ ∃ b ∈ t, isSpace b = false

variable {temp : Image} {l u v w s t : List UInt8} {b : UInt8}

theorem isSpace_iff : isSpace b = true ↔ b.toNat = 32 ∨ (9 ≤ b.toNat ∧ b.toNat ≤ 13) := by
  simp [isSpace, UInt8.le_iff_toNat_le, ← UInt8.toNat_inj]

/-- Neither a letter nor its lower case is blank. -/
theorem lower_isSpace (b : UInt8) :
    isSpace (if 65 ≤ b ∧ b ≤ 90 then b + 32 else b) = isSpace b := by
  split
  · next upper =>
    rw [UInt8.le_iff_toNat_le, UInt8.le_iff_toNat_le] at upper
    simp only [UInt8.reduceToNat] at upper
    have sum : (b + 32).toNat = b.toNat + 32 := by
      simp only [UInt8.toNat_add, UInt8.reduceToNat]
      omega
    rw [Bool.eq_iff_iff, isSpace_iff, isSpace_iff, sum]
    omega
  · rfl

theorem lower_append : toLowercase (u ++ v) = toLowercase u ++ toLowercase v := List.map_append

theorem lower_blank : (∀ b ∈ toLowercase l, isSpace b = true) ↔ ∀ b ∈ l, isSpace b = true := by
  simp only [toLowercase, List.forall_mem_map, lower_isSpace]

theorem YesWord.text (h : YesWord w) : ∀ b ∈ w, isSpace b = false := by
  intro b hb
  have all : (yesWords.all fun x => x.all fun c => !isSpace c) = true := by decide
  have letters := List.all_eq_true.mp (List.all_eq_true.mp all _ h) _ (List.mem_map_of_mem hb)
  simpa [lower_isSpace] using letters

theorem YesWord.ne_nil (h : YesWord w) : w ≠ [] := by
  rintro rfl
  have no : [] ∉ yesWords := by decide
  exact no h

/-- No word for true goes on from another one. -/
theorem YesWord.prefix_free (h : YesWord w) (h' : YesWord (w ++ t)) : t = [] := by
  have apart : (yesWords.all fun x => yesWords.all fun y => !x.isPrefixOf y || x == y) = true := by
    decide
  have same := List.all_eq_true.mp (List.all_eq_true.mp apart _ h) _ h'
  rw [lower_append, Bool.or_eq_true, Bool.not_eq_true', beq_iff_eq] at same
  cases same with
  | inl no =>
    have yes := List.isPrefixOf_iff_prefix.mpr (List.prefix_append (toLowercase w) (toLowercase t))
    cases no.symm.trans yes
  | inr eq => simpa [toLowercase] using eq

theorem YesWord.trimmed (h : YesWord w) : Trimmed isSpace w :=
  ⟨fun x hx => h.text x (List.mem_of_mem_head? hx), fun x hx => h.text x (List.mem_of_getLast? hx)⟩

theorem Between.strip (h : Between u w s v) (word : YesWord w) : strip isSpace v = w := by
  rw [h.eq]
  exact strip_eq word.trimmed h.left h.right

theorem between_strip (v : List UInt8) : ∃ u s, Between u (LearnC.strip isSpace v) s v := by
  obtain ⟨u, s, eq, left, right⟩ := strip_split isSpace v
  exact ⟨u, s, eq, left, right⟩

/-- Letters are lower-cased before or after the blanks are removed. -/
theorem lower_strip (l : List UInt8) :
    strip isSpace (toLowercase l) = toLowercase (strip isSpace l) := by
  obtain ⟨u, v, eq, left, right⟩ := strip_split isSpace l
  have trimmed := strip_trimmed isSpace l
  conv_lhs => rw [eq, lower_append, lower_append]
  apply strip_eq _ (lower_blank.mpr left) (lower_blank.mpr right)
  constructor
  · intro x hx
    rw [toLowercase, List.head?_map, Option.mem_map] at hx
    obtain ⟨b, hb, rfl⟩ := hx
    rw [lower_isSpace]
    exact trimmed.head b hb
  · intro x hx
    rw [toLowercase, List.getLast?_map, Option.mem_map] at hx
    obtain ⟨b, hb, rfl⟩ := hx
    rw [lower_isSpace]
    exact trimmed.last b hb

/-- `parse_bool` decides on the first fifteen characters. -/
theorem parseBool_iff (text : 0 ∉ v) :
    parseBool temp v = true ↔ YesWord (strip isSpace (v.take 15)) := by
  rw [parseBool_eq text, lower_strip]
  rfl

theorem strip_take (blank : ∀ b ∈ v.drop 15, isSpace b = true) :
    strip isSpace (v.take 15) = strip isSpace v := by
  conv_rhs => rw [← List.take_append_drop 15 v, strip_blank_right blank]

/-- Text behind a word makes another text of it. -/
theorem TextBehind.ne (h : TextBehind v) :
    YesWord (strip isSpace (v.take 15)) ∧ ¬ YesWord (strip isSpace v) := by
  obtain ⟨u, w, s, t, eq, between, word, length, b, hb, text⟩ := h
  have front : v.take 15 = u ++ w ++ s := by rw [eq, ← length, List.take_left]
  have first := between.strip word
  have rest : strip isSpace t ≠ [] := by
    intro nil
    have blank := strip_eq_nil.mp nil b hb
    cases text.symm.trans blank
  rw [front]
  refine ⟨first.symm ▸ word, fun whole => ?_⟩
  obtain ⟨mid, split⟩ := strip_append (first.symm ▸ word.ne_nil) rest
  rw [eq, split, first, List.append_assoc] at whole
  have nil := word.prefix_free whole
  exact rest (List.append_eq_nil_iff.mp nil).2

theorem textBehind_of (front : YesWord (strip isSpace (v.take 15))) (hb : b ∈ v.drop 15)
    (text : isSpace b = false) : TextBehind v := by
  obtain ⟨u, s, between⟩ := between_strip (v.take 15)
  have long := List.length_pos_of_mem hb
  rw [List.length_drop] at long
  refine ⟨u, strip isSpace (v.take 15), s, v.drop 15, ?_, ⟨rfl, between.left, between.right⟩,
    front, ?_, b, hb, text⟩
  · rw [← between.eq, List.take_append_drop]
  · rw [← between.eq, List.length_take]
    omega

/-- What is behind the first fifteen characters of a word with blanks around it. -/
theorem Between.drop (h : Between u w s v) :
    v.drop 15 = (u ++ w).drop 15 ++ s.drop (15 - (u ++ w).length) := by
  rw [h.eq, List.drop_append]

theorem WordCut.text (h : WordCut v) : ∃ b ∈ v.drop 15, isSpace b = false := by
  obtain ⟨u, w, s, between, word, long⟩ := h
  have some : 0 < w.length := List.length_pos_iff.mpr word.ne_nil
  rw [List.length_append] at long
  obtain ⟨b, hb⟩ := List.exists_mem_of_length_pos
    (show 0 < (w.drop (15 - u.length)).length by rw [List.length_drop]; omega)
  refine ⟨b, ?_, word.text b (List.mem_of_mem_drop hb)⟩
  rw [between.drop, List.drop_append]
  simp [hb]

theorem wordCut_of (whole : YesWord (strip isSpace v)) (hb : b ∈ v.drop 15)
    (text : isSpace b = false) : WordCut v := by
  obtain ⟨u, s, between⟩ := between_strip v
  refine ⟨u, strip isSpace v, s, between, whole, ?_⟩
  by_contra short
  rw [between.drop, List.drop_eq_nil_of_le (Nat.le_of_not_lt short), List.nil_append] at hb
  have blank := between.right b (List.mem_of_mem_drop hb)
  cases text.symm.trans blank

/-- A word that is cut is not what is compared. -/
theorem WordCut.ne (h : WordCut v) :
    ¬ YesWord (strip isSpace (v.take 15)) ∧ YesWord (strip isSpace v) := by
  obtain ⟨b, hb, text⟩ := h.text
  obtain ⟨u, w, s, between, word, _⟩ := h
  have whole := between.strip word
  exact ⟨fun front => (textBehind_of front hb text).ne.2 (whole.symm ▸ word), whole.symm ▸ word⟩

/-- A value of at most fifteen characters is copied whole. -/
theorem short_value (short : v.length ≤ 15) : ¬ WordCut v ∧ ¬ TextBehind v := by
  constructor
  · intro cut
    obtain ⟨b, hb, _⟩ := cut.text
    rw [List.drop_eq_nil_of_le short] at hb
    cases hb
  · rintro ⟨u, w, s, t, eq, _, _, length, b, hb, _⟩
    have some := List.length_pos_of_mem hb
    rw [eq, List.length_append] at short
    omega

/-- `parse_bool` decides on the whole value exactly when no word for true is cut by the
copy of fifteen characters, and none is all that the copy keeps of a longer text. -/
theorem parse_bool_whole_iff (temp : Image) (v : List UInt8) (ascii : ∀ b ∈ v, 0 < b ∧ b < 128) :
    (parseBool temp v = true ↔ toLowercase (strip isSpace v) ∈ yesWords) ↔
      ¬ WordCut v ∧ ¬ TextBehind v := by
  have text : 0 ∉ v := fun mem => absurd (ascii 0 mem).1 (by decide)
  rw [parseBool_iff text]
  constructor
  · intro same
    constructor
    · intro cut
      exact cut.ne.1 (same.mpr cut.ne.2)
    · intro behind
      exact behind.ne.2 (same.mp behind.ne.1)
  · rintro ⟨noCut, noText⟩
    by_cases blank : ∀ b ∈ v.drop 15, isSpace b = true
    · rw [strip_take blank]
      exact Iff.rfl
    · simp only [not_forall, Bool.not_eq_true] at blank
      obtain ⟨b, hb, text⟩ := blank
      exact iff_of_false (fun front => noText (textBehind_of front hb text))
        fun whole => noCut (wordCut_of whole hb text)

/-- Fifteen blanks hide the word. -/
theorem blanks_hide_word :
    toLowercase (strip isSpace (List.replicate 15 32 ++ chars "1")) ∈ yesWords ∧
      parseBool (fun _ => 0) (List.replicate 15 32 ++ chars "1") = false := by
  decide

theorem yes_value_whole :
    parseBool (fun _ => 0) (chars " Yes ") = true ↔
      toLowercase (strip isSpace (chars " Yes ")) ∈ yesWords :=
  (parse_bool_whole_iff (fun _ => 0) (chars " Yes ")
    (List.forall_iff_forall_mem.mp (by decide))).mpr (short_value (by decide))

end LearnC.Config
