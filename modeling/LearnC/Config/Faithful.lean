import LearnC.Config.Grammar

/-! Which files `read_config_file` reads as the grammar says. -/

namespace LearnC.Config

/-! ## Sequences made line by line -/

section
variable {α β : Type} {made : α → List β} {wanted : α → Option β} {l : List α} {u v : List β}

/-- What is made of a line ends with the value wanted only where it is that value. -/
structure Apart (made : List β) (wanted : Option β) : Prop where
  empty : made = [] ↔ wanted = none
  last : made.getLast? = wanted → made = wanted.toList

/-- Two sequences that are the same from the last line back. -/
theorem aligned (apart : ∀ x ∈ l, Apart (made x) (wanted x))
    (same : u ++ l.flatMap made = v ++ l.filterMap wanted) :
    u = v ∧ ∀ x ∈ l, made x = (wanted x).toList := by
  induction l using List.reverseRecOn with
  | nil => simpa using same
  | append_singleton l x ih =>
    rw [List.forall_mem_append, List.forall_mem_singleton] at apart ⊢
    rw [List.flatMap_append, List.filterMap_append, List.flatMap_singleton,
      ← List.append_assoc, ← List.append_assoc] at same
    cases h : wanted x with
    | none =>
      have nil := apart.2.empty.mpr h
      rw [nil, List.filterMap_cons_none h] at same
      simp only [List.filterMap_nil, List.append_nil] at same
      obtain ⟨eq, all⟩ := ih apart.1 same
      exact ⟨eq, all, nil⟩
    | some e =>
      have some : made x ≠ [] := fun nil => by simp [apart.2.empty.mp nil] at h
      rw [List.filterMap_cons_some h, List.filterMap_nil] at same
      have last := congrArg List.getLast? same
      rw [List.getLast?_append_of_ne_nil _ some, List.getLast?_append, List.getLast?_singleton,
        Option.some_or] at last
      have whole := apart.2.last (last.trans h.symm)
      rw [h, Option.toList_some] at whole
      rw [whole] at same
      obtain ⟨eq, all⟩ := ih apart.1 (List.append_cancel_right same)
      exact ⟨eq, all, whole⟩

theorem flatMap_eq_filterMap (each : ∀ x ∈ l, made x = (wanted x).toList) :
    l.flatMap made = l.filterMap wanted := by
  induction l with
  | nil => rfl
  | cons x l ih =>
    rw [List.forall_mem_cons] at each
    rw [List.flatMap_cons, each.1, ih each.2, List.filterMap_cons]
    cases wanted x <;> rfl

end

variable {temp : Image} {line piece file : List UInt8} {lines before after : List (List UInt8)}

/-- The pairs that are made of the pieces of a line. -/
def pairsOf (line : List UInt8) : List (List UInt8 × List UInt8) :=
  (front line :: rest line).filterMap pairOf

theorem short_line (short : line.length < lineSize) : front line = line ∧ rest line = [] := by
  have le : line.length ≤ lineSize - 1 := Nat.le_pred_of_lt short
  constructor
  · exact List.take_of_length_le le
  · rw [rest, List.drop_of_length_le le, pieces_nil]

theorem pieces_front (ended : Ended newline line ∨ newline ∉ line) (text : line ≠ []) :
    pieces newline (lineSize - 1) line = front line :: rest line := by
  by_cases short : line.length < lineSize
  · obtain ⟨first, none⟩ := short_line short
    rw [first, none]
    exact pieces_fits (by decide) ended text (Nat.le_pred_of_lt short)
  · exact (long_line ended (Nat.le_of_not_lt short)).split

theorem pairsOf_short (short : line.length < lineSize) : pairsOf line = (pairOf line).toList := by
  obtain ⟨first, none⟩ := short_line short
  rw [pairsOf, first, none]
  cases pair : pairOf line with
  | none => rw [List.filterMap_cons_none pair]; rfl
  | some e => rw [List.filterMap_cons_some pair]; rfl

theorem pairsOf_kept (ended : Ended newline line ∨ newline ∉ line) (kept : Kept line) :
    pairsOf line = (pairOf line).toList := by
  by_cases short : line.length < lineSize
  · exact pairsOf_short short
  · have L := long_line ended (Nat.le_of_not_lt short)
    rcases kept with short' | skip | behind
    · exact absurd short' short
    · exact L.pairs_skipped skip
    · exact L.pairs_behind behind

theorem quiet_of_kept (kept : Kept line) : ∀ p ∈ rest line, ¬Warned p := by
  rcases kept with short | skip | behind
  · rw [(short_line short).2]
    exact nofun
  · exact fun p mem warned => warned.1 (skip.1 p mem)
  · obtain ⟨_, second, shown, ⟨a, b, cut, key⟩, parts⟩ := behind
    have entry : ¬Warned second := by
      rintro ⟨_, free | ⟨a', b', cut', nil⟩⟩
      · rw [cutAt_eq_none.mpr free] at cut
        cases cut
      · rw [cut] at cut'
        cases cut'
        exact key nil
    have feed : ¬Warned [newline] := fun warned => warned.1 (Or.inr rfl)
    rcases parts with eq | eq
    · simpa [eq] using entry
    · simpa [eq] using ⟨entry, feed⟩

theorem shown_of_quiet (quiet : ¬Warned piece) : Skipped piece ∨ pairOf piece ≠ none := by
  by_cases skip : Skipped piece
  · exact Or.inl skip
  · right
    intro none
    exact quiet ⟨skip, (pairOf_eq_none.mp none).resolve_left skip⟩

theorem kept_of_quiet (ended : Ended newline line ∨ newline ∉ line)
    (quiet : ∀ p ∈ rest line, ¬Warned p) (same : pairsOf line = (pairOf line).toList) :
    Kept line := by
  by_cases short : line.length < lineSize
  · exact Or.inl short
  · exact Or.inr ((long_line ended (Nat.le_of_not_lt short)).kept
      (fun p mem => shown_of_quiet (quiet p mem)) same)

/-- Behind a line of several pieces the pairs of a line cannot end with the wanted one
and have others. -/
theorem apart_of_quiet (ended : Ended newline line ∨ newline ∉ line)
    (quiet : ∀ p ∈ front line :: rest line, ¬Warned p)
    (comment : line.head? = some hash → pairsOf line = []) :
    Apart (pairsOf line) (pairOf line) := by
  by_cases short : line.length < lineSize
  · rw [pairsOf_short short]
    cases pairOf line with
    | none => exact ⟨by simp, fun _ => rfl⟩
    | some e => exact ⟨by simp, fun _ => rfl⟩
  · have L := long_line ended (Nat.le_of_not_lt short)
    by_cases hidden : Skipped line
    · have none := comment (L.skipped.mp hidden)
      rw [none, pairOf_skipped hidden]
      exact ⟨by simp, fun _ => rfl⟩
    · have shown := mt (L.skipped.trans L.skipped_front.symm).mpr hidden
      have entry := (shown_of_quiet (quiet _ List.mem_cons_self)).resolve_left shown
      cases cut : cutAt equals (front line) with
      | none => exact absurd (pairOf_free (cutAt_eq_none.mp cut)) entry
      | some p =>
        obtain ⟨a, b⟩ := p
        have own := pairOf_cut shown cut
        have whole := pairOf_cut hidden (L.cut cut)
        by_cases key : strip isSpace a = []
        · rw [if_pos key] at own
          exact absurd own entry
        · rw [if_neg key] at own whole
          constructor
          · rw [pairsOf, List.filterMap_cons_some own, whole]
            simp
          · intro last
            rw [pairsOf, List.filterMap_cons_some own] at last ⊢
            by_cases more : (rest line).filterMap pairOf = []
            · rw [more, List.getLast?_singleton] at last
              rw [more, ← last]
              rfl
            · -- The last of them would be one of a later piece.
              rw [List.getLast?_cons_of_ne_nil more, whole] at last
              obtain ⟨p, mem, made⟩ := List.mem_filterMap.mp (List.mem_of_getLast? last)
              have none := later_differs (L.cut cut) hidden rfl mem (made.trans whole.symm)
              rw [whole] at none
              cases none

/-! ## The records of the pieces -/

variable {parts parts' : List (List UInt8)} {lineNum physical i : Nat} {r : Record}

theorem records_append : records temp lineNum physical (parts ++ parts') =
    records temp lineNum physical parts ++ records temp (lineNum + parts.length)
      (physical + parts.flatten.count newline) parts' := by
  induction parts generalizing lineNum physical with
  | nil => rfl
  | cons p parts ih =>
    rw [List.cons_append, records, ih, records, List.cons_append, List.length_cons,
      List.flatten_cons, List.count_append, Nat.add_assoc, Nat.add_assoc,
      Nat.add_comm 1 parts.length]

theorem records_line (mem : r ∈ records temp lineNum physical parts) :
    ∃ p ∈ parts, r.line = lineOf temp p := by
  induction parts generalizing lineNum physical with
  | nil => cases mem
  | cons p parts ih =>
    rw [records, List.mem_cons] at mem
    rcases mem with rfl | mem
    · exact ⟨p, List.mem_cons_self, rfl⟩
    · obtain ⟨q, mem, eq⟩ := ih mem
      exact ⟨q, List.mem_cons_of_mem p mem, eq⟩

theorem line_records (mem : piece ∈ parts) :
    ∃ r ∈ records temp lineNum physical parts, r.line = lineOf temp piece := by
  induction parts generalizing lineNum physical with
  | nil => cases mem
  | cons p parts ih =>
    rw [records]
    cases mem with
    | head => exact ⟨_, List.mem_cons_self, rfl⟩
    | tail _ mem =>
      obtain ⟨r, mem, eq⟩ := ih mem
      exact ⟨r, List.mem_cons_of_mem _ mem, eq⟩

theorem records_pairs (ended : ∀ p ∈ parts, Ended newline p ∨ newline ∉ p) :
    (records temp lineNum physical parts).filterMap (fun r => r.line.pair) =
      parts.filterMap pairOf := by
  induction parts generalizing lineNum physical with
  | nil => rfl
  | cons p parts ih =>
    rw [List.forall_mem_cons] at ended
    rw [records, List.filterMap_cons, List.filterMap_cons, ih ended.2, lineOf_pair ended.1]

theorem count_le_one (ended : Ended newline piece ∨ newline ∉ piece) :
    piece.count newline ≤ 1 := by
  rcases ended with ⟨a, rfl, free⟩ | free
  · simp [List.count_eq_zero_of_not_mem free]
  · rw [List.count_eq_zero_of_not_mem free]
    exact Nat.zero_le 1

/-- Once `line_num` is ahead it stays ahead. -/
theorem records_ahead (ended : ∀ p ∈ parts, Ended newline p ∨ newline ∉ p)
    (ahead : physical ≤ lineNum) (mem : r ∈ records temp lineNum physical parts) :
    r.physical < r.lineNum := by
  induction parts generalizing lineNum physical with
  | nil => cases mem
  | cons p parts ih =>
    rw [List.forall_mem_cons] at ended
    have le := count_le_one ended.1
    rw [records, List.mem_cons] at mem
    rcases mem with rfl | mem
    · exact Nat.lt_succ_of_le ahead
    · exact ih ended.2 (by omega) mem

/-- Then no piece may be warned of. -/
theorem numbers_ahead (ended : ∀ p ∈ parts, Ended newline p ∨ newline ∉ p)
    (ahead : physical ≤ lineNum) :
    Numbered (records temp lineNum physical parts) ↔ ∀ p ∈ parts, ¬Warned p := by
  constructor
  · intro right p mem warned
    obtain ⟨r, mem', eq⟩ :
        ∃ r ∈ records temp lineNum physical parts, r.line = lineOf temp p := line_records mem
    have late := records_ahead ended ahead mem'
    have same := right r mem' (eq ▸ (lineOf_warns (ended p mem)).mpr warned)
    omega
  · intro quiet r mem warns
    obtain ⟨p, mem, eq⟩ := records_line mem
    exact absurd ((lineOf_warns (ended p mem)).mp (eq ▸ warns)) (quiet p mem)

/-- The pieces of some lines. -/
def piecesOf (lines : List (List UInt8)) : List (List UInt8) :=
  lines.flatMap fun line => front line :: rest line

theorem pieces_text :
    pieces newline (lineSize - 1) file = piecesOf (LearnC.lines newline file) := by
  rw [pieces_lines (by decide), piecesOf]
  apply List.flatMap_congr
  intro line mem
  obtain ⟨text, _, ended⟩ := mem_lines mem
  exact pieces_front ended text

theorem Text.tail (T : Text (line :: lines)) : Text lines where
  line := fun l mem => T.line l (List.mem_cons_of_mem line mem)
  ended := fun before l after eq => T.ended (line :: before) l after (by rw [eq]; rfl)

theorem whole_line (ended : Ended newline line ∨ newline ∉ line) (text : line ≠ []) :
    (front line :: rest line).flatten = line := by
  rw [← pieces_front ended text, pieces_flatten (by decide)]

theorem front_parts (ended : Ended newline line ∨ newline ∉ line) (text : line ≠ []) :
    ∀ p ∈ front line :: rest line, p ≠ [] ∧ (Ended newline p ∨ newline ∉ p) := by
  rw [← pieces_front ended text]
  intro p mem
  obtain ⟨a, b, eq⟩ := pieces_part (by decide) mem
  exact ⟨(pieces_bounds mem).2, line_part ended eq⟩

theorem Text.pieces (T : Text lines) : ∀ p ∈ piecesOf lines, Ended newline p ∨ newline ∉ p := by
  intro p mem
  obtain ⟨line, mem, part⟩ := List.mem_flatMap.mp mem
  exact (front_parts (T.line line mem).2 (T.line line mem).1 p part).2

/-- Behind a line that fits `line_num` has the number of the next. -/
theorem records_short (short : line.length < lineSize) :
    records temp lineNum physical (piecesOf (line :: lines)) =
      ⟨lineNum + 1, physical, lineOf temp line⟩ ::
        records temp (lineNum + 1) (physical + line.count newline) (piecesOf lines) := by
  obtain ⟨first, none⟩ := short_line short
  rw [piecesOf, List.flatMap_cons, first, none]
  rfl

/-- Behind the first piece of a line that does not fit it is ahead. -/
theorem records_long (L : Long line) :
    records temp lineNum physical (piecesOf (line :: lines)) =
      ⟨lineNum + 1, physical, lineOf temp (front line)⟩ ::
        records temp (lineNum + 1) physical (rest line ++ piecesOf lines) := by
  rw [piecesOf, List.flatMap_cons, List.cons_append, records,
    List.count_eq_zero_of_not_mem L.free, Nat.add_zero]
  rfl

/-- The numbers in the warnings, from a line on whose number `line_num` has. -/
theorem numbers_level (T : Text lines) (level : lineNum + 1 = physical) :
    Numbered (records temp lineNum physical (piecesOf lines)) ↔
      (∀ line ∈ lines, ∀ p ∈ rest line, ¬Warned p) ∧
        lines.Pairwise fun before line => lineSize ≤ before.length → ¬Warned (front line) := by
  induction lines generalizing lineNum physical with
  | nil => simp [piecesOf, records, Numbered]
  | cons line lines ih =>
    obtain ⟨text, ended⟩ := T.line line List.mem_cons_self
    rw [List.forall_mem_cons, List.pairwise_cons]
    by_cases short : line.length < lineSize
    · have quiet : ∀ p ∈ rest line, ¬Warned p := by
        rw [(short_line short).2]
        simp
      have fits (l : List UInt8) (_ : l ∈ lines) : lineSize ≤ line.length → ¬Warned (front l) :=
        fun long => absurd short (Nat.not_lt_of_le long)
      have next : Numbered (records temp (lineNum + 1) (physical + line.count newline)
          (piecesOf lines)) ↔ (∀ line ∈ lines, ∀ p ∈ rest line, ¬Warned p) ∧
            lines.Pairwise fun before line => lineSize ≤ before.length → ¬Warned (front line) := by
        by_cases last : lines = []
        · subst last
          exact iff_of_true (by simp [Numbered, piecesOf, records]) (by simp)
        · obtain ⟨a, rfl, free⟩ := T.ended [] line lines rfl last
          apply ih T.tail
          simp [List.count_eq_zero_of_not_mem free, level]
      rw [records_short short, Numbered, List.forall_mem_cons, ← Numbered, next,
        and_iff_right fun _ => level, and_iff_right quiet, and_iff_right fits]
    · have L := long_line ended (Nat.le_of_not_lt short)
      have parts : ∀ p ∈ rest line ++ piecesOf lines, Ended newline p ∨ newline ∉ p := by
        rw [List.forall_mem_append]
        exact ⟨fun p mem => (L.parts p mem).2, T.tail.pieces⟩
      rw [records_long L, Numbered, List.forall_mem_cons, ← Numbered,
        numbers_ahead parts (Nat.le_of_eq level.symm), and_iff_right fun _ => level,
        List.forall_mem_append]
      constructor
      · rintro ⟨quiet, others⟩
        have all (l : List UInt8) (mem : l ∈ lines) : ∀ p ∈ front l :: rest l, ¬Warned p :=
          fun p part => others p (List.mem_flatMap.mpr ⟨l, mem, part⟩)
        refine ⟨⟨quiet, fun l mem p part => all l mem p (List.mem_cons_of_mem _ part)⟩,
          fun l mem _ => all l mem _ List.mem_cons_self, ?_⟩
        exact List.pairwise_of_forall_mem_list fun _ _ l mem _ => all l mem _ List.mem_cons_self
      · rintro ⟨⟨quiet, others⟩, fronts, _⟩
        refine ⟨quiet, fun p mem => ?_⟩
        obtain ⟨l, mem', part⟩ := List.mem_flatMap.mp mem
        rcases List.mem_cons.mp part with rfl | part
        · exact fronts l mem' (Nat.le_of_not_lt short)
        · exact others l mem' p part

/-- The pieces of one line have its number. -/
theorem records_physical (text : ∀ p ∈ parts, p ≠ [])
    (ended : Ended newline parts.flatten ∨ newline ∉ parts.flatten)
    (mem : r ∈ records temp lineNum physical parts) : r.physical = physical := by
  induction parts generalizing lineNum with
  | nil => cases mem
  | cons p parts ih =>
    rw [List.forall_mem_cons] at text
    rw [records, List.mem_cons] at mem
    rcases mem with rfl | mem
    · rfl
    · have free : newline ∉ p := by
        intro feed
        obtain ⟨a, b, rfl⟩ := List.append_of_mem feed
        have split :
            ((a ++ newline :: b) :: parts).flatten = a ++ newline :: (b ++ parts.flatten) := by
          simp
        have none := List.flatten_eq_nil_iff.mp (List.append_eq_nil_iff.mp (line_end ended split)).2
        cases parts with
        | nil => cases mem
        | cons q parts => exact text.2 q List.mem_cons_self (none q List.mem_cons_self)
      rw [List.count_eq_zero_of_not_mem free, Nat.add_zero] at mem
      have part : (p :: parts).flatten = p ++ (parts.flatten ++ []) := by simp
      exact ih text.2 (line_part ended part) mem

theorem records_cons (T : Text (line :: lines)) : ∃ next,
    records temp lineNum physical (piecesOf (line :: lines)) =
      records temp lineNum physical (front line :: rest line) ++
        records temp next (physical + 1) (piecesOf lines) := by
  obtain ⟨text, ended⟩ := T.line line List.mem_cons_self
  refine ⟨lineNum + (front line :: rest line).length, ?_⟩
  rw [piecesOf, List.flatMap_cons, ← piecesOf, records_append, whole_line ended text]
  by_cases last : lines = []
  · subst last
    rfl
  · obtain ⟨a, rfl, free⟩ := T.ended [] line lines rfl last
    have one : (a ++ [newline]).count newline = 1 := by
      simp [List.count_eq_zero_of_not_mem free]
    rw [one]

/-- The records of a line have its number. -/
theorem line_physical (T : Text (line :: lines))
    (mem : r ∈ records temp lineNum physical (front line :: rest line)) :
    r.physical = physical + 0 := by
  obtain ⟨text, ended⟩ := T.line line List.mem_cons_self
  apply records_physical (fun p part => (front_parts ended text p part).1) _ mem
  rw [whole_line ended text]
  exact ended

/-- A record is of a piece of the line whose number it has. -/
theorem records_place (T : Text lines) (mem : r ∈ records temp lineNum physical (piecesOf lines)) :
    ∃ i line, lines[i]? = some line ∧ r.physical = physical + i ∧
      ∃ p ∈ front line :: rest line, r.line = lineOf temp p := by
  induction lines generalizing lineNum physical with
  | nil => cases mem
  | cons line lines ih =>
    obtain ⟨next, split⟩ : ∃ next, records temp lineNum physical (piecesOf (line :: lines)) =
        records temp lineNum physical (front line :: rest line) ++
          records temp next (physical + 1) (piecesOf lines) := records_cons T
    rw [split, List.mem_append] at mem
    rcases mem with mem | mem
    · exact ⟨0, line, rfl, line_physical T mem, records_line mem⟩
    · obtain ⟨i, l, at_i, eq, part⟩ := ih T.tail mem
      exact ⟨i + 1, l, at_i, by omega, part⟩

theorem place_records (T : Text lines) (at_line : lines[i]? = some line)
    (part : piece ∈ front line :: rest line) :
    ∃ r ∈ records temp lineNum physical (piecesOf lines),
      r.physical = physical + i ∧ r.line = lineOf temp piece := by
  induction lines generalizing lineNum physical i with
  | nil => cases at_line
  | cons first lines ih =>
    obtain ⟨next, split⟩ : ∃ next, records temp lineNum physical (piecesOf (first :: lines)) =
        records temp lineNum physical (front first :: rest first) ++
          records temp next (physical + 1) (piecesOf lines) := records_cons T
    rw [split]
    cases i with
    | zero =>
      obtain rfl := Option.some.inj at_line
      obtain ⟨r, mem, eq⟩ := line_records part
      exact ⟨r, List.mem_append_left _ mem, line_physical T mem, eq⟩
    | succ i =>
      obtain ⟨r, mem, eq, made⟩ := ih T.tail at_line
      exact ⟨r, List.mem_append_right _ mem, by omega, made⟩

/-- Entries are from comments just where a comment's pieces give pairs. -/
theorem comments_iff (T : Text lines) :
    (∀ r ∈ records temp lineNum 1 (piecesOf lines), r.line.pair ≠ none → ∀ line,
        lines[r.physical - 1]? = some line → line.head? ≠ some hash) ↔
      ∀ line ∈ lines, line.head? = some hash → pairsOf line = [] := by
  have parts (line : List UInt8) (mem : line ∈ lines) :=
    front_parts (T.line line mem).2 (T.line line mem).1
  constructor
  · intro none line mem head
    rw [pairsOf, List.filterMap_eq_nil_iff]
    intro p part
    obtain ⟨i, at_line⟩ := List.mem_iff_getElem?.mp mem
    obtain ⟨r, mem', physical, made⟩ := place_records T at_line part
    by_contra pair
    apply none r mem' _ line _ head
    · rw [made, lineOf_pair (parts line mem p part).2]
      exact pair
    · rwa [physical, Nat.add_sub_cancel_left]
  · intro nothing r mem pair line at_line head
    obtain ⟨i, line', at_i, physical, p, part, made⟩ := records_place T mem
    rw [physical, Nat.add_sub_cancel_left, at_i] at at_line
    obtain rfl := Option.some.inj at_line
    have mem' := List.mem_of_getElem? at_i
    apply pair
    rw [made, lineOf_pair (parts line' mem' p part).2]
    exact List.filterMap_eq_nil_iff.mp (nothing line' mem' head) p part

/-! ## The files read as the grammar says -/

theorem pairs_iff (T : Text lines) :
    (records temp lineNum physical (piecesOf lines)).filterMap (fun r => r.line.pair) =
      lines.flatMap pairsOf := by
  rw [records_pairs T.pieces, piecesOf, List.filterMap_flatMap]
  rfl

/-- Where the pairs are those of the grammar, and nothing is warned of behind the first
line that does not fit, they are so line by line. -/
theorem pairs_each (T : Text lines) (quiet : ∀ line ∈ lines, ∀ p ∈ rest line, ¬Warned p)
    (fronts : lines.Pairwise fun before line => lineSize ≤ before.length → ¬Warned (front line))
    (comments : ∀ line ∈ lines, line.head? = some hash → pairsOf line = [])
    (same : lines.flatMap pairsOf = lines.filterMap pairOf) :
    ∀ line ∈ lines, pairsOf line = (pairOf line).toList := by
  induction lines with
  | nil => exact nofun
  | cons line lines ih =>
    rw [List.forall_mem_cons] at quiet comments ⊢
    rw [List.pairwise_cons] at fronts
    rw [List.flatMap_cons, List.filterMap_cons] at same
    by_cases short : line.length < lineSize
    · refine ⟨pairsOf_short short, ih T.tail quiet.2 fronts.2 comments.2 ?_⟩
      rw [pairsOf_short short] at same
      cases pair : pairOf line with
      | none => simpa [pair] using same
      | some e => simpa [pair] using same
    · have apart : ∀ l ∈ lines, Apart (pairsOf l) (pairOf l) := by
        intro l mem
        apply apart_of_quiet (T.tail.line l mem).2 _ (comments.2 l mem)
        rw [List.forall_mem_cons]
        exact ⟨fronts.1 l mem (Nat.le_of_not_lt short), quiet.2 l mem⟩
      apply aligned apart
      rw [same]
      cases pairOf line <;> rfl

/-- `read_config_file` accepts the pairs of the grammar, numbers its warnings as the lines
are and takes nothing from a comment just where the file is `Tame`. -/
theorem faithful_iff (temp line : Image) (file : List UInt8) (text : 0 ∉ file) :
    Faithful (readConfigFile temp line file) file ↔ Tame file := by
  have T : Text (LearnC.lines newline file) := text_lines
  have level : 0 + 1 = 1 := rfl
  rw [readConfigFile_eq text, pieces_text]
  constructor
  · rintro ⟨pairs, numbers, comments⟩
    rw [pairs_iff T, grammar_eq] at pairs
    obtain ⟨quiet, fronts⟩ := (numbers_level T level).mp numbers
    have each := pairs_each T quiet fronts ((comments_iff T).mp comments) pairs
    exact ⟨fun l mem => kept_of_quiet (T.line l mem).2 (quiet l mem) (each l mem), fronts⟩
  · rintro ⟨kept, fronts⟩
    have each (l : List UInt8) (mem : l ∈ LearnC.lines newline file) :=
      pairsOf_kept (T.line l mem).2 (kept l mem)
    constructor
    · rw [pairs_iff T, grammar_eq]
      exact flatMap_eq_filterMap each
    · exact (numbers_level T level).mpr ⟨fun l mem => quiet_of_kept (kept l mem), fronts⟩
    · rw [comments_iff T]
      intro l mem head
      rw [each l mem, pairOf_skipped (Or.inl head)]
      rfl

/-- A file without long lines is read as the grammar says. -/
theorem tame_of_short (short : ∀ line ∈ LearnC.lines newline file, line.length < lineSize) :
    Tame file := by
  refine ⟨fun line mem => Or.inl (short line mem), ?_⟩
  exact List.pairwise_of_forall_mem_list fun before mem _ _ long =>
    absurd (short before mem) (Nat.not_lt_of_le long)

theorem short_file_faithful :
    Faithful (readConfigFile blank blank (chars "# c\n\nk = v\n")) (chars "# c\n\nk = v\n") :=
  (faithful_iff blank blank _ (by decide)).mpr (tame_of_short (by decide))

/-- A comment of 255 characters and an assignment behind them. -/
def longComment : List UInt8 := hash :: List.replicate 254 120 ++ chars "k=v\n"

/-- The second piece of the comment no longer begins with `#`. -/
theorem comment_accepted : 0 ∉ longComment ∧ grammar longComment = [] ∧
    (readConfigFile blank blank longComment).filterMap (fun r => r.line.pair) =
      [(chars "k", chars "v")] := by
  have text : 0 ∉ longComment := by decide
  refine ⟨text, by decide +kernel, ?_⟩
  have one : lines newline longComment = [longComment] := by decide +kernel
  have T : Text [longComment] := one ▸ text_lines
  have second : rest longComment = [chars "k=v\n"] := by
    have behind : longComment.drop (lineSize - 1) = chars "k=v\n" := by decide
    rw [rest, behind]
    exact pieces_fits (by decide) (Or.inl ⟨chars "k=v", by decide, by decide⟩) (by decide)
      (by decide)
  rw [readConfigFile_eq text, pieces_text, one, pairs_iff T, List.flatMap_singleton, pairsOf,
    second]
  decide

end LearnC.Config
