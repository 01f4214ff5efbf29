import LearnC.Config.Readers

/-! The pairs that `read_config_file` accepts, against the grammar of the file's lines. -/

namespace LearnC.Config

/-- The pair of a line of the file, given without its line feed. -/
def grammarLine (line : List UInt8) : Option (List UInt8 × List UInt8) :=
  if line = [] ∨ line.head? = some hash then none
  else match cutAt equals line with
    | none => none
    | some (key, value) =>
      if strip isSpace key = [] then none else some (strip isSpace key, strip isSpace value)

def grammar (file : List UInt8) : List (List UInt8 × List UInt8) :=
  (file.splitOn newline).filterMap grammarLine

def Line.pair : Line → Option (List UInt8 × List UInt8)
  | .entry key value _ => some (key, value)
  | _ => none

/-- The two lines that are warned of. -/
def Line.Warns (line : Line) : Prop := line = .missingEquals ∨ line = .emptyKey

/-- Each warning has the number of its line. -/
def Numbered (records : List Record) : Prop :=
  ∀ r ∈ records, r.line.Warns → r.lineNum = r.physical

/-- The accepted pairs are those of the grammar, each warning has the number of its line,
and no entry is from a comment. -/
structure Faithful (records : List Record) (file : List UInt8) : Prop where
  pairs : records.filterMap (fun r => r.line.pair) = grammar file
  numbers : Numbered records
  comments : ∀ r ∈ records, r.line.pair ≠ none → ∀ line,
    (lines newline file)[r.physical - 1]? = some line → line.head? ≠ some hash

/-- The line has an `=`, with nothing in front of it. -/
def BlankKey (line : List UInt8) : Prop :=
  ∃ a b, cutAt equals line = some (a, b) ∧ strip isSpace a = []

/-- The line has an `=`, with a key in front of it. -/
def HasKey (line : List UInt8) : Prop :=
  ∃ a b, cutAt equals line = some (a, b) ∧ strip isSpace a ≠ []

/-- The part of a line that fills the buffer. -/
def front (line : List UInt8) : List UInt8 := line.take (lineSize - 1)

/-- The pieces in which the rest of the line is read. -/
def rest (line : List UInt8) : List (List UInt8) :=
  pieces newline (lineSize - 1) (line.drop (lineSize - 1))

/-- All that is behind the first piece is skipped, and the line lost nothing by that. -/
def RestSkipped (line : List UInt8) : Prop :=
  (∀ p ∈ rest line, Skipped p) ∧ (line.head? = some hash ∨ equals ∉ line ∨
    BlankKey (front line) ∨ line.drop (lineSize - 1) = [newline])

/-- The first piece is blank, and the entry stands in the second. -/
def EntryBehind (line : List UInt8) : Prop :=
  (∀ b ∈ front line, isSpace b = true) ∧ ∃ second, ¬Skipped second ∧ HasKey second ∧
    (rest line = [second] ∨ rest line = [second, [newline]])

/-- The line is read in one piece, or the pieces give no other entry and no warning. -/
def Kept (line : List UInt8) : Prop :=
  line.length < lineSize ∨ RestSkipped line ∨ EntryBehind line

def Warned (piece : List UInt8) : Prop :=
  ¬Skipped piece ∧ (equals ∉ piece ∨ BlankKey piece)

/-- Every line is `Kept`, and behind one that takes several pieces no line is warned of. -/
def Tame (file : List UInt8) : Prop :=
  (∀ line ∈ lines newline file, Kept line) ∧
    (lines newline file).Pairwise fun before line =>
      lineSize ≤ before.length → ¬Warned (front line)

/-! ## The pair of a piece -/

/-- The pair of a line or a piece, with or without its line feed. -/
def pairOf (piece : List UInt8) : Option (List UInt8 × List UInt8) :=
  if Skipped piece then none
  else match cutAt equals piece with
    | none => none
    | some (key, value) =>
      if strip isSpace key = [] then none else some (strip isSpace key, strip isSpace value)

variable {temp : Image} {line piece file u v a b : List UInt8}

theorem pairOf_skipped (skip : Skipped piece) : pairOf piece = none := if_pos skip

theorem pairOf_free (free : equals ∉ piece) : pairOf piece = none := by
  unfold pairOf
  rw [cutAt_eq_none.mpr free]
  split <;> rfl

theorem pairOf_cut (shown : ¬Skipped piece) (cut : cutAt equals piece = some (a, b)) :
    pairOf piece = if strip isSpace a = [] then none
      else some (strip isSpace a, strip isSpace b) := by
  rw [pairOf, if_neg shown, cut]

theorem pairOf_blankKey (blank : BlankKey piece) : pairOf piece = none := by
  obtain ⟨a, b, cut, nil⟩ := blank
  by_cases skip : Skipped piece
  · exact pairOf_skipped skip
  · rw [pairOf_cut skip cut, if_pos nil]

/-- A piece without a pair is skipped or warned of. -/
theorem pairOf_eq_none : pairOf piece = none ↔
    Skipped piece ∨ equals ∉ piece ∨ BlankKey piece := by
  constructor
  · intro none
    by_cases skip : Skipped piece
    · exact Or.inl skip
    · cases cut : cutAt equals piece with
      | none => exact Or.inr (Or.inl (cutAt_eq_none.mp cut))
      | some p =>
        obtain ⟨a, b⟩ := p
        rw [pairOf_cut skip cut] at none
        split at none
        case isTrue nil => exact Or.inr (Or.inr ⟨a, b, cut, nil⟩)
        case isFalse => cases none
  · rintro (skip | free | blank)
    · exact pairOf_skipped skip
    · exact pairOf_free free
    · exact pairOf_blankKey blank

theorem lineOf_pair (ended : Ended newline piece ∨ newline ∉ piece) :
    (lineOf temp piece).pair = pairOf piece := by
  rw [lineOf_eq ended, pairOf]
  split
  · rfl
  · cases cutAt equals piece with
    | none => rfl
    | some p =>
      obtain ⟨a, b⟩ := p
      simp only
      split <;> rfl

theorem lineOf_warns (ended : Ended newline piece ∨ newline ∉ piece) :
    (lineOf temp piece).Warns ↔ Warned piece := by
  rw [lineOf_eq ended, Line.Warns, Warned]
  by_cases skip : Skipped piece
  · simp [skip]
  · rw [if_neg skip]
    cases cut : cutAt equals piece with
    | none => simp [skip, cutAt_eq_none.mp cut]
    | some p =>
      obtain ⟨a, b⟩ := p
      have mem : equals ∈ piece := by
        rw [(cutAt_eq_some.mp cut).1]
        simp
      by_cases nil : strip isSpace a = []
      · simp [nil, skip, BlankKey, cut]
      · simp [nil, mem, BlankKey, cut]

theorem grammarLine_eq (free : newline ∉ a) (ends : b = [] ∨ b = [newline]) :
    grammarLine a = pairOf (a ++ b) := by
  cases a with
  | nil => rcases ends with rfl | rfl <;> rfl
  | cons x a =>
    rw [List.mem_cons, not_or] at free
    have blank : ∀ y ∈ b, isSpace y = true := by
      rcases ends with rfl | rfl
      · exact nofun
      · exact feed_blank
    have none : equals ∉ b := by rcases ends with rfl | rfl <;> decide
    have skips : Skipped (x :: a ++ b) ↔ x = hash := by
      simp [Skipped, Ne.symm free.1]
    rw [grammarLine, pairOf, cutAt_append_right none]
    simp only [skips, reduceCtorEq, List.head?_cons, Option.some.injEq, false_or]
    congr 1
    cases cutAt equals (x :: a) with
    | none => rfl
    | some p => simp only [Option.map_some, strip_blank_right blank]

theorem grammar_eq : grammar file = (lines newline file).filterMap pairOf := by
  rw [grammar]
  induction file using line_induction (c := newline) with
  | nil => rfl
  | last a free ne =>
    rw [List.splitOn_eq_singleton free, lines_last free ne, List.filterMap_cons,
      List.filterMap_cons, grammarLine_eq free (Or.inl rfl), List.append_nil]
    rfl
  | line a b free ih =>
    rw [List.splitOn_append_cons_self, List.splitOn_eq_singleton free, List.singleton_append,
      lines_append free, List.filterMap_cons, List.filterMap_cons,
      grammarLine_eq free (Or.inr rfl), ih]

/-! ## A line in pieces -/

/-- A line that does not fit is one full piece and what is behind it. -/
structure Long (line : List UInt8) : Prop where
  split : pieces newline (lineSize - 1) line = front line :: rest line
  whole : line = front line ++ (rest line).flatten
  ended : Ended newline line ∨ newline ∉ line
  free : newline ∉ front line
  text : front line ≠ []
  more : rest line ≠ []
  parts : ∀ p ∈ rest line, p ≠ [] ∧ (Ended newline p ∨ newline ∉ p)

theorem long_line (ended : Ended newline line ∨ newline ∉ line) (long : lineSize ≤ line.length) :
    Long line := by
  have room : lineSize - 1 ≠ 0 := by decide
  have fits : lineSize - 1 < line.length := Nat.lt_of_lt_of_le (by decide) long
  have text : line ≠ [] := List.length_pos_iff.mp (Nat.lt_of_lt_of_le (by decide) long)
  have cut : line = front line ++ (rest line).flatten := by
    rw [rest, pieces_flatten room, front, List.take_append_drop]
  refine ⟨?_, cut, ended, ?_, ?_, ?_, ?_⟩
  · rw [pieces_cons text room, fgets_long ended fits]
    rfl
  · exact take_free ended fits
  · exact fun nil => text (List.take_eq_nil_iff.mp nil |>.resolve_left room)
  · intro none
    have short := congrArg List.length cut
    rw [none, List.flatten_nil, List.append_nil, front, List.length_take] at short
    omega
  · intro p mem
    obtain ⟨a, b, eq⟩ := pieces_part room mem
    refine ⟨(pieces_bounds mem).2, line_part ended (a := line.take (lineSize - 1) ++ a) (b := b) ?_⟩
    rw [List.append_assoc, ← eq, List.take_append_drop]

theorem Long.last (L : Long line) {x y : List UInt8} (eq : line = x ++ newline :: y) : y = [] :=
  line_end L.ended eq

theorem Long.skipped_front (L : Long line) : Skipped (front line) ↔ line.head? = some hash := by
  have head : line.head? = (front line).head? := by
    conv_lhs => rw [L.whole, List.head?_append_of_ne_nil _ L.text]
  rw [head, Skipped, or_iff_left]
  exact fun first => L.free (List.mem_of_head? first)

theorem Long.skipped (L : Long line) : Skipped line ↔ line.head? = some hash := by
  have head : line.head? = (front line).head? := by
    conv_lhs => rw [L.whole, List.head?_append_of_ne_nil _ L.text]
  rw [Skipped, or_iff_left]
  rw [head]
  exact fun first => L.free (List.mem_of_head? first)

theorem Long.cut (L : Long line) (cut : cutAt equals (front line) = some (a, b)) :
    cutAt equals line = some (a, b ++ (rest line).flatten) := by
  obtain ⟨eq, free⟩ := cutAt_eq_some.mp cut
  rw [cutAt_eq_some]
  refine ⟨?_, free⟩
  conv_lhs => rw [L.whole, eq]
  simp

theorem Long.feed (L : Long line) {before after : List (List UInt8)}
    (eq : rest line = before ++ piece :: after) (skip : Skipped piece)
    (blank : ∀ b ∈ piece, isSpace b = true) :
    piece = [newline] ∧ after = [] := by
  rcases skip with head | head
  · have := blank hash (List.mem_of_head? head)
    cases this
  · obtain ⟨tail, rfl⟩ := List.head?_eq_some_iff.mp head
    have whole : line = (front line ++ before.flatten) ++ newline :: (tail ++ after.flatten) := by
      conv_lhs => rw [L.whole, eq]
      simp
    obtain ⟨rfl, none⟩ := List.append_eq_nil_iff.mp (L.last whole)
    refine ⟨rfl, List.eq_nil_iff_forall_not_mem.mpr fun p mem => ?_⟩
    have nil := List.flatten_eq_nil_iff.mp none p mem
    exact (L.parts p (by simp [eq, mem])).1 nil

theorem Long.feeds (L : Long line) {before pieces : List (List UInt8)}
    (eq : rest line = before ++ pieces) (skip : ∀ p ∈ pieces, Skipped p)
    (blank : ∀ b ∈ pieces.flatten, isSpace b = true) :
    pieces = [] ∨ pieces = [[newline]] := by
  cases pieces with
  | nil => exact Or.inl rfl
  | cons p after =>
    rw [List.forall_mem_cons] at skip
    obtain ⟨rfl, rfl⟩ := L.feed eq skip.1 fun b mem => blank b (by simp [mem])
    exact Or.inr rfl

theorem Long.pairOf_front (L : Long line) (skip : RestSkipped line) :
    pairOf (front line) = pairOf line := by
  rcases skip.2 with comment | free | blank | feed
  · rw [pairOf_skipped (L.skipped_front.mpr comment), pairOf_skipped (L.skipped.mpr comment)]
  · have free' : equals ∉ front line := fun mem => free (by rw [L.whole]; simp [mem])
    rw [pairOf_free free, pairOf_free free']
  · obtain ⟨a, b, cut, nil⟩ := blank
    rw [pairOf_blankKey ⟨a, b, cut, nil⟩, pairOf_blankKey ⟨a, _, L.cut cut, nil⟩]
  · have flat : (rest line).flatten = [newline] := by rw [rest, pieces_flatten (by decide), feed]
    have same : Skipped (front line) ↔ Skipped line := L.skipped_front.trans L.skipped.symm
    by_cases hidden : Skipped line
    · rw [pairOf_skipped hidden, pairOf_skipped (same.mpr hidden)]
    · cases cut : cutAt equals (front line) with
      | none =>
        have free := cutAt_eq_none.mp cut
        have free' : equals ∉ line := by
          rw [L.whole, flat, List.mem_append, not_or]
          exact ⟨free, by decide⟩
        rw [pairOf_free free, pairOf_free free']
      | some p =>
        obtain ⟨a, b⟩ := p
        have blank : ∀ b ∈ (rest line).flatten, isSpace b = true := by
          rw [flat]
          exact feed_blank
        rw [pairOf_cut (mt same.mp hidden) cut, pairOf_cut hidden (L.cut cut),
          strip_blank_right blank]

theorem Long.pairs_skipped (L : Long line) (skip : RestSkipped line) :
    (front line :: rest line).filterMap pairOf = (pairOf line).toList := by
  have none : (rest line).filterMap pairOf = [] :=
    List.filterMap_eq_nil_iff.mpr fun p mem => pairOf_skipped (skip.1 p mem)
  rw [List.filterMap_cons, none, L.pairOf_front skip]
  cases pairOf line <;> rfl

theorem Long.pairs_behind (L : Long line) (behind : EntryBehind line) :
    (front line :: rest line).filterMap pairOf = (pairOf line).toList := by
  obtain ⟨blank, second, shown, ⟨a, b, cut, key⟩, parts⟩ := behind
  have free : equals ∉ front line := by
    intro mem
    have := blank equals mem
    cases this
  have feed_skipped : pairOf [newline] = none := rfl
  -- Behind the second piece there is at most the line feed.
  obtain ⟨t, t_blank, t_free, flat, made⟩ : ∃ t, (∀ b ∈ t, isSpace b = true) ∧ equals ∉ t ∧
      (rest line).flatten = second ++ t ∧
      (rest line).filterMap pairOf = (pairOf second).toList := by
    rcases parts with eq | eq
    · refine ⟨[], nofun, nofun, by simp [eq], ?_⟩
      rw [eq, List.filterMap_cons]
      cases pairOf second <;> rfl
    · refine ⟨[newline], feed_blank, by decide, by simp [eq], ?_⟩
      rw [eq, List.filterMap_cons, List.filterMap_cons, feed_skipped]
      cases pairOf second <;> rfl
  have whole : cutAt equals line = some (front line ++ a, b ++ t) := by
    obtain ⟨eq, before⟩ := cutAt_eq_some.mp cut
    rw [cutAt_eq_some]
    constructor
    · conv_lhs => rw [L.whole, flat, eq]
      simp
    · rw [List.mem_append, not_or]
      exact ⟨free, before⟩
  have shown' : ¬Skipped line := by
    rw [L.skipped]
    intro head
    rw [L.whole, List.head?_append_of_ne_nil _ L.text] at head
    have := blank hash (List.mem_of_head? head)
    cases this
  rw [List.filterMap_cons, pairOf_free free, made, pairOf_cut shown cut, pairOf_cut shown' whole,
    strip_blank_left blank, strip_blank_right t_blank]

theorem count_pair {e : List UInt8 × List UInt8} (h : pairOf piece = some e) :
    piece.count equals = e.2.count equals + 1 := by
  have shown : ¬Skipped piece := fun skip => by simp [pairOf_skipped skip] at h
  cases cut : cutAt equals piece with
  | none => simp [pairOf_free (cutAt_eq_none.mp cut)] at h
  | some p =>
    obtain ⟨a, b⟩ := p
    rw [pairOf_cut shown cut] at h
    split at h
    · cases h
    · obtain rfl := Option.some.inj h
      obtain ⟨rfl, free⟩ := cutAt_eq_some.mp cut
      rw [List.count_append, List.count_eq_zero_of_not_mem free, List.count_cons_self, Nat.zero_add,
        count_strip (by decide)]

/-- No later piece has the entry of the whole line. -/
theorem later_differs (cut : cutAt equals line = some (u, v)) (shown : ¬Skipped line)
    {after : List (List UInt8)} (eq : v = b ++ after.flatten) (mem : piece ∈ after)
    (h : pairOf piece = pairOf line) : pairOf line = none := by
  rw [pairOf_cut shown cut] at h ⊢
  split
  · rfl
  case isFalse key =>
    rw [if_neg key] at h
    have count := count_pair h
    rw [count_strip (by decide), eq, List.count_append] at count
    have le := (List.sublist_flatten_of_mem mem).count_le equals
    omega

/-- The piece with the first `=` of a line that has none in its first piece. -/
theorem Long.first_equals (L : Long line) (free : equals ∉ front line)
    (cut : cutAt equals line = some (u, v)) : ∃ before second after a b,
      rest line = before ++ second :: after ∧ (∀ p ∈ before, equals ∉ p) ∧
      cutAt equals second = some (a, b) ∧ u = front line ++ before.flatten ++ a ∧
      v = b ++ after.flatten := by
  obtain ⟨eq, before_free⟩ := cutAt_eq_some.mp cut
  have some : ((rest line).find? fun p => decide (equals ∈ p)).isSome := by
    rw [List.find?_isSome]
    have mem : equals ∈ front line ++ (rest line).flatten := by
      rw [← L.whole, eq]
      simp
    obtain ⟨p, mem, has⟩ := List.mem_flatten.mp ((List.mem_append.mp mem).resolve_left free)
    exact ⟨p, mem, by simpa using has⟩
  obtain ⟨second, found⟩ := Option.isSome_iff_exists.mp some
  obtain ⟨has, before, after, parts, none⟩ := List.find?_eq_some_iff_append.mp found
  simp only [decide_eq_true_eq] at has
  simp only [Bool.not_eq_eq_eq_not, Bool.not_true, decide_eq_false_iff_not] at none
  cases cut' : cutAt equals second with
  | none => exact absurd has (cutAt_eq_none.mp cut')
  | some p =>
    obtain ⟨a, b⟩ := p
    obtain ⟨eq', free'⟩ := cutAt_eq_some.mp cut'
    have whole : line = (front line ++ before.flatten ++ a) ++ equals :: (b ++ after.flatten) := by
      conv_lhs => rw [L.whole, parts, eq']
      simp
    have all_free : equals ∉ front line ++ before.flatten ++ a := by
      simp only [List.mem_append, List.mem_flatten, not_or, not_exists, not_and]
      exact ⟨⟨free, none⟩, free'⟩
    have same := cutAt_eq_some.mpr ⟨whole, all_free⟩
    rw [cut] at same
    cases same
    exact ⟨before, second, after, a, b, parts, none, cut', rfl, rfl⟩

theorem Long.shown (L : Long line) {before after : List (List UInt8)}
    (parts : rest line = before ++ piece :: after) (cut : cutAt equals piece = some (a, b))
    (blank : ∀ x ∈ a, isSpace x = true) : ¬Skipped piece := by
  obtain ⟨eq, _⟩ := cutAt_eq_some.mp cut
  rintro (head | head)
  · rw [eq] at head
    cases a with
    | nil => cases head
    | cons x a =>
      obtain rfl := Option.some.inj head
      cases blank hash List.mem_cons_self
  · obtain ⟨tail, rfl⟩ := List.head?_eq_some_iff.mp head
    have whole : line = (front line ++ before.flatten) ++ newline :: (tail ++ after.flatten) := by
      conv_lhs => rw [L.whole, parts]
      simp
    obtain ⟨rfl, _⟩ := List.append_eq_nil_iff.mp (L.last whole)
    cases cut

theorem all_skipped {parts : List (List UInt8)}
    (quiet : ∀ p ∈ parts, Skipped p ∨ pairOf p ≠ none) (none : parts.filterMap pairOf = []) :
    ∀ p ∈ parts, Skipped p :=
  fun p mem => (quiet p mem).resolve_right (not_not_intro (List.filterMap_eq_nil_iff.mp none p mem))

theorem Long.kept_front (L : Long line) (quiet : ∀ p ∈ rest line, Skipped p ∨ pairOf p ≠ none)
    (same : (front line :: rest line).filterMap pairOf = (pairOf line).toList)
    (shown : ¬Skipped line) (cut : cutAt equals (front line) = some (a, b))
    (key : strip isSpace a ≠ []) : RestSkipped line := by
  have own := pairOf_cut (mt (L.skipped.trans L.skipped_front.symm).mpr shown) cut
  rw [if_neg key] at own
  rw [List.filterMap_cons_some own, pairOf_cut shown (L.cut cut), if_neg key, Option.toList_some,
    List.cons.injEq] at same
  have skip := all_skipped quiet same.2
  have value : strip isSpace (b ++ (rest line).flatten) = strip isSpace b :=
    (congrArg Prod.snd same.1).symm
  have parts : rest line = [] ++ rest line := rfl
  rcases L.feeds parts skip (blank_of_strip_right value) with none | feed
  · exact absurd none L.more
  · refine ⟨skip, Or.inr (Or.inr (Or.inr ?_))⟩
    have flat : (rest line).flatten = line.drop (lineSize - 1) := pieces_flatten (by decide)
    rw [← flat, feed]
    rfl

/-- The piece with the first `=` has an entry: else that of the line would be one of a
later piece. -/
theorem Long.second_pair (L : Long line) {before after : List (List UInt8)}
    (parts : rest line = before ++ piece :: after) (cut' : cutAt equals piece = some (a, b))
    (cut : cutAt equals line = some (front line ++ before.flatten ++ a, b ++ after.flatten))
    (shown : ¬Skipped line) (quiet : Skipped piece ∨ pairOf piece ≠ none)
    (same : (piece :: after).filterMap pairOf = (pairOf line).toList) : pairOf piece ≠ none := by
  intro own
  have hidden : Skipped piece := quiet.resolve_right (not_not_intro own)
  rw [List.filterMap_cons_none own] at same
  cases pair : pairOf line with
  | none =>
    rw [pairOf_cut shown cut] at pair
    split at pair
    case isTrue nil =>
      have blank := strip_eq_nil.mp nil
      exact L.shown parts cut' (fun x mem => blank x (by simp [mem])) hidden
    case isFalse => cases pair
  | some e =>
    rw [pair] at same
    have found : e ∈ after.filterMap pairOf := by simp [same]
    obtain ⟨p, mem, made⟩ := List.mem_filterMap.mp found
    have none := later_differs cut shown rfl mem (made.trans pair.symm)
    rw [pair] at none
    cases none

theorem Long.nothing_before (L : Long line) {before after : List (List UInt8)}
    (parts : rest line = before ++ piece :: after) (frees : ∀ p ∈ before, equals ∉ p)
    (quiet : ∀ p ∈ rest line, Skipped p ∨ pairOf p ≠ none)
    (blank : ∀ x ∈ before.flatten, isSpace x = true) : before = [] := by
  cases before with
  | nil => rfl
  | cons p before =>
    have skip := (quiet p (by simp [parts])).resolve_right
      (not_not_intro (pairOf_free (frees p List.mem_cons_self)))
    have parts : rest line = [] ++ p :: (before ++ piece :: after) := parts
    have last := (L.feed parts skip fun x mem => blank x (by simp [mem])).2
    simp at last

theorem Long.kept_behind (L : Long line) (quiet : ∀ p ∈ rest line, Skipped p ∨ pairOf p ≠ none)
    (same : (front line :: rest line).filterMap pairOf = (pairOf line).toList)
    (shown : ¬Skipped line) (free : equals ∉ front line)
    (cut : cutAt equals line = some (u, v)) : EntryBehind line := by
  obtain ⟨before, second, after, a, b, parts, frees, cut', rfl, rfl⟩ := L.first_equals free cut
  have earlier : before.filterMap pairOf = [] :=
    List.filterMap_eq_nil_iff.mpr fun p mem => pairOf_free (frees p mem)
  rw [List.filterMap_cons_none (pairOf_free free), parts, List.filterMap_append, earlier,
    List.nil_append] at same
  have speaks := L.second_pair parts cut' cut shown (quiet second (by simp [parts])) same
  obtain ⟨e, own⟩ := Option.ne_none_iff_exists'.mp speaks
  rw [List.filterMap_cons_some own] at same
  cases pair : pairOf line with
  | none =>
    rw [pair] at same
    cases same
  | some e' =>
    rw [pair, Option.toList_some, List.cons.injEq] at same
    obtain ⟨rfl, none⟩ := same
    have shown' : ¬Skipped second := fun skip => by simp [pairOf_skipped skip] at own
    rw [pairOf_cut shown' cut'] at own
    rw [pairOf_cut shown cut] at pair
    split at own
    case isTrue => cases own
    case isFalse key =>
      split at pair
      case isTrue => cases pair
      case isFalse =>
        have both := own.trans pair.symm
        rw [Option.some.injEq, Prod.mk.injEq] at both
        have blank := blank_of_strip_left both.1.symm
        have parts' : rest line = (before ++ [second]) ++ after := by simp [parts]
        have skip := all_skipped (fun p mem => quiet p (by simp [parts, mem])) none
        have behind := L.feeds parts' skip (blank_of_strip_right both.2.symm)
        obtain rfl := L.nothing_before parts frees quiet fun x mem =>
          blank x (List.mem_append_right _ mem)
        refine ⟨fun x mem => blank x (by simp [mem]), second, shown', ⟨a, b, cut', key⟩, ?_⟩
        rcases behind with rfl | rfl
        · exact Or.inl parts
        · exact Or.inr parts

/-- Where no later piece is warned of, a line of which the pieces give just its pair is
`Kept`. -/
theorem Long.kept (L : Long line) (quiet : ∀ p ∈ rest line, Skipped p ∨ pairOf p ≠ none)
    (same : (front line :: rest line).filterMap pairOf = (pairOf line).toList) :
    RestSkipped line ∨ EntryBehind line := by
  -- What is behind a first piece without a pair of a line without a pair is skipped.
  have skipped (own : pairOf (front line) = none) (whole : pairOf line = none) :
      ∀ p ∈ rest line, Skipped p := by
    rw [List.filterMap_cons_none own, whole] at same
    exact all_skipped quiet same
  by_cases comment : Skipped line
  · have head := L.skipped.mp comment
    exact Or.inl ⟨skipped (pairOf_skipped (L.skipped_front.mpr head)) (pairOf_skipped comment),
      Or.inl head⟩
  · cases cut : cutAt equals (front line) with
    | some p =>
      obtain ⟨a, b⟩ := p
      by_cases key : strip isSpace a = []
      · exact Or.inl ⟨skipped (pairOf_blankKey ⟨a, b, cut, key⟩)
          (pairOf_blankKey ⟨a, _, L.cut cut, key⟩), Or.inr (Or.inr (Or.inl ⟨a, b, cut, key⟩))⟩
      · exact Or.inl (L.kept_front quiet same comment cut key)
    | none =>
      have free := cutAt_eq_none.mp cut
      cases cut' : cutAt equals line with
      | none =>
        have free' := cutAt_eq_none.mp cut'
        exact Or.inl ⟨skipped (pairOf_free free) (pairOf_free free'), Or.inr (Or.inl free')⟩
      | some p => exact Or.inr (L.kept_behind quiet same comment free cut')

end LearnC.Config
