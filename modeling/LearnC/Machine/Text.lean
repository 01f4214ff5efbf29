import Mathlib.Data.List.DropRight

/-! Text as lists: without the blanks at its ends, and cut at the first place where a
symbol stands. -/

namespace LearnC

section
variable {α : Type} {blank : α → Bool} {l u v m a b : List α} {c x : α}

/-- The list without the blanks at its two ends. -/
def strip (blank : α → Bool) (l : List α) : List α := (l.dropWhile blank).rdropWhile blank

/-- What is left has no blank at its ends. -/
structure Trimmed (blank : α → Bool) (m : List α) : Prop where
  head : ∀ x ∈ m.head?, blank x = false
  last : ∀ x ∈ m.getLast?, blank x = false

/-- A list is blanks, what `strip` leaves of it, and blanks. -/
theorem strip_split (blank : α → Bool) (l : List α) : ∃ u v, l = u ++ strip blank l ++ v ∧
    (∀ x ∈ u, blank x = true) ∧ (∀ x ∈ v, blank x = true) := by
  refine ⟨l.takeWhile blank, (l.dropWhile blank).rtakeWhile blank, ?_, ?_, ?_⟩
  · rw [strip, List.append_assoc, List.rdropWhile_append_rtakeWhile,
      List.takeWhile_append_dropWhile]
  · exact fun _ => List.mem_takeWhile_imp
  · exact fun _ => List.mem_rtakeWhile_imp

theorem strip_trimmed (blank : α → Bool) (l : List α) : Trimmed blank (strip blank l) := by
  constructor
  · intro x hx
    obtain ⟨rest, eq⟩ := List.head?_eq_some_iff.mp hx
    obtain ⟨v, split⟩ := List.rdropWhile_prefix (p := blank) (l.dropWhile blank)
    rw [strip] at eq
    rw [eq, List.cons_append] at split
    have := List.head?_dropWhile_not blank l
    rw [← split] at this
    simpa using this
  · intro x hx
    rw [strip] at hx
    have ne : (l.dropWhile blank).rdropWhile blank ≠ [] := by
      intro nil
      rw [nil] at hx
      cases hx
    have := List.rdropWhile_last_not blank _ ne
    rw [List.getLast?_eq_some_getLast ne] at hx
    obtain rfl := Option.some.inj hx
    simpa using this

theorem strip_eq_nil : strip blank l = [] ↔ ∀ x ∈ l, blank x = true := by
  rw [strip, List.rdropWhile_eq_nil_iff]
  constructor
  · intro all x hx
    rw [← List.takeWhile_append_dropWhile (p := blank) (l := l), List.mem_append] at hx
    rcases hx with hx | hx
    · exact List.mem_takeWhile_imp hx
    · exact all x hx
  · exact fun all x hx => all x ((List.dropWhile_suffix blank).subset hx)

theorem strip_blank_left (all : ∀ x ∈ u, blank x = true) :
    strip blank (u ++ l) = strip blank l := by
  rw [strip, strip, List.dropWhile_append_of_pos all]

theorem strip_of_trimmed (trimmed : Trimmed blank m) : strip blank m = m := by
  have first : m.dropWhile blank = m := by
    cases m with
    | nil => rfl
    | cons x m => simp [trimmed.head x rfl]
  rw [strip, first, List.rdropWhile_eq_self_iff]
  intro ne
  simpa using trimmed.last _ (List.getLast?_eq_some_getLast ne)

/-- `strip` takes nothing but blanks away. -/
theorem strip_eq (trimmed : Trimmed blank m) (left : ∀ x ∈ u, blank x = true)
    (right : ∀ x ∈ v, blank x = true) : strip blank (u ++ m ++ v) = m := by
  rw [List.append_assoc, strip_blank_left left]
  cases m with
  | nil => exact strip_eq_nil.mpr right
  | cons x m =>
    have stays : (x :: m ++ v).dropWhile blank = x :: m ++ v := by
      simp [trimmed.head x rfl]
    have own := strip_of_trimmed trimmed
    rw [strip] at own ⊢
    rw [stays, List.rdropWhile, List.reverse_append,
      List.dropWhile_append_of_pos (by simpa using right)]
    rw [show (x :: m).dropWhile blank = x :: m by simp [trimmed.head x rfl]] at own
    exact own

theorem strip_blank_right (all : ∀ x ∈ v, blank x = true) :
    strip blank (l ++ v) = strip blank l := by
  obtain ⟨u, w, split, left, right⟩ := strip_split blank l
  conv_lhs => rw [split, List.append_assoc]
  apply strip_eq (strip_trimmed blank l) left
  intro x hx
  exact (List.mem_append.mp hx).elim (right x) (all x)

theorem strip_sublist : (strip blank l).Sublist l :=
  (List.rdropWhile_prefix blank _).sublist.trans (List.dropWhile_sublist blank)

theorem count_strip [BEq α] [LawfulBEq α] (not : blank x = false) :
    (strip blank l).count x = l.count x := by
  obtain ⟨u, v, split, left, right⟩ := strip_split blank l
  conv_rhs => rw [split]
  have hu : x ∉ u := fun h => by simp [left x h] at not
  have hv : x ∉ v := fun h => by simp [right x h] at not
  simp [List.count_append, List.count_eq_zero_of_not_mem hu, List.count_eq_zero_of_not_mem hv]

theorem trimmed_append (hm : Trimmed blank m) (hl : Trimmed blank l) (nm : m ≠ []) (nl : l ≠ []) :
    Trimmed blank (m ++ u ++ l) := by
  constructor
  · rw [List.append_assoc, List.head?_append_of_ne_nil m nm]
    exact hm.head
  · rw [List.getLast?_append_of_ne_nil _ nl]
    exact hl.last

/-- What stands between two texts stays. -/
theorem strip_append (hu : strip blank u ≠ []) (hl : strip blank l ≠ []) :
    ∃ mid, strip blank (u ++ l) = strip blank u ++ mid ++ strip blank l := by
  obtain ⟨v, w, split, left, _⟩ := strip_split blank u
  obtain ⟨v', w', split', _, right⟩ := strip_split blank l
  have whole : u ++ l = v ++ (strip blank u ++ (w ++ v') ++ strip blank l) ++ w' := by
    conv_lhs => rw [split, split']
    simp only [List.append_assoc]
  have trimmed : Trimmed blank (strip blank u ++ (w ++ v') ++ strip blank l) :=
    trimmed_append (strip_trimmed blank u) (strip_trimmed blank l) hu hl
  rw [whole, strip_eq trimmed left right]
  exact ⟨w ++ v', rfl⟩

/-- What can be put in front without being seen is blank. -/
theorem blank_of_strip_left (same : strip blank (u ++ l) = strip blank l) :
    ∀ x ∈ u, blank x = true := by
  rw [← strip_eq_nil]
  by_contra text
  by_cases rest : strip blank l = []
  · rw [strip_blank_right (strip_eq_nil.mp rest), rest] at same
    exact text same
  · obtain ⟨mid, whole⟩ := strip_append text rest
    rw [whole] at same
    exact text (List.append_eq_nil_iff.mp (List.append_left_eq_self.mp same)).1

/-- What can be put behind without being seen is blank. -/
theorem blank_of_strip_right (same : strip blank (l ++ u) = strip blank l) :
    ∀ x ∈ u, blank x = true := by
  rw [← strip_eq_nil]
  by_contra text
  by_cases rest : strip blank l = []
  · rw [strip_blank_left (strip_eq_nil.mp rest), rest] at same
    exact text same
  · obtain ⟨mid, whole⟩ := strip_append rest text
    rw [whole, List.append_assoc] at same
    exact text (List.append_eq_nil_iff.mp (List.append_right_eq_self.mp same)).2

/-! ## Runs -/

/-- The longest pieces whose symbols all meet `p`, in order. -/
def runs (p : α → Bool) (l : List α) : List (List α) :=
  (l.splitOnP fun x => !p x).filter fun run => !run.isEmpty

section
variable {p : α → Bool}

theorem runs_nil : runs p [] = [] := rfl

theorem runs_cons (no : p x = false) : runs p (x :: l) = runs p l := by
  rw [runs, List.splitOnP_cons_eq_if_modifyHead, no, Bool.not_false, if_pos rfl]
  rfl

/-- A run ends in front of a symbol that does not meet `p`. -/
theorem runs_append (ne : a ≠ []) (all : ∀ x ∈ a, p x = true)
    (stop : ∀ x ∈ b.head?, p x = false) : runs p (a ++ b) = a :: runs p b := by
  have some : (!a.isEmpty) = true := by simpa using ne
  have inner : ∀ x ∈ a, (!p x) = false := fun x mem => by rw [all x mem, Bool.not_true]
  cases b with
  | nil =>
    rw [List.append_nil, runs, List.splitOnP_eq_singleton inner, List.filter_singleton, some,
      cond_true]
    rfl
  | cons x b =>
    have no : p x = false := stop x rfl
    have sep : (!p x) = true := by rw [no, Bool.not_false]
    rw [runs_cons no, runs, List.splitOnP_append_cons_of_forall_mem inner x sep, List.filter_cons,
      if_pos some]
    rfl

end

/-! ## Cut at a symbol -/

variable [DecidableEq α]

/-- What stands before the first `c` and what stands behind it. -/
def cutAt (c : α) : List α → Option (List α × List α)
  | [] => none
  | x :: l => if x = c then some ([], l) else (cutAt c l).map fun p => (x :: p.1, p.2)

theorem cutAt_eq_none : cutAt c l = none ↔ c ∉ l := by
  induction l with
  | nil => simp [cutAt]
  | cons x l ih =>
    by_cases eq : x = c
    · simp [cutAt, eq]
    · rw [cutAt, if_neg eq, Option.map_eq_none_iff, ih, List.mem_cons, not_or]
      exact (and_iff_right (Ne.symm eq)).symm

theorem cutAt_eq_some : cutAt c l = some (a, b) ↔ l = a ++ c :: b ∧ c ∉ a := by
  induction l generalizing a with
  | nil => simp [cutAt]
  | cons x l ih =>
    by_cases eq : x = c
    · rw [cutAt, if_pos eq]
      cases a with
      | nil => simp [eq]
      | cons y a => grind
    · rw [cutAt, if_neg eq]
      cases a with
      | nil => simp [eq]
      | cons y a =>
        simp only [Option.map_eq_some_iff, Prod.mk.injEq, Prod.exists, List.cons_append,
          List.cons.injEq, List.mem_cons, not_or]
        constructor
        · rintro ⟨a', b', cut, ⟨rfl, rfl⟩, rfl⟩
          obtain ⟨whole, free⟩ := ih.mp cut
          exact ⟨⟨rfl, whole⟩, Ne.symm eq, free⟩
        · rintro ⟨⟨rfl, whole⟩, _, free⟩
          exact ⟨a, b, ih.mpr ⟨whole, free⟩, ⟨rfl, rfl⟩, rfl⟩

theorem cutAt_append (free : c ∉ a) : cutAt c (a ++ c :: b) = some (a, b) :=
  cutAt_eq_some.mpr ⟨rfl, free⟩

theorem cutAt_append_right (free : c ∉ u) :
    cutAt c (l ++ u) = (cutAt c l).map fun p => (p.1, p.2 ++ u) := by
  cases cut : cutAt c l with
  | none =>
    rw [Option.map_none, cutAt_eq_none, List.mem_append, not_or]
    exact ⟨cutAt_eq_none.mp cut, free⟩
  | some p =>
    obtain ⟨rfl, before⟩ := cutAt_eq_some.mp cut
    rw [Option.map_some, List.append_assoc, List.cons_append]
    exact cutAt_eq_some.mpr ⟨rfl, before⟩

/-- The first piece between separators that is not empty, and what stands behind it. -/
def token (c : α) (l : List α) : Option (List α × List α) :=
  if l.dropWhile (· == c) = [] then none
  else some ((cutAt c (l.dropWhile (· == c))).getD (l.dropWhile (· == c), []))

/-- Where no separator stands in front, the token begins at once. -/
theorem token_start (ne : l ≠ []) (head : l.head? ≠ some c) :
    token c l = some ((cutAt c l).getD (l, [])) := by
  have stays : l.dropWhile (· == c) = l := by
    cases l with
    | nil => rfl
    | cons x l =>
      have first : x ≠ c := by simpa using head
      simp [first]
  rw [token, stays, if_neg ne]

end

end LearnC
