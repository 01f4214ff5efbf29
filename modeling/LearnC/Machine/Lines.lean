import LearnC.Machine.Text

/-! A stream read in pieces of limited length that end behind a separator, and the lines
it consists of. -/

namespace LearnC

variable {α : Type} {c : α} {n : Nat} {l a b p : List α} {x : α}

/-- A line that ends with its separator. -/
def Ended (c : α) (l : List α) : Prop := ∃ a, l = a ++ [c] ∧ c ∉ a

/-- A separator is the last symbol of its line. -/
theorem line_end (line : Ended c l ∨ c ∉ l) (eq : l = a ++ c :: b) : b = [] := by
  rcases line with ⟨d, rfl, free⟩ | free
  · induction b using List.reverseRecOn with
    | nil => rfl
    | append_singleton b x =>
      rw [← List.cons_append, ← List.append_assoc] at eq
      have same := (List.append_inj' eq rfl).1
      exact absurd (by simp [same]) free
  · exact absurd (by simp [eq]) free

/-- A part of a line is one too. -/
theorem line_part (line : Ended c l ∨ c ∉ l) (eq : l = a ++ (p ++ b)) : Ended c p ∨ c ∉ p := by
  by_cases mem : c ∈ p
  · obtain ⟨d, e, rfl⟩ := List.append_of_mem mem
    have split : l = (a ++ d) ++ c :: (e ++ b) := by simp [eq]
    obtain ⟨rfl, rfl⟩ := List.append_eq_nil_iff.mp (line_end line split)
    refine Or.inl ⟨d, rfl, fun mem => ?_⟩
    obtain ⟨d, e, rfl⟩ := List.append_of_mem mem
    have split : l = (a ++ d) ++ c :: (e ++ [c]) := by simp [eq]
    have none := line_end line split
    simp at none
  · exact Or.inr mem

theorem take_free (line : Ended c l ∨ c ∉ l) (long : n < l.length) : c ∉ l.take n := by
  have cut := List.take_append_drop n l
  intro mem
  obtain ⟨a, b, eq⟩ := List.append_of_mem mem
  have split : l = a ++ c :: (b ++ l.drop n) := by
    rw [← List.cons_append, ← List.append_assoc, ← eq, cut]
  have none := congrArg List.length (line_end line split)
  rw [List.length_append, List.length_drop, List.length_nil] at none
  omega

variable [DecidableEq α]

/-- What `fgets` takes where there is room for `n` symbols, and what it leaves. -/
def fgets (c : α) : Nat → List α → List α × List α
  | 0, l => ([], l)
  | _ + 1, [] => ([], [])
  | n + 1, x :: l =>
    if x = c then ([x], l) else (x :: (fgets c n l).1, (fgets c n l).2)

theorem fgets_split : (fgets c n l).1 ++ (fgets c n l).2 = l := by
  induction n generalizing l with
  | zero => rfl
  | succ n ih =>
    cases l with
    | nil => rfl
    | cons x l =>
      rw [fgets]
      split
      · rfl
      · rw [List.cons_append, ih]

theorem fgets_length : (fgets c n l).1.length ≤ n := by
  induction n generalizing l with
  | zero => exact Nat.le_refl 0
  | succ n ih =>
    cases l with
    | nil => exact Nat.zero_le _
    | cons x l =>
      rw [fgets]
      split
      · exact Nat.succ_le_succ (Nat.zero_le n)
      · exact Nat.succ_le_succ ih

theorem fgets_ne (ne : l ≠ []) (room : n ≠ 0) : (fgets c n l).1 ≠ [] := by
  cases l with
  | nil => exact absurd rfl ne
  | cons x l =>
    cases n with
    | zero => exact absurd rfl room
    | succ n =>
      rw [fgets]
      split <;> exact List.cons_ne_nil _ _

/-- What is left behind a piece is shorter. -/
theorem fgets_shorter (ne : l ≠ []) (room : n ≠ 0) : (fgets c n l).2.length < l.length := by
  have split := congrArg List.length (fgets_split (c := c) (n := n) (l := l))
  have pos := List.length_pos_iff.mpr (fgets_ne (c := c) ne room)
  rw [List.length_append] at split
  omega

theorem fgets_line (free : c ∉ a) (fits : a.length < n) :
    fgets c n (a ++ c :: b) = (a ++ [c], b) := by
  induction a generalizing n with
  | nil =>
    cases n with
    | zero => omega
    | succ n => simp [fgets]
  | cons x a ih =>
    cases n with
    | zero => omega
    | succ n =>
      rw [List.mem_cons, not_or] at free
      rw [List.cons_append, fgets, if_neg (Ne.symm free.1), ih free.2 (Nat.lt_of_succ_lt_succ fits)]
      rfl

theorem fgets_full (free : c ∉ a) : fgets c a.length (a ++ b) = (a, b) := by
  induction a with
  | nil => rfl
  | cons x a ih =>
    rw [List.mem_cons, not_or] at free
    rw [List.cons_append, List.length_cons, fgets, if_neg (Ne.symm free.1), ih free.2]

theorem fgets_last (free : c ∉ a) (fits : a.length ≤ n) : fgets c n a = (a, []) := by
  induction a generalizing n with
  | nil => cases n <;> rfl
  | cons x a ih =>
    cases n with
    | zero => simp at fits
    | succ n =>
      rw [List.mem_cons, not_or] at free
      rw [fgets, if_neg (Ne.symm free.1), ih free.2 (Nat.le_of_succ_le_succ fits)]

/-- The pieces of a stream up to its end; without room nothing is read. -/
def pieces (c : α) (n : Nat) (l : List α) : List (List α) :=
  if l = [] ∨ n = 0 then []
  else (fgets c n l).1 :: pieces c n (fgets c n l).2
termination_by l.length
decreasing_by
  have go : ¬(l = [] ∨ n = 0) := ‹_›
  rw [not_or] at go
  exact fgets_shorter go.1 go.2

/-- The lines of a stream, each with the separator at its end. -/
def lines (c : α) : List α → List (List α)
  | [] => []
  | x :: l =>
    if x = c then [x] :: lines c l
    else match lines c l with
      | [] => [[x]]
      | line :: rest => (x :: line) :: rest

@[simp] theorem pieces_nil : pieces c n [] = [] := by simp [pieces]

theorem pieces_cons (ne : l ≠ []) (room : n ≠ 0) :
    pieces c n l = (fgets c n l).1 :: pieces c n (fgets c n l).2 := by
  rw [pieces, if_neg (by simp [ne, room])]

theorem pieces_flatten (room : n ≠ 0) : (pieces c n l).flatten = l := by
  fun_induction pieces c n l with
  | case1 l stop => simp [stop.resolve_right room]
  | case2 l _ ih => rw [List.flatten_cons, ih, fgets_split]

theorem pieces_bounds (mem : p ∈ pieces c n l) : p.length ≤ n ∧ p ≠ [] := by
  fun_induction pieces c n l with
  | case1 => cases mem
  | case2 l go ih =>
    rw [not_or] at go
    cases mem with
    | head => exact ⟨fgets_length, fgets_ne go.1 go.2⟩
    | tail _ mem => exact ih mem

theorem pieces_subset (room : n ≠ 0) (mem : p ∈ pieces c n l) : p ⊆ l := by
  intro x hx
  rw [← pieces_flatten (c := c) (l := l) room]
  exact List.mem_flatten_of_mem mem hx

/-! ## Lines -/

theorem lines_append (free : c ∉ a) : lines c (a ++ c :: b) = (a ++ [c]) :: lines c b := by
  induction a with
  | nil => simp [lines]
  | cons x a ih =>
    rw [List.mem_cons, not_or] at free
    rw [List.cons_append, lines, if_neg (Ne.symm free.1), ih free.2]
    rfl

theorem lines_last (free : c ∉ a) (ne : a ≠ []) : lines c a = [a] := by
  induction a with
  | nil => exact absurd rfl ne
  | cons x a ih =>
    rw [List.mem_cons, not_or] at free
    rw [lines, if_neg (Ne.symm free.1)]
    by_cases last : a = []
    · rw [last, lines]
    · rw [ih free.2 last]

/-- A stream is nothing, one line without a separator, or a line and a stream. -/
theorem line_induction {P : List α → Prop} (nil : P [])
    (last : ∀ a, c ∉ a → a ≠ [] → P a) (line : ∀ a b, c ∉ a → P b → P (a ++ c :: b))
    (l : List α) : P l := by
  induction h : l.length using Nat.strong_induction_on generalizing l with
  | _ k ih =>
    cases cut : cutAt c l with
    | none =>
      by_cases empty : l = []
      · rw [empty]
        exact nil
      · exact last l (cutAt_eq_none.mp cut) empty
    | some p =>
      obtain ⟨a, b⟩ := p
      obtain ⟨rfl, free⟩ := cutAt_eq_some.mp cut
      apply line a b free
      rw [List.length_append, List.length_cons] at h
      exact ih b.length (by omega) b rfl

theorem mem_lines (mem : p ∈ lines c l) : p ≠ [] ∧ p ⊆ l ∧ (Ended c p ∨ c ∉ p) := by
  induction l using line_induction (c := c) with
  | nil => cases mem
  | last a free ne =>
    rw [lines_last free ne, List.mem_singleton] at mem
    rw [mem]
    exact ⟨ne, List.Subset.refl a, Or.inr free⟩
  | line a b free ih =>
    rw [lines_append free, List.mem_cons] at mem
    rcases mem with rfl | mem
    · exact ⟨by simp, by simp, Or.inl ⟨a, rfl, free⟩⟩
    · obtain ⟨ne, sub, line⟩ := ih mem
      exact ⟨ne, fun x hx => by simp [sub hx], line⟩

/-- Only the last line may be without its separator. -/
theorem lines_ended {before after : List (List α)} (h : lines c l = before ++ p :: after)
    (ne : after ≠ []) : Ended c p := by
  induction l using line_induction (c := c) generalizing before with
  | nil => simp [lines] at h
  | last a free ne' =>
    rw [lines_last free ne'] at h
    have length := congrArg List.length h
    have pos := List.length_pos_iff.mpr ne
    simp only [List.length_append, List.length_cons, List.length_nil] at length
    omega
  | line a b free ih =>
    rw [lines_append free] at h
    cases before with
    | nil =>
      rw [List.nil_append, List.cons.injEq] at h
      exact ⟨a, h.1.symm, free⟩
    | cons x before =>
      rw [List.cons_append, List.cons.injEq] at h
      exact ih h.2

theorem pieces_append (room : n ≠ 0) (ended : Ended c a) :
    pieces c n (a ++ b) = pieces c n a ++ pieces c n b := by
  obtain ⟨a, rfl, free⟩ := ended
  induction h : a.length using Nat.strong_induction_on generalizing a with
  | _ k ih =>
    have split (rest : List α) : a ++ [c] ++ rest ≠ [] := by simp
    have split' : a ++ [c] ≠ [] := by simp
    by_cases fits : a.length < n
    · rw [pieces_cons (split b) room, pieces_cons split' room, fgets_line free fits,
        List.append_assoc, List.singleton_append, fgets_line free fits]
      simp
    · -- A full piece of the line, and the same for what is left of it.
      have cut := List.take_append_drop n a
      have whole : (a.take n).length = n := by
        rw [List.length_take]
        omega
      have free' : c ∉ a.take n := fun mem => free (List.mem_of_mem_take mem)
      have full (rest : List α) : fgets c n (a ++ rest) = (a.take n, a.drop n ++ rest) := by
        have := fgets_full (b := a.drop n ++ rest) free'
        rw [whole, ← List.append_assoc, cut] at this
        exact this
      have rest := ih (a.drop n).length (by rw [List.length_drop]; omega) (a.drop n)
        (fun mem => free (List.mem_of_mem_drop mem)) rfl
      rw [pieces_cons (split b) room, pieces_cons split' room, List.append_assoc, full, full,
        List.cons_append]
      rw [List.append_assoc] at rest
      exact congrArg _ rest

theorem pieces_fits (room : n ≠ 0) (line : Ended c l ∨ c ∉ l) (ne : l ≠ [])
    (fits : l.length ≤ n) : pieces c n l = [l] := by
  rw [pieces_cons ne room]
  rcases line with ⟨a, rfl, free⟩ | free
  · rw [List.length_append, List.length_singleton] at fits
    rw [fgets_line free (by omega), pieces_nil]
  · rw [fgets_last free fits, pieces_nil]

/-- No piece goes beyond a line. -/
theorem pieces_lines (room : n ≠ 0) : pieces c n l = (lines c l).flatMap (pieces c n) := by
  induction l using line_induction (c := c) with
  | nil => simp [lines]
  | last a free ne => simp [lines_last free ne]
  | line a b free ih =>
    rw [lines_append free, List.flatMap_cons, ← ih, ← pieces_append room ⟨a, rfl, free⟩]
    simp

/-- The first piece of a line that does not fit is full. -/
theorem fgets_long (line : Ended c l ∨ c ∉ l) (long : n < l.length) :
    fgets c n l = (l.take n, l.drop n) := by
  have full := fgets_full (b := l.drop n) (take_free line long)
  rwa [List.length_take, Nat.min_eq_left (Nat.le_of_lt long), List.take_append_drop] at full

theorem pieces_part (room : n ≠ 0) (mem : p ∈ pieces c n l) : ∃ a b, l = a ++ (p ++ b) := by
  obtain ⟨before, after, eq⟩ := List.append_of_mem mem
  refine ⟨before.flatten, after.flatten, ?_⟩
  rw [← List.flatten_cons, ← List.flatten_append, ← eq, pieces_flatten room]

end LearnC
