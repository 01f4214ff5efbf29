import LearnC.Machine.Strings

/-! `trim_string`: a string without the blanks at its ends, moved to the start of its buffer. -/

namespace LearnC.Config

/-- The second loop of `trim_string`; the end is given by the place behind it. -/
def trimEnd (m : Image) (start : Nat) : Nat → Nat
  | 0 => 0
  | last + 1 => if start < last ∧ isSpace (m last) = true then trimEnd m start last else last + 1

/-- `str` points into a buffer with `n` bytes from there on. -/
def trimString (m : Image) (str n : Nat) : Image :=
  let start := m.scan (fun b => !isSpace b) str n
  let stop := trimEnd m start (str + m.strlen str n)
  let m := m.memmove str start (stop - start)
  m.set (str + (stop - start)) 1 0

/-- `end - start + 1`, the number of bytes that are moved. -/
def trimMoved (m : Image) (str n : Nat) : Int :=
  let start := m.scan (fun b => !isSpace b) str n
  trimEnd m start (str + m.strlen str n) - start

variable {m : Image} {str start n i : Nat} {l u s v : List UInt8}

theorem trimEnd_eq (holds : m.Holds start (s ++ v)) (ne : s ≠ [])
    (trimmed : Trimmed isSpace s) (blank : ∀ x ∈ v, isSpace x = true) :
    trimEnd m start (start + (s ++ v).length) = start + s.length := by
  have pos := List.length_pos_iff.mpr ne
  induction v using List.reverseRecOn with
  | nil =>
    obtain ⟨front, x, rfl⟩ := (List.eq_nil_or_concat' s).resolve_left ne
    have text : isSpace x = false := trimmed.last x (by simp)
    rw [List.append_nil, Image.holds_append] at holds
    rw [List.append_nil, List.length_append, List.length_singleton, ← Nat.add_assoc, trimEnd,
      if_neg]
    rw [holds.2.1, text]
    simp
  | append_singleton v x ih =>
    rw [← List.append_assoc, Image.holds_append] at holds
    rw [← List.append_assoc, List.length_append, List.length_singleton, ← Nat.add_assoc, trimEnd,
      if_pos]
    · exact ih holds.1 fun y mem => blank y (List.mem_append_left _ mem)
    · constructor
      · rw [List.length_append]
        omega
      · rw [holds.2.1]
        exact blank x (List.mem_append_right _ (List.mem_singleton_self x))

theorem trimEnd_start : trimEnd m start start = start := by
  cases start with
  | zero => rfl
  | succ last =>
    rw [trimEnd, if_neg]
    omega

theorem trim_bounds (h : m.Str str l) (lt : l.length < n) : ∃ u,
    m.scan (fun b => !isSpace b) str n = str + u ∧ m.Holds (str + u) (strip isSpace l) ∧
      trimEnd m (str + u) (str + m.strlen str n) = str + u + (strip isSpace l).length ∧
      u + (strip isSpace l).length ≤ l.length := by
  have split := List.takeWhile_append_dropWhile (p := isSpace) (l := l)
  have skips : m.scan (fun b => !isSpace b) str n = str + (l.takeWhile isSpace).length := by
    rw [h.scan rfl lt]
    simp only [Bool.not_not]
  have first := List.head?_dropWhile_not isSpace l
  have trimmed := strip_trimmed isSpace l
  have split' := List.rdropWhile_append_rtakeWhile (p := isSpace) (l := l.dropWhile isSpace)
  have blank : ∀ x ∈ (l.dropWhile isSpace).rtakeWhile isSpace, isSpace x = true :=
    fun _ => List.mem_rtakeWhile_imp
  rw [← strip] at split'
  generalize List.rtakeWhile isSpace (List.dropWhile isSpace l) = v at split' blank
  have holds := h.bytes
  rw [← split, List.append_assoc, ← split', Image.holds_append, Image.holds_append] at holds
  have length := congrArg List.length split
  rw [List.length_append, ← split', List.length_append] at length
  refine ⟨_, skips, (Image.holds_append.mp holds.2.1).1, ?_, by omega⟩
  have all : str + l.length =
      str + (l.takeWhile isSpace).length + (strip isSpace l ++ v).length := by
    rw [List.length_append]
    omega
  rw [h.strlen lt, all]
  by_cases nil : strip isSpace l = []
  · -- What is left begins with a byte that is not blank, if there is one.
    have none : v = [] := by
      rw [nil, List.nil_append] at split'
      rw [← split'] at first
      cases v with
      | nil => rfl
      | cons x v =>
        have := blank x List.mem_cons_self
        simp [this] at first
    rw [nil, none]
    exact trimEnd_start
  · exact trimEnd_eq holds.2.1 nil trimmed blank

theorem trimString_str (h : m.Str str l) (lt : l.length < n) :
    (trimString m str n).Str str (strip isSpace l) ∧
      ∀ i, i < str ∨ str + l.length ≤ i → trimString m str n i = m i := by
  obtain ⟨u, skips, holds, back, le⟩ := trim_bounds h lt
  rw [Image.holds_iff] at holds
  have moved : (m.memmove str (str + u) (strip isSpace l).length).Holds str (strip isSpace l) := by
    rw [Image.holds_iff]
    intro i hi
    rw [Image.memmove, Image.fill_in (by omega) (by omega), Nat.add_sub_cancel_left, holds i hi]
  have text : 0 ∉ strip isSpace l := fun mem => h.text (strip_sublist.subset mem)
  unfold trimString
  simp only [skips, back, Nat.add_sub_cancel_left]
  constructor
  · exact ⟨moved.set_one (b := []) Image.holds_nil, text⟩
  · intro i out
    by_cases last : i = str + (strip isSpace l).length
    · -- Without blanks the zero byte is written over itself.
      have same : (strip isSpace l).length = l.length := by omega
      rw [last, Image.set, Image.fill_in (Nat.le_refl _) (Nat.lt_succ_self _), same, h.at_end]
      simp
    · rw [Image.set_out (by omega)]
      exact Image.fill_out (by omega)

theorem trimMoved_eq (h : m.Str str l) (lt : l.length < n) :
    trimMoved m str n = (strip isSpace l).length := by
  obtain ⟨u, skips, _, back, _⟩ := trim_bounds h lt
  unfold trimMoved
  simp only [skips, back]
  omega

theorem trimString_of_trimmed (h : m.Str str l) (lt : l.length < n)
    (trimmed : Trimmed isSpace l) : trimString m str n = m := by
  obtain ⟨u, skips, _, back, le⟩ := trim_bounds h lt
  have whole := strip_of_trimmed trimmed
  rw [whole] at back le
  have none : u = 0 := by omega
  subst none
  rw [Nat.add_zero] at skips back
  have still : m.memmove str str l.length = m := by
    funext i
    by_cases inside : str ≤ i ∧ i < str + l.length
    · rw [Image.memmove, Image.fill_in inside.1 inside.2, Nat.add_sub_cancel' inside.1]
    · exact Image.fill_out (by omega)
  unfold trimString
  simp only [skips, back, Nat.add_sub_cancel_left, still]
  funext i
  by_cases last : i = str + l.length
  · rw [last, Image.set, Image.fill_in (Nat.le_refl _) (Nat.lt_succ_self _), h.at_end]
    simp
  · exact Image.set_out (by omega)

/-- `trim_string` is `strip` in place: it writes no further than the zero byte of the string
it is given, and a second call changes nothing. -/
theorem trimString_strips (m : Image) (str n : Nat) (l : List UInt8) (h : m.Str str l)
    (lt : l.length < n) : (trimString m str n).Str str (strip isSpace l) ∧
      (0 ≤ trimMoved m str n ∧ str + trimMoved m str n ≤ str + l.length) ∧
      (∀ i, i < str ∨ str + l.length < i → trimString m str n i = m i) ∧
      trimString (trimString m str n) str n = trimString m str n := by
  obtain ⟨stripped, kept⟩ := trimString_str h lt
  have le : (strip isSpace l).length ≤ l.length := strip_sublist.length_le
  refine ⟨stripped, ?_, fun i out => kept i (by omega), ?_⟩
  · rw [trimMoved_eq h lt]
    omega
  · exact trimString_of_trimmed stripped (by omega) (strip_trimmed isSpace l)

/-- The empty string, two blanks, and `k =` between blanks. -/
theorem trimString_strips_blank :
    (trimString (Image.write (fun _ => 7) 3 [0]) 3 1).Str 3 [] ∧
      (trimString (Image.write (fun _ => 7) 0 [32, 9, 0]) 0 3).Str 0 [] ∧
      (trimString (Image.write (fun _ => 7) 2 [32, 9, 107, 32, 61, 32, 10, 0]) 2 8).Str 2
        [107, 32, 61] := by
  refine ⟨?_, ?_, ?_⟩
  · exact (trimString_strips _ 3 1 [] (Image.str_write (l := []) (by decide)) (by decide)).1
  · exact (trimString_strips _ 0 3 [32, 9] (Image.str_write (l := [32, 9]) (by decide))
      (by decide)).1
  · exact (trimString_strips _ 2 8 [32, 9, 107, 32, 61, 32, 10]
      (Image.str_write (l := [32, 9, 107, 32, 61, 32, 10]) (by decide)) (by decide)).1

end LearnC.Config
