import Mathlib.Data.List.Perm.Basic

/-! Removing an entry of an array by moving the last one into its place. -/

namespace LearnC

section
variable {α : Type} {l : List α} {i : Nat} {a b : α}

/-- `xs[i] = xs[--count]`. -/
def swapRemove (l : List α) (i : Nat) : List α :=
  match l.getLast? with
  | some last => (l.set i last).dropLast
  | none => l

/-- The other entries stay, in some order. -/
theorem swapRemove_perm (h : i < l.length) : (swapRemove l i).Perm (l.eraseIdx i) := by
  rcases List.eq_nil_or_concat l with rfl | ⟨init, last, rfl⟩
  · simp at h
  · rw [List.concat_eq_append] at h ⊢
    have len : i ≤ init.length := by simpa [Nat.lt_succ_iff] using h
    rcases Nat.lt_or_eq_of_le len with lt | rfl
    · have moved : swapRemove (init ++ [last]) i = init.set i last := by
        simp [swapRemove, List.set_append_left i last lt]
      rw [moved, List.eraseIdx_append_of_lt_length lt]
      exact (List.set_perm_cons_eraseIdx lt last).trans (List.perm_append_singleton _ _).symm
    · simp [swapRemove, List.eraseIdx_append_of_length_le]

/-- The array loop that removes the first entry equal to `a`. -/
def removeFirst [DecidableEq α] (l : List α) (a : α) : List α :=
  match l.idxOf? a with
  | some i => swapRemove l i
  | none => l

theorem removeFirst_perm [DecidableEq α] (l : List α) (a : α) :
    (removeFirst l a).Perm (l.erase a) := by
  rw [removeFirst, List.erase_eq_eraseIdx]
  cases found : l.idxOf? a with
  | none => exact .refl _
  | some i =>
    obtain ⟨h, _⟩ := List.idxOf?_eq_some_iff.mp found
    exact swapRemove_perm h

end

end LearnC
