import Mathlib.Data.Int.Range

/-! Lists made up by several threads, each of which adds its part in order. -/

namespace LearnC

section
variable {T α : Type} [DecidableEq T] {parts parts' : T → List α} {whole : List α} {t : T} {a : α}

/-- What the thread `t` has added. -/
def partOf (t : T) (tagged : List (T × α)) : List α :=
  (tagged.filter fun x => x.1 = t).map Prod.snd

/-- The list is made up of the parts of the threads, in any order of their turns. -/
def Interleaves (parts : T → List α) (whole : List α) : Prop :=
  ∃ tagged : List (T × α), tagged.map Prod.snd = whole ∧ ∀ t, partOf t tagged = parts t

theorem Interleaves.nil (none : ∀ t, parts t = []) : Interleaves parts [] :=
  ⟨[], rfl, fun t => (none t).symm⟩

theorem Interleaves.congr (h : Interleaves parts whole) (same : ∀ t, parts' t = parts t) :
    Interleaves parts' whole := by
  obtain rfl : parts' = parts := funext same
  exact h

/-- One thread adds an element. -/
theorem Interleaves.push (h : Interleaves parts whole) (mine : parts' t = parts t ++ [a])
    (others : ∀ u, u ≠ t → parts' u = parts u) : Interleaves parts' (whole ++ [a]) := by
  obtain ⟨tagged, all, each⟩ := h
  refine ⟨tagged ++ [(t, a)], by simp [all], fun u => ?_⟩
  have before := each u
  simp only [partOf] at before ⊢
  by_cases eq : u = t
  · subst eq
    simp [before, mine]
  · simp [before, others u eq, Ne.symm eq]

end

/-! ## Counting up -/

section
variable {a b c : Int}

theorem range_empty (le : b ≤ a) : Int.range a b = [] := by
  simp [Int.range, le]

theorem range_snoc (le : a ≤ b) : Int.range a (b + 1) = Int.range a b ++ [b] := by
  have more : (b + 1 - a).toNat = (b - a).toNat + 1 := by omega
  have last : a + ((b - a).toNat : Int) = b := by omega
  rw [Int.range, Int.range, more, List.range_succ, List.map_append, List.map_singleton, last]

end

end LearnC
