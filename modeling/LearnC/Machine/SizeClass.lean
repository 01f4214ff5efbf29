import Mathlib.Data.List.Basic

/-! Size classes: a request belongs to the first limit that is large enough. -/

namespace LearnC

section
variable {limits : List Nat} {n m i j : Nat}

/-- The first class whose limit is at least `size`. -/
def classOf (limits : List Nat) (size : Nat) : Option Nat :=
  limits.findIdx? fun limit => size ≤ limit

/-- A request rounded up to the limit of its class; larger requests are kept. -/
def roundUp (limits : List Nat) (size : Nat) : Nat :=
  match classOf limits size with
  | some i => limits.getD i size
  | none => size

theorem classOf_eq_some (h : classOf limits n = some i) :
    ∃ hi : i < limits.length, n ≤ limits[i] ∧ ∀ j (hj : j < i), limits[j] < n := by
  obtain ⟨hi, hn, hlt⟩ := List.findIdx?_eq_some_iff_getElem.mp h
  exact ⟨hi, by simpa using hn, fun j hj => by simpa using hlt j hj⟩

theorem classOf_lt (h : classOf limits n = some i) : i < limits.length := (classOf_eq_some h).1

theorem classOf_eq_none : classOf limits n = none ↔ ∀ limit ∈ limits, limit < n := by
  simp [classOf]

/-- Every limit is the limit of its own class. -/
theorem classOf_limit (sorted : limits.Pairwise (· < ·)) (hi : i < limits.length) :
    classOf limits limits[i] = some i := by
  refine List.findIdx?_eq_some_iff_getElem.mpr ⟨hi, by simp, fun j hj => ?_⟩
  have := List.pairwise_iff_getElem.mp sorted j i (by omega) hi hj
  simpa using this

/-- Where a smaller request has no class, a larger one has none either. -/
theorem classOf_none_mono (hle : n ≤ m) (h : classOf limits n = none) :
    classOf limits m = none :=
  classOf_eq_none.mpr fun limit hl => Nat.lt_of_lt_of_le (classOf_eq_none.mp h limit hl) hle

/-- Classes follow the order of the requests. -/
theorem classOf_mono (hle : n ≤ m) (hn : classOf limits n = some i)
    (hm : classOf limits m = some j) : i ≤ j := by
  obtain ⟨_, _, below⟩ := classOf_eq_some hn
  obtain ⟨_, above, _⟩ := classOf_eq_some hm
  by_contra h
  have := below j (by omega)
  omega

theorem le_roundUp (limits : List Nat) (n : Nat) : n ≤ roundUp limits n := by
  unfold roundUp
  split
  · next i h =>
    obtain ⟨hi, hn, _⟩ := classOf_eq_some h
    simpa [List.getD_eq_getElem?_getD, hi] using hn
  · exact Nat.le_refl n

theorem roundUp_of_some (h : classOf limits n = some i) (hi : i < limits.length) :
    roundUp limits n = limits[i] := by
  simp [roundUp, h, List.getD_eq_getElem?_getD, hi]

theorem roundUp_of_none (h : classOf limits n = none) : roundUp limits n = n := by
  simp [roundUp, h]

/-- Rounding up does not change the class. -/
theorem classOf_roundUp (sorted : limits.Pairwise (· < ·)) (n : Nat) :
    classOf limits (roundUp limits n) = classOf limits n := by
  cases h : classOf limits n with
  | none => rw [roundUp_of_none h, h]
  | some i => rw [roundUp_of_some h (classOf_lt h), classOf_limit sorted]

theorem roundUp_roundUp (sorted : limits.Pairwise (· < ·)) (n : Nat) :
    roundUp limits (roundUp limits n) = roundUp limits n := by
  cases h : classOf limits n with
  | none => rw [roundUp_of_none h, roundUp_of_none h]
  | some i =>
    have hr : classOf limits (roundUp limits n) = some i := by rw [classOf_roundUp sorted, h]
    rw [roundUp_of_some hr (classOf_lt h), roundUp_of_some h (classOf_lt h)]

end

end LearnC
