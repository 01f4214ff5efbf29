import LearnC.Machine.Signed
import Mathlib.Data.Int.Range

/-! `Range` of `iterator.cpp`, whose iterator runs until it equals the end. -/

namespace LearnC.Tools

/-- The two fields are values of an `int`. -/
structure Range where
  mStart : Int
  mEnd : Int
  start_fits : Fits 32 mStart
  end_fits : Fits 32 mEnd

structure Iterator where
  current : Int
deriving DecidableEq

namespace Range

def begin (r : Range) : Iterator := ⟨r.mStart⟩

/-- `end`; none where `m_end + 1` overflows. -/
def stop (r : Range) : Option Iterator := (checked 32 (r.mEnd + 1)).map Iterator.mk

end Range

/-- `operator++`; none where it overflows. -/
def Iterator.incr (it : Iterator) : Option Iterator := (checked 32 (it.current + 1)).map Iterator.mk

/-- How far a loop has come, with the values it has visited. -/
inductive Loop where
  | ended (seen : List Int)
  | overflow (seen : List Int)
  | running (seen : List Int)
deriving DecidableEq

def iterate (stop : Iterator) : Nat → Iterator → List Int → Loop
  | 0, _, seen => .running seen
  | n + 1, it, seen =>
    if it.current ≠ stop.current then
      match it.incr with
      | none => .overflow (seen ++ [it.current])
      | some next => iterate stop n next (seen ++ [it.current])
    else .ended seen

/-- `for (int i : Range(s, e))`. -/
def forRange (r : Range) (n : Nat) : Loop :=
  match r.stop with
  | none => .overflow []
  | some stop => iterate stop n r.begin []

/-- The loop ends, and has visited the numbers of the interval in ascending order. -/
def Visits (r : Range) : Prop :=
  ∃ n seen, forRange r n = .ended seen ∧ seen.Pairwise (· < ·) ∧
    ∀ i, i ∈ seen ↔ r.mStart ≤ i ∧ i ≤ r.mEnd

variable {r : Range} {it stop : Iterator} {n : Nat} {seen seen' : List Int} {a b : Int}

theorem incr_eq (low : -2 ^ 31 ≤ it.current) (lt : it.current < b) (fits : Fits 32 b) :
    it.incr = some ⟨it.current + 1⟩ := by
  have both := fits_int.mp fits
  have fits' : Fits 32 (it.current + 1) := fits_int.mpr (by omega)
  rw [Iterator.incr, checked_eq_some.mpr ⟨fits', rfl⟩, Option.map_some]

theorem range_self : Int.range a a = [] := by simp [Int.range]

theorem range_cons (lt : a < b) : Int.range a b = a :: Int.range (a + 1) b := by
  have more : (b - a).toNat = (b - (a + 1)).toNat + 1 := by omega
  have next (k : Nat) : a + ((k + 1 : Nat) : Int) = a + 1 + k := by omega
  rw [Int.range, Int.range, more, List.range_succ_eq_map, List.map_cons, List.map_map]
  simp only [Function.comp_def, Nat.succ_eq_add_one, next]
  rw [Int.natCast_zero, Int.add_zero]

theorem range_ascending : (Int.range a b).Pairwise (· < ·) := by
  rw [Int.range, List.pairwise_map]
  apply List.pairwise_lt_range.imp
  intro i j lt
  omega

theorem iterate_ends (low : -2 ^ 31 ≤ it.current) (fits : Fits 32 stop.current)
    (le : it.current ≤ stop.current) (enough : (stop.current - it.current).toNat < n) :
    iterate stop n it seen = .ended (seen ++ Int.range it.current stop.current) := by
  induction n generalizing it seen with
  | zero => cases enough
  | succ n ih =>
    by_cases reached : it.current = stop.current
    · rw [iterate, if_neg (not_not.mpr reached), reached, range_self, List.append_nil]
    · have lt : it.current < stop.current := by omega
      have low' : -2 ^ 31 ≤ it.current + 1 := by omega
      have enough' : (stop.current - (it.current + 1)).toNat < n := by omega
      have rest : iterate stop n ⟨it.current + 1⟩ (seen ++ [it.current]) =
          .ended (seen ++ [it.current] ++ Int.range (it.current + 1) stop.current) :=
        ih low' lt enough'
      rw [iterate, if_pos reached, incr_eq low lt fits, range_cons lt]
      simp only [rest, List.append_assoc, List.singleton_append]

theorem iterate_behind (gt : stop.current < it.current) :
    iterate stop n it seen ≠ .ended seen' := by
  induction n generalizing it seen with
  | zero => exact fun eq => by cases eq
  | succ n ih =>
    rw [iterate, if_pos (by omega)]
    cases next : it.incr with
    | none => exact fun eq => by cases eq
    | some it' =>
      obtain ⟨v, sum, rfl⟩ := Option.map_eq_some_iff.mp next
      obtain ⟨_, rfl⟩ := checked_eq_some.mp sum
      apply ih
      simp only
      omega

/-- The loop visits the interval exactly where the end can be computed and does not lie before
the start. -/
theorem range_visits_iff (r : Range) :
    Visits r ↔ r.mEnd < 2 ^ 31 - 1 ∧ r.mStart ≤ r.mEnd + 1 := by
  have start := fits_int.mp r.start_fits
  have finish := fits_int.mp r.end_fits
  by_cases fits : Fits 32 (r.mEnd + 1)
  · have sum : r.stop = some ⟨r.mEnd + 1⟩ := by
      rw [Range.stop, checked_eq_some.mpr ⟨fits, rfl⟩, Option.map_some]
    have below := (fits_int.mp fits).2
    constructor
    · rintro ⟨n, seen, ended, _, _⟩
      rw [forRange, sum] at ended
      refine ⟨by omega, ?_⟩
      by_contra gt
      exact iterate_behind (by simp only [Range.begin]; omega) ended
    · rintro ⟨_, le⟩
      refine ⟨(r.mEnd + 1 - r.mStart).toNat + 1, Int.range r.mStart (r.mEnd + 1), ?_,
        range_ascending, fun i => ?_⟩
      · rw [forRange, sum]
        exact iterate_ends start.1 fits le (Nat.lt_succ_self _)
      · rw [Int.mem_range_iff, Int.lt_add_one_iff]
  · constructor
    · rintro ⟨n, seen, ended, _, _⟩
      have sum : r.stop = none := by
        rw [Range.stop, checked, if_neg fits, Option.map_none]
      rw [forRange, sum] at ended
      cases ended
    · intro both
      exact absurd (fits_int.mpr (by omega)) fits

example : forRange ⟨10, 15, by decide, by decide⟩ 7 = .ended [10, 11, 12, 13, 14, 15] := by decide

/-- A range that is reversed by more than one, and one up to the largest number. -/
theorem range_astray : ¬ Visits ⟨2, 0, by decide, by decide⟩ ∧
    ¬ Visits ⟨0, 2 ^ 31 - 1, by decide, by decide⟩ := by
  constructor
  · rintro ⟨n, seen, ended, _, _⟩
    have behind : (⟨1⟩ : Iterator).current < (⟨2⟩ : Iterator).current := by decide
    exact iterate_behind behind ended
  · rintro ⟨n, seen, ended, _, _⟩
    cases ended

end LearnC.Tools
