import LearnC.Machine.Signed
import Mathlib.Data.Int.DivMod

/-! `time_func.c`: the milliseconds between two instants, from seconds with nanoseconds and
from seconds with microseconds. -/

namespace LearnC.Tools

/-- A normalised `struct timespec`. -/
structure Timespec where
  sec : Int
  nsec : Int
  nonneg : 0 ≤ nsec
  lt : nsec < 10 ^ 9

structure Timeval where
  sec : Int
  usec : Int
  nonneg : 0 ≤ usec
  lt : usec < 10 ^ 6

/-- What `measure_cpu_time2` prints, unless a `long` overflows on the way. -/
def measureCpuTime2 (time1 time2 : Timespec) : Option Int :=
  (checked 64 (time2.sec - time1.sec)).bind fun sec =>
  (checked 64 (sec * 1000)).bind fun ms =>
  (checked 64 (time2.nsec - time1.nsec)).bind fun nsec =>
  checked 64 (ms + nsec.tdiv 1000000)

def measureCpuTime3 (tmstart tmend : Timeval) : Option Int :=
  (checked 64 (tmend.sec - tmstart.sec)).bind fun sec =>
  (checked 64 (1000000 * sec)).bind fun us =>
  (checked 64 (tmend.usec - tmstart.usec)).bind fun usec =>
  (checked 64 (us + usec)).bind fun timeuse =>
  some (timeuse.tdiv 1000)

def Timespec.nanos (t : Timespec) : Int := t.sec * 10 ^ 9 + t.nsec

/-- The instant as a `struct timeval`, exact for whole microseconds. -/
def Timespec.toTimeval (t : Timespec) : Timeval where
  sec := t.sec
  usec := t.nsec / 1000
  nonneg := by
    have := t.nonneg
    omega
  lt := by
    have := t.lt
    omega

def Timespec.Whole (t : Timespec) : Prop := 1000 ∣ t.nsec

/-- The milliseconds that have passed are printed, and for whole microseconds they are the
same from both. -/
structure Floors (t1 t2 : Timespec) : Prop where
  millis : measureCpuTime2 t1 t2 = some ((t2.nanos - t1.nanos) / 10 ^ 6)
  micros : t1.Whole → t2.Whole →
    measureCpuTime3 t1.toTimeval t2.toTimeval = measureCpuTime2 t1 t2

/-- The nanoseconds do not fall by a part of a millisecond, and neither the milliseconds nor,
where they are computed, the microseconds overflow. -/
structure Exact (t1 t2 : Timespec) : Prop where
  nsec : t1.nsec ≤ t2.nsec ∨ 10 ^ 6 ∣ t1.nsec - t2.nsec
  millis : (t2.sec - t1.sec) * 10 ^ 3 < 2 ^ 63 ∧ (t2.nanos - t1.nanos) / 10 ^ 6 < 2 ^ 63
  micros : t1.Whole → t2.Whole →
    (t2.sec - t1.sec) * 10 ^ 6 < 2 ^ 63 ∧ (t2.nanos - t1.nanos) / 10 ^ 3 < 2 ^ 63

variable {t1 t2 : Timespec} {v : Int}

theorem tdiv_eq_floor_iff {a b : Int} (pos : 0 < b) : a.tdiv b = a / b ↔ 0 ≤ a ∨ b ∣ a := by
  rw [Int.tdiv_eq_ediv]
  split
  case isTrue exact => simp [exact]
  case isFalse cut =>
    rw [Int.sign_eq_one_of_pos pos]
    simp only [cut, iff_false]
    omega

theorem measureCpuTime2_eq (le : t1.nanos ≤ t2.nanos) : measureCpuTime2 t1 t2 = some v ↔
    (t2.sec - t1.sec) * 1000 < 2 ^ 63 ∧
      (t2.sec - t1.sec) * 1000 + (t2.nsec - t1.nsec).tdiv 1000000 < 2 ^ 63 ∧
      (t2.sec - t1.sec) * 1000 + (t2.nsec - t1.nsec).tdiv 1000000 = v := by
  have := t1.nonneg
  have := t2.nonneg
  have := t1.lt
  have := t2.lt
  rw [Timespec.nanos, Timespec.nanos] at le
  have near : -1000 < (t2.nsec - t1.nsec).tdiv 1000000 ∧
      (t2.nsec - t1.nsec).tdiv 1000000 < 1000 := by
    have sign : Int.sign 1000000 = 1 := rfl
    rw [Int.tdiv_eq_ediv, sign]
    split <;> omega
  unfold measureCpuTime2
  rw [checked_bind, checked_bind, checked_bind, checked_eq_some]
  simp only [fits_long]
  omega

theorem measureCpuTime3_eq (le : t1.nanos ≤ t2.nanos) (whole : t1.Whole) (whole' : t2.Whole) :
    measureCpuTime3 t1.toTimeval t2.toTimeval = some v ↔
      (t2.sec - t1.sec) * 10 ^ 6 < 2 ^ 63 ∧ (t2.nanos - t1.nanos) / 10 ^ 3 < 2 ^ 63 ∧
        (t2.nanos - t1.nanos) / 10 ^ 6 = v := by
  have := t1.nonneg
  have := t2.nonneg
  have := t1.lt
  have := t2.lt
  rw [Timespec.Whole] at whole whole'
  rw [Timespec.nanos, Timespec.nanos] at le ⊢
  -- The sum of the microseconds is not negative, so that it is rounded down.
  have micros : 1000000 * (t2.sec - t1.sec) + (t2.nsec / 1000 - t1.nsec / 1000) =
      (t2.sec * 10 ^ 9 + t2.nsec - (t1.sec * 10 ^ 9 + t1.nsec)) / 10 ^ 3 := by omega
  have floor : ((t2.sec * 10 ^ 9 + t2.nsec - (t1.sec * 10 ^ 9 + t1.nsec)) / 10 ^ 3).tdiv 1000 =
      (t2.sec * 10 ^ 9 + t2.nsec - (t1.sec * 10 ^ 9 + t1.nsec)) / 10 ^ 6 := by
    rw [Int.tdiv_eq_ediv_of_nonneg (by omega)]
    omega
  unfold measureCpuTime3
  rw [checked_bind, checked_bind, checked_bind, checked_bind]
  simp only [Timespec.toTimeval, micros, floor, fits_long, Option.some_inj]
  omega

/-- The milliseconds are right exactly where the nanoseconds do not fall by a part of a
millisecond and nothing overflows. -/
theorem measureCpuTime_floors_iff (t1 t2 : Timespec) (le : t1.nanos ≤ t2.nanos) :
    Floors t1 t2 ↔ Exact t1 t2 := by
  have sum : (t2.nanos - t1.nanos) / 10 ^ 6 =
      (t2.sec - t1.sec) * 1000 + (t2.nsec - t1.nsec) / 1000000 := by
    rw [Timespec.nanos, Timespec.nanos]
    omega
  have cut : (t2.nsec - t1.nsec).tdiv 1000000 = (t2.nsec - t1.nsec) / 1000000 ↔
      t1.nsec ≤ t2.nsec ∨ 10 ^ 6 ∣ t1.nsec - t2.nsec := by
    rw [tdiv_eq_floor_iff (by decide)]
    omega
  constructor
  · rintro ⟨millis, micros⟩
    obtain ⟨small, fits, eq⟩ := (measureCpuTime2_eq le).mp millis
    refine ⟨cut.mp (by omega), ⟨small, by omega⟩, fun whole whole' => ?_⟩
    obtain ⟨small, fits, _⟩ :=
      (measureCpuTime3_eq le whole whole').mp ((micros whole whole').trans millis)
    exact ⟨small, fits⟩
  · rintro ⟨nsec, ⟨small, fits⟩, micros⟩
    have floor := cut.mpr nsec
    have millis : measureCpuTime2 t1 t2 = some ((t2.nanos - t1.nanos) / 10 ^ 6) :=
      (measureCpuTime2_eq le).mpr ⟨small, by omega, by omega⟩
    refine ⟨millis, fun whole whole' => ?_⟩
    rw [millis, measureCpuTime3_eq le whole whole']
    exact ⟨(micros whole whole').1, (micros whole whole').2, rfl⟩

def early : Timespec := ⟨5, 500000000, by decide, by decide⟩

def late : Timespec := ⟨8, 0, by decide, by decide⟩

theorem whole_millis : Floors early late :=
  (measureCpuTime_floors_iff early late (by decide)).mpr
    ⟨Or.inr (by decide), ⟨by decide, by decide⟩, fun _ _ => ⟨by decide, by decide⟩⟩

/-- A second less a nanosecond counts as a whole one. -/
theorem second_crossed : ¬ Floors ⟨0, 1, by decide, by decide⟩ ⟨1, 0, by decide, by decide⟩ :=
  fun h => absurd h.millis (by decide)

end LearnC.Tools
