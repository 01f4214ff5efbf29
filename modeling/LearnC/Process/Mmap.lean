import LearnC.Machine.Decimal
import LearnC.Machine.Stdio

/-! `3.mmap`: `mmap_write.c` leaves a number as text in a mapped file, and each run of
`mmap_read.c` prints the number there and doubles it. -/

namespace LearnC.Process.Mmap

def fileLength : Nat := 0x100

/-- `sprintf ((char*) file_memory, "%d\n", v)`. -/
def sprintf (fileMemory : Image) (v : Int) : Image :=
  fileMemory.write 0 (decimal v ++ [lineFeed] ++ [0])

def IsInt (v : Int) : Prop := -2 ^ 31 ≤ v ∧ v < 2 ^ 31

instance (v : Int) : Decidable (IsInt v) := inferInstanceAs (Decidable (_ ∧ _))

def int (v : Int) : Option Int := if IsInt v then some v else none

/-- What a run of `mmap_read.c` prints, and the memory behind it. No result where the text does
not end in the memory, where `integer` is not set, or where `2 * integer` overflows. -/
def mmapRead (fileMemory : Image) : Option (Int × Image) := do
  let text ← fileMemory.cString 0 fileLength
  let integer ← scanDecimal text
  let double ← int (2 * integer)
  some (integer, sprintf fileMemory double)

/-- So many runs of `mmap_read.c`, one after the other. -/
def reads : Nat → Image → Option (List Int × Image)
  | 0, fileMemory => some ([], fileMemory)
  | n + 1, fileMemory => do
    let (integer, fileMemory) ← mmapRead fileMemory
    let (integers, fileMemory) ← reads n fileMemory
    some (integer :: integers, fileMemory)

section
variable {m : Image} {v : Int} {n : Nat}

theorem stops_lineFeed : Stops [lineFeed] := by simp [Stops, lineFeed, digitValue]

theorem IsInt.of_power (fits : IsInt (v * 2 ^ n)) : IsInt v := by
  have pow : (0 : Int) < 2 ^ n := Int.pow_pos (by decide)
  have one : (1 : Int) ≤ 2 ^ n := pow
  obtain ⟨lo, hi⟩ := fits
  rcases Int.le_total 0 v with pos | neg
  · have grows := Int.mul_le_mul_of_nonneg_left one pos
    rw [Int.mul_one] at grows
    exact ⟨by omega, by omega⟩
  · have falls := Int.mul_le_mul_of_nonpos_left neg one
    rw [Int.mul_one] at falls
    exact ⟨by omega, by omega⟩

theorem sprintf_text (fits : IsInt v) :
    (sprintf m v).cString 0 fileLength = some (decimal v ++ [lineFeed]) := by
  have short := decimal_length fits.1 fits.2
  apply (Image.str_write ?_).cString
  · rw [List.length_append, List.length_singleton, fileLength]
    omega
  · rw [List.mem_append, not_or]
    exact ⟨decimal_text v, by decide⟩

theorem mmapRead_sprintf (fits : IsInt v) : mmapRead (sprintf m v) =
    if IsInt (2 * v) then some (v, sprintf (sprintf m v) (2 * v)) else none := by
  have back := scanDecimal_decimal stops_lineFeed fits.1 fits.2
  simp only [mmapRead, sprintf_text fits, back, Option.bind_eq_bind, Option.bind_some, int]
  by_cases double : IsInt (2 * v)
  · rw [if_pos double, if_pos double]
    rfl
  · rw [if_neg double, if_neg double]
    rfl

theorem reads_sprintf (fits : IsInt v) : (IsInt (v * 2 ^ n) →
      ∃ m', reads n (sprintf m v) = some ((List.range n).map fun i => v * 2 ^ i, m') ∧
        m'.cString 0 fileLength = some (decimal (v * 2 ^ n) ++ [lineFeed])) ∧
    (¬ IsInt (v * 2 ^ n) → reads n (sprintf m v) = none) := by
  induction n generalizing m v with
  | zero =>
    rw [Int.pow_zero, Int.mul_one]
    exact ⟨fun _ => ⟨_, rfl, sprintf_text fits⟩, fun not => absurd fits not⟩
  | succ n ih =>
    have power (i : Nat) : v * 2 ^ (i + 1) = 2 * v * 2 ^ i := by
      rw [Int.pow_succ, Int.mul_comm (2 ^ i), ← Int.mul_assoc, Int.mul_comm v]
    have run := mmapRead_sprintf (m := m) fits
    rw [reads, run, power]
    by_cases double : IsInt (2 * v)
    · rw [if_pos double]
      obtain ⟨more, less⟩ := ih (m := sprintf m v) double
      constructor
      · intro last
        obtain ⟨m', ret, text⟩ := more last
        refine ⟨m', ?_, text⟩
        simp only [Option.bind_eq_bind, Option.bind_some, ret]
        rw [List.range_succ_eq_map, List.map_cons, List.map_map]
        simp [Function.comp_def, power]
      · intro last
        simp only [Option.bind_eq_bind, Option.bind_some, less last]
        rfl
    · rw [if_neg double]
      exact ⟨fun last => absurd last.of_power double, fun _ => rfl⟩

end

/-- Behind `mmap_write.c`, whatever was in the file, so many runs of `mmap_read.c` have results
just when the last number is an `int`; they print the first number and its doubles in turn, and
the next one is left as text. -/
theorem readers_double (garbage : Image) (v : Int) (fits : IsInt v) (n : Nat) :
    ((reads n (sprintf garbage v)).isSome = true ↔ IsInt (v * 2 ^ n)) ∧
    ∀ integers m', reads n (sprintf garbage v) = some (integers, m') →
      integers = (List.range n).map (fun i => v * 2 ^ i) ∧
      m'.cString 0 fileLength = some (decimal (v * 2 ^ n) ++ [lineFeed]) := by
  obtain ⟨more, less⟩ := reads_sprintf (m := garbage) (n := n) fits
  by_cases last : IsInt (v * 2 ^ n)
  · obtain ⟨m', ret, text⟩ := more last
    refine ⟨iff_of_true (by rw [ret]; rfl) last, fun integers m'' ret' => ?_⟩
    rw [ret] at ret'
    cases ret'
    exact ⟨rfl, text⟩
  · have none := less last
    refine ⟨iff_of_false (by rw [none]; exact Bool.false_ne_true) last, fun integers m' ret => ?_⟩
    rw [none] at ret
    cases ret

/-- The least number of `random_range (-100, 100)`. -/
theorem three_readers : ∃ integers m', reads 3 (sprintf (fun _ => 0xff) (-100)) =
    some (integers, m') ∧ integers = [-100, -200, -400] := by
  obtain ⟨runs, values⟩ := readers_double (fun _ => 0xff) (-100) (by decide) 3
  obtain ⟨⟨integers, m'⟩, ret⟩ := Option.isSome_iff_exists.mp (runs.mpr (by decide))
  exact ⟨integers, m', ret, (values integers m' ret).1⟩

end LearnC.Process.Mmap
