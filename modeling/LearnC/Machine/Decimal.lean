import LearnC.Machine.Strings

/-! Numbers in decimal digits: what `%d` prints, and what reads it back. -/

namespace LearnC

/-- The character of a digit. -/
def digitChar (d : Nat) : UInt8 := UInt8.ofNat (48 + d)

/-- The digits of a number, without leading zeros. -/
def decimalNat (n : Nat) : List UInt8 :=
  if n < 10 then [digitChar n] else decimalNat (n / 10) ++ [digitChar (n % 10)]

/-- `%d` of `printf`. -/
def decimal (v : Int) : List UInt8 :=
  if v < 0 then 45 :: decimalNat v.natAbs else decimalNat v.natAbs

/-- `%d` of `sscanf`: nothing where there is no number. -/
def scanDecimal (l : List UInt8) : Option Int := if strtolEnd 10 l = l then none else some (atoi l)

/-- No digit follows. -/
def Stops (rest : List UInt8) : Prop := ∀ b ∈ rest.head?, 10 ≤ digitValue b

section
variable {d n k : Nat} {b : UInt8} {l rest : List UInt8} {v : Int}

theorem digitValue_digitChar (lt : d < 10) : digitValue (digitChar d) = d := by
  have all : ∀ d : Fin 10, digitValue (digitChar d) = d := by decide
  exact all ⟨d, lt⟩

theorem decimalNat_digit (mem : b ∈ decimalNat n) : digitValue b < 10 := by
  fun_induction decimalNat n with
  | case1 n lt =>
    rw [List.mem_singleton.mp mem, digitValue_digitChar lt]
    exact lt
  | case2 n ge ih =>
    rcases List.mem_append.mp mem with mem | mem
    · exact ih mem
    · have lt : n % 10 < 10 := Nat.mod_lt n (by decide)
      rw [List.mem_singleton.mp mem, digitValue_digitChar lt]
      exact lt

theorem decimalNat_cons (n : Nat) : ∃ b l, decimalNat n = b :: l := by
  fun_induction decimalNat n with
  | case1 n lt => exact ⟨_, _, rfl⟩
  | case2 n ge ih =>
    obtain ⟨b, l, eq⟩ := ih
    exact ⟨b, l ++ [digitChar (n % 10)], by rw [eq, List.cons_append]⟩

/-- The digits of a number denote it. -/
theorem digits_decimalNat (n : Nat) (rest : List UInt8) :
    digits 10 0 (decimalNat n ++ rest) = digits 10 n rest := by
  fun_induction decimalNat n generalizing rest with
  | case1 n lt =>
    have value := digitValue_digitChar lt
    rw [List.singleton_append, digits, value, if_pos lt, Nat.mul_zero, Nat.zero_add]
  | case2 n ge ih =>
    have lt : n % 10 < 10 := Nat.mod_lt n (by decide)
    rw [List.append_assoc, ih, List.singleton_append, digits, digitValue_digitChar lt, if_pos lt,
      Nat.div_add_mod]

theorem digits_stops (stops : Stops rest) : digits 10 n rest = n := by
  cases rest with
  | nil => rfl
  | cons b rest => exact if_neg (Nat.not_lt.mpr (stops b rfl))

theorem decimalNat_length (pos : 0 < k) (lt : n < 10 ^ k) : (decimalNat n).length ≤ k := by
  induction k generalizing n with
  | zero => cases pos
  | succ k ih =>
    rw [decimalNat]
    split
    · exact Nat.succ_le_succ (Nat.zero_le k)
    · next ge =>
      rw [Nat.pow_succ] at lt
      have more : 0 < k := by
        rcases Nat.eq_zero_or_pos k with rfl | pos
        · omega
        · exact pos
      have shorter := ih (n := n / 10) more (by omega)
      rw [List.length_append, List.length_singleton]
      omega

theorem skipPrefix_ten : skipPrefix 10 l = l := by
  unfold skipPrefix
  split
  · exact if_neg fun both => absurd both.1 (by decide)
  · rfl

/-- What `strtol` and its end pointer make of digits. -/
theorem number_end (stops : Stops rest) (n : Nat) :
    (decimalNat n ++ rest).takeWhile (fun b => decide (digitValue b < 10)) ≠ [] ∧
    (decimalNat n ++ rest).dropWhile (fun b => decide (digitValue b < 10)) = rest := by
  have all : ∀ b ∈ decimalNat n, decide (digitValue b < 10) = true :=
    fun b mem => decide_eq_true (decimalNat_digit mem)
  constructor
  · obtain ⟨b, l, eq⟩ := decimalNat_cons n
    rw [List.takeWhile_append_of_pos all, eq]
    simp
  · rw [List.dropWhile_append_of_pos all]
    cases rest with
    | nil => rfl
    | cons b rest =>
      exact List.dropWhile_cons_of_neg (by simpa using stops b rfl)

/-- A printed number is read back, and reading stops behind it. -/
theorem strtol_decimal (stops : Stops rest) (lo : -2 ^ 63 ≤ v) (hi : v < 2 ^ 63) :
    strtol 10 (decimal v ++ rest) = v ∧ strtolEnd 10 (decimal v ++ rest) = rest := by
  have value : digits 10 0 (decimalNat v.natAbs ++ rest) = v.natAbs := by
    rw [digits_decimalNat, digits_stops stops]
  obtain ⟨some, last⟩ := number_end stops v.natAbs
  rw [decimal]
  split
  · next neg =>
    have blank : (45 :: (decimalNat v.natAbs ++ rest)).dropWhile isSpace =
        45 :: (decimalNat v.natAbs ++ rest) :=
      List.dropWhile_cons_of_neg (by decide)
    constructor
    · rw [List.cons_append, strtol, blank]
      simp only [skipPrefix_ten, value]
      omega
    · rw [List.cons_append, strtolEnd, blank]
      simp only [skipPrefix_ten, if_neg some, last]
  · next pos =>
    obtain ⟨b, l, eq⟩ := decimalNat_cons v.natAbs
    have digit : digitValue b < 36 := by
      have := decimalNat_digit (n := v.natAbs) (b := b) (by rw [eq]; exact List.mem_cons_self)
      omega
    rw [eq, List.cons_append] at value some last ⊢
    constructor
    · rw [strtol_unsigned digit, skipPrefix_ten, value]
      omega
    · rw [strtolEnd_unsigned digit]
      simp only [skipPrefix_ten, if_neg some, last]

theorem decimal_ne_nil (v : Int) : decimal v ≠ [] := by
  obtain ⟨b, l, eq⟩ := decimalNat_cons v.natAbs
  rw [decimal]
  split
  · simp
  · simp [eq]

/-- An `int` is read back. -/
theorem scanDecimal_decimal (stops : Stops rest) (lo : -2 ^ 31 ≤ v) (hi : v < 2 ^ 31) :
    scanDecimal (decimal v ++ rest) = some v := by
  obtain ⟨value, last⟩ := strtol_decimal stops (v := v) (by omega) (by omega)
  have moved : strtolEnd 10 (decimal v ++ rest) ≠ decimal v ++ rest := by
    rw [last]
    intro eq
    have length := congrArg List.length eq
    have pos := List.length_pos_iff.mpr (decimal_ne_nil v)
    rw [List.length_append] at length
    omega
  rw [scanDecimal, if_neg moved, atoi, value]
  congr 1
  exact Int.bmod_eq_of_le (by omega) (by omega)

/-- An `int` has at most a sign and ten digits. -/
theorem decimal_length (lo : -2 ^ 31 ≤ v) (hi : v < 2 ^ 31) : (decimal v).length ≤ 11 := by
  have digits := decimalNat_length (n := v.natAbs) (k := 10) (by decide) (by omega)
  rw [decimal]
  split
  · exact Nat.succ_le_succ digits
  · omega

theorem decimal_text (v : Int) : 0 ∉ decimal v := by
  have free (n : Nat) : 0 ∉ decimalNat n := by
    intro mem
    exact absurd (decimalNat_digit mem) (by decide)
  rw [decimal]
  split
  · rw [List.mem_cons, not_or]
    exact ⟨by decide, free _⟩
  · exact free _

end

end LearnC
