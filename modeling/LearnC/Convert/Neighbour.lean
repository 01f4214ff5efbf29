import LearnC.Convert.Hex

/-! What `convert_str_to_hex` makes of the memory behind `c_tmp`: `strtol` is given the
address of a single character and reads on for as long as there are digits. -/

namespace LearnC.Convert

def isHex (b : UInt8) : Bool := decide (IsHex b)

/-- The digits of the number that `strtol` reads to the base 16. -/
def taken (l : List UInt8) : List UInt8 := (skipPrefix 16 l).takeWhile isHex

/-- The number that the digits denote is below 2^63. -/
def FitsLong (run : List UInt8) : Prop :=
  let significant := run.dropWhile (· == 48)
  significant.length < 16 ∨
    significant.length = 16 ∧ ∀ b ∈ significant.head?, (hexValue b).val < 8

/-- What stands behind the digit does not change the digit that is read: the number ends
with a digit of the same value, or it is too large for a `long` and the digit is an f. -/
def Harmless (d : UInt8) (after : List UInt8) : Prop :=
  FitsLong (taken (d :: after)) ∧ (taken (d :: after)).getLast?.map hexValue = some (hexValue d) ∨
    ¬ FitsLong (taken (d :: after)) ∧ (hexValue d).val = 15

/-- `convert_str_to_hex`, whose own buffer for the string has 64 bytes; `none` where the
string leaves no room for a zero byte in it. `instr` has `n` bytes. -/
def strToHex (after : Nat → List UInt8) (instr outbuf : Image) (n : Nat) : Option Image :=
  if instr.strlen 0 n < 64 then some (convertStrToHex 64 after instr outbuf) else none

/-- With both contents of the memory behind `c_tmp` the bytes are the same, and their
digits are those of the string, counted from its end. -/
def Determined (after after' : Nat → List UInt8) (instr outbuf : Image) (n : Nat)
    (s : List UInt8) : Prop :=
  ∃ out out', strToHex after instr outbuf n = some out ∧
    strToHex after' instr outbuf n = some out' ∧
    (∀ i < byteInStr instr n, out i = out' i) ∧
    ∀ i (h : i < s.reverse.length), out.nibble i = hexValue s.reverse[i] ∧
      out'.nibble i = hexValue s.reverse[i]

variable {instr outbuf : Image} {n k v : Nat} {l s run rest : List UInt8} {b d : UInt8}
  {after after' : Nat → List UInt8}

/-! ## The number that is read -/

theorem isHex_iff : isHex b = true ↔ IsHex b := decide_eq_true_iff

theorem hex_taken (mem : b ∈ taken l) : IsHex b := isHex_iff.mp (List.mem_takeWhile_imp mem)

theorem digits_hex : digits 16 k (l.takeWhile isHex) = digits 16 k l := digits_takeWhile

theorem digits_cons (hex : IsHex b) :
    digits 16 k (b :: l) = digits 16 (16 * k + digitValue b) l := if_pos hex

theorem digits_last (hex : ∀ b ∈ run, IsHex b) (last : run.getLast? = some d) :
    digits 16 k run % 16 = digitValue d := by
  induction run generalizing k with
  | nil => cases last
  | cons b run ih =>
    rw [List.forall_mem_cons] at hex
    rw [digits_cons hex.1]
    cases run with
    | nil =>
      rw [List.getLast?_singleton, Option.some_inj] at last
      subst last
      have small : digitValue b < 16 := hex.1
      rw [digits]
      omega
    | cons c run => exact ih hex.2 (by simpa using last)

theorem digits_bounds (hex : ∀ b ∈ run, IsHex b) :
    16 ^ run.length * k ≤ digits 16 k run ∧ digits 16 k run < 16 ^ run.length * (k + 1) := by
  induction run generalizing k with
  | nil => simp [digits]
  | cons b run ih =>
    rw [List.forall_mem_cons] at hex
    have small : digitValue b < 16 := hex.1
    obtain ⟨above, below⟩ := ih (k := 16 * k + digitValue b) hex.2
    rw [digits_cons hex.1, List.length_cons, Nat.pow_succ, Nat.mul_assoc, Nat.mul_assoc]
    constructor
    · exact Nat.le_trans (Nat.mul_le_mul_left _ (Nat.le_add_right _ _)) above
    · exact Nat.lt_of_lt_of_le below (Nat.mul_le_mul_left _ (by omega))

theorem digits_zeros : digits 16 0 (run.dropWhile (· == 48)) = digits 16 0 run := by
  induction run with
  | nil => rfl
  | cons b run ih =>
    by_cases zero : b = 48
    · subst zero
      rw [List.dropWhile_cons_of_pos rfl, ih]
      rfl
    · rw [List.dropWhile_cons_of_neg (by simpa using zero)]

theorem digitValue_pos (hex : IsHex b) (ne : b ≠ 48) : 0 < digitValue b :=
  byte_forall (P := fun b => IsHex b → b ≠ 48 → 0 < digitValue b) (by decide +kernel) b hex ne

theorem hexValue_val (hex : IsHex b) : (hexValue b).val = digitValue b := Nat.mod_eq_of_lt hex

/-- A `long` holds fifteen digits, and sixteen that begin below 8. -/
theorem fitsLong_iff (hex : ∀ b ∈ run, IsHex b) : FitsLong run ↔ digits 16 0 run < 2 ^ 63 := by
  rw [← digits_zeros, FitsLong]
  have sub := (List.dropWhile_suffix (p := (· == 48)) (l := run)).subset
  have first := List.head?_dropWhile_not (· == (48 : UInt8)) run
  generalize run.dropWhile (· == 48) = t at sub first
  cases t with
  | nil => simp [digits]
  | cons b t =>
    have hexs : ∀ x ∈ b :: t, IsHex x := fun x mem => hex x (sub mem)
    rw [List.forall_mem_cons] at hexs
    have ne : b ≠ 48 := by simpa using first
    have pos := digitValue_pos hexs.1 ne
    have small : digitValue b < 16 := hexs.1
    obtain ⟨above, below⟩ := digits_bounds (k := digitValue b) hexs.2
    rw [digits_cons hexs.1, Nat.mul_zero, Nat.zero_add]
    simp only [List.length_cons, List.head?_cons, Option.mem_some_iff, forall_eq',
      hexValue_val hexs.1]
    rcases Nat.lt_trichotomy t.length 15 with lt | eq | gt
    · have weight : 16 ^ t.length ≤ 16 ^ 14 := Nat.pow_le_pow_right (by decide) (by omega)
      have most : 16 ^ t.length * (digitValue b + 1) ≤ 16 ^ 14 * 16 :=
        Nat.mul_le_mul weight (by omega)
      constructor
      · intro _
        omega
      · intro _
        omega
    · rw [eq] at above below ⊢
      omega
    · have weight : 16 ^ 16 ≤ 16 ^ t.length := Nat.pow_le_pow_right (by decide) (by omega)
      have least : 16 ^ 16 * 1 ≤ 16 ^ t.length * digitValue b := Nat.mul_le_mul weight pos
      omega

theorem strtol_digits (hex : IsHex d) :
    strtol 16 (d :: rest) = min (2 ^ 63 - 1) (digits 16 0 (taken (d :: rest)) : Int) := by
  rw [taken, digits_hex, strtol_unsigned (Nat.lt_trans hex (by decide))]

/-- At least the digit itself is read, or the one behind `0x`. -/
theorem taken_last (hex : IsHex d) : ∃ x, (taken (d :: rest)).getLast? = some x ∧ IsHex x := by
  have ne : taken (d :: rest) ≠ [] := by
    rw [taken]
    unfold skipPrefix
    split
    · rename_i zero x e l eq
      split
      · rename_i skip
        have next : IsHex e := skip.2.2.2
        rw [List.takeWhile_cons_of_pos (isHex_iff.mpr next)]
        exact List.cons_ne_nil _ _
      · obtain ⟨rfl, rfl⟩ := List.cons.inj eq
        rw [List.takeWhile_cons_of_pos (isHex_iff.mpr hex)]
        exact List.cons_ne_nil _ _
    · rw [List.takeWhile_cons_of_pos (isHex_iff.mpr hex)]
      exact List.cons_ne_nil _ _
  exact ⟨_, List.getLast?_eq_some_getLast ne, hex_taken (List.getLast_mem ne)⟩

/-- Which digit a round reads. -/
theorem digit_read (hex : IsHex d) :
    nibbleOf (strtol 16 (d :: rest)) = hexValue d ↔ Harmless d rest := by
  obtain ⟨x, last, hexx⟩ : ∃ x, (taken (d :: rest)).getLast? = some x ∧ IsHex x :=
    taken_last hex
  have all : ∀ b ∈ taken (d :: rest), IsHex b := fun _ => hex_taken
  have low := digits_last (k := 0) all last
  rw [Harmless, fitsLong_iff all, last, Option.map_some, Option.some_inj, strtol_digits hex,
    Fin.ext_iff, Fin.ext_iff, hexValue_val hex, hexValue_val hexx]
  generalize digits 16 0 (taken (d :: rest)) = v at low
  have small : digitValue d < 16 := hex
  simp only [nibbleOf, Fin.ofNat]
  by_cases fits : v < 2 ^ 63
  · have value : min (2 ^ 63 - 1) (v : Int) = v := by omega
    rw [value]
    omega
  · have value : min (2 ^ 63 - 1) (v : Int) = 2 ^ 63 - 1 := by omega
    rw [value]
    omega

theorem harmless_of_stop (hex : IsHex d) (stop : ∀ b ∈ rest.head?, ¬ IsHex b ∧ b ≠ 120 ∧ b ≠ 88) :
    Harmless d rest := by
  have alone : taken (d :: rest) = [d] := by
    rw [taken]
    cases rest with
    | nil =>
      rw [skipPrefix, List.takeWhile_cons_of_pos (isHex_iff.mpr hex), List.takeWhile_nil]
      exact fun _ _ _ _ eq => by cases eq
    | cons b rest =>
      obtain ⟨no, small, large⟩ := stop b rfl
      have stays : skipPrefix 16 (d :: b :: rest) = d :: b :: rest := by
        cases rest with
        | nil => rfl
        | cons c rest =>
          apply if_neg
          rintro ⟨_, _, x, _⟩
          exact x.elim small large
      rw [stays, List.takeWhile_cons_of_pos (isHex_iff.mpr hex),
        List.takeWhile_cons_of_neg (mt isHex_iff.mp no)]
  rw [Harmless, alone]
  refine Or.inl ⟨Or.inl ?_, rfl⟩
  have le := (List.dropWhile_suffix (p := (· == (48 : UInt8))) (l := [d])).length_le
  exact Nat.lt_of_le_of_lt le (by simp)

/-! ## Two runs -/

/-- The digits are those of the string where every round reads its own. -/
theorem nibbles_iff (h : instr.Str 0 s) (fits : s.length < 64) (hex : ∀ b ∈ s, IsHex b) :
    (∀ i (h : i < s.reverse.length),
        (convertStrToHex 64 after instr outbuf).nibble i = hexValue s.reverse[i]) ↔
      ∀ i (h : i < s.reverse.length), Harmless s.reverse[i] (after i) := by
  have packed : (convertStrToHex 64 after instr outbuf).Holds 0
      (pack (nibblesRead after s.reverse)) := convertStrToHex_nibbles h fits
  apply forall_congr'
  intro i
  apply forall_congr'
  intro lt
  have lt' : i < (nibblesRead after s.reverse).length := by rwa [nibblesRead_length]
  have hexs : IsHex s.reverse[i] := hex _ (List.mem_reverse.mp (List.getElem_mem lt))
  rw [nibble_of_pack packed lt', nibblesRead_getElem lt lt', digit_read hexs]

theorem packed_congr {m m' : Image} {l : List (Fin 16)} {i : Nat} (h : m.Holds 0 (pack l))
    (h' : m'.Holds 0 (pack l)) (lt : i < (l.length + 1) / 2) : m i = m' i := by
  have lt' : i < (pack l).length := by rwa [pack_length]
  have byte := Image.holds_iff.mp h i lt'
  have byte' := Image.holds_iff.mp h' i lt'
  rw [Nat.zero_add] at byte byte'
  rw [byte, byte']

/-- What `convert_str_to_hex` makes of a string is determined by the string exactly where the
string fits and what stands behind `c_tmp` is harmless to each of its digits. -/
theorem convertStrToHex_determined (after after' : Nat → List UInt8) (instr outbuf : Image)
    (n : Nat) (s : List UInt8) (h : instr.Str 0 s) (lt : s.length < n)
    (hex : ∀ b ∈ s, IsHex b) :
    Determined after after' instr outbuf n s ↔ s.length < 64 ∧
      ∀ i (h : i < s.reverse.length),
        Harmless s.reverse[i] (after i) ∧ Harmless s.reverse[i] (after' i) := by
  rw [Determined, strToHex, strToHex, byteInStr, h.strlen lt]
  by_cases fits : s.length < 64
  · simp only [fits, ↓reduceIte, Option.some.injEq, true_and, exists_and_left, exists_eq_left',
      forall_and]
    rw [nibbles_iff h fits hex, nibbles_iff h fits hex]
    constructor
    · exact fun both => both.2
    · intro harmless
      refine ⟨fun i lt => ?_, harmless⟩
      have packed : (convertStrToHex 64 after instr outbuf).Holds 0
          (pack (nibblesRead after s.reverse)) := convertStrToHex_nibbles h fits
      have packed' : (convertStrToHex 64 after' instr outbuf).Holds 0
          (pack (nibblesRead after' s.reverse)) := convertStrToHex_nibbles h fits
      have same : nibblesRead after' s.reverse = nibblesRead after s.reverse := by
        apply List.ext_getElem (by rw [nibblesRead_length, nibblesRead_length])
        intro i lt _
        rw [nibblesRead_length] at lt
        have hexs : IsHex s.reverse[i] := hex _ (List.mem_reverse.mp (List.getElem_mem lt))
        rw [nibblesRead_getElem lt, nibblesRead_getElem lt,
          (digit_read hexs).mpr (harmless.1 i lt), (digit_read hexs).mpr (harmless.2 i lt)]
      rw [same] at packed'
      apply packed_congr packed packed'
      rwa [nibblesRead_length, List.length_reverse]
  · simp [fits]

/-- The last digit of a string, with nothing behind it and with another digit behind it. -/
theorem digit_behind : ¬ Determined (fun _ => []) (fun _ => [50]) (holding (chars "1"))
    (holding []) 64 (chars "1") := by
  rintro ⟨_, out, _, run, _, digits⟩
  obtain ⟨h, fits⟩ : (holding (chars "1")).Str 0 (chars "1") ∧ (chars "1").length < 64 :=
    ⟨Image.str_write (by decide), by decide⟩
  rw [strToHex, h.strlen fits, if_pos fits, Option.some_inj] at run
  have packed : (convertStrToHex 64 (fun _ => [50]) (holding (chars "1")) (holding [])).Holds 0
      (pack (nibblesRead (fun _ => [50]) (chars "1").reverse)) := convertStrToHex_nibbles h fits
  rw [run] at packed
  have read := (digits 0 (by decide)).2
  rw [nibble_of_pack packed (by decide)] at read
  revert read
  decide

theorem nothing_behind : Determined (fun _ => []) (fun _ => []) (holding (chars "1"))
    (holding []) 64 (chars "1") := by
  have hex : (chars "1").all (fun b => decide (IsHex b)) = true := by decide
  refine (convertStrToHex_determined _ _ _ _ 64 (chars "1") (Image.str_write (by decide))
    (by decide) fun b mem => of_decide_eq_true (List.all_eq_true.mp hex b mem)).mpr
      ⟨by decide, fun i lt => ?_⟩
  have hexs : IsHex (chars "1").reverse[i] := of_decide_eq_true
    (List.all_eq_true.mp hex _ (List.mem_reverse.mp (List.getElem_mem lt)))
  exact ⟨harmless_of_stop hexs (by simp), harmless_of_stop hexs (by simp)⟩

end LearnC.Convert
