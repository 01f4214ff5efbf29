import Mathlib.Algebra.Order.Group.Nat
import Mathlib.Data.List.GetD
import Mathlib.Tactic.Ring

/-! Objects as the bytes they occupy: numbers stored with the least significant
byte first, and strings that end with a zero byte. -/

namespace LearnC

/-- What is checked of 256 numbers holds of every byte. -/
theorem byte_forall {P : UInt8 → Prop} (all : ∀ n : Fin 256, P (UInt8.ofNat n.val)) (b : UInt8) :
    P b := by
  simpa using all ⟨b.toNat, b.toNat_lt⟩

/-- The bytes of an object by their offset. -/
abbrev Image := Nat → UInt8

namespace Image

/-- The number in `n` bytes. -/
def get (m : Image) (off : Nat) : Nat → Nat
  | 0 => 0
  | n + 1 => (m off).toNat + 256 * m.get (off + 1) n

/-- `n` bytes overwritten, given by their distance from `off`. -/
def fill (m : Image) (off n : Nat) (byte : Nat → UInt8) : Image :=
  fun i => if off ≤ i ∧ i < off + n then byte (i - off) else m i

/-- `n` bytes overwritten with a number. -/
def set (m : Image) (off n v : Nat) : Image := m.fill off n fun i => UInt8.ofNat (v / 256 ^ i)

/-- The string that starts at `off`, if it ends within `n` bytes. -/
def cString (m : Image) (off : Nat) : Nat → Option (List UInt8)
  | 0 => none
  | n + 1 => if m off = 0 then some [] else (m.cString (off + 1) n).map (m off :: ·)

/-- `strncpy`: the rest of the `n` bytes is zero. -/
def strncpy (m : Image) (off n : Nat) (src : List UInt8) : Image :=
  m.fill off n fun i => src.getD i 0

section
variable {m m' : Image} {off off' n n' i v : Nat} {byte : Nat → UInt8} {b : UInt8}
  {l l' : List UInt8}

theorem fill_in (h : off ≤ i) (lt : i < off + n) : m.fill off n byte i = byte (i - off) :=
  if_pos ⟨h, lt⟩

theorem fill_out (h : i < off ∨ off + n ≤ i) : m.fill off n byte i = m i := by
  apply if_neg
  omega

theorem set_out (h : i < off ∨ off + n ≤ i) : m.set off n v i = m i := fill_out h

theorem strncpy_out (h : i < off ∨ off + n ≤ i) : m.strncpy off n l i = m i := fill_out h

/-! ## Numbers -/

theorem get_congr (same : ∀ i, off ≤ i → i < off + n → m' i = m i) :
    m'.get off n = m.get off n := by
  induction n generalizing off with
  | zero => rfl
  | succ n ih =>
    rw [get, get, same off (Nat.le_refl off) (by omega), ih]
    intro i le lt
    exact same i (by omega) (by omega)

theorem get_lt : m.get off n < 256 ^ n := by
  induction n generalizing off with
  | zero => exact Nat.one_pos
  | succ n ih =>
    have first := (m off).toNat_lt
    have rest : m.get (off + 1) n < 256 ^ n := ih
    rw [get, Nat.pow_succ]
    omega

/-- A number is read back from where it was written. -/
theorem get_set (h : v < 256 ^ n) : (m.set off n v).get off n = v := by
  -- The bytes from distance `d` on hold what is left of the number there.
  have tail (d k : Nat) (hk : d + k = n) : (m.set off n v).get (off + d) k = v / 256 ^ d := by
    induction k generalizing d with
    | zero =>
      rw [get]
      exact (Nat.div_eq_of_lt (by simpa [← hk] using h)).symm
    | succ k ih =>
      have byte : m.set off n v (off + d) = UInt8.ofNat (v / 256 ^ d) := by
        rw [set, fill_in (by omega) (by omega), Nat.add_sub_cancel_left]
      rw [get, byte, Nat.add_assoc, ih (d + 1) (by omega), Nat.pow_succ,
        ← Nat.div_div_eq_div_mul, UInt8.toNat_ofNat']
      exact Nat.mod_add_div _ 256
  simpa using tail 0 n (Nat.zero_add n)

theorem get_fill_out (h : off + n ≤ off' ∨ off' + n' ≤ off) :
    (m.fill off' n' byte).get off n = m.get off n := by
  apply get_congr
  intro i le lt
  apply fill_out
  omega

theorem get_set_out (h : off + n ≤ off' ∨ off' + n' ≤ off) :
    (m.set off' n' v).get off n = m.get off n := get_fill_out h

theorem get_eq_zero (h : m.get off n = 0) (le : off ≤ i) (lt : i < off + n) : m i = 0 := by
  induction n generalizing off with
  | zero => omega
  | succ n ih =>
    rw [get] at h
    by_cases first : i = off
    · subst first
      apply UInt8.toNat_inj.mp
      rw [UInt8.toNat_zero]
      omega
    · have rest : m.get (off + 1) n = 0 := by omega
      exact ih rest (by omega) (by omega)

/-- A number that fits into one byte leaves the other bytes zero. -/
theorem get_small (h : m.get off n < 256) (lt : off < i) (le : i < off + n) : m i = 0 := by
  cases n with
  | zero => omega
  | succ n =>
    rw [get] at h
    have rest : m.get (off + 1) n = 0 := by omega
    exact get_eq_zero rest lt (by omega)

/-! ## Strings -/

theorem cString_cons (ne : m off ≠ 0) : m.cString off (n + 1) = some (b :: l) ↔
    m off = b ∧ m.cString (off + 1) n = some l := by
  simp only [cString, ne, ↓reduceIte, Option.map_eq_some_iff, List.cons.injEq]
  constructor
  · rintro ⟨_, rest, rfl, rfl⟩
    exact ⟨rfl, rest⟩
  · rintro ⟨rfl, rest⟩
    exact ⟨l, rest, rfl, rfl⟩

/-- The bytes up to the first zero byte, which is among the `n`. -/
theorem cString_eq_some : m.cString off n = some l ↔
    l.length < n ∧ m (off + l.length) = 0 ∧ 0 ∉ l ∧
      ∀ i (h : i < l.length), m (off + i) = l[i] := by
  induction n generalizing off l with
  | zero => simp [cString]
  | succ n ih =>
    by_cases zero : m off = 0
    · cases l with
      | nil => simp [cString, zero]
      | cons b l =>
        simp only [cString, zero, ↓reduceIte, Option.some.injEq, List.nil_eq, reduceCtorEq,
          List.mem_cons, not_or, false_iff, not_and]
        intro _ _ ⟨ne, _⟩ bytes
        exact ne (zero.symm.trans (bytes 0 (by simp)))
    · cases l with
      | nil => simp [cString, zero]
      | cons b l =>
        have shift (i : Nat) : off + 1 + i = off + (i + 1) := by omega
        rw [cString_cons zero, ih]
        simp only [shift]
        constructor
        · rintro ⟨rfl, lt, ends, text, bytes⟩
          refine ⟨Nat.succ_lt_succ lt, ends, ?_, ?_⟩
          · rw [List.mem_cons]
            rintro (eq | mem)
            · exact zero eq.symm
            · exact text mem
          · intro i hi
            cases i with
            | zero => rfl
            | succ i => exact bytes i (Nat.lt_of_succ_lt_succ hi)
        · rintro ⟨lt, ends, text, bytes⟩
          refine ⟨bytes 0 (Nat.succ_pos _), Nat.lt_of_succ_lt_succ lt, ends, ?_, ?_⟩
          · exact fun mem => text (List.mem_cons_of_mem b mem)
          · exact fun i hi => bytes (i + 1) (Nat.succ_lt_succ hi)

theorem cString_isSome : (m.cString off n).isSome = true ↔ ∃ i < n, m (off + i) = 0 := by
  induction n generalizing off with
  | zero => simp [cString]
  | succ n ih =>
    by_cases zero : m off = 0
    · simp only [cString, zero, ↓reduceIte, Option.isSome_some, true_iff]
      exact ⟨0, by omega, zero⟩
    · simp only [cString, zero, ↓reduceIte, Option.isSome_map, ih]
      constructor
      · rintro ⟨i, lt, hi⟩
        exact ⟨i + 1, by omega, by rwa [← Nat.add_assoc, Nat.add_right_comm]⟩
      · rintro ⟨i, lt, hi⟩
        cases i with
        | zero => exact absurd hi zero
        | succ i => exact ⟨i, by omega, by rwa [Nat.add_right_comm]⟩

theorem cString_congr (same : ∀ i, off ≤ i → i < off + n → m' i = m i) :
    m'.cString off n = m.cString off n := by
  induction n generalizing off with
  | zero => rfl
  | succ n ih =>
    rw [cString, cString, same off (Nat.le_refl off) (by omega), ih]
    intro i le lt
    exact same i (by omega) (by omega)

/-- Only the bytes up to the zero byte count. -/
theorem cString_keep (h : m.cString off n = some l)
    (same : ∀ i, off ≤ i → i ≤ off + l.length → m' i = m i) : m'.cString off n = some l := by
  rw [cString_eq_some] at h ⊢
  obtain ⟨lt, ends, text, bytes⟩ := h
  refine ⟨lt, ?_, text, ?_⟩
  · rw [same _ (by omega) (Nat.le_refl _)]
    exact ends
  · intro i hi
    rw [same _ (by omega) (by omega)]
    exact bytes i hi

/-- Where another byte stands in the place of its zero byte, a string does not end there. -/
theorem cString_longer (h : m.cString off n = some l)
    (same : ∀ i, off ≤ i → i < off + l.length → m' i = m i) (ne : m' (off + l.length) ≠ 0)
    (h' : m'.cString off n = some l') : l'[l.length]? = some (m' (off + l.length)) := by
  rw [cString_eq_some] at h h'
  obtain ⟨_, _, text, bytes⟩ := h
  obtain ⟨_, ends', _, bytes'⟩ := h'
  have longer : l.length < l'.length := by
    by_contra le
    rcases Nat.lt_or_eq_of_le (Nat.le_of_not_lt le) with lt | eq
    · rw [same _ (by omega) (by omega), bytes _ lt] at ends'
      exact text (ends' ▸ List.getElem_mem lt)
    · rw [eq] at ends'
      exact ne ends'
  rw [List.getElem?_eq_getElem longer, bytes' _ longer]

/-- A copy that is cut off before the last byte and ended there. -/
theorem cString_strncpy (text : 0 ∉ l) (n : Nat) :
    ((m.strncpy off n l).set (off + n) 1 0).cString off (n + 1) = some (l.take n) := by
  have copied (i : Nat) (hi : i < n) :
      (m.strncpy off n l).set (off + n) 1 0 (off + i) = l.getD i 0 := by
    rw [set_out (by omega), strncpy, fill_in (by omega) (by omega), Nat.add_sub_cancel_left]
  rw [cString_eq_some]
  refine ⟨?_, ?_, fun mem => text (List.mem_of_mem_take mem), ?_⟩
  · rw [List.length_take]
    omega
  · rw [List.length_take]
    by_cases short : l.length < n
    · rw [Nat.min_eq_right (by omega), copied _ short]
      simp
    · rw [Nat.min_eq_left (by omega), set, fill_in (by omega) (by omega), Nat.zero_div]
      rfl
  · intro i hi
    have both := List.length_take ▸ hi
    rw [copied i (by omega), List.getElem_take]
    exact List.getD_eq_getElem l 0 (by omega)

end

end Image

end LearnC
