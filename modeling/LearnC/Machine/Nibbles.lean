import LearnC.Machine.Strings

/-! Bytes as pairs of four-bit digits, the lower one first. -/

namespace LearnC

/-- The lower-case hexadecimal digit. -/
def hexDigit (v : Fin 16) : UInt8 := UInt8.ofNat (if v.val < 10 then 48 + v.val else 87 + v.val)

/-- The value of a hexadecimal digit. -/
def hexValue (b : UInt8) : Fin 16 := Fin.ofNat 16 (digitValue b)

def IsHex (b : UInt8) : Prop := digitValue b < 16

instance (b : UInt8) : Decidable (IsHex b) := inferInstanceAs (Decidable (_ < _))

def lower (b : UInt8) : UInt8 := if 65 ≤ b ∧ b ≤ 90 then b + 32 else b

def byteOf (lo hi : Fin 16) : UInt8 := UInt8.ofNat (lo.val + 16 * hi.val)

def low (b : UInt8) : Fin 16 := Fin.ofNat 16 b.toNat

def high (b : UInt8) : Fin 16 := Fin.ofNat 16 (b.toNat / 16)

/-- The low digit of a number. -/
def nibbleOf (v : Int) : Fin 16 := Fin.ofNat 16 (v % 16).toNat

/-- Two digits a byte; a last one alone has none above it. -/
def pack : List (Fin 16) → List UInt8
  | [] => []
  | [lo] => [byteOf lo 0]
  | lo :: hi :: l => byteOf lo hi :: pack l

def unpack (bytes : List UInt8) : List (Fin 16) := bytes.flatMap fun b => [low b, high b]

/-- The digit at a place, counted by digits. -/
def Image.nibble (m : Image) (i : Nat) : Fin 16 :=
  if i % 2 = 0 then low (m (i / 2)) else high (m (i / 2))

variable {l l' : List (Fin 16)} {bytes : List UInt8} {lo hi v : Fin 16} {b : UInt8}

@[simp] theorem low_byteOf : low (byteOf lo hi) = lo := by revert lo hi; decide

@[simp] theorem high_byteOf : high (byteOf lo hi) = hi := by revert lo hi; decide

@[simp] theorem byteOf_low_high : byteOf (low b) (high b) = b := by
  apply UInt8.toNat_inj.mp
  have := b.toNat_lt
  simp only [byteOf, low, high, Fin.ofNat, UInt8.toNat_ofNat']
  omega

@[simp] theorem hexValue_hexDigit : hexValue (hexDigit v) = v := by revert v; decide

theorem isHex_hexDigit : IsHex (hexDigit v) := by revert v; decide

theorem hexDigit_ne : hexDigit v ≠ 0 := by revert v; decide

theorem hexDigit_hexValue (hex : IsHex b) : hexDigit (hexValue b) = lower b :=
  byte_forall (P := fun b => IsHex b → hexDigit (hexValue b) = lower b) (by decide +kernel) b hex

/-- A hexadecimal digit alone is read as its value. -/
theorem strtol_digit (hex : IsHex b) : strtol 16 [b] = (hexValue b).val :=
  byte_forall (P := fun b => IsHex b → strtol 16 [b] = (hexValue b).val) (by decide +kernel) b hex

theorem pack_append (even : l.length % 2 = 0) : pack (l ++ l') = pack l ++ pack l' := by
  fun_induction pack l with
  | case1 => rfl
  | case2 => cases even
  | case3 lo hi l ih =>
    rw [List.length_cons, List.length_cons] at even
    rw [List.cons_append, List.cons_append, pack, ih (by omega), List.cons_append]

theorem pack_length : (pack l).length = (l.length + 1) / 2 := by
  fun_induction pack l with
  | case1 => rfl
  | case2 => simp
  | case3 lo hi l ih =>
    simp only [List.length_cons, ih]
    omega

theorem holds_pack_nibble {m : Image} {off i : Nat} (h : m.Holds off (pack l))
    (lt : i < l.length) :
    (if i % 2 = 0 then low (m (off + i / 2)) else high (m (off + i / 2))) = l[i] := by
  fun_induction pack l generalizing off i with
  | case1 => cases lt
  | case2 lo =>
    obtain rfl : i = 0 := Nat.lt_one_iff.mp lt
    simp [h.1]
  | case3 lo hi l ih =>
    match i with
    | 0 => simp [h.1]
    | 1 => simp [h.1]
    | i + 2 =>
      have rest := ih (i := i) h.2 (by simpa using lt)
      have half : off + (i + 2) / 2 = off + 1 + i / 2 := by omega
      rw [Nat.add_mod_right, half, rest]
      rfl

/-- Where digits were packed they are found again. -/
theorem nibble_of_pack {m : Image} {i : Nat} (h : m.Holds 0 (pack l)) (lt : i < l.length) :
    m.nibble i = l[i] := by
  have found := holds_pack_nibble h lt
  rwa [Nat.zero_add] at found

theorem unpack_length : (unpack bytes).length = 2 * bytes.length := by
  induction bytes with
  | nil => rfl
  | cons b bytes ih =>
    rw [unpack, List.flatMap_cons, List.length_append, ← unpack, ih, List.length_cons,
      List.length_cons, List.length_cons, List.length_nil]
    omega

/-- The bytes hold the digits, and a zero above the last where their number is odd. -/
theorem unpack_pack : unpack (pack l) = l ++ if l.length % 2 = 1 then [0] else [] := by
  fun_induction pack l with
  | case1 => rfl
  | case2 => simp [unpack]
  | case3 lo hi l ih =>
    rw [unpack, List.flatMap_cons, ← unpack, ih]
    simp [Nat.add_assoc]

theorem pack_unpack : pack (unpack bytes) = bytes := by
  induction bytes with
  | nil => rfl
  | cons b bytes ih =>
    rw [unpack, List.flatMap_cons, ← unpack, List.cons_append, List.cons_append, List.nil_append,
      pack, ih, byteOf_low_high]

end LearnC
