import Mathlib.Tactic.Ring

/-! Signed arithmetic in a number of bits, where a result that does not fit is none. -/

namespace LearnC

def Fits (bits : Nat) (v : Int) : Prop := -2 ^ (bits - 1) ≤ v ∧ v < 2 ^ (bits - 1)

instance (bits : Nat) (v : Int) : Decidable (Fits bits v) := inferInstanceAs (Decidable (_ ∧ _))

/-- The value of an expression, unless it overflows. -/
def checked (bits : Nat) (v : Int) : Option Int := if Fits bits v then some v else none

variable {bits : Nat} {v w : Int} {α : Type} {f : Int → Option α} {r : α}

theorem fits_int : Fits 32 v ↔ -2147483648 ≤ v ∧ v < 2147483648 := Iff.rfl

theorem fits_long : Fits 64 v ↔ -9223372036854775808 ≤ v ∧ v < 9223372036854775808 := Iff.rfl

theorem checked_eq_some : checked bits v = some w ↔ Fits bits v ∧ v = w := by
  unfold checked
  split
  case isTrue fits => simp [fits]
  case isFalse no => simp [no]

/-- An expression goes on with what it has computed so far. -/
theorem checked_bind : (checked bits v).bind f = some r ↔ Fits bits v ∧ f v = some r := by
  unfold checked
  split
  case isTrue fits => simp [fits]
  case isFalse no => simp [no]

end LearnC
