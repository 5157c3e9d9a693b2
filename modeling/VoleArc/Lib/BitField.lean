import Mathlib.Tactic
import Mathlib.Algebra.CharP.Two

/-!
# BitField — bits inside a field of characteristic two

`ofBool b` is `0` or `1`.  Over characteristic two addition of bits is exclusive or and
multiplication is conjunction, so a polynomial identity between bits is a Boolean identity, and
the sum of two bits vanishes exactly when they agree.
-/

namespace BitField

variable {K : Type*} [Field K]

/-- The field element of a bit. -/
def ofBool (b : Bool) : K := if b then 1 else 0

@[simp] theorem ofBool_true : (ofBool true : K) = 1 := rfl
@[simp] theorem ofBool_false : (ofBool false : K) = 0 := rfl

theorem ofBool_injective : Function.Injective (ofBool : Bool → K) := by
  intro a b h
  cases a <;> cases b <;> simp_all

@[simp] theorem ofBool_inj {a b : Bool} : (ofBool a : K) = ofBool b ↔ a = b :=
  ofBool_injective.eq_iff

theorem ofBool_eq_zero {b : Bool} : (ofBool b : K) = 0 ↔ b = false := by
  cases b <;> simp

theorem ofBool_mul (a b : Bool) : (ofBool a * ofBool b : K) = ofBool (a && b) := by
  cases a <;> cases b <;> simp

variable [CharP K 2]

theorem ofBool_add (a b : Bool) : (ofBool a + ofBool b : K) = ofBool (a ^^ b) := by
  cases a <;> cases b <;> simp [CharTwo.add_self_eq_zero]

theorem one_add_ofBool (b : Bool) : (1 + ofBool b : K) = ofBool (!b) := by
  rw [← ofBool_true, ofBool_add, Bool.true_xor]

theorem ofBool_add_one (b : Bool) : (ofBool b + 1 : K) = ofBool (b ^^ true) := by
  rw [← ofBool_true, ofBool_add]

/-- The difference of two bits vanishes exactly when they agree. -/
theorem ofBool_add_eq_zero {a b : Bool} : (ofBool a + ofBool b : K) = 0 ↔ a = b := by
  rw [ofBool_add, ofBool_eq_zero]
  cases a <;> cases b <;> decide

end BitField
