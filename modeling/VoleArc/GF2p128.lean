import VoleArc.Backend
import Mathlib

/-!
# VoleArc.GF2p128 — the fields of the field crate

GF(16) is reduced modulo `x^4 + x + 1`; sending `x` to a root of that polynomial embeds it into
any field of characteristic two that has one, and GF(2^128) has one.
-/

namespace VoleArc

open BitField

/-! ### The product of GF(16) -/

namespace GF16

/-- Multiplication by `x`. -/
def xtime (a : GF16) : GF16 :=
  ⟨(a.nibble <<< 1) ^^^ (if a.nibble.getLsbD 3 then 0b0011 else 0)⟩

/-- The product modulo `x^4 + x + 1`. -/
def mul (a b : GF16) : GF16 :=
  (if a.nibble.getLsbD 0 then b else 0) + (if a.nibble.getLsbD 1 then b.xtime else 0) +
    (if a.nibble.getLsbD 2 then b.xtime.xtime else 0) +
    (if a.nibble.getLsbD 3 then b.xtime.xtime.xtime else 0)

theorem exists_mul_eq_one : ∀ a : BitVec 4, a ≠ 0 →
    ∃ b : BitVec 4, mul ⟨a⟩ ⟨b⟩ = ⟨1⟩ := by
  decide

end GF16

/-! ### The embedding -/

section Root

variable {K : Type} [Field K] (α : K)

/-- The polynomial in `α` with the coefficients of a nibble. -/
def evalNibble (a : GF16) : K :=
  ofBool (a.nibble.getLsbD 0) + ofBool (a.nibble.getLsbD 1) * α +
    ofBool (a.nibble.getLsbD 2) * α ^ 2 + ofBool (a.nibble.getLsbD 3) * α ^ 3

theorem evalNibble_zero : evalNibble α 0 = 0 := by
  simp [evalNibble]

theorem evalNibble_one : evalNibble α ⟨1⟩ = 1 := by
  simp [evalNibble]

theorem evalNibble_ite (c : Bool) (a : GF16) :
    evalNibble α (if c then a else 0) = ofBool c * evalNibble α a := by
  cases c <;> simp [evalNibble_zero]

variable [CharP K 2]

theorem evalNibble_add (a b : GF16) : evalNibble α (a + b) = evalNibble α a + evalNibble α b := by
  simp only [evalNibble, GF16.nibble_add, BitVec.getLsbD_xor, ← ofBool_add]
  ring

variable {α} (hα : α ^ 4 = α + 1)
include hα

theorem evalNibble_xtime (a : GF16) : evalNibble α a.xtime = α * evalNibble α a := by
  have hbits : ∀ x : BitVec 4, (GF16.xtime ⟨x⟩).nibble.getLsbD 0 = x.getLsbD 3 ∧
      (GF16.xtime ⟨x⟩).nibble.getLsbD 1 = (x.getLsbD 0 ^^ x.getLsbD 3) ∧
      (GF16.xtime ⟨x⟩).nibble.getLsbD 2 = x.getLsbD 1 ∧
      (GF16.xtime ⟨x⟩).nibble.getLsbD 3 = x.getLsbD 2 := by decide
  obtain ⟨h0, h1, h2, h3⟩ := hbits a.nibble
  have ha : (⟨a.nibble⟩ : GF16) = a := rfl
  rw [ha] at h0 h1 h2 h3
  simp only [evalNibble, h0, h1, h2, h3, ← ofBool_add]
  linear_combination -(ofBool (a.nibble.getLsbD 3)) * hα

theorem evalNibble_mul (a b : GF16) : evalNibble α (a.mul b) = evalNibble α a * evalNibble α b := by
  simp only [GF16.mul, evalNibble_add, evalNibble_ite, evalNibble_xtime hα]
  have ha : evalNibble α a = ofBool (a.nibble.getLsbD 0) + ofBool (a.nibble.getLsbD 1) * α +
      ofBool (a.nibble.getLsbD 2) * α ^ 2 + ofBool (a.nibble.getLsbD 3) * α ^ 3 := rfl
  rw [ha]
  ring

theorem evalNibble_injective : Function.Injective (evalNibble α) := by
  intro a b h
  by_contra hne
  have hab : a + b ≠ 0 := fun h0 => hne (by
    rw [← add_left_inj b, h0]
    exact (add_neg_cancel b).symm)
  have hnibble : (a + b).nibble ≠ 0 := fun h0 => hab (GF16.ext h0)
  obtain ⟨c, hc⟩ := GF16.exists_mul_eq_one (a + b).nibble hnibble
  have hzero : evalNibble α (a + b) = 0 := by
    rw [evalNibble_add, h, CharTwo.add_self_eq_zero]
  have hone := congrArg (evalNibble α) hc
  rw [evalNibble_mul hα, evalNibble_one, show (⟨(a + b).nibble⟩ : GF16) = a + b from rfl, hzero,
    zero_mul] at hone
  exact zero_ne_one hone

/-- A root of `x^4 + x + 1` embeds GF(16). -/
def BinaryFields.ofRoot : BinaryFields K where
  mul := GF16.mul
  embedGf16 :=
    { toFun := evalNibble α
      map_zero' := evalNibble_zero α
      map_add' := evalNibble_add α }
  embed_mul := evalNibble_mul hα
  injective := evalNibble_injective hα

end Root

/-! ### GF(2^128) -/

/-- `GF2p128`. -/
abbrev GF2p128 : Type := GaloisField 2 128

/-- An element of order fifteen, or its inverse, is a root of `x^4 + x + 1`. -/
theorem exists_root_of_orderOf {K : Type} [Field K] [CharP K 2] {g : K} (hg : orderOf g = 15) :
    ∃ α : K, α ^ 4 = α + 1 := by
  have htwo : (2 : K) = 0 := CharTwo.two_eq_zero
  have h15 : g ^ 15 = 1 := by rw [← hg]; exact pow_orderOf_eq_one g
  have hne : ∀ n, 0 < n → n < 15 → g ^ n ≠ 1 := fun n hpos hlt h => by
    have := orderOf_le_of_pow_eq_one hpos h
    omega
  have hg0 : g ≠ 0 := by
    rintro rfl
    simp at h15
  have h1 : g - 1 ≠ 0 := fun h => hne 1 (by omega) (by omega) (by linear_combination h)
  have h3 : g ^ 2 + g + 1 ≠ 0 := fun h =>
    hne 3 (by omega) (by omega) (by linear_combination (g - 1) * h)
  have h5 : g ^ 4 + g ^ 3 + g ^ 2 + g + 1 ≠ 0 := fun h =>
    hne 5 (by omega) (by omega) (by linear_combination (g - 1) * h)
  have hprod : (g - 1) * (g ^ 2 + g + 1) * (g ^ 4 + g ^ 3 + g ^ 2 + g + 1) *
      ((g ^ 4 + g + 1) * (g ^ 4 + g ^ 3 + 1)) = 0 := by
    linear_combination h15 +
      (-g - g ^ 2 - g ^ 3 - 2 * g ^ 4 - 2 * g ^ 5 - g ^ 6 + g ^ 9 + 2 * g ^ 10 +
      2 * g ^ 11 + g ^ 12 + g ^ 13 + g ^ 14) * htwo
  rcases mul_eq_zero.mp hprod with h | h
  · exact absurd h (mul_ne_zero (mul_ne_zero h1 h3) h5)
  · rcases mul_eq_zero.mp h with h | h
    · exact ⟨g, by linear_combination h - (g + 1) * htwo⟩
    · refine ⟨g⁻¹, ?_⟩
      field_simp
      linear_combination -h + htwo

theorem GF2p128.exists_root : ∃ α : GF2p128, α ^ 4 = α + 1 := by
  obtain ⟨g, hg⟩ := IsCyclic.exists_ofOrder_eq_natCard (α := GF2p128ˣ)
  rw [Nat.card_units, GaloisField.card 2 128 (by decide)] at hg
  -- fifteen divides the order of the unit group
  have hdvd : (2 ^ 128 - 1) / 15 ∣ orderOf g := by rw [hg]; exact ⟨15, by norm_num⟩
  have horder := orderOf_pow_of_dvd (by norm_num) hdvd
  rw [hg] at horder
  refine exists_root_of_orderOf (g := ((g ^ ((2 ^ 128 - 1) / 15) : GF2p128ˣ) : GF2p128)) ?_
  rw [orderOf_units, horder]
  norm_num

/-- The field crate's `embed_gf16` into GF(2^128), up to the choice of the root. -/
noncomputable def GF2p128.binaryFields : BinaryFields GF2p128 :=
  BinaryFields.ofRoot GF2p128.exists_root.choose_spec

end VoleArc
