import VoleArc.Lib.BitField
import VoleArc.Lib.Fips202
import Mathlib.Algebra.Field.ZMod

/-!
# StepMappings — the rounds of Keccak-f[1600] lose nothing

Each step mapping of FIPS 202 is injective on the state arrays.  For `theta` this is a fact about
arrays of characteristic two that equal the sum of two of their shifts: doubling the shifts keeps
the equation, and after six doublings only the one along the row is left.
-/

namespace StepMappings

/-! ### Sums of shifts in characteristic two -/

section Shifts

variable {X Z G : Type*} [AddCommGroup X] [AddCommGroup Z] [AddCommGroup G]

/-- Each entry is the sum of the entry `a` before it and the one `a` after it, `b` back in the other
direction. -/
def SumOfShifts (c : X → Z → G) (a : X) (b : Z) : Prop :=
  ∀ x z, c x z = c (x - a) z + c (x + a) (z - b)

/-- The two mixed shifts agree and cancel, so the equation holds for doubled shifts. -/
theorem SumOfShifts.double (hG : ∀ g : G, g + g = 0) {c : X → Z → G} {a : X} {b : Z}
    (h : SumOfShifts c a b) : SumOfShifts c (a + a) (b + b) := by
  intro x z
  have hback : c (x - a) z = c (x - (a + a)) z + c x (z - b) := by
    rw [h (x - a) z, sub_sub, sub_add_cancel]
  have hforth : c (x + a) (z - b) = c x (z - b) + c (x + (a + a)) (z - (b + b)) := by
    rw [h (x + a) (z - b), add_sub_cancel_right, sub_sub, add_assoc]
  calc c x z = c (x - a) z + c (x + a) (z - b) := h x z
    _ = c (x - (a + a)) z + (c x (z - b) + c x (z - b)) + c (x + (a + a)) (z - (b + b)) := by
      rw [hback, hforth]
      abel
    _ = c (x - (a + a)) z + c (x + (a + a)) (z - (b + b)) := by rw [hG, add_zero]

theorem SumOfShifts.iterate (hG : ∀ g : G, g + g = 0) {c : X → Z → G} {a : X} {b : Z}
    (h : SumOfShifts c a b) : ∀ n : ℕ, SumOfShifts c (2 ^ n • a) (2 ^ n • b)
  | 0 => by simpa using h
  | n + 1 => by
    have hdouble := (h.iterate hG n).double hG
    rwa [← two_nsmul, ← two_nsmul, smul_smul, smul_smul, ← pow_succ'] at hdouble

end Shifts

/-- A row of five that is the sum of its neighbours repeats after three, so it is constant and
zero. -/
theorem eq_zero_of_neighbours {G : Type*} [AddCommGroup G] (hG : ∀ g : G, g + g = 0) {c : Fin 5 → G}
    (h : ∀ x, c x = c (x - 1) + c (x + 1)) (x : Fin 5) : c x = 0 := by
  have hnext : ∀ x, c (x + 2) = c x + c (x + 1) := by
    intro x
    have hx := h (x + 1)
    rw [add_sub_cancel_right, show x + 1 + 1 = x + 2 from add_assoc x 1 1] at hx
    rw [hx, ← add_assoc, hG, zero_add]
  have hperiod : ∀ x, c (x + 3) = c x := by
    intro x
    have hx := hnext (x + 1)
    rw [show x + 1 + 2 = x + 3 from add_assoc x 1 2, show x + 1 + 1 = x + 2 from add_assoc x 1 1]
      at hx
    rw [hx, hnext, add_comm (c x), ← add_assoc, hG, zero_add]
  have hafter : c (x + 1) = c x := by
    rw [← hperiod x, ← hperiod (x + 3), show x + 3 + 3 = x + 1 from add_assoc x 3 3]
  have hbefore : c (x - 1) = c x := by
    rw [← hperiod (x - 1), ← hperiod (x - 1 + 3),
      show x - 1 + 3 + 3 = x from (add_assoc (x - 1) 3 3).trans (sub_add_cancel x 1)]
  rw [h x, hbefore, hafter, hG]

end StepMappings

namespace Fips202

open BitField StepMappings

/-! ### The step mappings -/

theorem eq_of_xor_eq_false {a b : Bool} (h : (a ^^ b) = false) : a = b := bne_eq_false_iff_eq.mp h

theorem columnParity_xor (A B : StateArray) (x : Fin 5) (z : Fin 64) :
    columnParity (fun x y z => A x y z ^^ B x y z) x z =
      (columnParity A x z ^^ columnParity B x z) := by
  have hfive : ∀ a b c d e a' b' c' d' e' : Bool,
      ((a ^^ a') ^^ (b ^^ b') ^^ (c ^^ c') ^^ (d ^^ d') ^^ (e ^^ e')) =
        ((a ^^ b ^^ c ^^ d ^^ e) ^^ (a' ^^ b' ^^ c' ^^ d' ^^ e')) := by
    decide
  exact hfive _ _ _ _ _ _ _ _ _ _

theorem theta_xor (A B : StateArray) : theta (fun x y z => A x y z ^^ B x y z) =
    fun x y z => theta A x y z ^^ theta B x y z := by
  have hthree : ∀ a p q a' p' q' : Bool,
      ((a ^^ a') ^^ ((p ^^ p') ^^ (q ^^ q'))) = ((a ^^ (p ^^ q)) ^^ (a' ^^ (p' ^^ q'))) := by
    decide
  funext x y z
  rw [theta, columnParity_xor, columnParity_xor]
  exact hthree _ _ _ _ _ _

/-- Where `theta` gives zero, every cell is the sum of its two column parities; so are then the
parities themselves, and they vanish. -/
theorem columnParity_eq_false_of_theta {A : StateArray} (h : ∀ x y z, theta A x y z = false)
    (x : Fin 5) (z : Fin 64) : columnParity A x z = false := by
  have hcell : ∀ x y z, A x y z = (columnParity A (x - 1) z ^^ columnParity A (x + 1) (z - 1)) :=
    fun x y z => eq_of_xor_eq_false (h x y z)
  have hparity : ∀ x z, columnParity A x z =
      (columnParity A (x - 1) z ^^ columnParity A (x + 1) (z - 1)) := by
    intro x z
    conv_lhs => rw [columnParity, hcell x 0, hcell x 1, hcell x 2, hcell x 3, hcell x 4]
    simp
  have htwo : ∀ g : ZMod 2, g + g = 0 := CharTwo.add_self_eq_zero
  have hshifts : SumOfShifts (fun x z => (ofBool (columnParity A x z) : ZMod 2)) 1 1 := by
    intro x z
    rw [ofBool_add, ← hparity]
  -- six doublings bring the shift along the lanes back to its start
  have hrow : ∀ x, (ofBool (columnParity A x z) : ZMod 2) =
      ofBool (columnParity A (x - 1) z) + ofBool (columnParity A (x + 1) z) := by
    intro x
    have hsix := hshifts.iterate htwo 6 x z
    rw [show (2 ^ 6 : ℕ) • (1 : Fin 5) = -1 by decide,
      show (2 ^ 6 : ℕ) • (1 : Fin 64) = 0 by decide,
      sub_neg_eq_add, ← sub_eq_add_neg, sub_zero] at hsix
    exact hsix.trans (add_comm _ _)
  exact ofBool_eq_zero.mp
    (eq_zero_of_neighbours htwo (c := fun x => (ofBool (columnParity A x z) : ZMod 2)) hrow x)

theorem theta_injective : Function.Injective theta := by
  intro A B h
  have hzero : ∀ x y z, theta (fun x y z => A x y z ^^ B x y z) x y z = false := by
    intro x y z
    rw [theta_xor, h]
    exact Bool.xor_self _
  funext x y z
  have hcell := hzero x y z
  rw [theta, columnParity_eq_false_of_theta hzero, columnParity_eq_false_of_theta hzero] at hcell
  exact eq_of_xor_eq_false (by simpa using hcell)

theorem rho_injective : Function.Injective rho := by
  intro A B h
  funext x y z
  have hz := congrFun (congrFun (congrFun h x) y) (z + Fin.ofNat 64 (rhoOffset x y))
  rwa [rho, rho, add_sub_cancel_right] at hz

/-- `pi` takes the lane at `(x, y)` from `(x + 3 y, x)`, and every lane is of that form. -/
theorem pi_injective : Function.Injective pi := by
  intro A B h
  funext x y z
  have hlane : ∀ x y : Fin 5, y + 3 * (2 * (x - y)) = x := by decide
  have hz := congrFun (congrFun (congrFun h y) (2 * (x - y))) z
  rwa [pi, pi, hlane] at hz

/-- `chi` on the five bits of a row. -/
theorem chi_row : ∀ a b c d e a' b' c' d' e' : Bool,
    ((a ^^ ((b ^^ true) && c)) = (a' ^^ ((b' ^^ true) && c')) ∧
      (b ^^ ((c ^^ true) && d)) = (b' ^^ ((c' ^^ true) && d')) ∧
      (c ^^ ((d ^^ true) && e)) = (c' ^^ ((d' ^^ true) && e')) ∧
      (d ^^ ((e ^^ true) && a)) = (d' ^^ ((e' ^^ true) && a')) ∧
      (e ^^ ((a ^^ true) && b)) = (e' ^^ ((a' ^^ true) && b'))) →
    a = a' ∧ b = b' ∧ c = c' ∧ d = d' ∧ e = e' := by
  decide

theorem chi_injective : Function.Injective chi := by
  intro A B h
  funext x y z
  have hcell : ∀ x, chi A x y z = chi B x y z := fun x => by rw [h]
  obtain ⟨h0, h1, h2, h3, h4⟩ :=
    chi_row _ _ _ _ _ _ _ _ _ _ ⟨hcell 0, hcell 1, hcell 2, hcell 3, hcell 4⟩
  fin_cases x
  · exact h0
  · exact h1
  · exact h2
  · exact h3
  · exact h4

end Fips202
