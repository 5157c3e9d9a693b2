import VoleArc.Markers
import VoleArc.Lib.BitField
import VoleArc.Lib.Constraint
import Mathlib.Algebra.BigOperators.Group.Finset.Basic
import Mathlib.Algebra.Group.Hom.Defs

/-!
# VoleArc.Backend — the proof backend and the field crate, as the circuits see them

`BinaryFields K` is what the circuits use of the field crate: the product of GF(16) and its
embedding into the proof field.  `Backend` is the interface `build` is generic over, and
`evalBackend` the instance that evaluates wires and expressions exactly on an assignment.
-/

namespace VoleArc

open BitField Constraint

/-! ### The field crate -/

/-- The product of GF(16) and `embed_gf16`, an injective embedding of fields. -/
structure BinaryFields (K : Type) [Field K] where
  mul : GF16 → GF16 → GF16
  embedGf16 : GF16 →+ K
  embed_mul : ∀ a b, embedGf16 (mul a b) = embedGf16 a * embedGf16 b
  injective : Function.Injective embedGf16

/-- A field with a copy of GF(16) has characteristic two. -/
theorem BinaryFields.charP {K : Type} [Field K] (F : BinaryFields K) : CharP K 2 := by
  have hne : F.embedGf16 ⟨1⟩ ≠ 0 := by
    rw [← map_zero F.embedGf16]
    exact fun h => absurd (F.injective h) (by decide)
  have hadd : F.embedGf16 ⟨1⟩ + F.embedGf16 ⟨1⟩ = 0 := by
    rw [← map_add, ← map_zero F.embedGf16]
    exact congrArg _ (by decide)
  have htwo : (2 : K) = 0 := by
    rw [← two_mul] at hadd
    exact (mul_eq_zero.mp hadd).resolve_right hne
  exact CharTwo.of_one_ne_zero_of_two_eq_zero one_ne_zero htwo

/-! ### Quadratic systems -/

/-- `QuadFormSystem`: one quadratic form for each equation, in `dimension` variables. -/
structure QuadFormSystem where
  dimension : ℕ
  numEquations : ℕ
  coeff : ℕ → ℕ → ℕ → GF16

/-- The values of the forms at `x`, over a ring given by its product and the image of GF(16). -/
def QuadFormSystem.valuesWith {R : Type} [AddCommMonoid R] (sys : QuadFormSystem)
    (mul : R → R → R) (embed : GF16 → R) (x : List R) : List R :=
  (List.range sys.numEquations).map fun e =>
    ∑ i ∈ Finset.range sys.dimension, ∑ j ∈ Finset.range sys.dimension,
      mul (mul (embed (sys.coeff e i j)) (x.getD i 0)) (x.getD j 0)

/-- Compact representation of the whipped-MAYO quadratic system. -/
structure MayoFormSystem where
  forms : QuadFormSystem

section Mayo

variable {K : Type} [Field K] (F : BinaryFields K)

/-- The whipped MAYO map `P*` over GF(16). -/
def MayoFormSystem.eval (sys : MayoFormSystem) (x : List GF16) : List GF16 :=
  sys.forms.valuesWith F.mul id x

/-- The forms evaluated at field elements. -/
def QuadFormSystem.lifted (sys : QuadFormSystem) (x : List K) : List K :=
  sys.valuesWith (· * ·) F.embedGf16 x

theorem getD_map_embed (x : List GF16) (i : ℕ) :
    (x.map F.embedGf16).getD i 0 = F.embedGf16 (x.getD i 0) := by
  rw [← map_zero F.embedGf16, List.getD_map]

/-- The embedding commutes with the whipped map. -/
theorem lifted_map_embed (sys : MayoFormSystem) (x : List GF16) :
    sys.forms.lifted F (x.map F.embedGf16) = (sys.eval F x).map F.embedGf16 := by
  simp only [QuadFormSystem.lifted, MayoFormSystem.eval, QuadFormSystem.valuesWith, List.map_map]
  refine List.map_congr_left fun e _ => ?_
  simp only [Function.comp_apply, map_sum, F.embed_mul, getD_map_embed, id]

theorem lifted_eq_iff (sys : MayoFormSystem) (x t : List GF16) :
    sys.forms.lifted F (x.map F.embedGf16) = t.map F.embedGf16 ↔ sys.eval F x = t := by
  rw [lifted_map_embed, (List.map_injective_iff.mpr F.injective).eq_iff]

end Mayo

/-! ### The backend -/

/-- `voleith::Backend`: allocation of witness bits, arithmetic on wires and expressions, and
assertions.  `S` is the backend's state, `W` its wires and `E` its expressions. -/
structure Backend (K S W E : Type) where
  witnessBit : S → Except VoleithError (W × S)
  constant : K → W
  add : W → W → W
  scale : K → W → W
  wireExpr : W → E
  exprAdd : E → E → E
  exprMul : E → E → E
  assertZero : W → S → S
  assertExprZero : E → S → S
  assertQuadFormSystem : List W → QuadFormSystem → List W → S → S

/-- A circuit builder over a backend with state `S`. -/
abbrev Build (S α : Type) := StateT S (Except VoleithError) α

section Eval

variable {K : Type} [Field K] (F : BinaryFields K)

/-- The values asserted to vanish for `lifted x = target`. -/
def quadFormResiduals (sys : QuadFormSystem) (x target : List K) : List K :=
  if (sys.lifted F x).length = target.length then
    List.zipWith (· - ·) (sys.lifted F x) target
  else [1]

/-- Exact evaluation on an assignment: wires and expressions are their values, a witness bit is
the next bit of the assignment, and assertions record the value that has to vanish. -/
def evalBackend : Backend K (EvalState K) K K where
  witnessBit s :=
    match s.input with
    | [] => .error .unsatisfiable
    | b :: rest => .ok (ofBool b, { s with input := rest })
  constant c := c
  add x y := x + y
  scale c x := c * x
  wireExpr x := x
  exprAdd x y := x + y
  exprMul x y := x * y
  assertZero x s := { s with asserted := s.asserted ++ [x] }
  assertExprZero x s := { s with asserted := s.asserted ++ [x] }
  assertQuadFormSystem x sys target s :=
    { s with asserted := s.asserted ++ quadFormResiduals F sys x target }

@[simp] theorem evalBackend_constant (c : K) : (evalBackend F).constant c = c := rfl
@[simp] theorem evalBackend_add (x y : K) : (evalBackend F).add x y = x + y := rfl
@[simp] theorem evalBackend_scale (c x : K) : (evalBackend F).scale c x = c * x := rfl
@[simp] theorem evalBackend_wireExpr (x : K) : (evalBackend F).wireExpr x = x := rfl
@[simp] theorem evalBackend_exprAdd (x y : K) : (evalBackend F).exprAdd x y = x + y := rfl
@[simp] theorem evalBackend_exprMul (x y : K) : (evalBackend F).exprMul x y = x * y := rfl

theorem zipWith_sub_eq_zero :
    ∀ (xs ys : List K), xs.length = ys.length →
      ((∀ v ∈ List.zipWith (· - ·) xs ys, v = 0) ↔ xs = ys)
  | [], [], _ => by simp
  | [], _ :: _, h => by simp at h
  | _ :: _, [], h => by simp at h
  | x :: xs, y :: ys, h => by
    simp only [List.zipWith_cons_cons, List.mem_cons, forall_eq_or_imp, sub_eq_zero,
      List.cons.injEq]
    rw [zipWith_sub_eq_zero xs ys (by simpa using h)]

/-- The residuals vanish exactly when the forms take the target values. -/
theorem quadFormResiduals_eq_zero (sys : QuadFormSystem) (x target : List K) :
    (∀ v ∈ quadFormResiduals F sys x target, v = 0) ↔ sys.lifted F x = target := by
  unfold quadFormResiduals
  split_ifs with h
  · exact zipWith_sub_eq_zero _ _ h
  · have hne : sys.lifted F x ≠ target := fun he => h (congrArg List.length he)
    simp [hne]

end Eval

end VoleArc
