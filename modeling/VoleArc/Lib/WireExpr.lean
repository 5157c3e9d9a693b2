import Mathlib.Algebra.MvPolynomial.CommRing
import Mathlib.Algebra.MvPolynomial.Variables
import Mathlib.Tactic

/-!
# WireExpr — the expressions of an arithmetic circuit and their degrees

A wire is an affine combination of witness values, an expression is built from wires by sums and
products.  `degree` is read off the syntax: a witness has degree one, sums and scalings take the
maximum, products add.  The polynomial an expression stands for has at most this total degree
(`Expr.totalDegree_polynomial_le`), and evaluating it is evaluating the expression.
-/

namespace WireExpr

open MvPolynomial

/-- Wires: constants, witness values by their number, and linear operations. -/
inductive Wire (K : Type*) where
  | constant (value : K)
  | witness (index : ℕ)
  | add (left right : Wire K)
  | scale (factor : K) (wire : Wire K)
  deriving Repr, DecidableEq

/-- Expressions over wires. -/
inductive Expr (K : Type*) where
  | wire (wire : Wire K)
  | add (left right : Expr K)
  | mul (left right : Expr K)
  deriving Repr, DecidableEq

variable {K : Type*}

/-! ### Degrees -/

namespace Wire

def degree : Wire K → ℕ
  | constant _ => 0
  | witness _ => 1
  | add left right => max left.degree right.degree
  | scale _ wire => wire.degree

/-- Only witness values numbered below `n` occur. -/
def Below (n : ℕ) : Wire K → Prop
  | constant _ => True
  | witness index => index < n
  | add left right => left.Below n ∧ right.Below n
  | scale _ wire => wire.Below n

/-- The numbers of the witness values that occur. -/
def reads : Wire K → Finset ℕ
  | constant _ => ∅
  | witness index => {index}
  | add left right => left.reads ∪ right.reads
  | scale _ wire => wire.reads

/-- A wire is at most linear. -/
theorem degree_le_one (x : Wire K) : x.degree ≤ 1 := by
  induction x with
  | constant value => exact Nat.zero_le 1
  | witness index => exact le_refl 1
  | add left right ihl ihr => exact max_le ihl ihr
  | scale factor wire ih => exact ih

end Wire

namespace Expr

def degree : Expr K → ℕ
  | wire x => x.degree
  | add left right => max left.degree right.degree
  | mul left right => left.degree + right.degree

def Below (n : ℕ) : Expr K → Prop
  | wire x => x.Below n
  | add left right | mul left right => left.Below n ∧ right.Below n

def reads : Expr K → Finset ℕ
  | wire x => x.reads
  | add left right | mul left right => left.reads ∪ right.reads

end Expr

/-! ### The polynomial of an expression -/

variable [CommRing K]

namespace Wire

/-- The value of a wire under an assignment of the witness values. -/
def eval (assignment : ℕ → K) : Wire K → K
  | constant value => value
  | witness index => assignment index
  | add left right => left.eval assignment + right.eval assignment
  | scale factor wire => factor * wire.eval assignment

/-- The polynomial a wire stands for, in the witness values. -/
noncomputable def polynomial : Wire K → MvPolynomial ℕ K
  | constant value => C value
  | witness index => X index
  | add left right => left.polynomial + right.polynomial
  | scale factor wire => C factor * wire.polynomial

theorem totalDegree_polynomial_le [Nontrivial K] (x : Wire K) :
    x.polynomial.totalDegree ≤ x.degree := by
  induction x with
  | constant value => exact (totalDegree_C value).le
  | witness index => exact (totalDegree_X index).le
  | add left right ihl ihr => exact (totalDegree_add _ _).trans (max_le_max ihl ihr)
  | scale factor wire ih =>
    refine (totalDegree_mul _ _).trans ?_
    rw [totalDegree_C, Nat.zero_add]
    exact ih

theorem eval_polynomial (assignment : ℕ → K) (x : Wire K) :
    MvPolynomial.eval assignment x.polynomial = x.eval assignment := by
  induction x with
  | constant value => exact eval_C value
  | witness index => exact eval_X index
  | add left right ihl ihr => rw [polynomial, eval, map_add, ihl, ihr]
  | scale factor wire ih => rw [polynomial, eval, map_mul, eval_C, ih]

/-- A polynomial in the witness values below `n`. -/
theorem vars_polynomial_subset [Nontrivial K] {n : ℕ} {x : Wire K} (h : x.Below n) :
    x.polynomial.vars ⊆ Finset.range n := by
  induction x with
  | constant value =>
    rw [polynomial, vars_C]
    exact Finset.empty_subset _
  | witness index =>
    rw [polynomial, vars_X, Finset.singleton_subset_iff]
    exact Finset.mem_range.mpr h
  | add left right ihl ihr =>
    exact (vars_add_subset _ _).trans (Finset.union_subset (ihl h.1) (ihr h.2))
  | scale factor wire ih =>
    refine (vars_mul _ _).trans (Finset.union_subset ?_ (ih h))
    rw [vars_C]
    exact Finset.empty_subset _

end Wire

namespace Expr

def eval (assignment : ℕ → K) : Expr K → K
  | wire x => x.eval assignment
  | add left right => left.eval assignment + right.eval assignment
  | mul left right => left.eval assignment * right.eval assignment

noncomputable def polynomial : Expr K → MvPolynomial ℕ K
  | wire x => x.polynomial
  | add left right => left.polynomial + right.polynomial
  | mul left right => left.polynomial * right.polynomial

/-- The degree of the syntax bounds the degree of the polynomial. -/
theorem totalDegree_polynomial_le [Nontrivial K] (e : Expr K) :
    e.polynomial.totalDegree ≤ e.degree := by
  induction e with
  | wire x => exact x.totalDegree_polynomial_le
  | add left right ihl ihr => exact (totalDegree_add _ _).trans (max_le_max ihl ihr)
  | mul left right ihl ihr => exact (totalDegree_mul _ _).trans (Nat.add_le_add ihl ihr)

theorem eval_polynomial (assignment : ℕ → K) (e : Expr K) :
    MvPolynomial.eval assignment e.polynomial = e.eval assignment := by
  induction e with
  | wire x => exact x.eval_polynomial assignment
  | add left right ihl ihr => rw [polynomial, eval, map_add, ihl, ihr]
  | mul left right ihl ihr => rw [polynomial, eval, map_mul, ihl, ihr]

theorem vars_polynomial_subset [Nontrivial K] {n : ℕ} {e : Expr K} (h : e.Below n) :
    e.polynomial.vars ⊆ Finset.range n := by
  induction e with
  | wire x => exact Wire.vars_polynomial_subset h
  | add left right ihl ihr =>
    exact (vars_add_subset _ _).trans (Finset.union_subset (ihl h.1) (ihr h.2))
  | mul left right ihl ihr =>
    exact (vars_mul _ _).trans (Finset.union_subset (ihl h.1) (ihr h.2))

end Expr

end WireExpr
