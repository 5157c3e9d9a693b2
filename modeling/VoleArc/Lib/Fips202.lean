import VoleArc.Lib.Sponge

/-!
# Fips202 — Keccak-f[1600] and SHAKE256 as FIPS 202 defines them

A state array is a function of `x`, `y` and `z`; coordinates are taken modulo 5 and 64.  The five
step mappings, the rounds and SHAKE256 follow the standard's text, bit by bit, and share nothing
with an implementation on lanes.
-/

namespace Fips202

/-- A state array `A[x, y, z]`. -/
abbrev StateArray := Fin 5 → Fin 5 → Fin 64 → Bool

/-! ### Step mappings -/

/-- `C[x, z]`. -/
def columnParity (A : StateArray) (x : Fin 5) (z : Fin 64) : Bool :=
  A x 0 z ^^ A x 1 z ^^ A x 2 z ^^ A x 3 z ^^ A x 4 z

def theta (A : StateArray) : StateArray := fun x y z =>
  A x y z ^^ (columnParity A (x - 1) z ^^ columnParity A (x + 1) (z - 1))

/-- The lane `(x, y)` at step `t` of the walk of `rho`. -/
def rhoLane : ℕ → Fin 5 × Fin 5
  | 0 => (1, 0)
  | t + 1 => ((rhoLane t).2, 2 * (rhoLane t).1 + 3 * (rhoLane t).2)

/-- `(t + 1)(t + 2) / 2` for the step of the walk at which it meets the lane; lane `(0, 0)`
stays. -/
def rhoOffset (x y : Fin 5) : ℕ :=
  ((List.range 24).find? fun t => rhoLane t = (x, y)).elim 0 fun t => (t + 1) * (t + 2) / 2

def rho (A : StateArray) : StateArray := fun x y z => A x y (z - Fin.ofNat 64 (rhoOffset x y))

def pi (A : StateArray) : StateArray := fun x y z => A (x + 3 * y) x z

def chi (A : StateArray) : StateArray := fun x y z =>
  A x y z ^^ ((A (x + 1) y z ^^ true) && A (x + 2) y z)

/-- One turn of the linear feedback shift register of `rc`. -/
def lfsrStep (R : List Bool) : List Bool :=
  let R := false :: R
  let last := R.getD 8 false
  let R := R.modify 0 (· ^^ last)
  let R := R.modify 4 (· ^^ last)
  let R := R.modify 5 (· ^^ last)
  let R := R.modify 6 (· ^^ last)
  R.take 8

def rc (t : ℕ) : Bool :=
  if t % 255 = 0 then true
  else (lfsrStep^[t % 255] [true, false, false, false, false, false, false, false]).getD 0 false

/-- The round constant of round `i`: bit `2^j - 1` is `rc (j + 7 i)`. -/
def roundConstant (i : ℕ) : List Bool :=
  (List.range 7).foldl (fun RC j => RC.set (2 ^ j - 1) (rc (j + 7 * i))) (List.replicate 64 false)

def iota (i : ℕ) (A : StateArray) : StateArray := fun x y z =>
  if x = 0 ∧ y = 0 then A x y z ^^ (roundConstant i).getD z false else A x y z

/-! ### Keccak-f[1600] -/

/-- `Rnd(A, i)`. -/
def rnd (A : StateArray) (i : ℕ) : StateArray := iota i (chi (pi (rho (theta A))))

/-- `A[x, y, z] = S[64 (5 y + x) + z]`. -/
def toArray (S : Vector Bool 1600) : StateArray := fun x y z =>
  S[64 * (5 * y.val + x.val) + z.val]

/-- The string of a state array: planes, then lanes, then bits. -/
def ofArray (A : StateArray) : Vector Bool 1600 :=
  Vector.ofFn fun i : Fin 1600 =>
    A ⟨i / 64 % 5, by omega⟩ ⟨i / 64 / 5, by omega⟩ ⟨i % 64, by omega⟩

def keccakF (S : Vector Bool 1600) : Vector Bool 1600 :=
  ofArray ((List.range 24).foldl rnd (toArray S))

theorem toArray_ofArray (A : StateArray) : toArray (ofArray A) = A := by
  funext x y z
  have hx : (64 * (5 * y.val + x) + z) / 64 % 5 = x := by omega
  have hy : (64 * (5 * y.val + x) + z) / 64 / 5 = y := by omega
  have hz : (64 * (5 * y.val + x) + z) % 64 = z := by omega
  simp only [toArray, ofArray, Vector.getElem_ofFn, hx, hy, hz]

/-! ### SHAKE256 -/

/-- The rate of SHAKE256: 1600 bits less the capacity of 512. -/
def rate : ℕ := 1600 - 512

/-- `SHAKE256(M, d) = KECCAK[512](M || 1111, d)`. -/
def shake256 (M : List Bool) (d : ℕ) : List Bool :=
  Sponge.sponge keccakF Sponge.pad10star1 rate (M ++ [true, true, true, true]) d

theorem shake256_prefix (M : List Bool) {d d' : ℕ} (h : d ≤ d') :
    shake256 M d <+: shake256 M d' :=
  Sponge.sponge_prefix keccakF (by decide) (by decide) _ _ h

end Fips202
