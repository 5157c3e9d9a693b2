import VoleArc.Circuit.KeccakRound

/-!
# VoleArc.KeccakLanes — the permutation on rows of lanes

The rounds on a state kept as five lists of five lanes, for digests of short messages that have to
be computed.
-/

namespace VoleArc.Keccak

/-! ### Rows -/

def row (f : Fin 5 → U64) : List U64 := (List.finRange 5).map f

/-- Five rows of five lanes. -/
def rows (f : Fin 5 → Fin 5 → U64) : List (List U64) := (List.finRange 5).map fun y => row (f y)

/-- Lane `x` of row `y`. -/
def laneAt (state : List (List U64)) (y x : Fin 5) : U64 := (state.getD y []).getD x 0

@[simp] theorem getD_row (f : Fin 5 → U64) (x : Fin 5) : (row f).getD x 0 = f x := by
  simp [row]

@[simp] theorem laneAt_rows (f : Fin 5 → Fin 5 → U64) (y x : Fin 5) :
    laneAt (rows f) y x = f y x := by
  have hrow : (rows f).getD y [] = row (f y) := by simp [rows]
  rw [laneAt, hrow, getD_row]

/-- The rows of a state. -/
def rowsOf (state : State) : List (List U64) := rows fun y x => state.get (lane (y, x))

/-! ### The permutation -/

def columnRow (input : List (List U64)) : List U64 :=
  row fun x => laneAt input 0 x ^^^ laneAt input 1 x ^^^ laneAt input 2 x ^^^ laneAt input 3 x ^^^
    laneAt input 4 x

def thetaRows (input : List (List U64)) : List (List U64) :=
  let columns := columnRow input
  rows fun y x => laneAt input y x ^^^ columns.getD (x + 4 : Fin 5) 0 ^^^
    (columns.getD (x + 1 : Fin 5) 0).rotateLeft 1

def piRhoRows (theta : List (List U64)) : List (List U64) :=
  rows fun y x =>
    let source := sourceLane (y, x)
    (laneAt theta source.1 source.2).rotateLeft (RHO.get (lane source))

def roundRows (input : List (List U64)) (roundConstant : U64) : List (List U64) :=
  let permuted := piRhoRows (thetaRows input)
  rows fun y x => laneAt permuted y x ^^^
    (~~~laneAt permuted y (x + 1) &&& laneAt permuted y (x + 2)) ^^^
      if lane (y, x) = 0 then roundConstant else 0

theorem columnRow_rowsOf (input : State) :
    columnRow (rowsOf input) = row fun x => (columnLanes input).get x := by
  refine congrArg row (funext fun x => ?_)
  simp only [rowsOf, laneAt_rows, columnLanes, Vector.get_ofFn]
  rfl

theorem thetaRows_rowsOf (input : State) :
    thetaRows (rowsOf input) = rowsOf (thetaLanes input) := by
  refine congrArg rows (funext fun y => funext fun x => ?_)
  rw [columnRow_rowsOf, get_thetaLanes, rowsOf, laneAt_rows, getD_row, getD_row]

theorem piRhoRows_rowsOf (theta : State) :
    piRhoRows (rowsOf theta) = rowsOf (piRhoLanes theta) := by
  refine congrArg rows (funext fun y => funext fun x => ?_)
  rw [← targetLane_sourceLane, get_piRhoLanes]
  exact congrArg (BitVec.rotateLeft · _) (laneAt_rows _ _ _)

/-- A round on the rows of a state. -/
theorem roundRows_rowsOf (input : State) (roundConstant : U64) :
    roundRows (rowsOf input) roundConstant = rowsOf (round input roundConstant) := by
  refine congrArg rows (funext fun y => funext fun x => ?_)
  rw [thetaRows_rowsOf, piRhoRows_rowsOf, get_round, get_chiLanes]
  simp only [rowsOf, laneAt_rows]

theorem rowsOf_keccakF (state : State) :
    rowsOf (keccakF state) = RC.toList.foldl roundRows (rowsOf state) :=
  (List.foldl_hom rowsOf fun s rc => roundRows_rowsOf s rc).symm

/-! ### Digests -/

/-- The 32 bytes hashed from a message shorter than the rate: four lanes of the first row. -/
def digest (message : Bytes) : Bytes :=
  let first := (RC.toList.foldl roundRows (rowsOf (absorbed message))).getD 0 []
  (List.range 32).map fun index => (u64ToLeBytes (first.getD (index / 8) 0)).getD (index % 8) 0

theorem shake256_eq_digest {message : Bytes} (h : message.length < rateBytes) :
    shake256 message 32 = digest message := by
  rw [shake256_of_lt h (by decide), chunkBytes, digest, ← rowsOf_keccakF]
  refine List.map_congr_left fun index hindex => ?_
  have hlt : index / 8 < 4 := by have := List.mem_range.mp hindex; omega
  have hlane := laneAt_rows (fun y x => (finalState message).get (lane (y, x))) 0
    ⟨index / 8, by omega⟩
  rw [Vector.getElem?_eq_getElem (show index / 8 < 25 by omega)]
  refine congrArg (fun lane => (u64ToLeBytes lane).getD (index % 8) 0) (Eq.trans ?_ hlane.symm)
  simp [lane, Vector.get_eq_getElem]

end VoleArc.Keccak
