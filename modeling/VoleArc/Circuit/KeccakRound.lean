import VoleArc.Circuit.Gadgets
import VoleArc.KeccakBits

/-!
# VoleArc.Circuit.KeccakRound — the round on expressions computes the native round

`stateWires s` is the state `s` as field elements, one for each bit in `stateBit` order.  On such
inputs `keccakRoundExpr` evaluates to the bits of `Keccak.round` (`keccakRoundExpr_stateWires`),
so rounds compose.
-/

namespace VoleArc

open BitField Keccak Scatter

/-! ### Loops over lanes and cells -/

theorem mem_lanes (p : Fin 5 × Fin 5) : p ∈ lanes := by
  simp only [lanes, List.mem_flatMap, List.mem_map, List.mem_finRange, true_and]
  exact ⟨p.1, p.2, rfl⟩

theorem lane_injective : Function.Injective lane := by decide

theorem targetLane_injective : Function.Injective targetLane := by decide

/-- The lane that `pi` moves to lane `p`. -/
def sourceLane (p : Fin 5 × Fin 5) : Fin 5 × Fin 5 := (p.2, p.2 + 3 * p.1)

theorem targetLane_sourceLane : ∀ p, targetLane (sourceLane p) = lane p := by decide

theorem mem_columnCells (c : Fin 5 × Fin 64) : c ∈ columnCells := by
  simp only [columnCells, List.mem_flatMap, List.mem_map, List.mem_finRange, true_and]
  exact ⟨c.1, c.2, rfl⟩

theorem mem_stateCells (c : (Fin 5 × Fin 5) × Fin 64) : c ∈ stateCells := by
  simp only [stateCells, List.mem_flatMap, List.mem_map, List.mem_finRange, true_and]
  exact ⟨c.1, mem_lanes c.1, c.2, rfl⟩

theorem columnIndex_injective : Function.Injective fun c : Fin 5 × Fin 64 =>
    columnIndex c.1 c.2 := by
  rintro ⟨x, z⟩ ⟨x', z'⟩ h
  simp only [columnIndex, Fin.mk.injEq] at h
  ext <;> simp only <;> omega

theorem bitIndex_inj {l l' : Fin 25} {z z' : Fin 64} :
    bitIndex l z = bitIndex l' z' ↔ l = l' ∧ z = z' := by
  simp only [bitIndex, Fin.ext_iff]
  omega

/-- A bit position is determined by its cell, whichever injective lane numbering is used. -/
theorem bitIndex_injective {f : Fin 5 × Fin 5 → Fin 25} (hf : Function.Injective f) :
    Function.Injective fun c : (Fin 5 × Fin 5) × Fin 64 => bitIndex (f c.1) c.2 := by
  rintro ⟨p, z⟩ ⟨p', z'⟩ h
  obtain ⟨hp, hz⟩ := bitIndex_inj.mp h
  exact Prod.ext (hf hp) hz

/-! ### The native round -/

theorem get_thetaLanes (input : State) (y x : Fin 5) :
    (thetaLanes input).get (lane (y, x)) =
      input.get (lane (y, x)) ^^^ (columnLanes input).get (x + 4) ^^^
        ((columnLanes input).get (x + 1)).rotateLeft 1 :=
  get_scatter lane_injective (mem_lanes (y, x))

theorem get_piRhoLanes (theta : State) (p : Fin 5 × Fin 5) :
    (piRhoLanes theta).get (targetLane p) = (theta.get (lane p)).rotateLeft (RHO.get (lane p)) :=
  get_scatter targetLane_injective (mem_lanes p)

theorem get_chiLanes (permuted : State) (y x : Fin 5) :
    (chiLanes permuted).get (lane (y, x)) =
      permuted.get (lane (y, x)) ^^^
      (~~~permuted.get (lane (y, x + 1)) &&& permuted.get (lane (y, x + 2))) :=
  get_scatter lane_injective (mem_lanes (y, x))

theorem get_round (input : State) (rc : U64) (l : Fin 25) :
    (Keccak.round input rc).get l =
      (chiLanes (piRhoLanes (thetaLanes input))).get l ^^^ if l = 0 then rc else 0 := by
  rw [round_eq, Vector.get_eq_getElem, Vector.getElem_set]
  by_cases h : l = 0
  · simp [h]
  · have h0 : ¬ 0 = l.val := fun he => h (Fin.ext he.symm)
    simp [h, h0, Vector.get_eq_getElem]

theorem RHO_lt : ∀ i : Fin 25, RHO.get i < 64 := by decide

/-- A bit of a rotated lane. -/
theorem getLsbD_rotateLeft_lane (x : U64) {r z : ℕ} (hr : r < 64) (hz : z < 64) :
    (x.rotateLeft r).getLsbD z = x.getLsbD ((z + 64 - r) % 64) := by
  rw [BitVec.getLsbD_rotateLeft, Nat.mod_eq_of_lt hr]
  by_cases h : z < r
  · simp only [h, decide_true, cond_true]
    congr 1
    omega
  · simp only [h, hz, decide_false, cond_false, decide_true, Bool.true_and]
    congr 1
    omega

/-! ### The round on expressions -/

section Eval

variable {K : Type} [Field K] (F : BinaryFields K)

/-- A state as field elements, in `stateBit` order. -/
def stateWires (s : State) : Vector K 1600 := (stateBits s).map ofBool

theorem get_stateWires (s : State) (l : Fin 25) (z : Fin 64) :
    (stateWires s : Vector K 1600).get (bitIndex l z) = ofBool ((s.get l).getLsbD z) := by
  have hdiv : (64 * l.val + z.val) / 64 = l := by omega
  have hmod : (64 * l.val + z.val) % 64 = z := by omega
  simp [stateWires, stateBits, stateBit, bitIndex, hdiv, hmod]

/-- The column parities on expressions. -/
def columnExprs {S W E : Type} (B : Backend K S W E) (state : Vector E 1600) : Vector E 320 :=
  scatter (Vector.replicate 320 (B.wireExpr (B.constant 0))) columnCells
    (fun c => columnIndex c.1 c.2) fun (x, z) =>
      (List.finRange 5).foldl
        (fun parity y => B.exprAdd parity (state.get (bitIndex (lane (y, x)) z)))
        (B.wireExpr (B.constant 0))

theorem get_keccakLinearExpr_eq {S W E : Type} (B : Backend K S W E) (state : Vector E 1600)
    (y x : Fin 5) (z : Fin 64) :
    (keccakLinearExpr B state).get (bitIndex (lane (y, x)) z) =
      B.exprAdd (state.get (bitIndex (lane (y, x)) z))
        (B.exprAdd ((columnExprs B state).get (columnIndex (x + 4) z))
          ((columnExprs B state).get (columnIndex (x + 1) (z + 63)))) :=
  (get_scatter (bitIndex_injective lane_injective) (mem_stateCells ((y, x), z))).trans rfl

/-- The permuted position of a bit: its lane before `pi`, its offset before `rho`. -/
theorem get_piRhoIndex (p : Fin 5 × Fin 5) (z : Fin 64) :
    piRhoIndex.get (bitIndex (targetLane p) z) = bitIndex (lane p) (sourceZ (lane p) z) :=
  (get_scatter (bitIndex_injective targetLane_injective) (mem_stateCells (p, z))).trans rfl

/-- Every bit position is the target of a cell. -/
theorem exists_targetCell (i : Fin 1600) : ∃ p z, i = bitIndex (targetLane p) z := by
  let y : Fin 5 := ⟨i / 64 / 5, by omega⟩
  let x : Fin 5 := ⟨i / 64 % 5, by omega⟩
  let z : Fin 64 := ⟨i % 64, by omega⟩
  refine ⟨sourceLane (y, x), z, ?_⟩
  rw [targetLane_sourceLane]
  ext
  simp only [bitIndex, lane, x, y, z]
  omega

theorem sourceZ_injective (l : Fin 25) : Function.Injective (sourceZ l) := by
  intro z z' h
  have hl := RHO_lt l
  simp only [sourceZ, Fin.mk.injEq] at h
  ext
  omega

/-- `rho` and `pi` move every bit to a position of its own. -/
theorem piRhoIndex_bijective : Function.Bijective piRhoIndex.get := by
  refine Finite.injective_iff_bijective.mp fun i j h => ?_
  obtain ⟨p, z, rfl⟩ := exists_targetCell i
  obtain ⟨p', z', rfl⟩ := exists_targetCell j
  rw [get_piRhoIndex, get_piRhoIndex, bitIndex_inj] at h
  obtain ⟨hlane, hz⟩ := h
  obtain rfl := lane_injective hlane
  rw [sourceZ_injective _ hz]

/-- A bit of the rotated and permuted lanes is the bit the index names. -/
theorem stateBit_piRhoLanes (s : State) (i : Fin 1600) :
    stateBit (piRhoLanes s) i = stateBit s (piRhoIndex.get i) := by
  obtain ⟨p, z, rfl⟩ := exists_targetCell i
  rw [get_piRhoIndex]
  have hleft := stateBit_mk (piRhoLanes s) (targetLane p) z (bit_lt _ _)
  have hright := stateBit_mk s (lane p) (sourceZ (lane p) z) (bit_lt _ _)
  refine hleft.trans (Eq.trans ?_ hright.symm)
  rw [get_piRhoLanes, getLsbD_rotateLeft_lane _ (RHO_lt _) z.isLt]
  rfl

variable [CharP K 2]

theorem get_columnExprs (s : State) (x : Fin 5) (z : Fin 64) :
    (columnExprs (evalBackend F) (stateWires s)).get (columnIndex x z) =
      ofBool (((columnLanes s).get x).getLsbD z) := by
  have hrange : List.finRange 5 = [0, 1, 2, 3, 4] := rfl
  refine (get_scatter columnIndex_injective (mem_columnCells (x, z))).trans ?_
  simp only [hrange, List.foldl_cons, List.foldl_nil, evalBackend_exprAdd, evalBackend_wireExpr,
    evalBackend_constant, zero_add, get_stateWires, ofBool_add, columnLanes, Vector.get_ofFn,
    BitVec.getLsbD_xor]
  rfl

theorem get_keccakLinearExpr (s : State) (p : Fin 5 × Fin 5) (z : Fin 64) :
    (keccakLinearExpr (evalBackend F) (stateWires s)).get (bitIndex (lane p) z) =
      ofBool (((thetaLanes s).get (lane p)).getLsbD z) := by
  obtain ⟨y, x⟩ := p
  have hrot : (((columnLanes s).get (x + 1)).rotateLeft 1).getLsbD z =
      ((columnLanes s).get (x + 1)).getLsbD (z + 63 : Fin 64) :=
    getLsbD_rotateLeft_lane _ (by omega) z.isLt
  rw [get_keccakLinearExpr_eq, get_thetaLanes]
  simp only [evalBackend_exprAdd, get_stateWires, get_columnExprs, ofBool_add,
    BitVec.getLsbD_xor, hrot, Bool.xor_assoc]

/-- `theta` at the permuted position is a bit of `pi` after `rho` after `theta`. -/
theorem get_keccakLinearExpr_piRho (s : State) (p : Fin 5 × Fin 5) (z : Fin 64) :
    (keccakLinearExpr (evalBackend F) (stateWires s)).get (piRhoIndex.get (bitIndex (lane p) z)) =
      ofBool (((piRhoLanes (thetaLanes s)).get (lane p)).getLsbD z) := by
  rw [← targetLane_sourceLane p, get_piRhoIndex, get_keccakLinearExpr, get_piRhoLanes,
    getLsbD_rotateLeft_lane _ (RHO_lt _) z.isLt]
  rfl

/-- On the bits of a state, a round on expressions gives the bits of the native round. -/
theorem keccakRoundExpr_stateWires (s : State) (rc : U64) :
    keccakRoundExpr (evalBackend F) (stateWires s) rc = stateWires (Keccak.round s rc) := by
  refine Vector.ext fun i hi => ?_
  let l : Fin 25 := ⟨i / 64, by omega⟩
  let z : Fin 64 := ⟨i % 64, by omega⟩
  let x : Fin 5 := ⟨i / 64 % 5, by omega⟩
  let y : Fin 5 := ⟨i / 64 / 5, by omega⟩
  have hl : lane (y, x) = l := by ext; simp only [lane, x, y, l]; omega
  have hcell : bitIndex l z = ⟨i, hi⟩ := by ext; simp only [bitIndex, l, z]; omega
  have hround : (stateWires (Keccak.round s rc) : Vector K 1600).get ⟨i, hi⟩ =
      ofBool (((Keccak.round s rc).get l).getLsbD z) := by rw [← hcell, get_stateWires]
  change (keccakRoundExpr (evalBackend F) (stateWires s) rc).get ⟨i, hi⟩ =
    (stateWires (Keccak.round s rc) : Vector K 1600).get ⟨i, hi⟩
  rw [hround, get_round, ← hl, get_chiLanes]
  unfold keccakRoundExpr
  rw [Vector.get_ofFn]
  have hfirst := get_keccakLinearExpr_piRho F s (y, x) z
  have hsecond := get_keccakLinearExpr_piRho F s (y, x + 1) z
  have hthird := get_keccakLinearExpr_piRho F s (y, x + 2) z
  set permuted := piRhoLanes (thetaLanes s)
  set first := (permuted.get (lane (y, x))).getLsbD z
  set second := (permuted.get (lane (y, x + 1))).getLsbD z
  set third := (permuted.get (lane (y, x + 2))).getLsbD z
  -- the bit before iota
  have hchi : (permuted.get (lane (y, x)) ^^^
      (~~~permuted.get (lane (y, x + 1)) &&& permuted.get (lane (y, x + 2)))).getLsbD z =
      (first ^^ (!second && third)) := by
    simp [first, second, third]
  have hexpr : (ofBool first + (1 + ofBool second) * ofBool third : K) =
      ofBool (first ^^ (!second && third)) := by
    rw [one_add_ofBool, ofBool_mul, ofBool_add]
  rw [BitVec.getLsbD_xor, hchi, hl]
  simp only [evalBackend_exprAdd, evalBackend_exprMul, evalBackend_wireExpr, evalBackend_constant]
  change (if l = 0 ∧ rc.getLsbD z = true then _ + (1 + _) * _ + 1 else _ + (1 + _) * _) = _
  have hiota : (if l = 0 then rc else 0 : U64).getLsbD z = (decide (l = 0) && rc.getLsbD z) := by
    by_cases h0 : l = 0 <;> simp [h0]
  rw [hfirst, hsecond, hthird, hexpr, ofBool_add_one, hiota]
  generalize rc.getLsbD z = b
  by_cases h0 : l = 0 <;> cases b <;> simp [h0]

end Eval

end VoleArc
