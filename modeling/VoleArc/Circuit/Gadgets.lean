import VoleArc.Backend
import VoleArc.Circuit.Native

/-!
# VoleArc.Circuit.Gadgets — the circuit builders

The builder functions shared by the two circuits, generic over the backend as in the source:
constants, the lift of nibbles to the proof field, the Keccak round on expressions, SHAKE256 with
committed intermediate states, and the comparison of a 32-bit value with a public limit.
-/

namespace VoleArc

open BitString Keccak Scatter

variable {K S W E : Type} [Field K] (B : Backend K S W E)

/-! ### Allocation, constants, assertions -/

def witnessBit : Build S W := fun s => B.witnessBit s

def assertZero (wire : W) : Build S Unit := modify (B.assertZero wire)

def assertExprZero (expr : E) : Build S Unit := modify (B.assertExprZero expr)

def allocBits : (count : ℕ) → Build S (Vector W count)
  | 0 => pure #v[]
  | count + 1 => do
    let wires ← allocBits count
    let wire ← witnessBit B
    pure (wires.push wire)

def constantBit (bit : Bool) : W := B.constant (if bit then 1 else 0)

def constantBytes (bytes : Bytes) : List W := (bytesBits bytes).map (constantBit B)

def targetConstantBits (target : List GF16) : List W := (gf16Bits target).map (constantBit B)

/-! ### Lifting nibbles -/

def liftGf16 (F : BinaryFields K) (bits : List W) : W :=
  bits.zipIdx.foldl (fun accumulator (bit, bitIndex) =>
    let basis := F.embedGf16 (GF16.new (1 <<< bitIndex))
    B.add accumulator (B.scale basis bit)) (B.constant 0)

def liftNibbles (F : BinaryFields K) (bits : List W) : List W :=
  (chunks 4 bits).map (liftGf16 B F)

/-! ### Keccak on expressions -/

def initialSpongeState (message : List W) : Vector W 1600 :=
  let zero := B.constant 0
  let one := B.constant 1
  let state := scatter (Vector.replicate 1600 zero) (List.range message.length) id
    fun i => message.getD i zero
  let messageByte := message.length / 8
  let state := scatter state ((List.range 8).filter fun bit => (0x1f : U8).getLsbD bit)
    (fun bit => messageByte * 8 + bit) fun _ => one
  state.set (rateBytes * 8 - 1) one (by decide)

/-- `for x in 0..5 { for z in 0..64 { .. } }`. -/
def columnCells : List (Fin 5 × Fin 64) :=
  (List.finRange 5).flatMap fun x => (List.finRange 64).map fun z => (x, z)

/-- `for y in 0..5 { for x in 0..5 { for z in 0..64 { .. } } }`. -/
def stateCells : List ((Fin 5 × Fin 5) × Fin 64) :=
  lanes.flatMap fun p => (List.finRange 64).map fun z => (p, z)

/-- `64 * x + z`. -/
def columnIndex (x : Fin 5) (z : Fin 64) : Fin 320 := ⟨64 * x + z, by omega⟩

/-- `64 * lane + z`. -/
def bitIndex (lane : Fin 25) (z : Fin 64) : Fin 1600 := ⟨64 * lane + z, by omega⟩

def keccakLinearExpr (state : Vector E 1600) : Vector E 1600 :=
  let zero := B.wireExpr (B.constant 0)
  let columns : Vector E 320 := scatter (Vector.replicate 320 zero) columnCells
    (fun c => columnIndex c.1 c.2) fun (x, z) =>
      (List.finRange 5).foldl
        (fun parity y => B.exprAdd parity (state.get (bitIndex (lane (y, x)) z))) zero
  scatter (Vector.replicate 1600 zero) stateCells (fun c => bitIndex (lane c.1) c.2)
    fun ((y, x), z) =>
      let left := columns.get (columnIndex (x + 4) z)
      let right := columns.get (columnIndex (x + 1) (z + 63))
      let delta := B.exprAdd left right
      B.exprAdd (state.get (bitIndex (lane (y, x)) z)) delta

/-- `(z + 64 - RHO.get lane) % 64`. -/
def sourceZ (lane : Fin 25) (z : Fin 64) : Fin 64 :=
  ⟨(z + 64 - RHO.get lane) % 64, Nat.mod_lt _ (by omega)⟩

/-- Where `rho` then `pi` move each bit from. -/
def piRhoIndex : Vector (Fin 1600) 1600 :=
  scatter (Vector.replicate 1600 0) stateCells (fun c => bitIndex (targetLane c.1) c.2)
    fun (p, z) => bitIndex (lane p) (sourceZ (lane p) z)

theorem div_lt_lanes (index : Fin 1600) : index.val / 64 < 25 := by omega

theorem mod_lt_bits (index : Fin 1600) : index.val % 64 < 64 := by omega

theorem mod_lt_five (lane : Fin 25) : lane.val % 5 < 5 := by omega

theorem div_lt_five (lane : Fin 25) : lane.val / 5 < 5 := by omega

def keccakRoundExpr (state : Vector E 1600) (roundConstant : U64) : Vector E 1600 :=
  let theta := keccakLinearExpr B state
  let permutation := piRhoIndex
  let one := B.wireExpr (B.constant 1)
  Vector.ofFn fun index : Fin 1600 =>
    let lane' : Fin 25 := ⟨index / 64, div_lt_lanes index⟩
    let z : Fin 64 := ⟨index % 64, mod_lt_bits index⟩
    let x : Fin 5 := ⟨lane' % 5, mod_lt_five lane'⟩
    let y : Fin 5 := ⟨lane' / 5, div_lt_five lane'⟩
    let first := theta.get (permutation.get (bitIndex (lane (y, x)) z))
    let second := theta.get (permutation.get (bitIndex (lane (y, x + 1)) z))
    let third := theta.get (permutation.get (bitIndex (lane (y, x + 2)) z))
    let notSecond := B.exprAdd one second
    let product := B.exprMul notSecond third
    let bit := B.exprAdd first product
    if lane' = 0 ∧ roundConstant.getLsbD z then B.exprAdd bit one else bit

/-- Four rounds of one group, on expressions. -/
def groupExpr (state : Vector E 1600) (group : Fin 6) : Vector E 1600 :=
  (List.finRange 4).foldl
    (fun expression round => keccakRoundExpr B expression RC[4 * group.val + round.val]) state

/-- The loop body of `shake_degree16`: commit to the state after one group. -/
def shakeGroup (state : Vector W 1600) (group : Fin 6) : Build S (Vector W 1600) := do
  let checkpoint ← allocBits B 1600
  let expression := groupExpr B (state.map B.wireExpr) group
  (expression.toList.zip checkpoint.toList).forM fun p =>
    assertExprZero B (B.exprAdd p.1 (B.wireExpr p.2))
  pure checkpoint

def shakeDegree16 (message : List W) : Build S (Vector W 1600) :=
  (List.finRange 6).foldlM (shakeGroup B) (initialSpongeState B message)

def shakeHiddenOutput (message : List W) (outputBits : ℕ) : Build S (List W) := do
  let state ← shakeDegree16 B message
  pure (state.toList.take outputBits)

def shakeAssertOutput (message expected : List W) : Build S Unit := do
  let state ← shakeDegree16 B message
  (state.toList.zip expected).forM fun p => assertZero B (B.add p.1 p.2)

/-! ### Message wires -/

def credentialWires (scope : Bytes32) (secret hidingNonce : List W) : List W :=
  constantBytes B credentialDomain ++ constantBytes B scope.toList ++ secret ++ hidingNonce

/-- `while !message.len().is_multiple_of(8) { message.push(zero) }`. -/
def padToByte (message : List W) : List W :=
  message ++ List.replicate ((8 - message.length % 8) % 8) (constantBit B false)

def signedCredentialWires (commitment salt : List W) : List W :=
  padToByte B (constantBytes B signedCredentialDomain ++ commitment) ++ salt

def tagWires (secret : List W) (scope : Bytes32) (nonce : List W) : List W :=
  constantBytes B tagDomain ++ secret ++ constantBytes B scope.toList ++ nonce

/-! ### Range check -/

/-- The loop body of `assert_u32_less_than`: the committed carry is the carry out of this bit. -/
def assertCarry (value carries : Vector W 32) (limit : U32) (carryIn : W) (bit : Fin 32) :
    Build S W := do
  let a := B.wireExpr value[bit.val]
  let carry := B.wireExpr carryIn
  let equation := B.wireExpr carries[bit.val]
  let b := (~~~limit).getLsbD bit.val
  let equation := if b then B.exprAdd equation a else equation
  let equation := B.exprAdd equation (B.exprMul a carry)
  let equation := if b then B.exprAdd equation carry else equation
  assertExprZero B equation
  pure carries[bit.val]

def assertU32LessThan (value carries : Vector W 32) (limit : U32) : Build S Unit := do
  let carryOut ← (List.finRange 32).foldlM (assertCarry B value carries limit) (B.constant 1)
  -- final carry = 1 exactly when value >= limit
  assertZero B carryOut

end VoleArc
