import VoleArc.Prim
import VoleArc.Lib.Scatter

/-!
# VoleArc.Keccak — native Keccak-f[1600] and SHAKE256

The permutation, the padded absorption of one rate block, and SHAKE256 for messages and outputs
of any length.  `stateBit` reads one bit in the layout the circuits use.
-/

namespace VoleArc.Keccak

open BitString Scatter

instance neZero_five : NeZero 5 := ⟨by decide⟩
instance neZero_lanes : NeZero 25 := ⟨by decide⟩
instance neZero_bits : NeZero 64 := ⟨by decide⟩

/-- `RATE_BYTES`: SHAKE256's rate in bytes. -/
def rateBytes : ℕ := 136

/-- `RC`: the Keccak-f[1600] round constants. -/
def RC : Vector U64 24 := #v[
  0x0000000000000001, 0x0000000000008082, 0x800000000000808a, 0x8000000080008000,
  0x000000000000808b, 0x0000000080000001, 0x8000000080008081, 0x8000000000008009,
  0x000000000000008a, 0x0000000000000088, 0x0000000080008009, 0x000000008000000a,
  0x000000008000808b, 0x800000000000008b, 0x8000000000008089, 0x8000000000008003,
  0x8000000000008002, 0x8000000000000080, 0x000000000000800a, 0x800000008000000a,
  0x8000000080008081, 0x8000000000008080, 0x0000000080000001, 0x8000000080008008]

/-- `RHO`: the rotation offsets, indexed by `x + 5 * y`. -/
def RHO : Vector ℕ 25 := #v[
  0, 1, 62, 28, 27, 36, 44, 6, 55, 20, 3, 10, 43, 25, 39, 41, 45, 15, 21, 8, 18, 2, 61, 56, 14]

/-- A Keccak state of 25 little-endian 64-bit lanes. -/
abbrev State := Vector U64 25

/-- `for y in 0..5 { for x in 0..5 { .. } }`, as the list of the visited pairs `(y, x)`. -/
def lanes : List (Fin 5 × Fin 5) :=
  (List.finRange 5).flatMap fun y => (List.finRange 5).map fun x => (y, x)

/-- `x + 5 * y`. -/
def lane (p : Fin 5 × Fin 5) : Fin 25 := ⟨p.2 + 5 * p.1, by omega⟩

/-- `target_x + 5 * target_y` with `target_x = y` and `target_y = (2 * x + 3 * y) % 5`. -/
def targetLane (p : Fin 5 × Fin 5) : Fin 25 := ⟨p.1 + 5 * ((2 * p.2 + 3 * p.1) % 5), by omega⟩

/-- Apply one Keccak-f[1600] round.  Sums of coordinates are taken in `Fin 5`, that is modulo 5. -/
def round (input : State) (roundConstant : U64) : State :=
  let columns : Vector U64 5 := Vector.ofFn fun x =>
    input[x.val] ^^^ input[x.val + 5] ^^^ input[x.val + 10] ^^^ input[x.val + 15] ^^^
      input[x.val + 20]
  let theta : State := scatter (Vector.replicate 25 0) lanes (fun p => lane p) fun (y, x) =>
    input.get (lane (y, x)) ^^^ columns.get (x + 4) ^^^ (columns.get (x + 1)).rotateLeft 1
  let permuted : State := scatter (Vector.replicate 25 0) lanes (fun p => targetLane p) fun p =>
    (theta.get (lane p)).rotateLeft (RHO.get (lane p))
  let output : State := scatter (Vector.replicate 25 0) lanes (fun p => lane p) fun (y, x) =>
    permuted.get (lane (y, x)) ^^^
      (~~~permuted.get (lane (y, x + 1)) &&& permuted.get (lane (y, x + 2)))
  output.set 0 (output.get 0 ^^^ roundConstant)

/-- Apply Keccak-f[1600]. -/
def keccakF (state : State) : State := RC.toList.foldl round state

/-- `bytes.as_chunks::<n>()`: the whole chunks and the remainder. -/
def asChunks (n : ℕ) (bytes : Bytes) : List (Vector U8 n) × Bytes :=
  ((List.range (bytes.length / n)).map fun i => Vector.ofFn fun j => bytes.getD (n * i + j) 0,
    bytes.drop (n * (bytes.length / n)))

/-- XOR one rate block into a state, lane by lane. -/
def absorbBlock (state : State) (block : Vector U8 rateBytes) : State :=
  let blockLanes := (asChunks 8 block.toList).1
  scatter state (List.finRange 17) Fin.val fun index =>
    state[index.val] ^^^ u64FromLeBytes (blockLanes[index.val]?.elim [] Vector.toList)

/-- `block[i] ^= c`. -/
def xorAt {n : ℕ} (block : Vector U8 n) (i : ℕ) (c : U8) : Vector U8 n :=
  block.setIfInBounds i ((block[i]?.getD 0) ^^^ c)

/-- Pad a message shorter than one rate block (which the source asserts) as SHAKE256. -/
def padSingleBlock (message : Bytes) : Vector U8 rateBytes :=
  let block := scatter (Vector.replicate rateBytes 0) (List.range message.length) id
    fun i => message.getD i 0
  xorAt (xorAt block message.length 0x1f) (rateBytes - 1) 0x80

/-- Fill one output chunk of `n` bytes from a state. -/
def chunkBytes (state : State) (n : ℕ) : Bytes :=
  (List.range n).map fun index =>
    (u64ToLeBytes (state[index / 8]?.getD 0)).getD (index % 8) 0

/-- `output.chunks_mut(RATE_BYTES)`: `full` whole chunks, each followed by a permutation, then the
last one of `rem` bytes. -/
def squeeze : ℕ → ℕ → State → Bytes
  | 0, rem, state => chunkBytes state rem
  | full + 1, rem, state => chunkBytes state rateBytes ++ squeeze full rem (keccakF state)

/-- SHAKE256 for arbitrary input and output lengths. -/
def shake256 (message : Bytes) (outputLen : ℕ) : Bytes :=
  let (blocks, remainder) := asChunks rateBytes message
  let state := blocks.foldl (fun state block => keccakF (absorbBlock state block))
    (Vector.replicate 25 0)
  let state := keccakF (absorbBlock state (padSingleBlock remainder))
  squeeze (outputLen / rateBytes) (outputLen % rateBytes) state

/-- Read one bit using the circuit's state layout. -/
def stateBit (state : State) (index : Fin 1600) : Bool :=
  (state.get ⟨index / 64, by omega⟩).getLsbD (index % 64)

/-- `(0..1600).map(|bit| state_bit(&state, bit))`. -/
def stateBits (state : State) : Vector Bool 1600 := Vector.ofFn (stateBit state)

end VoleArc.Keccak

namespace VoleArc

open Keccak Scatter

/-! ### The round in named steps -/

/-- The column parities. -/
def columnLanes (input : State) : Vector U64 5 := Vector.ofFn fun x =>
  input[x.val] ^^^ input[x.val + 5] ^^^ input[x.val + 10] ^^^ input[x.val + 15] ^^^
    input[x.val + 20]

def thetaLanes (input : State) : State :=
  scatter (Vector.replicate 25 0) lanes (fun p => lane p) fun (y, x) =>
    input.get (lane (y, x)) ^^^ (columnLanes input).get (x + 4) ^^^
      ((columnLanes input).get (x + 1)).rotateLeft 1

def piRhoLanes (theta : State) : State :=
  scatter (Vector.replicate 25 0) lanes (fun p => targetLane p) fun p =>
    (theta.get (lane p)).rotateLeft (RHO.get (lane p))

def chiLanes (permuted : State) : State :=
  scatter (Vector.replicate 25 0) lanes (fun p => lane p) fun (y, x) =>
    permuted.get (lane (y, x)) ^^^
      (~~~permuted.get (lane (y, x + 1)) &&& permuted.get (lane (y, x + 2)))

theorem round_eq (input : State) (rc : U64) :
    Keccak.round input rc =
      (chiLanes (piRhoLanes (thetaLanes input))).set 0
        ((chiLanes (piRhoLanes (thetaLanes input))).get 0 ^^^ rc) := rfl

end VoleArc
