import VoleArc.Markers
import VoleArc.Keccak

/-!
# VoleArc.Circuit.Native — hash inputs, targets, tags and witness bits, natively

The messages of the three in-circuit SHAKE256 evaluations, the values derived from them, and the
functions that append witness bits.
-/

namespace VoleArc

open BitString Keccak

/-! ### Messages -/

def credentialDomain : Bytes := ascii "VOLE-ARC/credential/v1"
def signedCredentialDomain : Bytes := ascii "VOLE-ARC/signed/v1"
def tagDomain : Bytes := ascii "VOLE-ARC/tag/v1"

def saltBytes : ℕ := 32
def secretBytes : ℕ := 32
def hidingNonceBytes : ℕ := 32
abbrev presentationNonceBits : ℕ := 32
def keccakCheckpointBits : ℕ := 6 * 1600

def credentialMessage (scope secret hidingNonce : Bytes32) : Bytes :=
  credentialDomain ++ scope.toList ++ secret.toList ++ hidingNonce.toList

/-- The first `m` nibbles of a hash output, low nibble first. -/
def outputNibbles (m : ℕ) (output : Bytes) : List GF16 :=
  (List.range m).map fun index =>
    GF16.new ((output.getD (index / 2) 0 >>> (4 * (index % 2))) &&& 0x0f)

/-- The nibbles both targets read off the SHAKE256 output of their message. -/
def targetNibbles (m : ℕ) (message : Bytes) : List GF16 :=
  outputNibbles m (shake256 message ((m + 1) / 2))

def credentialTarget (P : ArcParams) (scope secret hidingNonce : Bytes32) : List GF16 :=
  targetNibbles P.M (credentialMessage scope secret hidingNonce)

/-- Two nibbles to a byte, low nibble first; an odd last nibble gets a zero high half. -/
def packGf16 (values : List GF16) : Bytes :=
  (chunks 2 values).map fun pair =>
    (pair.getD 0 0).toU8 ||| (pair[1]?.elim 0 GF16.toU8) <<< 4

def signedCredentialMessage (commitment : List GF16) (salt : Bytes32) : Bytes :=
  signedCredentialDomain ++ packGf16 commitment ++ salt.toList

def signedCredentialTarget (P : ArcParams) (commitment : List GF16) (salt : Bytes32) : List GF16 :=
  targetNibbles P.M (signedCredentialMessage commitment salt)

@[simp] theorem length_outputNibbles (m : ℕ) (output : Bytes) :
    (outputNibbles m output).length = m := by
  simp [outputNibbles]

@[simp] theorem length_credentialTarget (P : ArcParams) (scope secret hidingNonce : Bytes32) :
    (credentialTarget P scope secret hidingNonce).length = P.M :=
  length_outputNibbles _ _

@[simp] theorem length_signedCredentialTarget (P : ArcParams) (commitment : List GF16)
    (salt : Bytes32) : (signedCredentialTarget P commitment salt).length = P.M :=
  length_outputNibbles _ _

def tagMessage (secret scope : Bytes32) (nonce : U32) : Bytes :=
  tagDomain ++ secret.toList ++ scope.toList ++ u32ToLeBytes nonce

@[simp] theorem length_chunkBytes (state : State) (n : ℕ) : (chunkBytes state n).length = n := by
  simp [chunkBytes]

@[simp] theorem length_squeeze (full rem : ℕ) (state : State) :
    (squeeze full rem state).length = rateBytes * full + rem := by
  induction full generalizing state with
  | zero => simp [squeeze]
  | succ full ih => simp [squeeze, ih]; ring

@[simp] theorem length_shake256 (message : Bytes) (n : ℕ) : (shake256 message n).length = n := by
  simp [shake256, Nat.div_add_mod]

def deriveTag (secret scope : Bytes32) (nonce : U32) : Bytes32 :=
  ⟨(shake256 (tagMessage secret scope nonce) 32).toArray, by simp⟩

/-! ### Witness bits -/

def bytesBits (bytes : Bytes) : List Bool :=
  bytes.flatMap fun byte => (List.range 8).map byte.getLsbD

def gf16Bits (values : List GF16) : List Bool :=
  values.flatMap fun value => (List.range 4).map value.toU8.getLsbD

def appendBytesBits (output : List Bool) (bytes : Bytes) : List Bool := output ++ bytesBits bytes

def appendGf16Bits (output : List Bool) (values : List GF16) : List Bool :=
  output ++ gf16Bits values

def appendU32Bits (output : List Bool) (value : U32) : List Bool :=
  output ++ (List.range presentationNonceBits).map value.getLsbD

/-- The carries of `value + !limit + 1`, one for each bit position. -/
def appendLessThanCarries (output : List Bool) (value limit : U32) : List Bool :=
  ((List.range presentationNonceBits).foldl (fun (output, carry) bit =>
    let a := value.getLsbD bit
    let b := (~~~limit).getLsbD bit
    let carry := (a && b) || (a && carry) || (b && carry)
    (output ++ [carry], carry)) (output, true)).1

/-- The state after every fourth round of the permutation of the padded message. -/
def appendKeccakCheckpoints (witness : List Bool) (message : Bytes) : List Bool :=
  let block := padSingleBlock message
  let state := absorbBlock (Vector.replicate 25 0) block
  (RC.toList.zipIdx.foldl (fun (witness, state) (roundConstant, roundIndex) =>
    let state := Keccak.round state roundConstant
    (if (roundIndex + 1) % 4 = 0 then witness ++ (stateBits state).toList else witness, state))
    (witness, state)).1

end VoleArc
