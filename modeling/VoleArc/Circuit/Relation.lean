import VoleArc.Circuit.Gadgets

/-!
# VoleArc.Circuit.Relation — the issuance and presentation circuits

Each circuit comes with the native generator of its witness bits and with its builder.
-/

namespace VoleArc

/-! ### Issuance -/

structure IssueCircuit (P : ArcParams) where
  credentialScope : Bytes32
  target : List GF16

variable {P : ArcParams} {K S W E : Type} [Field K]

def IssueCircuit.witness (c : IssueCircuit P) (secret hidingNonce : Bytes32) : List Bool :=
  let witness := appendBytesBits [] secret.toList
  let witness := appendBytesBits witness hidingNonce.toList
  appendKeccakCheckpoints witness (credentialMessage c.credentialScope secret hidingNonce)

def IssueCircuit.build (c : IssueCircuit P) (B : Backend K S W E) : Build S Unit := do
  if c.target.length ≠ P.M then
    throw .invalidParameters
  let secret ← allocBits B (secretBytes * 8)
  let hidingNonce ← allocBits B (hidingNonceBytes * 8)
  let message := credentialWires B c.credentialScope secret.toList hidingNonce.toList
  let target := targetConstantBits B c.target
  shakeAssertOutput B message target

/-! ### Presentation -/

structure PresentationCircuit (P : ArcParams) where
  mayoSystem : MayoFormSystem
  credentialScope : Bytes32
  presentationScope : Bytes32
  presentationLimit : U32
  tag : Bytes32

structure PresentationSecrets where
  signature : List GF16
  secret : Bytes32
  hidingNonce : Bytes32
  salt : Bytes32
  presentationNonce : U32

def PresentationCircuit.witness (c : PresentationCircuit P) (secrets : PresentationSecrets) :
    List Bool :=
  let witness := appendGf16Bits [] secrets.signature
  let witness := appendBytesBits witness secrets.secret.toList
  let witness := appendBytesBits witness secrets.hidingNonce.toList
  let witness := appendBytesBits witness secrets.salt.toList
  let witness := appendU32Bits witness secrets.presentationNonce
  let witness := appendLessThanCarries witness secrets.presentationNonce c.presentationLimit
  let commitment := credentialTarget P c.credentialScope secrets.secret secrets.hidingNonce
  let witness := appendKeccakCheckpoints witness
    (credentialMessage c.credentialScope secrets.secret secrets.hidingNonce)
  let witness := appendKeccakCheckpoints witness (signedCredentialMessage commitment secrets.salt)
  appendKeccakCheckpoints witness
    (tagMessage secrets.secret c.presentationScope secrets.presentationNonce)

def PresentationCircuit.build (c : PresentationCircuit P) (F : BinaryFields K)
    (B : Backend K S W E) : Build S Unit := do
  if c.presentationLimit = 0 ∨
      signedCredentialDomain.length + (P.M + 1) / 2 + saltBytes ≥ Keccak.rateBytes then
    throw .invalidParameters
  let signatureBits ← allocBits B (4 * P.KN)
  let signature := liftNibbles B F signatureBits.toList
  let secret ← allocBits B (secretBytes * 8)
  let hidingNonce ← allocBits B (hidingNonceBytes * 8)
  let salt ← allocBits B (saltBytes * 8)
  let presentationNonce ← allocBits B presentationNonceBits
  let carries ← allocBits B presentationNonceBits
  assertU32LessThan B presentationNonce carries c.presentationLimit
  let credentialMessage :=
    credentialWires B c.credentialScope secret.toList hidingNonce.toList
  let commitmentBits ← shakeHiddenOutput B credentialMessage (4 * P.M)
  let signedMessage := signedCredentialWires B commitmentBits salt.toList
  let signedTargetBits ← shakeHiddenOutput B signedMessage (4 * P.M)
  let signedTarget := liftNibbles B F signedTargetBits
  modify (B.assertQuadFormSystem signature c.mayoSystem.forms signedTarget)
  let tagMessage := tagWires B secret.toList c.presentationScope presentationNonce.toList
  let expectedTag := constantBytes B c.tag.toList
  shakeAssertOutput B tagMessage expectedTag

end VoleArc
