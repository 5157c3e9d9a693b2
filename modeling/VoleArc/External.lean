import VoleArc.Circuit.Issuance

/-!
# VoleArc.External — the crates the protocol is built on

SHAKE256 with 32 output bytes, the random generator, MAYO and the proof backend enter as
parameters.  What a result relies on of them is a hypothesis of that result, taken from the
predicates in the second half of this file.
-/

namespace VoleArc

/-- The circuits handed to the proof backend. -/
inductive AnyCircuit (P : ArcParams) where
  | issue (circuit : IssueCircuit P)
  | presentation (circuit : PresentationCircuit P)

/-- `Circuit::build`. -/
def AnyCircuit.build {P : ArcParams} {K S W E : Type} [Field K] (F : BinaryFields K)
    (B : Backend K S W E) : AnyCircuit P → Build S Unit
  | .issue circuit => circuit.build B
  | .presentation circuit => circuit.build F B

/-- How many witness bits `build` allocates. -/
def AnyCircuit.witnessBits {P : ArcParams} : AnyCircuit P → ℕ
  | .issue _ => issueBits
  | .presentation _ => presentationBits P

/-- The `mayo` crate: keys and their codecs, the map, preimage sampling, and the whipped system
with the forms it visits. -/
structure Mayo (Rng : Type) where
  PublicKey : Type
  SecretKey : Type
  publicKeyToBytes : PublicKey → Bytes
  publicKeyFromBytes : Bytes → Option PublicKey
  secretKeyToBytes : SecretKey → Bytes
  secretKeyFromBytes : Bytes → Option SecretKey
  publicKey : SecretKey → PublicKey
  trapgen : Rng → (SecretKey × PublicKey) × Rng
  eval : PublicKey → List GF16 → Option (List GF16)
  spre : SecretKey → List GF16 → Rng → Option (List GF16) × Rng
  whippedSystemAndForms : PublicKey → MayoFormSystem × List (List GF16)

/-- `voleith::ProofDecodeError`. -/
inductive ProofDecodeError where
  | tooLarge
  | invalidEncoding
  | unsupportedVersion
  deriving DecidableEq, Repr

/-- The `voleith` crate: the three parameter sets, proofs and their codec, prover and verifier. -/
structure Voleith (P : ArcParams) (Rng : Type) where
  Params : Type
  tau : Params → U64
  k : Params → U64
  PARAMS_128 : Params
  PARAMS_128_BALANCED : Params
  PARAMS_128_FAST : Params
  Proof : Type
  proofToBytes : Proof → Bytes
  proofFromBytes : Bytes → Except ProofDecodeError Proof
  prove : Params → Bytes → AnyCircuit P → List Bool → Rng → Except VoleithError Proof × Rng
  verify : Params → Bytes → AnyCircuit P → Proof → Except VoleithError Unit

/-- Everything outside the repository. -/
structure Crates (P : ArcParams) (K : Type) [Field K] where
  Rng : Type
  /-- `rng.fill_bytes` on a 32-byte array. -/
  fillBytes : Rng → Bytes32 × Rng
  fields : BinaryFields K
  /-- SHAKE256 of the whole input, 32 bytes of output. -/
  shake : Bytes → Bytes32
  mayo : Mayo Rng
  voleith : Voleith P Rng

/-! ### What the protocol relies on -/

variable {P : ArcParams} {K : Type} [Field K]

/-- Decoding a MAYO key accepts exactly its encoding. -/
structure Mayo.CanonicalKeys {Rng : Type} (M : Mayo Rng) : Prop where
  publicKey : ∀ b key, M.publicKeyFromBytes b = some key ↔ M.publicKeyToBytes key = b
  secretKey : ∀ b key, M.secretKeyFromBytes b = some key ↔ M.secretKeyToBytes key = b

/-- Decoding a proof accepts exactly its encoding. -/
def Voleith.CanonicalProofs {Rng : Type} (V : Voleith P Rng) : Prop :=
  ∀ b proof, V.proofFromBytes b = .ok proof ↔ V.proofToBytes proof = b

/-- The key `trapgen` returns is the one its secret key determines. -/
def Mayo.TrapgenCorrect {Rng : Type} (M : Mayo Rng) : Prop :=
  ∀ rng, M.publicKey (M.trapgen rng).1.1 = (M.trapgen rng).1.2

/-- Preimages have `KN` field elements. -/
def Mayo.SpreLength {Rng : Type} (M : Mayo Rng) (P : ArcParams) : Prop :=
  ∀ key target rng signature, (M.spre key target rng).1 = some signature →
    signature.length = P.KN

/-- A sampled preimage evaluates to its target. -/
def Mayo.SpreCorrect {Rng : Type} (M : Mayo Rng) : Prop :=
  ∀ key target rng signature, (M.spre key target rng).1 = some signature →
    M.eval (M.publicKey key) signature = some target

/-- Every target of `M` field elements has a preimage the signer finds. -/
def Mayo.SpreSucceeds {Rng : Type} (M : Mayo Rng) (P : ArcParams) : Prop :=
  ∀ key target rng, target.length = P.M → ∃ signature, (M.spre key target rng).1 = some signature

/-- On `KN` field elements `eval` is the map of the whipped system. -/
def Crates.EvalWhipped (C : Crates P K) : Prop :=
  ∀ key x, x.length = P.KN →
    C.mayo.eval key x = some ((C.mayo.whippedSystemAndForms key).1.eval C.fields x)

open Constraint in
/-- This assignment of the witness bits satisfies every assertion of the circuit. -/
def AnyCircuit.SatisfiedBy (F : BinaryFields K) (circuit : AnyCircuit P) (bits : List Bool) :
    Prop :=
  bits.length = circuit.witnessBits ∧
    ∃ s, circuit.build F (evalBackend F) ⟨bits, []⟩ = .ok ((), s) ∧ s.input = [] ∧ s.Satisfied

/-- Some assignment satisfies every assertion of the circuit. -/
def AnyCircuit.Satisfiable (F : BinaryFields K) (circuit : AnyCircuit P) : Prop :=
  ∃ bits, circuit.SatisfiedBy F bits

/-- The verifier accepts a presentation only for a satisfiable circuit. -/
def Crates.VerifySound (C : Crates P K) : Prop :=
  ∀ params statement circuit proof,
    C.voleith.verify params statement (.presentation circuit) proof = .ok () →
      (AnyCircuit.presentation circuit : AnyCircuit P).Satisfiable C.fields

/-- `extract` finds a satisfying assignment behind every accepted presentation. -/
def Crates.Extracts (C : Crates P K)
    (extract : PresentationCircuit P → C.voleith.Proof → List Bool) : Prop :=
  ∀ params statement circuit proof,
    C.voleith.verify params statement (.presentation circuit) proof = .ok () →
      (AnyCircuit.presentation circuit).SatisfiedBy C.fields (extract circuit proof)

/-- `extract` finds a satisfying assignment behind every accepted request. -/
def Crates.ExtractsIssue (C : Crates P K)
    (extract : IssueCircuit P → C.voleith.Proof → List Bool) : Prop :=
  ∀ params statement circuit proof,
    C.voleith.verify params statement (.issue circuit) proof = .ok () →
      (AnyCircuit.issue circuit).SatisfiedBy C.fields (extract circuit proof)

/-- A sound verifier has such an `extract`. -/
theorem Crates.VerifySound.exists_extracts {C : Crates P K} (h : C.VerifySound) :
    ∃ extract, C.Extracts extract := by
  have hbits : ∀ circuit : PresentationCircuit P, ∃ bits,
      (AnyCircuit.presentation circuit).Satisfiable C.fields →
        (AnyCircuit.presentation circuit).SatisfiedBy C.fields bits := by
    intro circuit
    by_cases hsat : (AnyCircuit.presentation circuit).Satisfiable C.fields
    · exact hsat.imp fun _ hbits _ => hbits
    · exact ⟨[], fun h => absurd h hsat⟩
  choose bits hbits using hbits
  exact ⟨fun circuit _ => bits circuit, fun params statement circuit proof hverify =>
    hbits circuit (h params statement circuit proof hverify)⟩

/-- The prover succeeds on a satisfied circuit. -/
def Crates.ProveComplete (C : Crates P K) : Prop :=
  ∀ params statement circuit bits rng, AnyCircuit.SatisfiedBy C.fields circuit bits →
    ∃ proof, (C.voleith.prove params statement circuit bits rng).1 = .ok proof

/-- The verifier accepts what the prover made for the same parameters, statement and circuit. -/
def Crates.VerifyComplete (C : Crates P K) : Prop :=
  ∀ params statement circuit bits rng proof,
    (C.voleith.prove params statement circuit bits rng).1 = .ok proof →
      C.voleith.verify params statement circuit proof = .ok ()

end VoleArc
