import VoleArc.Lib.Growable
import VoleArc.Reference

/-!
# VoleArc.Machine.Buffers — the builders of secrets as writes to growable buffers

Eight builders that reserve a buffer and append secrets to it, write by write.  Each fills its
buffer with what its model computes.  All reserve enough, except `Credential::to_bytes`, which
reserves 13 bytes less than it writes (`secretBuilder_neverOutgrown_iff`).
-/

namespace VoleArc.Buffers

open BitString Growable Keccak

variable {P : ArcParams} {K : Type} [Field K] {C : Crates P K}

/-! ### Appending -/

/-- `wire::header`. -/
def header (artifact parameterSet : U8) (out : Buffer U8) : Buffer U8 :=
  let out := out.extend Wire.MAGIC
  let out := out.push Wire.WIRE_VERSION
  out.extend [artifact, parameterSet, 0, 0]

def appendBytesBits (bytes : Bytes) (output : Buffer Bool) : Buffer Bool :=
  output.extendEach (bytesBits bytes)

def appendGf16Bits (values : List GF16) (output : Buffer Bool) : Buffer Bool :=
  output.extendEach (gf16Bits values)

def appendU32Bits (value : U32) (output : Buffer Bool) : Buffer Bool :=
  output.extend ((List.range presentationNonceBits).map value.getLsbD)

def appendLessThanCarries (value limit : U32) (output : Buffer Bool) : Buffer Bool :=
  ((List.range presentationNonceBits).foldl (fun (output, carry) bit =>
    let a := value.getLsbD bit
    let b := (~~~limit).getLsbD bit
    let carry := (a && b) || (a && carry) || (b && carry)
    (output.push carry, carry)) (output, true)).1

def appendKeccakCheckpoints (message : Bytes) (witness : Buffer Bool) : Buffer Bool :=
  let block := padSingleBlock message
  let state := absorbBlock (Vector.replicate 25 0) block
  (RC.toList.zipIdx.foldl (fun (witness, state) (roundConstant, roundIndex) =>
    let state := Keccak.round state roundConstant
    (if (roundIndex + 1) % 4 = 0 then witness.extend (stateBits state).toList else witness, state))
    (witness, state)).1

/-! ### Builders -/

def credentialMessage (scope secret hidingNonce : Bytes32) : Buffer U8 :=
  let message := Buffer.withCapacity
    (credentialDomain.length + 32 + secretBytes + hidingNonceBytes)
  let message := message.extend credentialDomain
  let message := message.extend scope.toList
  let message := message.extend secret.toList
  message.extend hidingNonce.toList

def signedCredentialMessage (commitment : List GF16) (salt : Bytes32) : Buffer U8 :=
  let packed := packGf16 commitment
  let message := Buffer.withCapacity (signedCredentialDomain.length + packed.length + saltBytes)
  let message := message.extend signedCredentialDomain
  let message := message.extend packed
  message.extend salt.toList

def tagMessage (secret scope : Bytes32) (nonce : U32) : Buffer U8 :=
  let message := Buffer.withCapacity (tagDomain.length + secretBytes + 32 + 4)
  let message := message.extend tagDomain
  let message := message.extend secret.toList
  let message := message.extend scope.toList
  message.extend (u32ToLeBytes nonce)

def IssueCircuit.witness (self : IssueCircuit P) (secret hidingNonce : Bytes32) : Buffer Bool :=
  let witness := Buffer.withCapacity
    ((secretBytes + hidingNonceBytes) * 8 + keccakCheckpointBits)
  let witness := appendBytesBits secret.toList witness
  let witness := appendBytesBits hidingNonce.toList witness
  appendKeccakCheckpoints (credentialMessage self.credentialScope secret hidingNonce).contents
    witness

def PresentationCircuit.witness (self : PresentationCircuit P) (secrets : PresentationSecrets) :
    Buffer Bool :=
  let witness := Buffer.withCapacity
    (4 * P.KN + (secretBytes + hidingNonceBytes + saltBytes) * 8 + 2 * presentationNonceBits +
      3 * keccakCheckpointBits)
  let witness := appendGf16Bits secrets.signature witness
  let witness := appendBytesBits secrets.secret.toList witness
  let witness := appendBytesBits secrets.hidingNonce.toList witness
  let witness := appendBytesBits secrets.salt.toList witness
  let witness := appendU32Bits secrets.presentationNonce witness
  let witness := appendLessThanCarries secrets.presentationNonce self.presentationLimit witness
  let commitment := credentialTarget P self.credentialScope secrets.secret secrets.hidingNonce
  let witness := appendKeccakCheckpoints
    (credentialMessage self.credentialScope secrets.secret secrets.hidingNonce).contents witness
  let witness := appendKeccakCheckpoints
    (signedCredentialMessage commitment secrets.salt).contents witness
  appendKeccakCheckpoints
    (tagMessage secrets.secret self.presentationScope secrets.presentationNonce).contents witness

def IssueResponse.toBytes (self : IssueResponse C) : Buffer U8 :=
  let output := Buffer.withCapacity (16 + (self.signature.length + 1) / 2 + saltBytes)
  let output := header WIRE_ISSUE_RESPONSE P.WIRE_ID output
  let packedSignature := Wire.packNibbles self.signature
  let output := output.extend packedSignature
  output.extend self.salt.toList

def PendingIssue.toBytes (self : PendingIssue C) : Buffer U8 :=
  let output := Buffer.withCapacity 144
  let output := header WIRE_PENDING_ISSUE P.WIRE_ID output
  let output := output.extend self.issuerContext.toList
  let output := output.extend self.credentialContext.digest.toList
  let output := output.extend self.secret.toList
  output.extend self.hidingNonce.toList

/-- `u32::try_from(self.next_nonces.len()).unwrap_or(u32::MAX)`. -/
def contextCount (nextNonces : CounterMap) : U32 :=
  if nextNonces.size < 2 ^ 32 then BitVec.ofNat 32 nextNonces.size else BitVec.allOnes 32

/-- The loop body of `Credential::to_bytes`. -/
def putCounter (output : Buffer U8) (entry : Bytes32 × U32) : Buffer U8 :=
  let output := output.extend entry.1.toList
  output.extend (u32ToLeBytes entry.2)

def Credential.toBytes (self : Credential C) : Buffer U8 :=
  let output := Buffer.withCapacity
    (160 + (self.signature.length + 1) / 2 + 36 * self.nextNonces.size)
  let output := header WIRE_CREDENTIAL P.WIRE_ID output
  let output := output.extend self.issuerContext.toList
  let output := output.extend self.credentialContext.digest.toList
  let packedSignature := Wire.packNibbles self.signature
  let output := output.extend packedSignature
  let output := output.extend self.secret.toList
  let output := output.extend self.hidingNonce.toList
  let output := output.extend self.salt.toList
  let output := output.extend (u32ToLeBytes (contextCount self.nextNonces))
  self.nextNonces.toList.foldl putCounter output

/-! ### What each append writes -/

theorem appends_header (artifact parameterSet : U8) :
    Appends (header artifact parameterSet) (Wire.header [] artifact parameterSet) :=
  ((Appends.extend Wire.MAGIC).comp (Appends.push Wire.WIRE_VERSION)).comp
    (Appends.extend [artifact, parameterSet, 0, 0])

theorem appends_bytesBits (bytes : Bytes) : Appends (appendBytesBits bytes) (bytesBits bytes) :=
  Appends.extendEach _

theorem appends_gf16Bits (values : List GF16) : Appends (appendGf16Bits values) (gf16Bits values) :=
  Appends.extendEach _

theorem appends_u32Bits (value : U32) : Appends (appendU32Bits value) (lsbBits value) :=
  Appends.extend _

theorem appends_lessThanCarries (value limit : U32) :
    Appends (appendLessThanCarries value limit) (lsbBits (lessThanCarries value limit)) := by
  let carryOut : Bool → ℕ → Bool := fun carry bit =>
    (value.getLsbD bit && (~~~limit).getLsbD bit) || (value.getLsbD bit && carry) ||
      ((~~~limit).getLsbD bit && carry)
  have hlist : lsbBits (lessThanCarries value limit) =
      emitted (fun carry bit => [carryOut carry bit]) carryOut
        (List.range presentationNonceBits) true := by
    rw [← List.nil_append (lsbBits _), ← appendLessThanCarries_eq]
    exact (foldl_append_emitted (fun _ _ _ => rfl) _ _ _).trans (List.nil_append _)
  rw [hlist]
  exact Appends.loop (fun _ _ _ => rfl) (fun carry bit => Appends.push (carryOut carry bit)) _ _

theorem appends_keccakCheckpoints (message : Bytes) :
    Appends (appendKeccakCheckpoints message) (statesBits (checkpoints message)) := by
  let next : State → U64 × ℕ → State := fun state entry => Keccak.round state entry.1
  let out : State → U64 × ℕ → List Bool := fun state entry =>
    if (entry.2 + 1) % 4 = 0 then (stateBits (next state entry)).toList else []
  let app : State → U64 × ℕ → Buffer Bool → Buffer Bool := fun state entry witness =>
    if (entry.2 + 1) % 4 = 0 then witness.extend (stateBits (next state entry)).toList else witness
  have happ : ∀ state entry, Appends (app state entry) (out state entry) := by
    intro state entry
    by_cases h : (entry.2 + 1) % 4 = 0
    · simp only [app, out, if_pos h]
      exact Appends.extend _
    · simp only [app, out, if_neg h]
      exact Appends.nil
  have hlist : statesBits (checkpoints message) =
      emitted out next RC.toList.zipIdx (absorbed message) := by
    rw [← List.nil_append (statesBits _), ← appendKeccakCheckpoints_eq]
    refine (foldl_append_emitted (fun witness state entry => ?_) _ _ _).trans (List.nil_append _)
    by_cases h : (entry.2 + 1) % 4 = 0
    · simp only [out, next, if_pos h]
    · simp only [out, next, if_neg h, List.append_nil]
  rw [hlist]
  exact Appends.loop (fun _ _ _ => rfl) happ _ _

/-! ### What each builder writes -/

theorem builds_credentialMessage (scope secret hidingNonce : Bytes32) :
    Builds (credentialMessage scope secret hidingNonce)
      (credentialDomain.length + 32 + secretBytes + hidingNonceBytes)
      (VoleArc.credentialMessage scope secret hidingNonce) :=
  ((((Builds.withCapacity _).append (Appends.extend _)).append (Appends.extend _)).append
    (Appends.extend _)).append (Appends.extend _)

theorem builds_signedCredentialMessage (commitment : List GF16) (salt : Bytes32) :
    Builds (signedCredentialMessage commitment salt)
      (signedCredentialDomain.length + (packGf16 commitment).length + saltBytes)
      (VoleArc.signedCredentialMessage commitment salt) :=
  (((Builds.withCapacity _).append (Appends.extend _)).append (Appends.extend _)).append
    (Appends.extend _)

theorem builds_tagMessage (secret scope : Bytes32) (nonce : U32) :
    Builds (tagMessage secret scope nonce) (tagDomain.length + secretBytes + 32 + 4)
      (VoleArc.tagMessage secret scope nonce) :=
  ((((Builds.withCapacity _).append (Appends.extend _)).append (Appends.extend _)).append
    (Appends.extend _)).append (Appends.extend _)

theorem builds_issueWitness (circuit : IssueCircuit P) (secret hidingNonce : Bytes32) :
    Builds (IssueCircuit.witness circuit secret hidingNonce)
      ((secretBytes + hidingNonceBytes) * 8 + keccakCheckpointBits)
      (circuit.witness secret hidingNonce) := by
  have hbuilds := (((Builds.withCapacity ((secretBytes + hidingNonceBytes) * 8 +
    keccakCheckpointBits)).append (appends_bytesBits secret.toList)).append
      (appends_bytesBits hidingNonce.toList)).append (appends_keccakCheckpoints
        (credentialMessage circuit.credentialScope secret hidingNonce).contents)
  have hmessage :=
    (builds_credentialMessage circuit.credentialScope secret hidingNonce).contents_eq.1
  rw [circuit.witness_eq, issueAssignment, ← hmessage]
  rw [List.nil_append, List.append_assoc] at hbuilds
  exact hbuilds

theorem builds_presentationWitness (circuit : PresentationCircuit P)
    (secrets : PresentationSecrets) :
    Builds (PresentationCircuit.witness circuit secrets) (presentationBits P)
      (circuit.witness secrets) := by
  have hcredential := (builds_credentialMessage circuit.credentialScope secrets.secret
    secrets.hidingNonce).contents_eq.1
  have hsigned := (builds_signedCredentialMessage (credentialTarget P circuit.credentialScope
    secrets.secret secrets.hidingNonce) secrets.salt).contents_eq.1
  have htag := (builds_tagMessage secrets.secret circuit.presentationScope
    secrets.presentationNonce).contents_eq.1
  have hbits := ((((Builds.withCapacity (presentationBits P)).append
    (appends_gf16Bits secrets.signature)).append (appends_bytesBits secrets.secret.toList)).append
      (appends_bytesBits secrets.hidingNonce.toList)).append (appends_bytesBits secrets.salt.toList)
  have hrange := (hbits.append (appends_u32Bits secrets.presentationNonce)).append
    (appends_lessThanCarries secrets.presentationNonce circuit.presentationLimit)
  have hfirst := hrange.append (appends_keccakCheckpoints (credentialMessage
    circuit.credentialScope secrets.secret secrets.hidingNonce).contents)
  have hsecond := hfirst.append (appends_keccakCheckpoints (signedCredentialMessage
    (credentialTarget P circuit.credentialScope secrets.secret secrets.hidingNonce)
      secrets.salt).contents)
  have hthird := hsecond.append (appends_keccakCheckpoints (tagMessage secrets.secret
    circuit.presentationScope secrets.presentationNonce).contents)
  rw [circuit.witness_eq, presentationAssignment, ← hcredential, ← hsigned, ← htag]
  simp only [List.nil_append, List.append_assoc] at hthird
  exact hthird

theorem builds_issueResponse (response : IssueResponse C) :
    Builds (IssueResponse.toBytes response) (16 + (response.signature.length + 1) / 2 + saltBytes)
      response.toBytes :=
  (((Builds.withCapacity _).append (appends_header _ _)).append (Appends.extend _)).append
    (Appends.extend _)

theorem builds_pendingIssue (pending : PendingIssue C) :
    Builds (PendingIssue.toBytes pending) 144 pending.toBytes :=
  (((((Builds.withCapacity _).append (appends_header _ _)).append (Appends.extend _)).append
    (Appends.extend _)).append (Appends.extend _)).append (Appends.extend _)

/-- The writes of a credential up to the hiding nonce. -/
def credentialSecrets (credential : Credential C) (output : Buffer U8) : Buffer U8 :=
  let output := header WIRE_CREDENTIAL P.WIRE_ID output
  let output := output.extend credential.issuerContext.toList
  let output := output.extend credential.credentialContext.digest.toList
  let output := output.extend (Wire.packNibbles credential.signature)
  let output := output.extend credential.secret.toList
  output.extend credential.hidingNonce.toList

/-- The writes after it. -/
def credentialRest (credential : Credential C) (output : Buffer U8) : Buffer U8 :=
  let output := output.extend credential.salt.toList
  let output := output.extend (u32ToLeBytes (contextCount credential.nextNonces))
  credential.nextNonces.toList.foldl putCounter output

/-- The bytes up to the hiding nonce. -/
def secretBytesOf (credential : Credential C) : Bytes :=
  Wire.header [] WIRE_CREDENTIAL P.WIRE_ID ++ credential.issuerContext.toList ++
    credential.credentialContext.digest.toList ++ Wire.packNibbles credential.signature ++
    credential.secret.toList ++ credential.hidingNonce.toList

/-- The bytes after it. -/
def restBytesOf (credential : Credential C) : Bytes :=
  credential.salt.toList ++ u32ToLeBytes (contextCount credential.nextNonces) ++
    credential.nextNonces.toList.flatMap counterBytes

theorem appends_credentialSecrets (credential : Credential C) :
    Appends (credentialSecrets credential) (secretBytesOf credential) :=
  (((((appends_header _ _).comp (Appends.extend _)).comp (Appends.extend _)).comp
    (Appends.extend _)).comp (Appends.extend _)).comp (Appends.extend _)

theorem appends_putCounter (entry : Bytes32 × U32) :
    Appends (fun output => putCounter output entry) (counterBytes entry) :=
  (Appends.extend entry.1.toList).comp (Appends.extend (u32ToLeBytes entry.2))

theorem appends_credentialRest (credential : Credential C) :
    Appends (credentialRest credential) (restBytesOf credential) :=
  ((Appends.extend _).comp (Appends.extend _)).comp (Appends.foldl appends_putCounter _)

theorem credential_toBytes_eq (credential : Credential C) :
    credential.toBytes = secretBytesOf credential ++ restBytesOf credential := by
  simp only [VoleArc.Credential.toBytes, foldl_append_eq_flatMap, secretBytesOf, restBytesOf,
    contextCount, List.append_assoc]

theorem builds_credential (credential : Credential C) :
    Builds (Credential.toBytes credential)
      (160 + (credential.signature.length + 1) / 2 + 36 * credential.nextNonces.size)
      credential.toBytes := by
  rw [credential_toBytes_eq]
  exact ((Builds.withCapacity _).append (appends_credentialSecrets credential)).append
    (appends_credentialRest credential)

theorem length_secretBytesOf (credential : Credential C) :
    (secretBytesOf credential).length = 137 + (credential.signature.length + 1) / 2 := by
  simp only [secretBytesOf, List.length_append, length_header, Vector.length_toList,
    Wire.packNibbles_eq, length_packGf16]
  omega

theorem length_restBytesOf (credential : Credential C) :
    (restBytesOf credential).length = 36 + 36 * credential.nextNonces.size := by
  have hcounters : (credential.nextNonces.toList.flatMap counterBytes).length =
      36 * credential.nextNonces.size := by
    rw [List.length_flatMap, List.map_congr_left fun entry _ => length_counterBytes entry,
      List.map_const', List.sum_replicate, Std.ExtTreeMap.length_toList, smul_eq_mul, Nat.mul_comm]
  rw [restBytesOf, List.length_append, List.length_append, hcounters, Vector.length_toList,
    length_u32ToLeBytes]

theorem length_credentialBytes (credential : Credential C) :
    credential.toBytes.length =
      173 + (credential.signature.length + 1) / 2 + 36 * credential.nextNonces.size := by
  rw [credential_toBytes_eq, List.length_append, length_secretBytesOf, length_restBytesOf]
  omega

/-! ### Which buffers are outgrown -/

/-- The calls of builders that reserve a buffer and append secrets to it. -/
inductive SecretBuilder (C : Crates P K) where
  | credentialMessage (scope secret hidingNonce : Bytes32)
  | signedCredentialMessage (commitment : List GF16) (salt : Bytes32)
  | tagMessage (secret scope : Bytes32) (nonce : U32)
  | issueWitness (circuit : IssueCircuit P) (secret hidingNonce : Bytes32)
  | presentationWitness (circuit : PresentationCircuit P) (secrets : PresentationSecrets)
  | issueResponse (response : IssueResponse C)
  | pendingIssue (pending : PendingIssue C)
  | credential (credential : Credential C)

/-- The call never outgrows its buffer. -/
def SecretBuilder.NeverOutgrown : SecretBuilder C → Prop
  | .credentialMessage scope secret hidingNonce =>
    (Buffers.credentialMessage scope secret hidingNonce).NeverOutgrown
  | .signedCredentialMessage commitment salt =>
    (Buffers.signedCredentialMessage commitment salt).NeverOutgrown
  | .tagMessage secret scope nonce => (Buffers.tagMessage secret scope nonce).NeverOutgrown
  | .issueWitness circuit secret hidingNonce =>
    (IssueCircuit.witness circuit secret hidingNonce).NeverOutgrown
  | .presentationWitness circuit secrets =>
    (PresentationCircuit.witness circuit secrets).NeverOutgrown
  | .issueResponse response => (IssueResponse.toBytes response).NeverOutgrown
  | .pendingIssue pending => (PendingIssue.toBytes pending).NeverOutgrown
  | .credential stored => (Credential.toBytes stored).NeverOutgrown

/-- A call that reserves enough: any but the encoding of a credential, where a presentation's
signature has at most the `KN` nibbles of every signature that is decoded or sampled. -/
def SecretBuilder.ReservesEnough : SecretBuilder C → Prop
  | .presentationWitness _ secrets => secrets.signature.length ≤ P.KN
  | .credential _ => False
  | _ => True

theorem presentationWitness_neverOutgrown_iff (circuit : PresentationCircuit P)
    (secrets : PresentationSecrets) :
    (PresentationCircuit.witness circuit secrets).NeverOutgrown ↔
      secrets.signature.length ≤ P.KN := by
  refine (builds_presentationWitness circuit secrets).neverOutgrown_iff.trans ?_
  rw [length_presentationWitness, presentationBits_eq]
  omega

/-- Each of the eight builders keeps its first allocation, whatever the values, except the encoding
of a credential, which never does. -/
theorem secretBuilder_neverOutgrown_iff (builder : SecretBuilder C) :
    builder.NeverOutgrown ↔ builder.ReservesEnough := by
  cases builder with
  | credentialMessage scope secret hidingNonce =>
    refine iff_of_true ((builds_credentialMessage _ _ _).neverOutgrown_iff.mpr ?_) trivial
    simp only [VoleArc.credentialMessage, List.length_append, Vector.length_toList]
    exact le_rfl
  | signedCredentialMessage commitment salt =>
    refine iff_of_true ((builds_signedCredentialMessage _ _).neverOutgrown_iff.mpr ?_) trivial
    simp only [VoleArc.signedCredentialMessage, List.length_append, Vector.length_toList]
    exact le_rfl
  | tagMessage secret scope nonce =>
    refine iff_of_true ((builds_tagMessage _ _ _).neverOutgrown_iff.mpr ?_) trivial
    simp only [VoleArc.tagMessage, List.length_append, Vector.length_toList, length_u32ToLeBytes]
    exact le_rfl
  | issueWitness circuit secret hidingNonce =>
    refine iff_of_true ((builds_issueWitness _ _ _).neverOutgrown_iff.mpr ?_) trivial
    exact (length_issueWitness _ _ _).le
  | presentationWitness circuit secrets =>
    exact presentationWitness_neverOutgrown_iff circuit secrets
  | issueResponse response =>
    refine iff_of_true ((builds_issueResponse response).neverOutgrown_iff.mpr ?_) trivial
    simp only [VoleArc.IssueResponse.toBytes, List.length_append, length_header,
      Vector.length_toList, Wire.packNibbles_eq, length_packGf16, saltBytes]
    omega
  | pendingIssue pending =>
    refine iff_of_true ((builds_pendingIssue pending).neverOutgrown_iff.mpr ?_) trivial
    simp only [VoleArc.PendingIssue.toBytes, List.length_append, length_header,
      Vector.length_toList]
    omega
  | credential credential =>
    refine (builds_credential credential).neverOutgrown_iff.trans (iff_of_false ?_ id)
    rw [length_credentialBytes]
    omega

/-- An unused credential of the second suite: 322 bytes reserved, 335 written. -/
theorem credential_toBytes_outgrown_reference :
    (Credential.toBytes Reference.credential).reserved = 322 ∧
      (Credential.toBytes Reference.credential).contents.length = 335 ∧
      ¬ ∀ builder : SecretBuilder Reference.crates, builder.NeverOutgrown := by
  have hbuilds := builds_credential Reference.credential
  have hsig : Reference.credential.signature.length = 324 :=
    Reference.credential_valid.length_signature
  have hsize : Reference.credential.nextNonces.size = 0 := Std.ExtTreeMap.size_empty
  have hlength := length_credentialBytes Reference.credential
  rw [hsig, hsize] at hbuilds hlength
  refine ⟨hbuilds.contents_eq.2, by rw [hbuilds.contents_eq.1, hlength], fun hnever => ?_⟩
  have hle := hbuilds.neverOutgrown_iff.mp (hnever (.credential Reference.credential))
  omega

/-- Each encoding of a credential leaves behind a copy of its signature, secret and hiding nonce. -/
theorem credential_toBytes_leaves_copy (credential : Credential C) :
    ∃ copy ∈ (Credential.toBytes credential).abandoned, secretBytesOf credential <+: copy := by
  have hlt : 160 + (credential.signature.length + 1) / 2 + 36 * credential.nextNonces.size <
      credential.toBytes.length := by
    rw [length_credentialBytes]
    omega
  obtain ⟨copy, hcopy⟩ :=
    List.exists_mem_of_ne_nil _ ((builds_credential credential).of_lt hlt).2
  have hsecrets := (Builds.withCapacity (160 + (credential.signature.length + 1) / 2 +
    36 * credential.nextNonces.size)).append (appends_credentialSecrets credential)
  refine ⟨copy, hcopy,
    hsecrets.prefix_of_mem_abandoned (appends_credentialRest credential) ?_ hcopy⟩
  rw [List.nil_append, length_secretBytesOf]
  omega

end VoleArc.Buffers
