import VoleArc.Protocol.Keys
import VoleArc.Lib.SortedMap

/-!
# VoleArc.Protocol.Artifacts — requests, responses, pending state, credentials, presentations

The values the protocol exchanges and stores, with their encoders and decoders, and what each
decoder accepts.
-/

namespace VoleArc

open Reader SortedMap Wire

/-- `MAX_PRESENTATION_CONTEXTS`. -/
def maxPresentationContexts : ℕ := 4096

def WIRE_ISSUE_REQUEST : U8 := 3
def WIRE_ISSUE_RESPONSE : U8 := 4
def WIRE_PENDING_ISSUE : U8 := 5
def WIRE_CREDENTIAL : U8 := 6
def WIRE_PRESENTATION : U8 := 7

variable {P : ArcParams} {K : Type} [Field K] {C : Crates P K}

/-- `decode_proof`. -/
def decodeProof (bytes : Bytes) : Except WireError C.voleith.Proof :=
  (C.voleith.proofFromBytes bytes).mapError fun
    | .tooLarge => .tooLarge
    | .invalidEncoding => .invalidEncoding
    | .unsupportedVersion => .unsupportedVersion

theorem decodeProof_eq_ok (hproofs : C.voleith.CanonicalProofs) {b : Bytes}
    {proof : C.voleith.Proof} :
    decodeProof b = .ok proof ↔ C.voleith.proofToBytes proof = b := by
  rw [← hproofs b proof, decodeProof]
  cases C.voleith.proofFromBytes b <;> simp [Except.mapError]

/-! ### Issue requests -/

/-- Blind credential-issuance request. -/
structure IssueRequest (C : Crates P K) where
  commitment : List GF16
  proof : C.voleith.Proof

def IssueRequest.toBytes (self : IssueRequest C) : Option Bytes :=
  let output := header [] WIRE_ISSUE_REQUEST P.WIRE_ID
  let output := output ++ packNibbles self.commitment
  putBytes output (C.voleith.proofToBytes self.proof)

def IssueRequest.fromBytes (bytes : Bytes) : Except WireError (IssueRequest C) :=
  decodeWith WIRE_ISSUE_REQUEST P.WIRE_ID (do
    let commitment ← nibbles P.M
    let encoded ← Wire.bytes
    let proof ← liftM (decodeProof (C := C) encoded)
    finish
    pure ⟨commitment, proof⟩) bytes

theorem IssueRequest.fromBytes_eq_ok (hproofs : C.voleith.CanonicalProofs) {b : Bytes}
    {request : IssueRequest C} :
    IssueRequest.fromBytes b = .ok request ↔
      b.length ≤ maxWireBytes ∧ request.toBytes = some b ∧ request.commitment.length = P.M := by
  have hreads := (codes_nibbles P.M).bind fun commitment => codes_bytes.bind fun encoded =>
    Reads.lift_bind (decodeProof (C := C) encoded) fun proof =>
      reads_finish_bind (f := fun _ => pure _) (Reads.pure (IssueRequest.mk commitment proof))
  refine (decodeWith_eq_ok hreads).trans (and_congr_right fun _ => ?_)
  simp only [decodeProof_eq_ok hproofs, IssueRequest.toBytes, putBytes_eq_some]
  constructor
  · rintro ⟨_, _, rfl, commitment, _, hlen, rfl, _, _, hproof, rfl, proof, rfl, ⟨rfl, rfl⟩, rfl, -⟩
    exact ⟨⟨hproof, by simp only [List.append_assoc, List.append_nil]⟩, hlen⟩
  · rintro ⟨⟨hproof, rfl⟩, hlen⟩
    refine ⟨_, [], ?_, request.commitment, _, hlen, rfl, _, [], hproof, rfl, request.proof, rfl,
      ⟨rfl, rfl⟩, rfl, rfl⟩
    simp only [List.append_assoc, List.append_nil]

/-! ### Issue responses -/

/-- Signer-salted issuer response completing credential issuance. -/
structure IssueResponse (C : Crates P K) where
  signature : List GF16
  salt : Bytes32

def IssueResponse.toBytes (self : IssueResponse C) : Bytes :=
  let output := header [] WIRE_ISSUE_RESPONSE P.WIRE_ID
  output ++ packNibbles self.signature ++ self.salt.toList

def IssueResponse.fromBytes (bytes : Bytes) : Except WireError (IssueResponse C) :=
  decodeWith WIRE_ISSUE_RESPONSE P.WIRE_ID (do
    let signature ← nibbles P.KN
    let salt ← array 32
    finish
    pure ⟨signature, salt⟩) bytes

theorem IssueResponse.fromBytes_eq_ok {b : Bytes} {response : IssueResponse C} :
    IssueResponse.fromBytes b = .ok response ↔
      b.length ≤ maxWireBytes ∧ response.toBytes = b ∧ response.signature.length = P.KN := by
  have hreads := (codes_nibbles P.KN).bind fun signature => (codes_array 32).bind fun salt =>
    reads_finish_bind (f := fun _ => pure _) (Reads.pure (IssueResponse.mk (C := C) signature salt))
  refine (decodeWith_eq_ok hreads).trans (and_congr_right fun _ => ?_)
  simp only [IssueResponse.toBytes]
  constructor
  · rintro ⟨_, _, rfl, signature, _, hlen, rfl, salt, _, -, rfl, ⟨rfl, rfl⟩, rfl, -⟩
    exact ⟨by simp only [List.append_assoc, List.append_nil], hlen⟩
  · rintro ⟨rfl, hlen⟩
    refine ⟨_, [], ?_, response.signature, _, hlen, rfl, response.salt, [], trivial, rfl,
      ⟨rfl, rfl⟩, rfl, rfl⟩
    simp only [List.append_assoc, List.append_nil]

/-! ### Pending issuance -/

/-- Client-side secret state retained while an issuance request is in flight; the commitment is
the one its opening determines. -/
structure PendingIssue (C : Crates P K) where
  issuerContext : Bytes32
  credentialContext : CredentialContext
  secret : Bytes32
  hidingNonce : Bytes32
  commitment : List GF16
  commitment_eq : commitment = credentialTarget P
    (credentialScope C issuerContext credentialContext.digest) secret hidingNonce

def PendingIssue.toBytes (self : PendingIssue C) : Bytes :=
  let output := header [] WIRE_PENDING_ISSUE P.WIRE_ID
  output ++ self.issuerContext.toList ++ self.credentialContext.digest.toList ++
    self.secret.toList ++ self.hidingNonce.toList

def PendingIssue.fromBytes (publicKey : PublicKey C) (bytes : Bytes) :
    Except WireError (PendingIssue C) :=
  decodeWith WIRE_PENDING_ISSUE P.WIRE_ID (do
    let issuerContext ← array 32
    let credentialContext ← array 32
    let secret ← array 32
    let hidingNonce ← array 32
    finish
    if issuerContext ≠ publicKey.context then throw .wrongIssuer
    else
      let scope := credentialScope C issuerContext credentialContext
      let commitment := credentialTarget P scope secret hidingNonce
      pure ⟨issuerContext, ⟨credentialContext⟩, secret, hidingNonce, commitment, rfl⟩) bytes

theorem PendingIssue.fromBytes_eq_ok {publicKey : PublicKey C} {b : Bytes}
    {pending : PendingIssue C} :
    PendingIssue.fromBytes publicKey b = .ok pending ↔
      b.length ≤ maxWireBytes ∧ pending.toBytes = b ∧
        pending.issuerContext = publicKey.context := by
  have hreads := (codes_array 32).bind fun issuerContext => (codes_array 32).bind
    fun credentialContext => (codes_array 32).bind fun secret => (codes_array 32).bind
      fun hidingNonce => reads_finish_bind (f := fun _ => ite _ _ _)
        ((Reads.pure (PendingIssue.mk (C := C) issuerContext ⟨credentialContext⟩ secret hidingNonce
          (credentialTarget P (credentialScope C issuerContext credentialContext) secret
            hidingNonce)
          rfl)).guard (p := issuerContext ≠ publicKey.context) (e := WireError.wrongIssuer))
  refine (decodeWith_eq_ok hreads).trans (and_congr_right fun _ => ?_)
  simp only [PendingIssue.toBytes, not_not]
  constructor
  · rintro ⟨_, _, rfl, issuerContext, _, -, rfl, credentialContext, _, -, rfl, secret, _, -, rfl,
      hidingNonce, _, -, rfl, ⟨rfl, rfl⟩, hissuer, rfl, -⟩
    exact ⟨by simp only [List.append_assoc, List.append_nil], hissuer⟩
  · rintro ⟨rfl, hissuer⟩
    obtain ⟨issuerContext, credentialContext, secret, hidingNonce, commitment, rfl⟩ := pending
    refine ⟨_, [], ?_, issuerContext, _, trivial, rfl, credentialContext.digest, _, trivial, rfl,
      secret, _, trivial, rfl, hidingNonce, [], trivial, rfl, ⟨rfl, rfl⟩, hissuer, rfl, rfl⟩
    simp only [List.append_assoc, List.append_nil]

/-! ### Presentations -/

/-- Non-interactive credential presentation. -/
structure Presentation (C : Crates P K) where
  tag : Bytes32
  proof : C.voleith.Proof

def Presentation.toBytes (self : Presentation C) : Option Bytes :=
  let output := header [] WIRE_PRESENTATION P.WIRE_ID
  let output := output ++ self.tag.toList
  putBytes output (C.voleith.proofToBytes self.proof)

def Presentation.fromBytes (bytes : Bytes) : Except WireError (Presentation C) :=
  decodeWith WIRE_PRESENTATION P.WIRE_ID (do
    let tag ← array 32
    let encoded ← Wire.bytes
    let proof ← liftM (decodeProof (C := C) encoded)
    finish
    pure ⟨tag, proof⟩) bytes

theorem Presentation.fromBytes_eq_ok (hproofs : C.voleith.CanonicalProofs) {b : Bytes}
    {presentation : Presentation C} :
    Presentation.fromBytes b = .ok presentation ↔
      b.length ≤ maxWireBytes ∧ presentation.toBytes = some b := by
  have hreads := (codes_array 32).bind fun tag => codes_bytes.bind fun encoded =>
    Reads.lift_bind (decodeProof (C := C) encoded) fun proof =>
      reads_finish_bind (f := fun _ => pure _) (Reads.pure (Presentation.mk tag proof))
  refine (decodeWith_eq_ok hreads).trans (and_congr_right fun _ => ?_)
  simp only [decodeProof_eq_ok hproofs, Presentation.toBytes, putBytes_eq_some]
  constructor
  · rintro ⟨_, _, rfl, tag, _, -, rfl, _, _, hproof, rfl, proof, rfl, ⟨rfl, rfl⟩, rfl, -⟩
    exact ⟨hproof, by simp only [List.append_assoc, List.append_nil]⟩
  · rintro ⟨hproof, rfl⟩
    refine ⟨_, [], ?_, presentation.tag, _, trivial, rfl, _, [], hproof, rfl, presentation.proof,
      rfl, ⟨rfl, rfl⟩, rfl, rfl⟩
    simp only [List.append_assoc, List.append_nil]

/-! ### Credentials -/

instance transOrd_bytes32 : Std.TransOrd Bytes32 := inferInstance

/-- `BTreeMap<CounterKey, u32>`, ordered by the bytes of the context. -/
abbrev CounterMap := Std.ExtTreeMap Bytes32 U32 compare

/-- Client-held anonymous credential plus a counter for each presentation context it has used. -/
structure Credential (C : Crates P K) where
  issuerContext : Bytes32
  credentialContext : CredentialContext
  signature : List GF16
  secret : Bytes32
  hidingNonce : Bytes32
  salt : Bytes32
  nextNonces : CounterMap

/-- `gf16_slices_equal`. -/
def gf16SlicesEqual (left right : List GF16) : Bool :=
  left.length == right.length && left.map GF16.toU8 == right.map GF16.toU8

theorem gf16SlicesEqual_iff {left right : List GF16} :
    gf16SlicesEqual left right = true ↔ left = right := by
  rw [gf16SlicesEqual, Bool.and_eq_true, beq_iff_eq, beq_iff_eq,
    (List.map_injective_iff.mpr GF16.toU8_injective).eq_iff]
  exact ⟨fun h => h.2, fun h => ⟨congrArg List.length h, h⟩⟩

def PublicKey.verifyCredential (self : PublicKey C) (credential : Credential C) :
    Except Error Unit :=
  if credential.issuerContext ≠ self.context then .error .wrongIssuer
  else
    let scope := credentialScope C credential.issuerContext credential.credentialContext.digest
    let commitment := credentialTarget P scope credential.secret credential.hidingNonce
    let target := signedCredentialTarget P commitment credential.salt
    match C.mayo.eval self.mayo credential.signature with
    | none => .error .invalidSignature
    | some evaluated =>
      if !gf16SlicesEqual evaluated target then .error .invalidSignature else .ok ()

/-- One counter record. -/
def counterBytes (entry : Bytes32 × U32) : Bytes := entry.1.toList ++ u32ToLeBytes entry.2

def Credential.toBytes (self : Credential C) : Bytes :=
  let output := header [] WIRE_CREDENTIAL P.WIRE_ID
  let output := output ++ self.issuerContext.toList ++ self.credentialContext.digest.toList ++
    packNibbles self.signature ++ self.secret.toList ++ self.hidingNonce.toList ++ self.salt.toList
  -- `u32::try_from(len).unwrap_or(u32::MAX)`
  let contextCount : U32 := if self.nextNonces.size < 2 ^ 32 then
    BitVec.ofNat 32 self.nextNonces.size else BitVec.allOnes 32
  let output := output ++ u32ToLeBytes contextCount
  self.nextNonces.toList.foldl (fun output entry => output ++ counterBytes entry) output

/-- `for _ in 0..context_count { .. }`. -/
def readCounters : ℕ → CounterMap → Option Bytes32 → Decode CounterMap
  | 0, nextNonces, _ => pure nextNonces
  | n + 1, nextNonces, previous => do
    let context ← array 32
    if previous.any fun prior => (compare prior context).isGE then throw .invalidEncoding
    else
      let nextNonce ← u32
      if nextNonce = 0 then throw .invalidEncoding
      else readCounters n (nextNonces.insert context nextNonce) (some context)

def Credential.fromBytes (publicKey : PublicKey C) (bytes : Bytes) :
    Except WireError (Credential C) :=
  decodeWith WIRE_CREDENTIAL P.WIRE_ID (do
    let issuerContext ← array 32
    let credentialContext ← array 32
    let signature ← nibbles P.KN
    let secret ← array 32
    let hidingNonce ← array 32
    let salt ← array 32
    let contextCount ← u32
    if contextCount.toNat > maxPresentationContexts then throw .invalidEncoding
    else
      let nextNonces ← readCounters contextCount.toNat ∅ none
      finish
      if issuerContext ≠ publicKey.context then throw .wrongIssuer
      else
        let credential : Credential C :=
          ⟨issuerContext, ⟨credentialContext⟩, signature, secret, hidingNonce, salt, nextNonces⟩
        liftM ((publicKey.verifyCredential credential).mapError fun _ =>
          WireError.invalidCredential)
        pure credential) bytes

/-- The MAYO relation of a credential, under a key of its issuer context. -/
def Credential.Authentic (publicKey : PublicKey C) (self : Credential C) : Prop :=
  self.issuerContext = publicKey.context ∧
    C.mayo.eval publicKey.mayo self.signature = some (signedCredentialTarget P
      (credentialTarget P (credentialScope C self.issuerContext self.credentialContext.digest)
        self.secret self.hidingNonce) self.salt)

theorem PublicKey.verifyCredential_eq_ok {publicKey : PublicKey C} {credential : Credential C}
    {u : Unit} :
    publicKey.verifyCredential credential = .ok u ↔ credential.Authentic publicKey := by
  unfold PublicKey.verifyCredential Credential.Authentic
  by_cases hissuer : credential.issuerContext = publicKey.context
  · rw [if_neg (not_not.mpr hissuer), and_iff_right hissuer]
    cases C.mayo.eval publicKey.mayo credential.signature with
    | none => simp
    | some evaluated =>
      rw [Option.some_inj, ← gf16SlicesEqual_iff]
      simp only
      split_ifs with h <;> simp_all
  · rw [if_pos hissuer]
    simp [hissuer]

theorem not_any_isGE_iff {previous : Option Bytes32} {context : Bytes32} :
    ¬ (previous.any fun prior => (compare prior context).isGE) = true ↔
      ∀ prior ∈ previous, compare prior context = .lt := by
  cases previous with
  | none => simp
  | some prior =>
    simp only [Option.any_some, Option.mem_some_iff, forall_eq']
    cases compare prior context <;> simp

/-- The counter loop reads a strictly ascending list of non-zero counters. -/
theorem reads_readCounters : ∀ (n : ℕ) (nextNonces : CounterMap) (previous : Option Bytes32),
    Reads (readCounters n nextNonces previous) fun m bs _ =>
      ∃ entries : List (Bytes32 × U32), entries.length = n ∧ Ascending compare entries ∧
        (∀ prior ∈ previous, ∀ e ∈ entries, compare prior e.1 = .lt) ∧
        (∀ e ∈ entries, e.2 ≠ 0) ∧ m = insertAll nextNonces entries ∧
        bs = entries.flatMap counterBytes
  | 0, nextNonces, previous => by
    refine (Reads.pure nextNonces).congr fun m bs _ => ?_
    constructor
    · rintro ⟨rfl, rfl⟩
      exact ⟨[], rfl, List.Pairwise.nil, by simp, by simp, rfl, rfl⟩
    · rintro ⟨entries, hlen, -, -, -, rfl, rfl⟩
      rw [List.length_eq_zero_iff.mp hlen]
      exact ⟨rfl, rfl⟩
  | n + 1, nextNonces, previous => by
    refine ((codes_array 32).bind fun context => (codes_u32.bind fun nextNonce =>
      (reads_readCounters n (nextNonces.insert context nextNonce)
        (some context)).guard).guard).congr
        fun m bs _ => ?_
    simp only [not_any_isGE_iff]
    constructor
    · rintro ⟨context, _, -, rfl, hprior, nextNonce, _, -, rfl, hzero, entries, rfl, hasc, hlt, hne,
        rfl, rfl⟩
      refine ⟨(context, nextNonce) :: entries, rfl, ?_, ?_, ?_, rfl, ?_⟩
      · exact List.pairwise_cons.mpr ⟨hlt context rfl, hasc⟩
      · intro prior hp e he
        rcases List.mem_cons.mp he with rfl | he
        · exact hprior prior hp
        · exact Std.TransCmp.lt_trans (hprior prior hp) (hlt context rfl e he)
      · intro e he
        rcases List.mem_cons.mp he with rfl | he
        · exact hzero
        · exact hne e he
      · rw [List.flatMap_cons, counterBytes, List.append_assoc]
    · rintro ⟨entries, hlen, hasc, hprior, hne, rfl, rfl⟩
      obtain _ | ⟨⟨context, nextNonce⟩, entries⟩ := entries
      · simp at hlen
      obtain ⟨hlt, hasc⟩ := List.pairwise_cons.mp hasc
      refine ⟨context, _, trivial, ?_, fun prior hp => hprior prior hp _ List.mem_cons_self,
        nextNonce, entries.flatMap counterBytes, trivial, rfl, hne _ List.mem_cons_self, entries,
        Nat.succ.inj hlen, hasc, ?_, fun e he => hne e (List.mem_cons_of_mem _ he), rfl, rfl⟩
      · rw [List.flatMap_cons, counterBytes, List.append_assoc]
      · rintro _ ⟨⟩ e he
        exact hlt e he

theorem foldl_append_eq_flatMap {α β : Type} (f : α → List β) (l : List α) (acc : List β) :
    l.foldl (fun acc a => acc ++ f a) acc = acc ++ l.flatMap f := by
  induction l generalizing acc with
  | nil => simp
  | cons a l ih => simp [ih]

/-- The counter part of an encoding. -/
theorem Credential.toBytes_eq (self : Credential C) (hsize : self.nextNonces.size < 2 ^ 32) :
    self.toBytes = header [] WIRE_CREDENTIAL P.WIRE_ID ++ (self.issuerContext.toList ++
      (self.credentialContext.digest.toList ++ (packNibbles self.signature ++ (self.secret.toList ++
        (self.hidingNonce.toList ++ (self.salt.toList ++
          (u32ToLeBytes (BitVec.ofNat 32 self.nextNonces.size) ++
            self.nextNonces.toList.flatMap counterBytes))))))) := by
  simp only [Credential.toBytes, foldl_append_eq_flatMap, hsize, if_true, List.append_assoc]

/-- What `Credential::from_bytes` accepts. -/
theorem Credential.fromBytes_eq_ok {publicKey : PublicKey C} {b : Bytes}
    {credential : Credential C} :
    Credential.fromBytes publicKey b = .ok credential ↔
      b.length ≤ maxWireBytes ∧ credential.toBytes = b ∧ credential.signature.length = P.KN ∧
        credential.nextNonces.size ≤ maxPresentationContexts ∧
        (∀ (context : Bytes32) (n : U32), credential.nextNonces[context]? = some n → n ≠ 0) ∧
        credential.Authentic publicKey := by
  have hreads := (codes_array 32).bind fun issuerContext => (codes_array 32).bind
    fun credentialContext => (codes_nibbles P.KN).bind fun signature => (codes_array 32).bind
      fun secret => (codes_array 32).bind fun hidingNonce => (codes_array 32).bind fun salt =>
        codes_u32.bind fun contextCount =>
          ((reads_readCounters contextCount.toNat ∅ none).bind fun nextNonces =>
            reads_finish_bind (f := fun _ => ite _ _ _)
              ((Reads.lift_bind ((publicKey.verifyCredential (C := C) ⟨issuerContext,
                ⟨credentialContext⟩, signature, secret, hidingNonce, salt, nextNonces⟩).mapError
                  fun _ => WireError.invalidCredential) fun _ => Reads.pure (Credential.mk (C := C)
                    issuerContext ⟨credentialContext⟩ signature secret hidingNonce salt
                      nextNonces)).guard (p := issuerContext ≠ publicKey.context)
                        (e := WireError.wrongIssuer))).guard
                          (p := contextCount.toNat > maxPresentationContexts)
                          (e := WireError.invalidEncoding)
  refine (decodeWith_eq_ok hreads).trans (and_congr_right fun _ => ?_)
  have hverify : ∀ c u,
    (publicKey.verifyCredential c).mapError (fun _ => WireError.invalidCredential) =
      .ok u ↔ Credential.Authentic publicKey c := by
    intro c u
    rw [← PublicKey.verifyCredential_eq_ok (u := u)]
    cases publicKey.verifyCredential c <;> simp [Except.mapError]
  simp only [hverify, not_not]
  constructor
  · rintro ⟨_, _, rfl, issuerContext, _, -, rfl, credentialContext, _, -, rfl, signature, _, hsig,
      rfl, secret, _, -, rfl, hidingNonce, _, -, rfl, salt, _, -, rfl, contextCount, _, -, rfl,
      hmax, nextNonces, _, _, rfl, ⟨entries, hlen, hasc, -, hne, rfl, rfl⟩, ⟨rfl, rfl⟩, -, _,
      hauth, rfl, -⟩
    have hlist := toList_insertAll hasc
    have hsize : (insertAll ∅ entries : CounterMap).size = contextCount.toNat := by
      rw [← Std.ExtTreeMap.length_toList, hlist, hlen]
    have hcount : BitVec.ofNat 32 (insertAll ∅ entries : CounterMap).size = contextCount := by
      rw [hsize, BitVec.ofNat_toNat, BitVec.setWidth_eq]
    refine ⟨?_, hsig, ?_, ?_, hauth⟩
    · rw [Credential.toBytes_eq _ (by rw [hsize]; exact contextCount.isLt)]
      simp only [hcount, hlist, List.append_nil]
    · rw [hsize]
      exact Nat.le_of_not_gt hmax
    · intro context n hget
      rw [← Std.ExtTreeMap.mem_toList_iff_getElem?_eq_some, hlist] at hget
      exact hne _ hget
  · rintro ⟨rfl, hsig, hsize, hne, hauth⟩
    obtain ⟨issuerContext, credentialContext, signature, secret, hidingNonce, salt, nextNonces⟩ :=
      credential
    simp only at hsig hsize hne
    have hlt : nextNonces.size < 2 ^ 32 := by
      have : maxPresentationContexts = 4096 := rfl
      omega
    have hcount : (BitVec.ofNat 32 nextNonces.size).toNat = nextNonces.size := by
      rw [BitVec.toNat_ofNat, Nat.mod_eq_of_lt hlt]
    refine ⟨_, [], ?_, issuerContext, _, trivial, rfl, credentialContext.digest, _, trivial, rfl,
      signature, _, hsig, rfl, secret, _, trivial, rfl, hidingNonce, _, trivial, rfl, salt, _,
      trivial, rfl, BitVec.ofNat 32 nextNonces.size, _, trivial, rfl, ?_, nextNonces, _, [], rfl,
      ⟨nextNonces.toList, ?_, ascending_toList _, by simp, ?_, (insertAll_toList _).symm, rfl⟩,
      ⟨rfl, rfl⟩, hauth.1, (), hauth, rfl, rfl⟩
    · rw [Credential.toBytes_eq _ hlt]
      simp only [List.append_nil]
    · rw [hcount]
      exact Nat.not_lt.mpr hsize
    · rw [Std.ExtTreeMap.length_toList, hcount]
    · rintro ⟨context, n⟩ he
      exact hne context n (Std.ExtTreeMap.mem_toList_iff_getElem?_eq_some.mp he)

end VoleArc
