import VoleArc.Protocol.Artifacts

/-!
# VoleArc.Protocol.Issuance — requesting, issuing and finishing a credential
-/

namespace VoleArc

variable {P : ArcParams} {K : Type} [Field K] {C : Crates P K}

/-- Start a blind issuance request for a fresh hidden credential secret. -/
def PublicKey.prepareIssue (self : PublicKey C) (credentialContext : CredentialContext)
    (rng : C.Rng) : Except Error (PendingIssue C × IssueRequest C) × C.Rng :=
  let (secret, rng) := C.fillBytes rng
  let (hidingNonce, rng) := C.fillBytes rng
  let scope := credentialScope C self.context credentialContext.digest
  let commitment := credentialTarget P scope secret hidingNonce
  let circuit : IssueCircuit P := { credentialScope := scope, target := commitment }
  let witness := circuit.witness secret hidingNonce
  let statement := issueStatement P self.context credentialContext.digest commitment
  match C.voleith.prove (self.profile.params C) statement (.issue circuit) witness rng with
  | (.error e, rng) => (.error (proofError e), rng)
  | (.ok proof, rng) =>
    (.ok ({ issuerContext := self.context
            credentialContext := credentialContext
            secret := secret
            hidingNonce := hidingNonce
            commitment := commitment
            commitment_eq := rfl },
          { commitment := commitment, proof := proof }), rng)

/-- Verify a request for the policy-selected credential context, then authenticate its commitment
using a fresh signer salt. -/
def Issuer.issue (self : Issuer C) (request : IssueRequest C)
    (credentialContext : CredentialContext) (rng : C.Rng) :
    Except Error (IssueResponse C) × C.Rng :=
  if request.commitment.length ≠ P.M then (.error .invalidRequest, rng)
  else
    let scope := credentialScope C self.publicKey.context credentialContext.digest
    let circuit : IssueCircuit P := { credentialScope := scope, target := request.commitment }
    let statement := issueStatement P self.publicKey.context credentialContext.digest
      request.commitment
    match C.voleith.verify (self.publicKey.profile.params C) statement (.issue circuit)
        request.proof with
    | .error e => (.error (proofError e), rng)
    | .ok () =>
      -- the signer selects the salt after accepting the proof
      let (salt, rng) := C.fillBytes rng
      let target := signedCredentialTarget P request.commitment salt
      match C.mayo.spre self.secret target rng with
      | (none, rng) => (.error .signingFailed, rng)
      | (some signature, rng) => (.ok { signature := signature, salt := salt }, rng)

/-- Authenticate the exact response and construct a stateful credential. -/
def PendingIssue.finish (self : PendingIssue C) (publicKey : PublicKey C)
    (request : IssueRequest C) (response : IssueResponse C) : Except Error (Credential C) :=
  if self.issuerContext ≠ publicKey.context then .error .wrongIssuer
  else if request.commitment ≠ self.commitment then .error .invalidRequest
  else
    let target := signedCredentialTarget P self.commitment response.salt
    match C.mayo.eval publicKey.mayo response.signature with
    | none => .error .invalidSignature
    | some evaluated =>
      if !gf16SlicesEqual evaluated target then .error .invalidSignature
      else .ok
        { issuerContext := self.issuerContext
          credentialContext := self.credentialContext
          signature := response.signature
          secret := self.secret
          hidingNonce := self.hidingNonce
          salt := response.salt
          nextNonces := ∅ }

/-! ### What each step returns -/

/-- A prepared request carries the commitment of the pending opening and the prover's proof for
it. -/
theorem PublicKey.prepareIssue_eq_ok {self : PublicKey C} {credentialContext : CredentialContext}
    {rng rng' : C.Rng} {pending : PendingIssue C} {request : IssueRequest C}
    (h : self.prepareIssue credentialContext rng = (.ok (pending, request), rng')) :
    pending.issuerContext = self.context ∧ pending.credentialContext = credentialContext ∧
      request.commitment = pending.commitment ∧
      ∃ rng₁ : C.Rng, (C.voleith.prove (self.profile.params C)
          (issueStatement P self.context credentialContext.digest pending.commitment)
          (.issue { credentialScope := credentialScope C self.context credentialContext.digest
                    target := pending.commitment })
          (IssueCircuit.witness (P := P)
            { credentialScope := credentialScope C self.context credentialContext.digest
              target := pending.commitment } pending.secret pending.hidingNonce) rng₁).1 =
        .ok request.proof := by
  unfold PublicKey.prepareIssue at h
  simp only at h
  split at h
  · simp at h
  · rename_i proof rng'' hprove
    obtain ⟨hok, -⟩ := Prod.mk.inj h
    obtain ⟨rfl, rfl⟩ := Prod.mk.inj (Except.ok.inj hok)
    refine ⟨rfl, rfl, rfl, (C.fillBytes (C.fillBytes rng).2).2, ?_⟩
    rw [hprove]

/-- The verification of a request, for the credential context the issuer selects. -/
def Issuer.verifyRequest (self : Issuer C) (request : IssueRequest C)
    (credentialContext : CredentialContext) : Except VoleithError Unit :=
  C.voleith.verify (self.publicKey.profile.params C)
    (issueStatement P self.publicKey.context credentialContext.digest request.commitment)
    (.issue { credentialScope := credentialScope C self.publicKey.context credentialContext.digest
              target := request.commitment }) request.proof

/-- What one call of `issue` does: a malformed or unproved request is refused before any randomness
is drawn; otherwise the salt is drawn first and the target of that salt is signed. -/
theorem Issuer.issue_cases {self : Issuer C} {request : IssueRequest C}
    {credentialContext : CredentialContext} {rng rng' : C.Rng}
    {result : Except Error (IssueResponse C)}
    (h : self.issue request credentialContext rng = (result, rng')) :
    (request.commitment.length ≠ P.M ∧ result = .error .invalidRequest ∧ rng' = rng) ∨
    (request.commitment.length = P.M ∧
      (∃ e, self.verifyRequest request credentialContext = .error e) ∧
      result = .error .invalidProof ∧ rng' = rng) ∨
    (request.commitment.length = P.M ∧ self.verifyRequest request credentialContext = .ok () ∧
      ∃ signature, C.mayo.spre self.secret (signedCredentialTarget P request.commitment
          (C.fillBytes rng).1) (C.fillBytes rng).2 = (signature, rng') ∧
        result = signature.elim (.error .signingFailed) fun signature =>
          .ok { signature := signature, salt := (C.fillBytes rng).1 }) := by
  unfold Issuer.issue at h
  by_cases hlen : request.commitment.length = P.M
  · rw [if_neg (not_not.mpr hlen)] at h
    simp only at h
    split at h
    · rename_i e hverify
      obtain ⟨rfl, rfl⟩ := Prod.mk.inj h
      exact .inr (.inl ⟨hlen, ⟨e, hverify⟩, rfl, rfl⟩)
    · rename_i hverify
      refine .inr (.inr ⟨hlen, hverify, ?_⟩)
      split at h
      · rename_i rng'' hspre
        obtain ⟨rfl, rfl⟩ := Prod.mk.inj h
        exact ⟨none, hspre, rfl⟩
      · rename_i signature rng'' hspre
        obtain ⟨rfl, rfl⟩ := Prod.mk.inj h
        exact ⟨some signature, hspre, rfl⟩
  · rw [if_pos hlen] at h
    obtain ⟨rfl, rfl⟩ := Prod.mk.inj h
    exact .inl ⟨hlen, rfl, rfl⟩

/-- A response carries a sampled preimage of the signed target of its own salt. -/
theorem Issuer.issue_eq_ok {self : Issuer C} {request : IssueRequest C}
    {credentialContext : CredentialContext} {rng rng' : C.Rng} {response : IssueResponse C}
    (h : self.issue request credentialContext rng = (.ok response, rng')) :
    response.salt = (C.fillBytes rng).1 ∧ (C.mayo.spre self.secret
      (signedCredentialTarget P request.commitment response.salt) (C.fillBytes rng).2).1 =
        some response.signature := by
  rcases Issuer.issue_cases h with ⟨-, he, -⟩ | ⟨-, -, he, -⟩ | ⟨-, -, signature, hspre, hresult⟩
  · cases he
  · cases he
  · cases signature with
    | none => cases hresult
    | some signature =>
      obtain rfl := Except.ok.inj hresult
      exact ⟨rfl, congrArg Prod.fst hspre⟩

/-- `finish` succeeds exactly for the key of the pending issuer, the request with the pending
commitment and a response that signs it, and then returns the pending opening with no counters. -/
theorem PendingIssue.finish_eq_ok {self : PendingIssue C} {publicKey : PublicKey C}
    {request : IssueRequest C} {response : IssueResponse C} {credential : Credential C} :
    self.finish publicKey request response = .ok credential ↔
      self.issuerContext = publicKey.context ∧ request.commitment = self.commitment ∧
      C.mayo.eval publicKey.mayo response.signature =
        some (signedCredentialTarget P self.commitment response.salt) ∧
      credential =
        { issuerContext := self.issuerContext
          credentialContext := self.credentialContext
          signature := response.signature
          secret := self.secret
          hidingNonce := self.hidingNonce
          salt := response.salt
          nextNonces := ∅ } := by
  unfold PendingIssue.finish
  by_cases hissuer : self.issuerContext = publicKey.context
  · by_cases hcommit : request.commitment = self.commitment
    · rw [if_neg (not_not.mpr hissuer), if_neg (not_not.mpr hcommit), and_iff_right hissuer,
        and_iff_right hcommit]
      cases C.mayo.eval publicKey.mayo response.signature with
      | none => simp
      | some evaluated =>
        rw [Option.some_inj, ← gf16SlicesEqual_iff]
        simp only
        cases gf16SlicesEqual evaluated
          (signedCredentialTarget P self.commitment response.salt) with
        | false => exact iff_of_false (fun h => by cases h) fun h => Bool.noConfusion h.1
        | true =>
          exact ⟨fun h => ⟨rfl, (Except.ok.inj h).symm⟩, fun h => congrArg Except.ok h.2.symm⟩
    · rw [if_neg (not_not.mpr hissuer), if_pos hcommit]
      simp [hcommit]
  · rw [if_pos hissuer]
    simp [hissuer]

/-! ### Reachable messages -/

/-- What `prepare_issue` and `from_bytes` return as pending state of a key. -/
inductive PendingIssue.Reachable (publicKey : PublicKey C) : PendingIssue C → Prop
  | prepareIssue {credentialContext : CredentialContext} {rng rng' : C.Rng}
      {pending : PendingIssue C} {request : IssueRequest C}
      (h : publicKey.prepareIssue credentialContext rng = (.ok (pending, request), rng')) :
      PendingIssue.Reachable publicKey pending
  | fromBytes {bytes : Bytes} {pending : PendingIssue C}
      (h : PendingIssue.fromBytes publicKey bytes = .ok pending) :
      PendingIssue.Reachable publicKey pending

theorem PendingIssue.Reachable.issuerContext_eq {publicKey : PublicKey C} {pending : PendingIssue C}
    (h : PendingIssue.Reachable publicKey pending) : pending.issuerContext = publicKey.context := by
  cases h with
  | prepareIssue h => exact (PublicKey.prepareIssue_eq_ok h).1
  | fromBytes h => exact (PendingIssue.fromBytes_eq_ok.mp h).2.2

/-- What `prepare_issue` and `from_bytes` return as a request. -/
inductive IssueRequest.Reachable : IssueRequest C → Prop
  | prepareIssue {publicKey : PublicKey C} {credentialContext : CredentialContext}
      {rng rng' : C.Rng} {pending : PendingIssue C} {request : IssueRequest C}
      (h : publicKey.prepareIssue credentialContext rng = (.ok (pending, request), rng')) :
      IssueRequest.Reachable request
  | fromBytes {bytes : Bytes} {request : IssueRequest C}
      (h : IssueRequest.fromBytes bytes = .ok request) : IssueRequest.Reachable request

theorem IssueRequest.Reachable.length_commitment (hproofs : C.voleith.CanonicalProofs)
    {request : IssueRequest C} (h : request.Reachable) : request.commitment.length = P.M := by
  cases h with
  | prepareIssue h =>
    rename_i pending
    rw [(PublicKey.prepareIssue_eq_ok h).2.2.1, pending.commitment_eq, length_credentialTarget]
  | fromBytes h => exact ((IssueRequest.fromBytes_eq_ok hproofs).mp h).2.2

/-- What `issue` and `from_bytes` return as a response. -/
inductive IssueResponse.Reachable : IssueResponse C → Prop
  | issue {issuer : Issuer C} {request : IssueRequest C} {credentialContext : CredentialContext}
      {rng rng' : C.Rng} {response : IssueResponse C}
      (h : issuer.issue request credentialContext rng = (.ok response, rng')) :
      IssueResponse.Reachable response
  | fromBytes {bytes : Bytes} {response : IssueResponse C}
      (h : IssueResponse.fromBytes bytes = .ok response) : IssueResponse.Reachable response

theorem IssueResponse.Reachable.length_signature (hspre : C.mayo.SpreLength P)
    {response : IssueResponse C} (h : response.Reachable) : response.signature.length = P.KN := by
  cases h with
  | issue h =>
    exact hspre _ _ _ _ (Issuer.issue_eq_ok h).2
  | fromBytes h => exact (IssueResponse.fromBytes_eq_ok.mp h).2.2

end VoleArc
