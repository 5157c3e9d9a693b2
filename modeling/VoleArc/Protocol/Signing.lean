import VoleArc.Protocol.Lifecycle

/-!
# VoleArc.Protocol.Signing — the order of issuance on the signer's side

`issue` first checks a request, without touching the generator or the trapdoor, and then signs the
commitment under a salt that it draws itself.  What it returns finishes every pending state with
that commitment.
-/

namespace VoleArc

variable {P : ArcParams} {K : Type} [Field K] {C : Crates P K}

/-- The checks of `issue` on a request. -/
def Issuer.checkIssue (self : Issuer C) (request : IssueRequest C)
    (credentialContext : CredentialContext) : Except Error Unit :=
  if request.commitment.length ≠ P.M then .error .invalidRequest
  else (self.verifyRequest request credentialContext).mapError proofError

/-- What `issue` does with a commitment that passed the checks, under a given preimage sampler. -/
def signCommitment (spre : List GF16 → C.Rng → Option (List GF16) × C.Rng) (commitment : List GF16)
    (rng : C.Rng) : Except Error (IssueResponse C) × C.Rng :=
  let (salt, rng) := C.fillBytes rng
  match spre (signedCredentialTarget P commitment salt) rng with
  | (none, rng) => (.error .signingFailed, rng)
  | (some signature, rng) => (.ok { signature := signature, salt := salt }, rng)

/-- The generator and the trapdoor are used for requests that pass the checks only. -/
theorem Issuer.issue_eq (self : Issuer C) (request : IssueRequest C)
    (credentialContext : CredentialContext) (rng : C.Rng) :
    self.issue request credentialContext rng =
      match self.checkIssue request credentialContext with
      | .error e => (.error e, rng)
      | .ok () => signCommitment (C.mayo.spre self.secret) request.commitment rng := by
  unfold Issuer.issue Issuer.checkIssue
  by_cases hlen : request.commitment.length = P.M
  · rw [if_neg (not_not.mpr hlen), if_neg (not_not.mpr hlen)]
    cases hverify : self.verifyRequest request credentialContext with
    | error e =>
      unfold Issuer.verifyRequest at hverify
      simp only [hverify, Except.mapError]
    | ok u =>
      unfold Issuer.verifyRequest at hverify
      simp only [hverify, Except.mapError]
      rfl
  · rw [if_pos hlen, if_pos hlen]

/-- Signing fails or returns a preimage of the target of the salt it drew. -/
theorem signCommitment_cases {spre : List GF16 → C.Rng → Option (List GF16) × C.Rng}
    {commitment : List GF16} {rng rng' : C.Rng} {result : Except Error (IssueResponse C)}
    (h : signCommitment spre commitment rng = (result, rng')) :
    result = .error .signingFailed ∨ ∃ signature,
      (spre (signedCredentialTarget P commitment (C.fillBytes rng).1) (C.fillBytes rng).2).1 =
          some signature ∧
        result = .ok { signature := signature, salt := (C.fillBytes rng).1 } := by
  unfold signCommitment at h
  simp only at h
  split at h
  · exact .inl (Prod.mk.inj h).1.symm
  · rename_i signature rng'' hspre
    exact .inr ⟨signature, congrArg Prod.fst hspre, (Prod.mk.inj h).1.symm⟩

/-- A request that is refused did not pass the checks. -/
theorem Issuer.issue_refused {self : Issuer C} {request : IssueRequest C}
    {credentialContext : CredentialContext} {rng rng' : C.Rng} {e : Error}
    (h : self.issue request credentialContext rng = (.error e, rng'))
    (he : e = .invalidRequest ∨ e = .invalidProof) :
    self.checkIssue request credentialContext = .error e ∧ rng' = rng := by
  rw [Issuer.issue_eq] at h
  cases hchecked : self.checkIssue request credentialContext with
  | error e' =>
    rw [hchecked] at h
    obtain ⟨hresult, hrng⟩ := Prod.mk.inj h
    exact ⟨by rw [Except.error.inj hresult], hrng.symm⟩
  | ok u =>
    rw [hchecked] at h
    rcases signCommitment_cases h with hfailed | ⟨signature, -, hok⟩
    · rw [Except.error.inj hfailed] at he
      rcases he with he | he <;> cases he
    · cases hok

/-! ### Honest issuance -/

/-- The prover gets a satisfying assignment from every fresh opening. -/
theorem PublicKey.prepareIssue_succeeds (hprove : C.ProveComplete) (publicKey : PublicKey C)
    (credentialContext : CredentialContext) (rng : C.Rng) :
    ∃ pending request rng',
      publicKey.prepareIssue credentialContext rng = (.ok (pending, request), rng') := by
  let secret := (C.fillBytes rng).1
  let hidingNonce := (C.fillBytes (C.fillBytes rng).2).1
  let circuit : IssueCircuit P :=
    { credentialScope := credentialScope C publicKey.context credentialContext.digest
      target := credentialTarget P (credentialScope C publicKey.context credentialContext.digest)
        secret hidingNonce }
  obtain ⟨proof, hproof⟩ := hprove (publicKey.profile.params C) (issueStatement P publicKey.context
    credentialContext.digest circuit.target) _ _ (C.fillBytes (C.fillBytes rng).2).2
      (satisfiedBy_issue C.fields circuit secret hidingNonce rfl)
  unfold PublicKey.prepareIssue
  simp only
  rw [show C.voleith.prove (publicKey.profile.params C) (issueStatement P publicKey.context
      credentialContext.digest circuit.target) (.issue circuit) (circuit.witness secret hidingNonce)
        (C.fillBytes (C.fillBytes rng).2).2 = (.ok proof, _) from Prod.ext hproof rfl]
  exact ⟨_, _, _, rfl⟩

/-- The issuer answers every prepared request. -/
theorem Issuer.issue_succeeds (hverify : C.VerifyComplete) (hspre : C.mayo.SpreSucceeds P)
    (issuer : Issuer C) {credentialContext : CredentialContext} {rng rng' : C.Rng}
    {pending : PendingIssue C} {request : IssueRequest C}
    (h : issuer.publicKey.prepareIssue credentialContext rng = (.ok (pending, request), rng'))
    (signerRng : C.Rng) :
    ∃ response rng'', issuer.issue request credentialContext signerRng = (.ok response, rng'') := by
  obtain ⟨-, -, hcommitment, rng₁, hproof⟩ := PublicKey.prepareIssue_eq_ok h
  have hlen : request.commitment.length = P.M := by
    rw [hcommitment, pending.commitment_eq, length_credentialTarget]
  have hchecked : issuer.checkIssue request credentialContext = .ok () := by
    unfold Issuer.checkIssue Issuer.verifyRequest
    rw [if_neg (not_not.mpr hlen), hcommitment, hverify _ _ _ _ _ _ hproof]
    rfl
  obtain ⟨signature, hsignature⟩ := hspre issuer.secret
    (signedCredentialTarget P request.commitment (C.fillBytes signerRng).1)
      (C.fillBytes signerRng).2 (length_signedCredentialTarget P _ _)
  rw [Issuer.issue_eq, hchecked]
  simp only [signCommitment]
  rw [show C.mayo.spre issuer.secret (signedCredentialTarget P request.commitment
      (C.fillBytes signerRng).1) (C.fillBytes signerRng).2 = (some signature, _) from
        Prod.ext hsignature rfl]
  exact ⟨_, _, rfl⟩

/-- A response finishes the pending states of its issuer with the commitment it was made for. -/
theorem PendingIssue.finish_of_issue (hspre : C.mayo.SpreCorrect) {issuer : Issuer C}
    (hmatches : issuer.Matches) {request : IssueRequest C} {credentialContext : CredentialContext}
    {rng rng' : C.Rng} {response : IssueResponse C}
    (h : issuer.issue request credentialContext rng = (.ok response, rng'))
    {pending : PendingIssue C} (hissuer : pending.issuerContext = issuer.publicKey.context)
    (hcommitment : pending.commitment = request.commitment) :
    ∃ credential, pending.finish issuer.publicKey request response = .ok credential := by
  obtain ⟨-, hsigned⟩ := Issuer.issue_eq_ok h
  refine ⟨_, PendingIssue.finish_eq_ok.mpr ⟨hissuer, hcommitment.symm, ?_, rfl⟩⟩
  rw [show issuer.publicKey.mayo = C.mayo.publicKey issuer.secret from hmatches, hcommitment]
  exact hspre _ _ _ _ hsigned

theorem PendingIssue.finish_wrongIssuer {pending : PendingIssue C} {publicKey : PublicKey C}
    (h : pending.issuerContext ≠ publicKey.context) (request : IssueRequest C)
    (response : IssueResponse C) :
      pending.finish publicKey request response = .error .wrongIssuer := by
  unfold PendingIssue.finish
  exact if_pos h

theorem PendingIssue.finish_invalidRequest {pending : PendingIssue C} {publicKey : PublicKey C}
    (hissuer : pending.issuerContext = publicKey.context) {request : IssueRequest C}
    (h : request.commitment ≠ pending.commitment) (response : IssueResponse C) :
    pending.finish publicKey request response = .error .invalidRequest := by
  unfold PendingIssue.finish
  rw [if_neg (not_not.mpr hissuer)]
  exact if_pos h

/-- Issuance is atomic, salted by the signer alone, and its responses finish exactly the pending
states of its issuer with the commitment it signed. -/
theorem issuance_atomic (hspre : C.mayo.SpreCorrect) (issuer : Issuer C) (hmatches : issuer.Matches)
    (request : IssueRequest C) (credentialContext : CredentialContext) (rng : C.Rng) :
    -- a refused request: no randomness, no signature
    (∀ e rng', issuer.issue request credentialContext rng = (.error e, rng') →
      e = .invalidRequest ∨ e = .invalidProof →
        rng' = rng ∧ issuer.checkIssue request credentialContext = .error e) ∧
    issuer.issue request credentialContext rng =
      (match issuer.checkIssue request credentialContext with
        | .error e => (.error e, rng)
        | .ok () => signCommitment (C.mayo.spre issuer.secret) request.commitment rng) ∧
    -- one that passed: the salt is the next output of the generator, whatever was requested
    (issuer.checkIssue request credentialContext = .ok () →
      (issuer.issue request credentialContext rng).1 = .error .signingFailed ∨
      ∃ signature, (C.mayo.spre issuer.secret (signedCredentialTarget P request.commitment
          (C.fillBytes rng).1) (C.fillBytes rng).2).1 = some signature ∧
        (issuer.issue request credentialContext rng).1 =
          .ok { signature := signature, salt := (C.fillBytes rng).1 }) ∧
    (∀ request' credentialContext' response response' rng' rng'',
      issuer.issue request credentialContext rng = (.ok response, rng') →
      issuer.issue request' credentialContext' rng = (.ok response', rng'') →
        response.salt = response'.salt ∧ response.salt = (C.fillBytes rng).1) ∧
    -- a response finishes the matching pending states and no others
    ∀ response rng', issuer.issue request credentialContext rng = (.ok response, rng') →
      ∀ pending : PendingIssue C, PendingIssue.Reachable issuer.publicKey pending →
        (pending.commitment = request.commitment →
          ∃ credential, pending.finish issuer.publicKey request response = .ok credential) ∧
        (pending.commitment ≠ request.commitment →
          pending.finish issuer.publicKey request response = .error .invalidRequest) ∧
        ∀ publicKey : PublicKey C, publicKey.context ≠ pending.issuerContext →
          pending.finish publicKey request response = .error .wrongIssuer := by
  refine ⟨?_, Issuer.issue_eq issuer request credentialContext rng, ?_, ?_, ?_⟩
  · intro e rng' h he
    obtain ⟨hchecked, hrng⟩ := Issuer.issue_refused h he
    exact ⟨hrng, hchecked⟩
  · intro hchecked
    rw [Issuer.issue_eq, hchecked]
    exact signCommitment_cases rfl
  · intro request' credentialContext' response response' rng' rng'' h h'
    have hsalt := (Issuer.issue_eq_ok h).1
    exact ⟨hsalt.trans (Issuer.issue_eq_ok h').1.symm, hsalt⟩
  · intro response rng' h pending hpending
    refine ⟨PendingIssue.finish_of_issue hspre hmatches h hpending.issuerContext_eq, ?_, ?_⟩
    · intro hne
      exact PendingIssue.finish_invalidRequest hpending.issuerContext_eq hne.symm response
    · intro publicKey hne
      exact PendingIssue.finish_wrongIssuer hne.symm request response

/-- On the reference issuer a prepared request passes the checks, is salted and finished. -/
theorem issuance_atomic_reference : ∃ (pending : PendingIssue Reference.crates)
    (request : IssueRequest Reference.crates) (response : IssueResponse Reference.crates)
    (credential : Credential Reference.crates) (rng : ℕ),
    (Reference.issuer.issue request ⟨Reference.zeros⟩ (0 : ℕ)) = (.ok response, rng) ∧
    response.salt = (Reference.crates.fillBytes (0 : ℕ)).1 ∧
    pending.finish Reference.publicKey request response = .ok credential := by
  obtain ⟨pending, request, rng, hprepare⟩ := PublicKey.prepareIssue_succeeds
    Reference.proveComplete Reference.publicKey ⟨Reference.zeros⟩ (0 : ℕ)
  obtain ⟨response, rng', hissue⟩ := Issuer.issue_succeeds Reference.verifyComplete
    Reference.spreSucceeds Reference.issuer hprepare (0 : ℕ)
  obtain ⟨-, -, -, hsalt, hfinish⟩ := issuance_atomic Reference.spreCorrect Reference.issuer
    Reference.issuer_matches request ⟨Reference.zeros⟩ (0 : ℕ)
  have hcommitment := (PublicKey.prepareIssue_eq_ok hprepare).2.2.1
  obtain ⟨credential, hcredential⟩ :=
    (hfinish response rng' hissue pending (.prepareIssue hprepare)).1 hcommitment.symm
  exact ⟨pending, request, response, credential, rng', hissue,
    (hsalt _ _ _ _ _ _ hissue hissue).2, hcredential⟩

end VoleArc
