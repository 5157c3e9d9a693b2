import VoleArc.Protocol.Artifacts
import VoleArc.Store

/-!
# VoleArc.Protocol.Presenting — presenting a credential and verifying a presentation

The client's and the verifier's half of one scoped use, with one inversion lemma for each.
-/

namespace VoleArc

variable {P : ArcParams} {K : Type} [Field K] {C : Crates P K}

/-! ### The client -/

/-- Next hidden nonce for a presentation context, or zero if unused. -/
def Credential.nextNonce (self : Credential C) (context : PresentationContext) : U32 :=
  (self.nextNonces[context.digest]?).getD 0

/-- Number of scoped counter records retained by this credential. -/
def Credential.contextCount (self : Credential C) : ℕ := self.nextNonces.size

/-- The arguments of the call of `prove` in `present`, and the counter value behind its tag. -/
structure ProverCall (C : Crates P K) where
  params : C.voleith.Params
  statement : Bytes
  circuit : PresentationCircuit P
  witness : List Bool
  nonce : U32

/-- What `present` builds once its checks have passed. -/
def Credential.presentationCall (self : Credential C) (publicKey : PublicKey C)
    (challenge : PresentationChallenge) : ProverCall C :=
  let nonce := self.nextNonce challenge.presentationContext
  let credentialScope := credentialScope C self.issuerContext self.credentialContext.digest
  let scope := presentationScope C self.issuerContext self.credentialContext.digest
    challenge.presentationContext.digest
  let tag := deriveTag self.secret scope nonce
  let circuit : PresentationCircuit P :=
    { mayoSystem := publicKey.mayoSystem
      credentialScope := credentialScope
      presentationScope := scope
      presentationLimit := challenge.limit
      tag := tag }
  let secrets : PresentationSecrets :=
    { signature := self.signature
      secret := self.secret
      hidingNonce := self.hidingNonce
      salt := self.salt
      presentationNonce := nonce }
  { params := publicKey.profile.params C
    statement := presentationStatement P self.issuerContext challenge tag
    circuit := circuit
    witness := circuit.witness secrets
    nonce := nonce }

/-- `present` up to the call of `prove`. -/
def Credential.proverCall (self : Credential C) (publicKey : PublicKey C)
    (challenge : PresentationChallenge) : Except Error (ProverCall C) :=
  if self.issuerContext ≠ publicKey.context then .error .wrongIssuer
  else if self.credentialContext ≠ challenge.credentialContext then .error .wrongCredentialContext
  else if challenge.limit = 0 then .error .invalidPresentationLimit
  else
    let isNewContext := !self.nextNonces.contains challenge.presentationContext.digest
    if isNewContext ∧ self.nextNonces.size ≥ maxPresentationContexts then
      .error .tooManyPresentationContexts
    else if self.nextNonce challenge.presentationContext ≥ challenge.limit then
      .error .rateLimitReached
    else .ok (self.presentationCall publicKey challenge)

/-- Produce a proof and deterministic tag for one scoped use.  Returns the result together with
the credential and the generator after the call. -/
def Credential.present (self : Credential C) (publicKey : PublicKey C)
    (challenge : PresentationChallenge) (rng : C.Rng) :
    Except Error (Presentation C) × Credential C × C.Rng :=
  match self.proverCall publicKey challenge with
  | .error e => (.error e, self, rng)
  | .ok call =>
    match C.voleith.prove call.params call.statement (.presentation call.circuit)
      call.witness rng with
    | (.error e, rng) => (.error (proofError e), self, rng)
    | (.ok proof, rng) =>
      (.ok { tag := call.circuit.tag, proof := proof },
        { self with
          nextNonces :=
            self.nextNonces.insert challenge.presentationContext.digest (call.nonce + 1) },
        rng)

/-- The checks of `present`. -/
structure Credential.Allows (credential : Credential C) (publicKey : PublicKey C)
    (challenge : PresentationChallenge) : Prop where
  issuer : credential.issuerContext = publicKey.context
  credentialContext : credential.credentialContext = challenge.credentialContext
  limit_ne_zero : challenge.limit ≠ 0
  slot : challenge.presentationContext.digest ∈ credential.nextNonces ∨
    credential.contextCount < maxPresentationContexts
  nonce_lt : credential.nextNonce challenge.presentationContext < challenge.limit

/-- The prover is called exactly when all checks pass. -/
theorem Credential.proverCall_eq_ok {self : Credential C} {publicKey : PublicKey C}
    {challenge : PresentationChallenge} {call : ProverCall C} :
    self.proverCall publicKey challenge = .ok call ↔
      self.Allows publicKey challenge ∧ call = self.presentationCall publicKey challenge := by
  unfold Credential.proverCall
  constructor
  · intro h
    simp only at h
    split_ifs at h with hissuer hcred hlimit hslot hnonce
    refine ⟨⟨not_not.mp hissuer, not_not.mp hcred, hlimit, ?_, BitVec.not_le.mp hnonce⟩,
      (Except.ok.inj h).symm⟩
    by_cases hmem : challenge.presentationContext.digest ∈ self.nextNonces
    · exact .inl hmem
    · exact .inr (Nat.lt_of_not_ge fun hge => hslot
        ⟨by rw [Bool.eq_false_iff.mpr (mt Std.ExtTreeMap.contains_iff_mem.mp hmem)]; rfl, hge⟩)
  · rintro ⟨hallows, rfl⟩
    simp only
    rw [if_neg (not_not.mpr hallows.issuer), if_neg (not_not.mpr hallows.credentialContext),
      if_neg hallows.limit_ne_zero, if_neg, if_neg (BitVec.not_le.mpr hallows.nonce_lt)]
    rintro ⟨hnew, hfull⟩
    rcases hallows.slot with hmem | hlt
    · rw [Std.ExtTreeMap.contains_iff_mem.mpr hmem] at hnew
      exact Bool.noConfusion hnew
    · exact absurd hlt (Nat.not_lt.mpr hfull)

/-- The credential after a successful use in a context. -/
def Credential.advance (self : Credential C) (context : PresentationContext) : Credential C :=
  { self with nextNonces := self.nextNonces.insert context.digest (self.nextNonce context + 1) }

/-- The tag of a nonce in a context. -/
def Credential.tag (self : Credential C) (context : PresentationContext) (nonce : U32) : Bytes32 :=
  deriveTag self.secret (presentationScope C self.issuerContext self.credentialContext.digest
    context.digest) nonce

section Advance

variable (self : Credential C) (context : PresentationContext)

@[simp] theorem Credential.advance_issuerContext :
    (self.advance context).issuerContext = self.issuerContext := rfl
@[simp] theorem Credential.advance_credentialContext :
    (self.advance context).credentialContext = self.credentialContext := rfl
@[simp] theorem Credential.advance_signature :
    (self.advance context).signature = self.signature := rfl
@[simp] theorem Credential.advance_secret : (self.advance context).secret = self.secret := rfl
@[simp] theorem Credential.advance_hidingNonce :
    (self.advance context).hidingNonce = self.hidingNonce := rfl
@[simp] theorem Credential.advance_salt : (self.advance context).salt = self.salt := rfl

@[simp] theorem Credential.advance_tag (context' : PresentationContext) (nonce : U32) :
    (self.advance context).tag context' nonce = self.tag context' nonce := rfl

theorem Credential.advance_get (context' : PresentationContext) :
    (self.advance context).nextNonces[context'.digest]? =
      if context = context' then some (self.nextNonce context + 1)
      else self.nextNonces[context'.digest]? := by
  have hiff : compare context.digest context'.digest = .eq ↔ context = context' := by
    rw [Std.LawfulEqCmp.compare_eq_iff_eq]
    exact ⟨fun h => by cases context; cases context'; cases h; rfl, congrArg _⟩
  simp only [Credential.advance, Std.ExtTreeMap.getElem?_insert, hiff]

@[simp] theorem Credential.nextNonce_advance_self :
    (self.advance context).nextNonce context = self.nextNonce context + 1 := by
  simp [Credential.nextNonce, Credential.advance_get]

theorem Credential.nextNonce_advance_of_ne {context' : PresentationContext}
    (h : context ≠ context') :
    (self.advance context).nextNonce context' = self.nextNonce context' := by
  simp [Credential.nextNonce, Credential.advance_get, h]

end Advance

/-- The prover decides a call of `present`: its error is returned and the credential kept, or its
proof is returned with the tag of the call and the counter of the context is advanced. -/
structure Credential.Proves (credential : Credential C) (publicKey : PublicKey C)
    (challenge : PresentationChallenge) (call : ProverCall C) : Prop where
  failure : ∀ rng rng' e,
    C.voleith.prove call.params call.statement (.presentation call.circuit) call.witness rng =
        (.error e, rng') →
      credential.present publicKey challenge rng = (.error (proofError e), credential, rng')
  success : ∀ rng rng' proof,
    C.voleith.prove call.params call.statement (.presentation call.circuit) call.witness rng =
        (.ok proof, rng') →
      credential.present publicKey challenge rng = (.ok { tag := call.circuit.tag, proof := proof },
        credential.advance challenge.presentationContext, rng')

/-- A call that fails a check returns that error, without the prover. -/
theorem Credential.present_of_error {self : Credential C} {publicKey : PublicKey C}
    {challenge : PresentationChallenge} {e : Error}
    (h : self.proverCall publicKey challenge = .error e) (rng : C.Rng) :
    self.present publicKey challenge rng = (.error e, self, rng) := by
  rw [Credential.present, h]

/-- A call that passes all checks is decided by the prover. -/
theorem Credential.proves_of_ok {self : Credential C} {publicKey : PublicKey C}
    {challenge : PresentationChallenge} {call : ProverCall C}
    (h : self.proverCall publicKey challenge = .ok call) :
    self.Proves publicKey challenge call := by
  have hnonce : call.nonce = self.nextNonce challenge.presentationContext := by
    rw [(Credential.proverCall_eq_ok.mp h).2]
    rfl
  constructor
  · intro rng rng' e hprove
    rw [Credential.present, h]
    simp only [hprove]
  · intro rng rng' proof hprove
    rw [Credential.present, h]
    simp only [hprove, hnonce]
    rfl

/-- What one call of `present` does: it fails and leaves the credential alone, or all checks pass,
the prover succeeds, and the counter of its context is advanced. -/
theorem Credential.present_cases {self : Credential C} {publicKey : PublicKey C}
    {challenge : PresentationChallenge} {rng rng' : C.Rng} {result : Except Error (Presentation C)}
    {after : Credential C} (h : self.present publicKey challenge rng = (result, after, rng')) :
    (∃ e, result = .error e ∧ after = self) ∨
    (self.Allows publicKey challenge ∧ ∃ proof,
      (C.voleith.prove (publicKey.profile.params C)
        (self.presentationCall publicKey challenge).statement
        (.presentation (self.presentationCall publicKey challenge).circuit)
        (self.presentationCall publicKey challenge).witness rng).1 = .ok proof ∧
      result = .ok { tag := self.tag challenge.presentationContext
                              (self.nextNonce challenge.presentationContext), proof := proof } ∧
      after = self.advance challenge.presentationContext) := by
  cases hcall : self.proverCall publicKey challenge with
  | error e =>
    rw [Credential.present_of_error hcall] at h
    obtain ⟨hresult, hafter⟩ := Prod.mk.inj h
    exact .inl ⟨e, hresult.symm, (Prod.mk.inj hafter).1.symm⟩
  | ok call =>
    have hproves := Credential.proves_of_ok hcall
    obtain ⟨hallows, rfl⟩ := Credential.proverCall_eq_ok.mp hcall
    cases hprove : C.voleith.prove (publicKey.profile.params C)
        (self.presentationCall publicKey challenge).statement
        (.presentation (self.presentationCall publicKey challenge).circuit)
        (self.presentationCall publicKey challenge).witness rng with
    | mk answer rng'' =>
      cases answer with
      | error e =>
        rw [hproves.failure rng rng'' e hprove] at h
        obtain ⟨hresult, hafter⟩ := Prod.mk.inj h
        exact .inl ⟨_, hresult.symm, (Prod.mk.inj hafter).1.symm⟩
      | ok proof =>
        rw [hproves.success rng rng'' proof hprove] at h
        obtain ⟨hresult, hafter⟩ := Prod.mk.inj h
        exact .inr ⟨hallows, proof, rfl, hresult.symm, (Prod.mk.inj hafter).1.symm⟩

theorem Credential.present_ok {self : Credential C} {publicKey : PublicKey C}
    {challenge : PresentationChallenge} {rng rng' : C.Rng} {presentation : Presentation C}
    {after : Credential C}
    (h : self.present publicKey challenge rng = (.ok presentation, after, rng')) :
    self.Allows publicKey challenge ∧
      presentation.tag = self.tag challenge.presentationContext
        (self.nextNonce challenge.presentationContext) ∧
      after = self.advance challenge.presentationContext := by
  rcases Credential.present_cases h with ⟨e, he, -⟩ | ⟨hallows, proof, -, hresult, hafter⟩
  · cases he
  · rw [Except.ok.inj hresult]
    exact ⟨hallows, rfl, hafter⟩

/-! ### The verifier -/

/-- A valid proof and its exact durable storage key. -/
structure VerifiedPresentation where
  scope : Bytes32
  tag : Bytes32
  deriving DecidableEq

/-- The circuit a verifier rebuilds from a challenge and a tag. -/
def PublicKey.presentationCircuit (self : PublicKey C) (challenge : PresentationChallenge)
    (tag : Bytes32) : PresentationCircuit P where
  mayoSystem := self.mayoSystem
  credentialScope := credentialScope C self.context challenge.credentialContext.digest
  presentationScope := presentationScope C self.context challenge.credentialContext.digest
    challenge.presentationContext.digest
  presentationLimit := challenge.limit
  tag := tag

/-- Verify a presentation proof without consuming its deterministic tag. -/
def PublicKey.verifyProofOnly (self : PublicKey C) (challenge : PresentationChallenge)
    (presentation : Presentation C) : Except Error VerifiedPresentation :=
  if challenge.limit = 0 then .error .invalidPresentationLimit
  else
    let circuit := self.presentationCircuit challenge presentation.tag
    let statement := presentationStatement P self.context challenge presentation.tag
    match C.voleith.verify (self.profile.params C) statement (.presentation circuit)
        presentation.proof with
    | .error e => .error (proofError e)
    | .ok () => .ok { scope := circuit.presentationScope, tag := presentation.tag }

/-- Stateful verifier coupling proof verification to atomic tag consumption. -/
structure Verifier (C : Crates P K) (S : Type) where
  publicKey : PublicKey C
  store : S

/-- `Verifier::new`: an empty process-local store. -/
def Verifier.new (publicKey : PublicKey C) : Verifier C MemoryTagStore where
  publicKey := publicKey
  store := ∅

@[simp] theorem Verifier.new_store (publicKey : PublicKey C) :
    (Verifier.new publicKey).store = ∅ := rfl

/-- Verify a presentation and atomically consume its scoped tag. -/
def Verifier.verify {S : Type} (T : TagStore S) (self : Verifier C S)
    (challenge : PresentationChallenge) (presentation : Presentation C) :
    Except Error VerifiedPresentation × Verifier C S :=
  match self.publicKey.verifyProofOnly challenge presentation with
  | .error e => (.error e, self)
  | .ok verified =>
    match T.insertIfAbsent verified.scope verified.tag self.store with
    | (.error e, store) => (.error e, { self with store := store })
    | (.ok inserted, store) =>
      if !inserted then (.error .tagAlreadyUsed, { self with store := store })
      else (.ok verified, { self with store := store })

theorem PublicKey.verifyProofOnly_eq_ok {self : PublicKey C} {challenge : PresentationChallenge}
    {presentation : Presentation C} {verified : VerifiedPresentation} :
    self.verifyProofOnly challenge presentation = .ok verified ↔
      challenge.limit ≠ 0 ∧
      C.voleith.verify (self.profile.params C)
        (presentationStatement P self.context challenge presentation.tag)
        (.presentation (self.presentationCircuit challenge presentation.tag))
        presentation.proof = .ok () ∧
      verified = { scope := presentationScope C self.context challenge.credentialContext.digest
                              challenge.presentationContext.digest
                   tag := presentation.tag } := by
  unfold PublicKey.verifyProofOnly
  by_cases hlimit : challenge.limit = 0
  · rw [if_pos hlimit]
    exact iff_of_false (fun h => by cases h) fun h => h.1 hlimit
  · rw [if_neg hlimit, and_iff_right hlimit]
    simp only
    cases C.voleith.verify (self.profile.params C)
        (presentationStatement P self.context challenge presentation.tag)
        (.presentation (self.presentationCircuit challenge presentation.tag))
        presentation.proof with
    | error e => exact iff_of_false (fun h => by cases h) fun h => by cases h.1
    | ok u => exact ⟨fun h => ⟨rfl, (Except.ok.inj h).symm⟩, fun h => congrArg Except.ok h.2.symm⟩

/-- A presentation verifies under the key and the challenge it was made for. -/
theorem Credential.present_verifies (hverify : C.VerifyComplete) {self : Credential C}
    {publicKey : PublicKey C} {challenge : PresentationChallenge} {rng rng' : C.Rng}
    {presentation : Presentation C} {after : Credential C}
    (h : self.present publicKey challenge rng = (.ok presentation, after, rng')) :
    publicKey.verifyProofOnly challenge presentation =
      .ok { scope := presentationScope C publicKey.context challenge.credentialContext.digest
                        challenge.presentationContext.digest
            tag := presentation.tag } := by
  rcases Credential.present_cases h with ⟨e, he, -⟩ | ⟨hallows, proof, hproof, hresult, -⟩
  · cases he
  · obtain rfl := Except.ok.inj hresult
    refine PublicKey.verifyProofOnly_eq_ok.mpr ⟨hallows.limit_ne_zero, ?_, rfl⟩
    have hok := hverify _ _ _ _ _ _ hproof
    simp only [Credential.presentationCall] at hok
    rw [hallows.issuer, hallows.credentialContext] at hok
    rw [Credential.tag, hallows.issuer, hallows.credentialContext]
    exact hok

/-- What one call of `verify` does: it fails before the store is asked, or the proof is accepted
and the answer of the store decides. -/
theorem Verifier.verify_cases {S : Type} {T : TagStore S} {self after : Verifier C S}
    {challenge : PresentationChallenge} {presentation : Presentation C}
    {result : Except Error VerifiedPresentation}
    (h : self.verify T challenge presentation = (result, after)) :
    after.publicKey = self.publicKey ∧
    ((∃ e, self.publicKey.verifyProofOnly challenge presentation = .error e ∧ result = .error e ∧
        after = self) ∨
      ∃ verified inserted, self.publicKey.verifyProofOnly challenge presentation = .ok verified ∧
        T.insertIfAbsent verified.scope verified.tag self.store = (inserted, after.store) ∧
        result = (match inserted with
          | .error e => .error e
          | .ok false => .error .tagAlreadyUsed
          | .ok true => .ok verified)) := by
  unfold Verifier.verify at h
  split at h
  · rename_i e he
    obtain ⟨rfl, rfl⟩ := Prod.mk.inj h
    exact ⟨rfl, .inl ⟨e, he, rfl, rfl⟩⟩
  · rename_i verified hverified
    split at h
    · rename_i e store hins
      obtain ⟨rfl, rfl⟩ := Prod.mk.inj h
      exact ⟨rfl, .inr ⟨verified, .error e, hverified, hins, rfl⟩⟩
    · rename_i inserted store hins
      cases inserted with
      | false =>
        obtain ⟨rfl, rfl⟩ := Prod.mk.inj h
        exact ⟨rfl, .inr ⟨verified, .ok false, hverified, hins, rfl⟩⟩
      | true =>
        obtain ⟨rfl, rfl⟩ := Prod.mk.inj h
        exact ⟨rfl, .inr ⟨verified, .ok true, hverified, hins, rfl⟩⟩

end VoleArc
