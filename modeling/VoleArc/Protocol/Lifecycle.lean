import VoleArc.Protocol.Counters
import VoleArc.Protocol.Issuance
import VoleArc.Satisfaction
import VoleArc.Reference

/-!
# VoleArc.Protocol.Lifecycle — what every reachable credential satisfies

`present` does not check the MAYO relation again.  It holds because both constructors establish
`Credential.Valid` and every call of `present` keeps it.
-/

namespace VoleArc

open Transition

variable {P : ArcParams} {K : Type} [Field K] {C : Crates P K}

/-- Public keys with the same context hold the same MAYO map. -/
def Crates.ContextsBind (C : Crates P K) : Prop :=
  ∀ a b : PublicKey C, a.context = b.context → C.mayo.eval a.mayo = C.mayo.eval b.mayo

/-- Credentials from `finish` and `from_bytes`, and what calls of `present` make of them. -/
inductive Credential.Reachable : Credential C → Prop
  | finish {owner publicKey : PublicKey C} {pending : PendingIssue C} {request : IssueRequest C}
      {response : IssueResponse C} {credential : Credential C}
      (hpending : PendingIssue.Reachable owner pending) (hresponse : response.Reachable)
      (h : pending.finish publicKey request response = .ok credential) :
      Credential.Reachable credential
  | fromBytes {publicKey : PublicKey C} {bytes : Bytes} {credential : Credential C}
      (h : Credential.fromBytes publicKey bytes = .ok credential) : Credential.Reachable credential
  | present {credential after : Credential C} {event : PresentEvent C}
      (hreach : Credential.Reachable credential) (h : credential.PresentStep event after) :
      Credential.Reachable after

/-- Reachable from constructors called with this key. -/
inductive Credential.ReachableUnder (publicKey : PublicKey C) : Credential C → Prop
  | finish {owner : PublicKey C} {pending : PendingIssue C} {request : IssueRequest C}
      {response : IssueResponse C} {credential : Credential C}
      (hpending : PendingIssue.Reachable owner pending) (hresponse : response.Reachable)
      (h : pending.finish publicKey request response = .ok credential) :
      Credential.ReachableUnder publicKey credential
  | fromBytes {bytes : Bytes} {credential : Credential C}
      (h : Credential.fromBytes publicKey bytes = .ok credential) :
      Credential.ReachableUnder publicKey credential
  | present {credential after : Credential C} {event : PresentEvent C}
      (hreach : Credential.ReachableUnder publicKey credential)
      (h : credential.PresentStep event after) : Credential.ReachableUnder publicKey after

/-- Every reachable credential is reachable under the key its constructor was called with. -/
theorem Credential.Reachable.exists_key {credential : Credential C} (h : credential.Reachable) :
    ∃ publicKey, credential.ReachableUnder publicKey := by
  induction h with
  | @finish _ publicKey _ _ _ _ hpending hresponse h =>
    exact ⟨publicKey, .finish hpending hresponse h⟩
  | @fromBytes publicKey _ _ h => exact ⟨publicKey, .fromBytes h⟩
  | present _ h ih =>
    obtain ⟨publicKey, hreach⟩ := ih
    exact ⟨publicKey, .present hreach h⟩

theorem Credential.Authentic.congr (hmaps : C.ContextsBind) {publicKey publicKey' : PublicKey C}
    {credential : Credential C} (h : credential.Authentic publicKey)
    (hcontext : publicKey'.context = publicKey.context) : credential.Authentic publicKey' :=
  ⟨h.1.trans hcontext.symm, by rw [hmaps publicKey' publicKey hcontext]; exact h.2⟩

/-- A finished credential is valid under the key it was finished with. -/
theorem PendingIssue.valid_of_finish (hspre : C.mayo.SpreLength P) {publicKey : PublicKey C}
    {pending : PendingIssue C} {request : IssueRequest C} {response : IssueResponse C}
    {credential : Credential C} (hresponse : response.Reachable)
    (h : pending.finish publicKey request response = .ok credential) :
    credential.Valid publicKey := by
  obtain ⟨hissuer, -, heval, rfl⟩ := PendingIssue.finish_eq_ok.mp h
  rw [pending.commitment_eq] at heval
  exact ⟨hresponse.length_signature hspre, CounterMap.canonical_empty, hissuer, heval⟩

/-- Advancing a counter that the checks of `present` let through keeps the counters canonical. -/
theorem Credential.Allows.canonical_advance {credential : Credential C} {publicKey : PublicKey C}
    {challenge : PresentationChallenge} (h : credential.Allows publicKey challenge)
    (hcounters : credential.nextNonces.Canonical) :
    (credential.advance challenge.presentationContext).nextNonces.Canonical where
  size_le := by
    have hsize := hcounters.size_le
    simp only [Credential.advance, Std.ExtTreeMap.size_insert]
    split_ifs with hmem
    · exact hsize
    · rcases h.slot with hslot | hslot
      · exact absurd hslot hmem
      · exact hslot
  ne_zero := by
    intro context n hget
    have hcases := credential.advance_get challenge.presentationContext ⟨context⟩
    rw [hget] at hcases
    split_ifs at hcases with hcontext
    · rintro rfl
      have hnat := toNat_add_one_of_lt h.nonce_lt
      rw [← Option.some.inj hcases] at hnat
      simp at hnat
    · exact hcounters.ne_zero context n hcases.symm

/-- `present` keeps a credential valid. -/
theorem Credential.PresentStep.valid {credential after : Credential C} {event : PresentEvent C}
    (h : credential.PresentStep event after) {publicKey : PublicKey C}
    (hvalid : credential.Valid publicKey) : after.Valid publicKey := by
  obtain ⟨-, rng, rng', h⟩ := h
  rcases Credential.present_cases h with ⟨-, -, rfl⟩ | ⟨hallows, -, -, -, rfl⟩
  · exact hvalid
  · exact ⟨hvalid.length_signature, hallows.canonical_advance hvalid.counters, hvalid.authentic⟩

theorem Credential.ReachableUnder.valid (hspre : C.mayo.SpreLength P) {publicKey : PublicKey C}
    {credential : Credential C} (h : credential.ReachableUnder publicKey) :
    credential.Valid publicKey := by
  induction h with
  | finish _ hresponse h => exact PendingIssue.valid_of_finish hspre hresponse h
  | fromBytes h => exact (Credential.fromBytes_eq_ok_iff.mp h).2
  | present _ h ih => exact h.valid ih

/-- A reachable credential is valid under every key of its issuer context. -/
theorem Credential.Reachable.valid (hmaps : C.ContextsBind) (hspre : C.mayo.SpreLength P)
    {credential : Credential C} (h : credential.Reachable) {publicKey : PublicKey C}
    (hkey : publicKey.context = credential.issuerContext) : credential.Valid publicKey := by
  obtain ⟨key, hunder⟩ := h.exists_key
  have hvalid := hunder.valid hspre
  exact ⟨hvalid.length_signature, hvalid.counters,
    hvalid.authentic.congr hmaps (hkey.trans hvalid.authentic.1)⟩

/-- The prover gets a satisfying assignment from every valid credential. -/
theorem Credential.Valid.satisfiedBy (heval : C.EvalWhipped) {publicKey : PublicKey C}
    {credential : Credential C} (h : credential.Valid publicKey) {challenge : PresentationChallenge}
    (hallows : credential.Allows publicKey challenge) :
    (AnyCircuit.presentation (credential.presentationCall publicKey challenge).circuit).SatisfiedBy
      C.fields (credential.presentationCall publicKey challenge).witness := by
  refine satisfiedBy_presentation C.fields _ hallows.limit_ne_zero h.length_signature ?_
  refine ⟨?_, rfl, hallows.nonce_lt⟩
  have hmap := heval publicKey.mayo credential.signature h.length_signature
  rw [h.authentic.2] at hmap
  refine (congrArg (fun sys : MayoFormSystem => sys.eval C.fields credential.signature)
    publicKey.mayoSystem_eq).trans (Option.some.inj hmap).symm

/-- A valid credential presents successfully whenever the checks pass. -/
theorem Credential.Valid.present_succeeds (hprove : C.ProveComplete) (heval : C.EvalWhipped)
    {publicKey : PublicKey C} {credential : Credential C} (h : credential.Valid publicKey)
    {challenge : PresentationChallenge} (hallows : credential.Allows publicKey challenge)
    (rng : C.Rng) :
    ∃ presentation rng', credential.present publicKey challenge rng =
      (.ok presentation, credential.advance challenge.presentationContext, rng') := by
  obtain ⟨proof, hproof⟩ := hprove (publicKey.profile.params C)
    (credential.presentationCall publicKey challenge).statement _ _ rng
      (h.satisfiedBy heval hallows)
  have hproves := Credential.proves_of_ok (Credential.proverCall_eq_ok.mpr ⟨hallows, rfl⟩)
  exact ⟨_, _, hproves.success rng _ proof (Prod.ext hproof rfl)⟩

/-! ### The reference credential in use -/

/-- The reference credential, decoded from its own encoding. -/
theorem Reference.credential_reachable : Reference.credential.Reachable :=
  .fromBytes Reference.credential_valid.fromBytes_toBytes

theorem Reference.credential_reachableUnder :
    Reference.credential.ReachableUnder Reference.publicKey :=
  .fromBytes Reference.credential_valid.fromBytes_toBytes

theorem Reference.contextsBind : Reference.crates.ContextsBind :=
  fun a b _ => Reference.eval_key a.mayo b.mayo

theorem Reference.allows : Reference.credential.Allows Reference.publicKey Reference.challenge where
  issuer := rfl
  credentialContext := rfl
  limit_ne_zero := by decide
  slot := .inr (by decide)
  nonce_lt := by decide

theorem Reference.allows_other :
    Reference.credential.Allows Reference.publicKey Reference.otherChallenge where
  issuer := rfl
  credentialContext := rfl
  limit_ne_zero := by decide
  slot := .inr (by decide)
  nonce_lt := by decide

/-- A successful call of `present` on the reference credential. -/
noncomputable def Reference.useEvent (presentation : Presentation Reference.crates) :
    PresentEvent Reference.crates :=
  ⟨Reference.credential, Reference.publicKey, Reference.challenge, .ok presentation⟩

/-- Every use the checks let through succeeds. -/
theorem Reference.exists_use {credential : Credential Reference.crates}
    (hvalid : credential.Valid Reference.publicKey) {challenge : PresentationChallenge}
    (hallows : credential.Allows Reference.publicKey challenge) : ∃ presentation,
    credential.PresentStep ⟨credential, Reference.publicKey, challenge, .ok presentation⟩
      (credential.advance challenge.presentationContext) := by
  obtain ⟨presentation, rng', h⟩ := hvalid.present_succeeds Reference.proveComplete
    Reference.evalWhipped hallows (0 : ℕ)
  exact ⟨presentation, rfl, _, _, h⟩

theorem Reference.exists_presentStep : ∃ presentation,
    Reference.credential.PresentStep (Reference.useEvent presentation)
      (Reference.credential.advance Reference.challenge.presentationContext) :=
  Reference.exists_use Reference.credential_valid Reference.allows

/-- The reference credential after that call. -/
noncomputable def Reference.usedCredential : Credential Reference.crates :=
  Reference.credential.advance Reference.challenge.presentationContext

/-- A second use in the same context. -/
def Reference.secondChallenge : PresentationChallenge :=
  { Reference.challenge with limit := 2 }

theorem Reference.nextNonce_used :
    Reference.usedCredential.nextNonce Reference.secondChallenge.presentationContext = 1 :=
  (Credential.nextNonce_advance_self _ _).trans (by decide)

theorem Reference.allows_second :
    Reference.usedCredential.Allows Reference.publicKey Reference.secondChallenge where
  issuer := rfl
  credentialContext := rfl
  limit_ne_zero := by decide
  slot := .inl (Std.ExtTreeMap.mem_insert_self)
  nonce_lt := by rw [Reference.nextNonce_used]; decide

theorem Reference.used_valid : Reference.usedCredential.Valid Reference.publicKey := by
  obtain ⟨presentation, hstep⟩ := Reference.exists_presentStep
  exact hstep.valid Reference.credential_valid

/-- The second successful call. -/
noncomputable def Reference.secondEvent (presentation : Presentation Reference.crates) :
    PresentEvent Reference.crates :=
  ⟨Reference.usedCredential, Reference.publicKey, Reference.secondChallenge, .ok presentation⟩

theorem Reference.exists_secondStep : ∃ presentation,
    Reference.usedCredential.PresentStep (Reference.secondEvent presentation)
      (Reference.usedCredential.advance Reference.secondChallenge.presentationContext) :=
  Reference.exists_use Reference.used_valid Reference.allows_second

/-! ### Reachable credentials -/

/-- Every reachable credential is authentic under the key of its issuer, has at most 4096 non-zero
counters and decodes from its own encoding; so a call of `present`, under any key, fails a check or
is decided by the prover on a satisfied witness. -/
theorem reachable_credential (hmaps : C.ContextsBind) (hspre : C.mayo.SpreLength P)
    (heval : C.EvalWhipped) {credential : Credential C} (h : credential.Reachable)
    (publicKey : PublicKey C) (hkey : publicKey.context = credential.issuerContext) :
    publicKey.mayoSystem.eval C.fields credential.signature = signedCredentialTarget P
      (credentialTarget P (credentialScope C credential.issuerContext
        credential.credentialContext.digest) credential.secret credential.hidingNonce)
          credential.salt ∧
    credential.nextNonces.size ≤ 4096 ∧
    (∀ (context : Bytes32) (n : U32), credential.nextNonces[context]? = some n → 1 ≤ n) ∧
    Credential.fromBytes publicKey credential.toBytes = .ok credential ∧
    ∀ (key : PublicKey C) (challenge : PresentationChallenge),
      (∀ e, credential.proverCall key challenge = .error e → ∀ rng : C.Rng,
        credential.present key challenge rng = (.error e, credential, rng)) ∧
      ∀ call, credential.proverCall key challenge = .ok call →
        credential.Proves key challenge call ∧
        (AnyCircuit.presentation call.circuit).SatisfiedBy C.fields call.witness := by
  have hvalid := h.valid hmaps hspre hkey
  refine ⟨?_, hvalid.counters.size_le, ?_, hvalid.fromBytes_toBytes,
    fun key challenge => ⟨fun e => Credential.present_of_error, ?_⟩⟩
  · have hmap := heval publicKey.mayo credential.signature hvalid.length_signature
    rw [hvalid.authentic.2] at hmap
    exact (congrArg (fun sys : MayoFormSystem => sys.eval C.fields credential.signature)
      publicKey.mayoSystem_eq).trans (Option.some.inj hmap).symm
  · intro context n hget
    have hne := hvalid.counters.ne_zero context n hget
    bv_omega
  · intro call hcall
    refine ⟨Credential.proves_of_ok hcall, ?_⟩
    obtain ⟨hallows, rfl⟩ := Credential.proverCall_eq_ok.mp hcall
    exact (h.valid hmaps hspre hallows.issuer.symm).satisfiedBy heval hallows

/-- After a use, the reference credential restores from its encoding with its counter, and the
prover decides a second use on a satisfied witness. -/
theorem reachable_credential_reference : ∃ presentation call,
    Reference.credential.PresentStep (Reference.useEvent presentation) Reference.usedCredential ∧
    Reference.usedCredential.nextNonce Reference.secondChallenge.presentationContext = 1 ∧
    Credential.fromBytes Reference.publicKey Reference.usedCredential.toBytes =
      .ok Reference.usedCredential ∧
    Reference.usedCredential.proverCall Reference.publicKey Reference.secondChallenge = .ok call ∧
    Reference.usedCredential.Proves Reference.publicKey Reference.secondChallenge call ∧
    (AnyCircuit.presentation call.circuit).SatisfiedBy Reference.crates.fields call.witness := by
  obtain ⟨presentation, hstep⟩ := Reference.exists_presentStep
  have hcall := Credential.proverCall_eq_ok.mpr ⟨Reference.allows_second, rfl⟩
  obtain ⟨-, -, -, hrestored, hcalls⟩ := reachable_credential Reference.contextsBind
    Reference.spreLength Reference.evalWhipped (.present Reference.credential_reachable hstep)
    Reference.publicKey rfl
  exact ⟨presentation, _, hstep, Reference.nextNonce_used, hrestored, hcall,
    (hcalls Reference.publicKey Reference.secondChallenge).2 _ hcall⟩

end VoleArc
