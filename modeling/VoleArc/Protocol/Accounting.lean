import VoleArc.Protocol.Lifecycle

/-!
# VoleArc.Protocol.Accounting — runs of a verifier

Whatever a verifier is asked, it accepts each `(scope, tag)` pair at most once.  A tag is determined
by its opening and its nonce, so the acceptances of one scope are counted by the openings issued for
it and the nonces below the largest limit.
-/

namespace VoleArc

open Transition

variable {P : ArcParams} {K : Type} [Field K] {C : Crates P K} {S : Type} {T : TagStore S}

/-! ### Runs -/

/-- One call of `verify` and what it returned. -/
structure VerifyCall (C : Crates P K) where
  challenge : PresentationChallenge
  presentation : Presentation C
  result : Except Error VerifiedPresentation

/-- The pair an accepted call stored. -/
def VerifyCall.acceptedKey (call : VerifyCall C) : Option (Bytes32 × Bytes32) :=
  match call.result with
  | .ok verified => some (verified.scope, verified.tag)
  | .error _ => none

def Verifier.Step (T : TagStore S) (v : Verifier C S) (call : VerifyCall C) (v' : Verifier C S) :
    Prop :=
  v.verify T call.challenge call.presentation = (call.result, v')

theorem Verifier.Step.publicKey_eq {v v' : Verifier C S} {call : VerifyCall C}
    (h : Verifier.Step T v call v') : v'.publicKey = v.publicKey :=
  (Verifier.verify_cases h).1

/-- An accepted call had its proof checked for its own challenge and tag. -/
theorem Verifier.Step.verifyProofOnly {v v' : Verifier C S} {call : VerifyCall C}
    (h : Verifier.Step T v call v') {verified : VerifiedPresentation}
    (hok : call.result = .ok verified) :
    v.publicKey.verifyProofOnly call.challenge call.presentation = .ok verified := by
  obtain ⟨-, ⟨e, -, he, -⟩ | ⟨verified', inserted, hproof, -, hresult⟩⟩ := Verifier.verify_cases h
  · rw [hok] at he
    cases he
  · rw [hok] at hresult
    match inserted with
    | .error e => cases hresult
    | .ok false => cases hresult
    | .ok true => rw [Except.ok.inj hresult]; exact hproof

/-- What an accepted call stored. -/
theorem Verifier.Step.acceptedKey_eq {v v' : Verifier C S} {call : VerifyCall C}
    (h : Verifier.Step T v call v') (hok : call.result.isOk) :
    call.acceptedKey = some (presentationScope C v.publicKey.context
      call.challenge.credentialContext.digest call.challenge.presentationContext.digest,
        call.presentation.tag) := by
  cases hresult : call.result with
  | error e => rw [hresult] at hok; cases hok
  | ok verified =>
    have hverified := (PublicKey.verifyProofOnly_eq_ok.mp (h.verifyProofOnly hresult)).2.2
    rw [VerifyCall.acceptedKey, hresult, hverified]

/-- A call asks the store at most once, and accepts exactly what the store inserts. -/
theorem Verifier.Step.store {v v' : Verifier C S} {call : VerifyCall C}
    (h : Verifier.Step T v call v') :
    ∃ calls, Run T.Step v.store calls v'.store ∧
      calls.filterMap StoreCall.insertedKey = call.acceptedKey.toList := by
  obtain ⟨-, ⟨e, -, he, rfl⟩ | ⟨verified, inserted, -, hinsert, hresult⟩⟩ :=
    Verifier.verify_cases h
  · refine ⟨[], .nil, ?_⟩
    rw [VerifyCall.acceptedKey, he]
    rfl
  · refine ⟨[⟨verified.scope, verified.tag, inserted⟩], .single hinsert, ?_⟩
    rw [VerifyCall.acceptedKey, hresult]
    match inserted with
    | .error e => rfl
    | .ok false => rfl
    | .ok true => rfl

/-- Over an at-most-once store no pair is accepted twice. -/
theorem once_acceptedKey {v v' : Verifier C S} {calls : List (VerifyCall C)}
    (hstore : T.AtMostOnce v.store) (h : Run (Verifier.Step T) v calls v') :
    Once VerifyCall.acceptedKey calls := by
  have hsim : ∀ (u : Verifier C S) (call : VerifyCall C) (u' : Verifier C S),
      Verifier.Step T u call u' → ∃ storeCalls, Run T.Step u.store storeCalls u'.store ∧
        storeCalls.filterMap StoreCall.insertedKey = call.acceptedKey.toList :=
    fun _ _ _ hstep => hstep.store
  obtain ⟨storeCalls, hrun, hkeys⟩ := h.simulate hsim
  rw [Once, ← hkeys]
  exact hstore _ _ hrun

/-- Every call of a run was made on the run's public key. -/
theorem Verifier.forall_call {v v' : Verifier C S} {calls : List (VerifyCall C)}
    (h : Run (Verifier.Step T) v calls v') :
    ∀ call ∈ calls, ∃ u u' : Verifier C S, u.publicKey = v.publicKey ∧
      Verifier.Step T u call u' :=
  h.forall_label (I := fun u => u.publicKey = v.publicKey) rfl fun u _ u' hu hstep =>
    ⟨hstep.publicKey_eq.trans hu, u, u', hu, hstep⟩

/-- What a verifier with the process-local store answers to a valid presentation. -/
theorem Verifier.verify_memory {v : Verifier C MemoryTagStore} {challenge : PresentationChallenge}
    {presentation : Presentation C} {verified : VerifiedPresentation}
    (h : v.publicKey.verifyProofOnly challenge presentation = .ok verified) :
    v.verify memoryTagStore challenge presentation =
      (if (verified.scope, verified.tag) ∈ v.store then .error .tagAlreadyUsed else .ok verified,
        { v with store := insert (verified.scope, verified.tag) v.store }) := by
  rw [Verifier.verify, h]
  by_cases hin : (verified.scope, verified.tag) ∈ v.store
  · simp [memoryTagStore, MemoryTagStore.insertIfAbsent, hin]
  · simp [memoryTagStore, MemoryTagStore.insertIfAbsent, hin]

/-! ### Acceptances in a pair of scopes -/

/-- The accepted calls whose reconstructed scopes are these. -/
def acceptedIn (publicKey : PublicKey C) (credScope presScope : Bytes32)
    (calls : List (VerifyCall C)) : List (VerifyCall C) :=
  calls.filter fun call => call.result.isOk ∧
    credentialScope C publicKey.context call.challenge.credentialContext.digest = credScope ∧
    presentationScope C publicKey.context call.challenge.credentialContext.digest
      call.challenge.presentationContext.digest = presScope

theorem mem_acceptedIn {publicKey : PublicKey C} {credScope presScope : Bytes32}
    {calls : List (VerifyCall C)} {call : VerifyCall C} :
    call ∈ acceptedIn publicKey credScope presScope calls ↔ call ∈ calls ∧ call.result.isOk ∧
      credentialScope C publicKey.context call.challenge.credentialContext.digest = credScope ∧
      presentationScope C publicKey.context call.challenge.credentialContext.digest
        call.challenge.presentationContext.digest = presScope := by
  rw [acceptedIn, List.mem_filter, decide_eq_true_iff]

/-- The largest of a list of limits. -/
def largestLimit (limits : List U32) : ℕ := (limits.map BitVec.toNat).foldr max 0

theorem le_largestLimit {limits : List U32} {limit : U32} (h : limit ∈ limits) :
    limit.toNat ≤ largestLimit limits := by
  induction limits with
  | nil => cases h
  | cons head limits ih =>
    have hfold : largestLimit (head :: limits) = max head.toNat (largestLimit limits) := rfl
    rw [hfold]
    rcases List.mem_cons.mp h with rfl | h
    · exact le_max_left _ _
    · exact (ih h).trans (le_max_right _ _)

theorem largestLimit_le {limits : List U32} {n : ℕ} (h : ∀ limit ∈ limits, limit.toNat ≤ n) :
    largestLimit limits ≤ n := by
  induction limits with
  | nil => exact Nat.zero_le n
  | cons head limits ih =>
    exact max_le (h head List.mem_cons_self)
      (ih fun limit hl => h limit (List.mem_cons_of_mem _ hl))

/-- The assignment extracted from a call carries this opening. -/
def VerifyCall.Opens (extract : PresentationCircuit P → C.voleith.Proof → List Bool)
    (publicKey : PublicKey C) (call : VerifyCall C) (opening : Bytes32 × Bytes32) : Prop :=
  let circuit := publicKey.presentationCircuit call.challenge call.presentation.tag
  ∃ secrets : PresentationSecrets, secrets.signature.length = P.KN ∧
    extract circuit call.presentation.proof = circuit.witness secrets ∧
    (secrets.secret, secrets.hidingNonce) = opening

/-- An accepted call carries an opening that determines its tag by a nonce below its limit. -/
theorem exists_opening_of_accepted {extract : PresentationCircuit P → C.voleith.Proof → List Bool}
    (hextract : C.Extracts extract) {v v' : Verifier C S} {call : VerifyCall C}
    (h : Verifier.Step T v call v') (hok : call.result.isOk) :
    ∃ (opening : Bytes32 × Bytes32) (nonce : U32), call.Opens extract v.publicKey opening ∧
      call.presentation.tag = deriveTag opening.1 (presentationScope C v.publicKey.context
        call.challenge.credentialContext.digest call.challenge.presentationContext.digest) nonce ∧
      nonce < call.challenge.limit := by
  cases hresult : call.result with
  | error e => rw [hresult] at hok; cases hok
  | ok verified =>
    obtain ⟨hlimit, hverify, -⟩ := PublicKey.verifyProofOnly_eq_ok.mp (h.verifyProofOnly hresult)
    obtain ⟨secrets, hsig, hbits, -, htag, hlt⟩ := exists_secrets_of_satisfiedBy C.fields hlimit
      (hextract _ _ _ _ hverify)
    exact ⟨(secrets.secret, secrets.hidingNonce), secrets.presentationNonce,
      ⟨secrets, hsig, hbits, rfl⟩, htag, hlt⟩

/-- In any run over an at-most-once store, the acceptances in a pair of scopes number at most the
issued openings times the largest limit among them. -/
theorem scoped_accounting {store : S} (hstore : T.AtMostOnce store) (publicKey : PublicKey C)
    (credScope presScope : Bytes32)
    {extract : PresentationCircuit P → C.voleith.Proof → List Bool} (hextract : C.Extracts extract)
    {calls : List (VerifyCall C)} {final : Verifier C S}
    (hrun : Run (Verifier.Step T) ⟨publicKey, store⟩ calls final)
    (issued : Finset (Bytes32 × Bytes32))
    (hissued : ∀ call ∈ acceptedIn publicKey credScope presScope calls, ∀ opening,
      call.Opens extract publicKey opening → ∃ issuedOpening ∈ issued,
        credentialTarget P credScope opening.1 opening.2 =
          credentialTarget P credScope issuedOpening.1 issuedOpening.2)
    (hcollision : ∀ call ∈ acceptedIn publicKey credScope presScope calls, ∀ opening,
      call.Opens extract publicKey opening → ∀ issuedOpening ∈ issued,
        credentialTarget P credScope opening.1 opening.2 =
          credentialTarget P credScope issuedOpening.1 issuedOpening.2 → opening = issuedOpening) :
    memoryTagStore.AtMostOnce ∅ ∧
    (acceptedIn publicKey credScope presScope calls).length ≤ issued.card *
      largestLimit ((acceptedIn publicKey credScope presScope calls).map
        fun call => call.challenge.limit) := by
  refine ⟨memoryTagStore_atMostOnce, ?_⟩
  let accepted := acceptedIn publicKey credScope presScope calls
  let limit := largestLimit (accepted.map fun call => call.challenge.limit)
  have hcount := (once_acceptedKey hstore hrun).countP_le
    (fun call => call.result.isOk ∧
      credentialScope C publicKey.context call.challenge.credentialContext.digest = credScope ∧
      presentationScope C publicKey.context call.challenge.credentialContext.digest
        call.challenge.presentationContext.digest = presScope)
    (issued ×ˢ Finset.range limit)
    (fun p => (presScope, deriveTag p.1.1 presScope (BitVec.ofNat 32 p.2))) ?_
  · rw [Finset.card_product, Finset.card_range, List.countP_eq_length_filter] at hcount
    exact hcount
  · -- the key of an accepted call is that of an issued opening and a nonce below the limit
    intro call hmem hp
    have haccepted : call ∈ accepted := List.mem_filter.mpr ⟨hmem, hp⟩
    obtain ⟨-, hok, -, hscope⟩ := mem_acceptedIn.mp haccepted
    obtain ⟨u, u', hkey, hstep⟩ := Verifier.forall_call hrun call hmem
    obtain ⟨opening, nonce, hopens, htag, hlt⟩ := exists_opening_of_accepted hextract hstep hok
    rw [hkey] at hopens htag
    obtain ⟨issuedOpening, hin, htarget⟩ := hissued call haccepted opening hopens
    obtain rfl := hcollision call haccepted opening hopens issuedOpening hin htarget
    have hlimit : call.challenge.limit.toNat ≤ limit :=
      le_largestLimit (List.mem_map_of_mem haccepted)
    refine ⟨(opening, nonce.toNat), ?_, ?_⟩
    · exact Finset.mem_product.mpr ⟨hin, Finset.mem_range.mpr
        (Nat.lt_of_lt_of_le (BitVec.lt_def.mp hlt) hlimit)⟩
    · rw [hstep.acceptedKey_eq hok, hkey, hscope, htag, hscope, BitVec.ofNat_toNat,
        BitVec.setWidth_eq]

/-- The secrets of the reference credential's first use. -/
noncomputable def Reference.secrets : PresentationSecrets where
  signature := Reference.credential.signature
  secret := Reference.zeros
  hidingNonce := Reference.zeros
  salt := Reference.zeros
  presentationNonce := Reference.credential.nextNonce Reference.challenge.presentationContext

theorem Reference.proof_eq {presentation : Presentation Reference.crates}
    {after : Credential Reference.crates}
    (h : Reference.credential.PresentStep (Reference.useEvent presentation) after) :
    presentation.proof = (Reference.publicKey.presentationCircuit Reference.challenge
      presentation.tag).witness Reference.secrets := by
  obtain ⟨-, rng, rng', h⟩ := h
  rcases Credential.present_cases h with ⟨e, he, -⟩ | ⟨-, proof, hproof, hresult, -⟩
  · cases he
  · rw [show presentation = _ from Except.ok.inj hresult]
    exact (Reference.prove_eq_ok hproof).2

/-- The call that accepts a use of the reference credential. -/
noncomputable def Reference.acceptCall (presentation : Presentation Reference.crates) :
    VerifyCall Reference.crates where
  challenge := Reference.challenge
  presentation := presentation
  result := .ok
    { scope := presentationScope Reference.crates Reference.publicKey.context Reference.zeros
        Reference.zeros
      tag := presentation.tag }

theorem Reference.exists_verifyStep {presentation : Presentation Reference.crates}
    {after : Credential Reference.crates}
    (h : Reference.credential.PresentStep (Reference.useEvent presentation) after) :
    ∃ final, Verifier.Step memoryTagStore (Verifier.new Reference.publicKey)
      (Reference.acceptCall presentation) final := by
  obtain ⟨-, rng, rng', hpresent⟩ := h
  have hproof := Credential.present_verifies Reference.verifyComplete hpresent
  have hverify := Verifier.verify_memory (v := Verifier.new Reference.publicKey) hproof
  rw [Verifier.new_store, if_neg (Finset.notMem_empty _)] at hverify
  exact ⟨_, hverify⟩

/-- The first use of the reference credential is accepted, as one opening and limit one allow. -/
theorem scoped_accounting_reference : ∃ (calls : List (VerifyCall Reference.crates))
    (final : Verifier Reference.crates MemoryTagStore),
    Run (Verifier.Step memoryTagStore) (Verifier.new Reference.publicKey) calls final ∧
    ∃ credScope presScope, acceptedIn Reference.publicKey credScope presScope calls ≠ [] ∧
      (acceptedIn Reference.publicKey credScope presScope calls).length ≤ 1 := by
  obtain ⟨presentation, hstep⟩ := Reference.exists_presentStep
  obtain ⟨final, hverify⟩ := Reference.exists_verifyStep hstep
  let call := Reference.acceptCall presentation
  let credScope := credentialScope Reference.crates Reference.publicKey.context Reference.zeros
  let presScope := presentationScope Reference.crates Reference.publicKey.context Reference.zeros
    Reference.zeros
  have haccepted : acceptedIn Reference.publicKey credScope presScope [call] = [call] :=
    List.filter_cons_of_pos (decide_eq_true ⟨rfl, rfl, rfl⟩)
  -- whatever is extracted from the call is the reference opening
  have hopens : ∀ other ∈ acceptedIn Reference.publicKey credScope presScope [call], ∀ opening,
      other.Opens (fun _ proof => proof) Reference.publicKey opening →
        opening = (Reference.zeros, Reference.zeros) := by
    rintro other hother opening ⟨secrets, hsig, hbits, rfl⟩
    rw [haccepted] at hother
    obtain rfl := List.mem_singleton.mp hother
    have hproof := (Reference.proof_eq hstep).symm.trans hbits
    rw [← witness_injective _ Reference.credential_valid.length_signature hsig hproof]
    rfl
  have hbound :=
    (scoped_accounting memoryTagStore_atMostOnce Reference.publicKey credScope presScope
    Reference.extracts (.single hverify) {(Reference.zeros, Reference.zeros)}
    (fun other hother opening h => ⟨_, Finset.mem_singleton_self _,
      by rw [hopens other hother opening h]⟩)
    (fun other hother opening h issuedOpening hissued _ => by
      rw [hopens other hother opening h, Finset.mem_singleton.mp hissued])).2
  rw [haccepted] at hbound
  refine ⟨[call], final, .single hverify, credScope, presScope, by rw [haccepted]; simp, ?_⟩
  rw [haccepted]
  exact hbound

end VoleArc
