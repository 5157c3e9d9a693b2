import VoleArc.Protocol.Accounting

/-!
# VoleArc.Protocol.Cloning — rollback, clones and re-issued credentials of one opening

Any number of credentials may hold one opening, with any signatures, salts and counters.  Their tags
are determined by the opening's secret, the scope and a nonce below the limit, so a verifier whose
store is not rolled back accepts no more of them than the largest limit presented for the scope.
-/

namespace VoleArc

open Transition

variable {P : ArcParams} {K : Type} [Field K] {C : Crates P K} {S : Type}

/-! ### Holders of one opening -/

/-- The issuer, the credential context and the hidden values of an opening. -/
structure Opening where
  issuerContext : Bytes32
  credentialContext : CredentialContext
  secret : Bytes32
  hidingNonce : Bytes32

/-- The credential holds the opening; its signature, salt and counters are arbitrary. -/
structure Credential.Holds (credential : Credential C) (opening : Opening) : Prop where
  issuerContext : credential.issuerContext = opening.issuerContext
  credentialContext : credential.credentialContext = opening.credentialContext
  secret : credential.secret = opening.secret
  hidingNonce : credential.hidingNonce = opening.hidingNonce

/-- Every response to a request finishes to a holder of the pending opening. -/
theorem PendingIssue.holds_of_finish {pending : PendingIssue C} {publicKey : PublicKey C}
    {request : IssueRequest C} {response : IssueResponse C} {credential : Credential C}
    (h : pending.finish publicKey request response = .ok credential) :
    credential.Holds ⟨pending.issuerContext, pending.credentialContext, pending.secret,
      pending.hidingNonce⟩ := by
  obtain ⟨-, -, -, rfl⟩ := PendingIssue.finish_eq_ok.mp h
  exact ⟨rfl, rfl, rfl, rfl⟩

theorem Credential.Holds.presentStep {credential after : Credential C} {opening : Opening}
    {event : PresentEvent C} (h : credential.Holds opening)
    (hstep : credential.PresentStep event after) : after.Holds opening := by
  obtain ⟨-, rng, rng', hpresent⟩ := hstep
  rcases Credential.present_cases hpresent with ⟨-, -, rfl⟩ | ⟨-, -, -, -, rfl⟩
  · exact h
  · exact ⟨h.issuerContext, h.credentialContext, h.secret, h.hidingNonce⟩

/-- The scope of a presentation context under an opening. -/
def Opening.scope (C : Crates P K) (opening : Opening) (context : PresentationContext) : Bytes32 :=
  presentationScope C opening.issuerContext opening.credentialContext.digest context.digest

/-- A success of any holder uses the opening's tag of a nonce below the limit. -/
theorem Credential.Holds.tag_eq {credential after : Credential C} {opening : Opening}
    {event : PresentEvent C} (h : credential.Holds opening)
    (hstep : credential.PresentStep event after) {presentation : Presentation C}
    (hok : event.result = .ok presentation) :
    event.challenge.credentialContext = opening.credentialContext ∧
      ∃ nonce < event.challenge.limit, presentation.tag = deriveTag opening.secret
        (opening.scope C event.challenge.presentationContext) nonce := by
  obtain ⟨-, rng, rng', hpresent⟩ := hstep
  rw [hok] at hpresent
  obtain ⟨hallows, htag, -⟩ := Credential.present_ok hpresent
  refine ⟨hallows.credentialContext.symm.trans h.credentialContext, _, hallows.nonce_lt, ?_⟩
  rw [htag, Credential.tag, h.secret, h.issuerContext, h.credentialContext, Opening.scope]

/-! ### The family and its verifier -/

/-- The live copies, what they produced, and a verifier. -/
structure Family (C : Crates P K) (S : Type) where
  members : List (Credential C)
  produced : List (PresentationChallenge × Presentation C)
  verifier : Verifier C S

inductive FamilyAction (C : Crates P K) where
  | join (credential : Credential C)
  | present (index : ℕ) (event : PresentEvent C)
  | verify (call : VerifyCall C)

/-- What a `present` call produced. -/
def producedBy (event : PresentEvent C) : List (PresentationChallenge × Presentation C) :=
  match event.result with
  | .ok presentation => [(event.challenge, presentation)]
  | .error _ => []

/-- Holders of the opening join at any time, any member presents, and produced presentations are
verified in the contexts they were produced for, under any binding and limit. -/
inductive Family.Step (T : TagStore S) (opening : Opening) :
    Family C S → FamilyAction C → Family C S → Prop
  | join {s : Family C S} {credential : Credential C} (h : credential.Holds opening) :
      Family.Step T opening s (.join credential) { s with members := s.members ++ [credential] }
  | present {s : Family C S} {index : ℕ} {credential after : Credential C} {event : PresentEvent C}
      (hmember : s.members[index]? = some credential) (h : credential.PresentStep event after) :
      Family.Step T opening s (.present index event)
        { s with
          members := s.members.set index after
          produced := s.produced ++ producedBy event }
  | verify {s : Family C S} {challenge : PresentationChallenge} {call : VerifyCall C}
      {verifier : Verifier C S} (hproduced : (challenge, call.presentation) ∈ s.produced)
      (hcredential : call.challenge.credentialContext = challenge.credentialContext)
      (hcontext : call.challenge.presentationContext = challenge.presentationContext)
      (h : Verifier.Step T s.verifier call verifier) :
      Family.Step T opening s (.verify call) { s with verifier := verifier }

/-- The pair an action made the verifier store. -/
def FamilyAction.acceptedKey : FamilyAction C → Option (Bytes32 × Bytes32)
  | .verify call => call.acceptedKey
  | _ => none

/-- Limits of the successful `present` calls in a scope. -/
def limitsPresented (opening : Opening) (presScope : Bytes32) (trace : List (FamilyAction C)) :
    List U32 :=
  trace.filterMap fun
    | .present _ event =>
      if event.result.isOk ∧ opening.scope C event.challenge.presentationContext = presScope then
        some event.challenge.limit
      else none
    | _ => none

theorem mem_limitsPresented {opening : Opening} {presScope : Bytes32}
    {trace : List (FamilyAction C)} {limit : U32} :
    limit ∈ limitsPresented opening presScope trace ↔ ∃ index event,
      FamilyAction.present index event ∈ trace ∧ event.result.isOk ∧
        opening.scope C event.challenge.presentationContext = presScope ∧
        event.challenge.limit = limit := by
  rw [limitsPresented, List.mem_filterMap]
  constructor
  · rintro ⟨action, hmem, haction⟩
    cases action with
    | join credential => cases haction
    | verify call => cases haction
    | present index event =>
      simp only at haction
      split_ifs at haction with h
      exact ⟨index, event, hmem, h.1, h.2, Option.some.inj haction⟩
  · rintro ⟨index, event, hmem, hok, hscope, rfl⟩
    exact ⟨_, hmem, if_pos ⟨hok, hscope⟩⟩

/-- The verification of a trace is an acceptance in this scope. -/
def FamilyAction.acceptedIn (publicKey : PublicKey C) (presScope : Bytes32) :
    FamilyAction C → Bool
  | .verify call => call.result.isOk ∧ presentationScope C publicKey.context
      call.challenge.credentialContext.digest call.challenge.presentationContext.digest = presScope
  | _ => false

/-! ### Runs -/

/-- A presentation of the trace: its tag is the opening's tag of a nonce below a limit that was
presented for its scope. -/
def TagPresented (opening : Opening) (trace : List (FamilyAction C))
    (context : PresentationContext) (presentation : Presentation C) : Prop :=
  ∃ limit ∈ limitsPresented opening (opening.scope C context) trace, ∃ nonce < limit,
    presentation.tag = deriveTag opening.secret (opening.scope C context) nonce

theorem TagPresented.concat {opening : Opening} {trace : List (FamilyAction C)}
    {context : PresentationContext} {presentation : Presentation C}
    (h : TagPresented opening trace context presentation) (action : FamilyAction C) :
    TagPresented opening (trace ++ [action]) context presentation := by
  obtain ⟨limit, hlimit, hrest⟩ := h
  obtain ⟨index, event, hmem, hlimit⟩ := mem_limitsPresented.mp hlimit
  exact ⟨limit, mem_limitsPresented.mpr ⟨index, event, List.mem_append_left _ hmem, hlimit⟩, hrest⟩

/-- What holds of a family and its history. -/
structure Family.Inv (publicKey : PublicKey C) (opening : Opening) (trace : List (FamilyAction C))
    (s : Family C S) : Prop where
  publicKey_eq : s.verifier.publicKey = publicKey
  holds : ∀ credential ∈ s.members, credential.Holds opening
  produced : ∀ p ∈ s.produced, p.1.credentialContext = opening.credentialContext ∧
    TagPresented opening trace p.1.presentationContext p.2
  presented : ∀ index event, FamilyAction.present index event ∈ trace →
    ∀ presentation, event.result = .ok presentation → ∃ nonce < event.challenge.limit,
      presentation.tag = deriveTag opening.secret
        (opening.scope C event.challenge.presentationContext) nonce
  verified : ∀ call, FamilyAction.verify call ∈ trace → call.result.isOk →
    call.challenge.credentialContext = opening.credentialContext ∧
    TagPresented opening trace call.challenge.presentationContext call.presentation ∧
    call.acceptedKey = some (presentationScope C publicKey.context
      call.challenge.credentialContext.digest call.challenge.presentationContext.digest,
        call.presentation.tag)

theorem Family.Inv.join {publicKey : PublicKey C} {opening : Opening}
    {trace : List (FamilyAction C)} {s : Family C S} (h : Family.Inv publicKey opening trace s)
    {credential : Credential C} (hholds : credential.Holds opening) :
    Family.Inv publicKey opening (trace ++ [.join credential])
      { s with members := s.members ++ [credential] } where
  publicKey_eq := h.publicKey_eq
  holds := by
    intro member hmember
    rcases List.mem_append.mp hmember with hmember | hmember
    · exact h.holds member hmember
    · rw [List.mem_singleton.mp hmember]
      exact hholds
  produced p hp := ⟨(h.produced p hp).1, (h.produced p hp).2.concat _⟩
  presented index event hevent := by
    simp only [List.mem_append, List.mem_singleton, reduceCtorEq, or_false] at hevent
    exact h.presented index event hevent
  verified call hcall hok := by
    simp only [List.mem_append, List.mem_singleton, reduceCtorEq, or_false] at hcall
    obtain ⟨hcredential, htag, hkey⟩ := h.verified call hcall hok
    exact ⟨hcredential, htag.concat _, hkey⟩

theorem Family.Inv.present {publicKey : PublicKey C} {opening : Opening}
    {trace : List (FamilyAction C)} {s : Family C S} (h : Family.Inv publicKey opening trace s)
    {index : ℕ} {credential after : Credential C} {event : PresentEvent C}
    (hmember : s.members[index]? = some credential) (hstep : credential.PresentStep event after) :
    Family.Inv publicKey opening (trace ++ [.present index event])
      { s with
        members := s.members.set index after
        produced := s.produced ++ producedBy event } := by
  have hholds := h.holds credential (List.mem_of_getElem? hmember)
  refine ⟨h.publicKey_eq, ?_, ?_, ?_, ?_⟩
  · intro member hin
    rcases List.mem_or_eq_of_mem_set hin with hin | rfl
    · exact h.holds member hin
    · exact hholds.presentStep hstep
  · intro p hp
    rcases List.mem_append.mp hp with hp | hp
    · exact ⟨(h.produced p hp).1, (h.produced p hp).2.concat _⟩
    · cases hresult : event.result with
      | error e =>
        rw [producedBy, hresult] at hp
        cases hp
      | ok presentation =>
        rw [producedBy, hresult] at hp
        obtain rfl := List.mem_singleton.mp hp
        obtain ⟨hcredential, nonce, hlt, htag⟩ := hholds.tag_eq hstep hresult
        refine ⟨hcredential, event.challenge.limit, mem_limitsPresented.mpr ⟨index, event,
          List.mem_append_right _ (List.mem_singleton_self _), ?_, rfl, rfl⟩, nonce, hlt, htag⟩
        rw [hresult]
        rfl
  · intro index' event' hevent presentation hresult
    simp only [List.mem_append, List.mem_singleton, FamilyAction.present.injEq] at hevent
    rcases hevent with hevent | ⟨-, rfl⟩
    · exact h.presented index' event' hevent presentation hresult
    · exact (hholds.tag_eq hstep hresult).2
  · intro call hcall hok
    simp only [List.mem_append, List.mem_singleton, reduceCtorEq, or_false] at hcall
    obtain ⟨hcredential, htag, hkey⟩ := h.verified call hcall hok
    exact ⟨hcredential, htag.concat _, hkey⟩

theorem Family.Inv.verify {T : TagStore S} {publicKey : PublicKey C} {opening : Opening}
    {trace : List (FamilyAction C)} {s : Family C S} (h : Family.Inv publicKey opening trace s)
    {challenge : PresentationChallenge} {call : VerifyCall C} {verifier : Verifier C S}
    (hproduced : (challenge, call.presentation) ∈ s.produced)
    (hcredential : call.challenge.credentialContext = challenge.credentialContext)
    (hcontext : call.challenge.presentationContext = challenge.presentationContext)
    (hstep : Verifier.Step T s.verifier call verifier) :
    Family.Inv publicKey opening (trace ++ [.verify call]) { s with verifier := verifier } where
  publicKey_eq := hstep.publicKey_eq.trans h.publicKey_eq
  holds := h.holds
  produced p hp := ⟨(h.produced p hp).1, (h.produced p hp).2.concat _⟩
  presented index event hevent := by
    simp only [List.mem_append, List.mem_singleton, reduceCtorEq, or_false] at hevent
    exact h.presented index event hevent
  verified call' hcall' hok := by
    simp only [List.mem_append, List.mem_singleton, FamilyAction.verify.injEq] at hcall'
    rcases hcall' with hcall' | rfl
    · obtain ⟨hcred, htag, hkey⟩ := h.verified call' hcall' hok
      exact ⟨hcred, htag.concat _, hkey⟩
    · obtain ⟨hcred, htag⟩ := h.produced _ hproduced
      rw [← hcontext] at htag
      refine ⟨hcredential.trans hcred, htag.concat _, ?_⟩
      rw [hstep.acceptedKey_eq hok, h.publicKey_eq]

theorem Family.inv_of_run {T : TagStore S} {publicKey : PublicKey C} {store : S} {opening : Opening}
    {trace : List (FamilyAction C)} {s : Family C S}
    (hrun : Run (Family.Step T opening) ⟨[], [], ⟨publicKey, store⟩⟩ trace s) :
    Family.Inv publicKey opening trace s := by
  refine hrun.history (I := Family.Inv publicKey opening)
    ⟨rfl, by simp, by simp, by simp, by simp⟩ fun trace s action s' hinv hstep => ?_
  cases hstep with
  | join h => exact hinv.join h
  | present hmember h => exact hinv.present hmember h
  | verify hproduced hcredential hcontext h => exact hinv.verify hproduced hcredential hcontext h

/-- The verifier's part of a run of the family is a run of the verifier. -/
theorem once_familyKey {T : TagStore S} {opening : Opening} {s s' : Family C S}
    {trace : List (FamilyAction C)} (hstore : T.AtMostOnce s.verifier.store)
    (hrun : Run (Family.Step T opening) s trace s') : Once FamilyAction.acceptedKey trace := by
  have hsim : ∀ (t : Family C S) action u, Family.Step T opening t action u → ∃ calls,
      Run (Verifier.Step T) (Family.verifier t) calls (Family.verifier u) ∧
        calls.filterMap VerifyCall.acceptedKey = (FamilyAction.acceptedKey action).toList := by
    intro t action u hstep
    cases hstep with
    | join => exact ⟨[], .nil, rfl⟩
    | present => exact ⟨[], .nil, rfl⟩
    | @verify _ call _ _ _ _ h =>
      refine ⟨[call], .single h, ?_⟩
      rw [FamilyAction.acceptedKey]
      cases hkey : call.acceptedKey <;> simp [hkey]
  obtain ⟨calls, hcalls, hkeys⟩ := hrun.simulate hsim
  rw [Once, ← hkeys]
  exact once_acceptedKey hstore hcalls

/-- Whatever copies of one opening exist and however their counters are rolled back, every tag they
produce is the opening's tag of a nonce below its limit, and a verifier accepts in one presentation
scope at most the largest limit presented for it. -/
theorem cloning_mints_nothing {T : TagStore S} {store : S} (hstore : T.AtMostOnce store)
    (publicKey : PublicKey C) (credentialContext : CredentialContext) (secret hidingNonce : Bytes32)
    {trace : List (FamilyAction C)} {final : Family C S}
    (hrun : Run (Family.Step T ⟨publicKey.context, credentialContext, secret, hidingNonce⟩)
      ⟨[], [], ⟨publicKey, store⟩⟩ trace final) :
    (∀ index event, FamilyAction.present index event ∈ trace →
      ∀ presentation, event.result = .ok presentation → ∃ nonce < event.challenge.limit,
        presentation.tag = deriveTag secret (presentationScope C publicKey.context
          credentialContext.digest event.challenge.presentationContext.digest) nonce) ∧
    ∀ presScope, trace.countP (FamilyAction.acceptedIn publicKey presScope) ≤
      largestLimit (limitsPresented ⟨publicKey.context, credentialContext, secret, hidingNonce⟩
        presScope trace) := by
  have hinv := Family.inv_of_run hrun
  refine ⟨hinv.presented, fun presScope => ?_⟩
  let opening : Opening := ⟨publicKey.context, credentialContext, secret, hidingNonce⟩
  let limit := largestLimit (limitsPresented opening presScope trace)
  have hcount := (once_familyKey hstore hrun).countP_le
    (FamilyAction.acceptedIn publicKey presScope) (Finset.range limit)
    (fun nonce => (presScope, deriveTag secret presScope (BitVec.ofNat 32 nonce))) ?_
  · rw [Finset.card_range] at hcount
    exact hcount
  · -- the stored key of an acceptance is that of a nonce below a presented limit
    intro action hmem haccepted
    cases action with
    | join credential => cases haccepted
    | present index event => cases haccepted
    | verify call =>
      obtain ⟨hok, hscope⟩ := of_decide_eq_true haccepted
      obtain ⟨hcredential, ⟨bound, hbound, nonce, hlt, htag⟩, hkey⟩ := hinv.verified call hmem hok
      have hopening : opening.scope C call.challenge.presentationContext = presScope := by
        rw [← hscope, hcredential]
        rfl
      rw [hopening] at hbound htag
      refine ⟨nonce.toNat, ?_, ?_⟩
      · exact Finset.mem_range.mpr (Nat.lt_of_lt_of_le (BitVec.lt_def.mp hlt)
          (le_largestLimit hbound))
      · rw [FamilyAction.acceptedKey, hkey, hscope, htag, BitVec.ofNat_toNat, BitVec.setWidth_eq]

/-- The reference credential and a clone of it, presenting the same nonce. -/
theorem cloning_mints_nothing_reference : ∃ (trace : List (FamilyAction Reference.crates))
    (final : Family Reference.crates MemoryTagStore),
    Run (Family.Step memoryTagStore
      ⟨Reference.publicKey.context, ⟨Reference.zeros⟩, Reference.zeros,
      Reference.zeros⟩) ⟨[], [], Verifier.new Reference.publicKey⟩ trace final ∧
    ∃ presScope, 0 < trace.countP (FamilyAction.acceptedIn Reference.publicKey presScope) ∧
      trace.countP (FamilyAction.acceptedIn Reference.publicKey presScope) ≤ 1 := by
  obtain ⟨presentation, hstep⟩ := Reference.exists_presentStep
  obtain ⟨verifier, hverify⟩ := Reference.exists_verifyStep hstep
  let event := Reference.useEvent presentation
  let trace : List (FamilyAction Reference.crates) := [.join Reference.credential,
    .join Reference.credential, .present 0 event, .present 1 event,
    .verify (Reference.acceptCall presentation)]
  have hholds : Reference.credential.Holds ⟨Reference.publicKey.context, ⟨Reference.zeros⟩,
      Reference.zeros, Reference.zeros⟩ := ⟨rfl, rfl, rfl, rfl⟩
  have hrun : Run (Family.Step memoryTagStore ⟨Reference.publicKey.context, ⟨Reference.zeros⟩,
      Reference.zeros, Reference.zeros⟩) ⟨[], [], Verifier.new Reference.publicKey⟩ trace _ :=
    Run.cons (.join hholds) <| Run.cons (.join hholds) <|
      Run.cons (.present (by rfl) hstep) <|
        Run.cons (.present (by rfl) hstep) <|
          Run.single (.verify (by exact List.mem_cons_self) rfl rfl hverify)
  let presScope := presentationScope Reference.crates Reference.publicKey.context Reference.zeros
    Reference.zeros
  have hbound := (cloning_mints_nothing memoryTagStore_atMostOnce Reference.publicKey
    ⟨Reference.zeros⟩ Reference.zeros Reference.zeros hrun).2 presScope
  have hlimits : ∀ limit ∈ limitsPresented ⟨Reference.publicKey.context, ⟨Reference.zeros⟩,
      Reference.zeros, Reference.zeros⟩ presScope trace, limit.toNat ≤ 1 := by
    intro limit hlimit
    obtain ⟨index, event', hmem, -, -, rfl⟩ := mem_limitsPresented.mp hlimit
    simp only [trace, List.mem_cons, FamilyAction.present.injEq, reduceCtorEq, List.not_mem_nil,
      or_false, false_or] at hmem
    rcases hmem with ⟨-, rfl⟩ | ⟨-, rfl⟩ <;> exact Nat.le_refl 1
  refine ⟨trace, _, hrun, presScope, ?_, hbound.trans (largestLimit_le hlimits)⟩
  refine List.countP_pos_iff.mpr ⟨.verify (Reference.acceptCall presentation), by simp [trace], ?_⟩
  exact decide_eq_true ⟨rfl, rfl⟩

end VoleArc
