import VoleArc.Protocol.Signing
import VoleArc.Protocol.WireFormats
import VoleArc.Protocol.Accounting

/-!
# VoleArc.Protocol.EndToEnd — honest sessions

A client, its issuer and one verifier follow the protocol, and any artifact may pass through its
encoder and decoder.  Every step of issuance succeeds, every permitted use succeeds, and the first
delivery of each presentation is the one that is accepted.
-/

namespace VoleArc

open Transition Wire

/-! ### Deliveries -/

/-- What is received of a value: the value itself, or what its encoding decodes to. -/
inductive Format.Delivered {V : Type} (F : Format V) (sent : V) : V → Prop
  | direct : Format.Delivered F sent sent
  | wire {b : Bytes} {received : V} (hencode : F.encode sent = some b)
      (hdecode : F.decode b = .ok received) : Format.Delivered F sent received

/-- An encoding within the wire bound decodes. -/
def Format.Survives {V : Type} (F : Format V) (sent : V) : Prop :=
  ∀ b, F.encode sent = some b → b.length ≤ maxWireBytes → F.decode b = .ok sent

theorem Format.Canonical.delivered_eq {V : Type} {F : Format V} {Reachable : V → Prop}
    (hcanonical : F.Canonical Reachable)
    (hbound : ∀ b v, F.decode b = .ok v → b.length ≤ maxWireBytes) {sent received : V}
    (hsent : Reachable sent) (h : F.Delivered sent received) : received = sent := by
  cases h with
  | direct => rfl
  | wire hencode hdecode =>
    have hsame := hcanonical.decode_encode sent _ hsent hencode (hbound _ _ hdecode)
    rw [hdecode] at hsame
    exact Except.ok.inj hsame

variable {P : ArcParams} {K : Type} [Field K] {C : Crates P K}

/-- The crates as documented: canonical codecs, a correct signer, and a complete proof system. -/
structure Crates.Laws (C : Crates P K) : Prop where
  canonicalKeys : C.mayo.CanonicalKeys
  trapgenCorrect : C.mayo.TrapgenCorrect
  canonicalProofs : C.voleith.CanonicalProofs
  spreLength : C.mayo.SpreLength P
  spreCorrect : C.mayo.SpreCorrect
  spreSucceeds : C.mayo.SpreSucceeds P
  evalWhipped : C.EvalWhipped
  proveComplete : C.ProveComplete
  verifyComplete : C.VerifyComplete

section Deliveries

variable (laws : C.Laws)

include laws

theorem Crates.Laws.publicKey_eq {sent received : PublicKey C}
    (h : (publicKeyFormat C).Delivered sent received) : received = sent :=
  (publicKeyFormat_canonical laws.canonicalKeys).delivered_eq
    (fun _ _ h => length_le_of_decodeWith h) trivial h

theorem Crates.Laws.issuer_eq {sent received : Issuer C} (hsent : sent.Reachable)
    (h : (issuerKeyFormat C).Delivered sent received) : received = sent :=
  (issuerKeyFormat_canonical laws.canonicalKeys laws.trapgenCorrect).delivered_eq
    (fun _ _ h => length_le_of_decodeWith h) hsent h

theorem Crates.Laws.request_eq {sent received : IssueRequest C} (hsent : sent.Reachable)
    (h : (issueRequestFormat C).Delivered sent received) : received = sent :=
  (issueRequestFormat_canonical laws.canonicalProofs).delivered_eq
    (fun _ _ h => length_le_of_decodeWith h) hsent h

theorem Crates.Laws.response_eq {sent received : IssueResponse C} (hsent : sent.Reachable)
    (h : (issueResponseFormat C).Delivered sent received) : received = sent :=
  (issueResponseFormat_canonical laws.spreLength).delivered_eq
    (fun _ _ h => length_le_of_decodeWith h) hsent h

theorem Crates.Laws.presentation_eq {sent received : Presentation C}
    (h : (presentationFormat C).Delivered sent received) : received = sent :=
  (presentationFormat_canonical laws.canonicalProofs).delivered_eq
    (fun _ _ h => length_le_of_decodeWith h) trivial h

end Deliveries

theorem PendingIssue.Reachable.delivered_eq {publicKey : PublicKey C}
    {sent received : PendingIssue C}
    (hsent : PendingIssue.Reachable publicKey sent)
    (h : (pendingIssueFormat publicKey).Delivered sent received) : received = sent :=
  (pendingIssueFormat_canonical publicKey).delivered_eq (fun _ _ h => length_le_of_decodeWith h)
    hsent h

theorem Credential.Valid.delivered_eq {publicKey : PublicKey C} {sent received : Credential C}
    (hsent : sent.Valid publicKey) (h : (credentialFormat publicKey).Delivered sent received) :
    received = sent :=
  (credentialFormat_canonical publicKey).delivered_eq (fun _ _ h => length_le_of_decodeWith h)
    hsent h

/-! ### Sessions -/

/-- What the client holds. -/
inductive ClientPhase (C : Crates P K) where
  | idle
  | requested (pending : PendingIssue C) (request : IssueRequest C)
  | holding (credential : Credential C)

/-- The client after `prepare_issue`. -/
def ClientPhase.prepared : Except Error (PendingIssue C × IssueRequest C) → ClientPhase C
  | .ok (pending, request) => .requested pending request
  | .error _ => .idle

/-- The client after `finish`. -/
def ClientPhase.finished (phase : ClientPhase C) : Except Error (Credential C) → ClientPhase C
  | .ok credential => .holding credential
  | .error _ => phase

/-- The client, the issuer's responses, the successful uses, and the verifier. -/
structure Session (C : Crates P K) where
  client : ClientPhase C
  responses : List (IssueResponse C)
  produced : List (PresentEvent C)
  verifier : Verifier C MemoryTagStore

def Session.start (publicKey : PublicKey C) : Session C where
  client := .idle
  responses := []
  produced := []
  verifier := .new publicKey

/-- A call and what it returned; `verify` also names the use that is delivered. -/
inductive SessionAction (C : Crates P K) where
  | prepareIssue (result : Except Error (PendingIssue C × IssueRequest C))
  | issue (result : Except Error (IssueResponse C))
  | finish (result : Except Error (Credential C))
  | present (event : PresentEvent C)
  | verify (use : PresentEvent C) (call : VerifyCall C)

inductive Session.Step (issuer : Issuer C) (credentialContext : CredentialContext) :
    Session C → SessionAction C → Session C → Prop
  | prepareIssue {s : Session C} {publicKey : PublicKey C} {rng rng' : C.Rng}
      {result : Except Error (PendingIssue C × IssueRequest C)} (hclient : s.client = .idle)
      (hkey : (publicKeyFormat C).Delivered issuer.publicKey publicKey)
      (h : publicKey.prepareIssue credentialContext rng = (result, rng')) :
      Session.Step issuer credentialContext s (.prepareIssue result)
        { s with client := .prepared result }
  | issue {s : Session C} {pending : PendingIssue C} {request request' : IssueRequest C}
      {issuer' : Issuer C} {rng rng' : C.Rng} {result : Except Error (IssueResponse C)}
      (hclient : s.client = .requested pending request)
      (hissuer : (issuerKeyFormat C).Delivered issuer issuer')
      (hrequest : (issueRequestFormat C).Delivered request request')
      (h : issuer'.issue request' credentialContext rng = (result, rng')) :
      Session.Step issuer credentialContext s (.issue result)
        { s with responses := s.responses ++ result.toOption.toList }
  | finish {s : Session C} {publicKey : PublicKey C} {pending pending' : PendingIssue C}
      {request request' : IssueRequest C} {response response' : IssueResponse C}
      {result : Except Error (Credential C)} (hclient : s.client = .requested pending request)
      (hsent : response ∈ s.responses)
      (hkey : (publicKeyFormat C).Delivered issuer.publicKey publicKey)
      (hpending : (pendingIssueFormat publicKey).Delivered pending pending')
      (hrequest : (issueRequestFormat C).Delivered request request')
      (hresponse : (issueResponseFormat C).Delivered response response')
      (h : pending'.finish publicKey request' response' = result) :
      Session.Step issuer credentialContext s (.finish result)
        { s with client := s.client.finished result }
  | present {s : Session C} {credential credential' after : Credential C} {event : PresentEvent C}
      (hclient : s.client = .holding credential)
      (hkey : (publicKeyFormat C).Delivered issuer.publicKey event.publicKey)
      (hcredential : (credentialFormat event.publicKey).Delivered credential credential')
      (h : credential'.PresentStep event after) :
      Session.Step issuer credentialContext s (.present event)
        { s with
          client := .holding after
          produced := s.produced ++ [event].filter fun event => event.result.isOk }
  | verify {s : Session C} {use : PresentEvent C} {presentation : Presentation C}
      {call : VerifyCall C} {verifier : Verifier C MemoryTagStore} (huse : use ∈ s.produced)
      (hproduced : use.result = .ok presentation)
      (hpresentation : (presentationFormat C).Delivered presentation call.presentation)
      (hchallenge : call.challenge = use.challenge)
      (h : Verifier.Step memoryTagStore s.verifier call verifier) :
      Session.Step issuer credentialContext s (.verify use call) { s with verifier := verifier }

/-- The calls of `present` in a trace. -/
def presents (trace : List (SessionAction C)) : List (PresentEvent C) :=
  trace.filterMap fun
    | .present event => some event
    | _ => none

theorem mem_presents {trace : List (SessionAction C)} {event : PresentEvent C} :
    event ∈ presents trace ↔ .present event ∈ trace := by
  unfold presents
  rw [List.mem_filterMap]
  constructor
  · rintro ⟨action, hmem, haction⟩
    cases action with
    | present event' => exact Option.some.inj haction ▸ hmem
    | prepareIssue result => cases haction
    | issue result => cases haction
    | finish result => cases haction
    | verify use call => cases haction
  · intro h
    exact ⟨_, h, rfl⟩

/-- What a use stores at the verifier. -/
def PresentEvent.verified (use : PresentEvent C) : VerifiedPresentation where
  scope := presentationScope C use.before.issuerContext use.before.credentialContext.digest
    use.challenge.presentationContext.digest
  tag := use.before.tag use.challenge.presentationContext use.nonce

/-- The context has a counter, or there is room for one. -/
def PresentEvent.HasSlot (event : PresentEvent C) : Prop :=
  event.challenge.presentationContext.digest ∈ event.before.nextNonces ∨
    event.before.contextCount < maxPresentationContexts

/-- Limit, contexts, counter and slot let the use through. -/
structure PresentEvent.Permitted (event : PresentEvent C) (credentialContext : CredentialContext) :
    Prop where
  credentialContext_eq : event.challenge.credentialContext = credentialContext
  limit_ne_zero : event.challenge.limit ≠ 0
  nonce_lt : event.nonce < event.challenge.limit
  slot : event.HasSlot

/-! ### The invariant -/

/-- How the client came to hold what it holds, after these calls of `present`. -/
inductive ClientPhase.Honest (issuer : Issuer C) (credentialContext : CredentialContext)
    (responses : List (IssueResponse C)) (events : List (PresentEvent C)) : ClientPhase C → Prop
  | idle (hevents : events = []) (hresponses : responses = []) :
      ClientPhase.Honest issuer credentialContext responses events .idle
  | requested {pending : PendingIssue C} {request : IssueRequest C} {rng rng' : C.Rng}
      (hevents : events = [])
      (hprepare : issuer.publicKey.prepareIssue credentialContext rng =
        (.ok (pending, request), rng'))
      (hresponses : ∀ response ∈ responses, ∃ rng rng',
        issuer.issue request credentialContext rng = (.ok response, rng')) :
      ClientPhase.Honest issuer credentialContext responses events (.requested pending request)
  | holding {start credential : Credential C} (hvalid : start.Valid issuer.publicKey)
      (hcontext : start.credentialContext = credentialContext) (hfresh : start.nextNonces = ∅)
      (hrun : Run Credential.PresentStep start events credential) :
      ClientPhase.Honest issuer credentialContext responses events (.holding credential)

/-- What holds after every honest trace. -/
structure Session.Inv (issuer : Issuer C) (credentialContext : CredentialContext)
    (trace : List (SessionAction C)) (s : Session C) : Prop where
  client : s.client.Honest issuer credentialContext s.responses (presents trace)
  produced : s.produced = (presents trace).filter fun event => event.result.isOk
  verifies : ∀ use ∈ s.produced, ∀ presentation, use.result = .ok presentation →
    issuer.publicKey.verifyProofOnly use.challenge presentation = .ok use.verified
  publicKey : s.verifier.publicKey = issuer.publicKey
  store : ∀ key, key ∈ s.verifier.store ↔ ∃ use call, .verify use call ∈ trace ∧
    (use.verified.scope, use.verified.tag) = key

/-- What the call of an action returns in a session whose invariant holds. -/
def SessionAction.Succeeds (credentialContext : CredentialContext) (s : Session C) :
    SessionAction C → Prop
  | .prepareIssue result => result.isOk
  | .issue result => result.isOk
  | .finish result => result.isOk
  | .present event => event.Permitted credentialContext → event.result.isOk
  | .verify use call => call.result =
      if (use.verified.scope, use.verified.tag) ∈ s.verifier.store then .error .tagAlreadyUsed
      else .ok use.verified

section Steps

variable {issuer : Issuer C} {credentialContext : CredentialContext}

theorem Session.inv_start {publicKey : PublicKey C} (h : publicKey = issuer.publicKey) :
    Session.Inv issuer credentialContext [] (Session.start publicKey) where
  client := .idle rfl rfl
  produced := rfl
  verifies := by
    intro use huse
    cases huse
  publicKey := h
  store := by
    intro key
    exact iff_of_false (Finset.notMem_empty key) (by simp)

theorem presents_concat (trace : List (SessionAction C)) (action : SessionAction C) :
    presents (trace ++ [action]) = presents trace ++ presents [action] := by
  unfold presents
  rw [List.filterMap_append]

/-- An action that neither presents nor verifies changes the client's phase and the responses. -/
theorem Session.Inv.issuance {trace : List (SessionAction C)} {s : Session C}
    (h : s.Inv issuer credentialContext trace) {action : SessionAction C}
    (hpresent : presents [action] = []) (hverify : ∀ use call, action ≠ .verify use call)
    {client : ClientPhase C} {responses : List (IssueResponse C)}
    (hclient : client.Honest issuer credentialContext responses (presents trace)) :
    Session.Inv issuer credentialContext (trace ++ [action])
      { s with client := client, responses := responses } := by
  have hevents : presents (trace ++ [action]) = presents trace := by
    rw [presents_concat, hpresent, List.append_nil]
  refine ⟨by rw [hevents]; exact hclient, by rw [hevents]; exact h.produced, h.verifies,
    h.publicKey, ?_⟩
  intro key
  refine (h.store key).trans ⟨?_, ?_⟩
  · rintro ⟨use, call, hmem, hkey⟩
    exact ⟨use, call, List.mem_append_left _ hmem, hkey⟩
  · rintro ⟨use, call, hmem, hkey⟩
    rcases List.mem_append.mp hmem with hmem | hmem
    · exact ⟨use, call, hmem, hkey⟩
    · exact absurd (List.mem_singleton.mp hmem).symm (hverify use call)

/-- The credential a client holds is valid and of the session's context. -/
theorem ClientPhase.Honest.holding_valid {responses : List (IssueResponse C)}
    {events : List (PresentEvent C)} {credential : Credential C}
    (h : (ClientPhase.holding credential).Honest issuer credentialContext responses events) :
    credential.Valid issuer.publicKey ∧ credential.credentialContext = credentialContext := by
  cases h with
  | holding hvalid hcontext _ hrun =>
    refine hrun.inv (I := fun credential => credential.Valid issuer.publicKey ∧
      credential.credentialContext = credentialContext) ⟨hvalid, hcontext⟩ ?_
    rintro t event u ⟨ht, hcontext⟩ hstep
    refine ⟨hstep.valid ht, ?_⟩
    obtain ⟨-, rng, rng', hpresent⟩ := hstep
    rcases Credential.present_cases hpresent with ⟨-, -, rfl⟩ | ⟨-, -, -, -, rfl⟩
    · exact hcontext
    · exact hcontext

/-- A permitted use of a valid credential of the context succeeds. -/
theorem Credential.PresentStep.isOk_of_permitted (laws : C.Laws) {credential after : Credential C}
    {event : PresentEvent C} (h : credential.PresentStep event after)
    (hkey : event.publicKey = issuer.publicKey) (hvalid : credential.Valid issuer.publicKey)
    (hcontext : credential.credentialContext = credentialContext)
    (hpermitted : event.Permitted credentialContext) : event.result.isOk := by
  obtain ⟨hbefore, rng, rng', hpresent⟩ := h
  have hallows : credential.Allows event.publicKey event.challenge := by
    rw [← hbefore] at hvalid hcontext ⊢
    exact ⟨by rw [hkey]; exact hvalid.authentic.1,
      hcontext.trans hpermitted.credentialContext_eq.symm, hpermitted.limit_ne_zero,
      hpermitted.slot, hpermitted.nonce_lt⟩
  rw [← hkey] at hvalid
  obtain ⟨presentation, rng'', hok⟩ :=
    hvalid.present_succeeds laws.proveComplete laws.evalWhipped hallows rng
  rw [hpresent] at hok
  rw [(Prod.mk.inj hok).1]
  rfl

/-- What a successful use stores is what its verification returns. -/
theorem Credential.PresentStep.verifies (laws : C.Laws) {credential after : Credential C}
    {event : PresentEvent C} (h : credential.PresentStep event after)
    {presentation : Presentation C} (hok : event.result = .ok presentation) :
    event.publicKey.verifyProofOnly event.challenge presentation = .ok event.verified := by
  obtain ⟨hbefore, rng, rng', hpresent⟩ := h
  rw [hok] at hpresent
  obtain ⟨hallows, htag, -⟩ := Credential.present_ok hpresent
  rw [Credential.present_verifies laws.verifyComplete hpresent, htag]
  unfold PresentEvent.verified PresentEvent.nonce
  rw [hbefore, hallows.issuer, hallows.credentialContext]

theorem Session.Inv.prepareIssue (laws : C.Laws) {trace : List (SessionAction C)} {s : Session C}
    (h : s.Inv issuer credentialContext trace) (hclient : s.client = .idle)
    {publicKey : PublicKey C} (hkey : (publicKeyFormat C).Delivered issuer.publicKey publicKey)
    {rng rng' : C.Rng} {result : Except Error (PendingIssue C × IssueRequest C)}
    (hcall : publicKey.prepareIssue credentialContext rng = (result, rng')) :
    result.isOk ∧ Session.Inv issuer credentialContext (trace ++ [.prepareIssue result])
      { s with client := .prepared result } := by
  obtain rfl := laws.publicKey_eq hkey
  obtain ⟨pending, request, rng'', hok⟩ :=
    PublicKey.prepareIssue_succeeds laws.proveComplete issuer.publicKey credentialContext rng
  obtain ⟨rfl, rfl⟩ := Prod.mk.inj (hcall.symm.trans hok)
  have hidle := h.client
  rw [hclient] at hidle
  cases hidle with
  | idle hevents hresponses =>
    refine ⟨rfl, h.issuance rfl (by simp) (.requested hevents hok ?_)⟩
    rw [hresponses]
    simp

theorem Session.Inv.issue (laws : C.Laws) (hissuer : issuer.Reachable)
    {trace : List (SessionAction C)} {s : Session C} (h : s.Inv issuer credentialContext trace)
    {pending : PendingIssue C} {request request' : IssueRequest C}
    (hclient : s.client = .requested pending request) {issuer' : Issuer C}
    (hkey : (issuerKeyFormat C).Delivered issuer issuer')
    (hrequest : (issueRequestFormat C).Delivered request request') {rng rng' : C.Rng}
    {result : Except Error (IssueResponse C)}
    (hcall : issuer'.issue request' credentialContext rng = (result, rng')) :
    result.isOk ∧ Session.Inv issuer credentialContext (trace ++ [.issue result])
      { s with responses := s.responses ++ result.toOption.toList } := by
  obtain rfl := laws.issuer_eq hissuer hkey
  have hrequested := h.client
  rw [hclient] at hrequested
  cases hrequested with
  | requested hevents hprepare hresponses =>
    obtain rfl := laws.request_eq (.prepareIssue hprepare) hrequest
    obtain ⟨response, rng'', hok⟩ :=
      Issuer.issue_succeeds laws.verifyComplete laws.spreSucceeds issuer' hprepare rng
    obtain ⟨rfl, rfl⟩ := Prod.mk.inj (hcall.symm.trans hok)
    refine ⟨rfl, h.issuance rfl (by simp) ?_⟩
    rw [hclient]
    refine .requested hevents hprepare ?_
    intro other hother
    rcases List.mem_append.mp hother with hother | hother
    · exact hresponses other hother
    · obtain rfl := List.mem_singleton.mp hother
      exact ⟨_, _, hok⟩

theorem Session.Inv.finish (laws : C.Laws) (hissuer : issuer.Reachable)
    {trace : List (SessionAction C)} {s : Session C} (h : s.Inv issuer credentialContext trace)
    {publicKey : PublicKey C} {pending pending' : PendingIssue C}
    {request request' : IssueRequest C} {response response' : IssueResponse C}
    {result : Except Error (Credential C)} (hclient : s.client = .requested pending request)
    (hsent : response ∈ s.responses)
    (hkey : (publicKeyFormat C).Delivered issuer.publicKey publicKey)
    (hpending : (pendingIssueFormat publicKey).Delivered pending pending')
    (hrequest : (issueRequestFormat C).Delivered request request')
    (hresponse : (issueResponseFormat C).Delivered response response')
    (hcall : pending'.finish publicKey request' response' = result) :
    result.isOk ∧ Session.Inv issuer credentialContext (trace ++ [.finish result])
      { s with client := s.client.finished result } := by
  obtain rfl := laws.publicKey_eq hkey
  have hrequested := h.client
  rw [hclient] at hrequested
  cases hrequested with
  | requested hevents hprepare hresponses =>
    have hreach : PendingIssue.Reachable issuer.publicKey pending := .prepareIssue hprepare
    obtain ⟨rng, rng', hissue⟩ := hresponses response hsent
    obtain rfl := hreach.delivered_eq hpending
    obtain rfl := laws.request_eq (.prepareIssue hprepare) hrequest
    obtain rfl := laws.response_eq (.issue hissue) hresponse
    obtain ⟨hissuer', hcontext, hcommitment, -⟩ := PublicKey.prepareIssue_eq_ok hprepare
    obtain ⟨credential, hok⟩ := PendingIssue.finish_of_issue laws.spreCorrect
      (hissuer.matches laws.canonicalKeys laws.trapgenCorrect) hissue hissuer' hcommitment.symm
    obtain rfl := hcall.symm.trans hok
    refine ⟨rfl, h.issuance rfl (by simp) ?_⟩
    obtain ⟨-, -, -, hcredential⟩ := PendingIssue.finish_eq_ok.mp hok
    refine .holding (PendingIssue.valid_of_finish laws.spreLength (.issue hissue) hok) ?_ ?_ ?_
    · rw [hcredential]
      exact hcontext
    · rw [hcredential]
    · rw [hevents]
      exact .nil

theorem Session.Inv.present (laws : C.Laws) {trace : List (SessionAction C)} {s : Session C}
    (h : s.Inv issuer credentialContext trace) {credential credential' after : Credential C}
    {event : PresentEvent C} (hclient : s.client = .holding credential)
    (hkey : (publicKeyFormat C).Delivered issuer.publicKey event.publicKey)
    (hcredential : (credentialFormat event.publicKey).Delivered credential credential')
    (hstep : credential'.PresentStep event after) :
    (event.Permitted credentialContext → event.result.isOk) ∧
      Session.Inv issuer credentialContext (trace ++ [.present event])
        { s with
          client := .holding after
          produced := s.produced ++ [event].filter fun event => event.result.isOk } := by
  have hholding := h.client
  rw [hclient] at hholding
  obtain ⟨hvalid, hcontext⟩ := hholding.holding_valid
  have heq := laws.publicKey_eq hkey
  rw [heq] at hcredential
  obtain rfl := hvalid.delivered_eq hcredential
  have hevents : presents (trace ++ [.present event]) = presents trace ++ [event] :=
    presents_concat trace _
  refine ⟨hstep.isOk_of_permitted laws heq hvalid hcontext, ?_, ?_, ?_, h.publicKey, ?_⟩
  · cases hholding with
    | holding hstart hcontext hfresh hrun =>
      rw [hevents]
      exact .holding hstart hcontext hfresh (hrun.snoc hstep)
  · rw [hevents, List.filter_append, h.produced]
  · intro use huse presentation hok
    rcases List.mem_append.mp huse with huse | huse
    · exact h.verifies use huse presentation hok
    · obtain rfl := List.mem_singleton.mp (List.mem_filter.mp huse).1
      rw [← heq]
      exact hstep.verifies laws hok
  · intro key
    refine (h.store key).trans ⟨?_, ?_⟩
    · rintro ⟨use, call, hmem, hkey⟩
      exact ⟨use, call, List.mem_append_left _ hmem, hkey⟩
    · rintro ⟨use, call, hmem, hkey⟩
      rcases List.mem_append.mp hmem with hmem | hmem
      · exact ⟨use, call, hmem, hkey⟩
      · cases List.mem_singleton.mp hmem

theorem Session.Inv.verify (laws : C.Laws) {trace : List (SessionAction C)} {s : Session C}
    (h : s.Inv issuer credentialContext trace) {use : PresentEvent C}
    {presentation : Presentation C} {call : VerifyCall C} {verifier : Verifier C MemoryTagStore}
    (huse : use ∈ s.produced) (hproduced : use.result = .ok presentation)
    (hpresentation : (presentationFormat C).Delivered presentation call.presentation)
    (hchallenge : call.challenge = use.challenge)
    (hstep : Verifier.Step memoryTagStore s.verifier call verifier) :
    SessionAction.Succeeds credentialContext s (.verify use call) ∧
      Session.Inv issuer credentialContext (trace ++ [.verify use call])
        { s with verifier := verifier } := by
  have hsame := laws.presentation_eq hpresentation
  have hproof := h.verifies use huse presentation hproduced
  have hverify : s.verifier.publicKey.verifyProofOnly call.challenge call.presentation =
      .ok use.verified := by
    rw [h.publicKey, hchallenge, hsame]
    exact hproof
  have hevents : presents (trace ++ [.verify use call]) = presents trace := by
    rw [presents_concat]
    exact List.append_nil _
  obtain ⟨hresult, rfl⟩ := Prod.mk.inj (hstep.symm.trans (Verifier.verify_memory hverify))
  refine ⟨hresult, by rw [hevents]; exact h.client, by rw [hevents]; exact h.produced, h.verifies,
    h.publicKey, ?_⟩
  intro key
  show key ∈ insert (use.verified.scope, use.verified.tag) s.verifier.store ↔ _
  rw [Finset.mem_insert, h.store key]
  constructor
  · rintro (rfl | ⟨use', call', hmem, hkey⟩)
    · exact ⟨use, call, by simp, rfl⟩
    · exact ⟨use', call', List.mem_append_left _ hmem, hkey⟩
  · rintro ⟨use', call', hmem, hkey⟩
    rcases List.mem_append.mp hmem with hmem | hmem
    · exact .inr ⟨use', call', hmem, hkey⟩
    · obtain ⟨rfl, rfl⟩ := SessionAction.verify.inj (List.mem_singleton.mp hmem)
      exact .inl hkey.symm

/-- Every action of an honest session returns what it should and keeps the invariant. -/
theorem Session.Inv.step (laws : C.Laws) (hissuer : issuer.Reachable)
    {trace : List (SessionAction C)} {s s' : Session C} {action : SessionAction C}
    (h : s.Inv issuer credentialContext trace)
    (hstep : Session.Step issuer credentialContext s action s') :
    action.Succeeds credentialContext s ∧ s'.Inv issuer credentialContext (trace ++ [action]) := by
  cases hstep with
  | prepareIssue hclient hkey hcall => exact h.prepareIssue laws hclient hkey hcall
  | issue hclient hkey hrequest hcall => exact h.issue laws hissuer hclient hkey hrequest hcall
  | finish hclient hsent hkey hpending hrequest hresponse hcall =>
    exact h.finish laws hissuer hclient hsent hkey hpending hrequest hresponse hcall
  | present hclient hkey hcredential hcall => exact h.present laws hclient hkey hcredential hcall
  | verify huse hproduced hpresentation hchallenge hcall =>
    exact h.verify laws huse hproduced hpresentation hchallenge hcall

theorem Session.inv_of_run (laws : C.Laws) (hissuer : issuer.Reachable) {publicKey : PublicKey C}
    (hkey : (publicKeyFormat C).Delivered issuer.publicKey publicKey)
    {trace : List (SessionAction C)} {s : Session C}
    (hrun : Run (Session.Step issuer credentialContext) (Session.start publicKey) trace s) :
    s.Inv issuer credentialContext trace :=
  hrun.history (I := fun trace s => Session.Inv issuer credentialContext trace s)
    (Session.inv_start (laws.publicKey_eq hkey)) fun _ _ _ _ hinv hstep =>
      (hinv.step laws hissuer hstep).2

/-- Every label of an honest run, with the state it was taken in. -/
theorem Session.succeeds_of_run (laws : C.Laws) (hissuer : issuer.Reachable)
    {publicKey : PublicKey C} (hkey : (publicKeyFormat C).Delivered issuer.publicKey publicKey)
    {before after : List (SessionAction C)} {action : SessionAction C} {final : Session C}
    (hrun : Run (Session.Step issuer credentialContext) (Session.start publicKey)
      (before ++ action :: after) final) :
    ∃ s s', s.Inv issuer credentialContext before ∧
      Session.Step issuer credentialContext s action s' ∧ action.Succeeds credentialContext s := by
  obtain ⟨s, s', hbefore, hstep, -⟩ := hrun.split
  have hinv := Session.inv_of_run laws hissuer hkey hbefore
  exact ⟨s, s', hinv, hstep, (hinv.step laws hissuer hstep).1⟩

/-! ### Which uses a session makes and accepts -/

/-- The uses of a context have pairwise distinct nonces. -/
theorem ClientPhase.Honest.nodup_nonces {phase : ClientPhase C} {responses : List (IssueResponse C)}
    {events : List (PresentEvent C)}
    (h : phase.Honest issuer credentialContext responses events) (context : PresentationContext) :
    ((usesIn context events).map fun event => event.nonce.toNat).Nodup := by
  cases h with
  | idle hevents => rw [hevents]; exact List.nodup_nil
  | requested hevents => rw [hevents]; exact List.nodup_nil
  | holding _ _ _ hrun => exact VoleArc.nodup_nonces hrun context

/-- The calls of `present` in a context. -/
def attemptsIn (context : PresentationContext) (events : List (PresentEvent C)) :
    List (PresentEvent C) :=
  events.filter fun event => event.challenge.presentationContext = context

/-- When a call succeeds exactly below one limit, that many calls succeed. -/
theorem length_usesIn_eq_min {start final : Credential C} {events : List (PresentEvent C)}
    {context : PresentationContext} {limit : U32}
    (hrun : Run Credential.PresentStep start events final)
    (hfresh : (start.nextNonce context).toNat = 0)
    (hiff : ∀ event ∈ events, event.challenge.presentationContext = context →
      (event.result.isOk ↔ event.nonce < limit)) :
    (usesIn context events).length = min (attemptsIn context events).length limit.toNat := by
  induction hrun with
  | nil => simp [usesIn, attemptsIn]
  | @snoc events t u event hrun hstep ih =>
    have hlength := ih fun event hevent => hiff event (List.mem_append_left _ hevent)
    by_cases hcontext : event.challenge.presentationContext = context
    · have hattempts : attemptsIn context (events ++ [event]) =
          attemptsIn context events ++ [event] := by
        unfold attemptsIn
        rw [List.filter_append, List.filter_cons_of_pos (by simpa using hcontext), List.filter_nil]
      have hnonce : event.nonce.toNat = (usesIn context events).length := by
        rw [PresentEvent.nonce, hstep.1, hcontext, (counterTrace hrun context).counter, hfresh,
          Nat.zero_add]
      have hsucceeds : event.result.isOk ↔ (usesIn context events).length < limit.toNat := by
        rw [hiff event (by simp) hcontext, BitVec.lt_def, hnonce]
      rw [hattempts, List.length_append, List.length_singleton]
      by_cases hok : event.result.isOk
      · rw [usesIn_concat hok hcontext, List.length_append, List.length_singleton]
        have := hsucceeds.mp hok
        omega
      · rw [usesIn_concat_of_not fun h => hok h.1]
        have := mt hsucceeds.mpr hok
        omega
    · have hattempts : attemptsIn context (events ++ [event]) = attemptsIn context events := by
        unfold attemptsIn
        rw [List.filter_append, List.filter_cons_of_neg (by simpa using hcontext), List.filter_nil,
          List.append_nil]
      rw [hattempts, usesIn_concat_of_not fun h => hcontext h.2, hlength]

/-- The uses of a context whose deliveries were accepted. -/
def acceptedUses (context : PresentationContext) (trace : List (SessionAction C)) :
    List (PresentEvent C) :=
  trace.filterMap fun
    | .verify use call =>
      if call.result.isOk ∧ use.challenge.presentationContext = context then some use else none
    | _ => none

theorem mem_acceptedUses {context : PresentationContext} {trace : List (SessionAction C)}
    {use : PresentEvent C} :
    use ∈ acceptedUses context trace ↔ ∃ call, .verify use call ∈ trace ∧ call.result.isOk ∧
      use.challenge.presentationContext = context := by
  unfold acceptedUses
  rw [List.mem_filterMap]
  constructor
  · rintro ⟨action, hmem, haction⟩
    cases action with
    | verify use' call =>
      simp only at haction
      split_ifs at haction with h
      obtain rfl := Option.some.inj haction
      exact ⟨call, hmem, h⟩
    | prepareIssue result => cases haction
    | issue result => cases haction
    | finish result => cases haction
    | present event => cases haction
  · rintro ⟨call, hmem, h⟩
    exact ⟨_, hmem, if_pos h⟩

/-- Equal stored pairs come from one context and nonce. -/
def TagsCollisionFree (trace : List (SessionAction C)) : Prop :=
  ∀ use ∈ presents trace, ∀ use' ∈ presents trace, use.result.isOk → use'.result.isOk →
    use.verified = use'.verified →
      use.challenge.presentationContext = use'.challenge.presentationContext ∧
        use.nonce = use'.nonce

section Runs

variable (laws : C.Laws) (hissuer : issuer.Reachable) {publicKey : PublicKey C}
  (hkey : (publicKeyFormat C).Delivered issuer.publicKey publicKey) {final : Session C}

include laws hissuer hkey

/-- Only successful uses of the session are delivered. -/
theorem Session.use_mem {trace : List (SessionAction C)}
    (hrun : Run (Session.Step issuer credentialContext) (Session.start publicKey) trace final)
    {use : PresentEvent C} {call : VerifyCall C} (h : .verify use call ∈ trace) :
    use ∈ presents trace ∧ use.result.isOk := by
  obtain ⟨before, after, rfl⟩ := List.append_of_mem h
  obtain ⟨s, s', hinv, hstep, -⟩ := Session.succeeds_of_run laws hissuer hkey hrun
  cases hstep with
  | verify huse hproduced =>
    rw [hinv.produced] at huse
    obtain ⟨hmem, hok⟩ := List.mem_filter.mp huse
    exact ⟨mem_presents.mpr (List.mem_append_left _ (mem_presents.mp hmem)), hok⟩

/-- The first delivery of a use is accepted, and every later one is refused as a repeated tag. -/
theorem Session.delivery {before after : List (SessionAction C)} {use : PresentEvent C}
    {call : VerifyCall C}
    (hrun : Run (Session.Step issuer credentialContext) (Session.start publicKey)
      (before ++ .verify use call :: after) final)
    (hcollision : TagsCollisionFree (before ++ .verify use call :: after)) :
    ((∃ earlier, .verify use earlier ∈ before) → call.result = .error .tagAlreadyUsed) ∧
    ((¬ ∃ earlier, .verify use earlier ∈ before) → call.result = .ok use.verified) := by
  obtain ⟨s, s', hinv, -, hresult⟩ := Session.succeeds_of_run laws hissuer hkey hrun
  have hresult : call.result = if (use.verified.scope, use.verified.tag) ∈ s.verifier.store then
      .error .tagAlreadyUsed else .ok use.verified := hresult
  constructor
  · rintro ⟨earlier, hmem⟩
    rw [hresult, if_pos ((hinv.store _).mpr ⟨use, earlier, hmem, rfl⟩)]
  · intro hnew
    rw [hresult, if_neg]
    intro hin
    obtain ⟨use', earlier, hmem, hpair⟩ := (hinv.store _).mp hin
    obtain ⟨huse, hok⟩ := Session.use_mem laws hissuer hkey hrun
      (List.mem_append_right before List.mem_cons_self)
    obtain ⟨huse', hok'⟩ := Session.use_mem laws hissuer hkey hrun (List.mem_append_left _ hmem)
    have hverified : use.verified = use'.verified := by
      obtain ⟨hscope, htag⟩ := Prod.mk.inj hpair
      exact congrArg₂ VerifiedPresentation.mk hscope.symm htag.symm
    obtain ⟨hcontext, hnonce⟩ := hcollision use huse use' huse' hok hok' hverified
    have hsame := use_unique (Session.inv_of_run laws hissuer hkey hrun).client.nodup_nonces huse
      hok huse' hok' hcontext hnonce
    rw [← hsame] at hmem
    exact hnew ⟨earlier, hmem⟩

/-- No use is accepted twice. -/
theorem Session.nodup_acceptedUses {trace : List (SessionAction C)}
    (hrun : Run (Session.Step issuer credentialContext) (Session.start publicKey) trace final)
    (hcollision : TagsCollisionFree trace) (context : PresentationContext) :
    (acceptedUses context trace).Nodup := by
  refine once_of_forall_split ?_
  intro before action after htrace use hkey' hmem
  rw [htrace] at hrun hcollision
  obtain ⟨earlier, hearlier, -, -⟩ := mem_acceptedUses.mp hmem
  cases action with
  | verify use' call =>
    simp only at hkey'
    split_ifs at hkey' with h
    obtain rfl := Option.some.inj hkey'
    have hrefused := (Session.delivery laws hissuer hkey hrun hcollision).1 ⟨earlier, hearlier⟩
    rw [hrefused] at h
    cases h.1
  | prepareIssue result => cases hkey'
  | issue result => cases hkey'
  | finish result => cases hkey'
  | present event => cases hkey'

/-- A use of the context that is delivered at all is accepted once. -/
theorem Session.accepted_of_delivered {trace : List (SessionAction C)}
    (hrun : Run (Session.Step issuer credentialContext) (Session.start publicKey) trace final)
    (hcollision : TagsCollisionFree trace) {context : PresentationContext} {use : PresentEvent C}
    (hcontext : use.challenge.presentationContext = context)
    (hdelivered : ∃ call, .verify use call ∈ trace) : use ∈ acceptedUses context trace := by
  classical
  obtain ⟨action, haction⟩ : ∃ action,
    trace.find? (fun action => ∃ call, action = SessionAction.verify use call) =
      some action := by
    obtain ⟨call, hmem⟩ := hdelivered
    exact Option.isSome_iff_exists.mp
      (List.find?_isSome.mpr ⟨_, hmem, decide_eq_true ⟨call, rfl⟩⟩)
  obtain ⟨hp, before, after, rfl, hbefore⟩ := List.find?_eq_some_iff_append.mp haction
  obtain ⟨call, rfl⟩ := of_decide_eq_true hp
  have hnew : ¬ ∃ earlier, SessionAction.verify use earlier ∈ before := by
    rintro ⟨earlier, hearlier⟩
    have hnot := hbefore _ hearlier
    simp at hnot
  have hok := (Session.delivery laws hissuer hkey hrun hcollision).2 hnew
  exact mem_acceptedUses.mpr ⟨call, by simp, by rw [hok]; rfl, hcontext⟩

/-- A context with one limit yields at most that many acceptances, and exactly that many once it was
attempted so often and everything produced was delivered. -/
theorem Session.capacity {trace : List (SessionAction C)}
    (hrun : Run (Session.Step issuer credentialContext) (Session.start publicKey) trace final)
    (hcollision : TagsCollisionFree trace) {context : PresentationContext} {limit : U32}
    (hpermitted : ∀ event ∈ presents trace, event.challenge.presentationContext = context →
      event.challenge.limit = limit ∧ event.challenge.credentialContext = credentialContext ∧
        event.HasSlot) :
    (acceptedUses context trace).length ≤ limit.toNat ∧
    (limit.toNat ≤ (attemptsIn context (presents trace)).length →
      (∀ use ∈ usesIn context (presents trace), ∃ call, .verify use call ∈ trace) →
        (acceptedUses context trace).length = limit.toNat) := by
  have hinv := Session.inv_of_run laws hissuer hkey hrun
  have hnodup := Session.nodup_acceptedUses laws hissuer hkey hrun hcollision context
  have hsub : acceptedUses context trace ⊆ usesIn context (presents trace) := by
    intro use huse
    obtain ⟨call, hmem, -, hcontext⟩ := mem_acceptedUses.mp huse
    obtain ⟨hpresent, hok⟩ := Session.use_mem laws hissuer hkey hrun hmem
    exact List.mem_filter.mpr ⟨hpresent, by simp [hok, hcontext]⟩
  have hmin : (usesIn context (presents trace)).length =
      min (attemptsIn context (presents trace)).length limit.toNat := by
    have hclient := hinv.client
    generalize final.client = phase at hclient
    cases hclient with
    | idle hevents => simp [hevents, usesIn, attemptsIn]
    | requested hevents => simp [hevents, usesIn, attemptsIn]
    | holding hvalid hcontext hfresh hevents =>
      refine length_usesIn_eq_min hevents (by simp [Credential.nextNonce, hfresh]) ?_
      intro event hevent hin
      obtain ⟨hlimit, hcred, hslot⟩ := hpermitted event hevent hin
      constructor
      · intro hok
        rw [← hlimit]
        exact (counterTrace hevents context).below event
          (List.mem_filter.mpr ⟨hevent, by simp [hok, hin]⟩)
      · intro hlt
        obtain ⟨before, after, htrace⟩ := List.append_of_mem (mem_presents.mp hevent)
        rw [htrace] at hrun
        obtain ⟨s, s', -, -, hsucceeds⟩ := Session.succeeds_of_run laws hissuer hkey hrun
        refine hsucceeds ⟨hcred, ?_, by rw [hlimit]; exact hlt, hslot⟩
        rw [hlimit]
        rintro rfl
        exact absurd hlt (by simp)
  refine ⟨?_, ?_⟩
  · have hle := hnodup.subperm hsub |>.length_le
    omega
  · intro hattempts hdelivered
    have hperm : (acceptedUses context trace).Perm (usesIn context (presents trace)) := by
      refine (List.perm_ext_iff_of_nodup hnodup ?_).mpr fun use => ⟨fun h => hsub h, fun h => ?_⟩
      · exact (hinv.client.nodup_nonces context).of_map _
      · have hcontext : use.challenge.presentationContext = context := by
          have := (List.mem_filter.mp h).2
          simp only [decide_eq_true_eq] at this
          exact this.2
        exact Session.accepted_of_delivered laws hissuer hkey hrun hcollision hcontext
          (hdelivered use h)
    rw [hperm.length_eq, hmin]
    omega

end Runs

end Steps

/-- The artifacts of a session decode from their encodings. -/
def SessionAction.ArtifactsSurvive (publicKey : PublicKey C) : SessionAction C → Prop
  | .prepareIssue (.ok (pending, request)) =>
    (pendingIssueFormat publicKey).Survives pending ∧ (issueRequestFormat C).Survives request
  | .issue (.ok response) => (issueResponseFormat C).Survives response
  | .finish (.ok credential) => (credentialFormat publicKey).Survives credential
  | .present event => (credentialFormat publicKey).Survives event.before ∧
      ∀ presentation, event.result = .ok presentation →
        (presentationFormat C).Survives presentation
  | _ => True

theorem Format.Canonical.survives {V : Type} {F : Format V} {Reachable : V → Prop}
    (hcanonical : F.Canonical Reachable) {v : V} (hv : Reachable v) : F.Survives v :=
  fun b => hcanonical.decode_encode v b hv

/-- Honest steps make artifacts that decode from their encodings. -/
theorem Session.Inv.artifactsSurvive (laws : C.Laws) {issuer : Issuer C}
    {credentialContext : CredentialContext} {trace : List (SessionAction C)} {s s' : Session C}
    {action : SessionAction C} (h : s.Inv issuer credentialContext trace)
    (hstep : Session.Step issuer credentialContext s action s') :
    action.ArtifactsSurvive issuer.publicKey := by
  cases hstep with
  | @prepareIssue publicKey rng rng' result hclient hkey hcall =>
    obtain rfl := laws.publicKey_eq hkey
    match result, hcall with
    | .error _, _ => trivial
    | .ok (pending, request), hcall =>
      exact ⟨(pendingIssueFormat_canonical _).survives (.prepareIssue hcall),
        (issueRequestFormat_canonical laws.canonicalProofs).survives (.prepareIssue hcall)⟩
  | @issue pending request request' issuer' rng rng' result hclient hkey hrequest hcall =>
    match result, hcall with
    | .error _, _ => trivial
    | .ok response, hcall =>
      exact (issueResponseFormat_canonical laws.spreLength).survives (.issue hcall)
  | @finish publicKey pending pending' request request' response response' result hclient hsent hkey
      hpending hrequest hresponse hcall =>
    obtain rfl := laws.publicKey_eq hkey
    match result, hcall with
    | .error _, _ => trivial
    | .ok credential, hcall =>
      have hrequested := h.client
      rw [hclient] at hrequested
      cases hrequested with
      | requested hevents hprepare hresponses =>
        obtain ⟨rng, rng', hissue⟩ := hresponses response hsent
        obtain rfl := laws.response_eq (.issue hissue) hresponse
        exact (credentialFormat_canonical _).survives
          (PendingIssue.valid_of_finish laws.spreLength (.issue hissue) hcall)
  | @present credential credential' after event hclient hkey hcredential hcall =>
    have hholding := h.client
    rw [hclient] at hholding
    have hvalid := hholding.holding_valid.1
    rw [laws.publicKey_eq hkey] at hcredential
    obtain rfl := hvalid.delivered_eq hcredential
    refine ⟨?_, fun presentation _ =>
      (presentationFormat_canonical laws.canonicalProofs).survives trivial⟩
    rw [hcall.1]
    exact (credentialFormat_canonical _).survives hvalid
  | verify => trivial

/-! ### The whole flow -/

/-- For every issuer and credential context, in every honest session with any artifacts sent through
their codecs: all steps of issuance and all permitted uses succeed, the first delivery of each use
is accepted and every later one refused as a repeated tag, and a context with a constant limit
yields exactly that many acceptances. -/
theorem honest_end_to_end (laws : C.Laws) (issuer : Issuer C) (hissuer : issuer.Reachable)
    (credentialContext : CredentialContext) {publicKey : PublicKey C}
    (hkey : (publicKeyFormat C).Delivered issuer.publicKey publicKey)
    {trace : List (SessionAction C)} {final : Session C}
    (hrun : Run (Session.Step issuer credentialContext) (Session.start publicKey) trace final)
    (hcollision : TagsCollisionFree trace) :
    -- issuance
    (∀ result, .prepareIssue result ∈ trace → result.isOk) ∧
    (∀ result, .issue result ∈ trace → result.isOk) ∧
    (∀ result, .finish result ∈ trace → result.isOk) ∧
    -- artifacts
    (publicKeyFormat C).Survives issuer.publicKey ∧ (issuerKeyFormat C).Survives issuer ∧
    (∀ action ∈ trace, action.ArtifactsSurvive issuer.publicKey) ∧
    -- uses
    (∀ event ∈ presents trace, event.Permitted credentialContext → event.result.isOk) ∧
    -- deliveries
    (∀ before use call after, trace = before ++ .verify use call :: after →
      ((∃ earlier, .verify use earlier ∈ before) → call.result = .error .tagAlreadyUsed) ∧
      ((¬ ∃ earlier, .verify use earlier ∈ before) → call.result = .ok use.verified)) ∧
    -- capacity
    ∀ (context : PresentationContext) (limit : U32),
      (∀ event ∈ presents trace, event.challenge.presentationContext = context →
        event.challenge.limit = limit ∧ event.challenge.credentialContext = credentialContext ∧
          event.HasSlot) →
      (acceptedUses context trace).length ≤ limit.toNat ∧
      (limit.toNat ≤ (attemptsIn context (presents trace)).length →
        (∀ use ∈ usesIn context (presents trace), ∃ call, .verify use call ∈ trace) →
          (acceptedUses context trace).length = limit.toNat) := by
  have hlabel : ∀ action ∈ trace, ∃ s, action.Succeeds credentialContext s ∧
      action.ArtifactsSurvive issuer.publicKey := by
    intro action haction
    obtain ⟨before, after, rfl⟩ := List.append_of_mem haction
    obtain ⟨s, s', hinv, hstep, hsucceeds⟩ := Session.succeeds_of_run laws hissuer hkey hrun
    exact ⟨s, hsucceeds, hinv.artifactsSurvive laws hstep⟩
  refine ⟨?_, ?_, ?_, (publicKeyFormat_canonical laws.canonicalKeys).survives trivial,
    (issuerKeyFormat_canonical laws.canonicalKeys laws.trapgenCorrect).survives hissuer, ?_, ?_, ?_,
    ?_⟩
  · intro result hmem
    exact (hlabel _ hmem).choose_spec.1
  · intro result hmem
    exact (hlabel _ hmem).choose_spec.1
  · intro result hmem
    exact (hlabel _ hmem).choose_spec.1
  · intro action haction
    exact (hlabel _ haction).choose_spec.2
  · intro event hevent
    exact (hlabel _ (mem_presents.mp hevent)).choose_spec.1
  · rintro before use call after rfl
    exact Session.delivery laws hissuer hkey hrun hcollision
  · intro context limit hpermitted
    exact Session.capacity laws hissuer hkey hrun hcollision hpermitted

theorem Reference.laws : Reference.crates.Laws where
  canonicalKeys := Reference.canonicalKeys
  trapgenCorrect := Reference.trapgenCorrect
  canonicalProofs := Reference.canonicalProofs
  spreLength := Reference.spreLength
  spreCorrect := Reference.spreCorrect
  spreSucceeds := Reference.spreSucceeds
  evalWhipped := Reference.evalWhipped
  proveComplete := Reference.proveComplete
  verifyComplete := Reference.verifyComplete

/-- A fresh credential of the reference key lets a use in either bucket through. -/
theorem Reference.allows_fresh {credential : Credential Reference.crates}
    (hvalid : credential.Valid Reference.publicKey)
    (hcontext : credential.credentialContext = ⟨Reference.zeros⟩)
    (hempty : credential.nextNonces = ∅) :
    credential.Allows Reference.publicKey Reference.challenge ∧
    (credential.advance Reference.challenge.presentationContext).Allows Reference.publicKey
      Reference.otherChallenge := by
  have hzero : ∀ context, credential.nextNonce context = 0 := by
    intro context
    rw [Credential.nextNonce, hempty]
    rfl
  have hother : Reference.challenge.presentationContext ≠
      Reference.otherChallenge.presentationContext := by decide
  constructor
  · refine ⟨hvalid.authentic.1, hcontext, by decide, .inr ?_, by rw [hzero]; decide⟩
    rw [Credential.contextCount, hempty]
    decide
  · refine ⟨hvalid.authentic.1, hcontext, by decide, .inr ?_, ?_⟩
    · rw [Credential.contextCount, Credential.advance, hempty]
      refine lt_of_le_of_lt Std.ExtTreeMap.size_insert_le ?_
      decide
    · rw [Credential.nextNonce_advance_of_ne _ _ hother, hzero]
      decide

/-- A reference session with a use in each of two buckets, the second by a credential restored from
its encoding; the first presentation is delivered again after the second use. -/
theorem Reference.exists_session : ∃ (before : List (SessionAction Reference.crates))
    (final : Session Reference.crates) (first second : PresentEvent Reference.crates)
    (call again other : VerifyCall Reference.crates),
    Run (Session.Step Reference.issuer ⟨Reference.zeros⟩) (Session.start Reference.publicKey)
      (before ++ [.verify first again, .verify second other]) final ∧
    presents before = [first, second] ∧ .verify first call ∈ before ∧
    first.before.issuerContext = Reference.publicKey.context ∧
    first.before.credentialContext = ⟨Reference.zeros⟩ ∧
    second.before = first.before.advance Reference.challenge.presentationContext ∧
    first.challenge = Reference.challenge ∧ second.challenge = Reference.otherChallenge ∧
    first.HasSlot ∧ second.HasSlot := by
  obtain ⟨pending, request, rng, hprepare⟩ := PublicKey.prepareIssue_succeeds
    Reference.proveComplete Reference.publicKey ⟨Reference.zeros⟩ (0 : ℕ)
  obtain ⟨response, rng', hissue⟩ := Issuer.issue_succeeds Reference.verifyComplete
    Reference.spreSucceeds Reference.issuer hprepare (0 : ℕ)
  obtain ⟨hissuer, hcontext, hcommitment, -⟩ := PublicKey.prepareIssue_eq_ok hprepare
  obtain ⟨credential, hfinish⟩ := PendingIssue.finish_of_issue Reference.spreCorrect
    Reference.issuer_matches hissue hissuer hcommitment.symm
  have hvalid := PendingIssue.valid_of_finish Reference.spreLength (.issue hissue) hfinish
  obtain ⟨-, -, -, hcredential⟩ := PendingIssue.finish_eq_ok.mp hfinish
  have hcontext' : credential.credentialContext = ⟨Reference.zeros⟩ := by
    rw [hcredential]
    exact hcontext
  obtain ⟨hallows, hallows'⟩ :=
    Reference.allows_fresh hvalid hcontext' (by rw [hcredential])
  -- the two uses
  obtain ⟨presentation, hpresent⟩ := Reference.exists_use hvalid hallows
  have hvalid' := hpresent.valid hvalid
  obtain ⟨presentation', hpresent'⟩ := Reference.exists_use hvalid' hallows'
  let first : PresentEvent Reference.crates :=
    ⟨credential, Reference.publicKey, Reference.challenge, .ok presentation⟩
  let second : PresentEvent Reference.crates :=
    ⟨credential.advance Reference.challenge.presentationContext, Reference.publicKey,
      Reference.otherChallenge, .ok presentation'⟩
  -- the three deliveries
  let answer := (Verifier.new Reference.publicKey).verify memoryTagStore Reference.challenge
    presentation
  let answer' := answer.2.verify memoryTagStore Reference.challenge presentation
  let answer'' := answer'.2.verify memoryTagStore Reference.otherChallenge presentation'
  let call : VerifyCall Reference.crates := ⟨Reference.challenge, presentation, answer.1⟩
  let again : VerifyCall Reference.crates := ⟨Reference.challenge, presentation, answer'.1⟩
  let other : VerifyCall Reference.crates := ⟨Reference.otherChallenge, presentation', answer''.1⟩
  have hrun : Run (Session.Step Reference.issuer ⟨Reference.zeros⟩)
      (Session.start Reference.publicKey)
      [.prepareIssue (.ok (pending, request)), .issue (.ok response), .finish (.ok credential),
        .present first, .verify first call, .present second, .verify first again,
        .verify second other] _ :=
    Run.cons (.prepareIssue rfl .direct hprepare) <| Run.cons (.issue rfl .direct .direct hissue) <|
      Run.cons (.finish rfl (by exact List.mem_singleton_self _) .direct .direct .direct .direct
        hfinish) <|
      Run.cons (.present rfl .direct .direct hpresent) <|
      Run.cons (.verify (by exact List.mem_singleton_self _) rfl .direct rfl
        (show Verifier.Step memoryTagStore _ call answer.2 from rfl)) <|
      Run.cons (.present rfl .direct (.wire rfl hvalid'.fromBytes_toBytes) hpresent') <|
      Run.cons (.verify (by exact List.mem_cons_self) rfl .direct rfl
        (show Verifier.Step memoryTagStore _ again answer'.2 from rfl)) <|
      Run.single (.verify (by exact List.mem_cons_of_mem _ (List.mem_singleton_self _)) rfl .direct
        rfl (show Verifier.Step memoryTagStore _ other answer''.2 from rfl))
  exact ⟨[.prepareIssue (.ok (pending, request)), .issue (.ok response), .finish (.ok credential),
    .present first, .verify first call, .present second], _, first, second, call, again,
      other, hrun, rfl, by simp, hvalid.authentic.1, hcontext', rfl, rfl, rfl, hallows.slot,
      hallows'.slot⟩

/-- In the reference session each bucket yields one acceptance, and the repeated delivery of its
first presentation is refused. -/
theorem honest_end_to_end_reference : ∃ (before after : List (SessionAction Reference.crates))
    (first : PresentEvent Reference.crates) (again : VerifyCall Reference.crates)
    (final : Session Reference.crates),
    Run (Session.Step Reference.issuer ⟨Reference.zeros⟩) (Session.start Reference.publicKey)
      (before ++ .verify first again :: after) final ∧
    (∃ call, .verify first call ∈ before) ∧ again.result = .error .tagAlreadyUsed ∧
    ∀ context ∈ [Reference.challenge.presentationContext,
        Reference.otherChallenge.presentationContext],
      (acceptedUses context (before ++ .verify first again :: after)).length = 1 := by
  obtain ⟨before, final, first, second, call, again, other, hrun, hbefore, hcall, hissuer, hcontext,
    hsecond, hfirst, hother, hslot, hslot'⟩ := Reference.exists_session
  let trace := before ++ [.verify first again, .verify second other]
  have hevents : presents trace = [first, second] := by
    unfold presents at hbefore ⊢
    rw [List.filterMap_append, hbefore]
    rfl
  -- the two uses are stored under different scopes
  have hscope : first.verified ≠ second.verified := by
    intro h
    have hscopes := congrArg VerifiedPresentation.scope h
    simp only [PresentEvent.verified, hsecond, hfirst, hother, Credential.advance_issuerContext,
      Credential.advance_credentialContext, hissuer, hcontext] at hscopes
    exact Reference.presentationScope_ne hscopes
  have hcollision : TagsCollisionFree trace := by
    intro use huse use' huse' _ _ hverified
    rw [hevents] at huse huse'
    rcases List.mem_pair.mp huse with rfl | rfl <;> rcases List.mem_pair.mp huse' with rfl | rfl
    · exact ⟨rfl, rfl⟩
    · exact absurd hverified hscope
    · exact absurd hverified.symm hscope
    · exact ⟨rfl, rfl⟩
  obtain ⟨-, -, -, -, -, -, -, hdeliveries, hcapacity⟩ := honest_end_to_end Reference.laws
    Reference.issuer Reference.issuer_reachable ⟨Reference.zeros⟩ .direct hrun hcollision
  refine ⟨before, [.verify second other], first, again, final, hrun, ⟨call, hcall⟩,
    (hdeliveries before first again [.verify second other] rfl).1 ⟨call, hcall⟩, ?_⟩
  intro context hmem
  refine (hcapacity context 1 ?_).2 ?_ ?_
  · intro event hevent _
    rw [hevents] at hevent
    rcases List.mem_pair.mp hevent with rfl | rfl
    · rw [hfirst]
      exact ⟨rfl, rfl, hslot⟩
    · rw [hother]
      exact ⟨rfl, rfl, hslot'⟩
  · rw [hevents]
    refine List.length_pos_iff_exists_mem.mpr ?_
    rcases List.mem_pair.mp hmem with rfl | rfl
    · exact ⟨first, List.mem_filter.mpr ⟨by simp, by rw [hfirst]; simp⟩⟩
    · exact ⟨second, List.mem_filter.mpr ⟨by simp, by rw [hother]; simp⟩⟩
  · intro use huse
    have huse := (List.mem_filter.mp huse).1
    rw [hevents] at huse
    rcases List.mem_pair.mp huse with rfl | rfl
    · exact ⟨again, by simp⟩
    · exact ⟨other, by simp⟩

end VoleArc
