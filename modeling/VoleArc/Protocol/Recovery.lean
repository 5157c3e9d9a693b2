import VoleArc.Protocol.EndToEnd
import VoleArc.Protocol.Cloning
import VoleArc.Protocol.Ledger

/-!
# VoleArc.Protocol.Recovery — issuance over an unreliable network

Clients save their pending state, crash and restore it; the issuer restarts from its key bytes; the
network repeats, delays, reorders, loses and makes up messages.  Every message and every saved state
is bytes that pass through the decoders.
-/

namespace VoleArc

open Transition Wire

variable {P : ArcParams} {K : Type} [Field K] {C : Crates P K}

/-! ### The parties and the network -/

/-- A client: pending state and request in memory, their encodings on disk, and what it finished. -/
structure Enrollee (C : Crates P K) where
  memory : Option (PendingIssue C × IssueRequest C)
  disk : Option (Bytes × Bytes)
  finished : List (Credential C)

/-- The issuer, the clients, and every message that was ever sent. -/
structure Enrollment (C : Crates P K) where
  issuer : Issuer C
  clients : ℕ → Enrollee C
  requests : List Bytes
  responses : List Bytes

inductive EnrollAction (C : Crates P K) where
  | prepare (client : ℕ) (pending : PendingIssue C) (request : IssueRequest C)
  | save (client : ℕ)
  | send (client : ℕ)
  | crash (client : ℕ)
  | restore (client : ℕ)
  | issue (call : IssueCall C)
  | restart (bytes : Bytes)
  | finish (client : ℕ) (response : IssueResponse C) (result : Except Error (Credential C))
  | injectRequest (bytes : Bytes)
  | injectResponse (bytes : Bytes)

def Enrollment.setClient (s : Enrollment C) (client : ℕ) (enrollee : Enrollee C) : Enrollment C :=
  { s with clients := Function.update s.clients client enrollee }

/-- A message is delivered any number of times, in any order, or never. -/
inductive Enrollment.Step (publicKey : PublicKey C) :
    Enrollment C → EnrollAction C → Enrollment C → Prop
  | prepare {s : Enrollment C} {client : ℕ} {credentialContext : CredentialContext}
    {rng rng' : C.Rng}
      {pending : PendingIssue C} {request : IssueRequest C}
      (hmemory : (s.clients client).memory = none) (hdisk : (s.clients client).disk = none)
      (h : publicKey.prepareIssue credentialContext rng = (.ok (pending, request), rng')) :
      Enrollment.Step publicKey s (.prepare client pending request)
        (s.setClient client { s.clients client with memory := some (pending, request) })
  | save {s : Enrollment C} {client : ℕ} {pending : PendingIssue C} {request : IssueRequest C}
      {bytes : Bytes} (hmemory : (s.clients client).memory = some (pending, request))
      (h : request.toBytes = some bytes) :
      Enrollment.Step publicKey s (.save client)
        (s.setClient client { s.clients client with disk := some (pending.toBytes, bytes) })
  | send {s : Enrollment C} {client : ℕ} {pending : PendingIssue C} {request : IssueRequest C}
      {bytes : Bytes} (hmemory : (s.clients client).memory = some (pending, request))
      (h : request.toBytes = some bytes) :
      Enrollment.Step publicKey s (.send client) { s with requests := s.requests ++ [bytes] }
  | crash {s : Enrollment C} {client : ℕ} :
      Enrollment.Step publicKey s (.crash client)
        (s.setClient client { s.clients client with memory := none })
  | restore {s : Enrollment C} {client : ℕ} {pendingBytes requestBytes : Bytes}
      {pending : PendingIssue C} {request : IssueRequest C}
      (hdisk : (s.clients client).disk = some (pendingBytes, requestBytes))
      (hpending : PendingIssue.fromBytes publicKey pendingBytes = .ok pending)
      (hrequest : IssueRequest.fromBytes requestBytes = .ok request) :
      Enrollment.Step publicKey s (.restore client)
        (s.setClient client { s.clients client with memory := some (pending, request) })
  | issue {s : Enrollment C} {call : IssueCall C} {bytes : Bytes} {rng rng' : C.Rng}
      (hsent : bytes ∈ s.requests) (hrequest : IssueRequest.fromBytes bytes = .ok call.request)
      (h : s.issuer.issue call.request call.credentialContext rng = (call.result, rng')) :
      Enrollment.Step publicKey s (.issue call)
        { s with responses := s.responses ++ call.result.toOption.toList.map IssueResponse.toBytes }
  | restart {s : Enrollment C} {bytes : Bytes} {issuer : Issuer C}
      (hsaved : s.issuer.keyBytes = some bytes) (h : Issuer.fromKeyBytes bytes = .ok issuer) :
      Enrollment.Step publicKey s (.restart bytes) { s with issuer := issuer }
  | finish {s : Enrollment C} {client : ℕ} {pending : PendingIssue C} {request : IssueRequest C}
      {bytes : Bytes} {response : IssueResponse C} {result : Except Error (Credential C)}
      (hmemory : (s.clients client).memory = some (pending, request)) (hsent : bytes ∈ s.responses)
      (hresponse : IssueResponse.fromBytes bytes = .ok response)
      (h : pending.finish publicKey request response = result) :
      Enrollment.Step publicKey s (.finish client response result)
        (s.setClient client { s.clients client with
          finished := (s.clients client).finished ++ result.toOption.toList })
  | injectRequest {s : Enrollment C} {bytes : Bytes} :
      Enrollment.Step publicKey s (.injectRequest bytes)
        { s with requests := s.requests ++ [bytes] }
  | injectResponse {s : Enrollment C} {bytes : Bytes} :
      Enrollment.Step publicKey s (.injectResponse bytes)
        { s with responses := s.responses ++ [bytes] }

def Enrollment.start (issuer : Issuer C) : Enrollment C where
  issuer := issuer
  clients _ := ⟨none, none, []⟩
  requests := []
  responses := []

/-! ### The invariant -/

/-- The client prepared this pending state and this request, in this order of the trace. -/
def PreparedIn (publicKey : PublicKey C) (trace : List (EnrollAction C)) (client : ℕ)
    (pending : PendingIssue C) (request : IssueRequest C) : Prop :=
  .prepare client pending request ∈ trace ∧ ∃ rng rng',
    publicKey.prepareIssue pending.credentialContext rng = (.ok (pending, request), rng')

/-- The opening a pending state holds. -/
def PendingIssue.opening (pending : PendingIssue C) : Opening :=
  ⟨pending.issuerContext, pending.credentialContext, pending.secret, pending.hidingNonce⟩

/-- A credential finished from the pending state: valid, unused, and holding its opening. -/
structure FinishedFrom (publicKey : PublicKey C) (pending : PendingIssue C)
    (credential : Credential C) : Prop where
  valid : credential.Valid publicKey
  holds : credential.Holds pending.opening
  unused : credential.nextNonces = ∅

structure Enrollee.Inv (publicKey : PublicKey C) (trace : List (EnrollAction C)) (client : ℕ)
    (enrollee : Enrollee C) : Prop where
  memory : ∀ pending request, enrollee.memory = some (pending, request) →
    PreparedIn publicKey trace client pending request
  disk : ∀ pendingBytes requestBytes, enrollee.disk = some (pendingBytes, requestBytes) →
    ∃ pending request, PreparedIn publicKey trace client pending request ∧
      pendingBytes = pending.toBytes ∧ request.toBytes = some requestBytes ∧
      ∀ pending' request', enrollee.memory = some (pending', request') →
        pending' = pending ∧ request' = request
  finished : ∀ credential ∈ enrollee.finished, ∃ pending request,
    PreparedIn publicKey trace client pending request ∧ FinishedFrom publicKey pending credential

theorem PreparedIn.concat {publicKey : PublicKey C} {trace : List (EnrollAction C)} {client : ℕ}
    {pending : PendingIssue C} {request : IssueRequest C}
    (h : PreparedIn publicKey trace client pending request) (action : EnrollAction C) :
    PreparedIn publicKey (trace ++ [action]) client pending request :=
  ⟨List.mem_append_left _ h.1, h.2⟩

theorem Enrollee.Inv.concat {publicKey : PublicKey C} {trace : List (EnrollAction C)} {client : ℕ}
    {enrollee : Enrollee C} (h : Enrollee.Inv publicKey trace client enrollee)
    (action : EnrollAction C) : Enrollee.Inv publicKey (trace ++ [action]) client enrollee where
  memory pending request hmemory := (h.memory pending request hmemory).concat action
  disk pendingBytes requestBytes hdisk := by
    obtain ⟨pending, request, hprepared, hrest⟩ := h.disk pendingBytes requestBytes hdisk
    exact ⟨pending, request, hprepared.concat action, hrest⟩
  finished credential hmem := by
    obtain ⟨pending, request, hprepared, hrest⟩ := h.finished credential hmem
    exact ⟨pending, request, hprepared.concat action, hrest⟩

/-- The restarts keep the issuer, and what each client has goes back to its own calls of
`prepare_issue`. -/
structure Enrollment.Inv (issuer : Issuer C) (trace : List (EnrollAction C)) (s : Enrollment C) :
    Prop where
  issuer_eq : s.issuer = issuer
  clients : ∀ client, Enrollee.Inv issuer.publicKey trace client (s.clients client)

theorem clients_setClient {publicKey : PublicKey C} {trace : List (EnrollAction C)}
    {action : EnrollAction C} {s : Enrollment C} {client : ℕ} {enrollee : Enrollee C}
    (h : ∀ client, Enrollee.Inv publicKey trace client (s.clients client))
    (henrollee : Enrollee.Inv publicKey (trace ++ [action]) client enrollee) (other : ℕ) :
    Enrollee.Inv publicKey (trace ++ [action]) other
      ((s.setClient client enrollee).clients other) := by
  by_cases hother : other = client
  · subst hother
    simpa only [Enrollment.setClient, Function.update_self] using henrollee
  · simp only [Enrollment.setClient, Function.update_of_ne hother]
    exact (h other).concat action

section Steps

variable {issuer : Issuer C} {trace : List (EnrollAction C)} {s s' : Enrollment C}

/-- A restored state is the one that was saved. -/
theorem Enrollee.Inv.restored (hproofs : C.voleith.CanonicalProofs) {publicKey : PublicKey C}
    {client : ℕ} {enrollee : Enrollee C} (h : Enrollee.Inv publicKey trace client enrollee)
    {pendingBytes requestBytes : Bytes} (hdisk : enrollee.disk = some (pendingBytes, requestBytes))
    {pending : PendingIssue C} {request : IssueRequest C}
    (hpending : PendingIssue.fromBytes publicKey pendingBytes = .ok pending)
    (hrequest : IssueRequest.fromBytes requestBytes = .ok request) :
    Enrollee.Inv publicKey trace client { enrollee with memory := some (pending, request) } := by
  obtain ⟨pending', request', hprepared, rfl, hbytes, -⟩ := h.disk _ _ hdisk
  obtain ⟨rng, rng', hprepare⟩ := hprepared.2
  have hpending' : pending = pending' :=
    (PendingIssue.Reachable.prepareIssue hprepare).delivered_eq (.wire rfl hpending)
  have hreachable : request'.Reachable := .prepareIssue hprepare
  have hrequest' : request = request' :=
    (issueRequestFormat_canonical hproofs).delivered_eq (fun _ _ h => length_le_of_decodeWith h)
      hreachable (.wire hbytes hrequest)
  subst hpending' hrequest'
  refine ⟨?_, ?_, h.finished⟩
  · intro pending'' request'' hmemory
    obtain ⟨rfl, rfl⟩ := Prod.mk.inj (Option.some.inj hmemory)
    exact hprepared
  · intro pendingBytes' requestBytes' hdisk'
    obtain ⟨hsame, hsame'⟩ := Prod.mk.inj (Option.some.inj (hdisk.symm.trans hdisk'))
    refine ⟨pending, request, hprepared, hsame.symm, hsame' ▸ hbytes, ?_⟩
    intro pending'' request'' hmemory
    obtain ⟨rfl, rfl⟩ := Prod.mk.inj (Option.some.inj hmemory)
    exact ⟨rfl, rfl⟩

/-- What `finish` returns for a decoded response. -/
theorem FinishedFrom.of_finish {publicKey : PublicKey C} {pending : PendingIssue C}
    {request : IssueRequest C} {bytes : Bytes} {response : IssueResponse C}
    {credential : Credential C} (hresponse : IssueResponse.fromBytes bytes = .ok response)
    (h : pending.finish publicKey request response = .ok credential) :
    FinishedFrom publicKey pending credential := by
  have hholds := PendingIssue.holds_of_finish h
  obtain ⟨hissuer, -, heval, rfl⟩ := PendingIssue.finish_eq_ok.mp h
  rw [pending.commitment_eq] at heval
  exact ⟨⟨(IssueResponse.fromBytes_eq_ok.mp hresponse).2.2, CounterMap.canonical_empty, hissuer,
    heval⟩, hholds, rfl⟩

theorem Enrollment.Inv.step (hkeys : C.mayo.CanonicalKeys) (hproofs : C.voleith.CanonicalProofs)
    (hmatches : issuer.Matches) {action : EnrollAction C} (h : Enrollment.Inv issuer trace s)
    (hstep : Enrollment.Step issuer.publicKey s action s') :
    Enrollment.Inv issuer (trace ++ [action]) s' := by
  have hclients := fun client => (h.clients client).concat action
  cases hstep with
  | @prepare client credentialContext rng rng' pending request hmemory hdisk hprepare =>
    refine ⟨h.issuer_eq, clients_setClient h.clients ⟨?_, ?_, (hclients client).finished⟩⟩
    · intro pending' request' hmemory'
      obtain ⟨rfl, rfl⟩ := Prod.mk.inj (Option.some.inj hmemory')
      have hcontext := (PublicKey.prepareIssue_eq_ok hprepare).2.1
      exact ⟨List.mem_append_right _ List.mem_cons_self, rng, rng', hcontext ▸ hprepare⟩
    · intro pendingBytes requestBytes hdisk'
      rw [hdisk] at hdisk'
      cases hdisk'
  | @save client pending request bytes hmemory hbytes =>
    refine ⟨h.issuer_eq, clients_setClient h.clients ⟨(hclients client).memory, ?_,
      (hclients client).finished⟩⟩
    intro pendingBytes requestBytes hdisk
    obtain ⟨rfl, rfl⟩ := Prod.mk.inj (Option.some.inj hdisk)
    refine ⟨pending, request, (hclients client).memory _ _ hmemory, rfl, hbytes, ?_⟩
    intro pending' request' hmemory'
    obtain ⟨rfl, rfl⟩ := Prod.mk.inj (Option.some.inj (hmemory.symm.trans hmemory'))
    exact ⟨rfl, rfl⟩
  | send => exact ⟨h.issuer_eq, hclients⟩
  | @crash client =>
    refine ⟨h.issuer_eq, clients_setClient h.clients ⟨?_, ?_, (hclients client).finished⟩⟩
    · intro pending request hmemory
      cases hmemory
    · intro pendingBytes requestBytes hdisk
      obtain ⟨pending, request, hprepared, hpending, hrequest, -⟩ :=
        (hclients client).disk _ _ hdisk
      exact ⟨pending, request, hprepared, hpending, hrequest, fun _ _ hmemory => by cases hmemory⟩
  | @restore client pendingBytes requestBytes pending request hdisk hpending hrequest =>
    exact ⟨h.issuer_eq, clients_setClient h.clients
      (((h.clients client).restored hproofs hdisk hpending hrequest).concat _)⟩
  | issue => exact ⟨h.issuer_eq, hclients⟩
  | @restart bytes restarted hsaved hrestart =>
    rw [h.issuer_eq] at hsaved
    exact ⟨Issuer.eq_of_restart hkeys hmatches hsaved hrestart, hclients⟩
  | @finish client pending request bytes response result hmemory hsent hresponse hfinish =>
    refine ⟨h.issuer_eq, clients_setClient h.clients ⟨(hclients client).memory,
      (hclients client).disk, ?_⟩⟩
    intro credential hmem
    rcases List.mem_append.mp hmem with hmem | hmem
    · exact (hclients client).finished credential hmem
    · cases result with
      | error e => cases hmem
      | ok credential' =>
        obtain rfl : credential = credential' := List.mem_singleton.mp hmem
        exact ⟨pending, request, (hclients client).memory _ _ hmemory, .of_finish hresponse hfinish⟩
  | injectRequest => exact ⟨h.issuer_eq, hclients⟩
  | injectResponse => exact ⟨h.issuer_eq, hclients⟩

theorem Enrollment.inv_of_run (hkeys : C.mayo.CanonicalKeys) (hproofs : C.voleith.CanonicalProofs)
    (hmatches : issuer.Matches)
    (hrun : Run (Enrollment.Step issuer.publicKey) (Enrollment.start issuer) trace s) :
    Enrollment.Inv issuer trace s := by
  refine hrun.history (I := Enrollment.Inv issuer) ⟨rfl, fun client => ⟨?_, ?_, ?_⟩⟩
    fun _ _ _ _ hinv hstep => hinv.step hkeys hproofs hmatches hstep
  · intro pending request hmemory
    cases hmemory
  · intro pendingBytes requestBytes hdisk
    cases hdisk
  · intro credential hmem
    cases hmem

end Steps

/-! ### Responses -/

section Responses

variable {issuer : Issuer C} {pending : PendingIssue C} {request request' : IssueRequest C}
  {credentialContext : CredentialContext} {rng rng' : C.Rng} {response : IssueResponse C}

/-- A response finishes every pending state of its issuer with the commitment it was made for. -/
theorem finish_of_commitment_eq (hspre : C.mayo.SpreCorrect) (hmatches : issuer.Matches)
    (h : issuer.issue request' credentialContext rng = (.ok response, rng'))
    (hissuer : pending.issuerContext = issuer.publicKey.context)
    (hown : request.commitment = pending.commitment)
    (hcommitment : request'.commitment = pending.commitment) :
    ∃ credential, pending.finish issuer.publicKey request response = .ok credential := by
  refine ⟨_, PendingIssue.finish_eq_ok.mpr ⟨hissuer, hown, ?_, rfl⟩⟩
  rw [show issuer.publicKey.mayo = C.mayo.publicKey issuer.secret from hmatches, ← hcommitment]
  exact hspre _ _ _ _ (Issuer.issue_eq_ok h).2

/-- A response that finishes a pending state was made for its commitment, or two signed targets
coincide. -/
theorem target_eq_of_finish (hspre : C.mayo.SpreCorrect) (hmatches : issuer.Matches)
    (h : issuer.issue request' credentialContext rng = (.ok response, rng'))
    {credential : Credential C}
    (hfinish : pending.finish issuer.publicKey request response = .ok credential) :
    signedCredentialTarget P pending.commitment response.salt =
      signedCredentialTarget P request'.commitment response.salt := by
  obtain ⟨-, -, heval, -⟩ := PendingIssue.finish_eq_ok.mp hfinish
  have hsigned := hspre _ _ _ _ (Issuer.issue_eq_ok h).2
  rw [show issuer.publicKey.mayo = C.mayo.publicKey issuer.secret from hmatches, hsigned] at heval
  exact (Option.some.inj heval).symm

theorem length_pendingBytes (pending : PendingIssue C) : pending.toBytes.length ≤ maxWireBytes := by
  have hmax : maxWireBytes = 33554432 := rfl
  have hlen : pending.toBytes.length = 137 := by
    simp only [PendingIssue.toBytes, List.length_append, length_header, Vector.length_toList]
  omega

theorem length_responseBytes (h : response.signature.length = P.KN) :
    response.toBytes.length ≤ maxWireBytes := by
  have hmax : maxWireBytes = 33554432 := rfl
  have hsmall := P.small
  have hlen : response.toBytes.length = 41 + (P.KN + 1) / 2 := by
    simp only [IssueResponse.toBytes, List.length_append, length_header, Vector.length_toList,
      packNibbles_eq, length_packGf16, h]
    omega
  omega

end Responses

/-! ### Whole runs -/

section Runs

variable {issuer : Issuer C} {trace : List (EnrollAction C)} {final : Enrollment C}

/-- Whatever the network delivers and whoever crashes, a client resumes exactly what it prepared,
and every credential it finishes is valid, unused and holds the opening of one of its own calls of
`prepare_issue`; a response finishes nothing but the commitment it was made for, unless two signed
targets coincide. -/
theorem enrollment_safe (hkeys : C.mayo.CanonicalKeys) (htrapgen : C.mayo.TrapgenCorrect)
    (hproofs : C.voleith.CanonicalProofs) (hspre : C.mayo.SpreCorrect) (hissuer : issuer.Reachable)
    (hrun : Run (Enrollment.Step issuer.publicKey) (Enrollment.start issuer) trace final) :
    final.issuer = issuer ∧
    (∀ client pending request, (final.clients client).memory = some (pending, request) →
      PreparedIn issuer.publicKey trace client pending request) ∧
    (∀ client, ∀ credential ∈ (final.clients client).finished, ∃ pending request,
      PreparedIn issuer.publicKey trace client pending request ∧
        FinishedFrom issuer.publicKey pending credential) ∧
    ∀ before client response credential after,
      trace = before ++ .finish client response (.ok credential) :: after → ∃ pending request,
        PreparedIn issuer.publicKey before client pending request ∧
        FinishedFrom issuer.publicKey pending credential ∧
        ∀ call, .issue call ∈ trace → call.result = .ok response →
          signedCredentialTarget P pending.commitment response.salt =
            signedCredentialTarget P call.request.commitment response.salt := by
  have hmatches := hissuer.matches hkeys htrapgen
  have hinv := Enrollment.inv_of_run hkeys hproofs hmatches hrun
  refine ⟨hinv.issuer_eq, fun client => (hinv.clients client).memory,
    fun client => (hinv.clients client).finished, ?_⟩
  rintro before client response credential after rfl
  obtain ⟨t, t', hbefore, hstep, -⟩ := hrun.split
  have hpast := Enrollment.inv_of_run hkeys hproofs hmatches hbefore
  cases hstep with
  | @finish _ pending request bytes _ _ hmemory hsent hresponse hfinish =>
    refine ⟨pending, request, (hpast.clients client).memory _ _ hmemory,
      .of_finish hresponse hfinish, fun call hmem hok => ?_⟩
    obtain ⟨earlier, later, htrace⟩ := List.append_of_mem hmem
    rw [htrace] at hrun
    obtain ⟨u, u', hearlier, hissue, -⟩ := hrun.split
    have hissuer' := (Enrollment.inv_of_run hkeys hproofs hmatches hearlier).issuer_eq
    cases hissue with
    | issue _ _ hissue =>
      rw [hok, hissuer'] at hissue
      exact target_eq_of_finish hspre hmatches hissue hfinish

/-- From a reachable state a saved client gets a credential of its opening: it restores, sends the
saved request again, has it answered and finishes. -/
theorem Enrollment.exists_continuation (laws : C.Laws) (hmatches : issuer.Matches)
    (h : Enrollment.Inv issuer trace final) {client : ℕ} {pendingBytes requestBytes : Bytes}
    (hdisk : (final.clients client).disk = some (pendingBytes, requestBytes))
    (hsize : requestBytes.length ≤ maxWireBytes) :
    ∃ pending request continuation resumed credential,
      PreparedIn issuer.publicKey trace client pending request ∧ pendingBytes = pending.toBytes ∧
      Run (Enrollment.Step issuer.publicKey) final continuation resumed ∧
      continuation.length = 4 ∧ credential ∈ (resumed.clients client).finished ∧
      FinishedFrom issuer.publicKey pending credential := by
  obtain ⟨pending, request, hprepared, rfl, hbytes, -⟩ := (h.clients client).disk _ _ hdisk
  obtain ⟨rng, rng', hprepare⟩ := hprepared.2
  obtain ⟨hcontext, -, hown, -⟩ := PublicKey.prepareIssue_eq_ok hprepare
  have hpending : PendingIssue.fromBytes issuer.publicKey pending.toBytes = .ok pending :=
    PendingIssue.fromBytes_eq_ok.mpr ⟨length_pendingBytes pending, rfl, hcontext⟩
  have hrequest : IssueRequest.fromBytes requestBytes = .ok request :=
    (IssueRequest.fromBytes_eq_ok laws.canonicalProofs).mpr ⟨hsize, hbytes,
      IssueRequest.Reachable.length_commitment laws.canonicalProofs (.prepareIssue hprepare)⟩
  obtain ⟨response, rng'', hissue⟩ :=
    Issuer.issue_succeeds laws.verifyComplete laws.spreSucceeds issuer hprepare rng
  have hlen := laws.spreLength _ _ _ _ (Issuer.issue_eq_ok hissue).2
  have hresponse : IssueResponse.fromBytes response.toBytes = .ok response :=
    IssueResponse.fromBytes_eq_ok.mpr ⟨length_responseBytes hlen, rfl, hlen⟩
  obtain ⟨credential, hfinish⟩ :=
    finish_of_commitment_eq laws.spreCorrect hmatches hissue hcontext hown hown
  let restored := final.setClient client
    { final.clients client with memory := some (pending, request) }
  let call : IssueCall C := ⟨request, pending.credentialContext, .ok response⟩
  have hmemory : (restored.clients client).memory = some (pending, request) := by
    simp only [restored, Enrollment.setClient, Function.update_self]
  have hanswer : restored.issuer.issue call.request call.credentialContext rng =
      (call.result, rng'') := by
    rw [show restored.issuer = issuer from h.issuer_eq]
    exact hissue
  refine ⟨pending, request, [.restore client, .send client, .issue call,
    .finish client response (.ok credential)], _, credential, hprepared, rfl,
    Run.cons (.restore hdisk hpending hrequest) <| Run.cons (.send hmemory hbytes) <|
      Run.cons (.issue (List.mem_append_right _ List.mem_cons_self) hrequest hanswer) <|
        Run.single (.finish hmemory (List.mem_append_right _ List.mem_cons_self) hresponse hfinish),
    rfl, ?_, .of_finish hresponse hfinish⟩
  simp only [Enrollment.setClient, Function.update_self]
  exact List.mem_append_right _ List.mem_cons_self

end Runs

/-! ### A client that crashes -/

namespace Reference

/-- A client of the reference issuer that prepared, saved and crashed. -/
theorem exists_saved : ∃ (trace : List (EnrollAction crates)) (s : Enrollment crates)
    (pendingBytes requestBytes : Bytes),
    Run (Enrollment.Step publicKey) (Enrollment.start issuer) trace s ∧ .crash 0 ∈ trace ∧
    (s.clients 0).disk = some (pendingBytes, requestBytes) ∧ (s.clients 0).memory = none ∧
    requestBytes.length ≤ maxWireBytes := by
  obtain ⟨pending, request, rng, hprepare⟩ :=
    PublicKey.prepareIssue_succeeds proveComplete publicKey ⟨zeros⟩ (0 : ℕ)
  obtain ⟨-, -, hcommitment, rng₁, hproof⟩ := PublicKey.prepareIssue_eq_ok hprepare
  have hbits : List.length (α := Bool) request.proof = issueBits := by
    rw [(prove_eq_ok hproof).2]
    exact length_issueWitness _ _ _
  have hproofBytes : (crates.voleith.proofToBytes request.proof).length = issueBits :=
    (List.length_map _).trans hbits
  have hlen : (packNibbles request.commitment).length = 32 := by
    rw [packNibbles_eq, length_packGf16, hcommitment, pending.commitment_eq,
      length_credentialTarget]
    rfl
  have hbits' : issueBits = 10112 := rfl
  have hmax : maxWireBytes = 33554432 := rfl
  have hbytes : request.toBytes = some (header [] WIRE_ISSUE_REQUEST mayo2.WIRE_ID ++
      packNibbles request.commitment ++ framed (crates.voleith.proofToBytes request.proof)) :=
    putBytes_eq_some.mpr ⟨by rw [hproofBytes, hbits']; norm_num, rfl⟩
  have hmemory : (((Enrollment.start issuer).setClient 0
      { (Enrollment.start issuer).clients 0 with
        memory := some (pending, request) }).clients 0).memory = some (pending, request) := rfl
  refine ⟨[.prepare 0 pending request, .save 0, .crash 0], _, _, _,
    Run.cons (.prepare rfl rfl hprepare) <| Run.cons (.save hmemory hbytes) <| Run.single .crash,
      by simp, rfl, rfl, ?_⟩
  simp only [framed, List.length_append, length_header, hlen, length_u32ToLeBytes, hproofBytes]
  omega

end Reference

/-- The crashed reference client ends up with a valid credential of an opening it prepared. -/
theorem enrollment_safe_reference : ∃ (trace : List (EnrollAction Reference.crates))
    (final : Enrollment Reference.crates) (credential : Credential Reference.crates),
    Run (Enrollment.Step Reference.publicKey) (Enrollment.start Reference.issuer) trace final ∧
    EnrollAction.crash 0 ∈ trace ∧ credential ∈ (final.clients 0).finished ∧
    ∃ pending request, PreparedIn Reference.publicKey trace 0 pending request ∧
      FinishedFrom Reference.publicKey pending credential := by
  obtain ⟨trace, crashed, pendingBytes, requestBytes, hrun, hcrash, hdisk, -, hsize⟩ :=
    Reference.exists_saved
  have hinv := Enrollment.inv_of_run Reference.canonicalKeys Reference.canonicalProofs
    Reference.issuer_matches hrun
  obtain ⟨-, -, continuation, resumed, credential, -, -, hresumed, -, hmem, -⟩ :=
    Enrollment.exists_continuation Reference.laws Reference.issuer_matches hinv hdisk hsize
  have hall := hrun.append hresumed
  obtain ⟨-, -, hfinished, -⟩ := enrollment_safe Reference.canonicalKeys Reference.trapgenCorrect
    Reference.canonicalProofs Reference.spreCorrect Reference.issuer_reachable hall
  exact ⟨_, resumed, credential, hall, List.mem_append_left _ hcrash, hmem, hfinished 0 _ hmem⟩

end VoleArc
