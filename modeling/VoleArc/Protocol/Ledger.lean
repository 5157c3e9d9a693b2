import VoleArc.Protocol.Accounting
import VoleArc.Circuit.Commitment
import VoleArc.Lib.Quota

/-!
# VoleArc.Protocol.Ledger — what was issued bounds what is accepted

Issuers and verifiers answer whatever they are sent, in any order: requests and presentations are
arbitrary, issuers restart from their key bytes, and stores may be lost.  The service refines the
ideal rate limiter.  Its holders are the issued lineages, its ledgers the tag stores, and its slots
the hidden nonces behind the accepted tags.
-/

namespace VoleArc

open Transition

variable {P : ArcParams} {K : Type} [Field K] {C : Crates P K} {S : Type}

/-! ### The service -/

/-- One call of `issue` and what it returned. -/
structure IssueCall (C : Crates P K) where
  request : IssueRequest C
  credentialContext : CredentialContext
  result : Except Error (IssueResponse C)

/-- The issuers of any number of keys, and any number of tag stores. -/
structure Service (C : Crates P K) (S : Type) where
  issuers : ℕ → Issuer C
  stores : ℕ → S

inductive ServiceAction (C : Crates P K) where
  | issue (key : ℕ) (call : IssueCall C)
  | restart (key : ℕ) (bytes : Bytes)
  | verify (key store : ℕ) (call : VerifyCall C)
  | loseStore (store : ℕ)

/-- Requests, presentations, contexts and limits are arbitrary; a lost store starts over. -/
inductive Service.Step (T : TagStore S) (fresh : S) :
    Service C S → ServiceAction C → Service C S → Prop
  | issue {s : Service C S} {key : ℕ} {call : IssueCall C} {rng rng' : C.Rng}
      (h : (s.issuers key).issue call.request call.credentialContext rng = (call.result, rng')) :
      Service.Step T fresh s (.issue key call) s
  | restart {s : Service C S} {key : ℕ} {bytes : Bytes} {issuer : Issuer C}
      (hsaved : (s.issuers key).keyBytes = some bytes)
      (h : Issuer.fromKeyBytes bytes = .ok issuer) :
      Service.Step T fresh s (.restart key bytes)
        { s with issuers := Function.update s.issuers key issuer }
  | verify {s : Service C S} {key store : ℕ} {call : VerifyCall C} {verifier : Verifier C S}
      (h : Verifier.Step T ⟨(s.issuers key).publicKey, s.stores store⟩ call verifier) :
      Service.Step T fresh s (.verify key store call)
        { s with stores := Function.update s.stores store verifier.store }
  | loseStore {s : Service C S} {store : ℕ} :
      Service.Step T fresh s (.loseStore store)
        { s with stores := Function.update s.stores store fresh }

def Service.start (issuers : ℕ → Issuer C) (fresh : S) : Service C S := ⟨issuers, fun _ => fresh⟩

/-! ### Lineages -/

/-- A credential scope and the hidden values of an opening under it. -/
structure Lineage where
  credScope : Bytes32
  secret : Bytes32
  hidingNonce : Bytes32
  deriving DecidableEq

/-- The circuit `issue` verifies the request against. -/
def IssueCall.circuit (call : IssueCall C) (publicKey : PublicKey C) : IssueCircuit P where
  credentialScope := credentialScope C publicKey.context call.credentialContext.digest
  target := call.request.commitment

/-- The call was answered, and the proof it accepted opens the commitment to this lineage. -/
structure IssueCall.Issues (extract : IssueCircuit P → C.voleith.Proof → List Bool)
    (publicKey : PublicKey C) (call : IssueCall C) (lineage : Lineage) : Prop where
  isOk : call.result.isOk
  credScope : lineage.credScope = credentialScope C publicKey.context call.credentialContext.digest
  opens : extract (call.circuit publicKey) call.request.proof =
    (call.circuit publicKey).witness lineage.secret lineage.hidingNonce

/-- The secrets extracted from the proof of a call of `verify`. -/
def VerifyCall.Extracted (extract : PresentationCircuit P → C.voleith.Proof → List Bool)
    (publicKey : PublicKey C) (call : VerifyCall C) (secrets : PresentationSecrets) : Prop :=
  let circuit := publicKey.presentationCircuit call.challenge call.presentation.tag
  secrets.signature.length = P.KN ∧ extract circuit call.presentation.proof =
    circuit.witness secrets

/-- The lineage of secrets presented in a call. -/
def VerifyCall.lineage (publicKey : PublicKey C) (call : VerifyCall C)
    (secrets : PresentationSecrets) :
    Lineage where
  credScope := credentialScope C publicKey.context call.challenge.credentialContext.digest
  secret := secrets.secret
  hidingNonce := secrets.hidingNonce

def Lineage.commitment (P : ArcParams) (lineage : Lineage) : List GF16 :=
  credentialTarget P lineage.credScope lineage.secret lineage.hidingNonce

section Laws

variable {extract : PresentationCircuit P → C.voleith.Proof → List Bool}
  {extractIssue : IssueCircuit P → C.voleith.Proof → List Bool}

/-- An answered request has a lineage. -/
theorem exists_issues (hextract : C.ExtractsIssue extractIssue) {issuer : Issuer C}
    {call : IssueCall C} {rng rng' : C.Rng}
    (h : issuer.issue call.request call.credentialContext rng = (call.result, rng'))
    (hok : call.result.isOk) :
    ∃ lineage, call.Issues extractIssue issuer.publicKey lineage ∧
      call.request.commitment = lineage.commitment P := by
  rcases Issuer.issue_cases h with ⟨-, he, -⟩ | ⟨-, -, he, -⟩ | ⟨-, hverify, -⟩
  · rw [he] at hok; cases hok
  · rw [he] at hok; cases hok
  · obtain ⟨secret, hidingNonce, hbits, htarget⟩ :=
      exists_opening_of_satisfiedBy C.fields (hextract _ _ _ _ hverify)
    exact ⟨⟨credentialScope C issuer.publicKey.context call.credentialContext.digest, secret,
      hidingNonce⟩, ⟨hok, rfl, hbits⟩, htarget⟩

theorem IssueCall.Issues.unique {publicKey : PublicKey C} {call : IssueCall C}
    {lineage lineage' : Lineage} (h : call.Issues extractIssue publicKey lineage)
    (h' : call.Issues extractIssue publicKey lineage') : lineage = lineage' := by
  obtain ⟨credScope, secret, hidingNonce⟩ := lineage
  obtain ⟨credScope', secret', hidingNonce'⟩ := lineage'
  obtain ⟨hsecret, hhiding⟩ := IssueCircuit.witness_inj (h.opens.symm.trans h'.opens)
  have hscope : credScope = credScope' := h.credScope.trans h'.credScope.symm
  simp only at hsecret hhiding
  rw [hscope, hsecret, hhiding]

/-- The secrets behind an accepted call determine its tag by a nonce below its limit. -/
theorem exists_extracted (hextract : C.Extracts extract) {T : TagStore S} {v v' : Verifier C S}
    {call : VerifyCall C} (h : Verifier.Step T v call v') (hok : call.result.isOk) :
    ∃ secrets, call.Extracted extract v.publicKey secrets ∧
      call.presentation.tag = deriveTag secrets.secret (presentationScope C v.publicKey.context
        call.challenge.credentialContext.digest call.challenge.presentationContext.digest)
          secrets.presentationNonce ∧ secrets.presentationNonce < call.challenge.limit := by
  cases hresult : call.result with
  | error e => rw [hresult] at hok; cases hok
  | ok verified =>
    obtain ⟨hlimit, hverify, -⟩ := PublicKey.verifyProofOnly_eq_ok.mp (h.verifyProofOnly hresult)
    obtain ⟨secrets, hsig, hbits, -, htag, hlt⟩ := exists_secrets_of_satisfiedBy C.fields hlimit
      (hextract _ _ _ _ hverify)
    exact ⟨secrets, ⟨hsig, hbits⟩, htag, hlt⟩

end Laws

/-! ### The log -/

/-- What an outsider sees of the service: a grant under a credential scope, an acceptance of a store
in a pair of scopes, and the loss of a store. -/
inductive Observation where
  | granted (credScope : Bytes32)
  | accepted (store : ℕ) (scopes : Bytes32 × Bytes32) (limit : ℕ)
  | lost (store : ℕ)
  deriving DecidableEq

/-- The scopes a verifier reconstructs from a challenge. -/
def PublicKey.scopes (publicKey : PublicKey C) (challenge : PresentationChallenge) :
    Bytes32 × Bytes32 :=
  (credentialScope C publicKey.context challenge.credentialContext.digest,
    presentationScope C publicKey.context challenge.credentialContext.digest
      challenge.presentationContext.digest)

def ServiceAction.observe (issuers : ℕ → Issuer C) : ServiceAction C → Option Observation
  | .issue key call => if call.result.isOk then
      some (.granted
        (credentialScope C (issuers key).publicKey.context call.credentialContext.digest))
    else none
  | .restart _ _ => none
  | .verify key store call => if call.result.isOk then
      some (.accepted store ((issuers key).publicKey.scopes call.challenge)
        call.challenge.limit.toNat)
    else none
  | .loseStore store => some (.lost store)

def Service.log (issuers : ℕ → Issuer C) (trace : List (ServiceAction C)) : List Observation :=
  trace.filterMap (ServiceAction.observe issuers)

/-- A lineage spends in the presentation scopes under its credential scope. -/
def Lineage.Owns (lineage : Lineage) (scopes : Bytes32 × Bytes32) : Prop :=
  lineage.credScope = scopes.1

instance : DecidableRel Lineage.Owns := fun lineage scopes =>
  inferInstanceAs (Decidable (lineage.credScope = scopes.1))

abbrev QuotaEvent := Quota.Event ℕ Lineage (Bytes32 × Bytes32)
abbrev QuotaState := Quota.State ℕ Lineage (Bytes32 × Bytes32)

def observeEvent : QuotaEvent → Observation
  | .enroll lineage => .granted lineage.credScope
  | .spend store _ scopes _ limit => .accepted store scopes limit
  | .lose store => .lost store

/-- What a slot of a lineage stores. -/
def slotKey (slot : Lineage × (Bytes32 × Bytes32) × ℕ) : Bytes32 × Bytes32 :=
  (slot.2.1.2, deriveTag slot.1.secret slot.2.1.2 (BitVec.ofNat 32 slot.2.2))

/-- A run of the rate limiter with the same log.  It enrolled the issued lineages, and the slots a
ledger recorded are keys the store has inserted since it was last fresh. -/
structure Service.Refines (T : TagStore S) (fresh : S) (issuers : ℕ → Issuer C)
    (extractIssue : IssueCircuit P → C.voleith.Proof → List Bool) (trace : List (ServiceAction C))
    (s : Service C S) (events : List QuotaEvent) (q : QuotaState) : Prop where
  run : Run (Quota.Step Lineage.Owns) .start events q
  observes : events.map observeEvent = Service.log issuers trace
  enrolled : ∀ lineage, lineage ∈ q.enrolled ↔ ∃ key call, .issue key call ∈ trace ∧
    call.Issues extractIssue (issuers key).publicKey lineage
  issuers_eq : s.issuers = issuers
  stores : ∀ store, ∃ calls, Run T.Step fresh calls (s.stores store) ∧
    ∀ slot ∈ q.spent store, slotKey slot ∈ calls.filterMap StoreCall.insertedKey

section Refinement

variable {T : TagStore S} {fresh : S} {issuers : ℕ → Issuer C}
  {extract : PresentationCircuit P → C.voleith.Proof → List Bool}
  {extractIssue : IssueCircuit P → C.voleith.Proof → List Bool}
  {trace : List (ServiceAction C)} {s : Service C S} {events : List QuotaEvent} {q : QuotaState}

theorem log_concat (issuers : ℕ → Issuer C) (trace : List (ServiceAction C))
    (action : ServiceAction C) : Service.log issuers (trace ++ [action]) =
      Service.log issuers trace ++ (action.observe issuers).toList := by
  rw [Service.log, Service.log, List.filterMap_append]
  cases h : action.observe issuers <;> simp [h]

theorem exists_issues_concat {action : ServiceAction C} {lineage : Lineage} :
    (∃ key call, .issue key call ∈ trace ++ [action] ∧
        call.Issues extractIssue (issuers key).publicKey lineage) ↔
      (∃ key call, .issue key call ∈ trace ∧
        call.Issues extractIssue (issuers key).publicKey lineage) ∨
      ∃ key call, action = .issue key call ∧
        call.Issues extractIssue (issuers key).publicKey lineage := by
  constructor
  · rintro ⟨key, call, hmem, hissues⟩
    rcases List.mem_append.mp hmem with hmem | hmem
    · exact .inl ⟨key, call, hmem, hissues⟩
    · exact .inr ⟨key, call, (List.mem_singleton.mp hmem).symm, hissues⟩
  · rintro (⟨key, call, hmem, hissues⟩ | ⟨key, call, rfl, hissues⟩)
    · exact ⟨key, call, List.mem_append_left _ hmem, hissues⟩
    · exact ⟨key, call, List.mem_append_right _ List.mem_cons_self, hissues⟩

/-- An action the rate limiter does not see: the issuers stay, and the stores insert at most
more. -/
theorem Service.Refines.silent (h : Service.Refines T fresh issuers extractIssue trace s events q)
    {action : ServiceAction C} {s' : Service C S} (hobserve : action.observe issuers = none)
    (hissuers : s'.issuers = s.issuers)
    (hstores : ∀ store, ∃ calls, Run T.Step (s.stores store) calls (s'.stores store)) :
    Service.Refines T fresh issuers extractIssue (trace ++ [action]) s' events q where
  run := h.run
  observes := by rw [log_concat, hobserve, Option.toList_none, List.append_nil, h.observes]
  enrolled := by
    intro lineage
    rw [h.enrolled, exists_issues_concat]
    refine (or_iff_left ?_).symm
    rintro ⟨key, call, rfl, hissues⟩
    rw [ServiceAction.observe, if_pos hissues.isOk] at hobserve
    cases hobserve
  issuers_eq := hissuers.trans h.issuers_eq
  stores := by
    intro store
    obtain ⟨calls, hcalls, hspent⟩ := h.stores store
    obtain ⟨calls', hcalls'⟩ := hstores store
    refine ⟨calls ++ calls', hcalls.append hcalls', fun slot hslot => ?_⟩
    rw [List.filterMap_append]
    exact List.mem_append_left _ (hspent slot hslot)

theorem Service.Refines.issue (hextract : C.ExtractsIssue extractIssue)
    (h : Service.Refines T fresh issuers extractIssue trace s events q) {key : ℕ}
    {call : IssueCall C} {rng rng' : C.Rng}
    (hissue : (s.issuers key).issue call.request call.credentialContext rng = (call.result, rng')) :
    ∃ events' q', Service.Refines T fresh issuers extractIssue (trace ++ [.issue key call]) s
      events' q' := by
  by_cases hok : call.result.isOk
  · rw [h.issuers_eq] at hissue
    obtain ⟨lineage, hissues, -⟩ := exists_issues hextract hissue hok
    refine ⟨events ++ [.enroll lineage], { q with enrolled := insert lineage q.enrolled },
      h.run.snoc .enroll, ?_, ?_, h.issuers_eq, h.stores⟩
    · rw [log_concat, List.map_append, h.observes, ServiceAction.observe, if_pos hok]
      exact congrArg _ (congrArg (fun scope => [Observation.granted scope]) hissues.credScope)
    · intro lineage'
      rw [Finset.mem_insert, h.enrolled, exists_issues_concat, or_comm]
      refine or_congr_right ⟨?_, ?_⟩
      · rintro rfl
        exact ⟨key, call, rfl, hissues⟩
      · rintro ⟨key', call', heq, hissues'⟩
        obtain ⟨rfl, rfl⟩ := ServiceAction.issue.inj heq
        exact hissues'.unique hissues
  · refine ⟨events, q, h.silent ?_ rfl fun store => ⟨[], .nil⟩⟩
    rw [ServiceAction.observe, if_neg hok]

/-- An acceptance is a spend of a slot that its ledger has not recorded. -/
theorem Service.Refines.accepted (hstore : T.AtMostOnce fresh)
    (h : Service.Refines T fresh issuers extractIssue trace s events q) {key store : ℕ}
    {call : VerifyCall C} {verifier : Verifier C S}
    (hstep : Verifier.Step T ⟨(s.issuers key).publicKey, s.stores store⟩ call verifier)
    (hok : call.result.isOk) {lineage : Lineage}
    (hissued : ∃ issueCall, .issue key issueCall ∈ trace ∧
      issueCall.Issues extractIssue (issuers key).publicKey lineage)
    (howns : lineage.Owns ((issuers key).publicKey.scopes call.challenge)) {nonce : U32}
    (hlt : nonce < call.challenge.limit) (htag : call.presentation.tag =
      deriveTag lineage.secret ((issuers key).publicKey.scopes call.challenge).2 nonce) :
    ∃ events' q', Service.Refines T fresh issuers extractIssue (trace ++ [.verify key store call])
      { s with stores := Function.update s.stores store verifier.store } events' q' := by
  let scopes := (issuers key).publicKey.scopes call.challenge
  let slot : Lineage × (Bytes32 × Bytes32) × ℕ := (lineage, scopes, nonce.toNat)
  obtain ⟨calls, hcalls, hspent⟩ := h.stores store
  obtain ⟨calls', hcalls', hkeys⟩ := hstep.store
  have hkey : call.acceptedKey = some (slotKey slot) := by
    rw [hstep.acceptedKey_eq hok, htag, h.issuers_eq, slotKey, BitVec.ofNat_toNat,
      BitVec.setWidth_eq]
    rfl
  have hinserted : (calls ++ calls').filterMap StoreCall.insertedKey =
      calls.filterMap StoreCall.insertedKey ++ [slotKey slot] := by
    rw [List.filterMap_append, hkeys, hkey]
    rfl
  -- the store would have inserted the key of a recorded slot twice
  have hfresh : slot ∉ q.spent store := by
    intro hslot
    have honce := hstore _ _ (hcalls.append hcalls')
    rw [Once, hinserted] at honce
    exact (List.nodup_append.mp honce).2.2 _ (hspent slot hslot) _ List.mem_cons_self rfl
  have henrolled : lineage ∈ q.enrolled := by
    obtain ⟨issueCall, hissue⟩ := hissued
    exact (h.enrolled lineage).mpr ⟨key, issueCall, hissue⟩
  refine ⟨events ++ [.spend store lineage scopes nonce.toNat call.challenge.limit.toNat],
    { q with spent := Function.update q.spent store (insert slot (q.spent store)) },
    h.run.snoc (.spend henrolled howns (BitVec.lt_def.mp hlt) hfresh), ?_, ?_, h.issuers_eq, ?_⟩
  · rw [log_concat, List.map_append, h.observes, ServiceAction.observe, if_pos hok]
    rfl
  · intro lineage'
    rw [h.enrolled, exists_issues_concat]
    refine (or_iff_left ?_).symm
    rintro ⟨key', issueCall, heq, -⟩
    cases heq
  · intro other
    by_cases hother : other = store
    · subst hother
      refine ⟨calls ++ calls', by simpa using hcalls.append hcalls', ?_⟩
      intro slot' hslot'
      rw [hinserted]
      simp only [Function.update_self, Finset.mem_insert] at hslot'
      rcases hslot' with rfl | hslot'
      · exact List.mem_append_right _ List.mem_cons_self
      · exact List.mem_append_left _ (hspent slot' hslot')
    · simp only [Function.update_of_ne hother]
      exact h.stores other

theorem Service.Refines.loseStore
    (h : Service.Refines T fresh issuers extractIssue trace s events q) (store : ℕ) :
    Service.Refines T fresh issuers extractIssue (trace ++ [.loseStore store])
      { s with stores := Function.update s.stores store fresh } (events ++ [.lose store])
      { q with spent := Function.update q.spent store ∅ } where
  run := h.run.snoc .lose
  observes := by
    rw [log_concat, List.map_append, h.observes]
    rfl
  enrolled := by
    intro lineage
    rw [h.enrolled, exists_issues_concat]
    refine (or_iff_left ?_).symm
    rintro ⟨key, call, heq, -⟩
    cases heq
  issuers_eq := h.issuers_eq
  stores := by
    intro other
    by_cases hother : other = store
    · subst hother
      refine ⟨[], by simpa using .nil, fun slot hslot => ?_⟩
      simp only [Function.update_self, Finset.notMem_empty] at hslot
    · simp only [Function.update_of_ne hother]
      exact h.stores other

/-- The issuers a restart brings back are the ones that saved their key bytes. -/
theorem Issuer.eq_of_restart (hkeys : C.mayo.CanonicalKeys) {issuer issuer' : Issuer C}
    (hmatches : issuer.Matches) {bytes : Bytes} (hsaved : issuer.keyBytes = some bytes)
    (h : Issuer.fromKeyBytes bytes = .ok issuer') : issuer' = issuer := by
  have hbound := ((Issuer.fromKeyBytes_eq_ok hkeys).mp h).1
  have hsame := (Issuer.fromKeyBytes_eq_ok hkeys).mpr ⟨hbound, hsaved, hmatches⟩
  rw [h] at hsame
  exact Except.ok.inj hsame

end Refinement

end VoleArc
