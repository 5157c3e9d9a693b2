import VoleArc.Protocol.Ledger

/-!
# VoleArc.Protocol.Exclusivity — one credential among strangers

The verifier that a client's presentations are delivered to also answers everyone else, with
arbitrary challenges and presentations.  It refuses a presentation of the client only when the slot
behind it was spent with the client's own secret, so whoever does not hold the secret takes nothing
away.
-/

namespace VoleArc

open Transition

variable {P : ArcParams} {K : Type} [Field K] {C : Crates P K}

/-! ### The client and the verifier -/

structure Exchange (C : Crates P K) where
  credential : Credential C
  verifier : Verifier C MemoryTagStore

inductive ExchangeAction (C : Crates P K) where
  | present (event : PresentEvent C)
  | verify (call : VerifyCall C)

/-- The client presents under the verifier's key; the calls of `verify` are anyone's. -/
inductive Exchange.Step : Exchange C → ExchangeAction C → Exchange C → Prop
  | present {s : Exchange C} {event : PresentEvent C} {after : Credential C}
      (hkey : event.publicKey = s.verifier.publicKey) (h : s.credential.PresentStep event after) :
      Exchange.Step s (.present event) { s with credential := after }
  | verify {s : Exchange C} {call : VerifyCall C} {verifier : Verifier C MemoryTagStore}
      (h : Verifier.Step memoryTagStore s.verifier call verifier) :
      Exchange.Step s (.verify call) { s with verifier := verifier }

/-- The client's calls of `present`. -/
def clientEvents (trace : List (ExchangeAction C)) : List (PresentEvent C) :=
  trace.filterMap fun
    | .present event => some event
    | .verify _ => none

theorem clientEvents_present (trace : List (ExchangeAction C)) (event : PresentEvent C) :
    clientEvents (trace ++ [.present event]) = clientEvents trace ++ [event] := by
  rw [clientEvents, List.filterMap_append]
  rfl

theorem clientEvents_verify (trace : List (ExchangeAction C)) (call : VerifyCall C) :
    clientEvents (trace ++ [.verify call]) = clientEvents trace := by
  rw [clientEvents, List.filterMap_append]
  exact List.append_nil _

/-- The call delivers what the use produced, for the challenge it was produced for. -/
def VerifyCall.Delivers (call : VerifyCall C) (use : PresentEvent C) : Prop :=
  use.result = .ok call.presentation ∧ call.challenge = use.challenge

/-- The presentation scope of a challenge under a key. -/
def PublicKey.presScope (publicKey : PublicKey C) (challenge : PresentationChallenge) : Bytes32 :=
  presentationScope C publicKey.context challenge.credentialContext.digest
    challenge.presentationContext.digest

/-- In one presentation scope, a tag of the client is the tag of its secret and its nonce only, and
the client's contexts have scopes of their own. -/
structure SlotsBind (extract : PresentationCircuit P → C.voleith.Proof → List Bool)
    (publicKey : PublicKey C) (start : Credential C) (trace : List (ExchangeAction C)) : Prop where
  tags : ∀ call, .verify call ∈ trace → call.result.isOk →
    ∀ secrets, call.Extracted extract publicKey secrets →
    ∀ use ∈ clientEvents trace, use.result.isOk →
      publicKey.presScope call.challenge = publicKey.presScope use.challenge →
      deriveTag secrets.secret (publicKey.presScope call.challenge) secrets.presentationNonce =
        deriveTag start.secret (publicKey.presScope use.challenge) use.nonce →
      secrets.secret = start.secret ∧ secrets.presentationNonce = use.nonce
  scopes : ∀ use ∈ clientEvents trace, ∀ use' ∈ clientEvents trace, use.result.isOk →
    use'.result.isOk → publicKey.presScope use.challenge = publicKey.presScope use'.challenge →
      use.challenge.presentationContext = use'.challenge.presentationContext

/-! ### The invariant -/

structure Exchange.Inv (publicKey : PublicKey C) (start : Credential C)
    (trace : List (ExchangeAction C)) (s : Exchange C) : Prop where
  publicKey_eq : s.verifier.publicKey = publicKey
  client : Run Credential.PresentStep start (clientEvents trace) s.credential
  keys : ∀ event ∈ clientEvents trace, event.publicKey = publicKey
  store : ∀ key, key ∈ s.verifier.store ↔ ∃ call, .verify call ∈ trace ∧
    call.acceptedKey = some key

/-- A call of `verify` over the process-local store inserts what it accepts. -/
theorem Verifier.Step.mem_store {v v' : Verifier C MemoryTagStore} {call : VerifyCall C}
    (h : Verifier.Step memoryTagStore v call v') (key : Bytes32 × Bytes32) :
    key ∈ v'.store ↔ key ∈ v.store ∨ call.acceptedKey = some key := by
  cases hproof : v.publicKey.verifyProofOnly call.challenge call.presentation with
  | error e =>
    unfold Verifier.Step Verifier.verify at h
    rw [hproof] at h
    obtain ⟨hresult, rfl⟩ := Prod.mk.inj h
    rw [VerifyCall.acceptedKey, ← hresult]
    simp
  | ok verified =>
    have hmemory := (Verifier.verify_memory hproof).symm.trans h
    obtain ⟨hresult, rfl⟩ := Prod.mk.inj hmemory
    rw [VerifyCall.acceptedKey, ← hresult]
    split_ifs with hin
    · simp only [Finset.mem_insert, or_false]
      exact ⟨fun hkey => hkey.elim (fun heq => heq ▸ hin) id, .inr⟩
    · simp only [Finset.mem_insert, Option.some.injEq]
      exact ⟨fun hkey => hkey.elim (fun heq => .inr heq.symm) .inl,
        fun hkey => hkey.elim .inr fun heq => .inl heq.symm⟩

theorem Exchange.Inv.step {publicKey : PublicKey C} {start : Credential C}
    {trace : List (ExchangeAction C)} {s s' : Exchange C} {action : ExchangeAction C}
    (h : Exchange.Inv publicKey start trace s) (hstep : Exchange.Step s action s') :
    Exchange.Inv publicKey start (trace ++ [action]) s' := by
  cases hstep with
  | @present event after hkey hpresent =>
    refine ⟨h.publicKey_eq, ?_, ?_, fun key => ?_⟩
    · rw [clientEvents_present]
      exact h.client.snoc hpresent
    · intro event' hevent
      rw [clientEvents_present] at hevent
      rcases List.mem_append.mp hevent with hevent | hevent
      · exact h.keys event' hevent
      · rw [List.mem_singleton.mp hevent, hkey, h.publicKey_eq]
    · rw [h.store]
      simp
  | @verify call verifier hverify =>
    refine ⟨hverify.publicKey_eq.trans h.publicKey_eq, ?_, ?_, fun key => ?_⟩
    · rw [clientEvents_verify]
      exact h.client
    · rw [clientEvents_verify]
      exact h.keys
    · rw [hverify.mem_store, h.store]
      constructor
      · rintro (⟨call', hmem, hkey⟩ | hkey)
        · exact ⟨call', List.mem_append_left _ hmem, hkey⟩
        · exact ⟨call, List.mem_append_right _ List.mem_cons_self, hkey⟩
      · rintro ⟨call', hmem, hkey⟩
        rcases List.mem_append.mp hmem with hmem | hmem
        · exact .inl ⟨call', hmem, hkey⟩
        · obtain rfl := ExchangeAction.verify.inj (List.mem_singleton.mp hmem)
          exact .inr hkey

theorem VerifyCall.isOk_of_acceptedKey {call : VerifyCall C} {key : Bytes32 × Bytes32}
    (h : call.acceptedKey = some key) : call.result.isOk := by
  rw [VerifyCall.acceptedKey] at h
  cases hresult : call.result with
  | error e => rw [hresult] at h; cases h
  | ok verified => rfl

/-- A proof carries one set of secrets. -/
theorem VerifyCall.Extracted.unique {extract : PresentationCircuit P → C.voleith.Proof → List Bool}
    {publicKey : PublicKey C} {call : VerifyCall C} {secrets secrets' : PresentationSecrets}
    (h : call.Extracted extract publicKey secrets)
    (h' : call.Extracted extract publicKey secrets') :
    secrets = secrets' :=
  witness_injective _ h.1 h'.1 (h.2.symm.trans h'.2)

section Runs

variable {publicKey : PublicKey C} {start : Credential C} {trace : List (ExchangeAction C)}
  {final : Exchange C}

theorem Exchange.inv_of_run
    (hrun : Run Exchange.Step ⟨start, Verifier.new publicKey⟩ trace final) :
    Exchange.Inv publicKey start trace final := by
  refine hrun.history (I := Exchange.Inv publicKey start) ⟨rfl, .nil, ?_, fun key => ?_⟩
    fun _ _ _ _ hinv hstep => hinv.step hstep
  · intro event hevent
    cases hevent
  · exact iff_of_false (Finset.notMem_empty key) (by simp)

/-- A use carries the tag of its nonce in the scope of its challenge, and its proof verifies. -/
theorem Exchange.Inv.use (hverify : C.VerifyComplete) (h : Exchange.Inv publicKey start trace final)
    {use : PresentEvent C} (huse : use ∈ clientEvents trace) {presentation : Presentation C}
    (hok : use.result = .ok presentation) :
    presentation.tag = deriveTag start.secret (publicKey.presScope use.challenge) use.nonce ∧
      publicKey.verifyProofOnly use.challenge presentation =
        .ok ⟨publicKey.presScope use.challenge, presentation.tag⟩ := by
  have hevents : ∀ use ∈ clientEvents trace, ∀ presentation, use.result = .ok presentation →
      presentation.tag = deriveTag start.secret (use.publicKey.presScope use.challenge) use.nonce ∧
        use.publicKey.verifyProofOnly use.challenge presentation =
          .ok ⟨use.publicKey.presScope use.challenge, presentation.tag⟩ := by
    refine h.client.forall_label (I := fun credential => credential =
      start.withCounters credential.nextNonces) rfl ?_
    intro t event u ht hstep
    obtain ⟨hbefore, rng, rng', hpresent⟩ := hstep
    constructor
    · rcases Credential.present_cases hpresent with ⟨-, -, rfl⟩ | ⟨-, -, -, -, rfl⟩
      · exact ht
      · conv_lhs => rw [ht]
        rfl
    · intro presentation hok
      rw [hok] at hpresent
      obtain ⟨hallows, htag, -⟩ := Credential.present_ok hpresent
      refine ⟨?_, Credential.present_verifies hverify hpresent⟩
      rw [htag, Credential.tag, hallows.issuer, hallows.credentialContext,
        PresentEvent.nonce, hbefore]
      conv_lhs => rw [ht]
      rfl
  have hkey := h.keys use huse
  rw [← hkey]
  exact hevents use huse presentation hok

/-- A delivery is refused when its pair was accepted before, and accepted otherwise. -/
theorem Exchange.delivery (hverify : C.VerifyComplete) {before after : List (ExchangeAction C)}
    {call : VerifyCall C}
    (hrun : Run Exchange.Step ⟨start, Verifier.new publicKey⟩ (before ++ .verify call :: after)
      final)
    {use : PresentEvent C} (huse : use ∈ clientEvents (before ++ .verify call :: after))
    (hdelivers : call.Delivers use) :
    let key := (publicKey.presScope use.challenge, call.presentation.tag)
    ((∃ other, .verify other ∈ before ∧ other.acceptedKey = some key) →
      call.result = .error .tagAlreadyUsed) ∧
    ((¬ ∃ other, .verify other ∈ before ∧ other.acceptedKey = some key) →
      call.acceptedKey = some key) := by
  obtain ⟨t, t', hbefore, hstep, -⟩ := hrun.split
  have hinv := Exchange.inv_of_run hbefore
  obtain ⟨hproduced, hchallenge⟩ := hdelivers
  have hproof := ((Exchange.inv_of_run hrun).use hverify huse hproduced).2
  rw [← hchallenge, ← hinv.publicKey_eq] at hproof
  cases hstep with
  | verify hstep =>
    have hresult := congrArg Prod.fst ((Verifier.verify_memory hproof).symm.trans hstep)
    simp only at hresult
    rw [← hchallenge, ← hinv.publicKey_eq]
    refine ⟨fun hused => ?_, fun hunused => ?_⟩
    · rw [← hresult, if_pos ((hinv.store _).mpr hused)]
    · rw [VerifyCall.acceptedKey, ← hresult, if_neg fun hin => hunused ((hinv.store _).mp hin)]

/-- What an accepted call stored, and the secrets it carries. -/
theorem Exchange.extracted {extract : PresentationCircuit P → C.voleith.Proof → List Bool}
    (hextract : C.Extracts extract)
    (hrun : Run Exchange.Step ⟨start, Verifier.new publicKey⟩ trace final) {call : VerifyCall C}
    (hmem : .verify call ∈ trace) (hok : call.result.isOk) :
    call.acceptedKey = some (publicKey.presScope call.challenge, call.presentation.tag) ∧
      ∃ secrets, call.Extracted extract publicKey secrets ∧ call.presentation.tag =
        deriveTag secrets.secret (publicKey.presScope call.challenge)
          secrets.presentationNonce := by
  obtain ⟨before, after, rfl⟩ := List.append_of_mem hmem
  obtain ⟨t, t', hbefore, hstep, -⟩ := hrun.split
  have hpublic := (Exchange.inv_of_run hbefore).publicKey_eq
  cases hstep with
  | verify hstep =>
    obtain ⟨secrets, hsecrets, htag, -⟩ := exists_extracted hextract hstep hok
    have hpair := hstep.acceptedKey_eq hok
    rw [hpublic] at hsecrets htag hpair
    exact ⟨hpair, secrets, hsecrets, htag⟩

/-- After a delivery its pair has been accepted. -/
theorem Exchange.accepted_of_delivered (hverify : C.VerifyComplete)
    {before after : List (ExchangeAction C)}
    (hrun : Run Exchange.Step ⟨start, Verifier.new publicKey⟩ (before ++ after) final)
    {use : PresentEvent C} (huse : use ∈ clientEvents (before ++ after)) {earlier : VerifyCall C}
    (hmem : .verify earlier ∈ before) (hdelivers : earlier.Delivers use) :
    ∃ other, .verify other ∈ before ∧
      other.acceptedKey = some (publicKey.presScope use.challenge, earlier.presentation.tag) := by
  obtain ⟨before, between, rfl⟩ := List.append_of_mem hmem
  rw [List.append_assoc, List.cons_append] at hrun huse
  by_cases hused : ∃ other, .verify other ∈ before ∧
      other.acceptedKey = some (publicKey.presScope use.challenge, earlier.presentation.tag)
  · obtain ⟨other, hother, hkey⟩ := hused
    exact ⟨other, List.mem_append_left _ hother, hkey⟩
  · exact ⟨earlier, hmem, (Exchange.delivery hverify hrun huse hdelivers).2 hused⟩

/-- A presentation of the client is refused only for a slot spent with the client's own secret and
the same nonce; so if everything accepted under that secret was the client's own, the first delivery
of each presentation is the one that is accepted, whatever everyone else submits. -/
theorem refused_only_for_own_slot (hverify : C.VerifyComplete)
    {extract : PresentationCircuit P → C.voleith.Proof → List Bool} (hextract : C.Extracts extract)
    (hrun : Run Exchange.Step ⟨start, Verifier.new publicKey⟩ trace final)
    (hbind : SlotsBind extract publicKey start trace) {before after : List (ExchangeAction C)}
    {call : VerifyCall C} (htrace : trace = before ++ .verify call :: after) {use : PresentEvent C}
    (huse : use ∈ clientEvents trace) (hdelivers : call.Delivers use) :
    (¬ call.result.isOk → call.result = .error .tagAlreadyUsed ∧
      ∃ other, .verify other ∈ before ∧ other.result.isOk ∧
        publicKey.presScope other.challenge = publicKey.presScope use.challenge ∧
        ∃ secrets, other.Extracted extract publicKey secrets ∧ secrets.secret = start.secret ∧
          secrets.presentationNonce = use.nonce) ∧
    ((∀ other, .verify other ∈ before → other.result.isOk →
        ∀ secrets, other.Extracted extract publicKey secrets → secrets.secret = start.secret →
          ∃ use' ∈ clientEvents trace, other.Delivers use') →
      (call.result.isOk ↔ ¬ ∃ earlier, .verify earlier ∈ before ∧ earlier.Delivers use)) := by
  subst htrace
  have hinv := Exchange.inv_of_run hrun
  obtain ⟨hused, hunused⟩ := Exchange.delivery hverify hrun huse hdelivers
  have huseOk : use.result.isOk := by rw [hdelivers.1]; rfl
  -- a refusal is due to an accepted call that carried the client's secret and the same nonce
  have hrefused : ¬ call.result.isOk → call.result = .error .tagAlreadyUsed ∧
      ∃ other, .verify other ∈ before ∧ other.result.isOk ∧
        publicKey.presScope other.challenge = publicKey.presScope use.challenge ∧
        ∃ secrets, other.Extracted extract publicKey secrets ∧ secrets.secret = start.secret ∧
          secrets.presentationNonce = use.nonce := by
    intro hnot
    by_cases hpair : ∃ other, .verify other ∈ before ∧
        other.acceptedKey = some (publicKey.presScope use.challenge, call.presentation.tag)
    · obtain ⟨other, hmem, hkey⟩ := hpair
      have hmem' := List.mem_append_left (.verify call :: after) hmem
      have hok := VerifyCall.isOk_of_acceptedKey hkey
      obtain ⟨hpair, secrets, hsecrets, htag⟩ := Exchange.extracted hextract hrun hmem' hok
      obtain ⟨hscope, hother⟩ := Prod.mk.inj (Option.some.inj (hpair.symm.trans hkey))
      have hown := (hinv.use hverify huse hdelivers.1).1
      obtain ⟨hsecret, hnonce⟩ := hbind.tags other hmem' hok secrets hsecrets use huse huseOk hscope
        (htag.symm.trans (hother.trans hown))
      exact ⟨hused ⟨other, hmem, hkey⟩, other, hmem, hok, hscope, secrets, hsecrets,
        hsecret, hnonce⟩
    · exact absurd (VerifyCall.isOk_of_acceptedKey (hunused hpair)) hnot
  refine ⟨hrefused, fun hunstolen => ⟨?_, ?_⟩⟩
  · rintro hok ⟨earlier, hmem, hearlier⟩
    have hpresentation : earlier.presentation = call.presentation :=
      Except.ok.inj (hearlier.1.symm.trans hdelivers.1)
    obtain ⟨other, hother, hkey⟩ := Exchange.accepted_of_delivered hverify hrun huse hmem hearlier
    rw [hpresentation] at hkey
    rw [hused ⟨other, hother, hkey⟩] at hok
    cases hok
  · intro hfirst
    by_contra hnot
    obtain ⟨-, other, hmem, hok, hscope, secrets, hsecrets, hsecret, hnonce⟩ := hrefused hnot
    obtain ⟨use', huse', hdelivers'⟩ := hunstolen other hmem hok secrets hsecrets hsecret
    have hmem' := List.mem_append_left (.verify call :: after) hmem
    have huseOk' : use'.result.isOk := by rw [hdelivers'.1]; rfl
    -- the slot the other call spent is that of the use it delivered, which is the same use
    have hscope' := congrArg publicKey.presScope hdelivers'.2
    obtain ⟨-, secrets', hsecrets', htag⟩ := Exchange.extracted hextract hrun hmem' hok
    obtain rfl := hsecrets.unique hsecrets'
    have hown := (hinv.use hverify huse' hdelivers'.1).1
    obtain ⟨-, hnonce'⟩ := hbind.tags other hmem' hok secrets hsecrets use' huse' huseOk' hscope'
      (htag.symm.trans hown)
    have hcontext := hbind.scopes use huse use' huse' huseOk huseOk' (hscope.symm.trans hscope')
    obtain rfl := use_unique (nodup_nonces hinv.client) huse huseOk huse' huseOk' hcontext
      (hnonce.symm.trans hnonce')
    exact hfirst ⟨other, hmem, hdelivers'⟩

end Runs

/-- The reference presentation delivered twice: the second delivery is refused, for the slot the
first one spent with the reference secret. -/
theorem refused_only_for_own_slot_reference : ∃ (trace : List (ExchangeAction Reference.crates))
    (final : Exchange Reference.crates) (call : VerifyCall Reference.crates),
    Run Exchange.Step ⟨Reference.credential, Verifier.new Reference.publicKey⟩ trace final ∧
    .verify call ∈ trace ∧ call.result = .error .tagAlreadyUsed ∧
    ∃ other, .verify other ∈ trace ∧ other.result.isOk ∧
      ∃ secrets, other.Extracted (fun _ proof => proof) Reference.publicKey secrets ∧
        secrets.secret = Reference.zeros := by
  obtain ⟨presentation, hpresent⟩ := Reference.exists_presentStep
  obtain ⟨verifier, hverify⟩ := Reference.exists_verifyStep hpresent
  let event := Reference.useEvent presentation
  let call := Reference.acceptCall presentation
  let again : VerifyCall Reference.crates := { call with result := .error .tagAlreadyUsed }
  have hstored := (hverify.mem_store _).mpr (.inr (hverify.acceptedKey_eq rfl))
  obtain ⟨verifier', hagain⟩ : ∃ verifier',
    Verifier.Step memoryTagStore verifier again verifier' := by
    have hproof := hverify.verifyProofOnly rfl
    rw [← hverify.publicKey_eq] at hproof
    have hmemory := Verifier.verify_memory hproof
    rw [if_pos (by exact hstored)] at hmemory
    exact ⟨_, hmemory⟩
  let trace : List (ExchangeAction Reference.crates) :=
    [.present event, .verify call, .verify again]
  have hrun : Run Exchange.Step ⟨Reference.credential, Verifier.new Reference.publicKey⟩ trace _ :=
    Run.cons (.present rfl hpresent) <| Run.cons (.verify hverify) <| Run.single (.verify hagain)
  have hcalls : ∀ other, ExchangeAction.verify other ∈ trace → other.result.isOk →
    other = call := by
    intro other hmem hok
    simp only [trace, List.mem_cons, reduceCtorEq, ExchangeAction.verify.injEq, List.not_mem_nil,
      or_false, false_or] at hmem
    rcases hmem with rfl | rfl
    · rfl
    · cases hok
  have huses : ∀ use ∈ clientEvents trace, use = event := by
    intro use huse
    exact List.mem_singleton.mp huse
  have hbind : SlotsBind (fun _ proof => proof) Reference.publicKey Reference.credential trace := by
    refine ⟨?_, ?_⟩
    · rintro other hmem hok secrets ⟨hsig, hbits⟩ use huse - - -
      obtain rfl := hcalls other hmem hok
      obtain rfl := huses use huse
      rw [witness_injective _ hsig Reference.credential_valid.length_signature
        (hbits.symm.trans (Reference.proof_eq hpresent))]
      exact ⟨rfl, rfl⟩
    · intro use huse use' huse' _ _ _
      rw [huses use huse, huses use' huse']
  have hsplit : trace = [.present event, .verify call] ++ .verify again :: [] := rfl
  obtain ⟨hrefused, -⟩ := refused_only_for_own_slot Reference.verifyComplete Reference.extracts hrun
    hbind hsplit (List.mem_singleton_self event) ⟨rfl, rfl⟩
  have hnot : ¬ again.result.isOk := Bool.false_ne_true
  obtain ⟨hresult, other, hmem, hok, -, secrets, hsecrets, hsecret, -⟩ := hrefused hnot
  exact ⟨trace, _, again, hrun, by simp [trace], hresult, other, List.mem_append_left _ hmem, hok,
    secrets, hsecrets, hsecret⟩

end VoleArc
