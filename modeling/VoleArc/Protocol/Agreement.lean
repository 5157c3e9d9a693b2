import VoleArc.Protocol.Exclusivity
import VoleArc.Statements

/-!
# VoleArc.Protocol.Agreement — what an acceptance says about its presenter

Devices present to relying parties of any keys that share one store.  A device may go back to an
older snapshot or to a copy, and presentations of any origin are submitted.  A proof is bound to its
whole statement, so an accepted use of a secret that only devices hold was presented by one of them
for just that challenge, and no presentation pays for two acceptances.
-/

namespace VoleArc

open Transition

variable {P : ArcParams} {K : Type} [Field K] {C : Crates P K} {S : Type}

/-! ### Devices and relying parties -/

structure Network (C : Crates P K) (S : Type) where
  devices : ℕ → Credential C
  store : S

inductive NetworkAction (C : Crates P K) where
  | present (device : ℕ) (event : PresentEvent C)
  | restore (device : ℕ) (bytes : Bytes)
  | verify (party : ℕ) (call : VerifyCall C)

/-- A device restores any bytes that decode to a credential of its own secret; the calls of `verify`
are anyone's. -/
inductive Network.Step (T : TagStore S) (keys : ℕ → PublicKey C) :
    Network C S → NetworkAction C → Network C S → Prop
  | present {s : Network C S} {device : ℕ} {event : PresentEvent C} {after : Credential C}
      (h : (s.devices device).PresentStep event after) :
      Network.Step T keys s (.present device event)
        { s with devices := Function.update s.devices device after }
  | restore {s : Network C S} {device : ℕ} {publicKey : PublicKey C} {bytes : Bytes}
      {credential : Credential C} (hbytes : Credential.fromBytes publicKey bytes = .ok credential)
      (hown : credential.secret = (s.devices device).secret) :
      Network.Step T keys s (.restore device bytes)
        { s with devices := Function.update s.devices device credential }
  | verify {s : Network C S} {party : ℕ} {call : VerifyCall C} {store : S}
      (h : Verifier.Step T ⟨keys party, s.store⟩ call ⟨keys party, store⟩) :
      Network.Step T keys s (.verify party call) { s with store := store }

def NetworkAction.acceptedKey : NetworkAction C → Option (Bytes32 × Bytes32)
  | .verify _ call => call.acceptedKey
  | _ => none

/-- The statement a use was proved for, and the one a call is checked against. -/
def PresentEvent.statement (event : PresentEvent C) (presentation : Presentation C) : Bytes :=
  presentationStatement P event.publicKey.context event.challenge presentation.tag

def VerifyCall.statement (publicKey : PublicKey C) (call : VerifyCall C) : Bytes :=
  presentationStatement P publicKey.context call.challenge call.presentation.tag

section Assumptions

variable (extract : PresentationCircuit P → C.voleith.Proof → List Bool) (known : Bytes32 → Prop)
  (keys : ℕ → PublicKey C)

/-- What is accepted carries a known secret, unless a device proved the same statement before. -/
def ProofsBind (actions : List (NetworkAction C)) : Prop :=
  ∀ before party call after, actions = before ++ .verify party call :: after → call.result.isOk →
    ∀ secrets, call.Extracted extract (keys party) secrets → known secrets.secret ∨
      ∃ device event presentation, .present device event ∈ before ∧
        event.result = .ok presentation ∧
        event.statement presentation = call.statement (keys party)

/-- An accepted tag is that of a use only for the secret and the nonce of the use. -/
def TagsBind (actions : List (NetworkAction C)) : Prop :=
  ∀ party call, .verify party call ∈ actions → call.result.isOk →
    ∀ secrets, call.Extracted extract (keys party) secrets →
    ∀ device event, .present device event ∈ actions → event.result.isOk →
      deriveTag secrets.secret ((keys party).presScope call.challenge) secrets.presentationNonce =
        deriveTag event.before.secret (event.publicKey.presScope event.challenge) event.nonce →
      secrets.secret = event.before.secret ∧ secrets.presentationNonce = event.nonce

/-- An acceptance at this position of the list, of a secret that is not known. -/
def UnknownAccepted (actions : List (NetworkAction C)) (i : ℕ) : Prop :=
  ∃ party call secrets, actions[i]? = some (.verify party call) ∧ call.result.isOk ∧
    call.Extracted extract (keys party) secrets ∧ ¬ known secrets.secret

end Assumptions

/-- The use is of these secrets, under the same issuer, for the challenge of the call with its limit
and its binding, and under the same tag. -/
structure PresentEvent.AgreesWith (event : PresentEvent C) (publicKey : PublicKey C)
    (call : VerifyCall C) (secrets : PresentationSecrets) : Prop where
  secret : event.before.secret = secrets.secret
  nonce : event.nonce = secrets.presentationNonce
  issuer : event.publicKey.context = publicKey.context
  challenge : event.challenge = call.challenge
  produced : ∃ proof, event.result = .ok ⟨call.presentation.tag, proof⟩

/-- The action at this position is such a use, by a device that started with the secret. -/
def PresentedAt (devices : ℕ → Credential C) (actions : List (NetworkAction C))
    (publicKey : PublicKey C) (call : VerifyCall C) (secrets : PresentationSecrets) (i : ℕ) :
      Prop :=
  ∃ device event, actions[i]? = some (NetworkAction.present device event) ∧
    (devices device).secret = secrets.secret ∧ event.AgreesWith publicKey call secrets

/-! ### What each step shows of its label -/

section Runs

variable {T : TagStore S} {keys : ℕ → PublicKey C} {devices : ℕ → Credential C} {store : S}
  {actions : List (NetworkAction C)} {final : Network C S}

/-- The facts about a label that its step shows. -/
def NetworkAction.Shows (extract : PresentationCircuit P → C.voleith.Proof → List Bool)
    (keys : ℕ → PublicKey C) (devices : ℕ → Credential C) : NetworkAction C → Prop
  | .present device event => event.before.secret = (devices device).secret ∧
      ∀ presentation, event.result = .ok presentation → presentation.tag =
        deriveTag event.before.secret (event.publicKey.presScope event.challenge) event.nonce
  | .restore _ _ => True
  | .verify party call => call.result.isOk →
      call.acceptedKey = some ((keys party).presScope call.challenge, call.presentation.tag) ∧
        ∃ secrets, call.Extracted extract (keys party) secrets ∧ call.presentation.tag =
          deriveTag secrets.secret ((keys party).presScope call.challenge) secrets.presentationNonce

/-- A device keeps its secret through every step. -/
theorem Network.Step.shows {extract : PresentationCircuit P → C.voleith.Proof → List Bool}
    (hextract : C.Extracts extract) {s s' : Network C S} {action : NetworkAction C}
    (hsecrets : ∀ device, (s.devices device).secret = (devices device).secret)
    (hstep : Network.Step T keys s action s') :
    (∀ device, (s'.devices device).secret = (devices device).secret) ∧
      action.Shows extract keys devices := by
  have hupdate : ∀ device (credential : Credential C),
      credential.secret = (s.devices device).secret → ∀ other,
        (Function.update s.devices device credential other).secret = (devices other).secret := by
    intro device credential hsecret other
    by_cases hother : other = device
    · subst hother
      rw [Function.update_self, hsecret, hsecrets]
    · rw [Function.update_of_ne hother, hsecrets]
  cases hstep with
  | @present device event after h =>
    obtain ⟨hbefore, rng, rng', hpresent⟩ := h
    refine ⟨hupdate device after ?_, (congrArg Credential.secret hbefore).trans (hsecrets device),
      ?_⟩
    · rcases Credential.present_cases hpresent with ⟨-, -, rfl⟩ | ⟨-, -, -, -, rfl⟩ <;> rfl
    · intro presentation hok
      rw [hok, ← hbefore] at hpresent
      obtain ⟨hallows, htag, -⟩ := Credential.present_ok hpresent
      rw [htag, Credential.tag, hallows.issuer, hallows.credentialContext]
      rfl
  | @restore device publicKey bytes credential hbytes hown =>
    exact ⟨hupdate device credential hown, trivial⟩
  | @verify party call store h =>
    refine ⟨hsecrets, fun hok => ?_⟩
    obtain ⟨secrets, hsecrets, htag, -⟩ := exists_extracted hextract h hok
    exact ⟨h.acceptedKey_eq hok, secrets, hsecrets, htag⟩

/-- The store's part of a run is a run of the store. -/
theorem Network.once_acceptedKey (hstore : T.AtMostOnce store)
    (hrun : Run (Network.Step T keys) ⟨devices, store⟩ actions final) :
    Once NetworkAction.acceptedKey actions := by
  have hsim : ∀ (t : Network C S) action u, Network.Step T keys t action u → ∃ calls,
      Run T.Step (Network.store t) calls (Network.store u) ∧
        calls.filterMap StoreCall.insertedKey = (NetworkAction.acceptedKey action).toList := by
    intro t action u hstep
    cases hstep with
    | present => exact ⟨[], .nil, rfl⟩
    | restore => exact ⟨[], .nil, rfl⟩
    | verify h => exact h.store
  obtain ⟨calls, hcalls, hkeys⟩ := hrun.simulate hsim
  rw [Once, ← hkeys]
  exact hstore _ _ hcalls

/-! ### Agreement -/

/-- The presentation behind one acceptance. -/
theorem Network.exists_source {extract : PresentationCircuit P → C.voleith.Proof → List Bool}
    {known : Bytes32 → Prop} (hname : P.NAME.length < 2 ^ 64)
    (hshows : ∀ action ∈ actions, action.Shows extract keys devices)
    (hproofs : ProofsBind extract known keys actions) (htags : TagsBind extract keys actions)
    {i : ℕ}
    {party : ℕ} {call : VerifyCall C} (hi : actions[i]? = some (.verify party call))
    (hok : call.result.isOk) {secrets : PresentationSecrets}
    (hsecrets : call.Extracted extract (keys party) secrets) (hunknown : ¬ known secrets.secret) :
    ∃ j < i, PresentedAt devices actions (keys party) call secrets j := by
  obtain ⟨before, after, hactions, hlength⟩ := exists_split_of_getElem? hi
  obtain ⟨device, event, presentation, hmem, hproduced, hstatement⟩ :=
    (hproofs before party call after hactions hok secrets hsecrets).resolve_left hunknown
  obtain ⟨-, hissuer, hchallenge, htag⟩ :=
    presentationStatement_inj hname hname ⟨[], (List.append_nil _).trans hstatement⟩
  obtain ⟨j, hj⟩ := List.mem_iff_getElem?.mp hmem
  have hlt : j < before.length := (List.getElem?_eq_some_iff.mp hj).1
  have hj' : actions[j]? = some (.present device event) := by
    rw [hactions, List.getElem?_append_left hlt, hj]
  obtain ⟨hdevice, hproducedTag⟩ := hshows _ (List.mem_of_getElem? hj')
  obtain ⟨-, secrets', hsecrets', hcallTag⟩ := hshows _ (List.mem_of_getElem? hi) hok
  obtain rfl := hsecrets.unique hsecrets'
  -- the tag of the call is that of its secrets and that of the use
  obtain ⟨hsecret, hnonce⟩ := htags party call (List.mem_of_getElem? hi) hok secrets hsecrets device
    event (List.mem_of_getElem? hj') (by rw [hproduced]; rfl)
      (hcallTag.symm.trans (htag.symm.trans (hproducedTag presentation hproduced)))
  exact ⟨j, hlength ▸ hlt, device, event, hj', hdevice.symm.trans hsecret.symm, hsecret.symm,
    hnonce.symm, hissuer, hchallenge, presentation.proof, by rw [hproduced, ← htag]⟩

/-- Every acceptance under a secret that only devices hold goes back to an earlier presentation by a
device that holds it, under the same issuer and for the same challenge, limit and binding included;
and different acceptances go back to different presentations.  Restored and copied devices change
nothing, and neither does what else is submitted. -/
theorem acceptances_agree {extract : PresentationCircuit P → C.voleith.Proof → List Bool}
    {known : Bytes32 → Prop} (hname : P.NAME.length < 2 ^ 64) (hextract : C.Extracts extract)
    (hstore : T.AtMostOnce store)
    (hrun : Run (Network.Step T keys) ⟨devices, store⟩ actions final)
    (hproofs : ProofsBind extract known keys actions) (htags : TagsBind extract keys actions) :
    ∃ source : ℕ → ℕ, Set.InjOn source {i | UnknownAccepted extract known keys actions i} ∧
      ∀ i party call, actions[i]? = some (.verify party call) → call.result.isOk →
        ∃ secrets, call.Extracted extract (keys party) secrets ∧ (known secrets.secret ∨
          source i < i ∧ PresentedAt devices actions (keys party) call secrets (source i)) := by
  have hshows : ∀ action ∈ actions, action.Shows extract keys devices :=
    hrun.forall_label (I := fun s => ∀ device, (s.devices device).secret = (devices device).secret)
      (fun _ => rfl) fun _ _ _ hsecrets hstep => hstep.shows hextract hsecrets
  have honce := Network.once_acceptedKey hstore hrun
  have hsource : ∀ i, ∃ j, ∀ party call (secrets : PresentationSecrets),
      actions[i]? = some (.verify party call) →
      call.result.isOk → call.Extracted extract (keys party) secrets → ¬ known secrets.secret →
        j < i ∧ PresentedAt devices actions (keys party) call secrets j := by
    intro i
    by_cases haccepted : UnknownAccepted extract known keys actions i
    · obtain ⟨party, call, secrets, hi, hok, hsecrets, hunknown⟩ := haccepted
      obtain ⟨j, hj, hagrees⟩ :=
        Network.exists_source hname hshows hproofs htags hi hok hsecrets hunknown
      refine ⟨j, fun party' call' secrets' hi' _ hsecrets' _ => ⟨hj, ?_⟩⟩
      obtain ⟨rfl, rfl⟩ := NetworkAction.verify.inj (Option.some.inj (hi.symm.trans hi'))
      obtain rfl := hsecrets.unique hsecrets'
      exact hagrees
    · exact ⟨0, fun party call secrets hi hok hsecrets hunknown =>
        absurd ⟨party, call, secrets, hi, hok, hsecrets, hunknown⟩ haccepted⟩
  choose source hsource using hsource
  refine ⟨source, ?_, ?_⟩
  · rintro i ⟨party, call, secrets, hi, hok, hsecrets, hunknown⟩ j
      ⟨party', call', secrets', hj, hok', hsecrets', hunknown'⟩ hsame
    obtain ⟨-, device, event, hevent, -, hagrees⟩ :=
      hsource i party call secrets hi hok hsecrets hunknown
    obtain ⟨-, device', event', hevent', -, hagrees'⟩ :=
      hsource j party' call' secrets' hj hok' hsecrets' hunknown'
    rw [← hsame, hevent] at hevent'
    obtain ⟨rfl, rfl⟩ := NetworkAction.present.inj (Option.some.inj hevent')
    -- both calls stored the pair of the use
    have hkeys := (hshows _ (List.mem_of_getElem? hi) hok).1
    have hkeys' := (hshows _ (List.mem_of_getElem? hj) hok').1
    obtain ⟨proof, hproduced⟩ := hagrees.produced
    obtain ⟨proof', hproduced'⟩ := hagrees'.produced
    have htag := congrArg Presentation.tag (Except.ok.inj (hproduced.symm.trans hproduced'))
    have hpair : call'.acceptedKey =
        some ((keys party).presScope call.challenge, call.presentation.tag) := by
      rw [hkeys', PublicKey.presScope, PublicKey.presScope, ← hagrees'.issuer, ← hagrees.issuer,
        ← hagrees'.challenge, ← hagrees.challenge]
      exact congrArg some (Prod.ext rfl htag.symm)
    exact honce.eq_of_getElem? hi hj hkeys hpair
  · intro i party call hi hok
    obtain ⟨-, secrets, hsecrets, -⟩ := hshows _ (List.mem_of_getElem? hi) hok
    refine ⟨secrets, hsecrets, ?_⟩
    by_cases hknown : known secrets.secret
    · exact .inl hknown
    · exact .inr (hsource i party call secrets hi hok hsecrets hknown)

end Runs

/-- A device presents, is set back to its snapshot and presents the same use again: the one
acceptance goes back to one of the two. -/
theorem acceptances_agree_reference : ∃ (actions : List (NetworkAction Reference.crates))
    (final : Network Reference.crates MemoryTagStore),
    Run (Network.Step memoryTagStore fun _ => Reference.publicKey)
      ⟨fun _ => Reference.credential, ∅⟩ actions final ∧
    ∃ i party call secrets j, actions[i]? = some (.verify party call) ∧ call.result.isOk ∧ j < i ∧
      PresentedAt (fun _ => Reference.credential) actions Reference.publicKey call secrets j := by
  obtain ⟨presentation, hpresent⟩ := Reference.exists_presentStep
  obtain ⟨verifier, hverify⟩ := Reference.exists_verifyStep hpresent
  let event := Reference.useEvent presentation
  let call := Reference.acceptCall presentation
  let actions : List (NetworkAction Reference.crates) := [.present 0 event,
    .restore 0 Reference.credential.toBytes, .present 0 event, .verify 0 call]
  have hrestore := Reference.credential_valid.fromBytes_toBytes
  obtain ⟨publicKey, store⟩ := verifier
  obtain rfl : publicKey = Reference.publicKey := hverify.publicKey_eq
  have hrun : Run (Network.Step memoryTagStore fun _ => Reference.publicKey)
      ⟨fun _ => Reference.credential, ∅⟩ actions _ :=
    Run.cons (.present hpresent) <|
      Run.cons (.restore hrestore (by simp only [Function.update_self]; rfl)) <|
        Run.cons (.present (by simpa only [Function.update_self] using hpresent)) <|
          Run.single (.verify hverify)
  have hcall : ∀ party other, NetworkAction.verify party other ∈ actions → other = call := by
    intro party other hmem
    simp only [actions, List.mem_cons, reduceCtorEq, NetworkAction.verify.injEq, List.not_mem_nil,
      or_false, false_or] at hmem
    exact hmem.2
  have hevent : ∀ device other, NetworkAction.present device other ∈ actions → other = event := by
    intro device other hmem
    simp only [actions, List.mem_cons, reduceCtorEq, NetworkAction.present.injEq, List.not_mem_nil,
      or_false, false_or] at hmem
    rcases hmem with ⟨-, hother⟩ | ⟨-, hother⟩ <;> exact hother
  have hproofs : ProofsBind (fun _ proof => proof) (fun _ => False) (fun _ => Reference.publicKey)
      actions := by
    intro before party other after hsplit _ secrets _
    obtain rfl := hcall party other (hsplit ▸ List.mem_append_right _ List.mem_cons_self)
    cases before with
    | nil => exact absurd (List.cons.inj hsplit).1 (by simp)
    | cons head before =>
      obtain ⟨rfl, -⟩ := List.cons.inj hsplit
      exact .inr ⟨0, event, presentation, List.mem_cons_self, rfl, rfl⟩
  have htags : TagsBind (fun _ proof => proof) (fun _ => Reference.publicKey) actions := by
    rintro party other hmem - secrets ⟨hsig, hbits⟩ device use huse - -
    obtain rfl := hcall party other hmem
    obtain rfl := hevent device use huse
    rw [witness_injective _ hsig Reference.credential_valid.length_signature
      (hbits.symm.trans (Reference.proof_eq hpresent))]
    exact ⟨rfl, rfl⟩
  obtain ⟨source, -, hagree⟩ := acceptances_agree (by decide) Reference.extracts
    memoryTagStore_atMostOnce hrun hproofs htags
  obtain ⟨secrets, -, hknown | ⟨hlt, hpresented⟩⟩ := hagree 3 0 call rfl rfl
  · exact hknown.elim
  · exact ⟨actions, _, hrun, 3, 0, call, secrets, source 3, rfl, rfl, hlt, hpresented⟩

end VoleArc
