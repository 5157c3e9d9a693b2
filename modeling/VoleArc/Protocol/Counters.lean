import VoleArc.Protocol.Presenting

/-!
# VoleArc.Protocol.Counters — the client's counters over runs of `present`

Each call either leaves the credential alone or moves the counter of its own context up by one, so
the successful calls of one context use consecutive nonces.
-/

namespace VoleArc

open Transition

variable {P : ArcParams} {K : Type} [Field K] {C : Crates P K}

/-! ### One call -/

/-- The same credential with other counters. -/
def Credential.withCounters (self : Credential C) (nextNonces : CounterMap) : Credential C :=
  { self with nextNonces := nextNonces }

@[simp] theorem Credential.withCounters_tag (self : Credential C) (nextNonces : CounterMap)
    (context : PresentationContext) (nonce : U32) :
    (self.withCounters nextNonces).tag context nonce = self.tag context nonce := rfl

/-- A counter below a limit does not wrap. -/
theorem toNat_add_one_of_lt {n limit : U32} (h : n < limit) : (n + 1).toNat = n.toNat + 1 := by
  bv_omega

/-! ### Runs -/

/-- One call of `present`, with the credential it was made on. -/
structure PresentEvent (C : Crates P K) where
  before : Credential C
  publicKey : PublicKey C
  challenge : PresentationChallenge
  result : Except Error (Presentation C)

/-- The counter a call finds. -/
def PresentEvent.nonce (event : PresentEvent C) : U32 :=
  event.before.nextNonce event.challenge.presentationContext

def Credential.PresentStep (credential : Credential C) (event : PresentEvent C)
    (after : Credential C) : Prop :=
  event.before = credential ∧ ∃ rng rng' : C.Rng,
    credential.present event.publicKey event.challenge rng = (event.result, after, rng')

/-- The successful calls in a context. -/
def usesIn (context : PresentationContext) (events : List (PresentEvent C)) :
    List (PresentEvent C) :=
  events.filter fun event => event.result.isOk ∧ event.challenge.presentationContext = context

theorem usesIn_concat_of_not {context : PresentationContext} {events : List (PresentEvent C)}
    {event : PresentEvent C}
    (h : ¬ (event.result.isOk ∧ event.challenge.presentationContext = context)) :
    usesIn context (events ++ [event]) = usesIn context events := by
  rw [usesIn, List.filter_append, List.filter_cons_of_neg (by simpa using h), List.filter_nil,
    List.append_nil, usesIn]

theorem usesIn_concat {context : PresentationContext} {events : List (PresentEvent C)}
    {event : PresentEvent C} (hok : event.result.isOk)
    (hcontext : event.challenge.presentationContext = context) :
    usesIn context (events ++ [event]) = usesIn context events ++ [event] := by
  rw [usesIn, List.filter_append, List.filter_cons_of_pos (by simp [hok, hcontext]),
    List.filter_nil, usesIn]

/-- What a run from `start` has done to one context. -/
structure CounterTrace (start : Credential C) (context : PresentationContext)
    (events : List (PresentEvent C)) (final : Credential C) : Prop where
  frame : final = start.withCounters final.nextNonces
  counter : (final.nextNonce context).toNat =
    (start.nextNonce context).toNat + (usesIn context events).length
  nonces : (usesIn context events).map (fun event => event.nonce.toNat) =
    List.range' (start.nextNonce context).toNat (usesIn context events).length
  below : ∀ event ∈ usesIn context events, event.nonce < event.challenge.limit
  tags : ∀ event ∈ usesIn context events, ∀ presentation, event.result = .ok presentation →
    presentation.tag = start.tag context event.nonce

theorem CounterTrace.nil (start : Credential C) (context : PresentationContext) :
    CounterTrace start context [] start where
  frame := rfl
  counter := rfl
  nonces := rfl
  below := by simp [usesIn]
  tags := by simp [usesIn]

/-- A call that does not use the context leaves its trace as it is. -/
theorem CounterTrace.skip {start final after : Credential C} {context : PresentationContext}
    {events : List (PresentEvent C)} {event : PresentEvent C}
    (h : CounterTrace start context events final)
    (huse : ¬ (event.result.isOk ∧ event.challenge.presentationContext = context))
    (hframe : after = start.withCounters after.nextNonces)
    (hcounter : after.nextNonce context = final.nextNonce context) :
    CounterTrace start context (events ++ [event]) after := by
  refine ⟨hframe, ?_, ?_, ?_, ?_⟩ <;> rw [usesIn_concat_of_not huse]
  · rw [hcounter, h.counter]
  · exact h.nonces
  · exact h.below
  · exact h.tags

/-- One call extends the trace of every context. -/
theorem CounterTrace.step {start final after : Credential C} {context : PresentationContext}
    {events : List (PresentEvent C)} {event : PresentEvent C}
    (h : CounterTrace start context events final) (hstep : final.PresentStep event after) :
    CounterTrace start context (events ++ [event]) after := by
  obtain ⟨hbefore, rng, rng', hpresent⟩ := hstep
  rcases Credential.present_cases hpresent with
    ⟨e, hresult, rfl⟩ | ⟨hallows, proof, -, hresult, rfl⟩
  · exact h.skip (by simp [hresult, Except.isOk, Except.toBool]) h.frame rfl
  · have hframe : final.advance event.challenge.presentationContext = start.withCounters
        (final.advance event.challenge.presentationContext).nextNonces := by
      conv_lhs => rw [h.frame]
      rfl
    by_cases hcontext : event.challenge.presentationContext = context
    · have hok : event.result.isOk = true := by rw [hresult]; rfl
      have hnonce : event.nonce = final.nextNonce context := by
        rw [PresentEvent.nonce, hbefore, hcontext]
      have hlt : final.nextNonce context < event.challenge.limit := hcontext ▸ hallows.nonce_lt
      refine ⟨hframe, ?_, ?_, ?_, ?_⟩ <;> rw [usesIn_concat hok hcontext]
      · rw [hcontext, Credential.nextNonce_advance_self, toNat_add_one_of_lt hlt, h.counter,
          List.length_append, List.length_singleton, Nat.add_assoc]
      · rw [List.map_append, h.nonces, List.length_append, List.length_singleton,
          List.range'_concat, List.map_singleton, hnonce, h.counter, Nat.one_mul]
      · intro used hused
        rcases List.mem_append.mp hused with hused | hused
        · exact h.below used hused
        · rw [List.mem_singleton.mp hused, hnonce]
          exact hlt
      · intro used hused presentation hpres
        rcases List.mem_append.mp hused with hused | hused
        · exact h.tags used hused presentation hpres
        · rw [List.mem_singleton.mp hused] at hpres ⊢
          rw [hresult] at hpres
          rw [← Except.ok.inj hpres, hnonce, hcontext, h.frame, Credential.withCounters_tag,
            ← h.frame]
    · exact h.skip (fun huse => hcontext huse.2) hframe
        (Credential.nextNonce_advance_of_ne _ _ hcontext)

theorem counterTrace {start final : Credential C} {events : List (PresentEvent C)}
    (h : Run Credential.PresentStep start events final) (context : PresentationContext) :
    CounterTrace start context events final :=
  h.history (I := CounterTrace start context) (.nil start context)
    fun _ _ _ _ htrace hstep => htrace.step hstep

/-- The successful calls of a context have pairwise distinct nonces. -/
theorem nodup_nonces {start final : Credential C} {events : List (PresentEvent C)}
    (h : Run Credential.PresentStep start events final) (context : PresentationContext) :
    ((usesIn context events).map fun event => event.nonce.toNat).Nodup := by
  rw [(counterTrace h context).nonces]
  exact List.nodup_range'

/-- Where nonces are distinct, a successful call is determined by its context and its nonce. -/
theorem use_unique {events : List (PresentEvent C)}
    (hnodup : ∀ context, ((usesIn context events).map fun event => event.nonce.toNat).Nodup)
    {use use' : PresentEvent C} (huse : use ∈ events) (hok : use.result.isOk)
    (huse' : use' ∈ events) (hok' : use'.result.isOk)
    (hcontext : use.challenge.presentationContext = use'.challenge.presentationContext)
    (hnonce : use.nonce = use'.nonce) : use = use' := by
  let context := use.challenge.presentationContext
  have hmem : use ∈ usesIn context events := List.mem_filter.mpr ⟨huse, by simp [hok, context]⟩
  have hmem' : use' ∈ usesIn context events :=
    List.mem_filter.mpr ⟨huse', by simp [hok', context, hcontext]⟩
  exact List.inj_on_of_nodup_map (hnodup context) hmem hmem' (congrArg BitVec.toNat hnonce)

/-- Later successes need limits above the nonces already used. -/
theorem CounterTrace.limits {start final : Credential C} {context : PresentationContext}
    {events : List (PresentEvent C)} (h : CounterTrace start context events final) :
    (usesIn context events).Pairwise fun used later => used.nonce < later.challenge.limit := by
  have hlt : (usesIn context events).Pairwise fun used later =>
      used.nonce.toNat < later.nonce.toNat := by
    have hrange : (List.range' (start.nextNonce context).toNat
        (usesIn context events).length).Pairwise (· < ·) := List.pairwise_lt_range'
    rw [← h.nonces] at hrange
    exact List.pairwise_map.mp hrange
  refine hlt.imp_of_mem fun {used later} _ hlater hnonce => ?_
  exact BitVec.lt_trans hnonce (h.below later hlater)

/-- The counter state machine of a credential: what one call of `present` does, when it reaches
the prover, that the prover then decides it, and which nonces the successful calls of a context use
in every run. -/
theorem present_counters (credential : Credential C) :
    (∀ (publicKey : PublicKey C) (challenge : PresentationChallenge) (rng rng' : C.Rng)
        (result : Except Error (Presentation C)) (after : Credential C),
      credential.present publicKey challenge rng = (result, after, rng') →
      (∀ e, result = .error e → after = credential) ∧
      ∀ presentation, result = .ok presentation →
        let n := credential.nextNonce challenge.presentationContext
        n < challenge.limit ∧ (n + 1).toNat = n.toNat + 1 ∧
        presentation.tag = deriveTag credential.secret (presentationScope C
          credential.issuerContext credential.credentialContext.digest
            challenge.presentationContext.digest) n ∧
        after = credential.withCounters after.nextNonces ∧
        after.nextNonce challenge.presentationContext = n + 1 ∧
        ∀ other : PresentationContext, other ≠ challenge.presentationContext →
          after.nextNonces[other.digest]? = credential.nextNonces[other.digest]?) ∧
    (∀ (publicKey : PublicKey C) (challenge : PresentationChallenge),
      (∃ call, credential.proverCall publicKey challenge = .ok call) ↔
        credential.issuerContext = publicKey.context ∧
        credential.credentialContext = challenge.credentialContext ∧ challenge.limit ≠ 0 ∧
        credential.nextNonce challenge.presentationContext < challenge.limit ∧
        (challenge.presentationContext.digest ∈ credential.nextNonces ∨
          credential.contextCount < 4096)) ∧
    (∀ (publicKey : PublicKey C) (challenge : PresentationChallenge),
      (∀ e, credential.proverCall publicKey challenge = .error e → ∀ rng : C.Rng,
        credential.present publicKey challenge rng = (.error e, credential, rng)) ∧
      ∀ call, credential.proverCall publicKey challenge = .ok call →
        credential.Proves publicKey challenge call) ∧
    ∀ (events : List (PresentEvent C)) (final : Credential C),
      Run Credential.PresentStep credential events final → ∀ context : PresentationContext,
        final = credential.withCounters final.nextNonces ∧
        (usesIn context events).map (fun event => event.nonce.toNat) =
          List.range' (credential.nextNonce context).toNat (usesIn context events).length ∧
        (final.nextNonce context).toNat =
          (credential.nextNonce context).toNat + (usesIn context events).length ∧
        (∀ event ∈ usesIn context events, event.nonce < event.challenge.limit ∧
          ∀ presentation, event.result = .ok presentation →
            presentation.tag = credential.tag context event.nonce) ∧
        (usesIn context events).Pairwise fun used later => used.nonce < later.challenge.limit := by
  refine ⟨?_, ?_, fun publicKey challenge => ⟨?_, ?_⟩, ?_⟩
  · intro publicKey challenge rng rng' result after hpresent
    rcases Credential.present_cases hpresent with ⟨e, rfl, rfl⟩ | ⟨hallows, proof, -, rfl, rfl⟩
    · exact ⟨fun _ _ => rfl, fun _ h => by cases h⟩
    · refine ⟨fun _ h => (by cases h), fun presentation h => ?_⟩
      obtain rfl := Except.ok.inj h
      refine ⟨hallows.nonce_lt, toNat_add_one_of_lt hallows.nonce_lt, rfl, rfl,
        Credential.nextNonce_advance_self _ _, fun other hother => ?_⟩
      rw [Credential.advance_get, if_neg hother.symm]
  · intro publicKey challenge
    simp only [Credential.proverCall_eq_ok, exists_and_left, exists_eq, and_true]
    exact ⟨fun h => ⟨h.issuer, h.credentialContext, h.limit_ne_zero, h.nonce_lt, h.slot⟩,
      fun ⟨hissuer, hcredential, hlimit, hlt, hslot⟩ => ⟨hissuer, hcredential, hlimit, hslot, hlt⟩⟩
  · exact fun e => Credential.present_of_error
  · exact fun call => Credential.proves_of_ok
  · intro events final hrun context
    have htrace := counterTrace hrun context
    exact ⟨htrace.frame, htrace.nonces, htrace.counter,
      fun event hevent => ⟨htrace.below event hevent, htrace.tags event hevent⟩, htrace.limits⟩

end VoleArc
