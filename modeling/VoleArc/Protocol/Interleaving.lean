import VoleArc.Protocol.Lifecycle

/-!
# VoleArc.Protocol.Interleaving — the order of presentation contexts does not matter

Seen from one presentation context a credential is one optional counter.  While the table has room,
or once the context has an entry, the calls of that context act on this counter alone; so
interleaving them differently with the calls of other contexts changes nothing.
-/

namespace VoleArc

open Transition

variable {P : ArcParams} {K : Type} [Field K] {C : Crates P K}

/-! ### One context -/

/-- What a caller sees of a call besides the proof: its error, or its tag. -/
def PresentEvent.outcome (event : PresentEvent C) : Except Error Bytes32 :=
  event.result.map Presentation.tag

/-- The calls in a context. -/
def callsIn (context : PresentationContext) (events : List (PresentEvent C)) :
    List (PresentEvent C) :=
  events.filter fun event => event.challenge.presentationContext = context

/-- A call of `present` that has a slot, on the counter of its context. -/
def Credential.useCounter (self : Credential C) (publicKey : PublicKey C) (counter : Option U32)
    (challenge : PresentationChallenge) : Except Error Bytes32 × Option U32 :=
  if self.issuerContext ≠ publicKey.context then (.error .wrongIssuer, counter)
  else if self.credentialContext ≠ challenge.credentialContext then
    (.error .wrongCredentialContext, counter)
  else if challenge.limit = 0 then (.error .invalidPresentationLimit, counter)
  else if counter.getD 0 ≥ challenge.limit then (.error .rateLimitReached, counter)
  else (.ok (self.tag challenge.presentationContext (counter.getD 0)), some (counter.getD 0 + 1))

theorem Credential.useCounter_of_allows {self : Credential C} {publicKey : PublicKey C}
    {challenge : PresentationChallenge} (h : self.Allows publicKey challenge) :
    self.useCounter publicKey (self.nextNonces[challenge.presentationContext.digest]?) challenge =
      (.ok (self.tag challenge.presentationContext (self.nextNonce challenge.presentationContext)),
        some (self.nextNonce challenge.presentationContext + 1)) := by
  have hlt := h.nonce_lt
  unfold Credential.nextNonce at hlt
  unfold Credential.useCounter
  rw [if_neg (not_not.mpr h.issuer), if_neg (not_not.mpr h.credentialContext),
    if_neg h.limit_ne_zero, if_neg (BitVec.not_le.mpr hlt)]
  rfl

/-- A call refused for want of anything but a slot is refused on the counter alone. -/
theorem Credential.useCounter_of_error {self : Credential C} {publicKey : PublicKey C}
    {challenge : PresentationChallenge} {e : Error}
    (hslot : challenge.presentationContext.digest ∈ self.nextNonces ∨
      self.contextCount < maxPresentationContexts)
    (h : self.proverCall publicKey challenge = .error e) :
    self.useCounter publicKey (self.nextNonces[challenge.presentationContext.digest]?) challenge =
      (.error e, self.nextNonces[challenge.presentationContext.digest]?) := by
  unfold Credential.proverCall at h
  unfold Credential.useCounter
  simp only at h
  split_ifs at h with hissuer hcredential hlimit hfull hnonce
  · obtain rfl := Except.error.inj h
    rw [if_pos hissuer]
  · obtain rfl := Except.error.inj h
    rw [if_neg hissuer, if_pos hcredential]
  · obtain rfl := Except.error.inj h
    rw [if_neg hissuer, if_neg hcredential, if_pos hlimit]
  · exfalso
    rcases hslot with hmem | hlt
    · rw [Std.ExtTreeMap.contains_iff_mem.mpr hmem] at hfull
      exact Bool.noConfusion hfull.1
    · exact absurd hlt (Nat.not_lt.mpr hfull.2)
  · obtain rfl := Except.error.inj h
    unfold Credential.nextNonce at hnonce
    rw [if_neg hissuer, if_neg hcredential, if_neg hlimit, if_pos hnonce]

/-- A call of `present` that has a slot acts on the counter of its context, whatever the generator
and the other counters are. -/
theorem Credential.Valid.present_useCounter (hprove : C.ProveComplete) (heval : C.EvalWhipped)
    {publicKey : PublicKey C} {self after : Credential C} (hvalid : self.Valid publicKey)
    {challenge : PresentationChallenge} {rng rng' : C.Rng} {result : Except Error (Presentation C)}
    (hslot : challenge.presentationContext.digest ∈ self.nextNonces ∨
      self.contextCount < maxPresentationContexts)
    (h : self.present publicKey challenge rng = (result, after, rng')) :
    self.useCounter publicKey (self.nextNonces[challenge.presentationContext.digest]?) challenge =
      (result.map Presentation.tag, after.nextNonces[challenge.presentationContext.digest]?) := by
  cases hcall : self.proverCall publicKey challenge with
  | error e =>
    have hpresent : self.present publicKey challenge rng = (.error e, self, rng) := by
      unfold Credential.present
      rw [hcall]
    rw [hpresent] at h
    obtain ⟨rfl, hafter⟩ := Prod.mk.inj h
    obtain ⟨rfl, -⟩ := Prod.mk.inj hafter
    exact self.useCounter_of_error hslot hcall
  | ok call =>
    obtain ⟨hallows, -⟩ := Credential.proverCall_eq_ok.mp hcall
    obtain ⟨presentation, rng'', hsucceeds⟩ := hvalid.present_succeeds hprove heval hallows rng
    obtain ⟨-, htag, -⟩ := Credential.present_ok hsucceeds
    rw [hsucceeds] at h
    obtain ⟨rfl, hafter⟩ := Prod.mk.inj h
    obtain ⟨rfl, -⟩ := Prod.mk.inj hafter
    rw [Credential.useCounter_of_allows hallows, Credential.advance_get, if_pos rfl]
    show _ = (Except.ok presentation.tag, _)
    rw [htag]

/-- A call leaves the counters of other contexts, and every field but the counters. -/
theorem Credential.PresentStep.frame {credential after : Credential C} {event : PresentEvent C}
    (h : credential.PresentStep event after) :
    after = credential.withCounters after.nextNonces ∧
    ∀ context, context ≠ event.challenge.presentationContext →
      after.nextNonces[context.digest]? = credential.nextNonces[context.digest]? := by
  obtain ⟨-, rng, rng', hpresent⟩ := h
  rcases Credential.present_cases hpresent with ⟨-, -, rfl⟩ | ⟨-, -, -, -, rfl⟩
  · exact ⟨rfl, fun _ _ => rfl⟩
  · refine ⟨rfl, fun context hcontext => ?_⟩
    rw [Credential.advance_get, if_neg hcontext.symm]

/-- A call records at most its own context, and forgets none. -/
theorem Credential.PresentStep.mem_iff {credential after : Credential C} {event : PresentEvent C}
    (h : credential.PresentStep event after) :
    (∀ key, key ∈ credential.nextNonces → key ∈ after.nextNonces) ∧
    ∀ key, key ∈ after.nextNonces →
      key = event.challenge.presentationContext.digest ∨ key ∈ credential.nextNonces := by
  obtain ⟨-, rng, rng', hpresent⟩ := h
  rcases Credential.present_cases hpresent with ⟨-, -, rfl⟩ | ⟨-, -, -, -, rfl⟩
  · exact ⟨fun _ hkey => hkey, fun _ hkey => .inr hkey⟩
  · simp only [Credential.advance, Std.ExtTreeMap.mem_insert,
      Std.LawfulEqCmp.compare_eq_iff_eq]
    exact ⟨fun _ hkey => .inr hkey, fun _ hkey => hkey.imp_left Eq.symm⟩

/-! ### Recorded contexts -/

/-- The contexts with a counter. -/
def Credential.recorded (self : Credential C) : Finset Bytes32 := self.nextNonces.keys.toFinset

theorem Credential.mem_recorded {self : Credential C} {key : Bytes32} :
    key ∈ self.recorded ↔ key ∈ self.nextNonces := by
  rw [Credential.recorded, List.mem_toFinset, Std.ExtTreeMap.mem_keys]

theorem Credential.card_recorded (self : Credential C) :
    self.recorded.card = self.contextCount := by
  rw [Credential.recorded, List.toFinset_card_of_nodup Std.ExtTreeMap.nodup_keys,
    Std.ExtTreeMap.length_keys, Credential.contextCount]

/-- The contexts of a run's calls. -/
def contextsOf (events : List (PresentEvent C)) : Finset Bytes32 :=
  (events.map fun event => event.challenge.presentationContext.digest).toFinset

theorem mem_contextsOf {events : List (PresentEvent C)} {key : Bytes32} :
    key ∈ contextsOf events ↔
      ∃ event ∈ events, event.challenge.presentationContext.digest = key := by
  rw [contextsOf, List.mem_toFinset, List.mem_map]

/-- A table whose contexts are among 4096 has room for each of them. -/
theorem Credential.slot_of_subset {self : Credential C} {contexts : Finset Bytes32}
    (hsubset : self.recorded ⊆ contexts) (hcard : contexts.card ≤ maxPresentationContexts)
    {key : Bytes32} (hkey : key ∈ contexts) :
    key ∈ self.nextNonces ∨ self.contextCount < maxPresentationContexts := by
  by_cases hmem : key ∈ self.nextNonces
  · exact .inl hmem
  · refine .inr ?_
    have hstrict : self.recorded ⊂ contexts :=
      Finset.ssubset_iff_of_subset hsubset |>.mpr ⟨key, hkey, mt Credential.mem_recorded.mp hmem⟩
    have hlt := Finset.card_lt_card hstrict
    rw [self.card_recorded] at hlt
    omega

/-! ### Runs, seen from one context -/

section Replay

variable {publicKey : PublicKey C} {start final : Credential C} {events : List (PresentEvent C)}
  {contexts : Finset Bytes32} {R : Credential C → Prop}

/-- A run with calls in `contexts`, from a credential with a property that leaves room for them: the
outcomes in a context, and its last counter, come from the challenges of that context. -/
theorem Credential.Valid.replay_callsIn (hprove : C.ProveComplete) (heval : C.EvalWhipped)
    (hvalid : start.Valid publicKey) (context : PresentationContext)
    (hslot : ∀ credential, R credential → context.digest ∈ contexts →
      context.digest ∈ credential.nextNonces ∨ credential.contextCount < maxPresentationContexts)
    (hkeep : ∀ credential event after, R credential →
      event.challenge.presentationContext.digest ∈ contexts →
        Credential.PresentStep credential event after → R after)
    (hrun : Run Credential.PresentStep start events final) (hstart : R start)
    (hkey : ∀ event ∈ events, event.publicKey = publicKey)
    (hcontexts : ∀ event ∈ events, event.challenge.presentationContext.digest ∈ contexts) :
    R final ∧ final = start.withCounters final.nextNonces ∧
    replay (start.useCounter publicKey) (start.nextNonces[context.digest]?)
        ((callsIn context events).map PresentEvent.challenge) =
      ((callsIn context events).map PresentEvent.outcome, final.nextNonces[context.digest]?) := by
  have hreplay := hrun.replay (I := fun credential : Credential C => credential.Valid publicKey ∧
      credential = start.withCounters credential.nextNonces ∧ R credential)
    (Q := fun event => event.publicKey = publicKey ∧
      event.challenge.presentationContext.digest ∈ contexts)
    (fun credential => credential.nextNonces[context.digest]?)
    (fun event => event.challenge.presentationContext = context) PresentEvent.challenge
    PresentEvent.outcome (start.useCounter publicKey) ?_ ⟨hvalid, rfl, hstart⟩
    (fun event hevent => ⟨hkey event hevent, hcontexts event hevent⟩)
  · obtain ⟨⟨-, hframe, hR⟩, hreplay⟩ := hreplay
    exact ⟨hR, hframe, hreplay⟩
  · rintro credential event after ⟨hcredential, hframe, hR⟩ ⟨heventKey, heventContext⟩ hstep
    obtain ⟨hafter, hothers⟩ := hstep.frame
    refine ⟨⟨hstep.valid hcredential, ?_, hkeep _ _ _ hR heventContext hstep⟩, ?_, ?_⟩
    · rw [hafter, hframe]
      rfl
    · rintro rfl
      obtain ⟨-, rng, rng', hpresent⟩ := hstep
      rw [heventKey] at hpresent
      have huse := hcredential.present_useCounter hprove heval
        (hslot credential hR heventContext) hpresent
      rw [hframe] at huse
      exact huse
    · intro hne
      exact hothers context (Ne.symm hne)

/-- A recorded context keeps its entry. -/
theorem Credential.Valid.replay_recorded (hprove : C.ProveComplete) (heval : C.EvalWhipped)
    (hvalid : start.Valid publicKey) {context : PresentationContext}
    (hrecorded : context.digest ∈ start.nextNonces)
    (hrun : Run Credential.PresentStep start events final)
    (hkey : ∀ event ∈ events, event.publicKey = publicKey) :
    replay (start.useCounter publicKey) (start.nextNonces[context.digest]?)
        ((callsIn context events).map PresentEvent.challenge) =
      ((callsIn context events).map PresentEvent.outcome, final.nextNonces[context.digest]?) := by
  have hreplay := hvalid.replay_callsIn hprove heval context
    (R := fun credential => context.digest ∈ credential.nextNonces)
    (fun _ hmem _ => .inl hmem) (fun _ _ _ hmem _ hstep => hstep.mem_iff.1 _ hmem) hrun hrecorded
    hkey (fun event hevent => mem_contextsOf.mpr ⟨event, hevent, rfl⟩)
  exact hreplay.2.2

end Replay

/-- While all contexts together number at most 4096, every context is seen on its own. -/
theorem Credential.Valid.replay_within (hprove : C.ProveComplete) (heval : C.EvalWhipped)
    {publicKey : PublicKey C} {start final : Credential C} {events : List (PresentEvent C)}
    {contexts : Finset Bytes32} (hvalid : start.Valid publicKey)
    (hrecorded : start.recorded ⊆ contexts) (hcard : contexts.card ≤ maxPresentationContexts)
    (hrun : Run Credential.PresentStep start events final)
    (hkey : ∀ event ∈ events, event.publicKey = publicKey)
    (hcontexts : ∀ event ∈ events, event.challenge.presentationContext.digest ∈ contexts)
    (context : PresentationContext) :
    final = start.withCounters final.nextNonces ∧
    replay (start.useCounter publicKey) (start.nextNonces[context.digest]?)
        ((callsIn context events).map PresentEvent.challenge) =
      ((callsIn context events).map PresentEvent.outcome, final.nextNonces[context.digest]?) := by
  refine (hvalid.replay_callsIn hprove heval context
    (R := fun credential => credential.recorded ⊆ contexts)
    (fun _ hsubset hkey => Credential.slot_of_subset hsubset hcard hkey) ?_ hrun hrecorded hkey
    hcontexts).2
  intro credential event after hsubset hcontext hstep key hmem
  rcases hstep.mem_iff.2 key (Credential.mem_recorded.mp hmem) with rfl | hmem
  · exact hcontext
  · exact hsubset (Credential.mem_recorded.mpr hmem)

/-! ### Two interleavings -/

/-- Calls with the same challenges in each context have the same contexts. -/
theorem mem_contextsOf_of_same {events events' : List (PresentEvent C)}
    (hsame : ∀ context, (callsIn context events).map PresentEvent.challenge =
      (callsIn context events').map PresentEvent.challenge) {event : PresentEvent C}
    (hevent : event ∈ events') :
    event.challenge.presentationContext.digest ∈ contextsOf events := by
  have hcall : event ∈ callsIn event.challenge.presentationContext events' :=
    List.mem_filter.mpr ⟨hevent, by simp⟩
  have hchallenge := List.mem_map_of_mem (f := PresentEvent.challenge) hcall
  rw [← hsame] at hchallenge
  obtain ⟨first, hfirst, heq⟩ := List.mem_map.mp hchallenge
  exact mem_contextsOf.mpr ⟨first, (List.mem_filter.mp hfirst).1, by rw [heq]⟩

/-- The order of contexts does not matter.  Two runs of a reachable credential that make the same
calls in each context, in the same order within it, give each context that has a counter the same
outcomes, tags and last counter; and if the recorded and the called contexts together number at most
4096, they do so for every context, and leave the same counters and the same encoded credential. -/
theorem present_order_independent (hprove : C.ProveComplete) (hspre : C.mayo.SpreLength P)
    (heval : C.EvalWhipped) {publicKey : PublicKey C} {start final final' : Credential C}
    (hreach : start.ReachableUnder publicKey) {events events' : List (PresentEvent C)}
    (hrun : Run Credential.PresentStep start events final)
    (hrun' : Run Credential.PresentStep start events' final')
    (hkey : ∀ event ∈ events, event.publicKey = publicKey)
    (hkey' : ∀ event ∈ events', event.publicKey = publicKey)
    (hsame : ∀ context, (callsIn context events).map PresentEvent.challenge =
      (callsIn context events').map PresentEvent.challenge) :
    (∀ context : PresentationContext, context.digest ∈ start.nextNonces →
      (callsIn context events).map PresentEvent.outcome =
        (callsIn context events').map PresentEvent.outcome ∧
      final.nextNonces[context.digest]? = final'.nextNonces[context.digest]?) ∧
    ((start.recorded ∪ contextsOf events).card ≤ maxPresentationContexts →
      (∀ context : PresentationContext, (callsIn context events).map PresentEvent.outcome =
        (callsIn context events').map PresentEvent.outcome) ∧
      final.nextNonces = final'.nextNonces ∧ final.toBytes = final'.toBytes) := by
  have hvalid := hreach.valid hspre
  constructor
  · intro context hrecorded
    have hreplay := hvalid.replay_recorded hprove heval hrecorded hrun hkey
    have hreplay' := hvalid.replay_recorded hprove heval hrecorded hrun' hkey'
    rw [hsame, hreplay'] at hreplay
    obtain ⟨houtcomes, hcounter⟩ := Prod.mk.inj hreplay
    exact ⟨houtcomes.symm, hcounter.symm⟩
  · intro hcard
    have hwithin := hvalid.replay_within hprove heval Finset.subset_union_left hcard hrun hkey
      fun event hevent => Finset.mem_union_right _ (mem_contextsOf.mpr ⟨event, hevent, rfl⟩)
    have hwithin' := hvalid.replay_within hprove heval Finset.subset_union_left hcard hrun' hkey'
      fun event hevent => Finset.mem_union_right _ (mem_contextsOf_of_same hsame hevent)
    have heach : ∀ context : PresentationContext,
        (callsIn context events).map PresentEvent.outcome =
          (callsIn context events').map PresentEvent.outcome ∧
        final.nextNonces[context.digest]? = final'.nextNonces[context.digest]? := by
      intro context
      have hreplay := (hwithin context).2
      rw [hsame, (hwithin' context).2] at hreplay
      obtain ⟨houtcomes, hcounter⟩ := Prod.mk.inj hreplay
      exact ⟨houtcomes.symm, hcounter.symm⟩
    have hcounters : final.nextNonces = final'.nextNonces :=
      Std.ExtTreeMap.ext_getElem? fun key => (heach ⟨key⟩).2
    refine ⟨fun context => (heach context).1, hcounters, ?_⟩
    have hframe := (hwithin ⟨Vector.replicate 32 0⟩).1
    have hframe' := (hwithin' ⟨Vector.replicate 32 0⟩).1
    rw [hframe, hframe', hcounters]

/-- `present` always returns: every list of challenges can be presented, with any generator. -/
theorem Credential.exists_run (publicKey : PublicKey C) (start : Credential C) (rng : C.Rng)
    (challenges : List PresentationChallenge) : ∃ events final,
      Run Credential.PresentStep start events final ∧
      events.map PresentEvent.challenge = challenges ∧
      ∀ event ∈ events, event.publicKey = publicKey := by
  induction challenges using List.reverseRecOn with
  | nil => exact ⟨[], start, .nil, rfl, by simp⟩
  | append_singleton challenges challenge ih =>
    obtain ⟨events, final, hrun, hchallenges, hkey⟩ := ih
    let event : PresentEvent C :=
      ⟨final, publicKey, challenge, (final.present publicKey challenge rng).1⟩
    have hstep : final.PresentStep event (final.present publicKey challenge rng).2.1 :=
      ⟨rfl, rng, (final.present publicKey challenge rng).2.2, rfl⟩
    refine ⟨events ++ [event], _, hrun.snoc hstep, by rw [List.map_append, hchallenges]; rfl, ?_⟩
    intro event' hevent
    rcases List.mem_append.mp hevent with hevent | hevent
    · exact hkey event' hevent
    · rw [List.mem_singleton.mp hevent]

theorem map_callsIn (context : PresentationContext) (events : List (PresentEvent C)) :
    (callsIn context events).map PresentEvent.challenge =
      (events.map PresentEvent.challenge).filter fun challenge =>
        challenge.presentationContext = context := by
  rw [callsIn, List.filter_map]
  rfl

/-- The reference credential, used in two contexts in both orders. -/
theorem present_order_independent_reference : ∃ events events' final final',
    Run (Credential.PresentStep (C := Reference.crates)) Reference.credential events final ∧
    Run Credential.PresentStep Reference.credential events' final' ∧
    events.map PresentEvent.challenge ≠ events'.map PresentEvent.challenge ∧
    final.toBytes = final'.toBytes := by
  let other : PresentationChallenge :=
    { Reference.challenge with presentationContext := ⟨Vector.replicate 32 1⟩ }
  have hne : Reference.challenge.presentationContext ≠ other.presentationContext := by decide
  obtain ⟨events, final, hrun, hchallenges, hkey⟩ := Reference.credential.exists_run
    Reference.publicKey (0 : ℕ) [Reference.challenge, other]
  obtain ⟨events', final', hrun', hchallenges', hkey'⟩ := Reference.credential.exists_run
    Reference.publicKey (0 : ℕ) [other, Reference.challenge]
  have hsame : ∀ context, (callsIn context events).map PresentEvent.challenge =
      (callsIn context events').map PresentEvent.challenge := by
    intro context
    rw [map_callsIn, map_callsIn, hchallenges, hchallenges']
    by_cases hfirst : Reference.challenge.presentationContext = context
    · have hother : other.presentationContext ≠ context := fun h => hne (hfirst.trans h.symm)
      simp [hfirst, hother]
    · simp [List.filter_cons, hfirst]
  have hcard : (Reference.credential.recorded ∪ contextsOf events).card ≤
      maxPresentationContexts := by
    refine (Finset.card_union_le _ _).trans ?_
    have hcontexts : (contextsOf events).card ≤ 2 := by
      refine (List.toFinset_card_le _).trans ?_
      rw [List.length_map, ← List.length_map (f := PresentEvent.challenge), hchallenges]
      exact le_refl 2
    have hrecorded : Reference.credential.recorded.card = 0 := Credential.card_recorded _
    rw [hrecorded, Nat.zero_add]
    exact hcontexts.trans (by decide)
  obtain ⟨-, hwithin⟩ := present_order_independent Reference.proveComplete Reference.spreLength
    Reference.evalWhipped (.fromBytes Reference.credential_valid.fromBytes_toBytes) hrun hrun' hkey
    hkey' hsame
  refine ⟨events, events', final, final', hrun, hrun', ?_, (hwithin hcard).2.2⟩
  rw [hchallenges, hchallenges']
  intro h
  exact hne (congrArg PresentationChallenge.presentationContext (List.cons.inj h).1)

end VoleArc
