import VoleArc.Protocol.Lifecycle

/-!
# VoleArc.Protocol.Persistence — a client that persists before it sends, across crashes

The client presents, persists its credential, transmits what a later persist covers, and restarts
from the last snapshot after a crash.  The counters of the snapshot stay above every nonce a persist
has covered, so none of these is used again.
-/

namespace VoleArc

open Transition

variable {P : ArcParams} {K : Type} [Field K] {C : Crates P K}

/-! ### The client -/

/-- A presentation, the number of the `present` step that made it, and the nonce it used. -/
structure PresentRecord (C : Crates P K) where
  step : ℕ
  context : PresentationContext
  nonce : U32
  presentation : Presentation C

/-- The credential in memory, the last snapshot, and the presentations queued before and after the
last persist. -/
structure Client (C : Crates P K) where
  credential : Credential C
  snapshot : Bytes
  unsaved : List (PresentRecord C)
  ready : List (PresentRecord C)
  steps : ℕ

inductive ClientAction (C : Crates P K) where
  | present (step : ℕ) (event : PresentEvent C)
  /-- A persist, with the records it covers. -/
  | persist (covered : List (PresentRecord C))
  | transmit (record : PresentRecord C)
  | crash

/-- The record of a `present` step, when it succeeded. -/
def recordOf (step : ℕ) (event : PresentEvent C) : List (PresentRecord C) :=
  match event.result with
  | .ok presentation => [⟨step, event.challenge.presentationContext, event.nonce, presentation⟩]
  | .error _ => []

inductive Client.Step (publicKey : PublicKey C) : Client C → ClientAction C → Client C → Prop
  | present {s : Client C} {event : PresentEvent C} {after : Credential C}
      (h : s.credential.PresentStep event after) :
      Client.Step publicKey s (.present s.steps event)
        { s with
          credential := after
          unsaved := s.unsaved ++ recordOf s.steps event
          steps := s.steps + 1 }
  | persist {s : Client C} :
      Client.Step publicKey s (.persist s.unsaved)
        { s with snapshot := s.credential.toBytes, unsaved := [], ready := s.ready ++ s.unsaved }
  | transmit {s : Client C} {record : PresentRecord C} (h : record ∈ s.ready) :
      Client.Step publicKey s (.transmit record) s
  | crash {s : Client C} {restored : Credential C}
      (h : Credential.fromBytes publicKey s.snapshot = .ok restored) :
      Client.Step publicKey s .crash { s with credential := restored, unsaved := [], ready := [] }

/-- A client whose initial credential is persisted. -/
def Client.start (credential : Credential C) : Client C where
  credential := credential
  snapshot := credential.toBytes
  unsaved := []
  ready := []
  steps := 0

/-- The records transmitted in a run. -/
def transmitted (trace : List (ClientAction C)) : List (PresentRecord C) :=
  trace.flatMap fun
    | .transmit record => [record]
    | _ => []

/-- The records some persist of a run covered. -/
def persisted (trace : List (ClientAction C)) : List (PresentRecord C) :=
  trace.flatMap fun
    | .persist covered => covered
    | _ => []

@[simp] theorem transmitted_append (trace trace' : List (ClientAction C)) :
    transmitted (trace ++ trace') = transmitted trace ++ transmitted trace' := List.flatMap_append

@[simp] theorem persisted_append (trace trace' : List (ClientAction C)) :
    persisted (trace ++ trace') = persisted trace ++ persisted trace' := List.flatMap_append

/-! ### The invariant -/

/-- The record is that of a `present` step of the trace. -/
def PresentRecord.MadeIn (record : PresentRecord C) (trace : List (ClientAction C)) : Prop :=
  ∃ event, ClientAction.present record.step event ∈ trace ∧
    event.result = .ok record.presentation ∧
    event.challenge.presentationContext = record.context ∧ event.nonce = record.nonce

theorem PresentRecord.MadeIn.concat {record : PresentRecord C} {trace : List (ClientAction C)}
    (h : record.MadeIn trace) (action : ClientAction C) : record.MadeIn (trace ++ [action]) := by
  obtain ⟨event, hmem, hrest⟩ := h
  exact ⟨event, List.mem_append_left _ hmem, hrest⟩

/-- Two records with one context and nonce come from one step. -/
def SameStep (records : List (PresentRecord C)) : Prop :=
  ∀ r ∈ records, ∀ r' ∈ records, r.context = r'.context → r.nonce = r'.nonce → r.step = r'.step

/-- What holds of a client and its history; `saved` is the credential in the snapshot. -/
structure Client.Inv (publicKey : PublicKey C) (start : Credential C)
    (trace : List (ClientAction C)) (s : Client C) (saved : Credential C) : Prop where
  snapshot_eq : s.snapshot = saved.toBytes
  valid : s.credential.Valid publicKey
  saved_valid : saved.Valid publicKey
  frame : s.credential = start.withCounters s.credential.nextNonces
  saved_frame : saved = start.withCounters saved.nextNonces
  saved_le : ∀ context : PresentationContext,
    saved.nextNonce context ≤ s.credential.nextNonce context
  sameStep : SameStep (persisted trace ++ s.unsaved)
  unsaved_lt : ∀ r ∈ s.unsaved, r.nonce < s.credential.nextNonce r.context
  persisted_lt : ∀ r ∈ persisted trace, r.nonce < saved.nextNonce r.context
  ready_sub : ∀ r ∈ s.ready, r ∈ persisted trace
  transmitted_sub : ∀ r ∈ transmitted trace, r ∈ persisted trace
  made : ∀ r ∈ persisted trace ++ s.unsaved, r.MadeIn trace
  tags : ∀ r ∈ persisted trace ++ s.unsaved,
    r.presentation.tag = start.tag r.context r.nonce

theorem Client.inv_start {publicKey : PublicKey C} {start : Credential C}
    (h : start.Valid publicKey) : Client.Inv publicKey start [] (Client.start start) start where
  snapshot_eq := rfl
  valid := h
  saved_valid := h
  frame := rfl
  saved_frame := rfl
  saved_le _ := BitVec.le_refl _
  sameStep := by simp [SameStep, persisted, Client.start]
  unsaved_lt := by simp [Client.start]
  persisted_lt := by simp [persisted]
  ready_sub := by simp [Client.start]
  transmitted_sub := by simp [transmitted]
  made := by simp [persisted, Client.start]
  tags := by simp [persisted, Client.start]

section Steps

theorem u32_lt_of_lt_of_le {a b c : U32} (hab : a < b) (hbc : b ≤ c) : a < c := by
  bv_omega

variable {publicKey : PublicKey C} {start saved : Credential C} {trace : List (ClientAction C)}
  {s : Client C}

/-- Every known record of a context lies below its counter in memory. -/
theorem Client.Inv.known_lt (h : Client.Inv publicKey start trace s saved) :
    ∀ r ∈ persisted trace ++ s.unsaved, r.nonce < s.credential.nextNonce r.context := by
  intro r hr
  rcases List.mem_append.mp hr with hr | hr
  · exact u32_lt_of_lt_of_le (h.persisted_lt r hr) (h.saved_le r.context)
  · exact h.unsaved_lt r hr

theorem Client.Inv.present_error (h : Client.Inv publicKey start trace s saved)
    {event : PresentEvent C} {e : Error} (hresult : event.result = .error e) :
    Client.Inv publicKey start (trace ++ [.present s.steps event])
      { s with unsaved := s.unsaved ++ recordOf s.steps event, steps := s.steps + 1 } saved := by
  have hrecord : recordOf s.steps event = [] := by rw [recordOf, hresult]
  have hpersisted : persisted (trace ++ [.present s.steps event]) = persisted trace := by
    rw [persisted_append]; exact List.append_nil _
  have htransmitted : transmitted (trace ++ [.present s.steps event]) = transmitted trace := by
    rw [transmitted_append]; exact List.append_nil _
  rw [hrecord, List.append_nil]
  exact ⟨h.snapshot_eq, h.valid, h.saved_valid, h.frame, h.saved_frame, h.saved_le,
    by rw [hpersisted]; exact h.sameStep, h.unsaved_lt, by rw [hpersisted]; exact h.persisted_lt,
    by rw [hpersisted]; exact h.ready_sub,
    by rw [hpersisted, htransmitted]; exact h.transmitted_sub,
    by rw [hpersisted]; exact fun r hr => (h.made r hr).concat _,
    by rw [hpersisted]; exact h.tags⟩

/-- A success uses a nonce above all known records of its context. -/
theorem Client.Inv.present_ok (h : Client.Inv publicKey start trace s saved)
    {event : PresentEvent C} {presentation : Presentation C} (hbefore : event.before = s.credential)
    (hallows : s.credential.Allows event.publicKey event.challenge)
    (hresult : event.result = .ok presentation)
    (htag : presentation.tag = s.credential.tag event.challenge.presentationContext
      (s.credential.nextNonce event.challenge.presentationContext)) :
    Client.Inv publicKey start (trace ++ [.present s.steps event])
      { s with
        credential := s.credential.advance event.challenge.presentationContext
        unsaved := s.unsaved ++ recordOf s.steps event
        steps := s.steps + 1 } saved := by
  have hnonce : event.nonce = s.credential.nextNonce event.challenge.presentationContext := by
    rw [PresentEvent.nonce, hbefore]
  have hsucc := toNat_add_one_of_lt hallows.nonce_lt
  have hle : ∀ context : PresentationContext, s.credential.nextNonce context ≤
      (s.credential.advance event.challenge.presentationContext).nextNonce context := by
    intro context
    by_cases hcontext : event.challenge.presentationContext = context
    · subst hcontext
      rw [Credential.nextNonce_advance_self, BitVec.le_def, hsucc]
      omega
    · rw [Credential.nextNonce_advance_of_ne _ _ hcontext]
      exact BitVec.le_refl _
  have hrecord : recordOf s.steps event =
      [⟨s.steps, event.challenge.presentationContext, event.nonce, presentation⟩] := by
    rw [recordOf, hresult]
  have hpersisted : persisted (trace ++ [.present s.steps event]) = persisted trace := by
    rw [persisted_append]; exact List.append_nil _
  have htransmitted : transmitted (trace ++ [.present s.steps event]) = transmitted trace := by
    rw [transmitted_append]; exact List.append_nil _
  have hknown := h.known_lt
  rw [hrecord]
  refine ⟨h.snapshot_eq, ?_, h.saved_valid, ?_, h.saved_frame, ?_, ?_, ?_, ?_, ?_, ?_, ?_, ?_⟩
  · exact ⟨h.valid.length_signature, hallows.canonical_advance h.valid.counters, h.valid.authentic⟩
  · conv_lhs => rw [h.frame]
    rfl
  · exact fun context => BitVec.le_trans (h.saved_le context) (hle context)
  · rw [hpersisted]
    simp only [← List.append_assoc]
    -- the new record agrees with no known one
    have hnew : ∀ r ∈ persisted trace ++ s.unsaved,
        r.context = event.challenge.presentationContext → r.nonce ≠ event.nonce := by
      intro r hr hcontext heq
      have hlt := hknown r hr
      rw [hcontext, heq, hnonce] at hlt
      exact BitVec.lt_irrefl _ hlt
    intro r hr r' hr' hcontext hnonces
    rcases List.mem_append.mp hr with hr | hr <;> rcases List.mem_append.mp hr' with hr' | hr'
    · exact h.sameStep r hr r' hr' hcontext hnonces
    · rw [List.mem_singleton.mp hr'] at hcontext hnonces
      exact absurd hnonces (hnew r hr hcontext)
    · rw [List.mem_singleton.mp hr] at hcontext hnonces
      exact absurd hnonces.symm (hnew r' hr' hcontext.symm)
    · rw [List.mem_singleton.mp hr, List.mem_singleton.mp hr']
  · intro r hr
    rcases List.mem_append.mp hr with hr | hr
    · exact u32_lt_of_lt_of_le (h.unsaved_lt r hr) (hle r.context)
    · rw [List.mem_singleton.mp hr]
      simp only
      rw [Credential.nextNonce_advance_self, BitVec.lt_def, hsucc, hnonce]
      omega
  · rw [hpersisted]; exact h.persisted_lt
  · rw [hpersisted]; exact h.ready_sub
  · rw [hpersisted, htransmitted]; exact h.transmitted_sub
  · rw [hpersisted]
    intro r hr
    rw [← List.append_assoc] at hr
    rcases List.mem_append.mp hr with hr | hr
    · exact (h.made r hr).concat _
    · rw [List.mem_singleton.mp hr]
      exact ⟨event, by simp, hresult, rfl, rfl⟩
  · rw [hpersisted]
    intro r hr
    rw [← List.append_assoc] at hr
    rcases List.mem_append.mp hr with hr | hr
    · exact h.tags r hr
    · rw [List.mem_singleton.mp hr]
      simp only
      rw [htag, hnonce, h.frame, Credential.withCounters_tag, ← h.frame]

/-- A persist moves the snapshot's counters above everything queued. -/
theorem Client.Inv.persist (h : Client.Inv publicKey start trace s saved) :
    Client.Inv publicKey start (trace ++ [.persist s.unsaved])
      { s with snapshot := s.credential.toBytes, unsaved := [], ready := s.ready ++ s.unsaved }
      s.credential := by
  have hpersisted : persisted (trace ++ [.persist s.unsaved]) = persisted trace ++ s.unsaved := by
    rw [persisted_append]
    exact congrArg _ (List.append_nil s.unsaved)
  have htransmitted : transmitted (trace ++ [.persist s.unsaved]) = transmitted trace := by
    rw [transmitted_append]; exact List.append_nil _
  refine ⟨rfl, h.valid, h.valid, h.frame, h.frame, fun _ => BitVec.le_refl _, ?_, by simp, ?_, ?_,
    ?_, ?_, ?_⟩
  · rw [hpersisted, List.append_nil]; exact h.sameStep
  · rw [hpersisted]; exact h.known_lt
  · rw [hpersisted]
    intro r hr
    rcases List.mem_append.mp hr with hr | hr
    · exact List.mem_append_left _ (h.ready_sub r hr)
    · exact List.mem_append_right _ hr
  · rw [hpersisted, htransmitted]
    exact fun r hr => List.mem_append_left _ (h.transmitted_sub r hr)
  · rw [hpersisted, List.append_nil]
    exact fun r hr => (h.made r hr).concat _
  · rw [hpersisted, List.append_nil]; exact h.tags

theorem Client.Inv.transmit (h : Client.Inv publicKey start trace s saved)
    {record : PresentRecord C}
    (hready : record ∈ s.ready) :
    Client.Inv publicKey start (trace ++ [.transmit record]) s saved := by
  have hpersisted : persisted (trace ++ [.transmit record]) = persisted trace := by
    rw [persisted_append]; exact List.append_nil _
  have htransmitted : transmitted (trace ++ [.transmit record]) =
    transmitted trace ++ [record] := by
    rw [transmitted_append]; rfl
  refine ⟨h.snapshot_eq, h.valid, h.saved_valid, h.frame, h.saved_frame, h.saved_le, ?_,
    h.unsaved_lt, ?_, ?_, ?_, ?_, ?_⟩ <;> rw [hpersisted]
  · exact h.sameStep
  · exact h.persisted_lt
  · exact h.ready_sub
  · rw [htransmitted]
    intro r hr
    rcases List.mem_append.mp hr with hr | hr
    · exact h.transmitted_sub r hr
    · rw [List.mem_singleton.mp hr]
      exact h.ready_sub record hready
  · exact fun r hr => (h.made r hr).concat _
  · exact h.tags

/-- After a crash the client is back at the snapshot. -/
theorem Client.Inv.crash (h : Client.Inv publicKey start trace s saved) :
    Client.Inv publicKey start (trace ++ [.crash])
      { s with credential := saved, unsaved := [], ready := [] } saved := by
  have hpersisted : persisted (trace ++ [.crash]) = persisted trace := by
    rw [persisted_append]; exact List.append_nil _
  have htransmitted : transmitted (trace ++ [.crash]) = transmitted trace := by
    rw [transmitted_append]; exact List.append_nil _
  have hsub : ∀ r ∈ persisted trace ++ [], r ∈ persisted trace ++ s.unsaved := by
    intro r hr
    rw [List.append_nil] at hr
    exact List.mem_append_left _ hr
  refine ⟨h.snapshot_eq, h.saved_valid, h.saved_valid, h.saved_frame, h.saved_frame,
    fun _ => BitVec.le_refl _, ?_, by simp, ?_, by simp, ?_, ?_, ?_⟩ <;> rw [hpersisted]
  · exact fun r hr r' hr' => h.sameStep r (hsub r hr) r' (hsub r' hr')
  · exact h.persisted_lt
  · rw [htransmitted]; exact h.transmitted_sub
  · exact fun r hr => (h.made r (hsub r hr)).concat _
  · exact fun r hr => h.tags r (hsub r hr)

theorem Client.Inv.step (h : Client.Inv publicKey start trace s saved) {action : ClientAction C}
    {s' : Client C} (hstep : Client.Step publicKey s action s') :
    ∃ saved', Client.Inv publicKey start (trace ++ [action]) s' saved' := by
  cases hstep with
  | present hpresent =>
    obtain ⟨hbefore, rng, rng', hcall⟩ := hpresent
    rcases Credential.present_cases hcall with
      ⟨e, hresult, rfl⟩ | ⟨hallows, proof, -, hresult, rfl⟩
    · exact ⟨saved, h.present_error hresult⟩
    · exact ⟨saved, h.present_ok hbefore hallows hresult rfl⟩
  | persist => exact ⟨s.credential, h.persist⟩
  | transmit hready => exact ⟨saved, h.transmit hready⟩
  | crash hrestored =>
    rw [h.snapshot_eq, h.saved_valid.fromBytes_toBytes] at hrestored
    obtain rfl := Except.ok.inj hrestored
    exact ⟨saved, h.crash⟩

end Steps

theorem Client.inv_of_run {publicKey : PublicKey C} {start : Credential C}
    (hvalid : start.Valid publicKey) {trace : List (ClientAction C)} {s : Client C}
    (h : Run (Client.Step publicKey) (Client.start start) trace s) :
    ∃ saved, Client.Inv publicKey start trace s saved :=
  h.history (I := fun trace s => ∃ saved, Client.Inv publicKey start trace s saved)
    ⟨start, Client.inv_start hvalid⟩ fun _ _ _ _ ⟨_, hinv⟩ hstep => hinv.step hstep

/-! ### Persist before send -/

/-- Different uses in the trace have different tags. -/
def TagsInjective (start : Credential C) (trace : List (ClientAction C)) : Prop :=
  ∀ n event n' event', ClientAction.present n event ∈ trace → event.result.isOk →
    ClientAction.present n' event' ∈ trace → event'.result.isOk →
    start.tag event.challenge.presentationContext event.nonce =
      start.tag event'.challenge.presentationContext event'.nonce →
    event.challenge.presentationContext = event'.challenge.presentationContext ∧
      event.nonce = event'.nonce

/-- In every run of a client that persists before it sends, a crash can be recovered from, every
transmitted presentation was made by a `present` step and covered by a persist, and no two steps
that a persist covered, so no two that transmitted, used one nonce of a context or, under
collision-free tags, one tag. -/
theorem persist_before_send (hspre : C.mayo.SpreLength P) {publicKey : PublicKey C}
    {credential : Credential C} (hreach : credential.ReachableUnder publicKey)
    {trace : List (ClientAction C)} {client : Client C}
    (hrun : Run (Client.Step publicKey) (Client.start credential) trace client) :
    (∃ restored, Credential.fromBytes publicKey client.snapshot = .ok restored) ∧
    (∀ r ∈ transmitted trace, r.MadeIn trace ∧ r ∈ persisted trace) ∧
    (∀ r ∈ persisted trace, ∀ r' ∈ persisted trace, r.step ≠ r'.step →
      ¬ (r.context = r'.context ∧ r.nonce = r'.nonce)) ∧
    (TagsInjective credential trace → ∀ r ∈ persisted trace, ∀ r' ∈ persisted trace,
      r.step ≠ r'.step → r.presentation.tag ≠ r'.presentation.tag) := by
  obtain ⟨saved, hinv⟩ := Client.inv_of_run (hreach.valid hspre) hrun
  have hknown : ∀ r ∈ persisted trace, r ∈ persisted trace ++ client.unsaved :=
    fun r hr => List.mem_append_left _ hr
  have hkeys : ∀ r ∈ persisted trace, ∀ r' ∈ persisted trace, r.step ≠ r'.step →
      ¬ (r.context = r'.context ∧ r.nonce = r'.nonce) := by
    rintro r hr r' hr' hstep ⟨hcontext, hnonce⟩
    exact hstep (hinv.sameStep r (hknown r hr) r' (hknown r' hr') hcontext hnonce)
  refine ⟨⟨saved, ?_⟩, fun r hr => ?_, hkeys, ?_⟩
  · rw [hinv.snapshot_eq]
    exact hinv.saved_valid.fromBytes_toBytes
  · exact ⟨hinv.made r (hknown r (hinv.transmitted_sub r hr)), hinv.transmitted_sub r hr⟩
  · intro htags r hr r' hr' hstep htag
    rw [hinv.tags r (hknown r hr), hinv.tags r' (hknown r' hr')] at htag
    obtain ⟨event, hevent, hok, hcontext, hnonce⟩ := hinv.made r (hknown r hr)
    obtain ⟨event', hevent', hok', hcontext', hnonce'⟩ := hinv.made r' (hknown r' hr')
    rw [← hcontext, ← hnonce, ← hcontext', ← hnonce'] at htag
    have hisOk : ∀ {event : PresentEvent C} {p : Presentation C}, event.result = .ok p →
        event.result.isOk := fun h => by rw [h]; rfl
    obtain ⟨hc, hn⟩ := htags _ _ _ _ hevent (hisOk hok) hevent' (hisOk hok') htag
    rw [hcontext, hcontext'] at hc
    rw [hnonce, hnonce'] at hn
    exact hkeys r hr r' hr' hstep ⟨hc, hn⟩

/-- A first use is lost in a crash and made again, persisted and sent; after another crash the
client restores the counter, and its second use has another nonce. -/
theorem persist_before_send_reference : ∃ trace client, ∃ r r' : PresentRecord Reference.crates,
    Run (Client.Step Reference.publicKey) (Client.start Reference.credential) trace client ∧
    trace.filter (fun action => action matches .crash) = [.crash, .crash] ∧
    r ∈ transmitted trace ∧ r' ∈ transmitted trace ∧ r.context = r'.context ∧
      r.nonce ≠ r'.nonce ∧
    ∃ restored, Credential.fromBytes Reference.publicKey client.snapshot = .ok restored := by
  obtain ⟨presentation, hstep⟩ := Reference.exists_presentStep
  obtain ⟨presentation', hstep'⟩ := Reference.exists_secondStep
  let event := Reference.useEvent presentation
  let event' := Reference.secondEvent presentation'
  let r : PresentRecord Reference.crates :=
    ⟨1, Reference.challenge.presentationContext, event.nonce, presentation⟩
  let r' : PresentRecord Reference.crates :=
    ⟨2, Reference.secondChallenge.presentationContext, event'.nonce, presentation'⟩
  let trace : List (ClientAction Reference.crates) :=
    [.present 0 event, .crash, .present 1 event, .persist [r], .transmit r, .crash,
      .present 2 event', .persist [r'], .transmit r']
  have hrun : Run (Client.Step Reference.publicKey) (Client.start Reference.credential) trace _ :=
    Run.cons (.present hstep) <| Run.cons (.crash Reference.credential_valid.fromBytes_toBytes) <|
      Run.cons (.present hstep) <| Run.cons .persist <|
        Run.cons (.transmit (List.mem_singleton.mpr rfl)) <|
          Run.cons (.crash Reference.used_valid.fromBytes_toBytes) <| Run.cons (.present hstep') <|
            Run.cons .persist <| Run.single (.transmit (List.mem_singleton.mpr rfl))
  obtain ⟨hrestored, hmade, hkeys, -⟩ := persist_before_send Reference.spreLength
    Reference.credential_reachableUnder hrun
  have hr : r ∈ transmitted trace := List.mem_cons_self
  have hr' : r' ∈ transmitted trace := List.mem_cons_of_mem _ (List.mem_singleton.mpr rfl)
  have hkey := hkeys r (hmade r hr).2 r' (hmade r' hr').2 (show 1 ≠ 2 by decide)
  exact ⟨trace, _, r, r', hrun, rfl, hr, hr', rfl, fun hnonce => hkey ⟨rfl, hnonce⟩, hrestored⟩

/-! ### A crash before the persist -/

/-- A crash before the persist drops the presentation, and the next `present` step makes, and may
transmit, its tag again. -/
theorem tag_repeated_after_crash :
    Reference.credential.Reachable ∧
    Reference.publicKey.context = Reference.credential.issuerContext ∧
    ∃ trace client, Run (Client.Step Reference.publicKey) (Client.start Reference.credential) trace
        client ∧ TagsInjective Reference.credential trace ∧
      ∃ n event presentation, ClientAction.present n event ∈ trace ∧
        event.result = .ok presentation ∧
        ∃ r ∈ transmitted trace, r.step ≠ n ∧ r.presentation.tag = presentation.tag := by
  obtain ⟨presentation, hstep⟩ := Reference.exists_presentStep
  let event := Reference.useEvent presentation
  let record : PresentRecord Reference.crates :=
    ⟨1, Reference.challenge.presentationContext, event.nonce, presentation⟩
  let trace : List (ClientAction Reference.crates) :=
    [.present 0 event, .crash, .present 1 event, .persist [record], .transmit record]
  have hrun : Run (Client.Step Reference.publicKey) (Client.start Reference.credential) trace _ :=
    Run.cons (.present hstep) <| Run.cons (.crash Reference.credential_valid.fromBytes_toBytes) <|
      Run.cons (.present hstep) <| Run.cons .persist <|
        Run.single (.transmit (List.mem_singleton.mpr rfl))
  have hevent : ∀ n e, ClientAction.present n e ∈ trace → e = event := by
    intro n e he
    simp only [trace, List.mem_cons, ClientAction.present.injEq, reduceCtorEq, List.not_mem_nil,
      or_false, false_or] at he
    rcases he with he | he <;> exact he.2
  refine ⟨Reference.credential_reachable, rfl, trace, _, hrun, ?_, 0, event, presentation,
    List.mem_cons_self, rfl, record, by simp [trace, transmitted], Nat.one_ne_zero, rfl⟩
  intro n e n' e' he _ he' _ _
  rw [hevent n e he, hevent n' e' he']
  exact ⟨rfl, rfl⟩

end VoleArc
