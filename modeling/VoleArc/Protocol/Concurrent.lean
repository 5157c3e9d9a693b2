import VoleArc.Protocol.Accounting

/-!
# VoleArc.Protocol.Concurrent — interleaved verifications over a shared store

Any number of verifiers run `verify` at the same time, each execution as a proof check followed by
at most one atomic insertion.  An execution returns `Ok` only for its own insertion, so a pair is
authorised at most once in any interleaving and under any failures of the store.
-/

namespace VoleArc

open Transition

variable {P : ArcParams} {K : Type} [Field K] {C : Crates P K} {S : Type} {T : TagStore S}

/-! ### Executions -/

/-- The key of the verifier, and the arguments of `verify`. -/
structure VerifyRequest (C : Crates P K) where
  publicKey : PublicKey C
  challenge : PresentationChallenge
  presentation : Presentation C

/-- The proof check of a request. -/
def VerifyRequest.check (request : VerifyRequest C) : Except Error VerifiedPresentation :=
  request.publicKey.verifyProofOnly request.challenge request.presentation

/-- How far an execution of `verify` has come. -/
inductive VerifyPhase where
  | started
  | checked (verified : VerifiedPresentation)
  | done (result : Except Error VerifiedPresentation)

structure Execution (C : Crates P K) where
  request : VerifyRequest C
  phase : VerifyPhase

/-- The phase after the proof check. -/
def VerifyPhase.afterCheck : Except Error VerifiedPresentation → VerifyPhase
  | .error e => .done (.error e)
  | .ok verified => .checked verified

/-- The result after the insertion. -/
def afterInsert (verified : VerifiedPresentation) :
    Except Error Bool → Except Error VerifiedPresentation
  | .error e => .error e
  | .ok false => .error .tagAlreadyUsed
  | .ok true => .ok verified

/-- The shared store and all executions, in the order they were started. -/
structure Replicas (C : Crates P K) (S : Type) where
  store : S
  executions : List (Execution C)

inductive ReplicaAction (C : Crates P K) where
  | start (request : VerifyRequest C)
  | check (index : ℕ)
  | insert (index : ℕ) (call : StoreCall)

inductive Replicas.Step (T : TagStore S) : Replicas C S → ReplicaAction C → Replicas C S → Prop
  | start {s : Replicas C S} {request : VerifyRequest C} :
      Replicas.Step T s (.start request)
        { s with executions := s.executions ++ [⟨request, .started⟩] }
  | check {s : Replicas C S} {index : ℕ} {request : VerifyRequest C}
      (h : s.executions[index]? = some ⟨request, .started⟩) :
      Replicas.Step T s (.check index)
        { s with executions := s.executions.set index ⟨request, .afterCheck request.check⟩ }
  | insert {s : Replicas C S} {index : ℕ} {request : VerifyRequest C}
      {verified : VerifiedPresentation} {inserted : Except Error Bool} {store : S}
      (h : s.executions[index]? = some ⟨request, .checked verified⟩)
      (hinsert : T.insertIfAbsent verified.scope verified.tag s.store = (inserted, store)) :
      Replicas.Step T s (.insert index ⟨verified.scope, verified.tag, inserted⟩)
        { store := store
          executions := s.executions.set index ⟨request, .done (afterInsert verified inserted)⟩ }

/-- `verify` on a request whose check fails. -/
theorem VerifyRequest.verify_of_error {request : VerifyRequest C} {e : Error}
    (h : request.check = .error e) (store : S) :
    Verifier.verify T ⟨request.publicKey, store⟩ request.challenge request.presentation =
      (.error e, ⟨request.publicKey, store⟩) := by
  have hproof : request.publicKey.verifyProofOnly request.challenge request.presentation =
    .error e := h
  rw [Verifier.verify]
  simp only [hproof]

/-- `verify` on a request whose check succeeds, by the answer of the store. -/
theorem VerifyRequest.verify_of_insert {request : VerifyRequest C}
    {verified : VerifiedPresentation} {inserted : Except Error Bool} {store store' : S}
    (h : request.check = .ok verified)
    (hinsert : T.insertIfAbsent verified.scope verified.tag store = (inserted, store')) :
    Verifier.verify T ⟨request.publicKey, store⟩ request.challenge request.presentation =
      (afterInsert verified inserted, ⟨request.publicKey, store'⟩) := by
  have hproof : request.publicKey.verifyProofOnly request.challenge request.presentation =
    .ok verified := h
  rw [Verifier.verify]
  simp only [hproof, hinsert]
  rcases inserted with e | _ | _
  · rfl
  · rfl
  · rfl

/-- Run without interruption, the steps of an execution are `verify`. -/
theorem Replicas.verify_run (s : Replicas C S) {index : ℕ} {request : VerifyRequest C}
    (h : s.executions[index]? = some ⟨request, .started⟩) : ∃ steps,
    (∀ action ∈ steps, action = .check index ∨ ∃ call, action = .insert index call) ∧
    Run (Replicas.Step T) s steps
      { store := (Verifier.verify T ⟨request.publicKey, s.store⟩ request.challenge
          request.presentation).2.store
        executions := s.executions.set index ⟨request, .done (Verifier.verify T
          ⟨request.publicKey, s.store⟩ request.challenge request.presentation).1⟩ } := by
  have hchecked : Replicas.Step T s (.check index) _ := .check h
  cases hcheck : request.check with
  | error e =>
    rw [hcheck] at hchecked
    rw [VerifyRequest.verify_of_error hcheck]
    exact ⟨[.check index], by simp, .single hchecked⟩
  | ok verified =>
    rw [hcheck] at hchecked
    cases hinsert : T.insertIfAbsent verified.scope verified.tag s.store with
    | mk inserted store =>
      have hget : (s.executions.set index ⟨request, .checked verified⟩)[index]? =
          some ⟨request, .checked verified⟩ :=
        List.getElem?_set_self (List.getElem?_eq_some_iff.mp h).1
      have hinserted : Replicas.Step T
          { s with executions := s.executions.set index ⟨request, .checked verified⟩ }
          (.insert index ⟨verified.scope, verified.tag, inserted⟩) _ := .insert hget hinsert
      rw [List.set_set] at hinserted
      rw [VerifyRequest.verify_of_insert hcheck hinsert]
      exact ⟨[.check index, .insert index ⟨verified.scope, verified.tag, inserted⟩], by simp,
        Run.cons hchecked (.single hinserted)⟩

/-! ### What an execution did -/

/-- The insertions an execution made. -/
def insertsOf (index : ℕ) (trace : List (ReplicaAction C)) : List StoreCall :=
  trace.filterMap fun
    | .insert i call => if i = index then some call else none
    | _ => none

theorem insertsOf_concat (index : ℕ) (trace : List (ReplicaAction C)) (action : ReplicaAction C) :
    insertsOf index (trace ++ [action]) = insertsOf index trace ++ insertsOf index [action] := by
  unfold insertsOf
  rw [List.filterMap_append]

theorem insertsOf_insert_self (index : ℕ) (call : StoreCall) :
    insertsOf (C := C) index [.insert index call] = [call] := by
  simp [insertsOf]

theorem insertsOf_insert_of_ne {index i : ℕ} (h : i ≠ index) (call : StoreCall) :
    insertsOf (C := C) index [.insert i call] = [] := by
  simp [insertsOf, h]

/-- The phase of an execution, from its proof check and its insertions. -/
def Execution.Explained (e : Execution C) (inserts : List StoreCall) : Prop :=
  match e.phase with
  | .started => inserts = []
  | .checked verified => e.request.check = .ok verified ∧ inserts = []
  | .done result =>
    (∃ error, e.request.check = .error error ∧ result = .error error ∧ inserts = []) ∨
    ∃ verified inserted, e.request.check = .ok verified ∧
      result = afterInsert verified inserted ∧
      inserts = [⟨verified.scope, verified.tag, inserted⟩]

/-- The pair an execution was authorised for. -/
def Execution.okPair (e : Execution C) : Option (Bytes32 × Bytes32) :=
  match e.phase with
  | .done (.ok verified) => some (verified.scope, verified.tag)
  | _ => none

/-- The pairs of all `Ok` results. -/
def okPairs (executions : List (Execution C)) : List (Bytes32 × Bytes32) :=
  executions.filterMap Execution.okPair

theorem okPairs_concat_started (executions : List (Execution C)) (request : VerifyRequest C) :
    okPairs (executions ++ [⟨request, .started⟩]) = okPairs executions := by
  unfold okPairs
  rw [List.filterMap_append]
  exact List.append_nil _

/-- Finishing an execution adds its pair, if it has one. -/
theorem okPairs_set {executions : List (Execution C)} {index : ℕ} {e : Execution C}
    (h : executions[index]? = some e) (he : e.okPair = none) (e' : Execution C) :
    (okPairs (executions.set index e')).Perm (e'.okPair.toList ++ okPairs executions) := by
  obtain ⟨hlt, hget⟩ := List.getElem?_eq_some_iff.mp h
  have hsplit : executions = executions.take index ++ e :: executions.drop (index + 1) := by
    rw [← hget, List.getElem_cons_drop, List.take_append_drop]
  have hold : okPairs executions =
      okPairs (executions.take index) ++ okPairs (executions.drop (index + 1)) := by
    conv_lhs => rw [hsplit]
    unfold okPairs
    rw [List.filterMap_append, List.filterMap_cons_none he]
  rw [List.set_eq_take_append_cons_drop, if_pos hlt, hold]
  unfold okPairs
  rw [List.filterMap_append]
  cases hpair : e'.okPair with
  | none => rw [List.filterMap_cons_none hpair]; exact List.Perm.refl _
  | some key => rw [List.filterMap_cons_some hpair]; exact List.perm_middle

/-! ### The invariant -/

/-- What holds after every interleaving from a store. -/
structure Replicas.Inv (stored : S → Set (Bytes32 × Bytes32)) (store : S)
    (trace : List (ReplicaAction C)) (s : Replicas C S) : Prop where
  explained : ∀ (index : ℕ) (e : Execution C), s.executions[index]? = some e →
    e.Explained (insertsOf index trace)
  fresh : ∀ index, s.executions.length ≤ index → insertsOf index trace = []
  once : (okPairs s.executions).Nodup
  okStored : ∀ key ∈ okPairs s.executions, key ∈ stored s.store
  initial : ∀ key ∈ stored store, key ∈ stored s.store
  source : ∀ key ∈ stored s.store, key ∈ stored store ∨ ∃ index, ∃ call ∈ insertsOf index trace,
    (call.scope, call.tag) = key ∧ call.result ≠ .ok false

section Steps

variable {stored : S → Set (Bytes32 × Bytes32)} {store : S}

theorem Replicas.inv_start : Replicas.Inv (C := C) stored store [] ⟨store, []⟩ where
  explained := by simp
  fresh := fun _ _ => rfl
  once := List.nodup_nil
  okStored := by simp [okPairs]
  initial := fun _ h => h
  source := fun _ h => .inl h

/-- An action without an insertion keeps what was inserted. -/
theorem Replicas.Inv.source_concat {trace : List (ReplicaAction C)} {s : Replicas C S}
    (h : s.Inv stored store trace) (action : ReplicaAction C) :
    ∀ key ∈ stored s.store, key ∈ stored store ∨
      ∃ index, ∃ call ∈ insertsOf index (trace ++ [action]),
        (call.scope, call.tag) = key ∧ call.result ≠ .ok false := by
  intro key hkey
  rcases h.source key hkey with hkey | ⟨index, call, hmem, hcall⟩
  · exact .inl hkey
  · refine .inr ⟨index, call, ?_, hcall⟩
    rw [insertsOf_concat]
    exact List.mem_append_left _ hmem

theorem Replicas.Inv.start {trace : List (ReplicaAction C)} {s : Replicas C S}
    (h : s.Inv stored store trace) (request : VerifyRequest C) :
    Replicas.Inv stored store (trace ++ [.start request])
      { s with executions := s.executions ++ [⟨request, .started⟩] } := by
  have hinserts : ∀ index, insertsOf index (trace ++ [.start request]) = insertsOf index trace := by
    intro index
    rw [insertsOf_concat]
    exact List.append_nil _
  refine ⟨?_, ?_, ?_, ?_, h.initial, h.source_concat _⟩
  · intro index e he
    rw [hinserts]
    rcases Nat.lt_trichotomy index s.executions.length with hlt | rfl | hgt
    · rw [List.getElem?_append_left hlt] at he
      exact h.explained index e he
    · rw [List.getElem?_concat_length] at he
      rw [← Option.some.inj he]
      exact h.fresh _ le_rfl
    · rw [List.getElem?_eq_none (by simpa using hgt)] at he
      cases he
  · intro index hindex
    rw [hinserts]
    rw [List.length_append] at hindex
    exact h.fresh index (by omega)
  · rw [okPairs_concat_started]
    exact h.once
  · rw [okPairs_concat_started]
    exact h.okStored

/-- Replacing an execution by an explained one keeps the others explained. -/
theorem Replicas.Inv.explained_set {trace : List (ReplicaAction C)} {s : Replicas C S}
    (h : s.Inv stored store trace) {action : ReplicaAction C} {index : ℕ} {e' : Execution C}
    (hself : e'.Explained (insertsOf index (trace ++ [action])))
    (hother : ∀ j, j ≠ index → insertsOf j [action] = []) :
    ∀ (j : ℕ) (e : Execution C), (s.executions.set index e')[j]? = some e →
      e.Explained (insertsOf j (trace ++ [action])) := by
  intro j e he
  by_cases hj : j = index
  · subst hj
    rw [List.getElem?_set_self'] at he
    cases hget : s.executions[j]? with
    | none => rw [hget] at he; cases he
    | some e₀ =>
      rw [hget] at he
      obtain rfl := Option.some.inj he
      exact hself
  · rw [List.getElem?_set_ne (Ne.symm hj)] at he
    rw [insertsOf_concat, hother j hj, List.append_nil]
    exact h.explained j e he

theorem Replicas.Inv.check {trace : List (ReplicaAction C)} {s : Replicas C S}
    (h : s.Inv stored store trace) {index : ℕ} {request : VerifyRequest C}
    (hget : s.executions[index]? = some ⟨request, .started⟩) :
    Replicas.Inv stored store (trace ++ [.check index])
      { s with executions := s.executions.set index ⟨request, .afterCheck request.check⟩ } := by
  have hinserts : ∀ j, insertsOf j (trace ++ [.check index]) = insertsOf j trace := by
    intro j
    rw [insertsOf_concat]
    exact List.append_nil _
  have hnone : insertsOf index trace = [] := h.explained index _ hget
  have hpair : (⟨request, .afterCheck request.check⟩ : Execution C).okPair = none := by
    unfold Execution.okPair
    cases request.check <;> rfl
  have hperm := okPairs_set hget rfl ⟨request, .afterCheck request.check⟩
  rw [hpair] at hperm
  refine ⟨h.explained_set ?_ fun _ _ => rfl, ?_, hperm.nodup_iff.mpr h.once, ?_, h.initial,
    h.source_concat _⟩
  · rw [hinserts, hnone]
    cases hcheck : request.check with
    | error e => exact .inl ⟨e, hcheck, rfl, rfl⟩
    | ok verified => exact ⟨hcheck, rfl⟩
  · intro j hj
    rw [hinserts]
    rw [List.length_set] at hj
    exact h.fresh j hj
  · intro key hkey
    exact h.okStored key (hperm.mem_iff.mp hkey)

theorem Replicas.Inv.insert (hT : T.Atomic stored) {trace : List (ReplicaAction C)}
    {s : Replicas C S} (h : s.Inv stored store trace) {index : ℕ} {request : VerifyRequest C}
    {verified : VerifiedPresentation} {inserted : Except Error Bool} {store' : S}
    (hget : s.executions[index]? = some ⟨request, .checked verified⟩)
    (hinsert : T.insertIfAbsent verified.scope verified.tag s.store = (inserted, store')) :
    Replicas.Inv stored store
      (trace ++ [.insert index ⟨verified.scope, verified.tag, inserted⟩])
      { store := store'
        executions :=
          s.executions.set index ⟨request, .done (afterInsert verified inserted)⟩ } := by
  obtain ⟨hcheck, hnone⟩ := h.explained index _ hget
  have hgrows := hT.grows verified.scope verified.tag s.store
  have honly := hT.only verified.scope verified.tag s.store
  have hfirst := hT.first verified.scope verified.tag s.store
  have hrepeated := hT.repeated verified.scope verified.tag s.store
  rw [hinsert] at hgrows honly hfirst hrepeated
  have hself : insertsOf (C := C) index
      (trace ++ [.insert index ⟨verified.scope, verified.tag, inserted⟩]) =
        [⟨verified.scope, verified.tag, inserted⟩] := by
    rw [insertsOf_concat, hnone, insertsOf_insert_self]
    rfl
  have hperm := okPairs_set hget rfl ⟨request, .done (afterInsert verified inserted)⟩
  refine ⟨h.explained_set ?_ ?_, ?_, ?_, ?_, fun key hkey => hgrows (h.initial key hkey), ?_⟩
  · rw [hself]
    exact .inr ⟨verified, inserted, hcheck, rfl, rfl⟩
  · intro j hj
    exact insertsOf_insert_of_ne (Ne.symm hj) _
  · intro j hj
    rw [List.length_set] at hj
    have hlt := (List.getElem?_eq_some_iff.mp hget).1
    rw [insertsOf_concat, insertsOf_insert_of_ne (by omega), h.fresh j hj]
    rfl
  · refine hperm.nodup_iff.mpr ?_
    match inserted with
    | .error e => exact h.once
    | .ok false => exact h.once
    | .ok true => exact List.nodup_cons.mpr ⟨fun hmem => (hfirst rfl).1 (h.okStored _ hmem), h.once⟩
  · intro key hkey
    rcases List.mem_append.mp (hperm.mem_iff.mp hkey) with hkey | hkey
    · match inserted with
      | .error e => cases hkey
      | .ok false => cases hkey
      | .ok true =>
        rw [List.mem_singleton.mp hkey]
        exact (hfirst rfl).2
    · exact hgrows (h.okStored key hkey)
  · intro key hkey
    rcases honly hkey with rfl | hkey
    · by_cases hfalse : inserted = .ok false
      · exact h.source_concat _ _ (hrepeated hfalse)
      · exact .inr
          ⟨index, ⟨verified.scope, verified.tag, inserted⟩, by rw [hself]; simp, rfl, hfalse⟩
    · exact h.source_concat _ key hkey

theorem Replicas.inv_of_run (hT : T.Atomic stored) {trace : List (ReplicaAction C)}
    {s : Replicas C S} (hrun : Run (Replicas.Step T) ⟨store, []⟩ trace s) :
    s.Inv stored store trace := by
  refine hrun.history (I := fun trace s => Replicas.Inv stored store trace s) Replicas.inv_start ?_
  intro trace s action s' h hstep
  cases hstep with
  | start => exact h.start _
  | check hget => exact h.check hget
  | insert hget hinsert => exact h.insert hT hget hinsert

/-- The step that finishes an execution returns what `verify` returns on the store it finds, and
leaves the store as `verify` does. -/
theorem Replicas.Inv.verify_of_finished {trace : List (ReplicaAction C)} {s s' : Replicas C S}
    (h : s.Inv stored store trace) {action : ReplicaAction C} (hstep : Replicas.Step T s action s')
    {index : ℕ} {request : VerifyRequest C} {result : Except Error VerifiedPresentation}
    (hdone : s'.executions[index]? = some ⟨request, .done result⟩)
    (hnot : s.executions[index]? ≠ some ⟨request, .done result⟩) :
    Verifier.verify T ⟨request.publicKey, s.store⟩ request.challenge request.presentation =
      (result, ⟨request.publicKey, s'.store⟩) := by
  cases hstep with
  | start =>
    rw [List.getElem?_append] at hdone
    split_ifs at hdone with hlt
    · exact absurd hdone hnot
    · obtain hmem := List.mem_singleton.mp (List.mem_of_getElem? hdone)
      cases hmem
  | @check i request' hget =>
    by_cases hi : i = index
    · subst hi
      rw [List.getElem?_set_self (List.getElem?_eq_some_iff.mp hget).1] at hdone
      obtain ⟨rfl, hphase⟩ := Execution.mk.inj (Option.some.inj hdone)
      cases hcheck : request'.check with
      | error e =>
        rw [hcheck] at hphase
        obtain rfl := VerifyPhase.done.inj hphase
        exact VerifyRequest.verify_of_error hcheck s.store
      | ok verified =>
        rw [hcheck] at hphase
        cases hphase
    · rw [List.getElem?_set_ne hi] at hdone
      exact absurd hdone hnot
  | @insert i request' verified inserted store' hget hinsert =>
    by_cases hi : i = index
    · subst hi
      rw [List.getElem?_set_self (List.getElem?_eq_some_iff.mp hget).1] at hdone
      obtain ⟨rfl, hphase⟩ := Execution.mk.inj (Option.some.inj hdone)
      obtain rfl := VerifyPhase.done.inj hphase
      exact VerifyRequest.verify_of_insert (h.explained i _ hget).1 hinsert
    · rw [List.getElem?_set_ne hi] at hdone
      exact absurd hdone hnot

end Steps

/-! ### Reading the invariant -/

theorem Execution.Explained.of_ok {request : VerifyRequest C} {verified : VerifiedPresentation}
    {inserts : List StoreCall}
    (h : (⟨request, .done (.ok verified)⟩ : Execution C).Explained inserts) :
    request.check = .ok verified ∧ inserts = [⟨verified.scope, verified.tag, .ok true⟩] := by
  rcases h with ⟨error, -, herror, -⟩ | ⟨verified', inserted, hcheck, hresult, hinserts⟩
  · cases herror
  · match inserted with
    | .error e => cases hresult
    | .ok false => cases hresult
    | .ok true =>
      obtain rfl := Except.ok.inj hresult
      exact ⟨hcheck, hinserts⟩

/-- An execution with an insertion passed its proof check and has its result. -/
theorem Execution.Explained.of_mem {e : Execution C} {inserts : List StoreCall} {call : StoreCall}
    (h : e.Explained inserts) (hcall : call ∈ inserts) : ∃ verified,
      e.request.check = .ok verified ∧ call.scope = verified.scope ∧ call.tag = verified.tag ∧
        inserts = [call] ∧ e.phase = .done (afterInsert verified call.result) := by
  obtain ⟨request, phase⟩ := e
  cases phase with
  | started =>
    rw [show inserts = [] from h] at hcall
    cases hcall
  | checked verified =>
    rw [h.2] at hcall
    cases hcall
  | done result =>
    rcases h with ⟨error, -, -, hinserts⟩ | ⟨verified, inserted, hcheck, hresult, hinserts⟩
    · rw [hinserts] at hcall
      cases hcall
    · rw [hinserts] at hcall
      obtain rfl := List.mem_singleton.mp hcall
      exact ⟨verified, hcheck, rfl, rfl, hinserts, congrArg _ hresult⟩

theorem Execution.Explained.length_le {e : Execution C} {inserts : List StoreCall}
    (h : e.Explained inserts) : inserts.length ≤ 1 := by
  cases inserts with
  | nil => exact Nat.zero_le 1
  | cons call rest =>
    obtain ⟨-, -, -, -, hinserts, -⟩ := h.of_mem List.mem_cons_self
    rw [hinserts]
    exact Nat.le_refl 1

/-- No pair is authorised at two positions. -/
theorem okPairs_unique {executions : List (Execution C)} (h : (okPairs executions).Nodup) {i j : ℕ}
    {e e' : Execution C} {key : Bytes32 × Bytes32} (hi : executions[i]? = some e)
    (hj : executions[j]? = some e') (hkey : e.okPair = some key) (hkey' : e'.okPair = some key) :
    i = j := by
  obtain ⟨hilt, hie⟩ := List.getElem?_eq_some_iff.mp hi
  obtain ⟨hjlt, hje⟩ := List.getElem?_eq_some_iff.mp hj
  have hpairwise := List.pairwise_iff_getElem.mp (List.pairwise_filterMap.mp h)
  rcases Nat.lt_trichotomy i j with hlt | heq | hgt
  · exact absurd rfl (hpairwise i j hilt hjlt hlt key (by rw [hie, hkey]) key (by rw [hje, hkey']))
  · exact heq
  · exact absurd rfl (hpairwise j i hjlt hilt hgt key (by rw [hje, hkey']) key (by rw [hie, hkey]))

/-- The process-local store never fails. -/
theorem Replicas.memory_ok {store : MemoryTagStore} {trace : List (ReplicaAction C)}
    {final : Replicas C MemoryTagStore}
    (hrun : Run (Replicas.Step memoryTagStore) ⟨store, []⟩ trace final) {index : ℕ}
    {call : StoreCall} (h : call ∈ insertsOf index trace) :
      ∃ inserted, call.result = .ok inserted := by
  have hlabels : ∀ action ∈ trace, ∀ index call, action = .insert index call →
      ∃ inserted, call.result = .ok inserted := by
    refine hrun.forall_label (I := fun _ => True) trivial ?_
    intro s action s' _ hstep
    refine ⟨trivial, ?_⟩
    rintro index call rfl
    cases hstep with
    | insert _ hinsert => exact ⟨_, (Prod.mk.inj hinsert).1.symm⟩
  obtain ⟨action, hmem, haction⟩ := List.mem_filterMap.mp h
  cases action with
  | start request => cases haction
  | check i => cases haction
  | insert i call' =>
    simp only at haction
    split_ifs at haction with hi
    obtain rfl := Option.some.inj haction
    exact hlabels _ hmem i call' rfl

/-- The process-local store holds exactly the pairs of the `Ok` results. -/
theorem Replicas.memory_store {trace : List (ReplicaAction C)} {final : Replicas C MemoryTagStore}
    (hrun : Run (Replicas.Step memoryTagStore) ⟨∅, []⟩ trace final) :
    final.store = (okPairs final.executions).toFinset ∧
      final.store.len = (okPairs final.executions).length := by
  have hinv := Replicas.inv_of_run memoryTagStore_atomic hrun
  have hstore : final.store = (okPairs final.executions).toFinset := by
    ext key
    rw [List.mem_toFinset]
    refine ⟨fun hkey => ?_, fun hkey => hinv.okStored key hkey⟩
    rcases hinv.source key hkey with hempty | ⟨index, call, hcall, hpair, hresult⟩
    · exact absurd hempty (Finset.notMem_empty key)
    · cases hget : final.executions[index]? with
      | none =>
        rw [hinv.fresh index (List.getElem?_eq_none_iff.mp hget)] at hcall
        cases hcall
      | some e =>
        obtain ⟨verified, -, hscope, htag, -, hphase⟩ := (hinv.explained index e hget).of_mem hcall
        obtain ⟨inserted, hok⟩ := Replicas.memory_ok hrun hcall
        refine List.mem_filterMap.mpr ⟨e, List.mem_of_getElem? hget, ?_⟩
        rw [hok] at hphase hresult
        cases inserted with
        | false => exact absurd rfl hresult
        | true =>
          unfold Execution.okPair
          rw [hphase, ← hpair, hscope, htag]
          rfl
  refine ⟨hstore, ?_⟩
  rw [MemoryTagStore.len, hstore, List.toFinset_card_of_nodup hinv.once]

/-- In every interleaving of executions over an atomic store, however it fails: `Ok` comes only from
a valid proof and the execution's own insertion of its pair; no pair is authorised twice; a failed
check never reaches the store; what is stored was inserted or failed while being inserted; and the
process-local store holds exactly what was authorised.  Each execution returns, and does to the
store, what `Verifier.verify` does when called at its last step. -/
theorem verify_interleaved {stored : S → Set (Bytes32 × Bytes32)} (hT : T.Atomic stored) {store : S}
    {trace : List (ReplicaAction C)} {final : Replicas C S}
    (hrun : Run (Replicas.Step T) ⟨store, []⟩ trace final) :
    (∀ (index : ℕ) (request : VerifyRequest C) (verified : VerifiedPresentation),
      final.executions[index]? = some ⟨request, .done (.ok verified)⟩ →
        request.check = .ok verified ∧
        verified = ⟨presentationScope C request.publicKey.context
          request.challenge.credentialContext.digest request.challenge.presentationContext.digest,
            request.presentation.tag⟩ ∧
        insertsOf index trace = [⟨verified.scope, verified.tag, .ok true⟩]) ∧
    (∀ (i j : ℕ) (request request' : VerifyRequest C) (verified verified' : VerifiedPresentation),
      final.executions[i]? = some ⟨request, .done (.ok verified)⟩ →
      final.executions[j]? = some ⟨request', .done (.ok verified')⟩ → i ≠ j →
        (verified.scope, verified.tag) ≠ (verified'.scope, verified'.tag)) ∧
    (∀ (index : ℕ) (e : Execution C), final.executions[index]? = some e →
      (insertsOf index trace).length ≤ 1 ∧
      ∀ error, e.request.check = .error error → insertsOf index trace = []) ∧
    -- a check and a refused insertion leave the stored pairs alone
    (∀ before action after, trace = before ++ action :: after → ∃ s s' : Replicas C S,
      Run (Replicas.Step T) ⟨store, []⟩ before s ∧ Replicas.Step T s action s' ∧
      (∀ index, action = .check index → s'.store = s.store) ∧
      (∀ index call, action = .insert index call → call.result = .ok false →
        stored s'.store = stored s.store) ∧
      -- the step that finishes an execution is the call of `verify`
      ∀ (index : ℕ) (request : VerifyRequest C) (result : Except Error VerifiedPresentation),
        s'.executions[index]? = some ⟨request, .done result⟩ →
        s.executions[index]? ≠ some ⟨request, .done result⟩ →
          Verifier.verify T ⟨request.publicKey, s.store⟩ request.challenge request.presentation =
            (result, ⟨request.publicKey, s'.store⟩)) ∧
    -- uninterrupted, an execution is the call of `verify`
    (∀ (s : Replicas C S) (index : ℕ) (request : VerifyRequest C),
      s.executions[index]? = some ⟨request, .started⟩ → ∃ steps,
        (∀ action ∈ steps, action = .check index ∨ ∃ call, action = .insert index call) ∧
        Run (Replicas.Step T) s steps
          { store := (Verifier.verify T ⟨request.publicKey, s.store⟩ request.challenge
              request.presentation).2.store
            executions := s.executions.set index ⟨request, .done (Verifier.verify T
              ⟨request.publicKey, s.store⟩ request.challenge request.presentation).1⟩ }) ∧
    (∀ key ∈ stored final.store, key ∈ stored store ∨ ∃ index, ∃ call ∈ insertsOf index trace,
      (call.scope, call.tag) = key ∧ call.result ≠ .ok false) ∧
    -- a pair that is not stored can still be authorised
    (∀ scope tag inserted, (scope, tag) ∉ stored final.store →
      (T.insertIfAbsent scope tag final.store).1 = .ok inserted → inserted = true) ∧
    -- the process-local store
    ∀ (trace : List (ReplicaAction C)) (final : Replicas C MemoryTagStore),
      Run (Replicas.Step memoryTagStore) ⟨∅, []⟩ trace final →
        final.store = (okPairs final.executions).toFinset ∧
          final.store.len = (okPairs final.executions).length := by
  have hinv := Replicas.inv_of_run hT hrun
  refine ⟨?_, ?_, ?_, ?_, fun s index request => s.verify_run, hinv.source, ?_,
    fun _ _ hrun => Replicas.memory_store hrun⟩
  · intro index request verified hget
    obtain ⟨hcheck, hinserts⟩ := (hinv.explained index _ hget).of_ok
    exact ⟨hcheck, (PublicKey.verifyProofOnly_eq_ok.mp hcheck).2.2, hinserts⟩
  · intro i j request request' verified verified' hi hj hne heq
    exact hne (okPairs_unique hinv.once hi hj rfl (congrArg some heq.symm))
  · intro index e hget
    have hexplained := hinv.explained index e hget
    refine ⟨hexplained.length_le, ?_⟩
    intro error herror
    cases hinserts : insertsOf index trace with
    | nil => rfl
    | cons call rest =>
      obtain ⟨verified, hcheck, -⟩ := hexplained.of_mem (by rw [hinserts]; exact List.mem_cons_self)
      rw [herror] at hcheck
      cases hcheck
  · rintro before action after rfl
    obtain ⟨s, s', hbefore, hstep, -⟩ := hrun.split
    refine ⟨s, s', hbefore, hstep, ?_, ?_, fun index request result =>
      (Replicas.inv_of_run hT hbefore).verify_of_finished hstep⟩
    · rintro index rfl
      cases hstep
      rfl
    · rintro index call rfl hfalse
      cases hstep with
      | insert _ hinsert =>
        have hsame := hT.stored_eq_of_false ((congrArg Prod.fst hinsert).trans hfalse)
        rw [hinsert] at hsame
        exact hsame
  · intro scope tag inserted habsent hresult
    cases inserted with
    | true => rfl
    | false => exact absurd (hT.repeated scope tag _ hresult) habsent

/-- The process-local store behind a connection that fails the first call. -/
def Reference.flakyStore : TagStore (Bool × MemoryTagStore) where
  insertIfAbsent scope tag
    | (false, tags) => (.error .storageFailure, (true, tags))
    | (true, tags) =>
      ((MemoryTagStore.insertIfAbsent scope tag tags).1,
        (true, (MemoryTagStore.insertIfAbsent scope tag tags).2))

theorem Reference.flakyStore_atomic :
    Reference.flakyStore.Atomic fun s => (s.2 : Set (Bytes32 × Bytes32)) where
  grows := by
    rintro scope tag ⟨_ | _, tags⟩
    · exact subset_rfl
    · exact memoryTagStore_atomic.grows scope tag tags
  only := by
    rintro scope tag ⟨_ | _, tags⟩
    · exact Set.subset_insert _ _
    · exact memoryTagStore_atomic.only scope tag tags
  first := by
    rintro scope tag ⟨_ | _, tags⟩ h
    · cases h
    · exact memoryTagStore_atomic.first scope tag tags h
  repeated := by
    rintro scope tag ⟨_ | _, tags⟩ h
    · cases h
    · exact memoryTagStore_atomic.repeated scope tag tags h

/-- One presentation delivered to three replicas, all of which check it before the first insertion:
the store fails one of them, and of the others the first to insert is authorised. -/
theorem verify_interleaved_reference : ∃ (trace : List (ReplicaAction Reference.crates))
    (final : Replicas Reference.crates (Bool × MemoryTagStore))
    (request : VerifyRequest Reference.crates) (verified : VerifiedPresentation),
    Run (Replicas.Step Reference.flakyStore) ⟨(false, ∅), []⟩ trace final ∧
    final.executions = [⟨request, .done (.error .storageFailure)⟩,
      ⟨request, .done (.error .tagAlreadyUsed)⟩, ⟨request, .done (.ok verified)⟩] ∧
    request.check = .ok verified ∧
    insertsOf 2 trace = [⟨verified.scope, verified.tag, .ok true⟩] ∧
    ∀ (index : ℕ) (e : Execution Reference.crates), final.executions[index]? = some e →
      (insertsOf index trace).length ≤ 1 := by
  obtain ⟨presentation, -, rng, rng', hpresent⟩ := Reference.exists_presentStep
  have hproof := Credential.present_verifies Reference.verifyComplete hpresent
  let request : VerifyRequest Reference.crates :=
    ⟨Reference.publicKey, Reference.challenge, presentation⟩
  let verified : VerifiedPresentation :=
    ⟨presentationScope Reference.crates Reference.publicKey.context
      Reference.challenge.credentialContext.digest Reference.challenge.presentationContext.digest,
        presentation.tag⟩
  have hchecked : VerifyPhase.afterCheck request.check = .checked verified :=
    congrArg VerifyPhase.afterCheck hproof
  -- the checks, in order, and the insertions of the first, the third and the second execution
  have hcheck : ∀ {s : Replicas Reference.crates (Bool × MemoryTagStore)} {index : ℕ},
      s.executions[index]? = some ⟨request, .started⟩ →
      Replicas.Step Reference.flakyStore s (.check index)
        { s with executions := s.executions.set index ⟨request, .checked verified⟩ } :=
    fun h => hchecked ▸ Replicas.Step.check h
  have hrepeated : Reference.flakyStore.insertIfAbsent verified.scope verified.tag
      (true, insert (verified.scope, verified.tag) ∅) =
        (.ok false, (true, insert (verified.scope, verified.tag) ∅)) := by
    simp [Reference.flakyStore, MemoryTagStore.insertIfAbsent]
  have hrun : Run (Replicas.Step Reference.flakyStore) ⟨(false, ∅), []⟩
      [.start request, .start request, .start request, .check 0, .check 1, .check 2,
        .insert 0 ⟨verified.scope, verified.tag, .error .storageFailure⟩,
        .insert 2 ⟨verified.scope, verified.tag, .ok true⟩,
        .insert 1 ⟨verified.scope, verified.tag, .ok false⟩] _ :=
    Run.cons .start <| Run.cons .start <| Run.cons .start <| Run.cons (hcheck rfl) <|
      Run.cons (hcheck rfl) <| Run.cons (hcheck rfl) <| Run.cons (.insert (by rfl) (by rfl)) <|
        Run.cons (.insert (by rfl) (by rfl)) <| .single (.insert (by rfl) hrepeated)
  obtain ⟨hok, -, hinserts, -⟩ := verify_interleaved Reference.flakyStore_atomic hrun
  obtain ⟨hvalid, -, hinsert⟩ := hok 2 request verified rfl
  exact ⟨_, _, request, verified, hrun, rfl, hvalid, hinsert, fun i e h => (hinserts i e h).1⟩

end VoleArc
