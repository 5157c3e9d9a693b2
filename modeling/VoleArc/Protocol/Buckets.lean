import VoleArc.HashInput
import VoleArc.Protocol.Concurrent

/-!
# VoleArc.Protocol.Buckets — one store, many buckets

Verifiers of any keys and suites share a store.  A bucket is the triple of issuer, credential and
presentation context; the verdict on a call depends on the calls before it only through its own
bucket and tag, so deleting the calls of other buckets changes nothing.
-/

namespace VoleArc

variable {K : Type} [Field K] {ι : Type} {P : ι → ArcParams} {C : ∀ i, Crates (P i) K}

/-! ### Calls and buckets -/

/-- What a rate limit is kept for. -/
structure Bucket where
  issuer : Bytes32
  credential : Bytes32
  presentation : Bytes32
  deriving DecidableEq

/-- What is hashed to the scope of a bucket. -/
def Bucket.scopeInput (bucket : Bucket) : Bytes :=
  (HashInput.presentationScope bucket.issuer bucket.credential bucket.presentation).bytes

theorem Bucket.scopeInput_injective : Function.Injective Bucket.scopeInput := by
  intro a b h
  obtain ⟨i, c, p⟩ := a
  obtain ⟨i', c', p'⟩ := b
  have hparts : [i, c, p] = [i', c', p'] := digests_inj (List.append_cancel_left h) rfl
  simp only [List.cons.injEq, and_true] at hparts
  obtain ⟨rfl, rfl, rfl⟩ := hparts
  rfl

/-- A call of `verify` on a verifier of some suite. -/
structure SuiteCall (C : ∀ i, Crates (P i) K) where
  suite : ι
  request : VerifyRequest (C suite)

namespace SuiteCall

def bucket (call : SuiteCall C) : Bucket where
  issuer := call.request.publicKey.context
  credential := call.request.challenge.credentialContext.digest
  presentation := call.request.challenge.presentationContext.digest

def tag (call : SuiteCall C) : Bytes32 := call.request.presentation.tag

/-- The proof check, which the store has no part in. -/
def check (call : SuiteCall C) : Except Error VerifiedPresentation := call.request.check

/-- `verify` of the call's key, on the shared store. -/
def verify (call : SuiteCall C) (tags : MemoryTagStore) :
    Except Error VerifiedPresentation × MemoryTagStore :=
  let (result, verifier) := Verifier.verify memoryTagStore
    { publicKey := call.request.publicKey, store := tags } call.request.challenge
    call.request.presentation
  (result, verifier.store)

end SuiteCall

/-- The calls of a run, each with its result. -/
def history : MemoryTagStore → List (SuiteCall C) →
    List (SuiteCall C × Except Error VerifiedPresentation)
  | _, [] => []
  | tags, call :: calls => (call, (call.verify tags).1) :: history (call.verify tags).2 calls

theorem history_cons (tags : MemoryTagStore) (call : SuiteCall C) (calls : List (SuiteCall C)) :
    history tags (call :: calls) =
      (call, (call.verify tags).1) :: history (call.verify tags).2 calls := rfl

@[simp] theorem length_history (tags : MemoryTagStore) (calls : List (SuiteCall C)) :
    (history tags calls).length = calls.length := by
  induction calls generalizing tags with
  | nil => rfl
  | cons call calls ih => rw [history_cons, List.length_cons, ih, List.length_cons]

theorem mem_of_mem_history {tags : MemoryTagStore} {calls : List (SuiteCall C)}
    {entry : SuiteCall C × Except Error VerifiedPresentation} (h : entry ∈ history tags calls) :
    entry.1 ∈ calls := by
  induction calls generalizing tags with
  | nil => cases h
  | cons call calls ih =>
    rw [history_cons] at h
    rcases List.mem_cons.mp h with rfl | h
    · exact List.mem_cons_self
    · exact List.mem_cons_of_mem call (ih h)

/-- The store after a run. -/
def storeAfter (tags : MemoryTagStore) (calls : List (SuiteCall C)) : MemoryTagStore :=
  calls.foldl (fun tags call => (call.verify tags).2) tags

/-! ### One call -/

section Shake

variable {shake : Bytes → Bytes32}

/-- An accepted proof is for the scope of the call's bucket and for its tag. -/
theorem SuiteCall.check_eq_ok (hshake : ∀ i, (C i).shake = shake) {call : SuiteCall C}
    {verified : VerifiedPresentation} (h : call.check = .ok verified) :
    (verified.scope, verified.tag) = (shake call.bucket.scopeInput, call.tag) := by
  obtain ⟨-, -, rfl⟩ := PublicKey.verifyProofOnly_eq_ok.mp h
  have hscope := (HashInput.hashes (C call.suite)).presentationScope call.bucket.issuer
    call.bucket.credential call.bucket.presentation
  rw [hshake] at hscope
  exact congrArg (·, call.tag) hscope

/-- A rejected proof leaves the store alone. -/
theorem SuiteCall.verify_of_error {call : SuiteCall C} {e : Error} (h : call.check = .error e)
    (tags : MemoryTagStore) : call.verify tags = (.error e, tags) := by
  have hcheck : call.request.publicKey.verifyProofOnly call.request.challenge
      call.request.presentation = .error e := h
  unfold SuiteCall.verify Verifier.verify
  simp only [hcheck]

/-- An accepted proof asks the store for its pair. -/
theorem SuiteCall.verify_of_ok {call : SuiteCall C} {verified : VerifiedPresentation}
    (h : call.check = .ok verified) (tags : MemoryTagStore) :
    call.verify tags =
      (if (verified.scope, verified.tag) ∈ tags then .error .tagAlreadyUsed else .ok verified,
        insert (verified.scope, verified.tag) tags) := by
  have hcheck : call.request.publicKey.verifyProofOnly call.request.challenge
      call.request.presentation = .ok verified := h
  unfold SuiteCall.verify Verifier.verify
  simp only [hcheck, memoryTagStore, MemoryTagStore.insertIfAbsent]
  by_cases hmem : (verified.scope, verified.tag) ∈ tags
  · simp [hmem]
  · simp [hmem]

/-- What a call adds to the store: its pair, if its proof is accepted. -/
theorem SuiteCall.mem_verify (hshake : ∀ i, (C i).shake = shake) (call : SuiteCall C)
    (tags : MemoryTagStore) (key : Bytes32 × Bytes32) :
    key ∈ (call.verify tags).2 ↔
      key ∈ tags ∨ call.check.isOk ∧ key = (shake call.bucket.scopeInput, call.tag) := by
  cases h : call.check with
  | error e =>
    rw [call.verify_of_error h]
    simp [Except.isOk, Except.toBool]
  | ok verified =>
    rw [call.verify_of_ok h, call.check_eq_ok hshake h, Finset.mem_insert]
    simp [Except.isOk, Except.toBool, or_comm]

/-- The result of a call depends on the store only through the call's own pair. -/
theorem SuiteCall.verify_congr (hshake : ∀ i, (C i).shake = shake) (call : SuiteCall C)
    {tags tags' : MemoryTagStore}
    (h : (shake call.bucket.scopeInput, call.tag) ∈ tags ↔
      (shake call.bucket.scopeInput, call.tag) ∈ tags') :
    (call.verify tags).1 = (call.verify tags').1 := by
  cases hcheck : call.check with
  | error e => rw [call.verify_of_error hcheck, call.verify_of_error hcheck]
  | ok verified =>
    rw [call.verify_of_ok hcheck, call.verify_of_ok hcheck, call.check_eq_ok hshake hcheck]
    simp only [h]

/-! ### A run -/

/-- Two stores that agree on one bucket, the second without the calls of the others: the calls of
the bucket get the same results from both. -/
theorem history_filter (hshake : ∀ i, (C i).shake = shake) (bucket : Bucket) :
    ∀ (calls : List (SuiteCall C)) (tags tags' : MemoryTagStore),
      (∀ call ∈ calls, shake call.bucket.scopeInput = shake bucket.scopeInput →
        call.bucket = bucket) →
      (∀ tag, (shake bucket.scopeInput, tag) ∈ tags ↔ (shake bucket.scopeInput, tag) ∈ tags') →
      (history tags calls).filter (fun entry => entry.1.bucket = bucket) =
        history tags' (calls.filter fun call => call.bucket = bucket) := by
  intro calls
  induction calls with
  | nil => intro tags tags' _ _; rfl
  | cons call calls ih =>
    intro tags tags' hsep hagree
    have hsep' := fun c hc => hsep c (List.mem_cons_of_mem call hc)
    rw [history_cons]
    by_cases hbucket : call.bucket = bucket
    · rw [List.filter_cons_of_pos (by simpa using hbucket),
        List.filter_cons_of_pos (by simpa using hbucket)]
      have hresult := call.verify_congr hshake (hbucket ▸ hagree call.tag)
      rw [history_cons, hresult]
      refine congrArg _ (ih _ _ hsep' fun tag => ?_)
      rw [call.mem_verify hshake, call.mem_verify hshake, hagree]
    · rw [List.filter_cons_of_neg (by simpa using hbucket),
        List.filter_cons_of_neg (by simpa using hbucket)]
      refine ih _ _ hsep' fun tag => ?_
      rw [call.mem_verify hshake, ← hagree, or_iff_left]
      rintro ⟨-, hkey⟩
      exact hbucket (hsep call List.mem_cons_self (Prod.mk.inj hkey).1.symm)

/-- What a run leaves in the store. -/
theorem mem_storeAfter (hshake : ∀ i, (C i).shake = shake) (key : Bytes32 × Bytes32)
    (calls : List (SuiteCall C)) (tags : MemoryTagStore) :
    key ∈ storeAfter tags calls ↔ key ∈ tags ∨
      ∃ call ∈ calls, call.check.isOk ∧ key = (shake call.bucket.scopeInput, call.tag) := by
  induction calls generalizing tags with
  | nil => simp [storeAfter]
  | cons call calls ih =>
    show key ∈ storeAfter (call.verify tags).2 calls ↔ _
    rw [ih, call.mem_verify hshake, List.exists_mem_cons_iff, or_assoc]

theorem history_append (tags : MemoryTagStore) (earlier later : List (SuiteCall C)) :
    history tags (earlier ++ later) =
      history tags earlier ++ history (storeAfter tags earlier) later := by
  induction earlier generalizing tags with
  | nil => rfl
  | cons call earlier ih =>
    rw [List.cons_append, history_cons, history_cons, ih, List.cons_append]
    rfl

end Shake

/-- The result of a call after earlier ones, from a store of tags: its proof decides, then whether a
call of the same bucket and tag came first. -/
def SuiteCall.verdict (shake : Bytes → Bytes32) (tags : MemoryTagStore)
    (earlier : List (SuiteCall C)) (call : SuiteCall C) : Except Error VerifiedPresentation :=
  match call.check with
  | .error e => .error e
  | .ok verified =>
    if (shake call.bucket.scopeInput, call.tag) ∈ tags ∨
        ∃ first ∈ earlier, first.check.isOk ∧ first.bucket = call.bucket ∧ first.tag = call.tag
    then .error .tagAlreadyUsed
    else .ok verified

theorem SuiteCall.verify_storeAfter {shake : Bytes → Bytes32}
    (hshake : ∀ i, (C i).shake = shake) {earlier : List (SuiteCall C)} {call : SuiteCall C}
    (hsep : ∀ first ∈ earlier, shake first.bucket.scopeInput = shake call.bucket.scopeInput →
      first.bucket = call.bucket) (tags : MemoryTagStore) :
    (call.verify (storeAfter tags earlier)).1 = call.verdict shake tags earlier := by
  unfold SuiteCall.verdict
  cases hcheck : call.check with
  | error e => rw [call.verify_of_error hcheck]
  | ok verified =>
    rw [call.verify_of_ok hcheck, call.check_eq_ok hshake hcheck]
    refine if_congr ?_ rfl rfl
    rw [mem_storeAfter hshake]
    refine or_congr_right ⟨?_, ?_⟩
    · rintro ⟨first, hmem, hok, hkey⟩
      obtain ⟨hscope, htag⟩ := Prod.mk.inj hkey
      exact ⟨first, hmem, hok, hsep first hmem hscope.symm, htag.symm⟩
    · rintro ⟨first, hmem, hok, hbucket, htag⟩
      exact ⟨first, hmem, hok, by rw [hbucket, htag]⟩

/-- An accepted proof is refused once an accepted call of its bucket and tag came before. -/
theorem SuiteCall.verdict_of_used {shake : Bytes → Bytes32} {tags : MemoryTagStore}
    {earlier : List (SuiteCall C)} {call : SuiteCall C} (hok : call.check.isOk)
    (hused : ∃ first ∈ earlier, first.check.isOk ∧ first.bucket = call.bucket ∧
      first.tag = call.tag) :
    call.verdict shake tags earlier = .error .tagAlreadyUsed := by
  unfold SuiteCall.verdict
  cases hcheck : call.check with
  | error e => rw [hcheck] at hok; cases hok
  | ok verified => exact if_pos (.inr hused)

/-- Buckets are isolated.  In a run of `verify` on a shared store, deleting the calls of all other
buckets changes no result of the remaining ones; each call's result is its `verdict`; and of two
accepted proofs with one bucket and tag the later is refused, whatever their limits and bindings. -/
theorem bucket_isolation (shake : Bytes → Bytes32) (hshake : ∀ i, (C i).shake = shake)
    (tags : MemoryTagStore) (calls : List (SuiteCall C))
    (hfree : ∀ a ∈ calls, ∀ b ∈ calls, shake a.bucket.scopeInput = shake b.bucket.scopeInput →
      a.bucket.scopeInput = b.bucket.scopeInput) :
    (∀ bucket, (history tags calls).filter (fun entry => entry.1.bucket = bucket) =
      history tags (calls.filter fun call => call.bucket = bucket)) ∧
    (∀ earlier call later, calls = earlier ++ call :: later →
      (history tags calls)[earlier.length]? = some (call, call.verdict shake tags earlier)) ∧
    (∀ earlier first between second later,
      calls = earlier ++ first :: (between ++ second :: later) →
      first.bucket = second.bucket → first.tag = second.tag → first.check.isOk →
      second.check.isOk →
      (history tags calls)[earlier.length + 1 + between.length]? =
        some (second, .error .tagAlreadyUsed)) := by
  have hsep : ∀ a ∈ calls, ∀ b ∈ calls,
      shake a.bucket.scopeInput = shake b.bucket.scopeInput → a.bucket = b.bucket :=
    fun a ha b hb h => Bucket.scopeInput_injective (hfree a ha b hb h)
  have hverdict : ∀ earlier call later, calls = earlier ++ call :: later →
      (history tags calls)[earlier.length]? = some (call, call.verdict shake tags earlier) := by
    rintro earlier call later rfl
    have hlen := length_history tags earlier
    rw [history_append, List.getElem?_append_right hlen.le, hlen, Nat.sub_self, history_cons,
      List.getElem?_cons_zero, SuiteCall.verify_storeAfter hshake]
    intro first hfirst
    exact hsep first (List.mem_append_left _ hfirst) call
      (List.mem_append_right _ List.mem_cons_self)
  refine ⟨?_, hverdict, ?_⟩
  · intro bucket
    by_cases hoccurs : ∃ call ∈ calls, call.bucket = bucket
    · obtain ⟨call, hcall, rfl⟩ := hoccurs
      exact history_filter hshake _ calls tags tags (fun c hc => hsep c hc call hcall)
        fun _ => Iff.rfl
    · -- no call of this bucket: both sides are empty
      have hnone : ∀ call ∈ calls, call.bucket ≠ bucket := fun call hcall h =>
        hoccurs ⟨call, hcall, h⟩
      have hcalls : calls.filter (fun call => call.bucket = bucket) = [] :=
        List.filter_eq_nil_iff.mpr (by simpa using hnone)
      rw [hcalls]
      show (history tags calls).filter _ = []
      refine List.filter_eq_nil_iff.mpr fun entry hentry => ?_
      simpa using hnone entry.1 (mem_of_mem_history hentry)
  · rintro earlier first between second later hcalls hbucket htag hfirst hsecond
    have hsplit : calls = (earlier ++ first :: between) ++ second :: later := by
      rw [hcalls, List.append_assoc]; rfl
    have hentry := hverdict _ _ _ hsplit
    rw [List.length_append, List.length_cons, ← Nat.add_assoc, Nat.add_right_comm] at hentry
    rw [hentry, second.verdict_of_used hsecond ⟨first, by simp, hfirst, hbucket, htag⟩]

/-- A call with a presentation that verifies. -/
theorem Reference.exists_call {challenge : PresentationChallenge}
    (hallows : Reference.credential.Allows Reference.publicKey challenge) :
    ∃ call : SuiteCall fun _ : Unit => Reference.crates, call.check.isOk ∧
      call.request.publicKey = Reference.publicKey ∧ call.request.challenge = challenge := by
  obtain ⟨presentation, -, rng, rng', hpresent⟩ :=
    Reference.exists_use Reference.credential_valid hallows
  have hproof := Credential.present_verifies Reference.verifyComplete hpresent
  refine ⟨⟨(), Reference.publicKey, challenge, presentation⟩, ?_, rfl, rfl⟩
  show (Reference.publicKey.verifyProofOnly challenge presentation).isOk
  rw [hproof]
  rfl

/-- Presentations in two buckets, each verified twice: the second bucket gets the results it gets
alone, the first of its calls is authorised and the other refused. -/
theorem bucket_isolation_reference : ∃ a b : SuiteCall fun _ : Unit => Reference.crates,
    a.bucket ≠ b.bucket ∧ a.check.isOk ∧ b.check.isOk ∧
    (history ∅ [a, b, a, b]).filter (fun entry => entry.1.bucket = b.bucket) = history ∅ [b, b] ∧
    (history ∅ [a, b, a, b])[1]? = some (b, b.check) ∧
    (history ∅ [a, b, a, b])[3]? = some (b, .error .tagAlreadyUsed) := by
  obtain ⟨a, hokA, hkeyA, hchallengeA⟩ := Reference.exists_call Reference.allows
  obtain ⟨b, hokB, hkeyB, hchallengeB⟩ := Reference.exists_call Reference.allows_other
  have hinputA : a.bucket = ⟨Reference.publicKey.context, Reference.zeros, Reference.zeros⟩ := by
    rw [SuiteCall.bucket, hkeyA, hchallengeA]
    rfl
  have hinputB : b.bucket = ⟨Reference.publicKey.context, Reference.zeros, Reference.ones⟩ := by
    rw [SuiteCall.bucket, hkeyB, hchallengeB]
    rfl
  have hscope : Reference.crates.shake a.bucket.scopeInput ≠
      Reference.crates.shake b.bucket.scopeInput := by
    rw [hinputA, hinputB]
    exact Reference.presentationScope_ne
  have hne : a.bucket ≠ b.bucket := fun h => hscope (by rw [h])
  have hcalls : ∀ c ∈ [a, b, a, b], c = a ∨ c = b := by simp
  have hfree : ∀ c ∈ [a, b, a, b], ∀ d ∈ [a, b, a, b],
      Reference.crates.shake c.bucket.scopeInput = Reference.crates.shake d.bucket.scopeInput →
        c.bucket.scopeInput = d.bucket.scopeInput := by
    intro c hc d hd h
    rcases hcalls c hc with rfl | rfl <;> rcases hcalls d hd with rfl | rfl
    · rfl
    · exact absurd h hscope
    · exact absurd h.symm hscope
    · rfl
  obtain ⟨hdelete, hverdict, hrepeat⟩ :=
    bucket_isolation Reference.crates.shake (fun _ => rfl) ∅ [a, b, a, b] hfree
  refine ⟨a, b, hne, hokA, hokB, ?_, ?_, hrepeat [a] b [a] b [] rfl rfl rfl hokB hokB⟩
  · rw [hdelete b.bucket, List.filter_cons_of_neg (by simpa using hne),
      List.filter_cons_of_pos (by simp), List.filter_cons_of_neg (by simpa using hne),
      List.filter_cons_of_pos (by simp), List.filter_nil]
  · have hfirst : b.verdict Reference.crates.shake ∅ [a] = b.check := by
      unfold SuiteCall.verdict
      cases hcheck : b.check with
      | error e => rfl
      | ok verified => exact if_neg (by simp [hne])
    exact (hverdict [a] b [a, b] rfl).trans (by rw [hfirst])

end VoleArc
