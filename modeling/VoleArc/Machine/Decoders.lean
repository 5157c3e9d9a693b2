import VoleArc.Machine.Hash
import VoleArc.Protocol.WireFormats

/-!
# VoleArc.Machine.Decoders — decoders are total on hostile bytes

The seven decoders over the primitives of `VoleArc.Machine.Wire`, with the hash code they call.
None panics on any input, and each returns what its model returns; nor does any sequence of
primitive calls.
-/

namespace VoleArc.Machine

open Checked Reader

variable {P : ArcParams} {K : Type} [Field K] {C : Crates P K} (p : PointerWidth)

/-! ### The seven decoders -/

theorem length_le_of_not_gt {applicationContext : Bytes}
    (h : ¬ applicationContext.length > maxApplicationContextBytes) :
    applicationContext.length ≤ maxApplicationContextBytes := Nat.le_of_not_gt h

def decodeKey {Key Value : Type} (fromBytes : Bytes → Option Key)
    (build : Key → PerformanceProfile → (applicationContext : Bytes) →
      applicationContext.length ≤ maxApplicationContextBytes → Value) : Decode Value := do
  let id ← u8 p
  let profile ← liftM (PerformanceProfile.fromWireId id)
  let applicationContext ← bytes p
  if h : applicationContext.length > maxApplicationContextBytes then throw .invalidEncoding
  else
    let encoded ← bytes p
    let key ← liftM ((fromBytes encoded).elim (.error WireError.invalidEncoding) Except.ok)
    finish
    pure (build key profile applicationContext (length_le_of_not_gt h))

def PublicKey.fromBytes : Decode (PublicKey C) :=
  decodeWith p WIRE_PUBLIC_KEY P.WIRE_ID (decodeKey p C.mayo.publicKeyFromBytes PublicKey.derive)

def Issuer.fromKeyBytes : Decode (Issuer C) :=
  decodeWith p WIRE_ISSUER_KEY P.WIRE_ID (decodeKey p C.mayo.secretKeyFromBytes
    fun secret profile applicationContext h =>
      ⟨secret, PublicKey.derive (C.mayo.publicKey secret) profile applicationContext h⟩)

def IssueRequest.fromBytes : Decode (IssueRequest C) :=
  decodeWith p WIRE_ISSUE_REQUEST P.WIRE_ID do
    let commitment ← nibbles p P.M
    let encoded ← bytes p
    let proof ← liftM (decodeProof (C := C) encoded)
    finish
    pure ⟨commitment, proof⟩

def IssueResponse.fromBytes : Decode (IssueResponse C) :=
  decodeWith p WIRE_ISSUE_RESPONSE P.WIRE_ID do
    let signature ← nibbles p P.KN
    let salt ← array p 32
    finish
    pure ⟨signature, salt⟩

theorem eq_of_credentialTarget {scope secret hidingNonce : Bytes32} {commitment : List GF16}
    (h : credentialTarget p P scope secret hidingNonce = some commitment) :
    commitment = VoleArc.credentialTarget P scope secret hidingNonce := by
  rw [credentialTarget_eq] at h
  exact (Option.some.inj h).symm

def PendingIssue.fromBytes (publicKey : PublicKey C) : Decode (PendingIssue C) :=
  decodeWith p WIRE_PENDING_ISSUE P.WIRE_ID do
    let issuerContext ← array p 32
    let credentialContext ← array p 32
    let secret ← array p 32
    let hidingNonce ← array p 32
    finish
    if issuerContext ≠ publicKey.context then throw .wrongIssuer
    else
      let scope := credentialScope C issuerContext credentialContext
      orPanic ((credentialTarget p P scope secret hidingNonce).pmap
        (fun commitment h =>
          ⟨issuerContext, ⟨credentialContext⟩, secret, hidingNonce, commitment, h⟩)
        fun _ h => eq_of_credentialTarget p h)

def Presentation.fromBytes : Decode (Presentation C) :=
  decodeWith p WIRE_PRESENTATION P.WIRE_ID do
    let tag ← array p 32
    let encoded ← bytes p
    let proof ← liftM (decodeProof (C := C) encoded)
    finish
    pure ⟨tag, proof⟩

def PublicKey.verifyCredential (publicKey : PublicKey C) (credential : Credential C) :
    Option (Except Error Unit) :=
  if credential.issuerContext ≠ publicKey.context then some (.error .wrongIssuer)
  else do
    let scope := credentialScope C credential.issuerContext credential.credentialContext.digest
    let commitment ← credentialTarget p P scope credential.secret credential.hidingNonce
    let target ← signedCredentialTarget p P commitment credential.salt
    match C.mayo.eval publicKey.mayo credential.signature with
    | none => some (.error .invalidSignature)
    | some evaluated =>
      if !gf16SlicesEqual evaluated target then some (.error .invalidSignature) else some (.ok ())

/-- `for _ in 0..context_count { .. }`. -/
def readCounters : ℕ → CounterMap → Option Bytes32 → Decode CounterMap
  | 0, nextNonces, _ => pure nextNonces
  | n + 1, nextNonces, previous => do
    record .iterate
    let context ← array p 32
    if previous.any fun prior => (compare prior context).isGE then throw .invalidEncoding
    else
      let nextNonce ← u32 p
      if nextNonce = 0 then throw .invalidEncoding
      else readCounters n (nextNonces.insert context nextNonce) (some context)

def Credential.fromBytes (publicKey : PublicKey C) : Decode (Credential C) :=
  decodeWith p WIRE_CREDENTIAL P.WIRE_ID do
    let issuerContext ← array p 32
    let credentialContext ← array p 32
    let signature ← nibbles p P.KN
    let secret ← array p 32
    let hidingNonce ← array p 32
    let salt ← array p 32
    let contextCount ← u32 p
    let contextCount ← usizeFrom p contextCount
    if contextCount > maxPresentationContexts then throw .invalidEncoding
    else
      let nextNonces ← readCounters p contextCount ∅ none
      finish
      if issuerContext ≠ publicKey.context then throw .wrongIssuer
      else
        let credential : Credential C :=
          ⟨issuerContext, ⟨credentialContext⟩, signature, secret, hidingNonce, salt, nextNonces⟩
        let verified ← orPanic (PublicKey.verifyCredential p publicKey credential)
        liftM (verified.mapError fun _ => WireError.invalidCredential)
        pure credential

/-! ### They refine their models -/

variable {p}

theorem refines_decodeKey {Key Value : Type} (n : ℕ) (fromBytes : Bytes → Option Key)
    (build : Key → PerformanceProfile → (applicationContext : Bytes) →
      applicationContext.length ≤ maxApplicationContextBytes → Value) :
    Refines layer n (decodeKey p fromBytes build) (VoleArc.decodeKey fromBytes build) := by
  refine (refines_u8 0).call fun id => (Refines.lift _).call fun profile => ?_
  refine (refines_bytes 0).call fun app => Refines.dite (fun _ => Refines.throw _) fun _ => ?_
  refine (refines_bytes 0).call fun encoded => (Refines.lift _).call fun key => ?_
  exact (refines_finish 0).call fun _ => Refines.pure _

/-- One iteration is counted. -/
theorem Refines.iterate {α : Type} {n : ℕ} {m : Decode α} {d : Wire.Decode α}
    (h : Refines layer n m d) :
    Refines layer (n + 1) (record .iterate >>= fun _ => m) d := by
  rintro s t ⟨hinput, hoffset, hlen⟩
  obtain ⟨r, s', hrun, hadvances, hagrees⟩ :=
    h { s with log := s.log ++ [.iterate] } t ⟨hinput, hoffset, hlen⟩
  have hone : s.Advances 1 { s with log := s.log ++ [.iterate] } :=
    ⟨rfl, [.iterate], rfl, rfl, by simp⟩
  refine ⟨r, s', (bind_ok rfl).trans hrun, ?_, hagrees⟩
  rw [Nat.add_comm]
  exact layer.trans hone hadvances

/-- The counter loop iterates once for each counter at most. -/
theorem refines_readCounters : ∀ (n : ℕ) (nextNonces : CounterMap) (previous : Option Bytes32),
    Refines layer n (readCounters p n nextNonces previous)
      (VoleArc.readCounters n nextNonces previous)
  | 0, _, _ => Refines.pure _
  | n + 1, nextNonces, previous => by
    refine Refines.iterate ((refines_array 0 32).call fun context => ?_)
    refine Refines.ite (fun _ => Refines.throw _) fun _ => ?_
    refine (refines_u32 0).call fun nextNonce => Refines.ite (fun _ => Refines.throw _) fun _ => ?_
    exact refines_readCounters n _ _

theorem verifyCredential_eq (publicKey : PublicKey C) (credential : Credential C) :
    PublicKey.verifyCredential p publicKey credential =
      some (publicKey.verifyCredential credential) := by
  unfold PublicKey.verifyCredential VoleArc.PublicKey.verifyCredential
  by_cases h : credential.issuerContext ≠ publicKey.context
  · rw [if_pos h, if_pos h]
  · rw [if_neg h, if_neg h]
    refine bind_of (credentialTarget_eq _ _ _ _) (bind_of
      (signedCredentialTarget_eq P (length_credentialTarget _ _ _ _) _) ?_)
    cases C.mayo.eval publicKey.mayo credential.signature with
    | none => rfl
    | some evaluated =>
      simp only
      split_ifs <;> rfl

/-! ### Whole artifacts -/

end VoleArc.Machine

namespace VoleArc

open Checked Machine

variable {P : ArcParams} {K : Type} [Field K] {C : Crates P K}

/-- What an artifact decodes to. -/
def Artifact.Value (C : Crates P K) : Artifact → Type
  | publicKey => PublicKey C
  | issuerKey => Issuer C
  | issueRequest => IssueRequest C
  | issueResponse => IssueResponse C
  | pendingIssue => PendingIssue C
  | credential => Credential C
  | presentation => Presentation C

/-- The seven decoders. -/
def Artifact.fromBytes (key : PublicKey C) (bytes : Bytes) :
    (artifact : Artifact) → Except WireError (artifact.Value C)
  | publicKey => PublicKey.fromBytes bytes
  | issuerKey => Issuer.fromKeyBytes bytes
  | issueRequest => IssueRequest.fromBytes bytes
  | issueResponse => IssueResponse.fromBytes bytes
  | pendingIssue => PendingIssue.fromBytes key bytes
  | credential => Credential.fromBytes key bytes
  | presentation => Presentation.fromBytes bytes

/-- The seven decoders where they can panic. -/
def Artifact.decode (p : PointerWidth) (key : PublicKey C) :
    (artifact : Artifact) → Machine.Decode (artifact.Value C)
  | publicKey => Machine.PublicKey.fromBytes p
  | issuerKey => Machine.Issuer.fromKeyBytes p
  | issueRequest => Machine.IssueRequest.fromBytes p
  | issueResponse => Machine.IssueResponse.fromBytes p
  | pendingIssue => Machine.PendingIssue.fromBytes p key
  | credential => Machine.Credential.fromBytes p key
  | presentation => Machine.Presentation.fromBytes p

theorem Artifact.run_decode (p : PointerWidth) (key : PublicKey C) (input : Bytes)
    (artifact : Artifact) :
    ∃ s, artifact.decode p key (Decoder.start input) = some (artifact.fromBytes key input, s) ∧
      (Decoder.start input).Advances maxPresentationContexts s := by
  cases artifact with
  | publicKey => exact run_decodeWith (refines_decodeKey _ _ _) _ _ input
  | issuerKey => exact run_decodeWith (refines_decodeKey _ _ _) _ _ input
  | issueRequest =>
    refine run_decodeWith ?_ _ _ input
    refine (refines_nibbles 0 _).call fun _ => (refines_bytes 0).call fun _ => ?_
    exact (Refines.lift _).call fun _ => (refines_finish 0).call fun _ => Refines.pure _
  | issueResponse =>
    refine run_decodeWith ?_ _ _ input
    refine (refines_nibbles 0 _).call fun _ => (refines_array 0 32).call fun _ => ?_
    exact (refines_finish 0).call fun _ => Refines.pure _
  | pendingIssue =>
    refine run_decodeWith ?_ _ _ input
    refine (refines_array 0 32).call fun _ => (refines_array 0 32).call fun _ => ?_
    refine (refines_array 0 32).call fun _ => (refines_array 0 32).call fun _ => ?_
    refine (refines_finish 0).call fun _ => Refines.ite (fun _ => Refines.throw _) fun _ => ?_
    exact Refines.result (Option.pmap_eq_some_iff.mpr ⟨_, _, credentialTarget_eq _ _ _ _, rfl⟩)
  | credential =>
    refine run_decodeWith ?_ _ _ input
    refine (refines_array 0 32).call fun _ => (refines_array 0 32).call fun _ => ?_
    refine (refines_nibbles 0 _).call fun _ => (refines_array 0 32).call fun _ => ?_
    refine (refines_array 0 32).call fun _ => (refines_array 0 32).call fun _ => ?_
    refine (refines_u32 0).call fun count => Refines.orThrow (fit_toNat count) ?_
    refine Refines.ite (fun _ => Refines.throw _) fun hcount => ?_
    refine Refines.mono (Nat.le_of_not_gt hcount) ((refines_readCounters count.toNat ∅ none).loop
      fun _ => ?_)
    refine (refines_finish 0).call fun _ => Refines.ite (fun _ => Refines.throw _) fun _ => ?_
    refine Refines.orPanic (verifyCredential_eq _ _) ?_
    exact (Refines.lift _).call fun _ => Refines.pure _
  | presentation =>
    refine run_decodeWith ?_ _ _ input
    refine (refines_array 0 32).call fun _ => (refines_bytes 0).call fun _ => ?_
    exact (Refines.lift _).call fun _ => (refines_finish 0).call fun _ => Refines.pure _

/-! ### Totality -/

/-- On every input, for every suite and pointer width, the seven decoders return what their models
return and never panic, and so does every primitive after any sequence of calls.  Reads move forward
inside the input, a successful call reads the encoding of its value, a decoder that finishes has
read every byte once, and the counter loop is bounded. -/
theorem decoders_total (p : PointerWidth) (key : PublicKey C) (input : Bytes) :
    (∀ artifact : Artifact, ∃ s,
      artifact.decode p key (Decoder.start input) = some (artifact.fromBytes key input, s) ∧
      Moves input.length 0 s.log s.offset ∧ s.offset ≤ input.length ∧
      (Event.finish ∈ s.log → ∀ i < input.length, s.log.countP (·.covers i) = 1) ∧
      s.log.count .iterate ≤ maxPresentationContexts) ∧
    ∀ artifact parameterSet : U8, ∃ opened s₀,
      Decoder.new p artifact parameterSet (Decoder.start input) = some (opened, s₀) ∧
      (opened = .ok () → ∀ replies s, Transition.Run (Machine.step p) s₀ replies s →
        Moves input.length 0 s.log s.offset ∧ s.offset ≤ input.length ∧
        (∀ call : Call, ∃ result s', call.run p s = some (result, s') ∧ s.offset ≤ s'.offset ∧
          s'.offset ≤ input.length ∧ ∀ value, result = .ok value → call.Valid value ∧
            input.drop s.offset = call.encode value ++ input.drop s'.offset ∧
            s'.offset = s.offset + (call.encode value).length) ∧
        ∃ result s', Machine.finish s = some (result, s') ∧
          (result = .ok () → ∀ i < input.length, s'.log.countP (·.covers i) = 1)) := by
  refine ⟨fun artifact => ?_, fun artifact parameterSet => ?_⟩
  · obtain ⟨s, hrun, hinput, events, hlog, hmoves, hcount⟩ := artifact.run_decode p key input
    obtain rfl : s.log = events := hlog
    have hle : s.offset ≤ input.length := hmoves.le_length (Nat.zero_le _)
    refine ⟨s, hrun, hmoves, hle, fun hfinish i hi => ?_, hcount⟩
    have hend : s.offset = input.length := hmoves.eq_length_of_finish hfinish (Nat.zero_le _)
    rw [hmoves.countP_covers i, if_pos ⟨Nat.zero_le i, hend ▸ hi⟩]
  · obtain ⟨opened, s₀, hnew, hopened⟩ := Decoder.new_total (p := p) artifact parameterSet input
    refine ⟨opened, s₀, hnew, fun hok replies s hreplies => ?_⟩
    obtain ⟨hs₀, hinput₀⟩ := hopened hok
    obtain ⟨hs, hinput⟩ := hs₀.run hreplies
    obtain rfl : s.input = input := hinput.trans hinput₀
    refine ⟨hs.moves, hs.le, fun call => ?_, ?_⟩
    · obtain ⟨result, s', hrun, hadvances, hvalue⟩ := hs.call (p := p) call
      have hs' := hs.advances hadvances
      have hle' : s'.offset ≤ s.input.length := by rw [← hadvances.1]; exact hs'.le
      obtain ⟨-, events, -, hmoves, -⟩ := hadvances
      refine ⟨result, s', hrun, hmoves.le, hle', fun value hok => ?_⟩
      obtain ⟨hvalid, hread⟩ := hvalue value hok
      refine ⟨hvalid, hread, ?_⟩
      have hlen := congrArg List.length hread
      have hle := hs.le
      rw [List.length_append, List.length_drop, List.length_drop] at hlen
      omega
    · obtain ⟨result, s', hrun, -, hfinish⟩ := hs.finish
      exact ⟨result, s', hrun, hfinish⟩

end VoleArc
