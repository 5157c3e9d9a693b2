import VoleArc.Protocol.CredentialWire
import VoleArc.Protocol.Issuance
import VoleArc.Protocol.Presenting
import VoleArc.Reference

/-!
# VoleArc.Protocol.WireFormats — the wire formats as canonical, disjoint codecs
-/

namespace VoleArc

open Wire

/-- An encoder (`none` where the source panics) with its decoder. -/
structure Format (V : Type) where
  encode : V → Option Bytes
  decode : Bytes → Except WireError V

/-- What is decoded re-encodes to itself, and what can be reached decodes from its encoding. -/
structure Format.Canonical {V : Type} (F : Format V) (Reachable : V → Prop) : Prop where
  encode_decode : ∀ b v, F.decode b = .ok v → F.encode v = some b
  decode_encode : ∀ v b, Reachable v → F.encode v = some b → b.length ≤ maxWireBytes →
    F.decode b = .ok v

/-- A decoder that accepts exactly the encodings with a property of all reachable values. -/
theorem Format.Canonical.of_iff {V : Type} {F : Format V} {Reachable Q : V → Prop}
    (h : ∀ b v, F.decode b = .ok v ↔ b.length ≤ maxWireBytes ∧ F.encode v = some b ∧ Q v)
    (hQ : ∀ v, Reachable v → Q v) : F.Canonical Reachable where
  encode_decode b v hv := ((h b v).mp hv).2.1
  decode_encode v b hv hb hlen := (h b v).mpr ⟨hlen, hb, hQ v hv⟩

variable {P : ArcParams} {K : Type} [Field K] (C : Crates P K)

def publicKeyFormat : Format (PublicKey C) := ⟨PublicKey.toBytes, PublicKey.fromBytes⟩
def issuerKeyFormat : Format (Issuer C) := ⟨Issuer.keyBytes, Issuer.fromKeyBytes⟩
def issueRequestFormat : Format (IssueRequest C) := ⟨IssueRequest.toBytes, IssueRequest.fromBytes⟩
def issueResponseFormat : Format (IssueResponse C) :=
  ⟨fun v => some v.toBytes, IssueResponse.fromBytes⟩
def pendingIssueFormat {C : Crates P K} (publicKey : PublicKey C) : Format (PendingIssue C) :=
  ⟨fun v => some v.toBytes, PendingIssue.fromBytes publicKey⟩
def presentationFormat : Format (Presentation C) := ⟨Presentation.toBytes, Presentation.fromBytes⟩
def credentialFormat {C : Crates P K} (publicKey : PublicKey C) : Format (Credential C) :=
  ⟨fun v => some v.toBytes, Credential.fromBytes publicKey⟩

section Canonical

variable {C}

theorem publicKeyFormat_canonical (hkeys : C.mayo.CanonicalKeys) :
    (publicKeyFormat C).Canonical fun _ => True :=
  .of_iff (Q := fun _ => True) (fun b v => by
    rw [and_true]
    exact PublicKey.fromBytes_eq_ok hkeys) fun _ _ => trivial

theorem issuerKeyFormat_canonical (hkeys : C.mayo.CanonicalKeys)
    (htrapgen : C.mayo.TrapgenCorrect) :
    (issuerKeyFormat C).Canonical Issuer.Reachable :=
  .of_iff (fun _ _ => Issuer.fromKeyBytes_eq_ok hkeys) fun _ h => h.matches hkeys htrapgen

theorem issueRequestFormat_canonical (hproofs : C.voleith.CanonicalProofs) :
    (issueRequestFormat C).Canonical IssueRequest.Reachable :=
  .of_iff (fun _ _ => IssueRequest.fromBytes_eq_ok hproofs) fun _ h => h.length_commitment hproofs

theorem issueResponseFormat_canonical (hspre : C.mayo.SpreLength P) :
    (issueResponseFormat C).Canonical IssueResponse.Reachable :=
  .of_iff (fun b v => by
    rw [show (issueResponseFormat C).encode v = some b ↔ v.toBytes = b from Option.some_inj]
    exact IssueResponse.fromBytes_eq_ok) fun _ h => h.length_signature hspre

theorem pendingIssueFormat_canonical (publicKey : PublicKey C) :
    (pendingIssueFormat publicKey).Canonical (PendingIssue.Reachable publicKey) :=
  .of_iff (fun b v => by
    rw [show (pendingIssueFormat publicKey).encode v = some b ↔ v.toBytes = b from Option.some_inj]
    exact PendingIssue.fromBytes_eq_ok) fun _ h => h.issuerContext_eq

theorem presentationFormat_canonical (hproofs : C.voleith.CanonicalProofs) :
    (presentationFormat C).Canonical fun _ => True :=
  .of_iff (Q := fun _ => True) (fun b v => by
    rw [and_true]
    exact Presentation.fromBytes_eq_ok hproofs) fun _ _ => trivial

theorem credentialFormat_canonical (publicKey : PublicKey C) :
    (credentialFormat publicKey).Canonical (Credential.Valid publicKey) where
  encode_decode b v h := congrArg some (Credential.fromBytes_eq_ok_iff.mp h).1
  decode_encode v b hv hb _ := by
    obtain rfl := Option.some.inj hb
    exact hv.fromBytes_toBytes

end Canonical

/-! ### Disjointness -/

/-- The seven artifacts. -/
inductive Artifact where
  | publicKey
  | issuerKey
  | issueRequest
  | issueResponse
  | pendingIssue
  | credential
  | presentation
  deriving DecidableEq

def Artifact.wireId : Artifact → U8
  | publicKey => WIRE_PUBLIC_KEY
  | issuerKey => WIRE_ISSUER_KEY
  | issueRequest => WIRE_ISSUE_REQUEST
  | issueResponse => WIRE_ISSUE_RESPONSE
  | pendingIssue => WIRE_PENDING_ISSUE
  | credential => WIRE_CREDENTIAL
  | presentation => WIRE_PRESENTATION

theorem Artifact.wireId_injective : Function.Injective Artifact.wireId := by
  intro a b h
  revert h
  cases a <;> cases b <;> decide

/-- The artifact's decoder accepts the bytes, under some key where it takes one. -/
def Artifact.Accepts (b : Bytes) : Artifact → Prop
  | publicKey => ∃ v, (publicKeyFormat C).decode b = .ok v
  | issuerKey => ∃ v, (issuerKeyFormat C).decode b = .ok v
  | issueRequest => ∃ v, (issueRequestFormat C).decode b = .ok v
  | issueResponse => ∃ v, (issueResponseFormat C).decode b = .ok v
  | pendingIssue => ∃ key : PublicKey C, ∃ v, (pendingIssueFormat key).decode b = .ok v
  | credential => ∃ key : PublicKey C, ∃ v, (credentialFormat key).decode b = .ok v
  | presentation => ∃ v, (presentationFormat C).decode b = .ok v

/-- What is accepted carries the artifact's and the suite's ids. -/
theorem Artifact.Accepts.header {b : Bytes} {artifact : Artifact} (h : artifact.Accepts C b) :
    ∃ rest, b = header [] artifact.wireId P.WIRE_ID ++ rest := by
  cases artifact with
  | publicKey => obtain ⟨v, h⟩ := h; exact header_of_decodeWith h
  | issuerKey => obtain ⟨v, h⟩ := h; exact header_of_decodeWith h
  | issueRequest => obtain ⟨v, h⟩ := h; exact header_of_decodeWith h
  | issueResponse => obtain ⟨v, h⟩ := h; exact header_of_decodeWith h
  | pendingIssue => obtain ⟨key, v, h⟩ := h; exact header_of_decodeWith h
  | credential => obtain ⟨key, v, h⟩ := h; exact header_of_decodeWith h
  | presentation => obtain ⟨v, h⟩ := h; exact header_of_decodeWith h

/-- No string is accepted for two artifacts, or for two suites with different ids. -/
theorem Artifact.Accepts.unique {P' : ArcParams} {K' : Type} [Field K'] {C' : Crates P' K'}
    {b : Bytes} {artifact artifact' : Artifact} (h : artifact.Accepts C b)
    (h' : artifact'.Accepts C' b) : artifact = artifact' ∧ P.WIRE_ID = P'.WIRE_ID := by
  obtain ⟨rest, rfl⟩ := h.header
  obtain ⟨rest', hb⟩ := h'.header
  obtain ⟨hartifact, hsuite⟩ := header_inj hb
  exact ⟨Artifact.wireId_injective hartifact, hsuite⟩

/-- The six formats besides the credential's are canonical codecs of the reachable values,
recomputed fields included, and no string is accepted for two pairs of artifact and suite. -/
theorem wireFormats_canonical {C : Crates P K} {P' : ArcParams} {K' : Type} [Field K']
    {C' : Crates P' K'} (hkeys : C.mayo.CanonicalKeys) (htrapgen : C.mayo.TrapgenCorrect)
    (hproofs : C.voleith.CanonicalProofs) (hspre : C.mayo.SpreLength P)
    (hsuites : P.WIRE_ID = P'.WIRE_ID → P = P') :
    (publicKeyFormat C).Canonical (fun _ => True) ∧
    (issuerKeyFormat C).Canonical Issuer.Reachable ∧
    (issueRequestFormat C).Canonical IssueRequest.Reachable ∧
    (issueResponseFormat C).Canonical IssueResponse.Reachable ∧
    (∀ publicKey : PublicKey C,
      (pendingIssueFormat publicKey).Canonical (PendingIssue.Reachable publicKey)) ∧
    (presentationFormat C).Canonical (fun _ => True) ∧
    ∀ b (artifact artifact' : Artifact), artifact.Accepts C b → artifact'.Accepts C' b →
      artifact = artifact' ∧ P = P' := by
  refine ⟨publicKeyFormat_canonical hkeys, issuerKeyFormat_canonical hkeys htrapgen,
    issueRequestFormat_canonical hproofs, issueResponseFormat_canonical hspre,
    pendingIssueFormat_canonical, presentationFormat_canonical hproofs, ?_⟩
  intro b artifact artifact' h h'
  obtain ⟨hartifact, hsuite⟩ := h.unique C h'
  exact ⟨hartifact, hsuites hsuite⟩

/-- The reference codecs are canonical, and nothing they accept is accepted in the other suite. -/
theorem wireFormats_canonical_reference :
    (publicKeyFormat Reference.crates).Canonical (fun _ => True) ∧
    (issuerKeyFormat Reference.crates).Canonical Issuer.Reachable ∧
    (∀ publicKey : PublicKey Reference.crates,
      (pendingIssueFormat publicKey).Canonical (PendingIssue.Reachable publicKey)) ∧
    ∀ b (artifact artifact' : Artifact), artifact.Accepts Reference.crates b →
      ¬ artifact'.Accepts Reference.otherCrates b := by
  have hids : mayo2.WIRE_ID ≠ mayo1.WIRE_ID := by decide
  obtain ⟨hpublic, hissuer, -, -, hpending, -, hdisjoint⟩ := @wireFormats_canonical _ _ _
    Reference.crates _ _ _ Reference.otherCrates Reference.canonicalKeys Reference.trapgenCorrect
    Reference.canonicalProofs Reference.spreLength fun h => absurd h hids
  refine ⟨hpublic, hissuer, hpending, fun b artifact artifact' h h' => hids ?_⟩
  rw [(hdisjoint b artifact artifact' h h').2]

end VoleArc
