import VoleArc.HashInput

/-!
# VoleArc.Statements — a proof's statement names one request

The Fiat-Shamir statements of issuance and presentation start with different domains, and behind the
domain every field can be read back: a statement determines the suite name, the contexts and the
commitment, or the whole challenge and the tag, and is never a proper prefix of another one.
-/

namespace VoleArc

open PrefixCode

/-! ### Fields of a statement -/

theorem issueStatement_eq (P : ArcParams) (issuerContext credentialContext : Bytes32)
    (commitment : List GF16) :
    issueStatement P issuerContext credentialContext commitment =
      issueStatementDomain ++ ((lenBytes P.NAME ++ P.NAME) ++ (issuerContext.toList ++
        (credentialContext.toList ++ (u64ToLeBytes (BitVec.ofNat 64 commitment.length) ++
          commitment.map GF16.toU8)))) := by
  unfold issueStatement encodeTarget encodeBytes
  simp only [List.append_assoc]

theorem presentationStatement_eq (P : ArcParams) (issuerContext : Bytes32)
    (challenge : PresentationChallenge) (tag : Bytes32) :
    presentationStatement P issuerContext challenge tag =
      presentationStatementDomain ++ ((lenBytes P.NAME ++ P.NAME) ++ (issuerContext.toList ++
        (challenge.credentialContext.digest.toList ++
          (challenge.presentationContext.digest.toList ++ (u32ToLeBytes challenge.limit ++
            (challenge.binding.digest.toList ++ tag.toList)))))) := by
  unfold presentationStatement encodeBytes
  simp only [List.append_assoc]

theorem separable_u32 : Separable (fun _ => True) u32ToLeBytes :=
  separable_of_length (fun _ _ => length_u32ToLeBytes _)
    fun _ _ _ _ h => toLeBytes_injective 4 h

theorem separable_target :
    Separable (fun target : List GF16 => target.length < 2 ^ 64) fun target =>
      u64ToLeBytes (BitVec.ofNat 64 target.length) ++ target.map GF16.toU8 := by
  intro target target' s s' h h' heq
  have hwhole : u64ToLeBytes (BitVec.ofNat 64 target.length) ++ (target.map GF16.toU8 ++ s) =
      u64ToLeBytes (BitVec.ofNat 64 target'.length) ++ (target'.map GF16.toU8 ++ s') := by
    simpa only [List.append_assoc] using heq
  obtain ⟨hlen, hrest⟩ := separable_length h h' hwhole
  obtain ⟨hbytes, hs⟩ := List.append_inj hrest (by rw [List.length_map, List.length_map, hlen])
  exact ⟨List.map_injective_iff.mpr GF16.toU8_injective hbytes, hs⟩

/-! ### Statements -/

/-- The bytes of an issue statement, or of one that it starts, determine its fields. -/
theorem issueStatement_inj {P P' : ArcParams} {issuer issuer' credential credential' : Bytes32}
    {commitment commitment' : List GF16} (hname : P.NAME.length < 2 ^ 64)
    (hname' : P'.NAME.length < 2 ^ 64) (hlen : commitment.length < 2 ^ 64)
    (hlen' : commitment'.length < 2 ^ 64)
    (h : issueStatement P issuer credential commitment <+:
      issueStatement P' issuer' credential' commitment') :
    P.NAME = P'.NAME ∧ issuer = issuer' ∧ credential = credential' ∧
      commitment = commitment' := by
  obtain ⟨s, hs⟩ := h
  rw [issueStatement_eq, issueStatement_eq] at hs
  simp only [List.append_assoc] at hs
  have hdomain := List.append_cancel_left hs
  rw [← List.append_assoc, ← List.append_assoc (lenBytes P'.NAME)] at hdomain
  obtain ⟨heqName, hafterName⟩ := separable_frame hname hname' hdomain
  obtain ⟨heqIssuer, hafterIssuer⟩ := separable_bytes32 trivial trivial hafterName
  obtain ⟨heqCredential, htarget⟩ := separable_bytes32 trivial trivial hafterIssuer
  rw [← List.append_assoc, ← List.append_nil (_ ++ commitment'.map _)] at htarget
  obtain ⟨heqCommitment, -⟩ := separable_target hlen hlen' htarget
  exact ⟨heqName, heqIssuer, heqCredential, heqCommitment⟩

/-- The bytes of a presentation statement, or of one that it starts, determine its fields. -/
theorem presentationStatement_inj {P P' : ArcParams} {issuer issuer' tag tag' : Bytes32}
    {challenge challenge' : PresentationChallenge} (hname : P.NAME.length < 2 ^ 64)
    (hname' : P'.NAME.length < 2 ^ 64)
    (h : presentationStatement P issuer challenge tag <+:
      presentationStatement P' issuer' challenge' tag') :
    P.NAME = P'.NAME ∧ issuer = issuer' ∧ challenge = challenge' ∧ tag = tag' := by
  obtain ⟨s, hs⟩ := h
  rw [presentationStatement_eq, presentationStatement_eq] at hs
  simp only [List.append_assoc] at hs
  have hdomain := List.append_cancel_left hs
  rw [← List.append_assoc, ← List.append_assoc (lenBytes P'.NAME)] at hdomain
  obtain ⟨heqName, hafterName⟩ := separable_frame hname hname' hdomain
  obtain ⟨heqIssuer, hafterIssuer⟩ := separable_bytes32 trivial trivial hafterName
  obtain ⟨heqCredential, hafterCredential⟩ := separable_bytes32 trivial trivial hafterIssuer
  obtain ⟨heqPresentation, hafterPresentation⟩ :=
    separable_bytes32 trivial trivial hafterCredential
  obtain ⟨heqLimit, hafterLimit⟩ := separable_u32 trivial trivial hafterPresentation
  obtain ⟨heqBinding, hafterBinding⟩ := separable_bytes32 trivial trivial hafterLimit
  rw [← List.append_nil tag'.toList] at hafterBinding
  obtain ⟨heqTag, -⟩ := separable_bytes32 trivial trivial hafterBinding
  refine ⟨heqName, heqIssuer, ?_, heqTag⟩
  obtain ⟨⟨_⟩, ⟨_⟩, ⟨_⟩, _⟩ := challenge
  obtain ⟨⟨_⟩, ⟨_⟩, ⟨_⟩, _⟩ := challenge'
  subst heqCredential heqPresentation heqLimit heqBinding
  rfl

/-- The two kinds of statement differ within their domains. -/
theorem issueStatement_ne_presentationStatement (P P' : ArcParams)
    (issuer issuer' credential tag : Bytes32) (commitment : List GF16)
    (challenge : PresentationChallenge) :
    issueStatement P issuer credential commitment ≠
      presentationStatement P' issuer' challenge tag := by
  intro h
  rw [issueStatement_eq, presentationStatement_eq] at h
  have hdomains : ∀ s s' : Bytes,
      issueStatementDomain ++ s ≠ presentationStatementDomain ++ s' := by
    intro s s' h
    have hbyte : (issueStatementDomain ++ s)[9]? = (presentationStatementDomain ++ s')[9]? := by
      rw [h]
    rw [List.getElem?_append_left (by decide), List.getElem?_append_left (by decide)] at hbyte
    exact absurd hbyte (by decide)
  exact hdomains _ _ h

/-- Statements bind every public field.  What an issue or a presentation statement starts has the
same fields, so equal statements do and none is a proper prefix of another; and the two kinds never
meet. -/
theorem statements_bind (P P' : ArcParams) (hname : P.NAME.length < 2 ^ 64)
    (hname' : P'.NAME.length < 2 ^ 64) (issuer issuer' : Bytes32) :
    (∀ (credential credential' : Bytes32) (commitment commitment' : List GF16),
      commitment.length < 2 ^ 64 → commitment'.length < 2 ^ 64 →
      (issueStatement P issuer credential commitment <+:
          issueStatement P' issuer' credential' commitment' ↔
        P.NAME = P'.NAME ∧ issuer = issuer' ∧ credential = credential' ∧
          commitment = commitment')) ∧
    (∀ (challenge challenge' : PresentationChallenge) (tag tag' : Bytes32),
      presentationStatement P issuer challenge tag <+:
          presentationStatement P' issuer' challenge' tag' ↔
        P.NAME = P'.NAME ∧ issuer = issuer' ∧ challenge = challenge' ∧ tag = tag') ∧
    (∀ (credential tag : Bytes32) (commitment : List GF16) (challenge : PresentationChallenge),
      issueStatement P issuer credential commitment ≠
        presentationStatement P' issuer' challenge tag) := by
  refine ⟨?_, ?_, ?_⟩
  · intro credential credential' commitment commitment' hlen hlen'
    refine ⟨issueStatement_inj hname hname' hlen hlen', ?_⟩
    rintro ⟨heqName, rfl, rfl, rfl⟩
    rw [issueStatement_eq, issueStatement_eq, heqName]
  · intro challenge challenge' tag tag'
    refine ⟨presentationStatement_inj hname hname', ?_⟩
    rintro ⟨heqName, rfl, rfl, rfl⟩
    rw [presentationStatement_eq, presentationStatement_eq, heqName]
  · intro credential tag commitment challenge
    exact issueStatement_ne_presentationStatement P P' issuer issuer' credential tag commitment
      challenge

/-- Proofs for the two suites, or for two commitments, are about different statements. -/
theorem statements_bind_suites :
    ¬ issueStatement mayo1 (Vector.replicate 32 0) (Vector.replicate 32 0) [] <+:
        issueStatement mayo2 (Vector.replicate 32 0) (Vector.replicate 32 0) [] ∧
    issueStatement mayo2 (Vector.replicate 32 0) (Vector.replicate 32 0) [⟨1⟩] ≠
        issueStatement mayo2 (Vector.replicate 32 0) (Vector.replicate 32 0) [⟨2⟩] := by
  have hname : mayo1.NAME.length < 2 ^ 64 := by decide
  have hname' : mayo2.NAME.length < 2 ^ 64 := by decide
  refine ⟨fun h => ?_, fun h => ?_⟩
  · obtain ⟨hissue, -, -⟩ := statements_bind mayo1 mayo2 hname hname' (Vector.replicate 32 0)
      (Vector.replicate 32 0)
    exact absurd ((hissue _ _ _ _ (by decide) (by decide)).mp h).1 (by decide)
  · obtain ⟨hissue, -, -⟩ := statements_bind mayo2 mayo2 hname' hname' (Vector.replicate 32 0)
      (Vector.replicate 32 0)
    have hfields := (hissue (Vector.replicate 32 0) (Vector.replicate 32 0) [⟨1⟩] [⟨2⟩] (by decide)
      (by decide)).mp ⟨[], by rw [List.append_nil, h]⟩
    exact absurd hfields.2.2.2 (by decide)

end VoleArc
