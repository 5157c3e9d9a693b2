import VoleArc.Circuit.Wires

/-!
# VoleArc.Circuit.Presentation — the presentation circuit and its witness

Whatever bits the assignment holds, they decode to a signature, two hidden byte strings, a salt,
a nonce, a carry word and three lists of Keccak states; `PresentationCircuit.build` asserts that
the states and carries are the ones the native generator computes, and the three conditions of the
relation (`emits_build`).
-/

namespace VoleArc

open BitField BitString Constraint Keccak

variable {P : ArcParams} {K : Type} [Field K] (F : BinaryFields K)

/-- The conditions on the secrets of a presentation: a MAYO preimage of the signed target, the
derived tag, and a nonce below the limit. -/
def PresentationCircuit.Relation (c : PresentationCircuit P) (secrets : PresentationSecrets) :
    Prop :=
  c.mayoSystem.eval F secrets.signature =
      signedCredentialTarget P (credentialTarget P c.credentialScope secrets.secret
        secrets.hidingNonce) secrets.salt ∧
    c.tag = deriveTag secrets.secret c.presentationScope secrets.presentationNonce ∧
    secrets.presentationNonce < c.presentationLimit

/-- The number of bits `build` allocates. -/
def presentationBits (P : ArcParams) : ℕ :=
  4 * P.KN + (secretBytes + hidingNonceBytes + saltBytes) * 8 + 2 * presentationNonceBits +
    3 * keccakCheckpointBits

/-- An assignment, part by part. -/
def presentationAssignment (secrets : PresentationSecrets) (carries : U32)
    (cs₁ cs₂ cs₃ : List State) : List Bool :=
  gf16Bits secrets.signature ++ (bytesBits secrets.secret.toList ++
    (bytesBits secrets.hidingNonce.toList ++ (bytesBits secrets.salt.toList ++
      (lsbBits secrets.presentationNonce ++ (lsbBits carries ++
        (statesBits cs₁ ++ (statesBits cs₂ ++ statesBits cs₃)))))))

@[simp] theorem length_statesBits (cs : List State) :
    (statesBits cs).length = 1600 * cs.length := by
  induction cs with
  | nil => rfl
  | cons c cs ih =>
    rw [statesBits, List.flatMap_cons, ← statesBits, List.length_append, ih, Vector.length_toList,
      List.length_cons]
    ring

theorem statesBits_injective : Function.Injective statesBits := by
  intro cs ds h
  induction cs generalizing ds with
  | nil =>
    have hlen := congrArg List.length h
    simp only [length_statesBits, List.length_nil] at hlen
    exact (List.length_eq_zero_iff.mp (by omega)).symm
  | cons c cs ih =>
    cases ds with
    | nil =>
      have hlen := congrArg List.length h
      simp only [length_statesBits, List.length_nil, List.length_cons] at hlen
      omega
    | cons d ds =>
      simp only [statesBits, List.flatMap_cons] at h
      obtain ⟨h₁, h₂⟩ := List.append_inj h (by simp)
      rw [stateBits_injective (Vector.toList_inj.mp h₁), ih h₂]

/-- The generated witness, part by part. -/
theorem PresentationCircuit.witness_eq (c : PresentationCircuit P) (secrets : PresentationSecrets) :
    c.witness secrets = presentationAssignment secrets
      (lessThanCarries secrets.presentationNonce c.presentationLimit)
      (checkpoints (credentialMessage c.credentialScope secrets.secret secrets.hidingNonce))
      (checkpoints (signedCredentialMessage (credentialTarget P c.credentialScope secrets.secret
        secrets.hidingNonce) secrets.salt))
      (checkpoints (tagMessage secrets.secret c.presentationScope secrets.presentationNonce)) := by
  simp only [PresentationCircuit.witness, appendKeccakCheckpoints_eq, appendLessThanCarries_eq,
    appendU32Bits, appendBytesBits, appendGf16Bits, List.nil_append, List.append_assoc]
  rfl

theorem presentationBits_eq (P : ArcParams) : presentationBits P = 4 * P.KN + 29632 := by
  unfold presentationBits secretBytes hidingNonceBytes saltBytes presentationNonceBits
    keccakCheckpointBits
  omega

/-- Cut `n` bits off the front. -/
theorem exists_split {bits : List Bool} {n m : ℕ} (h : bits.length = n + m) :
    ∃ front rest, front.length = n ∧ rest.length = m ∧ front ++ rest = bits :=
  ⟨bits.take n, bits.drop n, List.length_take_of_le (by omega), by rw [List.length_drop]; omega,
    List.take_append_drop n bits⟩

/-- Every assignment of the right length has this form. -/
theorem exists_presentationAssignment {bits : List Bool} (h : bits.length = presentationBits P) :
    ∃ secrets carries cs₁ cs₂ cs₃, secrets.signature.length = P.KN ∧ cs₁.length = 6 ∧
      cs₂.length = 6 ∧ cs₃.length = 6 ∧
      presentationAssignment secrets carries cs₁ cs₂ cs₃ = bits := by
  rw [presentationBits_eq] at h
  obtain ⟨b₁, r₁, hb₁, hr₁, rfl⟩ := exists_split (n := 4 * P.KN) (m := 29632) h
  obtain ⟨b₂, r₂, hb₂, hr₂, rfl⟩ := exists_split (n := 256) (m := 29376) hr₁
  obtain ⟨b₃, r₃, hb₃, hr₃, rfl⟩ := exists_split (n := 256) (m := 29120) hr₂
  obtain ⟨b₄, r₄, hb₄, hr₄, rfl⟩ := exists_split (n := 256) (m := 28864) hr₃
  obtain ⟨b₅, r₅, hb₅, hr₅, rfl⟩ := exists_split (n := 32) (m := 28832) hr₄
  obtain ⟨b₆, r₆, hb₆, hr₆, rfl⟩ := exists_split (n := 32) (m := 28800) hr₅
  obtain ⟨b₇, r₇, hb₇, hr₇, rfl⟩ := exists_split (n := 1600 * 6) (m := 19200) hr₆
  obtain ⟨b₈, b₉, hb₈, hb₉, rfl⟩ := exists_split (n := 1600 * 6) (m := 1600 * 6) hr₇
  obtain ⟨signature, hsig, rfl⟩ := exists_gf16Bits hb₁
  obtain ⟨secret, rfl⟩ := exists_bytes32 hb₂
  obtain ⟨hidingNonce, rfl⟩ := exists_bytes32 hb₃
  obtain ⟨salt, rfl⟩ := exists_bytes32 hb₄
  obtain ⟨nonce, rfl⟩ := exists_lsbBits hb₅
  obtain ⟨carries, rfl⟩ := exists_lsbBits hb₆
  obtain ⟨cs₁, h₁, rfl⟩ := exists_flatMap_stateBits hb₇
  obtain ⟨cs₂, h₂, rfl⟩ := exists_flatMap_stateBits hb₈
  obtain ⟨cs₃, h₃, rfl⟩ := exists_flatMap_stateBits hb₉
  exact ⟨⟨signature, secret, hidingNonce, salt, nonce⟩, carries, cs₁, cs₂, cs₃,
    hsig, h₁, h₂, h₃, rfl⟩

theorem bytes32_eq_of_bits {a b : Bytes32} (h : bytesBits a.toList = bytesBits b.toList) : a = b :=
  Vector.toList_inj.mp (bytesBits_injective h)

theorem presentationAssignment_inj {secrets secrets' : PresentationSecrets}
    (hsig : secrets.signature.length = secrets'.signature.length) {carries carries' : U32}
    {cs₁ cs₂ cs₃ cs₁' cs₂' cs₃' : List State} (h₁ : cs₁.length = cs₁'.length)
    (h₂ : cs₂.length = cs₂'.length)
    (h : presentationAssignment secrets carries cs₁ cs₂ cs₃ =
      presentationAssignment secrets' carries' cs₁' cs₂' cs₃') :
    secrets = secrets' ∧ carries = carries' ∧ cs₁ = cs₁' ∧ cs₂ = cs₂' ∧ cs₃ = cs₃' := by
  obtain ⟨hsignature, h⟩ := List.append_inj h (by simp [hsig])
  obtain ⟨hsecret, h⟩ := List.append_inj h (by simp)
  obtain ⟨hhiding, h⟩ := List.append_inj h (by simp)
  obtain ⟨hsalt, h⟩ := List.append_inj h (by simp)
  obtain ⟨hnonce, h⟩ := List.append_inj h (by simp)
  obtain ⟨hcarries, h⟩ := List.append_inj h (by simp)
  obtain ⟨hcs₁, h⟩ := List.append_inj h (by simp [h₁])
  obtain ⟨hcs₂, hcs₃⟩ := List.append_inj h (by simp [h₂])
  cases secrets
  cases secrets'
  simp only [PresentationSecrets.mk.injEq]
  exact ⟨⟨gf16Bits_injective hsignature, bytes32_eq_of_bits hsecret, bytes32_eq_of_bits hhiding,
    bytes32_eq_of_bits hsalt, lsbBits_injective hnonce⟩, lsbBits_injective hcarries,
    statesBits_injective hcs₁, statesBits_injective hcs₂, statesBits_injective hcs₃⟩

/-! ### What `build` asserts -/

variable [CharP K 2]

/-- The tag is asserted through the bits of the last committed state. -/
theorem tag_eq_iff (tag secret scope : Bytes32) (nonce : U32) :
    (stateBits (finalState (tagMessage secret scope nonce))).toList.take 256 =
      bytesBits tag.toList ↔
      tag = deriveTag secret scope nonce := by
  rw [← bytesBits_deriveTag, bytesBits_injective.eq_iff, Vector.toList_inj]
  exact eq_comm

/-- The relation and the committed values, before the commitment is substituted. -/
theorem emits_build_raw (c : PresentationCircuit P) (hlimit : c.presentationLimit ≠ 0)
    {secrets : PresentationSecrets} (hsig : secrets.signature.length = P.KN) (carries : U32)
    {cs₁ cs₂ cs₃ : List State} (h₁ : cs₁.length = 6) (h₂ : cs₂.length = 6)
    (h₃ : cs₃.length = 6) :
    let message₁ := credentialMessage c.credentialScope secrets.secret secrets.hidingNonce
    let commitment := stateNibbles P.M (lastState (absorbed message₁) cs₁)
    let message₂ := signedCredentialMessage commitment secrets.salt
    let message₃ := tagMessage secrets.secret c.presentationScope secrets.presentationNonce
    Emits (c.build F (evalBackend F)) (presentationAssignment secrets carries cs₁ cs₂ cs₃) ()
      ((carries = lessThanCarries secrets.presentationNonce c.presentationLimit ∧
          secrets.presentationNonce < c.presentationLimit) ∧
        cs₁ = checkpoints message₁ ∧ cs₂ = checkpoints message₂ ∧
        c.mayoSystem.eval F secrets.signature =
          stateNibbles P.M (lastState (absorbed message₂) cs₂) ∧
        cs₃ = checkpoints message₃ ∧
        (stateBits (lastState (absorbed message₃) cs₃)).toList.take 256 =
          bytesBits c.tag.toList) := by
  intro message₁ commitment message₂ message₃
  have hm₁ : message₁.length < rateBytes := credentialMessage_lt _ _ _
  have hm₂ : message₂.length < rateBytes := signedCredentialMessage_lt P (by simp [commitment]) _
  have hm₃ : message₃.length < rateBytes := tagMessage_lt _ _ _
  have hM : P.M ≤ 400 := by have := P.fits; omega
  have hguard : ¬ (c.presentationLimit = 0 ∨
      signedCredentialDomain.length + (P.M + 1) / 2 + saltBytes ≥ rateBytes) := by
    have hdom : signedCredentialDomain.length = 18 := rfl
    have := P.fits
    rw [hdom, saltBytes, rateBytes]
    rintro (h | h)
    · exact hlimit h
    · omega
  -- the tag
  have htag := emits_shakeAssertOutput F hm₃ h₃
    (show (bytesBits c.tag.toList).length ≤ 1600 by simp)
  -- the signed target and the MAYO equations
  have htarget := emits_shakeHiddenOutput F hm₂ h₂ (4 * P.M)
  have hcommit := emits_shakeHiddenOutput F hm₁ h₁ (4 * P.M)
  rw [← gf16Bits_stateNibbles hM] at htarget hcommit
  have hrange := emits_assertU32LessThan F secrets.presentationNonce carries c.presentationLimit
  have hsecret : (bytesBits secrets.secret.toList).length = secretBytes * 8 := by simp [secretBytes]
  have hhiding : (bytesBits secrets.hidingNonce.toList).length = hidingNonceBytes * 8 := by
    simp [hidingNonceBytes]
  have hsalt : (bytesBits secrets.salt.toList).length = saltBytes * 8 := by simp [saltBytes]
  unfold PresentationCircuit.build presentationAssignment
  rw [if_neg hguard]
  refine (emits_alloc F (by simp [hsig])).bind_alloc ?_
  refine (emits_alloc F hsecret).bind_alloc ?_
  refine (emits_alloc F hhiding).bind_alloc ?_
  refine (emits_alloc F hsalt).bind_alloc ?_
  refine (emits_allocWord F secrets.presentationNonce).bind_alloc ?_
  refine (emits_allocWord F carries).bind_alloc ?_
  simp only [toList_map_bitVector, toList_wordWires, credentialWires_eq, tagWires_eq,
    constantBytes_eq]
  refine hrange.bind_assert ?_
  refine hcommit.bind ?_
  simp only [signedCredentialWires_eq]
  refine htarget.bind ?_
  simp only [liftNibbles_eq]
  refine Emits.bind_assert ((emits_assertQuadFormSystem F _ _ _).congr (lifted_eq_iff F _ _ _)) ?_
  have htagBits : (bytesBits c.tag.toList).length = 256 := by simp
  rw [htagBits] at htag
  exact htag

/-- `build` asserts the relation, and that the assignment is the generated witness. -/
theorem emits_build (c : PresentationCircuit P) (hlimit : c.presentationLimit ≠ 0)
    {secrets : PresentationSecrets} (hsig : secrets.signature.length = P.KN) (carries : U32)
    {cs₁ cs₂ cs₃ : List State} (h₁ : cs₁.length = 6) (h₂ : cs₂.length = 6)
    (h₃ : cs₃.length = 6) :
    Emits (c.build F (evalBackend F)) (presentationAssignment secrets carries cs₁ cs₂ cs₃) ()
      (c.Relation F secrets ∧
        presentationAssignment secrets carries cs₁ cs₂ cs₃ = c.witness secrets) := by
  refine (emits_build_raw F c hlimit hsig carries h₁ h₂ h₃).congr ?_
  have hm₁ := credentialMessage_lt c.credentialScope secrets.secret secrets.hidingNonce
  have hM : (P.M + 1) / 2 < rateBytes := by have := P.fits; rw [rateBytes]; omega
  have hcommit : credentialTarget P c.credentialScope secrets.secret secrets.hidingNonce =
      stateNibbles P.M (finalState (credentialMessage c.credentialScope secrets.secret
        secrets.hidingNonce)) := targetNibbles_eq hm₁ hM
  have hm₂ : (signedCredentialMessage (credentialTarget P c.credentialScope secrets.secret
      secrets.hidingNonce) secrets.salt).length < rateBytes :=
    signedCredentialMessage_lt P (by simp [hcommit]) secrets.salt
  have hsigned : signedCredentialTarget P (credentialTarget P c.credentialScope secrets.secret
      secrets.hidingNonce) secrets.salt = stateNibbles P.M (finalState (signedCredentialMessage
        (credentialTarget P c.credentialScope secrets.secret secrets.hidingNonce) secrets.salt)) :=
    targetNibbles_eq hm₂ hM
  rw [c.witness_eq, PresentationCircuit.Relation, hsigned, ← tag_eq_iff]
  constructor
  · rintro ⟨⟨rfl, hlt⟩, rfl, rfl, hmayo, rfl, htag⟩
    rw [lastState_checkpoints] at hmayo htag
    rw [lastState_checkpoints, ← hcommit] at hmayo ⊢
    exact ⟨⟨hmayo, htag, hlt⟩, rfl⟩
  · rintro ⟨⟨hmayo, htag, hlt⟩, hassign⟩
    obtain ⟨-, rfl, rfl, rfl, rfl⟩ := presentationAssignment_inj rfl (by simp [h₁]) (by simp [h₂])
      hassign
    rw [lastState_checkpoints, lastState_checkpoints, ← hcommit, lastState_checkpoints]
    exact ⟨⟨rfl, hlt⟩, rfl, rfl, hmayo, rfl, htag⟩

end VoleArc
