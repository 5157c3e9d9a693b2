import VoleArc.Circuit.Presentation
import VoleArc.GF2p128

/-!
# VoleArc.Circuit.Correctness — soundness and completeness of the presentation circuit

Both are stated for any backend field with an embedded copy of GF(16) and for every public input.
-/

namespace VoleArc

open BitField BitString Constraint Keccak

/-! ### A system with a known solution -/

/-- The system whose equations are `t e * x 0 * x 0`. -/
def singleForm (dimension : ℕ) (t : List GF16) : MayoFormSystem where
  forms :=
    { dimension := dimension
      numEquations := t.length
      coeff := fun e i j => if i = 0 ∧ j = 0 then t.getD e 0 else 0 }

section SingleForm

variable {K : Type} [Field K] (F : BinaryFields K)

theorem BinaryFields.zero_mul (a : GF16) : F.mul 0 a = 0 := by
  apply F.injective
  rw [F.embed_mul, map_zero, MulZeroClass.zero_mul]

/-- Any vector that starts with the unit solves it for `t`. -/
theorem eval_singleForm {one : GF16} (hone : ∀ a, F.mul a one = a) {dimension : ℕ}
    (hdim : 0 < dimension) (t rest : List GF16) :
    (singleForm dimension t).eval F (one :: rest) = t := by
  have hsum : ∀ e, (∑ i ∈ Finset.range dimension, ∑ j ∈ Finset.range dimension,
      F.mul (F.mul (if i = 0 ∧ j = 0 then t.getD e 0 else 0) ((one :: rest).getD i 0))
        ((one :: rest).getD j 0)) = t.getD e 0 := by
    intro e
    have hmem : 0 ∈ Finset.range dimension := Finset.mem_range.mpr hdim
    rw [Finset.sum_eq_single_of_mem 0 hmem, Finset.sum_eq_single_of_mem 0 hmem]
    · simp [hone]
    · intro j _ hj
      simp [hj, F.zero_mul]
    · intro i _ hi
      simp [hi, F.zero_mul]
  simp only [MayoFormSystem.eval, QuadFormSystem.valuesWith, singleForm, id, hsum]
  refine List.ext_getElem (by simp) fun i h₁ h₂ => ?_
  simp [List.getElem?_eq_getElem h₂]

end SingleForm

/-! ### Soundness -/

section Circuit

variable {P : ArcParams} {K : Type} [Field K] (F : BinaryFields K)

/-- Running `build` on an assignment of the right length. -/
theorem build_run (c : PresentationCircuit P) (hlimit : c.presentationLimit ≠ 0)
    {secrets : PresentationSecrets} (hsig : secrets.signature.length = P.KN) (carries : U32)
    {cs₁ cs₂ cs₃ : List State} (h₁ : cs₁.length = 6) (h₂ : cs₂.length = 6)
    (h₃ : cs₃.length = 6)
    (rest : List Bool) :
    ∃ s, c.build F (evalBackend F)
      ⟨presentationAssignment secrets carries cs₁ cs₂ cs₃ ++ rest, []⟩ =
        .ok ((), s) ∧ s.input = rest ∧
      (s.Satisfied ↔ c.Relation F secrets ∧
        presentationAssignment secrets carries cs₁ cs₂ cs₃ = c.witness secrets) := by
  have := F.charP
  obtain ⟨vs, hrun, hvs⟩ := emits_build F c hlimit hsig carries h₁ h₂ h₃ rest []
  exact ⟨⟨rest, [] ++ vs⟩, hrun, rfl, by simpa [EvalState.Satisfied] using hvs⟩

/-- Running `build` on the generated witness. -/
theorem build_run_witness (c : PresentationCircuit P) (hlimit : c.presentationLimit ≠ 0)
    {secrets : PresentationSecrets} (hsig : secrets.signature.length = P.KN) (rest : List Bool) :
    ∃ s, c.build F (evalBackend F) ⟨c.witness secrets ++ rest, []⟩ = .ok ((), s) ∧
      s.input = rest ∧ (s.Satisfied ↔ c.Relation F secrets) := by
  obtain ⟨s, hrun, hrest, hsat⟩ := build_run F c hlimit hsig
    (lessThanCarries secrets.presentationNonce c.presentationLimit)
    (length_checkpoints (credentialMessage c.credentialScope secrets.secret secrets.hidingNonce))
    (length_checkpoints (signedCredentialMessage (credentialTarget P c.credentialScope
      secrets.secret secrets.hidingNonce) secrets.salt))
    (length_checkpoints (tagMessage secrets.secret c.presentationScope secrets.presentationNonce))
    rest
  rw [← c.witness_eq secrets] at hrun hsat
  exact ⟨s, hrun, hrest, hsat.trans (and_iff_left rfl)⟩

/-- The length of a witness, whatever the length of the signature. -/
theorem length_presentationWitness (c : PresentationCircuit P) (secrets : PresentationSecrets) :
    (c.witness secrets).length = 4 * secrets.signature.length + 29632 := by
  rw [c.witness_eq]
  simp only [presentationAssignment, List.length_append, length_gf16Bits, length_bytesBits,
    Vector.length_toList, length_lsbBits, length_statesBits, length_checkpoints]

theorem length_witness (c : PresentationCircuit P) {secrets : PresentationSecrets}
    (hsig : secrets.signature.length = P.KN) :
    (c.witness secrets).length = presentationBits P := by
  rw [length_presentationWitness, hsig, presentationBits_eq]

/-- The secrets are read off the witness. -/
theorem witness_injective (c : PresentationCircuit P) {secrets secrets' : PresentationSecrets}
    (hsig : secrets.signature.length = P.KN) (hsig' : secrets'.signature.length = P.KN)
    (h : c.witness secrets = c.witness secrets') : secrets = secrets' := by
  rw [c.witness_eq, c.witness_eq] at h
  exact (presentationAssignment_inj (hsig.trans hsig'.symm) (by simp) (by simp) h).1

/-- Every assignment `build` accepts, honest or not, is the generated witness of exactly one
choice of secrets, and these satisfy the relation. -/
theorem presentationCircuit_sound (c : PresentationCircuit P) (hlimit : c.presentationLimit ≠ 0)
    (bits : List Bool) (hbits : bits.length = presentationBits P) :
    ∃ s, c.build F (evalBackend F) ⟨bits, []⟩ = .ok ((), s) ∧ s.input = [] ∧
      (s.Satisfied → ∃! secrets, secrets.signature.length = P.KN ∧ bits = c.witness secrets ∧
        c.mayoSystem.eval F secrets.signature = signedCredentialTarget P
          (credentialTarget P c.credentialScope secrets.secret secrets.hidingNonce) secrets.salt ∧
        c.tag = deriveTag secrets.secret c.presentationScope secrets.presentationNonce ∧
        secrets.presentationNonce < c.presentationLimit) := by
  obtain ⟨secrets, carries, cs₁, cs₂, cs₃, hsig, h₁, h₂, h₃, rfl⟩ :=
    exists_presentationAssignment hbits
  obtain ⟨s, hrun, hrest, hsat⟩ := build_run F c hlimit hsig carries h₁ h₂ h₃ []
  rw [List.append_nil] at hrun
  refine ⟨s, hrun, hrest, fun h => ?_⟩
  obtain ⟨hrelation, hwitness⟩ := hsat.mp h
  refine ⟨secrets, ⟨hsig, hwitness, hrelation⟩, ?_⟩
  rintro secrets' ⟨hsig', hwitness', -⟩
  exact witness_injective c hsig' hsig (hwitness'.symm.trans hwitness)

end Circuit

/-! ### A satisfied assignment over GF(2^128) -/

/-- Secrets of an unused credential whose signature is the unit vector. -/
def unitSecrets : PresentationSecrets where
  signature := ⟨1⟩ :: List.replicate 323 0
  secret := Vector.replicate 32 0
  hidingNonce := Vector.replicate 32 0
  salt := Vector.replicate 32 0
  presentationNonce := 0

/-- A public input these secrets satisfy. -/
def unitCircuit : PresentationCircuit mayo2 where
  mayoSystem := singleForm 324 (signedCredentialTarget mayo2 (credentialTarget mayo2
    (Vector.replicate 32 0) unitSecrets.secret unitSecrets.hidingNonce) unitSecrets.salt)
  credentialScope := Vector.replicate 32 0
  presentationScope := Vector.replicate 32 0
  presentationLimit := 1
  tag := deriveTag unitSecrets.secret (Vector.replicate 32 0) 0

theorem GF16.mul_one : ∀ a : GF16, GF16.mul a ⟨1⟩ = a := by
  have h : ∀ a : BitVec 4, GF16.mul ⟨a⟩ ⟨1⟩ = ⟨a⟩ := by decide
  exact fun a => h a.nibble

theorem unitCircuit_relation : unitCircuit.Relation GF2p128.binaryFields unitSecrets :=
  ⟨eval_singleForm GF2p128.binaryFields GF16.mul_one (by decide) _ _, rfl, by decide⟩

theorem presentationCircuit_sound_unit :
    ∃ s, unitCircuit.build GF2p128.binaryFields (evalBackend GF2p128.binaryFields)
        ⟨unitCircuit.witness unitSecrets, []⟩ = .ok ((), s) ∧ s.Satisfied ∧
      ∃! secrets, secrets.signature.length = mayo2.KN ∧
        unitCircuit.witness unitSecrets = unitCircuit.witness secrets ∧
        unitCircuit.mayoSystem.eval GF2p128.binaryFields secrets.signature =
          signedCredentialTarget mayo2 (credentialTarget mayo2 unitCircuit.credentialScope
            secrets.secret secrets.hidingNonce) secrets.salt ∧
        unitCircuit.tag =
          deriveTag secrets.secret unitCircuit.presentationScope secrets.presentationNonce ∧
        secrets.presentationNonce < unitCircuit.presentationLimit := by
  have hsig : unitSecrets.signature.length = mayo2.KN := by
    simp only [unitSecrets, List.length_cons, List.length_replicate]; rfl
  obtain ⟨s, hrun, -, hsound⟩ := presentationCircuit_sound GF2p128.binaryFields unitCircuit
    (by decide) (unitCircuit.witness unitSecrets) (length_witness unitCircuit hsig)
  obtain ⟨t, hrun', -, hsat⟩ :=
    build_run_witness GF2p128.binaryFields unitCircuit (by decide) hsig []
  rw [List.append_nil, hrun] at hrun'
  cases hrun'
  have hs := hsat.mpr unitCircuit_relation
  exact ⟨s, hrun, hs, hsound hs⟩

/-! ### Completeness -/

/-- The generated witness is exactly what `build` allocates, whatever follows it, and `build`
accepts it exactly when the relation holds. -/
theorem presentationCircuit_complete {P : ArcParams} {K : Type} [Field K] (F : BinaryFields K)
    (c : PresentationCircuit P) (hlimit : c.presentationLimit ≠ 0) (secrets : PresentationSecrets)
    (hsig : secrets.signature.length = P.KN) (rest : List Bool) :
    (c.witness secrets).length = presentationBits P ∧
    ∃ s, c.build F (evalBackend F) ⟨c.witness secrets ++ rest, []⟩ = .ok ((), s) ∧
      s.input = rest ∧
      (c.mayoSystem.eval F secrets.signature = signedCredentialTarget P
          (credentialTarget P c.credentialScope secrets.secret secrets.hidingNonce) secrets.salt →
        c.tag = deriveTag secrets.secret c.presentationScope secrets.presentationNonce →
        secrets.presentationNonce < c.presentationLimit → ∀ v ∈ s.asserted, v = 0) ∧
      (¬ (c.mayoSystem.eval F secrets.signature = signedCredentialTarget P
          (credentialTarget P c.credentialScope secrets.secret secrets.hidingNonce) secrets.salt ∧
        c.tag = deriveTag secrets.secret c.presentationScope secrets.presentationNonce ∧
        secrets.presentationNonce < c.presentationLimit) → ∃ v ∈ s.asserted, v ≠ 0) := by
  obtain ⟨s, hrun, hrest, hsat⟩ := build_run_witness F c hlimit hsig rest
  refine ⟨length_witness c hsig, s, hrun, hrest, fun hmayo htag hlt => ?_, fun hfail => ?_⟩
  · exact hsat.mpr ⟨hmayo, htag, hlt⟩
  · by_contra hzero
    exact hfail (hsat.mp fun v hv => by_contra fun hne => hzero ⟨v, hv, hne⟩)

theorem presentationCircuit_complete_unit :
    ∃ s, unitCircuit.build GF2p128.binaryFields (evalBackend GF2p128.binaryFields)
        ⟨unitCircuit.witness unitSecrets ++ [true], []⟩ = .ok ((), s) ∧ s.input = [true] ∧
      ∀ v ∈ s.asserted, v = 0 := by
  have hsig : unitSecrets.signature.length = mayo2.KN := by
    simp only [unitSecrets, List.length_cons, List.length_replicate]; rfl
  obtain ⟨-, s, hrun, hrest, hcomplete, -⟩ := presentationCircuit_complete GF2p128.binaryFields
    unitCircuit (by decide) unitSecrets hsig [true]
  obtain ⟨hmayo, htag, hlt⟩ := unitCircuit_relation
  exact ⟨s, hrun, hrest, hcomplete hmayo htag hlt⟩

end VoleArc
