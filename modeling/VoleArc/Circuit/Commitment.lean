import VoleArc.Circuit.SingleBlock
import VoleArc.Satisfaction

/-!
# VoleArc.Circuit.Commitment — the issuance circuit is the commitment relation

For a target of the suite's length the assignments `build` accepts are exactly the openings of the
target, each with the native states after rounds 4, 8, .., 24; for any other length `build` fails
before it allocates.
-/

namespace VoleArc

open BitString Constraint Keccak

variable {P : ArcParams} {K : Type} [Field K] (F : BinaryFields K)

/-- Every assignment of the allocated bits is an opening and six states. -/
theorem exists_issueAssignment {bits : List Bool} (h : bits.length = issueBits) :
    ∃ secret hidingNonce cs, cs.length = 6 ∧ issueAssignment secret hidingNonce cs = bits := by
  have hlen : bits.length = 256 + (256 + 1600 * 6) := by rw [h]; rfl
  obtain ⟨b₁, r₁, hb₁, hr₁, rfl⟩ := exists_split hlen
  obtain ⟨b₂, b₃, hb₂, hb₃, rfl⟩ := exists_split hr₁
  obtain ⟨secret, rfl⟩ := exists_bytes32 hb₁
  obtain ⟨hidingNonce, rfl⟩ := exists_bytes32 hb₂
  obtain ⟨cs, hcs, rfl⟩ := exists_flatMap_stateBits hb₃
  exact ⟨secret, hidingNonce, cs, hcs, rfl⟩

/-- The generated witness: the opening, then the states after rounds 4, 8, .., 24. -/
theorem IssueCircuit.witness_eq_bits (c : IssueCircuit P) (secret hidingNonce : Bytes32) :
    c.witness secret hidingNonce = bytesBits secret.toList ++ (bytesBits hidingNonce.toList ++
      checkpointBits (credentialMessage c.credentialScope secret hidingNonce)) := by
  rw [c.witness_eq, issueAssignment, statesBits_checkpoints]

/-- Accepting an assignment is its being the witness of an opening of the target. -/
theorem issueAssignment_accepted_iff (c : IssueCircuit P) {secret hidingNonce : Bytes32}
    {cs : List State} :
    (c.target = credentialTarget P c.credentialScope secret hidingNonce ∧
        issueAssignment secret hidingNonce cs = c.witness secret hidingNonce) ↔
      ∃ secret' hidingNonce', credentialTarget P c.credentialScope secret' hidingNonce' = c.target ∧
        issueAssignment secret hidingNonce cs = bytesBits secret'.toList ++
          (bytesBits hidingNonce'.toList ++
            checkpointBits (credentialMessage c.credentialScope secret' hidingNonce')) := by
  constructor
  · rintro ⟨htarget, hbits⟩
    exact ⟨secret, hidingNonce, htarget.symm, hbits.trans (c.witness_eq_bits _ _)⟩
  · rintro ⟨secret', hidingNonce', htarget, hbits⟩
    rw [← c.witness_eq_bits, c.witness_eq] at hbits
    obtain ⟨rfl, rfl, rfl⟩ := issueAssignment_inj hbits
    exact ⟨htarget.symm, (c.witness_eq _ _).symm⟩

/-- A satisfying assignment is the witness of an opening of the target. -/
theorem exists_opening_of_satisfiedBy {c : IssueCircuit P} {bits : List Bool}
    (h : (AnyCircuit.issue c).SatisfiedBy F bits) :
    ∃ secret hidingNonce, bits = c.witness secret hidingNonce ∧
      c.target = credentialTarget P c.credentialScope secret hidingNonce := by
  have := F.charP
  obtain ⟨hbits, s, hrun, -, hsat⟩ := h
  have htarget : c.target.length = P.M := by
    by_contra htarget
    have hbuild : c.build (evalBackend F) ⟨bits, []⟩ = .error .invalidParameters := by
      unfold IssueCircuit.build
      rw [if_pos htarget]
      rfl
    rw [AnyCircuit.build, hbuild] at hrun
    cases hrun
  obtain ⟨secret, hidingNonce, cs, hcs, rfl⟩ := exists_issueAssignment hbits
  obtain ⟨t, hrun', -, hiff⟩ := (emits_issueBuild F c htarget secret hidingNonce hcs).run
  obtain rfl : s = t := (Prod.mk.inj (Except.ok.inj (hrun.symm.trans hrun'))).2
  obtain ⟨hopens, hwitness⟩ := hiff.mp hsat
  exact ⟨secret, hidingNonce, hwitness, hopens⟩

/-- An opening is determined by its witness. -/
theorem IssueCircuit.witness_inj {c : IssueCircuit P}
    {secret secret' hidingNonce hidingNonce' : Bytes32}
    (h : c.witness secret hidingNonce = c.witness secret' hidingNonce') :
    secret = secret' ∧ hidingNonce = hidingNonce' := by
  rw [c.witness_eq, c.witness_eq] at h
  exact ⟨(issueAssignment_inj h).1, (issueAssignment_inj h).2.1⟩

/-- The issue circuit is exactly the commitment relation.  With a target of `M` nibbles the
assignments that satisfy `build` are the openings of the target with their native checkpoints, and
the generated witness, which has exactly the allocated length, satisfies it when it opens the
target; with a target of any other length `build` fails on every backend, before it allocates a
bit. -/
theorem issueCircuit_exact (c : IssueCircuit P) :
    (c.target.length = P.M →
      (∀ bits : List Bool, bits.length = issueBits →
        ∃ s, c.build (evalBackend F) ⟨bits, []⟩ = .ok ((), s) ∧ s.input = [] ∧
          (s.Satisfied ↔ ∃ secret hidingNonce,
            credentialTarget P c.credentialScope secret hidingNonce = c.target ∧
            bits = bytesBits secret.toList ++ (bytesBits hidingNonce.toList ++
              checkpointBits (credentialMessage c.credentialScope secret hidingNonce)))) ∧
      ∀ secret hidingNonce, (c.witness secret hidingNonce).length = issueBits ∧
        ∃ s, c.build (evalBackend F) ⟨c.witness secret hidingNonce, []⟩ = .ok ((), s) ∧
          s.input = [] ∧
          (s.Satisfied ↔ credentialTarget P c.credentialScope secret hidingNonce = c.target)) ∧
    (c.target.length ≠ P.M →
      ∀ {S W E : Type} (B : Backend K S W E) (s : S), c.build B s = .error .invalidParameters) := by
  have := F.charP
  refine ⟨fun htarget => ⟨?_, ?_⟩, ?_⟩
  · intro bits hbits
    obtain ⟨secret, hidingNonce, cs, hcs, rfl⟩ := exists_issueAssignment hbits
    obtain ⟨s, hrun, hinput, hsat⟩ := (emits_issueBuild F c htarget secret hidingNonce hcs).run
    exact ⟨s, hrun, hinput, hsat.trans (issueAssignment_accepted_iff c)⟩
  · intro secret hidingNonce
    obtain ⟨s, hrun, hinput, hsat⟩ := issue_run_witness F c htarget secret hidingNonce
    exact ⟨length_issueWitness c secret hidingNonce, s, hrun, hinput, hsat.trans eq_comm⟩
  · intro htarget S W E B s
    unfold IssueCircuit.build
    rw [if_pos htarget]
    rfl

/-- The all-zero opening satisfies the circuit of its commitment; a target one nibble short does not
build. -/
theorem issueCircuit_exact_zero :
    (∃ (c : IssueCircuit mayo2) (s : EvalState GF2p128),
      c.build (evalBackend GF2p128.binaryFields)
        ⟨c.witness (Vector.replicate 32 0) (Vector.replicate 32 0), []⟩ = .ok ((), s) ∧
      s.Satisfied) ∧
    (IssueCircuit.mk (P := mayo2) (Vector.replicate 32 0) (List.replicate 63 0)).build
      (evalBackend GF2p128.binaryFields) ⟨[], []⟩ = .error .invalidParameters := by
  let c : IssueCircuit mayo2 := ⟨Vector.replicate 32 0, credentialTarget mayo2
    (Vector.replicate 32 0) (Vector.replicate 32 0) (Vector.replicate 32 0)⟩
  have htarget : c.target.length = mayo2.M := length_credentialTarget _ _ _ _
  obtain ⟨-, hwitness⟩ := (issueCircuit_exact GF2p128.binaryFields c).1 htarget
  obtain ⟨-, s, hrun, -, hsat⟩ := hwitness (Vector.replicate 32 0) (Vector.replicate 32 0)
  refine ⟨⟨c, s, hrun, hsat.mpr rfl⟩, ?_⟩
  have hshort : (List.replicate 63 (0 : GF16)).length ≠ mayo2.M := by
    rw [List.length_replicate]
    decide
  exact (issueCircuit_exact GF2p128.binaryFields ⟨Vector.replicate 32 0, _⟩).2 hshort _ _

end VoleArc
