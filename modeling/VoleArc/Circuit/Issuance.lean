import VoleArc.Circuit.Presentation

/-!
# VoleArc.Circuit.Issuance — the issuance circuit and its witness
-/

namespace VoleArc

open BitField BitString Constraint Keccak

variable {P : ArcParams} {K : Type} [Field K] (F : BinaryFields K)

/-- The number of bits `build` allocates. -/
def issueBits : ℕ := (secretBytes + hidingNonceBytes) * 8 + keccakCheckpointBits

/-- An assignment, part by part. -/
def issueAssignment (secret hidingNonce : Bytes32) (cs : List State) : List Bool :=
  bytesBits secret.toList ++ (bytesBits hidingNonce.toList ++ statesBits cs)

/-- The generated witness, part by part. -/
theorem IssueCircuit.witness_eq (c : IssueCircuit P) (secret hidingNonce : Bytes32) :
    c.witness secret hidingNonce = issueAssignment secret hidingNonce
      (checkpoints (credentialMessage c.credentialScope secret hidingNonce)) := by
  simp only [IssueCircuit.witness, appendKeccakCheckpoints_eq, appendBytesBits, List.nil_append,
    List.append_assoc]
  rfl

theorem length_issueWitness (c : IssueCircuit P) (secret hidingNonce : Bytes32) :
    (c.witness secret hidingNonce).length = issueBits := by
  rw [c.witness_eq]
  simp only [issueAssignment, List.length_append, length_bytesBits, Vector.length_toList,
    length_statesBits, length_checkpoints]
  rfl

theorem issueAssignment_inj {secret secret' hidingNonce hidingNonce' : Bytes32}
    {cs cs' : List State}
    (h : issueAssignment secret hidingNonce cs = issueAssignment secret' hidingNonce' cs') :
    secret = secret' ∧ hidingNonce = hidingNonce' ∧ cs = cs' := by
  obtain ⟨hsecret, h⟩ := List.append_inj h (by simp)
  obtain ⟨hhiding, hcs⟩ := List.append_inj h (by simp)
  exact ⟨bytes32_eq_of_bits hsecret, bytes32_eq_of_bits hhiding, statesBits_injective hcs⟩

variable [CharP K 2]

/-- `build` asserts that the target is the commitment, and that the assignment is the generated
witness. -/
theorem emits_issueBuild (c : IssueCircuit P) (htarget : c.target.length = P.M)
    (secret hidingNonce : Bytes32) {cs : List State} (hcs : cs.length = 6) :
    Emits (c.build (evalBackend F)) (issueAssignment secret hidingNonce cs) ()
      (c.target = credentialTarget P c.credentialScope secret hidingNonce ∧
        issueAssignment secret hidingNonce cs = c.witness secret hidingNonce) := by
  have hm := credentialMessage_lt c.credentialScope secret hidingNonce
  have hM : P.M ≤ 400 := by have := P.fits; omega
  have hrate : (P.M + 1) / 2 < rateBytes := by have := P.fits; rw [rateBytes]; omega
  have hcommit : credentialTarget P c.credentialScope secret hidingNonce =
      stateNibbles P.M (finalState (credentialMessage c.credentialScope secret hidingNonce)) :=
    targetNibbles_eq hm hrate
  have hlen : (gf16Bits c.target).length = 4 * P.M := by rw [length_gf16Bits, htarget]
  have hassert := emits_shakeAssertOutput F hm hcs
    (show (gf16Bits c.target).length ≤ 1600 by rw [hlen]; omega)
  have hraw : Emits (c.build (evalBackend F)) (issueAssignment secret hidingNonce cs) ()
      (cs = checkpoints (credentialMessage c.credentialScope secret hidingNonce) ∧
        (stateBits (lastState (absorbed (credentialMessage c.credentialScope secret hidingNonce))
          cs)).toList.take (gf16Bits c.target).length = gf16Bits c.target) := by
    have hsecret : (bytesBits secret.toList).length = secretBytes * 8 := by simp [secretBytes]
    have hhiding : (bytesBits hidingNonce.toList).length = hidingNonceBytes * 8 := by
      simp [hidingNonceBytes]
    unfold IssueCircuit.build issueAssignment
    rw [if_neg (not_not.mpr htarget)]
    refine (emits_alloc F hsecret).bind_alloc ?_
    refine (emits_alloc F hhiding).bind_alloc ?_
    simp only [toList_map_bitVector, credentialWires_eq, targetConstantBits_eq]
    exact hassert
  refine hraw.congr ?_
  rw [c.witness_eq, hlen, hcommit]
  constructor
  · rintro ⟨rfl, hbits⟩
    rw [lastState_checkpoints, ← gf16Bits_stateNibbles hM] at hbits
    exact ⟨(gf16Bits_injective hbits).symm, rfl⟩
  · rintro ⟨htarget, hassign⟩
    obtain ⟨-, -, rfl⟩ := issueAssignment_inj hassign
    rw [lastState_checkpoints, ← gf16Bits_stateNibbles hM, ← htarget]
    exact ⟨rfl, rfl⟩

omit [CharP K 2] in
/-- Running `build` on the generated witness. -/
theorem issue_run_witness (F : BinaryFields K) (c : IssueCircuit P)
    (htarget : c.target.length = P.M)
    (secret hidingNonce : Bytes32) :
    ∃ s, c.build (evalBackend F) ⟨c.witness secret hidingNonce, []⟩ = .ok ((), s) ∧ s.input = [] ∧
      (s.Satisfied ↔ c.target = credentialTarget P c.credentialScope secret hidingNonce) := by
  have := F.charP
  have hrun := (emits_issueBuild F c htarget secret hidingNonce (length_checkpoints
    (credentialMessage c.credentialScope secret hidingNonce))).run
  rw [← c.witness_eq] at hrun
  obtain ⟨s, hbuild, hinput, hsat⟩ := hrun
  exact ⟨s, hbuild, hinput, hsat.trans (and_iff_left rfl)⟩

end VoleArc
