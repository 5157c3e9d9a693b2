import VoleArc.External
import VoleArc.Circuit.Correctness

/-!
# VoleArc.Satisfaction — which assignments satisfy the circuits

The circuits' correctness, in the terms the backend's laws are stated in.
-/

namespace VoleArc

open Constraint

variable {P : ArcParams} {K : Type} [Field K] (F : BinaryFields K)

theorem satisfiedBy_presentation (c : PresentationCircuit P) (hlimit : c.presentationLimit ≠ 0)
    {secrets : PresentationSecrets} (hsig : secrets.signature.length = P.KN)
    (h : c.Relation F secrets) :
    (AnyCircuit.presentation c).SatisfiedBy F (c.witness secrets) := by
  obtain ⟨s, hrun, hinput, hsat⟩ := build_run_witness F c hlimit hsig []
  rw [List.append_nil] at hrun
  exact ⟨length_witness c hsig, s, hrun, hinput, hsat.mpr h⟩

/-- Every satisfying assignment is the witness of secrets in the relation. -/
theorem exists_secrets_of_satisfiedBy {c : PresentationCircuit P} (hlimit : c.presentationLimit ≠ 0)
    {bits : List Bool} (h : (AnyCircuit.presentation c).SatisfiedBy F bits) :
    ∃ secrets, secrets.signature.length = P.KN ∧ bits = c.witness secrets ∧
      c.Relation F secrets := by
  obtain ⟨hlen, s, hrun, -, hsat⟩ := h
  obtain ⟨secrets, carries, cs₁, cs₂, cs₃, hsig, h₁, h₂, h₃, rfl⟩ :=
    exists_presentationAssignment hlen
  obtain ⟨t, hrun', -, hiff⟩ := build_run F c hlimit hsig carries h₁ h₂ h₃ []
  rw [List.append_nil] at hrun'
  obtain rfl : s = t := (Prod.mk.inj (Except.ok.inj (hrun.symm.trans hrun'))).2
  obtain ⟨hrelation, hwitness⟩ := hiff.mp hsat
  exact ⟨secrets, hsig, hwitness, hrelation⟩

theorem satisfiedBy_issue (c : IssueCircuit P) (secret hidingNonce : Bytes32)
    (h : c.target = credentialTarget P c.credentialScope secret hidingNonce) :
    (AnyCircuit.issue c).SatisfiedBy F (c.witness secret hidingNonce) := by
  have hlen : c.target.length = P.M := by simp [h]
  obtain ⟨s, hrun, hinput, hsat⟩ := issue_run_witness F c hlen secret hidingNonce
  exact ⟨length_issueWitness c secret hidingNonce, s, hrun, hinput, hsat.mpr h⟩

end VoleArc
