import VoleArc.Prim

/-!
# VoleArc.Markers — parameter sets, errors and performance profiles
-/

namespace VoleArc

/-- The bytes of a `b".."` literal. -/
def ascii (s : String) : Bytes := s.toUTF8.data.toList.map UInt8.toBitVec

/-- `ArcParams`: the constants of a MAYO parameter set the suite supports.  The trait is sealed to
MAYO1 and MAYO2: their signed-credential message fits one SHAKE256 rate block (`fits`) and their
signatures are far below the wire bound (`small`). -/
structure ArcParams where
  NAME : Bytes
  WIRE_ID : U8
  N : ℕ
  M : ℕ
  O : ℕ
  K : ℕ
  KN : ℕ
  fits : 18 + (M + 1) / 2 + 32 < 136
  small : KN < 65536

/-- MAYO1's constants. -/
def mayo1 : ArcParams where
  NAME := ascii "MAYO1"
  WIRE_ID := 1
  N := 86
  M := 78
  O := 8
  K := 10
  KN := 860
  fits := by decide
  small := by decide

/-- MAYO2's constants. -/
def mayo2 : ArcParams where
  NAME := ascii "MAYO2"
  WIRE_ID := 2
  N := 81
  M := 64
  O := 17
  K := 4
  KN := 324
  fits := by decide
  small := by decide

/-- The suites `ArcParams` is sealed to. -/
def suites : List ArcParams := [mayo1, mayo2]

/-- Errors from issuance, presentation, verification, and scoped accounting. -/
inductive Error where
  | invalidRequest
  | invalidProof
  | invalidSignature
  | signingFailed
  | invalidPresentationLimit
  | rateLimitReached
  | wrongCredentialContext
  | wrongIssuer
  | tagAlreadyUsed
  | storageFailure
  | tooManyPresentationContexts
  deriving DecidableEq, Repr

/-- Failure to decode or authenticate a canonical artifact. -/
inductive WireError where
  | invalidEncoding
  | wrongArtifact
  | wrongParameterSet
  | wrongIssuer
  | tooLarge
  | invalidCredential
  | unsupportedVersion
  deriving DecidableEq, Repr

/-- Errors of the proof backend that reach this code. -/
inductive VoleithError where
  | invalidParameters
  | unsatisfiable
  deriving DecidableEq, Repr

/-- `proof_error`: every backend failure is reported as an invalid proof. -/
def proofError (_ : VoleithError) : Error := .invalidProof

/-- VOLE tree geometry, trading prover latency against proof size. -/
inductive PerformanceProfile where
  | compact
  | balanced
  | lowLatency
  deriving DecidableEq, Repr

namespace PerformanceProfile

def wireId : PerformanceProfile → U8
  | compact => 1
  | balanced => 2
  | lowLatency => 3

def fromWireId (id : U8) : Except WireError PerformanceProfile :=
  if id = 1 then .ok compact
  else if id = 2 then .ok balanced
  else if id = 3 then .ok lowLatency
  else .error .invalidEncoding

theorem fromWireId_eq_ok {id : U8} {profile : PerformanceProfile} :
    fromWireId id = .ok profile ↔ id = profile.wireId := by
  unfold fromWireId
  split_ifs with h₁ h₂ h₃
  · subst h₁; cases profile <;> simp [wireId]
  · subst h₂; cases profile <;> simp [wireId]
  · subst h₃; cases profile <;> simp [wireId]
  · refine ⟨fun h => by simp at h, fun h => ?_⟩
    cases profile
    · exact absurd h h₁
    · exact absurd h h₂
    · exact absurd h h₃

end PerformanceProfile

end VoleArc
