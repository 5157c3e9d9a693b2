import VoleArc.Protocol.CredentialWire
import VoleArc.Circuit.Correctness
import VoleArc.KeccakLanes

/-!
# VoleArc.Reference — a lawful instance of the crates

A MAYO-shaped map whose equations are squares of single coordinates, and a proof backend whose
proofs are satisfying assignments.  The instance meets every law of `VoleArc.External`, so the
hypotheses of the results stated from those laws hold together.
-/

namespace VoleArc.Reference

open Keccak

/-! ### The map -/

/-- Equation `e` is the square of coordinate `e`. -/
def squares : MayoFormSystem where
  forms :=
    { dimension := 324
      numEquations := 64
      coeff := fun e i j => if i = e ∧ j = e then ⟨1⟩ else 0 }

/-- The square root in GF(16) is the eighth power. -/
def root (a : GF16) : GF16 :=
  let square := fun b : GF16 => GF16.mul b b
  square (square (square a))

theorem mul_root_root : ∀ a : GF16, GF16.mul (root a) (root a) = a := by
  have h : ∀ a : BitVec 4, GF16.mul (root ⟨a⟩) (root ⟨a⟩) = ⟨a⟩ := by decide
  exact fun a => h a.nibble

theorem one_mul : ∀ a : GF16, GF16.mul ⟨1⟩ a = a := by
  have h : ∀ a : BitVec 4, GF16.mul ⟨1⟩ ⟨a⟩ = ⟨a⟩ := by decide
  exact fun a => h a.nibble

theorem binaryFields_mul : GF2p128.binaryFields.mul = GF16.mul := rfl

theorem eval_squares (x : List GF16) :
    squares.eval GF2p128.binaryFields x =
      (List.range 64).map fun e => GF16.mul (x.getD e 0) (x.getD e 0) := by
  simp only [MayoFormSystem.eval, QuadFormSystem.valuesWith, binaryFields_mul, id]
  refine List.map_congr_left fun e he => ?_
  have hmem : e ∈ Finset.range squares.forms.dimension := by
    rw [List.mem_range] at he
    rw [Finset.mem_range]
    exact he.trans (by decide)
  have hcoeff : ∀ i j, squares.forms.coeff e i j = if i = e ∧ j = e then ⟨1⟩ else 0 :=
    fun _ _ => rfl
  have hzero : ∀ a, GF16.mul 0 a = 0 := GF2p128.binaryFields.zero_mul
  rw [Finset.sum_eq_single_of_mem e hmem, Finset.sum_eq_single_of_mem e hmem]
  · rw [hcoeff, if_pos ⟨rfl, rfl⟩, one_mul]
  · intro j _ hj
    rw [hcoeff, if_neg fun h => hj h.2, hzero, hzero]
  · intro i _ hi
    refine Finset.sum_eq_zero fun j _ => ?_
    rw [hcoeff, if_neg fun h => hi h.1, hzero, hzero]

/-- The coordinate roots of a target, padded with zeros. -/
def preimage (target : List GF16) : List GF16 :=
  target.map root ++ List.replicate 260 0

theorem eval_preimage {target : List GF16} (h : target.length = 64) :
    squares.eval GF2p128.binaryFields (preimage target) = target := by
  rw [eval_squares]
  refine List.ext_getElem (by simp [h]) fun i h₁ h₂ => ?_
  rw [List.getElem_map, List.getElem_range, preimage, List.getD_append _ _ _ _ (by simpa using h₂),
    List.getD_eq_getElem _ _ (by simpa using h₂), List.getElem_map, mul_root_root]

theorem length_preimage {target : List GF16} (h : target.length = 64) :
    (preimage target).length = 324 := by
  rw [preimage, List.length_append, List.length_map, List.length_replicate, h]

/-! ### The crates -/

/-- Keys are one byte, and every key has the same map. -/
noncomputable def mayo : Mayo ℕ where
  PublicKey := U8
  SecretKey := U8
  publicKeyToBytes key := [key]
  publicKeyFromBytes
    | [key] => some key
    | _ => none
  secretKeyToBytes key := [key]
  secretKeyFromBytes
    | [key] => some key
    | _ => none
  publicKey key := key
  trapgen rng := ((BitVec.ofNat 8 rng, BitVec.ofNat 8 rng), rng + 1)
  eval _ x := if x.length = 324 then some (squares.eval GF2p128.binaryFields x) else none
  spre _ target rng := (if target.length = 64 then some (preimage target) else none, rng + 1)
  whippedSystemAndForms _ := (squares, [])

def proofBit (b : Bool) : U8 := if b then 1 else 0

open Classical in
/-- A proof is a satisfying assignment, one byte a bit. -/
noncomputable def voleith (P : ArcParams) : Voleith P ℕ where
  Params := PerformanceProfile
  tau
    | .compact => 8
    | .balanced => 16
    | .lowLatency => 32
  k
    | .compact => 16
    | .balanced => 8
    | .lowLatency => 4
  PARAMS_128 := .compact
  PARAMS_128_BALANCED := .balanced
  PARAMS_128_FAST := .lowLatency
  Proof := List Bool
  proofToBytes bits := bits.map proofBit
  proofFromBytes bytes :=
    if ∀ byte ∈ bytes, byte = 0 ∨ byte = 1 then .ok (bytes.map (· = 1)) else .error .invalidEncoding
  prove _ _ circuit bits rng :=
    if AnyCircuit.SatisfiedBy GF2p128.binaryFields circuit bits then (.ok bits, rng + 1)
    else (.error .unsatisfiable, rng + 1)
  verify _ _ circuit bits :=
    if AnyCircuit.SatisfiedBy GF2p128.binaryFields circuit bits then .ok ()
    else .error .unsatisfiable

noncomputable def crates : Crates mayo2 GF2p128 where
  Rng := ℕ
  fillBytes rng := (Vector.replicate 32 (BitVec.ofNat 8 rng), rng + 1)
  fields := GF2p128.binaryFields
  shake bytes := ⟨(shake256 bytes 32).toArray, by simp⟩
  mayo := mayo
  voleith := voleith mayo2

/-- The crates of the other suite. -/
noncomputable def otherCrates : Crates mayo1 GF2p128 where
  Rng := ℕ
  fillBytes := crates.fillBytes
  fields := crates.fields
  shake := crates.shake
  mayo := mayo
  voleith := voleith mayo1

/-! ### Its laws -/

theorem canonicalKeys : crates.mayo.CanonicalKeys := by
  have key : ∀ (b : Bytes) (key : U8),
      (match b with | [key] => some key | _ => none) = some key ↔ [key] = b := by
    intro b key
    match b with
    | [] => simp
    | [a] => simp [eq_comm]
    | a :: a' :: rest => simp
  exact ⟨key, key⟩

theorem canonicalProofs : crates.voleith.CanonicalProofs := by
  intro b (proof : List Bool)
  change (if ∀ byte ∈ b, byte = 0 ∨ byte = 1 then .ok (b.map fun byte => decide (byte = 1))
    else .error ProofDecodeError.invalidEncoding) = Except.ok proof ↔ proof.map proofBit = b
  constructor
  · intro h
    split_ifs at h with hbits
    rw [← Except.ok.inj h, List.map_map]
    refine (List.map_congr_left fun byte hbyte => ?_).trans (List.map_id b)
    rcases hbits byte hbyte with rfl | rfl <;> decide
  · rintro rfl
    rw [if_pos]
    · rw [List.map_map]
      refine congrArg Except.ok ((List.map_congr_left fun bit _ => ?_).trans (List.map_id proof))
      cases bit <;> decide
    · intro byte hbyte
      obtain ⟨bit, -, rfl⟩ := List.mem_map.mp hbyte
      cases bit
      · exact .inl rfl
      · exact .inr rfl

theorem trapgenCorrect : crates.mayo.TrapgenCorrect := fun _ => rfl

theorem spre_eq_some {key : U8} {target signature : List GF16} {rng : ℕ}
    (h : (crates.mayo.spre key target rng).1 = some signature) :
    target.length = 64 ∧ signature = preimage target := by
  change (if target.length = 64 then some (preimage target) else none) = some signature at h
  split_ifs at h with hlen
  exact ⟨hlen, (Option.some.inj h).symm⟩

theorem spreSucceeds : crates.mayo.SpreSucceeds mayo2 := by
  intro key target rng h
  have hlen : target.length = 64 := h
  exact ⟨preimage target, if_pos hlen⟩

theorem spreLength : crates.mayo.SpreLength mayo2 := by
  intro key target rng signature h
  obtain ⟨hlen, rfl⟩ := spre_eq_some h
  exact length_preimage hlen

theorem eval_of_length {key : U8} {x : List GF16} (h : x.length = 324) :
    crates.mayo.eval key x = some (squares.eval GF2p128.binaryFields x) := if_pos h

theorem spreCorrect : crates.mayo.SpreCorrect := by
  intro key target rng signature h
  obtain ⟨hlen, rfl⟩ := spre_eq_some h
  exact (eval_of_length (length_preimage hlen)).trans (congrArg some (eval_preimage hlen))

theorem evalWhipped : crates.EvalWhipped := fun _ _ h => eval_of_length h

open Classical in
theorem verify_eq_ok {params : PerformanceProfile} {statement : Bytes} {circuit : AnyCircuit mayo2}
    {proof : List Bool} :
    crates.voleith.verify params statement circuit proof = .ok () ↔
      AnyCircuit.SatisfiedBy GF2p128.binaryFields circuit proof := by
  change (if AnyCircuit.SatisfiedBy GF2p128.binaryFields circuit proof then Except.ok ()
    else Except.error VoleithError.unsatisfiable) = Except.ok () ↔ _
  split_ifs with h
  · exact iff_of_true rfl h
  · exact iff_of_false (fun h => by cases h) h

/-- A proof is its own satisfying assignment. -/
theorem extracts : crates.Extracts fun _ proof => proof :=
  fun _ _ _ _ h => verify_eq_ok.mp h

/-- The prover returns the assignment. -/
theorem prove_eq_ok {params : PerformanceProfile} {statement : Bytes} {circuit : AnyCircuit mayo2}
    {bits : List Bool} {rng : ℕ} {proof : List Bool}
    (h : (crates.voleith.prove params statement circuit bits rng).1 = .ok proof) :
    AnyCircuit.SatisfiedBy GF2p128.binaryFields circuit bits ∧ proof = bits := by
  by_cases hsat : AnyCircuit.SatisfiedBy GF2p128.binaryFields circuit bits
  · have hprove : (crates.voleith.prove params statement circuit bits rng).1 = .ok bits :=
      congrArg Prod.fst (if_pos hsat)
    rw [hprove] at h
    exact ⟨hsat, (Except.ok.inj h).symm⟩
  · have hprove : (crates.voleith.prove params statement circuit bits rng).1 =
        .error .unsatisfiable := congrArg Prod.fst (if_neg hsat)
    rw [hprove] at h
    cases h

theorem proveComplete : crates.ProveComplete := fun _ _ _ bits _ h =>
  ⟨bits, congrArg Prod.fst (if_pos h)⟩

theorem verifyComplete : crates.VerifyComplete := by
  intro params statement circuit bits rng proof h
  obtain ⟨hsat, hproof⟩ := prove_eq_ok h
  rw [hproof]
  exact verify_eq_ok.mpr hsat

/-- All keys have the same map. -/
theorem eval_key (key key' : U8) : crates.mayo.eval key = crates.mayo.eval key' := rfl

/-! ### A key and a credential -/

noncomputable def publicKey : PublicKey crates :=
  PublicKey.derive (C := crates) (0 : U8) .balanced [] (Nat.zero_le _)

/-- The issuer of the reference key. -/
noncomputable def issuer : Issuer crates := ⟨(0 : U8), publicKey⟩

theorem issuer_matches : issuer.Matches := rfl

theorem issuer_reachable : issuer.Reachable := by
  have hgenerate : Issuer.generateWithProfile (C := crates) [] .balanced (0 : ℕ) =
      some (issuer, (1 : ℕ)) := rfl
  exact .generate hgenerate

def zeros : Bytes32 := Vector.replicate 32 0

noncomputable def commitment : List GF16 :=
  credentialTarget mayo2 (credentialScope crates publicKey.context zeros) zeros zeros

/-- An unused credential with all-zero context, opening and salt. -/
noncomputable def credential : Credential crates where
  issuerContext := publicKey.context
  credentialContext := ⟨zeros⟩
  signature := preimage (signedCredentialTarget mayo2 commitment zeros)
  secret := zeros
  hidingNonce := zeros
  salt := zeros
  nextNonces := ∅

theorem length_signedTarget (commitment : List GF16) (salt : Bytes32) :
    (signedCredentialTarget mayo2 commitment salt).length = 64 :=
  length_signedCredentialTarget mayo2 commitment salt

theorem credential_valid : credential.Valid publicKey where
  length_signature := length_preimage (length_signedTarget _ _)
  counters := CounterMap.canonical_empty
  authentic := ⟨rfl, (eval_of_length (length_preimage (length_signedTarget _ _))).trans
    (congrArg some (eval_preimage (length_signedTarget _ _)))⟩

/-- One use in the all-zero context. -/
def challenge : PresentationChallenge where
  credentialContext := ⟨zeros⟩
  presentationContext := ⟨zeros⟩
  binding := ⟨zeros⟩
  limit := 1

/-! ### A second bucket -/

def ones : Bytes32 := Vector.replicate 32 1

/-- One use in another presentation context. -/
def otherChallenge : PresentationChallenge :=
  { challenge with presentationContext := ⟨ones⟩ }

theorem toList_shake {message : Bytes} (h : message.length < rateBytes) :
    (crates.shake message).toList = digest message :=
  shake256_eq_digest h

/-- The digest of the reference key's map. -/
def keyDigest : Bytes :=
  digest (mayoPublicKeyInput mayo2.N mayo2.M mayo2.O mayo2.K [])

/-- The reference key's context. -/
def contextDigest : Bytes :=
  digest (ascii "VOLE-ARC/issuer-context/v1" ++ lenBytes [] ++ [] ++ keyDigest ++ mayo2.NAME ++
    u64ToLeBytes 32 ++ u64ToLeBytes 16 ++ u64ToLeBytes 8)

/-- The scope of a bucket of the reference key. -/
def bucketDigest (presentationContext : Bytes32) : Bytes :=
  digest (ascii "VOLE-ARC/presentation-scope/v1" ++
    (contextDigest ++ (zeros.toList ++ (presentationContext.toList ++ []))))

theorem toList_context : publicKey.context.toList = contextDigest := by
  have hkey : (mayoSystemAndHash crates (0 : U8)).2.toList = keyDigest :=
    toList_shake (by decide)
  have hdomain : (ascii "VOLE-ARC/issuer-context/v1").length = 26 := by decide
  have hname : mayo2.NAME.length = 5 := by decide
  rw [contextDigest, ← hkey]
  refine toList_shake ?_
  simp [issuerContextInput, lenBytes, rateBytes, hdomain, hname]

theorem toList_presentationScope (presentationContext : Bytes32) :
    (presentationScope crates publicKey.context zeros presentationContext).toList =
      bucketDigest presentationContext := by
  have hdomain : (ascii "VOLE-ARC/presentation-scope/v1").length = 30 := by decide
  rw [bucketDigest, ← toList_context]
  refine toList_shake ?_
  simp [hashScopeInput, rateBytes, hdomain]

/-- The two buckets have different scopes. -/
theorem presentationScope_ne : presentationScope crates publicKey.context zeros zeros ≠
    presentationScope crates publicKey.context zeros ones := by
  have hdigest : bucketDigest zeros ≠ bucketDigest ones := by decide +kernel
  intro h
  rw [← toList_presentationScope, ← toList_presentationScope, h] at hdigest
  exact hdigest rfl

end VoleArc.Reference
