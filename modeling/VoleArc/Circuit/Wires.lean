import VoleArc.Circuit.Relation
import VoleArc.Circuit.Range

/-!
# VoleArc.Circuit.Wires — message wires and lifted nibbles

The in-circuit messages are the bits of the native ones, and lifting the bits of nibbles gives
their images in the proof field.
-/

namespace VoleArc

open BitField BitString Constraint Keccak

variable {K : Type} [Field K] (F : BinaryFields K)

/-! ### Allocation of a list of bits -/

/-- The wires of a bit string. -/
abbrev bitWires (bits : List Bool) : List K := bits.map ofBool

/-- Bits of a known number, as a vector. -/
def bitVector {n : ℕ} (bits : List Bool) (h : bits.length = n) : Vector Bool n :=
  ⟨bits.toArray, by simpa using h⟩

@[simp] theorem toList_map_bitVector {n : ℕ} (bits : List Bool) (h : bits.length = n) :
    ((bitVector bits h).map ofBool : Vector K n).toList = bitWires bits := by
  rw [Vector.toList_map]
  rfl

theorem emits_alloc {n : ℕ} {bits : List Bool} (h : bits.length = n) :
    Emits (allocBits (evalBackend F) n) bits ((bitVector bits h).map ofBool : Vector K n) True :=
  emits_allocBits F (bitVector bits h)

/-- A word allocated bit by bit. -/
theorem emits_allocWord (x : U32) :
    Emits (allocBits (evalBackend F) presentationNonceBits) (lsbBits x) (wordWires x : Vector K 32)
      True := by
  have hwires : ((bitVector (lsbBits x) (length_lsbBits x)).map ofBool : Vector K 32) =
      wordWires x := by
    refine Vector.ext fun i hi => ?_
    simp only [bitVector, wordWires, lsbBits, Vector.getElem_map, Vector.getElem_ofFn,
      Vector.getElem_mk, List.getElem_toArray, List.getElem_map, List.getElem_range]
  rw [← hwires]
  exact emits_alloc F (length_lsbBits x)

/-! ### Constants and messages -/

theorem constantBytes_eq (bytes : Bytes) :
    constantBytes (evalBackend F) bytes = bitWires (bytesBits bytes) := rfl

theorem targetConstantBits_eq (target : List GF16) :
    targetConstantBits (evalBackend F) target = bitWires (gf16Bits target) := rfl

theorem length_credentialMessage (scope secret hidingNonce : Bytes32) :
    (credentialMessage scope secret hidingNonce).length = 118 := by
  simp only [credentialMessage, List.length_append, Vector.length_toList]
  rfl

theorem length_signedCredentialMessage (commitment : List GF16) (salt : Bytes32) :
    (signedCredentialMessage commitment salt).length = 18 + (commitment.length + 1) / 2 + 32 := by
  simp only [signedCredentialMessage, List.length_append, Vector.length_toList, length_packGf16]
  rfl

theorem credentialMessage_lt (scope secret hidingNonce : Bytes32) :
    (credentialMessage scope secret hidingNonce).length < rateBytes := by
  rw [length_credentialMessage]; decide

theorem signedCredentialMessage_lt (P : ArcParams) {commitment : List GF16}
    (h : commitment.length = P.M) (salt : Bytes32) :
    (signedCredentialMessage commitment salt).length < rateBytes := by
  rw [length_signedCredentialMessage, h]
  exact P.fits

theorem tagMessage_lt (secret scope : Bytes32) (nonce : U32) :
    (tagMessage secret scope nonce).length < rateBytes := by
  rw [length_tagMessage]; decide

theorem credentialWires_eq (scope secret hidingNonce : Bytes32) :
    credentialWires (evalBackend F) scope (bitWires (bytesBits secret.toList))
      (bitWires (bytesBits hidingNonce.toList)) =
      bitWires (bytesBits (credentialMessage scope secret hidingNonce)) := by
  simp only [credentialWires, constantBytes_eq, credentialMessage, bytesBits_append,
    List.map_append]

theorem tagWires_eq (secret scope : Bytes32) (nonce : U32) :
    tagWires (evalBackend F) (bitWires (bytesBits secret.toList)) scope
      (bitWires (lsbBits nonce)) = bitWires (bytesBits (tagMessage secret scope nonce)) := by
  simp only [tagWires, constantBytes_eq, tagMessage, bytesBits_append, bytesBits_u32ToLeBytes,
    List.map_append]

/-- The padding of a commitment given on any wires. -/
theorem signedCredentialWires_of_length {S W E : Type} (B : Backend K S W E) {n : ℕ}
    {commitment : List W} (h : commitment.length = 4 * n) (salt : List W) :
    signedCredentialWires B commitment salt =
      constantBytes B signedCredentialDomain ++ commitment ++
        (padBits n).map (constantBit B) ++ salt := by
  have hdomain : (constantBytes B signedCredentialDomain).length = 8 * 18 := by
    rw [constantBytes, List.length_map, length_bytesBits]
    rfl
  have hpad : (8 - (8 * 18 + 4 * n) % 8) % 8 = 4 * (n % 2) := by omega
  rw [signedCredentialWires, padToByte, List.length_append, hdomain, h, hpad, padBits,
    List.map_replicate]

/-- Padding the commitment bits to a byte is packing its nibbles. -/
theorem signedCredentialWires_eq (commitment : List GF16) (salt : Bytes32) :
    signedCredentialWires (evalBackend F) (bitWires (gf16Bits commitment))
      (bitWires (bytesBits salt.toList)) =
      bitWires (bytesBits (signedCredentialMessage commitment salt)) := by
  have hlen : (bitWires (gf16Bits commitment) : List K).length = 4 * commitment.length := by
    rw [List.length_map, length_gf16Bits]
  rw [signedCredentialWires_of_length (evalBackend F) hlen]
  simp only [constantBytes_eq, signedCredentialMessage, bytesBits_append, bytesBits_packGf16,
    List.map_append, List.append_assoc]
  rfl

/-! ### Lifting -/

/-- A nibble is the sum of its basis elements. -/
theorem nibble_eq_sum : ∀ x : BitVec 4, (⟨x⟩ : GF16) =
    ((if x.getLsbD 0 then GF16.new (1 <<< 0) else 0) +
      (if x.getLsbD 1 then GF16.new (1 <<< 1) else 0) +
      (if x.getLsbD 2 then GF16.new (1 <<< 2) else 0) +
      (if x.getLsbD 3 then GF16.new (1 <<< 3) else 0)) := by
  decide

theorem embed_ite (b : Bool) (v : GF16) :
    F.embedGf16 (if b then v else 0) = F.embedGf16 v * ofBool b := by
  cases b <;> simp

theorem liftGf16_eq (value : GF16) :
    liftGf16 (evalBackend F) F (bitWires (lsbBits value.nibble)) = F.embedGf16 value := by
  have hrange : List.range 4 = [0, 1, 2, 3] := rfl
  conv_rhs => rw [show value = ⟨value.nibble⟩ from rfl, nibble_eq_sum]
  simp only [map_add, embed_ite, lsbBits, hrange, liftGf16, List.map_cons, List.map_nil,
    List.zipIdx_cons, List.zipIdx_nil, List.foldl_cons, List.foldl_nil, evalBackend_add,
    evalBackend_scale, evalBackend_constant, zero_add]

theorem liftNibbles_eq (values : List GF16) :
    liftNibbles (evalBackend F) F (bitWires (gf16Bits values)) = values.map F.embedGf16 := by
  have hflat : (bitWires (gf16Bits values) : List K) =
      values.flatMap fun value => bitWires (lsbBits value.nibble) := by
    rw [gf16Bits_eq, List.flatMap_map]
    exact List.map_flatMap
  rw [liftNibbles, hflat, chunks_flatMap (by omega) (by simp), List.map_map]
  exact List.map_congr_left fun value _ => liftGf16_eq F value

end VoleArc
