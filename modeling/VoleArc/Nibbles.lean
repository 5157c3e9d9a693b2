import VoleArc.Wire
import VoleArc.Circuit.Wires

/-!
# VoleArc.Nibbles — the nibble codecs agree

Two packers, the decoder, the reader of hash outputs and the wire layout of a signed commitment each
spell out an order of nibbles.  They are one order, for lists of even and of odd length
(`nibbleCodecs_agree`).
-/

namespace VoleArc

open BitField BitString Constraint Keccak Reader Wire

/-! ### Reading a hash output -/

theorem credentialTarget_eq_outputNibbles (P : ArcParams) (scope secret hidingNonce : Bytes32) :
    credentialTarget P scope secret hidingNonce =
      outputNibbles P.M
        (shake256 (credentialMessage scope secret hidingNonce) ((P.M + 1) / 2)) := rfl

theorem signedCredentialTarget_eq_outputNibbles (P : ArcParams) (commitment : List GF16)
    (salt : Bytes32) :
    signedCredentialTarget P commitment salt =
      outputNibbles P.M (shake256 (signedCredentialMessage commitment salt) ((P.M + 1) / 2)) := rfl

theorem gf16Bits_append (a b : List GF16) : gf16Bits (a ++ b) = gf16Bits a ++ gf16Bits b :=
  List.flatMap_append

theorem gf16Bits_take {m : ℕ} {values : List GF16} (h : m ≤ values.length) :
    gf16Bits (values.take m) = (gf16Bits values).take (4 * m) := by
  have hlen : (gf16Bits (values.take m)).length = 4 * m := by
    rw [length_gf16Bits, List.length_take_of_le h]
  conv_rhs => rw [← List.take_append_drop m values, gf16Bits_append, List.take_left' hlen]

/-- Reading nibbles off a packed list, whatever bytes follow, gives its first ones. -/
theorem outputNibbles_packGf16 {m : ℕ} {values : List GF16} (h : m ≤ values.length)
    (suffix : Bytes) : outputNibbles m (packGf16 values ++ suffix) = values.take m := by
  have hlen : 4 * m ≤ (gf16Bits values).length := by rw [length_gf16Bits]; omega
  refine gf16Bits_injective ?_
  rw [gf16Bits_outputNibbles (by rw [List.length_append, length_packGf16]; omega),
    gf16Bits_take h, bytesBits_append, bytesBits_packGf16, List.append_assoc,
    List.take_append_of_le_length hlen]

/-! ### Decoding -/

/-- The decoder inverts the packer in front of any bytes, and moves over the packed bytes only. -/
theorem nibbles_packNibbles {values : List GF16} {c : Decoder} {suffix : Bytes}
    (h : c.rest = packNibbles values ++ suffix) :
    ∃ c' : Decoder, nibbles values.length c = .ok (values, c') ∧ c'.input = c.input ∧
      c'.offset = c.offset + (values.length + 1) / 2 ∧ c'.rest = suffix := by
  have hlen : (packNibbles values).length = (values.length + 1) / 2 := by
    rw [packNibbles_eq, length_packGf16]
  have hle : c.offset + (packNibbles values).length ≤ c.input.length := by
    rw [c.offset_add_le_iff, h, List.length_append]
    omega
  have hrest : (c.advance (packNibbles values).length hle).rest = suffix := by
    rw [Cursor.rest_advance, h, List.drop_left]
  refine ⟨c.advance (packNibbles values).length hle, ?_, rfl, ?_, hrest⟩
  · refine (codes_nibbles values.length c values _).mpr ⟨rfl, packNibbles values, ?_, rfl, rfl⟩
    rw [hrest, h]
  · rw [← hlen]
    rfl

/-- What the decoder accepts is the packing of what it returns. -/
theorem packNibbles_of_nibbles {n : ℕ} {values : List GF16} {c c' : Decoder}
    (h : nibbles n c = .ok (values, c')) :
    values.length = n ∧ c'.input = c.input ∧ c'.offset = c.offset + (n + 1) / 2 ∧
      c.rest = packNibbles values ++ c'.rest := by
  obtain ⟨hinput, bs, hrest, hlen, rfl⟩ := (codes_nibbles n c values c').mp h
  have hoffset := Cursor.offset_of_rest hinput hrest
  rw [packNibbles_eq, length_packGf16, hlen] at hoffset
  exact ⟨hlen, hinput, hoffset, hrest⟩

/-! ### All codecs -/

/-- Every list of nibbles, of even or odd length, has one packed form: both packers write it, the
decoder reads it and nothing else, its bits are the bits of the list up to a byte boundary as the
circuit lays them out, and the two targets read hash outputs by the same order. -/
theorem nibbleCodecs_agree {K : Type} [Field K] (F : BinaryFields K) :
    (∀ values : List GF16, packNibbles values = packGf16 values) ∧
    (∀ (values : List GF16) (c : Decoder) (suffix : Bytes), c.rest = packNibbles values ++ suffix →
      ∃ c' : Decoder, nibbles values.length c = .ok (values, c') ∧ c'.input = c.input ∧
        c'.offset = c.offset + (values.length + 1) / 2 ∧ c'.rest = suffix) ∧
    (∀ (n : ℕ) (values : List GF16) (c c' : Decoder), nibbles n c = .ok (values, c') →
      values.length = n ∧ c'.input = c.input ∧ c'.offset = c.offset + (n + 1) / 2 ∧
        c.rest = packNibbles values ++ c'.rest) ∧
    (∀ values : List GF16, bytesBits (packGf16 values) =
      gf16Bits values ++ List.replicate ((8 - 4 * values.length % 8) % 8) false) ∧
    (∀ (S W E : Type) (B : Backend K S W E) (values : List GF16) (commitment salt : List W),
      commitment.length = (gf16Bits values).length →
      signedCredentialWires B commitment salt =
        constantBytes B signedCredentialDomain ++ commitment ++
          (List.replicate ((8 - 4 * values.length % 8) % 8) false).map (constantBit B) ++ salt) ∧
    (∀ (values : List GF16) (salt : Bytes32),
      signedCredentialWires (evalBackend F) ((gf16Bits values).map ofBool)
          ((bytesBits salt.toList).map ofBool) =
        (bytesBits signedCredentialDomain ++ bytesBits (packGf16 values) ++
          bytesBits salt.toList).map ofBool) ∧
    (∀ (m : ℕ) (values : List GF16) (suffix : Bytes), m ≤ values.length →
      outputNibbles m (packGf16 values ++ suffix) = values.take m) ∧
    (∀ (P : ArcParams) (scope secret hidingNonce : Bytes32),
      credentialTarget P scope secret hidingNonce = outputNibbles P.M
        (shake256 (credentialMessage scope secret hidingNonce) ((P.M + 1) / 2))) ∧
    (∀ (P : ArcParams) (commitment : List GF16) (salt : Bytes32),
      signedCredentialTarget P commitment salt = outputNibbles P.M
        (shake256 (signedCredentialMessage commitment salt) ((P.M + 1) / 2))) ∧
    ∀ (n : ℕ) (bytes : Bytes), unpackNibbles n bytes = outputNibbles n bytes := by
  have hpad : ∀ n, padBits n = List.replicate ((8 - 4 * n % 8) % 8) false := by
    intro n
    rw [padBits]
    congr 1
    omega
  refine ⟨packNibbles_eq, fun values c suffix h => nibbles_packNibbles h,
    fun n values c c' h => packNibbles_of_nibbles h, fun values => ?_,
    fun S W E B values commitment salt h => ?_, fun values salt => ?_,
    fun m values suffix h => outputNibbles_packGf16 h suffix, credentialTarget_eq_outputNibbles,
    signedCredentialTarget_eq_outputNibbles, unpackNibbles_eq_outputNibbles⟩
  · rw [← hpad]
    exact bytesBits_packGf16 values
  · rw [length_gf16Bits] at h
    rw [← hpad, signedCredentialWires_of_length B h]
  · rw [signedCredentialWires_eq F values salt]
    simp only [signedCredentialMessage, bytesBits_append]

end VoleArc
