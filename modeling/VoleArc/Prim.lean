import VoleArc.Lib.BitString

/-!
# VoleArc.Prim — machine integers, byte strings and GF(16) nibbles

`u8`, `u32` and `u64` are bit vectors, `[u8; n]` is a `Vector`, `Vec<u8>` and `&[u8]` are lists.
A `GF16` value is the nibble the field crate stores; its addition is exclusive or.
-/

namespace VoleArc

open BitString

abbrev U8 := BitVec 8
abbrev U32 := BitVec 32
abbrev U64 := BitVec 64

/-- `Vec<u8>` and `&[u8]`. -/
abbrev Bytes := List U8

/-- `[u8; 32]`: contexts, scopes, secrets, nonces, salts and tags. -/
abbrev Bytes32 := Vector U8 32

/-! ### Little-endian conversions -/

/-- `x.to_le_bytes()` for an integer of `n` bytes. -/
def toLeBytes (n : ℕ) (x : BitVec (8 * n)) : Bytes :=
  (List.range n).map fun i => (x >>> (8 * i)).setWidth 8

/-- `from_le_bytes`: byte `0` is the least significant. -/
def fromLeBytes (n : ℕ) (bytes : Bytes) : BitVec (8 * n) :=
  bytes.foldr (fun b acc => (acc <<< 8) ||| b.setWidth (8 * n)) 0

@[simp] theorem length_toLeBytes (n : ℕ) (x : BitVec (8 * n)) : (toLeBytes n x).length = n := by
  simp [toLeBytes]

theorem getLsbD_fromLeBytes {n : ℕ} {bytes : Bytes} (h : bytes.length = n) (i : ℕ) :
    (fromLeBytes n bytes).getLsbD i = (bytes.getD (i / 8) 0).getLsbD (i % 8) := by
  have key : ∀ (bs : Bytes) (i : ℕ), i < 8 * n → bs.length ≤ n →
      (fromLeBytes n bs).getLsbD i = (bs.getD (i / 8) 0).getLsbD (i % 8) := by
    intro bs
    induction bs with
    | nil => intro i _ _; simp [fromLeBytes]
    | cons b bs ih =>
      intro i hi hlen
      simp only [List.length_cons] at hlen
      have hfold : fromLeBytes n (b :: bs) =
          (fromLeBytes n bs <<< 8) ||| b.setWidth (8 * n) := rfl
      rw [hfold, BitVec.getLsbD_or, BitVec.getLsbD_shiftLeft, BitVec.getLsbD_setWidth]
      by_cases hi8 : i < 8
      · have h0 : i / 8 = 0 := by omega
        simp [hi8, hi, h0, Nat.mod_eq_of_lt hi8]
      · obtain ⟨j, rfl⟩ : ∃ j, i = j + 8 := ⟨i - 8, by omega⟩
        have hdiv : (j + 8) / 8 = j / 8 + 1 := by omega
        have hmod : (j + 8) % 8 = j % 8 := by omega
        simp [hi8, hi, hdiv, hmod, ih j (by omega) (by omega)]
  by_cases hi : i < 8 * n
  · exact key bytes i hi h.le
  · rw [BitVec.getLsbD_of_ge _ _ (by omega), List.getD_eq_default _ _ (by omega)]
    simp

theorem fromLeBytes_toLeBytes {n : ℕ} (x : BitVec (8 * n)) :
    fromLeBytes n (toLeBytes n x) = x := by
  apply BitVec.eq_of_getLsbD_eq
  intro i hi
  rw [getLsbD_fromLeBytes (by simp)]
  have hdiv : i / 8 < n := by omega
  have hsum : 8 * (i / 8) + i % 8 = i := by omega
  simp [toLeBytes, List.getD_eq_getElem?_getD, hdiv, hsum, Nat.mod_lt]

theorem toLeBytes_fromLeBytes {n : ℕ} {bytes : Bytes} (h : bytes.length = n) :
    toLeBytes n (fromLeBytes n bytes) = bytes := by
  refine List.ext_getElem (by simp [h]) fun i h₁ h₂ => ?_
  apply BitVec.eq_of_getLsbD_eq
  intro j hj
  have hdiv : (8 * i + j) / 8 = i := by omega
  have hmod : (8 * i + j) % 8 = j := by omega
  simp [toLeBytes, getLsbD_fromLeBytes h, hj, hdiv, hmod, List.getElem?_eq_getElem h₂]

theorem toLeBytes_injective (n : ℕ) : Function.Injective (toLeBytes n) :=
  Function.LeftInverse.injective fromLeBytes_toLeBytes

/-- `x.to_le_bytes()` of a `u32`. -/
def u32ToLeBytes (x : U32) : Bytes := toLeBytes 4 x

/-- `u32::from_le_bytes`. -/
def u32FromLeBytes (bytes : Bytes) : U32 := fromLeBytes 4 bytes

/-- `x.to_le_bytes()` of a `u64`. -/
def u64ToLeBytes (x : U64) : Bytes := toLeBytes 8 x

/-- `u64::from_le_bytes`. -/
def u64FromLeBytes (bytes : Bytes) : U64 := fromLeBytes 8 bytes

@[simp] theorem length_u32ToLeBytes (x : U32) : (u32ToLeBytes x).length = 4 :=
  length_toLeBytes 4 x

@[simp] theorem length_u64ToLeBytes (x : U64) : (u64ToLeBytes x).length = 8 :=
  length_toLeBytes 8 x

/-- The bits of an integer's little-endian bytes are its own bits, low first. -/
theorem flatMap_lsbBits_toLeBytes {n : ℕ} (x : BitVec (8 * n)) :
    (toLeBytes n x).flatMap lsbBits = lsbBits x := by
  refine List.ext_getElem? fun i => ?_
  by_cases hi : i < 8 * n
  · have hsum : 8 * (i / 8) + i % 8 = i := by omega
    have hdiv : i / 8 < n := by omega
    rw [← hsum, getElem?_flatMap_lsbBits _ (by omega), hsum, getElem?_lsbBits x hi]
    simp [toLeBytes, hdiv, hsum, Nat.mod_lt]
  · rw [List.getElem?_eq_none (by simp; omega), List.getElem?_eq_none (by simp; omega)]

/-! ### GF(16) nibbles -/

/-- An element of GF(16), as the nibble of its coefficients. -/
structure GF16 where
  nibble : BitVec 4
  deriving DecidableEq, Repr

namespace GF16

/-- `GF16::new(byte)`: the low four bits. -/
def new (byte : U8) : GF16 := ⟨byte.setWidth 4⟩

/-- `value.to_u8()`. -/
def toU8 (value : GF16) : U8 := value.nibble.setWidth 8

@[ext] theorem ext {a b : GF16} (h : a.nibble = b.nibble) : a = b := by
  cases a; cases b; simp_all

theorem getLsbD_new (byte : U8) {i : ℕ} (hi : i < 4) :
    (new byte).nibble.getLsbD i = byte.getLsbD i := by
  simp [new, hi]

theorem getLsbD_toU8 (value : GF16) (i : ℕ) :
    value.toU8.getLsbD i = value.nibble.getLsbD i := by
  by_cases hi : i < 8
  · simp [toU8, hi]
  · rw [BitVec.getLsbD_of_ge _ _ (by omega), BitVec.getLsbD_of_ge _ _ (by omega)]

@[simp] theorem new_toU8 (value : GF16) : new value.toU8 = value := by
  ext1
  simp [new, toU8]

theorem toU8_injective : Function.Injective toU8 := Function.LeftInverse.injective new_toU8

instance : Zero GF16 := ⟨⟨0⟩⟩
instance : Add GF16 := ⟨fun a b => ⟨a.nibble ^^^ b.nibble⟩⟩
instance : Neg GF16 := ⟨id⟩

@[simp] theorem nibble_zero : (0 : GF16).nibble = 0 := rfl
@[simp] theorem nibble_add (a b : GF16) : (a + b).nibble = a.nibble ^^^ b.nibble := rfl

instance : AddCommGroup GF16 where
  add_assoc a b c := GF16.ext (by simp [BitVec.xor_assoc])
  zero_add a := GF16.ext (by simp)
  add_zero a := GF16.ext (by simp)
  add_comm a b := GF16.ext (by simp [BitVec.xor_comm])
  neg_add_cancel a := GF16.ext (BitVec.xor_self)
  nsmul := nsmulRec
  zsmul := zsmulRec

end GF16

end VoleArc
