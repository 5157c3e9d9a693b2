import VoleArc.KeccakBits

/-!
# VoleArc.Circuit.NativeBits — messages, targets and tags as bit strings

What the native side hashes and reads, in the bit order of the circuits: packed nibbles, the
target nibbles of a short message, and the tag, each as bits of one Keccak state.
-/

namespace VoleArc

open BitString Keccak

/-! ### Bytes, nibbles and integers -/

theorem bytesBits_eq (bytes : Bytes) : bytesBits bytes = bytes.flatMap lsbBits := rfl

@[simp] theorem bytesBits_append (a b : Bytes) : bytesBits (a ++ b) = bytesBits a ++ bytesBits b :=
  List.flatMap_append

@[simp] theorem length_bytesBits (bytes : Bytes) : (bytesBits bytes).length = 8 * bytes.length :=
  length_flatMap_lsbBits bytes

theorem bytesBits_injective : Function.Injective bytesBits := flatMap_lsbBits_injective (by omega)

theorem bytesBits_u32ToLeBytes (x : U32) : bytesBits (u32ToLeBytes x) = lsbBits x :=
  flatMap_lsbBits_toLeBytes (n := 4) x

theorem gf16Bits_eq (values : List GF16) :
    gf16Bits values = (values.map GF16.nibble).flatMap lsbBits := by
  rw [List.flatMap_map]
  refine List.flatMap_congr fun value _ => List.map_congr_left fun i _ => ?_
  exact GF16.getLsbD_toU8 value i

@[simp] theorem length_gf16Bits (values : List GF16) :
    (gf16Bits values).length = 4 * values.length := by
  rw [gf16Bits_eq, length_flatMap_lsbBits, List.length_map]

theorem gf16Bits_injective : Function.Injective gf16Bits := by
  intro a b h
  rw [gf16Bits_eq, gf16Bits_eq] at h
  refine List.map_injective_iff.mpr (fun x y => GF16.ext) ?_
  exact flatMap_lsbBits_injective (by omega) h

theorem exists_gf16Bits {n : ℕ} {bits : List Bool} (h : bits.length = 4 * n) :
    ∃ values : List GF16, values.length = n ∧ gf16Bits values = bits := by
  obtain ⟨xs, hn, hxs⟩ := exists_flatMap_lsbBits (w := 4) h
  refine ⟨xs.map GF16.mk, by simpa using hn, ?_⟩
  rw [gf16Bits_eq, List.map_map, ← hxs]
  congr 1
  exact (List.map_congr_left fun _ _ => rfl).trans (List.map_id xs)

theorem exists_bytes32 {bits : List Bool} (h : bits.length = 256) :
    ∃ bytes : Bytes32, bytesBits bytes.toList = bits := by
  obtain ⟨xs, hn, hxs⟩ := exists_flatMap_lsbBits (w := 8) (n := 32) h
  exact ⟨⟨xs.toArray, by simpa using hn⟩, hxs⟩

/-! ### Packing -/

theorem lsbBits_pack :
    ∀ a b : BitVec 4, lsbBits (a.setWidth 8 ||| b.setWidth 8 <<< 4) = lsbBits a ++ lsbBits b := by
  decide

/-- The zero bits that complete the last byte of `n` nibbles. -/
def padBits (n : ℕ) : List Bool := List.replicate (4 * (n % 2)) false

theorem packGf16_cons_cons (a b : GF16) (rest : List GF16) :
    packGf16 (a :: b :: rest) = (a.toU8 ||| b.toU8 <<< 4) :: packGf16 rest := by
  unfold packGf16
  rw [chunks_of_ne_nil (by omega) (by simp)]
  rfl

/-- Packing keeps the bits of the nibbles and completes the last byte with zeros. -/
theorem bytesBits_packGf16 : ∀ values : List GF16,
    bytesBits (packGf16 values) = gf16Bits values ++ padBits values.length
  | [] => rfl
  | [a] => by
    have hpack : packGf16 [a] = [a.toU8 ||| (0 : GF16).toU8 <<< 4] := by
      unfold packGf16
      rw [chunks_of_ne_nil (by omega) (by simp)]
      rfl
    rw [hpack, bytesBits_eq, gf16Bits_eq]
    simp only [List.flatMap_cons, List.flatMap_nil, List.append_nil, List.map_cons, List.map_nil]
    exact lsbBits_pack a.nibble 0
  | a :: b :: rest => by
    have hlen : (a :: b :: rest).length % 2 = rest.length % 2 := Nat.add_mod_right _ 2
    rw [packGf16_cons_cons, padBits, hlen, ← padBits, gf16Bits_eq, bytesBits_eq]
    simp only [List.flatMap_cons, List.map_cons, List.append_assoc]
    rw [← bytesBits_eq, bytesBits_packGf16 rest, gf16Bits_eq]
    exact (congrArg (· ++ _) (lsbBits_pack a.nibble b.nibble)).trans (List.append_assoc ..)

@[simp] theorem length_packGf16 (values : List GF16) :
    (packGf16 values).length = (values.length + 1) / 2 := by
  have h := congrArg List.length (bytesBits_packGf16 values)
  rw [length_bytesBits, List.length_append, length_gf16Bits, padBits, List.length_replicate] at h
  omega

/-- Nibbles read from a byte string two to a byte are its first bits. -/
theorem gf16Bits_eq_take {f : ℕ → GF16} {n : ℕ} {bytes : Bytes} (hlen : 4 * n ≤ 8 * bytes.length)
    (hf : ∀ q < n, ∀ r < 4,
      (f q).nibble.getLsbD r = (bytes.getD (q / 2) 0).getLsbD (4 * (q % 2) + r)) :
    gf16Bits ((List.range n).map f) = (bytesBits bytes).take (4 * n) := by
  refine List.ext_getElem? fun i => ?_
  by_cases hi : i < 4 * n
  · have hq : i / 4 < n := by omega
    have hr : i % 4 < 4 := Nat.mod_lt _ (by omega)
    have hb : i / 4 / 2 < bytes.length := by omega
    have hsum : 4 * (i / 4) + i % 4 = i := by omega
    have hsum' : 8 * (i / 4 / 2) + (4 * (i / 4 % 2) + i % 4) = i := by omega
    have hleft := getElem?_flatMap_lsbBits (((List.range n).map f).map GF16.nibble) (i := i / 4) hr
    have hright := getElem?_flatMap_lsbBits bytes (i := i / 4 / 2)
      (by omega : 4 * (i / 4 % 2) + i % 4 < 8)
    rw [hsum] at hleft
    rw [hsum'] at hright
    rw [gf16Bits_eq, hleft, List.getElem?_take_of_lt hi, bytesBits_eq, hright,
      List.getElem?_eq_getElem hb]
    simp only [List.getElem?_map, List.getElem?_range hq, Option.map_some, hf _ hq _ hr,
      List.getD_eq_getElem _ _ hb]
  · rw [List.getElem?_eq_none (by simp; omega), List.getElem?_eq_none (by simp; omega)]

/-! ### Nibbles of a state -/

/-- Nibble `q` of a state. -/
def stateNibble (s : State) (q : ℕ) : GF16 :=
  ⟨BitVec.ofFnLE fun r : Fin 4 => (stateBits s).toList.getD (4 * q + r) false⟩

/-- The first `m` nibbles of a state. -/
def stateNibbles (m : ℕ) (s : State) : List GF16 := (List.range m).map (stateNibble s)

theorem getLsbD_stateNibble (s : State) (q : ℕ) {r : ℕ} (hr : r < 4) :
    (stateNibble s q).nibble.getLsbD r = (stateBits s).toList.getD (4 * q + r) false := by
  simp only [stateNibble, BitVec.getLsbD_ofFnLE, hr, dite_true]

@[simp] theorem length_stateNibbles (m : ℕ) (s : State) : (stateNibbles m s).length = m := by
  simp [stateNibbles]

theorem gf16Bits_stateNibbles {m : ℕ} (hm : m ≤ 400) (s : State) :
    gf16Bits (stateNibbles m s) = (stateBits s).toList.take (4 * m) := by
  refine List.ext_getElem? fun i => ?_
  by_cases hi : i < 4 * m
  · have hsum : 4 * (i / 4) + i % 4 = i := by omega
    have hq : i / 4 < m := by omega
    have hi' : i < (stateBits s).toList.length := by rw [Vector.length_toList]; omega
    have hbits := getElem?_flatMap_lsbBits ((stateNibbles m s).map GF16.nibble) (i := i / 4)
      (j := i % 4) (Nat.mod_lt _ (by omega))
    rw [hsum] at hbits
    rw [gf16Bits_eq, hbits, List.getElem?_take_of_lt hi, List.getElem?_eq_getElem hi']
    simp only [stateNibbles, List.map_map, List.getElem?_map, List.getElem?_range hq,
      Option.map_some, Function.comp_apply, getLsbD_stateNibble s _ (Nat.mod_lt i (by omega)), hsum,
      List.getD_eq_getElem _ _ hi']
  · rw [List.getElem?_eq_none (by simp; omega), List.getElem?_eq_none (by simp; omega)]

theorem getLsbD_lowNibble : ∀ r < 4, (0x0f : U8).getLsbD r = true := by decide

theorem gf16Bits_outputNibbles {m : ℕ} {output : Bytes} (h : 4 * m ≤ 8 * output.length) :
    gf16Bits (outputNibbles m output) = (bytesBits output).take (4 * m) := by
  refine gf16Bits_eq_take h fun q _ r hr => ?_
  rw [GF16.getLsbD_new _ hr, BitVec.getLsbD_and, BitVec.getLsbD_ushiftRight, getLsbD_lowNibble r hr,
    Bool.and_true]

theorem gf16Bits_targetNibbles (m : ℕ) (message : Bytes) :
    gf16Bits (targetNibbles m message) =
      (bytesBits (shake256 message ((m + 1) / 2))).take (4 * m) := by
  have hle : 4 * m ≤ 8 * (shake256 message ((m + 1) / 2)).length := by
    rw [length_shake256]
    omega
  exact gf16Bits_outputNibbles hle

/-- The target of a short message is read off the state it ends in. -/
theorem targetNibbles_eq {m : ℕ} {message : Bytes} (h : message.length < rateBytes)
    (hm : (m + 1) / 2 < rateBytes) :
    targetNibbles m message = stateNibbles m (finalState message) := by
  have hm' : m ≤ 400 := by rw [rateBytes] at hm; omega
  have hle : 4 * m ≤ 8 * ((m + 1) / 2) := by omega
  refine gf16Bits_injective ?_
  rw [gf16Bits_targetNibbles, gf16Bits_stateNibbles hm', bytesBits_eq,
    flatMap_lsbBits_shake256 h hm, List.take_take, Nat.min_eq_left hle]

theorem length_tagMessage (secret scope : Bytes32) (nonce : U32) :
    (tagMessage secret scope nonce).length = 83 := by
  simp [tagMessage]
  rfl

/-- The tag is the first 256 bits of the state its message ends in. -/
theorem bytesBits_deriveTag (secret scope : Bytes32) (nonce : U32) :
    bytesBits (deriveTag secret scope nonce).toList =
      (stateBits (finalState (tagMessage secret scope nonce))).toList.take 256 := by
  have h : (tagMessage secret scope nonce).length < rateBytes := by
    rw [length_tagMessage]; decide
  exact flatMap_lsbBits_shake256 h (n := 32) (by decide)

end VoleArc
