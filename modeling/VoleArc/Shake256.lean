import VoleArc.Circuit.KeccakRound
import VoleArc.Circuit.Sponge
import VoleArc.Lib.Fips202

/-!
# VoleArc.Shake256 — native SHAKE256 is the one FIPS 202 defines

A native state and a FIPS 202 state array have the same bits.  Under this correspondence a native
round is `Rnd`, the padded absorption of whole blocks and a remainder is that of the padded bit
string, and squeezing chunk by chunk reads the same stream.
-/

namespace VoleArc

open BitString Keccak

/-! ### The permutation -/

/-- The state array with the bits of a native state. -/
def stateArray (s : State) : Fips202.StateArray := fun x y z => (s.get (lane (y, x))).getLsbD z

theorem toArray_stateBits (s : State) : Fips202.toArray (stateBits s) = stateArray s := by
  funext x y z
  have hlane : 64 * (5 * y.val + x.val) + z.val = 64 * (lane (y, x)).val + z.val := by
    show _ = 64 * (x.val + 5 * y.val) + z.val
    omega
  have hbound : 64 * (lane (y, x)).val + z.val < 1600 := by omega
  have hbit := get_stateBits s ⟨64 * (lane (y, x)).val + z.val, hbound⟩
  rw [stateBit_mk] at hbit
  unfold Fips202.toArray stateArray
  rw [← hbit, Vector.get_eq_getElem]
  simp only [hlane]

theorem ofArray_stateArray (s : State) : Fips202.ofArray (stateArray s) = stateBits s := by
  refine Vector.ext fun i hi => ?_
  have hlane : lane (⟨i / 64 / 5, by omega⟩, ⟨i / 64 % 5, by omega⟩) = ⟨i / 64, by omega⟩ := by
    ext
    show i / 64 % 5 + 5 * (i / 64 / 5) = i / 64
    omega
  simp only [Fips202.ofArray, stateArray, stateBits, Vector.getElem_ofFn, hlane, stateBit]

/-- Subtraction of `z` coordinates, as the rotations of the code index it. -/
theorem val_sub (z : Fin 64) {r : ℕ} (hr : r < 64) :
    (z - Fin.ofNat 64 r).val = (z.val + 64 - r) % 64 := by
  rw [Fin.val_sub, Fin.val_ofNat, Nat.mod_eq_of_lt hr]
  congr 1
  omega

theorem getLsbD_columnLanes (s : State) (x : Fin 5) (z : Fin 64) :
    ((columnLanes s).get x).getLsbD z = Fips202.columnParity (stateArray s) x z := by
  rw [columnLanes, Vector.get_ofFn]
  simp only [BitVec.getLsbD_xor]
  rfl

theorem stateArray_thetaLanes (s : State) :
    stateArray (thetaLanes s) = Fips202.theta (stateArray s) := by
  funext x y z
  have hprev : x + 4 = x - 1 := by revert x; decide
  have hz : (z - 1).val = (z.val + 64 - 1) % 64 := val_sub z (r := 1) (by omega)
  unfold stateArray Fips202.theta
  rw [get_thetaLanes, BitVec.getLsbD_xor, BitVec.getLsbD_xor,
    getLsbD_rotateLeft_lane _ (by omega) z.isLt, ← hz, getLsbD_columnLanes, getLsbD_columnLanes,
    hprev, Bool.xor_assoc]
  rfl

/-- The table of rotations is the walk of `rho`. -/
theorem rhoOffset_mod : ∀ x y : Fin 5, Fips202.rhoOffset x y % 64 = RHO.get (lane (y, x)) := by
  decide

theorem stateArray_piRhoLanes (s : State) :
    stateArray (piRhoLanes s) = Fips202.pi (Fips202.rho (stateArray s)) := by
  funext x y z
  have hoffset : Fin.ofNat 64 (Fips202.rhoOffset (x + 3 * y) x) =
      Fin.ofNat 64 (RHO.get (lane (x, x + 3 * y))) := by
    ext
    rw [Fin.val_ofNat, Fin.val_ofNat, rhoOffset_mod, Nat.mod_eq_of_lt (RHO_lt _)]
  unfold stateArray Fips202.pi Fips202.rho
  rw [← targetLane_sourceLane, get_piRhoLanes, getLsbD_rotateLeft_lane _ (RHO_lt _) z.isLt, hoffset]
  show _ = (s.get (lane (x, x + 3 * y))).getLsbD
    (z - Fin.ofNat 64 (RHO.get (lane (x, x + 3 * y)))).val
  rw [val_sub z (RHO_lt _)]
  rfl

theorem stateArray_chiLanes (s : State) :
    stateArray (chiLanes s) = Fips202.chi (stateArray s) := by
  funext x y z
  unfold stateArray Fips202.chi
  rw [get_chiLanes, BitVec.getLsbD_xor, BitVec.getLsbD_and, BitVec.getLsbD_not, Bool.xor_true,
    decide_eq_true z.isLt, Bool.true_and]

/-- The table of round constants is what the shift register generates. -/
theorem roundConstant_eq : ∀ i : Fin 24,
    (List.range 64).map RC[i.val].getLsbD = Fips202.roundConstant i := by
  decide +kernel

/-- A native round is `Rnd`. -/
theorem stateArray_round (s : State) (i : Fin 24) :
    stateArray (Keccak.round s RC[i.val]) = Fips202.rnd (stateArray s) i := by
  funext x y z
  have hsteps : stateArray (chiLanes (piRhoLanes (thetaLanes s))) =
      Fips202.chi (Fips202.pi (Fips202.rho (Fips202.theta (stateArray s)))) := by
    rw [stateArray_chiLanes, stateArray_piRhoLanes, stateArray_thetaLanes]
  have hconstant : (Fips202.roundConstant i).getD z false = RC[i.val].getLsbD z := by
    rw [← roundConstant_eq, List.getD_eq_getElem _ _ (by simp), List.getElem_map,
      List.getElem_range]
  have hzero : lane (y, x) = 0 ↔ x = 0 ∧ y = 0 := by revert x y; decide
  unfold Fips202.rnd Fips202.iota
  rw [← hsteps, hconstant]
  unfold stateArray
  rw [get_round, BitVec.getLsbD_xor]
  by_cases h : x = 0 ∧ y = 0
  · rw [if_pos h, if_pos (hzero.mpr h)]
  · have hbit : (0 : U64).getLsbD z = false := BitVec.getLsbD_zero
    rw [if_neg h, if_neg (mt hzero.mp h), hbit, Bool.xor_false]

/-- The native permutation is Keccak-f[1600]. -/
theorem stateBits_keccakF (s : State) : stateBits (keccakF s) = Fips202.keccakF (stateBits s) := by
  have hRC : RC.toList = (List.finRange 24).map fun i => RC[i.val] := by decide
  have hrange : List.range 24 = (List.finRange 24).map Fin.val := by decide
  have hrounds : stateArray (keccakF s) = (List.range 24).foldl Fips202.rnd (stateArray s) := by
    rw [keccakF, hRC, hrange, List.foldl_map, List.foldl_map]
    exact (List.foldl_hom stateArray fun s i => (stateArray_round s i).symm).symm
  rw [Fips202.keccakF, toArray_stateBits, ← hrounds, ofArray_stateArray]

/-! ### The round in the circuit -/

/-- The index of the circuit is `rho` followed by `pi`, on every state array. -/
theorem get_ofArray_pi_rho (A : Fips202.StateArray) (i : Fin 1600) :
    (Fips202.ofArray (Fips202.pi (Fips202.rho A))).get i =
      (Fips202.ofArray A).get (piRhoIndex.get i) := by
  have hA : stateArray (stateOfBits (Fips202.ofArray A)) = A := by
    rw [← toArray_stateBits, stateBits_stateOfBits, Fips202.toArray_ofArray]
  rw [← hA, ← stateArray_piRhoLanes, ofArray_stateArray, ofArray_stateArray, get_stateBits,
    get_stateBits, stateBit_piRhoLanes]

section Circuit

open BitField

variable {K : Type} [Field K]

theorem ofBool_eq_zero_or_one (b : Bool) : (ofBool b : K) = 0 ∨ (ofBool b : K) = 1 := by
  cases b
  · exact Or.inl rfl
  · exact Or.inr rfl

/-- Wires in `{0, 1}` are the bits of a state. -/
theorem exists_stateWires {v : Vector K 1600} (h : ∀ i, v.get i = 0 ∨ v.get i = 1) :
    ∃ state, v = stateWires state := by
  classical
  refine ⟨stateOfBits (Vector.ofFn fun i => decide (v.get i = 1)), Vector.ext fun i hi => ?_⟩
  rw [stateWires, stateBits_stateOfBits, Vector.getElem_map, Vector.getElem_ofFn]
  change v.get ⟨i, hi⟩ = _
  rcases h ⟨i, hi⟩ with h | h <;> simp [h]

/-- On wires in `{0, 1}` the round on expressions is the native round of the state they are the bits
of, and gives wires in `{0, 1}` again; its index is the permutation `pi` after `rho`; and rounds
compose, up to the whole permutation. -/
theorem keccakRoundExpr_exact (F : BinaryFields K) :
    (∀ (state : State) (roundConstant : U64),
      keccakRoundExpr (evalBackend F) ((stateBits state).map ofBool) roundConstant =
        (stateBits (Keccak.round state roundConstant)).map ofBool) ∧
    (∀ (v : Vector K 1600) (roundConstant : U64), (∀ i, v.get i = 0 ∨ v.get i = 1) →
      (∃ state, v = (stateBits state).map ofBool) ∧
      ∀ i, (keccakRoundExpr (evalBackend F) v roundConstant).get i = 0 ∨
        (keccakRoundExpr (evalBackend F) v roundConstant).get i = 1) ∧
    Function.Bijective piRhoIndex.get ∧
    (∀ (A : Fips202.StateArray) (i : Fin 1600),
      (Fips202.ofArray (Fips202.pi (Fips202.rho A))).get i =
        (Fips202.ofArray A).get (piRhoIndex.get i)) ∧
    (∀ (state : State) (i : Fin 1600),
      stateBit (piRhoLanes state) i = stateBit state (piRhoIndex.get i)) ∧
    (∀ (state : State) (constants : List U64),
      constants.foldl (keccakRoundExpr (evalBackend F)) ((stateBits state).map ofBool) =
        (stateBits (constants.foldl Keccak.round state)).map ofBool) ∧
    ∀ state : State,
      RC.toList.foldl (keccakRoundExpr (evalBackend F)) ((stateBits state).map ofBool) =
        (stateBits (keccakF state)).map ofBool := by
  have := F.charP
  have hround := keccakRoundExpr_stateWires F
  have hrounds : ∀ (state : State) (constants : List U64),
      constants.foldl (keccakRoundExpr (evalBackend F)) (stateWires state) =
        stateWires (constants.foldl Keccak.round state) := by
    intro state constants
    induction constants generalizing state with
    | nil => rfl
    | cons roundConstant constants ih =>
      rw [List.foldl_cons, List.foldl_cons, hround, ih]
  refine ⟨hround, fun v roundConstant hv => ?_, piRhoIndex_bijective, get_ofArray_pi_rho,
    stateBit_piRhoLanes, hrounds, fun state => hrounds state RC.toList⟩
  obtain ⟨state, rfl⟩ := exists_stateWires hv
  refine ⟨⟨state, rfl⟩, fun i => ?_⟩
  rw [hround]
  simp only [stateWires, Vector.get_eq_getElem, Vector.getElem_map]
  exact ofBool_eq_zero_or_one _

end Circuit

/-! ### Bits of byte strings -/

theorem bytesBits_take (bytes : Bytes) (n : ℕ) :
    bytesBits (bytes.take n) = (bytesBits bytes).take (8 * n) := by
  rcases Nat.le_total n bytes.length with h | h
  · conv_rhs => rw [← List.take_append_drop n bytes, bytesBits_append]
    rw [List.take_left' (by rw [length_bytesBits, List.length_take, Nat.min_eq_left h])]
  · rw [List.take_of_length_le h, List.take_of_length_le (by rw [length_bytesBits]; omega)]

theorem getD_bytesBits (bytes : Bytes) (i : ℕ) :
    (bytesBits bytes).getD i false = (bytes.getD (i / 8) 0).getLsbD (i % 8) := by
  have hsum : 8 * (i / 8) + i % 8 = i := by omega
  have hbit := getElem?_flatMap_lsbBits bytes (i := i / 8) (j := i % 8) (Nat.mod_lt _ (by omega))
  rw [hsum, ← bytesBits_eq] at hbit
  rw [List.getD_eq_getElem?_getD, hbit]
  by_cases h : i / 8 < bytes.length
  · rw [List.getElem?_eq_getElem h, List.getD_eq_getElem _ _ h]
    rfl
  · rw [List.getElem?_eq_none (by omega), List.getD_eq_default _ _ (by omega)]
    simp

/-- Lists of one length with the same bits, the missing ones read as zero. -/
theorem ext_getD {a b : List Bool} (hlen : a.length = b.length)
    (h : ∀ i < a.length, a.getD i false = b.getD i false) : a = b := by
  refine List.ext_getElem hlen fun i hi hi' => ?_
  have hbit := h i hi
  rwa [List.getD_eq_getElem _ _ hi, List.getD_eq_getElem _ _ hi'] at hbit

/-! ### Blocks -/

/-- The whole chunks of a byte string are its front. -/
theorem flatMap_chunks (n : ℕ) (bytes : Bytes) : ∀ k, n * k ≤ bytes.length →
    ((List.range k).flatMap fun i => List.ofFn fun j : Fin n => bytes.getD (n * i + j) 0) =
      bytes.take (n * k)
  | 0, _ => by simp
  | k + 1, h => by
    have hk : n * k + n ≤ bytes.length := by rw [Nat.mul_succ] at h; exact h
    have hlast : (List.ofFn fun j : Fin n => bytes.getD (n * k + j) 0) =
        (bytes.drop (n * k)).take n := by
      refine List.ext_getElem (by simp; omega) fun j hj hj' => ?_
      rw [List.length_ofFn] at hj
      rw [List.getElem_ofFn, List.getElem_take, List.getElem_drop,
        List.getD_eq_getElem _ _ (by omega)]
    rw [List.range_succ, List.flatMap_append, flatMap_chunks n bytes k (by omega),
      List.flatMap_singleton, hlast, Nat.mul_succ, List.take_add]

/-- The chunks and the remainder make up the byte string. -/
theorem asChunks_append {n : ℕ} (bytes : Bytes) :
    (asChunks n bytes).1.flatMap Vector.toList ++ (asChunks n bytes).2 = bytes := by
  have hfront := flatMap_chunks n bytes (bytes.length / n) (Nat.mul_div_le _ _)
  unfold asChunks
  simp only [List.flatMap_map, Vector.toList_ofFn]
  rw [hfront, List.take_append_drop]

theorem length_asChunks_snd {n : ℕ} (hn : 0 < n) (bytes : Bytes) :
    (asChunks n bytes).2.length < n := by
  have hmod := Nat.mod_lt bytes.length hn
  have hdiv := Nat.div_add_mod bytes.length n
  unfold asChunks
  rw [List.length_drop]
  omega

/-! ### Padding -/

/-- The padding of a message of whole blocks and `q` bytes. -/
theorem pad10star1_eq (k : ℕ) {q : ℕ} (hq : q < 136) :
    Sponge.pad10star1 1088 (8 * (136 * k + q) + 4) =
      [true] ++ List.replicate (1082 - 8 * q) false ++ [true] := by
  have hzeros : ((-((8 * (136 * k + q) + 4 : ℕ) : ℤ) - 2) % (1088 : ℕ)).toNat = 1082 - 8 * q := by
    omega
  rw [Sponge.pad10star1, hzeros]

/-- The suffix and padding of a remainder, as one run of ones, zeros and a last one. -/
def paddedBits (remainder : Bytes) : List Bool :=
  bytesBits remainder ++ (List.replicate 5 true ++
    (List.replicate (1082 - 8 * remainder.length) false ++ [true]))

theorem length_paddedBits {remainder : Bytes} (h : remainder.length < rateBytes) :
    (paddedBits remainder).length = 1088 := by
  rw [rateBytes] at h
  simp only [paddedBits, List.length_append, length_bytesBits, List.length_replicate,
    List.length_singleton]
  omega

/-- A bit of it: the remainder, five ones, zeros, and a last one. -/
theorem getD_paddedBits {remainder : Bytes} (h : remainder.length < rateBytes) {i : ℕ}
    (hi : i < 1088) :
    (paddedBits remainder).getD i false =
      ((bytesBits remainder).getD i false ^^
        decide (i / 8 = remainder.length ∧ i % 8 < 5) ^^ decide (i / 8 = 135 ∧ i % 8 = 7)) := by
  rw [rateBytes] at h
  have hlen := length_bytesBits remainder
  have hlast : (i / 8 = 135 ∧ i % 8 = 7) ↔ i = 1087 := by omega
  unfold paddedBits
  simp only [hlast]
  by_cases hmsg : i < 8 * remainder.length
  · have h₁ : ¬ (i / 8 = remainder.length ∧ i % 8 < 5) := by omega
    have h₂ : ¬ i = 1087 := by omega
    rw [List.getD_append _ _ _ _ (by omega), decide_eq_false h₁, decide_eq_false h₂, Bool.xor_false,
      Bool.xor_false]
  rw [List.getD_append_right _ _ _ _ (by omega), hlen,
    List.getD_eq_default (bytesBits remainder) _ (by omega), Bool.false_xor]
  by_cases hones : i < 8 * remainder.length + 5
  · have h₁ : i / 8 = remainder.length ∧ i % 8 < 5 := by omega
    have h₂ : ¬ i = 1087 := by omega
    rw [List.getD_append _ _ _ _ (by rw [List.length_replicate]; omega),
      List.getD_replicate _ (by omega), decide_eq_true h₁, decide_eq_false h₂]
    rfl
  have h₁ : ¬ (i / 8 = remainder.length ∧ i % 8 < 5) := by omega
  rw [List.getD_append_right _ _ _ _ (by rw [List.length_replicate]; omega), List.length_replicate,
    decide_eq_false h₁, Bool.false_xor]
  by_cases hend : i = 1087
  · rw [List.getD_append_right _ _ _ _ (by rw [List.length_replicate]; omega),
      List.length_replicate, decide_eq_true hend, hend]
    have hzero : 1087 - 8 * remainder.length - 5 - (1082 - 8 * remainder.length) = 0 := by omega
    rw [hzero]
    rfl
  · rw [List.getD_append _ _ _ _ (by rw [List.length_replicate]; omega),
      List.getD_replicate _ (by omega), decide_eq_false hend]

/-- The padded last block has these bits, also where `0x1f` and the last bit share a byte. -/
theorem bytesBits_padSingleBlock {remainder : Bytes} (h : remainder.length < rateBytes) :
    bytesBits (padSingleBlock remainder).toList = paddedBits remainder := by
  have hlen : (bytesBits (padSingleBlock remainder).toList).length = 1088 := by
    rw [length_bytesBits, Vector.length_toList]
    rfl
  refine ext_getD (hlen.trans (length_paddedBits h).symm) fun i hi => ?_
  rw [hlen] at hi
  have hq : i / 8 < rateBytes := by rw [rateBytes]; omega
  rw [getD_paddedBits h hi, getD_bytesBits, getD_bytesBits,
    getLsbD_padSingleBlock _ hq (Nat.mod_lt _ (by omega))]

/-- The blocks of a padded message. -/
theorem chunks_padded (message : Bytes) :
    chunks 1088 (bytesBits message ++ [true, true, true, true] ++
        Sponge.pad10star1 1088 (bytesBits message ++ [true, true, true, true]).length) =
      (asChunks rateBytes message).1.map (fun block => bytesBits block.toList) ++
        [bytesBits (padSingleBlock (asChunks rateBytes message).2).toList] := by
  have hrem := length_asChunks_snd (n := rateBytes) (by decide) message
  have hwhole := asChunks_append (n := rateBytes) message
  have hbits : bytesBits message =
      ((asChunks rateBytes message).1.flatMap fun block => bytesBits block.toList) ++
        bytesBits (asChunks rateBytes message).2 := by
    conv_lhs => rw [← hwhole]
    rw [bytesBits_append, bytesBits_eq ((asChunks rateBytes message).1.flatMap _),
      List.flatMap_assoc]
    rfl
  have hlen : (bytesBits message ++ [true, true, true, true]).length =
      8 * (136 * (asChunks rateBytes message).1.length + (asChunks rateBytes message).2.length) +
        4 := by
    conv_lhs => rw [← hwhole]
    rw [List.length_append, length_bytesBits, List.length_append, List.length_flatMap]
    simp only [Vector.length_toList, List.map_const', List.sum_replicate, smul_eq_mul,
      List.length_cons, List.length_nil, rateBytes]
    omega
  have hpadded : bytesBits (asChunks rateBytes message).2 ++ ([true, true, true, true] ++
      ([true] ++ (List.replicate (1082 - 8 * (asChunks rateBytes message).2.length) false ++
        [true]))) = paddedBits (asChunks rateBytes message).2 := by
    rw [paddedBits, ← List.append_assoc [true, true, true, true]]
    rfl
  rw [hlen, pad10star1_eq _ hrem, hbits]
  simp only [List.append_assoc]
  rw [hpadded,
    chunks_flatMap_append (by omega) (fun block : Vector U8 rateBytes => by
      rw [length_bytesBits, Vector.length_toList]; rfl), bytesBits_padSingleBlock hrem,
    ← List.append_nil (paddedBits _), chunks_append (by omega) (length_paddedBits hrem), chunks_nil,
    List.append_nil]

/-! ### Absorbing and squeezing -/

theorem stateBits_replicate : stateBits (Vector.replicate 25 0) = Vector.replicate 1600 false := by
  refine Vector.ext fun i hi => ?_
  rw [stateBits, Vector.getElem_ofFn, Vector.getElem_replicate]
  simp [stateBit, Vector.get_eq_getElem]

theorem stateBits_absorbBlock (s : State) (block : Vector U8 rateBytes) :
    stateBits (absorbBlock s block) =
      Sponge.xorBlock (stateBits s) (bytesBits block.toList) := by
  refine Vector.ext fun i hi => ?_
  have hbit := get_stateBits s ⟨i, hi⟩
  rw [Vector.get_eq_getElem] at hbit
  rw [Sponge.getElem_xorBlock, getD_bytesBits, hbit, stateBits, Vector.getElem_ofFn,
    stateBit_absorbBlock]

/-- The loop over whole blocks absorbs their bits. -/
theorem stateBits_foldl_absorb (blocks : List (Vector U8 rateBytes)) (s : State) :
    stateBits (blocks.foldl (fun s block => keccakF (absorbBlock s block)) s) =
      Sponge.absorb Fips202.keccakF (stateBits s)
        (blocks.map fun block => bytesBits block.toList) := by
  rw [Sponge.absorb, List.foldl_map]
  refine (List.foldl_hom stateBits fun s block => ?_).symm
  rw [stateBits_keccakF, stateBits_absorbBlock]

/-- Squeezing chunk by chunk reads the stream of states, one of them for the last chunk. -/
theorem bytesBits_squeeze {rem : ℕ} (hrem : rem < rateBytes) :
    ∀ (full : ℕ) (s : State), bytesBits (Keccak.squeeze full rem s) =
      (Sponge.stream Fips202.keccakF Fips202.rate (full + 1) (stateBits s)).take
        (8 * (rateBytes * full + rem))
  | 0, s => by
    have hle : 8 * (rateBytes * 0 + rem) ≤ Fips202.rate := by
      rw [rateBytes] at hrem ⊢
      show _ ≤ 1088
      omega
    have hbound : rem ≤ 200 := by rw [rateBytes] at hrem; omega
    rw [Keccak.squeeze, bytesBits_eq, flatMap_lsbBits_chunkBytes _ hbound, Sponge.stream,
      Sponge.stream, List.append_nil, List.take_take, Nat.min_eq_left hle, Nat.mul_zero,
        Nat.zero_add]
  | full + 1, s => by
    have hfirst : bytesBits (chunkBytes s rateBytes) = (stateBits s).toList.take Fips202.rate :=
      flatMap_lsbBits_chunkBytes s (by decide)
    have hlen : ((stateBits s).toList.take Fips202.rate).length = 1088 := by
      rw [List.length_take, Vector.length_toList]
      rfl
    have htotal : 8 * (rateBytes * (full + 1) + rem) = 1088 + 8 * (rateBytes * full + rem) := by
      rw [rateBytes]
      omega
    have hstream : Sponge.stream Fips202.keccakF Fips202.rate (full + 1 + 1) (stateBits s) =
        (stateBits s).toList.take Fips202.rate ++
          Sponge.stream Fips202.keccakF Fips202.rate (full + 1)
            (Fips202.keccakF (stateBits s)) := rfl
    rw [Keccak.squeeze, bytesBits_append, bytesBits_squeeze hrem full, hfirst, stateBits_keccakF,
      hstream, htotal, ← hlen, List.take_length_add_append]

/-! ### SHAKE256 -/

theorem bytesBits_shake256_eq (message : Bytes) (outputLen : ℕ) :
    bytesBits (shake256 message outputLen) =
      Fips202.shake256 (bytesBits message) (8 * outputLen) := by
  have hlast := Nat.mod_lt outputLen (show 0 < rateBytes by decide)
  have hsum : rateBytes * (outputLen / rateBytes) + outputLen % rateBytes = outputLen :=
    Nat.div_add_mod _ _
  have henough : 8 * outputLen ≤ (outputLen / rateBytes + 1) * Fips202.rate := by
    have hrate : Fips202.rate = 8 * rateBytes := rfl
    rw [hrate, Nat.mul_left_comm, Nat.add_mul, Nat.mul_comm _ rateBytes]
    omega
  have habsorbed : stateBits (keccakF (absorbBlock ((asChunks rateBytes message).1.foldl
      (fun s block => keccakF (absorbBlock s block)) (Vector.replicate 25 0))
        (padSingleBlock (asChunks rateBytes message).2))) =
      Sponge.absorb Fips202.keccakF (Vector.replicate 1600 false)
        (chunks Fips202.rate (bytesBits message ++ [true, true, true, true] ++
          Sponge.pad10star1 Fips202.rate
            (bytesBits message ++ [true, true, true, true]).length)) := by
    have hrate : Fips202.rate = 1088 := rfl
    rw [hrate, chunks_padded, ← stateBits_replicate, Sponge.absorb, List.foldl_append,
      stateBits_keccakF, stateBits_absorbBlock, stateBits_foldl_absorb]
    rfl
  unfold shake256 Fips202.shake256 Sponge.sponge
  simp only
  rw [bytesBits_squeeze hlast, habsorbed, hsum,
    Sponge.squeeze_eq Fips202.keccakF (by decide) (by decide) henough]

/-- Native SHAKE256 is the SHAKE256 of FIPS 202 for every message and output length, and a shorter
output is a prefix of a longer one. -/
theorem shake256_eq_fips202 :
    (∀ (message : Bytes) (outputLen : ℕ), bytesBits (shake256 message outputLen) =
      Fips202.shake256 (bytesBits message) (8 * outputLen)) ∧
    ∀ (message : Bytes) (a b : ℕ), a ≤ b → shake256 message a <+: shake256 message b := by
  refine ⟨bytesBits_shake256_eq, ?_⟩
  intro message a b h
  have hbits := Fips202.shake256_prefix (bytesBits message) (Nat.mul_le_mul_left 8 h)
  rw [← bytesBits_shake256_eq, ← bytesBits_shake256_eq, List.prefix_iff_eq_take, length_bytesBits,
    length_shake256, ← bytesBits_take] at hbits
  rw [bytesBits_injective hbits]
  exact List.take_prefix _ _

/-- A prefix of a two-block output. -/
theorem shake256_eq_fips202_blocks : shake256 [0x61] 136 <+: shake256 [0x61] 272 :=
  shake256_eq_fips202.2 [0x61] 136 272 (by decide)

end VoleArc
