import VoleArc.Circuit.Native
import Mathlib

/-!
# VoleArc.KeccakBits — the native sponge, bit by bit

The bits of a padded block, of the absorbed state and of an output chunk, and SHAKE256 of a
message that fits one block: its output is a prefix of the bits of one permuted state.
-/

namespace VoleArc

open BitString Keccak Scatter

/-! ### The bits of a state -/

theorem get_stateBits (s : State) (i : Fin 1600) : (stateBits s).get i = stateBit s i := by
  rw [stateBits, Vector.get_ofFn]

theorem stateBit_mk (s : State) (l : Fin 25) (z : Fin 64) (h : 64 * l.val + z.val < 1600) :
    stateBit s ⟨64 * l + z, h⟩ = (s.get l).getLsbD z := by
  have hl : (⟨(64 * l.val + z.val) / 64, by omega⟩ : Fin 25) = l := by ext; simp only; omega
  have hmod : (64 * l.val + z.val) % 64 = z := by omega
  rw [stateBit, hl, hmod]

theorem stateBits_injective : Function.Injective stateBits := by
  intro s t h
  refine Vector.ext fun l hl => ?_
  apply BitVec.eq_of_getLsbD_eq
  intro z hz
  have key : (stateBits s).get ⟨64 * l + z, by omega⟩ =
    (stateBits t).get ⟨64 * l + z, by omega⟩ := by
    rw [h]
  rw [get_stateBits, get_stateBits] at key
  rwa [stateBit_mk s ⟨l, hl⟩ ⟨z, hz⟩, stateBit_mk t ⟨l, hl⟩ ⟨z, hz⟩] at key

theorem bit_lt (l : Fin 25) (z : Fin 64) : 64 * l.val + z.val < 1600 := by omega

/-- The state with the given bits. -/
def stateOfBits (v : Vector Bool 1600) : State :=
  Vector.ofFn fun l : Fin 25 => BitVec.ofFnLE fun z : Fin 64 => v.get ⟨64 * l + z, bit_lt l z⟩

theorem stateBits_stateOfBits (v : Vector Bool 1600) : stateBits (stateOfBits v) = v := by
  refine Vector.ext fun i hi => ?_
  have hsum : 64 * (i / 64) + i % 64 = i := by omega
  simp [stateBits, stateBit, stateOfBits, Vector.get_eq_getElem, hsum, Nat.mod_lt]

/-- Every bit string of six states is the bits of six states. -/
theorem exists_flatMap_stateBits {n : ℕ} {bits : List Bool} (h : bits.length = 1600 * n) :
    ∃ cs : List State, cs.length = n ∧ cs.flatMap (fun s => (stateBits s).toList) = bits := by
  induction n generalizing bits with
  | zero => exact ⟨[], rfl, (List.length_eq_zero_iff.mp (by simpa using h)).symm⟩
  | succ n ih =>
    have htake : (bits.take 1600).length = 1600 := List.length_take_of_le (by omega)
    have hdrop : (bits.drop 1600).length = 1600 * n := by rw [List.length_drop]; omega
    obtain ⟨cs, hn, hcs⟩ := ih hdrop
    refine ⟨stateOfBits ⟨(bits.take 1600).toArray, by simpa using htake⟩ :: cs, by simp [hn], ?_⟩
    rw [List.flatMap_cons, stateBits_stateOfBits, hcs]
    simp

/-! ### Padding and absorbing -/

theorem getElem_xorAt {n : ℕ} (block : Vector U8 n) (i : ℕ) (c : U8) {j : ℕ} (hj : j < n) :
    (xorAt block i c)[j] = block[j] ^^^ if j = i then c else 0 := by
  unfold xorAt
  rw [Vector.getElem_setIfInBounds]
  by_cases h : i = j
  · subst h
    simp [hj]
  · have hne : ¬ j = i := fun he => h he.symm
    simp [h, hne]

/-- A byte of the padded block. -/
theorem getElem_padSingleBlock (message : Bytes) {j : ℕ} (hj : j < rateBytes) :
    (padSingleBlock message)[j] = message.getD j 0 ^^^ (if j = message.length then 0x1f else 0) ^^^
      (if j = rateBytes - 1 then 0x80 else 0) := by
  unfold padSingleBlock
  rw [getElem_xorAt, getElem_xorAt]
  congr 2
  by_cases h : j < message.length
  · exact getElem_scatter Function.injective_id (List.mem_range.mpr h) hj
  · rw [getElem_scatter_of_forall_ne hj, List.getD_eq_default _ _ (by omega)]
    · simp
    · intro i hi
      have := List.mem_range.mp hi
      simp only [id]
      omega

/-- A lane of a block, as bytes. -/
theorem asChunks_lane (block : Vector U8 rateBytes) {l : ℕ} (hl : l < 17) :
    ((asChunks 8 block.toList).1[l]?.elim [] Vector.toList) =
      List.ofFn fun j : Fin 8 => block.toList.getD (8 * l + j) 0 := by
  have hlen : rateBytes / 8 = 17 := rfl
  simp only [asChunks, Vector.length_toList, hlen, List.getElem?_map, List.getElem?_range hl,
    Option.map_some, Option.elim_some, Vector.toList_ofFn]

/-- A lane of the state after absorbing a block. -/
theorem get_absorbBlock (s : State) (block : Vector U8 rateBytes) (l : Fin 25) :
    (absorbBlock s block).get l = s.get l ^^^
      if l.val < 17 then
        u64FromLeBytes (List.ofFn fun j : Fin 8 => block.toList.getD (8 * l + j) 0)
      else 0 := by
  rw [Vector.get_eq_getElem]
  unfold absorbBlock
  by_cases h : l.val < 17
  · rw [if_pos h, ← asChunks_lane block h]
    exact (getElem_scatter (i := (⟨l, h⟩ : Fin 17)) Fin.val_injective (List.mem_finRange _)
      l.isLt).trans rfl
  · rw [if_neg h, getElem_scatter_of_forall_ne l.isLt fun i _ => by omega]
    simp [Vector.get_eq_getElem]

theorem exists_lane_offset (i : Fin 1600) : ∃ (l : Fin 25) (z : Fin 64), i.val = 64 * l + z :=
  ⟨⟨i / 64, by omega⟩, ⟨i % 64, by omega⟩, by simp only; omega⟩

/-- A bit of the state after absorbing a block. -/
theorem stateBit_absorbBlock (s : State) (block : Vector U8 rateBytes) (i : Fin 1600) :
    stateBit (absorbBlock s block) i =
      (stateBit s i ^^ (block.toList.getD (i / 8) 0).getLsbD (i % 8)) := by
  obtain ⟨i, hi⟩ := i
  obtain ⟨l, z, rfl⟩ := exists_lane_offset ⟨i, hi⟩
  have hdiv : (64 * l.val + z.val) / 8 = 8 * l + z / 8 := by omega
  have hmod : (64 * l.val + z.val) % 8 = z % 8 := by omega
  rw [stateBit_mk, stateBit_mk, get_absorbBlock, BitVec.getLsbD_xor]
  simp only [hdiv, hmod]
  congr 1
  by_cases h : l.val < 17
  · have hz : z.val / 8 < 8 := by omega
    rw [if_pos h, u64FromLeBytes, getLsbD_fromLeBytes (by simp),
      List.getD_eq_getElem _ 0 (by simpa using hz), List.getElem_ofFn]
  · have hlen : block.toList.length ≤ 8 * l + z / 8 := by
      rw [Vector.length_toList, rateBytes]; omega
    rw [if_neg h, List.getD_eq_default _ _ hlen]
    simp

/-! ### Squeezing -/

/-- A byte of an output chunk, bit by bit. -/
theorem getLsbD_chunkBytes (s : State) {n q r : ℕ} (hq : q < n) (hn : n ≤ 200) (hr : r < 8) :
    (chunkBytes s n)[q]?.map (·.getLsbD r) = some (stateBit s ⟨8 * q + r, by omega⟩) := by
  have hl : q / 8 < 25 := by omega
  have hdiv : (8 * q + r) / 64 = q / 8 := by omega
  have hmod : (8 * q + r) % 64 = 8 * (q % 8) + r := by omega
  have hlane : s[q / 8]?.getD 0 = s.get ⟨q / 8, hl⟩ := by
    rw [Vector.getElem?_eq_getElem hl, Option.getD_some, Vector.get_eq_getElem]
  have hbyte : (toLeBytes 8 (s.get ⟨q / 8, hl⟩)).getD (q % 8) 0 =
      (s.get ⟨q / 8, hl⟩ >>> (8 * (q % 8))).setWidth 8 := by
    simp [toLeBytes, List.getD_eq_getElem?_getD, Nat.mod_lt]
  simp only [chunkBytes, List.getElem?_map, List.getElem?_range hq, Option.map_some, hlane,
    u64ToLeBytes, hbyte, stateBit, hdiv, hmod, BitVec.getLsbD_setWidth, hr, decide_true,
    Bool.true_and, BitVec.getLsbD_ushiftRight]

/-- The bits of an output chunk are the first bits of the state. -/
theorem flatMap_lsbBits_chunkBytes (s : State) {n : ℕ} (hn : n ≤ 200) :
    (chunkBytes s n).flatMap lsbBits = (stateBits s).toList.take (8 * n) := by
  refine List.ext_getElem? fun i => ?_
  by_cases hi : i < 8 * n
  · have hsum : 8 * (i / 8) + i % 8 = i := by omega
    have hi' : i < 1600 := by omega
    have hbit : (stateBits s).toList[i]? = some (stateBit s ⟨i, hi'⟩) := by
      rw [← get_stateBits s ⟨i, hi'⟩, List.getElem?_eq_getElem (by rwa [Vector.length_toList]),
        Vector.getElem_toList, Vector.get_eq_getElem]
    have hbyte := getElem?_flatMap_lsbBits (chunkBytes s n) (i := i / 8) (j := i % 8)
      (Nat.mod_lt _ (by omega))
    rw [getLsbD_chunkBytes s (by omega) hn (Nat.mod_lt _ (by omega))] at hbyte
    simp only [hsum] at hbyte
    rw [List.getElem?_take_of_lt hi, hbit, hbyte]
  · rw [List.getElem?_eq_none (by simp; omega), List.getElem?_eq_none (by simp; omega)]

/-- The state after absorbing a short message. -/
def absorbed (message : Bytes) : State :=
  absorbBlock (Vector.replicate 25 0) (padSingleBlock message)

/-- The state a short message ends in. -/
def finalState (message : Bytes) : State := keccakF (absorbed message)

/-- A message shorter than the rate is absorbed as one block. -/
theorem shake256_of_lt {message : Bytes} (h : message.length < rateBytes) {n : ℕ}
    (hn : n < rateBytes) : shake256 message n = chunkBytes (finalState message) n := by
  have hblocks : asChunks rateBytes message = ([], message) := by
    simp [asChunks, Nat.div_eq_of_lt h]
  simp only [shake256, hblocks, List.foldl_nil, Nat.div_eq_of_lt hn, Nat.mod_eq_of_lt hn, squeeze,
    finalState, absorbed]

/-- The output bits of a short message are the first bits of its final state. -/
theorem flatMap_lsbBits_shake256 {message : Bytes} (h : message.length < rateBytes) {n : ℕ}
    (hn : n < rateBytes) :
    (shake256 message n).flatMap lsbBits =
      (stateBits (finalState message)).toList.take (8 * n) := by
  have hle : n ≤ 200 := by rw [rateBytes] at hn; omega
  rw [shake256_of_lt h hn, flatMap_lsbBits_chunkBytes _ hle]

end VoleArc
