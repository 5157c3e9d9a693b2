import VoleArc.Circuit.Sponge
import VoleArc.Circuit.Presentation
import VoleArc.GF2p128

/-!
# VoleArc.Circuit.SingleBlock — the in-circuit SHAKE256 is the native one

For every message that fits one rate block, whatever its length, the sponge accepts exactly the
checkpoints of the native permutation, which are its states after rounds 4, 8, .., 24, and its
output bits are those of native SHAKE256.
-/

namespace VoleArc

open BitField BitString Constraint Keccak

/-! ### Checkpoints are states of the permutation -/

/-- The native state of a padded message after its first `rounds` rounds. -/
def stateAfter (message : Bytes) (rounds : ℕ) : State :=
  (RC.toList.take rounds).foldl Keccak.round
    (absorbBlock (Vector.replicate 25 0) (padSingleBlock message))

theorem groupTrace_eq (groups : List (Fin 6)) (s : State) :
    groupTrace groups s =
      (List.range groups.length).map fun i => (groups.take (i + 1)).foldl groupRounds s := by
  induction groups generalizing s with
  | nil => rfl
  | cons group groups ih =>
    rw [groupTrace, ih, List.length_cons, List.range_succ_eq_map, List.map_cons, List.map_map]
    simp only [Function.comp_def, Nat.succ_eq_add_one, Nat.zero_add, List.take_succ_cons,
      List.take_zero, List.foldl_cons, List.foldl_nil]

/-- The first groups are the first rounds, four for each group. -/
theorem foldl_groupRounds (groups : List (Fin 6)) (s : State) :
    groups.foldl groupRounds s =
      (groups.flatMap fun group => (List.finRange 4).map fun round =>
        getElem RC (4 * group.val + round.val) (groupRound_lt group round)).foldl
          Keccak.round s := by
  rw [List.foldl_flatMap]
  simp only [List.foldl_map]
  rfl

theorem RC_take : ∀ i < 6, RC.toList.take (4 * (i + 1)) =
    ((List.finRange 6).take (i + 1)).flatMap fun group => (List.finRange 4).map fun round =>
      getElem RC (4 * group.val + round.val) (groupRound_lt group round) := by
  decide

/-- The checkpoints are the states after rounds 4, 8, .., 24. -/
theorem checkpoints_eq (message : Bytes) :
    checkpoints message = (List.range 6).map fun i => stateAfter message (4 * (i + 1)) := by
  rw [checkpoints, groupTrace_eq, List.length_finRange]
  refine List.map_congr_left fun i hi => ?_
  rw [stateAfter, RC_take i (List.mem_range.mp hi), foldl_groupRounds, absorbed]

/-- The bits of the states after rounds 4, 8, .., 24. -/
def checkpointBits (message : Bytes) : List Bool :=
  (List.range 6).flatMap fun i => (stateBits (stateAfter message (4 * (i + 1)))).toList

theorem statesBits_checkpoints (message : Bytes) :
    statesBits (checkpoints message) = checkpointBits message := by
  rw [checkpoints_eq, statesBits, List.flatMap_map]
  rfl

/-! ### Output -/

/-- Up to a whole rate block, the output of a short message is read from its final state. -/
theorem bytesBits_shake256 {message : Bytes} (h : message.length < rateBytes) {n : ℕ}
    (hn : n ≤ rateBytes) :
    bytesBits (shake256 message n) = (stateBits (finalState message)).toList.take (8 * n) := by
  rcases Nat.lt_or_eq_of_le hn with hlt | rfl
  · exact flatMap_lsbBits_shake256 h hlt
  · have hblocks : asChunks rateBytes message = ([], message) := by
      simp [asChunks, Nat.div_eq_of_lt h]
    have hone : rateBytes / rateBytes = 1 := by decide
    have hrem : rateBytes % rateBytes = 0 := by decide
    have houtput : shake256 message rateBytes = chunkBytes (finalState message) rateBytes := by
      simp only [shake256, hblocks, List.foldl_nil, hone, hrem, squeeze, chunkBytes,
        List.range_zero, List.map_nil, List.append_nil]
      rfl
    rw [houtput, bytesBits_eq, flatMap_lsbBits_chunkBytes _ (by decide)]

/-- The first `n` output bits of native SHAKE256. -/
def outputBits (message : Bytes) (n : ℕ) : List Bool :=
  (bytesBits (shake256 message ((n + 7) / 8))).take n

theorem outputBits_eq {message : Bytes} (h : message.length < rateBytes) {n : ℕ}
    (hn : n ≤ 8 * rateBytes) :
    outputBits message n = (stateBits (finalState message)).toList.take n := by
  have hle : (n + 7) / 8 ≤ rateBytes := by omega
  rw [outputBits, bytesBits_shake256 h hle, List.take_take, Nat.min_eq_left (by omega)]

/-! ### The sponge -/

theorem zip_take_length {α β : Type} (l : List α) (l' : List β) :
    (l.take l'.length).zip l' = l.zip l' := by
  have htake : (l.zip l').take l'.length = (l.take l'.length).zip (l'.take l'.length) :=
    List.take_zipWith
  rw [List.take_length, List.take_of_length_le (by rw [List.length_zip]; omega)] at htake
  exact htake.symm

/-- Asserting an output is hiding it and asserting that it agrees, bit by bit. -/
theorem shakeAssertOutput_eq {K S W E : Type} [Field K] (B : Backend K S W E)
    (message expected : List W) :
    shakeAssertOutput B message expected = (do
      let output ← shakeHiddenOutput B message expected.length
      (output.zip expected).forM fun p => assertZero B (B.add p.1 p.2)) := by
  unfold shakeAssertOutput shakeHiddenOutput
  rw [bind_assoc]
  refine bind_congr fun state => ?_
  rw [pure_bind, zip_take_length]

/-- Every assignment of the checkpoint bits is six states. -/
theorem exists_statesBits {bits : List Bool} (h : bits.length = keccakCheckpointBits) :
    ∃ cs : List State, cs.length = 6 ∧ statesBits cs = bits :=
  exists_flatMap_stateBits (n := 6) (by rw [h]; rfl)

theorem statesBits_eq_append_iff {cs : List State} {message : Bytes} :
    statesBits cs = appendKeccakCheckpoints [] message ↔ cs = checkpoints message := by
  rw [appendKeccakCheckpoints_eq, List.nil_append]
  exact ⟨fun h => statesBits_injective h, fun h => by rw [h]⟩

variable {K : Type} [Field K] (F : BinaryFields K)

/-- In the circuit SHAKE256 of a message that fits one block is the native one.  Its assertions hold
exactly on the native checkpoints, then the hidden output is the native output, and a public output
adds exactly the constraint that the bits agree. -/
theorem emits_singleBlock {message : Bytes} (h : message.length < rateBytes) {n : ℕ}
    (hn : n ≤ 8 * rateBytes) {bits : List Bool} (hbits : bits.length = keccakCheckpointBits) :
    (∃ wires : Vector K 1600,
      Emits (shakeDegree16 (evalBackend F) (bitWires (bytesBits message))) bits wires
        (bits = appendKeccakCheckpoints [] message)) ∧
    (∃ output : List Bool, output.length = n ∧
      Emits (shakeHiddenOutput (evalBackend F) (bitWires (bytesBits message)) n) bits
        (bitWires output) (bits = appendKeccakCheckpoints [] message) ∧
      (bits = appendKeccakCheckpoints [] message → output = outputBits message n)) ∧
    (∀ expected : List Bool, expected.length = n →
      shakeAssertOutput (evalBackend F) (bitWires (bytesBits message)) (bitWires expected) = (do
        let output ← shakeHiddenOutput (evalBackend F) (bitWires (bytesBits message)) n
        (output.zip (bitWires expected)).forM fun p => assertZero (evalBackend F) (p.1 + p.2)) ∧
      Emits (shakeAssertOutput (evalBackend F) (bitWires (bytesBits message)) (bitWires expected))
        bits () (bits = appendKeccakCheckpoints [] message ∧ expected = outputBits message n)) := by
  have := F.charP
  obtain ⟨cs, hcs, rfl⟩ := exists_statesBits hbits
  have hn' : n ≤ 1600 := by rw [rateBytes] at hn; omega
  refine ⟨⟨_, (emits_shakeDegree16 F h hcs).congr statesBits_eq_append_iff.symm⟩,
    ⟨(stateBits (lastState (absorbed message) cs)).toList.take n, ?_, ?_, ?_⟩, ?_⟩
  · rw [List.length_take, Vector.length_toList, Nat.min_eq_left hn']
  · exact (emits_shakeHiddenOutput F h hcs n).congr statesBits_eq_append_iff.symm
  · intro heq
    rw [statesBits_eq_append_iff.mp heq, lastState_checkpoints, outputBits_eq h hn]
  · rintro expected rfl
    refine ⟨?_, ?_⟩
    · have heq := shakeAssertOutput_eq (evalBackend F) (bitWires (bytesBits message))
        (bitWires expected)
      rw [List.length_map] at heq
      exact heq
    · refine (emits_shakeAssertOutput F h hcs hn').congr ?_
      rw [statesBits_eq_append_iff]
      refine and_congr_right fun heq => ?_
      rw [heq, lastState_checkpoints, outputBits_eq h hn]
      exact eq_comm

/-- The longest message of one block, whose `0x1f` and last bit share a byte. -/
theorem emits_singleBlock_longest : ∃ output : List Bool,
    Emits (shakeHiddenOutput (evalBackend GF2p128.binaryFields)
        (bitWires (bytesBits (List.replicate 135 0xff))) 1088)
      (appendKeccakCheckpoints [] (List.replicate 135 0xff)) (bitWires output) True ∧
    output = outputBits (List.replicate 135 0xff) 1088 := by
  have hbits : (appendKeccakCheckpoints [] (List.replicate 135 0xff)).length =
      keccakCheckpointBits := by
    rw [appendKeccakCheckpoints_eq, List.nil_append, length_statesBits, length_checkpoints]
    rfl
  have hlen : (List.replicate 135 (0xff : U8)).length < rateBytes := by
    rw [List.length_replicate]
    decide
  obtain ⟨-, ⟨output, -, hemits, houtput⟩, -⟩ := emits_singleBlock GF2p128.binaryFields hlen
    (n := 1088) (by decide) hbits
  exact ⟨output, hemits.congr (iff_of_true rfl trivial), houtput rfl⟩

end VoleArc
