import VoleArc.Circuit.Commitment
import VoleArc.Circuit.SingleBlock
import VoleArc.Lib.StepMappings
import VoleArc.Shake256

/-!
# VoleArc.Circuit.Checkpoints — one checkpoint is as good as the message

A Keccak round loses nothing, whatever its constant, so each state on the way through the
permutation determines the padded message it came from.  Of the checkpoints that an accepted
assignment commits to, any single one fixes the message it was made for; nothing is assumed of the
hash.
-/

namespace VoleArc

open BitString Keccak

/-! ### The permutation -/

theorem stateArray_injective : Function.Injective stateArray := by
  intro s t h
  apply stateBits_injective
  rw [← ofArray_stateArray, ← ofArray_stateArray, h]

/-- The step mappings of a round are injective one by one, and the constant cancels. -/
theorem round_injective (rc : U64) : Function.Injective fun s => Keccak.round s rc := by
  intro s t h
  have hlanes : chiLanes (piRhoLanes (thetaLanes s)) = chiLanes (piRhoLanes (thetaLanes t)) := by
    refine Vector.ext fun l hl => ?_
    have hlane : (Keccak.round s rc).get ⟨l, hl⟩ = (Keccak.round t rc).get ⟨l, hl⟩ :=
      congrArg (fun state : State => state.get ⟨l, hl⟩) h
    rw [get_round, get_round] at hlane
    exact (BitVec.xor_left_inj _).mp hlane
  have harrays := congrArg stateArray hlanes
  simp only [stateArray_chiLanes, stateArray_piRhoLanes, stateArray_thetaLanes] at harrays
  apply stateArray_injective
  apply Fips202.theta_injective
  apply Fips202.rho_injective
  apply Fips202.pi_injective
  apply Fips202.chi_injective
  exact harrays

theorem foldl_round_injective (constants : List U64) :
    Function.Injective fun s : State => constants.foldl Keccak.round s := by
  induction constants with
  | nil => exact Function.injective_id
  | cons rc constants ih => exact ih.comp (round_injective rc)

instance finite_state : Finite State := Finite.of_injective stateArray stateArray_injective

theorem round_bijective (rc : U64) : Function.Bijective fun s => Keccak.round s rc :=
  Finite.injective_iff_bijective.mp (round_injective rc)

theorem keccakF_bijective : Function.Bijective keccakF :=
  Finite.injective_iff_bijective.mp (foldl_round_injective RC.toList)

/-! ### The padded message -/

/-- The padding byte marks the end of the message. -/
theorem padSingleBlock_length_le {message message' : Bytes} (hm : message.length < rateBytes)
    (h : padSingleBlock message = padSingleBlock message') : message.length ≤ message'.length := by
  by_contra hlt
  have hbyte : (padSingleBlock message)[message.length] =
      (padSingleBlock message')[message.length] := by
    rw [h]
  have hne : ¬ message.length = message'.length := by omega
  rw [getElem_padSingleBlock _ hm, getElem_padSingleBlock _ hm, if_pos (Eq.refl message.length),
    if_neg hne, List.getD_eq_default _ _ (le_refl _), List.getD_eq_default _ _ (by omega)] at hbyte
  by_cases hlast : message.length = rateBytes - 1
  · rw [if_pos hlast] at hbyte
    exact absurd hbyte (by decide)
  · rw [if_neg hlast] at hbyte
    exact absurd hbyte (by decide)

theorem padSingleBlock_inj {message message' : Bytes} (hm : message.length < rateBytes)
    (hm' : message'.length < rateBytes) (h : padSingleBlock message = padSingleBlock message') :
    message = message' := by
  have hlen : message.length = message'.length :=
    Nat.le_antisymm (padSingleBlock_length_le hm h) (padSingleBlock_length_le hm' h.symm)
  refine List.ext_getElem hlen fun i hi hi' => ?_
  have hbyte : (padSingleBlock message)[i] = (padSingleBlock message')[i] := by
    rw [h]
  rw [getElem_padSingleBlock _ (by omega), getElem_padSingleBlock _ (by omega), ← hlen,
    List.getD_eq_getElem _ _ hi, List.getD_eq_getElem _ _ hi'] at hbyte
  exact (BitVec.xor_left_inj _).mp ((BitVec.xor_left_inj _).mp hbyte)

theorem absorbBlock_injective (s : State) : Function.Injective (absorbBlock s) := by
  intro block block' h
  refine Vector.ext fun i hi => ?_
  apply BitVec.eq_of_getLsbD_eq
  intro r hr
  have hrate : rateBytes = 136 := rfl
  have hbit : stateBit (absorbBlock s block) ⟨8 * i + r, by omega⟩ =
      stateBit (absorbBlock s block') ⟨8 * i + r, by omega⟩ := by
    rw [h]
  have hdiv : (8 * i + r) / 8 = i := by omega
  have hmod : (8 * i + r) % 8 = r := by omega
  rw [stateBit_absorbBlock, stateBit_absorbBlock] at hbit
  simp only [hdiv, hmod] at hbit
  rw [List.getD_eq_getElem _ _ (by simpa using hi), List.getD_eq_getElem _ _ (by simpa using hi)]
    at hbit
  simpa using hbit

/-- The state after any number of rounds determines the message. -/
theorem stateAfter_inj {message message' : Bytes} (hm : message.length < rateBytes)
    (hm' : message'.length < rateBytes) {rounds : ℕ}
    (h : stateAfter message rounds = stateAfter message' rounds) : message = message' :=
  padSingleBlock_inj hm hm' (absorbBlock_injective _ (foldl_round_injective _ h))

/-! ### The checkpoints of an assignment -/

section Circuits

variable {P : ArcParams} {K : Type} [Field K] (F : BinaryFields K)

/-- How many witness bits stand before the first checkpoint. -/
def AnyCircuit.checkpointsFrom : AnyCircuit P → ℕ
  | .issue _ => (secretBytes + hidingNonceBytes) * 8
  | .presentation _ =>
    4 * P.KN + (secretBytes + hidingNonceBytes + saltBytes) * 8 + 2 * presentationNonceBits

/-- The checkpoint after a group of four rounds, of the hash that comes at this place. -/
def AnyCircuit.checkpoint (circuit : AnyCircuit P) (bits : List Bool) (hash group : ℕ) :
    List Bool :=
  (bits.drop (circuit.checkpointsFrom + keccakCheckpointBits * hash + 1600 * group)).take 1600

/-- The assignment is the witness for these messages. -/
def AnyCircuit.Commits : AnyCircuit P → List Bool → List Bytes → Prop
  | .issue circuit, bits, messages => ∃ secret hidingNonce,
      bits = circuit.witness secret hidingNonce ∧
      messages = [credentialMessage circuit.credentialScope secret hidingNonce]
  | .presentation circuit, bits, messages => ∃ secrets, secrets.signature.length = P.KN ∧
      bits = circuit.witness secrets ∧
      messages = [credentialMessage circuit.credentialScope secrets.secret secrets.hidingNonce,
        signedCredentialMessage (credentialTarget P circuit.credentialScope secrets.secret
          secrets.hidingNonce) secrets.salt,
        tagMessage secrets.secret circuit.presentationScope secrets.presentationNonce]

variable {F} in
/-- An accepted assignment is the witness for some messages. -/
theorem AnyCircuit.SatisfiedBy.exists_commits {circuit : AnyCircuit P} {bits : List Bool}
    (h : circuit.SatisfiedBy F bits) : ∃ messages, circuit.Commits bits messages := by
  cases circuit with
  | issue circuit =>
    obtain ⟨secret, hidingNonce, hbits, -⟩ := exists_opening_of_satisfiedBy F h
    exact ⟨_, secret, hidingNonce, hbits, rfl⟩
  | presentation circuit =>
    have hlimit : circuit.presentationLimit ≠ 0 := by
      intro hzero
      obtain ⟨-, s, hrun, -⟩ := h
      have hbuild : circuit.build F (evalBackend F) ⟨bits, []⟩ = .error .invalidParameters := by
        unfold PresentationCircuit.build
        rw [if_pos (Or.inl hzero)]
        rfl
      rw [AnyCircuit.build, hbuild] at hrun
      cases hrun
    obtain ⟨secrets, hsig, hbits, -⟩ := exists_secrets_of_satisfiedBy F hlimit h
    exact ⟨_, secrets, hsig, hbits, rfl⟩

/-- The messages fit a rate block. -/
theorem AnyCircuit.Commits.message_lt {circuit : AnyCircuit P} {bits : List Bool}
    {messages : List Bytes} (h : circuit.Commits bits messages) {message : Bytes}
    (hmem : message ∈ messages) : message.length < rateBytes := by
  cases circuit with
  | issue circuit =>
    obtain ⟨secret, hidingNonce, -, rfl⟩ := h
    rw [List.mem_singleton.mp hmem]
    exact credentialMessage_lt _ _ _
  | presentation circuit =>
    obtain ⟨secrets, -, -, rfl⟩ := h
    simp only [List.mem_cons, List.not_mem_nil, or_false] at hmem
    rcases hmem with rfl | rfl | rfl
    · exact credentialMessage_lt _ _ _
    · exact signedCredentialMessage_lt P (length_credentialTarget _ _ _ _) _
    · exact tagMessage_lt _ _ _

/-- Their checkpoints are the end of the assignment. -/
theorem AnyCircuit.Commits.drop_eq {circuit : AnyCircuit P} {bits : List Bool}
    {messages : List Bytes}
    (h : circuit.Commits bits messages) : bits.drop circuit.checkpointsFrom =
      messages.flatMap fun message => statesBits (checkpoints message) := by
  have hsplit : ∃ front : List Bool, front.length = circuit.checkpointsFrom ∧
      bits = front ++ messages.flatMap fun message => statesBits (checkpoints message) := by
    cases circuit with
    | issue circuit =>
      obtain ⟨secret, hidingNonce, hbits, hmessages⟩ := h
      refine ⟨bytesBits secret.toList ++ bytesBits hidingNonce.toList, ?_, ?_⟩
      · rw [List.length_append, length_bytesBits, length_bytesBits, Vector.length_toList,
          Vector.length_toList]
        rfl
      · rw [hbits, hmessages, circuit.witness_eq]
        simp only [issueAssignment, List.append_assoc, List.flatMap_cons, List.flatMap_nil,
          List.append_nil]
    | presentation circuit =>
      obtain ⟨secrets, hsig, hbits, hmessages⟩ := h
      refine ⟨gf16Bits secrets.signature ++ (bytesBits secrets.secret.toList ++
        (bytesBits secrets.hidingNonce.toList ++ (bytesBits secrets.salt.toList ++
          (lsbBits secrets.presentationNonce ++ lsbBits (lessThanCarries secrets.presentationNonce
            circuit.presentationLimit))))), ?_, ?_⟩
      · simp only [List.length_append, length_gf16Bits, length_bytesBits, length_lsbBits,
          Vector.length_toList, hsig]
        show _ = 4 * P.KN + (32 + 32 + 32) * 8 + 2 * 32
        omega
      · rw [hbits, hmessages, circuit.witness_eq]
        simp only [presentationAssignment, List.append_assoc, List.flatMap_cons, List.flatMap_nil,
          List.append_nil]
  obtain ⟨front, hlength, hbits⟩ := hsplit
  rw [hbits]
  exact List.drop_left' hlength

/-- A checkpoint holds the state after its rounds. -/
theorem AnyCircuit.Commits.checkpoint_eq {circuit : AnyCircuit P} {bits : List Bool}
    {messages : List Bytes} (h : circuit.Commits bits messages) {hash group : ℕ} {message : Bytes}
    (hmessage : messages[hash]? = some message) (hgroup : group < 6) :
    circuit.checkpoint bits hash group =
      (stateBits (stateAfter message (4 * (group + 1)))).toList := by
  have hstate : (checkpoints message)[group]? = some (stateAfter message (4 * (group + 1))) := by
    rw [checkpoints_eq, List.getElem?_map, List.getElem?_range hgroup]
    rfl
  have hlength : ∀ message, (statesBits (checkpoints message)).length = keccakCheckpointBits := by
    intro message
    simp [keccakCheckpointBits]
  have hdrop := drop_flatMap_append hlength hmessage []
  rw [List.append_nil, ← h.drop_eq, List.drop_drop] at hdrop
  rw [AnyCircuit.checkpoint, ← List.drop_drop, hdrop, statesBits,
    drop_flatMap_append (fun state => Vector.length_toList) hstate,
      List.take_left' Vector.length_toList]

/-- Rounds permute the states, so every state on the way determines the message; and in assignments
that the circuits accept, issuance and presentation alike, of either suite and whatever their public
inputs, two checkpoints after the same rounds agree only if they were made for the same message. -/
theorem checkpoint_binds {P' : ArcParams} :
    (∀ rc, Function.Bijective fun s => Keccak.round s rc) ∧ Function.Bijective keccakF ∧
    (∀ message message' : Bytes, message.length < rateBytes → message'.length < rateBytes →
      ∀ rounds, stateAfter message rounds = stateAfter message' rounds ↔ message = message') ∧
    ∀ (circuit : AnyCircuit P) (circuit' : AnyCircuit P') (bits bits' : List Bool),
      circuit.SatisfiedBy F bits → circuit'.SatisfiedBy F bits' → ∃ messages messages',
        circuit.Commits bits messages ∧ circuit'.Commits bits' messages' ∧
        ∀ hash hash' message message', messages[hash]? = some message →
          messages'[hash']? = some message' → ∀ group < 6,
            (circuit.checkpoint bits hash group = circuit'.checkpoint bits' hash' group ↔
              message = message') := by
  refine ⟨round_bijective, keccakF_bijective, ?_, ?_⟩
  · exact fun message message' hm hm' rounds => ⟨stateAfter_inj hm hm', fun h => h ▸ rfl⟩
  · intro circuit circuit' bits bits' h h'
    obtain ⟨messages, hcommits⟩ := h.exists_commits
    obtain ⟨messages', hcommits'⟩ := h'.exists_commits
    refine ⟨messages, messages', hcommits, hcommits', ?_⟩
    intro hash hash' message message' hmessage hmessage' group hgroup
    rw [hcommits.checkpoint_eq hmessage hgroup, hcommits'.checkpoint_eq hmessage' hgroup]
    constructor
    · intro hstates
      exact stateAfter_inj (hcommits.message_lt (List.mem_of_getElem? hmessage))
        (hcommits'.message_lt (List.mem_of_getElem? hmessage'))
          (stateBits_injective (Vector.toList_inj.mp hstates))
    · rintro rfl
      rfl

end Circuits

end VoleArc
