import VoleArc.Circuit.KeccakRound
import VoleArc.Circuit.NativeBits

/-!
# VoleArc.Circuit.Sponge — what the in-circuit SHAKE256 asserts

Evaluated on a message given by its bits, `shakeDegree16` reads six committed states and asserts
that they are the checkpoints of the native permutation (`emits_shakeDegree16`).  Under that
assertion the last one is the state native SHAKE256 reads its output from
(`lastState_checkpoints`).
-/

namespace VoleArc

open BitField BitString Constraint Keccak Scatter

/-! ### Checkpoints -/

theorem groupRound_lt (group : Fin 6) (round : Fin 4) : 4 * group.val + round.val < 24 := by omega

/-- The four rounds of a group. -/
def groupRounds (s : State) (group : Fin 6) : State :=
  (List.finRange 4).foldl (fun s round =>
    Keccak.round s (getElem RC (4 * group.val + round.val) (groupRound_lt group round))) s

/-- The states after each group. -/
def groupTrace : List (Fin 6) → State → List State
  | [], _ => []
  | group :: groups, s => groupRounds s group :: groupTrace groups (groupRounds s group)

/-- The last of a list of committed states, or the state before the first one. -/
def lastState (s : State) (cs : List State) : State := cs.getLastD s

@[simp] theorem lastState_nil (s : State) : lastState s [] = s := rfl

@[simp] theorem lastState_cons (s c : State) (cs : List State) :
    lastState s (c :: cs) = lastState c cs := by
  cases cs <;> rfl

@[simp] theorem length_groupTrace (groups : List (Fin 6)) (s : State) :
    (groupTrace groups s).length = groups.length := by
  induction groups generalizing s with
  | nil => rfl
  | cons group groups ih => simp [groupTrace, ih]

theorem lastState_groupTrace (groups : List (Fin 6)) (s : State) :
    lastState s (groupTrace groups s) = groups.foldl groupRounds s := by
  induction groups generalizing s with
  | nil => rfl
  | cons group groups ih => rw [groupTrace, lastState_cons, ih, List.foldl_cons]

/-- The bits of a list of states. -/
def statesBits (cs : List State) : List Bool := cs.flatMap fun c => (stateBits c).toList

/-- The states committed for a short message: one after every fourth round. -/
def checkpoints (message : Bytes) : List State := groupTrace (List.finRange 6) (absorbed message)

@[simp] theorem length_checkpoints (message : Bytes) : (checkpoints message).length = 6 := by
  simp [checkpoints]

/-- The constants of a group's rounds, with the numbers of the rounds. -/
def groupConstants (group : Fin 6) : List (U64 × ℕ) := (List.finRange 4).map fun round =>
  (getElem RC (4 * group.val + round.val) (groupRound_lt group round), 4 * group.val + round.val)

theorem RC_toList : RC.toList.zipIdx = (List.finRange 6).flatMap groupConstants := by decide

/-- The constants of the groups, one group after the other, are all constants in order. -/
theorem RC_toList_eq : RC.toList = ((List.finRange 6).flatMap groupConstants).map Prod.fst := by
  rw [← RC_toList, List.zipIdx_map_fst]

/-- The last checkpoint is the state after all rounds. -/
theorem lastState_checkpoints (message : Bytes) :
    lastState (absorbed message) (checkpoints message) = finalState message := by
  rw [checkpoints, lastState_groupTrace, finalState, keccakF]
  rw [RC_toList_eq, List.foldl_map, List.foldl_flatMap]
  simp only [groupConstants, List.foldl_map]
  rfl

/-- One step of the generator's loop over the rounds. -/
def checkpointStep (acc : List Bool × State) (entry : U64 × ℕ) : List Bool × State :=
  let state := Keccak.round acc.2 entry.1
  (if (entry.2 + 1) % 4 = 0 then acc.1 ++ (stateBits state).toList else acc.1, state)

/-- Over one group the loop appends the state after its fourth round. -/
theorem foldl_checkpointStep_group (acc : List Bool × State) (group : Fin 6) :
    (groupConstants group).foldl checkpointStep acc =
      (acc.1 ++ (stateBits (groupRounds acc.2 group)).toList, groupRounds acc.2 group) := by
  have hrange : List.finRange 4 = [0, 1, 2, 3] := rfl
  have h0 : ¬ (4 * group.val + 0 + 1) % 4 = 0 := by omega
  have h1 : ¬ (4 * group.val + 1 + 1) % 4 = 0 := by omega
  have h2 : ¬ (4 * group.val + 2 + 1) % 4 = 0 := by omega
  have h3 : (4 * group.val + 3 + 1) % 4 = 0 := by omega
  have hval : (3 : Fin 4).val = 3 := rfl
  simp only [groupConstants, hrange, List.map_cons, List.map_nil, List.foldl_cons, List.foldl_nil,
    groupRounds, checkpointStep, Fin.isValue, Fin.val_zero, Fin.val_one, Fin.val_two, hval,
      h0, h1, h2, h3, if_false, if_true]

/-- Over a list of groups it appends their trace. -/
theorem foldl_checkpointStep (groups : List (Fin 6)) (acc : List Bool × State) :
    (groups.flatMap groupConstants).foldl checkpointStep acc =
      (acc.1 ++ statesBits (groupTrace groups acc.2),
        lastState acc.2 (groupTrace groups acc.2)) := by
  induction groups generalizing acc with
  | nil => simp [groupTrace, statesBits]
  | cons group groups ih =>
    rw [List.flatMap_cons, List.foldl_append, foldl_checkpointStep_group, ih]
    simp [groupTrace, statesBits]

/-- The generator appends exactly the checkpoints. -/
theorem appendKeccakCheckpoints_eq (witness : List Bool) (message : Bytes) :
    appendKeccakCheckpoints witness message = witness ++ statesBits (checkpoints message) := by
  have hfold : appendKeccakCheckpoints witness message =
      (RC.toList.zipIdx.foldl checkpointStep (witness, absorbed message)).1 := rfl
  rw [hfold, RC_toList, foldl_checkpointStep]
  rfl

/-! ### Allocation and assertions -/

variable {K : Type} [Field K] (F : BinaryFields K)

/-- A builder evaluated on an assignment. -/
abbrev Eval (K α : Type) := Builder K VoleithError α

theorem emits_witnessBit (b : Bool) :
    Emits (witnessBit (evalBackend F)) [b] (ofBool b : K) True :=
  fun rest as => ⟨[], by simp [witnessBit, evalBackend], by simp⟩

theorem emits_allocBits : ∀ {n : ℕ} (v : Vector Bool n),
    Emits (allocBits (evalBackend F) n) v.toList (v.map ofBool : Vector K n) True
  | 0, v => by
    have hv : v = #v[] := Vector.eq_empty
    subst hv
    have hmap : (#v[] : Vector Bool 0).map (ofBool : Bool → K) = #v[] := Vector.eq_empty
    rw [hmap]
    exact Emits.pure (K := K) #v[]
  | n + 1, v => by
    have hpush : v.pop.push v.back = v := Vector.push_pop_back v
    have hlist : v.toList = v.pop.toList ++ ([v.back] ++ []) := by
      conv_lhs => rw [← hpush]
      rw [Vector.toList_push, List.append_nil]
    rw [hlist]
    refine (emits_allocBits v.pop).bind_alloc (Emits.bind_alloc (emits_witnessBit F v.back) ?_)
    have hmap : (v.pop.map ofBool).push (ofBool v.back : K) = v.map ofBool := by
      rw [← Vector.map_push, hpush]
    rw [hmap]
    exact Emits.pure _

theorem emits_assertZero (x : K) : Emits (assertZero (evalBackend F) x) [] () (x = 0) :=
  fun _ _ => ⟨[x], rfl, by simp⟩

theorem emits_assertExprZero (x : K) : Emits (assertExprZero (evalBackend F) x) [] () (x = 0) :=
  fun _ _ => ⟨[x], rfl, by simp⟩

theorem emits_assertQuadFormSystem (x : List K) (sys : QuadFormSystem) (target : List K) :
    Emits (modify ((evalBackend F).assertQuadFormSystem x sys target) : Eval K Unit) [] ()
      (sys.lifted F x = target) :=
  fun _ _ => ⟨quadFormResiduals F sys x target, rfl, quadFormResiduals_eq_zero F sys x target⟩

/-! ### The padded message -/

/-- A bit of the padded block, by byte and offset. -/
theorem getLsbD_padSingleBlock (message : Bytes) {q r : ℕ} (hq : q < rateBytes) (hr : r < 8) :
    ((padSingleBlock message).toList.getD q 0).getLsbD r =
      ((message.getD q 0).getLsbD r ^^ decide (q = message.length ∧ r < 5) ^^
        decide (q = 135 ∧ r = 7)) := by
  have h1f : ∀ r < 8, (0x1f : U8).getLsbD r = decide (r < 5) := by decide
  have h80 : ∀ r < 8, (0x80 : U8).getLsbD r = decide (r = 7) := by decide
  have hrate : rateBytes - 1 = 135 := rfl
  have hone : (if q = message.length then 0x1f else 0 : U8).getLsbD r =
      decide (q = message.length ∧ r < 5) := by
    split_ifs with he
    · rw [h1f r hr]; simp [he]
    · simp [he]
  have htwo : (if q = 135 then 0x80 else 0 : U8).getLsbD r = decide (q = 135 ∧ r = 7) := by
    split_ifs with he
    · rw [h80 r hr]; simp [he]
    · simp [he]
  rw [List.getD_eq_getElem _ _ (by rwa [Vector.length_toList]), Vector.getElem_toList,
    getElem_padSingleBlock _ hq, BitVec.getLsbD_xor, BitVec.getLsbD_xor, hrate, hone, htwo]

/-- A bit of the absorbed state: the message, `0x1f`, zeros, and a last bit. -/
theorem stateBit_absorbed {message : Bytes} (h : message.length < rateBytes) (i : Fin 1600) :
    stateBit (absorbed message) i =
      if i.val = 1087 then true
      else if i.val < 8 * message.length then (message.getD (i / 8) 0).getLsbD (i % 8)
      else decide (i.val < 8 * message.length + 5) := by
  obtain ⟨i, hi⟩ := i
  have hzero : stateBit (Vector.replicate 25 0) ⟨i, hi⟩ = false := by
    simp [stateBit, Vector.get_eq_getElem]
  rw [absorbed, stateBit_absorbBlock, hzero, Bool.false_xor]
  rw [rateBytes] at h
  simp only
  by_cases hblock : i / 8 < rateBytes
  · have hblock' : i / 8 < 136 := hblock
    rw [getLsbD_padSingleBlock _ hblock (Nat.mod_lt _ (by omega))]
    by_cases hmsg : i < 8 * message.length
    · have h₁ : ¬ i / 8 = message.length := by omega
      have h₂ : ¬ i = 1087 := by omega
      have h₃ : ¬ (i / 8 = 135 ∧ i % 8 = 7) := by omega
      simp [h₁, h₂, h₃, hmsg]
    · rw [List.getD_eq_default _ _ (by omega), if_neg hmsg]
      have h₁ : (i / 8 = message.length ∧ i % 8 < 5) ↔ i < 8 * message.length + 5 := by omega
      have h₂ : (i / 8 = 135 ∧ i % 8 = 7) ↔ i = 1087 := by omega
      simp only [h₁, h₂]
      split_ifs with he
      · have h₃ : ¬ i < 8 * message.length + 5 := by omega
        rw [decide_eq_false h₃, decide_eq_true he]
        simp
      · simp [he]
  · have hblock' : ¬ i / 8 < 136 := hblock
    have h₁ : ¬ i = 1087 := by omega
    have h₂ : ¬ i < 8 * message.length := by omega
    have h₃ : ¬ i < 8 * message.length + 5 := by omega
    rw [List.getD_eq_default _ _ (by rw [Vector.length_toList]; omega)]
    simp [h₁, h₂, h₃]

/-- The initial sponge state of a message's bits is the absorbed padded block. -/
theorem initialSpongeState_bytesBits {message : Bytes} (h : message.length < rateBytes) :
    initialSpongeState (evalBackend F) ((bytesBits message).map (ofBool : Bool → K)) =
      stateWires (absorbed message) := by
  have hpad : (List.range 8).filter (fun bit => (0x1f : U8).getLsbD bit) = List.range 5 := by decide
  have hlen : ((bytesBits message).map (ofBool : Bool → K)).length = 8 * message.length := by simp
  have hdiv : 8 * message.length / 8 = message.length := by omega
  have hlt : 8 * message.length < 1087 := by rw [rateBytes] at h; omega
  refine Vector.ext fun i hi => ?_
  have hwire : (stateWires (absorbed message) : Vector K 1600)[i] =
      ofBool (stateBit (absorbed message) ⟨i, hi⟩) := by
    simp only [stateWires, Vector.getElem_map]
    exact congrArg ofBool (get_stateBits (absorbed message) ⟨i, hi⟩)
  rw [hwire, stateBit_absorbed h]
  unfold initialSpongeState
  simp only [hpad, hlen, hdiv, evalBackend_constant]
  have hid : ∀ j, id j = 0 + j := fun j => (Nat.zero_add j).symm
  rw [Vector.getElem_set, getElem_scatter_range (k := 8 * message.length) (fun j => by omega) hi,
    getElem_scatter_range hid hi]
  by_cases hlast : 1087 = i
  · subst hlast
    simp [rateBytes]
  have hne : ¬ rateBytes * 8 - 1 = i := hlast
  have hne' : ¬ i = 1087 := fun he => hlast he.symm
  simp only [if_neg hne, if_neg hne']
  by_cases hmsg : i < 8 * message.length
  · have hpad' : ¬ (8 * message.length ≤ i ∧ i < 8 * message.length + 5) := by omega
    have hsum : 8 * (i / 8) + i % 8 = i := by omega
    have hbyte : i / 8 < message.length := by omega
    have hbit :=
      getElem?_flatMap_lsbBits message (i := i / 8) (j := i % 8) (Nat.mod_lt _ (by omega))
    rw [hsum, ← bytesBits_eq] at hbit
    rw [if_neg hpad', if_pos ⟨Nat.zero_le _, by omega⟩, if_pos hmsg, Nat.sub_zero,
      List.getD_eq_getElem?_getD, List.getElem?_map, hbit, List.getElem?_eq_getElem hbyte,
      List.getD_eq_getElem _ _ hbyte]
    rfl
  · rw [if_neg hmsg]
    by_cases hpad' : i < 8 * message.length + 5
    · rw [if_pos ⟨by omega, hpad'⟩, decide_eq_true hpad', ofBool_true]
    · rw [if_neg (by omega), if_neg (by omega), decide_eq_false hpad', ofBool_false]
      exact Vector.getElem_replicate hi

/-! ### The sponge -/

variable [CharP K 2]

/-- Asserting bits pairwise equal, up to the shorter list. -/
theorem zip_add_eq_zero : ∀ {a b : List Bool}, b.length ≤ a.length →
    ((∀ p ∈ (a.map (ofBool : Bool → K)).zip (b.map ofBool), p.1 + p.2 = 0) ↔
      a.take b.length = b)
  | a, [], _ => by simp
  | [], _ :: _, h => by simp at h
  | x :: a, y :: b, h => by
    have ih := zip_add_eq_zero (a := a) (b := b) (by simpa using h)
    simp only [List.map_cons, List.zip_cons_cons, List.mem_cons, forall_eq_or_imp,
      ofBool_add_eq_zero, List.length_cons, List.take_succ_cons, List.cons.injEq, ih]

/-- Four rounds on expressions compute the native group. -/
theorem groupExpr_stateWires (s : State) (group : Fin 6) :
    groupExpr (evalBackend F) ((stateWires s : Vector K 1600).map (evalBackend F).wireExpr) group =
      stateWires (groupRounds s group) := by
  have hmap : (stateWires s : Vector K 1600).map (evalBackend F).wireExpr = stateWires s :=
    Vector.map_id _
  rw [hmap, groupExpr, groupRounds]
  exact List.foldl_hom (stateWires : State → Vector K 1600)
    fun s round => keccakRoundExpr_stateWires F s _

/-- One group: the committed state is read and asserted to be the group's result. -/
theorem emits_shakeGroup (s c : State) (group : Fin 6) :
    Emits (shakeGroup (evalBackend F) (stateWires s) group : Eval K (Vector K 1600))
      (stateBits c).toList (stateWires c) (c = groupRounds s group) := by
  have hassert : Emits
      (((stateWires (groupRounds s group) : Vector K 1600).toList.zip
        (stateWires c : Vector K 1600).toList).forM fun p =>
          assertExprZero (evalBackend F) (p.1 + p.2) : Eval K PUnit)
      [] PUnit.unit (c = groupRounds s group) := by
    refine (Emits.forM _ fun p _ => emits_assertExprZero F (p.1 + p.2)).congr ?_
    simp only [stateWires, Vector.toList_map]
    rw [zip_add_eq_zero (by simp), List.take_of_length_le (by simp), Vector.toList_inj,
      stateBits_injective.eq_iff]
    exact eq_comm
  have hrest := (hassert.bind (f := fun _ => (pure (stateWires c) : Eval K (Vector K 1600)))
    (Emits.pure (stateWires c))).congr (and_iff_left trivial)
  unfold shakeGroup
  rw [groupExpr_stateWires, ← List.append_nil (stateBits c).toList]
  exact (emits_allocBits F (stateBits c)).bind_alloc hrest

/-- The loop over the groups, from any state. -/
theorem emits_groups : ∀ (groups : List (Fin 6)) (s : State) (cs : List State),
    cs.length = groups.length →
    Emits (groups.foldlM (shakeGroup (evalBackend F)) (stateWires s) : Eval K (Vector K 1600))
      (statesBits cs) (stateWires (lastState s cs)) (cs = groupTrace groups s)
  | [], s, [], _ => by
    have hP : ([] : List State) = groupTrace [] s ↔ True := iff_of_true rfl trivial
    rw [lastState_nil, List.foldlM_nil, hP]
    exact Emits.pure _
  | group :: groups, s, c :: cs, h => by
    have hgroups := emits_groups groups c cs (Nat.succ.inj h)
    have hP : c :: cs = groupTrace (group :: groups) s ↔
        c = groupRounds s group ∧ cs = groupTrace groups c := by
      rw [groupTrace, List.cons.injEq]
      refine and_congr_right fun hc => ?_
      rw [hc]
    rw [List.foldlM_cons, lastState_cons, hP]
    exact (emits_shakeGroup F s c group).bind hgroups

/-- The sponge reads six states and asserts that they are the checkpoints of the message. -/
theorem emits_shakeDegree16 {message : Bytes} (h : message.length < rateBytes) {cs : List State}
    (hcs : cs.length = 6) :
    Emits (shakeDegree16 (evalBackend F) ((bytesBits message).map (ofBool : Bool → K)))
      (statesBits cs) (stateWires (lastState (absorbed message) cs))
        (cs = checkpoints message) := by
  unfold shakeDegree16
  rw [initialSpongeState_bytesBits F h]
  exact emits_groups F (List.finRange 6) (absorbed message) cs (by simpa using hcs)

theorem emits_shakeHiddenOutput {message : Bytes} (h : message.length < rateBytes)
    {cs : List State} (hcs : cs.length = 6) (n : ℕ) :
    Emits (shakeHiddenOutput (evalBackend F) ((bytesBits message).map (ofBool : Bool → K)) n)
      (statesBits cs)
      (((stateBits (lastState (absorbed message) cs)).toList.take n).map ofBool)
      (cs = checkpoints message) := by
  have hout : ((stateWires (lastState (absorbed message) cs) : Vector K 1600).toList.take n) =
      ((stateBits (lastState (absorbed message) cs)).toList.take n).map ofBool := by
    rw [stateWires, Vector.toList_map, List.map_take]
  have hpure :
    Emits (pure ((stateWires (lastState (absorbed message) cs) : Vector K 1600).toList.take
      n) : Eval K (List K)) [] _ True := Emits.pure _
  unfold shakeHiddenOutput
  rw [← List.append_nil (statesBits cs), ← hout]
  exact ((emits_shakeDegree16 F h hcs).bind hpure).congr (and_iff_left trivial)

/-- A public expected output: the first bits of the last committed state have to agree with it. -/
theorem emits_shakeAssertOutput {message : Bytes} (h : message.length < rateBytes)
    {cs : List State} (hcs : cs.length = 6) {expected : List Bool} (hexp : expected.length ≤ 1600) :
    Emits (shakeAssertOutput (evalBackend F) ((bytesBits message).map (ofBool : Bool → K))
      (expected.map ofBool)) (statesBits cs) ()
      (cs = checkpoints message ∧
        (stateBits (lastState (absorbed message) cs)).toList.take expected.length = expected) := by
  have hassert : Emits
      (((stateWires (lastState (absorbed message) cs) : Vector K 1600).toList.zip
        (expected.map ofBool)).forM fun p => assertZero (evalBackend F) (p.1 + p.2) : Eval K PUnit)
      [] PUnit.unit
      ((stateBits (lastState (absorbed message) cs)).toList.take expected.length = expected) := by
    refine (Emits.forM _ fun p _ => emits_assertZero F (p.1 + p.2)).congr ?_
    rw [stateWires, Vector.toList_map, zip_add_eq_zero (by simpa using hexp)]
  unfold shakeAssertOutput
  rw [← List.append_nil (statesBits cs)]
  exact (emits_shakeDegree16 F h hcs).bind hassert

end VoleArc
