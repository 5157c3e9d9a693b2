import VoleArc.Circuit.Sponge

/-!
# VoleArc.Circuit.Range — the 32-bit comparison with a public limit

The committed carries of `value + !limit + 1` are pinned down bit by bit, and the last one is
zero exactly when `value < limit` (`assertU32LessThan_exact`).
-/

namespace VoleArc

open BitField BitString Constraint

/-! ### Carry chains -/

/-- The carries out of the given bit positions, in order. -/
def carryTrace (x y : U32) : List ℕ → Bool → List Bool
  | [], _ => []
  | bit :: bits, carry =>
    let carry := Bool.atLeastTwo (x.getLsbD bit) (y.getLsbD bit) carry
    carry :: carryTrace x y bits carry

theorem carryTrace_range' (x y : U32) (c : Bool) : ∀ n k : ℕ,
    carryTrace x y (List.range' k n) (BitVec.carry k x y c) =
      (List.range' k n).map fun i => BitVec.carry (i + 1) x y c
  | 0, _ => rfl
  | n + 1, k => by
    rw [List.range'_succ, carryTrace, ← BitVec.carry_succ, carryTrace_range' x y c n (k + 1),
      List.map_cons]

theorem carryTrace_range (x y : U32) (n : ℕ) :
    carryTrace x y (List.range n) true =
      (List.range n).map fun i => BitVec.carry (i + 1) x y true := by
  rw [List.range_eq_range']
  exact carryTrace_range' x y true n 0

/-- The carries the circuit asks for, as one 32-bit word. -/
def lessThanCarries (value limit : U32) : U32 :=
  BitVec.ofFnLE fun i : Fin 32 => BitVec.carry (i.val + 1) value (~~~limit) true

theorem lsbBits_lessThanCarries (value limit : U32) :
    lsbBits (lessThanCarries value limit) = carryTrace value (~~~limit) (List.range 32) true := by
  rw [carryTrace_range]
  refine List.map_congr_left fun i hi => ?_
  simp only [lessThanCarries, BitVec.getLsbD_ofFnLE, List.mem_range.mp hi, dite_true]

theorem getLsbD_lessThanCarries_last (value limit : U32) :
    (lessThanCarries value limit).getLsbD 31 = !value.ult limit := by
  rw [BitVec.ult_eq_not_carry, Bool.not_not, lessThanCarries, BitVec.getLsbD_ofFnLE]
  rfl

/-- The native generator appends exactly these carries. -/
theorem appendLessThanCarries_eq (output : List Bool) (value limit : U32) :
    appendLessThanCarries output value limit = output ++ lsbBits (lessThanCarries value limit) := by
  have key : ∀ (bits : List ℕ) (output : List Bool) (carry : Bool),
      (bits.foldl (fun (acc : List Bool × Bool) bit =>
        let a := value.getLsbD bit
        let b := (~~~limit).getLsbD bit
        let carry := (a && b) || (a && acc.2) || (b && acc.2)
        (acc.1 ++ [carry], carry)) (output, carry)).1 =
      output ++ carryTrace value (~~~limit) bits carry := by
    intro bits
    induction bits with
    | nil => intro output carry; simp [carryTrace]
    | cons bit bits ih =>
      intro output carry
      rw [List.foldl_cons, ih]
      simp [carryTrace]
  rw [lsbBits_lessThanCarries]
  exact key (List.range 32) output true

/-! ### The gadget -/

variable {K : Type} [Field K] (F : BinaryFields K)

/-- A word as field elements, low bit first. -/
def wordWires (x : U32) : Vector K 32 := Vector.ofFn fun i => ofBool (x.getLsbD i)

@[simp] theorem toList_wordWires (x : U32) :
    (wordWires x : Vector K 32).toList = (lsbBits x).map ofBool := by
  refine List.ext_getElem (by simp) fun i h₁ h₂ => ?_
  simp only [wordWires, lsbBits, Vector.getElem_toList, Vector.getElem_ofFn, List.getElem_map,
    List.getElem_range]

/-- The value asserted to vanish at one bit position. -/
def carryEquation (value limit : U32) (carryIn carry : K) (bit : ℕ) : K :=
  let a : K := ofBool (value.getLsbD bit)
  let b := (~~~limit).getLsbD bit
  let equation := if b then carry + a else carry
  let equation := equation + a * carryIn
  if b then equation + carryIn else equation

/-- The values asserted along the bit positions, each carry going into the next equation. -/
def carryEquations (value limit : U32) (carries : Vector K 32) : List (Fin 32) → K → List K
  | [], _ => []
  | bit :: bits, carryIn =>
    carryEquation value limit carryIn (carries.get bit) bit ::
      carryEquations value limit carries bits (carries.get bit)

@[simp] theorem length_carryEquations (value limit : U32) (carries : Vector K 32)
    (bits : List (Fin 32)) (carryIn : K) :
    (carryEquations value limit carries bits carryIn).length = bits.length := by
  induction bits generalizing carryIn with
  | nil => rfl
  | cons bit bits ih => simp [carryEquations, ih]

/-- One bit position asserts its equation and passes its committed carry on. -/
theorem run_assertCarry (value limit : U32) (carries : Vector K 32) (carryIn : K) (bit : Fin 32)
    (s : EvalState K) :
    assertCarry (evalBackend F) (wordWires value) carries limit carryIn bit s =
      .ok (carries.get bit,
        { s with asserted :=
            s.asserted ++ [carryEquation value limit carryIn (carries.get bit) bit] }) := by
  have hvalue : (wordWires value : Vector K 32)[bit.val] = ofBool (value.getLsbD bit) := by
    simp [wordWires]
  unfold assertCarry
  simp only [hvalue, evalBackend_wireExpr, evalBackend_exprAdd, evalBackend_exprMul]
  rfl

/-- The loop over the bit positions, from any carry. -/
theorem run_carries (value limit : U32) (carries : Vector K 32) (bits : List (Fin 32)) (carryIn : K)
    (s : EvalState K) :
    (bits.foldlM (assertCarry (evalBackend F) (wordWires value) carries limit) carryIn :
        Eval K K) s =
      .ok ((bits.map fun bit => carries.get bit).getLastD carryIn,
        { s with asserted := s.asserted ++ carryEquations value limit carries bits carryIn }) := by
  induction bits generalizing carryIn s with
  | nil =>
    rw [carryEquations, List.append_nil]
    rfl
  | cons bit bits ih =>
    have hlast : ((bit :: bits).map fun bit => carries.get bit).getLastD carryIn =
        (bits.map fun bit => carries.get bit).getLastD (carries.get bit) := by
      cases bits <;> rfl
    rw [List.foldlM_cons, hlast, carryEquations]
    simp only [bind, StateT.bind, Except.bind, run_assertCarry, ih, List.append_assoc,
      List.singleton_append]

/-- The gadget's run: the equations of the carries, then the last carry. -/
theorem run_assertU32LessThan (value limit : U32) (carries : Vector K 32) (s : EvalState K) :
    assertU32LessThan (evalBackend F) (wordWires value) carries limit s =
      .ok ((),
        { s with asserted :=
            s.asserted ++ carryEquations value limit carries (List.finRange 32) 1 ++
              [carries[31]] }) := by
  have hlast : ((List.finRange 32).map fun bit => carries.get bit).getLastD 1 = carries[31] := rfl
  unfold assertU32LessThan
  simp only [bind, StateT.bind, Except.bind, evalBackend_constant, run_carries, hlast]
  rfl

variable [CharP K 2]

/-- The equation of one bit position is the majority of its three inputs. -/
theorem carryEquation_eq_zero (value limit : U32) (carryIn : Bool) (carry : K) (bit : ℕ) :
    carryEquation value limit (ofBool carryIn) carry bit = 0 ↔
      carry = ofBool (Bool.atLeastTwo (value.getLsbD bit) ((~~~limit).getLsbD bit) carryIn) := by
  unfold carryEquation
  cases value.getLsbD bit <;> cases (~~~limit).getLsbD bit <;> cases carryIn <;>
    simp [Bool.atLeastTwo, CharTwo.add_eq_zero, add_assoc, CharTwo.add_self_eq_zero]

/-- The equations pin the carries down, one after the other: there is no other solution in the
field, bits or not. -/
theorem carryEquations_eq_zero (value limit : U32) (carries : Vector K 32) (bits : List (Fin 32))
    (carry : Bool) :
    (∀ e ∈ carryEquations value limit carries bits (ofBool carry), e = 0) ↔
      (bits.map fun bit => carries.get bit) =
        (carryTrace value (~~~limit) (bits.map Fin.val) carry).map ofBool := by
  induction bits generalizing carry with
  | nil => simp [carryEquations, carryTrace]
  | cons bit bits ih =>
    simp only [carryEquations, List.mem_cons, forall_eq_or_imp, carryEquation_eq_zero,
      List.map_cons, carryTrace, List.cons.injEq]
    refine and_congr_right fun hcarry => ?_
    rw [hcarry, ih]

theorem toList_eq_map_get {α : Type} (carries : Vector α 32) :
    carries.toList = (List.finRange 32).map fun bit => carries.get bit := by
  apply List.ext_getElem
  · simp
  · intro i h₁ h₂
    rw [Vector.getElem_toList, List.getElem_map, List.getElem_finRange]
    rfl

/-- The carry equations hold exactly for the carries the native generator appends. -/
theorem carryEquations_finRange_eq_zero (value limit : U32) (carries : Vector K 32) :
    (∀ e ∈ carryEquations value limit carries (List.finRange 32) 1, e = 0) ↔
      carries.toList = (appendLessThanCarries [] value limit).map ofBool := by
  have hcarries := carryEquations_eq_zero value limit carries (List.finRange 32) true
  rw [ofBool_true, List.map_coe_finRange_eq_range, ← toList_eq_map_get] at hcarries
  rw [hcarries, appendLessThanCarries_eq, List.nil_append, lsbBits_lessThanCarries]

omit [CharP K 2] in
/-- With those carries the last one is zero exactly below the limit. -/
theorem lastCarry_eq_zero {value limit : U32} {carries : Vector K 32}
    (h : carries.toList = (appendLessThanCarries [] value limit).map ofBool) :
    carries[31] = 0 ↔ value < limit := by
  have hlast : carries[31] = ofBool ((lessThanCarries value limit).getLsbD 31) := by
    have h31 := congrArg (fun l => l[31]?) h
    rw [appendLessThanCarries_eq, List.nil_append] at h31
    simpa [getElem_lsbBits] using h31
  rw [hlast, ofBool_eq_zero, getLsbD_lessThanCarries_last, Bool.not_eq_false', BitVec.ult_iff_lt]

/-- The range check pins the carries down and holds exactly when the value is below the limit. -/
theorem emits_assertU32LessThan (value carries limit : U32) :
    Emits (assertU32LessThan (evalBackend F) (wordWires value) (wordWires carries) limit) [] ()
      (carries = lessThanCarries value limit ∧ value < limit) := by
  intro rest as
  refine ⟨carryEquations value limit (wordWires carries : Vector K 32) (List.finRange 32) 1 ++
    [(wordWires carries : Vector K 32)[31]], ?_, ?_⟩
  · rw [run_assertU32LessThan, List.nil_append, List.append_assoc]
  have hbits : (wordWires carries : Vector K 32).toList =
      (appendLessThanCarries [] value limit).map ofBool ↔
        carries = lessThanCarries value limit := by
    rw [toList_wordWires, appendLessThanCarries_eq, List.nil_append,
      (List.map_injective_iff.mpr ofBool_injective).eq_iff, lsbBits_inj]
  simp only [List.mem_append, List.mem_singleton, or_imp, forall_and, forall_eq]
  rw [carryEquations_finRange_eq_zero, ← hbits]
  exact and_congr_right lastCarry_eq_zero

/-! ### Exactness -/

/-- The gadget, run on its own, asserts only zeros. -/
def RangeAccepts (F : BinaryFields K) (value limit : U32) (carries : Vector K 32) : Prop :=
  ∃ s, assertU32LessThan (evalBackend F) (wordWires value) carries limit ⟨[], []⟩ = .ok ((), s) ∧
    s.Satisfied

omit [CharP K 2] in
theorem rangeAccepts_iff (value limit : U32) (carries : Vector K 32) :
    RangeAccepts F value limit carries ↔
      carries.toList = (appendLessThanCarries [] value limit).map ofBool ∧ value < limit := by
  have := F.charP
  unfold RangeAccepts
  rw [run_assertU32LessThan]
  constructor
  · rintro ⟨s, hrun, hs⟩
    cases hrun
    simp only [EvalState.Satisfied, List.nil_append, List.mem_append, or_imp, forall_and,
      carryEquations_finRange_eq_zero] at hs
    exact ⟨hs.1, (lastCarry_eq_zero hs.1).mp (hs.2 _ (List.mem_singleton_self _))⟩
  · rintro ⟨hcarries, hlt⟩
    refine ⟨_, rfl, fun v hv => ?_⟩
    rw [List.nil_append] at hv
    rcases List.mem_append.mp hv with hv | hv
    · exact (carryEquations_finRange_eq_zero value limit carries).mpr hcarries v hv
    · rw [List.mem_singleton.mp hv]
      exact (lastCarry_eq_zero hcarries).mpr hlt

/-- Whatever field elements the carry wires hold, the 32 equations hold exactly for the native
carries; then the last assertion is the comparison.  So the gadget has a solution exactly below
the limit, over the field as over bits. -/
theorem assertU32LessThan_exact {K : Type} [Field K] (F : BinaryFields K) (value limit : U32) :
    (∀ (carries : Vector K 32) (s : EvalState K), ∃ (equations : Vector K 32) (final : K),
      assertU32LessThan (evalBackend F) (wordWires value) carries limit s =
          .ok ((), { s with asserted := s.asserted ++ equations.toList ++ [final] }) ∧
        ((∀ e ∈ equations, e = 0) ↔
          carries.toList = (appendLessThanCarries [] value limit).map ofBool) ∧
        (carries.toList = (appendLessThanCarries [] value limit).map ofBool →
          (final = 0 ↔ value.toNat < limit.toNat))) ∧
    ((∃ carries : Vector K 32, RangeAccepts F value limit carries) ↔ value.toNat < limit.toNat) ∧
    ((∃ carries : Vector Bool 32, RangeAccepts F value limit (carries.map ofBool)) ↔
      value.toNat < limit.toNat) := by
  have := F.charP
  -- the native carries, as a vector of bits
  have hlen : (appendLessThanCarries [] value limit).length = 32 := by
    rw [appendLessThanCarries_eq, List.nil_append, length_lsbBits]
  let native : Vector Bool 32 :=
    ⟨(appendLessThanCarries [] value limit).toArray, by simpa using hlen⟩
  have hnative : (native.map ofBool : Vector K 32).toList =
      (appendLessThanCarries [] value limit).map ofBool := by
    rw [Vector.toList_map]
    rfl
  refine ⟨fun carries s => ?_, ⟨?_, fun hlt => ?_⟩, ⟨?_, fun hlt => ?_⟩⟩
  · refine ⟨⟨(carryEquations value limit carries (List.finRange 32) 1).toArray, by simp⟩,
      carries[31], run_assertU32LessThan F value limit carries s, ?_, lastCarry_eq_zero⟩
    rw [← carryEquations_finRange_eq_zero]
    simp only [Vector.mem_mk, List.mem_toArray]
  · rintro ⟨carries, h⟩
    exact ((rangeAccepts_iff F value limit carries).mp h).2
  · exact ⟨native.map ofBool, (rangeAccepts_iff F value limit _).mpr ⟨hnative, hlt⟩⟩
  · rintro ⟨carries, h⟩
    exact ((rangeAccepts_iff F value limit _).mp h).2
  · exact ⟨native, (rangeAccepts_iff F value limit _).mpr ⟨hnative, hlt⟩⟩

end VoleArc
