import VoleArc.Circuit.Degree

/-!
# VoleArc.Circuit.Layout — the layout of a circuit does not depend on its public inputs

The layout of a circuit is what is left of its transcript when the constants are forgotten: how many
witness bits are allocated, and for each assertion which of them it reads and to which degree.  The
scopes, the tag, the target and the key of a circuit only choose constants, and the limit chooses
which factors of a product are summands beside it, so all circuits of one suite and kind have one
layout, with fixed numbers of bits and assertions.
-/

namespace VoleArc

open Keccak Relational WireExpr

/-! ### Layouts -/

/-- The degree of an expression and the witness bits it reads. -/
@[ext] structure Footprint where
  degree : ℕ
  reads : Finset ℕ
  deriving DecidableEq

namespace Footprint

/-- The footprint of a constant. -/
def empty : Footprint := ⟨0, ∅⟩

def add (x y : Footprint) : Footprint := ⟨max x.degree y.degree, x.reads ∪ y.reads⟩

def mul (x y : Footprint) : Footprint := ⟨x.degree + y.degree, x.reads ∪ y.reads⟩

/-- A factor of a product adds nothing to the footprint beside it. -/
theorem add_mul_absorb (e a c : Footprint) :
    (e.add a).add (a.mul c) = e.add (a.mul c) ∧ (e.add (a.mul c)).add c = e.add (a.mul c) := by
  constructor
  · ext i
    · show max (max e.degree a.degree) (a.degree + c.degree) = max e.degree (a.degree + c.degree)
      omega
    · simp only [add, mul, Finset.mem_union]
      tauto
  · ext i
    · show max (max e.degree (a.degree + c.degree)) c.degree = max e.degree (a.degree + c.degree)
      omega
    · simp only [add, mul, Finset.mem_union]
      tauto

end Footprint

/-- An assertion without its constants. -/
inductive Shape where
  | zero (wire : Footprint)
  | exprZero (expr : Footprint)
  | quadFormSystem (x target : List Footprint)
  deriving DecidableEq

/-- The number of witness bits, and the shapes of the assertions. -/
structure Layout where
  next : ℕ
  asserted : List Shape
  deriving DecidableEq

section

variable {K : Type}

def wireFootprint (x : Wire K) : Footprint := ⟨x.degree, x.reads⟩

def exprFootprint (e : Expr K) : Footprint := ⟨e.degree, e.reads⟩

def Assertion.shape : Assertion K → Shape
  | zero x => .zero (wireFootprint x)
  | exprZero e => .exprZero (exprFootprint e)
  | quadFormSystem x _ target => .quadFormSystem (x.map wireFootprint) (target.map wireFootprint)

def Transcript.layout (s : Transcript K) : Layout := ⟨s.next, s.asserted.map Assertion.shape⟩

theorem Transcript.layout_assert (s : Transcript K) (a : Assertion K) :
    ({ s with asserted := s.asserted ++ [a] } : Transcript K).layout =
      { s.layout with asserted := s.layout.asserted ++ [a.shape] } :=
  congrArg (Layout.mk s.next) List.map_append

/-! ### Building a layout -/

/-- Building with footprints for wires and expressions. -/
def layoutBackend (K : Type) : Backend K Layout Footprint Footprint where
  witnessBit s := .ok (⟨1, {s.next}⟩, { s with next := s.next + 1 })
  constant _ := .empty
  add x y := x.add y
  scale _ x := x
  wireExpr x := x
  exprAdd x y := x.add y
  exprMul x y := x.mul y
  assertZero x s := { s with asserted := s.asserted ++ [.zero x] }
  assertExprZero e s := { s with asserted := s.asserted ++ [.exprZero e] }
  assertQuadFormSystem x _ target s :=
    { s with asserted := s.asserted ++ [.quadFormSystem x target] }

/-- A list of wires and their footprints. -/
theorem map_footprint_of_forall₂ {fs : List Footprint} {xs : List (Wire K)}
    (h : List.Forall₂ (fun f x => f = wireFootprint x) fs xs) : fs = xs.map wireFootprint := by
  induction h with
  | nil => rfl
  | cons hx _ ih => exact congrArg₂ List.cons hx ih

/-- The layouts beside the transcripts they belong to. -/
def layoutRelation (K : Type) : GradedRelation (layoutBackend K) symbolicBackend where
  state l s := l = s.layout
  wire _ f x := f = wireFootprint x
  expr _ f e := f = exprFootprint e
  wire_mono _ h := h
  expr_mono _ h := h
  witnessBit := by
    rintro l s rfl x t hrun
    cases hrun
    exact ⟨_, _, rfl, rfl, rfl⟩
  constant c := rfl
  add := by
    rintro d f x g y rfl rfl
    rfl
  scale _ h := h
  wireExpr h := h
  exprAdd := by
    rintro d f x g y rfl rfl
    rfl
  exprMul := by
    rintro d e f x g y rfl rfl
    rfl
  assertZero := by
    rintro f x l s rfl rfl
    exact (s.layout_assert (.zero x)).symm
  assertExprZero := by
    rintro f e l s rfl rfl
    exact (s.layout_assert (.exprZero e)).symm
  assertQuadFormSystem := by
    rintro fs xs gs ts l s sys hxs hts rfl
    rw [map_footprint_of_forall₂ hxs, map_footprint_of_forall₂ hts]
    exact (s.layout_assert (.quadFormSystem xs sys ts)).symm

end

/-! ### Constants leave no trace -/

section Constants

variable {K : Type} [Field K]

theorem constantBytes_layout {a b : Bytes} (h : a.length = b.length) :
    constantBytes (layoutBackend K) a = constantBytes (layoutBackend K) b := by
  show (bytesBits a).map (fun _ => Footprint.empty) = (bytesBits b).map fun _ => Footprint.empty
  rw [List.map_const', List.map_const', length_bytesBits, length_bytesBits, h]

theorem constantBytes32_layout (a b : Bytes32) :
    constantBytes (layoutBackend K) a.toList = constantBytes (layoutBackend K) b.toList :=
  constantBytes_layout (a.length_toList.trans b.length_toList.symm)

theorem targetConstantBits_layout {a b : List GF16} (h : a.length = b.length) :
    targetConstantBits (layoutBackend K) a = targetConstantBits (layoutBackend K) b := by
  show (gf16Bits a).map (fun _ => Footprint.empty) = (gf16Bits b).map fun _ => Footprint.empty
  rw [List.map_const', List.map_const', length_gf16Bits, length_gf16Bits, h]

theorem credentialWires_layout (scope scope' : Bytes32) (secret hidingNonce : List Footprint) :
    credentialWires (layoutBackend K) scope secret hidingNonce =
      credentialWires (layoutBackend K) scope' secret hidingNonce := by
  unfold credentialWires
  rw [constantBytes32_layout scope scope']

theorem tagWires_layout (scope scope' : Bytes32) (secret nonce : List Footprint) :
    tagWires (layoutBackend K) secret scope nonce =
      tagWires (layoutBackend K) secret scope' nonce := by
  unfold tagWires
  rw [constantBytes32_layout scope scope']

omit [Field K] in
/-- Whatever the bit of the limit, a carry equation reads its two summands through their product. -/
theorem assertCarry_layout (value carries : Vector Footprint 32) (limit limit' : U32)
    (carryIn : Footprint) (bit : Fin 32) :
    assertCarry (layoutBackend K) value carries limit carryIn bit =
      assertCarry (layoutBackend K) value carries limit' carryIn bit := by
  have hequation : ∀ l : U32, assertCarry (layoutBackend K) value carries l carryIn bit =
      assertExprZero (layoutBackend K)
          (carries[bit.val].add (value[bit.val].mul carryIn)) >>= fun _ =>
        pure carries[bit.val] := by
    intro l
    obtain ⟨hvalue, hcarry⟩ :=
      Footprint.add_mul_absorb carries[bit.val] value[bit.val] carryIn
    by_cases hl : (~~~l).getLsbD bit.val
    · simp only [assertCarry, hl, if_true]
      show assertExprZero (layoutBackend K) (((carries[bit.val].add value[bit.val]).add
        (value[bit.val].mul carryIn)).add carryIn) >>= _ = _
      rw [hvalue, hcarry]
    · simp only [assertCarry, hl]
      rfl
  rw [hequation limit, hequation limit']

theorem assertU32LessThan_layout (value carries : Vector Footprint 32) (limit limit' : U32) :
    assertU32LessThan (layoutBackend K) value carries limit =
      assertU32LessThan (layoutBackend K) value carries limit' := by
  have hcarry : assertCarry (layoutBackend K) value carries limit =
      assertCarry (layoutBackend K) value carries limit' :=
    funext fun carryIn => funext fun bit =>
      assertCarry_layout value carries limit limit' carryIn bit
  unfold assertU32LessThan
  rw [hcarry]

omit [Field K] in
theorem assertQuadFormSystem_layout (x target : List Footprint) (sys sys' : QuadFormSystem) :
    (layoutBackend K).assertQuadFormSystem x sys target =
      (layoutBackend K).assertQuadFormSystem x sys' target := rfl

variable {P : ArcParams}

theorem issueBuild_layout {c c' : IssueCircuit P} (h : c.target.length = P.M)
    (h' : c'.target.length = P.M) :
    c.build (layoutBackend K) = c'.build (layoutBackend K) := by
  unfold IssueCircuit.build
  rw [if_neg (not_not.mpr h), if_neg (not_not.mpr h'),
    targetConstantBits_layout (h.trans h'.symm)]
  simp only [credentialWires_layout c.credentialScope c'.credentialScope]

theorem presentationBuild_layout (F : BinaryFields K) {c c' : PresentationCircuit P}
    (h : c.presentationLimit ≠ 0) (h' : c'.presentationLimit ≠ 0) :
    c.build F (layoutBackend K) = c'.build F (layoutBackend K) := by
  unfold PresentationCircuit.build
  simp only [h, h', false_or, constantBytes32_layout c.tag c'.tag,
    credentialWires_layout c.credentialScope c'.credentialScope,
    tagWires_layout c.presentationScope c'.presentationScope,
    assertU32LessThan_layout _ _ c.presentationLimit c'.presentationLimit,
    assertQuadFormSystem_layout _ _ c.mayoSystem.forms c'.mayoSystem.forms]

end Constants

/-! ### Sizes -/

section Sizes

variable {K : Type}

/-- The numbers of witness bits and of assertions. -/
def Transcript.size (s : Transcript K) : ℕ × ℕ := (s.next, s.asserted.length)

theorem adds_assert (a : Assertion K) : Adds Transcript.size (0, 1)
    (modify fun s : Transcript K => { s with asserted := s.asserted ++ [a] } :
      Build (Transcript K) PUnit) :=
  Adds.modify fun _ => Prod.ext rfl List.length_append

theorem adds_allocBits (n : ℕ) :
    Adds Transcript.size (n, 0) (allocBits (symbolicBackend (K := K)) n) := by
  intro s wires t hrun
  rw [run_allocBits] at hrun
  cases hrun
  rfl

variable [Field K]

/-- Six groups, each with a checkpoint and an equation for each of its bits. -/
theorem adds_shakeDegree16 (message : List (Wire K)) :
    Adds Transcript.size (keccakCheckpointBits, keccakCheckpointBits)
      (shakeDegree16 symbolicBackend message) := by
  have hgroup : ∀ (state : Vector (Wire K) 1600) (group : Fin 6),
      Adds Transcript.size (1600, 1600) (shakeGroup symbolicBackend state group) := by
    intro state group s wires t hrun
    rw [run_shakeGroup] at hrun
    obtain ⟨-, rfl⟩ := Prod.mk.inj (Except.ok.inj hrun)
    refine Prod.ext rfl ?_
    show (s.asserted ++ groupAssertions state group s.next).length = s.asserted.length + 1600
    rw [List.length_append, groupAssertions, List.length_map, List.length_zip, Vector.length_toList,
      Vector.length_toList, Nat.min_self]
  have hloop := Adds.foldlM hgroup (List.finRange 6) (initialSpongeState symbolicBackend message)
  rw [List.length_finRange] at hloop
  exact hloop

theorem adds_shakeHiddenOutput (message : List (Wire K)) (outputBits : ℕ) :
    Adds Transcript.size (keccakCheckpointBits, keccakCheckpointBits)
      (shakeHiddenOutput symbolicBackend message outputBits) :=
  ((adds_shakeDegree16 message).bind fun _ => Adds.pure _).congr (add_zero _)

/-- A known output is compared bit by bit. -/
theorem adds_shakeAssertOutput (message expected : List (Wire K)) (h : expected.length ≤ 1600) :
    Adds Transcript.size (keccakCheckpointBits, keccakCheckpointBits + expected.length)
      (shakeAssertOutput symbolicBackend message expected) := by
  have hcompare : ∀ state : Vector (Wire K) 1600, Adds Transcript.size (0, expected.length)
      ((state.toList.zip expected).forM fun p : Wire K × Wire K =>
        assertZero symbolicBackend (symbolicBackend.add p.1 p.2)) := by
    intro state
    have hloop := Adds.forM (fun p : Wire K × Wire K => adds_assert (.zero (.add p.1 p.2)))
      (state.toList.zip expected)
    refine hloop.congr ?_
    rw [List.length_zip, Vector.length_toList, Nat.min_eq_right h, Prod.smul_mk, smul_zero,
      smul_eq_mul, mul_one]
  exact (adds_shakeDegree16 message).bind hcompare

omit [Field K] in
theorem adds_assertCarry (value carries : Vector (Wire K) 32) (limit : U32) (carryIn : Wire K)
    (bit : Fin 32) :
    Adds Transcript.size (0, 1) (assertCarry symbolicBackend value carries limit carryIn bit) :=
  ((adds_assert _).bind fun _ => Adds.pure _).congr (add_zero _)

/-- A carry for each of the 32 bits, and none out of the last. -/
theorem adds_assertU32LessThan (value carries : Vector (Wire K) 32) (limit : U32) :
    Adds Transcript.size (0, 33) (assertU32LessThan symbolicBackend value carries limit) := by
  have hloop := Adds.foldlM (adds_assertCarry value carries limit) (List.finRange 32)
    (symbolicBackend.constant 1)
  rw [List.length_finRange] at hloop
  exact hloop.bind fun carryOut => adds_assert (.zero carryOut)

variable {P : ArcParams}

theorem adds_issueBuild (c : IssueCircuit P) (h : c.target.length = P.M) :
    Adds Transcript.size (issueBits, keccakCheckpointBits + 4 * P.M)
      (c.build (symbolicBackend (K := K))) := by
  have htarget : (targetConstantBits (symbolicBackend (K := K)) c.target).length = 4 * P.M := by
    rw [targetConstantBits, List.length_map, length_gf16Bits, h]
  have hdigest : (targetConstantBits (symbolicBackend (K := K)) c.target).length ≤ 1600 := by
    have hfits := P.fits
    omega
  unfold IssueCircuit.build
  rw [if_neg (not_not.mpr h)]
  refine ((adds_allocBits _).bind fun secret => (adds_allocBits _).bind fun hidingNonce =>
    adds_shakeAssertOutput _ _ hdigest).congr ?_
  rw [htarget, issueBits]
  simp only [Prod.mk_add_mk, Prod.mk.injEq]
  constructor
  · ring
  · ring

theorem adds_presentationBuild (F : BinaryFields K) (c : PresentationCircuit P)
    (h : c.presentationLimit ≠ 0) :
    Adds Transcript.size (presentationBits P, 3 * keccakCheckpointBits + 290)
      (c.build F symbolicBackend) := by
  have hguard : ¬(c.presentationLimit = 0 ∨
      signedCredentialDomain.length + (P.M + 1) / 2 + saltBytes ≥ rateBytes) := by
    have hdomain : signedCredentialDomain.length = 18 := rfl
    have hfits := P.fits
    rintro (hzero | hlarge)
    · exact h hzero
    · rw [hdomain, saltBytes, rateBytes] at hlarge
      omega
  have htag : (constantBytes (symbolicBackend (K := K)) c.tag.toList).length = 256 := by
    rw [constantBytes, List.length_map, length_bytesBits, Vector.length_toList]
  have hdigest : (constantBytes (symbolicBackend (K := K)) c.tag.toList).length ≤ 1600 := by
    rw [htag]
    omega
  unfold PresentationCircuit.build
  rw [if_neg hguard]
  refine ((adds_allocBits _).bind fun signature => (adds_allocBits _).bind fun secret =>
    (adds_allocBits _).bind fun hidingNonce => (adds_allocBits _).bind fun salt =>
    (adds_allocBits _).bind fun nonce => (adds_allocBits _).bind fun carries =>
    (adds_assertU32LessThan _ _ _).bind fun _ =>
    (adds_shakeHiddenOutput _ _).bind fun commitment =>
    (adds_shakeHiddenOutput _ _).bind fun target =>
    (adds_assert _).bind fun _ => adds_shakeAssertOutput _ _ hdigest).congr ?_
  rw [htag, presentationBits]
  simp only [Prod.mk_add_mk, Prod.mk.injEq]
  constructor
  · ring
  · ring

end Sizes

/-! ### One layout -/

section Main

variable {K : Type}

theorem layout_of_run {m : Build (Transcript K) Unit} {m' : Build Layout Unit} {s : Transcript K}
    (hm : Simulates (layoutRelation K).state Eq m' m) (hrun : m Transcript.empty = .ok ((), s)) :
    m' ⟨0, []⟩ = .ok ((), s.layout) := by
  obtain ⟨⟨⟩, l, hrun', -, rfl⟩ := hm ⟨0, []⟩ Transcript.empty rfl () s hrun
  exact hrun'

/-- Builders that lay out alike have one layout. -/
theorem exists_layout {ι : Type} {build : ι → Build (Transcript K) Unit}
    {lay : ι → Build Layout Unit}
    {size : ℕ × ℕ} (unit : ι) (hlay : ∀ i, Simulates (layoutRelation K).state Eq (lay i) (build i))
    (hsame : ∀ i, lay i = lay unit) (hsize : Adds Transcript.size size (build unit))
    (hruns : ∀ i, ∃ s, build i Transcript.empty = .ok ((), s)) :
    ∃ layout : Layout, layout.next = size.1 ∧ layout.asserted.length = size.2 ∧
      ∀ i, ∃ s, build i Transcript.empty = .ok ((), s) ∧ s.layout = layout := by
  obtain ⟨t, ht⟩ := hruns unit
  obtain ⟨hbits, hassertions⟩ := Prod.mk.inj (hsize _ _ _ ht)
  refine ⟨t.layout, hbits.trans (Nat.zero_add _), ?_, fun i => ?_⟩
  · exact (List.length_map _).trans (hassertions.trans (Nat.zero_add _))
  · obtain ⟨s, hs⟩ := hruns i
    have hrun := layout_of_run (hlay i) hs
    rw [hsame i, layout_of_run (hlay unit) ht] at hrun
    exact ⟨s, hs, (Prod.mk.inj (Except.ok.inj hrun)).2.symm⟩

variable [Field K]

/-- All circuits of a suite and kind have one layout: every key, scope, target, limit and tag gives
the same number of witness bits and the same assertions in the same order, each reading the same
bits to the same degree. -/
theorem build_layout_public (F : BinaryFields K) (P : ArcParams) :
    (∃ layout : Layout, layout.next = issueBits ∧
      layout.asserted.length = keccakCheckpointBits + 4 * P.M ∧
      ∀ c : IssueCircuit P, c.target.length = P.M →
        ∃ s : Transcript K, c.build symbolicBackend Transcript.empty = .ok ((), s) ∧
          s.layout = layout) ∧
    ∃ layout : Layout, layout.next = presentationBits P ∧
      layout.asserted.length = 3 * keccakCheckpointBits + 290 ∧
      ∀ c : PresentationCircuit P, c.presentationLimit ≠ 0 →
        ∃ s : Transcript K, c.build F symbolicBackend Transcript.empty = .ok ((), s) ∧
          s.layout = layout := by
  constructor
  · let unit : IssueCircuit P := ⟨Vector.replicate 32 0, List.replicate P.M 0⟩
    have hunit : unit.target.length = P.M := List.length_replicate
    obtain ⟨layout, hbits, hassertions, hone⟩ := exists_layout
      (ι := {c : IssueCircuit P // c.target.length = P.M}) ⟨unit, hunit⟩
      (fun c => (layoutRelation K).simulates_issueBuild c.1)
      (fun c => issueBuild_layout c.2 hunit) (adds_issueBuild unit hunit)
      fun c => (issueBuild_bounded F c.1 c.2).imp fun _ hs => hs.1
    exact ⟨layout, hbits, hassertions, fun c hc => hone ⟨c, hc⟩⟩
  · let unit : PresentationCircuit P := ⟨singleForm 0 [], Vector.replicate 32 0,
      Vector.replicate 32 0, 1, Vector.replicate 32 0⟩
    have hunit : unit.presentationLimit ≠ 0 := show (1 : U32) ≠ 0 by decide
    obtain ⟨layout, hbits, hassertions, hone⟩ := exists_layout
      (ι := {c : PresentationCircuit P // c.presentationLimit ≠ 0}) ⟨unit, hunit⟩
      (fun c => (layoutRelation K).simulates_presentationBuild c.1 F)
      (fun c => presentationBuild_layout F c.2 hunit) (adds_presentationBuild F unit hunit)
      fun c => (presentationBuild_bounded F c.1 c.2).imp fun _ hs => hs.1
    exact ⟨layout, hbits, hassertions, fun c hc => hone ⟨c, hc⟩⟩

end Main

end VoleArc
