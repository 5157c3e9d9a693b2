import VoleArc.Circuit.Relation
import VoleArc.Circuit.Sponge
import VoleArc.Lib.Relational

/-!
# VoleArc.Circuit.Graded — the builders over two backends, degree by degree

A `GradedRelation` relates the states, wires and expressions of two backends.  Related wires and
expressions carry a degree, and the operations of the backends change it as they change the degree
of a polynomial.  Every builder takes related arguments to related results, and asserts nothing
above degree sixteen: a round doubles the degree, a group has four rounds, and each group starts
from committed bits.
-/

namespace VoleArc

open BitString Keccak Relational

/-- Two backends related degree by degree; what is asserted has degree at most sixteen. -/
structure GradedRelation {K S S' W W' E E' : Type} (B : Backend K S W E) (B' : Backend K S' W' E')
    where
  state : S → S' → Prop
  wire : ℕ → W → W' → Prop
  expr : ℕ → E → E' → Prop
  wire_mono : ∀ {d e x x'}, d ≤ e → wire d x x' → wire e x x'
  expr_mono : ∀ {d e x x'}, d ≤ e → expr d x x' → expr e x x'
  witnessBit : Simulates state (wire 1) B.witnessBit B'.witnessBit
  constant : ∀ c, wire 0 (B.constant c) (B'.constant c)
  add : ∀ {d x x' y y'}, wire d x x' → wire d y y' → wire d (B.add x y) (B'.add x' y')
  scale : ∀ {d x x'} c, wire d x x' → wire d (B.scale c x) (B'.scale c x')
  wireExpr : ∀ {d x x'}, wire d x x' → expr d (B.wireExpr x) (B'.wireExpr x')
  exprAdd : ∀ {d x x' y y'}, expr d x x' → expr d y y' → expr d (B.exprAdd x y) (B'.exprAdd x' y')
  exprMul : ∀ {d e x x' y y'}, expr d x x' → expr e y y' →
    expr (d + e) (B.exprMul x y) (B'.exprMul x' y')
  -- asserted wires are linear, asserted expressions are four rounds above committed bits at most
  assertZero : ∀ {x x' s s'}, wire 1 x x' → state s s' →
    state (B.assertZero x s) (B'.assertZero x' s')
  assertExprZero : ∀ {e e' s s'}, expr 16 e e' → state s s' →
    state (B.assertExprZero e s) (B'.assertExprZero e' s')
  assertQuadFormSystem : ∀ {xs xs' ts ts' s s'} sys, List.Forall₂ (wire 1) xs xs' →
    List.Forall₂ (wire 1) ts ts' → state s s' →
    state (B.assertQuadFormSystem xs sys ts s) (B'.assertQuadFormSystem xs' sys ts' s')

/-! ### The rounds of a group -/

@[simp] theorem length_groupConstants (group : Fin 6) : (groupConstants group).length = 4 := by
  simp [groupConstants]

section

variable {K S W E : Type} [Field K] (B : Backend K S W E)

theorem groupExpr_eq_foldl (state : Vector E 1600) (group : Fin 6) :
    groupExpr B state group =
      ((groupConstants group).map Prod.fst).foldl (keccakRoundExpr B) state := by
  rw [groupConstants, List.map_map, List.foldl_map]
  rfl

/-- The groups, one after the other, are all rounds in order. -/
theorem foldl_groupExpr (state : Vector E 1600) :
    (List.finRange 6).foldl (groupExpr B) state = RC.toList.foldl (keccakRoundExpr B) state := by
  have hgroup : groupExpr B = fun e group =>
      ((groupConstants group).map Prod.fst).foldl (keccakRoundExpr B) e :=
    funext fun e => funext fun group => groupExpr_eq_foldl B e group
  rw [RC_toList_eq, List.map_flatMap, List.foldl_flatMap, hgroup]

end

namespace GradedRelation

variable {K S S' W W' E E' : Type} {B : Backend K S W E} {B' : Backend K S' W' E'}
  (G : GradedRelation B B')

/-! ### Allocation, constants, assertions -/

theorem simulates_witnessBit :
    Simulates G.state (G.wire 1) (VoleArc.witnessBit B) (VoleArc.witnessBit B') := G.witnessBit

theorem simulates_assertZero {x : W} {x' : W'} (h : G.wire 1 x x') :
    Simulates G.state Eq (VoleArc.assertZero B x) (VoleArc.assertZero B' x') :=
  Simulates.modify fun _ _ hs => G.assertZero h hs

theorem simulates_assertExprZero {e : E} {e' : E'} (h : G.expr 16 e e') :
    Simulates G.state Eq (VoleArc.assertExprZero B e) (VoleArc.assertExprZero B' e') :=
  Simulates.modify fun _ _ hs => G.assertExprZero h hs

/-- Allocated bits are wires of degree one. -/
theorem simulates_allocBits (n : ℕ) :
    Simulates G.state (Cellwise (G.wire 1)) (allocBits B n) (allocBits B' n) := by
  induction n with
  | zero => exact Simulates.pure fun i hi => absurd hi (Nat.not_lt_zero i)
  | succ n ih =>
    refine ih.bind fun wires wires' hwires => ?_
    refine G.simulates_witnessBit.bind fun wire wire' hwire => ?_
    exact Simulates.pure (hwires.push hwire)

theorem wires_mono {xs : List W} {xs' : List W'} (h : List.Forall₂ (G.wire 0) xs xs') :
    List.Forall₂ (G.wire 1) xs xs' :=
  h.imp fun _ _ hx => G.wire_mono (Nat.zero_le 1) hx

variable [Field K]

theorem wire_constantBit (bit : Bool) :
    G.wire 0 (constantBit B bit) (constantBit B' bit) := G.constant _

theorem wires_constantBytes (bytes : Bytes) :
    List.Forall₂ (G.wire 1) (constantBytes B bytes) (constantBytes B' bytes) :=
  G.wires_mono (forall₂_map_self G.wire_constantBit _)

theorem wires_targetConstantBits (target : List GF16) :
    List.Forall₂ (G.wire 1) (targetConstantBits B target) (targetConstantBits B' target) :=
  G.wires_mono (forall₂_map_self G.wire_constantBit _)

/-! ### Lifting nibbles -/

theorem wire_liftGf16 (F : BinaryFields K) {bits : List W} {bits' : List W'}
    (h : List.Forall₂ (G.wire 1) bits bits') :
    G.wire 1 (liftGf16 B F bits) (liftGf16 B' F bits') := by
  have hzero : G.wire 1 (B.constant 0) (B'.constant 0) :=
    G.wire_mono (Nat.zero_le 1) (G.constant 0)
  refine List.rel_foldl ?_ hzero (forall₂_zipIdx h 0)
  rintro a a' ha ⟨bit, i⟩ ⟨bit', i'⟩ ⟨hbit, hi⟩
  obtain rfl : i = i' := hi
  exact G.add ha (G.scale _ hbit)

theorem wires_liftNibbles (F : BinaryFields K) {bits : List W} {bits' : List W'}
    (h : List.Forall₂ (G.wire 1) bits bits') :
    List.Forall₂ (G.wire 1) (liftNibbles B F bits) (liftNibbles B' F bits') :=
  forall₂_map (fun _ _ hp => G.wire_liftGf16 F hp) (forall₂_chunks 4 h)

/-! ### Keccak on expressions -/

theorem wires_initialSpongeState {message : List W} {message' : List W'}
    (h : List.Forall₂ (G.wire 1) message message') :
    Cellwise (G.wire 1) (initialSpongeState B message) (initialSpongeState B' message') := by
  have hconstant : ∀ c, G.wire 1 (B.constant c) (B'.constant c) :=
    fun c => G.wire_mono (Nat.zero_le 1) (G.constant c)
  unfold initialSpongeState
  simp only [h.length_eq]
  refine Cellwise.set ?_ _ _ (hconstant 1)
  refine Cellwise.scatter ?_ _ _ fun _ => hconstant 1
  exact Cellwise.scatter (cellwise_replicate (hconstant 0)) _ _
    fun i => forall₂_getD h (hconstant 0) i

/-- The linear layer keeps the degree. -/
theorem exprs_keccakLinearExpr {d : ℕ} {state : Vector E 1600} {state' : Vector E' 1600}
    (h : Cellwise (G.expr d) state state') :
    Cellwise (G.expr d) (keccakLinearExpr B state) (keccakLinearExpr B' state') := by
  have hzero : G.expr d (B.wireExpr (B.constant 0)) (B'.wireExpr (B'.constant 0)) :=
    G.expr_mono (Nat.zero_le d) (G.wireExpr (G.constant 0))
  unfold keccakLinearExpr
  refine Cellwise.scatter (cellwise_replicate hzero) _ _ fun c => ?_
  have hcolumns : Cellwise (G.expr d) (columnExprs B state) (columnExprs B' state') := by
    refine Cellwise.scatter (cellwise_replicate hzero) _ _ fun ⟨x, z⟩ => ?_
    exact foldl_self (fun _ _ y hp => G.exprAdd hp (h.get (bitIndex (lane (y, x)) z)))
      (List.finRange 5) hzero
  exact G.exprAdd (h.get _) (G.exprAdd (hcolumns.get _) (hcolumns.get _))

/-- A round doubles the degree: `chi` multiplies two bits of the linear layer. -/
theorem exprs_keccakRoundExpr {d : ℕ} {state : Vector E 1600} {state' : Vector E' 1600}
    (h : Cellwise (G.expr d) state state') (roundConstant : U64) :
    Cellwise (G.expr (2 * d)) (keccakRoundExpr B state roundConstant)
      (keccakRoundExpr B' state' roundConstant) := by
  have hone : ∀ e, G.expr e (B.wireExpr (B.constant 1)) (B'.wireExpr (B'.constant 1)) :=
    fun e => G.expr_mono (Nat.zero_le e) (G.wireExpr (G.constant 1))
  have htheta := G.exprs_keccakLinearExpr h
  have hchi : ∀ i j k : Fin 1600, G.expr (2 * d)
      (B.exprAdd ((keccakLinearExpr B state).get i)
        (B.exprMul (B.exprAdd (B.wireExpr (B.constant 1)) ((keccakLinearExpr B state).get j))
          ((keccakLinearExpr B state).get k)))
      (B'.exprAdd ((keccakLinearExpr B' state').get i)
        (B'.exprMul
          (B'.exprAdd (B'.wireExpr (B'.constant 1)) ((keccakLinearExpr B' state').get j))
          ((keccakLinearExpr B' state').get k))) := by
    intro i j k
    have hproduct := G.exprMul (G.exprAdd (hone d) (htheta.get j)) (htheta.get k)
    rw [← two_mul] at hproduct
    exact G.exprAdd (G.expr_mono (by omega) (htheta.get i)) hproduct
  unfold keccakRoundExpr
  refine cellwise_ofFn fun index => ?_
  dsimp only
  split_ifs
  · exact G.exprAdd (hchi _ _ _) (hone _)
  · exact hchi _ _ _

/-- Rounds with any constants. -/
theorem exprs_rounds (constants : List U64) {d : ℕ} {state : Vector E 1600}
    {state' : Vector E' 1600} (h : Cellwise (G.expr d) state state') :
    Cellwise (G.expr (2 ^ constants.length * d)) (constants.foldl (keccakRoundExpr B) state)
      (constants.foldl (keccakRoundExpr B') state') := by
  induction constants generalizing d state state' with
  | nil =>
    rw [List.length_nil, pow_zero, one_mul]
    exact h
  | cons rc constants ih =>
    rw [List.length_cons, pow_succ, mul_assoc, List.foldl_cons, List.foldl_cons]
    exact ih (G.exprs_keccakRoundExpr h rc)

/-- Four rounds multiply the degree by sixteen. -/
theorem exprs_groupExpr {d : ℕ} {state : Vector E 1600} {state' : Vector E' 1600}
    (h : Cellwise (G.expr d) state state') (group : Fin 6) :
    Cellwise (G.expr (16 * d)) (groupExpr B state group) (groupExpr B' state' group) := by
  rw [groupExpr_eq_foldl, groupExpr_eq_foldl]
  have hgroup := G.exprs_rounds ((groupConstants group).map Prod.fst) h
  rw [List.length_map, length_groupConstants] at hgroup
  exact hgroup

/-! ### SHAKE256 -/

/-- One group asserts its equations at degree sixteen and returns new bits. -/
theorem simulates_shakeGroup {state : Vector W 1600} {state' : Vector W' 1600}
    (h : Cellwise (G.wire 1) state state') (group : Fin 6) :
    Simulates G.state (Cellwise (G.wire 1)) (shakeGroup B state group)
      (shakeGroup B' state' group) := by
  have hexpr : Cellwise (G.expr (16 * 1)) _ _ :=
    G.exprs_groupExpr (h.map fun _ _ hx => G.wireExpr hx) group
  refine (G.simulates_allocBits 1600).bind fun checkpoint checkpoint' hcheckpoint => ?_
  refine Simulates.bind (Q := Eq) ?_ fun _ _ _ => Simulates.pure hcheckpoint
  refine Simulates.forM (fun p p' hp => ?_) (forall₂_zip hexpr.toList hcheckpoint.toList)
  have hcommitted := G.expr_mono (show 1 ≤ 16 by omega) (G.wireExpr hp.2)
  exact G.simulates_assertExprZero (G.exprAdd hp.1 hcommitted)

theorem simulates_shakeDegree16 {message : List W} {message' : List W'}
    (h : List.Forall₂ (G.wire 1) message message') :
    Simulates G.state (Cellwise (G.wire 1)) (shakeDegree16 B message) (shakeDegree16 B' message') :=
  Simulates.foldlM (fun _ _ group hstate => G.simulates_shakeGroup hstate group) (List.finRange 6)
    (G.wires_initialSpongeState h)

theorem simulates_shakeHiddenOutput {message : List W} {message' : List W'}
    (h : List.Forall₂ (G.wire 1) message message') (outputBits : ℕ) :
    Simulates G.state (List.Forall₂ (G.wire 1)) (shakeHiddenOutput B message outputBits)
      (shakeHiddenOutput B' message' outputBits) := by
  refine (G.simulates_shakeDegree16 h).bind fun state state' hstate => ?_
  exact Simulates.pure (List.forall₂_take outputBits hstate.toList)

theorem simulates_shakeAssertOutput {message expected : List W} {message' expected' : List W'}
    (hmessage : List.Forall₂ (G.wire 1) message message')
    (hexpected : List.Forall₂ (G.wire 1) expected expected') :
    Simulates G.state Eq (shakeAssertOutput B message expected)
      (shakeAssertOutput B' message' expected') := by
  refine (G.simulates_shakeDegree16 hmessage).bind fun state state' hstate => ?_
  refine Simulates.forM (fun p p' hp => ?_) (forall₂_zip hstate.toList hexpected)
  exact G.simulates_assertZero (G.add hp.1 hp.2)

/-! ### Messages -/

theorem wires_credentialWires (scope : Bytes32) {secret hidingNonce : List W}
    {secret' hidingNonce' : List W'} (hsecret : List.Forall₂ (G.wire 1) secret secret')
    (hhiding : List.Forall₂ (G.wire 1) hidingNonce hidingNonce') :
    List.Forall₂ (G.wire 1) (credentialWires B scope secret hidingNonce)
      (credentialWires B' scope secret' hidingNonce') := by
  refine List.rel_append (List.rel_append (List.rel_append ?_ ?_) hsecret) hhiding
  · exact G.wires_constantBytes _
  · exact G.wires_constantBytes _

theorem wires_padToByte {message : List W} {message' : List W'}
    (h : List.Forall₂ (G.wire 1) message message') :
    List.Forall₂ (G.wire 1) (padToByte B message) (padToByte B' message') := by
  unfold padToByte
  rw [h.length_eq]
  refine List.rel_append h ?_
  rw [← List.map_replicate, ← List.map_replicate]
  exact G.wires_mono (forall₂_map_self G.wire_constantBit _)

theorem wires_signedCredentialWires {commitment salt : List W} {commitment' salt' : List W'}
    (hcommitment : List.Forall₂ (G.wire 1) commitment commitment')
    (hsalt : List.Forall₂ (G.wire 1) salt salt') :
    List.Forall₂ (G.wire 1) (signedCredentialWires B commitment salt)
      (signedCredentialWires B' commitment' salt') :=
  List.rel_append (G.wires_padToByte (List.rel_append (G.wires_constantBytes _) hcommitment)) hsalt

theorem wires_tagWires (scope : Bytes32) {secret nonce : List W} {secret' nonce' : List W'}
    (hsecret : List.Forall₂ (G.wire 1) secret secret')
    (hnonce : List.Forall₂ (G.wire 1) nonce nonce') :
    List.Forall₂ (G.wire 1) (tagWires B secret scope nonce)
      (tagWires B' secret' scope nonce') := by
  refine List.rel_append (List.rel_append (List.rel_append ?_ hsecret) ?_) hnonce
  · exact G.wires_constantBytes _
  · exact G.wires_constantBytes _

/-! ### Range check -/

omit [Field K] in
/-- One bit position asserts a quadratic equation. -/
theorem simulates_assertCarry {value carries : Vector W 32} {value' carries' : Vector W' 32}
    (hvalue : Cellwise (G.wire 1) value value') (hcarries : Cellwise (G.wire 1) carries carries')
    (limit : U32) {carryIn : W} {carryIn' : W'} (hcarry : G.wire 1 carryIn carryIn')
    (bit : Fin 32) :
    Simulates G.state (G.wire 1) (assertCarry B value carries limit carryIn bit)
      (assertCarry B' value' carries' limit carryIn' bit) := by
  have ha := G.wireExpr (hvalue bit bit.isLt)
  have hc := G.wireExpr hcarry
  have hequation := G.wireExpr (hcarries bit bit.isLt)
  have hproduct := G.exprMul ha hc
  have hlift : ∀ {e : E} {e' : E'}, G.expr 1 e e' → G.expr 2 e e' :=
    fun h => G.expr_mono (by omega) h
  unfold assertCarry
  refine Simulates.bind (Q := Eq) (G.simulates_assertExprZero ?_) fun _ _ _ =>
    Simulates.pure (hcarries bit bit.isLt)
  apply G.expr_mono (show 2 ≤ 16 by omega)
  split_ifs
  · exact G.exprAdd (G.exprAdd (hlift (G.exprAdd hequation ha)) hproduct) (hlift hc)
  · exact G.exprAdd (hlift hequation) hproduct

theorem simulates_assertU32LessThan {value carries : Vector W 32} {value' carries' : Vector W' 32}
    (hvalue : Cellwise (G.wire 1) value value') (hcarries : Cellwise (G.wire 1) carries carries')
    (limit : U32) :
    Simulates G.state Eq (assertU32LessThan B value carries limit)
      (assertU32LessThan B' value' carries' limit) := by
  refine Simulates.bind (Simulates.foldlM (fun _ _ bit hcarry =>
    G.simulates_assertCarry hvalue hcarries limit hcarry bit) (List.finRange 32) ?_)
    fun _ _ hcarry => G.simulates_assertZero hcarry
  exact G.wire_mono (Nat.zero_le 1) (G.constant 1)

/-! ### The two circuits -/

variable {P : ArcParams}

theorem simulates_issueBuild (c : IssueCircuit P) :
    Simulates G.state Eq (c.build B) (c.build B') := by
  unfold IssueCircuit.build
  split_ifs
  · exact Simulates.throw
  refine (G.simulates_allocBits _).bind fun secret secret' hsecret => ?_
  refine (G.simulates_allocBits _).bind fun hidingNonce hidingNonce' hhiding => ?_
  exact G.simulates_shakeAssertOutput
    (G.wires_credentialWires c.credentialScope hsecret.toList hhiding.toList)
    (G.wires_targetConstantBits c.target)

theorem simulates_presentationBuild (c : PresentationCircuit P) (F : BinaryFields K) :
    Simulates G.state Eq (c.build F B) (c.build F B') := by
  unfold PresentationCircuit.build
  split_ifs
  · exact Simulates.throw
  refine (G.simulates_allocBits _).bind fun signature signature' hsignature => ?_
  refine (G.simulates_allocBits _).bind fun secret secret' hsecret => ?_
  refine (G.simulates_allocBits _).bind fun hidingNonce hidingNonce' hhiding => ?_
  refine (G.simulates_allocBits _).bind fun salt salt' hsalt => ?_
  refine (G.simulates_allocBits _).bind fun nonce nonce' hnonce => ?_
  refine (G.simulates_allocBits _).bind fun carries carries' hcarries => ?_
  refine (G.simulates_assertU32LessThan hnonce hcarries _).bind fun _ _ _ => ?_
  refine (G.simulates_shakeHiddenOutput
    (G.wires_credentialWires c.credentialScope hsecret.toList hhiding.toList) _).bind
    fun commitment commitment' hcommitment => ?_
  refine (G.simulates_shakeHiddenOutput
    (G.wires_signedCredentialWires hcommitment hsalt.toList) _).bind
    fun target target' htarget => ?_
  refine Simulates.bind (Q := Eq) (Simulates.modify fun _ _ hs => G.assertQuadFormSystem _
    (G.wires_liftNibbles F hsignature.toList) (G.wires_liftNibbles F htarget) hs) fun _ _ _ => ?_
  exact G.simulates_shakeAssertOutput
    (G.wires_tagWires c.presentationScope hsecret.toList hnonce.toList)
    (G.wires_constantBytes c.tag.toList)

end GradedRelation

end VoleArc
