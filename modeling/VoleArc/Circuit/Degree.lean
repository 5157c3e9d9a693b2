import VoleArc.Circuit.Correctness
import VoleArc.Circuit.Graded
import VoleArc.Circuit.Issuance
import VoleArc.Lib.WireExpr

/-!
# VoleArc.Circuit.Degree — the asserted expressions and their degrees

`symbolicBackend` keeps wires and expressions as syntax and records what `build` passes to each
assertion, so the degree of every asserted expression can be read off its transcript.  Evaluating
the transcript on an assignment gives the values `evalBackend` asserts there.
-/

namespace VoleArc

open BitField Constraint Keccak Relational WireExpr

/-! ### Recording assertions -/

/-- One call of an assertion. -/
inductive Assertion (K : Type) where
  | zero (wire : Wire K)
  | exprZero (expr : Expr K)
  | quadFormSystem (x : List (Wire K)) (system : QuadFormSystem) (target : List (Wire K))

/-- The expression passed to `assert_zero` or `assert_expr_zero`. -/
def Assertion.expr? {K : Type} : Assertion K → Option (Expr K)
  | zero x => some (.wire x)
  | exprZero e => some e
  | quadFormSystem _ _ _ => none

/-- How many witness bits were allocated, and what was asserted. -/
structure Transcript (K : Type) where
  next : ℕ
  asserted : List (Assertion K)

def Transcript.empty {K : Type} : Transcript K := ⟨0, []⟩

/-- The expressions asserted to vanish one by one. -/
def Transcript.exprs {K : Type} (s : Transcript K) : List (Expr K) :=
  s.asserted.filterMap Assertion.expr?

/-- Wires and expressions as syntax; the witness wires are numbered in order of allocation. -/
def symbolicBackend {K : Type} : Backend K (Transcript K) (Wire K) (Expr K) where
  witnessBit s := .ok (.witness s.next, { s with next := s.next + 1 })
  constant c := .constant c
  add x y := .add x y
  scale c x := .scale c x
  wireExpr x := .wire x
  exprAdd x y := .add x y
  exprMul x y := .mul x y
  assertZero x s := { s with asserted := s.asserted ++ [.zero x] }
  assertExprZero e s := { s with asserted := s.asserted ++ [.exprZero e] }
  assertQuadFormSystem x sys target s :=
    { s with asserted := s.asserted ++ [.quadFormSystem x sys target] }

theorem Transcript.exprs_assert {K : Type} (s : Transcript K) (a : Assertion K) :
    ({ s with asserted := s.asserted ++ [a] } : Transcript K).exprs =
      s.exprs ++ a.expr?.toList := by
  rw [exprs, exprs, List.filterMap_append]
  cases a <;> rfl

/-! ### Degrees -/

theorem Transcript.forall_exprs_assert {K : Type} {s : Transcript K} {p : Expr K → Prop}
    (hs : ∀ e ∈ s.exprs, p e) {a : Assertion K} (ha : ∀ e ∈ a.expr?, p e) :
    ∀ e ∈ ({ s with asserted := s.asserted ++ [a] } : Transcript K).exprs, p e := by
  intro e he
  rw [exprs_assert, List.mem_append, Option.mem_toList] at he
  exact he.elim (hs e) (ha e)

/-- The symbolic backend beside itself: the degree is the degree of the syntax. -/
def degreeRelation (K : Type) : GradedRelation (symbolicBackend (K := K)) symbolicBackend where
  state s s' := s = s' ∧ ∀ e ∈ s.exprs, e.degree ≤ 16
  wire d x x' := x = x' ∧ x.degree ≤ d
  expr d e e' := e = e' ∧ e.degree ≤ d
  wire_mono hde h := ⟨h.1, h.2.trans hde⟩
  expr_mono hde h := ⟨h.1, h.2.trans hde⟩
  witnessBit := by
    rintro s s' ⟨rfl, hs⟩ x t hrun
    cases hrun
    exact ⟨_, _, rfl, ⟨rfl, le_refl 1⟩, rfl, hs⟩
  constant c := ⟨rfl, Nat.le_refl 0⟩
  add := by
    rintro d x x' y y' ⟨rfl, hx⟩ ⟨rfl, hy⟩
    exact ⟨rfl, max_le hx hy⟩
  scale := by
    rintro d x x' c ⟨rfl, hx⟩
    exact ⟨rfl, hx⟩
  wireExpr := by
    rintro d x x' ⟨rfl, hx⟩
    exact ⟨rfl, hx⟩
  exprAdd := by
    rintro d x x' y y' ⟨rfl, hx⟩ ⟨rfl, hy⟩
    exact ⟨rfl, max_le hx hy⟩
  exprMul := by
    rintro d e x x' y y' ⟨rfl, hx⟩ ⟨rfl, hy⟩
    exact ⟨rfl, Nat.add_le_add hx hy⟩
  assertZero := by
    rintro x x' s s' ⟨rfl, hx⟩ ⟨rfl, hs⟩
    refine ⟨rfl, Transcript.forall_exprs_assert hs ?_⟩
    rintro e ⟨⟩
    exact hx.trans (by omega)
  assertExprZero := by
    rintro e e' s s' ⟨rfl, he⟩ ⟨rfl, hs⟩
    refine ⟨rfl, Transcript.forall_exprs_assert hs ?_⟩
    rintro e ⟨⟩
    exact he
  assertQuadFormSystem := by
    rintro xs xs' ts ts' s s' sys hxs hts ⟨rfl, hs⟩
    obtain rfl : xs = xs' := List.forall₂_eq_eq_eq ▸ hxs.imp fun _ _ h => h.1
    obtain rfl : ts = ts' := List.forall₂_eq_eq_eq ▸ hts.imp fun _ _ h => h.1
    exact ⟨rfl, Transcript.forall_exprs_assert hs fun e he => nomatch he⟩

/-- Four rounds on wires, whichever they are. -/
theorem degree_groupExpr_le {K : Type} [Field K] (state : Vector (Wire K) 1600) (group : Fin 6)
    (i : Fin 1600) :
    ((groupExpr symbolicBackend (state.map Expr.wire) group).get i).degree ≤ 16 := by
  have hwires : Cellwise ((degreeRelation K).wire 1) state state :=
    fun j hj => ⟨rfl, Wire.degree_le_one state[j]⟩
  have hexprs := hwires.map fun _ _ hx => (degreeRelation K).wireExpr hx
  exact (((degreeRelation K).exprs_groupExpr hexprs group).get i).2

/-! ### Allocation -/

/-- The wires of `n` bits allocated from number `first` on. -/
def freshWires {K : Type} (n first : ℕ) : Vector (Wire K) n :=
  Vector.ofFn fun i => .witness (first + i)

theorem degree_freshWires {K : Type} {n : ℕ} (first : ℕ) (i : Fin n) :
    ((freshWires n first : Vector (Wire K) n).get i).degree = 1 := by
  have hget : (freshWires n first : Vector (Wire K) n).get i = .witness (first + i) :=
    Vector.getElem_ofFn i.isLt
  rw [hget]
  rfl

theorem run_allocBits {K : Type} (n : ℕ) (s : Transcript K) :
    allocBits symbolicBackend n s =
      .ok (freshWires n s.next, { s with next := s.next + n }) := by
  induction n with
  | zero => exact congrArg (fun v => Except.ok (v, s)) Vector.eq_empty.symm
  | succ n ih =>
    have hpush : (freshWires n s.next).push (Wire.witness (s.next + n) : Wire K) =
        freshWires (n + 1) s.next := by
      ext i hi
      rw [Vector.getElem_push]
      split_ifs with hlt
      · simp [freshWires]
      · obtain rfl : i = n := by omega
        simp [freshWires]
    show (allocBits symbolicBackend n >>= fun wires => _) s = _
    rw [run_bind ih, ← hpush]
    rfl

/-! ### Groups -/

section Groups

variable {K : Type}

theorem run_assertExprZeros {γ : Type} (f : γ → Expr K) (l : List γ) (s : Transcript K) :
    (l.forM fun p => assertExprZero symbolicBackend (f p)) s =
      .ok (PUnit.unit, { s with asserted := s.asserted ++ l.map fun p => .exprZero (f p) }) := by
  induction l generalizing s with
  | nil =>
    rw [List.map_nil, List.append_nil]
    rfl
  | cons p l ih =>
    show (l.forM fun p => assertExprZero symbolicBackend (f p))
      { s with asserted := s.asserted ++ [.exprZero (f p)] } = _
    rw [ih, List.append_assoc]
    rfl

variable [Field K]

/-- The equations of one group: each bit of four rounds from `state` is the bit committed to it. -/
def groupAssertions (state : Vector (Wire K) 1600) (group : Fin 6) (first : ℕ) :
    List (Assertion K) :=
  ((groupExpr symbolicBackend (state.map Expr.wire) group).toList.zip
    (freshWires 1600 first).toList).map fun p => .exprZero (.add p.1 (.wire p.2))

/-- One group allocates its result and asserts its equations. -/
theorem run_shakeGroup (state : Vector (Wire K) 1600) (group : Fin 6) (s : Transcript K) :
    shakeGroup symbolicBackend state group s =
      .ok (freshWires 1600 s.next,
        ⟨s.next + 1600, s.asserted ++ groupAssertions state group s.next⟩) := by
  unfold shakeGroup
  rw [run_bind (run_allocBits 1600 s)]
  have hassert := run_assertExprZeros (fun p : Expr K × Wire K => .add p.1 (.wire p.2))
    ((groupExpr symbolicBackend (state.map Expr.wire) group).toList.zip
      (freshWires 1600 s.next).toList) { s with next := s.next + 1600 }
  exact run_bind hassert

/-- The equations of a list of groups, each starting from the bits the one before committed. -/
def groupsAssertions : List (Fin 6) → Vector (Wire K) 1600 → ℕ → List (Assertion K)
  | [], _, _ => []
  | group :: groups, state, first =>
    groupAssertions state group first ++
      groupsAssertions groups (freshWires 1600 first) (first + 1600)

/-- The loop over the groups, from any state. -/
theorem run_groups (group : Fin 6) (groups : List (Fin 6)) (state : Vector (Wire K) 1600)
    (s : Transcript K) :
    (group :: groups).foldlM (shakeGroup symbolicBackend) state s =
      .ok (freshWires 1600 (s.next + 1600 * groups.length),
        ⟨s.next + 1600 * (groups.length + 1),
          s.asserted ++ groupsAssertions (group :: groups) state s.next⟩) := by
  induction groups generalizing group state s with
  | nil =>
    rw [List.foldlM_cons, run_bind (run_shakeGroup state group s), groupsAssertions,
      groupsAssertions, List.append_nil]
    rfl
  | cons next groups ih =>
    have hcons : groupsAssertions (group :: next :: groups) state s.next =
        groupAssertions state group s.next ++
          groupsAssertions (next :: groups) (freshWires 1600 s.next) (s.next + 1600) := rfl
    rw [List.foldlM_cons, run_bind (run_shakeGroup state group s), ih, hcons, List.append_assoc,
      List.length_cons, Nat.add_assoc, Nat.add_assoc]
    simp only [Nat.mul_succ, Nat.add_comm 1600]

/-- The whole sponge: six groups in order, from the padded message. -/
theorem run_shakeDegree16 (message : List (Wire K)) (s : Transcript K) :
    shakeDegree16 symbolicBackend message s =
      .ok (freshWires 1600 (s.next + 8000),
        ⟨s.next + 9600, s.asserted ++ groupsAssertions (List.finRange 6)
          (initialSpongeState symbolicBackend message) s.next⟩) :=
  run_groups 0 [1, 2, 3, 4, 5] (initialSpongeState symbolicBackend message) s

end Groups

/-! ### Evaluation -/

section Evaluation

variable {K : Type} [Field K] (F : BinaryFields K)

/-- The bits of an assignment, as values of the witness wires. -/
def assignment (bits : List Bool) (index : ℕ) : K := ofBool (bits.getD index false)

/-- The values an assertion asks to vanish. -/
def Assertion.values (bits : List Bool) : Assertion K → List K
  | zero x => [x.eval (assignment bits)]
  | exprZero e => [e.eval (assignment bits)]
  | quadFormSystem x sys target => quadFormResiduals F sys (x.map (Wire.eval (assignment bits)))
      (target.map (Wire.eval (assignment bits)))

/-- An assertion about the first `n` witness wires. -/
def Assertion.Below (n : ℕ) : Assertion K → Prop
  | zero x => x.Below n
  | exprZero e => e.Below n
  | quadFormSystem x _ target => (∀ y ∈ x, y.Below n) ∧ ∀ y ∈ target, y.Below n

/-- A list of wires and their values. -/
theorem forall₂_eval {n : ℕ} {bits : List Bool} {xs : List (Wire K)} {vs : List K}
    (h : List.Forall₂ (fun x v => x.Below n ∧ x.eval (assignment bits) = v) xs vs) :
    (∀ x ∈ xs, x.Below n) ∧ xs.map (Wire.eval (assignment bits)) = vs := by
  induction h with
  | nil => exact ⟨fun x hx => (List.not_mem_nil hx).elim, rfl⟩
  | cons hx _ ih => exact ⟨List.forall_mem_cons.mpr ⟨hx.1, ih.1⟩, congrArg₂ _ hx.2 ih.2⟩

/-- A transcript beside the evaluation on `bits`: as many bits are read as wires were allocated, and
the asserted values are those of the recorded assertions. -/
structure EvalRelated (bits : List Bool) (s : Transcript K) (s' : EvalState K) : Prop where
  input : s'.input = bits.drop s.next
  next_le : s.next ≤ bits.length
  below : ∀ a ∈ s.asserted, a.Below bits.length
  asserted : s'.asserted = s.asserted.flatMap (Assertion.values F bits)

theorem EvalRelated.assert {bits : List Bool} {s : Transcript K} {s' : EvalState K}
    (h : EvalRelated F bits s s') {a : Assertion K} (ha : a.Below bits.length) :
    EvalRelated F bits { s with asserted := s.asserted ++ [a] }
      { s' with asserted := s'.asserted ++ a.values F bits } where
  input := h.input
  next_le := h.next_le
  below := List.forall_mem_append.mpr ⟨h.below, List.forall_mem_singleton.mpr ha⟩
  asserted := by
    rw [List.flatMap_append, List.flatMap_singleton, ← h.asserted]

/-- The symbolic backend beside the evaluation on an assignment. -/
def evalRelation (bits : List Bool) : GradedRelation symbolicBackend (evalBackend F) where
  state := EvalRelated F bits
  wire _ x v := x.Below bits.length ∧ x.eval (assignment bits) = v
  expr _ e v := e.Below bits.length ∧ e.eval (assignment bits) = v
  wire_mono _ h := h
  expr_mono _ h := h
  witnessBit := by
    rintro s ⟨input, asserted⟩ h v t hrun
    obtain rfl : input = bits.drop s.next := h.input
    rcases Nat.lt_or_ge s.next bits.length with hlt | hge
    · rw [List.drop_eq_getElem_cons hlt] at hrun
      cases hrun
      refine ⟨_, _, rfl, ⟨hlt, ?_⟩, rfl, hlt, h.below, h.asserted⟩
      exact congrArg ofBool (List.getD_eq_getElem bits false hlt)
    · rw [List.drop_eq_nil_of_le hge] at hrun
      cases hrun
  constant c := ⟨trivial, rfl⟩
  add := by
    rintro d x v y w ⟨hx, rfl⟩ ⟨hy, rfl⟩
    exact ⟨⟨hx, hy⟩, rfl⟩
  scale := by
    rintro d x v c ⟨hx, rfl⟩
    exact ⟨hx, rfl⟩
  wireExpr := by
    rintro d x v ⟨hx, rfl⟩
    exact ⟨hx, rfl⟩
  exprAdd := by
    rintro d x v y w ⟨hx, rfl⟩ ⟨hy, rfl⟩
    exact ⟨⟨hx, hy⟩, rfl⟩
  exprMul := by
    rintro d e x v y w ⟨hx, rfl⟩ ⟨hy, rfl⟩
    exact ⟨⟨hx, hy⟩, rfl⟩
  assertZero := by
    rintro x v s s' ⟨hx, rfl⟩ h
    exact h.assert F (a := .zero x) hx
  assertExprZero := by
    rintro e v s s' ⟨he, rfl⟩ h
    exact h.assert F (a := .exprZero e) he
  assertQuadFormSystem := by
    rintro xs vs ts ws s s' sys hxs hts h
    obtain ⟨hx, rfl⟩ := forall₂_eval hxs
    obtain ⟨ht, rfl⟩ := forall₂_eval hts
    exact h.assert F (a := .quadFormSystem xs sys ts) ⟨hx, ht⟩

/-! ### The polynomials of the circuits -/

theorem valuesWith_map {R R' : Type} [CommRing R] [CommRing R'] (f : R →+* R') (embed : GF16 → R)
    (sys : QuadFormSystem) (x : List R) :
    (sys.valuesWith (· * ·) embed x).map f =
      sys.valuesWith (· * ·) (fun a => f (embed a)) (x.map f) := by
  have hget : ∀ i, (x.map f).getD i 0 = f (x.getD i 0) := fun i => by
    rw [← map_zero f, List.getD_map]
  simp only [QuadFormSystem.valuesWith, List.map_map]
  refine List.map_congr_left fun e _ => ?_
  simp only [Function.comp_apply, map_sum, map_mul, hget]

/-- The polynomials of a quadratic system applied to wires. -/
noncomputable def quadFormPolynomials (sys : QuadFormSystem) (x target : List (Wire K)) :
    List (MvPolynomial ℕ K) :=
  let forms := sys.valuesWith (· * ·) (fun a => MvPolynomial.C (F.embedGf16 a))
    (x.map Wire.polynomial)
  if forms.length = target.length then
    List.zipWith (· - ·) forms (target.map Wire.polynomial)
  else [1]

/-- The polynomials an assertion asks to vanish. -/
noncomputable def Assertion.polynomials : Assertion K → List (MvPolynomial ℕ K)
  | zero x => [x.polynomial]
  | exprZero e => [e.polynomial]
  | quadFormSystem x sys target => quadFormPolynomials F sys x target

theorem eval_quadFormPolynomials (a : ℕ → K) (sys : QuadFormSystem) (x target : List (Wire K)) :
    (quadFormPolynomials F sys x target).map (MvPolynomial.eval a) =
      quadFormResiduals F sys (x.map (Wire.eval a)) (target.map (Wire.eval a)) := by
  have hwires : ∀ xs : List (Wire K),
      (xs.map Wire.polynomial).map (MvPolynomial.eval a) = xs.map (Wire.eval a) := by
    intro xs
    rw [List.map_map]
    exact List.map_congr_left fun x _ => x.eval_polynomial a
  have hforms : (sys.valuesWith (· * ·) (fun b => MvPolynomial.C (F.embedGf16 b))
      (x.map Wire.polynomial)).map (MvPolynomial.eval a) = sys.lifted F (x.map (Wire.eval a)) := by
    rw [valuesWith_map, hwires]
    simp only [MvPolynomial.eval_C]
    rfl
  unfold quadFormPolynomials quadFormResiduals
  dsimp only
  rw [← hforms, List.length_map, List.length_map]
  split_ifs
  · rw [List.map_zipWith, ← hwires, List.zipWith_map]
    simp only [map_sub]
  · rw [List.map_singleton, map_one]

/-- The quadratic equations have degree at most two. -/
theorem totalDegree_quadFormPolynomials_le (sys : QuadFormSystem) (x target : List (Wire K)) :
    ∀ p ∈ quadFormPolynomials F sys x target, p.totalDegree ≤ 2 := by
  have hwire : ∀ y : Wire K, y.polynomial.totalDegree ≤ 1 :=
    fun y => y.totalDegree_polynomial_le.trans y.degree_le_one
  have hget : ∀ i, ((x.map Wire.polynomial).getD i 0).totalDegree ≤ 1 := by
    intro i
    rcases Nat.lt_or_ge i (x.map Wire.polynomial).length with hlt | hge
    · rw [List.getD_eq_getElem _ _ hlt, List.getElem_map]
      exact hwire _
    · rw [List.getD_eq_default _ _ hge, MvPolynomial.totalDegree_zero]
      exact Nat.zero_le 1
  have hform : ∀ p ∈ sys.valuesWith (· * ·) (fun a => MvPolynomial.C (F.embedGf16 a))
      (x.map Wire.polynomial), p.totalDegree ≤ 2 := by
    intro p hp
    obtain ⟨e, -, rfl⟩ := List.mem_map.mp hp
    refine MvPolynomial.totalDegree_finsetSum_le fun i _ =>
      MvPolynomial.totalDegree_finsetSum_le fun j _ => ?_
    refine (MvPolynomial.totalDegree_mul _ _).trans (Nat.add_le_add ?_ (hget j))
    refine (MvPolynomial.totalDegree_mul _ _).trans ?_
    rw [MvPolynomial.totalDegree_C, Nat.zero_add]
    exact hget i
  intro p hp
  unfold quadFormPolynomials at hp
  dsimp only at hp
  split_ifs at hp
  · rw [← List.map_uncurry_zip_eq_zipWith] at hp
    obtain ⟨⟨f, t⟩, hft, rfl⟩ := List.mem_map.mp hp
    obtain ⟨hf, ht⟩ := List.of_mem_zip hft
    obtain ⟨y, -, rfl⟩ := List.mem_map.mp ht
    exact (MvPolynomial.totalDegree_sub _ _).trans
      (max_le (hform f hf) ((hwire y).trans (by omega)))
  · rw [List.mem_singleton.mp hp, MvPolynomial.totalDegree_one]
    exact Nat.zero_le 2

theorem Assertion.eval_polynomials (bits : List Bool) (a : Assertion K) :
    (a.polynomials F).map (MvPolynomial.eval (assignment bits)) = a.values F bits := by
  cases a with
  | zero x => exact congrArg (fun v => [v]) (x.eval_polynomial _)
  | exprZero e => exact congrArg (fun v => [v]) (e.eval_polynomial _)
  | quadFormSystem x sys target => exact eval_quadFormPolynomials F (assignment bits) sys x target

/-- Below degree sixteen, whatever the kind of the assertion. -/
theorem Assertion.totalDegree_polynomials_le {a : Assertion K} (h : ∀ e ∈ a.expr?, e.degree ≤ 16) :
    ∀ p ∈ a.polynomials F, p.totalDegree ≤ 16 := by
  intro p hp
  cases a with
  | zero x =>
    rw [List.mem_singleton.mp hp]
    exact (Expr.totalDegree_polynomial_le (.wire x)).trans (h _ rfl)
  | exprZero e =>
    rw [List.mem_singleton.mp hp]
    exact e.totalDegree_polynomial_le.trans (h e rfl)
  | quadFormSystem x sys target =>
    exact (totalDegree_quadFormPolynomials_le F sys x target p hp).trans (by omega)

/-! ### Runs -/

/-- The asserted expressions have degree at most `d`, as syntax and as polynomials, and they are
polynomials in the allocated witness wires. -/
structure Transcript.Bounded (s : Transcript K) (d : ℕ) : Prop where
  degree_le : ∀ e ∈ s.exprs, e.degree ≤ d
  totalDegree_le : ∀ e ∈ s.exprs, e.polynomial.totalDegree ≤ d
  allocated : ∀ e ∈ s.exprs, e.polynomial.vars ⊆ Finset.range s.next

omit [Field K] in
theorem Assertion.below_expr {n : ℕ} {a : Assertion K} (h : a.Below n) :
    ∀ e ∈ a.expr?, e.Below n := by
  intro e he
  cases a with
  | zero x => cases he; exact h
  | exprZero e => cases he; exact h
  | quadFormSystem x sys target => cases he

variable {m : Build (Transcript K) Unit} {m' : Build (EvalState K) Unit}

omit [Field K] in
theorem degree_le_of_run {s : Transcript K} (hm : Simulates (degreeRelation K).state Eq m m)
    (hrun : m Transcript.empty = .ok ((), s)) : ∀ e ∈ s.exprs, e.degree ≤ 16 := by
  obtain ⟨-, t, hrun', -, rfl, ht⟩ := hm Transcript.empty Transcript.empty
    ⟨rfl, fun e he => (List.not_mem_nil he).elim⟩ () s hrun
  exact ht

/-- A run on an assignment is the evaluation of the symbolic run. -/
theorem symbolic_of_run {bits : List Bool} {s' : EvalState K}
    (hm : Simulates (evalRelation F bits).state Eq m m') (hrun : m' ⟨bits, []⟩ = .ok ((), s')) :
    ∃ s, m Transcript.empty = .ok ((), s) ∧ EvalRelated F bits s s' := by
  have hstart : EvalRelated F bits Transcript.empty ⟨bits, []⟩ :=
    ⟨rfl, Nat.zero_le _, fun a ha => (List.not_mem_nil ha).elim, rfl⟩
  obtain ⟨⟨⟩, s, hrun', -, hs⟩ := hm Transcript.empty ⟨bits, []⟩ hstart () s' hrun
  exact ⟨s, hrun', hs⟩

/-- A builder that reads exactly the bits of some assignment. -/
theorem bounded_of_run {bits : List Bool} {s' : EvalState K}
    (hm : Simulates (degreeRelation K).state Eq m m)
    (hm' : Simulates (evalRelation F bits).state Eq m m') (hrun : m' ⟨bits, []⟩ = .ok ((), s'))
    (hinput : s'.input = []) :
    ∃ s, m Transcript.empty = .ok ((), s) ∧ s.Bounded 16 := by
  obtain ⟨s, hs, hrelated⟩ := symbolic_of_run F hm' hrun
  have hlen : bits.length ≤ s.next := List.drop_eq_nil_iff.mp (hrelated.input.symm.trans hinput)
  have hdegree := degree_le_of_run hm hs
  refine ⟨s, hs, hdegree, fun e he => e.totalDegree_polynomial_le.trans (hdegree e he), ?_⟩
  intro e he
  obtain ⟨a, ha, hae⟩ := List.mem_filterMap.mp he
  have hbits := Expr.vars_polynomial_subset (Assertion.below_expr (hrelated.below a ha) e hae)
  exact hbits.trans (Finset.range_mono hlen)

/-- What a builder asserts on an assignment are the values there of fixed polynomials of degree at
most sixteen. -/
theorem polynomials_of_run (hm : Simulates (degreeRelation K).state Eq m m)
    (hm' : ∀ bits, Simulates (evalRelation F bits).state Eq m m') :
    ∃ ps : List (MvPolynomial ℕ K), (∀ p ∈ ps, p.totalDegree ≤ 16) ∧
      ∀ bits s', m' ⟨bits, []⟩ = .ok ((), s') →
        s'.asserted = ps.map (MvPolynomial.eval (assignment bits)) := by
  cases hrun : m Transcript.empty with
  | error e =>
    refine ⟨[], fun p hp => (List.not_mem_nil hp).elim, fun bits s' hrun' => ?_⟩
    obtain ⟨s, hs, -⟩ := symbolic_of_run F (hm' bits) hrun'
    rw [hrun] at hs
    cases hs
  | ok r =>
    obtain ⟨⟨⟩, s⟩ := r
    have hdegree := degree_le_of_run hm hrun
    refine ⟨s.asserted.flatMap (Assertion.polynomials F), ?_, fun bits s' hrun' => ?_⟩
    · intro p hp
      obtain ⟨a, ha, hpa⟩ := List.mem_flatMap.mp hp
      exact Assertion.totalDegree_polynomials_le F
        (fun e he => hdegree e (List.mem_filterMap.mpr ⟨a, ha, he⟩)) p hpa
    · obtain ⟨t, ht, hrelated⟩ := symbolic_of_run F (hm' bits) hrun'
      rw [hrun] at ht
      cases ht
      rw [hrelated.asserted, List.map_flatMap]
      simp only [Assertion.eval_polynomials]

end Evaluation

/-! ### The degree bound -/

section Main

variable {K : Type} [Field K] (F : BinaryFields K) {P : ArcParams}

include F in
theorem issueBuild_bounded (c : IssueCircuit P) (h : c.target.length = P.M) :
    ∃ s, c.build symbolicBackend Transcript.empty = .ok ((), s) ∧ s.Bounded (K := K) 16 := by
  obtain ⟨s', hrun, hinput, -⟩ := issue_run_witness F c h (Vector.replicate 32 0)
    (Vector.replicate 32 0)
  exact bounded_of_run F ((degreeRelation K).simulates_issueBuild c)
    ((evalRelation F _).simulates_issueBuild c) hrun hinput

theorem presentationBuild_bounded (c : PresentationCircuit P) (h : c.presentationLimit ≠ 0) :
    ∃ s, c.build F symbolicBackend Transcript.empty = .ok ((), s) ∧ s.Bounded 16 := by
  have hsig : (PresentationSecrets.mk (List.replicate P.KN 0) (Vector.replicate 32 0)
      (Vector.replicate 32 0) (Vector.replicate 32 0) 0).signature.length = P.KN :=
    List.length_replicate
  obtain ⟨s', hrun, hinput, -⟩ := build_run_witness F c h hsig []
  exact bounded_of_run F ((degreeRelation K).simulates_presentationBuild c F)
    ((evalRelation F _).simulates_presentationBuild c F) hrun hinput

/-- On every assignment, issuance asserts that polynomials of degree at most sixteen vanish there;
they depend on the public input only. -/
theorem issueBuild_polynomials (c : IssueCircuit P) :
    ∃ ps : List (MvPolynomial ℕ K), (∀ p ∈ ps, p.totalDegree ≤ 16) ∧
      ∀ bits s', c.build (evalBackend F) ⟨bits, []⟩ = .ok ((), s') →
        s'.asserted = ps.map (MvPolynomial.eval (assignment bits)) :=
  polynomials_of_run F ((degreeRelation K).simulates_issueBuild c) fun bits =>
    (evalRelation F bits).simulates_issueBuild c

theorem presentationBuild_polynomials (c : PresentationCircuit P) :
    ∃ ps : List (MvPolynomial ℕ K), (∀ p ∈ ps, p.totalDegree ≤ 16) ∧
      ∀ bits s', c.build F (evalBackend F) ⟨bits, []⟩ = .ok ((), s') →
        s'.asserted = ps.map (MvPolynomial.eval (assignment bits)) :=
  polynomials_of_run F ((degreeRelation K).simulates_presentationBuild c F) fun bits =>
    (evalRelation F bits).simulates_presentationBuild c F

/-- Every expression passed to an assertion has degree at most sixteen in the allocated bits, and so
have the polynomials whose values a run asserts. -/
theorem build_degree_le_sixteen :
    (∀ (P : ArcParams) (c : IssueCircuit P),
      if c.target.length = P.M then
        ∃ s, c.build symbolicBackend Transcript.empty = .ok ((), s) ∧ s.Bounded (K := K) 16
      else c.build (K := K) symbolicBackend Transcript.empty = .error .invalidParameters) ∧
    (∀ (P : ArcParams) (c : PresentationCircuit P),
      if c.presentationLimit ≠ 0 then
        ∃ s, c.build F symbolicBackend Transcript.empty = .ok ((), s) ∧ s.Bounded 16
      else c.build F symbolicBackend Transcript.empty = .error .invalidParameters) ∧
    -- what a run asserts are the values of polynomials that only the public input determines
    (∀ (P : ArcParams) (c : IssueCircuit P), ∃ ps : List (MvPolynomial ℕ K),
      (∀ p ∈ ps, p.totalDegree ≤ 16) ∧ ∀ bits s',
        c.build (evalBackend F) ⟨bits, []⟩ = .ok ((), s') →
          s'.asserted = ps.map (MvPolynomial.eval (assignment bits))) ∧
    (∀ (P : ArcParams) (c : PresentationCircuit P), ∃ ps : List (MvPolynomial ℕ K),
      (∀ p ∈ ps, p.totalDegree ≤ 16) ∧ ∀ bits s',
        c.build F (evalBackend F) ⟨bits, []⟩ = .ok ((), s') →
          s'.asserted = ps.map (MvPolynomial.eval (assignment bits))) ∧
    -- a round doubles the degree
    (∀ (state : Vector (Expr K) 1600) (roundConstant : U64) (d : ℕ),
      (∀ i, (state.get i).degree ≤ d) →
        ∀ i, ((keccakRoundExpr symbolicBackend state roundConstant).get i).degree ≤ 2 * d) ∧
    -- a group starts from wires and ends in newly allocated ones
    (∀ (state : Vector (Wire K) 1600) (group : Fin 6) (s : Transcript K),
      shakeGroup symbolicBackend state group s =
        .ok (freshWires 1600 s.next,
          ⟨s.next + 1600, s.asserted ++ groupAssertions state group s.next⟩) ∧
      (∀ i, ((freshWires 1600 s.next : Vector (Wire K) 1600).get i).degree = 1) ∧
      ∀ i, ((groupExpr symbolicBackend (state.map Expr.wire) group).get i).degree ≤ 16) ∧
    (∀ (message : List (Wire K)) (s : Transcript K),
      shakeDegree16 symbolicBackend message s =
        .ok (freshWires 1600 (s.next + 8000),
          ⟨s.next + 9600, s.asserted ++ groupsAssertions (List.finRange 6)
            (initialSpongeState symbolicBackend message) s.next⟩)) ∧
    -- the groups are the rounds, once each and in order
    (∀ state : Vector (Expr K) 1600, (List.finRange 6).foldl (groupExpr symbolicBackend) state =
      RC.toList.foldl (keccakRoundExpr symbolicBackend) state) := by
  refine ⟨fun P c => ?_, fun P c => ?_, fun P c => issueBuild_polynomials F c,
    fun P c => presentationBuild_polynomials F c, fun state rc d h i => ?_,
    fun state group s => ?_, run_shakeDegree16, foldl_groupExpr symbolicBackend⟩
  · split_ifs with h
    · exact issueBuild_bounded F c h
    · unfold IssueCircuit.build
      rw [if_pos h]
      rfl
  · split_ifs with h
    · exact presentationBuild_bounded F c h
    · unfold PresentationCircuit.build
      rw [if_pos (Or.inl (not_not.mp h))]
      rfl
  · have hstate : Cellwise ((degreeRelation K).expr d) state state := fun i hi => ⟨rfl, h ⟨i, hi⟩⟩
    exact (((degreeRelation K).exprs_keccakRoundExpr hstate rc).get i).2
  · exact ⟨run_shakeGroup state group s, degree_freshWires s.next, degree_groupExpr_le state group⟩

end Main

end VoleArc
