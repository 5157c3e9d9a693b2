import Mathlib.Tactic

/-!
# Constraint — what a circuit builder asserts about an assignment

A builder is a program that takes its witness bits from an assignment, one at a time, and records
the values it asserts to be zero.  `Emits m bits out P` says that `m` consumes exactly `bits`,
returns `out`, and that the values it asserts all vanish exactly when `P` holds.  The rules below
follow the structure of the builder, so the meaning of a whole circuit is read off its code.
-/

namespace Constraint

variable {K ε α β : Type} [Zero K]

/-- Bits not yet allocated and the values asserted to be zero so far. -/
structure EvalState (K : Type) where
  input : List Bool
  asserted : List K

/-- Every asserted value is zero. -/
def EvalState.Satisfied (s : EvalState K) : Prop := ∀ v ∈ s.asserted, v = 0

/-- A builder run over an assignment. -/
abbrev Builder (K ε α : Type) := StateT (EvalState K) (Except ε) α

/-- `m` consumes exactly `bits`, returns `out` and asserts exactly `P`. -/
def Emits (m : Builder K ε α) (bits : List Bool) (out : α) (P : Prop) : Prop :=
  ∀ rest as, ∃ vs, m ⟨bits ++ rest, as⟩ = .ok (out, ⟨rest, as ++ vs⟩) ∧
    ((∀ v ∈ vs, v = 0) ↔ P)

theorem Emits.congr {m : Builder K ε α} {bits : List Bool} {out : α} {P Q : Prop}
    (h : Emits m bits out P) (hPQ : P ↔ Q) : Emits m bits out Q := by
  intro rest as
  obtain ⟨vs, hm, hvs⟩ := h rest as
  exact ⟨vs, hm, hvs.trans hPQ⟩

theorem Emits.pure (a : α) : Emits (pure a : Builder K ε α) [] a True := by
  intro rest as
  refine ⟨[], ?_, by simp⟩
  rw [List.append_nil]
  rfl

theorem Emits.bind {m : Builder K ε α} {f : α → Builder K ε β} {bits bits' : List Bool} {a : α}
    {b : β} {P Q : Prop} (hm : Emits m bits a P) (hf : Emits (f a) bits' b Q) :
    Emits (m >>= f) (bits ++ bits') b (P ∧ Q) := by
  intro rest as
  obtain ⟨vs, h₁, hvs⟩ := hm (bits' ++ rest) as
  obtain ⟨ws, h₂, hws⟩ := hf rest (as ++ vs)
  refine ⟨vs ++ ws, ?_, ?_⟩
  · rw [List.append_assoc]
    simp only [Bind.bind, StateT.bind, h₁, Except.bind, h₂, List.append_assoc]
  · rw [← hvs, ← hws]
    simp only [List.mem_append, or_imp, forall_and]

/-- A bind whose first part only asserts. -/
theorem Emits.bind_assert {m : Builder K ε α} {f : α → Builder K ε β} {bits : List Bool} {a : α}
    {b : β} {P Q : Prop} (hm : Emits m [] a P) (hf : Emits (f a) bits b Q) :
    Emits (m >>= f) bits b (P ∧ Q) :=
  hm.bind hf

/-- A bind whose first part only allocates. -/
theorem Emits.bind_alloc {m : Builder K ε α} {f : α → Builder K ε β} {bits bits' : List Bool}
    {a : α} {b : β} {Q : Prop} (hm : Emits m bits a True) (hf : Emits (f a) bits' b Q) :
    Emits (m >>= f) (bits ++ bits') b Q :=
  (hm.bind hf).congr (by simp)

/-- A loop that only asserts: one proposition for each element. -/
theorem Emits.forM {γ : Type} {f : γ → Builder K ε PUnit} {P : γ → Prop} :
    ∀ (l : List γ), (∀ x ∈ l, Emits (f x) [] PUnit.unit (P x)) →
      Emits (l.forM f) [] PUnit.unit (∀ x ∈ l, P x)
  | [], _ => (Emits.pure _).congr (by simp)
  | x :: l, h => by
    have hx := h x (by simp)
    have hl := Emits.forM l fun y hy => h y (by simp [hy])
    exact (hx.bind (f := fun _ => l.forM f) hl).congr (by simp)

/-- Running a builder on exactly its own bits leaves none over. -/
theorem Emits.run {m : Builder K ε α} {bits : List Bool} {out : α} {P : Prop}
    (h : Emits m bits out P) :
    ∃ s, m ⟨bits, []⟩ = .ok (out, s) ∧ s.input = [] ∧ (s.Satisfied ↔ P) := by
  obtain ⟨vs, hm, hvs⟩ := h [] []
  rw [List.append_nil] at hm
  exact ⟨⟨[], [] ++ vs⟩, hm, rfl, by simpa [EvalState.Satisfied] using hvs⟩

end Constraint
