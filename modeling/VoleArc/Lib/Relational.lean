import Mathlib.Data.List.Forall2
import VoleArc.Lib.BitString
import VoleArc.Lib.Scatter

/-!
# Relational — two runs of one program over related data

`Simulates R Q m m'` says that every successful run of `m'` is matched by one of `m`: from states
related by `R` it ends in related states, with results related by `Q`.  The rules follow the
structure of a program that both sides share, and `Cellwise` and `List.Forall₂` lift a relation to
the arrays and lists the program works on.  `Adds μ d m` says what every successful run of one
program adds to a measure of its state.
-/

namespace Relational

open BitString Scatter

/-! ### Arrays and lists -/

section Cellwise

variable {α α' β β' ι : Type*} {n : ℕ} {R : α → α' → Prop} {Q : β → β' → Prop}

/-- Two arrays related cell by cell. -/
def Cellwise (R : α → α' → Prop) (v : Vector α n) (v' : Vector α' n) : Prop :=
  ∀ (i : ℕ) (h : i < n), R v[i] v'[i]

theorem Cellwise.get {v : Vector α n} {v' : Vector α' n} (h : Cellwise R v v') (i : Fin n) :
    R (v.get i) (v'.get i) := h i i.isLt

theorem Cellwise.map {f : α → β} {f' : α' → β'} (hf : ∀ a a', R a a' → Q (f a) (f' a'))
    {v : Vector α n} {v' : Vector α' n} (h : Cellwise R v v') :
    Cellwise Q (v.map f) (v'.map f') := by
  intro i hi
  rw [Vector.getElem_map, Vector.getElem_map]
  exact hf _ _ (h i hi)

theorem Cellwise.push {v : Vector α n} {v' : Vector α' n} {a : α} {a' : α'} (h : Cellwise R v v')
    (ha : R a a') : Cellwise R (v.push a) (v'.push a') := by
  intro i hi
  rw [Vector.getElem_push, Vector.getElem_push]
  split_ifs with hlt
  · exact h i hlt
  · exact ha

theorem Cellwise.setIfInBounds {v : Vector α n} {v' : Vector α' n} {a : α} {a' : α'}
    (h : Cellwise R v v') (k : ℕ) (ha : R a a') :
    Cellwise R (v.setIfInBounds k a) (v'.setIfInBounds k a') := by
  intro i hi
  rw [Vector.getElem_setIfInBounds, Vector.getElem_setIfInBounds]
  split_ifs
  · exact ha
  · exact h i hi

theorem Cellwise.set {v : Vector α n} {v' : Vector α' n} {a : α} {a' : α'} (h : Cellwise R v v')
    (k : ℕ) (hk : k < n) (ha : R a a') : Cellwise R (v.set k a hk) (v'.set k a' hk) := by
  intro i hi
  rw [Vector.getElem_set, Vector.getElem_set]
  split_ifs
  · exact ha
  · exact h i hi

theorem cellwise_replicate {a : α} {a' : α'} (ha : R a a') :
    Cellwise R (Vector.replicate n a) (Vector.replicate n a') := by
  intro i hi
  rw [Vector.getElem_replicate, Vector.getElem_replicate]
  exact ha

theorem cellwise_ofFn {f : Fin n → α} {f' : Fin n → α'} (h : ∀ i, R (f i) (f' i)) :
    Cellwise R (Vector.ofFn f) (Vector.ofFn f') := by
  intro i hi
  rw [Vector.getElem_ofFn, Vector.getElem_ofFn]
  exact h ⟨i, hi⟩

/-- Filling two related arrays in one order with related values. -/
theorem Cellwise.scatter {v : Vector α n} {v' : Vector α' n} (h : Cellwise R v v') (is : List ι)
    (dst : ι → ℕ) {val : ι → α} {val' : ι → α'} (hval : ∀ i, R (val i) (val' i)) :
    Cellwise R (scatter v is dst val) (scatter v' is dst val') := by
  induction is using List.reverseRecOn with
  | nil => exact h
  | append_singleton is i ih =>
    rw [scatter_concat, scatter_concat]
    exact ih.setIfInBounds (dst i) (hval i)

theorem Cellwise.toList {v : Vector α n} {v' : Vector α' n} (h : Cellwise R v v') :
    List.Forall₂ R v.toList v'.toList := by
  refine List.forall₂_iff_get.mpr ⟨by rw [Vector.length_toList, Vector.length_toList], ?_⟩
  intro i h₁ h₂
  rw [Vector.length_toList] at h₁
  exact h i h₁

theorem forall₂_map {f : α → β} {f' : α' → β'} (hf : ∀ a a', R a a' → Q (f a) (f' a'))
    {l : List α} {l' : List α'} (h : List.Forall₂ R l l') :
    List.Forall₂ Q (l.map f) (l'.map f') :=
  List.rel_map (R := R) (P := Q) (fun _ _ ha => hf _ _ ha) h

/-- The same list mapped into two related types. -/
theorem forall₂_map_self {f : ι → β} {f' : ι → β'} (h : ∀ i, Q (f i) (f' i)) (is : List ι) :
    List.Forall₂ Q (is.map f) (is.map f') := by
  induction is with
  | nil => exact List.Forall₂.nil
  | cons i is ih => exact List.Forall₂.cons (h i) ih

theorem forall₂_getD {l : List α} {l' : List α'} (h : List.Forall₂ R l l') {a : α} {a' : α'}
    (ha : R a a') (i : ℕ) : R (l.getD i a) (l'.getD i a') := by
  induction h generalizing i with
  | nil => exact ha
  | cons hx _ ih =>
    cases i with
    | zero => exact hx
    | succ i => exact ih i

theorem forall₂_zip {l₁ : List α} {l₁' : List α'} {l₂ : List β} {l₂' : List β'}
    (h₁ : List.Forall₂ R l₁ l₁') (h₂ : List.Forall₂ Q l₂ l₂') :
    List.Forall₂ (fun p p' => R p.1 p'.1 ∧ Q p.2 p'.2) (l₁.zip l₂) (l₁'.zip l₂') := by
  induction h₁ generalizing l₂ l₂' with
  | nil => exact List.Forall₂.nil
  | cons hx _ ih =>
    cases h₂ with
    | nil => exact List.Forall₂.nil
    | cons hy h₂ => exact List.Forall₂.cons ⟨hx, hy⟩ (ih h₂)

/-- Numbering the entries keeps them related. -/
theorem forall₂_zipIdx {l : List α} {l' : List α'} (h : List.Forall₂ R l l') (k : ℕ) :
    List.Forall₂ (fun p p' => R p.1 p'.1 ∧ p.2 = p'.2) (l.zipIdx k) (l'.zipIdx k) := by
  induction h generalizing k with
  | nil => exact List.Forall₂.nil
  | cons hx _ ih => exact List.Forall₂.cons ⟨hx, rfl⟩ (ih (k + 1))

/-- Pieces of related lists. -/
theorem forall₂_chunks (k : ℕ) {l : List α} {l' : List α'} (h : List.Forall₂ R l l') :
    List.Forall₂ (List.Forall₂ R) (chunks k l) (chunks k l') := by
  have key : ∀ (fuel : ℕ) {l : List α} {l' : List α'}, List.Forall₂ R l l' →
      List.Forall₂ (List.Forall₂ R) (chunks.go k fuel l) (chunks.go k fuel l') := by
    intro fuel
    induction fuel with
    | zero => exact fun _ => List.Forall₂.nil
    | succ fuel ih =>
      intro l l' h
      cases h with
      | nil => exact List.Forall₂.nil
      | cons hx h =>
        have hall := List.Forall₂.cons hx h
        exact List.Forall₂.cons (List.forall₂_take k hall) (ih (List.forall₂_drop k hall))
  unfold chunks
  rw [h.length_eq]
  exact key _ h

/-- A loop with a related body, over one list on both sides. -/
theorem foldl_self {f : α → ι → α} {f' : α' → ι → α'}
    (hf : ∀ a a' i, R a a' → R (f a i) (f' a' i)) (is : List ι) {a : α} {a' : α'} (h : R a a') :
    R (is.foldl f a) (is.foldl f' a') := by
  induction is generalizing a a' with
  | nil => exact h
  | cons i is ih => exact ih (hf _ _ _ h)

end Cellwise

/-! ### Programs -/

section Simulates

variable {ε σ σ' α α' β β' γ γ' ι : Type} {R : σ → σ' → Prop} {Q : α → α' → Prop}
  {Q' : β → β' → Prop}

/-- The first part of a program that succeeds is run, then the rest from where it ends. -/
theorem run_bind {m : StateT σ (Except ε) α} {f : α → StateT σ (Except ε) β} {a : α} {s t : σ}
    (h : m s = .ok (a, t)) : (m >>= f) s = f a t := by
  simp only [Bind.bind, StateT.bind, h, Except.bind]

/-- Every successful run of `m'` is matched by one of `m`. -/
def Simulates (R : σ → σ' → Prop) (Q : α → α' → Prop) (m : StateT σ (Except ε) α)
    (m' : StateT σ' (Except ε) α') : Prop :=
  ∀ s s', R s s' → ∀ a' t', m' s' = .ok (a', t') → ∃ a t, m s = .ok (a, t) ∧ Q a a' ∧ R t t'

theorem Simulates.pure {a : α} {a' : α'} (h : Q a a') :
    Simulates R Q (pure a : StateT σ (Except ε) α) (pure a') := by
  intro s s' hs b' t' hrun
  cases hrun
  exact ⟨a, s, rfl, h, hs⟩

theorem Simulates.bind {m : StateT σ (Except ε) α} {m' : StateT σ' (Except ε) α'}
    {f : α → StateT σ (Except ε) β} {f' : α' → StateT σ' (Except ε) β'}
    (hm : Simulates R Q m m') (hf : ∀ a a', Q a a' → Simulates R Q' (f a) (f' a')) :
    Simulates R Q' (m >>= f) (m' >>= f') := by
  intro s s' hs b' t' hrun
  cases hfirst : m' s' with
  | error e =>
    simp only [Bind.bind, StateT.bind, hfirst, Except.bind] at hrun
    cases hrun
  | ok p =>
    obtain ⟨a', u'⟩ := p
    obtain ⟨a, u, hmu, ha, hu⟩ := hm s s' hs a' u' hfirst
    rw [run_bind hfirst] at hrun
    obtain ⟨b, t, hft, hb, ht⟩ := hf a a' ha u u' hu b' t' hrun
    exact ⟨b, t, (run_bind hmu).trans hft, hb, ht⟩

theorem Simulates.modify {f : σ → σ} {f' : σ' → σ'} (h : ∀ s s', R s s' → R (f s) (f' s')) :
    Simulates R Eq (modify f : StateT σ (Except ε) PUnit) (modify f') := by
  intro s s' hs a' t' hrun
  cases hrun
  exact ⟨PUnit.unit, f s, rfl, rfl, h s s' hs⟩

/-- A run that fails has nothing to match. -/
theorem Simulates.throw {m : StateT σ (Except ε) α} {e : ε} :
    Simulates R Q m (throw e : StateT σ' (Except ε) α') := by
  intro s s' _ a' t' hrun
  cases hrun

/-- A loop over related lists. -/
theorem Simulates.forM {P : γ → γ' → Prop} {f : γ → StateT σ (Except ε) PUnit}
    {f' : γ' → StateT σ' (Except ε) PUnit} (hf : ∀ c c', P c c' → Simulates R Eq (f c) (f' c'))
    {l : List γ} {l' : List γ'} (h : List.Forall₂ P l l') :
    Simulates R Eq (l.forM f) (l'.forM f') := by
  induction h with
  | nil => exact Simulates.pure rfl
  | cons hx _ ih => exact (hf _ _ hx).bind fun _ _ _ => ih

/-- A loop over one list that carries a result. -/
theorem Simulates.foldlM {f : α → ι → StateT σ (Except ε) α}
    {f' : α' → ι → StateT σ' (Except ε) α'}
    (hf : ∀ a a' i, Q a a' → Simulates R Q (f a i) (f' a' i)) (is : List ι) {a : α} {a' : α'}
    (h : Q a a') : Simulates R Q (is.foldlM f a) (is.foldlM f' a') := by
  induction is generalizing a a' with
  | nil => exact Simulates.pure h
  | cons i is ih =>
    rw [List.foldlM_cons, List.foldlM_cons]
    exact (hf a a' i h).bind fun _ _ hb => ih hb

end Simulates

/-! ### What a run adds -/

section Adds

variable {ε σ α β γ M : Type} [AddMonoid M] {μ : σ → M} {d d' : M}

/-- Every successful run of `m` adds `d` to what `μ` measures of the state. -/
def Adds (μ : σ → M) (d : M) (m : StateT σ (Except ε) α) : Prop :=
  ∀ s a t, m s = .ok (a, t) → μ t = μ s + d

theorem Adds.congr {m : StateT σ (Except ε) α} (h : Adds μ d m) (hd : d = d') :
    Adds μ d' m := hd ▸ h

theorem Adds.pure (a : α) : Adds μ 0 (pure a : StateT σ (Except ε) α) := by
  intro s b t hrun
  cases hrun
  exact (add_zero _).symm

theorem Adds.bind {m : StateT σ (Except ε) α} {f : α → StateT σ (Except ε) β} (hm : Adds μ d m)
    (hf : ∀ a, Adds μ d' (f a)) : Adds μ (d + d') (m >>= f) := by
  intro s b t hrun
  cases hfirst : m s with
  | error e =>
    simp only [Bind.bind, StateT.bind, hfirst, Except.bind] at hrun
    cases hrun
  | ok p =>
    obtain ⟨a, u⟩ := p
    rw [run_bind hfirst] at hrun
    rw [hf a u b t hrun, hm s a u hfirst, add_assoc]

theorem Adds.modify {g : σ → σ} (h : ∀ s, μ (g s) = μ s + d) :
    Adds μ d (modify g : StateT σ (Except ε) PUnit) := by
  intro s a t hrun
  cases hrun
  exact h s

/-- A loop whose rounds all add the same. -/
theorem Adds.forM {f : γ → StateT σ (Except ε) PUnit} (hf : ∀ c, Adds μ d (f c)) (l : List γ) :
    Adds μ (l.length • d) (l.forM f) := by
  induction l with
  | nil => exact (Adds.pure _).congr (zero_nsmul d).symm
  | cons c l ih =>
    rw [List.length_cons, succ_nsmul']
    exact (hf c).bind fun _ => ih

/-- A loop that carries a result, whose rounds all add the same. -/
theorem Adds.foldlM {f : β → γ → StateT σ (Except ε) β} (hf : ∀ b c, Adds μ d (f b c))
    (l : List γ)
    (b : β) : Adds μ (l.length • d) (l.foldlM f b) := by
  induction l generalizing b with
  | nil => exact (Adds.pure b).congr (zero_nsmul d).symm
  | cons c l ih =>
    rw [List.foldlM_cons, List.length_cons, succ_nsmul']
    exact (hf b c).bind ih

end Adds

end Relational
