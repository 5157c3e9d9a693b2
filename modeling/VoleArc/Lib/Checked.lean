import VoleArc.Lib.Scatter

/-!
# Checked — code that may panic, and its refinement to code that may not

`Code σ ε α` returns a value or an error and keeps its state either way, or panics (`none`).
`Refines V n m d` says that `m` never panics, returns what the decoder `d` returns, and makes the
progress `V` allows with at most `n` loop iterations.  The rules follow the structure of the code.
-/

namespace Checked

variable {σ ρ ε α β : Type}

/-! ### Operations that can panic -/

/-- `assert!(p)`. -/
def assert (p : Prop) [Decidable p] : Option Unit := if p then some () else none

/-- A `usize` on a machine with `w`-bit addresses: arithmetic that leaves the range has no
result. -/
def fit (w n : ℕ) : Option ℕ := if n < 2 ^ w then some n else none

def add (w a b : ℕ) : Option ℕ := fit w (a + b)
def mul (w a b : ℕ) : Option ℕ := fit w (a * b)

/-- `x << n` and `x >> n`, for a shift below the width of `x`. -/
def shl {v : ℕ} (x : BitVec v) (n : ℕ) : Option (BitVec v) := if n < v then some (x <<< n) else none
def shr {v : ℕ} (x : BitVec v) (n : ℕ) : Option (BitVec v) := if n < v then some (x >>> n) else none

/-- `&xs[lo..hi]`. -/
def slice (xs : List α) (lo hi : ℕ) : Option (List α) :=
  if lo ≤ hi ∧ hi ≤ xs.length then some ((xs.take hi).drop lo) else none

/-- `out[i] = a`. -/
def store {n : ℕ} (out : Vector α n) (i : ℕ) (a : α) : Option (Vector α n) :=
  if h : i < n then some (out.set i a) else none

theorem assert_of {p : Prop} [Decidable p] (h : p) : assert p = some () := if_pos h

theorem fit_of {w n : ℕ} (h : n < 2 ^ w) : fit w n = some n := if_pos h

theorem add_of {w a b : ℕ} (h : a + b < 2 ^ w) : add w a b = some (a + b) := fit_of h

theorem mul_of {w a b : ℕ} (h : a * b < 2 ^ w) : mul w a b = some (a * b) := fit_of h

theorem shl_of {v : ℕ} {x : BitVec v} {n : ℕ} (h : n < v) : shl x n = some (x <<< n) := if_pos h

theorem shr_of {v : ℕ} {x : BitVec v} {n : ℕ} (h : n < v) : shr x n = some (x >>> n) := if_pos h

theorem slice_of {xs : List α} {lo hi : ℕ} (hle : lo ≤ hi) (hhi : hi ≤ xs.length) :
    slice xs lo hi = some ((xs.take hi).drop lo) := if_pos ⟨hle, hhi⟩

theorem store_of {n : ℕ} {out : Vector α n} {i : ℕ} {a : α} (h : i < n) :
    store out i a = some (out.setIfInBounds i a) := by
  rw [store, dif_pos h]
  congr 1
  ext k hk
  simp [Vector.getElem_set, Vector.getElem_setIfInBounds]

theorem bind_of {x : Option α} {a : α} {f : α → Option β} {r : Option β} (hx : x = some a)
    (hf : f a = r) : (x >>= f) = r := by rw [hx, ← hf]; rfl

theorem get_of {n : ℕ} {v : Vector α n} {i : ℕ} (j : Fin n) (h : i = j) :
    v[i]? = some (v.get j) := by
  subst h
  exact Vector.getElem?_eq_getElem j.isLt

/-! ### Loops -/

theorem mapM_of {f : α → Option β} {g : α → β} :
    ∀ {l : List α}, (∀ a ∈ l, f a = some (g a)) →
    l.mapM f = some (l.map g)
  | [], _ => rfl
  | a :: l, h => by
    have htail := mapM_of (l := l) fun b hb => h b (List.mem_cons_of_mem _ hb)
    rw [List.mapM_cons, h a List.mem_cons_self, htail]
    rfl

theorem foldlM_of {f : β → α → Option β} {g : β → α → β} : ∀ {l : List α} {b : β},
    (∀ b, ∀ a ∈ l, f b a = some (g b a)) → l.foldlM f b = some (l.foldl g b)
  | [], _, _ => rfl
  | a :: l, b, h => by
    rw [List.foldlM_cons, h b a List.mem_cons_self, List.foldl_cons]
    exact foldlM_of fun b' a' ha' => h b' a' (List.mem_cons_of_mem _ ha')

/-- `for i in is { out[dst i] = val i }`. -/
def fill {ι : Type} {n : ℕ} (out : Vector α n) (is : List ι) (dst : ι → Option ℕ)
    (val : ι → Option α) : Option (Vector α n) :=
  is.foldlM (fun out i => do
    let a ← val i
    store out (← dst i) a) out

/-- A loop whose indices and values exist writes them. -/
theorem fill_of {ι : Type} {n : ℕ} {out : Vector α n} {is : List ι} {dst : ι → Option ℕ}
    {val : ι → Option α} {d : ι → ℕ} {v : ι → α} (hdst : ∀ i ∈ is, dst i = some (d i))
    (hlt : ∀ i ∈ is, d i < n) (hval : ∀ i ∈ is, val i = some (v i)) :
    fill out is dst val = some (Scatter.scatter out is d v) := by
  refine foldlM_of fun out i hi => ?_
  rw [hval i hi, hdst i hi]
  exact store_of (hlt i hi)

theorem fill_finRange {n : ℕ} {out : Vector α n} {val : Fin n → Option α} {v : Fin n → α}
    (hval : ∀ i, val i = some (v i)) :
    fill out (List.finRange n) (fun i => some i.val) val = some (Vector.ofFn v) := by
  rw [← Scatter.scatter_finRange out]
  exact fill_of (fun _ _ => rfl) (fun i _ => i.isLt) fun i _ => hval i

/-- `for i in is { out[dst i] = f i out[dst i] }`. -/
def update {ι : Type} {n : ℕ} (out : Vector α n) (is : List ι) (dst : ι → ℕ)
    (f : ι → α → α) :
    Option (Vector α n) :=
  is.foldlM (fun out i => do store out (dst i) (f i (← out[dst i]?))) out

/-- A loop that visits each cell once updates the cells it was given. -/
theorem update_of {ι : Type} {n : ℕ} {out : Vector α n} {dst : ι → ℕ}
    {f : ι → α → α} {v : ι → α}
    {is : List ι} (hnodup : (is.map dst).Nodup) (hlt : ∀ i ∈ is, dst i < n)
    (hv : ∀ i ∈ is, ∀ h : dst i < n, v i = f i out[dst i]) :
    update out is dst f = some (Scatter.scatter out is dst v) := by
  induction is using List.reverseRecOn with
  | nil => rfl
  | append_singleton is i ih =>
    rw [List.map_append, List.map_singleton, List.nodup_append] at hnodup
    have hbefore := ih hnodup.1 (fun j hj => hlt j (List.mem_append_left _ hj))
      fun j hj => hv j (List.mem_append_left _ hj)
    have hi : dst i < n := hlt i (by simp)
    have hfresh : ∀ j ∈ is, dst j ≠ dst i := fun j hj =>
      hnodup.2.2 _ (List.mem_map_of_mem hj) _ List.mem_cons_self
    have hcell : (Scatter.scatter out is dst v)[dst i] = out[dst i] :=
      Scatter.getElem_scatter_of_forall_ne hi hfresh
    rw [update, List.foldlM_append]
    change (update out is dst f).bind _ = _
    rw [hbefore, Option.bind_some, Scatter.scatter_concat, hv i (by simp) hi, ← hcell,
      List.foldlM_cons, Vector.getElem?_eq_getElem hi]
    change (store _ _ _).bind _ = _
    rw [store_of hi]
    rfl

/-! ### Code -/

/-- Code that may panic: `none` is a panic, and the state outlives a returned error. -/
abbrev Code (σ ε α : Type) := ExceptT ε (StateT σ Option) α

/-- An operation that panics where it has no result. -/
def orPanic (x : Option α) : Code σ ε α := fun s => x.map fun a => (.ok a, s)

/-- `x.ok_or(e)?`. -/
def orThrow (e : ε) (x : Option α) : Code σ ε α := fun s => some (x.elim (.error e) .ok, s)

theorem bind_ok {m : Code σ ε α} {k : α → Code σ ε β} {s s' : σ} {a : α}
    (h : m s = some (.ok a, s')) : (m >>= k) s = k a s' := by
  simp [Bind.bind, ExceptT.bind, ExceptT.mk, StateT.bind, h, ExceptT.bindCont]

theorem bind_error {m : Code σ ε α} {k : α → Code σ ε β} {s s' : σ} {e : ε}
    (h : m s = some (.error e, s')) : (m >>= k) s = some (.error e, s') := by
  simp only [Bind.bind, ExceptT.bind, ExceptT.mk, StateT.bind, h, Option.bind_some,
    ExceptT.bindCont]
  rfl

@[simp] theorem get_bind {k : σ → Code σ ε β} {s : σ} : ((get : Code σ ε σ) >>= k) s = k s s := rfl

theorem orThrow_bind {x : Option α} {a : α} {e : ε} {k : α → Code σ ε β} {s : σ} (h : x = some a) :
    (orThrow e x >>= k) s = k a s := by
  subst h
  rfl

theorem bind_congr_run {m m' : Code σ ε α} {k : α → Code σ ε β} {s : σ} (h : m s = m' s) :
    (m >>= k) s = (m' >>= k) s := by
  simp [Bind.bind, ExceptT.bind, ExceptT.mk, StateT.bind, h]

/-! ### Refinement -/

/-- How checked code with states `σ` is compared with decoders with states `ρ`: the states that
correspond, and the progress from one state to another with at most `n` loop iterations. -/
structure Layer (σ ρ : Type) where
  Corresponds : σ → ρ → Prop
  Progress : ℕ → σ → σ → Prop
  refl : ∀ s, Progress 0 s s
  trans : ∀ {m n s s' s''}, Progress m s s' → Progress n s' s'' → Progress (m + n) s s''
  mono : ∀ {m n s s'}, m ≤ n → Progress m s s' → Progress n s s'

/-- A result of checked code, and the result of the decoder it refines. -/
def Agrees (V : Layer σ ρ) (r : Except ε α) (s' : σ) (result : Except ε (α × ρ)) : Prop :=
  match r with
  | .ok a => ∃ t', result = .ok (a, t') ∧ V.Corresponds s' t'
  | .error e => result = .error e

theorem Agrees.map_fst {V : Layer σ ρ} {r : Except ε α} {s' : σ} {result : Except ε (α × ρ)}
    (h : Agrees V r s' result) : Prod.fst <$> result = r := by
  cases r with
  | error e =>
    rw [show result = .error e from h]
    rfl
  | ok a =>
    obtain ⟨t', hresult, -⟩ := h
    rw [hresult]
    rfl

/-- `m` never panics, returns what `d` returns, and iterates at most `n` times. -/
def Refines (V : Layer σ ρ) (n : ℕ) (m : Code σ ε α) (d : StateT ρ (Except ε) α) : Prop :=
  ∀ s t, V.Corresponds s t → ∃ r s', m s = some (r, s') ∧ V.Progress n s s' ∧ Agrees V r s' (d t)

variable {V : Layer σ ρ} {n n₁ n₂ : ℕ}

theorem Refines.mono {m : Code σ ε α} {d : StateT ρ (Except ε) α} (hn : n₁ ≤ n₂)
    (h : Refines V n₁ m d) : Refines V n₂ m d := by
  intro s t hst
  obtain ⟨r, s', hrun, hprogress, hagrees⟩ := h s t hst
  exact ⟨r, s', hrun, V.mono hn hprogress, hagrees⟩

theorem Refines.pure (a : α) :
    Refines V n (pure a : Code σ ε α) (pure a : StateT ρ (Except ε) α) := by
  intro s t hst
  exact ⟨.ok a, s, rfl, V.mono (Nat.zero_le n) (V.refl s), t, rfl, hst⟩

theorem Refines.throw (e : ε) :
    Refines V n (throw e : Code σ ε α) (throw e : StateT ρ (Except ε) α) := by
  intro s t _
  exact ⟨.error e, s, rfl, V.mono (Nat.zero_le n) (V.refl s), rfl⟩

/-- What follows may use that the value came out of `d`. -/
theorem Refines.bind {m : Code σ ε α} {d : StateT ρ (Except ε) α} {k : α → Code σ ε β}
    {k' : α → StateT ρ (Except ε) β} (hm : Refines V n₁ m d)
    (hk : ∀ a s t t', V.Corresponds s t → d t = .ok (a, t') → Refines V n₂ (k a) (k' a)) :
    Refines V (n₁ + n₂) (m >>= k) (d >>= k') := by
  intro s t hst
  obtain ⟨r, s', hrun, hprogress, hagrees⟩ := hm s t hst
  cases r with
  | error e =>
    have hd : (d >>= k') t = .error e := by
      simp only [Bind.bind, StateT.bind]
      rw [show d t = .error e from hagrees]
      rfl
    exact ⟨.error e, s', bind_error hrun, V.mono (Nat.le_add_right _ _) hprogress, hd⟩
  | ok a =>
    obtain ⟨t', hd, hst'⟩ := hagrees
    obtain ⟨r, s'', hrun', hprogress', hagrees⟩ := hk a s t t' hst hd s' t' hst'
    have hbind : (d >>= k') t = k' a t' := by
      simp only [Bind.bind, StateT.bind]
      rw [hd]
      rfl
    exact ⟨r, s'', (bind_ok hrun).trans hrun', V.trans hprogress hprogress', by rwa [hbind]⟩

/-- A bind whose first part has no loop. -/
theorem Refines.call_result {m : Code σ ε α} {d : StateT ρ (Except ε) α} {k : α → Code σ ε β}
    {k' : α → StateT ρ (Except ε) β} (hm : Refines V 0 m d)
    (hk : ∀ a s t t', V.Corresponds s t → d t = .ok (a, t') → Refines V n (k a) (k' a)) :
    Refines V n (m >>= k) (d >>= k') := by
  have h := hm.bind hk
  rwa [Nat.zero_add] at h

theorem Refines.call {m : Code σ ε α} {d : StateT ρ (Except ε) α} {k : α → Code σ ε β}
    {k' : α → StateT ρ (Except ε) β} (hm : Refines V 0 m d) (hk : ∀ a, Refines V n (k a) (k' a)) :
    Refines V n (m >>= k) (d >>= k') :=
  hm.call_result fun a _ _ _ _ _ => hk a

/-- A bind whose first part has the only loop. -/
theorem Refines.loop {m : Code σ ε α} {d : StateT ρ (Except ε) α} {k : α → Code σ ε β}
    {k' : α → StateT ρ (Except ε) β} (hm : Refines V n m d) (hk : ∀ a, Refines V 0 (k a) (k' a)) :
    Refines V n (m >>= k) (d >>= k') :=
  hm.bind fun a _ _ _ _ _ => hk a

/-- An operation that has a result. -/
theorem Refines.orPanic {x : Option α} {a : α} {k : α → Code σ ε β} {d : StateT ρ (Except ε) β}
    (hx : x = some a) (hk : Refines V n (k a) d) : Refines V n (orPanic x >>= k) d := by
  intro s t hst
  have hrun : (Checked.orPanic x : Code σ ε α) s = some (.ok a, s) := by rw [hx]; rfl
  rw [bind_ok hrun]
  exact hk s t hst

theorem Refines.result {x : Option α} {a : α} (hx : x = some a) :
    Refines V n (Checked.orPanic x : Code σ ε α) (Pure.pure a : StateT ρ (Except ε) α) := by
  intro s t hst
  exact ⟨.ok a, s, by rw [hx]; rfl, V.mono (Nat.zero_le n) (V.refl s), t, rfl, hst⟩

theorem Refines.orThrow {x : Option α} {a : α} {e : ε} {k : α → Code σ ε β}
    {d : StateT ρ (Except ε) β} (hx : x = some a) (hk : Refines V n (k a) d) :
    Refines V n (orThrow e x >>= k) d := by
  intro s t hst
  rw [orThrow_bind hx]
  exact hk s t hst

theorem Refines.ite {p : Prop} [Decidable p] {m m' : Code σ ε α} {d d' : StateT ρ (Except ε) α}
    (h : p → Refines V n m d) (h' : ¬ p → Refines V n m' d') :
    Refines V n (if p then m else m') (if p then d else d') := by
  by_cases hp : p
  · rw [if_pos hp, if_pos hp]
    exact h hp
  · rw [if_neg hp, if_neg hp]
    exact h' hp

theorem Refines.dite {p : Prop} [Decidable p] {m : p → Code σ ε α} {m' : ¬ p → Code σ ε α}
    {d : p → StateT ρ (Except ε) α} {d' : ¬ p → StateT ρ (Except ε) α}
    (h : ∀ hp, Refines V n (m hp) (d hp)) (h' : ∀ hp, Refines V n (m' hp) (d' hp)) :
    Refines V n (if hp : p then m hp else m' hp) (if hp : p then d hp else d' hp) := by
  by_cases hp : p
  · rw [dif_pos hp, dif_pos hp]
    exact h hp
  · rw [dif_neg hp, dif_neg hp]
    exact h' hp

/-- A computation that touches no state. -/
theorem Refines.lift (x : Except ε α) :
    Refines V n (liftM x : Code σ ε α) (liftM x : StateT ρ (Except ε) α) := by
  cases x with
  | error e => exact Refines.throw e
  | ok a => exact Refines.pure a

end Checked
