import Mathlib.Data.Finset.Card
import Mathlib.Data.Finset.Image
import Mathlib.Data.List.Nodup
import Mathlib.Tactic

/-!
# Transition — runs of labelled transition systems

A run is the list of its labels, oldest first.  Three rules carry what one step does to a whole run:
invariants of the state and of the history, simulations that keep what an observer sees, and
projections to one component.  A history in which a key is observed at most once is counted by
covering its keys.
-/

namespace Transition

variable {S S' L L' κ : Type} {step : S → L → S → Prop} {step' : S' → L' → S' → Prop}

/-! ### Runs -/

/-- The runs of `step` from `s`, with the state they reach. -/
inductive Run (step : S → L → S → Prop) (s : S) : List L → S → Prop
  | nil : Run step s [] s
  | snoc {ls : List L} {t u : S} {l : L} (h : Run step s ls t) (hstep : step t l u) :
      Run step s (ls ++ [l]) u

theorem Run.single {s t : S} {l : L} (h : step s l t) : Run step s [l] t := Run.snoc .nil h

theorem Run.append {s t u : S} {ls ls' : List L} (h : Run step s ls t) (h' : Run step t ls' u) :
    Run step s (ls ++ ls') u := by
  induction h' with
  | nil => simpa using h
  | snoc _ hstep ih =>
    rw [← List.append_assoc]
    exact ih.snoc hstep

theorem Run.cons {s t u : S} {l : L} {ls : List L} (h : step s l t) (h' : Run step t ls u) :
    Run step s (l :: ls) u :=
  (Run.single h).append h'

/-- A run through a label is a run up to it, its step, and a run from there. -/
theorem Run.split {s u : S} {l : L} : ∀ {ls' ls : List L}, Run step s (ls ++ l :: ls') u →
    ∃ t t', Run step s ls t ∧ step t l t' ∧ Run step t' ls' u := by
  intro ls'
  induction ls' using List.reverseRecOn generalizing u with
  | nil =>
    intro ls h
    generalize htrace : ls ++ [l] = trace at h
    cases h with
    | nil => simp at htrace
    | snoc h hstep =>
      obtain ⟨rfl, hlast⟩ := List.append_inj' htrace rfl
      obtain rfl := List.singleton_inj.mp hlast
      exact ⟨_, _, h, hstep, .nil⟩
  | append_singleton ls' l' ih =>
    intro ls h
    generalize htrace : ls ++ l :: (ls' ++ [l']) = trace at h
    cases h with
    | nil => simp at htrace
    | snoc h hstep =>
      rw [← List.cons_append, ← List.append_assoc] at htrace
      obtain ⟨rfl, hlast⟩ := List.append_inj' htrace rfl
      obtain rfl := List.singleton_inj.mp hlast
      obtain ⟨t, t', hbefore, hl, hafter⟩ := ih h
      exact ⟨t, t', hbefore, hl, hafter.snoc hstep⟩

/-- A property of the history and the state that every step extends holds after every run. -/
theorem Run.history {I : List L → S → Prop} {s : S} (h0 : I [] s)
    (hstep : ∀ ls t l u, I ls t → step t l u → I (ls ++ [l]) u) {ls : List L} {t : S}
    (h : Run step s ls t) : I ls t := by
  induction h with
  | nil => exact h0
  | snoc _ hl ih => exact hstep _ _ _ _ ih hl

/-- An invariant of the step holds after every run. -/
theorem Run.inv {I : S → Prop} {s : S} (h0 : I s) (hstep : ∀ t l u, I t → step t l u → I u)
    {ls : List L} {t : S} (h : Run step s ls t) : I t :=
  h.history (I := fun _ t => I t) h0 fun _ _ _ _ hI hl => hstep _ _ _ hI hl

/-- What every step shows of its label holds of every label of a run. -/
theorem Run.forall_label {I : S → Prop} {Q : L → Prop} {s : S} (h0 : I s)
    (hstep : ∀ t l u, I t → step t l u → I u ∧ Q l) {ls : List L} {t : S}
    (h : Run step s ls t) : ∀ l ∈ ls, Q l := by
  refine (h.history (I := fun ls t => I t ∧ ∀ l ∈ ls, Q l) ⟨h0, by simp⟩ ?_).2
  intro ls t l u ⟨hI, hQ⟩ hl
  obtain ⟨hu, hlast⟩ := hstep t l u hI hl
  refine ⟨hu, fun l' hl' => ?_⟩
  rcases List.mem_append.mp hl' with hmem | hmem
  · exact hQ l' hmem
  · rw [List.mem_singleton.mp hmem]
    exact hlast

/-! ### Observations -/

/-- If each step is matched by a run that shows the observer the same, so is each run. -/
theorem Run.simulate {f : S → S'} {key : L → Option κ} {key' : L' → Option κ}
    (hstep : ∀ t l u, step t l u →
      ∃ ls', Run step' (f t) ls' (f u) ∧ ls'.filterMap key' = (key l).toList)
    {s t : S} {ls : List L} (h : Run step s ls t) :
    ∃ ls', Run step' (f s) ls' (f t) ∧ ls'.filterMap key' = ls.filterMap key := by
  induction h with
  | nil => exact ⟨[], .nil, rfl⟩
  | @snoc ls t u l _ hl ih =>
    obtain ⟨ls₁, hrun₁, hkey₁⟩ := ih
    obtain ⟨ls₂, hrun₂, hkey₂⟩ := hstep t l u hl
    refine ⟨ls₁ ++ ls₂, hrun₁.append hrun₂, ?_⟩
    rw [List.filterMap_append, List.filterMap_append, hkey₁, hkey₂]
    cases hk : key l <;> simp [hk]

/-! ### Projections -/

/-- Outputs and final value of a component that takes inputs one after the other. -/
def replay {V X Y : Type} (act : V → X → Y × V) (v : V) (inputs : List X) : List Y × V :=
  inputs.foldl (fun (outputs, v) input =>
    let (output, v) := act v input
    (outputs ++ [output], v)) ([], v)

theorem replay_concat {V X Y : Type} (act : V → X → Y × V) (v : V) (inputs : List X) (input : X) :
    replay act v (inputs ++ [input]) =
      ((replay act v inputs).1 ++ [(act (replay act v inputs).2 input).1],
        (act (replay act v inputs).2 input).2) := by
  unfold replay
  rw [List.foldl_append]
  rfl

/-- One component of the state in a run.  If its own steps act on it alone and the other steps leave
it, its outputs and its value come from its own inputs, in whatever order the others are. -/
theorem Run.replay {V X Y : Type} {I : S → Prop} {Q : L → Prop} (view : S → V) (mine : L → Prop)
    [DecidablePred mine] (input : L → X) (output : L → Y) (act : V → X → Y × V)
    (hstep : ∀ t l u, I t → Q l → step t l u → I u ∧
      (mine l → act (view t) (input l) = (output l, view u)) ∧ (¬ mine l → view u = view t))
    {s t : S} {ls : List L} (h : Run step s ls t) (h0 : I s) (hQ : ∀ l ∈ ls, Q l) :
    I t ∧ Transition.replay act (view s) ((ls.filter mine).map input) =
      ((ls.filter mine).map output, view t) := by
  induction h with
  | nil => exact ⟨h0, rfl⟩
  | @snoc ls t u l _ hl ih =>
    obtain ⟨hI, hreplay⟩ := ih fun l' hl' => hQ l' (List.mem_append_left _ hl')
    obtain ⟨hu, hmine, hother⟩ :=
      hstep t l u hI (hQ l (List.mem_append_right _ List.mem_cons_self)) hl
    refine ⟨hu, ?_⟩
    by_cases hm : mine l
    · rw [List.filter_append, List.filter_cons_of_pos (by simpa using hm), List.filter_nil,
        List.map_append, List.map_append, List.map_singleton, List.map_singleton, replay_concat,
        hreplay, hmine hm]
    · rw [List.filter_append, List.filter_cons_of_neg (by simpa using hm), List.filter_nil,
        List.append_nil, hreplay, hother hm]

/-! ### Keys -/

/-- No key is observed twice. -/
def Once (key : L → Option κ) (ls : List L) : Prop := (ls.filterMap key).Nodup

/-- No key is observed twice if no label repeats a key from before it. -/
theorem once_of_forall_split {key : L → Option κ} : ∀ {ls : List L},
    (∀ before l after, ls = before ++ l :: after → ∀ k, key l = some k →
      k ∉ before.filterMap key) → Once key ls := by
  intro ls
  induction ls using List.reverseRecOn with
  | nil => exact fun _ => List.nodup_nil
  | append_singleton ls l ih =>
    intro h
    have hls : Once key ls := ih fun before l' after hsplit =>
      h before l' (after ++ [l]) (by rw [hsplit, List.append_assoc, List.cons_append])
    rw [Once, List.filterMap_append]
    cases hkey : key l with
    | none =>
      rw [List.filterMap_cons_none hkey, List.filterMap_nil, List.append_nil]
      exact hls
    | some k =>
      rw [List.filterMap_cons_some hkey, List.filterMap_nil]
      refine List.nodup_append.mpr ⟨hls, List.nodup_singleton k, ?_⟩
      intro a ha b hb hab
      rw [hab, List.mem_singleton.mp hb] at ha
      exact h ls l [] rfl k hkey ha

/-- A list around one of its positions. -/
theorem exists_split_of_getElem? {ls : List L} {i : ℕ} {l : L} (h : ls[i]? = some l) :
    ∃ before after, ls = before ++ l :: after ∧ before.length = i := by
  obtain ⟨hlt, rfl⟩ := List.getElem?_eq_some_iff.mp h
  refine ⟨ls.take i, ls.drop (i + 1), ?_, List.length_take_of_le hlt.le⟩
  rw [List.cons_getElem_drop_succ, List.take_append_drop]

/-- A key is observed at one position. -/
theorem Once.eq_of_getElem? {key : L → Option κ} {ls : List L} (h : Once key ls)
    {i j : ℕ} {l l' : L}
    (hi : ls[i]? = some l) (hj : ls[j]? = some l') {k : κ} (hl : key l = some k)
    (hl' : key l' = some k) : i = j := by
  have hne : ∀ {i j : ℕ} {l l' : L}, ls[i]? = some l → ls[j]? = some l' → key l = some k →
      key l' = some k → ¬ i < j := by
    intro i j l l' hi hj hl hl' hlt
    obtain ⟨before, after, rfl, rfl⟩ := exists_split_of_getElem? hi
    have hmem : l' ∈ after := by
      obtain ⟨n, rfl⟩ := Nat.exists_eq_add_of_lt hlt
      rw [List.getElem?_append_right (by omega),
        show before.length + n + 1 - before.length = n + 1 by omega, List.getElem?_cons_succ] at hj
      exact List.mem_of_getElem? hj
    rw [Once, List.filterMap_append, List.filterMap_cons_some hl] at h
    exact (List.nodup_cons.mp (List.nodup_append.mp h).2.1).1
      (List.mem_filterMap.mpr ⟨l', hmem, hl'⟩)
  have hij := hne hi hj hl hl'
  have hji := hne hj hi hl' hl
  omega

theorem length_filterMap_of_isSome {key : L → Option κ} {ls : List L}
    (h : ∀ l ∈ ls, (key l).isSome) : (ls.filterMap key).length = ls.length := by
  rw [List.length_filterMap_eq_countP, List.countP_eq_length.mpr h]

/-- The labels of a family number at most the indices that cover their keys. -/
theorem Once.countP_le [DecidableEq κ] {ι : Type} {key : L → Option κ} {ls : List L}
    (h : Once key ls) (p : L → Bool) (T : Finset ι) (f : ι → κ)
    (hcover : ∀ l ∈ ls, p l = true → ∃ i ∈ T, key l = some (f i)) : ls.countP p ≤ T.card := by
  have hsome : ∀ l ∈ ls.filter p, (key l).isSome := by
    intro l hl
    obtain ⟨hmem, hp⟩ := List.mem_filter.mp hl
    obtain ⟨i, -, hi⟩ := hcover l hmem hp
    simp [hi]
  have hnodup : ((ls.filter p).filterMap key).Nodup :=
    h.sublist (List.filter_sublist.filterMap key)
  have hsub : ((ls.filter p).filterMap key).toFinset ⊆ T.image f := by
    intro k hk
    obtain ⟨l, hl, hlk⟩ := List.mem_filterMap.mp (List.mem_toFinset.mp hk)
    obtain ⟨hmem, hp⟩ := List.mem_filter.mp hl
    obtain ⟨i, hi, hki⟩ := hcover l hmem hp
    rw [hki, Option.some_inj] at hlk
    exact Finset.mem_image.mpr ⟨i, hi, hlk⟩
  calc ls.countP p = ((ls.filter p).filterMap key).length := by
        rw [length_filterMap_of_isSome hsome, List.countP_eq_length_filter]
    _ = ((ls.filter p).filterMap key).toFinset.card := (List.toFinset_card_of_nodup hnodup).symm
    _ ≤ (T.image f).card := Finset.card_le_card hsub
    _ ≤ T.card := Finset.card_image_le

end Transition
