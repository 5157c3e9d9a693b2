import Mathlib.Tactic
import Mathlib.Data.Vector.Defs

/-!
# Scatter — loops that fill a fixed-size array one cell at a time

`scatter out is dst val` runs `for i in is { out[dst i] = val i }`.  When `dst` is injective every
visited cell ends with the value written for it (`getElem_scatter`), whatever the order of the
loop and whatever the array held before.
-/

namespace Scatter

variable {α ι : Type*} {n : ℕ}

/-- `for i in is { out[dst i] = val i }`. -/
def scatter (out : Vector α n) (is : List ι) (dst : ι → ℕ) (val : ι → α) : Vector α n :=
  is.foldl (fun out i => out.setIfInBounds (dst i) (val i)) out

theorem scatter_concat (out : Vector α n) (is : List ι) (i : ι) (dst : ι → ℕ) (val : ι → α) :
    scatter out (is ++ [i]) dst val =
      (scatter out is dst val).setIfInBounds (dst i) (val i) := by
  simp [scatter, List.foldl_append]

theorem scatter_map {κ : Type*} (out : Vector α n) (is : List κ) (g : κ → ι) (dst : ι → ℕ)
    (val : ι → α) :
    scatter out (is.map g) dst val = scatter out is (fun k => dst (g k)) fun k => val (g k) :=
  List.foldl_map

theorem getElem_scatter {out : Vector α n} {is : List ι} {dst : ι → ℕ} {val : ι → α}
    (hinj : Function.Injective dst) {i : ι} (hi : i ∈ is) (h : dst i < n) :
    (scatter out is dst val)[dst i] = val i := by
  induction is using List.reverseRecOn with
  | nil => simp at hi
  | append_singleton is j ih =>
    simp only [scatter_concat, Vector.getElem_setIfInBounds]
    by_cases hij : dst j = dst i
    · rw [if_pos hij, hinj hij]
    · rw [if_neg hij]
      have hne : i ≠ j := fun h => hij (h ▸ rfl)
      exact ih ((List.mem_append.mp hi).resolve_right (by simpa using hne))

/-- The same for destinations that carry their own bound. -/
theorem get_scatter {out : Vector α n} {is : List ι} {dst : ι → Fin n} {val : ι → α}
    (hinj : Function.Injective dst) {i : ι} (hi : i ∈ is) :
    (scatter out is (fun i => (dst i).val) val).get (dst i) = val i :=
  getElem_scatter (Fin.val_injective.comp hinj) hi (dst i).isLt

/-- A loop over all cells. -/
theorem scatter_finRange (out : Vector α n) (val : Fin n → α) :
    scatter out (List.finRange n) Fin.val val = Vector.ofFn val := by
  ext i hi
  rw [Vector.getElem_ofFn]
  exact getElem_scatter (i := (⟨i, hi⟩ : Fin n)) Fin.val_injective (List.mem_finRange _) hi

/-- Cells the loop does not visit keep their value. -/
theorem getElem_scatter_of_forall_ne {out : Vector α n} {is : List ι} {dst : ι → ℕ}
    {val : ι → α} {k : ℕ} (h : k < n) (hk : ∀ i ∈ is, dst i ≠ k) :
    (scatter out is dst val)[k] = out[k] := by
  induction is using List.reverseRecOn with
  | nil => rfl
  | append_singleton is j ih =>
    simp only [scatter_concat, Vector.getElem_setIfInBounds]
    rw [if_neg (hk j (by simp)), ih fun i hi => hk i (by simp [hi])]

/-- A loop over a contiguous range of cells. -/
theorem getElem_scatter_range {out : Vector α n} {m k : ℕ} {dst : ℕ → ℕ} {val : ℕ → α}
    (hdst : ∀ j, dst j = k + j) {i : ℕ} (hi : i < n) :
    (scatter out (List.range m) dst val)[i] =
      if k ≤ i ∧ i < k + m then val (i - k) else out[i] := by
  have hinj : Function.Injective dst := fun a b h => by simp only [hdst] at h; omega
  split_ifs with h
  · obtain ⟨j, rfl⟩ : ∃ j, i = k + j := ⟨i - k, by omega⟩
    have hj : j ∈ List.range m := List.mem_range.mpr (by omega)
    have key : ∀ hj' : dst j < n, (scatter out (List.range m) dst val)[dst j] = val j :=
      getElem_scatter hinj hj
    simp only [hdst] at key
    rw [key hi, Nat.add_sub_cancel_left]
  · refine getElem_scatter_of_forall_ne hi fun j hj => ?_
    rw [hdst]
    have := List.mem_range.mp hj
    omega

end Scatter
