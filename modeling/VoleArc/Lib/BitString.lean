import Mathlib.Tactic
import Mathlib.Data.List.GetD

/-!
# BitString — least-significant-bit-first bit strings and fixed-size chunks

`lsbBits x` lists the bits of a bit vector, bit `0` first.  A bit string of length `w * n` is the
concatenation of the bits of exactly one list of `n` bit vectors of width `w`
(`exists_flatMap_lsbBits`, `flatMap_lsbBits_injective`).  `chunks k l` cuts a list into pieces of
length `k`, the last one possibly shorter.
-/

namespace BitString

variable {α β : Type*} {w : ℕ}

/-! ### Bits of one bit vector -/

/-- The bits of `x`, least significant first. -/
def lsbBits (x : BitVec w) : List Bool := (List.range w).map x.getLsbD

@[simp] theorem length_lsbBits (x : BitVec w) : (lsbBits x).length = w := by simp [lsbBits]

theorem getElem_lsbBits (x : BitVec w) (i : ℕ) (h : i < (lsbBits x).length) :
    (lsbBits x)[i] = x.getLsbD i := by
  simp [lsbBits]

theorem getElem?_lsbBits (x : BitVec w) {i : ℕ} (h : i < w) :
    (lsbBits x)[i]? = some (x.getLsbD i) := by
  simp [lsbBits, h]

theorem lsbBits_injective : Function.Injective (lsbBits (w := w)) := by
  intro x y h
  apply BitVec.eq_of_getLsbD_eq
  intro i hi
  have hx := getElem?_lsbBits x hi
  have hy := getElem?_lsbBits y hi
  rw [h, hy] at hx
  exact (Option.some.inj hx).symm

theorem lsbBits_inj {x y : BitVec w} : lsbBits x = lsbBits y ↔ x = y :=
  lsbBits_injective.eq_iff

theorem exists_lsbBits {l : List Bool} (h : l.length = w) : ∃ x : BitVec w, lsbBits x = l := by
  subst h
  refine ⟨BitVec.ofBoolListLE l, List.ext_getElem (by simp) fun i h₁ h₂ => ?_⟩
  rw [getElem_lsbBits, BitVec.getLsbD_ofBoolListLE, List.getD_eq_getElem _ _ h₂]

/-! ### Bits of a list of bit vectors -/

@[simp] theorem length_flatMap_lsbBits (xs : List (BitVec w)) :
    (xs.flatMap lsbBits).length = w * xs.length := by
  induction xs with
  | nil => simp
  | cons x xs ih => simp only [List.flatMap_cons, List.length_append, length_lsbBits, ih,
      List.length_cons]; ring

/-- Every bit string of the right length is the bits of a list of bit vectors. -/
theorem exists_flatMap_lsbBits {n : ℕ} {l : List Bool} (h : l.length = w * n) :
    ∃ xs : List (BitVec w), xs.length = n ∧ xs.flatMap lsbBits = l := by
  induction n generalizing l with
  | zero => exact ⟨[], rfl, (List.length_eq_zero_iff.mp (by simpa using h)).symm⟩
  | succ n ih =>
    have hlen : w ≤ l.length := by rw [h]; exact Nat.le_mul_of_pos_right _ n.succ_pos
    obtain ⟨x, hx⟩ : ∃ x : BitVec w, lsbBits x = l.take w :=
      exists_lsbBits (List.length_take_of_le hlen)
    have hdrop : (l.drop w).length = w * n := by rw [List.length_drop, h, Nat.mul_succ]; omega
    obtain ⟨xs, hn, hxs⟩ := ih hdrop
    exact ⟨x :: xs, by simp [hn], by simp [hx, hxs]⟩

theorem flatMap_lsbBits_injective (hw : 0 < w) :
    Function.Injective fun xs : List (BitVec w) => xs.flatMap lsbBits := by
  intro xs ys h
  simp only at h
  induction xs generalizing ys with
  | nil =>
    have hlen := congrArg List.length h
    simp only [List.flatMap_nil, List.length_nil, length_flatMap_lsbBits] at hlen
    have hys : ys.length = 0 := (Nat.mul_eq_zero.mp hlen.symm).resolve_left (by omega)
    exact (List.length_eq_zero_iff.mp hys).symm
  | cons x xs ih =>
    cases ys with
    | nil =>
      have hlen := congrArg List.length h
      simp only [List.flatMap_cons, List.length_append, length_lsbBits, List.flatMap_nil,
        List.length_nil] at hlen
      omega
    | cons y ys =>
      simp only [List.flatMap_cons] at h
      obtain ⟨h₁, h₂⟩ := List.append_inj h (by simp)
      rw [lsbBits_injective h₁, ih h₂]

/-- Bit `w * i + j` of a concatenation is bit `j` of piece `i`. -/
theorem getElem?_flatMap_lsbBits (xs : List (BitVec w)) {i j : ℕ} (hj : j < w) :
    (xs.flatMap lsbBits)[w * i + j]? = xs[i]?.map (·.getLsbD j) := by
  induction xs generalizing i with
  | nil => simp
  | cons x xs ih =>
    rw [List.flatMap_cons]
    cases i with
    | zero => rw [List.getElem?_append_left (by simpa using hj)]; simpa using getElem?_lsbBits x hj
    | succ i =>
      rw [List.getElem?_append_right (by rw [length_lsbBits, Nat.mul_succ]; omega), length_lsbBits,
        show w * (i + 1) + j - w = w * i + j by rw [Nat.mul_succ]; omega, ih]
      simp

/-! ### Chunks -/

/-- Cut `l` into pieces of length `k`; only the last piece may be shorter. -/
def chunks (k : ℕ) (l : List α) : List (List α) := go l.length l
where
  /-- One piece for each unit of fuel; the length of the list is always enough. -/
  go : ℕ → List α → List (List α)
    | 0, _ => []
    | fuel + 1, l => if l.isEmpty then [] else l.take k :: go fuel (l.drop k)

@[simp] theorem chunks_nil (k : ℕ) : chunks k ([] : List α) = [] := rfl

theorem chunks_go_eq {k : ℕ} (hk : 0 < k) :
    ∀ (f g : ℕ) (l : List α), l.length ≤ f → l.length ≤ g → chunks.go k f l = chunks.go k g l
  | 0, g, l, hf, _ => by
    have : l = [] := List.length_eq_zero_iff.mp (by omega)
    subst this
    cases g <;> simp [chunks.go]
  | f + 1, 0, l, _, hg => by
    have : l = [] := List.length_eq_zero_iff.mp (by omega)
    subst this
    simp [chunks.go]
  | f + 1, g + 1, l, hf, hg => by
    by_cases hl : l = []
    · simp [chunks.go, hl]
    · have hpos := List.length_pos_iff.mpr hl
      simp only [chunks.go, List.isEmpty_iff, hl, if_false]
      rw [chunks_go_eq hk f g (l.drop k) (by simp; omega) (by simp; omega)]

theorem chunks_of_ne_nil {k : ℕ} (hk : 0 < k) {l : List α} (hl : l ≠ []) :
    chunks k l = l.take k :: chunks k (l.drop k) := by
  have hpos := List.length_pos_iff.mpr hl
  obtain ⟨n, hn⟩ : ∃ n, l.length = n + 1 := ⟨l.length - 1, by omega⟩
  unfold chunks
  rw [hn]
  simp only [chunks.go, List.isEmpty_iff, hl, if_false]
  rw [chunks_go_eq hk n (l.drop k).length (l.drop k) (by simp; omega) le_rfl]

theorem ne_nil_of_mem_chunks {k : ℕ} (hk : 0 < k) {l piece : List α} (h : piece ∈ chunks k l) :
    piece ≠ [] := by
  have key : ∀ (fuel : ℕ) (l : List α), piece ∈ chunks.go k fuel l → piece ≠ [] := by
    intro fuel
    induction fuel with
    | zero => simp [chunks.go]
    | succ fuel ih =>
      intro l h
      rw [chunks.go] at h
      split_ifs at h with hl
      · simp at h
      · rcases List.mem_cons.mp h with rfl | h
        · rw [List.isEmpty_iff] at hl
          simp [hl, hk.ne']
        · exact ih _ h
  exact key _ _ h

theorem chunks_append {k : ℕ} (hk : 0 < k) {a : List α} (ha : a.length = k) (l : List α) :
    chunks k (a ++ l) = a :: chunks k l := by
  have hne : a ++ l ≠ [] := by
    rintro h
    simp only [List.append_eq_nil_iff] at h
    simp [h.1] at ha
    omega
  rw [chunks_of_ne_nil hk hne, List.take_left' ha, List.drop_left' ha]

/-- Cutting whole pieces off the front. -/
theorem chunks_flatMap_append {k : ℕ} (hk : 0 < k) {f : β → List α} (hf : ∀ x, (f x).length = k)
    (xs : List β) (l : List α) : chunks k (xs.flatMap f ++ l) = xs.map f ++ chunks k l := by
  induction xs with
  | nil => rfl
  | cons x xs ih =>
    rw [List.flatMap_cons, List.append_assoc, chunks_append hk (hf x), ih, List.map_cons,
      List.cons_append]

/-- Cutting a concatenation of pieces of length `k` gives the pieces back. -/
theorem chunks_flatMap {k : ℕ} (hk : 0 < k) {f : β → List α} (hf : ∀ x, (f x).length = k)
    (xs : List β) : chunks k (xs.flatMap f) = xs.map f := by
  have h := chunks_flatMap_append hk hf xs []
  rwa [List.append_nil, chunks_nil, List.append_nil] at h

/-- Behind the pieces before it stands the piece of an entry. -/
theorem drop_flatMap_append {k : ℕ} {f : β → List α} (hf : ∀ x, (f x).length = k) {xs : List β}
    {i : ℕ} {x : β} (h : xs[i]? = some x) (l : List α) :
    (xs.flatMap f ++ l).drop (k * i) = f x ++ ((xs.drop (i + 1)).flatMap f ++ l) := by
  induction xs generalizing i with
  | nil => cases h
  | cons y ys ih =>
    rw [List.flatMap_cons, List.append_assoc]
    cases i with
    | zero =>
      obtain rfl := Option.some.inj h
      rfl
    | succ i =>
      rw [Nat.mul_succ, Nat.add_comm, ← List.drop_drop, List.drop_left' (hf y)]
      exact ih h

end BitString
