import Mathlib.Tactic

/-!
# Growable — buffers with reserved room, and what outgrowing it leaves behind

A growable buffer is made with some room.  An append that needs more moves the contents to a larger
allocation and gives the old one up as it is, so a copy of everything written so far stays behind.
`Builds b n xs` says that `b` was made with room for `n` elements and then filled with `xs`, append
by append; such a buffer was never outgrown exactly when `xs` fits (`Builds.neverOutgrown_iff`).
-/

namespace Growable

variable {α ι σ : Type*}

/-- A growable buffer: the room reserved at the start and the room it has now, its contents, its
length after each append, and what the allocations it gave up held. -/
structure Buffer (α : Type*) where
  reserved : ℕ
  capacity : ℕ
  contents : List α
  lengths : List ℕ
  abandoned : List (List α)

namespace Buffer

/-- `Vec::with_capacity(n)`. -/
def withCapacity (n : ℕ) : Buffer α := ⟨n, n, [], [], []⟩

/-- `extend_from_slice`, and `extend` from an iterator of known length. -/
def extend (b : Buffer α) (xs : List α) : Buffer α :=
  if b.contents.length + xs.length ≤ b.capacity then
    { b with
      contents := b.contents ++ xs
      lengths := b.lengths ++ [b.contents.length + xs.length] }
  else
    { b with
      capacity := max (2 * b.capacity) (b.contents.length + xs.length)
      contents := b.contents ++ xs
      lengths := b.lengths ++ [b.contents.length + xs.length]
      abandoned := b.abandoned ++ [b.contents] }

def push (b : Buffer α) (x : α) : Buffer α := b.extend [x]

/-- `extend` from any other iterator: one push after the other. -/
def extendEach (b : Buffer α) (xs : List α) : Buffer α := xs.foldl push b

/-- After each append the length was at most the room reserved at the start, and no copy of the
contents was left behind. -/
def NeverOutgrown (b : Buffer α) : Prop := (∀ n ∈ b.lengths, n ≤ b.reserved) ∧ b.abandoned = []

@[simp] theorem contents_extend (b : Buffer α) (xs : List α) :
    (b.extend xs).contents = b.contents ++ xs := by
  unfold extend
  split_ifs <;> rfl

@[simp] theorem reserved_extend (b : Buffer α) (xs : List α) :
    (b.extend xs).reserved = b.reserved := by
  unfold extend
  split_ifs <;> rfl

@[simp] theorem lengths_extend (b : Buffer α) (xs : List α) :
    (b.extend xs).lengths = b.lengths ++ [b.contents.length + xs.length] := by
  unfold extend
  split_ifs <;> rfl

theorem extend_of_le {b : Buffer α} {xs : List α}
    (h : b.contents.length + xs.length ≤ b.capacity) :
    (b.extend xs).capacity = b.capacity ∧ (b.extend xs).abandoned = b.abandoned := by
  unfold extend
  rw [if_pos h]
  exact ⟨rfl, rfl⟩

theorem extend_of_lt {b : Buffer α} {xs : List α}
    (h : b.capacity < b.contents.length + xs.length) :
    (b.extend xs).abandoned = b.abandoned ++ [b.contents] := by
  unfold extend
  rw [if_neg (by omega)]

/-- What was left behind stays. -/
theorem abandoned_extend (b : Buffer α) (xs : List α) :
    b.abandoned <+: (b.extend xs).abandoned := by
  rcases Nat.lt_or_ge b.capacity (b.contents.length + xs.length) with h | h
  · rw [extend_of_lt h]
    exact List.prefix_append _ _
  · rw [(extend_of_le h).2]

end Buffer

open Buffer

/-! ### Filling a buffer -/

/-- `b` was made with room for `n` elements and filled with `xs` in some pieces. -/
def Builds (b : Buffer α) (n : ℕ) (xs : List α) : Prop :=
  ∃ pieces : List (List α), pieces.flatten = xs ∧ b = pieces.foldl extend (withCapacity n)

/-- `f` appends `xs` in some pieces. -/
def Appends (f : Buffer α → Buffer α) (xs : List α) : Prop :=
  ∃ pieces : List (List α), pieces.flatten = xs ∧ ∀ b, f b = pieces.foldl extend b

theorem Appends.extend (xs : List α) : Appends (fun b => b.extend xs) xs :=
  ⟨[xs], by simp, fun _ => rfl⟩

theorem Appends.push (x : α) : Appends (fun b => b.push x) [x] := Appends.extend [x]

theorem Appends.extendEach (xs : List α) : Appends (fun b => b.extendEach xs) xs := by
  refine ⟨xs.map fun x => [x], ?_, fun b => (List.foldl_map (f := fun x => [x])).symm⟩
  rw [← List.flatMap_def, List.flatMap_singleton']

theorem Appends.nil : Appends (fun b : Buffer α => b) [] := ⟨[], rfl, fun _ => rfl⟩

theorem Appends.comp {f g : Buffer α → Buffer α} {xs ys : List α} (hf : Appends f xs)
    (hg : Appends g ys) : Appends (fun b => g (f b)) (xs ++ ys) := by
  obtain ⟨pieces, rfl, hf⟩ := hf
  obtain ⟨pieces', rfl, hg⟩ := hg
  refine ⟨pieces ++ pieces', List.flatten_append, fun b => ?_⟩
  simp only [hf, hg, List.foldl_append]

/-- A loop that appends in every iteration. -/
theorem Appends.foldl {f : Buffer α → ι → Buffer α} {out : ι → List α}
    (h : ∀ i, Appends (fun b => f b i) (out i)) (is : List ι) :
    Appends (fun b => is.foldl f b) (is.flatMap out) := by
  induction is with
  | nil => exact Appends.nil
  | cons i is ih => exact (h i).comp ih

/-- What a loop with a state of its own puts out. -/
def emitted (out : σ → ι → List α) (next : σ → ι → σ) : List ι → σ → List α
  | [], _ => []
  | i :: is, s => out s i ++ emitted out next is (next s i)

/-- A loop that appends in every iteration and carries a state along. -/
theorem Appends.loop {f : Buffer α × σ → ι → Buffer α × σ} {out : σ → ι → List α}
    {next : σ → ι → σ}
    {app : σ → ι → Buffer α → Buffer α} (hf : ∀ b s i, f (b, s) i = (app s i b, next s i))
    (h : ∀ s i, Appends (app s i) (out s i)) (is : List ι) (s : σ) :
    Appends (fun b => (is.foldl f (b, s)).1) (emitted out next is s) := by
  induction is generalizing s with
  | nil => exact Appends.nil
  | cons i is ih =>
    have hloop := (h s i).comp (ih (next s i))
    simpa only [emitted, List.foldl_cons, hf] using hloop

/-- The same loop on a list. -/
theorem foldl_append_emitted {f : List α × σ → ι → List α × σ} {out : σ → ι → List α}
    {next : σ → ι → σ} (hf : ∀ acc s i, f (acc, s) i = (acc ++ out s i, next s i)) (is : List ι)
    (acc : List α) (s : σ) : (is.foldl f (acc, s)).1 = acc ++ emitted out next is s := by
  induction is generalizing acc s with
  | nil => simp [emitted]
  | cons i is ih => rw [List.foldl_cons, hf, ih, emitted, List.append_assoc]

theorem Builds.withCapacity (n : ℕ) : Builds (withCapacity n : Buffer α) n [] := ⟨[], rfl, rfl⟩

theorem Builds.append {b : Buffer α} {n : ℕ} {xs ys : List α} {f : Buffer α → Buffer α}
    (hb : Builds b n xs) (hf : Appends f ys) : Builds (f b) n (xs ++ ys) := by
  obtain ⟨pieces, rfl, rfl⟩ := hb
  obtain ⟨pieces', rfl, hf⟩ := hf
  refine ⟨pieces ++ pieces', List.flatten_append, ?_⟩
  rw [hf, List.foldl_append]

/-! ### What filling does -/

theorem Builds.contents_eq {b : Buffer α} {n : ℕ} {xs : List α} (h : Builds b n xs) :
    b.contents = xs ∧ b.reserved = n := by
  obtain ⟨pieces, rfl, rfl⟩ := h
  induction pieces using List.reverseRecOn with
  | nil => exact ⟨rfl, rfl⟩
  | append_singleton pieces piece ih =>
    rw [List.foldl_append, List.foldl_cons, List.foldl_nil, contents_extend, reserved_extend, ih.1,
      ih.2, List.flatten_concat]
    exact ⟨rfl, rfl⟩

/-- As long as everything fits, the first allocation is kept. -/
theorem Builds.of_le {b : Buffer α} {n : ℕ} {xs : List α} (h : Builds b n xs)
    (hle : xs.length ≤ n) : b.capacity = n ∧ b.NeverOutgrown := by
  obtain ⟨pieces, rfl, rfl⟩ := h
  induction pieces using List.reverseRecOn with
  | nil => exact ⟨rfl, by simp [NeverOutgrown, Buffer.withCapacity]⟩
  | append_singleton pieces piece ih =>
    rw [List.flatten_concat, List.length_append] at hle
    obtain ⟨hcapacity, hlengths, habandoned⟩ := ih (by omega)
    obtain ⟨hcontents, hreserved⟩ :=
      Builds.contents_eq (b := pieces.foldl extend (Buffer.withCapacity n)) ⟨pieces, rfl, rfl⟩
    rw [List.foldl_append, List.foldl_cons, List.foldl_nil]
    set b := pieces.foldl Buffer.extend (Buffer.withCapacity n)
    have hfits : b.contents.length + piece.length ≤ b.capacity := by
      rw [hcontents, hcapacity]
      exact hle
    obtain ⟨hcapacity', habandoned'⟩ := extend_of_le hfits
    refine ⟨hcapacity'.trans hcapacity, fun k hk => ?_, habandoned'.trans habandoned⟩
    rw [reserved_extend]
    rw [lengths_extend] at hk
    rcases List.mem_append.mp hk with hk | hk
    · exact hlengths k hk
    · rw [List.mem_singleton.mp hk, hcontents, hreserved]
      exact hle

/-- Once something does not fit, an append exceeded the room and a copy stays behind. -/
theorem Builds.of_lt {b : Buffer α} {n : ℕ} {xs : List α} (h : Builds b n xs)
    (hlt : n < xs.length) : (∃ k ∈ b.lengths, n < k) ∧ b.abandoned ≠ [] := by
  obtain ⟨pieces, rfl, rfl⟩ := h
  induction pieces using List.reverseRecOn with
  | nil => simp at hlt
  | append_singleton pieces piece ih =>
    have hbuilds : Builds (pieces.foldl extend (Buffer.withCapacity n)) n pieces.flatten :=
      ⟨pieces, rfl, rfl⟩
    rw [List.flatten_concat, List.length_append] at hlt
    rw [List.foldl_append, List.foldl_cons, List.foldl_nil]
    set b := pieces.foldl Buffer.extend (Buffer.withCapacity n)
    constructor
    · refine ⟨b.contents.length + piece.length, ?_, by rw [hbuilds.contents_eq.1]; exact hlt⟩
      rw [lengths_extend]
      exact List.mem_append_right _ (List.mem_singleton_self _)
    · rcases Nat.lt_or_ge n pieces.flatten.length with h | h
      · intro hnil
        have hprefix := abandoned_extend b piece
        rw [hnil, List.prefix_nil] at hprefix
        exact (ih h).2 hprefix
      · have hgrow : b.capacity < b.contents.length + piece.length := by
          rw [(hbuilds.of_le h).1, hbuilds.contents_eq.1]
          exact hlt
        rw [extend_of_lt hgrow]
        simp

/-- A buffer was never outgrown exactly when its contents fit the room reserved for them. -/
theorem Builds.neverOutgrown_iff {b : Buffer α} {n : ℕ} {xs : List α} (h : Builds b n xs) :
    b.NeverOutgrown ↔ xs.length ≤ n := by
  refine ⟨fun hnever => Nat.le_of_not_lt fun hlt => ?_, fun hle => (h.of_le hle).2⟩
  exact (h.of_lt hlt).2 hnever.2

/-- What fits at first is in every copy that is left behind later. -/
theorem Builds.prefix_of_mem_abandoned {b : Buffer α} {n : ℕ} {xs ys : List α}
    {f : Buffer α → Buffer α} (hb : Builds b n xs) (hf : Appends f ys) (hle : xs.length ≤ n)
    {copy : List α} (hcopy : copy ∈ (f b).abandoned) : xs <+: copy := by
  obtain ⟨pieces, -, hf⟩ := hf
  rw [hf] at hcopy
  have key : ∀ (pieces : List (List α)) (b : Buffer α), xs <+: b.contents →
      (∀ copy ∈ b.abandoned, xs <+: copy) → ∀ copy ∈ (pieces.foldl Buffer.extend b).abandoned,
        xs <+: copy := by
    intro pieces
    induction pieces with
    | nil => exact fun _ _ h => h
    | cons piece pieces ih =>
      intro b hcontents habandoned
      refine ih (b.extend piece) ?_ ?_
      · rw [contents_extend]
        exact hcontents.trans (List.prefix_append _ _)
      · intro copy hcopy
        rcases Nat.lt_or_ge b.capacity (b.contents.length + piece.length) with h | h
        · rw [extend_of_lt h] at hcopy
          rcases List.mem_append.mp hcopy with hcopy | hcopy
          · exact habandoned copy hcopy
          · rwa [List.mem_singleton.mp hcopy]
        · rw [(extend_of_le h).2] at hcopy
          exact habandoned copy hcopy
  refine key pieces b ?_ ?_ copy hcopy
  · rw [hb.contents_eq.1]
  · rw [(hb.of_le hle).2.2]
    simp

end Growable
