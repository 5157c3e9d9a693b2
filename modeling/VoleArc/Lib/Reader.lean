import Mathlib.Tactic

/-!
# Reader — decoders over a fixed input, and exactly what they accept

A decoder moves a cursor over an input list and may fail.  `Reads m R` says that `m` succeeds with
`a` exactly when it consumes some `bs`, leaving `rest`, with `R a bs rest`.  The rules below follow
the structure of the decoder, so the set of inputs a whole decoder accepts, and what it returns on
each, is read off its code in both directions at once.
-/

namespace Reader

variable {β ε α γ : Type}

/-! ### Cursors -/

/-- A position inside a fixed input. -/
structure Cursor (β : Type) where
  input : List β
  offset : ℕ
  le : offset ≤ input.length

namespace Cursor

/-- What has not been read yet. -/
def rest (c : Cursor β) : List β := c.input.drop c.offset

/-- Move over the next `n` elements. -/
def advance (c : Cursor β) (n : ℕ) (h : c.offset + n ≤ c.input.length) : Cursor β :=
  ⟨c.input, c.offset + n, h⟩

theorem length_rest (c : Cursor β) : c.rest.length = c.input.length - c.offset :=
  List.length_drop

theorem offset_add_le_iff (c : Cursor β) (n : ℕ) :
    c.offset + n ≤ c.input.length ↔ n ≤ c.rest.length := by
  have := c.le
  rw [length_rest]
  omega

@[simp] theorem rest_advance (c : Cursor β) (n : ℕ) (h : c.offset + n ≤ c.input.length) :
    (c.advance n h).rest = c.rest.drop n := by
  rw [rest, rest, advance, List.drop_drop]

/-- A cursor is determined by its input and what is left of it. -/
theorem ext_rest {c d : Cursor β} (hinput : c.input = d.input) (hrest : c.rest = d.rest) :
    c = d := by
  obtain ⟨input, offset, hc⟩ := c
  obtain ⟨input', offset', hd⟩ := d
  simp only at hinput
  subst hinput
  have hlen := congrArg List.length hrest
  simp only [length_rest] at hlen
  have : offset = offset' := by omega
  subst this
  rfl

/-- What was read is how far the cursor moved. -/
theorem offset_of_rest {c d : Cursor β} {bs : List β} (hinput : d.input = c.input)
    (hrest : c.rest = bs ++ d.rest) : d.offset = c.offset + bs.length := by
  have hlen := congrArg List.length hrest
  have hc := c.le
  have hd := d.le
  rw [List.length_append, length_rest, length_rest, hinput] at hlen
  rw [hinput] at hd
  omega

/-- The start of an input. -/
def start (input : List β) : Cursor β := ⟨input, 0, Nat.zero_le _⟩

end Cursor

/-! ### Decoders -/

/-- A decoder of values of type `α`. -/
abbrev Decode (β ε α : Type) := StateT (Cursor β) (Except ε) α

/-- `m` succeeds with `a`, consuming `bs` and leaving `rest`, exactly when `R a bs rest`. -/
def Reads (m : Decode β ε α) (R : α → List β → List β → Prop) : Prop :=
  ∀ c a c', m c = .ok (a, c') ↔
    c'.input = c.input ∧ ∃ bs, c.rest = bs ++ c'.rest ∧ R a bs c'.rest

/-- Every value read comes from exactly one encoding. -/
def Codes (m : Decode β ε α) (valid : α → Prop) (enc : α → List β) : Prop :=
  Reads m fun a bs _ => valid a ∧ bs = enc a

theorem Reads.congr {m : Decode β ε α} {R R' : α → List β → List β → Prop} (h : Reads m R)
    (hR : ∀ a bs rest, R a bs rest ↔ R' a bs rest) : Reads m R' := by
  intro c a c'
  rw [h c a c']
  simp only [hR]

theorem Reads.pure (a : α) :
    Reads (pure a : Decode β ε α) fun b bs _ => b = a ∧ bs = [] := by
  intro c b c'
  have hrun : (Pure.pure a : Decode β ε α) c = .ok (a, c) := rfl
  rw [hrun]
  constructor
  · intro h
    obtain ⟨rfl, rfl⟩ := Prod.mk.inj (Except.ok.inj h)
    exact ⟨rfl, [], rfl, rfl, rfl⟩
  · rintro ⟨hinput, bs, hrest, rfl, rfl⟩
    rw [Cursor.ext_rest hinput hrest.symm]

theorem Reads.throw (e : ε) : Reads (throw e : Decode β ε α) fun _ _ _ => False := by
  intro c a c'
  have hrun : (MonadExcept.throw e : Decode β ε α) c = .error e := rfl
  rw [hrun]
  simp

theorem Reads.bind {m : Decode β ε α} {f : α → Decode β ε γ}
    {R : α → List β → List β → Prop}
    {R' : α → γ → List β → List β → Prop} (hm : Reads m R) (hf : ∀ a, Reads (f a) (R' a)) :
    Reads (m >>= f) fun b bs rest =>
      ∃ a bs₁ bs₂, bs = bs₁ ++ bs₂ ∧ R a bs₁ (bs₂ ++ rest) ∧ R' a b bs₂ rest := by
  intro c b c''
  have hrun : (m >>= f) c = .ok (b, c'') ↔
      ∃ a c', m c = .ok (a, c') ∧ f a c' = .ok (b, c'') := by
    simp only [Bind.bind, StateT.bind, Except.bind]
    cases m c with
    | error e => simp
    | ok r =>
      obtain ⟨a, c'⟩ := r
      constructor
      · exact fun h => ⟨a, c', rfl, h⟩
      · rintro ⟨_, _, heq, h⟩
        obtain ⟨rfl, rfl⟩ := Prod.mk.inj (Except.ok.inj heq)
        exact h
  rw [hrun]
  constructor
  · rintro ⟨a, c', h₁, h₂⟩
    obtain ⟨hi₁, bs₁, hr₁, hR⟩ := (hm c a c').mp h₁
    obtain ⟨hi₂, bs₂, hr₂, hR'⟩ := (hf a c' b c'').mp h₂
    rw [hr₂] at hr₁ hR
    exact ⟨hi₂.trans hi₁, bs₁ ++ bs₂, by rw [hr₁, List.append_assoc], a, bs₁, bs₂,
      rfl, hR, hR'⟩
  · rintro ⟨hinput, _, hrest, a, bs₁, bs₂, rfl, hR, hR'⟩
    rw [List.append_assoc] at hrest
    have hle : c.offset + bs₁.length ≤ c.input.length := by
      rw [c.offset_add_le_iff, hrest, List.length_append]
      omega
    have hrest' : (c.advance bs₁.length hle).rest = bs₂ ++ c''.rest := by
      rw [Cursor.rest_advance, hrest, List.drop_left]
    refine ⟨a, c.advance bs₁.length hle, (hm _ _ _).mpr ⟨rfl, bs₁, ?_, ?_⟩,
      (hf _ _ _ _).mpr ⟨hinput, bs₂, hrest', hR'⟩⟩
    · rw [hrest', hrest]
    · rwa [hrest']

/-- A bind whose first part reads one encoded value. -/
theorem Codes.bind {m : Decode β ε α} {f : α → Decode β ε γ} {valid : α → Prop}
    {enc : α → List β} {R : α → γ → List β → List β → Prop} (hm : Codes m valid enc)
    (hf : ∀ a, Reads (f a) (R a)) :
    Reads (m >>= f) fun b bs rest => ∃ a bs', valid a ∧ bs = enc a ++ bs' ∧ R a b bs' rest := by
  refine (Reads.bind hm hf).congr fun b bs rest => ?_
  constructor
  · rintro ⟨a, _, bs₂, rfl, ⟨hvalid, rfl⟩, hR⟩
    exact ⟨a, bs₂, hvalid, rfl, hR⟩
  · rintro ⟨a, bs', hvalid, rfl, hR⟩
    exact ⟨a, enc a, bs', rfl, ⟨hvalid, rfl⟩, hR⟩

/-- `if p then throw e; m`. -/
theorem Reads.guard {p : Prop} [Decidable p] {m : Decode β ε α} {e : ε}
    {R : α → List β → List β → Prop} (h : Reads m R) :
    Reads (if p then MonadExcept.throw e else m) fun a bs rest => ¬ p ∧ R a bs rest := by
  by_cases hp : p
  · rw [if_pos hp]
    exact (Reads.throw e).congr fun _ _ _ => by simp [hp]
  · rw [if_neg hp]
    exact h.congr fun _ _ _ => by simp [hp]

/-- The same, where what follows uses that `p` fails. -/
theorem Reads.dguard {p : Prop} [Decidable p] {m : ¬ p → Decode β ε α} {e : ε}
    {R : ¬ p → α → List β → List β → Prop} (h : ∀ hp, Reads (m hp) (R hp)) :
    Reads (if hp : p then MonadExcept.throw e else m hp) fun a bs rest => ∃ hp, R hp a bs rest := by
  by_cases hp : p
  · rw [dif_pos hp]
    exact (Reads.throw e).congr fun _ _ _ => by simp [hp]
  · rw [dif_neg hp]
    exact (h hp).congr fun _ _ _ => by simp [hp]

/-- A computation that does not move the cursor. -/
theorem Reads.lift (x : Except ε α) :
    Reads (liftM x : Decode β ε α) fun a bs _ => x = .ok a ∧ bs = [] := by
  cases x with
  | error e => exact (Reads.throw e).congr fun _ _ _ => by simp
  | ok a => exact (Reads.pure a).congr fun b bs _ => by simp [eq_comm]

/-- A bind whose first part does not move the cursor. -/
theorem Reads.lift_bind (x : Except ε α) {f : α → Decode β ε γ}
    {R : α → γ → List β → List β → Prop} (hf : ∀ a, Reads (f a) (R a)) :
    Reads (liftM x >>= f) fun b bs rest => ∃ a, x = .ok a ∧ R a b bs rest := by
  refine ((Reads.lift x).bind hf).congr fun b bs rest => ?_
  constructor
  · rintro ⟨a, _, bs₂, rfl, ⟨hx, rfl⟩, hR⟩
    exact ⟨a, hx, hR⟩
  · rintro ⟨a, hx, hR⟩
    exact ⟨a, [], bs, rfl, ⟨hx, rfl⟩, hR⟩

/-- Running a decoder on a whole input. -/
theorem Reads.run {m : Decode β ε α} {R : α → List β → List β → Prop} (h : Reads m R)
    (input : List β) (a : α) :
    (Prod.fst <$> m (Cursor.start input) : Except ε α) = .ok a ↔
      ∃ bs rest, input = bs ++ rest ∧ R a bs rest := by
  have hmap : (Prod.fst <$> m (Cursor.start input) : Except ε α) = .ok a ↔
      ∃ c', m (Cursor.start input) = .ok (a, c') := by
    cases m (Cursor.start input) with
    | error e => simp [Functor.map, Except.map]
    | ok r =>
      obtain ⟨b, c⟩ := r
      simp [Functor.map, Except.map]
  rw [hmap]
  constructor
  · rintro ⟨c', hc'⟩
    obtain ⟨-, bs, hrest, hR⟩ := (h _ _ _).mp hc'
    exact ⟨bs, c'.rest, hrest, hR⟩
  · rintro ⟨bs, rest, rfl, hR⟩
    have hrest : (⟨bs ++ rest, bs.length, by simp⟩ : Cursor β).rest = rest := by
      simp [Cursor.rest]
    exact ⟨⟨bs ++ rest, bs.length, by simp⟩,
      (h _ _ _).mpr ⟨rfl, bs, by rw [hrest]; rfl, by rwa [hrest]⟩⟩

/-! ### Primitives -/

/-- The next `n` elements. -/
def take (e : ε) (n : ℕ) : Decode β ε (List β) := fun c =>
  if h : c.offset + n ≤ c.input.length then .ok (c.rest.take n, c.advance n h) else .error e

theorem codes_take (e : ε) (n : ℕ) :
    Codes (take e n : Decode β ε (List β)) (fun a => a.length = n) id := by
  intro c a c'
  unfold take
  by_cases h : c.offset + n ≤ c.input.length
  · rw [dif_pos h]
    have hle := (c.offset_add_le_iff n).mp h
    constructor
    · intro hok
      obtain ⟨rfl, rfl⟩ := Prod.mk.inj (Except.ok.inj hok)
      refine ⟨rfl, c.rest.take n, ?_, List.length_take_of_le hle, rfl⟩
      rw [Cursor.rest_advance, List.take_append_drop]
    · rintro ⟨hinput, bs, hrest, hlen, hbs⟩
      subst hbs
      have htake : c.rest.take n = bs := by rw [hrest]; exact List.take_left' hlen
      have hcursor : c.advance n h = c' := by
        refine Cursor.ext_rest hinput.symm ?_
        rw [Cursor.rest_advance, hrest]
        exact List.drop_left' hlen
      rw [htake, hcursor]
  · rw [dif_neg h]
    refine iff_of_false (by simp) ?_
    rintro ⟨-, _, hrest, hlen, rfl⟩
    rw [c.offset_add_le_iff, hrest] at h
    simp only [List.length_append, hlen] at h
    omega

/-- Fail unless everything was read. -/
def finish (e : ε) : Decode β ε Unit := fun c =>
  if c.offset = c.input.length then .ok ((), c) else .error e

theorem reads_finish (e : ε) :
    Reads (finish e : Decode β ε Unit) fun _ bs rest => bs = [] ∧ rest = [] := by
  intro c a c'
  unfold finish
  have hiff : c.offset = c.input.length ↔ c.rest = [] := by
    have := c.le
    rw [← List.length_eq_zero_iff, Cursor.length_rest]
    omega
  constructor
  · intro h
    split_ifs at h with hend
    obtain ⟨-, rfl⟩ := Prod.mk.inj (Except.ok.inj h)
    exact ⟨rfl, [], rfl, rfl, hiff.mp hend⟩
  · rintro ⟨hinput, _, hrest, rfl, hnil⟩
    rw [List.nil_append] at hrest
    have hcc := Cursor.ext_rest hinput.symm hrest
    rw [if_pos (hiff.mpr (hrest.trans hnil)), hcc]

/-- Nothing is left after `finish`. -/
theorem Reads.finish_bind (e : ε) {f : Unit → Decode β ε γ} {R : γ → List β → List β → Prop}
    (hf : Reads (f ()) R) :
    Reads (finish e >>= f) fun b bs rest => (bs = [] ∧ rest = []) ∧ R b bs rest := by
  refine ((reads_finish e).bind fun _ => hf).congr fun b bs rest => ?_
  constructor
  · rintro ⟨_, _, bs₂, rfl, ⟨rfl, hnil⟩, hR⟩
    exact ⟨List.append_eq_nil_iff.mp hnil, hR⟩
  · rintro ⟨⟨rfl, rfl⟩, hR⟩
    exact ⟨(), [], [], rfl, ⟨rfl, rfl⟩, hR⟩

/-- Decode through a partial inverse of the encoding. -/
theorem Codes.map {m : Decode β ε α} {valid : α → Prop} {enc : α → List β} {valid' : γ → Prop}
    {enc' : γ → List β} {f : α → Decode β ε γ} (hm : Codes m valid enc)
    (hf : ∀ a, Reads (f a) fun b bs _ => bs = [] ∧ valid' b ∧ enc' b = enc a)
    (hvalid : ∀ b, valid' b → ∃ a, valid a ∧ enc a = enc' b) :
    Codes (m >>= f) valid' enc' := by
  refine (hm.bind hf).congr fun b bs rest => ?_
  constructor
  · rintro ⟨a, _, hva, rfl, rfl, hvb, henc⟩
    exact ⟨hvb, by rw [List.append_nil, henc]⟩
  · rintro ⟨hvb, rfl⟩
    obtain ⟨a, hva, henc⟩ := hvalid b hvb
    exact ⟨a, [], hva, by rw [List.append_nil, henc], rfl, hvb, henc.symm⟩

end Reader
