import VoleArc.Lib.BitString

/-!
# Sponge — the sponge construction on bit strings

`sponge f pad r N d` pads `N` to a multiple of the rate `r`, absorbs it block by block into an
all-zero state of `b` bits, and squeezes `r` bits at a time until `d` bits are out (FIPS 202,
Algorithms 8 and 9).  The output is a prefix of one stream of states, so a shorter output is a
prefix of a longer one.
-/

namespace Sponge

open BitString

variable {b : ℕ}

/-! ### The construction -/

/-- `pad10*1(x, m)`. -/
def pad10star1 (x m : ℕ) : List Bool :=
  [true] ++ List.replicate ((-(m : ℤ) - 2) % x).toNat false ++ [true]

/-- `S ⊕ (P_i || 0^c)`. -/
def xorBlock (S : Vector Bool b) (block : List Bool) : Vector Bool b :=
  Vector.ofFn fun i => S[i] ^^ block.getD i false

/-- Absorb blocks one after the other. -/
def absorb (f : Vector Bool b → Vector Bool b) (S : Vector Bool b) (blocks : List (List Bool)) :
    Vector Bool b :=
  blocks.foldl (fun S block => f (xorBlock S block)) S

/-- Append the first `r` bits of the state and stop when `d` bits are out; each unit of fuel is one
turn of the loop. -/
def squeezeLoop (f : Vector Bool b → Vector Bool b) (r d : ℕ) :
    ℕ → List Bool → Vector Bool b → List Bool
  | 0, Z, _ => Z
  | fuel + 1, Z, S =>
    let Z := Z ++ S.toList.take r
    if d ≤ Z.length then Z.take d else squeezeLoop f r d fuel Z (f S)

/-- The loop ends within `d + 1` turns, since each adds a bit. -/
def squeeze (f : Vector Bool b → Vector Bool b) (r d : ℕ) (S : Vector Bool b) : List Bool :=
  squeezeLoop f r d (d + 1) [] S

def sponge (f : Vector Bool b → Vector Bool b) (pad : ℕ → ℕ → List Bool) (r : ℕ) (N : List Bool)
    (d : ℕ) : List Bool :=
  squeeze f r d (absorb f (Vector.replicate b false) (chunks r (N ++ pad r N.length)))

/-! ### The squeezed stream -/

variable (f : Vector Bool b → Vector Bool b) {r : ℕ}

/-- The first `r` bits of `k` consecutive states. -/
def stream (r : ℕ) : ℕ → Vector Bool b → List Bool
  | 0, _ => []
  | k + 1, S => S.toList.take r ++ stream r k (f S)

theorem length_stream (hr : r ≤ b) (k : ℕ) (S : Vector Bool b) :
    (stream f r k S).length = k * r := by
  induction k generalizing S with
  | zero => rw [stream, Nat.zero_mul]; rfl
  | succ k ih =>
    rw [stream, List.length_append, ih, List.length_take, Vector.length_toList, Nat.min_eq_left hr,
      Nat.succ_mul, Nat.add_comm]

/-- More states only add bits at the end. -/
theorem stream_prefix {k k' : ℕ} (h : k ≤ k') (S : Vector Bool b) :
    stream f r k S <+: stream f r k' S := by
  induction k generalizing k' S with
  | zero => exact List.nil_prefix
  | succ k ih =>
    obtain ⟨k', rfl⟩ : ∃ n, k' = n + 1 := ⟨k' - 1, by omega⟩
    exact (List.prefix_append_right_inj _).mpr (ih (by omega) (f S))

/-- As many bits as two numbers of states both have. -/
theorem take_stream (hr : r ≤ b) {d k k' : ℕ} (hk : d ≤ k * r) (hk' : d ≤ k' * r)
    (S : Vector Bool b) : (stream f r k S).take d = (stream f r k' S).take d := by
  have key : ∀ {k k' : ℕ}, k ≤ k' → d ≤ k * r →
      (stream f r k S).take d = (stream f r k' S).take d := by
    intro k k' hle hd
    obtain ⟨rest, hrest⟩ := stream_prefix f (r := r) hle S
    rw [← hrest, List.take_append_of_le_length (by rwa [length_stream f hr])]
  rcases Nat.le_total k k' with h | h
  · exact key h hk
  · exact (key h hk').symm

theorem squeezeLoop_eq (hr : r ≤ b) {d : ℕ} :
    ∀ (fuel : ℕ) (Z : List Bool) (S : Vector Bool b), 0 < fuel → d ≤ Z.length + fuel * r →
      squeezeLoop f r d fuel Z S = (Z ++ stream f r fuel S).take d
  | 0, _, _, h, _ => absurd h (Nat.lt_irrefl 0)
  | fuel + 1, Z, S, _, hd => by
    have hlen : (Z ++ S.toList.take r).length = Z.length + r := by
      rw [List.length_append, List.length_take, Vector.length_toList, Nat.min_eq_left hr]
    rw [squeezeLoop, stream, ← List.append_assoc]
    split_ifs with hout
    · rw [List.take_append_of_le_length hout]
    · rw [hlen] at hout
      have hfuel : 0 < fuel := by
        refine Nat.pos_of_ne_zero ?_
        rintro rfl
        omega
      have hrest : d ≤ (Z ++ S.toList.take r).length + fuel * r := by
        rw [hlen]
        rw [Nat.succ_mul] at hd
        omega
      exact squeezeLoop_eq hr fuel _ (f S) hfuel hrest

/-- The output is read off any sufficient number of states. -/
theorem squeeze_eq (hr0 : 0 < r) (hr : r ≤ b) {d k : ℕ} (hk : d ≤ k * r) (S : Vector Bool b) :
    squeeze f r d S = (stream f r k S).take d := by
  have hd : d ≤ (d + 1) * r := (Nat.le_succ d).trans (Nat.le_mul_of_pos_right _ hr0)
  have hloop := squeezeLoop_eq f hr (d + 1) [] S (Nat.succ_pos d) (by simpa using hd)
  rw [squeeze, hloop, List.nil_append, take_stream f hr hd hk]

/-- A shorter output is a prefix of a longer one. -/
theorem squeeze_prefix (hr0 : 0 < r) (hr : r ≤ b) {d d' : ℕ} (h : d ≤ d') (S : Vector Bool b) :
    squeeze f r d S <+: squeeze f r d' S := by
  have hd' : d' ≤ d' * r := Nat.le_mul_of_pos_right _ hr0
  rw [squeeze_eq f hr0 hr (h.trans hd') S, squeeze_eq f hr0 hr hd' S]
  exact List.take_prefix_take_left h

theorem sponge_prefix (hr0 : 0 < r) (hr : r ≤ b) (pad : ℕ → ℕ → List Bool) (N : List Bool)
    {d d' : ℕ} (h : d ≤ d') : sponge f pad r N d <+: sponge f pad r N d' :=
  squeeze_prefix f hr0 hr h _

/-! ### Absorbing -/

theorem getElem_xorBlock (S : Vector Bool b) (block : List Bool) {i : ℕ} (hi : i < b) :
    (xorBlock S block)[i] = (S[i] ^^ block.getD i false) := by
  rw [xorBlock, Vector.getElem_ofFn]
  rfl

end Sponge
