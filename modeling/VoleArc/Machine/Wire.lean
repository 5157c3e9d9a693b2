import VoleArc.Wire
import VoleArc.Lib.Checked
import VoleArc.Lib.Transition

/-!
# VoleArc.Machine.Wire — the decoder where it can panic

The primitives of `VoleArc.Wire` once more, with each slice, index, shift, addition and allocation
that panics outside its range, on machines of either pointer width.  A `usize` is a natural number
and every operation that leaves its range has no result.  A log records what the decoder reads,
which no primitive looks at.
-/

namespace VoleArc.Machine

open Checked Reader

/-- The widths of `usize`. -/
inductive PointerWidth where
  | bits32
  | bits64
  deriving DecidableEq

def PointerWidth.bits : PointerWidth → ℕ
  | bits32 => 32
  | bits64 => 64

theorem PointerWidth.lt_two_pow (p : PointerWidth) {n : ℕ} (h : n < 2 ^ 31) :
    n < 2 ^ (p.bits - 1) ∧ n < 2 ^ p.bits := by
  cases p <;> simp only [PointerWidth.bits] <;> omega

/-! ### What a decoder does -/

/-- The events of a run: `&self.input[lo..hi]`, one iteration of a loop, a successful `finish`. -/
inductive Event where
  | read (lo hi : ℕ)
  | iterate
  | finish
  deriving DecidableEq

/-- The event reads byte `i`. -/
def Event.covers (i : ℕ) : Event → Bool
  | read lo hi => lo ≤ i && i < hi
  | _ => false

/-- The events take a decoder of `len` bytes from one offset to another: each read starts where the
last one ended and stays inside the input, and `finish` succeeds only at the end. -/
def Moves (len : ℕ) : ℕ → List Event → ℕ → Prop
  | offset, [], target => offset = target
  | offset, .read lo hi :: events, target =>
    lo = offset ∧ lo ≤ hi ∧ hi ≤ len ∧ Moves len hi events target
  | offset, .iterate :: events, target => Moves len offset events target
  | offset, .finish :: events, target => offset = len ∧ Moves len offset events target

theorem Moves.append {len : ℕ} : ∀ {events events' : List Event} {a b c : ℕ},
    Moves len a events b → Moves len b events' c → Moves len a (events ++ events') c
  | [], _, _, _, _, h, h' => by obtain rfl := h; exact h'
  | .read _ _ :: _, _, _, _, _, h, h' => ⟨h.1, h.2.1, h.2.2.1, h.2.2.2.append h'⟩
  | .iterate :: events, _, a, b, _, h, h' => by
    have hrest : Moves len a events b := h
    exact hrest.append h'
  | .finish :: _, _, _, _, _, h, h' => ⟨h.1, h.2.append h'⟩

/-- The offset never decreases. -/
theorem Moves.le {len : ℕ} : ∀ {events : List Event} {a b : ℕ}, Moves len a events b → a ≤ b
  | [], _, _, h => Nat.le_of_eq h
  | .read _ _ :: _, _, _, h => by
    obtain ⟨rfl, hle, -, hrest⟩ := h
    exact hle.trans hrest.le
  | .iterate :: events, a, b, h => by
    have hrest : Moves len a events b := h
    exact hrest.le
  | .finish :: _, _, _, h => h.2.le

/-- The offset never passes the end of the input. -/
theorem Moves.le_length {len : ℕ} : ∀ {events : List Event} {a b : ℕ},
    Moves len a events b → a ≤ len → b ≤ len
  | [], _, _, h, ha => by obtain rfl := h; exact ha
  | .read _ _ :: _, _, _, h, _ => h.2.2.2.le_length h.2.2.1
  | .iterate :: events, a, b, h, ha => by
    have hrest : Moves len a events b := h
    exact hrest.le_length ha
  | .finish :: _, _, _, h, ha => h.2.le_length ha

/-- A finished decoder stays at the end of its input. -/
theorem Moves.eq_length_of_finish {len : ℕ} : ∀ {events : List Event} {a b : ℕ},
    Moves len a events b → Event.finish ∈ events → a ≤ len → b = len
  | .read _ _ :: _, _, _, h, hmem, _ =>
    h.2.2.2.eq_length_of_finish ((List.mem_cons.mp hmem).resolve_left (by simp)) h.2.2.1
  | .iterate :: events, a, b, h, hmem, ha => by
    have hrest : Moves len a events b := h
    exact hrest.eq_length_of_finish ((List.mem_cons.mp hmem).resolve_left (by simp)) ha
  | .finish :: _, _, _, h, _, ha => by
    obtain ⟨rfl, hrest⟩ := h
    exact Nat.le_antisymm (hrest.le_length ha) hrest.le

/-- Each byte between the two offsets is read once, and no other byte is. -/
theorem Moves.countP_covers {len : ℕ} (i : ℕ) : ∀ {events : List Event} {a b : ℕ},
    Moves len a events b → events.countP (·.covers i) = if a ≤ i ∧ i < b then 1 else 0
  | [], a, b, h => by
    obtain rfl := h
    rw [List.countP_nil, if_neg (by omega)]
  | .read lo hi :: events, a, b, h => by
    obtain ⟨rfl, hle, -, hrest⟩ := h
    have hb := hrest.le
    rw [List.countP_cons, hrest.countP_covers i]
    simp only [Event.covers, Bool.and_eq_true, decide_eq_true_eq]
    split_ifs <;> omega
  | .iterate :: events, a, b, h => by
    have hrest : Moves len a events b := h
    rw [List.countP_cons, hrest.countP_covers i]
    simp [Event.covers]
  | .finish :: _, _, _, h => by
    rw [List.countP_cons, h.2.countP_covers i]
    simp [Event.covers]

/-! ### The decoder -/

/-- A decoder, with the log of what it did. -/
structure Decoder where
  input : Bytes
  offset : ℕ
  log : List Event

def Decoder.start (input : Bytes) : Decoder := ⟨input, 0, []⟩

abbrev Decode (α : Type) := Code Decoder WireError α

def record (event : Event) : Decode Unit :=
  modify fun self => { self with log := self.log ++ [event] }

variable (p : PointerWidth)

def take (len : ℕ) : Decode Bytes := do
  let self ← get
  -- `self.offset.checked_add(len).filter(|end| *end <= self.input.len())`
  let stop ← orThrow .invalidEncoding ((add p.bits self.offset len).filter (· ≤ self.input.length))
  let output ← orPanic (slice self.input self.offset stop)
  record (.read self.offset stop)
  modify fun self => { self with offset := stop }
  pure output

theorem size_toArray {n : ℕ} {bytes : Bytes} (h : bytes.length = n) : bytes.toArray.size = n := h

def array (n : ℕ) : Decode (Vector U8 n) := do
  let bytes ← take p n
  if h : bytes.length = n then pure ⟨bytes.toArray, size_toArray h⟩
  else throw .invalidEncoding

def u8 : Decode U8 := do
  let bytes ← array p 1
  orPanic bytes[0]?

def u32 : Decode U32 := do
  let bytes ← array p 4
  pure (u32FromLeBytes bytes.toList)

/-- `usize::try_from(..).map_err(|_| WireError::InvalidEncoding)?`. -/
def usizeFrom (n : U32) : Decode ℕ := orThrow .invalidEncoding (fit p.bits n.toNat)

def bytes : Decode Bytes := do
  let len ← u32 p
  let len ← usizeFrom p len
  take p len

/-- `collect`: an allocation has at most `isize::MAX` bytes. -/
def collect (values : List GF16) : Option (List GF16) := do
  assert (values.length < 2 ^ (p.bits - 1))
  some values

def nibble (bytes : Bytes) (index : ℕ) : Option GF16 := do
  let byte ← bytes[index / 2]?
  if index % 2 = 0 then some (GF16.new (byte &&& 0x0f))
  else some (GF16.new (← shr byte 4))

def nibbles (count : ℕ) : Decode (List GF16) := do
  let stop ← orThrow .invalidEncoding (add p.bits count 1)
  let bytes ← take p (stop / 2)
  if count % 2 = 1 ∧ bytes.getLast?.any fun byte => byte &&& 0xf0 ≠ 0 then throw .invalidEncoding
  else
    let values ← orPanic ((List.range count).mapM (nibble bytes))
    orPanic (collect p values)

def finish : Decode Unit := do
  let self ← get
  if self.offset = self.input.length then record .finish
  else throw .invalidEncoding

/-- `Decoder::new`, once the decoder is there to call its methods on. -/
def readHeader (artifact parameterSet : U8) : Decode Unit := do
  let magic ← take p Wire.MAGIC.length
  if magic ≠ Wire.MAGIC then throw .invalidEncoding
  else
    let version ← u8 p
    if version ≠ Wire.WIRE_VERSION then throw .unsupportedVersion
    else
      let actual ← array p 4
      let first ← orPanic actual[0]?
      if first ≠ artifact then throw .wrongArtifact
      else
        let second ← orPanic actual[1]?
        if second ≠ parameterSet then throw .wrongParameterSet
        else
          let reserved ← orPanic (slice actual.toList 2 actual.toList.length)
          if reserved ≠ [0, 0] then throw .invalidEncoding
          else pure ()

/-- `Decoder::new`. -/
def Decoder.new (artifact parameterSet : U8) : Decode Unit := do
  let self ← get
  if self.input.length > Wire.maxWireBytes then throw .tooLarge
  else readHeader p artifact parameterSet

/-- Open the envelope and run a decoder on what follows it. -/
def decodeWith {α : Type} (artifact parameterSet : U8) (body : Decode α) : Decode α := do
  Decoder.new p artifact parameterSet
  body

/-! ### Refinement -/

/-- One decoder comes from the other by the events its log has gained, at most `n` of them loop
iterations. -/
def Decoder.Advances (n : ℕ) (s s' : Decoder) : Prop :=
  s'.input = s.input ∧ ∃ events, s'.log = s.log ++ events ∧
    Moves s.input.length s.offset events s'.offset ∧ events.count .iterate ≤ n

/-- Decoders at the same place in the same input, which `Decoder::new` has found short enough. -/
def layer : Layer Decoder Wire.Decoder where
  Corresponds s t := s.input = t.input ∧ s.offset = t.offset ∧ t.input.length ≤ Wire.maxWireBytes
  Progress := Decoder.Advances
  refl s := ⟨rfl, [], (List.append_nil _).symm, rfl, Nat.le_refl _⟩
  trans := by
    rintro m n s s' s'' ⟨hinput, events, hlog, hmoves, hcount⟩
      ⟨hinput', events', hlog', hmoves', hcount'⟩
    rw [hinput] at hmoves'
    refine ⟨hinput'.trans hinput, events ++ events', ?_, hmoves.append hmoves', ?_⟩
    · rw [hlog', hlog, List.append_assoc]
    · rw [List.count_append]
      exact Nat.add_le_add hcount hcount'
  mono := by
    rintro m n s s' hmn ⟨hinput, events, hlog, hmoves, hcount⟩
    exact ⟨hinput, events, hlog, hmoves, hcount.trans hmn⟩

variable {p}

theorem take_eq_ok {s : Decoder} {len : ℕ} (h : s.offset + len ≤ s.input.length)
    (hfits : s.input.length < 2 ^ p.bits) :
    take p len s = some (.ok ((s.input.take (s.offset + len)).drop s.offset),
      ⟨s.input, s.offset + len, s.log ++ [.read s.offset (s.offset + len)]⟩) := by
  have hstop : (add p.bits s.offset len).filter (· ≤ s.input.length) = some (s.offset + len) := by
    rw [add_of (by omega), Option.filter_some, if_pos (by simpa using h)]
  unfold take
  rw [get_bind, orThrow_bind hstop, slice_of (Nat.le_add_right _ _) h]
  rfl

theorem take_eq_error {s : Decoder} {len : ℕ} (h : ¬ s.offset + len ≤ s.input.length) :
    take p len s = some (.error .invalidEncoding, s) := by
  have hstop : (add p.bits s.offset len).filter (· ≤ s.input.length) = none := by
    unfold add fit
    split_ifs
    · rw [Option.filter_some, if_neg (by simpa using h)]
    · rfl
  unfold take
  rw [get_bind, hstop]
  rfl

theorem refines_take (n len : ℕ) : Refines layer n (take p len) (Wire.take len) := by
  rintro s t ⟨hinput, hoffset, hlen⟩
  have hfits : s.input.length < 2 ^ p.bits := by
    rw [hinput]
    exact (p.lt_two_pow (lt_of_le_of_lt hlen (by decide))).2
  by_cases h : s.offset + len ≤ s.input.length
  · have ht : t.offset + len ≤ t.input.length := by rwa [← hoffset, ← hinput]
    refine ⟨_, _, take_eq_ok h hfits, ⟨rfl, _, rfl, ⟨rfl, Nat.le_add_right _ _, h, rfl⟩, by simp⟩,
      t.advance len ht, ?_, hinput, ?_, hlen⟩
    · rw [Wire.take, Reader.take, dif_pos ht, List.drop_take, Nat.add_sub_cancel_left,
        hinput, hoffset]
      rfl
    · rw [Cursor.advance, hoffset]
  · have ht : ¬ t.offset + len ≤ t.input.length := by rwa [← hoffset, ← hinput]
    refine ⟨_, _, take_eq_error h, layer.mono (Nat.zero_le n) (layer.refl s), ?_⟩
    change Wire.take len t = _
    rw [Wire.take, Reader.take, dif_neg ht]

theorem refines_array (n k : ℕ) : Refines layer n (array p k) (Wire.array k) := by
  refine (refines_take 0 k).call fun bytes => Refines.dite (fun _ => Refines.pure _) fun _ => ?_
  exact Refines.throw _

theorem refines_u8 (n : ℕ) : Refines layer n (u8 p) Wire.u8 :=
  (refines_array 0 1).call fun _ => Refines.result (Vector.getElem?_eq_getElem _)

theorem refines_u32 (n : ℕ) : Refines layer n (u32 p) Wire.u32 :=
  (refines_array 0 4).call fun _ => Refines.pure _

/-- A `u32` fits a `usize`. -/
theorem fit_toNat (x : U32) : fit p.bits x.toNat = some x.toNat := by
  refine fit_of (lt_of_lt_of_le x.isLt ?_)
  cases p <;> decide

theorem refines_bytes (n : ℕ) : Refines layer n (bytes p) Wire.bytes :=
  (refines_u32 0).call fun len => Refines.orThrow (fit_toNat len) (refines_take n _)

theorem length_of_take {len : ℕ} {t t' : Wire.Decoder} {bs : Bytes}
    (h : Wire.take len t = .ok (bs, t')) : bs.length = len ∧ len ≤ t.input.length := by
  unfold Wire.take Reader.take at h
  split_ifs at h with hle
  obtain ⟨rfl, -⟩ := Prod.mk.inj (Except.ok.inj h)
  have hrest := (t.offset_add_le_iff len).mp hle
  exact ⟨List.length_take_of_le hrest, by omega⟩

/-- Every nibble of the bytes that were taken for `count` nibbles is there. -/
theorem mapM_nibble {count : ℕ} {bytes : Bytes} (h : bytes.length = (count + 1) / 2) :
    (List.range count).mapM (nibble bytes) = some (Wire.unpackNibbles count bytes) := by
  refine mapM_of fun index hindex => ?_
  have hlt : index / 2 < bytes.length := by
    have := List.mem_range.mp hindex
    omega
  rw [nibble, List.getElem?_eq_getElem hlt, List.getD_eq_getElem _ _ hlt]
  simp only [Option.bind_eq_bind, Option.bind_some, shr_of (show 4 < 8 by decide)]
  split_ifs <;> rfl

theorem refines_nibbles (n count : ℕ) : Refines layer n (nibbles p count) (Wire.nibbles count) := by
  by_cases hfits : count + 1 < 2 ^ p.bits
  · refine Refines.orThrow (add_of hfits) ?_
    refine (refines_take 0 _).call_result fun bytes s t t' hst ht => ?_
    refine Refines.ite (fun _ => Refines.throw _) fun _ => ?_
    obtain ⟨hlen, hle⟩ := length_of_take ht
    have hmax : count < 2 ^ 31 := by
      have := hst.2.2
      have hwire : Wire.maxWireBytes = 33554432 := rfl
      omega
    have hcollect : collect p (Wire.unpackNibbles count bytes) =
        some (Wire.unpackNibbles count bytes) := by
      rw [collect, Wire.length_unpackNibbles, assert_of (p.lt_two_pow hmax).1]
      rfl
    exact Refines.orPanic (mapM_nibble hlen) (Refines.result hcollect)
  · rintro s t ⟨hinput, hoffset, hlen⟩
    have hstop : add p.bits count 1 = none := if_neg hfits
    have htake : ¬ t.offset + (count + 1) / 2 ≤ t.input.length := by
      have hmax : t.input.length < 2 ^ (p.bits - 1) :=
        (p.lt_two_pow (lt_of_le_of_lt hlen (by decide))).1
      have hpow : 2 ^ p.bits = 2 * 2 ^ (p.bits - 1) := by cases p <;> rfl
      omega
    refine ⟨.error .invalidEncoding, s, ?_, layer.mono (Nat.zero_le n) (layer.refl s), ?_⟩
    · rw [nibbles, hstop]
      rfl
    · change Wire.nibbles count t = _
      simp only [Wire.nibbles, Bind.bind, StateT.bind]
      rw [Wire.take, Reader.take, dif_neg htake]
      rfl

theorem refines_finish (n : ℕ) : Refines layer n finish Wire.finish := by
  rintro s t ⟨hinput, hoffset, hlen⟩
  by_cases h : s.offset = s.input.length
  · have ht : t.offset = t.input.length := by rwa [← hoffset, ← hinput]
    refine ⟨.ok (), { s with log := s.log ++ [.finish] }, ?_,
      ⟨rfl, [.finish], rfl, ⟨h, rfl⟩, by simp⟩, t, ?_, hinput, hoffset, hlen⟩
    · rw [finish, get_bind, if_pos h]
      rfl
    · rw [Wire.finish, Reader.finish, if_pos ht]
  · have ht : ¬ t.offset = t.input.length := by rwa [← hoffset, ← hinput]
    refine ⟨.error .invalidEncoding, s, ?_, layer.mono (Nat.zero_le n) (layer.refl s), ?_⟩
    · rw [finish, get_bind, if_neg h]
      rfl
    · change Wire.finish t = _
      rw [Wire.finish, Reader.finish, if_neg ht]

theorem refines_readHeader (n : ℕ) (artifact parameterSet : U8) :
    Refines layer n (readHeader p artifact parameterSet)
      (Wire.readHeader artifact parameterSet) := by
  refine (refines_take 0 _).call fun magic => Refines.ite (fun _ => Refines.throw _) fun _ => ?_
  refine (refines_u8 0).call fun version => Refines.ite (fun _ => Refines.throw _) fun _ => ?_
  refine (refines_array 0 4).call fun actual => ?_
  refine Refines.orPanic (Vector.getElem?_eq_getElem _)
    (Refines.ite (fun _ => Refines.throw _) fun _ => ?_)
  refine Refines.orPanic (Vector.getElem?_eq_getElem _)
    (Refines.ite (fun _ => Refines.throw _) fun _ => ?_)
  have hreserved : slice actual.toList 2 actual.toList.length = some [actual[2], actual[3]] := by
    rw [slice_of (by simp) (Nat.le_refl _), List.take_length, Wire.toList_four]
    rfl
  refine Refines.orPanic hreserved (Refines.ite (fun _ => Refines.throw _) fun _ => Refines.pure _)

theorem Decoder.new_eq_error {artifact parameterSet : U8} {input : Bytes}
    (h : input.length > Wire.maxWireBytes) :
    Decoder.new p artifact parameterSet (Decoder.start input) =
      some (.error .tooLarge, Decoder.start input) :=
  get_bind.trans (congrFun (if_pos h) _)

theorem Decoder.new_eq {artifact parameterSet : U8} {input : Bytes}
    (h : ¬ input.length > Wire.maxWireBytes) :
    Decoder.new p artifact parameterSet (Decoder.start input) =
      readHeader p artifact parameterSet (Decoder.start input) :=
  get_bind.trans (congrFun (if_neg h) _)

/-- A whole decoder returns what its model returns, whatever the bytes are. -/
theorem run_decodeWith {α : Type} {n : ℕ} {body : Decode α} {d : Wire.Decode α}
    (h : Refines layer n body d) (artifact parameterSet : U8) (input : Bytes) :
    ∃ s, decodeWith p artifact parameterSet body (Decoder.start input) =
      some (Wire.decodeWith artifact parameterSet d input, s) ∧
        (Decoder.start input).Advances n s := by
  by_cases hlen : input.length > Wire.maxWireBytes
  · refine ⟨Decoder.start input, ?_, layer.mono (Nat.zero_le n) (layer.refl _)⟩
    rw [decodeWith, bind_error (Decoder.new_eq_error hlen), Wire.decodeWith, Wire.Decoder.new,
      if_pos hlen]
    rfl
  · obtain ⟨r, s, hrun, hadvances, hagrees⟩ :=
      ((refines_readHeader 0 artifact parameterSet).call fun _ => h) (Decoder.start input)
        (Cursor.start input) ⟨rfl, rfl, Nat.le_of_not_gt hlen⟩
    refine ⟨s, ?_, hadvances⟩
    rw [decodeWith, bind_congr_run (Decoder.new_eq hlen), hrun, Wire.decodeWith_eq hlen,
      hagrees.map_fst]

/-! ### Sequences of calls -/

/-- The primitives, with any lengths and counts. -/
inductive Call where
  | take (len : ℕ)
  | array (n : ℕ)
  | u8
  | u32
  | bytes
  | nibbles (count : ℕ)

namespace Call

/-- What a primitive returns. -/
def Value : Call → Type
  | take _ => Bytes
  | array n => Vector U8 n
  | u8 => U8
  | u32 => U32
  | bytes => Bytes
  | nibbles _ => List GF16

def run (p : PointerWidth) : (call : Call) → Decode call.Value
  | take len => Machine.take p len
  | array n => Machine.array p n
  | u8 => Machine.u8 p
  | u32 => Machine.u32 p
  | bytes => Machine.bytes p
  | nibbles count => Machine.nibbles p count

def decode : (call : Call) → Wire.Decode call.Value
  | take len => Wire.take len
  | array n => Wire.array n
  | u8 => Wire.u8
  | u32 => Wire.u32
  | bytes => Wire.bytes
  | nibbles count => Wire.nibbles count

/-- The values of the requested length, or count. -/
def Valid : (call : Call) → call.Value → Prop
  | take len, value => value.length = len
  | array _, _ => True
  | u8, _ => True
  | u32, _ => True
  | bytes, value => value.length < 2 ^ 32
  | nibbles count, value => value.length = count

/-- The bytes a value is read from. -/
def encode : (call : Call) → call.Value → Bytes
  | take _, value => value
  | array _, value => value.toList
  | u8, value => [value]
  | u32, value => u32ToLeBytes value
  | bytes, value => Wire.framed value
  | nibbles _, value => Wire.packNibbles value

theorem refines : ∀ call : Call, Refines layer 0 (call.run p) call.decode
  | take len => refines_take 0 len
  | array n => refines_array 0 n
  | u8 => refines_u8 0
  | u32 => refines_u32 0
  | bytes => refines_bytes 0
  | nibbles count => refines_nibbles 0 count

theorem codes : ∀ call : Call, Codes call.decode call.Valid call.encode
  | take len => Wire.codes_take len
  | array n => Wire.codes_array n
  | u8 => Wire.codes_u8
  | u32 => Wire.codes_u32
  | bytes => Wire.codes_bytes
  | nibbles count => Wire.codes_nibbles count

end Call

/-- A decoder that `Decoder::new` has let through, at an offset inside its input, which has read the
bytes before the offset once and no others. -/
structure Decoder.Sound (s : Decoder) : Prop where
  length_le : s.input.length ≤ Wire.maxWireBytes
  moves : Moves s.input.length 0 s.log s.offset

theorem Decoder.Sound.le {s : Decoder} (h : s.Sound) : s.offset ≤ s.input.length :=
  h.moves.le_length (Nat.zero_le _)

theorem Decoder.Sound.advances {n : ℕ} {s s' : Decoder} (h : s.Sound) (hs : s.Advances n s') :
    s'.Sound := by
  obtain ⟨hinput, events, hlog, hmoves, -⟩ := hs
  refine ⟨by rw [hinput]; exact h.length_le, ?_⟩
  rw [hinput, hlog]
  exact h.moves.append hmoves

/-- No call panics; the ones that succeed read exactly the next bytes of the input. -/
theorem Decoder.Sound.call {s : Decoder} (h : s.Sound) (call : Call) :
    ∃ result s', call.run p s = some (result, s') ∧ s.Advances 0 s' ∧
      ∀ value, result = .ok value → call.Valid value ∧
        s.input.drop s.offset = call.encode value ++ s.input.drop s'.offset := by
  obtain ⟨result, s', hrun, hadvances, hagrees⟩ :=
    call.refines s ⟨s.input, s.offset, h.le⟩ ⟨rfl, rfl, h.length_le⟩
  refine ⟨result, s', hrun, hadvances, ?_⟩
  rintro value rfl
  obtain ⟨t', hvalue, hinput', hoffset', -⟩ := hagrees
  obtain ⟨-, bs, hrest, hvalid, rfl⟩ := (call.codes _ _ _).mp hvalue
  refine ⟨hvalid, hrest.trans ?_⟩
  rw [Cursor.rest, ← hinput', ← hoffset', hadvances.1]

/-- `finish` does not panic; it succeeds only when every byte has been read once. -/
theorem Decoder.Sound.finish {s : Decoder} (h : s.Sound) :
    ∃ result s', Machine.finish s = some (result, s') ∧ s.Advances 0 s' ∧
      (result = .ok () → ∀ i < s.input.length, s'.log.countP (·.covers i) = 1) := by
  obtain ⟨result, s', hrun, hadvances, hagrees⟩ :=
    refines_finish 0 s ⟨s.input, s.offset, h.le⟩ ⟨rfl, rfl, h.length_le⟩
  refine ⟨result, s', hrun, hadvances, ?_⟩
  rintro rfl i hi
  obtain ⟨t', hfinish, -, hoffset', -⟩ := hagrees
  obtain ⟨hinput', bs, -, -, hnil⟩ := (Reader.reads_finish _ _ _ _).mp hfinish
  have hend : s.input.length ≤ s'.offset := by
    have hlen := congrArg List.length hnil
    rw [Cursor.length_rest, hinput', List.length_nil] at hlen
    rw [hoffset']
    exact Nat.sub_eq_zero_iff_le.mp hlen
  rw [(h.advances hadvances).moves.countP_covers i, if_pos ⟨Nat.zero_le i, hi.trans_le hend⟩]

/-- A call, and what it returned. -/
structure Reply where
  call : Call
  result : Except WireError call.Value

/-- One call after the other, whatever the earlier ones returned. -/
def step (p : PointerWidth) (s : Decoder) (reply : Reply) (s' : Decoder) : Prop :=
  reply.call.run p s = some (reply.result, s')

theorem Decoder.Sound.step {s s' : Decoder} {reply : Reply} (h : s.Sound)
    (hstep : Machine.step p s reply s') : s'.Sound ∧ s'.input = s.input := by
  obtain ⟨result, s'', hrun, hadvances, -⟩ := h.call (p := p) reply.call
  rw [Machine.step, hrun] at hstep
  obtain ⟨-, rfl⟩ := Prod.mk.inj (Option.some.inj hstep)
  exact ⟨h.advances hadvances, hadvances.1⟩

theorem Decoder.Sound.run {s s' : Decoder} {replies : List Reply} (h : s.Sound)
    (hrun : Transition.Run (Machine.step p) s replies s') : s'.Sound ∧ s'.input = s.input := by
  refine hrun.inv (I := fun t => t.Sound ∧ t.input = s.input) ⟨h, rfl⟩ ?_
  rintro t reply u ⟨ht, hinput⟩ hstep
  obtain ⟨hu, hinput'⟩ := ht.step hstep
  exact ⟨hu, hinput'.trans hinput⟩

/-- `Decoder::new` does not panic, and the decoders it builds are sound. -/
theorem Decoder.new_total (artifact parameterSet : U8) (input : Bytes) :
    ∃ result s, Decoder.new p artifact parameterSet (Decoder.start input) = some (result, s) ∧
      (result = .ok () → s.Sound ∧ s.input = input) := by
  by_cases hlen : input.length > Wire.maxWireBytes
  · exact ⟨_, _, Decoder.new_eq_error hlen, by simp⟩
  · have hstart : (Decoder.start input).Sound := ⟨Nat.le_of_not_gt hlen, rfl⟩
    obtain ⟨result, s, hrun, hadvances, -⟩ := refines_readHeader (p := p) 0 artifact parameterSet
      (Decoder.start input) (Cursor.start input) ⟨rfl, rfl, Nat.le_of_not_gt hlen⟩
    refine ⟨result, s, (Decoder.new_eq hlen).trans hrun, fun _ => ?_⟩
    exact ⟨hstart.advances hadvances, hadvances.1⟩

end VoleArc.Machine
