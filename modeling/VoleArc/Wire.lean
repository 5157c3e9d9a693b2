import VoleArc.Lib.Reader
import VoleArc.Circuit.NativeBits

/-!
# VoleArc.Wire — canonical encodings: envelope, components and decoder primitives

Every decoder primitive reads exactly one encoding of the value it returns; a whole decoder accepts
exactly the inputs its code describes (`decodeWith_eq_ok`).
-/

namespace VoleArc.Wire

open BitString Reader

/-! ### Encoding -/

def MAGIC : Bytes := ascii "VARC"

def WIRE_VERSION : U8 := 1

/-- `MAX_WIRE_BYTES`: the largest artifact a decoder accepts. -/
def maxWireBytes : ℕ := 32 * 1024 * 1024

def header (out : Bytes) (artifact parameterSet : U8) : Bytes :=
  out ++ MAGIC ++ [WIRE_VERSION] ++ [artifact, parameterSet, 0, 0]

/-- Append a component with its length; the source panics when the length exceeds a `u32`. -/
def putBytes (out bytes : Bytes) : Option Bytes :=
  if bytes.length < 2 ^ 32 then
    some (out ++ u32ToLeBytes (BitVec.ofNat 32 bytes.length) ++ bytes)
  else none

/-- The loop body of `pack_nibbles`: an even nibble starts a byte, an odd one completes it. -/
def packStep (output : Bytes) (entry : GF16 × ℕ) : Bytes :=
  if entry.2 % 2 = 0 then output ++ [entry.1.toU8]
  else output.modifyLast fun last => last ||| entry.1.toU8 <<< 4

def packNibbles (values : List GF16) : Bytes := values.zipIdx.foldl packStep []

/-! ### Decoding -/

/-- A decoder's input and offset. -/
abbrev Decoder := Cursor U8

abbrev Decode (α : Type) := Reader.Decode U8 WireError α

def take (len : ℕ) : Decode Bytes := Reader.take .invalidEncoding len

def array (n : ℕ) : Decode (Vector U8 n) := do
  let bytes ← take n
  if h : bytes.length = n then pure ⟨bytes.toArray, by simpa using h⟩
  else throw .invalidEncoding

def u8 : Decode U8 := do
  let bytes ← array 1
  pure bytes[0]

def u32 : Decode U32 := do
  let bytes ← array 4
  pure (u32FromLeBytes bytes.toList)

def bytes : Decode Bytes := do
  let len ← u32
  take len.toNat

/-- The `count` nibbles of a byte string, low nibble first. -/
def unpackNibbles (count : ℕ) (bytes : Bytes) : List GF16 :=
  (List.range count).map fun index =>
    let byte := bytes.getD (index / 2) 0
    GF16.new (if index % 2 = 0 then byte &&& 0x0f else byte >>> 4)

def nibbles (count : ℕ) : Decode (List GF16) := do
  let bytes ← take ((count + 1) / 2)
  if count % 2 = 1 ∧ bytes.getLast?.any fun byte => byte &&& 0xf0 ≠ 0 then throw .invalidEncoding
  else pure (unpackNibbles count bytes)

def finish : Decode Unit := Reader.finish .invalidEncoding

/-- The envelope checks of `Decoder::new`. -/
def readHeader (artifact parameterSet : U8) : Decode Unit := do
  let magic ← take MAGIC.length
  if magic ≠ MAGIC then throw .invalidEncoding
  else
    let version ← u8
    if version ≠ WIRE_VERSION then throw .unsupportedVersion
    else
      let actual ← array 4
      if actual[0] ≠ artifact then throw .wrongArtifact
      else if actual[1] ≠ parameterSet then throw .wrongParameterSet
      else if [actual[2], actual[3]] ≠ [0, 0] then throw .invalidEncoding
      else pure ()

/-- `Decoder::new`. -/
def Decoder.new (input : Bytes) (artifact parameterSet : U8) : Except WireError Decoder :=
  if input.length > maxWireBytes then .error .tooLarge
  else Prod.snd <$> readHeader artifact parameterSet (Cursor.start input)

/-- Open the envelope and run a decoder on what follows it. -/
def decodeWith {α : Type} (artifact parameterSet : U8) (body : Decode α) (input : Bytes) :
    Except WireError α := do
  let decoder ← Decoder.new input artifact parameterSet
  Prod.fst <$> body decoder

/-! ### Components -/

theorem codes_take (len : ℕ) : Codes (take len) (fun a => a.length = len) id :=
  Reader.codes_take _ len

theorem codes_array (n : ℕ) : Codes (array n) (fun _ => True) Vector.toList := by
  refine (codes_take n).map (fun bytes => ?_) fun v _ => ⟨v.toList, v.length_toList, rfl⟩
  split_ifs with h
  · refine (Reads.pure _).congr fun v bs rest => ?_
    rw [and_comm, id, true_and, ← Vector.toList_inj]
    rfl
  · refine (Reads.throw _).congr fun v bs rest => iff_of_false id ?_
    rintro ⟨-, -, hv⟩
    exact h (by rw [← id_eq (a := bytes), ← hv, Vector.length_toList])

theorem codes_u8 : Codes u8 (fun _ => True) fun a => [a] := by
  refine (codes_array 1).map (fun v => ?_) fun a _ => ⟨#v[a], trivial, rfl⟩
  refine (Reads.pure _).congr fun a bs rest => ?_
  have hv : v.toList = [v[0]] := by
    rw [← Vector.toList_inj.mpr (show #v[v[0]] = v by ext i hi; simp [show i = 0 by omega])]
    rfl
  rw [hv, List.cons.injEq, and_comm, true_and, and_iff_left rfl]

theorem codes_u32 : Codes u32 (fun _ => True) u32ToLeBytes := by
  refine (codes_array 4).map (fun v => ?_) fun a _ =>
    ⟨⟨(u32ToLeBytes a).toArray, by simp⟩, trivial, rfl⟩
  refine (Reads.pure _).congr fun a bs rest => ?_
  have hiff : a = u32FromLeBytes v.toList ↔ u32ToLeBytes a = v.toList := by
    constructor
    · rintro rfl
      exact toLeBytes_fromLeBytes v.length_toList
    · intro h
      rw [← h]
      exact (fromLeBytes_toLeBytes (n := 4) a).symm
  rw [hiff, and_comm, true_and]

/-- A length-prefixed component. -/
def framed (a : Bytes) : Bytes := u32ToLeBytes (BitVec.ofNat 32 a.length) ++ a

theorem putBytes_eq_some {out a bs : Bytes} :
    putBytes out a = some bs ↔ a.length < 2 ^ 32 ∧ bs = out ++ framed a := by
  unfold putBytes framed
  rw [List.append_assoc]
  split_ifs with h
  · rw [Option.some_inj, and_iff_right h, eq_comm]
  · exact iff_of_false (by simp) fun hlt => h hlt.1

theorem codes_bytes : Codes bytes (fun a => a.length < 2 ^ 32) framed := by
  refine (codes_u32.bind fun len => codes_take len.toNat).congr fun a bs rest => ?_
  constructor
  · rintro ⟨len, bs', -, rfl, hlen, hbs⟩
    have hlt : a.length < 2 ^ 32 := by rw [hlen]; exact len.isLt
    have hlen' : BitVec.ofNat 32 a.length = len := by
      rw [hlen, BitVec.ofNat_toNat, BitVec.setWidth_eq]
    exact ⟨hlt, by rw [framed, hlen', hbs]; rfl⟩
  · rintro ⟨hlt, rfl⟩
    refine ⟨BitVec.ofNat 32 a.length, a, trivial, rfl, ?_, rfl⟩
    rw [BitVec.toNat_ofNat, Nat.mod_eq_of_lt hlt]

/-! ### Nibbles -/

theorem packStep_even (output : Bytes) (a : GF16) {n : ℕ} (hn : n % 2 = 0) :
    packStep output (a, n) = output ++ [a.toU8] := if_pos hn

theorem packStep_odd (output : Bytes) (a b : GF16) {n : ℕ} (hn : n % 2 = 0) :
    packStep (output ++ [a.toU8]) (b, n + 1) = output ++ [a.toU8 ||| b.toU8 <<< 4] := by
  have hodd : ¬ (n + 1) % 2 = 0 := by omega
  rw [packStep, if_neg hodd, List.modifyLast_concat]

theorem foldl_packStep : ∀ (values : List GF16) (output : Bytes) {n : ℕ}, n % 2 = 0 →
    (values.zipIdx n).foldl packStep output = output ++ packGf16 values
  | [], output, n, _ => by simp [packGf16]
  | [a], output, n, hn => by
    have hpack : packGf16 [a] = [a.toU8] := by
      have hor : a.toU8 ||| (0 : U8) <<< 4 = a.toU8 := by simp
      rw [← hor]
      rfl
    rw [List.zipIdx_cons, List.zipIdx_nil, List.foldl_cons, List.foldl_nil, packStep_even _ _ hn,
      hpack]
  | a :: b :: rest, output, n, hn => by
    rw [List.zipIdx_cons, List.zipIdx_cons, List.foldl_cons, List.foldl_cons, packStep_even _ _ hn,
      packStep_odd _ _ _ hn, foldl_packStep rest _ (by omega : (n + 1 + 1) % 2 = 0),
      packGf16_cons_cons, List.append_assoc]
    rfl

/-- The two packers agree. -/
theorem packNibbles_eq (values : List GF16) : packNibbles values = packGf16 values := by
  rw [packNibbles, foldl_packStep values [] rfl, List.nil_append]

@[simp] theorem length_unpackNibbles (count : ℕ) (bytes : Bytes) :
    (unpackNibbles count bytes).length = count := by
  simp [unpackNibbles]

/-- The decoder and the reader of hash outputs pick the same nibbles of a byte string. -/
theorem unpackNibbles_eq_outputNibbles (count : ℕ) (bytes : Bytes) :
    unpackNibbles count bytes = outputNibbles count bytes := by
  refine List.map_congr_left fun index _ => GF16.ext (BitVec.eq_of_getLsbD_eq fun r hr => ?_)
  rw [GF16.getLsbD_new _ hr, GF16.getLsbD_new _ hr, BitVec.getLsbD_and (y := 0x0f),
    getLsbD_lowNibble r hr, Bool.and_true, BitVec.getLsbD_ushiftRight]
  rcases Nat.mod_two_eq_zero_or_one index with heven | hodd
  · rw [if_pos heven, BitVec.getLsbD_and, getLsbD_lowNibble r hr, Bool.and_true, heven,
      Nat.mul_zero, Nat.zero_add]
  · rw [if_neg (by omega), BitVec.getLsbD_ushiftRight, hodd]

theorem gf16Bits_unpackNibbles {count : ℕ} {bytes : Bytes}
    (h : bytes.length = (count + 1) / 2) :
    gf16Bits (unpackNibbles count bytes) = (bytesBits bytes).take (4 * count) := by
  rw [unpackNibbles_eq_outputNibbles, gf16Bits_outputNibbles (by omega)]

theorem highNibble_eq_zero_iff :
    ∀ byte : U8, byte &&& 0xf0 = 0 ↔ (lsbBits byte).drop 4 = List.replicate 4 false := by
  decide

/-- The padding check of `nibbles`, on the bits of the component. -/
theorem padding_iff {count : ℕ} {bytes : Bytes} (h : bytes.length = (count + 1) / 2) :
    ¬ (count % 2 = 1 ∧ bytes.getLast?.any fun byte => byte &&& 0xf0 ≠ 0) ↔
      (bytesBits bytes).drop (4 * count) = padBits count := by
  rcases Nat.mod_two_eq_zero_or_one count with heven | hodd
  · have hlen : (bytesBits bytes).length ≤ 4 * count := by rw [length_bytesBits]; omega
    rw [List.drop_eq_nil_of_le hlen, padBits, heven]
    simp
  · obtain ⟨front, last, rfl⟩ : ∃ front last, bytes = front ++ [last] := by
      refine ⟨bytes.dropLast, bytes.getLast (List.ne_nil_of_length_pos (by omega)), ?_⟩
      exact (List.dropLast_append_getLast _).symm
    have hlen : (bytesBits front).length + 4 = 4 * count := by
      rw [List.length_append, List.length_singleton] at h
      rw [length_bytesBits]
      omega
    have hlast : bytesBits [last] = lsbBits last := by
      rw [bytesBits_eq, List.flatMap_cons, List.flatMap_nil, List.append_nil]
    rw [bytesBits_append, ← hlen, List.drop_length_add_append, padBits, hodd, hlast, Nat.mul_one,
      ← highNibble_eq_zero_iff]
    simp

theorem codes_nibbles (count : ℕ) :
    Codes (nibbles count) (fun a => a.length = count) packNibbles := by
  refine ((codes_take _).bind fun bytes => (Reads.pure _).guard).congr fun a bs rest => ?_
  constructor
  · rintro ⟨bytes, _, hlen, rfl, hpad, rfl, rfl⟩
    have hpad' := (padding_iff hlen).mp hpad
    refine ⟨length_unpackNibbles _ _, bytesBits_injective ?_⟩
    rw [packNibbles_eq, bytesBits_packGf16, length_unpackNibbles, gf16Bits_unpackNibbles hlen,
      ← hpad', List.take_append_drop, List.append_nil]
    rfl
  · rintro ⟨rfl, rfl⟩
    have hlen : (packNibbles a).length = (a.length + 1) / 2 := by
      rw [packNibbles_eq, length_packGf16]
    have hbits : bytesBits (packNibbles a) = gf16Bits a ++ padBits a.length := by
      rw [packNibbles_eq, bytesBits_packGf16]
    refine ⟨packNibbles a, [], hlen, (List.append_nil _).symm, ?_, gf16Bits_injective ?_, rfl⟩
    · rw [padding_iff hlen, hbits]
      exact List.drop_left' (length_gf16Bits a)
    · rw [gf16Bits_unpackNibbles hlen, hbits, List.take_left' (length_gf16Bits a)]

/-! ### The envelope -/

theorem reads_finish_bind {α : Type} {f : Unit → Decode α} {R : α → Bytes → Bytes → Prop}
    (hf : Reads (f ()) R) :
    Reads (finish >>= f) fun a bs rest => (bs = [] ∧ rest = []) ∧ R a bs rest :=
  Reads.finish_bind _ hf

theorem toList_four (v : Vector U8 4) : v.toList = [v[0], v[1], v[2], v[3]] := by
  refine List.ext_getElem (by simp) fun i hi _ => ?_
  rw [Vector.length_toList] at hi
  interval_cases i <;> rfl

/-- The envelope of an artifact. -/
theorem reads_readHeader (artifact parameterSet : U8) :
    Reads (readHeader artifact parameterSet) fun _ bs _ =>
      bs = header [] artifact parameterSet := by
  refine ((codes_take _).bind fun magic => (codes_u8.bind fun version =>
    ((codes_array 4).bind fun actual => ((((Reads.pure ()).guard).guard).guard)).guard).guard).congr
      fun _ bs rest => ?_
  constructor
  · rintro ⟨magic, _, -, rfl, hmagic, version, _, -, rfl, hversion, actual, _, -, rfl,
      h₀, h₁, h₂, -, rfl⟩
    simp only [List.cons.injEq, ne_eq, and_true, not_not] at hmagic hversion h₀ h₁ h₂
    rw [toList_four, hmagic, hversion, h₀, h₁, h₂.1, h₂.2]
    rfl
  · rintro rfl
    exact ⟨MAGIC, _, rfl, rfl, by simp, WIRE_VERSION, _, trivial, rfl, by simp,
      #v[artifact, parameterSet, 0, 0], [], trivial, rfl, by simp, by simp, by simp, rfl, rfl⟩

theorem decodeWith_eq {α : Type} {artifact parameterSet : U8} {body : Decode α} {input : Bytes}
    (h : ¬ input.length > maxWireBytes) : decodeWith artifact parameterSet body input =
      (Prod.fst <$> (readHeader artifact parameterSet >>= fun _ => body) (Cursor.start input)) := by
  rw [decodeWith, Decoder.new, if_neg h]
  simp only [bind, StateT.bind, Except.bind, Functor.map, Except.map]
  cases readHeader artifact parameterSet (Cursor.start input) <;> rfl

/-- A whole decoder accepts an artifact exactly when it is short enough and reads as its code
says. -/
theorem decodeWith_eq_ok {α : Type} {body : Decode α} {R : α → Bytes → Bytes → Prop}
    (h : Reads body R) {artifact parameterSet : U8} {input : Bytes} {a : α} :
    decodeWith artifact parameterSet body input = .ok a ↔
      input.length ≤ maxWireBytes ∧
        ∃ bs rest, input = header [] artifact parameterSet ++ (bs ++ rest) ∧ R a bs rest := by
  by_cases hlen : input.length > maxWireBytes
  · refine iff_of_false ?_ fun hle => absurd hle.1 (by omega)
    rw [decodeWith, Decoder.new, if_pos hlen]
    simp [bind, Except.bind]
  · rw [decodeWith_eq hlen, ((reads_readHeader artifact parameterSet).bind fun _ => h).run,
      and_iff_right (by omega)]
    constructor
    · rintro ⟨_, rest, rfl, -, _, bs, rfl, rfl, hR⟩
      exact ⟨bs, rest, by rw [List.append_assoc], hR⟩
    · rintro ⟨bs, rest, rfl, hR⟩
      exact ⟨_, rest, by rw [List.append_assoc], (), _, bs, rfl, rfl, hR⟩

theorem length_le_of_decodeWith {α : Type} {artifact parameterSet : U8}
    {body : Decode α} {b : Bytes}
    {v : α} (h : decodeWith artifact parameterSet body b = .ok v) : b.length ≤ maxWireBytes := by
  by_contra hlen
  unfold decodeWith Decoder.new at h
  rw [if_pos (Nat.lt_of_not_ge hlen)] at h
  cases h

/-- Whatever a decoder does with the body, it only accepts its own envelope. -/
theorem header_of_decodeWith {α : Type} {body : Decode α} {artifact parameterSet : U8}
    {input : Bytes} {a : α} (h : decodeWith artifact parameterSet body input = .ok a) :
    ∃ rest, input = header [] artifact parameterSet ++ rest := by
  unfold decodeWith Decoder.new at h
  split_ifs at h with hlen
  · cases h
  · cases hheader : readHeader artifact parameterSet (Cursor.start input) with
    | error e => rw [hheader] at h; cases h
    | ok r =>
      obtain ⟨-, bs, hinput, rfl⟩ := (reads_readHeader artifact parameterSet _ _ r.2).mp hheader
      exact ⟨r.2.rest, hinput⟩

theorem header_inj {artifact artifact' parameterSet parameterSet' : U8} {rest rest' : Bytes}
    (h : header [] artifact parameterSet ++ rest = header [] artifact' parameterSet' ++ rest') :
    artifact = artifact' ∧ parameterSet = parameterSet' := by
  have hheader := (List.append_inj h rfl).1
  simp only [header, List.append_cancel_left_eq, List.cons.injEq, and_true] at hheader
  exact hheader

end VoleArc.Wire
