import VoleArc.Protocol.Artifacts

/-!
# VoleArc.Protocol.CredentialWire — what the credential decoder accepts

An encoded credential is an authenticated prefix of fixed length followed by its counters.  The
decoder accepts exactly the encodings of valid credentials, so everything else about acceptance is
read off the encoder.
-/

namespace VoleArc

open BitString Reader SortedMap Wire

variable {P : ArcParams} {K : Type} [Field K] {C : Crates P K}

/-! ### Valid credentials -/

/-- Counters a credential can hold. -/
structure CounterMap.Canonical (nextNonces : CounterMap) : Prop where
  size_le : nextNonces.size ≤ maxPresentationContexts
  ne_zero : ∀ (context : Bytes32) (n : U32), nextNonces[context]? = some n → n ≠ 0

/-- What every credential in use satisfies, under the key of its issuer. -/
structure Credential.Valid (publicKey : PublicKey C) (credential : Credential C) : Prop where
  length_signature : credential.signature.length = P.KN
  counters : credential.nextNonces.Canonical
  authentic : credential.Authentic publicKey

theorem CounterMap.canonical_empty : (∅ : CounterMap).Canonical where
  size_le := Nat.zero_le _
  ne_zero := by simp

theorem CounterMap.Canonical.size_lt {nextNonces : CounterMap} (h : nextNonces.Canonical) :
    nextNonces.size < 2 ^ 32 := by
  have : maxPresentationContexts = 4096 := rfl
  have := h.size_le
  omega

/-! ### The two parts of an encoding -/

/-- Everything the MAYO signature and the issuer check cover. -/
def Credential.prefixBytes (self : Credential C) : Bytes :=
  header [] WIRE_CREDENTIAL P.WIRE_ID ++ (self.issuerContext.toList ++
    (self.credentialContext.digest.toList ++ (packNibbles self.signature ++ (self.secret.toList ++
      (self.hidingNonce.toList ++ self.salt.toList)))))

def prefixLength (P : ArcParams) : ℕ := 169 + (P.KN + 1) / 2

/-- The counter suffix. -/
def counterSuffix (nextNonces : CounterMap) : Bytes :=
  u32ToLeBytes (BitVec.ofNat 32 nextNonces.size) ++ nextNonces.toList.flatMap counterBytes

@[simp] theorem length_header (artifact parameterSet : U8) :
    (header [] artifact parameterSet).length = 9 := rfl

theorem Credential.length_prefixBytes {self : Credential C} (h : self.signature.length = P.KN) :
    self.prefixBytes.length = prefixLength P := by
  simp only [prefixBytes, List.length_append, length_header, Vector.length_toList, packNibbles_eq,
    length_packGf16, h, prefixLength]
  omega

theorem Credential.toBytes_eq_append {self : Credential C} (h : self.nextNonces.Canonical) :
    self.toBytes = self.prefixBytes ++ counterSuffix self.nextNonces := by
  rw [Credential.toBytes_eq _ h.size_lt, prefixBytes, counterSuffix]
  simp only [List.append_assoc]

@[simp] theorem length_counterBytes (entry : Bytes32 × U32) : (counterBytes entry).length = 36 := by
  simp [counterBytes]

theorem counterBytes_injective : Function.Injective counterBytes := by
  rintro ⟨context, n⟩ ⟨context', n'⟩ h
  obtain ⟨hcontext, hn⟩ := List.append_inj h (by simp)
  exact Prod.ext (Vector.toList_inj.mp hcontext) (toLeBytes_injective 4 hn)

theorem length_flatMap_counterBytes (entries : List (Bytes32 × U32)) :
    (entries.flatMap counterBytes).length = 36 * entries.length := by
  induction entries with
  | nil => rfl
  | cons entry entries ih =>
    rw [List.flatMap_cons, List.length_append, ih, length_counterBytes, List.length_cons]
    ring

theorem flatMap_counterBytes_injective :
    Function.Injective fun entries : List (Bytes32 × U32) => entries.flatMap counterBytes := by
  intro entries entries' h
  have hchunks := congrArg (chunks 36) h
  rw [chunks_flatMap (by omega) length_counterBytes,
    chunks_flatMap (by omega) length_counterBytes] at hchunks
  exact List.map_injective_iff.mpr counterBytes_injective hchunks

/-- Encodings of canonical counters stay below the wire bound. -/
theorem Credential.Valid.length_toBytes_le {publicKey : PublicKey C} {credential : Credential C}
    (h : credential.Valid publicKey) : credential.toBytes.length ≤ maxWireBytes := by
  have hmax : maxWireBytes = 33554432 := rfl
  have hcontexts : maxPresentationContexts = 4096 := rfl
  have hsize := h.counters.size_le
  have hsmall := P.small
  rw [Credential.toBytes_eq_append h.counters, List.length_append,
    Credential.length_prefixBytes h.length_signature, counterSuffix, List.length_append,
    length_u32ToLeBytes, length_flatMap_counterBytes, Std.ExtTreeMap.length_toList, prefixLength]
  omega

/-- The decoder accepts exactly the encodings of valid credentials. -/
theorem Credential.fromBytes_eq_ok_iff {publicKey : PublicKey C} {b : Bytes}
    {credential : Credential C} :
    Credential.fromBytes publicKey b = .ok credential ↔
      credential.toBytes = b ∧ credential.Valid publicKey := by
  rw [Credential.fromBytes_eq_ok]
  constructor
  · rintro ⟨-, hbytes, hsig, hsize, hne, hauth⟩
    exact ⟨hbytes, hsig, ⟨hsize, hne⟩, hauth⟩
  · rintro ⟨rfl, h⟩
    exact ⟨h.length_toBytes_le, rfl, h.length_signature, h.counters.size_le, h.counters.ne_zero,
      h.authentic⟩

theorem Credential.Valid.fromBytes_toBytes {publicKey : PublicKey C} {credential : Credential C}
    (h : credential.Valid publicKey) :
    Credential.fromBytes publicKey credential.toBytes = .ok credential :=
  Credential.fromBytes_eq_ok_iff.mpr ⟨rfl, h⟩

/-! ### What is rejected -/

section Accepted

variable {publicKey : PublicKey C}

/-- A front of the right length is the prefix of what is decoded, and the rest its counters. -/
theorem Credential.split_of_fromBytes {front rest : Bytes} {credential : Credential C}
    (hfront : front.length = prefixLength P)
    (h : Credential.fromBytes publicKey (front ++ rest) = .ok credential) :
    front = credential.prefixBytes ∧ rest = counterSuffix credential.nextNonces := by
  obtain ⟨hbytes, hvalid⟩ := Credential.fromBytes_eq_ok_iff.mp h
  rw [Credential.toBytes_eq_append hvalid.counters] at hbytes
  obtain ⟨hfrontEq, hrest⟩ := List.append_inj hbytes
    (by rw [Credential.length_prefixBytes hvalid.length_signature, hfront])
  exact ⟨hfrontEq.symm, hrest.symm⟩

/-- Accepted counters are the announced number of ascending, non-zero records. -/
theorem Credential.counters_of_fromBytes {front : Bytes} {count : U32}
    {entries : List (Bytes32 × U32)} {credential : Credential C}
    (hfront : front.length = prefixLength P)
    (h : Credential.fromBytes publicKey
      (front ++ (u32ToLeBytes count ++ entries.flatMap counterBytes)) = .ok credential) :
    count.toNat = entries.length ∧ Ascending compare entries ∧ (∀ entry ∈ entries, entry.2 ≠ 0) ∧
      credential.nextNonces.toList = entries := by
  have hvalid := (Credential.fromBytes_eq_ok_iff.mp h).2
  obtain ⟨-, hrest⟩ := Credential.split_of_fromBytes hfront h
  obtain ⟨hcount, hentries⟩ := List.append_inj hrest (by simp)
  obtain rfl : entries = credential.nextNonces.toList := flatMap_counterBytes_injective hentries
  refine ⟨?_, ascending_toList _, ?_, rfl⟩
  · rw [show count = _ from toLeBytes_injective 4 hcount, BitVec.toNat_ofNat,
      Nat.mod_eq_of_lt hvalid.counters.size_lt, Std.ExtTreeMap.length_toList]
  · rintro ⟨context, n⟩ hentry
    exact hvalid.counters.ne_zero context n
      (Std.ExtTreeMap.mem_toList_iff_getElem?_eq_some.mp hentry)

/-- No accepted string is a proper prefix of another. -/
theorem Credential.fromBytes_prefixFree {b tail : Bytes} {credential credential' : Credential C}
    (h : Credential.fromBytes publicKey b = .ok credential)
    (h' : Credential.fromBytes publicKey (b ++ tail) = .ok credential') : tail = [] := by
  obtain ⟨rfl, hvalid⟩ := Credential.fromBytes_eq_ok_iff.mp h
  have hvalid' := (Credential.fromBytes_eq_ok_iff.mp h').2
  rw [Credential.toBytes_eq_append hvalid.counters, List.append_assoc] at h'
  obtain ⟨-, hrest⟩ := Credential.split_of_fromBytes
    (Credential.length_prefixBytes hvalid.length_signature) h'
  rw [counterSuffix, counterSuffix, List.append_assoc] at hrest
  obtain ⟨hcount, hentries⟩ := List.append_inj hrest (by simp)
  have hsize : credential.nextNonces.size = credential'.nextNonces.size := by
    have hnat := congrArg BitVec.toNat (toLeBytes_injective 4 hcount)
    rwa [BitVec.toNat_ofNat, BitVec.toNat_ofNat, Nat.mod_eq_of_lt hvalid.counters.size_lt,
      Nat.mod_eq_of_lt hvalid'.counters.size_lt] at hnat
  have hlen := congrArg List.length hentries
  rw [List.length_append, length_flatMap_counterBytes, length_flatMap_counterBytes,
    Std.ExtTreeMap.length_toList, Std.ExtTreeMap.length_toList, hsize] at hlen
  exact List.length_eq_zero_iff.mp (by omega)

/-- Whether a string is accepted does not depend on which canonical counters it carries. -/
theorem Credential.fromBytes_replace_counters {front : Bytes} {nextNonces nextNonces' : CounterMap}
    {credential : Credential C} (hfront : front.length = prefixLength P)
    (hcounters : nextNonces'.Canonical)
    (h : Credential.fromBytes publicKey (front ++ counterSuffix nextNonces) = .ok credential) :
    Credential.fromBytes publicKey (front ++ counterSuffix nextNonces') =
      .ok { credential with nextNonces := nextNonces' } := by
  obtain ⟨hfrontEq, -⟩ := Credential.split_of_fromBytes hfront h
  have hvalid := (Credential.fromBytes_eq_ok_iff.mp h).2
  have hvalid' : Credential.Valid publicKey { credential with nextNonces := nextNonces' } :=
    ⟨hvalid.length_signature, hcounters, hvalid.authentic⟩
  rw [Credential.fromBytes_eq_ok_iff, Credential.toBytes_eq_append hvalid'.counters, hfrontEq]
  exact ⟨rfl, hvalid'⟩

/-- The signature bytes of an encoding. -/
def signatureBytes (P : ArcParams) (b : Bytes) : Bytes := (b.drop 73).take ((P.KN + 1) / 2)

theorem Credential.signatureBytes_toBytes {credential : Credential C}
    (h : credential.Valid publicKey) :
    signatureBytes P credential.toBytes = packNibbles credential.signature := by
  have hlen : (packNibbles credential.signature).length = (P.KN + 1) / 2 := by
    rw [packNibbles_eq, length_packGf16, h.length_signature]
  have hfront : (header [] WIRE_CREDENTIAL P.WIRE_ID ++ (credential.issuerContext.toList ++
      credential.credentialContext.digest.toList)).length = 73 := by simp
  have hsplit : credential.toBytes = (header [] WIRE_CREDENTIAL P.WIRE_ID ++
      (credential.issuerContext.toList ++ credential.credentialContext.digest.toList)) ++
        (packNibbles credential.signature ++ (credential.secret.toList ++
          (credential.hidingNonce.toList ++ (credential.salt.toList ++
            counterSuffix credential.nextNonces)))) := by
    simp only [Credential.toBytes_eq_append h.counters, Credential.prefixBytes, List.append_assoc]
  rw [hsplit, signatureBytes, ← hfront, List.drop_left, ← hlen, List.take_left]

/-- The last signature byte of an odd number of nibbles has no high half. -/
theorem padding_packNibbles {values : List GF16} (hodd : values.length % 2 = 1) :
    (packNibbles values).getLast?.any (fun byte => byte &&& 0xf0 ≠ 0) = false := by
  have hlen : (packNibbles values).length = (values.length + 1) / 2 := by
    rw [packNibbles_eq, length_packGf16]
  have hbits : (bytesBits (packNibbles values)).drop (4 * values.length) =
    padBits values.length := by
    rw [packNibbles_eq, bytesBits_packGf16]
    exact List.drop_left' (length_gf16Bits values)
  have hpad := (padding_iff hlen).mpr hbits
  exact Bool.eq_false_iff.mpr fun h => hpad ⟨hodd, h⟩

end Accepted

/-- The credential decoder accepts exactly the canonical encodings of authentic credentials.  What
it accepts re-encodes to itself; counters out of order, repeated or zero, reserved and padding bits,
truncation and trailing bytes are rejected; and one canonical counter suffix is as good as
another. -/
theorem credential_fromBytes_canonical (publicKey : PublicKey C) :
    (∀ b credential, Credential.fromBytes publicKey b = .ok credential ↔
      b = credential.toBytes ∧ credential.issuerContext = publicKey.context ∧
        credential.signature.length = P.KN ∧ credential.nextNonces.size ≤ 4096 ∧
        (∀ (context : Bytes32) (n : U32), credential.nextNonces[context]? = some n → n ≠ 0) ∧
        C.mayo.eval publicKey.mayo credential.signature = some (signedCredentialTarget P
          (credentialTarget P (credentialScope C publicKey.context
            credential.credentialContext.digest) credential.secret credential.hidingNonce)
              credential.salt)) ∧
    (∀ front count entries credential, front.length = prefixLength P →
      Credential.fromBytes publicKey
        (front ++ (u32ToLeBytes count ++ entries.flatMap counterBytes)) = .ok credential →
      count.toNat = entries.length ∧ Ascending compare entries ∧
        (∀ entry ∈ entries, entry.2 ≠ 0) ∧ credential.nextNonces.toList = entries) ∧
    (∀ b credential, Credential.fromBytes publicKey b = .ok credential →
      b.take 9 = MAGIC ++ [WIRE_VERSION, WIRE_CREDENTIAL, P.WIRE_ID, 0, 0] ∧
      (P.KN % 2 = 1 →
        (signatureBytes P b).getLast?.any (fun byte => byte &&& 0xf0 ≠ 0) = false) ∧
      ∀ tail, (∃ credential', Credential.fromBytes publicKey (b ++ tail) = .ok credential') →
        tail = []) ∧
    ∀ front (nextNonces nextNonces' : CounterMap), front.length = prefixLength P →
      nextNonces.Canonical → nextNonces'.Canonical →
      ((∃ credential, Credential.fromBytes publicKey (front ++ counterSuffix nextNonces) =
          .ok credential) ↔
        ∃ credential, Credential.fromBytes publicKey (front ++ counterSuffix nextNonces') =
          .ok credential) := by
  refine ⟨fun b credential => ?_, fun front count entries credential => ?_,
    fun b credential h => ⟨?_, fun hodd => ?_, ?_⟩, ?_⟩
  · rw [Credential.fromBytes_eq_ok_iff]
    constructor
    · rintro ⟨rfl, hvalid⟩
      obtain ⟨hissuer, heval⟩ := hvalid.authentic
      rw [hissuer] at heval
      exact ⟨rfl, hissuer, hvalid.length_signature, hvalid.counters.size_le,
        hvalid.counters.ne_zero, heval⟩
    · rintro ⟨rfl, hissuer, hsig, hsize, hne, heval⟩
      rw [← hissuer] at heval
      exact ⟨rfl, hsig, ⟨hsize, hne⟩, hissuer, heval⟩
  · exact Credential.counters_of_fromBytes
  · obtain ⟨rfl, hvalid⟩ := Credential.fromBytes_eq_ok_iff.mp h
    rw [Credential.toBytes_eq_append hvalid.counters, Credential.prefixBytes, List.append_assoc]
    exact List.take_left' (length_header _ _)
  · obtain ⟨rfl, hvalid⟩ := Credential.fromBytes_eq_ok_iff.mp h
    rw [Credential.signatureBytes_toBytes hvalid]
    exact padding_packNibbles (by rw [hvalid.length_signature, hodd])
  · rintro tail ⟨credential', h'⟩
    exact Credential.fromBytes_prefixFree h h'
  · intro front nextNonces nextNonces' hfront hcanonical hcanonical'
    constructor
    · rintro ⟨credential, h⟩
      exact ⟨_, Credential.fromBytes_replace_counters hfront hcanonical' h⟩
    · rintro ⟨credential, h⟩
      exact ⟨_, Credential.fromBytes_replace_counters hfront hcanonical h⟩

end VoleArc
