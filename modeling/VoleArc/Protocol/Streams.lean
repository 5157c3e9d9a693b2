import VoleArc.Lib.PrefixCode
import VoleArc.Protocol.WireFormats

/-!
# VoleArc.Protocol.Streams — artifacts delimit themselves

What a decoder accepts is a header with the ids of artifact and suite and, behind it, parts of known
lengths, length-prefixed strings and counted records.  No such string starts another, so nothing
that is accepted stays accepted when it is cut off or continued, under any decoder of any suite, and
artifacts sent one behind the other can be told apart again.
-/

namespace VoleArc

open PrefixCode Wire

/-! ### Bodies -/

/-- A number in four bytes, and a string of a length it determines. -/
def sized (size : U32 → ℕ) : Set Bytes := {b | ∃ count : U32, ∃ a : Bytes,
  a.length = size count ∧ b = u32ToLeBytes count ++ a}

theorem prefixFree_sized (size : U32 → ℕ) : PrefixFree (sized size) := by
  have hcount : ∀ word : Bytes, word.length = 4 →
      PrefixFree {a : Bytes | a.length = size (u32FromLeBytes word)} :=
    fun word _ => prefixFree_length _
  refine ((prefixFree_length 4).bind hcount).mono ?_
  rintro b ⟨count, a, ha, rfl⟩
  refine ⟨u32ToLeBytes count, length_u32ToLeBytes count, a, ?_, rfl⟩
  show a.length = size (u32FromLeBytes (u32ToLeBytes count))
  rw [ha, u32FromLeBytes, u32ToLeBytes, fromLeBytes_toLeBytes]

/-- A string behind its length. -/
def frames : Set Bytes := sized BitVec.toNat

theorem framed_mem_frames {a : Bytes} (h : a.length < 2 ^ 32) : framed a ∈ frames :=
  ⟨BitVec.ofNat 32 a.length, a, by rw [BitVec.toNat_ofNat, Nat.mod_eq_of_lt h], rfl⟩

/-- Nonce counters behind their number. -/
def counted : Set Bytes := sized fun count => 36 * count.toNat

theorem counterSuffix_mem_counted {nextNonces : CounterMap} (h : nextNonces.Canonical) :
    counterSuffix nextNonces ∈ counted := by
  refine ⟨BitVec.ofNat 32 nextNonces.size, _, ?_, rfl⟩
  show List.length _ = 36 * (BitVec.ofNat 32 nextNonces.size).toNat
  rw [length_flatMap_counterBytes, Std.ExtTreeMap.length_toList, BitVec.toNat_ofNat,
    Nat.mod_eq_of_lt h.size_lt]

/-- A word of the first set and one of the second behind it. -/
def followedBy (L M : Set Bytes) : Set Bytes := {w | ∃ a ∈ L, ∃ b ∈ M, w = a ++ b}

/-- What stands behind the header of an artifact. -/
def Artifact.body (P : ArcParams) : Artifact → Set Bytes
  | publicKey => followedBy (followedBy {b | b.length = 1} frames) frames
  | issuerKey => followedBy (followedBy {b | b.length = 1} frames) frames
  | issueRequest => followedBy {b | b.length = (P.M + 1) / 2} frames
  | issueResponse => {b | b.length = (P.KN + 1) / 2 + 32}
  | pendingIssue => {b | b.length = 128}
  | credential => followedBy {b | b.length = (P.KN + 1) / 2 + 160} counted
  | presentation => followedBy {b | b.length = 32} frames

theorem Artifact.prefixFree_body (P : ArcParams) (artifact : Artifact) :
    PrefixFree (artifact.body P) := by
  have hframes : PrefixFree frames := prefixFree_sized _
  have hkey : PrefixFree (followedBy (followedBy {b : Bytes | b.length = 1} frames) frames) :=
    ((prefixFree_length 1).bind fun _ _ => hframes).bind fun _ _ => hframes
  cases artifact with
  | publicKey => exact hkey
  | issuerKey => exact hkey
  | issueRequest => exact (prefixFree_length _).bind fun _ _ => hframes
  | issueResponse => exact prefixFree_length _
  | pendingIssue => exact prefixFree_length _
  | credential => exact (prefixFree_length _).bind fun _ _ => prefixFree_sized _
  | presentation => exact (prefixFree_length _).bind fun _ _ => hframes

section Bodies

variable {P : ArcParams} {K : Type} [Field K] {C : Crates P K}

theorem encodeKey_body {artifact parameterSet : U8} {profile : PerformanceProfile}
    {applicationContext key b : Bytes}
    (h : encodeKey artifact parameterSet profile applicationContext key = some b) :
    ∃ rest ∈ followedBy (followedBy {b : Bytes | b.length = 1} frames) frames,
      b = header [] artifact parameterSet ++ rest := by
  obtain ⟨happ, hkey, rfl⟩ := encodeKey_eq_some.mp h
  refine ⟨_, ⟨_, ⟨[profile.wireId], rfl, framed applicationContext, framed_mem_frames happ, rfl⟩,
    framed key, framed_mem_frames hkey, rfl⟩, ?_⟩
  simp only [List.append_assoc]

/-- What an artifact's decoder accepts is its header and a body of the artifact. -/
theorem Artifact.Accepts.exists_body (hkeys : C.mayo.CanonicalKeys)
    (hproofs : C.voleith.CanonicalProofs) {b : Bytes} {artifact : Artifact}
    (h : artifact.Accepts C b) :
    ∃ rest ∈ artifact.body P, b = Wire.header [] artifact.wireId P.WIRE_ID ++ rest := by
  cases artifact with
  | publicKey =>
    obtain ⟨key, h⟩ := h
    exact encodeKey_body ((PublicKey.fromBytes_eq_ok hkeys).mp h).2
  | issuerKey =>
    obtain ⟨issuer, h⟩ := h
    exact encodeKey_body ((Issuer.fromKeyBytes_eq_ok hkeys).mp h).2.1
  | issueRequest =>
    obtain ⟨request, h⟩ := h
    obtain ⟨-, hbytes, hcommitment⟩ := (IssueRequest.fromBytes_eq_ok hproofs).mp h
    obtain ⟨hproof, rfl⟩ := putBytes_eq_some.mp hbytes
    refine ⟨packNibbles request.commitment ++ framed (C.voleith.proofToBytes request.proof),
      ⟨_, ?_, _, framed_mem_frames hproof, rfl⟩, List.append_assoc _ _ _⟩
    show (packNibbles request.commitment).length = (P.M + 1) / 2
    rw [packNibbles_eq, length_packGf16, hcommitment]
  | issueResponse =>
    obtain ⟨response, h⟩ := h
    obtain ⟨-, rfl, hsignature⟩ := IssueResponse.fromBytes_eq_ok.mp h
    refine ⟨packNibbles response.signature ++ response.salt.toList, ?_, List.append_assoc _ _ _⟩
    show (packNibbles response.signature ++ response.salt.toList).length = (P.KN + 1) / 2 + 32
    rw [List.length_append, packNibbles_eq, length_packGf16, hsignature, Vector.length_toList]
  | pendingIssue =>
    obtain ⟨key, pending, h⟩ := h
    obtain ⟨-, rfl, -⟩ := PendingIssue.fromBytes_eq_ok.mp h
    refine ⟨pending.issuerContext.toList ++ pending.credentialContext.digest.toList ++
      pending.secret.toList ++ pending.hidingNonce.toList, ?_, ?_⟩
    · show List.length _ = 128
      simp only [List.length_append, Vector.length_toList]
    · simp only [PendingIssue.toBytes, List.append_assoc]
      rfl
  | credential =>
    obtain ⟨key, credential, h⟩ := h
    obtain ⟨rfl, hvalid⟩ := Credential.fromBytes_eq_ok_iff.mp h
    rw [Credential.toBytes_eq_append hvalid.counters, Credential.prefixBytes, List.append_assoc]
    refine ⟨_, ⟨_, ?_, _, counterSuffix_mem_counted hvalid.counters, rfl⟩, rfl⟩
    show List.length _ = (P.KN + 1) / 2 + 160
    simp only [List.length_append, Vector.length_toList, packNibbles_eq, length_packGf16,
      hvalid.length_signature]
    omega
  | presentation =>
    obtain ⟨presentation, h⟩ := h
    obtain ⟨-, hbytes⟩ := (Presentation.fromBytes_eq_ok hproofs).mp h
    obtain ⟨hproof, rfl⟩ := putBytes_eq_some.mp hbytes
    exact ⟨presentation.tag.toList ++ framed (C.voleith.proofToBytes presentation.proof),
      ⟨_, Vector.length_toList, _, framed_mem_frames hproof, rfl⟩, List.append_assoc _ _ _⟩

end Bodies

/-! ### Artifacts of all suites -/

section Suites

variable {K : Type} [Field K] {ι : Type} {P : ι → ArcParams} {C : ∀ i, Crates (P i) K}

/-- Some decoder of some suite accepts the bytes. -/
def Accepted (C : ∀ i, Crates (P i) K) : Set Bytes :=
  {b | ∃ suite, ∃ artifact : Artifact, artifact.Accepts (C suite) b}

/-- The header tells artifact and suite apart, and the rest is a body of the artifact. -/
theorem prefixFree_accepted (hsuites : Function.Injective fun suite => (P suite).WIRE_ID)
    (hkeys : ∀ suite, (C suite).mayo.CanonicalKeys)
    (hproofs : ∀ suite, (C suite).voleith.CanonicalProofs) : PrefixFree (Accepted C) := by
  have hbodies : ∀ front : Bytes, front.length = 9 → PrefixFree {b : Bytes | ∃ suite,
      ∃ artifact : Artifact, front = header [] artifact.wireId (P suite).WIRE_ID ∧
        b ∈ artifact.body (P suite)} := by
    rintro front - b b' s s' ⟨suite, artifact, hfront, hb⟩ ⟨suite', artifact', hfront', hb'⟩ heq
    have hheaders : header [] artifact.wireId (P suite).WIRE_ID ++ [] =
        header [] artifact'.wireId (P suite').WIRE_ID ++ [] := by
      rw [← hfront, hfront']
    obtain ⟨hartifact, hsuite⟩ := header_inj hheaders
    obtain rfl := Artifact.wireId_injective hartifact
    obtain rfl := hsuites hsuite
    exact artifact.prefixFree_body (P suite) hb hb' heq
  refine ((prefixFree_length 9).bind hbodies).mono ?_
  rintro b ⟨suite, artifact, h⟩
  obtain ⟨rest, hrest, rfl⟩ := h.exists_body (hkeys suite) (hproofs suite)
  exact ⟨_, length_header _ _, rest, ⟨suite, artifact, rfl, hrest⟩, rfl⟩

/-- No string that some decoder accepts is a proper prefix of another one, whichever artifacts,
suites and keys the two are accepted for; so if the bytes of one stream of artifacts start those of
another, the streams agree artifact by artifact as far as the shorter one goes. -/
theorem artifacts_delimit (hsuites : Function.Injective fun suite => (P suite).WIRE_ID)
    (hkeys : ∀ suite, (C suite).mayo.CanonicalKeys)
    (hproofs : ∀ suite, (C suite).voleith.CanonicalProofs) :
    (∀ b ∈ Accepted C, ∀ tail, tail ≠ [] → b ++ tail ∉ Accepted C) ∧
    (∀ b ∈ Accepted C, ∀ n < b.length, b.take n ∉ Accepted C) ∧
    ∀ stream stream' : List Bytes, (∀ b ∈ stream, b ∈ Accepted C) →
      (∀ b ∈ stream', b ∈ Accepted C) →
      (stream.flatten <+: stream'.flatten ↔ stream <+: stream') := by
  have hfree := prefixFree_accepted hsuites hkeys hproofs
  refine ⟨?_, ?_, ?_⟩
  · intro b hb tail htail hlonger
    have hsame := hfree.eq_of_prefix hb hlonger (List.prefix_append b tail)
    exact htail (List.append_cancel_left ((List.append_nil b).trans hsame)).symm
  · intro b hb n hn hshorter
    have hsame := hfree.eq_of_prefix hshorter hb (List.take_prefix n b)
    have hlength := congrArg List.length hsame
    rw [List.length_take] at hlength
    omega
  · intro stream stream' hstream hstream'
    have hne : [] ∉ Accepted C := by
      rintro ⟨suite, artifact, h⟩
      obtain ⟨rest, hrest⟩ := h.header
      have hlength := congrArg List.length hrest
      rw [List.length_append, length_header, List.length_nil] at hlength
      omega
    refine ⟨hfree.prefix_of_flatten_prefix hne hstream hstream', ?_⟩
    rintro ⟨rest, rfl⟩
    exact ⟨rest.flatten, List.flatten_append.symm⟩

end Suites

/-- The encoded reference credential with a byte behind it, its header alone, and two of it in a
row. -/
theorem artifacts_delimit_reference :
    Reference.credential.toBytes ++ [0] ∉ Accepted (fun _ : Unit => Reference.crates) ∧
    Reference.credential.toBytes.take 9 ∉ Accepted (fun _ : Unit => Reference.crates) ∧
    ([Reference.credential.toBytes].flatten <+:
        [Reference.credential.toBytes, Reference.credential.toBytes].flatten ↔
      [Reference.credential.toBytes] <+:
        [Reference.credential.toBytes, Reference.credential.toBytes]) := by
  have hcredential : Reference.credential.toBytes ∈ Accepted fun _ : Unit => Reference.crates :=
    ⟨(), .credential, Reference.publicKey, Reference.credential,
      Reference.credential_valid.fromBytes_toBytes⟩
  have hlength : 9 < Reference.credential.toBytes.length := by
    rw [Credential.toBytes_eq_append Reference.credential_valid.counters, List.length_append,
      Credential.length_prefixBytes Reference.credential_valid.length_signature, prefixLength]
    omega
  obtain ⟨hlonger, hshorter, hsplit⟩ := artifacts_delimit (C := fun _ : Unit => Reference.crates)
    (fun _ _ _ => rfl) (fun _ => Reference.canonicalKeys) fun _ => Reference.canonicalProofs
  refine ⟨hlonger _ hcredential [0] (List.cons_ne_nil _ _), hshorter _ hcredential 9 hlength,
    hsplit _ _ ?_ ?_⟩
  · intro b hb
    exact List.mem_singleton.mp hb ▸ hcredential
  · intro b hb
    rcases List.mem_pair.mp hb with rfl | rfl <;> exact hcredential

end VoleArc
