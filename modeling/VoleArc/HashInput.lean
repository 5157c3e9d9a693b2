import VoleArc.Context
import VoleArc.Circuit.Correctness
import VoleArc.Lib.PrefixCode

/-!
# VoleArc.HashInput — what is hashed determines what it was built from

The eleven builders of SHAKE256 inputs, side by side.  No builder's domain starts another's, so two
builders never meet; within a builder the input can be read back field by field, although the suite
name in an issuer context carries no length and the two suites' commitments differ in length.
-/

namespace VoleArc

open BitString PrefixCode

/-! ### Fields that can be read back -/

theorem separable_u64 : Separable (fun _ => True) u64ToLeBytes :=
  separable_of_length (fun _ _ => length_u64ToLeBytes _)
    fun _ _ _ _ h => toLeBytes_injective 8 h

theorem separable_length :
    Separable (· < 2 ^ 64) fun n : ℕ => u64ToLeBytes (BitVec.ofNat 64 n) := by
  refine separable_of_length (fun _ _ => length_u64ToLeBytes _) fun n n' hn hn' h => ?_
  have hword : BitVec.ofNat 64 n = BitVec.ofNat 64 n' := toLeBytes_injective 8 h
  have hnat := congrArg BitVec.toNat hword
  rwa [BitVec.toNat_ofNat, BitVec.toNat_ofNat, Nat.mod_eq_of_lt hn, Nat.mod_eq_of_lt hn'] at hnat

theorem separable_frame :
    Separable (fun bytes : Bytes => bytes.length < 2 ^ 64) fun bytes => lenBytes bytes ++ bytes :=
  separable_length.framed

theorem separable_bytes32 : Separable (fun _ => True) (Vector.toList : Bytes32 → Bytes) :=
  separable_of_length (fun _ _ => Vector.length_toList) fun _ _ _ _ h => Vector.toList_inj.mp h

theorem digests_inj {as bs : List Bytes32}
    (h : hashScopeInput [] as = hashScopeInput [] bs) (hlen : as.length = bs.length) :
    as = bs :=
  (separable_bytes32.flatMap bs.length).inj ⟨hlen, fun _ _ => trivial⟩ ⟨rfl, fun _ _ => trivial⟩ h

theorem packGf16_inj {as bs : List GF16} (hlen : as.length = bs.length)
    (h : packGf16 as = packGf16 bs) : as = bs := by
  have hbits := congrArg bytesBits h
  rw [bytesBits_packGf16, bytesBits_packGf16] at hbits
  have hgf16 := (List.append_inj hbits (by rw [length_gf16Bits, length_gf16Bits, hlen])).1
  exact gf16Bits_injective hgf16

/-! ### The builders -/

/-- A builder of SHAKE256 inputs. -/
inductive HashBuilder where
  | credentialContext
  | presentationContext
  | scopedPresentation
  | presentationBinding
  | credentialScope
  | presentationScope
  | issuerContext
  | mayoPublicKey
  | credentialMessage
  | signedCredentialMessage
  | tagMessage
  deriving DecidableEq

def HashBuilder.domain : HashBuilder → Bytes
  | credentialContext => credentialContextDomain
  | presentationContext => presentationContextDomain
  | scopedPresentation => presentationScopeDomain
  | presentationBinding => presentationBindingDomain
  | credentialScope => ascii "VOLE-ARC/credential-scope/v1"
  | presentationScope => ascii "VOLE-ARC/presentation-scope/v1"
  | issuerContext => ascii "VOLE-ARC/issuer-context/v1"
  | mayoPublicKey => ascii "VOLE-ARC/mayo-public-key/v1"
  | credentialMessage => credentialDomain
  | signedCredentialMessage => signedCredentialDomain
  | tagMessage => tagDomain

def HashBuilder.all : List HashBuilder :=
  [credentialContext, presentationContext, scopedPresentation, presentationBinding,
    credentialScope, presentationScope, issuerContext, mayoPublicKey, credentialMessage,
    signedCredentialMessage, tagMessage]

theorem HashBuilder.mem_all (a : HashBuilder) : a ∈ all := by
  cases a <;> decide

set_option maxRecDepth 4000 in
/-- No domain starts another. -/
theorem HashBuilder.domain_prefixFree (a b : HashBuilder) (h : a.domain <+: b.domain) : a = b := by
  have hall : ∀ a ∈ all, ∀ b ∈ all, a.domain <+: b.domain → a = b := by decide
  exact hall a a.mem_all b b.mem_all h

/-- A builder with its arguments. -/
inductive HashInput where
  | credentialContext (applicationData : Bytes)
  | presentationContext (applicationData : Bytes)
  | scopedPresentation (relyingParty purpose : Bytes) (epoch : Option Bytes)
  | presentationBinding (requestData : Bytes)
  | credentialScope (issuerContext credentialContext : Bytes32)
  | presentationScope (issuerContext credentialContext presentationContext : Bytes32)
  | issuerContext (applicationContext : Bytes) (publicKeyHash : Bytes32) (name : Bytes)
      (tau k : U64)
  | mayoPublicKey (N M O K : ℕ) (forms : List (List GF16))
  | credentialMessage (scope secret hidingNonce : Bytes32)
  | signedCredentialMessage (commitment : List GF16) (salt : Bytes32)
  | tagMessage (secret scope : Bytes32) (nonce : U32)

namespace HashInput

def builder : HashInput → HashBuilder
  | credentialContext _ => .credentialContext
  | presentationContext _ => .presentationContext
  | scopedPresentation _ _ _ => .scopedPresentation
  | presentationBinding _ => .presentationBinding
  | credentialScope _ _ => .credentialScope
  | presentationScope _ _ _ => .presentationScope
  | issuerContext _ _ _ _ _ => .issuerContext
  | mayoPublicKey _ _ _ _ _ => .mayoPublicKey
  | credentialMessage _ _ _ => .credentialMessage
  | signedCredentialMessage _ _ => .signedCredentialMessage
  | tagMessage _ _ _ => .tagMessage

/-- The bytes handed to SHAKE256. -/
def bytes : HashInput → Bytes
  | credentialContext applicationData => framedInput credentialContextDomain [applicationData]
  | presentationContext applicationData =>
    framedInput presentationContextDomain [applicationData]
  | scopedPresentation relyingParty purpose epoch =>
    framedInput presentationScopeDomain
      (PresentationContext.scopedComponents relyingParty purpose epoch)
  | presentationBinding requestData => framedInput presentationBindingDomain [requestData]
  | credentialScope issuer credential =>
    hashScopeInput (ascii "VOLE-ARC/credential-scope/v1") [issuer, credential]
  | presentationScope issuer credential presentation =>
    hashScopeInput (ascii "VOLE-ARC/presentation-scope/v1") [issuer, credential, presentation]
  | issuerContext applicationContext publicKeyHash name tau k =>
    issuerContextInput applicationContext publicKeyHash name tau k
  | mayoPublicKey N M O K forms => mayoPublicKeyInput N M O K forms
  | credentialMessage scope secret hidingNonce =>
    VoleArc.credentialMessage scope secret hidingNonce
  | signedCredentialMessage commitment salt => VoleArc.signedCredentialMessage commitment salt
  | tagMessage secret scope nonce => VoleArc.tagMessage secret scope nonce

/-- What follows the domain. -/
def body : HashInput → Bytes
  | credentialContext applicationData => framedInput [] [applicationData]
  | presentationContext applicationData => framedInput [] [applicationData]
  | scopedPresentation relyingParty purpose epoch =>
    framedInput [] (PresentationContext.scopedComponents relyingParty purpose epoch)
  | presentationBinding requestData => framedInput [] [requestData]
  | credentialScope issuer credential => hashScopeInput [] [issuer, credential]
  | presentationScope issuer credential presentation =>
    hashScopeInput [] [issuer, credential, presentation]
  | issuerContext applicationContext publicKeyHash name tau k =>
    (lenBytes applicationContext ++ applicationContext) ++ (publicKeyHash.toList ++ (name ++
      (u64ToLeBytes 32 ++ (u64ToLeBytes tau ++ u64ToLeBytes k))))
  | mayoPublicKey N M O K forms =>
    [N, M, O, K].flatMap (fun n => u64ToLeBytes (BitVec.ofNat 64 n)) ++
      forms.flatMap fun form => form.map GF16.toU8
  | credentialMessage scope secret hidingNonce => hashScopeInput [] [scope, secret, hidingNonce]
  | signedCredentialMessage commitment salt => packGf16 commitment ++ salt.toList
  | tagMessage secret scope nonce => hashScopeInput [] [secret, scope] ++ u32ToLeBytes nonce

/-- Every builder starts with its domain. -/
theorem bytes_eq (x : HashInput) : x.bytes = x.builder.domain ++ x.body := by
  cases x with
  | issuerContext | mayoPublicKey | credentialMessage | signedCredentialMessage | tagMessage =>
    simp [bytes, body, builder, HashBuilder.domain, issuerContextInput, mayoPublicKeyInput,
      hashScopeInput, VoleArc.credentialMessage, VoleArc.signedCredentialMessage,
      VoleArc.tagMessage]
  | _ => rfl

/-! ### What the program hashes -/

section Hashes

variable {P : ArcParams} {K : Type} [Field K] (C : Crates P K)

/-- The program's digests, targets and tags are those of the builders' bytes. -/
structure Hashes : Prop where
  credentialContext : ∀ applicationData, CredentialContext.new C applicationData =
    ⟨C.shake (credentialContext applicationData).bytes⟩
  presentationContext : ∀ applicationData, PresentationContext.new C applicationData =
    ⟨C.shake (presentationContext applicationData).bytes⟩
  scopedPresentation : ∀ relyingParty purpose epoch,
    PresentationContext.scoped C relyingParty purpose epoch =
      ⟨C.shake (scopedPresentation relyingParty purpose epoch).bytes⟩
  presentationBinding : ∀ requestData, PresentationBinding.new C requestData =
    ⟨C.shake (presentationBinding requestData).bytes⟩
  credentialScope : ∀ issuer credential, VoleArc.credentialScope C issuer credential =
    C.shake (credentialScope issuer credential).bytes
  presentationScope : ∀ issuer credential presentation,
    VoleArc.presentationScope C issuer credential presentation =
      C.shake (presentationScope issuer credential presentation).bytes
  issuerContext : ∀ applicationContext publicKeyHash profile,
    deriveIssuerContext C applicationContext publicKeyHash profile =
      C.shake (issuerContext applicationContext publicKeyHash P.NAME
        (C.voleith.tau (profile.params C)) (C.voleith.k (profile.params C))).bytes
  mayoPublicKey : ∀ publicKey, (mayoSystemAndHash C publicKey).2 =
    C.shake (mayoPublicKey P.N P.M P.O P.K (C.mayo.whippedSystemAndForms publicKey).2).bytes
  credentialMessage : ∀ scope secret hidingNonce, credentialTarget P scope secret hidingNonce =
    targetNibbles P.M (credentialMessage scope secret hidingNonce).bytes
  signedCredentialMessage : ∀ commitment salt, signedCredentialTarget P commitment salt =
    targetNibbles P.M (signedCredentialMessage commitment salt).bytes
  tagMessage : ∀ secret scope nonce, (deriveTag secret scope nonce).toList =
    Keccak.shake256 (tagMessage secret scope nonce).bytes 32

theorem hashes : Hashes C := by
  constructor <;> intros <;> rfl

end Hashes

/-! ### Valid arguments -/

/-- Lengths are below `2^64`, the visited forms have the sizes `(N, M, O, K)` fixes, and a
commitment is one of a suite. -/
def Valid (sizes : ℕ → ℕ → ℕ → ℕ → List ℕ) : HashInput → Prop
  | credentialContext applicationData => applicationData.length < 2 ^ 64
  | presentationContext applicationData => applicationData.length < 2 ^ 64
  | scopedPresentation relyingParty purpose epoch =>
    relyingParty.length < 2 ^ 64 ∧ purpose.length < 2 ^ 64 ∧
      ∀ epoch' ∈ epoch, epoch'.length < 2 ^ 64
  | presentationBinding requestData => requestData.length < 2 ^ 64
  | issuerContext applicationContext _ _ _ _ => applicationContext.length < 2 ^ 64
  | mayoPublicKey N M O K forms =>
    (∀ n ∈ [N, M, O, K], n < 2 ^ 64) ∧ forms.map List.length = sizes N M O K
  | signedCredentialMessage commitment _ => ∃ P ∈ suites, commitment.length = P.M
  | credentialScope _ _ | presentationScope _ _ _ | credentialMessage _ _ _ | tagMessage _ _ _ =>
    True

theorem frames_inj {as bs : List Bytes} (h : framedInput [] as = framedInput [] bs)
    (hlen : as.length = bs.length) (ha : ∀ a ∈ as, a.length < 2 ^ 64)
    (hb : ∀ b ∈ bs, b.length < 2 ^ 64) : as = bs :=
  (separable_frame.flatMap bs.length).inj ⟨hlen, ha⟩ ⟨rfl, hb⟩ h

theorem frame_inj {a b : Bytes} (h : framedInput [] [a] = framedInput [] [b])
    (ha : a.length < 2 ^ 64) (hb : b.length < 2 ^ 64) : a = b :=
  List.singleton_inj.mp (frames_inj h rfl (List.forall_mem_singleton.mpr ha)
    (List.forall_mem_singleton.mpr hb))

theorem forms_inj {as bs : List (List GF16)} (hlen : as.map List.length = bs.map List.length)
    (h : as.flatMap (fun form => form.map GF16.toU8) = bs.flatMap fun form => form.map GF16.toU8) :
    as = bs := by
  have hsizes : ∀ forms : List (List GF16),
      (forms.map (List.map GF16.toU8)).map List.length = forms.map List.length := by
    intro forms
    rw [List.map_map]
    exact List.map_congr_left fun form _ => List.length_map _
  have hbytes := (separable_flatten (β := U8) (bs.map List.length)).inj
    ((hsizes as).trans hlen) (hsizes bs) h
  exact List.map_injective_iff.mpr (List.map_injective_iff.mpr GF16.toU8_injective) hbytes

/-! ### Injectivity of each builder -/

/-- The length of a commitment and the bytes it packs to determine each other across the suites. -/
theorem commitment_length_eq {as bs : List GF16} (ha : ∃ P ∈ suites, as.length = P.M)
    (hb : ∃ P ∈ suites, bs.length = P.M) (h : (packGf16 as).length = (packGf16 bs).length) :
    as.length = bs.length := by
  have hM : ∀ n : ℕ, (∃ P ∈ suites, n = P.M) → n = 78 ∨ n = 64 := by
    rintro n ⟨P, hP, rfl⟩
    rcases List.mem_pair.mp hP with rfl | rfl
    · exact Or.inl rfl
    · exact Or.inr rfl
  rw [length_packGf16, length_packGf16] at h
  rcases hM _ ha with ha | ha <;> rcases hM _ hb with hb | hb <;> omega

open PresentationContext (scopedComponents)

theorem scopedComponents_inj {rp rp' purpose purpose' : Bytes} {epoch epoch' : Option Bytes}
    (h : scopedComponents rp purpose epoch = scopedComponents rp' purpose' epoch') :
    rp = rp' ∧ purpose = purpose' ∧ epoch = epoch' := by
  cases epoch <;> cases epoch' <;>
    simp only [scopedComponents, List.cons.injEq, and_true, true_and] at h
  · exact ⟨h.1, h.2, rfl⟩
  · exact absurd h.2.2.1 (by decide)
  · exact absurd h.2.2.1 (by decide)
  · exact ⟨h.1, h.2.1, congrArg some h.2.2⟩

theorem scopedComponents_lengths {rp purpose : Bytes} {epoch : Option Bytes}
    (hrp : rp.length < 2 ^ 64) (hpurpose : purpose.length < 2 ^ 64)
    (hepoch : ∀ epoch' ∈ epoch, epoch'.length < 2 ^ 64) :
    ∀ component ∈ scopedComponents rp purpose epoch, component.length < 2 ^ 64 := by
  have hsmall : ∀ n ≤ 1, n < 2 ^ 64 := by decide
  cases epoch with
  | none =>
    simp only [scopedComponents, List.forall_mem_cons]
    exact ⟨hrp, hpurpose, hsmall 1 le_rfl, hsmall 0 (Nat.zero_le 1), by simp⟩
  | some epoch =>
    simp only [scopedComponents, List.forall_mem_cons]
    exact ⟨hrp, hpurpose, hsmall 1 le_rfl, hepoch epoch rfl, by simp⟩

/-- Within one builder the bytes after the domain determine the arguments. -/
theorem body_inj {sizes : ℕ → ℕ → ℕ → ℕ → List ℕ} {x y : HashInput}
    (hbuilder : x.builder = y.builder) (hx : x.Valid sizes) (hy : y.Valid sizes)
    (h : x.body = y.body) : x = y := by
  cases x with
  | credentialContext a =>
    cases y with
    | credentialContext b => exact congrArg credentialContext (frame_inj h hx hy)
    | _ => cases hbuilder
  | presentationContext a =>
    cases y with
    | presentationContext b => exact congrArg presentationContext (frame_inj h hx hy)
    | _ => cases hbuilder
  | presentationBinding a =>
    cases y with
    | presentationBinding b => exact congrArg presentationBinding (frame_inj h hx hy)
    | _ => cases hbuilder
  | scopedPresentation rp purpose epoch =>
    cases y with
    | scopedPresentation rp' purpose' epoch' =>
      obtain ⟨hrp, hpurpose, hepoch⟩ := hx
      obtain ⟨hrp', hpurpose', hepoch'⟩ := hy
      have hcomponents := frames_inj h rfl (scopedComponents_lengths hrp hpurpose hepoch)
        (scopedComponents_lengths hrp' hpurpose' hepoch')
      obtain ⟨rfl, rfl, rfl⟩ := scopedComponents_inj hcomponents
      rfl
    | _ => cases hbuilder
  | credentialScope i c =>
    cases y with
    | credentialScope i' c' =>
      have hparts := digests_inj h rfl
      simp only [List.cons.injEq, and_true] at hparts
      obtain ⟨rfl, rfl⟩ := hparts
      rfl
    | _ => cases hbuilder
  | presentationScope i c p =>
    cases y with
    | presentationScope i' c' p' =>
      have hparts := digests_inj h rfl
      simp only [List.cons.injEq, and_true] at hparts
      obtain ⟨rfl, rfl, rfl⟩ := hparts
      rfl
    | _ => cases hbuilder
  | credentialMessage s k n =>
    cases y with
    | credentialMessage s' k' n' =>
      have hparts := digests_inj h rfl
      simp only [List.cons.injEq, and_true] at hparts
      obtain ⟨rfl, rfl, rfl⟩ := hparts
      rfl
    | _ => cases hbuilder
  | issuerContext app hash name tau k =>
    cases y with
    | issuerContext app' hash' name' tau' k' =>
      obtain ⟨rfl, hafterApp⟩ := separable_frame hx hy h
      obtain ⟨rfl, hafterHash⟩ := separable_bytes32 trivial trivial hafterApp
      -- the name has no length: it is what the 24 bytes behind it leave
      obtain ⟨rfl, hafterName⟩ := List.append_inj' hafterHash (by simp)
      obtain ⟨htau, hk⟩ := separable_u64 trivial trivial (List.append_cancel_left hafterName)
      rw [htau, toLeBytes_injective 8 hk]
    | _ => cases hbuilder
  | mayoPublicKey N M O K forms =>
    cases y with
    | mayoPublicKey N' M' O' K' forms' =>
      obtain ⟨hsmall, hsizes⟩ := hx
      obtain ⟨hsmall', hsizes'⟩ := hy
      obtain ⟨hparams, hforms⟩ := (separable_length.flatMap 4) ⟨rfl, hsmall⟩ ⟨rfl, hsmall'⟩ h
      simp only [List.cons.injEq, and_true] at hparams
      obtain ⟨rfl, rfl, rfl, rfl⟩ := hparams
      rw [forms_inj (hsizes.trans hsizes'.symm) hforms]
    | _ => cases hbuilder
  | signedCredentialMessage c salt =>
    cases y with
    | signedCredentialMessage c' salt' =>
      obtain ⟨hpacked, hsalt⟩ := List.append_inj' h (by simp)
      have hlen := commitment_length_eq hx hy (congrArg List.length hpacked)
      rw [packGf16_inj hlen hpacked, Vector.toList_inj.mp hsalt]
    | _ => cases hbuilder
  | tagMessage s scope n =>
    cases y with
    | tagMessage s' scope' n' =>
      obtain ⟨hparts, hnonce⟩ := List.append_inj' h (by simp)
      have hparts := digests_inj hparts rfl
      simp only [List.cons.injEq, and_true] at hparts
      obtain ⟨rfl, rfl⟩ := hparts
      rw [toLeBytes_injective 4 hnonce]
    | _ => cases hbuilder

/-- Different builders never hash the same bytes, and each builder hashes different bytes for
different arguments, where the program's digests, targets and tags are those of these bytes. -/
theorem bytes_eq_iff (sizes : ℕ → ℕ → ℕ → ℕ → List ℕ) :
    (∀ x y : HashInput, x.Valid sizes → y.Valid sizes → (x.bytes = y.bytes ↔ x = y)) ∧
    ∀ {P : ArcParams} {K : Type} [Field K] (C : Crates P K), Hashes C := by
  refine ⟨fun x y hx hy => ⟨fun h => ?_, fun h => h ▸ rfl⟩, fun C => hashes C⟩
  rw [bytes_eq, bytes_eq] at h
  obtain ⟨hbuilder, hbody⟩ :=
    separable_of_prefixFree HashBuilder.domain_prefixFree trivial trivial h
  exact body_inj hbuilder hx hy hbody

/-- A bucket without epoch is not hashed from the bytes of the bucket of the empty epoch. -/
theorem bytes_eq_iff_epoch :
    framedInput presentationScopeDomain (scopedComponents (ascii "site") (ascii "login") none) ≠
      framedInput presentationScopeDomain
        (scopedComponents (ascii "site") (ascii "login") (some [])) := by
  have hnone : (scopedPresentation (ascii "site") (ascii "login") none).Valid fun _ _ _ _ => [] :=
    ⟨by decide, by decide, fun _ h => absurd h (by simp)⟩
  have hsome : (scopedPresentation (ascii "site") (ascii "login") (some [])).Valid
      fun _ _ _ _ => [] := by
    refine ⟨by decide, by decide, fun epoch h => ?_⟩
    obtain rfl := Option.some.inj h
    decide
  intro h
  have heq := ((bytes_eq_iff fun _ _ _ _ => []).1 _ _ hnone hsome).mp h
  cases heq

end HashInput

end VoleArc
