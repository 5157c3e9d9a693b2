import VoleArc.External

/-!
# VoleArc.Context — digests of contexts and bindings, scopes, and presentation challenges
-/

namespace VoleArc

variable {P : ArcParams} {K : Type} [Field K] (C : Crates P K)

/-! ### Framed digests -/

def credentialContextDomain : Bytes := ascii "VOLE-ARC/credential-context/v1"
def presentationContextDomain : Bytes := ascii "VOLE-ARC/presentation-context/v1"
def presentationScopeDomain : Bytes := ascii "VOLE-ARC/scoped-presentation/v1"
def presentationBindingDomain : Bytes := ascii "VOLE-ARC/presentation-binding/v1"

/-- `(x.len() as u64).to_le_bytes()`. -/
def lenBytes (bytes : Bytes) : Bytes := u64ToLeBytes (BitVec.ofNat 64 bytes.length)

def framedInput (domain : Bytes) (components : List Bytes) : Bytes :=
  domain ++ components.flatMap fun component => lenBytes component ++ component

def hashFramed (domain : Bytes) (components : List Bytes) : Bytes32 :=
  C.shake (framedInput domain components)

/-- Public information bound into credential issuance. -/
structure CredentialContext where
  digest : Bytes32
  deriving DecidableEq

def CredentialContext.new (applicationData : Bytes) : CredentialContext :=
  ⟨hashFramed C credentialContextDomain [applicationData]⟩

/-- One public rate-limit bucket. -/
structure PresentationContext where
  digest : Bytes32
  deriving DecidableEq

def PresentationContext.new (applicationData : Bytes) : PresentationContext :=
  ⟨hashFramed C presentationContextDomain [applicationData]⟩

/-- The components `scoped` frames. -/
def PresentationContext.scopedComponents (relyingParty purpose : Bytes) (epoch : Option Bytes) :
    List Bytes :=
  let (epochPresence, epoch) : Bytes × Bytes := match epoch with
    | some epoch => ([1], epoch)
    | none => ([0], [])
  [relyingParty, purpose, epochPresence, epoch]

def PresentationContext.scoped (relyingParty purpose : Bytes) (epoch : Option Bytes) :
    PresentationContext :=
  ⟨hashFramed C presentationScopeDomain (scopedComponents relyingParty purpose epoch)⟩

/-- Public per-request data bound into a presentation proof. -/
structure PresentationBinding where
  digest : Bytes32
  deriving DecidableEq

def PresentationBinding.new (requestData : Bytes) : PresentationBinding :=
  ⟨hashFramed C presentationBindingDomain [requestData]⟩

/-- Server policy for one credential presentation. -/
structure PresentationChallenge where
  credentialContext : CredentialContext
  presentationContext : PresentationContext
  binding : PresentationBinding
  limit : U32
  deriving DecidableEq

def PresentationChallenge.new (credentialContext : CredentialContext)
    (presentationContext : PresentationContext) (limit : U32) (binding : PresentationBinding) :
    Except Error PresentationChallenge :=
  if limit = 0 then .error .invalidPresentationLimit
  else .ok
    { credentialContext := credentialContext
      presentationContext := presentationContext
      binding := binding
      limit := limit }

/-! ### Scopes -/

def hashScopeInput (domain : Bytes) (parts : List Bytes32) : Bytes :=
  domain ++ parts.flatMap Vector.toList

def hashScope (domain : Bytes) (parts : List Bytes32) : Bytes32 :=
  C.shake (hashScopeInput domain parts)

def credentialScope (issuerContext credentialContext : Bytes32) : Bytes32 :=
  hashScope C (ascii "VOLE-ARC/credential-scope/v1") [issuerContext, credentialContext]

def presentationScope (issuerContext credentialContext presentationContext : Bytes32) : Bytes32 :=
  hashScope C (ascii "VOLE-ARC/presentation-scope/v1")
    [issuerContext, credentialContext, presentationContext]

/-! ### Issuer contexts -/

def mayoPublicKeyInput (N M O K : ℕ) (forms : List (List GF16)) : Bytes :=
  ascii "VOLE-ARC/mayo-public-key/v1" ++ u64ToLeBytes (BitVec.ofNat 64 N) ++
    u64ToLeBytes (BitVec.ofNat 64 M) ++ u64ToLeBytes (BitVec.ofNat 64 O) ++
    u64ToLeBytes (BitVec.ofNat 64 K) ++ forms.flatMap fun form => form.map GF16.toU8

def mayoSystemAndHash (publicKey : C.mayo.PublicKey) : MayoFormSystem × Bytes32 :=
  let (system, forms) := C.mayo.whippedSystemAndForms publicKey
  (system, C.shake (mayoPublicKeyInput P.N P.M P.O P.K forms))

def PerformanceProfile.params : PerformanceProfile → C.voleith.Params
  | compact => C.voleith.PARAMS_128
  | balanced => C.voleith.PARAMS_128_BALANCED
  | lowLatency => C.voleith.PARAMS_128_FAST

def issuerContextInput (applicationContext : Bytes) (publicKeyHash : Bytes32) (name : Bytes)
    (tau k : U64) : Bytes :=
  ascii "VOLE-ARC/issuer-context/v1" ++ lenBytes applicationContext ++ applicationContext ++
    publicKeyHash.toList ++ name ++ u64ToLeBytes 32 ++ u64ToLeBytes tau ++ u64ToLeBytes k

def deriveIssuerContext (applicationContext : Bytes) (publicKeyHash : Bytes32)
    (profile : PerformanceProfile) : Bytes32 :=
  C.shake (issuerContextInput applicationContext publicKeyHash P.NAME
    (C.voleith.tau (profile.params C)) (C.voleith.k (profile.params C)))

/-! ### Statements -/

def issueStatementDomain : Bytes := ascii "VOLE-ARC/issue-statement/v1"
def presentationStatementDomain : Bytes := ascii "VOLE-ARC/presentation-statement/v1"

def encodeBytes (bytes output : Bytes) : Bytes := output ++ lenBytes bytes ++ bytes

def encodeTarget (target : List GF16) (output : Bytes) : Bytes :=
  output ++ u64ToLeBytes (BitVec.ofNat 64 target.length) ++ target.map GF16.toU8

def issueStatement (P : ArcParams) (issuerContext credentialContext : Bytes32)
    (commitment : List GF16) : Bytes :=
  let output := encodeBytes P.NAME issueStatementDomain
  encodeTarget commitment (output ++ issuerContext.toList ++ credentialContext.toList)

def presentationStatement (P : ArcParams) (issuerContext : Bytes32)
    (challenge : PresentationChallenge) (tag : Bytes32) : Bytes :=
  let output := encodeBytes P.NAME presentationStatementDomain
  output ++ issuerContext.toList ++ challenge.credentialContext.digest.toList ++
    challenge.presentationContext.digest.toList ++ u32ToLeBytes challenge.limit ++
    challenge.binding.digest.toList ++ tag.toList

end VoleArc
