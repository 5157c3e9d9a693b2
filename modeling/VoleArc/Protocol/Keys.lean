import VoleArc.Wire
import VoleArc.Context

/-!
# VoleArc.Protocol.Keys — issuer keys and public keys

A public key carries its whipped system and its context together with the proof that they are the
ones derived from the MAYO key, the profile and the application context.
-/

namespace VoleArc

open Reader Wire

/-- `MAX_APPLICATION_CONTEXT_BYTES`. -/
def maxApplicationContextBytes : ℕ := 4096

def WIRE_PUBLIC_KEY : U8 := 1
def WIRE_ISSUER_KEY : U8 := 2

/-- Issuer public key and compact MAYO verification structure. -/
structure PublicKey {P : ArcParams} {K : Type} [Field K] (C : Crates P K) where
  mayo : C.mayo.PublicKey
  mayoSystem : MayoFormSystem
  context : Bytes32
  profile : PerformanceProfile
  applicationContext : Bytes
  mayoSystem_eq : mayoSystem = (mayoSystemAndHash C mayo).1
  context_eq : context =
    deriveIssuerContext C applicationContext (mayoSystemAndHash C mayo).2 profile
  applicationContext_le : applicationContext.length ≤ maxApplicationContextBytes

/-- Issuer holding the MAYO trapdoor used only during credential issuance. -/
structure Issuer {P : ArcParams} {K : Type} [Field K] (C : Crates P K) where
  secret : C.mayo.SecretKey
  publicKey : PublicKey C

variable {P : ArcParams} {K : Type} [Field K] {C : Crates P K}

/-- The end of the three constructors: derive the system and the context. -/
def PublicKey.derive (mayo : C.mayo.PublicKey) (profile : PerformanceProfile)
    (applicationContext : Bytes) (h : applicationContext.length ≤ maxApplicationContextBytes) :
    PublicKey C :=
  let systemAndHash := mayoSystemAndHash C mayo
  { mayo := mayo
    mayoSystem := systemAndHash.1
    context := deriveIssuerContext C applicationContext systemAndHash.2 profile
    profile := profile
    applicationContext := applicationContext
    mayoSystem_eq := rfl
    context_eq := rfl
    applicationContext_le := h }

/-! ### Encodings -/

/-- A key artifact: profile, application context, key. -/
def encodeKey (artifact parameterSet : U8) (profile : PerformanceProfile)
    (applicationContext key : Bytes) : Option Bytes := do
  let output := header [] artifact parameterSet
  let output := output ++ [profile.wireId]
  let output ← putBytes output applicationContext
  putBytes output key

/-- The body of a key decoder. -/
def decodeKey {Key Value : Type} (fromBytes : Bytes → Option Key)
    (build : Key → PerformanceProfile → (applicationContext : Bytes) →
      applicationContext.length ≤ maxApplicationContextBytes → Value) : Decode Value := do
  let id ← u8
  let profile ← liftM (PerformanceProfile.fromWireId id)
  let applicationContext ← bytes
  if h : applicationContext.length > maxApplicationContextBytes then throw .invalidEncoding
  else
    let encoded ← bytes
    let key ← liftM ((fromBytes encoded).elim (.error WireError.invalidEncoding) Except.ok)
    finish
    pure (build key profile applicationContext (Nat.le_of_not_gt h))

def PublicKey.toBytes (self : PublicKey C) : Option Bytes :=
  encodeKey WIRE_PUBLIC_KEY P.WIRE_ID self.profile self.applicationContext
    (C.mayo.publicKeyToBytes self.mayo)

def PublicKey.fromBytes (bytes : Bytes) : Except WireError (PublicKey C) :=
  decodeWith WIRE_PUBLIC_KEY P.WIRE_ID (decodeKey C.mayo.publicKeyFromBytes PublicKey.derive) bytes

def Issuer.keyBytes (self : Issuer C) : Option Bytes :=
  encodeKey WIRE_ISSUER_KEY P.WIRE_ID self.publicKey.profile self.publicKey.applicationContext
    (C.mayo.secretKeyToBytes self.secret)

def Issuer.fromKeyBytes (bytes : Bytes) : Except WireError (Issuer C) :=
  decodeWith WIRE_ISSUER_KEY P.WIRE_ID (decodeKey C.mayo.secretKeyFromBytes
    fun secret profile applicationContext h =>
      ⟨secret, PublicKey.derive (C.mayo.publicKey secret) profile applicationContext h⟩) bytes

/-! ### Generation -/

/-- Generate an issuer; the source panics when the application context is too long. -/
def Issuer.generateWithProfile (applicationContext : Bytes) (profile : PerformanceProfile)
    (rng : C.Rng) : Option (Issuer C × C.Rng) :=
  if h : applicationContext.length ≤ maxApplicationContextBytes then
    let keys := (C.mayo.trapgen rng).1
    some (⟨keys.1, PublicKey.derive keys.2 profile applicationContext h⟩, (C.mayo.trapgen rng).2)
  else none

/-- Generate an issuer using the balanced profile. -/
def Issuer.generate (applicationContext : Bytes) (rng : C.Rng) : Option (Issuer C × C.Rng) :=
  Issuer.generateWithProfile applicationContext .balanced rng

/-- What `generate_with_profile` and `from_key_bytes` build. -/
inductive Issuer.Reachable : Issuer C → Prop
  | generate {applicationContext : Bytes} {profile : PerformanceProfile} {rng rng' : C.Rng}
      {issuer : Issuer C}
      (h : Issuer.generateWithProfile applicationContext profile rng = some (issuer, rng')) :
      Issuer.Reachable issuer
  | fromKeyBytes {bytes : Bytes} {issuer : Issuer C} (h : Issuer.fromKeyBytes bytes = .ok issuer) :
      Issuer.Reachable issuer

/-! ### What the key decoders accept -/

/-- A public key is determined by what is on the wire. -/
theorem PublicKey.ext_wire {a b : PublicKey C} (hmayo : a.mayo = b.mayo)
    (hprofile : a.profile = b.profile) (happ : a.applicationContext = b.applicationContext) :
    a = b := by
  obtain ⟨mayo, system, context, profile, app, hs, hc, ha⟩ := a
  obtain ⟨mayo', system', context', profile', app', hs', hc', ha'⟩ := b
  simp only at hmayo hprofile happ
  subst hmayo hprofile happ hs hs' hc hc'
  rfl

theorem PublicKey.derive_eq (key : PublicKey C) :
    PublicKey.derive key.mayo key.profile key.applicationContext key.applicationContext_le = key :=
  PublicKey.ext_wire rfl rfl rfl

theorem elim_eq_ok {α : Type} {x : Option α} {e : WireError} {a : α} :
    x.elim (.error e) Except.ok = Except.ok a ↔ x = some a := by
  cases x <;> simp

theorem encodeKey_eq_some {artifact parameterSet : U8} {profile : PerformanceProfile}
    {applicationContext key b : Bytes} :
    encodeKey artifact parameterSet profile applicationContext key = some b ↔
      applicationContext.length < 2 ^ 32 ∧ key.length < 2 ^ 32 ∧
        b = header [] artifact parameterSet ++
          ([profile.wireId] ++ (framed applicationContext ++ framed key)) := by
  simp only [encodeKey, bind, Option.bind_eq_some_iff, putBytes_eq_some]
  constructor
  · rintro ⟨_, ⟨happ, rfl⟩, hkey, rfl⟩
    exact ⟨happ, hkey, by simp only [List.append_assoc]⟩
  · rintro ⟨happ, hkey, rfl⟩
    exact ⟨_, ⟨happ, rfl⟩, hkey, by simp only [List.append_assoc]⟩

/-- A key decoder accepts exactly the encodings of the keys its codec knows. -/
theorem decodeKey_eq_ok {Key Value : Type} {fromBytes : Bytes → Option Key} {toBytes : Key → Bytes}
    (hcodec : ∀ b key, fromBytes b = some key ↔ toBytes key = b)
    {build : Key → PerformanceProfile → (applicationContext : Bytes) →
      applicationContext.length ≤ maxApplicationContextBytes → Value}
    {artifact parameterSet : U8} {b : Bytes} {v : Value} :
    decodeWith artifact parameterSet (decodeKey fromBytes build) b = .ok v ↔
      b.length ≤ maxWireBytes ∧ ∃ key profile applicationContext h,
        encodeKey artifact parameterSet profile applicationContext (toBytes key) = some b ∧
          v = build key profile applicationContext h := by
  have hreads := codes_u8.bind fun id => Reads.lift_bind (PerformanceProfile.fromWireId id)
    fun profile => codes_bytes.bind fun app => Reads.dguard (e := WireError.invalidEncoding)
      (p := app.length > maxApplicationContextBytes) fun h => codes_bytes.bind fun encoded =>
        Reads.lift_bind ((fromBytes encoded).elim (.error WireError.invalidEncoding) Except.ok)
          fun key => reads_finish_bind (f := fun _ => pure _)
            (Reads.pure (build key profile app (Nat.le_of_not_gt h)))
  refine (decodeWith_eq_ok hreads).trans (and_congr_right fun _ => ?_)
  simp only [PerformanceProfile.fromWireId_eq_ok, elim_eq_ok, hcodec, encodeKey_eq_some]
  constructor
  · rintro ⟨_, _, rfl, _, _, -, rfl, profile, rfl, app, _, happ, rfl, hle, _, _, hkey, rfl, key,
      rfl, ⟨rfl, rfl⟩, rfl, -⟩
    refine ⟨key, profile, app, Nat.le_of_not_gt hle, ⟨happ, hkey, ?_⟩, rfl⟩
    simp only [List.append_nil]
  · rintro ⟨key, profile, app, hle, ⟨happ, hkey, rfl⟩, rfl⟩
    refine ⟨_, [], ?_, profile.wireId, _, trivial, rfl, profile, rfl, app, _, happ, rfl,
      Nat.not_lt.mpr hle, toBytes key, [], hkey, rfl, key, rfl, ⟨rfl, rfl⟩, rfl, rfl⟩
    simp only [List.append_nil]

theorem PublicKey.fromBytes_eq_ok (hkeys : C.mayo.CanonicalKeys) {b : Bytes} {key : PublicKey C} :
    PublicKey.fromBytes b = .ok key ↔ b.length ≤ maxWireBytes ∧ key.toBytes = some b := by
  refine (decodeKey_eq_ok hkeys.publicKey).trans (and_congr_right fun _ => ?_)
  constructor
  · rintro ⟨mayo, profile, app, h, hbytes, rfl⟩
    exact hbytes
  · intro hbytes
    exact ⟨key.mayo, key.profile, key.applicationContext, key.applicationContext_le, hbytes,
      (PublicKey.derive_eq key).symm⟩

/-- The public key belongs to the trapdoor. -/
def Issuer.Matches (issuer : Issuer C) : Prop :=
  issuer.publicKey.mayo = C.mayo.publicKey issuer.secret

theorem Issuer.fromKeyBytes_eq_ok (hkeys : C.mayo.CanonicalKeys) {b : Bytes} {issuer : Issuer C} :
    Issuer.fromKeyBytes b = .ok issuer ↔
      b.length ≤ maxWireBytes ∧ issuer.keyBytes = some b ∧ issuer.Matches := by
  refine (decodeKey_eq_ok hkeys.secretKey).trans (and_congr_right fun _ => ?_)
  constructor
  · rintro ⟨secret, profile, app, h, hbytes, rfl⟩
    exact ⟨hbytes, rfl⟩
  · rintro ⟨hbytes, hmatches⟩
    refine ⟨issuer.secret, issuer.publicKey.profile, issuer.publicKey.applicationContext,
      issuer.publicKey.applicationContext_le, hbytes, ?_⟩
    obtain ⟨secret, key⟩ := issuer
    simp only [Issuer.Matches] at hmatches
    rw [← hmatches, PublicKey.derive_eq]

theorem Issuer.Reachable.matches (hkeys : C.mayo.CanonicalKeys) (htrapgen : C.mayo.TrapgenCorrect)
    {issuer : Issuer C} (h : issuer.Reachable) : issuer.Matches := by
  cases h with
  | generate h =>
    unfold Issuer.generateWithProfile at h
    split_ifs at h with hle
    obtain ⟨rfl, -⟩ := Prod.mk.inj (Option.some.inj h)
    exact (htrapgen _).symm
  | fromKeyBytes h => exact ((Issuer.fromKeyBytes_eq_ok hkeys).mp h).2.2

end VoleArc
