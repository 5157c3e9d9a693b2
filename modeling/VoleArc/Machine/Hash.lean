import VoleArc.Circuit.Wires
import VoleArc.Shake256
import VoleArc.Machine.Wire

/-!
# VoleArc.Machine.Hash — the hash code behind the decoders where it can panic

SHAKE256 and the targets computed from it, with every index, shift, addition and assertion that
can fail.  None does: each function has the result of its model in `VoleArc.Keccak` and
`VoleArc.Circuit.Native`.
-/

namespace VoleArc.Machine

open BitString Checked Keccak Scatter

variable (p : PointerWidth)

/-! ### Keccak-f[1600] -/

/-- `x + 5 * y`. -/
def laneIndex (x y : ℕ) : Option ℕ := do add p.bits x (← mul p.bits 5 y)

def round (input : State) (roundConstant : U64) : Option State := do
  let columns ← fill (Vector.replicate 5 0) (List.finRange 5) (fun x => some x.val) fun x => do
    some ((← input[x.val]?) ^^^ (← input[← add p.bits x 5]?) ^^^ (← input[← add p.bits x 10]?) ^^^
      (← input[← add p.bits x 15]?) ^^^ (← input[← add p.bits x 20]?))
  let theta : State ← fill (Vector.replicate 25 0) lanes (fun (y, x) => laneIndex p x y)
    fun (y, x) => do
    some ((← input[← laneIndex p x y]?) ^^^ (← columns[(← add p.bits x 4) % 5]?) ^^^
      (← columns[(← add p.bits x 1) % 5]?).rotateLeft 1)
  let permuted : State ← fill (Vector.replicate 25 0) lanes
    (fun (y, x) => do
      let sum ← add p.bits (← mul p.bits 2 x) (← mul p.bits 3 y)
      laneIndex p y (sum % 5))
    fun (y, x) => do
      let source ← laneIndex p x y
      some ((← theta[source]?).rotateLeft (← RHO[source]?))
  let output : State ← fill (Vector.replicate 25 0) lanes (fun (y, x) => laneIndex p x y)
    fun (y, x) => do
    some ((← permuted[← laneIndex p x y]?) ^^^
      (~~~(← permuted[← laneIndex p ((← add p.bits x 1) % 5) y]?) &&&
        (← permuted[← laneIndex p ((← add p.bits x 2) % 5) y]?)))
  store output 0 ((← output[0]?) ^^^ roundConstant)

def keccakF (state : State) : Option State := RC.toList.foldlM (round p) state

/-! ### SHAKE256 -/

def absorbBlock (state : State) (block : Vector U8 rateBytes) : Option State := do
  let (blockLanes, remainder) := asChunks 8 block.toList
  assert (remainder.isEmpty = true)
  update state blockLanes.zipIdx Prod.snd fun (lane, _) cell => cell ^^^ u64FromLeBytes lane.toList

/-- `block[..stop].copy_from_slice(src)`. -/
def copyFromSlice {n : ℕ} (block : Vector U8 n) (stop : ℕ) (src : Bytes) :
    Option (Vector U8 n) := do
  assert (stop ≤ n)
  assert (src.length = stop)
  fill block (List.range stop) some fun i => src[i]?

/-- `block[i] ^= c`. -/
def xorAt {n : ℕ} (block : Vector U8 n) (i : ℕ) (c : U8) : Option (Vector U8 n) := do
  store block i ((← block[i]?) ^^^ c)

def padSingleBlock (message : Bytes) : Option (Vector U8 rateBytes) := do
  assert (message.length < rateBytes)
  let block ← copyFromSlice (Vector.replicate rateBytes 0) message.length message
  let block ← xorAt block message.length 0x1f
  xorAt block (rateBytes - 1) 0x80

def chunkBytes (state : State) (n : ℕ) : Option Bytes :=
  (List.range n).mapM fun index => do
    let lane ← state[index / 8]?
    (u64ToLeBytes lane)[index % 8]?

def squeeze : ℕ → ℕ → State → Option Bytes
  | 0, rem, state => chunkBytes state rem
  | full + 1, rem, state => do
    let chunk ← chunkBytes state rateBytes
    some (chunk ++ (← squeeze full rem (← keccakF p state)))

def shake256 (message : Bytes) (outputLen : ℕ) : Option Bytes := do
  let (blocks, remainder) := asChunks rateBytes message
  let state ← blocks.foldlM (fun state block => do keccakF p (← absorbBlock state block))
    (Vector.replicate 25 0)
  let finalBlock ← padSingleBlock remainder
  let state ← keccakF p (← absorbBlock state finalBlock)
  squeeze p (outputLen / rateBytes) (outputLen % rateBytes) state

/-! ### Targets -/

def credentialMessage (scope secret hidingNonce : Bytes32) : Option Bytes := do
  -- the capacity of the message
  let _ ← add p.bits (← add p.bits (← add p.bits credentialDomain.length 32) secretBytes)
    hidingNonceBytes
  let message := credentialDomain ++ scope.toList ++ secret.toList ++ hidingNonce.toList
  assert (message.length < rateBytes)
  some message

def targetNibbles (m : ℕ) (message : Bytes) : Option (List GF16) := do
  let output ← shake256 p message ((m + 1) / 2)
  (List.range m).mapM fun index => do
    let byte ← output[index / 2]?
    some (GF16.new ((← shr byte (← mul p.bits 4 (index % 2))) &&& 0x0f))

def credentialTarget (P : ArcParams) (scope secret hidingNonce : Bytes32) : Option (List GF16) := do
  targetNibbles p P.M (← credentialMessage p scope secret hidingNonce)

def packGf16 (values : List GF16) : Option Bytes :=
  (chunks 2 values).mapM fun pair => do
    let low ← pair[0]?
    some (low.toU8 ||| (← shl (pair[1]?.elim 0 GF16.toU8) 4))

def signedCredentialMessage (P : ArcParams) (commitment : List GF16) (salt : Bytes32) :
    Option Bytes := do
  assert (commitment.length = P.M)
  let packed ← packGf16 commitment
  let _ ← add p.bits (← add p.bits signedCredentialDomain.length packed.length) saltBytes
  let message := signedCredentialDomain ++ packed ++ salt.toList
  assert (message.length < rateBytes)
  some message

def signedCredentialTarget (P : ArcParams) (commitment : List GF16) (salt : Bytes32) :
    Option (List GF16) := do
  targetNibbles p P.M (← signedCredentialMessage p P commitment salt)

/-! ### No operation fails -/

variable {p}

theorem add_small {a b : ℕ} (h : a + b < 2 ^ 31) : add p.bits a b = some (a + b) :=
  add_of (p.lt_two_pow h).2

theorem mul_small {a b : ℕ} (h : a * b < 2 ^ 31) : mul p.bits a b = some (a * b) :=
  mul_of (p.lt_two_pow h).2

theorem laneIndex_eq {x y : ℕ} (h : x + 5 * y < 25) : laneIndex p x y = some (x + 5 * y) := by
  rw [laneIndex, mul_small (by omega)]
  exact add_small (by omega)

theorem fill_lanes {dst : Fin 5 × Fin 5 → Option ℕ} {val : Fin 5 × Fin 5 → Option U64}
    {d : Fin 5 × Fin 5 → Fin 25} {v : Fin 5 × Fin 5 → U64}
    (hdst : ∀ y x, dst (y, x) = some (d (y, x)).val) (hval : ∀ y x, val (y, x) = some (v (y, x))) :
    fill (Vector.replicate 25 0) lanes dst val =
      some (scatter (Vector.replicate 25 0) lanes (fun q => (d q).val) v) :=
  fill_of (fun q _ => hdst q.1 q.2) (fun q _ => (d q).isLt) fun q _ => hval q.1 q.2

theorem round_eq (input : State) (roundConstant : U64) :
    round p input roundConstant = some (Keccak.round input roundConstant) := by
  let columns : Vector U64 5 := Vector.ofFn fun x =>
    input[x.val] ^^^ input[x.val + 5] ^^^ input[x.val + 10] ^^^ input[x.val + 15] ^^^
      input[x.val + 20]
  let theta : State := scatter (Vector.replicate 25 0) lanes (fun q => lane q) fun (y, x) =>
    input.get (lane (y, x)) ^^^ columns.get (x + 4) ^^^ (columns.get (x + 1)).rotateLeft 1
  let permuted : State := scatter (Vector.replicate 25 0) lanes (fun q => targetLane q) fun q =>
    (theta.get (lane q)).rotateLeft (RHO.get (lane q))
  let output : State := scatter (Vector.replicate 25 0) lanes (fun q => lane q) fun (y, x) =>
    permuted.get (lane (y, x)) ^^^
      (~~~permuted.get (lane (y, x + 1)) &&& permuted.get (lane (y, x + 2)))
  refine bind_of (a := columns) ?_ (bind_of (a := theta) ?_ (bind_of (a := permuted) ?_
    (bind_of (a := output) ?_ ?_)))
  · refine fill_finRange fun x => ?_
    have hcell : ∀ k (h : x.val + k < 25), input[x.val + k]? = some input[x.val + k] :=
      fun k h => Vector.getElem?_eq_getElem h
    exact bind_of (hcell 0 (by omega)) (bind_of (add_small (by omega)) (bind_of (hcell 5 (by omega))
      (bind_of (add_small (by omega)) (bind_of (hcell 10 (by omega)) (bind_of (add_small (by omega))
      (bind_of (hcell 15 (by omega)) (bind_of (add_small (by omega)) (bind_of (hcell 20 (by omega))
      rfl))))))))
  · refine fill_lanes (fun y x => laneIndex_eq (by omega)) fun y x => ?_
    exact bind_of (laneIndex_eq (by omega)) (bind_of (get_of (lane (y, x)) rfl)
      (bind_of (add_small (by omega)) (bind_of (get_of (x + 4) rfl)
      (bind_of (add_small (by omega)) (bind_of (get_of (x + 1) rfl) rfl)))))
  · refine fill_lanes (fun y x => ?_) fun y x => ?_
    · exact bind_of (mul_small (by omega)) (bind_of (mul_small (by omega))
        (bind_of (add_small (by omega)) (laneIndex_eq (by omega))))
    · exact bind_of (laneIndex_eq (by omega)) (bind_of (get_of (lane (y, x)) rfl)
        (bind_of (get_of (lane (y, x)) rfl) rfl))
  · refine fill_lanes (fun y x => laneIndex_eq (by omega)) fun y x => ?_
    exact bind_of (laneIndex_eq (by omega)) (bind_of (get_of (lane (y, x)) rfl)
      (bind_of (add_small (by omega)) (bind_of (laneIndex_eq (by omega))
      (bind_of (get_of (lane (y, x + 1)) rfl) (bind_of (add_small (by omega))
      (bind_of (laneIndex_eq (by omega)) (bind_of (get_of (lane (y, x + 2)) rfl) rfl)))))))
  · exact bind_of (get_of 0 rfl) (dif_pos (by decide))

theorem keccakF_eq (state : State) : keccakF p state = some (Keccak.keccakF state) :=
  foldlM_of fun state roundConstant _ => round_eq state roundConstant

theorem zipIdx_eq_map {α : Type} {n : ℕ} {l : List α} (h : l.length = n) :
    l.zipIdx = (List.finRange n).map fun i => (l.get (i.cast h.symm), i.val) := by
  refine List.ext_getElem (by simp [h]) fun i h₁ h₂ => ?_
  simp

theorem absorbBlock_eq (state : State) (block : Vector U8 rateBytes) :
    absorbBlock state block = some (Keccak.absorbBlock state block) := by
  have hlen : (asChunks 8 block.toList).1.length = 17 := by
    simp only [asChunks, List.length_map, List.length_range, Vector.length_toList]
    rfl
  have hrest : (asChunks 8 block.toList).2.isEmpty = true := by
    simp only [asChunks, Vector.length_toList, List.isEmpty_iff, List.drop_eq_nil_iff]
    decide
  have hlt : ∀ e ∈ (asChunks 8 block.toList).1.zipIdx, e.2 < 25 := by
    intro e he
    have := List.snd_lt_of_mem_zipIdx he
    omega
  have hnodup : ((asChunks 8 block.toList).1.zipIdx.map Prod.snd).Nodup := by
    rw [List.zipIdx_map_snd]
    exact List.nodup_range'
  refine bind_of (assert_of hrest) ((update_of (v := fun e =>
    state[e.2]?.getD 0 ^^^ u64FromLeBytes e.1.toList) hnodup hlt fun e _ h => ?_).trans
      (congrArg some ?_))
  · rw [Vector.getElem?_eq_getElem h, Option.getD_some]
  rw [zipIdx_eq_map hlen, scatter_map]
  unfold Keccak.absorbBlock
  congr 1
  funext i
  have hi : i.val < (asChunks 8 block.toList).1.length := by rw [hlen]; exact i.isLt
  rw [List.getElem?_eq_getElem hi, Vector.getElem?_eq_getElem (by omega)]
  rfl

theorem xorAt_eq {n i : ℕ} (block : Vector U8 n) (h : i < n) (c : U8) :
    xorAt block i c = some (Keccak.xorAt block i c) := by
  refine bind_of (Vector.getElem?_eq_getElem h) ((store_of h).trans ?_)
  rw [Keccak.xorAt, Vector.getElem?_eq_getElem h, Option.getD_some]

theorem padSingleBlock_eq {message : Bytes} (h : message.length < rateBytes) :
    padSingleBlock message = some (Keccak.padSingleBlock message) := by
  have hcopy : copyFromSlice (Vector.replicate rateBytes 0) message.length message =
      some (scatter (Vector.replicate rateBytes 0) (List.range message.length) id
        fun i => message.getD i 0) := by
    refine bind_of (assert_of h.le) (bind_of (assert_of rfl) ?_)
    refine fill_of (fun _ _ => rfl) (fun i hi => ?_) fun i hi => ?_
    · exact (List.mem_range.mp hi).trans h
    · rw [List.getD_eq_getElem?_getD, List.getElem?_eq_getElem (List.mem_range.mp hi)]
      rfl
  exact bind_of (assert_of h) (bind_of hcopy (bind_of (xorAt_eq _ h _) (xorAt_eq _ (by decide) _)))

theorem chunkBytes_eq {state : State} {n : ℕ} (h : n ≤ 200) :
    chunkBytes state n = some (Keccak.chunkBytes state n) := by
  refine mapM_of fun index hindex => ?_
  have hlane : index / 8 < 25 := by
    have := List.mem_range.mp hindex
    omega
  rw [Vector.getElem?_eq_getElem hlane, Option.getD_some]
  refine bind_of rfl ?_
  rw [List.getD_eq_getElem?_getD, List.getElem?_eq_getElem (by rw [length_u64ToLeBytes]; omega)]
  rfl

theorem squeeze_eq {rem : ℕ} (hrem : rem ≤ 200) : ∀ (full : ℕ) (state : State),
    squeeze p full rem state = some (Keccak.squeeze full rem state)
  | 0, _ => chunkBytes_eq hrem
  | full + 1, state =>
    bind_of (chunkBytes_eq (by decide)) (bind_of (keccakF_eq state)
      (bind_of (squeeze_eq hrem full _) rfl))

theorem shake256_eq (message : Bytes) (outputLen : ℕ) :
    shake256 p message outputLen = some (Keccak.shake256 message outputLen) := by
  have hrate : 0 < rateBytes := by decide
  have hrem : outputLen % rateBytes ≤ 200 := (Nat.mod_lt _ hrate).le.trans (by decide)
  refine bind_of (foldlM_of fun state block _ => ?_) (bind_of
    (padSingleBlock_eq (length_asChunks_snd hrate message)) (bind_of (absorbBlock_eq _ _)
      (bind_of (keccakF_eq _) (squeeze_eq hrem _ _))))
  exact bind_of (absorbBlock_eq state block) (keccakF_eq _)

theorem targetNibbles_eq (m : ℕ) (message : Bytes) :
    targetNibbles p m message = some (VoleArc.targetNibbles m message) := by
  refine bind_of (shake256_eq message _) (mapM_of fun index hindex => ?_)
  have hlt : index / 2 < (Keccak.shake256 message ((m + 1) / 2)).length := by
    have := List.mem_range.mp hindex
    rw [length_shake256]
    omega
  rw [List.getD_eq_getElem _ _ hlt]
  exact bind_of (List.getElem?_eq_getElem hlt) (bind_of (mul_small (by omega))
    (bind_of (shr_of (by omega)) rfl))

theorem credentialTarget_eq (P : ArcParams) (scope secret hidingNonce : Bytes32) :
    credentialTarget p P scope secret hidingNonce =
      some (VoleArc.credentialTarget P scope secret hidingNonce) := by
  have hmessage : credentialMessage p scope secret hidingNonce =
      some (VoleArc.credentialMessage scope secret hidingNonce) :=
    bind_of (add_small (by decide))
      (bind_of (add_small (by decide)) (bind_of (add_small (by decide))
      (bind_of (assert_of (credentialMessage_lt scope secret hidingNonce)) rfl)))
  exact bind_of hmessage (targetNibbles_eq _ _)

theorem packGf16_eq (values : List GF16) : packGf16 values = some (VoleArc.packGf16 values) := by
  refine mapM_of fun pair hpair => ?_
  obtain ⟨low, rest, rfl⟩ := List.exists_cons_of_ne_nil (ne_nil_of_mem_chunks (by decide) hpair)
  exact bind_of rfl (bind_of (shl_of (by decide)) rfl)

theorem signedCredentialTarget_eq (P : ArcParams) {commitment : List GF16}
    (h : commitment.length = P.M) (salt : Bytes32) :
    signedCredentialTarget p P commitment salt =
      some (VoleArc.signedCredentialTarget P commitment salt) := by
  have hfits := P.fits
  have hdomain : signedCredentialDomain.length = 18 := rfl
  have hpacked : (VoleArc.packGf16 commitment).length = (P.M + 1) / 2 := by
    rw [length_packGf16, h]
  have hcapacity : signedCredentialDomain.length + (VoleArc.packGf16 commitment).length +
      saltBytes < 2 ^ 31 := by
    rw [hdomain, hpacked, saltBytes]
    omega
  have hmessage : signedCredentialMessage p P commitment salt =
      some (VoleArc.signedCredentialMessage commitment salt) :=
    bind_of (assert_of h) (bind_of (packGf16_eq commitment) (bind_of
      (add_small (by omega))
        (bind_of (add_small hcapacity)
          (bind_of (assert_of (signedCredentialMessage_lt P h salt)) rfl))))
  exact bind_of hmessage (targetNibbles_eq _ _)

end VoleArc.Machine
