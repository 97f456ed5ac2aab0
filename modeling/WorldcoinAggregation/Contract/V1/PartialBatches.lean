import WorldcoinAggregation.Contract.V1.Packing
import WorldcoinAggregation.Scheduler.Completeness

/-!
# Partial batches

The V1 root circuit hashes a slot for each of its `2 ^ depth` leaves, whatever the number of claims.
The contract packs the claims that it is called with and nothing else. Both hash the same string
for a full batch, and for no other (`packed_eq_rootBytes_iff`).
-/

namespace WorldcoinAggregation

open Synthesis Fallible CallStack

/-- The arguments with which the contract is called. -/
structure V1ClaimParams where
  vkeyHash : U256
  numClaims : U256
  root : U256
  grantIds : List U256
  receivers : List Address
  nullifierHashes : List U256
  proof : List UInt8

/-- A number as a word; one that does not fit panics. -/
def u256OfNat (n : ℕ) : Fallible U256 :=
  if n < 2 ^ 256 then .ok (BitVec.ofNat 256 n) else .error .panicked

namespace V1ClaimParams

/-- The arguments for a batch. -/
def new (vkeyHash : U256) (root : ℕ) (claims : List ClaimNative) (proof : List UInt8) :
    Fallible V1ClaimParams := do
  let root ← u256OfNat root
  let numClaims := BitVec.ofNat 256 claims.length
  let nullifierHashes ← claims.mapM fun claim => u256OfNat claim.nullifierHash
  let receivers := claims.map ClaimNative.receiver
  let grantIds ← claims.mapM fun claim => u256OfNat claim.grantId
  return { vkeyHash, numClaims, root, grantIds, receivers, nullifierHashes, proof }

/-- The call of the contract. -/
def fulfill (params : V1ClaimParams) (sender : Address) :
    WorldcoinAggregationV1.DistributeGrants where
  sender := sender
  vkeyHash := params.vkeyHash
  numClaims := params.numClaims
  root := params.root
  grantIds := params.grantIds
  receivers := params.receivers
  nullifierHashes := params.nullifierHashes
  proof := params.proof

end V1ClaimParams

/-- The bytes that a root circuit over these instances hashes. -/
def WorldcoinRootAggregationInput.hashedBytes (lookupBits : ℕ) (instance0 instance1 : List Fr)
    (numProofs : Fr) (maxDepth : ℕ) : Circuit (List UInt8) := do
  let output ← output lookupBits instance0 instance1 numProofs maxDepth
  outputBytes output maxDepth

/-- The root circuit exposes the hash of these bytes. -/
theorem WorldcoinRootAggregationInput.virtualAssignPhase0_eq (chips : Chips)
    (instance0 instance1 : List Fr) (numProofs : Fr) (maxDepth : ℕ) :
    virtualAssignPhase0 chips instance0 instance1 numProofs maxDepth = (do
      let bytes ← hashedBytes chips.lookupBits instance0 instance1 numProofs maxDepth
      return (keccakFixedLen chips.keccak256 bytes).hiLo) := by
  simp only [virtualAssignPhase0, hashedBytes, bind_assoc]

section

variable (chips : Chips) (component : Groth16Component) (vk : VkNative)
  (circuitIds : NodeParams → Option String)

/-- The bytes that the root circuit of a request hashes when the request is proven honestly. -/
def rootBytes (fuel : ℕ) (req : RecursiveRequest) : Fallible (List UInt8) := do
  let snarks ← (honestScheduler .v1 chips component vk circuitIds).getSnarksForDeps fuel req
  match ← handleRecursiveRequest vk snarks req with
  | .root request => do
      let input ← WorldcoinRequestRoot.input .v1 request
      match input.snarks with
      | [snark0, snark1] =>
          unwrap (output (WorldcoinRootAggregationInput.hashedBytes chips.lookupBits
            snark0.instances snark1.instances input.numProofs input.maxDepth) .honest)
      | _ => throw .panicked
  | _ => throw .panicked

/-- The hash of the verifying key as one word. -/
def honestVkeyHash : U256 :=
  chips.keccak256 (canonicalWords (component.parseVk vk)).flatten

end

variable {chips : Chips} {component : Groth16Component} {vk : VkNative}
  {circuitIds : NodeParams → Option String} {root round depth initialDepth fuel : ℕ}

/-! ## What the circuit hashes -/

/-- A request is split only at a depth that fits a shift of 32 bits. -/
theorem RecursiveRequest.depth_lt_of_dependencies {req : RecursiveRequest}
    {deps : List RecursiveRequest} (h : req.dependencies = .ok deps) : req.params.depth < 32 := by
  simp only [dependencies, bind_eq_ok, checkedShl_eq_ok] at h
  obtain ⟨_, _, _, ⟨hdepth, -⟩, -⟩ := h
  exact hdepth

/-- The bytes that the root circuit of a provable request hashes. -/
theorem exists_rootBytes {req : RecursiveRequest}
    (hsetup : ProvingSetup chips component vk circuitIds root round depth initialDepth)
    (hmax : depth ≤ 31) (h : req.Provable chips component vk root)
    (hparams : req.params = ⟨.root, depth, initialDepth⟩) (hfuel : depth - initialDepth ≤ fuel) :
    ∃ columns : Columns, columns.HasLength (2 ^ depth) ∧
      columns.StartsWith (req.inputs component) ∧
      rootBytes chips component vk circuitIds fuel req =
        .ok (canonicalWords (WorldcoinRootAggregationInput.outputOf
          (honestVkHash chips component vk) root ((req.end_ - req.start : ℕ) : Fr)
          columns)).flatten := by
  have hlt := hsetup.initialDepth_lt
  obtain ⟨k, rfl⟩ : ∃ k, depth = k + 1 := ⟨depth - 1, by omega⟩
  have htype : req.params.nodeType = .root := by rw [hparams]
  have hdepth : req.params.depth = k + 1 := by rw [hparams]
  have hinitial' : req.params.initialDepth = initialDepth := by rw [hparams]
  have hinitial : req.params.initialDepth ≤ k := by omega
  have hmax' : k + 1 ≤ Version.v1.maxDepth := hmax
  obtain ⟨snark0, snark1, hjoin⟩ := collectsJoin_of_setup hsetup hmax' h (.inr htype) hdepth
    hinitial' (by omega) (Nat.lt_succ_self k) hfuel
  obtain ⟨snarks, hsnarks, hpos, hpad⟩ := hjoin.collects
  obtain ⟨left, right, leftClaims, rightClaims, endIdx, is2ndProofDummy, hjoins, hshared,
    hclaims⟩ := hjoin.joins
  obtain ⟨columns, hlength, hstarts, houtput, hbytes⟩ := hjoins.rootBytes
  have hvkHash : left.vkHash = honestVkHash chips component vk :=
    congrArg SharedInstances.vkHash hshared
  have hroot : left.root = (req.root : Fr) := congrArg SharedInstances.root hshared
  rw [hvkHash, hroot, h.root_eq] at houtput hbytes
  rw [hclaims] at hstarts
  refine ⟨columns, hlength, hstarts, ?_⟩
  have hne : req.params.depth ≠ req.params.initialDepth := by omega
  have hrequest : handleRecursiveRequest vk snarks req = .ok (.root
      ⟨req.start, req.end_, req.params.depth, req.params.initialDepth, [snark0, snark1]⟩) :=
    handleRecursiveRequest_root hne htype hpos hpad
  have hhashed : Honest (WorldcoinRootAggregationInput.hashedBytes chips.lookupBits
      snark0.instances snark1.instances ((req.end_ - req.start : ℕ) : Fr) (k + 1)) _ :=
    houtput.bind hbytes
  simp only [rootBytes, hsnarks, hrequest, bind, Except.bind,
    input_root h hjoin (Nat.lt_of_succ_le hmax) hdepth hinitial, hhashed.output]
  rfl

/-! ## What the contract packs -/

/-- A number below the field order fits into a word. -/
theorem u256OfNat_eq {n : ℕ} (h : n < frModulus) : u256OfNat n = .ok (BitVec.ofNat 256 n) :=
  if_pos (h.trans (by decide))

/-- The value of the word of a number below the field order. -/
theorem toNat_ofNat_eq {n : ℕ} (h : n < frModulus) : (BitVec.ofNat 256 n).toNat = n := by
  have hfits : n < 2 ^ 256 := h.trans (by decide)
  rw [BitVec.toNat_ofNat, Nat.mod_eq_of_lt hfits]

/-- The arguments for a batch of valid claims. -/
theorem V1ClaimParams.new_eq {claims : List ClaimNative} (hroot : root < 2 ^ 256)
    (hvalid : ∀ claim ∈ claims, claim.Valid chips component vk root) (vkeyHash : U256)
    (proof : List UInt8) :
    V1ClaimParams.new vkeyHash root claims proof = .ok
      { vkeyHash
        numClaims := BitVec.ofNat 256 claims.length
        root := BitVec.ofNat 256 root
        grantIds := claims.map fun claim => BitVec.ofNat 256 claim.grantId
        receivers := claims.map ClaimNative.receiver
        nullifierHashes := claims.map fun claim => BitVec.ofNat 256 claim.nullifierHash
        proof } := by
  have hnullifiers : claims.mapM (fun claim => u256OfNat claim.nullifierHash) =
      .ok (claims.map fun claim => BitVec.ofNat 256 claim.nullifierHash) :=
    mapM_of_forall fun claim hclaim => u256OfNat_eq (hvalid claim hclaim).nullifier_lt
  have hgrants : claims.mapM (fun claim => u256OfNat claim.grantId) =
      .ok (claims.map fun claim => BitVec.ofNat 256 claim.grantId) :=
    mapM_of_forall fun claim hclaim => u256OfNat_eq (hvalid claim hclaim).grant_lt
  have hrootWord : u256OfNat root = .ok (BitVec.ofNat 256 root) := if_pos hroot
  simp only [V1ClaimParams.new, hrootWord, hnullifiers, hgrants, bind, Except.bind, pure,
    Except.pure]

/-- The columns of these claims and no others. -/
def Columns.ofClaims (claims : List ClaimInput) : Columns where
  grantIds := claims.map ClaimInput.grantId
  receivers := claims.map ClaimInput.receiver
  nullifierHashes := claims.map ClaimInput.nullifierHash

/-- The columns of claims have a slot for each. -/
theorem Columns.hasLength_ofClaims (claims : List ClaimInput) :
    (Columns.ofClaims claims).HasLength claims.length :=
  ⟨List.length_map _, List.length_map _, List.length_map _⟩

/-- What is packed for a batch of valid claims is the output of a circuit over these claims. -/
theorem packed_fulfill {claims : List ClaimNative} {proof : List UInt8} {params : V1ClaimParams}
    (hroot : root < frModulus) (hcount : claims.length < frModulus)
    (hvalid : ∀ claim ∈ claims, claim.Valid chips component vk root)
    (hparams : V1ClaimParams.new (honestVkeyHash chips component vk) root claims proof = .ok params)
    (sender : Address) :
    (params.fulfill sender).packed =
      (canonicalWords (WorldcoinRootAggregationInput.outputOf (honestVkHash chips component vk) root
        claims.length
        (Columns.ofClaims (claims.map (ClaimNative.input component))))).flatten := by
  rw [V1ClaimParams.new_eq (hroot.trans (by decide)) hvalid, Except.ok.injEq] at hparams
  subst hparams
  have hcanonical (f : ClaimNative → ℕ) (hf : ∀ claim ∈ claims, f claim < frModulus) :
      ∀ word ∈ claims.map (fun claim => BitVec.ofNat 256 (f claim)), word.toNat < frModulus := by
    intro word hword
    obtain ⟨claim, hclaim, rfl⟩ := List.mem_map.mp hword
    rw [toNat_ofNat_eq (hf claim hclaim)]
    exact hf claim hclaim
  have hcolumn (f : ClaimNative → ℕ) (hf : ∀ claim ∈ claims, f claim < frModulus) :
      ((claims.map fun claim => BitVec.ofNat 256 (f claim)).map fun word => (word.toNat : Fr)) =
        claims.map fun claim => (f claim : Fr) := by
    rw [List.map_map]
    exact List.map_congr_left fun claim hclaim =>
      congrArg Nat.cast (toNat_ofNat_eq (hf claim hclaim))
  rw [WorldcoinAggregationV1.DistributeGrants.packed_eq_canonicalWords]
  · have hgrants := hcolumn ClaimNative.grantId fun claim hclaim => (hvalid claim hclaim).grant_lt
    have hnullifiers := hcolumn ClaimNative.nullifierHash fun claim hclaim =>
      (hvalid claim hclaim).nullifier_lt
    simp only [WorldcoinAggregationV1.DistributeGrants.output,
      WorldcoinAggregationV1.DistributeGrants.columns, V1ClaimParams.fulfill, hgrants, hnullifiers,
      toNat_ofNat_eq hroot, toNat_ofNat_eq hcount, Columns.ofClaims, List.map_map]
    rfl
  · refine WorldcoinAggregationV1.DistributeGrants.words_canonical _ ?_ ?_ ?_ ?_
    · exact (toNat_ofNat_eq hroot).trans_lt hroot
    · exact (toNat_ofNat_eq hcount).trans_lt hcount
    · exact hcanonical ClaimNative.grantId fun claim hclaim => (hvalid claim hclaim).grant_lt
    · exact hcanonical ClaimNative.nullifierHash fun claim hclaim =>
        (hvalid claim hclaim).nullifier_lt

/-! ## Which batches agree -/

/-- The bytes that the contract packs and those that the root circuit hashes have the same length
for full batches only. Then they are the same unless the root is reduced in the circuit. -/
theorem packed_eq_iff_full {claims : List ClaimNative} {proof bytes : List UInt8}
    {params : V1ClaimParams}
    (hsetup : ProvingSetup chips component vk circuitIds root round depth initialDepth)
    (hpos : 1 ≤ claims.length) (hle : claims.length ≤ 2 ^ depth)
    (hvalid : ∀ claim ∈ claims, claim.Valid chips component vk root)
    (hfuel : depth - initialDepth ≤ fuel)
    (hbytes : rootBytes chips component vk circuitIds fuel
      (batchRequest root claims ⟨.root, depth, initialDepth⟩) = .ok bytes)
    (hparams : V1ClaimParams.new (honestVkeyHash chips component vk) root claims proof =
      .ok params) (sender : Address) :
    (params.fulfill sender).packed = bytes ↔ claims.length = 2 ^ depth ∧ root < frModulus := by
  -- a deeper request panics before it is split
  have hdepth : depth ≤ 31 := by
    obtain ⟨snarks, hsnarks, -⟩ := bind_eq_ok.mp hbytes
    obtain ⟨deps, hdeps, -⟩ := bind_eq_ok.mp hsnarks
    exact Nat.le_of_lt_succ (RecursiveRequest.depth_lt_of_dependencies hdeps)
  have htop : (batchRequest root claims ⟨.root, depth, initialDepth⟩).Provable chips component vk
      root := provable_batchRequest hdepth hpos hle hvalid
  obtain ⟨columns, hlength, hstarts, hroot⟩ := exists_rootBytes hsetup hdepth htop rfl hfuel
  rw [hbytes, Except.ok.injEq] at hroot
  have hcount : claims.length < frModulus := by
    have hpow : 2 ^ depth ≤ 2 ^ 31 := Nat.pow_le_pow_right (by decide) hdepth
    have hfield := pow_128_lt_frModulus
    omega
  constructor
  · intro heq
    rw [hroot] at heq
    have hwords := (params.fulfill sender).words_lt_of_packed_eq heq
    have hroot_lt : root < frModulus := by
      have hword := hwords (params.fulfill sender).root (by
        simp [WorldcoinAggregationV1.DistributeGrants.words])
      rw [V1ClaimParams.new_eq hsetup.root_lt hvalid, Except.ok.injEq] at hparams
      rw [V1ClaimParams.fulfill, ← hparams] at hword
      simpa only [BitVec.toNat_ofNat, Nat.mod_eq_of_lt hsetup.root_lt] using hword
    -- `32 * (4 + 3 * n)` bytes are packed and `32 * (4 + 3 * 2 ^ depth)` are hashed
    have hlen := congrArg List.length heq
    rw [packed_fulfill hroot_lt hcount hvalid hparams sender,
      (wordsOf_canonicalWords _).length_flatten, (wordsOf_canonicalWords _).length_flatten,
      WorldcoinRootAggregationInput.length_outputOf hlength,
      WorldcoinRootAggregationInput.length_outputOf (Columns.hasLength_ofClaims _),
      List.length_map] at hlen
    exact ⟨by omega, hroot_lt⟩
  · rintro ⟨hfull, hroot_lt⟩
    have hpacked := packed_fulfill hroot_lt hcount hvalid hparams sender
    have hinputs : ((batchRequest root claims ⟨.root, depth, initialDepth⟩).inputs
        component).length = 2 ^ depth := by
      rw [RecursiveRequest.inputs, List.length_map, ← hfull]
      rfl
    rw [hpacked, hroot, hstarts.eq hlength hinputs]
    rfl

/-- The contract packs what the root circuit hashes exactly for full batches under a root that is a
field element. Only these pass the check of the output hash, unless the hashes of the two strings
collide. -/
theorem packed_eq_rootBytes_iff (chips : Chips) (component : Groth16Component) (vk : VkNative)
    (circuitIds : NodeParams → Option String) (root : ℕ) (claims : List ClaimNative)
    (round depth initialDepth fuel : ℕ) (proof bytes : List UInt8) (params : V1ClaimParams)
    (sender : Address)
    (hsetup : ProvingSetup chips component vk circuitIds root round depth initialDepth)
    (hpos : 1 ≤ claims.length) (hle : claims.length ≤ 2 ^ depth)
    (hvalid : ∀ claim ∈ claims, claim.Valid chips component vk root)
    (hfuel : depth - initialDepth ≤ fuel)
    (hbytes : rootBytes chips component vk circuitIds fuel
      (batchRequest root claims ⟨.root, depth, initialDepth⟩) = .ok bytes)
    (hparams : V1ClaimParams.new (honestVkeyHash chips component vk) root claims proof =
      .ok params) :
    ((params.fulfill sender).packed = bytes ↔
      claims.length = 2 ^ depth ∧ root < frModulus) ∧
    ((params.fulfill sender).Carries chips.keccak256 bytes →
      Set.InjOn chips.keccak256 {(params.fulfill sender).packed, bytes} →
      ((params.fulfill sender).outputHash = chips.keccak256 (params.fulfill sender).packed ↔
        claims.length = 2 ^ depth ∧ root < frModulus)) := by
  have hiff := packed_eq_iff_full hsetup hpos hle hvalid hfuel hbytes hparams sender
  refine ⟨hiff, fun hcarries hinj => ?_⟩
  rw [hcarries.outputHash_eq, ← hiff]
  constructor
  · exact fun hhash => hinj (.inl rfl) (.inr rfl) hhash.symm
  · exact fun heq => congrArg chips.keccak256 heq.symm

/-- A batch of sole claims is hashed by a root of depth 1, and the contract can be called for it. -/
theorem exists_soleBytes {claims : List ClaimNative} (hpos : 1 ≤ claims.length)
    (hle : claims.length ≤ 2 ^ 1)
    (hvalid : ∀ claim ∈ claims, claim.Valid soleChips soleComponent soleVk 7) :
    ∃ bytes params, rootBytes soleChips soleComponent soleVk (fun _ => some "") 1
        (batchRequest 7 claims ⟨.root, 1, 0⟩) = .ok bytes ∧
      V1ClaimParams.new (honestVkeyHash soleChips soleComponent soleVk) 7 claims [] =
        .ok params := by
  have htop : (batchRequest 7 claims ⟨.root, 1, 0⟩).Provable soleChips soleComponent soleVk 7 :=
    provable_batchRequest (by decide) hpos hle hvalid
  obtain ⟨columns, -, -, hbytes⟩ := exists_rootBytes provingSetup_sole (by decide) htop rfl le_rfl
  exact ⟨_, _, hbytes, V1ClaimParams.new_eq (by decide) hvalid _ _⟩

/-- Two sole claims fill a batch of depth 1. -/
theorem packed_eq_rootBytes_pair : ∃ bytes params,
    rootBytes soleChips soleComponent soleVk (fun _ => some "") 1
      (batchRequest 7 [soleNative, soleNative] ⟨.root, 1, 0⟩) = .ok bytes ∧
    V1ClaimParams.new (honestVkeyHash soleChips soleComponent soleVk) 7 [soleNative, soleNative]
      [] = .ok params ∧ (params.fulfill 0).packed = bytes := by
  have hsole : soleNative.Valid soleChips soleComponent soleVk 7 := valid_soleNative 8
  have hvalid : ∀ claim ∈ [soleNative, soleNative],
      claim.Valid soleChips soleComponent soleVk 7 := by
    simpa using hsole
  obtain ⟨bytes, params, hbytes, hparams⟩ := exists_soleBytes (by decide) (by decide) hvalid
  obtain ⟨hiff, -⟩ := packed_eq_rootBytes_iff soleChips soleComponent soleVk (fun _ => some "") 7
    [soleNative, soleNative] 0 1 0 1 [] bytes params 0 provingSetup_sole (by decide) (by decide)
    hvalid le_rfl hbytes hparams
  exact ⟨bytes, params, hbytes, hparams, hiff.mpr ⟨rfl, by decide⟩⟩

/-- A single claim in a batch of depth 1 is hashed with the slot next to it, which the contract does
not pack. -/
theorem not_packed_eq_rootBytes_single : ∃ bytes params,
    rootBytes soleChips soleComponent soleVk (fun _ => some "") 1
      (batchRequest 7 [soleNative] ⟨.root, 1, 0⟩) = .ok bytes ∧
    V1ClaimParams.new (honestVkeyHash soleChips soleComponent soleVk) 7 [soleNative] [] =
      .ok params ∧ (params.fulfill 0).packed ≠ bytes := by
  have hsole : soleNative.Valid soleChips soleComponent soleVk 7 := valid_soleNative 8
  have hvalid : ∀ claim ∈ [soleNative], claim.Valid soleChips soleComponent soleVk 7 := by
    simpa using hsole
  obtain ⟨bytes, params, hbytes, hparams⟩ := exists_soleBytes (by decide) (by decide) hvalid
  have hiff := packed_eq_iff_full provingSetup_sole (by decide) (by decide) hvalid le_rfl hbytes
    hparams 0
  exact ⟨bytes, params, hbytes, hparams, fun heq => absurd (hiff.mp heq).1 (by decide)⟩

end WorldcoinAggregation
