import WorldcoinAggregation.Circuit.Completeness
import WorldcoinAggregation.Scheduler.Recursion

/-!
# Building circuits from requests

A prover turns the request for a node into the witness of its circuit and proves that circuit with
the values it computes. Of a snark only what later circuits read is kept: its instances, and how
many accumulator elements stand in front of them.
-/

namespace WorldcoinAggregation

open Synthesis Fallible

/-- The coordinates of a Groth16 proof. -/
structure Groth16Proof where
  piA : List ℕ
  piB : List (List ℕ)
  piC : List ℕ

/-- How the Groth16 component turns its inputs into field elements. -/
structure Groth16Component where
  parseVk : VkNative → List Fr
  parseProof : Groth16Proof → List Fr

/-- A snark as later circuits see it. -/
structure InstanceSnark where
  numAccumulator : ℕ
  instances : List Fr

/-- The number of field elements of an accumulator. -/
def numFeAccumulator : ℕ := 12

/-- The witness of an aggregation circuit. -/
structure AggregationInput where
  snarks : List InstanceSnark
  numProofs : ℕ
  maxDepth : ℕ
  initialDepth : ℕ

/-! ## Leaves -/

/-- The coordinates of a proof in the order of the component. -/
def pfOf (proof : List ℕ) : Groth16Proof :=
  let p (i : ℕ) : ℕ := proof.getD i 0
  { piA := [p 0, p 1, 1], piB := [[p 3, p 2], [p 5, p 4], [1, 0]], piC := [p 6, p 7, 1] }

/-- The coordinates of a proof, which must all be there. -/
def getPfString (proof : List ℕ) : Fallible Groth16Proof := do
  assert (8 ≤ proof.length)
  return pfOf proof

/-- A number as a field element; one that is not below the field order panics. -/
def feFromBig (n : ℕ) : Fallible Fr :=
  if n < frModulus then .ok n else .error .panicked

/-- A number as a field element, reduced if it fits into four limbs of 64 bits; others panic. -/
def biguintToFe (n : ℕ) : Fallible Fr :=
  if n < 2 ^ 256 then .ok n else .error .panicked

/-- An address as a field element. -/
def encodeAddrToField (address : BitVec 160) : Fr :=
  address.toNat

/-- A claim as the circuits see it. -/
def claimInput (component : Groth16Component) (claim : ClaimNative) : Fallible ClaimInput := do
  let proofBytes := component.parseProof (← getPfString claim.proof)
  let nullifierHash ← feFromBig claim.nullifierHash
  let receiver := encodeAddrToField claim.receiver
  let grantId ← feFromBig claim.grantId
  return { receiver, nullifierHash, grantId, proofBytes }

/-- The witness of a leaf. Its claims are filled up with copies of the first. -/
def WorldcoinLeafInput.new (component : Groth16Component) (vk : VkNative) (root start end_ : ℕ)
    (maxDepth : ℕ) (claims : List ClaimNative) : Fallible WorldcoinLeafInput := do
  let numProofs ← checkedSub end_ start
  assert (claims.length = numProofs)
  assert (0 < numProofs)
  let maxProofs ← checkedShl 64 maxDepth
  let vkBytes := component.parseVk vk
  let claimsInput ← claims.mapM (claimInput component)
  let first ← unwrap claimsInput.head?
  let root ← biguintToFe root
  return {
    start := start, end_ := end_, vkBytes, root, claims := resize claimsInput maxProofs first,
    numPublicInputs := ((maxGroth16Pi + 1 : ℕ) : Fr), maxDepth }

/-- The circuit of a leaf request. -/
def WorldcoinRequestLeaf.build (version : Version) (chips : Chips) (component : Groth16Component)
    (req : WorldcoinRequestLeaf) : Fallible (Circuit (List Fr)) := do
  if req.end_ ≤ req.start then
    throw (.error s!"Invalid index range: [{req.start}, {req.end_}]")
  let numProofs ← checkedSub req.end_ req.start
  let maxProofs ← checkedShl 32 req.depth
  if maxProofs < numProofs then
    throw (.error s!"Number of proofs {numProofs} is too large for depth {req.depth}")
  let input ← WorldcoinLeafInput.new component req.vk req.root req.start req.end_ req.depth
    req.claims
  return version.leafCircuit chips input

/-! ## Aggregation -/

/-- Leaves have no accumulators, and all other circuits have them. -/
def checkAccumulators (leafName joinName : String) (snarks : List InstanceSnark)
    (maxDepth initialDepth : ℕ) : Fallible Unit := do
  if maxDepth = initialDepth + 1 ∧ ∃ snark ∈ snarks, snark.numAccumulator ≠ 0 then
    throw (.error (s!"Snarks to be aggregated must not have accumulators: they should come from " ++
      leafName))
  if initialDepth + 1 < maxDepth ∧ ∃ snark ∈ snarks, snark.numAccumulator ≠ numFeAccumulator then
    throw (.error (s!"Snarks to be aggregated must all be " ++ joinName))

/-- The witness of a V1 aggregation circuit. -/
def WorldcoinIntermediateAggregationInput.new (snarks : List InstanceSnark)
    (numProofs maxDepth initialDepth : ℕ) : Fallible AggregationInput := do
  assert (numProofs ≠ 0)
  assert (snarks.length = 2)
  assert (initialDepth < maxDepth)
  assert (numProofs ≤ (← checkedShl 32 maxDepth))
  return ⟨snarks, numProofs, maxDepth, initialDepth⟩

/-- The witness of a V1 root circuit. -/
def WorldcoinRootAggregationInput.new (snarks : List InstanceSnark)
    (numProofs maxDepth initialDepth : ℕ) : Fallible AggregationInput := do
  checkAccumulators "WorldcoinLeafCircuit" "WorldcoinIntermediateAggregationCircuit" snarks
    maxDepth initialDepth
  WorldcoinIntermediateAggregationInput.new snarks numProofs maxDepth initialDepth

/-- The witness of a V2 aggregation circuit, or of a V2 root circuit. -/
def WorldcoinIntermediateAggregationInputV2.new (snarks : List InstanceSnark)
    (numProofs maxDepth initialDepth : ℕ) : Fallible AggregationInput := do
  checkAccumulators "WorldcoinLeafCircuitV2" "WorldcoinIntermediateAggregationCircuitV2" snarks
    maxDepth initialDepth
  return ⟨snarks, numProofs, maxDepth, initialDepth⟩

/-- A circuit over the instances of exactly two snarks. -/
def AggregationInput.circuit (input : AggregationInput)
    (circuit : List Fr → List Fr → Fr → ℕ → Circuit (List Fr)) : Fallible (Circuit (List Fr)) :=
  match input.snarks with
  | [snark0, snark1] =>
      return circuit snark0.instances snark1.instances input.numProofs input.maxDepth
  | _ => throw .panicked

/-- The circuit of an intermediate request. -/
def WorldcoinRequestIntermediate.build (version : Version) (chips : Chips)
    (req : WorldcoinRequestIntermediate InstanceSnark) : Fallible (Circuit (List Fr)) := do
  let numProofs ← checkedSub req.end_ req.start
  match version with
  | .v1 => do
      let input ← WorldcoinIntermediateAggregationInput.new req.snarks numProofs req.depth
        req.initialDepth
      checkAccumulators "WorldcoinLeafCircuit" "WorldcoinIntermediateAggregationCircuits"
        req.snarks req.depth req.initialDepth
      input.circuit (version.joinCircuit chips)
  | .v2 => do
      let input ← WorldcoinIntermediateAggregationInputV2.new req.snarks numProofs req.depth
        req.initialDepth
      input.circuit (version.joinCircuit chips)

/-- The witness of a root request. -/
def WorldcoinRequestRoot.input (version : Version) (req : WorldcoinRequestRoot InstanceSnark) :
    Fallible AggregationInput := do
  if req.end_ < req.start then
    throw (.error s!"Invalid index range: [{req.start}, {req.end_}]")
  let numProofs ← checkedSub req.end_ req.start
  let maxProofs ← checkedShl 32 req.depth
  if maxProofs < numProofs then
    throw (.error s!"Number of proofs {numProofs} is too large for depth {req.depth}")
  match version with
  | .v1 => WorldcoinRootAggregationInput.new req.snarks numProofs req.depth req.initialDepth
  | .v2 =>
      WorldcoinIntermediateAggregationInputV2.new req.snarks numProofs req.depth req.initialDepth

/-- The circuit of a root request. -/
def WorldcoinRequestRoot.build (version : Version) (chips : Chips)
    (req : WorldcoinRequestRoot InstanceSnark) : Fallible (Circuit (List Fr)) := do
  (← WorldcoinRequestRoot.input version req).circuit (version.rootCircuit chips)

/-! ## Proving -/

/-- The instances of a circuit that the computed values satisfy. -/
def proveCircuit (circuit : Circuit (List Fr)) : Fallible (List Fr) :=
  match output circuit .honest with
  | some instances => return instances
  | none => throw .unsatisfied

variable (version : Version) (chips : Chips) (component : Groth16Component)

/-- A prover for single circuits. A wrapper passes the instances of its snark through. -/
def provingServerState : ProvingServerState InstanceSnark (List Fr) where
  getSnark _ request :=
    match request with
    | .leaf req => do return ⟨0, ← proveCircuit (← req.build version chips component)⟩
    | .intermediate req => do return ⟨numFeAccumulator, ← proveCircuit (← req.build version chips)⟩
    | .root req => do
        return ⟨numFeAccumulator, ← proveCircuit (← WorldcoinRequestRoot.build version chips req)⟩
    -- a wrapper of another round exposes the same instances
    | .evm req => return ⟨numFeAccumulator, req.snark.instances⟩
  getEvmProof _ req := return req.snark.instances

/-! ## What is built -/

variable {version chips component}

/-- What the circuits see of a claim. -/
def ClaimNative.input (component : Groth16Component) (claim : ClaimNative) : ClaimInput where
  receiver := encodeAddrToField claim.receiver
  nullifierHash := claim.nullifierHash
  grantId := claim.grantId
  proofBytes := component.parseProof (pfOf claim.proof)

/-- A claim of field elements with an accepted Groth16 proof. -/
structure ClaimNative.Valid (chips : Chips) (component : Groth16Component) (vk : VkNative)
    (root : ℕ) (claim : ClaimNative) : Prop where
  proof_length : 8 ≤ claim.proof.length
  nullifier_lt : claim.nullifierHash < frModulus
  grant_lt : claim.grantId < frModulus
  accepted : (claim.input component).Accepted chips (component.parseVk vk)
    ((maxGroth16Pi + 1 : ℕ) : Fr) root

/-- A number of four limbs is converted. -/
theorem biguintToFe_eq {n : ℕ} (h : n < 2 ^ 256) : biguintToFe n = .ok n :=
  if_pos h

/-- The numbers of a claim are those that the leaf circuits can read. -/
structure ClaimNative.Converts (claim : ClaimNative) : Prop where
  proof_length : 8 ≤ claim.proof.length
  nullifier_lt : claim.nullifierHash < frModulus
  grant_lt : claim.grantId < frModulus

/-- When a claim is converted. -/
theorem claimInput_eq_ok {claim : ClaimNative} {input : ClaimInput} :
    claimInput component claim = .ok input ↔
      claim.Converts ∧ input = claim.input component := by
  simp only [claimInput, getPfString, feFromBig, bind_eq_ok, assert_eq_ok, pure_eq_ok]
  constructor
  · rintro ⟨_, ⟨_, hproof, rfl⟩, _, hnullifier, _, hgrant, rfl⟩
    split at hnullifier
    · split at hgrant
      · rename_i hnullifier_lt hgrant_lt
        cases hnullifier
        cases hgrant
        exact ⟨⟨hproof, hnullifier_lt, hgrant_lt⟩, rfl⟩
      · cases hgrant
    · cases hnullifier
  · rintro ⟨h, rfl⟩
    exact ⟨_, ⟨(), h.proof_length, rfl⟩, _, if_pos h.nullifier_lt, _, if_pos h.grant_lt, rfl⟩

/-- A valid claim is converted. -/
theorem claimInput_eq {vk : VkNative} {root : ℕ} {claim : ClaimNative}
    (h : claim.Valid chips component vk root) :
    claimInput component claim = .ok (claim.input component) :=
  claimInput_eq_ok.mpr ⟨⟨h.proof_length, h.nullifier_lt, h.grant_lt⟩, rfl⟩

/-- A receiver fits into 20 bytes. -/
theorem val_receiver_lt (claim : ClaimNative) :
    (claim.input component).receiver.val < 256 ^ 20 := by
  have hlt : claim.receiver.toNat < 256 ^ 20 := claim.receiver.isLt
  rw [ClaimNative.input, encodeAddrToField, Fr.val_natCast (hlt.trans pow_160_lt_frModulus)]
  exact hlt

end WorldcoinAggregation
