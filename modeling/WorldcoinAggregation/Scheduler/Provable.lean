import WorldcoinAggregation.Scheduler.CircuitFactory
import WorldcoinAggregation.Scheduler.TreeWalk

/-!
# Provable requests

A request is `Provable` when its claims have valid Groth16 proofs and its bounds are far from an
overflow. The parts of a provable request are provable, and a leaf circuit proves one that fits
into a leaf (`leaf_provenBy`).
-/

namespace WorldcoinAggregation

open Synthesis Fallible

variable (version : Version) (chips : Chips) (component : Groth16Component) (vk : VkNative)
  (circuitIds : NodeParams → Option String) (root : ℕ)

/-- The scheduler over honest provers. -/
def honestScheduler : LocalScheduler InstanceSnark (List Fr) where
  state := provingServerState version chips component
  circuitIdRepo := circuitIds
  vk := vk

/-- The hash of the verifying key that honest provers expose. -/
def honestVkHash : HiLo Fr :=
  vkHashOf chips.keccak256 (canonicalWords (component.parseVk vk))

/-- What proving below this wrapper needs: joins above the leaves, range checks that admit all
numbers of claims, a verifying key of field elements, a root that fits into a word, and circuit ids
for the nodes of keygen. -/
structure ProvingSetup (round depth initialDepth : ℕ) : Prop where
  initialDepth_lt : initialDepth < depth
  rangeAdmits : ∀ k, initialDepth ≤ k → k < depth → RangeAdmits chips.lookupBits k (2 ^ (k + 1))
  vk_length : (component.parseVk vk).length = numFeHiloVkey
  root_lt : root < 2 ^ 256
  circuitId : ∀ p, NodeParams.KeygenChain ⟨.evm round, depth, initialDepth⟩ p →
    ∃ circuitId, circuitIds p = some circuitId

/-- A request below a supported depth whose claims are valid. -/
structure RecursiveRequest.Provable (req : RecursiveRequest) : Prop where
  wellFormed : req.WellFormed
  end_le : req.end_ ≤ 2 ^ 31
  root_eq : req.root = root
  valid : ∀ claim ∈ req.claims, claim.Valid chips component vk root

/-- The claims of a request as the circuits see them. -/
def RecursiveRequest.inputs (req : RecursiveRequest) : List ClaimInput :=
  req.claims.map (ClaimNative.input component)

/-- The shared instances of a circuit for a request. -/
def RecursiveRequest.shared (req : RecursiveRequest) : SharedInstances where
  start := req.start
  end_ := req.end_
  vkHash := honestVkHash chips component vk
  root := req.root

/-- The number of accumulator elements of circuits of this depth below the root. -/
def accumulatorAt (depth initialDepth : ℕ) : ℕ :=
  if depth = initialDepth then 0 else numFeAccumulator

/-- The snark of a request below the root. -/
structure ProvenBy (req : RecursiveRequest) (snark : InstanceSnark) : Prop where
  describes : Describes version chips req.params.depth (req.shared chips component vk)
    (req.inputs component) snark.instances
  accumulator : snark.numAccumulator = accumulatorAt req.params.depth req.params.initialDepth

/-- The snarks of the dependencies of a join, padded to two, satisfy the constraints on the
intervals that the join imposes. -/
def JoinSatisfied (fuel : ℕ) (req : RecursiveRequest) : Prop :=
  ∃ snarks snark0 snark1 len out,
    (honestScheduler version chips component vk circuitIds).getSnarksForDeps fuel req =
      .ok snarks ∧
    padSnarks snarks = .ok [snark0, snark1] ∧
    version.getNumInstance (req.params.depth - 1) = some len ∧
    output (checkAndJoinSharedInstances chips.lookupBits snark0.instances snark1.instances
      ((req.end_ - req.start : ℕ) : Fr) req.params.depth len) .honest = some out

variable {version chips component vk circuitIds root}
variable {req : RecursiveRequest} {c : NodeParams} {round depth initialDepth k fuel : ℕ}

/-! ## Requests -/

/-- A number below the field order survives the conversion. -/
theorem RecursiveRequest.Provable.val_natCast {n : ℕ}
    (h : req.Provable chips component vk root) (hle : n ≤ req.end_) : (n : Fr).val = n := by
  have hend := h.end_le
  have hfield := pow_128_lt_frModulus
  exact Fr.val_natCast (by omega)

/-- The shared instances of a provable request cover its claims. -/
theorem RecursiveRequest.Provable.covers (h : req.Provable chips component vk root) :
    (req.shared chips component vk).Covers (req.inputs component).length := by
  have hlt := h.wellFormed.start_lt
  have hlength := h.wellFormed.length_claims
  have hend := h.end_le
  have hinputs : (req.inputs component).length = req.end_ - req.start := by
    rw [RecursiveRequest.inputs, List.length_map, hlength]
  refine ⟨?_, ?_, by omega⟩
  · rw [RecursiveRequest.shared, h.val_natCast hlt.le, h.val_natCast le_rfl, hinputs]
    omega
  · rw [RecursiveRequest.shared, h.val_natCast le_rfl]
    omega

/-- A part of a provable request is provable. -/
theorem RecursiveRequest.Provable.part (h : req.Provable chips component vk root) {i : ℕ}
    (hi : i ∈ stepBy req.start req.end_ (2 ^ c.depth)) :
    (req.part c i).Provable chips component vk root where
  wellFormed := h.wellFormed.part hi
  end_le := (Nat.min_le_left _ _).trans h.end_le
  root_eq := h.root_eq
  valid claim hmem := by
    simp only [RecursiveRequest.part, List.extract_eq_take_drop] at hmem
    exact h.valid claim (List.mem_of_mem_drop (List.mem_of_mem_take hmem))

/-- The parts of a provable request end within 32 bits. -/
theorem RecursiveRequest.Provable.partsEnd_lt (h : req.Provable chips component vk root)
    {childDepth : ℕ} (hdepth : childDepth < 32) : req.partsEnd childDepth < 2 ^ 32 := by
  obtain ⟨i, hi, hend⟩ := RecursiveRequest.exists_partsEnd childDepth h.wellFormed.start_lt
  obtain ⟨_, -, hlt⟩ := (mem_stepBy (Nat.two_pow_pos _)).mp hi
  have hle := h.end_le
  have hpow : 2 ^ childDepth ≤ 2 ^ 31 := Nat.pow_le_pow_right (by omega) (by omega)
  omega

/-- The dependencies of a provable request above the initial depth are its parts. -/
theorem RecursiveRequest.Provable.dependencies (h : req.Provable chips component vk root)
    (hdepth : req.params.initialDepth < req.params.depth) (h32 : req.params.depth < 32)
    (hchild : req.params.child = .ok (some c)) (hle : c.depth ≤ req.params.depth) :
    req.dependencies = .ok ((stepBy req.start req.end_ (2 ^ c.depth)).map (req.part c)) :=
  (RecursiveRequest.dependencies_eq_ok h.wellFormed hdepth.ne' hchild hle).mpr
    ⟨⟨h32, h.partsEnd_lt (by omega)⟩, rfl⟩

/-! ## Leaves -/

/-- The witness of a leaf for a provable request. -/
def leafWitness (component : Groth16Component) (vk : VkNative) (req : RecursiveRequest)
    (first : ClaimInput) : WorldcoinLeafInput where
  start := req.start
  end_ := req.end_
  vkBytes := component.parseVk vk
  root := req.root
  claims := resize (req.inputs component) (2 ^ req.params.depth) first
  numPublicInputs := ((maxGroth16Pi + 1 : ℕ) : Fr)
  maxDepth := req.params.depth

/-- A list that is filled up has the new length. -/
theorem length_resize {α : Type} {xs : List α} {len : ℕ} {fill : α} (h : xs.length ≤ len) :
    (resize xs len fill).length = len := by
  simp only [resize, List.length_append, List.length_take, List.length_replicate]
  omega

/-- A list that is filled up begins with its elements. -/
theorem prefix_resize {α : Type} {xs : List α} {len : ℕ} {fill : α} (h : xs.length ≤ len) :
    xs <+: resize xs len fill := by
  rw [resize, List.take_of_length_le h]
  exact List.prefix_append _ _

/-- Filling up adds copies. -/
theorem mem_resize {α : Type} {xs : List α} {len : ℕ} {fill x : α} (h : x ∈ resize xs len fill) :
    x ∈ xs ∨ x = fill := by
  rcases List.mem_append.mp h with h | h
  · exact .inl (List.mem_of_mem_take h)
  · exact .inr (List.eq_of_mem_replicate h)

/-- A provable request has a first claim, which fills up its leaf. -/
theorem RecursiveRequest.Provable.exists_first (h : req.Provable chips component vk root) :
    ∃ first, (req.inputs component).head? = some first ∧ first ∈ req.inputs component := by
  have hlt := h.wellFormed.start_lt
  have hlength := h.wellFormed.length_claims
  have hinputs : (req.inputs component).length = req.claims.length := List.length_map _
  cases hlist : req.inputs component with
  | nil =>
      rw [hlist, List.length_nil] at hinputs
      omega
  | cons first rest => exact ⟨first, rfl, List.mem_cons_self⟩

/-- The circuit that is built for a leaf request. -/
theorem build_leaf (h : req.Provable chips component vk root) (hroot : root < 2 ^ 256)
    (h32 : req.params.depth < 32) {first : ClaimInput}
    (hfirst : (req.inputs component).head? = some first) :
    WorldcoinRequestLeaf.build version chips component
        ⟨req.start, req.end_, req.params.depth, vk, req.root, req.claims⟩ =
      .ok (version.leafCircuit chips (leafWitness component vk req first)) := by
  have hlt := h.wellFormed.start_lt
  have hlength := h.wellFormed.length_claims
  have hle := h.wellFormed.length_le
  have hconverted : req.claims.mapM (claimInput component) = .ok (req.inputs component) :=
    mapM_of_forall fun claim hclaim => claimInput_eq (h.valid claim hclaim)
  have hfield : biguintToFe req.root = .ok req.root := biguintToFe_eq (h.root_eq ▸ hroot)
  have hnew : WorldcoinLeafInput.new component vk req.root req.start req.end_ req.params.depth
      req.claims = .ok (leafWitness component vk req first) := by
    simp only [WorldcoinLeafInput.new, bind_eq_ok, checkedSub_eq_ok, assert_eq_ok,
      checkedShl_eq_ok, hconverted, hfield, unwrap_eq_ok, Except.ok.injEq]
    exact ⟨_, ⟨hlt.le, rfl⟩, (), hlength, (), by omega, _, ⟨by omega, rfl⟩, _, rfl, first, hfirst,
      _, rfl, rfl⟩
  have hsub : checkedSub req.end_ req.start = .ok (req.end_ - req.start) :=
    checkedSub_eq_ok.mpr ⟨hlt.le, rfl⟩
  have hshl : checkedShl 32 req.params.depth = .ok (2 ^ req.params.depth) :=
    checkedShl_eq_ok.mpr ⟨h32, rfl⟩
  have hrange : ¬ req.end_ ≤ req.start := by omega
  have hcount : ¬ 2 ^ req.params.depth < req.end_ - req.start := by omega
  simp only [WorldcoinRequestLeaf.build, if_neg hrange, hsub, hshl, bind, Except.bind,
    if_neg hcount, hnew]
  rfl

/-- Every claim of the leaf, copies included, is a claim of the request. -/
theorem exists_native {first claim : ClaimInput} (hmem : first ∈ req.inputs component)
    (hclaim : claim ∈ (leafWitness component vk req first).claims) :
    ∃ native ∈ req.claims, native.input component = claim := by
  have hinput : claim ∈ req.inputs component := by
    rcases mem_resize hclaim with hclaim | rfl
    · exact hclaim
    · exact hmem
  exact List.mem_map.mp hinput

/-- The leaf for a provable request meets its constraints. -/
theorem leafConstraints_leafWitness (h : req.Provable chips component vk root)
    (hvk : (component.parseVk vk).length = numFeHiloVkey) (h32 : req.params.depth < 32)
    {first : ClaimInput} (hmem : first ∈ req.inputs component) :
    LeafConstraints chips (leafWitness component vk req first) := by
  have hlt := h.wellFormed.start_lt
  have hlength := h.wellFormed.length_claims
  have hle := h.wellFormed.length_le
  have hend := h.end_le
  have hstartVal : (req.start : Fr).val = req.start := h.val_natCast hlt.le
  have hendVal : (req.end_ : Fr).val = req.end_ := h.val_natCast le_rfl
  refine ⟨?_, ?_, ?_, ?_, hvk, ?_⟩
  · simp only [leafWitness, hstartVal, hendVal, hlt]
  · simp only [leafWitness, hendVal]
    omega
  · simp only [leafWitness]
    omega
  · simp only [leafWitness, hstartVal, hendVal]
    omega
  · intro claim hclaim
    obtain ⟨native, hnative, rfl⟩ := exists_native hmem hclaim
    have haccepted := (h.valid native hnative).accepted
    rwa [← h.root_eq] at haccepted

/-- The prover of leaves proves a provable request. -/
theorem leaf_provenBy (h : req.Provable chips component vk root)
    (hroot : root < 2 ^ 256) (hvk : (component.parseVk vk).length = numFeHiloVkey)
    (hdepth : req.params.depth = req.params.initialDepth) (h32 : req.params.depth < 32)
    (circuitId : String) :
    ∃ snark, (provingServerState version chips component).getSnark circuitId
        (.leaf ⟨req.start, req.end_, req.params.depth, vk, req.root, req.claims⟩) = .ok snark ∧
      ProvenBy version chips component vk req snark := by
  obtain ⟨first, hfirst, hmem⟩ := h.exists_first
  have hlength := h.wellFormed.length_claims
  have hinputs : (req.inputs component).length = req.claims.length := List.length_map _
  have hle : (req.inputs component).length ≤ 2 ^ req.params.depth :=
    hinputs.trans_le h.wellFormed.length_le
  have hcount : (req.inputs component).length =
      (leafWitness component vk req first).end_.val -
        (leafWitness component vk req first).start.val := by
    simp only [leafWitness, h.val_natCast h.wellFormed.start_lt.le, h.val_natCast le_rfl]
    rw [hinputs, hlength]
  have hreceivers : ∀ claim ∈ (leafWitness component vk req first).claims,
      claim.receiver.val < 256 ^ 20 := by
    intro claim hclaim
    obtain ⟨native, -, rfl⟩ := exists_native hmem hclaim
    exact val_receiver_lt native
  obtain ⟨out, hhonest, hdescribes⟩ := leaf_describes version
    (leafConstraints_leafWitness h hvk h32 hmem) (length_resize hle) (prefix_resize hle) hcount
    hreceivers
  refine ⟨⟨0, out⟩, ?_, hdescribes, ?_⟩
  · simp only [provingServerState, build_leaf h hroot h32 hfirst, proveCircuit, hhonest.output,
      bind, Except.bind, pure, Except.pure]
  · rw [accumulatorAt, if_pos hdepth]

end WorldcoinAggregation
