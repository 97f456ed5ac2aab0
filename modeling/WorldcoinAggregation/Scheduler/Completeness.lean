import WorldcoinAggregation.Circuit.ProofTree
import WorldcoinAggregation.Scheduler.Joins

/-!
# Every admissible batch is proven

By induction over the levels of the tree the scheduler proves every provable request below the
root (`provesBelow_of_setup`). The root and its wrappers follow, and with them whole batches.
-/

namespace WorldcoinAggregation

open Synthesis Fallible

variable {version : Version} {chips : Chips} {component : Groth16Component} {vk : VkNative}
  {circuitIds : NodeParams → Option String} {root : ℕ}
variable {req : RecursiveRequest} {c : NodeParams} {round depth initialDepth k fuel : ℕ}

/-! ## The recursion -/

/-- A request is proven when its snarks are collected, its circuit has an id and the prover of
single circuits succeeds. -/
theorem recursiveGenProof_eq {scheduler : LocalScheduler InstanceSnark (List Fr)}
    {snarks : List InstanceSnark} {request : RequestRouter InstanceSnark} {circuitId : String}
    {snark : InstanceSnark} (hsnarks : scheduler.getSnarksForDeps fuel req = .ok snarks)
    (hrequest : handleRecursiveRequest scheduler.vk snarks req = .ok request)
    (hid : scheduler.circuitIdRepo req.params = some circuitId)
    (hsnark : scheduler.state.getSnark circuitId request = .ok snark) :
    scheduler.recursiveGenProof (fuel + 1) req false = .ok (.snark snark) := by
  have hid' : scheduler.getCircuitId req = .ok circuitId := by
    rw [LocalScheduler.getCircuitId, hid]
    rfl
  have htask : scheduler.generateProof ⟨circuitId, false, request⟩ = .ok (.snark snark) := by
    simp only [LocalScheduler.generateProof, hsnark]
    rfl
  rw [LocalScheduler.recursiveGenProof_succ, hsnarks]
  simp only [bind, Except.bind, hrequest, hid', htask]

/-- Provable leaf requests are proven. -/
theorem provesBelow_leaf (hroot : root < 2 ^ 256)
    (hvk : (component.parseVk vk).length = numFeHiloVkey) (h32 : initialDepth < 32)
    {circuitId : String} (hid : circuitIds ⟨.leaf, initialDepth, initialDepth⟩ = some circuitId) :
    ProvesBelow version chips component vk circuitIds root (fuel + 1)
      ⟨.leaf, initialDepth, initialDepth⟩ := by
  intro req h hparams
  have hleaf : req.params.depth = req.params.initialDepth := by rw [hparams]
  have hdepth : req.params.depth < 32 := by rwa [hparams]
  rw [← hparams] at hid
  obtain ⟨snark, hsnark, hproven⟩ := leaf_provenBy h hroot hvk hleaf hdepth circuitId
  have hdeps := (RecursiveRequest.dependencies_initial h.wellFormed hleaf).mpr ⟨hdepth, rfl⟩
  exact ⟨snark, recursiveGenProof_eq (getSnarksForDeps_eq hdeps .nil)
    (handleRecursiveRequest_initial h.wellFormed hleaf hdepth []) hid hsnark, hproven⟩

/-- Provable intermediate requests are proven when those one level below are. -/
theorem provesBelow_intermediate (hk : k < version.maxDepth)
    (hrange : RangeAdmits chips.lookupBits k (2 ^ (k + 1))) (hinitial : initialDepth ≤ k)
    {circuitId : String} (hid : circuitIds ⟨.intermediate, k + 1, initialDepth⟩ = some circuitId)
    (ih : ProvesBelow version chips component vk circuitIds root fuel (.below k initialDepth)) :
    ProvesBelow version chips component vk circuitIds root (fuel + 1)
      ⟨.intermediate, k + 1, initialDepth⟩ := by
  intro req h hparams
  have hk31 := Version.lt_of_lt_maxDepth hk
  have htype : req.params.nodeType = .intermediate := by rw [hparams]
  have hdepth : req.params.depth = k + 1 := by rw [hparams]
  have hinitial' : req.params.initialDepth = initialDepth := by rw [hparams]
  have hne : req.params.depth ≠ req.params.initialDepth := by omega
  rw [← hinitial'] at hinitial ih
  obtain ⟨snark0, snark1, hjoin⟩ := exists_collectsJoin h hk hrange (.inl htype) hdepth hinitial ih
  obtain ⟨snarks, hsnarks, hpos, hpad⟩ := hjoin.collects
  obtain ⟨left, right, leftClaims, rightClaims, endIdx, is2ndProofDummy, hjoins, hshared,
    hclaims⟩ := hjoin.joins
  obtain ⟨out, hout, hdescribes⟩ := hjoins.join
  rw [hshared, hclaims, ← hdepth] at hdescribes
  rw [← hparams] at hid
  refine ⟨⟨numFeAccumulator, out⟩, recursiveGenProof_eq hsnarks
    (handleRecursiveRequest_intermediate hne htype hpos hpad) hid ?_, hdescribes, ?_⟩
  · simp only [honestScheduler, provingServerState,
      build_intermediate h hjoin hk31 hdepth hinitial, proveCircuit, hout.output, bind, Except.bind,
      pure, Except.pure]
  · rw [accumulatorAt, if_neg hne]

/-- Every provable request below the root is proven, given enough fuel for its level. -/
theorem provesBelow_of_setup (hsetup : ProvingSetup chips component vk circuitIds root round
    depth initialDepth) (hdepth : depth ≤ version.maxDepth) (hinitial : initialDepth ≤ k)
    (hk : k < depth) (hfuel : k - initialDepth < fuel) :
    ProvesBelow version chips component vk circuitIds root fuel (.below k initialDepth) := by
  obtain ⟨level, rfl⟩ := Nat.exists_eq_add_of_le hinitial
  induction level generalizing fuel with
  | zero =>
      obtain ⟨fuel, rfl⟩ : ∃ f, fuel = f + 1 := ⟨fuel - 1, by omega⟩
      have hk31 := Version.lt_of_lt_maxDepth (hk.trans_le hdepth)
      obtain ⟨circuitId, hid⟩ := hsetup.circuitId _ (NodeParams.keygenChain_below hinitial hk)
      simp only [Nat.add_zero, NodeParams.below, if_true] at hid ⊢
      exact provesBelow_leaf hsetup.root_lt hsetup.vk_length (by omega) hid
  -- the levels are proven from the leaves upwards, each with one more unit of fuel
  | succ level ih =>
      obtain ⟨fuel, rfl⟩ : ∃ f, fuel = f + 1 := ⟨fuel - 1, by omega⟩
      have hlevel : initialDepth + level < depth := by omega
      have hbelow : ProvesBelow version chips component vk circuitIds root fuel
          (.below (initialDepth + level) initialDepth) :=
        ih (Nat.le_add_right _ _) hlevel (by omega)
      obtain ⟨circuitId, hid⟩ := hsetup.circuitId _ (NodeParams.keygenChain_below hinitial hk)
      rw [NodeParams.below, if_neg (by omega), ← Nat.add_assoc] at hid
      rw [← Nat.add_assoc, NodeParams.below, if_neg (by omega)]
      exact provesBelow_intermediate (hlevel.trans_le hdepth)
        (hsetup.rangeAdmits _ (Nat.le_add_right _ _) hlevel) (Nat.le_add_right _ _) hid hbelow

/-- Above the initial depth a provable request collects snarks that join up to its claims. -/
theorem collectsJoin_of_setup (hsetup : ProvingSetup chips component vk circuitIds root round depth
    initialDepth) (hmax : depth ≤ version.maxDepth) (h : req.Provable chips component vk root)
    (htype : req.params.nodeType = .intermediate ∨ req.params.nodeType = .root)
    (hdepth : req.params.depth = k + 1) (hinitial : req.params.initialDepth = initialDepth)
    (hk : initialDepth ≤ k) (hkd : k < depth) (hfuel : k + 1 - initialDepth ≤ fuel) :
    ∃ snark0 snark1, CollectsJoin version chips component vk circuitIds fuel req k snark0
      snark1 := by
  have hbelow : ProvesBelow version chips component vk circuitIds root fuel
      (.below k req.params.initialDepth) := by
    rw [hinitial]
    exact provesBelow_of_setup hsetup hmax hk hkd (by omega)
  exact exists_collectsJoin h (hkd.trans_le hmax) (hsetup.rangeAdmits k hk hkd) htype hdepth
    (hinitial.trans_le hk) hbelow

/-- The root circuit of a provable request describes the batch. -/
theorem exists_rootSnark (hsetup : ProvingSetup chips component vk circuitIds root round depth
    initialDepth) (hmax : depth ≤ version.maxDepth) (h : req.Provable chips component vk root)
    (hparams : req.params = ⟨.root, depth, initialDepth⟩) (hfuel : depth - initialDepth ≤ fuel) :
    ∃ out, (honestScheduler version chips component vk circuitIds).recursiveGenProof (fuel + 1) req
        false = .ok (.snark ⟨numFeAccumulator, out⟩) ∧
      DescribesBatch version chips depth (honestVkHash chips component vk) root
        (req.inputs component) out := by
  have hlt := hsetup.initialDepth_lt
  obtain ⟨k, rfl⟩ : ∃ k, depth = k + 1 := ⟨depth - 1, by omega⟩
  have hk31 := Version.lt_of_lt_maxDepth (Nat.lt_of_succ_le hmax)
  have htype : req.params.nodeType = .root := by rw [hparams]
  have hdepth : req.params.depth = k + 1 := by rw [hparams]
  have hinitial' : req.params.initialDepth = initialDepth := by rw [hparams]
  have hinitial : req.params.initialDepth ≤ k := by omega
  have hne : req.params.depth ≠ req.params.initialDepth := by omega
  obtain ⟨snark0, snark1, hjoin⟩ := collectsJoin_of_setup hsetup hmax h (.inr htype) hdepth
    hinitial' (by omega) (Nat.lt_succ_self k) hfuel
  obtain ⟨snarks, hsnarks, hpos, hpad⟩ := hjoin.collects
  obtain ⟨left, right, leftClaims, rightClaims, endIdx, is2ndProofDummy, hjoins, hshared,
    hclaims⟩ := hjoin.joins
  obtain ⟨out, hout, hdescribes⟩ := hjoins.root
  have hvkHash : left.vkHash = honestVkHash chips component vk :=
    congrArg SharedInstances.vkHash hshared
  have hroot : left.root = (req.root : Fr) := congrArg SharedInstances.root hshared
  rw [hclaims, hvkHash, hroot, h.root_eq] at hdescribes
  obtain ⟨circuitId, hid⟩ := hsetup.circuitId _ (NodeParams.keygenChain_root hlt)
  rw [← hparams] at hid
  refine ⟨out,
    recursiveGenProof_eq hsnarks (handleRecursiveRequest_root hne htype hpos hpad) hid ?_,
    hdescribes⟩
  simp only [honestScheduler, provingServerState, WorldcoinRequestRoot.build,
    input_root h hjoin hk31 hdepth hinitial, AggregationInput.circuit, proveCircuit, hout.output,
    bind, Except.bind, pure, Except.pure]

/-- A wrapper request depends on the same request one step further down the chain. -/
theorem dependencies_evm (h : req.Provable chips component vk root) {j : ℕ}
    (hparams : req.params = ⟨.evm j, depth, initialDepth⟩) (hlt : initialDepth < depth)
    (h32 : depth < 32) (hchild : NodeParams.child ⟨.evm j, depth, initialDepth⟩ = .ok (some c))
    (hc : c.depth = depth) : req.dependencies = .ok [{ req with params := c }] ∧
      RecursiveRequest.Provable chips component vk root { req with params := c } := by
  have hdepth : req.params.depth = depth := by rw [hparams]
  have hcount : req.end_ - req.start ≤ 2 ^ c.depth := by
    rw [hc, ← hdepth]
    exact h.count.2
  have hsteps := stepBy_one h.wellFormed.start_lt hcount
  have hself := RecursiveRequest.part_self h.wellFormed hcount
  have hpart := h.part (c := c) (i := req.start) (by rw [hsteps]; exact List.mem_singleton_self _)
  have hdeps := h.dependencies (c := c) (by rwa [hparams]) (by rwa [hparams]) (by rwa [hparams])
    (by rw [hc, hdepth])
  rw [hsteps, List.map_singleton, hself] at hdeps
  rw [hself] at hpart
  exact ⟨hdeps, hpart⟩

/-- A wrapper passes on the snark of its dependency. -/
theorem recursiveGenProof_evm (hsetup : ProvingSetup chips component vk circuitIds root round
    depth initialDepth) {j : ℕ} (hparams : req.params = ⟨.evm j, depth, initialDepth⟩)
    (hj : j ≤ round)
    (hdeps : req.dependencies = .ok [{ req with params := c }]) {snark : InstanceSnark}
    (hsnark : (honestScheduler version chips component vk circuitIds).recursiveGenProof fuel
      { req with params := c } false = .ok (.snark snark)) (isEvmProof : Bool) :
    (honestScheduler version chips component vk circuitIds).recursiveGenProof (fuel + 1) req
        isEvmProof =
      .ok (if isEvmProof then .evmProof snark.instances
        else .snark ⟨numFeAccumulator, snark.instances⟩) := by
  have hlt := hsetup.initialDepth_lt
  have hne : req.params.depth ≠ req.params.initialDepth := by
    rw [hparams]
    exact hlt.ne'
  have htype : req.params.nodeType = .evm j := by rw [hparams]
  have hrequest : handleRecursiveRequest vk [snark] req = .ok (.evm
      ⟨req.start, req.end_, req.params.depth, req.params.initialDepth, j, snark⟩) :=
    handleRecursiveRequest_evm hne htype
  obtain ⟨circuitId, hid⟩ := hsetup.circuitId _ (NodeParams.keygenChain_evm hlt.le hj)
  rw [← hparams] at hid
  have hid' : (honestScheduler version chips component vk circuitIds).getCircuitId req =
      .ok circuitId := by
    simp only [LocalScheduler.getCircuitId, honestScheduler, hid]
    rfl
  rw [LocalScheduler.recursiveGenProof_succ, getSnarksForDeps_eq hdeps (.cons hsnark .nil)]
  have hvk : (honestScheduler version chips component vk circuitIds).vk = vk := rfl
  simp only [bind, Except.bind, hvk, hrequest, hid']
  cases isEvmProof with
  | false => rfl
  | true => rfl

/-- The wrappers of all rounds describe the batch. -/
theorem exists_evmProof (hsetup : ProvingSetup chips component vk circuitIds root round depth
    initialDepth) (hmax : depth ≤ version.maxDepth) {j : ℕ} (hj : j ≤ round)
    (h : req.Provable chips component vk root)
    (hparams : req.params = ⟨.evm j, depth, initialDepth⟩)
    (hfuel : depth - initialDepth + j < fuel) :
    ∃ out, DescribesBatch version chips depth (honestVkHash chips component vk) root
        (req.inputs component) out ∧
      ∀ isEvmProof, (honestScheduler version chips component vk circuitIds).recursiveGenProof
        (fuel + 1) req isEvmProof =
          .ok (if isEvmProof then .evmProof out else .snark ⟨numFeAccumulator, out⟩) := by
  have hlt := hsetup.initialDepth_lt
  have hpred : depth - 1 < version.maxDepth := by omega
  have h31 := Version.lt_of_lt_maxDepth hpred
  induction j generalizing req fuel with
  | zero =>
      obtain ⟨fuel, rfl⟩ : ∃ f, fuel = f + 1 := ⟨fuel - 1, by omega⟩
      obtain ⟨hdeps, hpart⟩ := dependencies_evm h hparams hlt (by omega)
        (NodeParams.child_evm_zero hlt) rfl
      have hle : depth - initialDepth ≤ fuel := by omega
      obtain ⟨out, hsnark, hdescribes⟩ := exists_rootSnark hsetup hmax hpart rfl hle
      exact ⟨out, hdescribes, recursiveGenProof_evm hsetup hparams hj hdeps hsnark⟩
  | succ j ih =>
      obtain ⟨fuel, rfl⟩ : ∃ f, fuel = f + 1 := ⟨fuel - 1, by omega⟩
      obtain ⟨hdeps, hpart⟩ := dependencies_evm h hparams hlt (by omega)
        (NodeParams.child_evm_succ hlt.le) rfl
      have hlt' : depth - initialDepth + j < fuel := by omega
      obtain ⟨out, hdescribes, hsnark⟩ := ih (by omega) hpart rfl hlt'
      exact ⟨out, hdescribes, recursiveGenProof_evm hsetup hparams hj hdeps (hsnark false)⟩

/-! ## Whole batches -/

/-- Every request that the scheduler makes below a provable wrapper is provable and at a node of
keygen. -/
theorem RecursiveRequest.Reaches.provable {top : RecursiveRequest} (hlt : initialDepth < depth)
    (htop : top.Provable chips component vk root)
    (hparams : top.params = ⟨.evm round, depth, initialDepth⟩) (h : top.Reaches req) :
    req.Provable chips component vk root ∧
      NodeParams.KeygenChain ⟨.evm round, depth, initialDepth⟩ req.params := by
  induction h with
  | refl => exact ⟨htop, hparams ▸ .refl⟩
  | @dep req part deps _ hdeps hmem ih =>
      obtain ⟨hreq, hchain⟩ := ih
      have hroot : NodeParams.Valid ⟨.evm round, depth, initialDepth⟩ := hlt.le
      have hvalid : req.params.Valid := hchain.valid hroot
      by_cases hinitial : req.params.depth = req.params.initialDepth
      · obtain ⟨-, rfl⟩ :=
          (RecursiveRequest.dependencies_initial hreq.wellFormed hinitial).mp hdeps
        cases hmem
      · have hleaf : req.params.nodeType ≠ .leaf := by
          intro hleaf
          rw [NodeParams.Valid, hleaf] at hvalid
          exact hinitial hvalid
        obtain ⟨c, hchild, -, hcdepth⟩ := NodeParams.exists_child hvalid hleaf
        have hcle : c.depth ≤ req.params.depth := by
          rw [hcdepth, NodeParams.childDepth]
          split <;> omega
        obtain ⟨-, rfl⟩ :=
          (RecursiveRequest.dependencies_eq_ok hreq.wellFormed hinitial hchild hcle).mp hdeps
        obtain ⟨i, hi, rfl⟩ := List.mem_map.mp hmem
        exact ⟨hreq.part hi, .child hchain hchild⟩

/-- The request that the scheduler server makes for a batch. -/
def batchRequest (root : ℕ) (claims : List ClaimNative) (params : NodeParams) :
    RecursiveRequest where
  start := 0
  end_ := claims.length
  root := root
  claims := claims
  params := params

/-- The joins of a provable batch are satisfied at every node of its recursion. -/
theorem joinSatisfied_of_reaches {top : RecursiveRequest}
    (hsetup : ProvingSetup chips component vk circuitIds root round depth initialDepth)
    (hmax : depth ≤ version.maxDepth) (htop : top.Provable chips component vk root)
    (hparams : top.params = ⟨.evm round, depth, initialDepth⟩)
    (hfuel : depth - initialDepth ≤ fuel) (h : top.Reaches req)
    (htype : req.params.nodeType = .intermediate ∨ req.params.nodeType = .root) :
    JoinSatisfied version chips component vk circuitIds fuel req := by
  have hlt := hsetup.initialDepth_lt
  obtain ⟨hreq, hchain⟩ := h.provable hlt htop hparams
  obtain ⟨k, hk, hkd, hdepth, hinitial⟩ : ∃ k, initialDepth ≤ k ∧ k < depth ∧
      req.params.depth = k + 1 ∧ req.params.initialDepth = initialDepth := by
    rcases NodeParams.keygenChain_cases hlt hchain with ⟨j, -, hq⟩ | hq | ⟨k, hk, hkd, hq⟩
    · rw [hq] at htype
      simp at htype
    · rw [hq]
      exact ⟨depth - 1, by omega, by omega, by simp only; omega, rfl⟩
    · have hne : k ≠ initialDepth := by
        rintro rfl
        rw [hq, NodeParams.below, if_pos rfl] at htype
        simp at htype
      rw [hq]
      exact ⟨k - 1, by omega, by omega, by rw [NodeParams.below_depth]; omega,
        NodeParams.below_initialDepth⟩
  have hlevel : k + 1 - initialDepth ≤ fuel := by omega
  obtain ⟨snark0, snark1, hjoin⟩ := collectsJoin_of_setup hsetup hmax hreq htype hdepth hinitial hk
    hkd hlevel
  exact hjoin.satisfied hdepth

/-- A batch of valid claims is a provable request. -/
theorem provable_batchRequest {claims : List ClaimNative} {params : NodeParams}
    (hdepth : params.depth ≤ 31) (hpos : 1 ≤ claims.length) (hle : claims.length ≤ 2 ^ params.depth)
    (hvalid : ∀ claim ∈ claims, claim.Valid chips component vk root) :
    (batchRequest root claims params).Provable chips component vk root := by
  have hpow : 2 ^ params.depth ≤ 2 ^ 31 := Nat.pow_le_pow_right (by omega) hdepth
  have hend : claims.length ≤ 2 ^ 31 := hle.trans hpow
  refine ⟨⟨hpos, ?_, rfl, hle⟩, hend, rfl, hvalid⟩
  simp only [batchRequest]
  omega

/-- Every admissible batch is proven: at every join of the recursion the collected snarks satisfy
the constraints on their intervals, and what the wrapper exposes describes exactly the batch. -/
theorem batch_proven (version : Version) (chips : Chips) (component : Groth16Component)
    (vk : VkNative) (circuitIds : NodeParams → Option String) (root : ℕ)
    (claims : List ClaimNative) (round depth initialDepth fuel : ℕ)
    (hsetup : ProvingSetup chips component vk circuitIds root round depth initialDepth)
    (hmax : depth ≤ version.maxDepth) (hpos : 1 ≤ claims.length) (hle : claims.length ≤ 2 ^ depth)
    (hvalid : ∀ claim ∈ claims, claim.Valid chips component vk root)
    (hfuel : depth - initialDepth + round + 2 ≤ fuel) :
    (∀ req, (batchRequest root claims ⟨.evm round, depth, initialDepth⟩).Reaches req →
      req.params.nodeType = .intermediate ∨ req.params.nodeType = .root →
      JoinSatisfied version chips component vk circuitIds fuel req) ∧
    ∃ out, (honestScheduler version chips component vk circuitIds).recursiveGenProof fuel
        (batchRequest root claims ⟨.evm round, depth, initialDepth⟩) true = .ok (.evmProof out) ∧
      DescribesBatch version chips depth (honestVkHash chips component vk) root
        (claims.map (ClaimNative.input component)) out := by
  have hlt := hsetup.initialDepth_lt
  have hpred : depth - 1 < version.maxDepth := by omega
  have h31 := Version.lt_of_lt_maxDepth hpred
  have htop : (batchRequest root claims ⟨.evm round, depth, initialDepth⟩).Provable chips component
      vk root := by
    refine provable_batchRequest ?_ hpos hle hvalid
    simp only
    omega
  refine ⟨fun req hreaches htype =>
    joinSatisfied_of_reaches hsetup hmax htop rfl (by omega) hreaches htype, ?_⟩
  obtain ⟨fuel, rfl⟩ : ∃ f, fuel = f + 1 := ⟨fuel - 1, by omega⟩
  have hfuel' : depth - initialDepth + round < fuel := by omega
  obtain ⟨out, hdescribes, hproof⟩ := exists_evmProof hsetup hmax le_rfl htop rfl hfuel'
  exact ⟨out, hproof true, hdescribes⟩

/-- A Groth16 component for the sole claim. -/
def soleComponent : Groth16Component where
  parseVk _ := List.replicate numFeHiloVkey 1
  parseProof _ := []

/-- The sole claim is valid for every number of lookup bits. -/
theorem valid_soleNative (lookupBits : ℕ) :
    soleNative.Valid { soleChips with lookupBits := lookupBits } soleComponent soleVk 7 where
  proof_length := by decide
  nullifier_lt := by decide
  grant_lt := by decide
  accepted := by
    have hinput : soleNative.input soleComponent = soleClaim := rfl
    rw [hinput]
    simp [ClaimInput.Accepted, soleChips, soleComponent, maxGroth16Pi]

/-- Sole claims can be proven below a wrapped root of depth 1. -/
theorem provingSetup_sole :
    ProvingSetup soleChips soleComponent soleVk (fun _ => some "") 7 0 1 0 := by
  refine ⟨by decide, fun k hk hkd => ?_, rfl, by decide, fun _ _ => ⟨"", rfl⟩⟩
  obtain rfl : k = 0 := by omega
  exact rangeAdmits_sole

/-- Three claims. -/
def threeNatives : List ClaimNative :=
  [soleNative, ⟨4, 6, 3, [0, 0, 0, 0, 0, 0, 0, 0]⟩, ⟨8, 7, 3, [0, 0, 0, 0, 0, 0, 0, 0]⟩]

/-- Chips whose Groth16 gadget accepts the three claims only. -/
def threeChips : Chips :=
  { soleChips with
    handleSingleGroth16verify := fun input _ _ _ =>
      if ∃ claim ∈ threeNatives, input = (claim.input soleComponent).groth16VerifierInput
        (soleComponent.parseVk soleVk) ((maxGroth16Pi + 1 : ℕ) : Fr) ((7 : ℕ) : Fr) then ⟨0, 1⟩
      else ⟨0, 0⟩ }

/-- The three claims are valid. -/
theorem valid_threeNatives :
    ∀ claim ∈ threeNatives, claim.Valid threeChips soleComponent soleVk 7 := by
  intro claim hclaim
  have hconverts : claim.Converts := by
    simp only [threeNatives, soleNative, List.mem_cons, List.not_mem_nil, or_false] at hclaim
    rcases hclaim with rfl | rfl | rfl
    all_goals exact ⟨by decide, by decide, by decide⟩
  exact ⟨hconverts.proof_length, hconverts.nullifier_lt, hconverts.grant_lt,
    if_pos ⟨claim, hclaim, rfl⟩⟩

/-- The claims can be proven below a wrapped root of depth 1 or 2. -/
theorem provingSetup_three (depth : ℕ) (hpos : 0 < depth) (hle : depth ≤ 2) :
    ProvingSetup threeChips soleComponent soleVk (fun _ => some "") 7 0 depth 0 := by
  refine ⟨hpos, fun k hk hkd => ?_, rfl, by decide, fun _ _ => ⟨"", rfl⟩⟩
  obtain rfl | rfl : k = 0 ∨ k = 1 := by omega
  · decide
  · decide

/-- Three claims are proven below a wrapped root of depth 2, by either version of the circuits: the
join of the third leaf with its copy is satisfied too. -/
theorem batch_proven_three :
    ((∀ req, (batchRequest 7 threeNatives ⟨.evm 0, 2, 0⟩).Reaches req →
        req.params.nodeType = .intermediate ∨ req.params.nodeType = .root →
        JoinSatisfied .v1 threeChips soleComponent soleVk (fun _ => some "") 4 req) ∧
      ∃ out, (honestScheduler .v1 threeChips soleComponent soleVk
          fun _ => some "").recursiveGenProof 4
            (batchRequest 7 threeNatives ⟨.evm 0, 2, 0⟩) true = .ok (.evmProof out) ∧
        DescribesBatch .v1 threeChips 2 (honestVkHash threeChips soleComponent soleVk) (7 : ℕ)
          (threeNatives.map (ClaimNative.input soleComponent)) out) ∧
    (∀ req, (batchRequest 7 threeNatives ⟨.evm 0, 2, 0⟩).Reaches req →
        req.params.nodeType = .intermediate ∨ req.params.nodeType = .root →
        JoinSatisfied .v2 threeChips soleComponent soleVk (fun _ => some "") 4 req) ∧
      ∃ out, (honestScheduler .v2 threeChips soleComponent soleVk
          fun _ => some "").recursiveGenProof 4
            (batchRequest 7 threeNatives ⟨.evm 0, 2, 0⟩) true = .ok (.evmProof out) ∧
        DescribesBatch .v2 threeChips 2 (honestVkHash threeChips soleComponent soleVk) (7 : ℕ)
          (threeNatives.map (ClaimNative.input soleComponent)) out :=
  ⟨batch_proven .v1 threeChips soleComponent soleVk (fun _ => some "") 7 threeNatives 0 2 0 4
      (provingSetup_three 2 (by decide) (by decide)) (by decide) (by decide) (by decide)
      valid_threeNatives (by decide),
    batch_proven .v2 threeChips soleComponent soleVk (fun _ => some "") 7 threeNatives 0 2 0 4
      (provingSetup_three 2 (by decide) (by decide)) (by decide) (by decide) (by decide)
      valid_threeNatives (by decide)⟩

/-- At depth 32 the V1 bounds on the number of claims do not fit into 32 bits, and no batch is
proven, although the range checks admit its claims. -/
theorem not_batch_proven_depth_32 : ∃ chips : Chips,
    ProvingSetup chips soleComponent soleVk (fun _ => some "") 7 0 32 31 ∧
    (∀ claim ∈ [soleNative, soleNative], claim.Valid chips soleComponent soleVk 7) ∧
    ∀ fuel proof, (honestScheduler .v1 chips soleComponent soleVk
      fun _ => some "").recursiveGenProof fuel
        (batchRequest 7 [soleNative, soleNative] ⟨.evm 0, 32, 31⟩) true ≠ .ok proof := by
  refine ⟨{ soleChips with lookupBits := 20 }, ?_, ?_, ?_⟩
  · refine ⟨by decide, fun k hk hkd => ?_, rfl, by decide, fun _ _ => ⟨"", rfl⟩⟩
    obtain rfl : k = 31 := by omega
    decide
  · simpa using valid_soleNative 20
  · intro fuel proof hproof
    have hdeps : (batchRequest 7 [soleNative, soleNative] ⟨.evm 0, 32, 31⟩).dependencies =
        .error .panicked := rfl
    cases fuel with
    | zero => cases hproof
    | succ fuel =>
        rw [LocalScheduler.recursiveGenProof, hdeps] at hproof
        cases hproof

end WorldcoinAggregation
