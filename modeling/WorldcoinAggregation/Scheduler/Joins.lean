import WorldcoinAggregation.Scheduler.Provable

/-!
# Joins of the scheduler

The scheduler splits a request into one or two parts, proves them, and pads their snarks to two.
`exists_collectsJoin` says that these snarks join up to the claims of the request, whatever its
number of claims, so that the circuit of the join can be built and satisfied.
-/

namespace WorldcoinAggregation

open Synthesis Fallible

variable {version : Version} {chips : Chips} {component : Groth16Component} {vk : VkNative}
  {circuitIds : NodeParams → Option String} {root : ℕ}
variable {req : RecursiveRequest} {c : NodeParams} {round depth initialDepth k fuel : ℕ}

/-! ## Joins -/

/-- The scheduler collects two snarks that join up to the claims of a request. -/
structure CollectsJoin (version : Version) (chips : Chips) (component : Groth16Component)
    (vk : VkNative) (circuitIds : NodeParams → Option String) (fuel : ℕ) (req : RecursiveRequest)
    (k : ℕ) (snark0 snark1 : InstanceSnark) : Prop where
  collects : ∃ snarks,
    (honestScheduler version chips component vk circuitIds).getSnarksForDeps fuel req =
      .ok snarks ∧
    snarks ≠ [] ∧ padSnarks snarks = .ok [snark0, snark1]
  accumulator : ∀ snark ∈ [snark0, snark1],
    snark.numAccumulator = accumulatorAt k req.params.initialDepth
  joins : ∃ left right leftClaims rightClaims endIdx is2ndProofDummy,
    JoinsUp version chips k left right leftClaims rightClaims snark0.instances snark1.instances
      ((req.end_ - req.start : ℕ) : Fr) endIdx is2ndProofDummy ∧
    ({ left with end_ := endIdx } : SharedInstances) = req.shared chips component vk ∧
    joinedClaims is2ndProofDummy leftClaims rightClaims = req.inputs component

/-- The scheduler proves every provable request for this node. -/
def ProvesBelow (version : Version) (chips : Chips) (component : Groth16Component) (vk : VkNative)
    (circuitIds : NodeParams → Option String) (root fuel : ℕ) (params : NodeParams) : Prop :=
  ∀ req : RecursiveRequest, req.Provable chips component vk root → req.params = params →
    ∃ snark, (honestScheduler version chips component vk circuitIds).recursiveGenProof fuel req
      false = .ok (.snark snark) ∧ ProvenBy version chips component vk req snark

/-- The snarks of dependencies that are proven. -/
theorem getSnarksForDeps_eq {scheduler : LocalScheduler InstanceSnark (List Fr)}
    {deps : List RecursiveRequest} {snarks : List InstanceSnark}
    (hdeps : req.dependencies = .ok deps)
    (h : List.Forall₂ (fun dep snark =>
      scheduler.recursiveGenProof fuel dep false = .ok (.snark snark)) deps snarks) :
    scheduler.getSnarksForDeps fuel req = .ok snarks := by
  rw [LocalScheduler.getSnarksForDeps, hdeps]
  refine mapM_eq_ok_iff.mpr (h.imp fun dep snark hdep => ?_)
  rw [hdep]
  rfl

/-- The number of claims of a request as a field element. -/
theorem RecursiveRequest.Provable.val_numProofs (h : req.Provable chips component vk root) :
    ((req.end_ - req.start : ℕ) : Fr).val = (req.inputs component).length := by
  rw [h.val_natCast (Nat.sub_le _ _), RecursiveRequest.inputs, List.length_map,
    h.wellFormed.length_claims]

/-- A request that fits into one child collects its snark twice. -/
theorem collectsJoin_one (h : req.Provable chips component vk root) (hk : k < version.maxDepth)
    (hrange : RangeAdmits chips.lookupBits k (2 ^ (k + 1)))
    (hdeps : req.dependencies = .ok ((stepBy req.start req.end_ (2 ^ k)).map (req.part c)))
    (hc : c = .below k req.params.initialDepth) (hcount : req.end_ - req.start ≤ 2 ^ k)
    (ih : ProvesBelow version chips component vk circuitIds root fuel c) :
    ∃ snark, CollectsJoin version chips component vk circuitIds fuel req k snark snark := by
  have hcdepth : c.depth = k := by rw [hc, NodeParams.below_depth]
  have hinputs : (req.inputs component).length ≤ 2 ^ k := by
    rwa [RecursiveRequest.inputs, List.length_map, h.wellFormed.length_claims]
  have hpart : (req.part c req.start).Provable chips component vk root := by
    refine h.part ?_
    rw [hcdepth, stepBy_one h.wellFormed.start_lt hcount]
    exact List.mem_singleton_self _
  rw [stepBy_one h.wellFormed.start_lt hcount, List.map_singleton] at hdeps
  obtain ⟨snark, hsnark, hdescribes, haccumulator⟩ := ih _ hpart rfl
  rw [RecursiveRequest.part_self h.wellFormed (hcdepth.symm ▸ hcount)] at hdeps hsnark hdescribes
  have hdescribes' : Describes version chips k (req.shared chips component vk)
      (req.inputs component) snark.instances := by
    rw [← hcdepth]
    exact hdescribes
  refine ⟨snark, ⟨[snark], ?_, by simp, rfl⟩, ?_, ?_⟩
  · exact getSnarksForDeps_eq hdeps (.cons hsnark .nil)
  · simp only [List.mem_cons, List.not_mem_nil, or_false, or_self, forall_eq, haccumulator]
    rw [RecursiveRequest.part, hc, NodeParams.below_depth, NodeParams.below_initialDepth]
  · refine ⟨req.shared chips component vk, req.shared chips component vk, req.inputs component,
      req.inputs component, (req.shared chips component vk).end_, 1,
      ⟨hk, hrange, hdescribes', hdescribes', h.covers, h.covers, hinputs, rfl, rfl, ?_⟩, rfl,
      if_pos rfl⟩
    -- the snark is its own dummy
    exact .dummy rfl rfl h.val_numProofs hinputs

/-- A request that does not fit into one child collects the snarks of a full first part and of the
rest. -/
theorem collectsJoin_two (h : req.Provable chips component vk root) (hk : k < version.maxDepth)
    (hrange : RangeAdmits chips.lookupBits k (2 ^ (k + 1)))
    (hdeps : req.dependencies = .ok ((stepBy req.start req.end_ (2 ^ k)).map (req.part c)))
    (hc : c = .below k req.params.initialDepth) (hlt : 2 ^ k < req.end_ - req.start)
    (hle : req.end_ - req.start ≤ 2 * 2 ^ k)
    (ih : ProvesBelow version chips component vk circuitIds root fuel c) :
    ∃ snark0 snark1, CollectsJoin version chips component vk circuitIds fuel req k snark0
      snark1 := by
  have hcdepth : c.depth = k := by rw [hc, NodeParams.below_depth]
  -- the scheduler cuts the interval after the capacity of one child
  have hsteps := stepBy_two hlt hle
  have hpart0 : (req.part c req.start).Provable chips component vk root := by
    refine h.part ?_
    rw [hcdepth, hsteps]
    simp
  have hpart1 : (req.part c (req.start + 2 ^ k)).Provable chips component vk root := by
    refine h.part ?_
    rw [hcdepth, hsteps]
    simp
  rw [hsteps, List.map_cons, List.map_singleton] at hdeps
  obtain ⟨snark0, hsnark0, hdescribes0, haccumulator0⟩ := ih _ hpart0 rfl
  obtain ⟨snark1, hsnark1, hdescribes1, haccumulator1⟩ := ih _ hpart1 rfl
  obtain ⟨hclaims0, hclaims1⟩ := RecursiveRequest.claims_parts (c := c) h.wellFormed
    (hcdepth.symm ▸ hlt) (hcdepth.symm ▸ hle)
  rw [hcdepth] at hclaims0 hclaims1
  have hlength := h.wellFormed.length_claims
  have hinputs : (req.part c req.start).inputs component ++
      (req.part c (req.start + 2 ^ k)).inputs component = req.inputs component := by
    rw [RecursiveRequest.inputs, RecursiveRequest.inputs, hclaims0, hclaims1, ← List.map_append,
      List.take_append_drop, RecursiveRequest.inputs]
  have hlength0 : ((req.part c req.start).inputs component).length = 2 ^ k := by
    rw [RecursiveRequest.inputs, List.length_map, hclaims0, List.length_take]
    omega
  have hlength1 : ((req.part c (req.start + 2 ^ k)).inputs component).length ≤ 2 ^ k := by
    rw [RecursiveRequest.inputs, List.length_map, hclaims1, List.length_drop]
    omega
  have hend0 : (req.part c req.start).end_ = req.start + 2 ^ k := by
    simp only [RecursiveRequest.part, hcdepth]
    omega
  have hend1 : (req.part c (req.start + 2 ^ k)).end_ = req.end_ := by
    simp only [RecursiveRequest.part, hcdepth]
    omega
  have hdepth {i : ℕ} : (req.part c i).params.depth = k := hcdepth
  rw [hdepth] at hdescribes0 hdescribes1
  have haccumulator {i : ℕ} : accumulatorAt (req.part c i).params.depth
      (req.part c i).params.initialDepth = accumulatorAt k req.params.initialDepth := by
    rw [RecursiveRequest.part, hc, NodeParams.below_depth, NodeParams.below_initialDepth]
  refine ⟨snark0, snark1, ⟨[snark0, snark1], ?_, by simp, rfl⟩, ?_, ?_⟩
  · exact getSnarksForDeps_eq hdeps (.cons hsnark0 (.cons hsnark1 .nil))
  · simp [haccumulator0, haccumulator1, haccumulator]
  · refine ⟨(req.part c req.start).shared chips component vk,
      (req.part c (req.start + 2 ^ k)).shared chips component vk, _, _,
      ((req.part c (req.start + 2 ^ k)).end_ : Fr), 0,
      ⟨hk, hrange, hdescribes0, hdescribes1, hpart0.covers, hpart1.covers, hlength1, rfl, rfl, ?_⟩,
      ?_, ?_⟩
    · refine .linked rfl rfl ?_ hlength0 hlength1 ?_
      · rw [h.val_numProofs, ← hinputs, List.length_append]
      · simp only [RecursiveRequest.shared, hend0]
        rfl
    · rw [hend1]
      rfl
    · rw [joinedClaims, if_neg Fr.zero_ne_one, hinputs]

/-- A request above a level that is proven collects snarks that join up to its claims. -/
theorem exists_collectsJoin (h : req.Provable chips component vk root)
    (hk : k < version.maxDepth) (hrange : RangeAdmits chips.lookupBits k (2 ^ (k + 1)))
    (htype : req.params.nodeType = .intermediate ∨ req.params.nodeType = .root)
    (hdepth : req.params.depth = k + 1) (hinitial : req.params.initialDepth ≤ k)
    (ih : ProvesBelow version chips component vk circuitIds root fuel
      (.below k req.params.initialDepth)) :
    ∃ snark0 snark1, CollectsJoin version chips component vk circuitIds fuel req k snark0
      snark1 := by
  have hk31 := Version.lt_of_lt_maxDepth hk
  have hlength := h.wellFormed.length_claims
  have hle := h.wellFormed.length_le
  rw [hdepth, pow_succ'] at hle
  have hparams : req.params = ⟨req.params.nodeType, k + 1, req.params.initialDepth⟩ := by
    rw [← hdepth]
  have hchild : req.params.child = .ok (some (.below k req.params.initialDepth)) := by
    rw [hparams]
    exact NodeParams.child_join htype hinitial
  have hdeps := h.dependencies (by omega) (by omega) hchild (by rw [NodeParams.below_depth]; omega)
  rw [NodeParams.below_depth] at hdeps
  by_cases hcount : req.end_ - req.start ≤ 2 ^ k
  · obtain ⟨snark, hsnark⟩ := collectsJoin_one h hk hrange hdeps rfl hcount ih
    exact ⟨snark, snark, hsnark⟩
  · exact collectsJoin_two h hk hrange hdeps rfl (Nat.lt_of_not_le hcount) (by omega) ih

/-- Snarks that join up satisfy the constraints on their intervals. -/
theorem CollectsJoin.satisfied {snark0 snark1 : InstanceSnark}
    (h : CollectsJoin version chips component vk circuitIds fuel req k snark0 snark1)
    (hdepth : req.params.depth = k + 1) :
    JoinSatisfied version chips component vk circuitIds fuel req := by
  obtain ⟨snarks, hsnarks, -, hpad⟩ := h.collects
  obtain ⟨left, right, leftClaims, rightClaims, endIdx, is2ndProofDummy, hjoins, -⟩ := h.joins
  obtain ⟨len, hlen, hcheck⟩ := hjoins.check
  have hout := hcheck.output
  have hlen' : version.getNumInstance (req.params.depth - 1) = some len := by
    rw [hdepth, Nat.add_sub_cancel, hlen]
  rw [← hdepth] at hout
  exact ⟨snarks, snark0, snark1, len, _, hsnarks, hpad, hlen', hout⟩

/-- Two snarks of the circuits one level below have the accumulators that a join expects. -/
theorem checkAccumulators_eq {leafName joinName : String} {snark0 snark1 : InstanceSnark}
    (h : ∀ snark ∈ [snark0, snark1], snark.numAccumulator = accumulatorAt k initialDepth) :
    checkAccumulators leafName joinName [snark0, snark1] (k + 1) initialDepth = .ok () := by
  have hleaf : ¬(k + 1 = initialDepth + 1 ∧
      ∃ snark ∈ [snark0, snark1], snark.numAccumulator ≠ 0) := by
    rintro ⟨hk, snark, hmem, hne⟩
    rw [h snark hmem, accumulatorAt, if_pos (by omega)] at hne
    exact hne rfl
  have hjoin : ¬(initialDepth + 1 < k + 1 ∧
      ∃ snark ∈ [snark0, snark1], snark.numAccumulator ≠ numFeAccumulator) := by
    rintro ⟨hk, snark, hmem, hne⟩
    rw [h snark hmem, accumulatorAt, if_neg (by omega)] at hne
    exact hne rfl
  simp only [checkAccumulators, if_neg hleaf, if_neg hjoin]
  rfl

/-- The witness of a V1 join over two snarks. -/
theorem newV1_eq {snark0 snark1 : InstanceSnark} {n : ℕ} (hpos : 0 < n) (hle : n ≤ 2 ^ (k + 1))
    (hk : k < 31) (hinitial : initialDepth ≤ k) :
    WorldcoinIntermediateAggregationInput.new [snark0, snark1] n (k + 1) initialDepth =
      .ok ⟨[snark0, snark1], n, k + 1, initialDepth⟩ := by
  simp only [WorldcoinIntermediateAggregationInput.new, bind_eq_ok, assert_eq_ok,
    checkedShl_eq_ok]
  exact ⟨(), hpos.ne', (), rfl, (), by omega, _, ⟨by omega, rfl⟩, (), hle, rfl⟩

/-- A request holds between one and `2 ^ depth` claims. -/
theorem RecursiveRequest.Provable.count (h : req.Provable chips component vk root) :
    0 < req.end_ - req.start ∧ req.end_ - req.start ≤ 2 ^ req.params.depth := by
  have hlt := h.wellFormed.start_lt
  have hlength := h.wellFormed.length_claims
  have hle := h.wellFormed.length_le
  omega

/-- The circuit of an intermediate request over snarks that join up. -/
theorem build_intermediate (h : req.Provable chips component vk root)
    {snark0 snark1 : InstanceSnark}
    (hjoin : CollectsJoin version chips component vk circuitIds fuel req k snark0 snark1)
    (hk : k < 31) (hdepth : req.params.depth = k + 1) (hinitial : req.params.initialDepth ≤ k) :
    WorldcoinRequestIntermediate.build version chips
        ⟨req.start, req.end_, req.params.depth, req.params.initialDepth, [snark0, snark1]⟩ =
      .ok (version.joinCircuit chips snark0.instances snark1.instances
        ((req.end_ - req.start : ℕ) : Fr) (k + 1)) := by
  obtain ⟨hpos, hle⟩ := h.count
  rw [hdepth] at hle
  have hsub : checkedSub req.end_ req.start = .ok (req.end_ - req.start) :=
    checkedSub_eq_ok.mpr ⟨h.wellFormed.start_lt.le, rfl⟩
  have haccumulators (leafName joinName : String) : checkAccumulators leafName joinName
      [snark0, snark1] (k + 1) req.params.initialDepth = .ok () :=
    checkAccumulators_eq hjoin.accumulator
  cases version with
  | v1 =>
      simp only [WorldcoinRequestIntermediate.build, hsub, hdepth, bind, Except.bind,
        newV1_eq hpos hle hk hinitial, haccumulators]
      rfl
  | v2 =>
      simp only [WorldcoinRequestIntermediate.build, hsub, hdepth, bind, Except.bind,
        WorldcoinIntermediateAggregationInputV2.new, haccumulators]
      rfl

/-- The witness of a root request over snarks that join up. -/
theorem input_root (h : req.Provable chips component vk root) {snark0 snark1 : InstanceSnark}
    (hjoin : CollectsJoin version chips component vk circuitIds fuel req k snark0 snark1)
    (hk : k < 31) (hdepth : req.params.depth = k + 1) (hinitial : req.params.initialDepth ≤ k) :
    WorldcoinRequestRoot.input version
        ⟨req.start, req.end_, req.params.depth, req.params.initialDepth, [snark0, snark1]⟩ =
      .ok ⟨[snark0, snark1], req.end_ - req.start, k + 1, req.params.initialDepth⟩ := by
  obtain ⟨hpos, hle⟩ := h.count
  rw [hdepth] at hle
  have hsub : checkedSub req.end_ req.start = .ok (req.end_ - req.start) :=
    checkedSub_eq_ok.mpr ⟨h.wellFormed.start_lt.le, rfl⟩
  have hshl : checkedShl 32 (k + 1) = .ok (2 ^ (k + 1)) := checkedShl_eq_ok.mpr ⟨by omega, rfl⟩
  have hrange : ¬ req.end_ < req.start := by omega
  have hcount : ¬ 2 ^ (k + 1) < req.end_ - req.start := by omega
  have haccumulators (leafName joinName : String) : checkAccumulators leafName joinName
      [snark0, snark1] (k + 1) req.params.initialDepth = .ok () :=
    checkAccumulators_eq hjoin.accumulator
  cases version with
  | v1 =>
      simp only [WorldcoinRequestRoot.input, if_neg hrange, hsub, hdepth, hshl, if_neg hcount, bind,
        Except.bind, WorldcoinRootAggregationInput.new, haccumulators]
      exact newV1_eq hpos hle hk hinitial
  | v2 =>
      simp only [WorldcoinRequestRoot.input, if_neg hrange, hsub, hdepth, hshl, if_neg hcount, bind,
        Except.bind, WorldcoinIntermediateAggregationInputV2.new, haccumulators]
      rfl

end WorldcoinAggregation
