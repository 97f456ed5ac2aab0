import WorldcoinAggregation.Contract.Extraction
import WorldcoinAggregation.Contract.Nullifiers
import WorldcoinAggregation.Contract.Submission

/-!
# V1 payments are proven

While the hash function does not collide on the strings that the contract and the circuits behind
its SNARKs hash, every batch that the contract accepts is full, and every payment in every run is
for a grant whose Groth16 proof was accepted (`v1_payments_proven`).
-/

namespace WorldcoinAggregation

open CallStack Synthesis

variable {Chain : Type} {chips : Chips} {initialDepth height : ℕ}

namespace WorldcoinAggregationV1

variable {agg : WorldcoinAggregationV1} {env : Externals Chain} {address : Address}
  {balances : Address → ℕ} {chain : Chain} {entered : List DistributeGrants}
  {s : State (World Chain) (Frame Chain)}
  {extract : List Fr → List UInt8 → ProofTree (height + 1)} {args : DistributeGrants}

/-- The tree of circuits behind the proof of a batch. -/
def DistributeGrants.tree (extract : List Fr → List UInt8 → ProofTree (height + 1))
    (args : DistributeGrants) : ProofTree (height + 1) :=
  extract (publicInstances 14 args.proof) (args.proof.drop (32 * 14))

/-- In a batch that passes its checks, the words of the output hash are below the field order. -/
def DistributeGrants.CanonicalHash (agg : WorldcoinAggregationV1) (env : Externals Chain)
    (args : DistributeGrants) : Prop :=
  ∀ chain, args.Checked agg env chain →
    ∀ i ∈ [12, 13], (calldataload args.proof (32 * i)).toNat < frModulus

/-- The strings that the contract hashes for the batches that pass their checks, and those that the
root circuits behind them hash. -/
def batchStrings (agg : WorldcoinAggregationV1) (env : Externals Chain) (initialDepth : ℕ)
    (extract : List Fr → List UInt8 → ProofTree (height + 1)) (entered : List DistributeGrants) :
    Set (List UInt8) :=
  {s | ∃ args ∈ entered, (∃ chain, args.Checked agg env chain) ∧
    (s = args.packed ∨ s = (args.tree extract).rootString initialDepth)}

/-- The contract decodes the hash that the root circuit exposes. -/
theorem DistributeGrants.outputHash_eq_of_instances {accumulator : List Fr} {digest : U256}
    (hcanonical : ∀ i ∈ [12, 13], (calldataload args.proof (32 * i)).toNat < frModulus)
    (haccumulator : accumulator.length = numFeAccumulator)
    (h : publicInstances 14 args.proof = accumulator ++ (HiLo.ofDigest digest).hiLo) :
    args.outputHash = digest := by
  have hhi : (publicInstances 14 args.proof)[12]? = some (HiLo.ofDigest digest).hi := by
    rw [h, List.getElem?_append_right (by rw [haccumulator]; decide), haccumulator]
    rfl
  have hlo : (publicInstances 14 args.proof)[13]? = some (HiLo.ofDigest digest).lo := by
    rw [h, List.getElem?_append_right (by rw [haccumulator]; decide), haccumulator]
    rfl
  have hhi' := calldataload_eq_word (by omega) hhi (hcanonical 12 (by simp))
  have hlo' := calldataload_eq_word (by omega) hlo (hcanonical 13 (by simp))
  calc args.outputHash
      = hiLoWord (calldataload args.proof (32 * 12)) (calldataload args.proof (32 * 13)) := rfl
    _ = digest := by rw [hhi', hlo', hiLoWord_ofDigest]

/-- A batch that packs the string of a root is full, and its arguments are what the root commits
to. -/
structure DistributeGrants.CommittedBy (args : DistributeGrants) (depth : ℕ) (vkHash : HiLo Fr)
    (root : Fr) (columns : Columns) : Prop where
  numClaims_eq : args.numClaims.toNat = 2 ^ depth
  vkHash_eq : vkHash = HiLo.ofDigest args.vkeyHash
  root_eq : root = (args.root.toNat : Fr)
  columns_eq : columns = args.columns

/-- The columns of a batch of checked lengths. -/
theorem DistributeGrants.ShapeChecked.hasLength (h : args.ShapeChecked agg) :
    args.columns.HasLength args.numClaims.toNat where
  grantIds := by rw [columns, List.length_map, h.length_grantIds]
  receivers := by rw [columns, List.length_map, h.length_receivers]
  nullifierHashes := by rw [columns, List.length_map, h.length_nullifierHashes]

/-- The arguments of a batch that packs the string of a root. -/
theorem DistributeGrants.committedBy {tree : ProofTree (height + 1)} {out : List Fr}
    {vkHash : HiLo Fr} {root : Fr} {columns : Columns} (hshape : args.ShapeChecked agg)
    (h : V1Committed chips initialDepth tree out vkHash root columns)
    (hpacked : args.packed = tree.rootString initialDepth) :
    args.CommittedBy (initialDepth + height + 1) vkHash root columns := by
  have hwords := wordsOf_digestBytes args.words
  rw [args.map_words] at hwords
  have hsame : args.words.map digestBytes = tree.rootWords initialDepth := by
    refine hwords.flatten_injective h.wordsOf ?_
    rw [← args.packed_eq, hpacked, ProofTree.rootString]
  -- the words are the same, so they are reduced to the same values
  have houtput := hwords.values_eq (hsame ▸ h.wordsOf)
  have hcount : args.numClaims.toNat = 2 ^ (initialDepth + height + 1) := by
    have hlength := congrArg List.length houtput
    rw [output, WorldcoinRootAggregationInput.length_outputOf hshape.hasLength,
      WorldcoinRootAggregationInput.length_outputOf h.columns_length] at hlength
    omega
  simp only [output, WorldcoinRootAggregationInput.outputOf, HiLo.hiLo, List.cons_append,
    List.nil_append, List.cons.injEq] at houtput
  obtain ⟨hhi, hlo, hroot, -, hcolumns⟩ := houtput
  refine ⟨hcount, congrArg₂ HiLo.mk hhi.symm hlo.symm, hroot.symm, ?_⟩
  exact h.columns_length.toList_injective (hcount ▸ hshape.hasLength) hcolumns.symm

/-- What holds of a batch that passed its checks: it is full, and all its claims are proven. -/
structure DistributeGrants.Proven (chips : Chips) (depth : ℕ) (args : DistributeGrants) :
    Prop where
  numClaims_eq : args.numClaims.toNat = 2 ^ depth
  proven : ∀ (i : ℕ) (grantId nullifierHash : U256) (receiver : Address),
    args.grantIds[i]? = some grantId → args.receivers[i]? = some receiver →
      args.nullifierHashes[i]? = some nullifierHash →
        GrantProven chips (HiLo.ofDigest args.vkeyHash) (args.root.toNat : Fr)
          (grantId.toNat : Fr) (receiver.toNat : Fr) (nullifierHash.toNat : Fr)

/-- A batch that passes its checks is proven, unless the hash function collides. -/
theorem DistributeGrants.Checked.proven (h : args.Checked agg env chain)
    (hextracts : Extracts (v1Circuits chips)
      (WorldcoinRootAggregationInput.virtualAssignPhase0 chips) initialDepth env extract)
    (hkeccak : env.keccak256 = chips.keccak256) (hcanonical : args.CanonicalHash agg env)
    (hinj : Set.InjOn chips.keccak256
      {args.packed, (args.tree extract).rootString initialDepth}) :
    args.Proven chips (initialDepth + height + 1) := by
  obtain ⟨accumulator, out, haccumulator, hroot, hinstances⟩ := hextracts _ _ h.accepted
  obtain ⟨vkHash, root, columns, hcommitted⟩ := v1Committed_of_rootOutput _ hroot
  rw [hcommitted.out_eq] at hinstances
  have houtput := outputHash_eq_of_instances (hcanonical _ h) haccumulator hinstances
  have hpacked : args.packed = (args.tree extract).rootString initialDepth := by
    refine hinj (by simp) (by simp) ?_
    rw [← hkeccak, ← h.outputHash_eq, houtput, hkeccak]
    rfl
  obtain ⟨hcount, rfl, rfl, rfl⟩ := committedBy h.shapeChecked hcommitted hpacked
  refine ⟨hcount, fun i grantId nullifierHash receiver hgrant hreceiver hnullifier => ?_⟩
  refine hcommitted.proven i _ _ _ ?_ ?_ ?_
  · rw [columns, List.getElem?_map, hgrant, Option.map_some]
  · rw [columns, List.getElem?_map, hreceiver, Option.map_some]
  · rw [columns, List.getElem?_map, hnullifier, Option.map_some]

/-- A payment of a V1 run is made for a claim of a full batch that passed its checks, and for a
grant whose Groth16 proof was accepted under the World ID root of the batch. -/
structure PaidInBatch (chips : Chips) (depth : ℕ) (agg : WorldcoinAggregationV1)
    (env : Externals Chain) (args : DistributeGrants) (chain : Chain)
    (payment : Payment Chain) : Prop where
  checked : args.Checked agg env chain
  numClaims_eq : args.numClaims.toNat = 2 ^ depth
  pays : ∃ i, args.Pays env i payment
  proven : payment.Proven chips agg.vkeyHash args.root

/-- Every payment in every run of the V1 contract from deployment is made in a full batch that the
run accepted, and is for a grant whose Groth16 proof was accepted under the World ID root of that
batch. -/
theorem v1_payments_proven
    (hextracts : Extracts (v1Circuits chips)
      (WorldcoinRootAggregationInput.virtualAssignPhase0 chips) initialDepth env extract)
    (hkeccak : env.keccak256 = chips.keccak256)
    (hcanonical : ∀ args ∈ entered, args.CanonicalHash agg env)
    (hinj : (batchStrings agg env initialDepth extract entered).InjOn chips.keccak256)
    (hrun : Run (agg.contract env address) ⟨deployed balances chain, []⟩ entered s) :
    ∀ payment ∈ s.world.payments, ∃ accepted ∈ s.world.verified, accepted.1 ∈ entered ∧
      PaidInBatch chips (initialDepth + height + 1) agg env accepted.1 accepted.2 payment := by
  intro payment hpayment
  obtain ⟨⟨args, at_⟩, haccepted, hentered, hchecked, i, hpays⟩ :=
    (accounted_of_run hrun).backed payment hpayment
  have hstrings : {args.packed, (args.tree extract).rootString initialDepth} ⊆
      batchStrings agg env initialDepth extract entered := by
    rintro string (rfl | rfl)
    · exact ⟨args, hentered, ⟨at_, hchecked⟩, .inl rfl⟩
    · exact ⟨args, hentered, ⟨at_, hchecked⟩, .inr rfl⟩
  obtain ⟨hcount, hproven⟩ := hchecked.proven hextracts hkeccak (hcanonical args hentered)
    (hinj.mono hstrings)
  have hgrant := hproven i _ _ _ hpays.grantId_eq hpays.receiver_eq hpays.nullifierHash_eq
  rw [hchecked.vkeyHash_eq] at hgrant
  exact ⟨(args, at_), haccepted, hentered, hchecked, hcount, ⟨i, hpays⟩, hgrant⟩

/-! ### A proven batch -/

/-- The words of the output hash in a call that carries the hash of what it packs are those of
field elements. -/
theorem DistributeGrants.canonicalHash_carryPacked (args : DistributeGrants)
    (keccak256 : List UInt8 → U256) : (args.carryPacked keccak256).CanonicalHash agg env := by
  intro _ _ i hi
  refine calldataload_encodeCalldata_lt ?_
  have hfourteen : (args.packedInstances keccak256).length = 14 := rfl
  simp only [List.mem_cons, List.not_mem_nil, or_false] at hi
  omega

/-- Some tree over two sole leaves is satisfied, and its root hashes what the contract packs. -/
theorem exists_aliasTree : ∃ tree : ProofTree 1,
    tree.rootOutput (v1Circuits soleChips)
        (WorldcoinRootAggregationInput.virtualAssignPhase0 soleChips) 0 =
      some (HiLo.ofDigest (soleChips.keccak256 aliasGrants.packed)).hiLo ∧
    tree.rootString 0 = aliasGrants.packed := by
  have hwords := wordsOf_digestBytes aliasGrants.words
  rw [DistributeGrants.map_words, output_aliasGrants] at hwords
  obtain ⟨hroot, hread⟩ := rootOutput_v1_node (soleLeaf_v1_instances 0 1 (by decide) (by decide))
    (soleLeaf_v1_instances 1 2 (by decide) (by decide)) covers_soleShared_left
    covers_soleShared_right (hasLength_soleLeaf 0 1) (hasLength_soleLeaf 1 2) (by decide)
    (by decide) rfl rfl rangeAdmits_sole joined_soleShared hwords
  rw [DistributeGrants.packed_eq]
  exact ⟨_, hroot, congrArg List.flatten hread⟩

/-- Both payments for the batch are for proven grants. -/
theorem v1_payments_proven_alias : ∃ entered s,
    Run (soleContract.contract aliasExternals 9) ⟨deployed (fun _ => 20) (), []⟩ entered s ∧
      s.world.payments.length = 2 ∧
      ∀ payment ∈ s.world.payments, ∃ accepted ∈ s.world.verified, accepted.1 ∈ entered ∧
        PaidInBatch soleChips 1 soleContract aliasExternals accepted.1 accepted.2 payment := by
  obtain ⟨world, hrun, hpayments⟩ := exists_run_aliasGrants
  obtain ⟨aliasTree, hroot, hstring⟩ := exists_aliasTree
  have hextracts : Extracts (v1Circuits soleChips)
      (WorldcoinRootAggregationInput.virtualAssignPhase0 soleChips) 0 aliasExternals
      fun _ _ => aliasTree := by
    intro instances rest haccepted
    obtain ⟨rfl, -⟩ := of_decide_eq_true haccepted
    exact ⟨List.replicate 12 0, _, rfl, hroot, rfl⟩
  have hkeccak : aliasExternals.keccak256 = soleChips.keccak256 := rfl
  have hcanonical : ∀ args ∈ [aliasGrants.carryPacked Keccak.keccak256],
      args.CanonicalHash soleContract aliasExternals := by
    intro args hargs
    rw [List.mem_singleton.mp hargs]
    exact aliasGrants.canonicalHash_carryPacked Keccak.keccak256
  -- the root circuit hashes the string that the contract packs, so there is only one string
  have hstrings : ∀ s ∈ batchStrings soleContract aliasExternals 0 (fun _ _ => aliasTree)
      [aliasGrants.carryPacked Keccak.keccak256], s = aliasGrants.packed := by
    rintro s ⟨args, hargs, -, rfl | rfl⟩
    · rw [List.mem_singleton.mp hargs]
      rfl
    · exact hstring
  have hinj : (batchStrings soleContract aliasExternals 0 (fun _ _ => aliasTree)
      [aliasGrants.carryPacked Keccak.keccak256]).InjOn soleChips.keccak256 := by
    intro s hs t ht _
    rw [hstrings s hs, hstrings t ht]
  exact ⟨_, ⟨world, []⟩, hrun, by rw [hpayments]; rfl,
    v1_payments_proven hextracts hkeccak hcanonical hinj hrun⟩

end WorldcoinAggregationV1

end WorldcoinAggregation
