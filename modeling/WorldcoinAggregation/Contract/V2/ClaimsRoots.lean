import WorldcoinAggregation.Circuit.V2.Soundness
import WorldcoinAggregation.Contract.V2.Accounting
import WorldcoinAggregation.Scheduler.CircuitFactory

/-!
# Recorded claims roots

A claims root is recorded under a World ID root because the verifier accepted a SNARK. The verifier
reduces each word of its calldata modulo the field order, and the contract decodes the same words
as they are. While the words are below the field order, only what a SNARK proves is recorded
(`recordsProven_of_canonical`). A word above it makes the contract record another root
(`not_recordsProven_alias`).
-/

namespace WorldcoinAggregation

open CallStack

namespace WorldcoinAggregationV2

variable {Chain : Type} {agg : WorldcoinAggregationV2} {env : Externals Chain} {address : Address}

/-- The public instances that hold halves of digests do not exceed 128 bits. -/
def HalvesFit (instances : List Fr) : Prop :=
  ∀ i ∈ [12, 13, 16, 17], ∀ x, instances[i]? = some x → x.val < 2 ^ 128

/-- An accepted SNARK has this claims root and this World ID root among its instances, for the
verifying key of the contract. -/
def ProvenRoot (agg : WorldcoinAggregationV2) (env : Externals Chain) (root claimsRoot : U256) :
    Prop :=
  ∃ instances rest vkHashHi vkHashLo rootInstance numProofs claimRootHi claimRootLo,
    env.snarkAccepts instances rest = true ∧
    instances.drop 12 = [vkHashHi, vkHashLo, rootInstance, numProofs, claimRootHi, claimRootLo] ∧
    vkHashHi.val * 2 ^ 128 + vkHashLo.val = agg.vkeyHash.toNat ∧
    root.toNat = rootInstance.val ∧
    claimsRoot.toNat = claimRootHi.val * 2 ^ 128 + claimRootLo.val

/-- Only proven claims roots are recorded. -/
def RecordsProven (agg : WorldcoinAggregationV2) (env : Externals Chain) (storage : Storage) :
    Prop :=
  ∀ root claimsRoot, storage.validClaimsRoots root claimsRoot = true →
    ProvenRoot agg env root claimsRoot

/-- A validation that passes its checks decodes no word from the field order on. -/
def Call.Canonical (agg : WorldcoinAggregationV2) (env : Externals Chain) : Call → Prop
  | .claim _ => True
  | .validateClaimsRoot args => ∀ chain, args.Checked agg env chain →
      ∀ i ∈ [12, 13, 14, 16, 17], (calldataload args.proof (32 * i)).toNat < frModulus

/-- The root circuit exposes halves of digests, behind its accumulator. -/
theorem halvesFit_of_rootOutput {chips : Chips} {initialDepth height : ℕ}
    {tree : ProofTree (height + 1)} {accumulator out : List Fr}
    (haccumulator : accumulator.length = numFeAccumulator)
    (h : tree.rootOutput (v2Circuits chips)
      (WorldcoinRootAggregationInputV2.virtualAssignPhase0 chips) initialDepth = some out) :
    HalvesFit (accumulator ++ out) := by
  obtain ⟨shared, hspans, -, -, rfl⟩ := rootOutput_v2 tree h
  obtain ⟨witness, hwitness⟩ : ∃ witness, witness ∈ tree.leaves :=
    List.exists_mem_of_length_pos (by rw [ProofTree.length_leaves]; exact Nat.two_pow_pos _)
  have hvk := (hspans.fits witness hwitness).vkHash_eq
  rw [← hvk]
  have hhi (digest : U256) : (HiLo.ofDigest digest).hi.val < 2 ^ 128 := by
    have := digest.isLt
    rw [HiLo.val_hi_ofDigest]
    omega
  have hlo (digest : U256) : (HiLo.ofDigest digest).lo.val < 2 ^ 128 := by
    rw [HiLo.val_lo_ofDigest]
    exact Nat.mod_lt _ (by decide)
  intro i hi x hx
  rw [List.getElem?_append_right (by rw [haccumulator, numFeAccumulator]; simp at hi; omega),
    haccumulator] at hx
  simp only [List.mem_cons, List.not_mem_nil, or_false] at hi
  rcases hi with rfl | rfl | rfl | rfl <;> cases hx
  · exact hhi _
  · exact hlo _
  · exact hhi _
  · exact hlo _

/-- What a canonical proof records is proven. -/
theorem provenRoot_of_checked {args : ValidateClaimsRoot} {chain : Chain}
    (hhalves : ∀ instances rest, env.snarkAccepts instances rest = true → HalvesFit instances)
    (hcanonical : (Call.validateClaimsRoot args).Canonical agg env)
    (h : args.Checked agg env chain) : ProvenRoot agg env args.root args.claimsRoot := by
  have hwords := hcanonical _ h
  have hfit := hhalves _ _ h.accepted
  -- below the field order, a word is the value of the public instance in its place
  have hval (i : ℕ) (hi : i ∈ [12, 13, 14, 16, 17]) :
      ((calldataload args.proof (32 * i)).toNat : Fr).val =
        (calldataload args.proof (32 * i)).toNat :=
    Fr.val_natCast (hwords i hi)
  have hhalf (i : ℕ) (hi : i ∈ [12, 13, 16, 17]) :
      (calldataload args.proof (32 * i)).toNat < 2 ^ 128 := by
    have hlt := hfit i hi _ (publicInstances_getElem? (by simp at hi; omega) args.proof)
    rwa [hval i (by simp at hi ⊢; omega)] at hlt
  have hdecode (hi lo : ℕ) (hhi : hi ∈ [12, 13, 16, 17]) (hlo : lo ∈ [12, 13, 16, 17]) :
      (hiLoWord (calldataload args.proof (32 * hi)) (calldataload args.proof (32 * lo))).toNat =
        ((calldataload args.proof (32 * hi)).toNat : Fr).val * 2 ^ 128 +
          ((calldataload args.proof (32 * lo)).toNat : Fr).val := by
    rw [hiLoWord_toNat (hhalf lo hlo), Nat.mod_eq_of_lt (hhalf hi hhi),
      hval hi (by simp at hhi ⊢; omega), hval lo (by simp at hlo ⊢; omega)]
  refine ⟨publicInstances 18 args.proof, args.proof.drop (32 * 18), _, _, _, _, _, _, h.accepted,
    rfl, ?_, (hval 14 (by simp)).symm, ?_⟩
  · rw [← hdecode 12 13 (by simp) (by simp), ← h.vkeyHash_eq]
    rfl
  · rw [← hdecode 16 17 (by simp) (by simp)]
    rfl

/-- While every validation that passes its checks is canonical, only proven claims roots are
recorded, in every state of every run from deployment. -/
theorem recordsProven_of_canonical {agg : WorldcoinAggregationV2} {env : Externals Chain}
    {address : Address} {balances : Address → ℕ} {chain : Chain} {entered : List Call}
    {s : State (World Chain) (Frame Chain)}
    (hhalves : ∀ instances rest, env.snarkAccepts instances rest = true → HalvesFit instances)
    (hcanonical : ∀ call ∈ entered, call.Canonical agg env)
    (hrun : Run (agg.contract env address) ⟨deployed balances chain, []⟩ entered s) :
    RecordsProven agg env s.world.storage := by
  have haccounted := accounted_of_run hrun
  intro root claimsRoot hrecorded
  obtain ⟨accepted, haccepted, rfl, rfl⟩ := (haccounted.recorded root claimsRoot).mp hrecorded
  obtain ⟨hentered, hchecked⟩ := haccounted.verified accepted haccepted
  exact provenRoot_of_checked hhalves (hcanonical _ hentered) hchecked

/-- The instances of the SNARK for two claims hold halves. -/
theorem halvesFit_pairInstances : HalvesFit pairInstances := by
  have hfit (digest : U256) :
      HalvesFit (List.replicate 12 0 ++ [0, 1, 7, 2] ++ (HiLo.ofDigest digest).hiLo) := by
    have hlt := digest.isLt
    intro i hi x hx
    simp only [List.mem_cons, List.not_mem_nil, or_false] at hi
    rcases hi with rfl | rfl | rfl | rfl <;> cases hx
    · decide
    · decide
    · rw [HiLo.val_hi_ofDigest]
      omega
    · rw [HiLo.val_lo_ofDigest]
      exact Nat.mod_lt _ (by decide)
  exact hfit pairRoot

/-- The root over two claims is recorded, and it is proven. -/
theorem recordsProven_pair : RecordsProven pairContract pairExternals pairWorld.storage := by
  have hcanonical : ∀ call ∈ [Call.validateClaimsRoot pairValidation],
      call.Canonical pairContract pairExternals := by
    intro call hcall
    obtain rfl := List.mem_singleton.mp hcall
    intro _ _ i hi
    have hlength : i < pairInstances.length := by
      have heighteen : pairInstances.length = 18 := rfl
      simp only [List.mem_cons, List.not_mem_nil, or_false] at hi
      omega
    rw [pairValidation, calldataload_encodeWords (by
      rw [List.getElem?_map, List.getElem?_eq_getElem hlength]; rfl), Fr.toNat_word]
    exact Fr.val_lt _
  have hhalves (instances : List Fr) (rest : List UInt8)
      (h : pairExternals.snarkAccepts instances rest = true) : HalvesFit instances := by
    obtain ⟨rfl, -⟩ := of_decide_eq_true h
    exact halvesFit_pairInstances
  exact recordsProven_of_canonical hhalves hcanonical (run_pairValidation 9)

/-- A verifier for a single SNARK, whose claims root has the halves 2 and 3. -/
def aliasExternals : Externals Unit :=
  { pairExternals with
    snarkAccepts := fun instances rest =>
      instances = List.replicate 12 0 ++
        [0, 1, ((7 : ℕ) : Fr), ((2 : ℕ) : Fr), ((2 : ℕ) : Fr), ((3 : ℕ) : Fr)] ∧ rest = [] }

/-- A call whose word for the high half is above the field order. -/
def aliasValidation : ValidateClaimsRoot where
  sender := 5
  proof := encodeWords (List.replicate 12 0 ++ [0, 1, 7, 2, BitVec.ofNat 256 (2 + frModulus), 3]) []

/-- The call with a word above the field order passes its checks. -/
theorem checked_aliasValidation : aliasValidation.Checked pairContract aliasExternals () where
  authorised := .inl rfl
  length_le := by
    rw [aliasValidation, length_encodeWords]
    rfl
  vkeyHash_eq := by decide +kernel
  root_valid := rfl
  numClaims_le := by decide +kernel
  accepted := by decide +kernel

/-- The contract records a claims root that no accepted SNARK has, although all accepted SNARKs
hold halves: the verifier reduces the word for the high half and the contract does not. -/
theorem not_recordsProven_alias :
    (∀ instances rest, aliasExternals.snarkAccepts instances rest = true → HalvesFit instances) ∧
      ∃ entered s, Run (pairContract.contract aliasExternals 9)
          ⟨deployed (fun _ => 10) (), []⟩ entered s ∧
        ¬ RecordsProven pairContract aliasExternals s.world.storage := by
  constructor
  · intro instances rest h
    obtain ⟨rfl, -⟩ := of_decide_eq_true h
    intro i hi x hx
    simp only [List.mem_cons, List.not_mem_nil, or_false] at hi
    rcases hi with rfl | rfl | rfl | rfl <;> cases hx <;> decide
  -- the only accepted instances have another claims root than the decoded one
  · refine ⟨_, _, (completes_validateClaimsRoot 9 checked_aliasValidation).call
      (Contract.yields_nil _), ?_⟩
    intro hproven
    obtain ⟨instances, rest, vkHashHi, vkHashLo, rootInstance, numProofs, claimRootHi, claimRootLo,
      haccepted, hinstances, -, -, hclaimsRoot⟩ :=
      hproven aliasValidation.root aliasValidation.claimsRoot
        (Storage.record_eq_true.mpr (.inl ⟨rfl, rfl⟩))
    obtain ⟨rfl, -⟩ := of_decide_eq_true haccepted
    cases hinstances
    exact absurd hclaimsRoot (by decide +kernel)

end WorldcoinAggregationV2

end WorldcoinAggregation
