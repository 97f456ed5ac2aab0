import WorldcoinAggregation.Circuit.HashedStrings
import WorldcoinAggregation.Contract.Submission
import WorldcoinAggregation.Contract.V1.Accounting
import WorldcoinAggregation.Contract.V1.PartialBatches

/-!
# Delivery of V1 batches

The scheduler server submits the proof of a batch together with the columns of its claims. For a
full batch the contract packs what the root circuit hashed, and pays all the claims in order
(`v1_batch_delivered`).
-/

namespace WorldcoinAggregation

open CallStack Fallible Synthesis

namespace WorldcoinAggregationV1

variable {Chain : Type} {agg : WorldcoinAggregationV1} {env : Externals Chain} {address : Address}
  {chips : Chips} {component : Groth16Component} {vk : VkNative}
  {circuitIds : NodeParams → Option String} {root : ℕ} {claims : List ClaimNative}

/-- A call with the instances of a V1 root circuit carries the hash that the circuit exposes, and
the verifier sees these instances. -/
theorem DistributeGrants.carries_of_proof {args : DistributeGrants} {keccak256 : List UInt8 → U256}
    {accumulator : List Fr} {bytes proof : List UInt8} (env : Externals Chain)
    (haccumulator : accumulator.length = numFeAccumulator)
    (hproof : args.proof =
      encodeCalldata (accumulator ++ (HiLo.ofDigest (keccak256 bytes)).hiLo) proof) :
    args.Carries keccak256 bytes ∧ 14 * 32 ≤ args.proof.length ∧
      env.verifies 14 args.proof =
        env.snarkAccepts (accumulator ++ (HiLo.ofDigest (keccak256 bytes)).hiLo) proof := by
  obtain ⟨exposed, hexposed⟩ : ∃ exposed, exposed = (HiLo.ofDigest (keccak256 bytes)).hiLo :=
    ⟨_, rfl⟩
  have hlength : (accumulator ++ exposed).length = 14 := by
    rw [List.length_append, haccumulator, hexposed]
    rfl
  have hword (i : ℕ) (x : Fr) (hx : exposed[i]? = some x) : unsafeCalldataBytesAccess
      (encodeCalldata (accumulator ++ exposed) proof) ((12 + i) * 32) = x.word :=
    word_encodeCalldata haccumulator hx
  rw [← hexposed] at hproof ⊢
  refine ⟨⟨?_, ?_⟩, ?_, ?_⟩
  · rw [hproof]
    exact hword 0 _ (by rw [hexposed]; rfl)
  · rw [hproof]
    exact hword 1 _ (by rw [hexposed]; rfl)
  · rw [hproof]
    exact hlength ▸ le_length_encodeCalldata (accumulator ++ exposed) proof
  · rw [hproof]
    exact hlength ▸ verifies_encodeCalldata env (accumulator ++ exposed) proof

/-- A payment for a claim of a batch, which can be made in this world. -/
structure PayableAs (env : Externals Chain) (world : World Chain) (claim : ClaimNative)
    (payment : Payment Chain) : Prop where
  grantId_eq : payment.grantId = BitVec.ofNat 256 claim.grantId
  receiver_eq : payment.receiver = claim.receiver
  nullifierHash_eq : payment.nullifierHash = BitVec.ofNat 256 claim.nullifierHash
  chain_eq : payment.chain = world.chain
  unused : world.storage.nullifierHashes payment.nullifierHash = false
  receiver_ne : payment.receiver ≠ 0
  valid : env.checkValidity payment.chain payment.grantId = true
  amount_eq : env.getAmount payment.chain payment.grantId = some payment.amount

/-- The call of the contract for a batch of valid claims. -/
theorem fulfill_eq {vkeyHash : U256} {proof : List UInt8} {params : V1ClaimParams}
    (hroot : root < 2 ^ 256) (hvalid : ∀ claim ∈ claims, claim.Valid chips component vk root)
    (hparams : V1ClaimParams.new vkeyHash root claims proof = .ok params) (sender : Address) :
    params.fulfill sender =
      { sender, vkeyHash, proof
        numClaims := BitVec.ofNat 256 claims.length
        root := BitVec.ofNat 256 root
        grantIds := claims.map fun claim => BitVec.ofNat 256 claim.grantId
        receivers := claims.map ClaimNative.receiver
        nullifierHashes := claims.map fun claim => BitVec.ofNat 256 claim.nullifierHash } := by
  rw [V1ClaimParams.new_eq hroot hvalid, Except.ok.injEq] at hparams
  rw [← hparams, V1ClaimParams.fulfill]

/-- The call for a full batch passes its checks if the verifier accepts the proof. -/
theorem checked_fulfill {accumulator : List Fr} {proof : List UInt8} {params : V1ClaimParams}
    {chain : Chain} {sender : Address} (hroot : root < 2 ^ 256)
    (hvalid : ∀ claim ∈ claims, claim.Valid chips component vk root)
    (hlt : claims.length < frModulus) (hcount : claims.length ≤ agg.maxNumClaims.toNat)
    (haccumulator : accumulator.length = numFeAccumulator)
    (hparams : V1ClaimParams.new agg.vkeyHash root claims (encodeCalldata (accumulator ++
      (HiLo.ofDigest (env.keccak256 (params.fulfill sender).packed)).hiLo) proof) = .ok params)
    (haccepts : env.snarkAccepts (accumulator ++
      (HiLo.ofDigest (env.keccak256 (params.fulfill sender).packed)).hiLo) proof = true)
    (hauthorised : agg.prover = 0 ∨ sender = agg.prover)
    (hvalidRoot : env.requireValidRoot chain (BitVec.ofNat 256 root) = true) :
    (params.fulfill sender).Checked agg env chain := by
  have hfulfill := fulfill_eq hroot hvalid hparams sender
  have hproof := congrArg DistributeGrants.proof hfulfill
  obtain ⟨hcarries, hlong, hverifies⟩ :=
    (params.fulfill sender).carries_of_proof env haccumulator hproof
  have hnumClaims : (params.fulfill sender).numClaims.toNat = claims.length := by
    rw [hfulfill, toNat_ofNat_eq hlt]
  refine ⟨hauthorised, ?_, ?_, ?_, hlong, ?_, ?_, ?_, hcarries.outputHash_eq, ?_⟩
  · rw [hnumClaims, hfulfill, List.length_map]
  · rw [hnumClaims, hfulfill, List.length_map]
  · rw [hnumClaims, hfulfill, List.length_map]
  · rw [hfulfill]
  · rw [hfulfill]
    exact hvalidRoot
  · rw [BitVec.le_def, hnumClaims]
    exact hcount
  · rw [hverifies, haccepts]

/-- Payments for the claims of a batch, in order, are those of its call. -/
theorem paysFirst_fulfill {vkeyHash : U256} {proof : List UInt8} {params : V1ClaimParams}
    {world : World Chain} {payments : List (Payment Chain)} (hroot : root < 2 ^ 256)
    (hvalid : ∀ claim ∈ claims, claim.Valid chips component vk root)
    (hparams : V1ClaimParams.new vkeyHash root claims proof = .ok params) (sender : Address)
    (hpayable : List.Forall₂ (PayableAs env world) claims payments) :
    (params.fulfill sender).PaysFirst env payments := by
  intro i payment hpayment
  obtain ⟨claim, hclaim, h⟩ := exists_of_forall₂_getElem? hpayable hpayment
  rw [fulfill_eq hroot hvalid hparams sender]
  refine ⟨?_, ?_, ?_, h.receiver_ne, h.valid, h.amount_eq⟩
  · rw [List.getElem?_map, hclaim, Option.map_some, h.grantId_eq]
  · rw [List.getElem?_map, hclaim, Option.map_some, h.receiver_eq]
  · rw [List.getElem?_map, hclaim, Option.map_some, h.nullifierHash_eq]

/-- A full batch is delivered. The scheduler proves it, and the arguments of the call with this
proof are found. In a contract for this verifying key and with room for the batch, the call by an
authorised sender pays the claims in order, without the help of other code, if the verifier accepts
the proof, the World ID root is valid, and all the claims can be paid. -/
theorem v1_batch_delivered (agg : WorldcoinAggregationV1) (env : Externals Chain)
    (address : Address) {round depth initialDepth fuel : ℕ} (htoken : env.StandardToken)
    (hsetup : ProvingSetup chips component vk circuitIds root round depth initialDepth)
    (hmax : depth ≤ Version.v1.maxDepth) (hroot : root < frModulus)
    (hfull : claims.length = 2 ^ depth)
    (hvalid : ∀ claim ∈ claims, claim.Valid chips component vk root)
    (hfuel : depth - initialDepth + round + 2 ≤ fuel)
    (hkeccak : env.keccak256 = chips.keccak256)
    (hvkey : agg.vkeyHash = honestVkeyHash chips component vk)
    (hcount : 2 ^ depth ≤ agg.maxNumClaims.toNat) :
    ∃ out, (honestScheduler .v1 chips component vk circuitIds).recursiveGenProof fuel
        (batchRequest root claims ⟨.evm round, depth, initialDepth⟩) true = .ok (.evmProof out) ∧
      ∀ accumulator proof, accumulator.length = numFeAccumulator →
        ∃ params, V1ClaimParams.new agg.vkeyHash root claims
            (encodeCalldata (accumulator ++ out) proof) = .ok params ∧
          ∀ sender world payments,
            env.snarkAccepts (accumulator ++ out) proof = true →
            agg.prover = 0 ∨ sender = agg.prover →
            env.requireValidRoot world.chain (BitVec.ofNat 256 root) = true →
            List.Forall₂ (PayableAs env world) claims payments →
            (payments.map Payment.nullifierHash).Nodup →
            (payments.map fun payment => payment.amount.toNat).sum ≤ world.balances address →
            ∃ world', Completes (agg.contract env address) world
                ((agg.contract env address).start (params.fulfill sender)) world' ∧
              world'.payments = world.payments ++ payments := by
  have hpow : 2 ^ depth ≤ 2 ^ 31 := Nat.pow_le_pow_right (by decide) hmax
  have hlt : claims.length < frModulus := by
    have hfield := pow_128_lt_frModulus
    omega
  obtain ⟨out, hproof, columns, hlength, hstarts, hout⟩ :=
    exists_batchProof hsetup hmax (hfull ▸ Nat.one_le_two_pow) hfull.le hvalid hfuel
  refine ⟨out, hproof, fun accumulator proof haccumulator => ?_⟩
  obtain ⟨params, hparams⟩ : ∃ params, V1ClaimParams.new agg.vkeyHash root claims
      (encodeCalldata (accumulator ++ out) proof) = .ok params :=
    ⟨_, V1ClaimParams.new_eq hsetup.root_lt hvalid _ _⟩
  refine ⟨params, hparams, ?_⟩
  intro sender world payments haccepts hauthorised hvalidRoot hpayable hnodup hbalance
  -- a full batch leaves no slot of the columns open, so the contract packs what the circuit hashed
  have hexposed : out = (HiLo.ofDigest (env.keccak256 (params.fulfill sender).packed)).hiLo := by
    have hinputs : (claims.map (ClaimNative.input component)).length = 2 ^ depth := by
      rw [List.length_map, hfull]
    rw [packed_fulfill hroot hlt hvalid (hvkey ▸ hparams) sender, hkeccak, hout,
      hstarts.eq hlength hinputs, List.length_map]
    rfl
  rw [hexposed] at hparams haccepts
  have hchecked : (params.fulfill sender).Checked agg env world.chain :=
    checked_fulfill hsetup.root_lt hvalid hlt (hfull ▸ hcount) haccumulator hparams haccepts
      hauthorised hvalidRoot
  have hpays := paysFirst_fulfill hsetup.root_lt hvalid hparams sender hpayable
  have hpayments : payments.length = (params.fulfill sender).numClaims.toNat := by
    rw [fulfill_eq hsetup.root_lt hvalid hparams, toNat_ofNat_eq hlt, hpayable.length_eq]
  have hat : ∀ payment ∈ payments, ∃ claim, PayableAs env world claim payment := by
    intro payment hpayment
    obtain ⟨i, hi⟩ := List.mem_iff_getElem?.mp hpayment
    obtain ⟨claim, -, h⟩ := exists_of_forall₂_getElem? hpayable hi
    exact ⟨claim, h⟩
  refine exists_completes_distributeGrants address htoken hchecked hpayments hpays
    (fun payment hpayment => ?_) (fun payment hpayment => ?_) hnodup hbalance
  · obtain ⟨claim, h⟩ := hat payment hpayment
    exact h.chain_eq
  · obtain ⟨claim, h⟩ := hat payment hpayment
    exact h.unused

/-! ### A delivered batch -/

/-- Two of the three claims. -/
def pairNatives : List ClaimNative :=
  threeNatives.take 2

/-- A contract for two claims under this verifying key. -/
def pairKeyContract : WorldcoinAggregationV1 :=
  { pairContract with vkeyHash := honestVkeyHash threeChips soleComponent soleVk }

/-- Views that accept, and a verifier that accepts. -/
def acceptingExternals : Externals Unit :=
  { pairExternals with snarkAccepts := fun _ _ => true }

/-- Two claims are proven and paid. -/
theorem v1_batch_delivered_pair : ∃ args world',
    Completes (pairKeyContract.contract acceptingExternals 9) (deployed (fun _ => 20) ())
        ((pairKeyContract.contract acceptingExternals 9).start args) world' ∧
      world'.paid = [5, 6] := by
  have hvalid : ∀ claim ∈ pairNatives, claim.Valid threeChips soleComponent soleVk 7 :=
    fun claim hclaim => valid_threeNatives claim (List.mem_of_mem_take hclaim)
  obtain ⟨out, -, hdelivers⟩ := v1_batch_delivered pairKeyContract acceptingExternals 9
    (standardToken_ledger rfl) (provingSetup_three 1 (by decide) (by decide)) (by decide)
    (by decide) rfl hvalid le_rfl rfl rfl (by decide)
  obtain ⟨params, -, hpays⟩ := hdelivers (List.replicate 12 0) [] rfl
  have hpayable : List.Forall₂ (PayableAs acceptingExternals (deployed (fun _ => 20) ()))
      pairNatives [⟨3, 2, 5, 10, ()⟩, ⟨3, 4, 6, 10, ()⟩] :=
    .cons ⟨rfl, rfl, rfl, rfl, rfl, by decide, rfl, rfl⟩
      (.cons ⟨rfl, rfl, rfl, rfl, rfl, by decide, rfl, rfl⟩ .nil)
  obtain ⟨world', hcompletes, hpayments⟩ := hpays 5 (deployed (fun _ => 20) ()) _ rfl (.inl rfl)
    rfl hpayable (by decide) (by decide)
  refine ⟨_, world', hcompletes, ?_⟩
  rw [World.paid, hpayments]
  rfl

end WorldcoinAggregationV1

end WorldcoinAggregation
