import WorldcoinAggregation.Contract.V2.Accounting
import WorldcoinAggregation.Contract.V2.Validations
import WorldcoinAggregation.Utils.ClaimScript

/-!
# Delivery of V2 batches

The scheduler proves a batch, the scheduler server submits the proof, and the scripts compute the
call for one claim after another. These parts fit together: the proof of an admissible batch is
validated, and from then on every claim that can be paid is paid by the call of `ClaimScript` with
the values in the file of the claim (`v2_batch_delivered`).
-/

namespace WorldcoinAggregation

open CallStack Fallible

namespace WorldcoinAggregationV2

variable {Chain : Type} {agg : WorldcoinAggregationV2} {env : Externals Chain} {address : Address}

/-- A claim can be paid: nobody has claimed it, its receiver is not the zero address, and the
balance covers the amount of its grant. -/
structure Payable (env : Externals Chain) (address : Address) (world : World Chain)
    (claim : ClaimNative) (amount : U256) : Prop where
  unused : world.storage.nullifierHashes claim.triple.nullifierHash = false
  receiver_ne : claim.receiver ≠ 0
  valid : env.checkValidity world.chain claim.triple.grantId = true
  amount_eq : env.getAmount world.chain claim.triple.grantId = some amount
  balance_le : amount.toNat ≤ world.balances address

/-- The payment for a claim. -/
def paymentFor (claim : ClaimNative) (amount : U256) (chain : Chain) : Payment Chain :=
  ⟨claim.triple.grantId, claim.triple.receiver, claim.triple.nullifierHash, amount, chain⟩

/-- The script `merkleSisterNodes` writes a file for this claim of a batch, and from the values that
its texts denote `ClaimScript` makes a call of the contract that pays the claim, without the help of
other code. -/
def Delivers (agg : WorldcoinAggregationV2) (env : Externals Chain) (address : Address)
    (clients : ℕ → Option Address) (file : BatchFile) (world : World Chain) (claimIdx : ℕ)
    (payment : Payment Chain) : Prop :=
  ∃ claimFile, merkleSisterNodes env.keccak256 file claimIdx = .ok claimFile ∧
    (∃ decoded, claimFile.Denotes decoded) ∧
    ∀ decoded, claimFile.Denotes decoded →
      ∃ args world', ClaimScript.run clients decoded = .ok (address, args) ∧
        Completes (agg.contract env address) world
          ((agg.contract env address).start (.claim args)) world' ∧
        world'.storage = world.storage.use payment.nullifierHash ∧
        world'.payments = world.payments ++ [payment]

/-- A claim of a batch whose root is recorded is delivered. -/
theorem delivers_of_recorded {clients : ℕ → Option Address} {file : BatchFile}
    {world : World Chain} {claimIdx : ℕ} {claim : ClaimNative} {amount : U256}
    (htoken : env.StandardToken)
    (hfill : file.claims.length + file.padding = 2 ^ agg.logMaxNumClaims.toNat)
    (hroot : file.root < 2 ^ 256)
    (hfits : ∀ claim ∈ file.claims, claim.grantId < 2 ^ 256 ∧ claim.nullifierHash < 2 ^ 256)
    (hclient : clients (2 ^ agg.logMaxNumClaims.toNat) = some address)
    (hrecorded : world.storage.validClaimsRoots (BitVec.ofNat 256 file.root)
      (file.claimRoot env.keccak256 agg.logMaxNumClaims.toNat) = true)
    (hclaim : file.claims[claimIdx]? = some claim)
    (hpayable : Payable env address world claim amount) :
    Delivers agg env address clients file world claimIdx
      (paymentFor claim amount world.chain) := by
  obtain ⟨claimFile, decoded, args, hfile, hdenotes, hrun, hcalls⟩ :=
    exists_claimFile env.keccak256 agg.logMaxNumClaims_le hfill hroot hfits hclient
      hclaim
  have hgrantId : args.grantId = claim.triple.grantId :=
    congrArg ClaimTriple.grantId hcalls.triple_eq
  have hreceiver : args.receiver = claim.receiver :=
    congrArg ClaimTriple.receiver hcalls.triple_eq
  have hnullifier : args.nullifierHash = claim.triple.nullifierHash :=
    congrArg ClaimTriple.nullifierHash hcalls.triple_eq
  have hchecked : args.Checked agg env world.storage (paymentFor claim amount world.chain) := by
    refine ⟨hgrantId.symm, hreceiver.symm, hnullifier.symm, ?_, ?_, ?_, hcalls.length_eq, ?_⟩
    · rw [hreceiver]
      exact hpayable.receiver_ne
    · rw [hgrantId]
      exact hpayable.valid
    · rw [hgrantId]
      exact hpayable.amount_eq
    · rw [hcalls.root_eq, hcalls.claimsRoot_eq, hrecorded]
  obtain ⟨world', hcompletes, hstorage, hpayments⟩ := exists_completes_claim address htoken
    (by rw [hnullifier, hpayable.unused]) hchecked rfl hpayable.balance_le
  refine ⟨claimFile, hfile, ⟨decoded, hdenotes⟩, fun decoded' hdenotes' => ?_⟩
  obtain rfl : decoded' = decoded := hdenotes.unique hdenotes'
  refine ⟨args, world', hrun, hcompletes, ?_, hpayments⟩
  rw [hstorage, hnullifier]
  rfl

variable {chips : Chips} {component : Groth16Component} {vk : VkNative}
  {circuitIds : NodeParams → Option String}

/-- The strings of valid claims in the circuits are those of the scripts. -/
theorem paddedStrings_native {root : ℕ} {claims : List ClaimNative} (size : ℕ)
    (hvalid : ∀ claim ∈ claims, claim.Valid chips component vk root) :
    paddedStrings (claims.map (ClaimNative.input component)) size =
      padStrings size (claims.map ClaimNative.packed) := by
  rw [paddedStrings, List.map_map]
  refine congrArg (padStrings size) (List.map_congr_left fun claim hclaim => ?_)
  have hreceiver : (claim.input component).receiver.val = claim.receiver.toNat :=
    Fr.val_natCast (claim.receiver.isLt.trans pow_160_lt_frModulus)
  have hgrant := Fr.val_natCast (hvalid claim hclaim).grant_lt
  have hnullifier := Fr.val_natCast (hvalid claim hclaim).nullifier_lt
  rw [Function.comp_apply, ClaimInput.packed, hreceiver, ClaimNative.packed]
  exact congrArg₂ (packClaim · claim.receiver.toNat ·) hgrant hnullifier

/-- An admissible V2 batch is delivered. The scheduler proves it. In a contract for this depth and
verifying key, the call with this proof records the root over the batch if the verifier accepts the
proof and the World ID root is valid. From then on, whatever anyone calls in between, every claim of
the batch that can be paid is paid by the call that the scripts compute. -/
theorem v2_batch_delivered (agg : WorldcoinAggregationV2) (env : Externals Chain)
    (address : Address) (file : BatchFile) (clients : ℕ → Option Address)
    {round depth initialDepth fuel : ℕ} (htoken : env.StandardToken)
    (hsetup : ProvingSetup chips component vk circuitIds file.root round depth initialDepth)
    (hmax : depth ≤ Version.v2.maxDepth) (hroot : file.root < frModulus)
    (hpos : 1 ≤ file.claims.length)
    (hfill : file.claims.length + file.padding = 2 ^ depth)
    (hvalid : ∀ claim ∈ file.claims, claim.Valid chips component vk file.root)
    (hfuel : depth - initialDepth + round + 2 ≤ fuel)
    (hkeccak : env.keccak256 = chips.keccak256)
    (hvkey : agg.vkeyHash = honestVkeyHash chips component vk)
    (hlog : agg.logMaxNumClaims.toNat = depth) (hclient : clients (2 ^ depth) = some address) :
    ∃ out, (honestScheduler .v2 chips component vk circuitIds).recursiveGenProof fuel
        (batchRequest file.root file.claims ⟨.evm round, depth, initialDepth⟩) true =
          .ok (.evmProof out) ∧
      ∀ accumulator proof sender world, accumulator.length = numFeAccumulator →
        env.snarkAccepts (accumulator ++ out) proof = true →
        agg.prover = 0 ∨ sender = agg.prover →
        env.requireValidRoot world.chain (BitVec.ofNat 256 file.root) = true →
        ∃ verified validated, validated = { world with
            storage := world.storage.record (BitVec.ofNat 256 file.root)
              (file.claimRoot env.keccak256 depth)
            verified := verified } ∧
          Completes (agg.contract env address) world
            ((agg.contract env address).start (.validateClaimsRoot
              (fulfill (encodeCalldata (accumulator ++ out) proof) sender))) validated ∧
          ∀ calls s, Run (agg.contract env address) ⟨validated, []⟩ calls s →
            ∀ claimIdx claim amount, file.claims[claimIdx]? = some claim →
              Payable env address s.world claim amount →
              Delivers agg env address clients file s.world claimIdx
                (paymentFor claim amount s.world.chain) := by
  subst hlog
  have hmodulus : frModulus < 2 ^ 256 := by decide
  obtain ⟨out, hproof, hdescribes⟩ :=
    exists_batchProof hsetup hmax hpos (Nat.le.intro hfill) hvalid hfuel
  refine ⟨out, hproof, ?_⟩
  intro accumulator proof sender world haccumulator haccepts hauthorised hvalidRoot
  -- the proof exposes the root over the strings that the scripts hash
  obtain ⟨claimRoot, hclaimRoot⟩ : ∃ claimRoot, claimRoot =
      file.claimRoot env.keccak256 agg.logMaxNumClaims.toNat := ⟨_, rfl⟩
  have hexposed : out = rootInstances (HiLo.ofDigest agg.vkeyHash) file.root
      (file.claims.length : Fr) claimRoot := by
    have hlength : ((file.claims.map (ClaimNative.input component)).length : Fr) =
        file.claims.length := by rw [List.length_map]
    rw [hclaimRoot, BatchFile.claimRoot, hkeccak, hvkey, ← paddedStrings_native _ hvalid, ← hlength]
    exact hdescribes
  subst hexposed
  have hrootWord : (file.root : Fr).word = BitVec.ofNat 256 file.root := by
    rw [Fr.word, Fr.val_natCast hroot]
  obtain ⟨args, hargs⟩ : ∃ args, args = fulfill (encodeCalldata (accumulator ++ rootInstances
      (HiLo.ofDigest agg.vkeyHash) file.root (file.claims.length : Fr) claimRoot) proof) sender :=
    ⟨_, rfl⟩
  obtain ⟨hcarries, hverifies⟩ := ValidateClaimsRoot.carries_fulfill haccumulator env agg.vkeyHash
    file.root file.claims.length claimRoot proof sender
  rw [hrootWord, ← hargs] at hcarries
  have hcount : (file.claims.length : Fr).word.toNat ≤ 2 ^ agg.logMaxNumClaims.toNat := by
    rw [Fr.toNat_word, ZMod.val_natCast]
    exact (Nat.mod_le _ _).trans (Nat.le.intro hfill)
  have hsender : agg.prover = 0 ∨ args.sender = agg.prover := by rwa [hargs]
  have hchecked : args.Checked agg env world.chain :=
    hcarries.checked hsender hvalidRoot hcount (by rw [hargs, fulfill, hverifies, haccepts])
  have hvalidated := completes_validateClaimsRoot address hchecked
  rw [hcarries.root_eq, hcarries.claimsRoot_eq] at hvalidated
  rw [← hargs, ← hclaimRoot]
  refine ⟨_, _, rfl, hvalidated, ?_⟩
  intro calls s hrun claimIdx claim amount hclaim hpayable
  have hrecorded : s.world.storage.validClaimsRoots (BitVec.ofNat 256 file.root) claimRoot =
      true :=
    (kept_of_run hrun).claimsRoots _ _ (Storage.record_eq_true.mpr (.inl ⟨rfl, rfl⟩))
  rw [hclaimRoot] at hrecorded
  refine delivers_of_recorded htoken hfill hsetup.root_lt ?_ hclient hrecorded hclaim hpayable
  exact fun claim hclaim => ⟨(hvalid claim hclaim).grant_lt.trans hmodulus,
    (hvalid claim hclaim).nullifier_lt.trans hmodulus⟩

/-! ### A delivered batch -/

/-- A contract for four claims under the verifying key of the three claims. -/
def fourContract : WorldcoinAggregationV2 where
  vkeyHash := honestVkeyHash threeChips soleComponent soleVk
  logMaxNumClaims := 2
  prover := 0
  logMaxNumClaims_le := by decide

/-- Views that accept, and a verifier that accepts. -/
def acceptingExternals : Externals Unit :=
  { pairExternals with snarkAccepts := fun _ _ => true }

/-- A batch of three claims and one zero claim. -/
def threeBatch : BatchFile where
  root := 7
  claims := threeNatives
  numProofs := some 3
  maxProofs := some 4

/-- The second of three claims is proven, validated and paid. -/
theorem v2_batch_delivered_three : ∃ validation validated args world',
    Completes (fourContract.contract acceptingExternals 9) (deployed (fun _ => 10) ())
        ((fourContract.contract acceptingExternals 9).start (.validateClaimsRoot validation))
        validated ∧
      Completes (fourContract.contract acceptingExternals 9) validated
        ((fourContract.contract acceptingExternals 9).start (.claim args)) world' ∧
      world'.paid = [6] := by
  obtain ⟨out, -, hdelivers⟩ := v2_batch_delivered fourContract acceptingExternals 9 threeBatch
    (fun _ => some 9) (standardToken_ledger rfl) (provingSetup_three 2 (by decide) (by decide))
    (by decide) (by decide) (by decide) rfl valid_threeNatives le_rfl rfl rfl rfl rfl
  obtain ⟨verified, validated, hvalidated, hcompletes, hclaims⟩ :=
    hdelivers (List.replicate 12 0) [] 5 (deployed (fun _ => 10) ()) rfl rfl (.inl rfl) rfl
  have hpayable :
      Payable acceptingExternals 9 validated ⟨4, 6, 3, [0, 0, 0, 0, 0, 0, 0, 0]⟩ 10 := by
    rw [hvalidated]
    exact ⟨rfl, by decide, rfl, rfl, Nat.le_refl 10⟩
  obtain ⟨claimFile, -, ⟨decoded, hdecoded⟩, hcalls⟩ := hclaims [] _ .refl 1 _ 10 rfl hpayable
  obtain ⟨args, world', -, hclaim, -, hpayments⟩ := hcalls decoded hdecoded
  refine ⟨_, validated, args, world', hcompletes, hclaim, ?_⟩
  rw [World.paid, hpayments, hvalidated]
  rfl

end WorldcoinAggregationV2

end WorldcoinAggregation
