import WorldcoinAggregation.Contract.Submission
import WorldcoinAggregation.Contract.V2.Model

/-!
# Validating what a root circuit exposes

The scheduler server submits a proof as it comes from the prover. The contract decodes from it what
the root circuit exposes (`ValidateClaimsRoot.carries_fulfill`), and the call passes its checks if
the verifier accepts the proof (`ValidateClaimsRoot.Carries.checked`).
-/

namespace WorldcoinAggregation

namespace WorldcoinAggregationV2

variable {Chain : Type} {agg : WorldcoinAggregationV2} {env : Externals Chain} {chain : Chain}

/-- The call of the contract for a proof. -/
def fulfill (proof : List UInt8) (sender : Address) : ValidateClaimsRoot where
  sender := sender
  proof := proof

namespace ValidateClaimsRoot

/-- The call carries what a root circuit exposes: the contract decodes these words. -/
structure Carries (args : ValidateClaimsRoot) (vkeyHash root numClaims claimsRoot : U256) :
    Prop where
  length_le : 18 * 32 ≤ args.proof.length
  vkeyHash_eq : args.vkeyHash = vkeyHash
  root_eq : args.root = root
  numClaims_eq : args.numClaims = numClaims
  claimsRoot_eq : args.claimsRoot = claimsRoot

/-- The contract decodes what a root circuit exposes behind its accumulator, and the verifier sees
these instances. -/
theorem carries_fulfill {accumulator : List Fr}
    (haccumulator : accumulator.length = numFeAccumulator) (env : Externals Chain)
    (vkeyHash : U256) (root numProofs : Fr) (claimRoot : U256) (proof : List UInt8)
    (sender : Address) :
    (fulfill (encodeCalldata (accumulator ++
        rootInstances (HiLo.ofDigest vkeyHash) root numProofs claimRoot) proof) sender).Carries
      vkeyHash root.word numProofs.word claimRoot ∧
    env.verifies 18 (encodeCalldata (accumulator ++
        rootInstances (HiLo.ofDigest vkeyHash) root numProofs claimRoot) proof) =
      env.snarkAccepts (accumulator ++
        rootInstances (HiLo.ofDigest vkeyHash) root numProofs claimRoot) proof := by
  obtain ⟨exposed, hexposed⟩ : ∃ exposed, exposed =
      rootInstances (HiLo.ofDigest vkeyHash) root numProofs claimRoot := ⟨_, rfl⟩
  have hlength : (accumulator ++ exposed).length = 18 := by
    rw [List.length_append, haccumulator, hexposed]
    rfl
  have hword (i : ℕ) (x : Fr) (hx : exposed[i]? = some x) : unsafeCalldataBytesAccess
      (encodeCalldata (accumulator ++ exposed) proof) ((12 + i) * 32) = x.word :=
    word_encodeCalldata haccumulator hx
  rw [← hexposed]
  refine ⟨⟨?_, ?_, ?_, ?_, ?_⟩, ?_⟩
  · exact hlength ▸ le_length_encodeCalldata (accumulator ++ exposed) proof
  · have hhi := hword 0 (HiLo.ofDigest vkeyHash).hi (by rw [hexposed]; rfl)
    have hlo := hword 1 (HiLo.ofDigest vkeyHash).lo (by rw [hexposed]; rfl)
    exact (congrArg₂ hiLoWord hhi hlo).trans (hiLoWord_ofDigest vkeyHash)
  · exact hword 2 root (by rw [hexposed]; rfl)
  · exact hword 3 numProofs (by rw [hexposed]; rfl)
  · have hhi := hword 4 (HiLo.ofDigest claimRoot).hi (by rw [hexposed]; rfl)
    have hlo := hword 5 (HiLo.ofDigest claimRoot).lo (by rw [hexposed]; rfl)
    exact (congrArg₂ hiLoWord hhi hlo).trans (hiLoWord_ofDigest claimRoot)
  · exact hlength ▸ verifies_encodeCalldata env (accumulator ++ exposed) proof

/-- A call that carries a proof passes its checks if the verifier accepts the proof. -/
theorem Carries.checked {args : ValidateClaimsRoot} {root numClaims claimRoot : U256}
    (h : args.Carries agg.vkeyHash root numClaims claimRoot)
    (hauthorised : agg.prover = 0 ∨ args.sender = agg.prover)
    (hroot : env.requireValidRoot chain root = true)
    (hcount : numClaims.toNat ≤ 2 ^ agg.logMaxNumClaims.toNat)
    (haccepts : env.verifies 18 args.proof = true) : args.Checked agg env chain where
  authorised := hauthorised
  length_le := h.length_le
  vkeyHash_eq := h.vkeyHash_eq
  root_valid := by rw [h.root_eq, hroot]
  numClaims_le := by rwa [h.numClaims_eq]
  accepted := haccepts

end ValidateClaimsRoot

end WorldcoinAggregationV2

end WorldcoinAggregation
