import WorldcoinAggregation.Contract.Payouts
import WorldcoinAggregation.Scheduler.Completeness

/-!
# Submitting a proof

The scheduler answers the request for a batch with a proof for the chain. The prover encodes it as
calldata: the public instances, one word each, and the bytes of the SNARK behind them.
-/

namespace WorldcoinAggregation

open Fallible

/-- The calldata for the verifier. -/
def encodeCalldata (instances : List Fr) (proof : List UInt8) : List UInt8 :=
  encodeWords (instances.map Fr.word) proof

/-- The calldata holds a word for each of the instances behind an accumulator. -/
theorem word_encodeCalldata {accumulator exposed : List Fr} {proof : List UInt8} {i : ℕ} {x : Fr}
    (haccumulator : accumulator.length = numFeAccumulator) (h : exposed[i]? = some x) :
    unsafeCalldataBytesAccess (encodeCalldata (accumulator ++ exposed) proof) ((12 + i) * 32) =
      x.word := by
  have htwelve : accumulator.length = 12 := haccumulator
  refine unsafeCalldataBytesAccess_encodeWords ?_
  rw [List.getElem?_map, ← htwelve, List.getElem?_append_right (Nat.le_add_right _ _),
    Nat.add_sub_cancel_left, h, Option.map_some]

/-- The calldata is at least as long as its words. -/
theorem le_length_encodeCalldata (instances : List Fr) (proof : List UInt8) :
    instances.length * 32 ≤ (encodeCalldata instances proof).length := by
  rw [encodeCalldata, length_encodeWords, List.length_map]
  omega

/-- The verifier sees the instances and the bytes of the SNARK. -/
theorem verifies_encodeCalldata {Chain : Type} (env : Externals Chain) (instances : List Fr)
    (proof : List UInt8) : env.verifies instances.length (encodeCalldata instances proof) =
      env.snarkAccepts instances proof := by
  have hdrop := drop_encodeWords (instances.map Fr.word) proof
  rw [List.length_map] at hdrop
  rw [Externals.verifies, encodeCalldata, publicInstances_word, hdrop]

/-- The words of the instances are below the field order. -/
theorem calldataload_encodeCalldata_lt {instances : List Fr} {proof : List UInt8} {i : ℕ}
    (h : i < instances.length) :
    (calldataload (encodeCalldata instances proof) (32 * i)).toNat < frModulus := by
  have hword : (instances.map Fr.word)[i]? = some (Fr.word instances[i]) := by
    rw [List.getElem?_map, List.getElem?_eq_getElem h, Option.map_some]
  rw [encodeCalldata, calldataload_encodeWords hword, Fr.toNat_word]
  exact Fr.val_lt _

variable {version : Version} {chips : Chips} {component : Groth16Component} {vk : VkNative}
  {circuitIds : NodeParams → Option String}

/-- The scheduler proves every admissible batch, and the proof describes it. -/
theorem exists_batchProof {root : ℕ} {claims : List ClaimNative}
    {round depth initialDepth fuel : ℕ}
    (hsetup : ProvingSetup chips component vk circuitIds root round depth initialDepth)
    (hmax : depth ≤ version.maxDepth) (hpos : 1 ≤ claims.length) (hle : claims.length ≤ 2 ^ depth)
    (hvalid : ∀ claim ∈ claims, claim.Valid chips component vk root)
    (hfuel : depth - initialDepth + round + 2 ≤ fuel) :
    ∃ out, (honestScheduler version chips component vk circuitIds).recursiveGenProof fuel
        (batchRequest root claims ⟨.evm round, depth, initialDepth⟩) true = .ok (.evmProof out) ∧
      DescribesBatch version chips depth (honestVkHash chips component vk) root
        (claims.map (ClaimNative.input component)) out := by
  have hlt := hsetup.initialDepth_lt
  have hpred : depth - 1 < version.maxDepth := by omega
  have h31 := Version.lt_of_lt_maxDepth hpred
  obtain ⟨fuel, rfl⟩ : ∃ f, fuel = f + 1 := ⟨fuel - 1, by omega⟩
  have hdepth : depth ≤ 31 := by omega
  have hfuel' : depth - initialDepth + round < fuel := by omega
  obtain ⟨out, hdescribes, hproof⟩ := exists_evmProof hsetup hmax le_rfl
    (provable_batchRequest hdepth hpos hle hvalid) rfl hfuel'
  exact ⟨out, hproof true, hdescribes⟩

end WorldcoinAggregation
