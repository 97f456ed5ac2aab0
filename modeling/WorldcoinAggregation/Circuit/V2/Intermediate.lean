import WorldcoinAggregation.Circuit.V2.Leaf

/-!
# The V2 aggregation circuits

A V2 aggregation circuit joins intervals like a V1 circuit and hashes the claim roots of its
children. A dummy second child is replaced by the root of an all-zero tree, taken from a table
that ends at height 13. The root circuit differs only in what it exposes.
-/

namespace WorldcoinAggregation

open Synthesis

namespace WorldcoinIntermediateAggregationInputV2

/-- The number of instances of a V2 circuit below the root, without accumulators. -/
def getNumInstance : ℕ := 7

/-- Joins the instances of two circuits of depth `maxDepth - 1`. -/
def joinPreviousInstances (chips : Chips) (instances0 instances1 : List Fr) (numProofs : Fr)
    (maxDepth : ℕ) : Circuit (List Fr) := do
  let numInstancePrevDepth := getNumInstance
  let (instances, is2ndProofDummy) ← checkAndJoinSharedInstances chips.lookupBits instances0
    instances1 numProofs maxDepth numInstancePrevDepth
  -- the table ends at height 13, and a look-up behind its end panics
  let dummyClaimRoot ← lift (dummyClaimRoots chips.keccak256)[maxDepth - 1]?
  let dummyClaimRoot := HiLo.ofDigest dummyClaimRoot
  let claimRootLeft : HiLo Fr := ⟨instances0.getD 5 0, instances0.getD 6 0⟩
  let claimRootRight : HiLo Fr := ⟨instances1.getD 5 0, instances1.getD 6 0⟩
  let claimRootRight : HiLo Fr :=
    ⟨select dummyClaimRoot.hi claimRootRight.hi is2ndProofDummy,
      select dummyClaimRoot.lo claimRootRight.lo is2ndProofDummy⟩
  let claimRoot ← computeKeccakForBranchNodes chips.keccak256 claimRootLeft claimRootRight
  return instances ++ claimRoot.hiLo

/-- The V2 aggregation circuit. The root exposes
`[vkHashHi, vkHashLo, root, numProofs, claimRootHi, claimRootLo]` and any other node
`[start, end_, vkHashHi, vkHashLo, root, claimRootHi, claimRootLo]`, after the accumulator. -/
def virtualAssignPhase0Helper (chips : Chips) (instances0 instances1 : List Fr) (numProofs : Fr)
    (maxDepth : ℕ) (exposeNumProofs : Bool) : Circuit (List Fr) := do
  let newInstances ← joinPreviousInstances chips instances0 instances1 numProofs maxDepth
  if exposeNumProofs then
    return newInstances.extract 2 5 ++ [numProofs] ++ newInstances.extract 5 7
  else
    return newInstances.extract 0 7

def virtualAssignPhase0 (chips : Chips) (instances0 instances1 : List Fr) (numProofs : Fr)
    (maxDepth : ℕ) : Circuit (List Fr) :=
  virtualAssignPhase0Helper chips instances0 instances1 numProofs maxDepth false

end WorldcoinIntermediateAggregationInputV2

def WorldcoinRootAggregationInputV2.virtualAssignPhase0 (chips : Chips)
    (instances0 instances1 : List Fr) (numProofs : Fr) (maxDepth : ℕ) : Circuit (List Fr) :=
  WorldcoinIntermediateAggregationInputV2.virtualAssignPhase0Helper chips instances0 instances1
    numProofs maxDepth true

/-! ## Joining claim roots -/

/-- The root of the all-zero claim tree of this height. -/
def zeroRoot (keccak256 : List UInt8 → BitVec 256) (k : ℕ) : BitVec 256 :=
  Merkle.uniformRoot (hashNodes keccak256) (keccak256 zeroClaim) k

/-- It is the claim root of all-zero claims. -/
theorem claimRootOf_zero (keccak256 : List UInt8 → BitVec 256) (k : ℕ) :
    claimRootOf keccak256 k (List.replicate (2 ^ k) zeroClaim) = zeroRoot keccak256 k := by
  rw [claimRootOf, List.map_replicate, Merkle.root_replicate, zeroRoot]

/-- The claim root that counts as the second child's. -/
def rightRoot (keccak256 : List UInt8 → BitVec 256) (k : ℕ) (is2ndProofDummy : Fr)
    (claimRoot : BitVec 256) : BitVec 256 :=
  if is2ndProofDummy = 1 then zeroRoot keccak256 k else claimRoot

/-- What the root circuit exposes for these claims. -/
def rootInstances (vkHash : HiLo Fr) (root numProofs : Fr) (claimRoot : BitVec 256) : List Fr :=
  vkHash.hiLo ++ [root, numProofs] ++ (HiLo.ofDigest claimRoot).hiLo

/-- The indicator of a join is a bit. -/
theorem Joined.bit {k leftCount rightCount numProofs : ℕ} {left right : SharedInstances}
    {endIdx is2ndProofDummy : Fr}
    (h : Joined k left right leftCount rightCount numProofs endIdx is2ndProofDummy) :
    is2ndProofDummy = 1 ∨ is2ndProofDummy = 0 := by
  cases h with
  | dummy hdummy => exact .inl hdummy
  | linked hdummy => exact .inr hdummy

/-- Selecting the halves of the second claim root. -/
theorem select_rightRoot (keccak256 : List UInt8 → BitVec 256) (k : ℕ) (claimRoot : BitVec 256)
    {is2ndProofDummy : Fr} (h : is2ndProofDummy = 1 ∨ is2ndProofDummy = 0) :
    (⟨select (HiLo.ofDigest (zeroRoot keccak256 k)).hi (HiLo.ofDigest claimRoot).hi is2ndProofDummy,
      select (HiLo.ofDigest (zeroRoot keccak256 k)).lo (HiLo.ofDigest claimRoot).lo
        is2ndProofDummy⟩ : HiLo Fr) =
      HiLo.ofDigest (rightRoot keccak256 k is2ndProofDummy claimRoot) := by
  rcases h with rfl | rfl
  · simp [rightRoot]
  · simp [rightRoot, Fr.zero_ne_one]

namespace WorldcoinIntermediateAggregationInputV2

open WorldcoinLeafInputV2 (instances)

variable {chips : Chips} {left right : SharedInstances} {leftCount rightCount k : ℕ}
  {leftRoot claimRoot : BitVec 256} {total endIdx is2ndProofDummy : Fr}

/-- A V2 join joins the intervals of its children and hashes their claim roots. -/
theorem sound_joinPreviousInstances (hl : left.Covers leftCount) (hr : right.Covers rightCount) :
    Sound (joinPreviousInstances chips (instances left leftRoot) (instances right claimRoot) total
      (k + 1)) fun out =>
      k < 14 ∧ left.vkHash = right.vkHash ∧ left.root = right.root ∧
      ∃ endIdx is2ndProofDummy,
        out = instances { left with end_ := endIdx } (hashNodes chips.keccak256 leftRoot
          (rightRoot chips.keccak256 k is2ndProofDummy claimRoot)) ∧
        Joined k left right leftCount rightCount total.val endIdx is2ndProofDummy := by
  refine (sound_checkAndJoinSharedInstances hl hr).bind fun ⟨shared, is2ndProofDummy⟩ hjoin => ?_
  obtain ⟨-, -, -, hvk, hroot, endIdx, hshared, hjoined⟩ := hjoin
  refine Sound.lift.bind fun dummyClaimRoot hdummy => ?_
  rw [Nat.add_sub_cancel, getElem?_dummyClaimRoots] at hdummy
  obtain ⟨hk, rfl⟩ : k < 14 ∧ zeroRoot chips.keccak256 k = dummyClaimRoot := by
    split at hdummy
    · exact ⟨‹_›, Option.some.inj hdummy⟩
    · cases hdummy
  have hright := select_rightRoot chips.keccak256 k claimRoot hjoined.bit
  have hparent : Sound (computeKeccakForBranchNodes chips.keccak256 (HiLo.ofDigest leftRoot)
      ⟨select (HiLo.ofDigest (zeroRoot chips.keccak256 k)).hi (HiLo.ofDigest claimRoot).hi
          is2ndProofDummy,
        select (HiLo.ofDigest (zeroRoot chips.keccak256 k)).lo (HiLo.ofDigest claimRoot).lo
          is2ndProofDummy⟩) fun parent => parent = HiLo.ofDigest (hashNodes chips.keccak256 leftRoot
            (rightRoot chips.keccak256 k is2ndProofDummy claimRoot)) := by
    rw [hright]
    exact tracks_computeKeccakForBranchNodes.sound.mono fun _ ⟨_, h⟩ => h
  refine hparent.bind fun parent hnode => .pure ⟨hk, hvk, hroot, endIdx, is2ndProofDummy, ?_,
    hjoined⟩
  obtain rfl : shared = _ := hshared
  rw [hnode]
  rfl

/-- Children that join satisfy the constraints of a V2 parent, whatever their claim roots. -/
theorem honest_joinPreviousInstances (hl : left.Covers leftCount) (hr : right.Covers rightCount)
    (hk : k < 14) (hcount1 : rightCount ≤ 2 ^ k) (hvk : left.vkHash = right.vkHash)
    (hroot : left.root = right.root) (hrange : RangeAdmits chips.lookupBits k (2 ^ (k + 1)))
    (h : Joined k left right leftCount rightCount total.val endIdx is2ndProofDummy) :
    Honest (joinPreviousInstances chips (instances left leftRoot) (instances right claimRoot) total
      (k + 1)) (instances { left with end_ := endIdx } (hashNodes chips.keccak256 leftRoot
        (rightRoot chips.keccak256 k is2ndProofDummy claimRoot))) := by
  have hdummy : (dummyClaimRoots chips.keccak256)[k + 1 - 1]? =
      some (zeroRoot chips.keccak256 k) := by
    rw [Nat.add_sub_cancel, getElem?_dummyClaimRoots, if_pos hk]
    rfl
  have hright := select_rightRoot chips.keccak256 k claimRoot h.bit
  have hlen (shared : SharedInstances) (claimRoot : BitVec 256) :
      getNumInstance = (shared.toList ++ (HiLo.ofDigest claimRoot).hiLo).length := rfl
  refine (honest_checkAndJoinSharedInstances hl hr (by omega) (hlen left leftRoot)
    (hlen right claimRoot) hcount1 hvk hroot hrange h).bind ?_
  refine (Honest.lift hdummy).bind ?_
  have hparent := honest_computeKeccakForBranchNodes chips.keccak256 leftRoot
    (rightRoot chips.keccak256 k is2ndProofDummy claimRoot)
  rw [← hright] at hparent
  exact hparent.bind (.pure _)

/-- An intermediate V2 circuit exposes its joined instances. -/
theorem sound_virtualAssignPhase0 (hl : left.Covers leftCount) (hr : right.Covers rightCount) :
    Sound (virtualAssignPhase0 chips (instances left leftRoot) (instances right claimRoot) total
      (k + 1)) fun out =>
      k < 14 ∧ left.vkHash = right.vkHash ∧ left.root = right.root ∧
      ∃ endIdx is2ndProofDummy,
        out = instances { left with end_ := endIdx } (hashNodes chips.keccak256 leftRoot
          (rightRoot chips.keccak256 k is2ndProofDummy claimRoot)) ∧
        Joined k left right leftCount rightCount total.val endIdx is2ndProofDummy := by
  refine (sound_joinPreviousInstances hl hr).bind fun out hjoin => .pure ?_
  obtain ⟨hk, hvk, hroot, endIdx, is2ndProofDummy, rfl, hjoined⟩ := hjoin
  exact ⟨hk, hvk, hroot, endIdx, is2ndProofDummy, rfl, hjoined⟩

/-- Children that join satisfy an intermediate V2 circuit. -/
theorem honest_virtualAssignPhase0 (hl : left.Covers leftCount) (hr : right.Covers rightCount)
    (hk : k < 14) (hcount1 : rightCount ≤ 2 ^ k) (hvk : left.vkHash = right.vkHash)
    (hroot : left.root = right.root) (hrange : RangeAdmits chips.lookupBits k (2 ^ (k + 1)))
    (h : Joined k left right leftCount rightCount total.val endIdx is2ndProofDummy) :
    Honest (virtualAssignPhase0 chips (instances left leftRoot) (instances right claimRoot) total
      (k + 1)) (instances { left with end_ := endIdx } (hashNodes chips.keccak256 leftRoot
        (rightRoot chips.keccak256 k is2ndProofDummy claimRoot))) :=
  (honest_joinPreviousInstances hl hr hk hcount1 hvk hroot hrange h).bind (.pure _)

end WorldcoinIntermediateAggregationInputV2

namespace WorldcoinRootAggregationInputV2

open WorldcoinLeafInputV2 (instances)

variable {chips : Chips} {left right : SharedInstances} {leftCount rightCount k : ℕ}
  {leftRoot claimRoot : BitVec 256} {total endIdx is2ndProofDummy : Fr}

/-- The V2 root exposes the number of claims in place of their interval. -/
theorem sound_virtualAssignPhase0 (hl : left.Covers leftCount) (hr : right.Covers rightCount) :
    Sound (virtualAssignPhase0 chips (instances left leftRoot) (instances right claimRoot) total
      (k + 1)) fun out =>
      k < 14 ∧ left.vkHash = right.vkHash ∧ left.root = right.root ∧
      ∃ endIdx is2ndProofDummy,
        out = rootInstances left.vkHash left.root total (hashNodes chips.keccak256 leftRoot
          (rightRoot chips.keccak256 k is2ndProofDummy claimRoot)) ∧
        Joined k left right leftCount rightCount total.val endIdx is2ndProofDummy := by
  refine (WorldcoinIntermediateAggregationInputV2.sound_joinPreviousInstances hl hr).bind
    fun out hjoin => .pure ?_
  obtain ⟨hk, hvk, hroot, endIdx, is2ndProofDummy, rfl, hjoined⟩ := hjoin
  exact ⟨hk, hvk, hroot, endIdx, is2ndProofDummy, rfl, hjoined⟩

/-- Children that join satisfy the V2 root circuit. -/
theorem honest_virtualAssignPhase0 (hl : left.Covers leftCount) (hr : right.Covers rightCount)
    (hk : k < 14) (hcount1 : rightCount ≤ 2 ^ k) (hvk : left.vkHash = right.vkHash)
    (hroot : left.root = right.root) (hrange : RangeAdmits chips.lookupBits k (2 ^ (k + 1)))
    (h : Joined k left right leftCount rightCount total.val endIdx is2ndProofDummy) :
    Honest (virtualAssignPhase0 chips (instances left leftRoot) (instances right claimRoot) total
      (k + 1)) (rootInstances left.vkHash left.root total (hashNodes chips.keccak256 leftRoot
        (rightRoot chips.keccak256 k is2ndProofDummy claimRoot))) :=
  (WorldcoinIntermediateAggregationInputV2.honest_joinPreviousInstances hl hr hk hcount1 hvk hroot
    hrange h).bind (.pure _)

end WorldcoinRootAggregationInputV2

end WorldcoinAggregation
