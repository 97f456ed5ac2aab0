import WorldcoinAggregation.Base.Keccak
import WorldcoinAggregation.Circuit.V1.Root
import WorldcoinAggregation.Circuit.V2.Intermediate

/-!
# Trees of proofs

A batch is proven by a perfect binary tree of circuits. `ProofTree` holds the witnesses that a
prover supplies at the leaves and at the joins, none of which is assumed to be honest, and
`ProofTree.instances` are the instances of its top circuit if all constraints hold. `Spans` is the
invariant that V1 and V2 trees share: a tree covers one interval of claims, left to right.
-/

namespace WorldcoinAggregation

open Synthesis

/-- The witness of a leaf circuit: its input and its advice values. -/
structure LeafWitness where
  input : WorldcoinLeafInput
  advice : List (List UInt8)

/-- The witnesses of a perfect binary tree of circuits. Every join has its own number of proofs
and its own advice values. -/
inductive ProofTree : ℕ → Type where
  | leaf (witness : LeafWitness) : ProofTree 0
  | node {height : ℕ} (left right : ProofTree height) (numProofs : Fr)
      (advice : List (List UInt8)) : ProofTree (height + 1)

/-- The circuits below the root of a tree. -/
structure TreeCircuits where
  leaf : WorldcoinLeafInput → Circuit (List Fr)
  join : (instances0 instances1 : List Fr) → (numProofs : Fr) → (maxDepth : ℕ) → Circuit (List Fr)

/-- The V1 circuits. -/
def v1Circuits (chips : Chips) : TreeCircuits where
  leaf input := input.virtualAssignPhase0 chips
  join := WorldcoinIntermediateAggregationInput.joinPreviousInstances chips.lookupBits

/-- The V2 circuits. -/
def v2Circuits (chips : Chips) : TreeCircuits where
  leaf := WorldcoinLeafInputV2.virtualAssignPhase0 chips
  join := WorldcoinIntermediateAggregationInputV2.virtualAssignPhase0 chips

namespace ProofTree

/-- The instances that the top circuit of a tree exposes, if all constraints of the tree hold. -/
def instances (circuits : TreeCircuits) (initialDepth : ℕ) :
    {height : ℕ} → ProofTree height → Option (List Fr)
  | _, leaf witness =>
      if witness.input.maxDepth = initialDepth then
        output (circuits.leaf witness.input) (.scripted witness.advice)
      else none
  | height + 1, node left right numProofs advice => do
      let instances0 ← left.instances circuits initialDepth
      let instances1 ← right.instances circuits initialDepth
      output (circuits.join instances0 instances1 numProofs (initialDepth + height + 1))
        (.scripted advice)

/-- What a root circuit on top of two trees exposes, if all constraints hold. -/
def rootOutput {α : Type} (circuits : TreeCircuits)
    (rootCircuit : List Fr → List Fr → Fr → ℕ → Circuit α) (initialDepth : ℕ) :
    {height : ℕ} → ProofTree (height + 1) → Option α
  | height, node left right numProofs advice => do
      let instances0 ← left.instances circuits initialDepth
      let instances1 ← right.instances circuits initialDepth
      output (rootCircuit instances0 instances1 numProofs (initialDepth + height + 1))
        (.scripted advice)

/-- The leaves from left to right. -/
def leaves : {height : ℕ} → ProofTree height → List LeafWitness
  | _, leaf witness => [witness]
  | _, node left right _ _ => left.leaves ++ right.leaves

/-- The number of proofs that the top join of a tree claims. -/
def numProofs : {height : ℕ} → ProofTree (height + 1) → Fr
  | _, node _ _ numProofs _ => numProofs

/-- A perfect tree has `2 ^ height` leaves. -/
@[simp] theorem length_leaves {height : ℕ} (tree : ProofTree height) :
    tree.leaves.length = 2 ^ height := by
  induction tree with
  | leaf witness => rfl
  | node left right numProofs advice ihl ihr =>
      rw [leaves, List.length_append, ihl, ihr, pow_succ, mul_two]

/-- Every leaf below a satisfied circuit is satisfied. -/
theorem instances_leaf {circuits : TreeCircuits} {initialDepth height : ℕ}
    (tree : ProofTree height) {instances : List Fr}
    (h : tree.instances circuits initialDepth = some instances) :
    ∀ witness ∈ tree.leaves, ∃ out,
      (leaf witness).instances circuits initialDepth = some out := by
  induction tree generalizing instances with
  | leaf witness =>
      simp only [leaves, List.mem_singleton, forall_eq]
      exact ⟨instances, h⟩
  | node left right numProofs advice ihl ihr =>
      simp only [ProofTree.instances, Option.bind_eq_bind, Option.bind_eq_some_iff] at h
      obtain ⟨_, hleft, _, hright, -⟩ := h
      intro witness hmem
      rcases List.mem_append.mp hmem with hmem | hmem
      · exact ihl hleft witness hmem
      · exact ihr hright witness hmem

/-- Every leaf below a satisfied root is satisfied. -/
theorem rootOutput_leaf {α : Type} {circuits : TreeCircuits}
    {rootCircuit : List Fr → List Fr → Fr → ℕ → Circuit α} {initialDepth height : ℕ}
    (tree : ProofTree (height + 1)) {out : α}
    (h : tree.rootOutput circuits rootCircuit initialDepth = some out) :
    ∀ witness ∈ tree.leaves, ∃ out,
      (leaf witness).instances circuits initialDepth = some out := by
  cases tree with
  | node left right numProofs advice =>
      simp only [rootOutput, Option.bind_eq_bind, Option.bind_eq_some_iff] at h
      obtain ⟨_, hleft, _, hright, -⟩ := h
      intro witness hmem
      rcases List.mem_append.mp hmem with hmem | hmem
      · exact left.instances_leaf hleft witness hmem
      · exact right.instances_leaf hright witness hmem

end ProofTree

/-- The length of equally long blocks together. -/
theorem length_flatMap_of_forall {α β : Type} {f : α → List β} {m : ℕ} {xs : List α}
    (h : ∀ x ∈ xs, (f x).length = m) : (xs.flatMap f).length = xs.length * m := by
  rw [List.length_flatMap, List.map_congr_left h, List.map_const', List.sum_replicate,
    smul_eq_mul]

/-- The words that a leaf hashes for its verifying key. -/
def LeafWitness.vkWords (witness : LeafWitness) : List (List UInt8) :=
  witness.advice.take numFeHiloVkey

/-- The words of the verifying key are the first that a leaf reads. -/
theorem LeafWitness.vkWords_eq {witness : LeafWitness} {words rest : List (List UInt8)}
    (hadvice : witness.advice = words ++ rest) (hwords : WordsOf witness.input.vkBytes words)
    (hlen : witness.input.vkBytes.length = numFeHiloVkey) : witness.vkWords = words := by
  rw [vkWords, hadvice, ← hlen, hwords.length_eq]
  simp

/-- The witness of a leaf in a tree with these shared instances. -/
structure LeafWitness.Fits (chips : Chips) (initialDepth : ℕ) (shared : SharedInstances)
    (witness : LeafWitness) : Prop where
  constraints : LeafConstraints chips witness.input
  maxDepth_eq : witness.input.maxDepth = initialDepth
  root_eq : witness.input.root = shared.root
  vkWords : WordsOf witness.input.vkBytes witness.vkWords
  vkHash_eq : vkHashOf chips.keccak256 witness.vkWords = shared.vkHash

/-- Leaf `j` of a list covers its part of the `count` claims from `start` on. -/
def CoversAt (initialDepth start count : ℕ) (leaves : List LeafWitness) (j : ℕ) : Prop :=
  ∃ witness, leaves[j]? = some witness ∧
    witness.input.start.val = start + j * 2 ^ initialDepth ∧
    witness.input.end_.val = min (start + (j + 1) * 2 ^ initialDepth) (start + count)

/-- The leaves that start within the claims are the first `⌈count / 2 ^ initialDepth⌉`. -/
theorem lt_ceil_iff {initialDepth count j : ℕ} :
    j < (count + 2 ^ initialDepth - 1) / 2 ^ initialDepth ↔ j * 2 ^ initialDepth < count := by
  have hpos : 0 < 2 ^ initialDepth := Nat.two_pow_pos _
  rw [← Nat.succ_le_iff, Nat.le_div_iff_mul_le hpos, Nat.succ_mul]
  omega

/-- The leaves of a tree agree on their key and root, and those below the number of claims cover
the interval of the tree from left to right. -/
structure Spans (chips : Chips) (initialDepth : ℕ) {height : ℕ} (tree : ProofTree height)
    (shared : SharedInstances) (count : ℕ) : Prop where
  covers : shared.Covers count
  count_le : count ≤ 2 ^ (initialDepth + height)
  fits : ∀ witness ∈ tree.leaves, witness.Fits chips initialDepth shared
  coverage : ∀ j, j * 2 ^ initialDepth < count →
    CoversAt initialDepth shared.start.val count tree.leaves j

variable {chips : Chips} {initialDepth height : ℕ}

/-- A leaf spans its own interval. -/
theorem Spans.leaf {witness : LeafWitness} {shared : SharedInstances}
    (hfits : witness.Fits chips initialDepth shared) (hstart : witness.input.start = shared.start)
    (hend : witness.input.end_ = shared.end_) :
    Spans chips initialDepth (.leaf witness) shared (shared.end_.val - shared.start.val) := by
  have hlt := hfits.constraints.start_lt
  have hle := hfits.constraints.count_le
  rw [hstart, hend] at hlt hle
  rw [hfits.maxDepth_eq] at hle
  refine ⟨⟨by omega, hend ▸ hfits.constraints.end_lt, by omega⟩, hle, ?_, ?_⟩
  · simpa [ProofTree.leaves] using hfits
  · intro j hj
    obtain rfl : j = 0 := by
      by_contra hne
      have : 2 ^ initialDepth ≤ j * 2 ^ initialDepth := Nat.le_mul_of_pos_left _ (by omega)
      omega
    refine ⟨witness, rfl, by rw [hstart]; simp, ?_⟩
    rw [hend]
    omega

/-- Leaf numbers of a tree are those that start within its number of claims. -/
theorem mul_two_pow_lt_iff {j : ℕ} :
    j * 2 ^ initialDepth < 2 ^ (initialDepth + height) ↔ j < 2 ^ height := by
  rw [pow_add, mul_comm (2 ^ initialDepth)]
  exact Nat.mul_lt_mul_right (Nat.two_pow_pos _)

/-- More leaves to the right change nothing. -/
theorem CoversAt.append_left {start count j : ℕ} {leaves more : List LeafWitness}
    (h : CoversAt initialDepth start count leaves j) :
    CoversAt initialDepth start count (leaves ++ more) j := by
  obtain ⟨witness, hget, hcover⟩ := h
  refine ⟨witness, ?_, hcover⟩
  rw [List.getElem?_append_left (List.getElem?_eq_some_iff.mp hget).1, hget]

/-- A full tree keeps its coverage when more claims follow. -/
theorem CoversAt.full {start count j : ℕ} {leaves : List LeafWitness} (hj : j < 2 ^ height)
    (h : CoversAt initialDepth start (2 ^ (initialDepth + height)) leaves j) :
    CoversAt initialDepth start (2 ^ (initialDepth + height) + count) leaves j := by
  obtain ⟨witness, hget, hstart, hend⟩ := h
  have hnext : (j + 1) * 2 ^ initialDepth ≤ 2 ^ (initialDepth + height) := by
    rw [pow_add, mul_comm (2 ^ initialDepth)]
    exact Nat.mul_le_mul_right _ hj
  exact ⟨witness, hget, hstart, by omega⟩

/-- Behind a full tree the leaves are shifted by its size. -/
theorem CoversAt.append_right {start count j : ℕ} {full leaves : List LeafWitness}
    (hfull : full.length = 2 ^ height)
    (h : CoversAt initialDepth (start + 2 ^ (initialDepth + height)) count leaves j) :
    CoversAt initialDepth start (2 ^ (initialDepth + height) + count) (full ++ leaves)
      (2 ^ height + j) := by
  obtain ⟨witness, hget, hstart, hend⟩ := h
  have hshift (i : ℕ) : (2 ^ height + i) * 2 ^ initialDepth =
      2 ^ (initialDepth + height) + i * 2 ^ initialDepth := by
    rw [pow_add]
    ring
  refine ⟨witness, ?_, ?_, ?_⟩
  · rw [List.getElem?_append_right (by omega), hfull, Nat.add_sub_cancel_left, hget]
  · rw [hstart, hshift, add_assoc]
  · rw [hend, add_assoc (2 ^ height), hshift, add_assoc, add_assoc]

/-- A join of trees that span intervals spans the joined interval. -/
theorem Spans.node {left right : ProofTree height} {leftShared rightShared : SharedInstances}
    {leftCount rightCount count : ℕ} {numProofs endIdx is2ndProofDummy : Fr}
    {advice : List (List UInt8)} (hl : Spans chips initialDepth left leftShared leftCount)
    (hr : Spans chips initialDepth right rightShared rightCount)
    (hvk : leftShared.vkHash = rightShared.vkHash) (hroot : leftShared.root = rightShared.root)
    (h : Joined (initialDepth + height) leftShared rightShared leftCount rightCount count endIdx
      is2ndProofDummy) :
    Spans chips initialDepth (.node left right numProofs advice)
      { leftShared with end_ := endIdx } count := by
  refine ⟨h.covers hl.covers hr.covers, h.le, ?_, ?_⟩
  · intro witness hmem
    rcases List.mem_append.mp hmem with hmem | hmem
    · obtain ⟨hconstraints, hdepth, hrootEq, hwords, hvkEq⟩ := hl.fits witness hmem
      exact ⟨hconstraints, hdepth, hrootEq, hwords, hvkEq⟩
    · obtain ⟨hconstraints, hdepth, hrootEq, hwords, hvkEq⟩ := hr.fits witness hmem
      exact ⟨hconstraints, hdepth, hrootEq.trans hroot.symm, hwords, hvkEq.trans hvk.symm⟩
  · intro j hj
    cases h with
    | dummy _ _ hcount _ =>
        subst hcount
        exact (hl.coverage j hj).append_left
    -- the leaves of the first child come first, and it is full
    | linked _ _ hcount hleft _ hlink =>
        subst hcount hleft
        by_cases hlt : j < 2 ^ height
        · exact ((hl.coverage j (mul_two_pow_lt_iff.mpr hlt)).full hlt).append_left
        · obtain ⟨i, rfl⟩ := Nat.exists_eq_add_of_le (Nat.le_of_not_lt hlt)
          have hi : i * 2 ^ initialDepth < rightCount := by
            rw [Nat.add_mul, ← pow_add, add_comm height] at hj
            omega
          have hright := hr.coverage i hi
          rw [← hlink, ← hl.covers.start_add] at hright
          exact hright.append_right (ProofTree.length_leaves left)

/-! ## A concrete leaf

The examples below use one claim, a Groth16 gadget that accepts the proof of this claim and
nothing else, and Keccak-256. -/

/-- One claim. -/
def soleClaim : ClaimInput where
  receiver := 2
  nullifierHash := 5
  grantId := 3
  proofBytes := []

/-- A leaf of depth 0 for the sole claim. -/
def soleLeaf (start end_ : Fr) : WorldcoinLeafInput where
  start := start
  end_ := end_
  vkBytes := List.replicate numFeHiloVkey 1
  root := 7
  claims := [soleClaim]
  numPublicInputs := 5
  maxDepth := 0

/-- Chips whose Groth16 gadget accepts the sole claim only. -/
def soleChips : Chips where
  lookupBits := 8
  keccak256 := Keccak.keccak256
  handleSingleGroth16verify input _ _ _ :=
    if input = soleClaim.groth16VerifierInput (List.replicate numFeHiloVkey 1) 5 7 then ⟨0, 1⟩
    else ⟨0, 0⟩

/-- The key hash of the sole leaf. -/
def soleVkHash : HiLo Fr :=
  vkHashOf soleChips.keccak256 (canonicalWords (List.replicate numFeHiloVkey 1))

/-- The shared instances of a sole leaf. -/
def soleShared (start end_ : Fr) : SharedInstances :=
  ⟨start, end_, soleVkHash, 7⟩

/-- A sole leaf over one index meets its constraints. -/
theorem soleLeaf_constraints {start end_ : Fr} (hend : end_.val = start.val + 1)
    (hlt : end_.val < 2 ^ 64) : LeafConstraints soleChips (soleLeaf start end_) where
  start_lt := by
    simp only [soleLeaf]
    omega
  end_lt := hlt
  depth_lt := by simp [soleLeaf]
  count_le := by
    simp only [soleLeaf]
    omega
  vk_length := List.length_replicate
  accepted := by
    simp [soleLeaf, ClaimInput.Accepted, soleChips]

/-- The first of two sole leaves. -/
theorem covers_soleShared_left : (soleShared 0 1).Covers 1 :=
  ⟨by decide, by decide, by decide⟩

/-- The second of two sole leaves. -/
theorem covers_soleShared_right : (soleShared 1 2).Covers 1 :=
  ⟨by decide, by decide, by decide⟩

/-- Two sole leaves join. -/
theorem joined_soleShared : Joined 0 (soleShared 0 1) (soleShared 1 2) 1 1 (2 : Fr).val 2 0 :=
  .linked rfl rfl (by decide) (by decide) (by decide) rfl

/-- The range checks admit two claims. -/
theorem rangeAdmits_sole : RangeAdmits soleChips.lookupBits 0 (2 ^ 1) := by
  decide

end WorldcoinAggregation
