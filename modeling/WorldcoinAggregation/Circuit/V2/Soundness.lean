import WorldcoinAggregation.Circuit.ProofTree

/-!
# Soundness of V2 aggregation

The claim root that a V2 root exposes is the Merkle root over the byte strings that the covered
leaves hash, padded with zero claims, whatever witnesses the prover supplies
(`v2Invariant_of_instances`). Those strings are the packed claims exactly when every supplied
decomposition is canonical, because a 32-byte word may denote a field element plus a multiple of
the field order.
-/

namespace WorldcoinAggregation

open Synthesis

/-- The pieces that a leaf hashes for slot `i`. -/
def LeafWitness.slot (witness : LeafWitness) (i : ℕ) : List (List UInt8) :=
  (witness.advice.drop (numFeHiloVkey + 3 * i)).take 3

/-- The pieces that a leaf hashes for its slots. -/
def LeafWitness.slots (witness : LeafWitness) : List (List (List UInt8)) :=
  (List.range (2 ^ witness.input.maxDepth)).map witness.slot

/-- The strings that a leaf hashes for its slots. -/
def LeafWitness.strings (witness : LeafWitness) : List (List UInt8) :=
  witness.slots.map List.flatten

/-- Every decomposition that the leaf reads for its key and its slots denotes a number below the
field order. -/
def LeafWitness.Canonical (witness : LeafWitness) : Prop :=
  ∀ bytes ∈ witness.advice.take (numFeHiloVkey + 3 * 2 ^ witness.input.maxDepth),
    WorldcoinAggregation.Canonical bytes

/-- The leaves in front that hold this number of claims. -/
def coveredLeaves (initialDepth count : ℕ) (leaves : List LeafWitness) : List LeafWitness :=
  leaves.take ((count + 2 ^ initialDepth - 1) / 2 ^ initialDepth)

/-- The strings that the covered leaves of a tree hash, padded with zero claims. -/
def treeStrings (initialDepth count : ℕ) {height : ℕ} (tree : ProofTree height) :
    List (List UInt8) :=
  padStrings (2 ^ (initialDepth + height))
    ((coveredLeaves initialDepth count tree.leaves).flatMap LeafWitness.strings)

variable {chips : Chips} {initialDepth height count : ℕ}

/-! ## Slots on the script -/

/-- The length of blocks of three together. -/
theorem length_flatten_three {slots : List (List (List UInt8))}
    (h : ∀ slot ∈ slots, slot.length = 3) : slots.flatten.length = 3 * slots.length := by
  rw [← List.flatMap_id', length_flatMap_of_forall h, mul_comm]

/-- Cutting blocks of three out of their concatenation. -/
theorem take_drop_flatten {slots : List (List (List UInt8))} {rest : List (List UInt8)}
    (h : ∀ slot ∈ slots, slot.length = 3) {i : ℕ} {slot : List (List UInt8)}
    (hslot : slots[i]? = some slot) : ((slots.flatten ++ rest).drop (3 * i)).take 3 = slot := by
  induction slots generalizing i with
  | nil => simp at hslot
  | cons head slots ih =>
      have hhead : head.length = 3 := h head (by simp)
      cases i with
      | zero =>
          obtain rfl : head = slot := by simpa using hslot
          simp [hhead]
      | succ i =>
          have htail := ih (fun s hs => h s (by simp [hs])) (by simpa using hslot)
          have hstart : 3 * (i + 1) = head.length + 3 * i := by omega
          rw [List.flatten_cons, List.append_assoc, hstart, List.drop_length_add_append]
          exact htail

/-- The words of the key and the slots are read off the script of a leaf. -/
theorem LeafWitness.slots_eq {witness : LeafWitness} {vkWords rest : List (List UInt8)}
    {slots : List (List (List UInt8))}
    (hadvice : witness.advice = vkWords ++ slots.flatten ++ rest)
    (hvk : vkWords.length = numFeHiloVkey) (hthree : ∀ slot ∈ slots, slot.length = 3)
    (hlen : slots.length = 2 ^ witness.input.maxDepth) : witness.slots = slots := by
  refine List.ext_getElem (by simp [LeafWitness.slots, hlen]) fun i hi hi' => ?_
  have hget : slots[i]? = some slots[i] := List.getElem?_eq_getElem hi'
  simp only [LeafWitness.slots, List.getElem_map, List.getElem_range, slot]
  rw [hadvice, List.append_assoc, ← hvk, List.drop_length_add_append]
  exact take_drop_flatten hthree hget

/-! ## The invariant -/

/-- The slots of a leaf are decompositions of its claims and follow the words of its key. -/
structure LeafWitness.Decomposes (witness : LeafWitness) : Prop where
  claims_length : witness.input.claims.length = 2 ^ witness.input.maxDepth
  advice_eq : witness.advice.take (numFeHiloVkey + 3 * 2 ^ witness.input.maxDepth) =
    witness.vkWords ++ witness.slots.flatten
  slots : List.Forall₂ (fun c pieces => SlotOf c.1 c.2 pieces)
    (WorldcoinLeafInputV2.maskedClaims witness.input) witness.slots

/-- A claim together with a verifying key under which its proof was accepted. -/
structure ProvenClaim where
  claim : ClaimInput
  vk : List Fr
  numPublicInputs : Fr

/-- The Groth16 proof of the claim was accepted for this root and for the number of public inputs
that its prover supplied, under a key with this hash, and the receiver is an address. -/
structure ProvenClaim.Proven (chips : Chips) (vkHash : HiLo Fr) (root : Fr)
    (proven : ProvenClaim) : Prop where
  vk_length : proven.vk.length = numFeHiloVkey
  vkHash_eq : vkHashOf chips.keccak256 (canonicalWords proven.vk) = vkHash
  receiver_lt : proven.claim.receiver.val < 256 ^ 20
  accepted : proven.claim.Accepted chips proven.vk proven.numPublicInputs root

/-- The claims of a list of leaves with the keys of their leaves. -/
def provenOf (leaves : List LeafWitness) : List ProvenClaim :=
  leaves.flatMap fun witness => witness.input.claims.map fun claim =>
    ⟨claim, witness.input.vkBytes, witness.input.numPublicInputs⟩

/-- The strings that a tree hashes are those of its first claims, and these are proven. -/
structure HashesClaims (chips : Chips) (initialDepth count : ℕ) {height : ℕ}
    (tree : ProofTree height) (shared : SharedInstances) : Prop where
  strings : treeStrings initialDepth count tree = paddedStrings
    (((provenOf tree.leaves).take count).map ProvenClaim.claim) (2 ^ (initialDepth + height))
  proven : ∀ claim ∈ (provenOf tree.leaves).take count,
    claim.Proven chips shared.vkHash shared.root

/-- The invariant of V2 trees: they span an interval and expose the root over the strings that
their covered leaves hash. If these supply canonical words, the strings are those of the covered
claims. -/
structure V2Invariant (chips : Chips) (initialDepth : ℕ) {height : ℕ} (tree : ProofTree height)
    (shared : SharedInstances) (count : ℕ) (instances : List Fr) : Prop where
  spans : Spans chips initialDepth tree shared count
  decomposes : ∀ witness ∈ tree.leaves, witness.Decomposes
  canonical : (∀ witness ∈ coveredLeaves initialDepth count tree.leaves, witness.Canonical) →
    HashesClaims chips initialDepth count tree shared
  instances_eq : instances = WorldcoinLeafInputV2.instances shared
    (claimRootOf chips.keccak256 (initialDepth + height) (treeStrings initialDepth count tree))

/-- A leaf hashes one string for each slot. -/
@[simp] theorem LeafWitness.length_strings (witness : LeafWitness) :
    witness.strings.length = 2 ^ witness.input.maxDepth := by
  simp [strings, slots]

/-- The strings of a leaf with canonical pieces are those of its covered claims. -/
theorem LeafWitness.strings_eq {witness : LeafWitness} {count : ℕ} (h : witness.Decomposes)
    (hcanonical : witness.Canonical)
    (hcount : (witness.input.end_ - witness.input.start).val = count)
    (hle : count ≤ 2 ^ witness.input.maxDepth) :
    witness.strings =
      paddedStrings (witness.input.claims.take count) (2 ^ witness.input.maxDepth) := by
  have hpieces : ∀ slot ∈ witness.slots, ∀ piece ∈ slot,
      WorldcoinAggregation.Canonical piece := by
    intro slot hslot piece hpiece
    refine hcanonical piece ?_
    rw [h.advice_eq]
    exact List.mem_append_right _ (List.mem_flatten_of_mem hslot hpiece)
  rw [← WorldcoinLeafInputV2.map_maskedBytes h.claims_length hcount hle]
  exact WorldcoinLeafInputV2.map_flatten_slots h.slots hpieces

/-- A leaf with canonical words exposes the hash of its honest key. -/
theorem LeafWitness.Fits.vkHash_canonical {witness : LeafWitness} {shared : SharedInstances}
    (h : witness.Fits chips initialDepth shared) (hcanonical : witness.Canonical) :
    vkHashOf chips.keccak256 (canonicalWords witness.input.vkBytes) = shared.vkHash := by
  rw [← h.vkHash_eq, h.vkWords.eq_canonicalWords]
  intro word hword
  refine hcanonical word ?_
  exact List.take_subset_take_left _ (Nat.le_add_right _ _) hword

/-- The receivers of the covered claims of a leaf are addresses. -/
theorem LeafWitness.Decomposes.receiver_lt {witness : LeafWitness} {count : ℕ}
    (h : witness.Decomposes) (hcount : (witness.input.end_ - witness.input.start).val = count)
    (hle : count ≤ 2 ^ witness.input.maxDepth) {claim : ClaimInput}
    (hclaim : claim ∈ witness.input.claims.take count) : claim.receiver.val < 256 ^ 20 := by
  have hslots := h.slots
  rw [WorldcoinLeafInputV2.maskedClaims_eq h.claims_length hcount hle] at hslots
  obtain ⟨pieces, hslot⟩ := SlotOf.exists_of_mem hslots (claim, 1)
    (List.mem_append_left _ (List.mem_map_of_mem hclaim))
  exact hslot.receiver_lt

/-- A satisfied V2 leaf decomposes its claims and exposes the root over its strings. -/
theorem v2_leaf {witness : LeafWitness} {instances : List Fr}
    (h : (ProofTree.leaf witness).instances (v2Circuits chips) initialDepth = some instances) :
    witness.Decomposes ∧ ∃ shared : SharedInstances, witness.Fits chips initialDepth shared ∧
      witness.input.start = shared.start ∧ witness.input.end_ = shared.end_ ∧
      instances = WorldcoinLeafInputV2.instances shared
        (claimRootOf chips.keccak256 initialDepth witness.strings) := by
  rw [ProofTree.instances] at h
  split at h
  · rename_i hdepth
    obtain ⟨_, left, hadvice, hconstraints, hclaims, vkWords, slots, tail, rfl, hwords, hslots,
      rfl⟩ := WorldcoinLeafInputV2.tracks_virtualAssignPhase0.of_output h
    rw [List.append_assoc] at hadvice
    have hvkLen : vkWords.length = numFeHiloVkey := by
      rw [← hconstraints.vk_length, hwords.length_eq]
    -- the pieces of the slots follow the words of the key on the script
    have hthree := SlotOf.forall_length hslots
    have hnum : slots.length = 2 ^ witness.input.maxDepth := by
      rw [← hslots.length_eq, WorldcoinLeafInputV2.maskedClaims, List.length_zip]
      simp [hclaims]
    have hslotsEq := LeafWitness.slots_eq hadvice hvkLen hthree hnum
    rw [List.append_assoc] at hadvice
    have hvk := LeafWitness.vkWords_eq hadvice hwords hconstraints.vk_length
    have htake : witness.advice.take (numFeHiloVkey + 3 * 2 ^ witness.input.maxDepth) =
        witness.vkWords ++ witness.slots.flatten := by
      have hflat : slots.flatten.length = 3 * 2 ^ witness.input.maxDepth := by
        rw [length_flatten_three hthree, hnum]
      rw [hvk, hslotsEq, hadvice, ← List.append_assoc]
      exact List.take_left' (by rw [List.length_append, hvkLen, hflat])
    refine ⟨⟨hclaims, htake, hslotsEq.symm ▸ hslots⟩, ⟨witness.input.start, witness.input.end_,
      vkHashOf chips.keccak256 vkWords, witness.input.root⟩,
      ⟨hconstraints, hdepth, rfl, hvk.symm ▸ hwords, by rw [hvk]⟩, rfl, rfl, ?_⟩
    rw [LeafWitness.strings, hslotsEq, ← hdepth]
  · cases h

/-! ## Covered leaves of a join -/

/-- Leaves to the right of enough leaves are not covered. -/
theorem coveredLeaves_append_left {left right : List LeafWitness}
    (hlen : left.length = 2 ^ height) (hle : count ≤ 2 ^ (initialDepth + height)) :
    coveredLeaves initialDepth count (left ++ right) = coveredLeaves initialDepth count left := by
  refine List.take_append_of_le_length ?_
  rw [hlen, Nat.div_le_iff_le_mul_add_pred (Nat.two_pow_pos _), mul_comm, ← pow_add,
    add_comm height]
  omega

/-- Behind a full tree, the leaves that hold the remaining claims are covered. -/
theorem coveredLeaves_append_right {left right : List LeafWitness}
    (hlen : left.length = 2 ^ height) (hpos : 0 < count) :
    coveredLeaves initialDepth (2 ^ (initialDepth + height) + count) (left ++ right) =
      left ++ coveredLeaves initialDepth count right := by
  have hceil : (2 ^ (initialDepth + height) + count + 2 ^ initialDepth - 1) / 2 ^ initialDepth =
      left.length + (count + 2 ^ initialDepth - 1) / 2 ^ initialDepth := by
    have hone : 1 ≤ count + 2 ^ initialDepth := Nat.le_add_right_of_le hpos
    rw [hlen, Nat.add_assoc, Nat.add_sub_assoc hone, pow_add,
      Nat.mul_add_div (Nat.two_pow_pos _)]
  rw [coveredLeaves, hceil, List.take_length_add_append]
  rfl

/-- All leaves of a full tree are covered. -/
theorem coveredLeaves_full {leaves : List LeafWitness} (hlen : leaves.length = 2 ^ height) :
    coveredLeaves initialDepth (2 ^ (initialDepth + height)) leaves = leaves := by
  refine List.take_of_length_le ?_
  rw [hlen, Nat.le_div_iff_mul_le (Nat.two_pow_pos _), ← pow_add, add_comm height]
  have hpos : 0 < 2 ^ initialDepth := Nat.two_pow_pos _
  omega

/-- Leaves of one depth hash equally many strings. -/
theorem length_flatMap_strings {leaves : List LeafWitness}
    (h : ∀ witness ∈ leaves, witness.input.maxDepth = initialDepth) :
    (leaves.flatMap LeafWitness.strings).length = leaves.length * 2 ^ initialDepth :=
  length_flatMap_of_forall fun w hw => by rw [LeafWitness.length_strings, h w hw]

/-- A tree has as many claims as slots. -/
theorem length_provenOf {tree : ProofTree height}
    (hdepth : ∀ witness ∈ tree.leaves, witness.input.maxDepth = initialDepth)
    (hdecomposes : ∀ witness ∈ tree.leaves, witness.Decomposes) :
    (provenOf tree.leaves).length = 2 ^ (initialDepth + height) := by
  have hlen : ∀ w ∈ tree.leaves, (w.input.claims.map fun claim => (⟨claim, w.input.vkBytes,
      w.input.numPublicInputs⟩ : ProvenClaim)).length = 2 ^ initialDepth := fun w hw => by
    rw [List.length_map, (hdecomposes w hw).claims_length, hdepth w hw]
  rw [provenOf, length_flatMap_of_forall hlen, ProofTree.length_leaves, mul_comm, ← pow_add]

/-- The covered leaves of a tree hash no more strings than it has slots. -/
theorem length_covered_le {tree : ProofTree height}
    (h : ∀ witness ∈ tree.leaves, witness.input.maxDepth = initialDepth) :
    ((coveredLeaves initialDepth count tree.leaves).flatMap LeafWitness.strings).length ≤
      2 ^ (initialDepth + height) := by
  have hdepth : ∀ w ∈ coveredLeaves initialDepth count tree.leaves,
      w.input.maxDepth = initialDepth := fun w hw => h w (List.mem_of_mem_take hw)
  rw [length_flatMap_strings hdepth, pow_add, mul_comm]
  refine Nat.mul_le_mul_left _ ?_
  rw [coveredLeaves, List.length_take, ProofTree.length_leaves]
  exact Nat.min_le_right _ _

/-- A tree has as many strings as slots. -/
theorem length_treeStrings {tree : ProofTree height}
    (h : ∀ witness ∈ tree.leaves, witness.input.maxDepth = initialDepth) :
    (treeStrings initialDepth count tree).length = 2 ^ (initialDepth + height) :=
  length_padStrings (length_covered_le h)

/-- The strings of a join whose second child is a dummy. -/
theorem treeStrings_dummy {left right : ProofTree height} {numProofs : Fr}
    {advice : List (List UInt8)}
    (h : ∀ witness ∈ left.leaves, witness.input.maxDepth = initialDepth)
    (hle : count ≤ 2 ^ (initialDepth + height)) :
    treeStrings initialDepth count (.node left right numProofs advice) =
      treeStrings initialDepth count left ++
        List.replicate (2 ^ (initialDepth + height)) zeroClaim := by
  rw [treeStrings, ProofTree.leaves, coveredLeaves_append_left left.length_leaves hle,
    ← add_assoc, pow_succ, mul_two, padStrings_add (length_covered_le h)]
  rfl

/-- The strings of a join whose first child is full. -/
theorem treeStrings_linked {left right : ProofTree height} {numProofs : Fr}
    {advice : List (List UInt8)}
    (h : ∀ witness ∈ left.leaves, witness.input.maxDepth = initialDepth) (hpos : 0 < count) :
    treeStrings initialDepth (2 ^ (initialDepth + height) + count)
        (.node left right numProofs advice) =
      treeStrings initialDepth (2 ^ (initialDepth + height)) left ++
        treeStrings initialDepth count right := by
  have hfull : (left.leaves.flatMap LeafWitness.strings).length = 2 ^ (initialDepth + height) := by
    rw [length_flatMap_strings h, ProofTree.length_leaves, mul_comm, ← pow_add]
  have hleft : treeStrings initialDepth (2 ^ (initialDepth + height)) left =
      left.leaves.flatMap LeafWitness.strings := by
    rw [treeStrings, coveredLeaves_full left.length_leaves, padStrings_self hfull]
  rw [hleft, treeStrings, ProofTree.leaves,
    coveredLeaves_append_right left.length_leaves hpos, List.flatMap_append, ← add_assoc,
    pow_succ, mul_two, padStrings_append hfull]
  rfl

/-- The claim root of a join is the root over the strings of its tree. -/
theorem claimRoot_node {left right : ProofTree height} {leftShared rightShared : SharedInstances}
    {leftCount rightCount : ℕ} {numProofs endIdx is2ndProofDummy : Fr}
    {advice : List (List UInt8)} (hl : Spans chips initialDepth left leftShared leftCount)
    (hr : Spans chips initialDepth right rightShared rightCount)
    (h : Joined (initialDepth + height) leftShared rightShared leftCount rightCount count endIdx
      is2ndProofDummy) :
    hashNodes chips.keccak256
        (claimRootOf chips.keccak256 (initialDepth + height)
          (treeStrings initialDepth leftCount left))
        (rightRoot chips.keccak256 (initialDepth + height) is2ndProofDummy
          (claimRootOf chips.keccak256 (initialDepth + height)
            (treeStrings initialDepth rightCount right))) =
      claimRootOf chips.keccak256 (initialDepth + height + 1)
        (treeStrings initialDepth count (.node left right numProofs advice)) := by
  have hldepth := fun w hw => (hl.fits w hw).maxDepth_eq
  have hrdepth := fun w hw => (hr.fits w hw).maxDepth_eq
  cases h with
  | dummy hdummy _ hcount hleft =>
      subst hdummy hcount
      rw [treeStrings_dummy hldepth hleft,
        claimRootOf_append _ (length_treeStrings hldepth) (by simp), claimRootOf_zero, rightRoot,
        if_pos rfl]
  | linked hdummy _ hcount hleft _ _ =>
      subst hdummy hcount hleft
      rw [treeStrings_linked hldepth hr.covers.pos,
        claimRootOf_append _ (length_treeStrings hldepth) (length_treeStrings hrdepth), rightRoot,
        if_neg Fr.zero_ne_one]

/-- A satisfied V2 leaf has the invariant. -/
theorem V2Invariant.leaf {witness : LeafWitness} {instances : List Fr}
    (h : (ProofTree.leaf witness).instances (v2Circuits chips) initialDepth = some instances) :
    ∃ shared count, V2Invariant chips initialDepth (.leaf witness) shared count instances := by
  obtain ⟨hdecomposes, shared, hfits, hstart, hend, hinstances⟩ := v2_leaf h
  have hspans := Spans.leaf hfits hstart hend
  have hcovered : coveredLeaves initialDepth (shared.end_.val - shared.start.val) [witness] =
      [witness] := by
    refine List.take_of_length_le (lt_ceil_iff.mpr ?_)
    simpa using hspans.covers.pos
  have hlen : witness.strings.length = 2 ^ (initialDepth + 0) := by
    rw [LeafWitness.length_strings, hfits.maxDepth_eq, add_zero]
  have hstrings : treeStrings initialDepth (shared.end_.val - shared.start.val) (.leaf witness) =
      witness.strings := by
    rw [treeStrings, ProofTree.leaves, hcovered, List.flatMap_singleton, padStrings_self hlen]
  refine ⟨shared, _, hspans, by simpa [ProofTree.leaves] using hdecomposes, ?_, ?_⟩
  · intro hcanonical
    rw [ProofTree.leaves, hcovered, List.forall_mem_singleton] at hcanonical
    have hcount : (witness.input.end_ - witness.input.start).val =
        shared.end_.val - shared.start.val := by
      rw [hend, hstart, hspans.covers.val_sub]
    have hle := hspans.count_le
    rw [← hfits.maxDepth_eq, add_zero] at hle
    have hproven : provenOf [witness] = witness.input.claims.map fun claim =>
        ⟨claim, witness.input.vkBytes, witness.input.numPublicInputs⟩ := by
      simp [provenOf]
    refine ⟨?_, ?_⟩
    · rw [hstrings, LeafWitness.strings_eq hdecomposes hcanonical hcount hle, hfits.maxDepth_eq,
        ProofTree.leaves, hproven, ← List.map_take, List.map_map]
      simp [Function.comp_def]
    · rw [ProofTree.leaves, hproven, ← List.map_take]
      intro p hp
      obtain ⟨claim, hclaim, rfl⟩ := List.mem_map.mp hp
      exact ⟨hfits.constraints.vk_length, hfits.vkHash_canonical hcanonical,
        hdecomposes.receiver_lt hcount hle hclaim,
        hfits.root_eq ▸ hfits.constraints.accepted claim (List.mem_of_mem_take hclaim)⟩
  · rw [hinstances, hstrings, add_zero]

/-- A join of trees that hash their claims hashes their claims. -/
theorem hashesClaims_node {left right : ProofTree height}
    {leftShared rightShared : SharedInstances}
    {leftCount rightCount : ℕ} {instances0 instances1 : List Fr}
    {numProofs endIdx is2ndProofDummy : Fr} {advice : List (List UInt8)}
    (hl : V2Invariant chips initialDepth left leftShared leftCount instances0)
    (hr : V2Invariant chips initialDepth right rightShared rightCount instances1)
    (hvk : leftShared.vkHash = rightShared.vkHash) (hroot : leftShared.root = rightShared.root)
    (h : Joined (initialDepth + height) leftShared rightShared leftCount rightCount count endIdx
      is2ndProofDummy)
    (hcanonical : ∀ witness ∈ coveredLeaves initialDepth count (left.leaves ++ right.leaves),
      witness.Canonical) :
    HashesClaims chips initialDepth count (.node left right numProofs advice)
      { leftShared with end_ := endIdx } := by
  -- the decompositions of a dummy second child do not count
  have hldepth := fun w hw => (hl.spans.fits w hw).maxDepth_eq
  have hlen := length_provenOf hldepth hl.decomposes
  have happend : provenOf (left.leaves ++ right.leaves) =
      provenOf left.leaves ++ provenOf right.leaves := List.flatMap_append
  cases h with
  | dummy _ _ hcount hleft =>
      subst hcount
      rw [coveredLeaves_append_left left.length_leaves hleft] at hcanonical
      obtain ⟨hstrings, hproven⟩ := hl.canonical hcanonical
      have htake : (provenOf (left.leaves ++ right.leaves)).take count =
          (provenOf left.leaves).take count := by
        rw [happend, List.take_append_of_le_length (hleft.trans hlen.ge)]
      refine ⟨?_, by rwa [ProofTree.leaves, htake]⟩
      rw [ProofTree.leaves, htake, treeStrings_dummy hldepth hleft, hstrings, ← add_assoc, pow_succ,
        mul_two, paddedStrings, paddedStrings, padStrings_add]
      simp only [List.length_map, List.length_take]
      omega
  | linked _ _ hcount hleft _ _ =>
      subst hcount hleft
      rw [coveredLeaves_append_right left.length_leaves hr.spans.covers.pos] at hcanonical
      obtain ⟨hstrings, hproven⟩ := hl.canonical fun w hw =>
        hcanonical w (List.mem_append_left _ (List.mem_of_mem_take hw))
      obtain ⟨hstrings', hproven'⟩ := hr.canonical fun w hw =>
        hcanonical w (List.mem_append_right _ hw)
      have hfull : (((provenOf left.leaves).map ProvenClaim.claim).map ClaimInput.packed).length =
          2 ^ (initialDepth + height) := by
        rw [List.length_map, List.length_map, hlen]
      have htake : (provenOf (left.leaves ++ right.leaves)).take
          (2 ^ (initialDepth + height) + rightCount) =
          provenOf left.leaves ++ (provenOf right.leaves).take rightCount := by
        rw [happend, ← hlen, List.take_length_add_append]
      rw [List.take_of_length_le hlen.le] at hstrings hproven
      rw [paddedStrings, padStrings_self hfull] at hstrings
      refine ⟨?_, ?_⟩
      · rw [ProofTree.leaves, htake, treeStrings_linked hldepth hr.spans.covers.pos, hstrings,
          hstrings', ← add_assoc, pow_succ, mul_two, paddedStrings, paddedStrings, List.map_append,
          List.map_append, padStrings_append hfull]
      · intro p hp
        rw [ProofTree.leaves, htake] at hp
        rcases List.mem_append.mp hp with hp | hp
        · exact hproven p hp
        · rw [hvk, hroot]
          exact hproven' p hp

/-- A satisfied V2 join keeps the invariant and covers as many claims as its prover says. -/
theorem V2Invariant.node {left right : ProofTree height} {leftShared rightShared : SharedInstances}
    {leftCount rightCount : ℕ} {instances0 instances1 instances : List Fr} {numProofs : Fr}
    {advice : List (List UInt8)}
    (hl : V2Invariant chips initialDepth left leftShared leftCount instances0)
    (hr : V2Invariant chips initialDepth right rightShared rightCount instances1)
    (hjoin : output ((v2Circuits chips).join instances0 instances1 numProofs
      (initialDepth + height + 1)) (.scripted advice) = some instances) :
    ∃ shared, V2Invariant chips initialDepth (.node left right numProofs advice) shared
      numProofs.val instances := by
  rw [hl.instances_eq, hr.instances_eq] at hjoin
  obtain ⟨-, hvk, hroot, endIdx, is2ndProofDummy, rfl, hjoined⟩ :=
    (WorldcoinIntermediateAggregationInputV2.sound_virtualAssignPhase0 hl.spans.covers
      hr.spans.covers).of_output hjoin
  refine ⟨_, hl.spans.node hr.spans hvk hroot hjoined, ?_,
    hashesClaims_node hl hr hvk hroot hjoined, ?_⟩
  · intro witness hmem
    exact (List.mem_append.mp hmem).elim (hl.decomposes witness) (hr.decomposes witness)
  · rw [claimRoot_node hl.spans hr.spans hjoined]
    rfl

/-- Every satisfied V2 tree has the invariant. -/
theorem v2Invariant_of_instances (tree : ProofTree height) {instances : List Fr}
    (h : tree.instances (v2Circuits chips) initialDepth = some instances) :
    ∃ shared count, V2Invariant chips initialDepth tree shared count instances := by
  induction tree generalizing instances with
  | leaf witness => exact V2Invariant.leaf h
  | node left right numProofs advice ihl ihr =>
      simp only [ProofTree.instances, Option.bind_eq_bind, Option.bind_eq_some_iff] at h
      obtain ⟨instances0, hleft, instances1, hright, hjoin⟩ := h
      obtain ⟨_, _, hl⟩ := ihl hleft
      obtain ⟨_, _, hr⟩ := ihr hright
      obtain ⟨shared, hnode⟩ := hl.node hr hjoin
      exact ⟨shared, _, hnode⟩

/-! ## The root -/

/-- A satisfied V2 root exposes the number of claims its prover says and the root over the strings
that its covered leaves hash. -/
theorem rootOutput_v2 (tree : ProofTree (height + 1)) {out : List Fr}
    (h : tree.rootOutput (v2Circuits chips)
      (WorldcoinRootAggregationInputV2.virtualAssignPhase0 chips) initialDepth = some out) :
    ∃ shared : SharedInstances, Spans chips initialDepth tree shared tree.numProofs.val ∧
      (∀ witness ∈ tree.leaves, witness.Decomposes) ∧
      ((∀ witness ∈ coveredLeaves initialDepth tree.numProofs.val tree.leaves,
        witness.Canonical) →
        HashesClaims chips initialDepth tree.numProofs.val tree shared) ∧
      out = rootInstances shared.vkHash shared.root tree.numProofs
        (claimRootOf chips.keccak256 (initialDepth + height + 1)
          (treeStrings initialDepth tree.numProofs.val tree)) := by
  cases tree with
  | node left right numProofs advice =>
      simp only [ProofTree.rootOutput, Option.bind_eq_bind, Option.bind_eq_some_iff] at h
      obtain ⟨instances0, hleft, instances1, hright, hroot⟩ := h
      obtain ⟨leftShared, leftCount, hl⟩ := v2Invariant_of_instances left hleft
      obtain ⟨rightShared, rightCount, hr⟩ := v2Invariant_of_instances right hright
      rw [hl.instances_eq, hr.instances_eq] at hroot
      obtain ⟨-, hvk, hrootEq, endIdx, is2ndProofDummy, rfl, hjoined⟩ :=
        (WorldcoinRootAggregationInputV2.sound_virtualAssignPhase0 hl.spans.covers
          hr.spans.covers).of_output hroot
      refine ⟨_, hl.spans.node hr.spans hvk hrootEq hjoined, ?_,
        hashesClaims_node hl hr hvk hrootEq hjoined, ?_⟩
      · intro witness hmem
        exact (List.mem_append.mp hmem).elim (hl.decomposes witness) (hr.decomposes witness)
      · rw [claimRoot_node hl.spans hr.spans hjoined]
        rfl

/-- The root exposes the number of these proven claims and the Merkle root over them, padded with
zero claims, and all leaves of its tree expose the same key hash and root. -/
structure AggregatesClaims (chips : Chips) (initialDepth : ℕ) {height : ℕ}
    (tree : ProofTree (height + 1)) (out : List Fr) (claims : List ProvenClaim) (vkHash : HiLo Fr)
    (root : Fr) : Prop where
  out_eq : out = rootInstances vkHash root claims.length
    (claimRootOf chips.keccak256 (initialDepth + height + 1)
      (paddedStrings (claims.map ProvenClaim.claim) (2 ^ (initialDepth + height + 1))))
  pos : 1 ≤ claims.length
  length_le : claims.length ≤ 2 ^ (initialDepth + height + 1)
  proven : ∀ claim ∈ claims, claim.Proven chips vkHash root
  leaves : ∀ witness ∈ tree.leaves, ∃ claimRoot,
    (ProofTree.leaf witness).instances (v2Circuits chips) initialDepth =
      some (WorldcoinLeafInputV2.instances
        ⟨witness.input.start, witness.input.end_, vkHash, root⟩ claimRoot)

/-- The root over two satisfied trees that join is satisfied. -/
theorem exists_rootOutput_v2 {left right : ProofTree height}
    {leftShared rightShared : SharedInstances} {leftRoot claimRoot : BitVec 256}
    {leftCount rightCount : ℕ} {total endIdx is2ndProofDummy : Fr}
    (hleft : left.instances (v2Circuits chips) initialDepth =
      some (WorldcoinLeafInputV2.instances leftShared leftRoot))
    (hright : right.instances (v2Circuits chips) initialDepth =
      some (WorldcoinLeafInputV2.instances rightShared claimRoot))
    (hl : leftShared.Covers leftCount) (hr : rightShared.Covers rightCount)
    (hdepth : initialDepth + height < 14) (hcount : rightCount ≤ 2 ^ (initialDepth + height))
    (hvk : leftShared.vkHash = rightShared.vkHash) (hroot : leftShared.root = rightShared.root)
    (hrange : RangeAdmits chips.lookupBits (initialDepth + height)
      (2 ^ (initialDepth + height + 1)))
    (h : Joined (initialDepth + height) leftShared rightShared leftCount rightCount total.val
      endIdx is2ndProofDummy) :
    ∃ advice, (ProofTree.node left right total advice).rootOutput (v2Circuits chips)
        (WorldcoinRootAggregationInputV2.virtualAssignPhase0 chips) initialDepth =
      some (rootInstances leftShared.vkHash leftShared.root total
        (hashNodes chips.keccak256 leftRoot
          (rightRoot chips.keccak256 (initialDepth + height) is2ndProofDummy claimRoot))) := by
  have hrun : Honest (WorldcoinRootAggregationInputV2.virtualAssignPhase0 chips
      (WorldcoinLeafInputV2.instances leftShared leftRoot)
      (WorldcoinLeafInputV2.instances rightShared claimRoot) total (initialDepth + height + 1)) _ :=
    WorldcoinRootAggregationInputV2.honest_virtualAssignPhase0 hl hr hdepth hcount hvk hroot hrange
      h
  obtain ⟨script, hscript⟩ := hrun.replay
  refine ⟨script, ?_⟩
  simp only [ProofTree.rootOutput, hleft, hright, Option.bind_eq_bind, Option.bind_some]
  exact hscript.output

/-- The strings hashed for a claim root over these strings and for these verifying keys. -/
def hashedStrings (keccak256 : List UInt8 → BitVec 256) (depth : ℕ)
    (vkStrings strings : List (List UInt8)) : Set (List UInt8) :=
  {s | s ∈ vkStrings ∨ s ∈ strings ∨
    ∃ q ∈ Merkle.queries (hashNodes keccak256) depth (strings.map keccak256),
      packNodes q.1 q.2 = s}

/-- The strings that the covered leaves of a tree and the nodes above them hash. -/
def treeHashes (chips : Chips) (initialDepth : ℕ) {height : ℕ} (tree : ProofTree (height + 1)) :
    Set (List UInt8) :=
  hashedStrings chips.keccak256 (initialDepth + height + 1)
    ((coveredLeaves initialDepth tree.numProofs.val tree.leaves).map fun w => w.vkWords.flatten)
    (treeStrings initialDepth tree.numProofs.val tree)

/-- The strings hashed for the claim root over these claims. -/
def claimHashes (chips : Chips) (depth : ℕ) (claims : List ProvenClaim) : Set (List UInt8) :=
  hashedStrings chips.keccak256 depth
    (claims.map fun claim => (canonicalWords claim.vk).flatten)
    (paddedStrings (claims.map ProvenClaim.claim) (2 ^ depth))

/-- Without collisions among the hashed strings, a claim root determines its strings. -/
theorem claimRootOf_injective {keccak256 : List UInt8 → BitVec 256} {strings : Set (List UInt8)}
    (hinj : strings.InjOn keccak256) {depth : ℕ} {vks vks' xs ys : List (List UInt8)}
    (hx : xs.length = 2 ^ depth) (hy : ys.length = 2 ^ depth)
    (hxs : hashedStrings keccak256 depth vks xs ⊆ strings)
    (hys : hashedStrings keccak256 depth vks' ys ⊆ strings)
    (h : claimRootOf keccak256 depth xs = claimRootOf keccak256 depth ys) : xs = ys := by
  have hmap : xs.map keccak256 = ys.map keccak256 := by
    refine Merkle.root_injective (hashNodes keccak256) (hashNodes_injOn hinj) (by simpa using hx)
      (by simpa using hy) ?_ ?_ h
    · exact fun q hq => hxs (.inr (.inr ⟨q, hq, rfl⟩))
    · exact fun q hq => hys (.inr (.inr ⟨q, hq, rfl⟩))
  exact Merkle.map_injOn hinj (fun x hx => hxs (.inr (.inl hx))) (fun y hy => hys (.inr (.inl hy)))
    hmap

/-- A root value determines what it exposes. -/
theorem rootInstances_injective {vkHash vkHash' : HiLo Fr} {root root' n n' : Fr}
    {claimRoot claimRoot' : BitVec 256}
    (h : rootInstances vkHash root n claimRoot = rootInstances vkHash' root' n' claimRoot') :
    vkHash = vkHash' ∧ root = root' ∧ n = n' ∧ claimRoot = claimRoot' := by
  simp only [rootInstances, HiLo.hiLo, List.cons_append, List.nil_append, List.cons.injEq,
    and_true] at h
  obtain ⟨hhi, hlo, hroot, hn, hrootHi, hrootLo⟩ := h
  exact ⟨congrArg₂ HiLo.mk hhi hlo, hroot, hn,
    HiLo.ofDigest_injective (congrArg₂ HiLo.mk hrootHi hrootLo)⟩

/-- A string of padded claims is the packing of field elements. -/
theorem exists_packClaim {claims : List ClaimInput} {size : ℕ} {s : List UInt8}
    (h : s ∈ paddedStrings claims size) :
    ∃ grantId receiver nullifierHash : Fr,
      s = packClaim grantId.val receiver.val nullifierHash.val := by
  rcases List.mem_append.mp h with h | h
  · obtain ⟨claim, -, rfl⟩ := List.mem_map.mp h
    exact ⟨_, _, _, rfl⟩
  · refine ⟨0, 0, 0, ?_⟩
    rw [List.eq_of_mem_replicate h, ZMod.val_zero, packClaim_zero]

/-- The words of a leaf whose hashed strings are those of claims under honest keys are
canonical. -/
theorem LeafWitness.Fits.canonical {witness : LeafWitness} {shared : SharedInstances}
    {vk : List Fr} (h : witness.Fits chips initialDepth shared) (hdecomposes : witness.Decomposes)
    (hvk : witness.vkWords.flatten = (canonicalWords vk).flatten)
    (hstrings : ∀ s ∈ witness.strings, ∃ grantId receiver nullifierHash : Fr,
      s = packClaim grantId.val receiver.val nullifierHash.val) : witness.Canonical := by
  intro bytes hbytes
  rw [hdecomposes.advice_eq] at hbytes
  rcases List.mem_append.mp hbytes with hbytes | hbytes
  · rw [h.vkWords.flatten_injective (wordsOf_canonicalWords vk) hvk] at hbytes
    obtain ⟨x, -, rfl⟩ := List.mem_map.mp hbytes
    exact canonical_toBytes 32 x
  · obtain ⟨pieces, hpieces, hmem⟩ := List.mem_flatten.mp hbytes
    obtain ⟨grantId, receiver, nullifierHash, hpacked⟩ :=
      hstrings pieces.flatten (List.mem_map_of_mem hpieces)
    obtain ⟨c, hslot⟩ := SlotOf.exists_of_mem_right hdecomposes.slots pieces hpieces
    exact hslot.canonical hpacked bytes hmem

/-- A satisfied V2 leaf exposes the key hash and root of the tree it belongs to. -/
theorem LeafWitness.Fits.v2_instances {witness : LeafWitness} {shared : SharedInstances}
    {out : List Fr} (h : witness.Fits chips initialDepth shared)
    (hout : (ProofTree.leaf witness).instances (v2Circuits chips) initialDepth = some out) :
    ∃ claimRoot, (ProofTree.leaf witness).instances (v2Circuits chips) initialDepth =
      some (WorldcoinLeafInputV2.instances
        ⟨witness.input.start, witness.input.end_, shared.vkHash, shared.root⟩ claimRoot) := by
  obtain ⟨-, own, hfits, hstart, hend, rfl⟩ := v2_leaf hout
  have hown : own = ⟨witness.input.start, witness.input.end_, shared.vkHash, shared.root⟩ := by
    rw [hstart, hend, ← h.vkHash_eq, ← h.root_eq, hfits.vkHash_eq, hfits.root_eq]
  exact ⟨_, hown ▸ hout⟩

/-- The bytes of the sole claim. -/
theorem packed_soleClaim : soleClaim.packed = packClaim 3 2 5 := by
  decide

/-- The only slot of a sole leaf is covered. -/
theorem maskedClaims_soleLeaf {start end_ : Fr} (hend : end_.val = start.val + 1) :
    WorldcoinLeafInputV2.maskedClaims (soleLeaf start end_) = [(soleClaim, 1)] := by
  have hlen : (soleLeaf start end_).claims.length = 2 ^ (soleLeaf start end_).maxDepth := rfl
  have hcount : ((soleLeaf start end_).end_ - (soleLeaf start end_).start).val = 1 := by
    simp only [soleLeaf]
    rw [Fr.val_sub_of_le (by omega)]
    omega
  exact WorldcoinLeafInputV2.maskedClaims_eq hlen hcount le_rfl

/-- The pieces of the sole claim with these bytes for its nullifier hash. -/
def solePieces (nullifierHash : List UInt8) : List (List UInt8) :=
  [BigEndian.toBytes 32 3, BigEndian.toBytes 20 2, nullifierHash]

/-- Every decomposition of the nullifier hash gives pieces of the sole claim. -/
theorem slotOf_solePieces {nullifierHash : List UInt8} (h : BytesOf 32 5 nullifierHash) :
    SlotOf soleClaim 1 (solePieces nullifierHash) :=
  .mk (by decide) (by decide) h

/-- A sole leaf is satisfied with every decomposition of its nullifier hash. -/
theorem soleLeaf_v2_instances (start end_ : Fr) {nullifierHash : List UInt8}
    (hend : end_.val = start.val + 1) (hlt : end_.val < 2 ^ 64)
    (h : BytesOf 32 5 nullifierHash) :
    ∃ tail, (ProofTree.leaf ⟨soleLeaf start end_, canonicalWords (List.replicate numFeHiloVkey 1)
        ++ (solePieces nullifierHash ++ tail)⟩).instances (v2Circuits soleChips) 0 =
      some (WorldcoinLeafInputV2.instances (soleShared start end_)
        (soleChips.keccak256 (solePieces nullifierHash).flatten)) := by
  have hslots : List.Forall₂ (fun c pieces => SlotOf c.1 c.2 pieces)
      (WorldcoinLeafInputV2.maskedClaims (soleLeaf start end_)) [solePieces nullifierHash] := by
    rw [maskedClaims_soleLeaf hend]
    exact .cons (slotOf_solePieces h) .nil
  obtain ⟨tail, hreplay⟩ := WorldcoinLeafInputV2.replays_virtualAssignPhase0
    (soleLeaf_constraints hend hlt) rfl (wordsOf_canonicalWords _) hslots
  refine ⟨tail, ?_⟩
  have hout := hreplay.output
  rw [List.flatten_singleton] at hout
  exact hout

/-- Two sole leaves are aggregated, with any decompositions of the nullifier hash. -/
theorem exists_sole_rootOutput_v2 {first second : List UInt8} (hfirst : BytesOf 32 5 first)
    (hsecond : BytesOf 32 5 second) :
    ∃ tails advice,
      (ProofTree.node
        (.leaf ⟨soleLeaf 0 1, canonicalWords (List.replicate numFeHiloVkey 1)
          ++ (solePieces first ++ Prod.fst tails)⟩)
        (.leaf ⟨soleLeaf 1 2, canonicalWords (List.replicate numFeHiloVkey 1)
          ++ (solePieces second ++ Prod.snd tails)⟩) 2 advice).rootOutput (v2Circuits soleChips)
        (WorldcoinRootAggregationInputV2.virtualAssignPhase0 soleChips) 0 =
      some (rootInstances soleVkHash 7 2 (claimRootOf soleChips.keccak256 1
        [(solePieces first).flatten, (solePieces second).flatten])) := by
  obtain ⟨tail, hleft⟩ := soleLeaf_v2_instances 0 1 (by decide) (by decide) hfirst
  obtain ⟨tail', hright⟩ := soleLeaf_v2_instances 1 2 (by decide) (by decide) hsecond
  obtain ⟨advice, hroot⟩ := exists_rootOutput_v2 hleft hright covers_soleShared_left
    covers_soleShared_right (by decide) (by decide) rfl rfl rangeAdmits_sole joined_soleShared
  refine ⟨(tail, tail'), advice, hroot.trans ?_⟩
  rw [rightRoot, if_neg Fr.zero_ne_one]
  rfl

/-- When V2 aggregation is sound. Let all constraints of a tree and its root hold for whatever
witnesses a prover chose. If every decomposition that the covered leaves read is canonical, then
the root exposes the number of proven claims and the Merkle root over them. Conversely, if it
exposes the root over some proven claims, and the hash function does not collide on the strings
hashed for either, then these decompositions are canonical. -/
theorem v2_aggregation_sound_iff (chips : Chips) (initialDepth height : ℕ)
    (tree : ProofTree (height + 1)) (out : List Fr)
    (h : tree.rootOutput (v2Circuits chips)
      (WorldcoinRootAggregationInputV2.virtualAssignPhase0 chips) initialDepth = some out) :
    ((∀ witness ∈ coveredLeaves initialDepth tree.numProofs.val tree.leaves, witness.Canonical) →
      ∃ claims vkHash root, AggregatesClaims chips initialDepth tree out claims vkHash root) ∧
    ((∃ claims vkHash root, AggregatesClaims chips initialDepth tree out claims vkHash root ∧
        (treeHashes chips initialDepth tree ∪
          claimHashes chips (initialDepth + height + 1) claims).InjOn chips.keccak256) →
      ∀ witness ∈ coveredLeaves initialDepth tree.numProofs.val tree.leaves,
        witness.Canonical) := by
  obtain ⟨shared, hspans, hdecomposes, hhashes, hout⟩ := rootOutput_v2 tree h
  have hdepth := fun w hw => (hspans.fits w hw).maxDepth_eq
  constructor
  · intro hcanonical
    obtain ⟨hstrings, hproven⟩ := hhashes hcanonical
    have hlen : ((provenOf tree.leaves).take tree.numProofs.val).length = tree.numProofs.val := by
      rw [List.length_take, length_provenOf hdepth hdecomposes]
      exact Nat.min_eq_left hspans.count_le
    refine ⟨(provenOf tree.leaves).take tree.numProofs.val, shared.vkHash, shared.root, ?_, ?_, ?_,
      hproven, ?_⟩
    · rw [hout, hstrings, hlen, ZMod.natCast_zmod_val]
      rfl
    · rw [hlen]
      exact hspans.covers.pos
    · rw [hlen]
      exact hspans.count_le
    · intro witness hmem
      obtain ⟨leafOut, hleaf⟩ := tree.rootOutput_leaf h witness hmem
      exact (hspans.fits witness hmem).v2_instances hleaf
  -- equal roots have equal strings, and a string of field elements has canonical pieces
  · rintro ⟨claims, vkHash, root, haggregates, hinj⟩ witness hwitness
    have hfits := hspans.fits witness (List.mem_of_mem_take hwitness)
    obtain ⟨hvkHash, -, -, hclaimRoot⟩ :=
      rootInstances_injective (hout.symm.trans haggregates.out_eq)
    have hpadded : ((claims.map ProvenClaim.claim).map ClaimInput.packed).length ≤
        2 ^ (initialDepth + height + 1) := by
      simpa using haggregates.length_le
    have hstrings : treeStrings initialDepth tree.numProofs.val tree =
        paddedStrings (claims.map ProvenClaim.claim) (2 ^ (initialDepth + height + 1)) :=
      claimRootOf_injective hinj (length_treeStrings hdepth) (length_padStrings hpadded)
        Set.subset_union_left Set.subset_union_right hclaimRoot
    obtain ⟨claim, hclaim⟩ := List.exists_mem_of_length_pos haggregates.pos
    have hvk : witness.vkWords.flatten = (canonicalWords claim.vk).flatten := by
      refine hinj (.inl (.inl ?_)) (.inr (.inl ?_)) (HiLo.ofDigest_injective ?_)
      · exact List.mem_map_of_mem hwitness
      · exact List.mem_map_of_mem hclaim
      · exact hfits.vkHash_eq.trans (hvkHash.trans (haggregates.proven claim hclaim).vkHash_eq.symm)
    refine hfits.canonical (hdecomposes witness (List.mem_of_mem_take hwitness)) hvk ?_
    intro s hs
    have hmem : s ∈ treeStrings initialDepth tree.numProofs.val tree :=
      List.mem_append_left _ (List.mem_flatMap_of_mem hwitness hs)
    rw [hstrings] at hmem
    exact exists_packClaim hmem

/-- The words of a sole leaf are canonical if those of its nullifier hash are. -/
theorem canonical_soleLeaf {start end_ : Fr} {nullifierHash : List UInt8}
    {tail : List (List UInt8)} (h : Canonical nullifierHash) :
    LeafWitness.Canonical ⟨soleLeaf start end_, canonicalWords (List.replicate numFeHiloVkey 1) ++
      (solePieces nullifierHash ++ tail)⟩ := by
  have hlen : (canonicalWords (List.replicate numFeHiloVkey 1) ++
      solePieces nullifierHash).length = numFeHiloVkey + 3 * 2 ^ 0 := by
    simp [canonicalWords, solePieces]
  intro bytes hbytes
  simp only [← List.append_assoc, soleLeaf] at hbytes
  rw [List.take_left' hlen, List.mem_append] at hbytes
  rcases hbytes with hword | hpiece
  · obtain ⟨x, -, rfl⟩ := List.mem_map.mp hword
    exact canonical_toBytes 32 x
  · simp only [solePieces, List.mem_cons, List.not_mem_nil, or_false] at hpiece
    rcases hpiece with rfl | rfl | rfl
    · exact canonical_toBytes 32 3
    · exact canonical_toBytes 20 2
    · exact h

/-- Two sole leaves with honest words expose the root over their claims. -/
theorem v2_aggregation_sound_sole :
    ∃ (tree : ProofTree 1) (out : List Fr) (claims : List ProvenClaim) (vkHash : HiLo Fr)
      (root : Fr), AggregatesClaims soleChips 0 tree out claims vkHash root := by
  have hhonest : BytesOf 32 5 (BigEndian.toBytes 32 5) := by decide
  obtain ⟨tails, advice, hroot⟩ := exists_sole_rootOutput_v2 hhonest hhonest
  refine ⟨_, _, (v2_aggregation_sound_iff soleChips 0 0 _ _ hroot).1 ?_⟩
  intro witness hwitness
  have hmem := List.mem_of_mem_take hwitness
  simp only [ProofTree.leaves, List.cons_append, List.nil_append, List.mem_cons,
    List.not_mem_nil, or_false] at hmem
  rcases hmem with rfl | rfl
  · exact canonical_soleLeaf (canonical_toBytes 32 5)
  · exact canonical_soleLeaf (canonical_toBytes 32 5)

/-- Whatever is proven with these chips has the bytes of the sole claim. -/
theorem packed_of_proven {vkHash : HiLo Fr} {root : Fr} {claim : ProvenClaim}
    (h : claim.Proven soleChips vkHash root) : claim.claim.packed = soleClaim.packed := by
  have haccepted := h.accepted
  simp only [ClaimInput.Accepted, soleChips] at haccepted
  split at haccepted
  · rename_i hinput
    have hinputs := congrArg Groth16VerifierInput.publicInputs hinput
    simp only [ClaimInput.groth16VerifierInput, List.cons.injEq, and_true] at hinputs
    obtain ⟨-, hnullifier, hreceiver, hgrant⟩ := hinputs
    rw [ClaimInput.packed, ClaimInput.packed, hnullifier, hreceiver, hgrant]
  · cases haccepted

/-- The first leaf may hash its nullifier hash 5 as the number 5 plus the field order. All
constraints hold, but the claim root is not one over proven claims. -/
theorem v2_aggregation_alias :
    ∃ (tree : ProofTree 1) (out : List Fr), tree.rootOutput (v2Circuits soleChips)
        (WorldcoinRootAggregationInputV2.virtualAssignPhase0 soleChips) 0 = some out ∧
      ¬ ∃ claims vkHash root, AggregatesClaims soleChips 0 tree out claims vkHash root := by
  have halias : BytesOf 32 5 (BigEndian.toBytes 32 (5 + frModulus)) := by decide
  have hhonest : BytesOf 32 5 (BigEndian.toBytes 32 5) := by decide
  obtain ⟨tails, advice, hroot⟩ := exists_sole_rootOutput_v2 halias hhonest
  refine ⟨_, _, hroot, ?_⟩
  rintro ⟨claims, vkHash, root, haggregates⟩
  obtain ⟨-, -, hcount, hclaimRoot⟩ := rootInstances_injective haggregates.out_eq
  have hlen : claims.length = 2 := by
    have hpos := haggregates.pos
    have hle := haggregates.length_le
    obtain hone | htwo : claims.length = 1 ∨ claims.length = 2 := by omega
    · rw [hone] at hcount
      exact absurd hcount (by decide)
    · exact htwo
  -- every proven claim is the sole claim, since the gadget accepts no other
  have hstrings : paddedStrings (claims.map ProvenClaim.claim) (2 ^ (0 + 0 + 1)) =
      [soleClaim.packed, soleClaim.packed] := by
    obtain ⟨first, second, rfl⟩ := List.length_eq_two.mp hlen
    have hfirst := packed_of_proven (haggregates.proven first (by simp))
    have hsecond := packed_of_proven (haggregates.proven second (by simp))
    simp [paddedStrings, padStrings, hfirst, hsecond]
  rw [hstrings, packed_soleClaim] at hclaimRoot
  exact absurd hclaimRoot (by decide +kernel)

end WorldcoinAggregation
