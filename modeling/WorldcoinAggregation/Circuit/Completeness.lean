import WorldcoinAggregation.Circuit.V1.Root
import WorldcoinAggregation.Circuit.V2.Intermediate

/-!
# What honest circuits expose

`Describes` says that instances describe an interval of claims: for V1 the columns begin with the
claims and are filled up with copies, for V2 the claim root is that of the claims and zero claims.
A leaf over accepted claims describes them, and joins of circuits that link up describe what both
circuits describe together.
-/

namespace WorldcoinAggregation

open Synthesis

/-- The two versions of the circuits. -/
inductive Version where
  | v1
  | v2

/-- The columns begin with those of the claims. -/
structure Columns.StartsWith (columns : Columns) (claims : List ClaimInput) : Prop where
  grantIds : claims.map ClaimInput.grantId <+: columns.grantIds
  receivers : claims.map ClaimInput.receiver <+: columns.receivers
  nullifierHashes : claims.map ClaimInput.nullifierHash <+: columns.nullifierHashes

/-- Instances of a circuit of this depth below the root that covers these claims. -/
def Describes (version : Version) (chips : Chips) (depth : ℕ) (shared : SharedInstances)
    (claims : List ClaimInput) (instances : List Fr) : Prop :=
  match version with
  | .v1 => ∃ columns : Columns, columns.HasLength (2 ^ depth) ∧ columns.StartsWith claims ∧
      instances = v1Instances shared columns
  | .v2 => instances = WorldcoinLeafInputV2.instances shared
      (claimRootOf chips.keccak256 depth (paddedStrings claims (2 ^ depth)))

/-- What the root circuit of this depth exposes for these claims, after the accumulator. -/
def DescribesBatch (version : Version) (chips : Chips) (depth : ℕ) (vkHash : HiLo Fr) (root : Fr)
    (claims : List ClaimInput) (instances : List Fr) : Prop :=
  match version with
  | .v1 => ∃ columns : Columns, columns.HasLength (2 ^ depth) ∧ columns.StartsWith claims ∧
      instances = (HiLo.ofDigest (chips.keccak256 (canonicalWords
        (WorldcoinRootAggregationInput.outputOf vkHash root claims.length columns)).flatten)).hiLo
  | .v2 => instances = rootInstances vkHash root claims.length
      (claimRootOf chips.keccak256 depth (paddedStrings claims (2 ^ depth)))

/-- The leaf circuit. -/
def Version.leafCircuit (version : Version) (chips : Chips) (input : WorldcoinLeafInput) :
    Circuit (List Fr) :=
  match version with
  | .v1 => input.virtualAssignPhase0 chips
  | .v2 => WorldcoinLeafInputV2.virtualAssignPhase0 chips input

/-- The aggregation circuit below the root. -/
def Version.joinCircuit (version : Version) (chips : Chips) :
    List Fr → List Fr → Fr → ℕ → Circuit (List Fr) :=
  match version with
  | .v1 => WorldcoinIntermediateAggregationInput.joinPreviousInstances chips.lookupBits
  | .v2 => WorldcoinIntermediateAggregationInputV2.virtualAssignPhase0 chips

/-- The root circuit. -/
def Version.rootCircuit (version : Version) (chips : Chips) :
    List Fr → List Fr → Fr → ℕ → Circuit (List Fr) :=
  match version with
  | .v1 => WorldcoinRootAggregationInput.virtualAssignPhase0 chips
  | .v2 => WorldcoinRootAggregationInputV2.virtualAssignPhase0 chips

/-- The number of instances of a circuit of this depth below the root, without accumulators. -/
def Version.getNumInstance (version : Version) (depth : ℕ) : Option ℕ :=
  match version with
  | .v1 => WorldcoinIntermediateAggregationInput.getNumInstance depth
  | .v2 => some WorldcoinIntermediateAggregationInputV2.getNumInstance

/-- The depths that the circuits support: shifts of 32 bits for V1 and the table of zero roots for
V2. -/
def Version.maxDepth : Version → ℕ
  | .v1 => 31
  | .v2 => 14

/-- The claims that a join covers. -/
def joinedClaims (is2ndProofDummy : Fr) (left right : List ClaimInput) : List ClaimInput :=
  if is2ndProofDummy = 1 then left else left ++ right

variable {version : Version} {chips : Chips} {k : ℕ} {left right : SharedInstances}
  {leftClaims rightClaims : List ClaimInput} {instances0 instances1 : List Fr}
  {total endIdx is2ndProofDummy : Fr} {columns0 columns1 : Columns} {leftCount rightCount : ℕ}

/-! ## Joining claims -/

/-- Columns appended to longer ones. -/
theorem Columns.StartsWith.append_right (h : columns0.StartsWith leftClaims) :
    (columns0.append columns1).StartsWith leftClaims where
  grantIds := h.grantIds.trans (List.prefix_append _ _)
  receivers := h.receivers.trans (List.prefix_append _ _)
  nullifierHashes := h.nullifierHashes.trans (List.prefix_append _ _)

/-- Columns that begin with as many claims as they are long are those of the claims. -/
theorem Columns.StartsWith.eq {m : ℕ} (h : columns0.StartsWith leftClaims)
    (hlen : columns0.HasLength m) (hcount : leftClaims.length = m) :
    columns0 = ⟨leftClaims.map ClaimInput.grantId, leftClaims.map ClaimInput.receiver,
      leftClaims.map ClaimInput.nullifierHash⟩ := by
  have hgrant := h.grantIds.eq_of_length (by rw [List.length_map, hcount, hlen.grantIds])
  have hreceiver := h.receivers.eq_of_length (by rw [List.length_map, hcount, hlen.receivers])
  have hnullifier := h.nullifierHashes.eq_of_length
    (by rw [List.length_map, hcount, hlen.nullifierHashes])
  rw [hgrant, hreceiver, hnullifier]

/-- Columns behind full ones. -/
theorem Columns.StartsWith.append_full {m : ℕ} (hl : columns0.StartsWith leftClaims)
    (hlen : columns0.HasLength m) (hcount : leftClaims.length = m)
    (hr : columns1.StartsWith rightClaims) :
    (columns0.append columns1).StartsWith (leftClaims ++ rightClaims) := by
  rw [hl.eq hlen hcount]
  constructor
  · rw [List.map_append]
    exact (List.prefix_append_right_inj _).mpr hr.grantIds
  · rw [List.map_append]
    exact (List.prefix_append_right_inj _).mpr hr.receivers
  · rw [List.map_append]
    exact (List.prefix_append_right_inj _).mpr hr.nullifierHashes

/-- The columns of a join begin with the claims it covers. -/
theorem Joined.startsWith {numProofs : ℕ}
    (h : Joined k left right leftClaims.length rightClaims.length numProofs endIdx
      is2ndProofDummy) (hlen : columns0.HasLength (2 ^ k)) (hl : columns0.StartsWith leftClaims)
    (hr : columns1.StartsWith rightClaims) :
    (columns0.append columns1).StartsWith
      (joinedClaims is2ndProofDummy leftClaims rightClaims) := by
  cases h with
  | dummy hdummy =>
      rw [joinedClaims, if_pos hdummy]
      exact hl.append_right
  | linked hdummy _ _ hfull =>
      rw [joinedClaims, hdummy, if_neg Fr.zero_ne_one]
      exact hl.append_full hlen hfull hr

/-- A join covers as many claims as it says. -/
theorem Joined.length_joinedClaims {numProofs : ℕ}
    (h : Joined k left right leftClaims.length rightClaims.length numProofs endIdx
      is2ndProofDummy) :
    (joinedClaims is2ndProofDummy leftClaims rightClaims).length = numProofs := by
  cases h with
  | dummy hdummy _ hcount => rw [joinedClaims, if_pos hdummy, hcount]
  | linked hdummy _ hcount =>
      rw [joinedClaims, hdummy, if_neg Fr.zero_ne_one, List.length_append, hcount]

/-- The claim root of a join is that of the claims it covers. -/
theorem Joined.claimRoot {numProofs : ℕ}
    (h : Joined k left right leftClaims.length rightClaims.length numProofs endIdx
      is2ndProofDummy) (hright : rightClaims.length ≤ 2 ^ k) :
    hashNodes chips.keccak256
        (claimRootOf chips.keccak256 k (paddedStrings leftClaims (2 ^ k)))
        (rightRoot chips.keccak256 k is2ndProofDummy
          (claimRootOf chips.keccak256 k (paddedStrings rightClaims (2 ^ k)))) =
      claimRootOf chips.keccak256 (k + 1)
        (paddedStrings (joinedClaims is2ndProofDummy leftClaims rightClaims) (2 ^ (k + 1))) := by
  have hlength {claims : List ClaimInput} (hle : claims.length ≤ 2 ^ k) :
      (paddedStrings claims (2 ^ k)).length = 2 ^ k :=
    length_padStrings (by simpa using hle)
  cases h with
  | dummy hdummy _ _ hleft =>
      rw [joinedClaims, if_pos hdummy, rightRoot, if_pos hdummy, ← claimRootOf_zero,
        ← claimRootOf_append _ (hlength hleft) (by simp), pow_succ, mul_two]
      rw [paddedStrings, paddedStrings, padStrings_add (by simpa using hleft)]
  | linked hdummy _ _ hfull =>
      rw [joinedClaims, rightRoot, hdummy, if_neg Fr.zero_ne_one, if_neg Fr.zero_ne_one,
        ← claimRootOf_append _ (hlength hfull.le) (hlength hright), pow_succ, mul_two]
      rw [paddedStrings, paddedStrings, paddedStrings, List.map_append,
        padStrings_append (by simpa using hfull), padStrings_self (by simpa using hfull)]

/-! ## Honest circuits -/

/-- Two circuits with what a join requires of them. -/
structure JoinsUp (version : Version) (chips : Chips) (k : ℕ) (left right : SharedInstances)
    (leftClaims rightClaims : List ClaimInput) (instances0 instances1 : List Fr)
    (total endIdx is2ndProofDummy : Fr) : Prop where
  depth_lt : k < version.maxDepth
  rangeAdmits : RangeAdmits chips.lookupBits k (2 ^ (k + 1))
  left_describes : Describes version chips k left leftClaims instances0
  right_describes : Describes version chips k right rightClaims instances1
  left_covers : left.Covers leftClaims.length
  right_covers : right.Covers rightClaims.length
  right_le : rightClaims.length ≤ 2 ^ k
  vkHash_eq : left.vkHash = right.vkHash
  root_eq : left.root = right.root
  joined : Joined k left right leftClaims.length rightClaims.length total.val endIdx
    is2ndProofDummy

/-- A supported depth. -/
theorem Version.lt_of_lt_maxDepth (h : k < version.maxDepth) : k < 31 := by
  cases version with
  | v1 => exact h
  | v2 => exact h.trans (by decide)

/-- The number of V1 instances of a supported depth fits into 64 bits. -/
theorem numInstance_lt (h : k < 31) : 5 + 3 * 2 ^ k < 2 ^ 64 := by
  have hpow : 2 ^ k ≤ 2 ^ 31 := Nat.pow_le_pow_right (by omega) (by omega)
  omega

/-- The shared instances come first, and there are as many instances as a parent expects. -/
theorem Describes.exists_append {shared : SharedInstances} {claims : List ClaimInput}
    {instances : List Fr} (h : Describes version chips k shared claims instances) (hk : k < 31) :
    ∃ rest, instances = shared.toList ++ rest ∧
      version.getNumInstance k = some (shared.toList ++ rest).length := by
  cases version with
  | v1 =>
      obtain ⟨columns, hlen, -, rfl⟩ := h
      refine ⟨columns.toList, rfl, getNumInstance_eq_some.mpr ⟨numInstance_lt hk, ?_⟩⟩
      rw [List.length_append, hlen.toList]
      rfl
  | v2 => exact ⟨_, h, rfl⟩

/-- The constraints that all joins share are satisfied. -/
theorem JoinsUp.check (h : JoinsUp version chips k left right leftClaims rightClaims instances0
    instances1 total endIdx is2ndProofDummy) :
    ∃ len, version.getNumInstance k = some len ∧
      Honest (checkAndJoinSharedInstances chips.lookupBits instances0 instances1 total (k + 1) len)
        (({ left with end_ := endIdx } : SharedInstances).toList, is2ndProofDummy) := by
  have hk := Version.lt_of_lt_maxDepth h.depth_lt
  obtain ⟨rest0, hinst0, hlen0⟩ := h.left_describes.exists_append hk
  obtain ⟨rest1, hinst1, hlen1⟩ := h.right_describes.exists_append hk
  refine ⟨_, hlen0, ?_⟩
  have hlen := Option.some.inj (hlen0.symm.trans hlen1)
  subst hinst0 hinst1
  exact honest_checkAndJoinSharedInstances h.left_covers h.right_covers (by omega) rfl hlen
    h.right_le h.vkHash_eq h.root_eq h.rangeAdmits h.joined

/-- A join of circuits that link up describes the joined claims. -/
theorem JoinsUp.join (h : JoinsUp version chips k left right leftClaims rightClaims instances0
    instances1 total endIdx is2ndProofDummy) :
    ∃ out, Honest (version.joinCircuit chips instances0 instances1 total (k + 1)) out ∧
      Describes version chips (k + 1) { left with end_ := endIdx }
        (joinedClaims is2ndProofDummy leftClaims rightClaims) out := by
  have hk := Version.lt_of_lt_maxDepth h.depth_lt
  cases version with
  | v1 =>
      obtain ⟨columns0, hlen0, hstart0, rfl⟩ := h.left_describes
      obtain ⟨columns1, hlen1, hstart1, rfl⟩ := h.right_describes
      refine ⟨_, WorldcoinIntermediateAggregationInput.honest_joinPreviousInstances h.left_covers
        h.right_covers hlen0 hlen1 (numInstance_lt hk) h.right_le h.vkHash_eq h.root_eq
        h.rangeAdmits h.joined, columns0.append columns1, ?_, ?_, rfl⟩
      · rw [pow_succ, mul_two]
        exact hlen0.append hlen1
      · exact h.joined.startsWith hlen0 hstart0 hstart1
  | v2 =>
      have hinst0 := h.left_describes
      have hinst1 := h.right_describes
      simp only [Describes] at hinst0 hinst1
      subst hinst0 hinst1
      refine ⟨_, WorldcoinIntermediateAggregationInputV2.honest_virtualAssignPhase0 h.left_covers
        h.right_covers h.depth_lt h.right_le h.vkHash_eq h.root_eq h.rangeAdmits h.joined, ?_⟩
      simp only [Describes]
      rw [h.joined.claimRoot h.right_le]

/-- The bytes that an honest V1 root hashes begin with its claims. -/
theorem JoinsUp.rootBytes (h : JoinsUp .v1 chips k left right leftClaims rightClaims instances0
    instances1 total endIdx is2ndProofDummy) :
    ∃ columns : Columns, columns.HasLength (2 ^ (k + 1)) ∧
      columns.StartsWith (joinedClaims is2ndProofDummy leftClaims rightClaims) ∧
      Honest (WorldcoinRootAggregationInput.output chips.lookupBits instances0 instances1 total
        (k + 1)) (WorldcoinRootAggregationInput.outputOf left.vkHash left.root total columns) ∧
      Honest (WorldcoinRootAggregationInput.outputBytes
        (WorldcoinRootAggregationInput.outputOf left.vkHash left.root total columns) (k + 1))
        (canonicalWords (WorldcoinRootAggregationInput.outputOf left.vkHash left.root total
          columns)).flatten := by
  have hk : k < 31 := h.depth_lt
  obtain ⟨columns0, hlen0, hstart0, rfl⟩ := h.left_describes
  obtain ⟨columns1, hlen1, hstart1, rfl⟩ := h.right_describes
  have hlen : (columns0.append columns1).HasLength (2 ^ (k + 1)) := by
    rw [pow_succ, mul_two]
    exact hlen0.append hlen1
  exact ⟨_, hlen, h.joined.startsWith hlen0 hstart0 hstart1,
    WorldcoinRootAggregationInput.honest_output h.left_covers h.right_covers hlen0 hlen1
      (by omega) (numInstance_lt hk) h.right_le h.vkHash_eq h.root_eq h.rangeAdmits h.joined,
    WorldcoinRootAggregationInput.honest_outputBytes (by omega) hlen⟩

/-- A root over circuits that link up describes the batch of the joined claims. -/
theorem JoinsUp.root (h : JoinsUp version chips k left right leftClaims rightClaims instances0
    instances1 total endIdx is2ndProofDummy) :
    ∃ out, Honest (version.rootCircuit chips instances0 instances1 total (k + 1)) out ∧
      DescribesBatch version chips (k + 1) left.vkHash left.root
        (joinedClaims is2ndProofDummy leftClaims rightClaims) out := by
  have hcount : ((joinedClaims is2ndProofDummy leftClaims rightClaims).length : Fr) = total := by
    rw [h.joined.length_joinedClaims, ZMod.natCast_zmod_val]
  cases version with
  | v1 =>
      obtain ⟨columns, hlen, hstart, houtput, hbytes⟩ := h.rootBytes
      refine ⟨_, houtput.bind (hbytes.bind (.pure _)), columns, hlen, hstart, ?_⟩
      rw [hcount]
      rfl
  | v2 =>
      have hinst0 := h.left_describes
      have hinst1 := h.right_describes
      simp only [Describes] at hinst0 hinst1
      subst hinst0 hinst1
      refine ⟨_, WorldcoinRootAggregationInputV2.honest_virtualAssignPhase0 h.left_covers
        h.right_covers h.depth_lt h.right_le h.vkHash_eq h.root_eq h.rangeAdmits h.joined, ?_⟩
      simp only [DescribesBatch]
      rw [h.joined.claimRoot h.right_le, hcount]

/-- A leaf over accepted claims, filled up with copies of them, describes the claims. -/
theorem leaf_describes (version : Version) {input : WorldcoinLeafInput} {claims : List ClaimInput}
    (h : LeafConstraints chips input) (hlen : input.claims.length = 2 ^ input.maxDepth)
    (hclaims : claims <+: input.claims)
    (hcount : claims.length = input.end_.val - input.start.val)
    (hreceivers : ∀ claim ∈ input.claims, claim.receiver.val < 256 ^ 20) :
    ∃ out, Honest (version.leafCircuit chips input) out ∧
      Describes version chips input.maxDepth ⟨input.start, input.end_,
        vkHashOf chips.keccak256 (canonicalWords input.vkBytes), input.root⟩ claims out := by
  cases version with
  | v1 =>
      refine ⟨_, WorldcoinLeafInput.honest_virtualAssignPhase0 h,
        ⟨input.claims.map ClaimInput.grantId, input.claims.map ClaimInput.receiver,
          input.claims.map ClaimInput.nullifierHash⟩, ?_, ?_, ?_⟩
      · constructor <;> simp [hlen]
      · exact ⟨hclaims.map _, hclaims.map _, hclaims.map _⟩
      · simp [v1Instances, WorldcoinLeafInput.instances, SharedInstances.toList, Columns.toList]
  | v2 =>
      refine ⟨_, WorldcoinLeafInputV2.honest_virtualAssignPhase0 h hlen hreceivers, ?_⟩
      have hsub : (input.end_ - input.start).val = claims.length := by
        rw [Fr.val_sub_of_le h.start_lt.le, hcount]
      rw [Describes, hsub, ← List.prefix_iff_eq_take.mp hclaims]

end WorldcoinAggregation
