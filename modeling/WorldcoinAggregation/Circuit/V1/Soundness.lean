import WorldcoinAggregation.Circuit.ProofTree

/-!
# Soundness of V1 aggregation

Whatever witnesses a prover supplies, the columns whose hash a V1 root exposes are those of the
leaves in order, every slot has an accepted Groth16 proof, and the leaves cover an interval of
exactly `numProofs` claims.
-/

namespace WorldcoinAggregation

open Synthesis

/-- The columns of a leaf. -/
def WorldcoinLeafInput.columns (input : WorldcoinLeafInput) : Columns where
  grantIds := input.claims.map ClaimInput.grantId
  receivers := input.claims.map ClaimInput.receiver
  nullifierHashes := input.claims.map ClaimInput.nullifierHash

/-- The columns of a list of leaves, one after another. -/
def columnsOf (leaves : List LeafWitness) : Columns where
  grantIds := leaves.flatMap fun witness => witness.input.columns.grantIds
  receivers := leaves.flatMap fun witness => witness.input.columns.receivers
  nullifierHashes := leaves.flatMap fun witness => witness.input.columns.nullifierHashes

variable {chips : Chips} {initialDepth height count m : ℕ}

/-- Columns of more leaves come behind. -/
theorem columnsOf_append (left right : List LeafWitness) :
    columnsOf (left ++ right) = (columnsOf left).append (columnsOf right) := by
  simp [columnsOf, Columns.append]

/-- Every leaf has this number of slots. -/
def SlotCount (m : ℕ) (leaves : List LeafWitness) : Prop :=
  ∀ witness ∈ leaves, witness.input.claims.length = m

/-- Columns of leaves with equally many slots. -/
theorem SlotCount.hasLength {leaves : List LeafWitness} (h : SlotCount m leaves) :
    (columnsOf leaves).HasLength (m * leaves.length) := by
  induction leaves with
  | nil => exact ⟨rfl, rfl, rfl⟩
  | cons witness leaves ih =>
      have hhead : witness.input.claims.length = m := h witness (by simp)
      have htail := ih fun w hw => h w (by simp [hw])
      have hone : (columnsOf [witness]).HasLength m := by
        constructor <;> simpa [columnsOf, WorldcoinLeafInput.columns] using hhead
      rw [← List.singleton_append, columnsOf_append, List.length_append, List.length_singleton,
        Nat.mul_add, Nat.mul_one]
      exact hone.append htail

/-- The invariant of V1 trees: they span an interval and expose the columns of their leaves. -/
structure V1Invariant (chips : Chips) (initialDepth : ℕ) {height : ℕ} (tree : ProofTree height)
    (shared : SharedInstances) (count : ℕ) (instances : List Fr) : Prop where
  spans : Spans chips initialDepth tree shared count
  slots : ∃ m, SlotCount m tree.leaves
  instances_eq : instances = v1Instances shared (columnsOf tree.leaves)

/-- A satisfied V1 leaf keeps the invariant. -/
theorem V1Invariant.leaf {witness : LeafWitness} {instances : List Fr}
    (h : (ProofTree.leaf witness).instances (v1Circuits chips) initialDepth = some instances) :
    ∃ shared count, V1Invariant chips initialDepth (.leaf witness) shared count instances := by
  rw [ProofTree.instances] at h
  split at h
  · rename_i hdepth
    obtain ⟨words, rest, hadvice, hconstraints, hwords, rfl⟩ :=
      WorldcoinLeafInput.tracks_virtualAssignPhase0.of_output h
    have hvk := LeafWitness.vkWords_eq hadvice hwords hconstraints.vk_length
    have hfits : witness.Fits chips initialDepth ⟨witness.input.start, witness.input.end_,
        vkHashOf chips.keccak256 words, witness.input.root⟩ :=
      ⟨hconstraints, hdepth, rfl, hvk.symm ▸ hwords, by rw [hvk]⟩
    refine ⟨_, _, Spans.leaf hfits rfl rfl, ⟨witness.input.claims.length, ?_⟩, ?_⟩
    · simp [SlotCount, ProofTree.leaves]
    · simp [v1Instances, columnsOf, ProofTree.leaves, WorldcoinLeafInput.instances,
        SharedInstances.toList, Columns.toList, WorldcoinLeafInput.columns]
  · cases h

/-- The number of slots of a tree whose columns have the length that a join requires. -/
theorem SlotCount.eq_two_pow {tree : ProofTree height} (h : SlotCount m tree.leaves)
    (hlen : m * tree.leaves.length = 2 ^ (initialDepth + height)) :
    SlotCount (2 ^ initialDepth) tree.leaves := by
  rw [ProofTree.length_leaves, pow_add] at hlen
  rwa [← Nat.eq_of_mul_eq_mul_right (Nat.two_pow_pos height) hlen]

/-- A satisfied V1 join keeps the invariant. It covers as many claims as its prover says, and all
leaves below it are full. -/
theorem V1Invariant.node {left right : ProofTree height} {leftShared rightShared : SharedInstances}
    {leftCount rightCount : ℕ} {instances0 instances1 instances : List Fr} {numProofs : Fr}
    {advice : List (List UInt8)}
    (hl : V1Invariant chips initialDepth left leftShared leftCount instances0)
    (hr : V1Invariant chips initialDepth right rightShared rightCount instances1)
    (hjoin : output ((v1Circuits chips).join instances0 instances1 numProofs
      (initialDepth + height + 1)) (.scripted advice) = some instances) :
    SlotCount (2 ^ initialDepth) (ProofTree.node left right numProofs advice).leaves ∧
      ∃ shared, V1Invariant chips initialDepth (.node left right numProofs advice) shared
        numProofs.val instances := by
  obtain ⟨hlspans, ⟨m, hm⟩, rfl⟩ := hl
  obtain ⟨hrspans, ⟨n, hn⟩, rfl⟩ := hr
  obtain ⟨hmlen, hnlen, hvk, hroot, endIdx, is2ndProofDummy, rfl, hjoined⟩ :=
    (WorldcoinIntermediateAggregationInput.sound_joinPreviousInstances hlspans.covers
      hrspans.covers hm.hasLength hn.hasLength).of_output hjoin
  have hslots : SlotCount (2 ^ initialDepth) (left.leaves ++ right.leaves) := by
    intro witness hmem
    rcases List.mem_append.mp hmem with hmem | hmem
    · exact hm.eq_two_pow hmlen witness hmem
    · exact hn.eq_two_pow hnlen witness hmem
  refine ⟨hslots, _, hlspans.node hrspans hvk hroot hjoined, ⟨_, hslots⟩, ?_⟩
  rw [ProofTree.leaves, columnsOf_append]

/-- Every satisfied V1 tree has the invariant. -/
theorem v1Invariant_of_instances (tree : ProofTree height) {instances : List Fr}
    (h : tree.instances (v1Circuits chips) initialDepth = some instances) :
    ∃ shared count, V1Invariant chips initialDepth tree shared count instances := by
  induction tree generalizing instances with
  | leaf witness => exact V1Invariant.leaf h
  | node left right numProofs advice ihl ihr =>
      simp only [ProofTree.instances, Option.bind_eq_bind, Option.bind_eq_some_iff] at h
      obtain ⟨instances0, hleft, instances1, hright, hjoin⟩ := h
      obtain ⟨_, _, hl⟩ := ihl hleft
      obtain ⟨_, _, hr⟩ := ihr hright
      obtain ⟨-, shared, hnode⟩ := hl.node hr hjoin
      exact ⟨shared, _, hnode⟩

/-- A satisfied V1 tree with a join on top covers as many claims as the join says. -/
theorem v1Invariant_of_join (tree : ProofTree (height + 1)) {instances : List Fr}
    (h : tree.instances (v1Circuits chips) initialDepth = some instances) :
    SlotCount (2 ^ initialDepth) tree.leaves ∧
      ∃ shared, V1Invariant chips initialDepth tree shared tree.numProofs.val instances := by
  cases tree with
  | node left right numProofs advice =>
      simp only [ProofTree.instances, Option.bind_eq_bind, Option.bind_eq_some_iff] at h
      obtain ⟨instances0, hleft, instances1, hright, hjoin⟩ := h
      obtain ⟨_, _, hl⟩ := v1Invariant_of_instances left hleft
      obtain ⟨_, _, hr⟩ := v1Invariant_of_instances right hright
      exact hl.node hr hjoin

/-! ## The root -/

/-- The words that a V1 root hashes are the first that it reads. -/
def ProofTree.rootWords (initialDepth : ℕ) :
    {height : ℕ} → ProofTree (height + 1) → List (List UInt8)
  | height, node _ _ _ advice => advice.take (4 + 3 * 2 ^ (initialDepth + height + 1))

/-- The string that a V1 root hashes. -/
def ProofTree.rootString (initialDepth : ℕ) {height : ℕ} (tree : ProofTree (height + 1)) :
    List UInt8 :=
  (tree.rootWords initialDepth).flatten

/-- A satisfied V1 root has a satisfied join and hashes the words that it reads. -/
theorem rootOutput_v1 (tree : ProofTree (height + 1)) {out : List Fr}
    (h : tree.rootOutput (v1Circuits chips)
      (WorldcoinRootAggregationInput.virtualAssignPhase0 chips) initialDepth = some out) :
    ∃ instances, tree.instances (v1Circuits chips) initialDepth = some instances ∧
      WordsOf (instances.extract 2 5 ++ [tree.numProofs] ++
        instances.extract 5 (5 + 3 * 2 ^ (initialDepth + height + 1)))
        (tree.rootWords initialDepth) ∧
      out = (HiLo.ofDigest (chips.keccak256 (tree.rootString initialDepth))).hiLo := by
  cases tree with
  | node left right numProofs advice =>
      simp only [ProofTree.rootOutput, Option.bind_eq_bind, Option.bind_eq_some_iff] at h
      obtain ⟨instances0, hleft, instances1, hright, hroot⟩ := h
      obtain ⟨values, houtput, hhash⟩ :=
        WorldcoinRootAggregationInput.tracks_output.output_bind hroot
      obtain ⟨instances, hjoin, hslice⟩ :=
        WorldcoinIntermediateAggregationInput.tracks_joinPreviousInstances.output_bind houtput
      have hvalues : Sound (do
          let maxProofs ← lift (oneShl 64 (initialDepth + height + 1))
          return instances.extract 2 5 ++ [numProofs] ++ instances.extract 5 (5 + 3 * maxProofs) :
            Circuit (List Fr)) fun values => values = instances.extract 2 5 ++ [numProofs] ++
              instances.extract 5 (5 + 3 * 2 ^ (initialDepth + height + 1)) := by
        refine Sound.lift.bind fun maxProofs hshift => .pure ?_
        rw [(oneShl_eq_some.mp hshift).2]
      have hbytes : Tracks (do
          let bytes ← WorldcoinRootAggregationInput.outputBytes values (initialDepth + height + 1)
          return (keccakFixedLen chips.keccak256 bytes).hiLo : Circuit (List Fr)) fun used out =>
            WordsOf values used ∧ used.length = 4 + 3 * 2 ^ (initialDepth + height + 1) ∧
              out = (HiLo.ofDigest (chips.keccak256 used.flatten)).hiLo := by
        refine WorldcoinRootAggregationInput.tracks_outputBytes.bind fun used bytes h => .pure ?_
        obtain ⟨hwords, hlength, rfl⟩ := h
        rw [List.append_nil]
        exact ⟨hwords, hlength, rfl⟩
      obtain ⟨used, rest, hadvice, hwords, hlength, hout⟩ := hbytes.of_output hhash
      have hread : (ProofTree.node left right numProofs advice).rootWords initialDepth = used := by
        rw [ProofTree.rootWords, hadvice, ← hlength, List.take_left]
      rw [hvalues.of_output hslice] at hwords
      rw [ProofTree.rootString, hread]
      refine ⟨instances, ?_, hwords, hout⟩
      simp only [ProofTree.instances, hleft, hright, Option.bind_eq_bind, Option.bind_some]
      exact hjoin

/-- The root over two satisfied trees that join can hash any decomposition of its output, and reads
nothing else. -/
theorem rootOutput_v1_node {left right : ProofTree height}
    {leftShared rightShared : SharedInstances} {columns0 columns1 : Columns}
    {leftCount rightCount : ℕ} {total endIdx is2ndProofDummy : Fr} {words : List (List UInt8)}
    (hleft : left.instances (v1Circuits chips) initialDepth =
      some (v1Instances leftShared columns0))
    (hright : right.instances (v1Circuits chips) initialDepth =
      some (v1Instances rightShared columns1))
    (hl : leftShared.Covers leftCount) (hr : rightShared.Covers rightCount)
    (hm : columns0.HasLength (2 ^ (initialDepth + height)))
    (hn : columns1.HasLength (2 ^ (initialDepth + height)))
    (hdepth : initialDepth + height + 1 < 63) (hcount : rightCount ≤ 2 ^ (initialDepth + height))
    (hvk : leftShared.vkHash = rightShared.vkHash) (hroot : leftShared.root = rightShared.root)
    (hrange : RangeAdmits chips.lookupBits (initialDepth + height)
      (2 ^ (initialDepth + height + 1)))
    (h : Joined (initialDepth + height) leftShared rightShared leftCount rightCount total.val
      endIdx is2ndProofDummy)
    (hwords : WordsOf (WorldcoinRootAggregationInput.outputOf leftShared.vkHash leftShared.root
      total (columns0.append columns1)) words) :
    (ProofTree.node left right total words).rootOutput (v1Circuits chips)
        (WorldcoinRootAggregationInput.virtualAssignPhase0 chips) initialDepth =
        some (HiLo.ofDigest (chips.keccak256 words.flatten)).hiLo ∧
      (ProofTree.node left right total words).rootWords initialDepth = words := by
  have hsize : 5 + 3 * 2 ^ (initialDepth + height) < 2 ^ 64 := by
    have hpow : 2 ^ (initialDepth + height) ≤ 2 ^ 61 := Nat.pow_le_pow_right (by omega) (by omega)
    omega
  have hlen : (columns0.append columns1).HasLength (2 ^ (initialDepth + height + 1)) := by
    rw [pow_succ, mul_two]
    exact hm.append hn
  have hjoin := (WorldcoinRootAggregationInput.honest_output hl hr hm hn (by omega) hsize hcount
    hvk hroot hrange h).replays_nil WorldcoinRootAggregationInput.tracks_output
  have hbytes := WorldcoinRootAggregationInput.replays_outputBytes (by omega) hlen hwords
  constructor
  · simp only [ProofTree.rootOutput, hleft, hright, Option.bind_eq_bind, Option.bind_some]
    refine Replays.output (Replays.of_eq (hjoin.bind (hbytes.bind (.pure _))) ?_)
    simp
  · refine List.take_of_length_le ?_
    rw [← hwords.length_eq, WorldcoinRootAggregationInput.length_outputOf hlen]

/-- Full leaves fill the columns of their tree. -/
theorem SlotCount.hasLength_columnsOf {tree : ProofTree (height + 1)}
    (h : SlotCount (2 ^ initialDepth) tree.leaves) :
    (columnsOf tree.leaves).HasLength (2 ^ (initialDepth + height + 1)) := by
  have hlen := h.hasLength
  rwa [ProofTree.length_leaves, ← pow_add, ← add_assoc] at hlen

/-- Indexing into equally long blocks. -/
theorem getElem?_flatMap {α β : Type} {f : α → List β} {m : ℕ} (hpos : 0 < m) {xs : List α}
    (h : ∀ x ∈ xs, (f x).length = m) (i : ℕ) :
    (xs.flatMap f)[i]? = xs[i / m]?.bind fun x => (f x)[i % m]? := by
  induction xs generalizing i with
  | nil => simp
  | cons x xs ih =>
      have hhead : (f x).length = m := h x (by simp)
      have htail := ih fun y hy => h y (by simp [hy])
      rw [List.flatMap_cons]
      by_cases hi : i < m
      · rw [List.getElem?_append_left (by omega), Nat.div_eq_of_lt hi, Nat.mod_eq_of_lt hi]
        rfl
      · obtain ⟨j, rfl⟩ := Nat.exists_eq_add_of_le (Nat.le_of_not_lt hi)
        rw [List.getElem?_append_right (by omega), hhead, Nat.add_sub_cancel_left, htail,
          Nat.add_div_left j hpos, Nat.add_mod_left]
        rfl

/-- Slot `i` of the columns is one slot of one leaf, whose proof was accepted for the number of
public inputs that the prover of the leaf supplied. -/
def SlotAccepted (chips : Chips) (initialDepth : ℕ) (root : Fr) (leaves : List LeafWitness)
    (columns : Columns) (i : ℕ) : Prop :=
  ∃ witness claim, leaves[i / 2 ^ initialDepth]? = some witness ∧
    witness.input.claims[i % 2 ^ initialDepth]? = some claim ∧
    columns.grantIds[i]? = some claim.grantId ∧ columns.receivers[i]? = some claim.receiver ∧
    columns.nullifierHashes[i]? = some claim.nullifierHash ∧
    claim.Accepted chips witness.input.vkBytes witness.input.numPublicInputs root

/-- In a tree of full leaves every slot is accepted. -/
theorem slotAccepted {tree : ProofTree height} {shared : SharedInstances}
    (hslots : SlotCount (2 ^ initialDepth) tree.leaves)
    (hfits : ∀ witness ∈ tree.leaves, witness.Fits chips initialDepth shared) {i : ℕ}
    (hi : i < 2 ^ (initialDepth + height)) :
    SlotAccepted chips initialDepth shared.root tree.leaves (columnsOf tree.leaves) i := by
  have hpos : 0 < 2 ^ initialDepth := Nat.two_pow_pos _
  have hleaf : i / 2 ^ initialDepth < tree.leaves.length := by
    rw [ProofTree.length_leaves, Nat.div_lt_iff_lt_mul hpos, mul_comm, ← pow_add]
    exact hi
  obtain ⟨witness, hwitness⟩ : ∃ w, tree.leaves[i / 2 ^ initialDepth]? = some w :=
    ⟨_, List.getElem?_eq_getElem hleaf⟩
  have hmem := List.mem_of_getElem? hwitness
  have hslot : i % 2 ^ initialDepth < witness.input.claims.length := by
    rw [hslots witness hmem]
    exact Nat.mod_lt i hpos
  obtain ⟨claim, hclaim⟩ : ∃ c, witness.input.claims[i % 2 ^ initialDepth]? = some c :=
    ⟨_, List.getElem?_eq_getElem hslot⟩
  have hcolumn (f : ClaimInput → Fr) :
      (tree.leaves.flatMap fun w => w.input.claims.map f)[i]? = some (f claim) := by
    rw [getElem?_flatMap hpos fun w hw => by rw [List.length_map, hslots w hw]]
    simp [hwitness, hclaim]
  have haccepted := (hfits witness hmem).constraints.accepted claim (List.mem_of_getElem? hclaim)
  rw [(hfits witness hmem).root_eq] at haccepted
  exact ⟨witness, claim, hwitness, hclaim, hcolumn _, hcolumn _, hcolumn _, haccepted⟩

/-- A satisfied V1 leaf exposes the key hash and root of the tree it belongs to. -/
theorem LeafWitness.Fits.v1_instances {witness : LeafWitness} {shared : SharedInstances}
    {out : List Fr} (h : witness.Fits chips initialDepth shared)
    (hout : (ProofTree.leaf witness).instances (v1Circuits chips) initialDepth = some out) :
    out = v1Instances ⟨witness.input.start, witness.input.end_, shared.vkHash, shared.root⟩
      witness.input.columns := by
  rw [ProofTree.instances, if_pos h.maxDepth_eq] at hout
  obtain ⟨words, rest, hadvice, -, hwords, rfl⟩ :=
    WorldcoinLeafInput.tracks_virtualAssignPhase0.of_output hout
  rw [← h.vkHash_eq, LeafWitness.vkWords_eq hadvice hwords h.constraints.vk_length, ← h.root_eq]
  simp [v1Instances, WorldcoinLeafInput.instances, SharedInstances.toList, Columns.toList,
    WorldcoinLeafInput.columns]

/-- A sole leaf is satisfied by the honest words of its key. -/
theorem soleLeaf_v1_instances (start end_ : Fr) (hend : end_.val = start.val + 1)
    (hlt : end_.val < 2 ^ 64) :
    (ProofTree.leaf
        ⟨soleLeaf start end_, canonicalWords (List.replicate numFeHiloVkey 1)⟩).instances
        (v1Circuits soleChips) 0 =
      some (v1Instances (soleShared start end_) (soleLeaf start end_).columns) :=
  (WorldcoinLeafInput.replays_virtualAssignPhase0 (soleLeaf_constraints hend hlt)
    (wordsOf_canonicalWords _)).output

/-- The columns of a sole leaf have one slot. -/
theorem hasLength_soleLeaf (start end_ : Fr) : (soleLeaf start end_).columns.HasLength 1 :=
  ⟨rfl, rfl, rfl⟩

/-- Two sole leaves are aggregated, and any decomposition of their output can be hashed. -/
theorem exists_sole_rootOutput {words : List (List UInt8)}
    (hwords : WordsOf (WorldcoinRootAggregationInput.outputOf soleVkHash 7 2
      ((soleLeaf 0 1).columns.append (soleLeaf 1 2).columns)) words) :
    ∃ tree : ProofTree 1, tree.rootOutput (v1Circuits soleChips)
        (WorldcoinRootAggregationInput.virtualAssignPhase0 soleChips) 0 =
      some (HiLo.ofDigest (soleChips.keccak256 words.flatten)).hiLo := by
  have hleft := soleLeaf_v1_instances 0 1 (by decide) (by decide)
  have hright := soleLeaf_v1_instances 1 2 (by decide) (by decide)
  obtain ⟨hroot, -⟩ := rootOutput_v1_node hleft hright covers_soleShared_left
    covers_soleShared_right (hasLength_soleLeaf 0 1) (hasLength_soleLeaf 1 2) (by decide)
    (by decide) rfl rfl rangeAdmits_sole joined_soleShared hwords
  exact ⟨_, hroot⟩

/-- The root hashes a decomposition of one key hash, one root, the number `n` of claims between
the bounds of the joined interval, and the columns of the leaves in order. All leaves expose that
key hash and root, every slot was accepted, and the leaves in front cover the `n` claims. -/
structure AggregatesColumns (chips : Chips) (initialDepth : ℕ) {height : ℕ}
    (tree : ProofTree (height + 1)) (out : List Fr) (shared : SharedInstances) (n : ℕ)
    (words : List (List UInt8)) : Prop where
  wordsOf : WordsOf (WorldcoinRootAggregationInput.outputOf shared.vkHash shared.root n
    (columnsOf tree.leaves)) words
  out_eq : out = (HiLo.ofDigest (chips.keccak256 words.flatten)).hiLo
  instances_eq : tree.instances (v1Circuits chips) initialDepth =
    some (v1Instances shared (columnsOf tree.leaves))
  count_eq : n = shared.end_.val - shared.start.val
  pos : 1 ≤ n
  count_le : n ≤ 2 ^ (initialDepth + height + 1)
  columns_length : (columnsOf tree.leaves).HasLength (2 ^ (initialDepth + height + 1))
  leaves : ∀ witness ∈ tree.leaves,
    (ProofTree.leaf witness).instances (v1Circuits chips) initialDepth =
      some (v1Instances ⟨witness.input.start, witness.input.end_, shared.vkHash, shared.root⟩
        witness.input.columns)
  slots : ∀ i < 2 ^ (initialDepth + height + 1),
    SlotAccepted chips initialDepth shared.root tree.leaves (columnsOf tree.leaves) i
  coverage : ∀ j < (n + 2 ^ initialDepth - 1) / 2 ^ initialDepth,
    CoversAt initialDepth shared.start.val n tree.leaves j

/-- V1 aggregation is sound: if all constraints of a tree and its root hold for whatever witnesses
a prover chose, the root aggregates the columns of the leaves. -/
theorem v1_aggregation_sound (chips : Chips) (initialDepth height : ℕ)
    (tree : ProofTree (height + 1)) (out : List Fr)
    (h : tree.rootOutput (v1Circuits chips)
      (WorldcoinRootAggregationInput.virtualAssignPhase0 chips) initialDepth = some out) :
    ∃ shared n words, AggregatesColumns chips initialDepth tree out shared n words := by
  obtain ⟨instances, hinstances, hwords, hout⟩ := rootOutput_v1 tree h
  obtain ⟨hslots, shared, hspans, -, rfl⟩ := v1Invariant_of_join tree hinstances
  have hcolumns := hslots.hasLength_columnsOf
  rw [WorldcoinRootAggregationInput.extract_outputOf _ _ hcolumns] at hwords
  refine ⟨shared, tree.numProofs.val, tree.rootWords initialDepth, ?_, hout, hinstances, ?_,
    hspans.covers.pos, hspans.count_le, hcolumns, ?_,
    fun i hi => slotAccepted hslots hspans.fits hi, ?_⟩
  · rwa [ZMod.natCast_zmod_val]
  · have hstart := hspans.covers.start_add
    omega
  · intro witness hmem
    obtain ⟨leafOut, hleaf⟩ := tree.instances_leaf hinstances witness hmem
    rw [hleaf, (hspans.fits witness hmem).v1_instances hleaf]
  · exact fun j hj => hspans.coverage j (lt_ceil_iff.mp hj)

/-- Two sole leaves are aggregated. -/
theorem v1_aggregation_sound_sole :
    ∃ (tree : ProofTree 1) (out : List Fr) (shared : SharedInstances) (n : ℕ)
      (words : List (List UInt8)), AggregatesColumns soleChips 0 tree out shared n words := by
  obtain ⟨tree, hroot⟩ := exists_sole_rootOutput (wordsOf_canonicalWords _)
  exact ⟨tree, _, v1_aggregation_sound soleChips 0 0 tree _ hroot⟩

end WorldcoinAggregation
