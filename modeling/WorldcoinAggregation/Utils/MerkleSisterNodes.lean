import WorldcoinAggregation.Base.Fallible
import WorldcoinAggregation.Circuit.V2.Leaf
import WorldcoinAggregation.Contract.V2.MerkleClaims

/-!
# Merkle proofs for claims

The script `merkleSisterNodes` builds the tree over the leaves of a batch level by level and reads
off the sister nodes of a leaf. The contract accepts what it returns, against the root that the leaf
circuit exposes (`sisterNodes_accepted`), and all three hash the same bytes for a leaf.
-/

namespace WorldcoinAggregation

open Fallible Synthesis

variable {keccak256 : List UInt8 → U256}

/-- The tree over some leaves, level by level from the leaves. -/
structure MerkleTree where
  leaves : List U256
  layers : List (List U256)

/-- The sister nodes of a leaf, and which of them stand on the left. -/
structure SisterNodesPath where
  sisterNodes : List U256
  isLeftBytes : List Bool

namespace MerkleTree

/-- The next layer. A node without a neighbour cannot be packed. -/
def nextLayer (keccak256 : List UInt8 → U256) : List U256 → Fallible (List U256)
  | left :: right :: rest => do
      return keccak256 (packNodes left right) :: (← nextLayer keccak256 rest)
  | [_] => throw (.error "invalid BytesLike value")
  | [] => return []

/-- The layers from the current one up to the root. -/
def buildTree (keccak256 : List UInt8 → U256) : ℕ → List U256 → Fallible (List (List U256))
  | 0, _ => throw .outOfFuel
  | fuel + 1, currentLayer =>
      if 1 < currentLayer.length then do
        let nextLayer ← nextLayer keccak256 currentLayer
        return currentLayer :: (← buildTree keccak256 fuel nextLayer)
      else return [currentLayer]

/-- The tree over some leaves. The layers get shorter, so there are no more than leaves. -/
def new (keccak256 : List UInt8 → U256) (leaves : List U256) : Fallible MerkleTree := do
  return ⟨leaves, ← buildTree keccak256 (leaves.length + 1) leaves⟩

/-- The only node of the last layer. -/
def getRoot (tree : MerkleTree) : Option U256 := do
  (← tree.layers.getLast?).head?

/-- The sister nodes in these layers, from this index on. -/
def sisterNodesPathFrom : List (List U256) → ℕ → SisterNodesPath
  | [], _ => ⟨[], []⟩
  | layer :: layers, index =>
      let isLeftNode := decide (index % 2 ≠ 1)
      let siblingIndex := if isLeftNode then index + 1 else index - 1
      let path := sisterNodesPathFrom layers (index / 2)
      if h : siblingIndex < layer.length then
        -- the flag is about the sibling
        ⟨layer.get ⟨siblingIndex, h⟩ :: path.sisterNodes, (!isLeftNode) :: path.isLeftBytes⟩
      else path

/-- The sister nodes of a leaf in all layers but the last. -/
def getSisterNodesPath (tree : MerkleTree) (index : ℕ) : SisterNodesPath :=
  sisterNodesPathFrom tree.layers.dropLast index

end MerkleTree

/-- The leaf of a claim. Numbers that do not fit into their words cannot be packed. -/
def getKeccakHash (keccak256 : List UInt8 → U256) (grantId : ℕ) (receiver : Address)
    (nullifierHash : ℕ) : Fallible U256 := do
  -- the values are packed in order
  if 2 ^ 256 ≤ grantId then
    throw (.error "padding exceeds data length")
  -- 64 hexadecimal digits, or more
  if 2 ^ 256 ≤ nullifierHash then
    throw (.error "invalid value for bytes32")
  return keccak256 (BigEndian.toBytes 32 grantId ++ BigEndian.toBytes 20 receiver.toNat ++
    BigEndian.toBytes 32 nullifierHash)

/-- The flags as the bytes of a word, the first one first. -/
def boolArrayToByte32 (boolArray : List Bool) : Fallible U256 := do
  if 32 < boolArray.length then
    throw (.error "Input array must have fewer than 32 boolean elements.")
  let byteArray := boolArray.map (fun flag => if flag then 1 else 0) ++
    List.replicate (32 - boolArray.length) 0
  return BitVec.ofNat 256 (BigEndian.ofBytes byteArray)

/-! ## The tree -/

namespace MerkleTree

/-- The next layer of an even one is the level above it. -/
theorem nextLayer_eq {layer : List U256} (heven : layer.length % 2 = 0) :
    nextLayer keccak256 layer = .ok (Merkle.levelUp (hashNodes keccak256) layer) := by
  induction layer using Merkle.chunks.induct with
  | case1 left right rest ih =>
      have hrest : rest.length % 2 = 0 := by
        simp only [List.length_cons] at heven
        omega
      rw [nextLayer, ih hrest]
      rfl
  -- nothing is left over, since the length is even
  | case2 layer hshort =>
      rcases layer with _ | ⟨left, _ | ⟨right, rest⟩⟩
      · rfl
      · simp at heven
      · exact absurd rfl (hshort left right rest)

/-- The layers over `2 ^ k` leaves are the levels of their tree. -/
theorem buildTree_eq {fuel k : ℕ} {leaves : List U256} (hlen : leaves.length = 2 ^ k)
    (hfuel : k < fuel) : buildTree keccak256 fuel leaves =
      .ok (Merkle.levels (hashNodes keccak256) k leaves) := by
  induction k generalizing fuel leaves with
  | zero =>
      obtain ⟨fuel, rfl⟩ := Nat.exists_eq_add_of_lt hfuel
      rw [buildTree, if_neg (by omega)]
      rfl
  | succ k ih =>
      obtain ⟨fuel, rfl⟩ := Nat.exists_eq_add_of_lt hfuel
      have hpos := Nat.two_pow_pos k
      have heven : leaves.length % 2 = 0 := by omega
      have hnext : buildTree keccak256 (k + 1 + fuel)
          (Merkle.levelUp (hashNodes keccak256) leaves) = _ :=
        ih (Merkle.length_levelUp_pow (hashNodes keccak256) hlen) (by omega)
      rw [buildTree, if_pos (by omega), nextLayer_eq heven]
      simp only [bind, Except.bind, hnext]
      rfl

/-- The sister nodes of a leaf are those on its path. -/
theorem sisterNodesPathFrom_levels {k i : ℕ} {leaves : List U256} (hlen : leaves.length = 2 ^ k)
    (hi : i < 2 ^ k) :
    sisterNodesPathFrom (Merkle.levels (hashNodes keccak256) k leaves).dropLast i =
      ⟨(Merkle.opening (hashNodes keccak256) k i leaves).map Prod.snd,
        (Merkle.opening (hashNodes keccak256) k i leaves).map Prod.fst⟩ := by
  induction k generalizing i leaves with
  | zero => rfl
  | succ k ih =>
      have hup := Merkle.length_levelUp_pow (hashNodes keccak256) hlen
      have hlevels := Merkle.levels_ne_nil (hashNodes keccak256) k
        (Merkle.levelUp (hashNodes keccak256) leaves)
      have hpow : 2 ^ (k + 1) = 2 * 2 ^ k := pow_succ' 2 k
      rw [Merkle.levels, List.dropLast_cons_of_ne_nil hlevels, sisterNodesPathFrom,
        ih hup (by omega), Merkle.opening]
      rcases Nat.mod_two_eq_zero_or_one i with hmod | hmod
      · have hbeside : i + 1 < leaves.length := by omega
        simp [hmod, hbeside]
      · have hbeside : i - 1 < leaves.length := by omega
        simp [hmod, hbeside]

end MerkleTree

/-! ## The flags -/

/-- A byte of a word, read off the bytes that make it up. -/
theorem toNat_unsafeByteAccess {bytes : List UInt8} {i : ℕ} {b : UInt8}
    (hlen : bytes.length = 32) (h : bytes[i]? = some b) :
    (WorldcoinAggregationV2.unsafeByteAccess (BitVec.ofNat 256 (BigEndian.ofBytes bytes)) i).toNat =
      b.toNat := by
  obtain ⟨hlt, -⟩ := List.getElem?_eq_some_iff.mp h
  have hpow : 256 ^ 32 = 2 ^ 256 := by norm_num
  have hbound := BigEndian.ofBytes_lt bytes
  rw [hlen] at hlt hbound
  rw [hpow] at hbound
  have hvalue := BigEndian.ofBytes_div_mod h
  have hexponent : 2 ^ (8 * (31 - i)) = 256 ^ (bytes.length - 1 - i) := by
    rw [hlen, pow_mul]
    norm_num
  rw [WorldcoinAggregationV2.unsafeByteAccess, if_pos hlt, BitVec.toNat_and,
    BitVec.toNat_ushiftRight, BitVec.toNat_ofNat, Nat.mod_eq_of_lt hbound,
    Nat.shiftRight_eq_div_pow, hexponent]
  exact (Nat.and_two_pow_sub_one_eq_mod _ 8).trans hvalue

/-- The flags are read back from the bytes of their word. -/
theorem toBool_unsafeByteAccess {flags : List Bool} (hlen : flags.length ≤ 32) :
    ∃ word, boolArrayToByte32 flags = .ok word ∧ ∀ i flag, flags[i]? = some flag →
      WorldcoinAggregationV2.toBool (WorldcoinAggregationV2.unsafeByteAccess word i) = flag := by
  refine ⟨_, if_neg (not_lt.mpr hlen), fun i flag hflag => ?_⟩
  have hlt := (List.getElem?_eq_some_iff.mp hflag).1
  have hbyte : (flags.map (fun flag => if flag then (1 : UInt8) else 0) ++
      List.replicate (32 - flags.length) 0)[i]? = some (if flag then 1 else 0) := by
    rw [List.getElem?_append_left (by simpa using hlt), List.getElem?_map, hflag]
    rfl
  have hvalue := toNat_unsafeByteAccess (by simp [hlen]) hbyte
  rw [WorldcoinAggregationV2.toBool]
  cases flag with
  | false =>
      rw [decide_eq_false_iff_not, not_not]
      exact BitVec.eq_of_toNat_eq hvalue
  | true =>
      rw [decide_eq_true_iff]
      rintro hzero
      rw [hzero] at hvalue
      cases hvalue

/-- The contract climbs the path of the sister nodes. -/
theorem pathFrom_eq {word : U256} {path : List (Bool × U256)} (i : ℕ)
    (h : ∀ j flag, (path.map Prod.fst)[j]? = some flag →
      WorldcoinAggregationV2.toBool (WorldcoinAggregationV2.unsafeByteAccess word (i + j)) = flag) :
    WorldcoinAggregationV2.Claim.pathFrom word i (path.map Prod.snd) = path := by
  induction path generalizing i with
  | nil => rfl
  | cons step path ih =>
      have hstep := h 0 step.1 rfl
      have hrest := ih (i + 1) fun j flag hflag => by
        have hnext := h (j + 1) flag (by simpa using hflag)
        rwa [Nat.add_comm j, ← Nat.add_assoc] at hnext
      rw [WorldcoinAggregationV2.Claim.pathFrom] at hrest ⊢
      rw [List.map_cons, List.zipIdx_cons, List.map_cons, hrest]
      exact congrArg (· :: path) (Prod.ext hstep rfl)

/-! ## The same tree on the chain and in the circuit -/

/-- Words are packed into a leaf. -/
theorem getKeccakHash_eq (grantId nullifierHash : U256) (receiver : Address) :
    getKeccakHash keccak256 grantId.toNat receiver nullifierHash.toNat =
      .ok (keccak256 (packClaim grantId.toNat receiver.toNat nullifierHash.toNat)) := by
  rw [getKeccakHash, if_neg (not_le.mpr grantId.isLt), if_neg (not_le.mpr nullifierHash.isLt)]
  rfl

/-- The tree of the script over `2 ^ k` leaves, with its root and the sister nodes of a leaf. -/
theorem exists_merkleTree (keccak256 : List UInt8 → U256) {k i : ℕ} {leaves : List U256}
    (hlen : leaves.length = 2 ^ k) (hi : i < 2 ^ k) :
    ∃ tree, MerkleTree.new keccak256 leaves = .ok tree ∧
      tree.getRoot = some (Merkle.root (hashNodes keccak256) k leaves) ∧
      tree.getSisterNodesPath i =
        ⟨(Merkle.opening (hashNodes keccak256) k i leaves).map Prod.snd,
          (Merkle.opening (hashNodes keccak256) k i leaves).map Prod.fst⟩ := by
  have hfuel : k < leaves.length + 1 := by
    rw [hlen]
    exact Nat.lt_succ_of_lt Nat.lt_two_pow_self
  refine ⟨⟨leaves, Merkle.levels (hashNodes keccak256) k leaves⟩, ?_, ?_,
    MerkleTree.sisterNodesPathFrom_levels hlen hi⟩
  · rw [MerkleTree.new, MerkleTree.buildTree_eq hlen hfuel]
    rfl
  · simp only [MerkleTree.getRoot, Merkle.getLast?_levels (hashNodes keccak256) hlen]
    rfl

/-- The leaf of a claim in the circuit: the honest prover hashes the packed claim, and every other
prover hashes pieces of 32, 20 and 32 bytes that agree with it if they are canonical. -/
theorem circuit_leaf {chips : Chips} {vk : List Fr} {numPublicInputs root : Fr} {claim : ClaimInput}
    (haccepted : claim.Accepted chips vk numPublicInputs root)
    (hreceiver : claim.receiver.val < 256 ^ 20) :
    output (WorldcoinLeafInputV2.assignLeaf chips vk numPublicInputs root (claim, 1)) .honest =
        some (HiLo.ofDigest (chips.keccak256 claim.packed)) ∧
      ∀ prover leaf, output (WorldcoinLeafInputV2.assignLeaf chips vk numPublicInputs root
          (claim, 1)) prover = some leaf →
        ∃ pieces, SlotOf claim 1 pieces ∧ leaf = HiLo.ofDigest (chips.keccak256 pieces.flatten) ∧
          ((∀ piece ∈ pieces, Canonical piece) → pieces.flatten = claim.packed) := by
  have hbytes : WorldcoinLeafInputV2.maskedBytes (claim, 1) = claim.packed := by
    simp [WorldcoinLeafInputV2.maskedBytes, ClaimInput.packed]
  constructor
  · rw [← hbytes]
    exact (WorldcoinLeafInputV2.honest_assignLeaf haccepted (by simpa using hreceiver)).output
  · intro prover leaf hout
    obtain ⟨pieces, -, hslot, hleaf⟩ :=
      WorldcoinLeafInputV2.tracks_assignLeaf.sound.of_output hout
    refine ⟨pieces, hslot, hleaf, fun hcanonical => ?_⟩
    rw [hslot.flatten hcanonical, mul_one, mul_one, mul_one, ClaimInput.packed]

/-- Merkle proofs of the script are accepted on the chain, against the root that the circuit
computes, and all three hash the same bytes for the leaf of a claim. -/
theorem sisterNodes_accepted (keccak256 : List UInt8 → U256) {k : ℕ} (hk : k ≤ 32)
    {leaves : List U256} (hlen : leaves.length = 2 ^ k) {i : ℕ} (hi : i < 2 ^ k) :
    (∃ tree root leaf isLeftBytes, MerkleTree.new keccak256 leaves = .ok tree ∧
      tree.getRoot = some root ∧ leaves[i]? = some leaf ∧
      (tree.getSisterNodesPath i).sisterNodes.length = k ∧
      boolArrayToByte32 (tree.getSisterNodesPath i).isLeftBytes = .ok isLeftBytes ∧
      WorldcoinAggregationV2.runningHash keccak256 isLeftBytes 0 leaf
        (tree.getSisterNodesPath i).sisterNodes = root ∧
      (∃ prover nodes, output (computeKeccakMerkleTree keccak256 (leaves.map HiLo.ofDigest))
        prover = some nodes) ∧
      ∀ prover nodes, output (computeKeccakMerkleTree keccak256 (leaves.map HiLo.ofDigest))
        prover = some nodes → nodes[0]? = some (HiLo.ofDigest root)) ∧
    ∀ (grantId nullifierHash : U256) (receiver : Address),
      ∃ packed : List UInt8, packed.length = 32 + 20 + 32 ∧
        getKeccakHash keccak256 grantId.toNat receiver nullifierHash.toNat =
          .ok (keccak256 packed) ∧
        (∀ args : WorldcoinAggregationV2.Claim, args.grantId = grantId → args.receiver = receiver →
          args.nullifierHash = nullifierHash → args.leaf keccak256 = keccak256 packed) ∧
        ∀ (chips : Chips) (vk : List Fr) (numPublicInputs root : Fr) (claim : ClaimInput),
          chips.keccak256 = keccak256 → claim.Accepted chips vk numPublicInputs root →
          claim.grantId.val = grantId.toNat → claim.receiver.val = receiver.toNat →
          claim.nullifierHash.val = nullifierHash.toNat →
          output (WorldcoinLeafInputV2.assignLeaf chips vk numPublicInputs root (claim, 1))
              .honest = some (HiLo.ofDigest (keccak256 packed)) ∧
            ∀ prover leaf, output (WorldcoinLeafInputV2.assignLeaf chips vk numPublicInputs root
                (claim, 1)) prover = some leaf →
              ∃ pieces, SlotOf claim 1 pieces ∧
                leaf = HiLo.ofDigest (keccak256 pieces.flatten) ∧
                ((∀ piece ∈ pieces, Canonical piece) → pieces.flatten = packed) := by
  constructor
  · obtain ⟨tree, htree, hroot, hpath⟩ := exists_merkleTree keccak256 hlen hi
    have hleaf := List.getElem?_eq_getElem (hi.trans_eq hlen.symm)
    have hcount := Merkle.length_opening (hashNodes keccak256) k i leaves
    have hflags : ((Merkle.opening (hashNodes keccak256) k i leaves).map Prod.fst).length ≤ 32 := by
      rwa [List.length_map, hcount]
    obtain ⟨word, hword, hbytes⟩ := toBool_unsafeByteAccess hflags
    refine ⟨tree, _, _, word, htree, hroot, hleaf, ?_, ?_, ?_, ?_, ?_⟩
    · rw [hpath, List.length_map, hcount]
    · rw [hpath, hword]
    · rw [hpath, WorldcoinAggregationV2.runningHash_eq_climb,
        pathFrom_eq 0 (by simpa using hbytes), Merkle.climb_opening _ hlen hleaf]
    · obtain ⟨nodes, -, hnodes⟩ := honest_computeKeccakMerkleTree keccak256 hlen
      exact ⟨.honest, nodes, hnodes.output⟩
    · intro prover nodes hout
      obtain ⟨_, hhead⟩ := (tracks_computeKeccakMerkleTreeAux hlen).sound.of_output hout
      rw [← List.head?_eq_getElem?, hhead]
  · intro grantId nullifierHash receiver
    refine ⟨packClaim grantId.toNat receiver.toNat nullifierHash.toNat, length_packClaim _ _ _,
      getKeccakHash_eq grantId nullifierHash receiver, ?_, ?_⟩
    · rintro args rfl rfl rfl
      rfl
    · rintro chips vk numPublicInputs root claim rfl haccepted hgrant hreceiver hnullifier
      have hpacked : claim.packed =
          packClaim grantId.toNat receiver.toNat nullifierHash.toNat := by
        rw [ClaimInput.packed, hgrant, hreceiver, hnullifier]
      rw [← hpacked]
      refine circuit_leaf haccepted ?_
      rw [hreceiver]
      exact receiver.isLt

/-- The second of two leaves is accepted with one sister node. -/
theorem sisterNodes_accepted_two : 1 ≤ 32 ∧ ([1, 2] : List U256).length = 2 ^ 1 ∧ 1 < 2 ^ 1 ∧
    ∃ tree root isLeftBytes, MerkleTree.new Keccak.keccak256 [1, 2] = .ok tree ∧
      tree.getRoot = some root ∧ (tree.getSisterNodesPath 1).sisterNodes.length = 1 ∧
      boolArrayToByte32 (tree.getSisterNodesPath 1).isLeftBytes = .ok isLeftBytes ∧
      WorldcoinAggregationV2.runningHash Keccak.keccak256 isLeftBytes 0 2
        (tree.getSisterNodesPath 1).sisterNodes = root := by
  obtain ⟨⟨tree, root, leaf, word, htree, hroot, hleaf, hcount, hword, hclimb, -⟩, -⟩ :=
    sisterNodes_accepted Keccak.keccak256 (by decide : 1 ≤ 32)
      (rfl : ([1, 2] : List U256).length = 2 ^ 1) (by decide : 1 < 2 ^ 1)
  obtain rfl : 2 = leaf := Option.some.inj hleaf
  exact ⟨by decide, rfl, by decide, tree, root, word, htree, hroot, hcount, hword, hclimb⟩

end WorldcoinAggregation
