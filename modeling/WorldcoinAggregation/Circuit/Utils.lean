import WorldcoinAggregation.Base.Merkle
import WorldcoinAggregation.Circuit.Gadgets
import WorldcoinAggregation.Encoding
import Mathlib.Data.List.Iterate
import Mathlib.Data.Nat.Log

/-!
# Hashing inside the circuits

The helpers that the V1 and V2 circuits share: the hash of the verifying key, one Merkle node, a
whole Merkle tree, and the table of claim roots of all-zero subtrees. On halves of digests the
Merkle helpers compute `hashNodes` and `Merkle.root` (`tracks_computeKeccakForBranchNodes`,
`tracks_computeKeccakMerkleTreeAux`), since 16-byte decompositions leave no choice.
-/

namespace WorldcoinAggregation

open Synthesis

def maxGroth16Pi : ℕ := 4
def numBytesVk : ℕ := 769
def numLimbs : ℕ := 3
def limbBits : ℕ := 88

/-- The number of field elements of a verifying key: one point on the first curve, three on the
second, and one more on the first for each public input and the constant. -/
def numFeHiloVkey : ℕ := 4 + 3 * 8 + 4 * (maxGroth16Pi + 1)

/-- The hash of a verifying key, of which every element is decomposed into 32 bytes. -/
def getVkHash (keccak256 : List UInt8 → BitVec 256) (vkBytes : List Fr) : Circuit (HiLo Fr) := do
  let bytes ← vkBytes.mapM fun b => uintToBytesBe b 32
  require (bytes.flatten.length = (numBytesVk - 1) * 2)
  return keccakFixedLen keccak256 bytes.flatten

/-- The parent of two Merkle nodes. -/
def computeKeccakForBranchNodes (keccak256 : List UInt8 → BitVec 256)
    (leftChild rightChild : HiLo Fr) : Circuit (HiLo Fr) := do
  let leftHi ← uintToBytesBe leftChild.hi 16
  let leftLo ← uintToBytesBe leftChild.lo 16
  let rightHi ← uintToBytesBe rightChild.hi 16
  let rightLo ← uintToBytesBe rightChild.lo 16
  return keccakFixedLen keccak256 (leftHi ++ leftLo ++ rightHi ++ rightLo)

/-- The Merkle tree over the leaves, root first and leaves last. The fuel bounds the number of
levels. -/
def computeKeccakMerkleTreeAux (keccak256 : List UInt8 → BitVec 256) :
    ℕ → List (HiLo Fr) → Circuit (List (HiLo Fr))
  | 0, _ => abort
  | fuel + 1, leaves => do
      let len := leaves.length
      require (2 ^ Nat.log 2 len = len)
      -- a single node is the root
      if len = 1 then
        return leaves
      let nextLevel ← (Merkle.chunks leaves).mapM fun c =>
        computeKeccakForBranchNodes keccak256 c.1 c.2
      let ret ← computeKeccakMerkleTreeAux keccak256 fuel nextLevel
      return ret ++ leaves

/-- The Merkle tree over the leaves, whose number must be a power of two. -/
def computeKeccakMerkleTree (keccak256 : List UInt8 → BitVec 256) (leaves : List (HiLo Fr)) :
    Circuit (List (HiLo Fr)) :=
  computeKeccakMerkleTreeAux keccak256 leaves.length leaves

/-- The roots of the all-zero claim trees of heights 0 to 13. -/
def dummyClaimRoots (keccak256 : List UInt8 → BitVec 256) : List (BitVec 256) :=
  let maxDepth := 13
  let dummyLeaf := List.replicate 84 (0 : UInt8)
  List.iterate (fun hash => keccak256 (digestBytes hash ++ digestBytes hash))
    (keccak256 dummyLeaf) (maxDepth + 1)

/-! ## The verifying key -/

/-- A list of field elements, each decomposed into 32 bytes. -/
def WordsOf (values : List Fr) (words : List (List UInt8)) : Prop :=
  List.Forall₂ (BytesOf 32) values words

/-- The honest decomposition of a list of field elements. -/
def canonicalWords (values : List Fr) : List (List UInt8) :=
  values.map fun x => BigEndian.toBytes 32 x.val

/-- Words of 32 bytes each. -/
theorem WordsOf.length_flatten {values : List Fr} {words : List (List UInt8)}
    (h : WordsOf values words) : words.flatten.length = 32 * values.length := by
  induction h with
  | nil => rfl
  | cons hword _ ih =>
      simp only [List.flatten_cons, List.length_append, List.length_cons, hword.1, ih]
      omega

/-- Canonical words are the honest ones. -/
theorem WordsOf.eq_canonicalWords {values : List Fr} {words : List (List UInt8)}
    (h : WordsOf values words) (hcanonical : ∀ word ∈ words, Canonical word) :
    words = canonicalWords values := by
  induction h with
  | nil => rfl
  | cons hword _ ih =>
      rw [hword.eq_toBytes (hcanonical _ (by simp)),
        ih fun word hmem => hcanonical word (by simp [hmem])]
      rfl

/-- The honest words decompose their values. -/
theorem wordsOf_canonicalWords (values : List Fr) : WordsOf values (canonicalWords values) := by
  induction values with
  | nil => exact .nil
  | cons x values ih =>
      refine .cons ⟨by simp, ?_⟩ ih
      rw [BigEndian.ofBytes_toBytes x.val_lt_32]
      exact ZMod.natCast_zmod_val x

/-- Words of one length are determined by their concatenation. -/
theorem WordsOf.flatten_injective {xs ys : List Fr} {vs ws : List (List UInt8)}
    (hx : WordsOf xs vs) (hy : WordsOf ys ws) (h : vs.flatten = ws.flatten) : vs = ws := by
  induction hx generalizing ys ws with
  | nil =>
      cases hy with
      | nil => rfl
      | cons hword _ =>
          have hlen := congrArg List.length h
          simp only [List.flatten_nil, List.length_nil, List.flatten_cons, List.length_append,
            hword.1] at hlen
          omega
  | cons hv _ ih =>
      cases hy with
      | nil =>
          have hlen := congrArg List.length h
          simp only [List.flatten_nil, List.length_nil, List.flatten_cons, List.length_append,
            hv.1] at hlen
          omega
      | cons hw hws =>
          simp only [List.flatten_cons] at h
          obtain ⟨hhead, htail⟩ := List.append_inj h (by rw [hv.1, hw.1])
          rw [hhead, ih hws htail]

/-- Decomposing a list of values reads one word for each of them. -/
theorem tracks_words (values : List Fr) :
    Tracks (values.mapM fun x => uintToBytesBe x 32) fun used words =>
      used = words ∧ WordsOf values words := by
  refine (Tracks.mapM fun x _ => tracks_uintToBytesBe).mono ?_
  rintro used words ⟨pieces, rfl, rfl, hpieces⟩
  induction hpieces with
  | nil => exact ⟨rfl, .nil⟩
  | cons h _ ih =>
      obtain ⟨hused, hwords⟩ := ih
      simp only [List.map_cons, List.flatten_cons, hused, h.1]
      exact ⟨rfl, .cons h.2 hwords⟩

/-- Every decomposition of a list of values can be supplied. -/
theorem replays_words {values : List Fr} {words : List (List UInt8)} (h : WordsOf values words) :
    Replays (values.mapM fun x => uintToBytesBe x 32) words words := by
  induction h with
  | nil => exact .pure []
  | cons hword _ ih =>
      rw [List.mapM_cons]
      exact Replays.of_eq ((replays_uintToBytesBe hword).bind (ih.bind (.pure _))) (by simp)

/-- The honest prover decomposes every value canonically. -/
theorem honest_words (values : List Fr) :
    Honest (values.mapM fun x => uintToBytesBe x 32) (canonicalWords values) :=
  Honest.mapM fun x _ => honest_uintToBytesBe x.val_lt_32

/-- The hash of a verifying key is the hash of some decomposition of it, and a key of the right
size. -/
theorem tracks_getVkHash {keccak256 : List UInt8 → BitVec 256} {vkBytes : List Fr} :
    Tracks (getVkHash keccak256 vkBytes) fun used vkHash =>
      WordsOf vkBytes used ∧ vkHash = HiLo.ofDigest (keccak256 used.flatten) := by
  refine (tracks_words vkBytes).bind fun used words ⟨hused, hwords⟩ => ?_
  refine Tracks.require.bind fun _ _ h => .pure ?_
  simp only [h.1, List.append_nil, hused]
  exact ⟨hwords, rfl⟩

/-- Every decomposition of a verifying key of the right size can be supplied. -/
theorem replays_getVkHash {keccak256 : List UInt8 → BitVec 256} {vkBytes : List Fr}
    {words : List (List UInt8)} (hlen : vkBytes.length = numFeHiloVkey)
    (h : WordsOf vkBytes words) :
    Replays (getVkHash keccak256 vkBytes) words (HiLo.ofDigest (keccak256 words.flatten)) := by
  have hbytes : words.flatten.length = (numBytesVk - 1) * 2 := by
    rw [h.length_flatten, hlen]
    rfl
  exact Replays.of_eq ((replays_words h).bind ((Replays.require hbytes).bind (.pure _))) (by simp)

/-- The honest prover hashes the canonical words of a verifying key of the right size. -/
theorem honest_getVkHash {keccak256 : List UInt8 → BitVec 256} {vkBytes : List Fr}
    (hlen : vkBytes.length = numFeHiloVkey) :
    Honest (getVkHash keccak256 vkBytes)
      (HiLo.ofDigest (keccak256 (canonicalWords vkBytes).flatten)) := by
  refine (honest_words vkBytes).bind ((Honest.require ?_).bind (.pure _))
  rw [(wordsOf_canonicalWords vkBytes).length_flatten, hlen]
  rfl

/-! ## Merkle nodes -/

/-- The 16-byte halves of a digest make up its 32 bytes. -/
theorem toBytes_ofDigest (digest : BitVec 256) :
    BigEndian.toBytes 16 (HiLo.ofDigest digest).hi.val ++
      BigEndian.toBytes 16 (HiLo.ofDigest digest).lo.val = digestBytes digest := by
  rw [HiLo.val_hi_ofDigest, HiLo.val_lo_ofDigest]
  exact BigEndian.toBytes_append 16 16 digest.toNat digest.isLt

/-- The halves of a digest fit into 16 bytes. -/
theorem val_ofDigest_lt (digest : BitVec 256) :
    (HiLo.ofDigest digest).hi.val < 256 ^ 16 ∧ (HiLo.ofDigest digest).lo.val < 256 ^ 16 := by
  rw [HiLo.val_hi_ofDigest, HiLo.val_lo_ofDigest]
  have := digest.isLt
  omega

/-- A 16-byte decomposition is unique. -/
theorem tracks_uintToBytesBe_16 {input : Fr} :
    Tracks (uintToBytesBe input 16) fun _ bytes =>
      bytes = BigEndian.toBytes 16 input.val :=
  tracks_uintToBytesBe.mono fun _ _ h => h.2.eq_toBytes (h.2.canonical pow_128_lt_frModulus.le)

/-- On halves of digests, the parent is the hash of the two nodes. -/
theorem tracks_computeKeccakForBranchNodes {keccak256 : List UInt8 → BitVec 256}
    {left right : BitVec 256} :
    Tracks
      (computeKeccakForBranchNodes keccak256 (HiLo.ofDigest left) (HiLo.ofDigest right))
      fun _ parent => parent = HiLo.ofDigest (hashNodes keccak256 left right) := by
  refine tracks_uintToBytesBe_16.bind fun _ leftHi hlh => ?_
  refine tracks_uintToBytesBe_16.bind fun _ leftLo hll => ?_
  refine tracks_uintToBytesBe_16.bind fun _ rightHi hrh => ?_
  refine tracks_uintToBytesBe_16.bind fun _ rightLo hrl => .pure ?_
  rw [keccakFixedLen, hlh, hll, toBytes_ofDigest, List.append_assoc, hrh, hrl, toBytes_ofDigest]
  rfl

/-- The honest prover can hash any two nodes. -/
theorem honest_computeKeccakForBranchNodes (keccak256 : List UInt8 → BitVec 256)
    (left right : BitVec 256) :
    Honest (computeKeccakForBranchNodes keccak256 (HiLo.ofDigest left) (HiLo.ofDigest right))
      (HiLo.ofDigest (hashNodes keccak256 left right)) := by
  have hparent : keccakFixedLen keccak256
      (BigEndian.toBytes 16 (HiLo.ofDigest left).hi.val ++
        BigEndian.toBytes 16 (HiLo.ofDigest left).lo.val ++
        BigEndian.toBytes 16 (HiLo.ofDigest right).hi.val ++
        BigEndian.toBytes 16 (HiLo.ofDigest right).lo.val)
      = HiLo.ofDigest (hashNodes keccak256 left right) := by
    rw [toBytes_ofDigest, List.append_assoc, toBytes_ofDigest]
    rfl
  rw [← hparent]
  refine (honest_uintToBytesBe (val_ofDigest_lt left).1).bind ?_
  refine (honest_uintToBytesBe (val_ofDigest_lt left).2).bind ?_
  refine (honest_uintToBytesBe (val_ofDigest_lt right).1).bind ?_
  exact (honest_uintToBytesBe (val_ofDigest_lt right).2).bind (.pure _)

/-! ## Merkle trees -/

/-- The parents of a level of digests. -/
theorem map_ofDigest_levelUp (keccak256 : List UInt8 → BitVec 256) (digests : List (BitVec 256)) :
    (Merkle.levelUp (hashNodes keccak256) digests).map HiLo.ofDigest =
      (Merkle.chunks digests).map fun c => HiLo.ofDigest (hashNodes keccak256 c.1 c.2) := by
  simp [Merkle.levelUp]

/-- One level of the tree, from the pairs of digests below it. -/
theorem mapM_chunks (keccak256 : List UInt8 → BitVec 256) (digests : List (BitVec 256)) :
    ((Merkle.chunks (digests.map HiLo.ofDigest)).mapM fun c =>
        computeKeccakForBranchNodes keccak256 c.1 c.2) =
      (Merkle.chunks digests).mapM fun c =>
        computeKeccakForBranchNodes keccak256 (HiLo.ofDigest c.1) (HiLo.ofDigest c.2) := by
  rw [Merkle.chunks_map, List.mapM_map]
  rfl

/-- A tree over more than one leaf has a level below its root. -/
theorem two_pow_succ_ne_one (k : ℕ) : (2 : ℕ) ^ (k + 1) ≠ 1 := by
  rw [pow_succ]
  omega

/-- On digests, the first node of the tree is the Merkle root. -/
theorem tracks_computeKeccakMerkleTreeAux {keccak256 : List UInt8 → BitVec 256} {fuel k : ℕ}
    {digests : List (BitVec 256)} (hlen : digests.length = 2 ^ k) :
    Tracks (computeKeccakMerkleTreeAux keccak256 fuel (digests.map HiLo.ofDigest))
      fun _ tree =>
        tree.head? = some (HiLo.ofDigest (Merkle.root (hashNodes keccak256) k digests)) := by
  induction fuel generalizing k digests with
  | zero => exact .abort
  | succ fuel ih =>
      refine Tracks.require.bind fun _ _ _ => ?_
      simp only [List.length_map, hlen]
      cases k with
      | zero =>
          obtain ⟨digest, rfl⟩ := List.length_eq_one_iff.mp hlen
          exact .pure rfl
      | succ k =>
          rw [if_neg (two_pow_succ_ne_one k), mapM_chunks]
          refine (Tracks.mapM_eq fun c _ => tracks_computeKeccakForBranchNodes).bind ?_
          rintro _ _ rfl
          rw [← map_ofDigest_levelUp]
          refine (ih (Merkle.length_levelUp_pow _ hlen)).bind fun _ ret hret => .pure ?_
          rw [List.head?_append, hret]
          rfl

/-- The honest prover can build the tree over any digests. -/
theorem honest_computeKeccakMerkleTreeAux (keccak256 : List UInt8 → BitVec 256) {fuel k : ℕ}
    {digests : List (BitVec 256)} (hlen : digests.length = 2 ^ k) (hfuel : k < fuel) :
    ∃ tree, tree.head? = some (HiLo.ofDigest (Merkle.root (hashNodes keccak256) k digests)) ∧
      Honest (computeKeccakMerkleTreeAux keccak256 fuel (digests.map HiLo.ofDigest)) tree := by
  induction fuel generalizing k digests with
  | zero => omega
  | succ fuel ih =>
      have hpow : 2 ^ Nat.log 2 (digests.map HiLo.ofDigest).length =
          (digests.map HiLo.ofDigest).length := by
        rw [List.length_map, hlen, Nat.log_pow (by omega)]
      cases k with
      | zero =>
          obtain ⟨digest, rfl⟩ := List.length_eq_one_iff.mp hlen
          exact ⟨_, rfl, (Honest.require hpow).bind (.pure _)⟩
      | succ k =>
          obtain ⟨ret, hhead, hret⟩ := ih (Merkle.length_levelUp_pow (hashNodes keccak256) hlen)
            (by omega)
          rw [map_ofDigest_levelUp] at hret
          have hlevel := Honest.mapM fun c (_ : c ∈ Merkle.chunks digests) =>
            honest_computeKeccakForBranchNodes keccak256 c.1 c.2
          refine ⟨ret ++ digests.map HiLo.ofDigest, ?_, (Honest.require hpow).bind ?_⟩
          · rw [List.head?_append, hhead]
            rfl
          · simp only [List.length_map, hlen]
            rw [if_neg (two_pow_succ_ne_one k), mapM_chunks]
            exact hlevel.bind (hret.bind (.pure _))

/-- The honest prover can build the tree over `2 ^ k` digests. -/
theorem honest_computeKeccakMerkleTree (keccak256 : List UInt8 → BitVec 256) {k : ℕ}
    {digests : List (BitVec 256)} (hlen : digests.length = 2 ^ k) :
    ∃ tree, tree.head? = some (HiLo.ofDigest (Merkle.root (hashNodes keccak256) k digests)) ∧
      Honest (computeKeccakMerkleTree keccak256 (digests.map HiLo.ofDigest)) tree := by
  rw [computeKeccakMerkleTree, List.length_map, hlen]
  exact honest_computeKeccakMerkleTreeAux keccak256 hlen Nat.lt_two_pow_self

/-- The roots in the table are those of trees over copies of the zero leaf. -/
theorem getElem?_dummyClaimRoots (keccak256 : List UInt8 → BitVec 256) (k : ℕ) :
    (dummyClaimRoots keccak256)[k]? =
      if k < 14 then
        some (Merkle.uniformRoot (hashNodes keccak256) (keccak256 zeroClaim) k)
      else none := by
  have hiterate : Merkle.uniformRoot (hashNodes keccak256) (keccak256 zeroClaim) k =
      (fun hash => keccak256 (digestBytes hash ++ digestBytes hash))^[k]
        (keccak256 zeroClaim) := by
    induction k with
    | zero => rfl
    | succ k ih =>
        rw [Merkle.uniformRoot, ih, Function.iterate_succ_apply']
        rfl
  split
  · rename_i hk
    rw [hiterate]
    exact List.getElem?_iterate _ _ _ _ hk
  · rename_i hk
    refine List.getElem?_eq_none ?_
    rw [dummyClaimRoots, List.length_iterate]
    omega

end WorldcoinAggregation
