import Mathlib.Tactic.NormNum
import WorldcoinAggregation.Circuit.Gadgets
import WorldcoinAggregation.Encoding

/-!
# Words and calldata

A contract and the SNARK verifier that it calls read the same calldata. The contract decodes raw
256-bit words, and the verifier takes its public instances from the same words reduced modulo the
field order. `hiLoWord_toNat` says when both readings of a pair of halves agree.
-/

namespace WorldcoinAggregation

/-- A word of the machine. -/
abbrev U256 := BitVec 256

/-- An account. -/
abbrev Address := BitVec 160

/-- The word of calldata at an offset; calldata is followed by zeros. -/
def calldataload (data : List UInt8) (offset : ℕ) : U256 :=
  BitVec.ofNat 256 (BigEndian.ofBytes ((data.drop offset ++ List.replicate 32 0).take 32))

/-- The word of a bytes argument at an offset, which callers keep within the bounds. -/
def unsafeCalldataBytesAccess (array : List UInt8) (index : ℕ) : U256 :=
  calldataload array index

/-- The element of an array argument at an index, which callers keep within the bounds. -/
def unsafeCalldataArrayAccess {n : ℕ} (array : List (BitVec n)) (index : ℕ) : BitVec n :=
  array.getD index 0

/-- A word from its two halves. Neither half is cleaned. -/
def hiLoWord (hi lo : U256) : U256 :=
  hi <<< 128 ||| lo

/-- The public instances that the verifier takes from the first words of its calldata. -/
def publicInstances (numInstances : ℕ) (proof : List UInt8) : List Fr :=
  (List.range numInstances).map fun i => ((calldataload proof (32 * i)).toNat : Fr)

/-- Calldata that consists of these words and some more bytes. -/
def encodeWords (words : List U256) (rest : List UInt8) : List UInt8 :=
  words.flatMap digestBytes ++ rest

/-- The word of a field element. -/
def Fr.word (x : Fr) : U256 :=
  BitVec.ofNat 256 x.val

/-- The word of a field element has its value. -/
@[simp] theorem Fr.toNat_word (x : Fr) : x.word.toNat = x.val := by
  have hfits : frModulus < 2 ^ 256 := by decide
  rw [Fr.word, BitVec.toNat_ofNat, Nat.mod_eq_of_lt (x.val_lt.trans hfits)]

/-- Words take 32 bytes each. -/
theorem length_encodeWords (words : List U256) (rest : List UInt8) :
    (encodeWords words rest).length = 32 * words.length + rest.length := by
  have hword : ∀ word ∈ words, (digestBytes word).length = 32 := fun word _ =>
    length_digestBytes word
  rw [encodeWords, List.length_append, List.length_flatMap, List.map_congr_left hword,
    List.map_const', List.sum_replicate, smul_eq_mul, mul_comm]

/-- The bytes behind the words. -/
theorem drop_encodeWords (words : List U256) (rest : List UInt8) :
    (encodeWords words rest).drop (32 * words.length) = rest := by
  have hlen := length_encodeWords words []
  rw [encodeWords, List.append_nil, List.length_nil, add_zero] at hlen
  rw [encodeWords, List.drop_left' hlen]

/-- Each of the words can be read back. -/
theorem calldataload_encodeWords {words : List U256} {rest : List UInt8} {i : ℕ} {word : U256}
    (h : words[i]? = some word) : calldataload (encodeWords words rest) (32 * i) = word := by
  obtain ⟨hlt, hget⟩ := List.getElem?_eq_some_iff.mp h
  have hsplit : words = words.take i ++ word :: words.drop (i + 1) := by
    rw [← hget, List.getElem_cons_drop, List.take_append_drop]
  have hdrop : (encodeWords words rest).drop (32 * i) =
      digestBytes word ++ encodeWords (words.drop (i + 1)) rest := by
    have hfront := drop_encodeWords (words.take i) (encodeWords (word :: words.drop (i + 1)) rest)
    rw [List.length_take, Nat.min_eq_left hlt.le] at hfront
    have happend : encodeWords (words.take i) (encodeWords (word :: words.drop (i + 1)) rest) =
        encodeWords words rest := by
      conv_rhs => rw [hsplit]
      simp [encodeWords]
    rw [← happend, hfront]
    simp [encodeWords]
  rw [calldataload, hdrop, List.append_assoc, List.take_left' (length_digestBytes word),
    digestBytes, BigEndian.ofBytes_toBytes word.isLt, BitVec.ofNat_toNat, BitVec.setWidth_eq]

/-- Each of the words can be accessed. -/
theorem unsafeCalldataBytesAccess_encodeWords {words : List U256} {rest : List UInt8} {i : ℕ}
    {word : U256} (h : words[i]? = some word) :
    unsafeCalldataBytesAccess (encodeWords words rest) (i * 32) = word := by
  rw [unsafeCalldataBytesAccess, mul_comm, calldataload_encodeWords h]

/-- A word from a low half without upper bits has the halves as its digits. -/
theorem hiLoWord_toNat {hi lo : U256} (hlo : lo.toNat < 2 ^ 128) :
    (hiLoWord hi lo).toNat = hi.toNat % 2 ^ 128 * 2 ^ 128 + lo.toNat := by
  have hshift : (hi.toNat <<< 128) % 2 ^ 256 = hi.toNat % 2 ^ 128 * 2 ^ 128 := by
    rw [Nat.shiftLeft_eq, show (2 : ℕ) ^ 256 = 2 ^ 128 * 2 ^ 128 by norm_num, Nat.mul_mod_mul_right]
  rw [hiLoWord, BitVec.toNat_or, BitVec.toNat_shiftLeft, hshift, mul_comm,
    Nat.two_pow_add_eq_or_of_lt hlo]

/-- The halves of a digest make up the digest. -/
theorem hiLoWord_ofDigest (digest : U256) :
    hiLoWord (HiLo.ofDigest digest).hi.word (HiLo.ofDigest digest).lo.word = digest := by
  have hlt := digest.isLt
  refine BitVec.eq_of_toNat_eq ?_
  have hlo : (HiLo.ofDigest digest).lo.word.toNat < 2 ^ 128 := by
    rw [Fr.toNat_word, HiLo.val_lo_ofDigest]
    exact Nat.mod_lt _ (by decide)
  rw [hiLoWord_toNat hlo, Fr.toNat_word, Fr.toNat_word, HiLo.val_hi_ofDigest,
    HiLo.val_lo_ofDigest]
  omega

/-- A public instance is the word of its position modulo the field order. -/
theorem publicInstances_getElem? {numInstances i : ℕ} (h : i < numInstances)
    (proof : List UInt8) : (publicInstances numInstances proof)[i]? =
      some ((calldataload proof (32 * i)).toNat : Fr) := by
  simp [publicInstances, h]

/-- The public instances of encoded words. -/
theorem publicInstances_encodeWords (words : List U256) (rest : List UInt8) :
    publicInstances words.length (encodeWords words rest) =
      words.map fun word => (word.toNat : Fr) := by
  refine List.ext_getElem? fun i => ?_
  by_cases h : i < words.length
  · rw [publicInstances_getElem? h, calldataload_encodeWords (List.getElem?_eq_getElem h),
      List.getElem?_map, List.getElem?_eq_getElem h]
    rfl
  · rw [List.getElem?_eq_none (by simpa [publicInstances] using h),
      List.getElem?_eq_none (by simpa using h)]

/-- The public instances of the words of field elements. -/
theorem publicInstances_word (instances : List Fr) (rest : List UInt8) :
    publicInstances instances.length (encodeWords (instances.map Fr.word) rest) = instances := by
  have hinstances := publicInstances_encodeWords (instances.map Fr.word) rest
  rw [List.length_map] at hinstances
  rw [hinstances, List.map_map]
  refine (List.map_congr_left fun x _ => ?_).trans (List.map_id _)
  rw [Function.comp_apply, Fr.toNat_word, ZMod.natCast_zmod_val, id]

end WorldcoinAggregation
