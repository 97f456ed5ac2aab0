import WorldcoinAggregation.Circuit.V1.Root
import WorldcoinAggregation.Contract.V1.Model

/-!
# What the V1 contract packs

The packed output of a call is one decomposition of the output of a root circuit with a slot for
each claim of the call (`wordsOf_packed`). It is the honest one if all words are below the field
order. A call that carries the hash of what it packs passes the check of its output hash. The packed
string drops the lengths of the three arrays, yet no two calls with checked lengths share one
(`packed_unambiguous`).
-/

namespace WorldcoinAggregation

open Synthesis Fallible

/-- A word decomposes the field element that it is reduced to. -/
theorem bytesOf_digestBytes (word : U256) : BytesOf 32 (word.toNat : Fr) (digestBytes word) :=
  ⟨length_digestBytes word, by rw [digestBytes, BigEndian.ofBytes_toBytes word.isLt]⟩

/-- Words decompose the field elements that they are reduced to. -/
theorem wordsOf_digestBytes (words : List U256) :
    WordsOf (words.map fun word => (word.toNat : Fr)) (words.map digestBytes) := by
  induction words with
  | nil => exact .nil
  | cons word words ih => exact .cons (bytesOf_digestBytes word) ih

namespace WorldcoinAggregationV1.DistributeGrants

variable (args : DistributeGrants)

/-- The claims of a call as columns of field elements. -/
def columns : Columns where
  grantIds := args.grantIds.map fun grantId => (grantId.toNat : Fr)
  receivers := args.receivers.map fun receiver => (receiver.toNat : Fr)
  nullifierHashes := args.nullifierHashes.map fun nullifierHash => (nullifierHash.toNat : Fr)

/-- The arguments of a call as the output of a root circuit. -/
def output : List Fr :=
  WorldcoinRootAggregationInput.outputOf (HiLo.ofDigest args.vkeyHash) (args.root.toNat : Fr)
    (args.numClaims.toNat : Fr) args.columns

/-- The words that a call packs. -/
def words : List U256 :=
  [args.vkeyHash >>> 128, args.vkeyHash &&& 0xFFFFFFFFFFFFFFFFFFFFFFFFFFFFFFFF, args.root,
    args.numClaims] ++ (args.grantIds ++ args.receivers.map (BitVec.setWidth 256) ++
      args.nullifierHashes)

/-- A call packs its words one after another. -/
theorem packed_eq : args.packed = (args.words.map digestBytes).flatten := by
  simp [packed, words, List.flatMap_def, Function.comp_def]

/-- The value of the upper half of a word. -/
theorem toNat_shiftRight (word : U256) : (word >>> 128).toNat = word.toNat / 2 ^ 128 := by
  rw [BitVec.toNat_ushiftRight, Nat.shiftRight_eq_div_pow]

/-- The value of the lower half of a word. -/
theorem toNat_mask (word : U256) :
    (word &&& 0xFFFFFFFFFFFFFFFFFFFFFFFFFFFFFFFF).toNat = word.toNat % 2 ^ 128 := by
  have hmask : (0xFFFFFFFFFFFFFFFFFFFFFFFFFFFFFFFF : U256).toNat = 2 ^ 128 - 1 := by decide
  rw [BitVec.toNat_and, hmask, Nat.and_two_pow_sub_one_eq_mod]

/-- An address keeps its value when it is padded. -/
theorem toNat_setWidth (receiver : Address) :
    (receiver.setWidth 256).toNat = receiver.toNat :=
  BitVec.toNat_setWidth_of_le (by decide)

/-- The words of a call are reduced to its output. -/
theorem map_words : (args.words.map fun word => (word.toNat : Fr)) = args.output := by
  simp only [words, output, columns, WorldcoinRootAggregationInput.outputOf, Columns.toList,
    HiLo.hiLo, HiLo.ofDigest, List.map_append, List.map_cons, List.map_nil, List.map_map,
    Function.comp_def, toNat_shiftRight, toNat_mask, toNat_setWidth]
  rfl

/-- What a call packs is a decomposition of its output. -/
theorem wordsOf_packed : ∃ words, WordsOf args.output words ∧ args.packed = words.flatten := by
  have hwords := wordsOf_digestBytes args.words
  rw [args.map_words] at hwords
  exact ⟨_, hwords, args.packed_eq⟩

/-- A call without words from the field order on packs its output honestly. -/
theorem packed_eq_canonicalWords (h : ∀ word ∈ args.words, word.toNat < frModulus) :
    args.packed = (canonicalWords args.output).flatten := by
  have hwords := wordsOf_digestBytes args.words
  rw [args.map_words] at hwords
  rw [args.packed_eq, hwords.eq_canonicalWords ?_]
  intro bytes hbytes
  obtain ⟨word, hword, rfl⟩ := List.mem_map.mp hbytes
  rw [Canonical, digestBytes, BigEndian.ofBytes_toBytes word.isLt]
  exact h word hword

/-- What a call packs is an honest decomposition only if no word is from the field order on. -/
theorem words_lt_of_packed_eq {values : List Fr}
    (h : args.packed = (canonicalWords values).flatten) :
    ∀ word ∈ args.words, word.toNat < frModulus := by
  have hwords := wordsOf_digestBytes args.words
  rw [args.map_words] at hwords
  have hsame : args.words.map digestBytes = canonicalWords values := by
    refine hwords.flatten_injective (wordsOf_canonicalWords values) ?_
    rw [← args.packed_eq, h]
  intro word hword
  have hmem : digestBytes word ∈ canonicalWords values := hsame ▸ List.mem_map_of_mem hword
  obtain ⟨x, -, hx⟩ := List.mem_map.mp hmem
  have hvalue := congrArg BigEndian.ofBytes hx
  rw [BigEndian.ofBytes_toBytes x.val_lt_32, digestBytes,
    BigEndian.ofBytes_toBytes word.isLt] at hvalue
  rw [← hvalue]
  exact x.val_lt

/-- Only the root, the number of claims, the grant ids and the nullifier hashes may exceed the
field order. -/
theorem words_canonical (hroot : args.root.toNat < frModulus)
    (hcount : args.numClaims.toNat < frModulus)
    (hgrants : ∀ grantId ∈ args.grantIds, grantId.toNat < frModulus)
    (hnullifiers : ∀ nullifierHash ∈ args.nullifierHashes, nullifierHash.toNat < frModulus) :
    ∀ word ∈ args.words, word.toNat < frModulus := by
  have hvkey := args.vkeyHash.isLt
  have hfield := pow_128_lt_frModulus
  simp only [words, List.cons_append, List.nil_append, List.forall_mem_cons, List.forall_mem_append]
  refine ⟨?_, ?_, hroot, hcount, ⟨hgrants, ?_⟩, hnullifiers⟩
  · rw [toNat_shiftRight]
    omega
  · rw [toNat_mask]
    exact (Nat.mod_lt _ (by decide)).trans hfield
  · intro word hword
    obtain ⟨receiver, -, rfl⟩ := List.mem_map.mp hword
    have hreceiver : receiver.toNat < 256 ^ 20 := receiver.isLt
    rw [toNat_setWidth]
    exact hreceiver.trans pow_160_lt_frModulus

/-! ## Calls that carry a hash -/

/-- A call carries the instances that a root circuit exposes for the bytes that it hashes. -/
structure Carries (keccak256 : List UInt8 → U256) (bytes : List UInt8) : Prop where
  hi_eq : unsafeCalldataBytesAccess args.proof outputHashHiOffset =
    (HiLo.ofDigest (keccak256 bytes)).hi.word
  lo_eq : unsafeCalldataBytesAccess args.proof outputHashLoOffset =
    (HiLo.ofDigest (keccak256 bytes)).lo.word

variable {args} {keccak256 : List UInt8 → U256} {bytes : List UInt8}

/-- The contract decodes the hash that a call carries. -/
theorem Carries.outputHash_eq (h : args.Carries keccak256 bytes) :
    args.outputHash = keccak256 bytes := by
  rw [outputHash, h.hi_eq, h.lo_eq, hiLoWord_ofDigest]

variable (args keccak256)

/-- The instances of a SNARK for what a call packs, with a zero accumulator. -/
def packedInstances : List Fr :=
  List.replicate 12 0 ++ (HiLo.ofDigest (keccak256 args.packed)).hiLo

/-- The call with these instances in place of its proof. -/
def carryPacked : DistributeGrants :=
  { args with proof := encodeWords ((args.packedInstances keccak256).map Fr.word) [] }

/-- A call carries the hash of what it packs. -/
theorem carries_carryPacked :
    (args.carryPacked keccak256).Carries keccak256 (args.carryPacked keccak256).packed where
  hi_eq := unsafeCalldataBytesAccess_encodeWords rfl
  lo_eq := unsafeCalldataBytesAccess_encodeWords rfl

variable {args keccak256} {agg : WorldcoinAggregationV1} {Chain : Type} {env : Externals Chain}
  {chain : Chain}

/-- Such a call passes its checks if the verifier accepts its instances. -/
theorem checked_carryPacked (hprover : agg.prover = 0)
    (hgrantIds : args.grantIds.length = args.numClaims.toNat)
    (hreceivers : args.receivers.length = args.numClaims.toNat)
    (hnullifierHashes : args.nullifierHashes.length = args.numClaims.toNat)
    (hvkeyHash : args.vkeyHash = agg.vkeyHash) (hroot : env.requireValidRoot chain args.root = true)
    (hcount : args.numClaims ≤ agg.maxNumClaims)
    (haccepted : env.snarkAccepts (args.packedInstances env.keccak256) [] = true) :
    (args.carryPacked env.keccak256).Checked agg env chain where
  authorised := .inl hprover
  length_grantIds := hgrantIds
  length_receivers := hreceivers
  length_nullifierHashes := hnullifierHashes
  length_le := by
    rw [carryPacked, length_encodeWords, List.length_map]
    exact le_rfl
  vkeyHash_eq := hvkeyHash
  root_valid := hroot
  numClaims_le := hcount
  outputHash_eq := (args.carries_carryPacked env.keccak256).outputHash_eq
  accepted := by
    have hinstances := publicInstances_word (args.packedInstances env.keccak256) []
    have hrest := drop_encodeWords ((args.packedInstances env.keccak256).map Fr.word) []
    rw [List.length_map] at hrest
    have hlength : (args.packedInstances env.keccak256).length = 14 := rfl
    rw [hlength] at hinstances hrest
    rw [Externals.verifies, carryPacked, hinstances, hrest, haccepted]

/-! ## Two calls with one string -/

/-- Words are determined by their bytes. -/
theorem flatten_digestBytes_injective {words words' : List U256}
    (h : (words.map digestBytes).flatten = (words'.map digestBytes).flatten) : words = words' :=
  List.map_injective_iff.mpr (fun _ _ => digestBytes_injective)
    ((wordsOf_digestBytes words).flatten_injective (wordsOf_digestBytes words') h)

/-- A word is determined by its halves. -/
theorem halves_injective {word word' : U256} (hhi : word >>> 128 = word' >>> 128)
    (hlo : word &&& 0xFFFFFFFFFFFFFFFFFFFFFFFFFFFFFFFF =
      word' &&& 0xFFFFFFFFFFFFFFFFFFFFFFFFFFFFFFFF) : word = word' := by
  have hhi' := congrArg BitVec.toNat hhi
  have hlo' := congrArg BitVec.toNat hlo
  rw [toNat_shiftRight, toNat_shiftRight] at hhi'
  rw [toNat_mask, toNat_mask] at hlo'
  refine BitVec.eq_of_toNat_eq ?_
  rw [← Nat.div_add_mod word.toNat (2 ^ 128), hhi', hlo', Nat.div_add_mod]

/-- Padded addresses are determined by their words. -/
theorem map_setWidth_injective {receivers receivers' : List Address}
    (h : receivers.map (BitVec.setWidth 256) = receivers'.map (BitVec.setWidth 256)) :
    receivers = receivers' := by
  refine List.map_injective_iff.mpr (fun receiver receiver' hword => ?_) h
  refine BitVec.eq_of_toNat_eq ?_
  rw [← toNat_setWidth receiver, hword, toNat_setWidth]

/-- The checks of a call on the lengths of its arrays and on its key hash. -/
structure ShapeChecked (agg : WorldcoinAggregationV1) (args : DistributeGrants) : Prop where
  length_grantIds : args.grantIds.length = args.numClaims.toNat
  length_receivers : args.receivers.length = args.numClaims.toNat
  length_nullifierHashes : args.nullifierHashes.length = args.numClaims.toNat
  vkeyHash_eq : args.vkeyHash = agg.vkeyHash

/-- Two calls with the same arguments, up to their proofs and callers. -/
structure SameBatch (args args' : DistributeGrants) : Prop where
  vkeyHash_eq : args.vkeyHash = args'.vkeyHash
  numClaims_eq : args.numClaims = args'.numClaims
  root_eq : args.root = args'.root
  grantIds_eq : args.grantIds = args'.grantIds
  receivers_eq : args.receivers = args'.receivers
  nullifierHashes_eq : args.nullifierHashes = args'.nullifierHashes

/-- The packed string is laid out as the bytes that a root circuit of this depth hashes: 32 for each
value of the output, in the same order. -/
structure RootLayout (args : DistributeGrants) (depth : ℕ) : Prop where
  length_output : args.output.length = 4 + 3 * 2 ^ depth
  wordsOf_output : WordsOf args.output (args.words.map digestBytes)
  packed_eq : args.packed = (args.words.map digestBytes).flatten
  replays_packed : depth < 64 →
    Replays (WorldcoinRootAggregationInput.outputBytes args.output depth)
      (args.words.map digestBytes) args.packed

variable {args' : DistributeGrants} {chain' : Chain}

/-- A call that passes its checks passes those on its shape. -/
theorem Checked.shapeChecked (h : args.Checked agg env chain) : args.ShapeChecked agg :=
  ⟨h.length_grantIds, h.length_receivers, h.length_nullifierHashes, h.vkeyHash_eq⟩

/-- Calls of checked lengths that pack the same words have the same arguments. -/
theorem sameBatch_of_words (h : args.ShapeChecked agg) (h' : args'.ShapeChecked agg)
    (hwords : args.words = args'.words) : args.SameBatch args' := by
  simp only [words, List.cons_append, List.nil_append, List.cons.injEq] at hwords
  obtain ⟨hhi, hlo, hroot, hcount, harrays⟩ := hwords
  -- the number of claims is packed in front, so the arrays have the same lengths
  have hgrantIds : args.grantIds.length = args'.grantIds.length := by
    rw [h.length_grantIds, h'.length_grantIds, hcount]
  have hreceivers : args.receivers.length = args'.receivers.length := by
    rw [h.length_receivers, h'.length_receivers, hcount]
  rw [List.append_assoc, List.append_assoc] at harrays
  obtain ⟨hgrantIds', hrest⟩ := List.append_inj harrays hgrantIds
  obtain ⟨hreceivers', hnullifiers⟩ := List.append_inj hrest (by simpa using hreceivers)
  exact ⟨halves_injective hhi hlo, hcount, hroot, hgrantIds', map_setWidth_injective hreceivers',
    hnullifiers⟩

/-- A call for `2 ^ depth` claims is laid out as a root circuit of this depth lays it out. -/
theorem rootLayout (h : args.ShapeChecked agg) {depth : ℕ}
    (hcount : args.numClaims.toNat = 2 ^ depth) : args.RootLayout depth := by
  have hlength : args.columns.HasLength (2 ^ depth) := by
    refine ⟨?_, ?_, ?_⟩
    · rw [columns, List.length_map, h.length_grantIds, hcount]
    · rw [columns, List.length_map, h.length_receivers, hcount]
    · rw [columns, List.length_map, h.length_nullifierHashes, hcount]
  have hwords := wordsOf_digestBytes args.words
  rw [args.map_words] at hwords
  refine ⟨WorldcoinRootAggregationInput.length_outputOf hlength, hwords, args.packed_eq, ?_⟩
  intro hdepth
  rw [args.packed_eq]
  exact WorldcoinRootAggregationInput.replays_outputBytes hdepth hlength hwords

/-- The packed string determines the arguments of a call whose lengths are checked, and for
`2 ^ depth` claims it is laid out as the root circuit lays out its output. No proof is accepted for
two batches. -/
theorem packed_unambiguous (agg : WorldcoinAggregationV1) (args args' : DistributeGrants)
    (h : args.ShapeChecked agg) (h' : args'.ShapeChecked agg) :
    (args.packed = args'.packed → args.SameBatch args') ∧
    (∀ depth, args.numClaims.toNat = 2 ^ depth → args.RootLayout depth) ∧
    ∀ (Chain : Type) (env : Externals Chain) (chain chain' : Chain), args.Checked agg env chain →
      args'.Checked agg env chain' → args.proof = args'.proof →
      Set.InjOn env.keccak256 {args.packed, args'.packed} → args.SameBatch args' := by
  have hsame (hpacked : args.packed = args'.packed) : args.SameBatch args' := by
    rw [args.packed_eq, args'.packed_eq] at hpacked
    exact sameBatch_of_words h h' (flatten_digestBytes_injective hpacked)
  refine ⟨hsame, fun depth hcount => rootLayout h hcount, ?_⟩
  intro Chain env chain chain' hchecked hchecked' hproof hinj
  have houtput : args.outputHash = args'.outputHash := by
    rw [outputHash, outputHash, hproof]
  refine hsame (hinj (by simp) (by simp) ?_)
  rw [← hchecked.outputHash_eq, ← hchecked'.outputHash_eq, houtput]

/-- A grant id and a receiver that change places change the packed string. -/
theorem packed_swapped_ne :
    packed ⟨0, 5, 1, 7, [3], [2], [9], []⟩ ≠ packed ⟨0, 5, 1, 7, [2], [3], [9], []⟩ := by
  intro hpacked
  have hsame := (packed_unambiguous ⟨5, 2, 0, by decide, by decide⟩ _ _ ⟨rfl, rfl, rfl, rfl⟩
    ⟨rfl, rfl, rfl, rfl⟩).1 hpacked
  exact absurd hsame.grantIds_eq (by decide)

end WorldcoinAggregationV1.DistributeGrants

end WorldcoinAggregation
