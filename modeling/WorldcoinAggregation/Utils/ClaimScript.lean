import WorldcoinAggregation.Base.Formats
import WorldcoinAggregation.Contract.V1.PartialBatches
import WorldcoinAggregation.Utils.MerkleSisterNodes

/-!
# From a batch to the call of one claim

The script `merkleSisterNodes` reads a batch and writes a file of texts for one of its claims.
`ClaimScript` has such a file decoded to a struct, reads two of its texts as decimal numbers, and
calls the contract for trees of this height. From the values that the texts denote, the call carries
the claim and leads to the root over the whole batch (`exists_claimFile`).
-/

namespace WorldcoinAggregation

open Fallible

variable {keccak256 : List UInt8 → U256}

/-- The file of a batch, whose numbers are decimal texts. Its counts say how many zero claims to
append; none are appended if either is missing. -/
structure BatchFile where
  root : ℕ
  claims : List ClaimNative
  numProofs : Option ℕ
  maxProofs : Option ℕ

/-- The number of zero claims that the loop appends. -/
def BatchFile.padding (file : BatchFile) : ℕ :=
  match file.numProofs, file.maxProofs with
  | some numProofs, some maxProofs => maxProofs - numProofs
  | _, _ => 0

/-- The leaves of a batch. -/
def parseInput (keccak256 : List UInt8 → U256) (file : BatchFile) : Fallible (List U256) := do
  let leaves ← file.claims.mapM fun claim =>
    getKeccakHash keccak256 claim.grantId claim.receiver claim.nullifierHash
  let padLeave ← getKeccakHash keccak256 0 0 0
  return leaves ++ List.replicate file.padding padLeave

/-- `0x` and the digits of a number, filled up with zeros to a width. -/
def hexText (width n : ℕ) : String :=
  "0x" ++ String.ofList (Formats.zeroPadded 16 width n)

/-- The file of a claim. The numbers are texts in it; the receiver is passed on as it is. -/
structure ClaimFile where
  grantId : String
  isLeftBytes : String
  nullifierHash : String
  receiver : Address
  root : String
  sisterNodes : List String

/-- The file of one claim of a batch. The flags are written without `0x`, and the nullifier hash
without zeros in front. -/
def merkleSisterNodes (keccak256 : List UInt8 → U256) (file : BatchFile) (claimIdx : ℕ) :
    Fallible ClaimFile := do
  let leaves ← parseInput keccak256 file
  let tree ← MerkleTree.new keccak256 leaves
  -- the nullifier hash is printed before the path is computed
  match file.claims[claimIdx]? with
  | none => throw (.error "Cannot convert undefined to a BigInt")
  | some claim => do
      let path := tree.getSisterNodesPath claimIdx
      let isLeftBytes ← boolArrayToByte32 path.isLeftBytes
      return {
        grantId := toString claim.grantId
        isLeftBytes := String.ofList (Formats.zeroPadded 16 64 isLeftBytes.toNat)
        nullifierHash := hexText 0 claim.nullifierHash
        receiver := claim.receiver
        root := toString file.root
        sisterNodes := path.sisterNodes.map fun node => hexText 64 node.toNat }

namespace ClaimScript

/-- The struct that a file of a claim is decoded to. -/
structure Claim where
  grantId : String
  isLeftBytes : U256
  nullifierHash : U256
  receiver : Address
  root : String
  sisterNodes : List U256

/-- One byte of a text is read as a digit. Other characters than digits count with their codes, and
codes below that of zero underflow. -/
def readByte (result : U256) (c : UInt8) : Fallible U256 := do
  let scaled ← u256OfNat (result.toNat * 10)
  let digit ← checkedSub c.toNat 48
  u256OfNat (scaled.toNat + digit)

/-- The number that the bytes of a text denote in base ten. -/
def stringToUint (s : String) : Fallible U256 :=
  (s.toList.flatMap String.utf8EncodeChar).foldlM readByte 0

/-- The call for a decoded claim. The contract is looked up by the number of claims that its trees
hold. -/
def run (clients : ℕ → Option Address) (claim : Claim) :
    Fallible (Address × WorldcoinAggregationV2.Claim) := do
  let logMaxNumClaims := claim.sisterNodes.length
  let maxNumClaims ← checkedShl 256 logMaxNumClaims
  let v2clientAddr ← unwrap (clients maxNumClaims)
  let grantId ← stringToUint claim.grantId
  let root ← stringToUint claim.root
  return (v2clientAddr, {
    grantId, root, receiver := claim.receiver, nullifierHash := claim.nullifierHash
    sisterNodes := claim.sisterNodes, isLeftBytes := claim.isLeftBytes })

end ClaimScript

/-- A struct holds the values that the texts of a file denote. Whether the cheatcodes of Foundry
decode the file to this struct is not part of the model. -/
structure ClaimFile.Denotes (file : ClaimFile) (claim : ClaimScript.Claim) : Prop where
  grantId_eq : claim.grantId = file.grantId
  isLeftBytes_eq : claim.isLeftBytes.toNat = Formats.value 16 file.isLeftBytes.toList
  nullifierHash_eq :
    claim.nullifierHash.toNat = Formats.value 16 (file.nullifierHash.toList.drop 2)
  receiver_eq : claim.receiver = file.receiver
  root_eq : claim.root = file.root
  sisterNodes_eq : claim.sisterNodes.map BitVec.toNat =
    file.sisterNodes.map fun text => Formats.value 16 (text.toList.drop 2)

/-! ## The leaves -/

/-- The bytes of a claim. -/
def ClaimNative.packed (claim : ClaimNative) : List UInt8 :=
  packClaim claim.grantId claim.receiver.toNat claim.nullifierHash

/-- The root over the claims of a batch and the zero claims that fill its tree. -/
def BatchFile.claimRoot (keccak256 : List UInt8 → U256) (depth : ℕ) (file : BatchFile) : U256 :=
  claimRootOf keccak256 depth (padStrings (2 ^ depth) (file.claims.map ClaimNative.packed))

/-- Numbers that fit into their words are packed into a leaf. -/
theorem getKeccakHash_native {claim : ClaimNative} (hgrant : claim.grantId < 2 ^ 256)
    (hnullifier : claim.nullifierHash < 2 ^ 256) :
    getKeccakHash keccak256 claim.grantId claim.receiver claim.nullifierHash =
      .ok (keccak256 claim.packed) := by
  rw [getKeccakHash, if_neg (not_le.mpr hgrant), if_neg (not_le.mpr hnullifier)]
  rfl

/-- The leaves of a batch whose counts fill its tree are the hashes of its padded strings. -/
theorem parseInput_eq {file : BatchFile} {k : ℕ}
    (hfill : file.claims.length + file.padding = 2 ^ k)
    (hfits : ∀ claim ∈ file.claims, claim.grantId < 2 ^ 256 ∧ claim.nullifierHash < 2 ^ 256) :
    parseInput keccak256 file =
      .ok ((padStrings (2 ^ k) (file.claims.map ClaimNative.packed)).map keccak256) := by
  have hleaves : file.claims.mapM (fun claim =>
      getKeccakHash keccak256 claim.grantId claim.receiver claim.nullifierHash) =
        .ok (file.claims.map fun claim => keccak256 claim.packed) :=
    mapM_of_forall fun claim hclaim =>
      getKeccakHash_native (hfits claim hclaim).1 (hfits claim hclaim).2
  have hpad : getKeccakHash keccak256 0 0 0 = .ok (keccak256 zeroClaim) := by
    rw [getKeccakHash, if_neg (by decide), if_neg (by decide), ← packClaim_zero]
    rfl
  have hpadding : 2 ^ k - file.claims.length = file.padding := by omega
  simp only [parseInput, hleaves, hpad, bind, Except.bind, pure, Except.pure, padStrings,
    List.length_map, hpadding, List.map_append, List.map_replicate, List.map_map]
  rfl

/-! ## The call -/

/-- The leaf that is claimed for a claim of a batch. -/
def ClaimNative.triple (claim : ClaimNative) : WorldcoinAggregationV2.ClaimTriple :=
  ⟨BitVec.ofNat 256 claim.grantId, claim.receiver, BitVec.ofNat 256 claim.nullifierHash⟩

/-- A number that fits into a word. -/
theorem toNat_ofNat_of_lt {n : ℕ} (h : n < 2 ^ 256) : (BitVec.ofNat 256 n).toNat = n := by
  rw [BitVec.toNat_ofNat, Nat.mod_eq_of_lt h]

/-- The claimed leaf has the bytes of the claim. -/
theorem ClaimNative.packed_triple {claim : ClaimNative} (hgrant : claim.grantId < 2 ^ 256)
    (hnullifier : claim.nullifierHash < 2 ^ 256) : claim.triple.packed = claim.packed := by
  rw [WorldcoinAggregationV2.ClaimTriple.packed, triple, toNat_ofNat_of_lt hgrant,
    toNat_ofNat_of_lt hnullifier, packed]

/-- A call for a claim of a batch: it carries the claim and the World ID root of the batch, and its
path leads to the root over the batch. -/
structure BatchFile.Calls (keccak256 : List UInt8 → U256) (file : BatchFile) (k : ℕ)
    (claim : ClaimNative) (args : WorldcoinAggregationV2.Claim) : Prop where
  triple_eq : args.triple = claim.triple
  root_eq : args.root = BitVec.ofNat 256 file.root
  length_eq : args.sisterNodes.length = k
  claimsRoot_eq : args.claimsRoot keccak256 = file.claimRoot keccak256 k

/-! ## The texts -/

/-- Only one struct holds the values of a file. -/
theorem ClaimFile.Denotes.unique {file : ClaimFile} {claim claim' : ClaimScript.Claim}
    (h : file.Denotes claim) (h' : file.Denotes claim') : claim' = claim := by
  obtain ⟨grantId, isLeftBytes, nullifierHash, receiver, root, sisterNodes⟩ := claim
  obtain ⟨grantId', isLeftBytes', nullifierHash', receiver', root', sisterNodes'⟩ := claim'
  rw [ClaimScript.Claim.mk.injEq]
  refine ⟨h'.grantId_eq.trans h.grantId_eq.symm, ?_, ?_, h'.receiver_eq.trans h.receiver_eq.symm,
    h'.root_eq.trans h.root_eq.symm, ?_⟩
  · exact BitVec.eq_of_toNat_eq (h'.isLeftBytes_eq.trans h.isLeftBytes_eq.symm)
  · exact BitVec.eq_of_toNat_eq (h'.nullifierHash_eq.trans h.nullifierHash_eq.symm)
  · exact List.map_injective_iff.mpr (fun _ _ => BitVec.eq_of_toNat_eq)
      (h'.sisterNodes_eq.trans h.sisterNodes_eq.symm)

/-- A number comes back from its text. -/
theorem value_hexText (width n : ℕ) :
    Formats.value 16 ((hexText width n).toList.drop 2) = n := by
  have htext : (hexText width n).toList = '0' :: 'x' :: Formats.zeroPadded 16 width n := by
    have hprefix : "0x".toList = ['0', 'x'] := rfl
    rw [hexText, String.toList_append, hprefix, String.toList_ofList]
    rfl
  rw [htext]
  exact (Formats.value_leftpad 16 width _).trans
    (Formats.value_toDigits (by decide) (by decide) n)

/-- A digit is read while the number fits into a word. -/
theorem readByte_eq {result : U256} {d : ℕ} (hd : d < 10)
    (h : 10 * result.toNat + d < 2 ^ 256) :
    ClaimScript.readByte result (UInt8.ofNat (48 + d)) =
      .ok (BitVec.ofNat 256 (10 * result.toNat + d)) := by
  have hscaled : u256OfNat (result.toNat * 10) = .ok (BitVec.ofNat 256 (result.toNat * 10)) :=
    if_pos (by omega)
  have hbyte : (UInt8.ofNat (48 + d)).toNat = 48 + d :=
    UInt8.toNat_ofNat_of_lt' (show 48 + d < 256 by omega)
  have hdigit : checkedSub (48 + d) 48 = .ok d :=
    checkedSub_eq_ok.mpr ⟨by omega, by omega⟩
  have hsum : result.toNat * 10 + d = 10 * result.toNat + d := by omega
  simp only [ClaimScript.readByte, hscaled, hbyte, hdigit, bind, Except.bind]
  rw [toNat_ofNat_of_lt (by omega), hsum]
  exact if_pos h

/-- Digits are read one after the other, as long as the number fits into a word. -/
theorem foldlM_readByte {cs : List Char} {result : U256}
    (hdigits : ∀ c ∈ cs, ∃ d < 10, c = Nat.digitChar d)
    (hfits : cs.foldl (fun n c => 10 * n + Formats.digitValue c) result.toNat < 2 ^ 256) :
    (cs.flatMap String.utf8EncodeChar).foldlM ClaimScript.readByte result =
      .ok (BitVec.ofNat 256
        (cs.foldl (fun n c => 10 * n + Formats.digitValue c) result.toNat)) := by
  induction cs generalizing result with
  | nil =>
      show Except.ok result = Except.ok (BitVec.ofNat 256 result.toNat)
      rw [BitVec.ofNat_toNat, BitVec.setWidth_eq]
  | cons c cs ih =>
      obtain ⟨⟨d, hd, rfl⟩, hcs⟩ := List.forall_mem_cons.mp hdigits
      have hvalue : Formats.digitValue d.digitChar = d := Formats.digitValue_digitChar d (by omega)
      have hbytes : ∀ d < 10, String.utf8EncodeChar (Nat.digitChar d) = [UInt8.ofNat (48 + d)] := by
        decide
      rw [List.foldl_cons, hvalue] at hfits ⊢
      have hlt : 10 * result.toNat + d < 2 ^ 256 :=
        (Formats.le_foldl_digits (by decide) cs _).trans_lt hfits
      have hnext := toNat_ofNat_of_lt hlt
      rw [List.flatMap_cons, hbytes d hd, List.singleton_append, List.foldlM_cons,
        readByte_eq hd hlt]
      show List.foldlM ClaimScript.readByte (BitVec.ofNat 256 (10 * result.toNat + d)) _ = _
      rw [ih hcs (by rwa [hnext]), hnext]

/-- A number that fits into a word comes back from its decimal text. -/
theorem stringToUint_toString {n : ℕ} (h : n < 2 ^ 256) :
    ClaimScript.stringToUint (toString n) = .ok (BitVec.ofNat 256 n) := by
  have htext : (toString n).toList = Nat.toDigits 10 n := Nat.toList_repr
  have hvalue : (Nat.toDigits 10 n).foldl (fun n c => 10 * n + Formats.digitValue c)
      (0 : U256).toNat = n := Formats.value_toDigits (by decide) (by decide) n
  unfold ClaimScript.stringToUint
  rw [htext, foldlM_readByte (fun c hc => Formats.exists_digitChar (by decide) hc)
    (hvalue.symm ▸ h), hvalue]

/-! ## The call for a claim -/

/-- The script writes a file for every claim of a batch whose counts fill a tree that the contract
supports. From the struct that holds its values, `ClaimScript` finds the contract and makes the call
for the claim. -/
theorem exists_claimFile (keccak256 : List UInt8 → U256) {clients : ℕ → Option Address}
    {file : BatchFile} {k i : ℕ}
    {claim : ClaimNative} {client : Address} (hk : k ≤ 32)
    (hfill : file.claims.length + file.padding = 2 ^ k) (hroot : file.root < 2 ^ 256)
    (hfits : ∀ claim ∈ file.claims, claim.grantId < 2 ^ 256 ∧ claim.nullifierHash < 2 ^ 256)
    (hclient : clients (2 ^ k) = some client) (hclaim : file.claims[i]? = some claim) :
    ∃ claimFile decoded args, merkleSisterNodes keccak256 file i = .ok claimFile ∧
      claimFile.Denotes decoded ∧ ClaimScript.run clients decoded = .ok (client, args) ∧
        file.Calls keccak256 k claim args := by
  obtain ⟨hgrant, hnullifier⟩ := hfits claim (List.mem_of_getElem? hclaim)
  obtain ⟨leaves, hleaves⟩ : ∃ leaves, leaves =
      (padStrings (2 ^ k) (file.claims.map ClaimNative.packed)).map keccak256 := ⟨_, rfl⟩
  have hlt := (List.getElem?_eq_some_iff.mp hclaim).1
  have hle : (file.claims.map ClaimNative.packed).length ≤ 2 ^ k := by
    rw [List.length_map]
    omega
  have hlength : leaves.length = 2 ^ k := by
    rw [hleaves, List.length_map, length_padStrings hle]
  have hleaf : leaves[i]? = some (keccak256 claim.packed) := by
    rw [hleaves, padStrings, List.getElem?_map, List.getElem?_append_left (by simpa using hlt),
      List.getElem?_map, hclaim]
    rfl
  -- the path of the script is the opening of the leaf
  obtain ⟨tree, htree, -, hpath⟩ := exists_merkleTree keccak256 hlength
    (show i < 2 ^ k by omega)
  have hcount := Merkle.length_opening (hashNodes keccak256) k i leaves
  have hflags : ((Merkle.opening (hashNodes keccak256) k i leaves).map Prod.fst).length ≤ 32 := by
    rwa [List.length_map, hcount]
  obtain ⟨word, hword, hbytes⟩ := toBool_unsafeByteAccess hflags
  obtain ⟨sisterNodes, hsisterNodes⟩ : ∃ sisterNodes, sisterNodes =
      (Merkle.opening (hashNodes keccak256) k i leaves).map Prod.snd := ⟨_, rfl⟩
  have hsisters : sisterNodes.length = k := by
    rw [hsisterNodes, List.length_map, hcount]
  refine ⟨⟨toString claim.grantId, String.ofList (Formats.zeroPadded 16 64 word.toNat),
    hexText 0 claim.nullifierHash, claim.receiver, toString file.root,
    sisterNodes.map fun node => hexText 64 node.toNat⟩, ⟨toString claim.grantId, word,
    BitVec.ofNat 256 claim.nullifierHash, claim.receiver, toString file.root, sisterNodes⟩,
    ⟨BitVec.ofNat 256 claim.grantId, BitVec.ofNat 256 file.root, claim.receiver,
    BitVec.ofNat 256 claim.nullifierHash, sisterNodes, word⟩, ?_, ?_, ?_, rfl, rfl, hsisters, ?_⟩
  · rw [hsisterNodes]
    simp only [merkleSisterNodes, parseInput_eq hfill hfits, ← hleaves, htree, hclaim, hpath, hword,
      bind, Except.bind, pure, Except.pure]
  · refine ⟨rfl, ?_, ?_, rfl, rfl, ?_⟩
    · rw [String.toList_ofList]
      exact ((Formats.value_leftpad 16 64 _).trans
        (Formats.value_toDigits (by decide) (by decide) _)).symm
    · rw [value_hexText, toNat_ofNat_of_lt hnullifier]
    · rw [List.map_map]
      exact List.map_congr_left fun node _ => (value_hexText 64 node.toNat).symm
  · have hshl : checkedShl 256 k = .ok (2 ^ k) := checkedShl_eq_ok.mpr ⟨by omega, rfl⟩
    have hfound : unwrap (clients (2 ^ k)) = .ok client := by
      rw [hclient]
      rfl
    simp only [ClaimScript.run, hsisters, hshl, hfound, stringToUint_toString hgrant,
      stringToUint_toString hroot, bind, Except.bind, pure, Except.pure]
  · have hpacked := ClaimNative.packed_triple hgrant hnullifier
    rw [WorldcoinAggregationV2.Claim.claimsRoot_eq_climb, WorldcoinAggregationV2.Claim.path,
      hsisterNodes, pathFrom_eq 0 (by simpa using hbytes), WorldcoinAggregationV2.Claim.leaf]
    refine (Merkle.climb_opening _ hlength ?_).trans ?_
    · rw [hleaf]
      exact congrArg (some ∘ keccak256) hpacked.symm
    · rw [hleaves]
      rfl

end WorldcoinAggregation
