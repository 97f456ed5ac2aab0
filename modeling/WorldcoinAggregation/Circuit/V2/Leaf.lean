import WorldcoinAggregation.Circuit.V1.Intermediate

/-!
# The V2 leaf circuit

The V2 leaf verifies the same claims as the V1 leaf but exposes only the root of the Merkle tree
over them. A slot outside the covered interval is masked to the zero claim. Each slot is hashed
through three decompositions that the prover supplies; `SlotOf` says what they may be.
-/

namespace WorldcoinAggregation

open Synthesis

namespace WorldcoinLeafInputV2

/-- The bytes whose hash is the leaf of a claim. -/
def leafBytes (claim : ClaimInput) (mask : Fr) : Circuit (List UInt8) := do
  let maskedGrantId := claim.grantId * mask
  let maskedReceiver := claim.receiver * mask
  let maskedNullifierHash := claim.nullifierHash * mask
  let grantId ← uintToBytesBe maskedGrantId 32
  let receiver ← uintToBytesBe maskedReceiver 20
  let nullifierHash ← uintToBytesBe maskedNullifierHash 32
  return grantId ++ receiver ++ nullifierHash

/-- The leaf of a claim, whose Groth16 proof is verified. -/
def assignLeaf (chips : Chips) (vk : List Fr) (numPublicInputs root : Fr)
    (claim : ClaimInput × Fr) : Circuit (HiLo Fr) := do
  verifyClaim chips vk numPublicInputs root claim.1
  let bytes ← leafBytes claim.1 claim.2
  return keccakFixedLen chips.keccak256 bytes

/-- The V2 leaf circuit. Its instances are
`[start, end_, vkHashHi, vkHashLo, root, claimRootHi, claimRootLo]`. -/
def virtualAssignPhase0 (chips : Chips) (input : WorldcoinLeafInput) : Circuit (List Fr) := do
  let vkHash ← input.constrainShared chips
  -- slots from the number of proofs on are masked
  let numProofs := input.end_ - input.start
  let maxProofs ← lift (oneShl 64 input.maxDepth)
  let selector := unsafeLtMask numProofs maxProofs
  require (input.claims.length = selector.length)
  let inputs := input.claims.zip selector
  let leaves ← inputs.mapM (assignLeaf chips input.vkBytes input.numPublicInputs input.root)
  let merkleTree ← computeKeccakMerkleTree chips.keccak256 leaves
  let claimRoot ← lift merkleTree.head?
  return [input.start, input.end_] ++ vkHash.hiLo ++ [input.root] ++ claimRoot.hiLo

end WorldcoinLeafInputV2

/-! ## Slots -/

/-- The Merkle root over the hashes of byte strings. -/
def claimRootOf (keccak256 : List UInt8 → BitVec 256) (depth : ℕ) (strings : List (List UInt8)) :
    BitVec 256 :=
  Merkle.root (hashNodes keccak256) depth (strings.map keccak256)

/-- The bytes that the contract hashes for a claim. -/
def ClaimInput.packed (claim : ClaimInput) : List UInt8 :=
  packClaim claim.grantId.val claim.receiver.val claim.nullifierHash.val

/-- Byte strings filled up to this number with those of the zero claim. -/
def padStrings (size : ℕ) (strings : List (List UInt8)) : List (List UInt8) :=
  strings ++ List.replicate (size - strings.length) zeroClaim

/-- The byte strings of claims, filled up to this number. -/
def paddedStrings (claims : List ClaimInput) (size : ℕ) : List (List UInt8) :=
  padStrings size (claims.map ClaimInput.packed)

/-- Padding fills up to the size. -/
theorem length_padStrings {size : ℕ} {strings : List (List UInt8)} (h : strings.length ≤ size) :
    (padStrings size strings).length = size := by
  simp [padStrings, h]

/-- Padding a list that is short enough for the first half. -/
theorem padStrings_add {m n : ℕ} {strings : List (List UInt8)} (h : strings.length ≤ m) :
    padStrings (m + n) strings = padStrings m strings ++ List.replicate n zeroClaim := by
  rw [padStrings, padStrings, List.append_assoc, List.replicate_append_replicate]
  congr 2
  omega

/-- Padding behind a full first half. -/
theorem padStrings_append {m n : ℕ} {full strings : List (List UInt8)} (h : full.length = m) :
    padStrings (m + n) (full ++ strings) = full ++ padStrings n strings := by
  rw [padStrings, padStrings, List.append_assoc, List.length_append, h]
  congr 3
  omega

/-- A full list needs no padding. -/
theorem padStrings_self {size : ℕ} {strings : List (List UInt8)} (h : strings.length = size) :
    padStrings size strings = strings := by
  simp [padStrings, h]

/-- The claim root of two halves. -/
theorem claimRootOf_append (keccak256 : List UInt8 → BitVec 256) {k : ℕ}
    {left right : List (List UInt8)} (hl : left.length = 2 ^ k) (hr : right.length = 2 ^ k) :
    claimRootOf keccak256 (k + 1) (left ++ right) =
      hashNodes keccak256 (claimRootOf keccak256 k left) (claimRootOf keccak256 k right) := by
  rw [claimRootOf, List.map_append]
  exact Merkle.root_append _ (by simp [hl]) (by simp [hr])

/-- The pieces that a prover may supply for the slot of a claim under a mask. -/
inductive SlotOf (claim : ClaimInput) (mask : Fr) : List (List UInt8) → Prop where
  | mk {grantId receiver nullifierHash : List UInt8}
      (hgrant : BytesOf 32 (claim.grantId * mask) grantId)
      (hreceiver : BytesOf 20 (claim.receiver * mask) receiver)
      (hnullifier : BytesOf 32 (claim.nullifierHash * mask) nullifierHash) :
      SlotOf claim mask [grantId, receiver, nullifierHash]

variable {claim : ClaimInput} {mask : Fr} {pieces : List (List UInt8)}

/-- A slot has three pieces. -/
theorem SlotOf.length (h : SlotOf claim mask pieces) : pieces.length = 3 := by
  cases h
  rfl

/-- The receiver of a covered slot is an address. -/
theorem SlotOf.receiver_lt (h : SlotOf claim 1 pieces) : claim.receiver.val < 256 ^ 20 := by
  cases h with
  | mk _ hreceiver _ =>
      rw [mul_one] at hreceiver
      exact hreceiver.val_lt pow_160_lt_frModulus.le

/-- Every claim has a slot. -/
theorem SlotOf.exists_of_mem {claims : List (ClaimInput × Fr)}
    {slots : List (List (List UInt8))}
    (h : List.Forall₂ (fun c pieces => SlotOf c.1 c.2 pieces) claims slots) :
    ∀ c ∈ claims, ∃ pieces, SlotOf c.1 c.2 pieces := by
  induction h with
  | nil => simp
  | cons hslot _ ih => simpa using ⟨⟨_, hslot⟩, by simpa using ih⟩

/-- Every slot belongs to a claim. -/
theorem SlotOf.exists_of_mem_right {claims : List (ClaimInput × Fr)}
    {slots : List (List (List UInt8))}
    (h : List.Forall₂ (fun c pieces => SlotOf c.1 c.2 pieces) claims slots) :
    ∀ slot ∈ slots, ∃ c : ClaimInput × Fr, SlotOf c.1 c.2 slot := by
  induction h with
  | nil => simp
  | cons hslot _ ih => simpa using ⟨⟨_, _, hslot⟩, by simpa using ih⟩

/-- All slots have three pieces. -/
theorem SlotOf.forall_length {claims : List (ClaimInput × Fr)} {slots : List (List (List UInt8))}
    (h : List.Forall₂ (fun c pieces => SlotOf c.1 c.2 pieces) claims slots) :
    ∀ slot ∈ slots, slot.length = 3 := by
  induction h with
  | nil => simp
  | cons hslot _ ih => simpa [hslot.length] using ih

/-- The bytes of a slot of canonical pieces. -/
theorem SlotOf.flatten (h : SlotOf claim mask pieces)
    (hcanonical : ∀ piece ∈ pieces, Canonical piece) :
    pieces.flatten = packClaim (claim.grantId * mask).val (claim.receiver * mask).val
      (claim.nullifierHash * mask).val := by
  cases h with
  | mk hgrant hreceiver hnullifier =>
      simp only [List.mem_cons, List.not_mem_nil, or_false, forall_eq_or_imp,
        forall_eq] at hcanonical
      obtain ⟨hg, hr, hn⟩ := hcanonical
      rw [hgrant.eq_toBytes hg, hreceiver.eq_toBytes hr, hnullifier.eq_toBytes hn]
      simp [packClaim]

/-- A slot whose bytes are those of a claim of field elements has canonical pieces. -/
theorem SlotOf.canonical {grantId receiver nullifierHash : Fr} (h : SlotOf claim mask pieces)
    (hbytes : pieces.flatten = packClaim grantId.val receiver.val nullifierHash.val) :
    ∀ piece ∈ pieces, Canonical piece := by
  cases h with
  | mk hgrant hreceiver hnullifier =>
      simp only [List.flatten_cons, List.flatten_nil, List.append_nil, packClaim,
        List.append_assoc] at hbytes
      obtain ⟨rfl, hrest⟩ := List.append_inj hbytes (by rw [hgrant.1]; simp)
      obtain ⟨rfl, rfl⟩ := List.append_inj hrest (by rw [hreceiver.1]; simp)
      simp [canonical_toBytes]

namespace WorldcoinLeafInputV2

/-- The bytes of a slot are three supplied pieces. -/
theorem tracks_leafBytes :
    Tracks (leafBytes claim mask) fun used bytes =>
      SlotOf claim mask used ∧ bytes = used.flatten := by
  refine tracks_uintToBytesBe.bind fun _ grantId ⟨h₁, hgrant⟩ => ?_
  refine tracks_uintToBytesBe.bind fun _ receiver ⟨h₂, hreceiver⟩ => ?_
  refine tracks_uintToBytesBe.bind fun _ nullifierHash ⟨h₃, hnullifier⟩ => .pure ?_
  subst h₁ h₂ h₃
  exact ⟨.mk hgrant hreceiver hnullifier, by simp⟩

/-- The leaf of a slot is the hash of three supplied pieces, and its claim was accepted. -/
theorem tracks_assignLeaf {chips : Chips} {vk : List Fr} {numPublicInputs root : Fr}
    {claim : ClaimInput × Fr} :
    Tracks (assignLeaf chips vk numPublicInputs root claim) fun used leaf =>
      claim.1.Accepted chips vk numPublicInputs root ∧ SlotOf claim.1 claim.2 used ∧
      leaf = HiLo.ofDigest (chips.keccak256 used.flatten) := by
  refine tracks_verifyClaim.bind fun _ _ ⟨hused, haccepted⟩ => ?_
  refine tracks_leafBytes.bind fun used bytes ⟨hslot, hbytes⟩ => .pure ?_
  rw [hused, hbytes]
  simpa using ⟨haccepted, hslot, rfl⟩

/-- The claims of a leaf with their masks. -/
def maskedClaims (input : WorldcoinLeafInput) : List (ClaimInput × Fr) :=
  input.claims.zip (unsafeLtMask (input.end_ - input.start) (2 ^ input.maxDepth))

/-- Masking keeps the claims. -/
theorem map_fst_maskedClaims {input : WorldcoinLeafInput}
    (hlen : input.claims.length = 2 ^ input.maxDepth) :
    (maskedClaims input).map Prod.fst = input.claims :=
  List.map_fst_zip (by simp [hlen])

/-- The mask of a number in range. -/
theorem unsafeLtMask_eq {numProofs : Fr} {len : ℕ} (h : numProofs.val ≤ len) :
    unsafeLtMask numProofs len =
      List.replicate numProofs.val 1 ++ List.replicate (len - numProofs.val) 0 := by
  refine List.ext_getElem (by simp [h]) fun i hi _ => ?_
  rw [List.getElem_append]
  simp [unsafeLtMask]

/-- Pairing a list with copies of one value. -/
theorem zip_replicate_right {α β : Type} {xs : List α} {n : ℕ} (h : xs.length = n) (b : β) :
    xs.zip (List.replicate n b) = xs.map fun a => (a, b) := by
  subst h
  induction xs with
  | nil => rfl
  | cons a xs ih => simp [List.replicate_succ, ih]

/-- The covered claims come first, and the others are masked. -/
theorem maskedClaims_eq {input : WorldcoinLeafInput} {count : ℕ}
    (hlen : input.claims.length = 2 ^ input.maxDepth)
    (hcount : (input.end_ - input.start).val = count) (hle : count ≤ 2 ^ input.maxDepth) :
    maskedClaims input = (input.claims.take count).map (fun c => (c, 1)) ++
      (input.claims.drop count).map (fun c => (c, 0)) := by
  have htake : (input.claims.take count).length = count := by
    rw [List.length_take, hlen]
    omega
  have hdrop : (input.claims.drop count).length = 2 ^ input.maxDepth - count := by
    rw [List.length_drop, hlen]
  have hmask := unsafeLtMask_eq (hcount.le.trans hle)
  rw [hcount] at hmask
  rw [maskedClaims, hmask]
  nth_rewrite 1 [← List.take_append_drop count input.claims]
  rw [List.zip_append (by simp [htake]), zip_replicate_right htake, zip_replicate_right hdrop]

/-- The instances of a V2 circuit below the root. -/
def instances (shared : SharedInstances) (claimRoot : BitVec 256) : List Fr :=
  shared.toList ++ (HiLo.ofDigest claimRoot).hiLo

/-- The leaves of all slots are hashes of supplied pieces. -/
theorem tracks_leaves {chips : Chips} {vk : List Fr} {numPublicInputs root : Fr}
    (claims : List (ClaimInput × Fr)) :
    Tracks (claims.mapM (assignLeaf chips vk numPublicInputs root)) fun used leaves =>
      (∀ c ∈ claims, c.1.Accepted chips vk numPublicInputs root) ∧
      ∃ slots : List (List (List UInt8)), used = slots.flatten ∧
        List.Forall₂ (fun c pieces => SlotOf c.1 c.2 pieces) claims slots ∧
        leaves = ((slots.map List.flatten).map chips.keccak256).map HiLo.ofDigest := by
  refine (Tracks.mapM fun c _ => tracks_assignLeaf).mono ?_
  rintro used leaves ⟨pieces, rfl, rfl, hpieces⟩
  induction hpieces with
  | nil => exact ⟨by simp, [], rfl, .nil, rfl⟩
  | @cons c p claims pieces h _ ih =>
      obtain ⟨haccepted, slots, hused, hslots, hleaves⟩ := ih
      obtain ⟨hhead, hslot, hleaf⟩ := h
      refine ⟨by simpa [hhead] using haccepted, p.1 :: slots, ?_, .cons hslot hslots, ?_⟩
      · simp [hused]
      · simp only [List.map_cons, hleaves, hleaf]

/-- The V2 leaf reads the words of its verifying key, then three pieces for each slot, and exposes
the Merkle root of the hashed slots. -/
theorem tracks_virtualAssignPhase0 {chips : Chips} {input : WorldcoinLeafInput} :
    Tracks (virtualAssignPhase0 chips input) fun used out =>
      LeafConstraints chips input ∧ input.claims.length = 2 ^ input.maxDepth ∧
      ∃ vkWords slots tail, used = vkWords ++ slots.flatten ++ tail ∧
        WordsOf input.vkBytes vkWords ∧
        List.Forall₂ (fun c pieces => SlotOf c.1 c.2 pieces) (maskedClaims input) slots ∧
        out = instances ⟨input.start, input.end_, vkHashOf chips.keccak256 vkWords, input.root⟩
          (claimRootOf chips.keccak256 input.maxDepth (slots.map List.flatten)) := by
  refine WorldcoinLeafInput.tracks_constrainShared.bind fun vkWords vkHash hshared => ?_
  obtain ⟨⟨hlt, hend, hdepth, hcount⟩, hvkLen, hwords, hhash⟩ := hshared
  refine Tracks.lift.bind fun _ maxProofs ⟨h₁, hshift⟩ => ?_
  obtain ⟨-, rfl⟩ := oneShl_eq_some.mp hshift
  refine Tracks.require.bind fun _ _ ⟨h₂, hlen⟩ => ?_
  rw [length_unsafeLtMask] at hlen
  refine (tracks_leaves _).bind fun slotsUsed leaves ⟨haccepted, slots, h₃, hslots, hleaves⟩ => ?_
  have hnum : ((slots.map List.flatten).map chips.keccak256).length = 2 ^ input.maxDepth := by
    rw [List.length_map, List.length_map, ← hslots.length_eq]
    simp [hlen]
  rw [hleaves]
  refine (tracks_computeKeccakMerkleTreeAux hnum).bind fun tail tree hhead => ?_
  refine Tracks.lift.bind fun _ claimRoot ⟨h₄, hroot⟩ => .pure ?_
  obtain rfl := Option.some.inj (hhead.symm.trans hroot)
  have hclaims : ∀ claim ∈ input.claims,
      claim.Accepted chips input.vkBytes input.numPublicInputs input.root := by
    intro claim hmem
    rw [← map_fst_maskedClaims hlen] at hmem
    obtain ⟨c, hc, rfl⟩ := List.mem_map.mp hmem
    exact haccepted c hc
  refine ⟨⟨hlt, hend, hdepth, hcount, hvkLen, hclaims⟩, hlen, vkWords, slots, tail, ?_, hwords,
    hslots, ?_⟩
  · simp [h₁, h₂, h₃, h₄]
  · rw [hhash]
    rfl

/-- The bytes of a slot as the honest prover supplies them. -/
def maskedBytes (c : ClaimInput × Fr) : List UInt8 :=
  packClaim (c.1.grantId * c.2).val (c.1.receiver * c.2).val (c.1.nullifierHash * c.2).val

/-- Slots of canonical pieces hash the honest bytes. -/
theorem map_flatten_slots {claims : List (ClaimInput × Fr)} {slots : List (List (List UInt8))}
    (h : List.Forall₂ (fun c pieces => SlotOf c.1 c.2 pieces) claims slots)
    (hcanonical : ∀ slot ∈ slots, ∀ piece ∈ slot, Canonical piece) :
    slots.map List.flatten = claims.map maskedBytes := by
  induction h with
  | nil => rfl
  | cons hslot _ ih =>
      rw [List.map_cons, List.map_cons, ih fun s hs => hcanonical s (by simp [hs]),
        hslot.flatten (hcanonical _ (by simp))]
      rfl

/-- The honest bytes of all slots are the covered claims, padded. -/
theorem map_maskedBytes {input : WorldcoinLeafInput} {count : ℕ}
    (hlen : input.claims.length = 2 ^ input.maxDepth)
    (hcount : (input.end_ - input.start).val = count) (hle : count ≤ 2 ^ input.maxDepth) :
    (maskedClaims input).map maskedBytes =
      paddedStrings (input.claims.take count) (2 ^ input.maxDepth) := by
  have htake : (input.claims.take count).length = count := by
    rw [List.length_take, hlen]
    omega
  rw [maskedClaims_eq hlen hcount hle, List.map_append, paddedStrings, padStrings,
    List.length_map, htake]
  have hone (claim : ClaimInput) : maskedBytes (claim, 1) = claim.packed := by
    simp [maskedBytes, ClaimInput.packed]
  have hzero (claim : ClaimInput) : maskedBytes (claim, 0) = zeroClaim := by
    simp [maskedBytes, packClaim_zero]
  simp only [List.map_map, Function.comp_def, hone, hzero, List.map_const', List.length_drop,
    hlen]

/-- The honest prover satisfies the slot of an accepted claim whose receiver is an address. -/
theorem honest_assignLeaf {chips : Chips} {vk : List Fr} {numPublicInputs root : Fr}
    {c : ClaimInput × Fr} (haccepted : c.1.Accepted chips vk numPublicInputs root)
    (hreceiver : (c.1.receiver * c.2).val < 256 ^ 20) :
    Honest (assignLeaf chips vk numPublicInputs root c)
      (HiLo.ofDigest (chips.keccak256 (maskedBytes c))) := by
  refine (honest_verifyClaim haccepted).bind ?_
  have hbytes : Honest (leafBytes c.1 c.2) (maskedBytes c) := by
    refine (honest_uintToBytesBe (Fr.val_lt_32 _)).bind ?_
    refine (honest_uintToBytesBe hreceiver).bind ?_
    exact (honest_uintToBytesBe (Fr.val_lt_32 _)).bind (.pure _)
  exact hbytes.bind (.pure _)

/-- Any pieces of a slot can be supplied for an accepted claim. -/
theorem replays_assignLeaf {chips : Chips} {vk : List Fr} {numPublicInputs root : Fr}
    {c : ClaimInput × Fr} (haccepted : c.1.Accepted chips vk numPublicInputs root)
    (hslot : SlotOf c.1 c.2 pieces) :
    Replays (assignLeaf chips vk numPublicInputs root c) pieces
      (HiLo.ofDigest (chips.keccak256 pieces.flatten)) := by
  have hverify := (honest_verifyClaim haccepted).replays_nil
    (tracks_verifyClaim.mono fun _ _ hused => hused.1)
  cases hslot with
  | @mk grantId receiver nullifierHash hgrant hreceiver hnullifier =>
      have hbytes : Replays (leafBytes c.1 c.2) [grantId, receiver, nullifierHash]
          (grantId ++ receiver ++ nullifierHash) :=
        (replays_uintToBytesBe hgrant).bind ((replays_uintToBytesBe hreceiver).bind
          ((replays_uintToBytesBe hnullifier).bind (.pure _)))
      have hflat : [grantId, receiver, nullifierHash].flatten =
          grantId ++ receiver ++ nullifierHash := by
        simp
      rw [hflat]
      exact hverify.bind (hbytes.bind (.pure _))

/-- Any pieces can be supplied for the slots of accepted claims. -/
theorem replays_leaves {chips : Chips} {vk : List Fr} {numPublicInputs root : Fr}
    {claims : List (ClaimInput × Fr)} {slots : List (List (List UInt8))}
    (haccepted : ∀ c ∈ claims, c.1.Accepted chips vk numPublicInputs root)
    (hslots : List.Forall₂ (fun c pieces => SlotOf c.1 c.2 pieces) claims slots) :
    Replays (claims.mapM (assignLeaf chips vk numPublicInputs root)) slots.flatten
      (((slots.map List.flatten).map chips.keccak256).map HiLo.ofDigest) := by
  have hreplays : List.Forall₂ (fun c pieces =>
      Replays (assignLeaf chips vk numPublicInputs root c) pieces
        (HiLo.ofDigest (chips.keccak256 pieces.flatten))) claims slots := by
    induction hslots with
    | nil => exact .nil
    | cons hslot _ ih =>
        exact .cons (replays_assignLeaf (haccepted _ (by simp)) hslot)
          (ih fun c hc => haccepted c (by simp [hc]))
  have hall := Replays.mapM hreplays
  rwa [← Function.comp_def HiLo.ofDigest, ← List.map_map, ← Function.comp_def chips.keccak256,
    ← List.map_map] at hall

/-- Any words of the key and any pieces of the slots can be supplied to a V2 leaf. -/
theorem replays_virtualAssignPhase0 {chips : Chips} {input : WorldcoinLeafInput}
    {words : List (List UInt8)} {slots : List (List (List UInt8))}
    (h : LeafConstraints chips input) (hlen : input.claims.length = 2 ^ input.maxDepth)
    (hwords : WordsOf input.vkBytes words)
    (hslots : List.Forall₂ (fun c pieces => SlotOf c.1 c.2 pieces) (maskedClaims input) slots) :
    ∃ tail, Replays (virtualAssignPhase0 chips input) (words ++ (slots.flatten ++ tail))
      (instances ⟨input.start, input.end_, vkHashOf chips.keccak256 words, input.root⟩
        (claimRootOf chips.keccak256 input.maxDepth (slots.map List.flatten))) := by
  have hnum : ((slots.map List.flatten).map chips.keccak256).length = 2 ^ input.maxDepth := by
    rw [List.length_map, List.length_map, ← hslots.length_eq]
    simp [maskedClaims, hlen]
  obtain ⟨tree, hhead, htree⟩ := honest_computeKeccakMerkleTree chips.keccak256 hnum
  obtain ⟨tail, htail⟩ := htree.replay
  have hclaims : ∀ c ∈ maskedClaims input,
      c.1.Accepted chips input.vkBytes input.numPublicInputs input.root := by
    intro c hc
    refine h.accepted c.1 ?_
    rw [← map_fst_maskedClaims hlen]
    exact List.mem_map_of_mem hc
  have hleaves := replays_leaves hclaims hslots
  refine ⟨tail, Replays.of_eq ((WorldcoinLeafInput.replays_constrainShared h hwords).bind
    ((Replays.lift (oneShl_eq h.depth_lt)).bind ((Replays.require (by simp [hlen])).bind
      (hleaves.bind (htail.bind ((Replays.lift hhead).bind (.pure _))))))) (by simp)⟩

/-- The honest prover satisfies a V2 leaf over accepted claims whose receivers are addresses. -/
theorem honest_virtualAssignPhase0 {chips : Chips} {input : WorldcoinLeafInput}
    (h : LeafConstraints chips input) (hlen : input.claims.length = 2 ^ input.maxDepth)
    (hreceivers : ∀ claim ∈ input.claims, claim.receiver.val < 256 ^ 20) :
    Honest (virtualAssignPhase0 chips input)
      (instances
        ⟨input.start, input.end_, vkHashOf chips.keccak256 (canonicalWords input.vkBytes),
          input.root⟩
        (claimRootOf chips.keccak256 input.maxDepth
          (paddedStrings (input.claims.take (input.end_ - input.start).val)
            (2 ^ input.maxDepth)))) := by
  have hsub : (input.end_ - input.start).val = input.end_.val - input.start.val :=
    Fr.val_sub_of_le h.start_lt.le
  have hle : (input.end_ - input.start).val ≤ 2 ^ input.maxDepth := hsub ▸ h.count_le
  have hleaf : ∀ c ∈ maskedClaims input,
      Honest (assignLeaf chips input.vkBytes input.numPublicInputs input.root c)
        (HiLo.ofDigest (chips.keccak256 (maskedBytes c))) := by
    intro c hc
    have hclaim : c.1 ∈ input.claims := by
      rw [← map_fst_maskedClaims hlen]
      exact List.mem_map_of_mem hc
    refine honest_assignLeaf (h.accepted c.1 hclaim) ?_
    rw [maskedClaims_eq hlen rfl hle] at hc
    rcases List.mem_append.mp hc with hc | hc
    · obtain ⟨claim, -, rfl⟩ := List.mem_map.mp hc
      simpa using hreceivers claim hclaim
    · obtain ⟨claim, -, rfl⟩ := List.mem_map.mp hc
      simp
  have hleaves := Honest.mapM hleaf
  have hmap : (maskedClaims input).map (fun c => HiLo.ofDigest (chips.keccak256 (maskedBytes c))) =
      ((paddedStrings (input.claims.take (input.end_ - input.start).val)
        (2 ^ input.maxDepth)).map chips.keccak256).map HiLo.ofDigest := by
    rw [← map_maskedBytes hlen rfl hle, List.map_map, List.map_map]
    rfl
  rw [hmap] at hleaves
  have hnum : ((paddedStrings (input.claims.take (input.end_ - input.start).val)
      (2 ^ input.maxDepth)).map chips.keccak256).length = 2 ^ input.maxDepth := by
    rw [← map_maskedBytes hlen rfl hle]
    simp [maskedClaims, hlen]
  obtain ⟨tree, hhead, htree⟩ := honest_computeKeccakMerkleTree chips.keccak256 hnum
  refine (WorldcoinLeafInput.honest_constrainShared h).bind ?_
  refine (Honest.lift (oneShl_eq h.depth_lt)).bind ?_
  refine (Honest.require (by simp [hlen])).bind (hleaves.bind ?_)
  exact htree.bind ((Honest.lift hhead).bind (.pure _))

end WorldcoinLeafInputV2

end WorldcoinAggregation
