import WorldcoinAggregation.Circuit.V1.Soundness
import WorldcoinAggregation.Circuit.V2.Soundness

/-!
# The strings that a root commits to

A V1 root hashes one string, and a V2 root the nodes over a list of strings. The prover supplies
their words, so a string need not be the honest one. It still binds the prover: the words of a V1
root are reduced to the columns of its leaves (`v1Committed_of_rootOutput`), and a string of a V2
tree that packs a claim with a receiver belongs to a slot within the number of claims
(`slotBehind_of_treeStrings`). The proofs of these slots were accepted.
-/

namespace WorldcoinAggregation

open Synthesis

variable {chips : Chips} {initialDepth height count : ℕ}

/-! ## The string of a V1 root -/

/-- A Groth16 proof of these values was accepted for this World ID root and for some number of
public inputs, under a verifying key of which some words have this hash. -/
def GrantProven (chips : Chips) (vkHash : HiLo Fr) (root grantId receiver nullifierHash : Fr) :
    Prop :=
  ∃ claim vk words numPublicInputs, WordsOf vk words ∧ vkHashOf chips.keccak256 words = vkHash ∧
    ClaimInput.Accepted chips vk numPublicInputs root claim ∧ claim.grantId = grantId ∧
    claim.receiver = receiver ∧ claim.nullifierHash = nullifierHash

/-- What a V1 root commits to: it hashes some words of one key hash, one root and the columns of
its leaves, all of whose slots were proven. -/
structure V1Committed (chips : Chips) (initialDepth : ℕ) {height : ℕ}
    (tree : ProofTree (height + 1)) (out : List Fr) (vkHash : HiLo Fr) (root : Fr)
    (columns : Columns) : Prop where
  out_eq : out = (HiLo.ofDigest (chips.keccak256 (tree.rootString initialDepth))).hiLo
  wordsOf : WordsOf (WorldcoinRootAggregationInput.outputOf vkHash root tree.numProofs columns)
    (tree.rootWords initialDepth)
  columns_length : columns.HasLength (2 ^ (initialDepth + height + 1))
  proven : ∀ (i : ℕ) (grantId receiver nullifierHash : Fr),
    columns.grantIds[i]? = some grantId → columns.receivers[i]? = some receiver →
      columns.nullifierHashes[i]? = some nullifierHash →
        GrantProven chips vkHash root grantId receiver nullifierHash

/-- A satisfied V1 root commits to the columns of its leaves. -/
theorem v1Committed_of_rootOutput (tree : ProofTree (height + 1)) {out : List Fr}
    (h : tree.rootOutput (v1Circuits chips)
      (WorldcoinRootAggregationInput.virtualAssignPhase0 chips) initialDepth = some out) :
    ∃ vkHash root columns, V1Committed chips initialDepth tree out vkHash root columns := by
  obtain ⟨instances, hinstances, hwords, hout⟩ := rootOutput_v1 tree h
  obtain ⟨hslots, shared, hspans, -, rfl⟩ := v1Invariant_of_join tree hinstances
  have hcolumns := hslots.hasLength_columnsOf
  rw [WorldcoinRootAggregationInput.extract_outputOf _ _ hcolumns] at hwords
  refine ⟨shared.vkHash, shared.root, columnsOf tree.leaves, hout, hwords, hcolumns, ?_⟩
  intro i grantId receiver nullifierHash hgrant hreceiver hnullifier
  have hi : i < 2 ^ (initialDepth + height + 1) := by
    rw [← hcolumns.grantIds]
    exact (List.getElem?_eq_some_iff.mp hgrant).1
  obtain ⟨witness, claim, hwitness, -, hgrant', hreceiver', hnullifier', haccepted⟩ :=
    slotAccepted hslots hspans.fits hi
  have hfits := hspans.fits witness (List.mem_of_getElem? hwitness)
  refine ⟨claim, _, _, _, hfits.vkWords, hfits.vkHash_eq, haccepted, ?_, ?_, ?_⟩
  · exact Option.some.inj (hgrant'.symm.trans hgrant)
  · exact Option.some.inj (hreceiver'.symm.trans hreceiver)
  · exact Option.some.inj (hnullifier'.symm.trans hnullifier)

/-! ## The strings of a V2 tree -/

/-- Slot `i` of a tree hashes a string of its claim, masked unless `i` is below the number of
claims. -/
structure SlotBehind (chips : Chips) (initialDepth count : ℕ) (leaves : List LeafWitness) (i : ℕ)
    (s : List UInt8) (witness : LeafWitness) (claim : ClaimInput) : Prop where
  witness_eq : leaves[i / 2 ^ initialDepth]? = some witness
  claim_eq : witness.input.claims[i % 2 ^ initialDepth]? = some claim
  slotOf : ∃ pieces, SlotOf claim (if i < count then 1 else 0) pieces ∧ s = pieces.flatten

/-- Related lists are related at every index. -/
theorem exists_of_forall₂_getElem? {α β : Type} {rel : α → β → Prop} {xs : List α} {ys : List β}
    (h : List.Forall₂ rel xs ys) {i : ℕ} {y : β} (hy : ys[i]? = some y) :
    ∃ x, xs[i]? = some x ∧ rel x y := by
  obtain ⟨hlt, rfl⟩ := List.getElem?_eq_some_iff.mp hy
  have hlt' : i < xs.length := h.length_eq ▸ hlt
  exact ⟨xs[i], List.getElem?_eq_getElem hlt', h.get hlt' hlt⟩

/-- The slots of a covered leaf are masked from the number of claims on. -/
theorem CoversAt.mask_eq {start i : ℕ} {leaves : List LeafWitness} {witness : LeafWitness}
    (h : CoversAt initialDepth start count leaves (i / 2 ^ initialDepth))
    (hcovered : i / 2 ^ initialDepth * 2 ^ initialDepth < count)
    (hwitness : leaves[i / 2 ^ initialDepth]? = some witness) :
    i % 2 ^ initialDepth < (witness.input.end_ - witness.input.start).val ↔ i < count := by
  obtain ⟨witness', hwitness', hstart, hend⟩ := h
  obtain rfl := Option.some.inj (hwitness.symm.trans hwitness')
  have hsplit := Nat.div_add_mod' i (2 ^ initialDepth)
  have hmod := Nat.mod_lt i (Nat.two_pow_pos initialDepth)
  rw [Nat.add_mul, Nat.one_mul] at hend
  rw [Fr.val_sub_of_le (by omega)]
  omega

/-- Every string of a tree is that of a zero claim, or there is a slot behind it. -/
theorem slotBehind_of_treeStrings {tree : ProofTree height} {shared : SharedInstances}
    (hspans : Spans chips initialDepth tree shared count)
    (hdecomposes : ∀ witness ∈ tree.leaves, witness.Decomposes) {i : ℕ} {s : List UInt8}
    (h : (treeStrings initialDepth count tree)[i]? = some s) :
    s = zeroClaim ∨ ∃ witness claim,
      SlotBehind chips initialDepth count tree.leaves i s witness claim := by
  have hlength : ∀ witness ∈ coveredLeaves initialDepth count tree.leaves,
      witness.strings.length = 2 ^ initialDepth := fun witness hmem => by
    rw [LeafWitness.length_strings, (hspans.fits witness (List.mem_of_mem_take hmem)).maxDepth_eq]
  rw [treeStrings, padStrings] at h
  rcases Nat.lt_or_ge i
      ((coveredLeaves initialDepth count tree.leaves).flatMap LeafWitness.strings).length with
    hlt | hge
  · rw [List.getElem?_append_left hlt, getElem?_flatMap (Nat.two_pow_pos _) hlength,
      Option.bind_eq_some_iff] at h
    obtain ⟨witness, hwitness, hs⟩ := h
    obtain ⟨hcovered, hleaf⟩ : i / 2 ^ initialDepth * 2 ^ initialDepth < count ∧
        tree.leaves[i / 2 ^ initialDepth]? = some witness := by
      rw [coveredLeaves, List.getElem?_take] at hwitness
      split at hwitness
      · rename_i hlt
        exact ⟨lt_ceil_iff.mp hlt, hwitness⟩
      · cases hwitness
    have hmem := List.mem_of_getElem? hleaf
    have hmask := (hspans.coverage _ hcovered).mask_eq hcovered hleaf
    rw [LeafWitness.strings, List.getElem?_map, Option.map_eq_some_iff] at hs
    obtain ⟨pieces, hpieces, rfl⟩ := hs
    obtain ⟨⟨claim, mask⟩, hclaim, hslot⟩ :=
      exists_of_forall₂_getElem? (hdecomposes witness hmem).slots hpieces
    simp only [WorldcoinLeafInputV2.maskedClaims, unsafeLtMask, List.getElem?_zip_eq_some,
      List.getElem?_map, Option.map_eq_some_iff] at hclaim
    obtain ⟨hclaim, k, hk, rfl⟩ := hclaim
    obtain rfl : k = i % 2 ^ initialDepth := by
      rw [List.getElem?_range] at hk
      · exact (Option.some.inj hk).symm
      · rw [(hspans.fits witness hmem).maxDepth_eq]
        exact Nat.mod_lt i (Nat.two_pow_pos _)
    simp only [hmask] at hslot
    exact .inr ⟨witness, claim, hleaf, hclaim, pieces, hslot, rfl⟩
  · rw [List.getElem?_append_right hge] at h
    exact .inl (List.eq_of_mem_replicate (List.mem_of_getElem? h))

/-- The values of a slot whose string packs a claim in range. -/
theorem SlotOf.values {claim : ClaimInput} {mask : Fr} {pieces : List (List UInt8)}
    {grantId receiver nullifierHash : ℕ} (h : SlotOf claim mask pieces)
    (hgrant : grantId < 256 ^ 32) (hreceiver : receiver < 256 ^ 20)
    (hnullifier : nullifierHash < 256 ^ 32)
    (hbytes : packClaim grantId receiver nullifierHash = pieces.flatten) :
    claim.grantId * mask = grantId ∧ claim.receiver * mask = receiver ∧
      claim.nullifierHash * mask = nullifierHash := by
  cases h with
  | mk hg hr hn =>
      simp only [List.flatten_cons, List.flatten_nil, List.append_nil, packClaim,
        List.append_assoc] at hbytes
      obtain ⟨rfl, hrest⟩ := List.append_inj hbytes (by rw [hg.1]; simp)
      obtain ⟨rfl, rfl⟩ := List.append_inj hrest (by rw [hr.1]; simp)
      rw [← hg.2, ← hr.2, ← hn.2, BigEndian.ofBytes_toBytes hgrant,
        BigEndian.ofBytes_toBytes hreceiver, BigEndian.ofBytes_toBytes hnullifier]
      exact ⟨rfl, rfl, rfl⟩

/-- A receiver other than the zero address is not zero in the field. -/
theorem Fr.natCast_ne_zero {n : ℕ} (hpos : n ≠ 0) (hlt : n < frModulus) : (n : Fr) ≠ 0 := by
  intro hzero
  have hval := Fr.val_natCast hlt
  rw [hzero, ZMod.val_zero] at hval
  exact hpos hval.symm

/-- A string of a tree that packs a claim with a receiver stands below the number of claims, and
what it packs was proven. -/
theorem grantProven_of_treeStrings {tree : ProofTree height} {shared : SharedInstances}
    (hspans : Spans chips initialDepth tree shared count)
    (hdecomposes : ∀ witness ∈ tree.leaves, witness.Decomposes)
    {i grantId receiver nullifierHash : ℕ} (hgrant : grantId < 256 ^ 32)
    (hreceiver : receiver < 256 ^ 20) (hnullifier : nullifierHash < 256 ^ 32)
    (hne : receiver ≠ 0)
    (h : (treeStrings initialDepth count tree)[i]? =
      some (packClaim grantId receiver nullifierHash)) :
    i < count ∧ GrantProven chips shared.vkHash shared.root grantId receiver nullifierHash := by
  rcases slotBehind_of_treeStrings hspans hdecomposes h with hzero | ⟨witness, claim, hslot⟩
  · rw [← packClaim_zero] at hzero
    obtain ⟨-, rfl, -⟩ := packClaim_injective hgrant (by decide) hreceiver (by decide) hnullifier
      (by decide) hzero
    exact absurd rfl hne
  · obtain ⟨hwitness, hclaim, pieces, hpieces, hbytes⟩ := hslot
    obtain ⟨hg, hr, hn⟩ := hpieces.values hgrant hreceiver hnullifier hbytes
    -- the receiver of a masked slot would be zero
    have hi : i < count := by
      by_contra hge
      rw [if_neg hge, mul_zero] at hr
      exact Fr.natCast_ne_zero hne (hreceiver.trans pow_160_lt_frModulus) hr.symm
    rw [if_pos hi, mul_one] at hg hr hn
    have hfits := hspans.fits witness (List.mem_of_getElem? hwitness)
    have haccepted := hfits.constraints.accepted claim (List.mem_of_getElem? hclaim)
    rw [hfits.root_eq] at haccepted
    exact ⟨hi, claim, _, _, _, hfits.vkWords, hfits.vkHash_eq, haccepted, hg, hr, hn⟩

end WorldcoinAggregation
