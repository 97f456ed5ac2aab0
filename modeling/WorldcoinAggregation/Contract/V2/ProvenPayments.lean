import WorldcoinAggregation.Contract.Extraction
import WorldcoinAggregation.Contract.V2.ClaimsRoots
import WorldcoinAggregation.Contract.V2.Delivery

/-!
# V2 payments are proven

While the hash function does not collide on the strings that the contract and the circuits behind
its SNARKs hash, every payment in every run is for a grant whose Groth16 proof was accepted
(`v2_payments_proven`), and no more claims are paid than the SNARKs declare (`length_payments_le`).
-/

namespace WorldcoinAggregation

open CallStack Synthesis

variable {Chain : Type} {chips : Chips} {initialDepth height : ℕ}

/-- The strings that a V2 tree hashes for its claim root. -/
def proofStrings (chips : Chips) (initialDepth : ℕ) (tree : ProofTree (height + 1)) :
    Set (List UInt8) :=
  hashedStrings chips.keccak256 (initialDepth + height + 1) []
    (treeStrings initialDepth tree.numProofs.val tree)

namespace WorldcoinAggregationV2

variable {agg : WorldcoinAggregationV2} {env : Externals Chain} {address : Address}
  {balances : Address → ℕ} {chain : Chain} {entered : List Call}
  {s : State (World Chain) (Frame Chain)} {storage : Storage}
  {extract : List Fr → List UInt8 → ProofTree (height + 1)} {args : Claim}
  {validation : ValidateClaimsRoot} {payment : Payment Chain}

/-- The tree of circuits behind the proof of a validation. -/
def ValidateClaimsRoot.tree (extract : List Fr → List UInt8 → ProofTree (height + 1))
    (args : ValidateClaimsRoot) : ProofTree (height + 1) :=
  extract (publicInstances 18 args.proof) (args.proof.drop (32 * 18))

/-- The strings that claims hash, and those of the trees behind validations, for the calls that pass
their checks. -/
def claimStrings (chips : Chips) (agg : WorldcoinAggregationV2) (env : Externals Chain)
    (initialDepth : ℕ) (extract : List Fr → List UInt8 → ProofTree (height + 1))
    (entered : List Call) : Set (List UInt8) :=
  {s | (∃ args, .claim args ∈ entered ∧
      (∃ storage payment, args.Checked agg env storage payment) ∧
        s ∈ args.pathStrings chips.keccak256) ∨
    ∃ args, .validateClaimsRoot args ∈ entered ∧ (∃ chain, args.Checked agg env chain) ∧
      s ∈ proofStrings chips initialDepth (args.tree extract)}

/-- What a validation decodes is what a satisfied tree exposes: the claims root is the root over
the strings of the tree. -/
structure ValidateClaimsRoot.ExposedBy (chips : Chips) (initialDepth : ℕ)
    (agg : WorldcoinAggregationV2) (args : ValidateClaimsRoot) (tree : ProofTree (height + 1))
    (shared : SharedInstances) : Prop where
  spans : Spans chips initialDepth tree shared tree.numProofs.val
  decomposes : ∀ witness ∈ tree.leaves, witness.Decomposes
  vkHash_eq : shared.vkHash = HiLo.ofDigest agg.vkeyHash
  root_eq : shared.root = (args.root.toNat : Fr)
  numProofs_le : tree.numProofs.val ≤ args.numClaims.toNat
  claimsRoot_eq : args.claimsRoot = claimRootOf chips.keccak256 (initialDepth + height + 1)
    (WorldcoinAggregation.treeStrings initialDepth tree.numProofs.val tree)

/-- A validation that passes its checks decodes what the tree behind its proof exposes. -/
theorem ValidateClaimsRoot.Checked.exposedBy (h : validation.Checked agg env chain)
    (hextracts : Extracts (v2Circuits chips)
      (WorldcoinRootAggregationInputV2.virtualAssignPhase0 chips) initialDepth env extract)
    (hcanonical : (Call.validateClaimsRoot validation).Canonical agg env) :
    ∃ shared, validation.ExposedBy chips initialDepth agg (validation.tree extract) shared := by
  have hwords := hcanonical _ h
  obtain ⟨accumulator, out, haccumulator, hroot, hinstances⟩ := hextracts _ _ h.accepted
  obtain ⟨shared, hspans, hdecomposes, -, rfl⟩ := rootOutput_v2 _ hroot
  obtain ⟨witness, hwitness⟩ : ∃ witness, witness ∈ (validation.tree extract).leaves :=
    List.exists_mem_of_length_pos (by rw [ProofTree.length_leaves]; exact Nat.two_pow_pos _)
  have hinstance (i : ℕ) (hi : 12 ≤ i) : (publicInstances 18 validation.proof)[i]? =
      (rootInstances shared.vkHash shared.root (validation.tree extract).numProofs
        (claimRootOf chips.keccak256 (initialDepth + height + 1)
          (WorldcoinAggregation.treeStrings initialDepth (validation.tree extract).numProofs.val
            (validation.tree extract))))[i - 12]? := by
    rw [hinstances, List.getElem?_append_right (by rw [haccumulator]; exact hi), haccumulator]
    rfl
  have hword (i : ℕ) (x : Fr) (hi : i < 18) (hx : (publicInstances 18 validation.proof)[i]? =
      some x) (hmem : i ∈ [12, 13, 14, 16, 17]) : calldataload validation.proof (32 * i) = x.word :=
    calldataload_eq_word hi hx (hwords i hmem)
  have hvkHash := (hspans.fits witness hwitness).vkHash_eq
  refine ⟨shared, hspans, hdecomposes, ?_, ?_, ?_, ?_⟩
  -- the decoded key hash is the one that the leaves hash
  · have hdecoded : validation.vkeyHash = chips.keccak256 witness.vkWords.flatten := by
      have hhi := hword 12 _ (by omega) (hinstance 12 (by omega)) (by simp)
      have hlo := hword 13 _ (by omega) (hinstance 13 (by omega)) (by simp)
      rw [← hvkHash] at hhi hlo
      calc validation.vkeyHash = hiLoWord (calldataload validation.proof (32 * 12))
            (calldataload validation.proof (32 * 13)) := rfl
        _ = chips.keccak256 witness.vkWords.flatten := by
          rw [hhi, hlo, vkHashOf, hiLoWord_ofDigest]
    rw [← h.vkeyHash_eq, hdecoded, ← hvkHash, vkHashOf]
  · have hvalue := hinstance 14 (by omega)
    rw [publicInstances_getElem? (by omega)] at hvalue
    exact (Option.some.inj hvalue).symm
  · have hvalue := hinstance 15 (by omega)
    rw [publicInstances_getElem? (by omega)] at hvalue
    have hcount : ((calldataload validation.proof (32 * 15)).toNat : Fr) =
        (validation.tree extract).numProofs := Option.some.inj hvalue
    rw [← hcount, ZMod.val_natCast]
    exact Nat.mod_le _ _
  · have hhi := hword 16 _ (by omega) (hinstance 16 (by omega)) (by simp)
    have hlo := hword 17 _ (by omega) (hinstance 17 (by omega)) (by simp)
    calc validation.claimsRoot = hiLoWord (calldataload validation.proof (32 * 16))
          (calldataload validation.proof (32 * 17)) := rfl
      _ = _ := by rw [hhi, hlo, hiLoWord_ofDigest]

/-- A claim is at a slot within the number of claims of a validation, and its payment is proven. -/
structure Claim.ProvenUnder (chips : Chips) (initialDepth : ℕ) (agg : WorldcoinAggregationV2)
    (args : Claim) (payment : Payment Chain) (validation : ValidateClaimsRoot)
    (tree : ProofTree (height + 1)) : Prop where
  leafIndex_lt : args.leafIndex < validation.numClaims.toNat
  string_eq : (WorldcoinAggregation.treeStrings initialDepth tree.numProofs.val
    tree)[args.leafIndex]? = some args.triple.packed
  proven : payment.Proven chips agg.vkeyHash validation.root

/-- A claim that passes its checks under the claims root of a validation is one that the tree
behind the validation proves, unless the hash function collides. -/
theorem Claim.Checked.provenUnder {tree : ProofTree (height + 1)} {shared : SharedInstances}
    (h : args.Checked agg env storage payment)
    (hexposed : validation.ExposedBy chips initialDepth agg tree shared)
    (hdepth : agg.logMaxNumClaims.toNat = initialDepth + height + 1)
    (hclaimsRoot : args.claimsRoot chips.keccak256 = validation.claimsRoot)
    (hinj : ({s | s ∈ args.pathStrings chips.keccak256} ∪
      proofStrings chips initialDepth tree).InjOn chips.keccak256) :
    args.ProvenUnder chips initialDepth agg payment validation tree := by
  have hpath : args.path.length = initialDepth + height + 1 := by
    rw [args.length_path, h.length_eq, hdepth]
  have hleaf : ((WorldcoinAggregation.treeStrings initialDepth tree.numProofs.val tree).map
      chips.keccak256)[args.leafIndex]? = some (args.leaf chips.keccak256) := by
    refine Merkle.climb_binding (hashNodes chips.keccak256) (hashNodes_injOn hinj) ?_ ?_ ?_ ?_
    · rw [List.length_map, length_treeStrings fun witness hwitness =>
        (hexposed.spans.fits witness hwitness).maxDepth_eq, hpath, add_assoc]
    · intro pair hpair
      rw [hpath] at hpair
      exact .inr (.inr (.inr ⟨pair, hpair, rfl⟩))
    · intro pair hpair
      exact .inl (List.mem_cons_of_mem _ (List.mem_map_of_mem hpair))
    · rw [← Claim.claimsRoot_eq_climb, hclaimsRoot, hexposed.claimsRoot_eq, hpath]
      rfl
  rw [List.getElem?_map, Option.map_eq_some_iff] at hleaf
  obtain ⟨string, hstring, hhash⟩ := hleaf
  obtain rfl : string = args.triple.packed := by
    refine hinj (.inr (.inr (.inl (List.mem_of_getElem? hstring)))) (.inl List.mem_cons_self) ?_
    exact hhash
  have hreceiver : args.receiver.toNat ≠ 0 := fun hzero =>
    h.receiver_ne (BitVec.eq_of_toNat_eq hzero)
  obtain ⟨hlt, hproven⟩ := grantProven_of_treeStrings hexposed.spans hexposed.decomposes
    args.grantId.isLt args.receiver.isLt args.nullifierHash.isLt hreceiver hstring
  refine ⟨hlt.trans_le hexposed.numProofs_le, hstring, ?_⟩
  rw [hexposed.vkHash_eq, hexposed.root_eq] at hproven
  rw [Payment.Proven, h.grantId_eq, h.receiver_eq, h.nullifierHash_eq]
  exact hproven

/-- A payment of a run is for a claim of the run that passed its checks under a recorded claims
root, and every validation that recorded this root proves it. -/
theorem exists_provenUnder
    (hextracts : Extracts (v2Circuits chips)
      (WorldcoinRootAggregationInputV2.virtualAssignPhase0 chips) initialDepth env extract)
    (hkeccak : env.keccak256 = chips.keccak256)
    (hdepth : agg.logMaxNumClaims.toNat = initialDepth + height + 1)
    (hcanonical : ∀ call ∈ entered, call.Canonical agg env)
    (hinj : (claimStrings chips agg env initialDepth extract entered).InjOn chips.keccak256)
    (hrun : Run (agg.contract env address) ⟨deployed balances chain, []⟩ entered s)
    (hpayment : payment ∈ s.world.payments) :
    ∃ args, .claim args ∈ entered ∧ args.Checked agg env s.world.storage payment ∧
      ∃ accepted ∈ s.world.verified, args.root = accepted.1.root ∧
        args.claimsRoot env.keccak256 = accepted.1.claimsRoot ∧
        ∀ other ∈ s.world.verified,
          other.1.root = accepted.1.root → other.1.claimsRoot = accepted.1.claimsRoot →
            args.ProvenUnder chips initialDepth agg payment other.1 (other.1.tree extract) := by
  have haccounted := accounted_of_run hrun
  obtain ⟨args, hentered, hchecked⟩ := haccounted.backed payment hpayment
  obtain ⟨accepted, haccepted, hroot, hclaimsRoot⟩ :=
    (haccounted.recorded _ _).mp hchecked.recorded
  refine ⟨args, hentered, hchecked, accepted, haccepted, hroot, hclaimsRoot, ?_⟩
  intro other hother _ hclaimsRoot'
  obtain ⟨hentered', hchecked'⟩ := haccounted.verified other hother
  obtain ⟨shared, hexposed⟩ := hchecked'.exposedBy hextracts (hcanonical _ hentered')
  refine hchecked.provenUnder hexposed hdepth ?_ (hinj.mono ?_)
  · rw [← hkeccak, hclaimsRoot, hclaimsRoot']
  · rintro string (hstring | hstring)
    · exact .inl ⟨args, hentered, ⟨_, _, hchecked⟩, hstring⟩
    · exact .inr ⟨other.1, hentered', ⟨_, hchecked'⟩, hstring⟩

/-- A payment is made by a claim under the claims root of a validation: both passed their checks,
the claim is at a slot within the number of claims of the validation, and a Groth16 proof for its
grant was accepted under the World ID root of both. -/
structure PaidUnder (chips : Chips) (agg : WorldcoinAggregationV2) (env : Externals Chain)
    (storage : Storage) (args : Claim) (validation : ValidateClaimsRoot) (chain : Chain)
    (payment : Payment Chain) : Prop where
  checked : args.Checked agg env storage payment
  validated : validation.Checked agg env chain
  root_eq : args.root = validation.root
  claimsRoot_eq : args.claimsRoot env.keccak256 = validation.claimsRoot
  leafIndex_lt : args.leafIndex < validation.numClaims.toNat
  proven : payment.Proven chips agg.vkeyHash args.root

/-- Every payment in every run of the V2 contract from deployment is made by a claim of the run
under a SNARK that the run recorded, is within the number of claims of this SNARK, and is for a
grant whose Groth16 proof was accepted under the World ID root of the claim. -/
theorem v2_payments_proven
    (hextracts : Extracts (v2Circuits chips)
      (WorldcoinRootAggregationInputV2.virtualAssignPhase0 chips) initialDepth env extract)
    (hkeccak : env.keccak256 = chips.keccak256)
    (hdepth : agg.logMaxNumClaims.toNat = initialDepth + height + 1)
    (hcanonical : ∀ call ∈ entered, call.Canonical agg env)
    (hinj : (claimStrings chips agg env initialDepth extract entered).InjOn chips.keccak256)
    (hrun : Run (agg.contract env address) ⟨deployed balances chain, []⟩ entered s) :
    ∀ payment ∈ s.world.payments, ∃ args, .claim args ∈ entered ∧
      ∃ accepted ∈ s.world.verified, .validateClaimsRoot accepted.1 ∈ entered ∧
        PaidUnder chips agg env s.world.storage args accepted.1 accepted.2 payment := by
  intro payment hpayment
  obtain ⟨args, hentered, hchecked, accepted, haccepted, hroot, hclaimsRoot, hproven⟩ :=
    exists_provenUnder hextracts hkeccak hdepth hcanonical hinj hrun hpayment
  obtain ⟨hentered', hchecked'⟩ := (accounted_of_run hrun).verified accepted haccepted
  obtain ⟨hlt, -, hgrant⟩ := hproven accepted haccepted rfl rfl
  exact ⟨args, hentered, accepted, haccepted, hentered',
    hchecked, hchecked', hroot, hclaimsRoot, hlt, hroot ▸ hgrant⟩

/-- A string packs a claim for this nullifier hash. -/
def PacksNullifier (string : List UInt8) (nullifierHash : U256) : Prop :=
  ∃ triple : ClaimTriple, triple.packed = string ∧ triple.nullifierHash = nullifierHash

/-- A string packs one nullifier hash at most. -/
theorem packsNullifier_unique (string : List UInt8) (nullifierHash nullifierHash' : U256)
    (h : PacksNullifier string nullifierHash) (h' : PacksNullifier string nullifierHash') :
    nullifierHash = nullifierHash' := by
  obtain ⟨triple, rfl, rfl⟩ := h
  obtain ⟨triple', hpacked, rfl⟩ := h'
  rw [ClaimTriple.packed_injective hpacked]

/-- No more payments are made than the recorded SNARKs declare claims, where SNARKs for the same
claims root count once. -/
theorem length_payments_le
    (hextracts : Extracts (v2Circuits chips)
      (WorldcoinRootAggregationInputV2.virtualAssignPhase0 chips) initialDepth env extract)
    (hkeccak : env.keccak256 = chips.keccak256)
    (hdepth : agg.logMaxNumClaims.toNat = initialDepth + height + 1)
    (hcanonical : ∀ call ∈ entered, call.Canonical agg env)
    (hinj : (claimStrings chips agg env initialDepth extract entered).InjOn chips.keccak256)
    (hrun : Run (agg.contract env address) ⟨deployed balances chain, []⟩ entered s)
    {recorded : List (ValidateClaimsRoot × Chain)} (hrecorded : recorded ⊆ s.world.verified)
    (hcovers : ∀ accepted ∈ s.world.verified, ∃ other ∈ recorded,
      other.1.root = accepted.1.root ∧ other.1.claimsRoot = accepted.1.claimsRoot) :
    s.world.payments.length ≤ (recorded.map fun accepted => accepted.1.numClaims.toNat).sum := by
  -- the strings in front of the trees behind the recorded SNARKs
  obtain ⟨strings, hstrings⟩ : ∃ strings : List (List UInt8), strings = recorded.flatMap
      fun accepted => (WorldcoinAggregation.treeStrings initialDepth
        (accepted.1.tree extract).numProofs.val (accepted.1.tree extract)).take
          accepted.1.numClaims.toNat := ⟨_, rfl⟩
  have hstring : ∀ payment ∈ s.world.payments, ∃ triple : ClaimTriple,
      triple.nullifierHash = payment.nullifierHash ∧ triple.packed ∈ strings := by
    intro payment hpayment
    obtain ⟨args, -, hchecked, accepted, haccepted, -, -, hproven⟩ :=
      exists_provenUnder hextracts hkeccak hdepth hcanonical hinj hrun hpayment
    obtain ⟨other, hother, hroot, hclaimsRoot⟩ := hcovers accepted haccepted
    obtain ⟨hlt, hget, -⟩ := hproven other (hrecorded hother) hroot hclaimsRoot
    refine ⟨args.triple, hchecked.nullifierHash_eq.symm, ?_⟩
    have hfront : ((WorldcoinAggregation.treeStrings initialDepth
        (other.1.tree extract).numProofs.val (other.1.tree extract)).take
          other.1.numClaims.toNat)[args.leafIndex]? = some args.triple.packed := by
      rw [List.getElem?_take, if_pos hlt, hget]
    rw [hstrings]
    exact List.mem_flatMap_of_mem hother (List.mem_of_getElem? hfront)
  calc s.world.payments.length
      ≤ strings.length := ?_
    _ ≤ (recorded.map fun accepted => accepted.1.numClaims.toNat).sum := ?_
  · have hnodup : s.world.paid.Nodup := (accounted_of_run hrun).spent.nodup.of_append_left
    refine length_le_of_tells packsNullifier_unique hnodup fun payment hpayment => ?_
    obtain ⟨triple, hnullifier, hmem⟩ := hstring payment hpayment
    exact ⟨_, hmem, triple, rfl, hnullifier⟩
  · rw [hstrings, List.length_flatMap]
    refine List.sum_le_sum fun accepted _ => ?_
    rw [List.length_take]
    exact Nat.min_le_left _ _

/-! ### A proven claim -/

/-- A contract for two claims under the verifying key of the sole claim. -/
def soleContract : WorldcoinAggregationV2 :=
  { pairContract with vkeyHash := honestVkeyHash soleChips soleComponent soleVk }

/-- A sole leaf with honest words. -/
def soleWitness (start end_ : Fr) (tail : List (List UInt8)) : LeafWitness :=
  ⟨soleLeaf start end_, canonicalWords (List.replicate numFeHiloVkey 1) ++
    (solePieces (BigEndian.toBytes 32 5) ++ tail)⟩

/-- A sole leaf hashes the string of the sole claim. -/
theorem strings_soleWitness (start end_ : Fr) (tail : List (List UInt8)) :
    (soleWitness start end_ tail).strings = [packClaim 3 2 5] := by
  have hadvice : (soleWitness start end_ tail).advice =
      canonicalWords (List.replicate numFeHiloVkey 1) ++
        [solePieces (BigEndian.toBytes 32 5)].flatten ++ tail := by
    rw [soleWitness, List.flatten_singleton, List.append_assoc]
  have hkey : (canonicalWords (List.replicate numFeHiloVkey 1)).length = numFeHiloVkey := by
    rw [canonicalWords, List.length_map, List.length_replicate]
  have hslots : (soleWitness start end_ tail).slots = [solePieces (BigEndian.toBytes 32 5)] :=
    LeafWitness.slots_eq hadvice hkey (by simp [solePieces]) rfl
  have hpieces : (solePieces (BigEndian.toBytes 32 5)).flatten = packClaim 3 2 5 := by decide
  rw [LeafWitness.strings, hslots, List.map_singleton, hpieces]

/-- The strings of a tree of two sole leaves. -/
theorem exists_soleTree : ∃ tree : ProofTree 1,
    tree.rootOutput (v2Circuits soleChips)
        (WorldcoinRootAggregationInputV2.virtualAssignPhase0 soleChips) 0 =
      some (rootInstances soleVkHash 7 2 (claimRootOf soleChips.keccak256 1
        [packClaim 3 2 5, packClaim 3 2 5])) ∧
    WorldcoinAggregation.treeStrings 0 tree.numProofs.val tree =
      [packClaim 3 2 5, packClaim 3 2 5] := by
  have hhonest : BytesOf 32 5 (BigEndian.toBytes 32 5) := by decide
  obtain ⟨tails, advice, hroot⟩ := exists_sole_rootOutput_v2 hhonest hhonest
  refine ⟨.node (.leaf (soleWitness 0 1 tails.1)) (.leaf (soleWitness 1 2 tails.2)) 2 advice,
    ?_, ?_⟩
  · have hpieces : (solePieces (BigEndian.toBytes 32 5)).flatten = packClaim 3 2 5 := by decide
    rw [hpieces] at hroot
    exact hroot
  · have hcovered : coveredLeaves 0 (2 : Fr).val
        [soleWitness 0 1 tails.1, soleWitness 1 2 tails.2] =
          [soleWitness 0 1 tails.1, soleWitness 1 2 tails.2] := rfl
    have hstrings : [soleWitness 0 1 tails.1, soleWitness 1 2 tails.2].flatMap
        LeafWitness.strings = [packClaim 3 2 5, packClaim 3 2 5] := by
      rw [List.flatMap_cons, List.flatMap_singleton, strings_soleWitness, strings_soleWitness]
      rfl
    calc WorldcoinAggregation.treeStrings 0 (2 : Fr).val
          (.node (.leaf (soleWitness 0 1 tails.1)) (.leaf (soleWitness 1 2 tails.2)) 2 advice)
        = padStrings 2 ((coveredLeaves 0 (2 : Fr).val
            [soleWitness 0 1 tails.1, soleWitness 1 2 tails.2]).flatMap LeafWitness.strings) := rfl
      _ = [packClaim 3 2 5, packClaim 3 2 5] := by
          rw [hcovered, hstrings]
          rfl

/-- The root over two equal claims. -/
def soleClaimRoot : U256 :=
  claimRootOf Keccak.keccak256 1 [packClaim 3 2 5, packClaim 3 2 5]

/-- What the root over two sole leaves exposes, behind a zero accumulator. -/
def soleInstances : List Fr :=
  List.replicate 12 0 ++ rootInstances (HiLo.ofDigest soleContract.vkeyHash) ((7 : ℕ) : Fr)
    ((2 : ℕ) : Fr) soleClaimRoot

/-- Views that accept, and a verifier that accepts one SNARK only. -/
def provenExternals : Externals Unit :=
  { pairExternals with
    snarkAccepts := fun instances rest => instances = soleInstances ∧ rest = [] }

/-- The call for the root over two sole leaves. -/
def soleValidation : ValidateClaimsRoot :=
  fulfill (encodeCalldata soleInstances []) 5

/-- The call for the first of the two claims. -/
def soleCall : Claim where
  grantId := 3
  root := 7
  receiver := 2
  nullifierHash := 5
  sisterNodes := [Keccak.keccak256 (packClaim 3 2 5)]
  isLeftBytes := 0

/-- The contract decodes the root over the two leaves, and the verifier accepts the proof. -/
theorem carries_soleValidation :
    soleValidation.Carries soleContract.vkeyHash 7 2 soleClaimRoot ∧
      provenExternals.verifies 18 soleValidation.proof = true := by
  obtain ⟨hcarries, hverifies⟩ := ValidateClaimsRoot.carries_fulfill
    (rfl : (List.replicate 12 (0 : Fr)).length = numFeAccumulator) provenExternals
    soleContract.vkeyHash ((7 : ℕ) : Fr) ((2 : ℕ) : Fr) soleClaimRoot [] 5
  refine ⟨hcarries, hverifies.trans ?_⟩
  simp only [provenExternals, soleInstances, and_self, decide_true]

/-- The call for the root passes its checks. -/
theorem checked_soleValidation : soleValidation.Checked soleContract provenExternals () := by
  obtain ⟨hcarries, hverifies⟩ := carries_soleValidation
  exact hcarries.checked (.inl rfl) rfl (by decide) hverifies

/-- The run that validates the root and pays the first claim under it. -/
theorem exists_run_soleCall : ∃ world,
    Run (soleContract.contract provenExternals 9) ⟨deployed (fun _ => 10) (), []⟩
        [.validateClaimsRoot soleValidation, .claim soleCall] ⟨world, []⟩ ∧
      world.payments = [⟨3, 2, 5, 10, ()⟩] := by
  have hyields := (soleContract.contract provenExternals 9).yields_nil
  have hchecked : soleValidation.Checked soleContract provenExternals
      (deployed (fun _ => 10) () : World Unit).chain := checked_soleValidation
  have hvalidated := (completes_validateClaimsRoot 9 hchecked).call hyields
  obtain ⟨hcarries, -⟩ := carries_soleValidation
  rw [hcarries.root_eq, hcarries.claimsRoot_eq] at hvalidated
  obtain ⟨validated, hworld⟩ : ∃ validated : World Unit, validated =
      { deployed (fun _ => 10) () with
        storage := (deployed (fun _ => 10) () : World Unit).storage.record 7 soleClaimRoot
        verified := [(soleValidation, ())] } := ⟨_, rfl⟩
  have hrecorded : validated.storage.validClaimsRoots soleCall.root soleClaimRoot = true := by
    rw [hworld]
    exact Storage.record_eq_true.mpr (.inl ⟨rfl, rfl⟩)
  have hchecked : soleCall.Checked soleContract provenExternals validated.storage
      ⟨3, 2, 5, 10, ()⟩ :=
    ⟨rfl, rfl, rfl, by decide, rfl, rfl, rfl, hrecorded⟩
  obtain ⟨world, hcompletes, -, hpayments⟩ := exists_completes_claim 9 (standardToken_ledger rfl)
    (by rw [hworld]; rfl) hchecked (by rw [hworld]) (by rw [hworld]; exact Nat.le_refl 10)
  rw [hworld] at hcompletes hpayments
  exact ⟨world, hvalidated.trans (hcompletes.call hyields), hpayments⟩

/-- The strings hashed for the claim and for the tree behind the validation. -/
theorem claimStrings_soleCall {tree : ProofTree 1} (hstrings : WorldcoinAggregation.treeStrings 0
      tree.numProofs.val tree = [packClaim 3 2 5, packClaim 3 2 5]) :
    claimStrings soleChips soleContract provenExternals 0 (fun _ _ => tree)
        [.validateClaimsRoot soleValidation, .claim soleCall] ⊆
      {s | s ∈ [packClaim 3 2 5, packNodes (Keccak.keccak256 (packClaim 3 2 5))
        (Keccak.keccak256 (packClaim 3 2 5))]} := by
  rintro s (⟨args, hargs, -, hs⟩ | ⟨args, -, -, hs⟩)
  · obtain rfl : args = soleCall := by simpa using hargs
    exact hs
  · rw [ValidateClaimsRoot.tree, proofStrings, hstrings] at hs
    rcases hs with hs | hs | ⟨pair, hpair, rfl⟩
    · cases hs
    · exact List.mem_cons.mpr (.inl (by simpa using hs))
    · have hpair' : pair ∈ [(Keccak.keccak256 (packClaim 3 2 5),
          Keccak.keccak256 (packClaim 3 2 5))] := hpair
      rw [List.mem_singleton.mp hpair']
      exact List.mem_cons_of_mem _ List.mem_cons_self

/-- Keccak-256 does not collide on these strings. -/
theorem injOn_soleCall {tree : ProofTree 1} (hstrings : WorldcoinAggregation.treeStrings 0
      tree.numProofs.val tree = [packClaim 3 2 5, packClaim 3 2 5]) :
    (claimStrings soleChips soleContract provenExternals 0 (fun _ _ => tree)
      [.validateClaimsRoot soleValidation, .claim soleCall]).InjOn soleChips.keccak256 := by
  have hnodup : ([packClaim 3 2 5, packNodes (Keccak.keccak256 (packClaim 3 2 5))
      (Keccak.keccak256 (packClaim 3 2 5))].map Keccak.keccak256).Nodup := by
    decide +kernel
  exact fun s hs t ht heq => List.inj_on_of_nodup_map hnodup (claimStrings_soleCall hstrings hs)
    (claimStrings_soleCall hstrings ht) heq

/-- The call for the root is canonical. -/
theorem canonical_soleCall : ∀ call ∈ [Call.validateClaimsRoot soleValidation, .claim soleCall],
    call.Canonical soleContract provenExternals := by
  intro call hcall
  rcases List.mem_pair.mp hcall with rfl | rfl
  · intro _ _ i hi
    refine calldataload_encodeCalldata_lt ?_
    have heighteen : soleInstances.length = 18 := rfl
    simp only [List.mem_cons, List.not_mem_nil, or_false] at hi
    omega
  · trivial

/-- Behind the only SNARK that the verifier accepts there is the tree of two sole leaves. -/
theorem exists_extracts_soleTree : ∃ tree : ProofTree 1,
    Extracts (v2Circuits soleChips)
        (WorldcoinRootAggregationInputV2.virtualAssignPhase0 soleChips) 0 provenExternals
        (fun _ _ => tree) ∧
      (claimStrings soleChips soleContract provenExternals 0 (fun _ _ => tree)
        [.validateClaimsRoot soleValidation, .claim soleCall]).InjOn soleChips.keccak256 := by
  obtain ⟨tree, hroot, hstrings⟩ := exists_soleTree
  refine ⟨tree, fun instances rest haccepted => ?_, injOn_soleCall hstrings⟩
  obtain ⟨rfl, -⟩ := of_decide_eq_true haccepted
  exact ⟨List.replicate 12 0, _, rfl, hroot, rfl⟩

/-- The payment for the first of two sole claims is for a proven grant. -/
theorem v2_payments_proven_sole : ∃ entered s,
    Run (soleContract.contract provenExternals 9) ⟨deployed (fun _ => 10) (), []⟩ entered s ∧
      s.world.payments.length = 1 ∧
      ∀ payment ∈ s.world.payments, ∃ args, .claim args ∈ entered ∧
        ∃ accepted ∈ s.world.verified, .validateClaimsRoot accepted.1 ∈ entered ∧
          PaidUnder soleChips soleContract provenExternals s.world.storage args accepted.1
            accepted.2 payment := by
  obtain ⟨world, hrun, hpayments⟩ := exists_run_soleCall
  obtain ⟨tree, hextracts, hinj⟩ := exists_extracts_soleTree
  have hkeccak : provenExternals.keccak256 = soleChips.keccak256 := rfl
  exact ⟨_, ⟨world, []⟩, hrun, by rw [hpayments]; rfl,
    v2_payments_proven hextracts hkeccak rfl canonical_soleCall hinj hrun⟩

/-- The only recorded SNARK declares two claims, and one of them is paid. -/
theorem length_payments_le_sole : ∃ entered s,
    Run (soleContract.contract provenExternals 9) ⟨deployed (fun _ => 10) (), []⟩ entered s ∧
      s.world.payments.length = 1 ∧ ∃ recorded ⊆ s.world.verified,
        s.world.payments.length ≤
            (recorded.map fun accepted => accepted.1.numClaims.toNat).sum ∧
          (recorded.map fun accepted => accepted.1.numClaims.toNat).sum = 2 := by
  obtain ⟨world, hrun, hpayments⟩ := exists_run_soleCall
  obtain ⟨tree, hextracts, hinj⟩ := exists_extracts_soleTree
  have hkeccak : provenExternals.keccak256 = soleChips.keccak256 := rfl
  have hverified : ∀ accepted ∈ world.verified, accepted.1 = soleValidation := by
    intro accepted haccepted
    have hentered := ((accounted_of_run hrun).verified accepted haccepted).1
    simpa using hentered
  obtain ⟨args, -, hchecked⟩ := (accounted_of_run hrun).backed ⟨3, 2, 5, 10, ()⟩
    (hpayments ▸ List.mem_cons_self)
  obtain ⟨accepted, haccepted, -⟩ :=
    ((accounted_of_run hrun).recorded _ _).mp hchecked.recorded
  have hsubset : [accepted] ⊆ world.verified := List.cons_subset.mpr ⟨haccepted, List.nil_subset _⟩
  have hcovers : ∀ other ∈ world.verified, ∃ first ∈ [accepted],
      first.1.root = other.1.root ∧ first.1.claimsRoot = other.1.claimsRoot := by
    intro other hother
    refine ⟨accepted, List.mem_cons_self, ?_, ?_⟩
    · rw [hverified accepted haccepted, hverified other hother]
    · rw [hverified accepted haccepted, hverified other hother]
  have hcount : ([accepted].map fun accepted => accepted.1.numClaims.toNat).sum = 2 := by
    rw [List.map_singleton, List.sum_singleton, hverified accepted haccepted,
      carries_soleValidation.1.numClaims_eq]
    rfl
  exact ⟨_, ⟨world, []⟩, hrun, by rw [hpayments]; rfl, [accepted], hsubset,
    length_payments_le hextracts hkeccak rfl canonical_soleCall hinj hrun hsubset hcovers, hcount⟩

end WorldcoinAggregationV2

end WorldcoinAggregation
