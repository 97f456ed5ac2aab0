import WorldcoinAggregation.Base.Keccak
import WorldcoinAggregation.Base.Merkle
import WorldcoinAggregation.Circuit.ProofTree
import WorldcoinAggregation.Contract.V2.Model

/-!
# Claims are bound to the tree

The loop of `claim` climbs a Merkle tree: byte `i` of the word of flags is the side of sister node
`i`, and the number of sister nodes is the height of the tree. Under a root over a list of claims
only these claims can be made (`claim_binding`).
-/

namespace WorldcoinAggregation

open CallStack

namespace WorldcoinAggregationV2

/-- What a leaf of the tree of claims says. -/
structure ClaimTriple where
  grantId : U256
  receiver : Address
  nullifierHash : U256
deriving DecidableEq

namespace ClaimTriple

/-- The packed bytes of a leaf. -/
def packed (triple : ClaimTriple) : List UInt8 :=
  packClaim triple.grantId.toNat triple.receiver.toNat triple.nullifierHash.toNat

/-- The nodes of a tree of claims at the level of the leaves. -/
def leaves (keccak256 : List UInt8 → U256) (triples : List ClaimTriple) : List U256 :=
  triples.map fun triple => keccak256 triple.packed

/-- A leaf is determined by its packed bytes. -/
theorem packed_injective {a b : ClaimTriple} (h : a.packed = b.packed) : a = b := by
  obtain ⟨hgrant, hreceiver, hnullifier⟩ := packClaim_injective a.grantId.isLt b.grantId.isLt
    a.receiver.isLt b.receiver.isLt a.nullifierHash.isLt b.nullifierHash.isLt h
  cases a with
  | mk grantId receiver nullifierHash =>
      rw [ClaimTriple.mk.injEq]
      exact ⟨BitVec.eq_of_toNat_eq hgrant, BitVec.eq_of_toNat_eq hreceiver,
        BitVec.eq_of_toNat_eq hnullifier⟩

end ClaimTriple

/-- The root over a list of claims. -/
def merkleRoot (keccak256 : List UInt8 → U256) (height : ℕ) (triples : List ClaimTriple) : U256 :=
  Merkle.root (hashNodes keccak256) height (ClaimTriple.leaves keccak256 triples)

/-- The strings hashed for the tree over a list of claims. -/
def treeStrings (keccak256 : List UInt8 → U256) (height : ℕ) (triples : List ClaimTriple) :
    List (List UInt8) :=
  triples.map ClaimTriple.packed ++
    (Merkle.queries (hashNodes keccak256) height (ClaimTriple.leaves keccak256 triples)).map
      fun pair => packNodes pair.1 pair.2

namespace Claim

/-- The leaf that a call claims. -/
def triple (args : Claim) : ClaimTriple :=
  ⟨args.grantId, args.receiver, args.nullifierHash⟩

/-- The sides and sister nodes from index `i` on. -/
def pathFrom (isLeftBytes : U256) (i : ℕ) (sisterNodes : List U256) : List (Bool × U256) :=
  (sisterNodes.zipIdx i).map fun p => (toBool (unsafeByteAccess isLeftBytes p.2), p.1)

/-- The path of a call. -/
def path (args : Claim) : List (Bool × U256) :=
  pathFrom args.isLeftBytes 0 args.sisterNodes

/-- The index of the leaf that the flags name. -/
def leafIndex (args : Claim) : ℕ :=
  Merkle.pathIndex args.path

/-- The strings hashed for a call. -/
def pathStrings (keccak256 : List UInt8 → U256) (args : Claim) : List (List UInt8) :=
  args.triple.packed ::
    (Merkle.climbQueries (hashNodes keccak256) (args.leaf keccak256) args.path).map
      fun pair => packNodes pair.1 pair.2

/-- The path has one step for each sister node. -/
@[simp] theorem length_path (args : Claim) : args.path.length = args.sisterNodes.length := by
  simp [path, pathFrom]

/-- Bit `i` of the index is set exactly when byte `i` of the flags is not zero. -/
theorem testBit_leafIndex {args : Claim} {i : ℕ} (h : i < args.sisterNodes.length) :
    args.leafIndex.testBit i = toBool (unsafeByteAccess args.isLeftBytes i) := by
  rw [leafIndex, Merkle.testBit_pathIndex, List.getD_eq_getElem?_getD]
  simp [path, pathFrom, h]

end Claim

/-- The loop of `claim` climbs the path. -/
theorem runningHash_eq_climb (keccak256 : List UInt8 → U256) (isLeftBytes : U256) (i : ℕ)
    (hash : U256) (sisterNodes : List U256) :
    runningHash keccak256 isLeftBytes i hash sisterNodes =
      Merkle.climb (hashNodes keccak256) hash (Claim.pathFrom isLeftBytes i sisterNodes) := by
  induction sisterNodes generalizing i hash with
  | nil => rfl
  | cons node sisterNodes ih =>
      rw [runningHash, ih]
      rfl

/-- The claims root of a call is where its path leads. -/
theorem Claim.claimsRoot_eq_climb (keccak256 : List UInt8 → U256) (args : Claim) :
    args.claimsRoot keccak256 =
      Merkle.climb (hashNodes keccak256) (args.leaf keccak256) args.path :=
  runningHash_eq_climb keccak256 args.isLeftBytes 0 (args.leaf keccak256) args.sisterNodes

/-- A call claims a leaf of a tree: the one that its flags name, with a path from the leaves, for a
receiver who can be paid. -/
structure Claim.Binds (args : Claim) (keccak256 : List UInt8 → U256) (height : ℕ)
    (triples : List ClaimTriple) : Prop where
  leaf_eq : triples[args.leafIndex]? = some args.triple
  testBit_eq : ∀ i < height,
    args.leafIndex.testBit i = toBool (unsafeByteAccess args.isLeftBytes i)
  length_eq : args.sisterNodes.length = height
  not_inner : ∀ pair ∈ Merkle.queries (hashNodes keccak256) height
    (ClaimTriple.leaves keccak256 triples), args.leaf keccak256 ≠ hashNodes keccak256 pair.1 pair.2
  not_padding : args.triple ≠ ⟨0, 0, 0⟩

variable {keccak256 : List UInt8 → U256} {height : ℕ} {triples : List ClaimTriple} {args : Claim}

/-- A path of the right length to the root over a list of claims starts at a leaf. -/
theorem Claim.binds (hlength : triples.length = 2 ^ height)
    (hinj : {s | s ∈ treeStrings keccak256 height triples ++ args.pathStrings keccak256}.InjOn
      keccak256)
    (hheight : args.sisterNodes.length = height) (hreceiver : args.receiver ≠ 0)
    (hroot : args.claimsRoot keccak256 = merkleRoot keccak256 height triples) :
    args.Binds keccak256 height triples := by
  have hpath : args.path.length = height := args.length_path.trans hheight
  have htree {s : List UInt8} (h : s ∈ treeStrings keccak256 height triples) :
      s ∈ treeStrings keccak256 height triples ++ args.pathStrings keccak256 :=
    List.mem_append_left _ h
  have hclaimed {s : List UInt8} (h : s ∈ args.pathStrings keccak256) :
      s ∈ treeStrings keccak256 height triples ++ args.pathStrings keccak256 :=
    List.mem_append_right _ h
  have hleaf : (ClaimTriple.leaves keccak256 triples)[args.leafIndex]? =
      some (args.leaf keccak256) := by
    refine Merkle.climb_binding (hashNodes keccak256) (hashNodes_injOn hinj) ?_ ?_ ?_ ?_
    · rw [ClaimTriple.leaves, List.length_map, hlength, hpath]
    · intro pair hpair
      rw [hpath] at hpair
      exact htree (List.mem_append_right _ (List.mem_map_of_mem hpair))
    · intro pair hpair
      exact hclaimed (List.mem_cons_of_mem _ (List.mem_map_of_mem hpair))
    · rw [← Claim.claimsRoot_eq_climb, hroot, hpath, merkleRoot]
  refine ⟨?_, fun i hi => Claim.testBit_leafIndex (hheight ▸ hi), hheight, ?_, ?_⟩
  -- the leaf at the index has the hash of the claimed leaf
  · rw [ClaimTriple.leaves, List.getElem?_map, Option.map_eq_some_iff] at hleaf
    obtain ⟨triple, hget, heq⟩ := hleaf
    have hmem : triple.packed ∈ treeStrings keccak256 height triples :=
      List.mem_append_left _ (List.mem_map_of_mem (List.mem_of_getElem? hget))
    rw [hget, ClaimTriple.packed_injective
      (hinj (htree hmem) (hclaimed List.mem_cons_self) heq)]
  · -- a leaf string has 84 bytes, the string of an inner node 64
    intro pair hpair heq
    have hmem : packNodes pair.1 pair.2 ∈ treeStrings keccak256 height triples :=
      List.mem_append_right _ (List.mem_map_of_mem hpair)
    have hstring := congrArg List.length (hinj (hclaimed List.mem_cons_self) (htree hmem) heq)
    simp [ClaimTriple.packed] at hstring
  · intro hzero
    exact hreceiver (congrArg ClaimTriple.receiver hzero)

/-! ## Calls that succeed -/

variable {Chain : Type} {agg : WorldcoinAggregationV2} {env : Externals Chain} {address : Address}

/-- A frame that has not advanced. -/
def Frame.Fresh (frame : Frame Chain) : Prop :=
  ∃ call, frame = .started call

/-- The checks of a claim, which stand once the claim has advanced. -/
def Frame.ClaimChecked (agg : WorldcoinAggregationV2) (env : Externals Chain)
    (entry : World Chain) : Frame Chain → Prop
  | .transferring args payment _ => args.Checked agg env entry.storage payment
  | .finished (.claim args) => ∃ payment, args.Checked agg env entry.storage payment
  | _ => True

/-- The checks of a claim are those on the world that the call began in. -/
theorem preserves_claimChecked {admits : Call → Prop} :
    Preserves (agg.contract env address) admits
      (Established (agg.contract env address) Frame.Fresh (Frame.ClaimChecked agg env)) := by
  refine preserves_established (fun call => ⟨call, rfl⟩) ?_ ?_ ?_ ?_
  · rintro _ ⟨call, rfl⟩
    rfl
  · rintro world _ world' frame' ⟨call, rfl⟩ hstep
    rcases advance_cases hstep with ⟨args, payment, -, rfl, -, hchecked, -⟩ |
      ⟨args, -, rfl, -, -⟩ | ⟨args, payment, ok, balances, heq, -⟩ | ⟨args, payment, heq, -⟩
    · exact hchecked
    · trivial
    · cases heq
    · cases heq
  · intro entry world frame world' frame' hfresh hproperty hstep
    rcases advance_cases hstep with ⟨args, payment, rfl, -⟩ | ⟨args, rfl, -⟩ |
      ⟨args, payment, ok, balances, rfl, rfl, -⟩ | ⟨args, payment, rfl, rfl, -⟩
    · exact absurd ⟨_, rfl⟩ hfresh
    · exact absurd ⟨_, rfl⟩ hfresh
    · exact hproperty
    · exact ⟨payment, hproperty⟩
  · rintro world frame world' frame' hstep ⟨call, rfl⟩
    rcases advance_cases hstep with ⟨args, payment, -, heq, -⟩ | ⟨args, -, heq, -⟩ |
      ⟨args, payment, ok, balances, -, heq, -⟩ | ⟨args, payment, -, heq, -⟩ <;> cases heq

/-- A claim that has succeeded has passed its checks on the world that the call began in. -/
theorem checked_of_finished {first world entry : World Chain} {calls : List Call} {args : Claim}
    {stack : List (Activation (World Chain) (Frame Chain))}
    (hrun : Run (agg.contract env address) ⟨first, []⟩ calls
      ⟨world, .own ⟨entry, .finished (.claim args)⟩ :: stack⟩) :
    ∃ payment, args.Checked agg env entry.storage payment := by
  have hinv := hrun.invariant preserves_claimChecked (fun _ _ => trivial)
    ⟨by simp, by simp, by simp⟩
  rcases hinv.property _ List.mem_cons_self with ⟨call, hfresh⟩ | hchecked
  · cases hfresh
  · exact hchecked

/-- Claims are bound to the tree. Let a call of `claim`, with any sister nodes and any flags, begin
in a world where the root over a list of claims is the only recorded claims root under its World ID
root, and let the hash function not collide on the strings hashed for the tree and for the call. If
the call succeeds, it claims the leaf that its flags name. -/
theorem claim_binding {agg : WorldcoinAggregationV2} {env : Externals Chain} {address : Address}
    {first world entry : World Chain} {calls : List Call} {args : Claim}
    {stack : List (Activation (World Chain) (Frame Chain))} {triples : List ClaimTriple}
    (hlength : triples.length = 2 ^ agg.logMaxNumClaims.toNat)
    (hinj : {s | s ∈ treeStrings env.keccak256 agg.logMaxNumClaims.toNat triples ++
      args.pathStrings env.keccak256}.InjOn env.keccak256)
    (hrun : Run (agg.contract env address) ⟨first, []⟩ calls
      ⟨world, .own ⟨entry, .finished (.claim args)⟩ :: stack⟩)
    (honly : ∀ claimsRoot, entry.storage.validClaimsRoots args.root claimsRoot = true →
      claimsRoot = merkleRoot env.keccak256 agg.logMaxNumClaims.toNat triples) :
    args.Binds env.keccak256 agg.logMaxNumClaims.toNat triples := by
  obtain ⟨payment, hchecked⟩ := checked_of_finished hrun
  exact Claim.binds hlength hinj hchecked.length_eq hchecked.receiver_ne
    (honly _ hchecked.recorded)

/-! ### A concrete claim

A tree over two claims, the SNARK for its root, and the call for the second claim. -/

/-- Two claims. -/
def pairTriples : List ClaimTriple :=
  [⟨3, 2, 5⟩, ⟨3, 4, 6⟩]

/-- The root over the two claims. -/
def pairRoot : U256 :=
  merkleRoot Keccak.keccak256 1 pairTriples

/-- The call for the second claim: the byte for its only sister node is not zero. -/
def pairClaim : Claim where
  grantId := 3
  root := 7
  receiver := 4
  nullifierHash := 6
  sisterNodes := [Keccak.keccak256 (packClaim 3 2 5)]
  isLeftBytes := 0x02 <<< 248

/-- A contract for two claims. -/
def pairContract : WorldcoinAggregationV2 where
  vkeyHash := 1
  logMaxNumClaims := 1
  prover := 0
  logMaxNumClaims_le := by decide

/-- The public instances of the SNARK for the two claims. -/
def pairInstances : List Fr :=
  List.replicate 12 0 ++ [0, 1, ((7 : ℕ) : Fr), ((2 : ℕ) : Fr)] ++ (HiLo.ofDigest pairRoot).hiLo

/-- Views that accept, a grant of ten, and a verifier that accepts one SNARK only. -/
def pairExternals : Externals Unit where
  keccak256 := Keccak.keccak256
  snarkAccepts instances rest := instances = pairInstances ∧ rest = []
  requireValidRoot _ _ := true
  checkValidity _ _ := true
  getAmount _ _ := some 10
  transfer := ledgerTransfer

/-- The call for the root over the two claims. -/
def pairValidation : ValidateClaimsRoot where
  sender := 5
  proof := encodeWords (pairInstances.map Fr.word) []

/-- The contract decodes the World ID root. -/
theorem root_pairValidation : pairValidation.root = 7 :=
  unsafeCalldataBytesAccess_encodeWords rfl

/-- The contract decodes the root over the two claims. -/
theorem claimsRoot_pairValidation : pairValidation.claimsRoot = pairRoot := by
  have hhi : unsafeCalldataBytesAccess pairValidation.proof (16 * 32) =
      (HiLo.ofDigest pairRoot).hi.word := unsafeCalldataBytesAccess_encodeWords rfl
  have hlo : unsafeCalldataBytesAccess pairValidation.proof (17 * 32) =
      (HiLo.ofDigest pairRoot).lo.word := unsafeCalldataBytesAccess_encodeWords rfl
  rw [ValidateClaimsRoot.claimsRoot, ValidateClaimsRoot.claimsRootHiOffset,
    ValidateClaimsRoot.claimsRootLoOffset, hhi, hlo, hiLoWord_ofDigest]

/-- The call for the root passes its checks. -/
theorem checked_pairValidation : pairValidation.Checked pairContract pairExternals () where
  authorised := .inl rfl
  length_le := by
    rw [pairValidation, length_encodeWords]
    rfl
  vkeyHash_eq := by
    have hhi : unsafeCalldataBytesAccess pairValidation.proof (12 * 32) = 0 :=
      unsafeCalldataBytesAccess_encodeWords rfl
    have hlo : unsafeCalldataBytesAccess pairValidation.proof (13 * 32) = 1 :=
      unsafeCalldataBytesAccess_encodeWords rfl
    rw [ValidateClaimsRoot.vkeyHash, ValidateClaimsRoot.vkeyHashHiOffset,
      ValidateClaimsRoot.vkeyHashLoOffset, hhi, hlo]
    rfl
  root_valid := rfl
  numClaims_le := by
    have hcount : pairValidation.numClaims = 2 := unsafeCalldataBytesAccess_encodeWords rfl
    rw [hcount]
    decide
  accepted := by
    have hinstances : publicInstances 18 pairValidation.proof = pairInstances :=
      publicInstances_word pairInstances []
    have hrest : pairValidation.proof.drop (32 * 18) = [] :=
      drop_encodeWords (pairInstances.map Fr.word) []
    rw [Externals.verifies, hinstances, hrest]
    simp only [pairExternals, and_self, decide_true]

/-- The world after the call for the root. -/
def pairWorld : World Unit :=
  { deployed (fun _ => 10) () with
    storage := (⟨fun _ => false, fun _ _ => false⟩ : Storage).record pairValidation.root
      pairValidation.claimsRoot
    verified := [(pairValidation, ())] }

/-- The run to this world. -/
theorem run_pairValidation (address : Address) :
    Run (pairContract.contract pairExternals address) ⟨deployed (fun _ => 10) (), []⟩
      [.validateClaimsRoot pairValidation] ⟨pairWorld, []⟩ :=
  (completes_validateClaimsRoot address checked_pairValidation).call (Contract.yields_nil _)

/-- The only recorded root is the one over the two claims. -/
theorem recorded_pairWorld {claimsRoot : U256} :
    pairWorld.storage.validClaimsRoots 7 claimsRoot = true ↔ claimsRoot = pairRoot := by
  rw [pairWorld, Storage.record_eq_true, root_pairValidation, claimsRoot_pairValidation]
  simp

/-- The call for the second claim passes its checks. -/
theorem checked_pairClaim : pairClaim.Checked pairContract pairExternals pairWorld.storage
    ⟨3, 4, 6, 10, ()⟩ where
  grantId_eq := rfl
  receiver_eq := rfl
  nullifierHash_eq := rfl
  receiver_ne := by decide
  valid := rfl
  amount_eq := rfl
  length_eq := rfl
  recorded := recorded_pairWorld.mpr (by decide +kernel)

/-- The strings hashed for the tree and the call. -/
theorem strings_pairClaim :
    treeStrings Keccak.keccak256 1 pairTriples ++ pairClaim.pathStrings Keccak.keccak256 =
      let first := packClaim 3 2 5
      let second := packClaim 3 4 6
      let inner := packNodes (Keccak.keccak256 first) (Keccak.keccak256 second)
      [first, second, inner, second, inner] := by
  rfl

/-- Keccak-256 does not collide on these strings. -/
theorem injOn_pairClaim :
    {s | s ∈ treeStrings pairExternals.keccak256 pairContract.logMaxNumClaims.toNat pairTriples ++
      pairClaim.pathStrings pairExternals.keccak256}.InjOn pairExternals.keccak256 := by
  have hmem (a b c s : List UInt8) (h : s ∈ [a, b, c, b, c]) : s ∈ [a, b, c] := by
    simp only [List.mem_cons, List.not_mem_nil, or_false] at h ⊢
    tauto
  have hnodup : ([packClaim 3 2 5, packClaim 3 4 6, packNodes (Keccak.keccak256 (packClaim 3 2 5))
      (Keccak.keccak256 (packClaim 3 4 6))].map Keccak.keccak256).Nodup := by
    decide +kernel
  have hstrings : {s | s ∈ treeStrings pairExternals.keccak256
      pairContract.logMaxNumClaims.toNat pairTriples ++
      pairClaim.pathStrings pairExternals.keccak256} = {s | s ∈ treeStrings Keccak.keccak256 1
        pairTriples ++ pairClaim.pathStrings Keccak.keccak256} := rfl
  rw [hstrings, strings_pairClaim]
  exact fun s hs t ht heq => List.inj_on_of_nodup_map hnodup (hmem _ _ _ s hs) (hmem _ _ _ t ht) heq

/-- The call for the second claim is bound to it. -/
theorem claim_binding_pair :
    pairClaim.Binds pairExternals.keccak256 pairContract.logMaxNumClaims.toNat pairTriples := by
  have hyields := (pairContract.contract pairExternals 9).yields_nil
  obtain ⟨world, hrun, -⟩ := exists_run_claim (standardToken_ledger rfl) hyields rfl
    checked_pairClaim rfl (by decide)
  have hlength : pairTriples.length = 2 ^ pairContract.logMaxNumClaims.toNat := rfl
  exact claim_binding hlength injOn_pairClaim hrun fun _ => recorded_pairWorld.mp

end WorldcoinAggregationV2

end WorldcoinAggregation
