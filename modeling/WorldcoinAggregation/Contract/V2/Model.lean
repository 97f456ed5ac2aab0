import WorldcoinAggregation.Contract.Payouts

/-!
# The V2 contract

`validateClaimsRoot` commits a root over claims, and `claim` pays one claim under a committed root.
Both are written as the code computes them, up to the point where other code gets control; that is
the transfer of WLD only, since the other calls are views and the verifier calls no one.
-/

namespace WorldcoinAggregation

open CallStack Fallible

/-- The immutables of the V2 contract. The constructor bounds the logarithm. -/
structure WorldcoinAggregationV2 where
  vkeyHash : U256
  logMaxNumClaims : U256
  prover : Address
  logMaxNumClaims_le : logMaxNumClaims.toNat ≤ 32

namespace WorldcoinAggregationV2

/-- The errors of the V2 contract; `external` is the revert of a view or of the token. -/
inductive Error where
  | onlyProver
  | invalidLogMaxNumClaims
  | invalidProof
  | nullifierHashAlreadyUsed
  | invalidReceiver
  | invalidMerkleProofLength
  | invalidMerkleProof
  | invalidNumberOfClaims
  | invalidVkeyHash
  | external
deriving DecidableEq

/-- The constructor. -/
def new (vkeyHash logMaxNumClaims : U256) (prover : Address) :
    Except Error WorldcoinAggregationV2 :=
  if h : 32 < logMaxNumClaims.toNat then throw .invalidLogMaxNumClaims
  else return ⟨vkeyHash, logMaxNumClaims, prover, Nat.le_of_not_lt h⟩

/-- The mappings of the V2 contract. -/
structure Storage where
  nullifierHashes : U256 → Bool
  validClaimsRoots : U256 → U256 → Bool

/-- The arguments of `claim`. -/
structure Claim where
  grantId : U256
  root : U256
  receiver : Address
  nullifierHash : U256
  sisterNodes : List U256
  isLeftBytes : U256

/-! ## Claims -/

/-- Byte `index` of a word, counted from the most significant one. -/
def unsafeByteAccess (value : U256) (index : ℕ) : U256 :=
  if index < 32 then (value >>> (8 * (31 - index))) &&& 0xff else 0

/-- Anything but zero is true. -/
def toBool (input : U256) : Bool :=
  input ≠ 0

/-- The hash of two words. -/
def efficientHash (keccak256 : List UInt8 → U256) (a b : U256) : U256 :=
  keccak256 (digestBytes a ++ digestBytes b)

/-- The loop over the sister nodes from index `i` on. -/
def runningHash (keccak256 : List UInt8 → U256) (isLeftBytes : U256) :
    ℕ → U256 → List U256 → U256
  | _, hash, [] => hash
  | i, hash, node :: sisterNodes =>
      -- the flag says that the sister node is on the left
      let isLeft := toBool (unsafeByteAccess isLeftBytes i)
      let hash := if isLeft then efficientHash keccak256 node hash
        else efficientHash keccak256 hash node
      runningHash keccak256 isLeftBytes (i + 1) hash sisterNodes

/-- The hash of the packed claim. -/
def Claim.leaf (keccak256 : List UInt8 → U256) (args : Claim) : U256 :=
  keccak256 (packClaim args.grantId.toNat args.receiver.toNat args.nullifierHash.toNat)

/-- The claims root that the Merkle proof of a claim leads to. -/
def Claim.claimsRoot (keccak256 : List UInt8 → U256) (args : Claim) : U256 :=
  runningHash keccak256 args.isLeftBytes 0 (args.leaf keccak256) args.sisterNodes

/-- Mark a nullifier hash as used. -/
def Storage.use (storage : Storage) (nullifierHash : U256) : Storage :=
  { storage with nullifierHashes := Function.update storage.nullifierHashes nullifierHash true }

variable {Chain : Type}

/-- `claim` up to its call of `WLD.transfer`: the storage and the payment that it requests. -/
def claim (agg : WorldcoinAggregationV2) (env : Externals Chain) (chain : Chain)
    (storage : Storage) (args : Claim) : Except Error (Storage × Payment Chain) := do
  revertIf (storage.nullifierHashes args.nullifierHash = true) .nullifierHashAlreadyUsed
  revertIf (args.receiver = 0) .invalidReceiver
  revertIf (env.checkValidity chain args.grantId = false) .external
  revertIf (args.sisterNodes.length ≠ agg.logMaxNumClaims.toNat) .invalidMerkleProofLength
  revertIf (storage.validClaimsRoots args.root (args.claimsRoot env.keccak256) = false)
    .invalidMerkleProof
  let storage := storage.use args.nullifierHash
  let grantAmount ← orRevert .external (env.getAmount chain args.grantId)
  return (storage, ⟨args.grantId, args.receiver, args.nullifierHash, grantAmount, chain⟩)

/-! ## Claims roots -/

/-- The arguments of `validateClaimsRoot`, and who calls it. -/
structure ValidateClaimsRoot where
  sender : Address
  proof : List UInt8

namespace ValidateClaimsRoot

def vkeyHashHiOffset : ℕ := 12 * 32

def vkeyHashLoOffset : ℕ := 13 * 32

def rootOffset : ℕ := 14 * 32

def numClaimsOffset : ℕ := 15 * 32

def claimsRootHiOffset : ℕ := 16 * 32

def claimsRootLoOffset : ℕ := 17 * 32

variable (args : ValidateClaimsRoot)

/-- The verifying key hash that the contract decodes. -/
def vkeyHash : U256 :=
  hiLoWord (unsafeCalldataBytesAccess args.proof vkeyHashHiOffset)
    (unsafeCalldataBytesAccess args.proof vkeyHashLoOffset)

/-- The World ID root that the contract decodes. -/
def root : U256 :=
  unsafeCalldataBytesAccess args.proof rootOffset

/-- The number of claims that the contract decodes. -/
def numClaims : U256 :=
  unsafeCalldataBytesAccess args.proof numClaimsOffset

/-- The claims root that the contract decodes. -/
def claimsRoot : U256 :=
  hiLoWord (unsafeCalldataBytesAccess args.proof claimsRootHiOffset)
    (unsafeCalldataBytesAccess args.proof claimsRootLoOffset)

end ValidateClaimsRoot

/-- Record a claims root. -/
def Storage.record (storage : Storage) (root claimsRoot : U256) : Storage :=
  let claimsRoots := Function.update (storage.validClaimsRoots root) claimsRoot true
  { storage with validClaimsRoots := Function.update storage.validClaimsRoots root claimsRoots }

/-- `validateClaimsRoot`. -/
def validateClaimsRoot (agg : WorldcoinAggregationV2) (env : Externals Chain) (chain : Chain)
    (storage : Storage) (args : ValidateClaimsRoot) : Except Error Storage := do
  revertIf (agg.prover ≠ 0 ∧ args.sender ≠ agg.prover) .onlyProver
  revertIf (args.proof.length < 18 * 32) .invalidProof
  -- the halves are decoded as they are, and the verifier sees them modulo the field order
  revertIf (args.vkeyHash ≠ agg.vkeyHash) .invalidVkeyHash
  revertIf (env.requireValidRoot chain args.root = false) .external
  revertIf (args.numClaims > (1 : U256) <<< agg.logMaxNumClaims) .invalidNumberOfClaims
  revertIf (env.verifies 18 args.proof = false) .invalidProof
  return storage.record args.root args.claimsRoot

/-! ## Calls -/

/-- A call of the contract. -/
inductive Call where
  | claim (args : Claim)
  | validateClaimsRoot (args : ValidateClaimsRoot)

/-- How far a call has come: a claim stops at its transfer. -/
inductive Frame (Chain : Type) where
  | started (call : Call)
  | transferring (args : Claim) (payment : Payment Chain) (phase : TransferPhase)
  | finished (call : Call)

/-- The world of the V2 contract. -/
abbrev World (Chain : Type) := WorldcoinAggregation.World Storage ValidateClaimsRoot Chain

/-- Run a call up to the next point where other code gets control. -/
def advance (agg : WorldcoinAggregationV2) (env : Externals Chain) (address : Address)
    (world : World Chain) : Frame Chain → Option (World Chain × Frame Chain)
  | .started (.claim args) =>
      match agg.claim env world.chain world.storage args with
      | .ok (storage, payment) =>
          some ({ world with storage }, .transferring args payment .requested)
      | .error _ => none
  | .started (.validateClaimsRoot args) =>
      match agg.validateClaimsRoot env world.chain world.storage args with
      | .ok storage =>
          some ({ world with storage, verified := world.verified ++ [(args, world.chain)] },
            .finished (.validateClaimsRoot args))
      | .error _ => none
  | .transferring args payment .requested =>
      (world.transfer env address payment).map fun world =>
        (world, .transferring args payment .moved)
  | .transferring args payment .moved =>
      some ({ world with events := world.events ++ [payment.event] }, .finished (.claim args))
  | .finished _ => none

/-- The V2 contract at an address. -/
def contract (agg : WorldcoinAggregationV2) (env : Externals Chain) (address : Address) :
    Contract (World Chain) Call (Frame Chain) where
  start := .started
  advance := agg.advance env address
  waits frame :=
    match frame with
    | .transferring .. => true
    | _ => false
  returns frame :=
    match frame with
    | .finished _ => true
    | _ => false
  outside := World.Outside

/-- The world after the deployment of the contract. -/
def deployed (balances : Address → ℕ) (chain : Chain) : World Chain where
  storage := ⟨fun _ => false, fun _ _ => false⟩
  balances := balances
  chain := chain
  events := []
  payments := []
  verified := []

/-! ## What a call checks -/

variable {agg : WorldcoinAggregationV2} {env : Externals Chain} {chain : Chain}
  {storage storage' : Storage} {address : Address} {world world' : World Chain}

/-- The checks that a claim has passed when it requests its payment. -/
structure Claim.Checked (agg : WorldcoinAggregationV2) (env : Externals Chain) (storage : Storage)
    (args : Claim) (payment : Payment Chain) : Prop where
  grantId_eq : payment.grantId = args.grantId
  receiver_eq : payment.receiver = args.receiver
  nullifierHash_eq : payment.nullifierHash = args.nullifierHash
  receiver_ne : args.receiver ≠ 0
  valid : env.checkValidity payment.chain args.grantId = true
  amount_eq : env.getAmount payment.chain args.grantId = some payment.amount
  length_eq : args.sisterNodes.length = agg.logMaxNumClaims.toNat
  recorded : storage.validClaimsRoots args.root (args.claimsRoot env.keccak256) = true

/-- `claim` marks the nullifier hash and requests the payment exactly when its checks pass. -/
theorem claim_eq_ok {args : Claim} {payment : Payment Chain} :
    agg.claim env chain storage args = .ok (storage', payment) ↔
      storage.nullifierHashes args.nullifierHash = false ∧ args.Checked agg env storage payment ∧
        payment.chain = chain ∧ storage' = storage.use args.nullifierHash := by
  simp only [claim, bind_eq_ok, revertIf_eq_ok, orRevert_eq_ok, pure_eq_ok, Prod.mk.injEq,
    ne_eq, not_not, Bool.not_eq_true, Bool.not_eq_false, exists_const]
  constructor
  · rintro ⟨hunused, hreceiver, hvalid, hlength, hrecorded, amount, hamount, rfl, rfl⟩
    exact ⟨hunused, ⟨rfl, rfl, rfl, hreceiver, hvalid, hamount, hlength, hrecorded⟩, rfl, rfl⟩
  · rintro ⟨hunused, hchecked, rfl, rfl⟩
    obtain ⟨hgrant, hreceiver, hnullifier, hne, hvalid, hamount, hlength, hrecorded⟩ := hchecked
    refine ⟨hunused, hne, hvalid, hlength, hrecorded, payment.amount, hamount, rfl, ?_⟩
    rw [← hgrant, ← hreceiver, ← hnullifier]

/-- The checks that a validation has passed. -/
structure ValidateClaimsRoot.Checked (agg : WorldcoinAggregationV2) (env : Externals Chain)
    (chain : Chain) (args : ValidateClaimsRoot) : Prop where
  authorised : agg.prover = 0 ∨ args.sender = agg.prover
  length_le : 18 * 32 ≤ args.proof.length
  vkeyHash_eq : args.vkeyHash = agg.vkeyHash
  root_valid : env.requireValidRoot chain args.root = true
  numClaims_le : args.numClaims.toNat ≤ 2 ^ agg.logMaxNumClaims.toNat
  accepted : env.verifies 18 args.proof = true

/-- The bound on the number of claims does not overflow. -/
theorem toNat_maxNumClaims (agg : WorldcoinAggregationV2) :
    ((1 : U256) <<< agg.logMaxNumClaims).toNat = 2 ^ agg.logMaxNumClaims.toNat := by
  have hlt : 2 ^ agg.logMaxNumClaims.toNat < 2 ^ 256 :=
    Nat.pow_lt_pow_right (by decide) (by have := agg.logMaxNumClaims_le; omega)
  have hone : (1 : U256).toNat = 1 := rfl
  rw [BitVec.shiftLeft_eq', BitVec.toNat_shiftLeft, Nat.shiftLeft_eq, hone, one_mul]
  exact Nat.mod_eq_of_lt hlt

/-- `validateClaimsRoot` records the decoded root exactly when its checks pass. -/
theorem validateClaimsRoot_eq_ok {args : ValidateClaimsRoot} :
    agg.validateClaimsRoot env chain storage args = .ok storage' ↔
      args.Checked agg env chain ∧ storage' = storage.record args.root args.claimsRoot := by
  simp only [validateClaimsRoot, bind_eq_ok, revertIf_eq_ok, pure_eq_ok, ne_eq, not_not, not_and,
    not_lt, Bool.not_eq_false, exists_const, gt_iff_lt, BitVec.lt_def, toNat_maxNumClaims]
  constructor
  · rintro ⟨hprover, hlength, hvkey, hroot, hcount, haccepted, rfl⟩
    exact ⟨⟨or_iff_not_imp_left.mpr hprover, hlength, hvkey, hroot, hcount, haccepted⟩, rfl⟩
  · rintro ⟨⟨hprover, hlength, hvkey, hroot, hcount, haccepted⟩, rfl⟩
    exact ⟨or_iff_not_imp_left.mp hprover, hlength, hvkey, hroot, hcount, haccepted, rfl⟩

/-- A recorded claims root is there, and the others are as they were. -/
theorem Storage.record_eq_true {root claimsRoot root' claimsRoot' : U256} :
    (storage.record root claimsRoot).validClaimsRoots root' claimsRoot' = true ↔
      (root' = root ∧ claimsRoot' = claimsRoot) ∨
        storage.validClaimsRoots root' claimsRoot' = true := by
  unfold Storage.record
  by_cases hroot : root' = root
  · subst hroot
    by_cases hclaims : claimsRoot' = claimsRoot
    · simp [hclaims]
    · simp [hclaims]
  · simp [hroot]

/-- Recording a claims root that is recorded changes nothing. -/
theorem Storage.record_self {root claimsRoot : U256}
    (h : storage.validClaimsRoots root claimsRoot = true) :
    storage.record root claimsRoot = storage := by
  simp only [Storage.record, ← h, Function.update_eq_self]

/-- What a call does between two points where other code gets control. -/
theorem advance_cases {frame frame' : Frame Chain}
    (h : agg.advance env address world frame = some (world', frame')) :
    (∃ args payment, frame = .started (.claim args) ∧
      frame' = .transferring args payment .requested ∧
      world.storage.nullifierHashes args.nullifierHash = false ∧
      args.Checked agg env world.storage payment ∧
      world' = { world with storage := world.storage.use args.nullifierHash }) ∨
    (∃ args, frame = .started (.validateClaimsRoot args) ∧
      frame' = .finished (.validateClaimsRoot args) ∧
      args.Checked agg env world.chain ∧
      world' = { world with
        storage := world.storage.record args.root args.claimsRoot
        verified := world.verified ++ [(args, world.chain)] }) ∨
    (∃ args payment ok balances, frame = .transferring args payment .requested ∧
      frame' = .transferring args payment .moved ∧
      env.transfer world.chain world.balances address payment.receiver payment.amount =
        some (ok, balances) ∧
      world' = { world with balances, payments := world.payments ++ [payment] }) ∨
    (∃ args payment, frame = .transferring args payment .moved ∧
      frame' = .finished (.claim args) ∧
      world' = { world with events := world.events ++ [payment.event] }) := by
  cases frame with
  | started call =>
      cases call with
      | claim args =>
          simp only [advance] at h
          split at h
          · rename_i storage payment hclaim
            obtain ⟨hunused, hchecked, -, rfl⟩ := claim_eq_ok.mp hclaim
            cases h
            exact .inl ⟨args, payment, rfl, rfl, hunused, hchecked, rfl⟩
          · cases h
      | validateClaimsRoot args =>
          simp only [advance] at h
          split at h
          · rename_i storage hvalidate
            obtain ⟨hchecked, rfl⟩ := validateClaimsRoot_eq_ok.mp hvalidate
            cases h
            exact .inr (.inl ⟨args, rfl, rfl, hchecked, rfl⟩)
          · cases h
  | transferring args payment phase =>
      cases phase with
      | requested =>
          simp only [advance, Option.map_eq_some_iff, Prod.mk.injEq] at h
          obtain ⟨moved, htransfer, rfl, rfl⟩ := h
          obtain ⟨ok, balances, hmoved, rfl⟩ := World.transfer_eq_some htransfer
          exact .inr (.inr (.inl ⟨args, payment, ok, balances, rfl, rfl, hmoved, rfl⟩))
      | moved =>
          simp only [advance, Option.some.injEq, Prod.mk.injEq] at h
          obtain ⟨rfl, rfl⟩ := h
          exact .inr (.inr (.inr ⟨args, payment, rfl, rfl, rfl⟩))
  | finished call => cases h

/-! ## Calls that succeed -/

variable {stack : List (Activation (World Chain) (Frame Chain))}

/-- What a claim that passes its checks does, one stretch after the other, with a sufficient
balance. -/
theorem exists_advances_claim (address : Address) {args : Claim} {payment : Payment Chain}
    (htoken : env.StandardToken)
    (hunused : world.storage.nullifierHashes args.nullifierHash = false)
    (hchecked : args.Checked agg env world.storage payment) (hchain : payment.chain = world.chain)
    (hbalance : payment.amount.toNat ≤ world.balances address) :
    ∃ used moved world',
      (agg.contract env address).advance world (.started (.claim args)) =
        some (used, .transferring args payment .requested) ∧
      (agg.contract env address).advance used (.transferring args payment .requested) =
        some (moved, .transferring args payment .moved) ∧
      (agg.contract env address).advance moved (.transferring args payment .moved) =
        some (world', .finished (.claim args)) ∧
      world'.storage = world.storage.use args.nullifierHash ∧
      world'.payments = world.payments ++ [payment] := by
  have hclaim := claim_eq_ok.mpr ⟨hunused, hchecked, hchain, rfl⟩
  obtain ⟨used, hused⟩ : ∃ used : World Chain,
      used = { world with storage := world.storage.use args.nullifierHash } := ⟨_, rfl⟩
  have hstart : (agg.contract env address).advance world (.started (.claim args)) =
      some (used, .transferring args payment .requested) := by
    simp only [contract, advance, hclaim, hused]
  have hreceiver : payment.receiver ≠ 0 := hchecked.receiver_eq ▸ hchecked.receiver_ne
  have hbalance' : payment.amount.toNat ≤ used.balances address := by rwa [hused]
  obtain ⟨balances, htransfer, -⟩ := World.exists_transfer htoken hreceiver hbalance'
  have hmove : (agg.contract env address).advance used (.transferring args payment .requested) =
      some ({ used with balances, payments := used.payments ++ [payment] },
        .transferring args payment .moved) := by
    simp only [contract, advance, htransfer, Option.map_some]
  exact ⟨used, _, _, hstart, hmove, rfl, by rw [hused], by rw [hused]⟩

/-- A claim that passes its checks is paid from a sufficient balance. -/
theorem exists_run_claim (htoken : env.StandardToken) {args : Claim} {payment : Payment Chain}
    (hyields : (agg.contract env address).Yields (ownCalls stack))
    (hunused : world.storage.nullifierHashes args.nullifierHash = false)
    (hchecked : args.Checked agg env world.storage payment) (hchain : payment.chain = world.chain)
    (hbalance : payment.amount.toNat ≤ world.balances address) :
    ∃ world', Run (agg.contract env address) ⟨world, stack⟩ [.claim args]
        ⟨world', .own ⟨world, .finished (.claim args)⟩ :: stack⟩ ∧
      world'.storage = world.storage.use args.nullifierHash ∧
      world'.payments = world.payments ++ [payment] := by
  obtain ⟨used, moved, world', hstart, hmove, hresume, hstorage, hpayments⟩ :=
    exists_advances_claim address htoken hunused hchecked hchain hbalance
  have hrun := ((Step.enter (.claim args) hyields).run.tail (.advance hstart)).tail
    (.advance hmove)
  exact ⟨world', hrun.tail (.advance hresume), hstorage, hpayments⟩

/-- A claim that passes its checks is paid from a sufficient balance, without the help of other
code. -/
theorem exists_completes_claim (address : Address) (htoken : env.StandardToken) {args : Claim}
    {payment : Payment Chain}
    (hunused : world.storage.nullifierHashes args.nullifierHash = false)
    (hchecked : args.Checked agg env world.storage payment) (hchain : payment.chain = world.chain)
    (hbalance : payment.amount.toNat ≤ world.balances address) :
    ∃ world', Completes (agg.contract env address) world (.started (.claim args)) world' ∧
      world'.storage = world.storage.use args.nullifierHash ∧
      world'.payments = world.payments ++ [payment] := by
  obtain ⟨used, moved, world', hstart, hmove, hresume, hstorage, hpayments⟩ :=
    exists_advances_claim address htoken hunused hchecked hchain hbalance
  exact ⟨world', .advance hstart (.advance hmove (.advance hresume (.returns rfl))), hstorage,
    hpayments⟩

/-- A validation that passes its checks records the decoded root, without the help of other code. -/
theorem completes_validateClaimsRoot (address : Address) {args : ValidateClaimsRoot}
    (hchecked : args.Checked agg env world.chain) :
    Completes (agg.contract env address) world (.started (.validateClaimsRoot args))
      { world with
        storage := world.storage.record args.root args.claimsRoot
        verified := world.verified ++ [(args, world.chain)] } := by
  have hvalidate : agg.validateClaimsRoot env world.chain world.storage args =
      .ok (world.storage.record args.root args.claimsRoot) :=
    validateClaimsRoot_eq_ok.mpr ⟨hchecked, rfl⟩
  have hstart : (agg.contract env address).advance world (.started (.validateClaimsRoot args)) =
      some ({ world with
        storage := world.storage.record args.root args.claimsRoot
        verified := world.verified ++ [(args, world.chain)] },
          .finished (.validateClaimsRoot args)) := by
    simp only [contract, advance, hvalidate]
  exact .advance hstart (.returns rfl)

end WorldcoinAggregationV2

end WorldcoinAggregation
