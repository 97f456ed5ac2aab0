import WorldcoinAggregation.Contract.Payouts

/-!
# The V1 contract

`distributeGrants` verifies a SNARK over a batch of claims and pays the claims one after another.
Other code gets control at the transfer of each of them, so a batch may be interrupted between any
two claims. What a call has paid and emitted itself is recorded in its frame.
-/

namespace WorldcoinAggregation

open CallStack Fallible

/-- The immutables of the V1 contract. The constructor admits powers of two only. -/
structure WorldcoinAggregationV1 where
  vkeyHash : U256
  maxNumClaims : U256
  prover : Address
  maxNumClaims_ne : maxNumClaims ≠ 0
  maxNumClaims_and : maxNumClaims &&& (maxNumClaims - 1) = 0

namespace WorldcoinAggregationV1

/-- The errors of the V1 contract; `external` is the revert of a view or of the token. -/
inductive Error where
  | onlyProver
  | invalidMaxNumClaims
  | invalidProof
  | tooManyClaims
  | invalidVkeyHash
  | nullifierHashAlreadyUsed
  | invalidReceiver
  | external
deriving DecidableEq

/-- The constructor. -/
def new (vkeyHash maxNumClaims : U256) (prover : Address) :
    Except Error WorldcoinAggregationV1 :=
  if h : maxNumClaims = 0 ∨ maxNumClaims &&& (maxNumClaims - 1) ≠ 0 then
    throw .invalidMaxNumClaims
  else return ⟨vkeyHash, maxNumClaims, prover, fun hzero => h (.inl hzero),
    not_not.mp fun hand => h (.inr hand)⟩

/-- The mapping of the V1 contract. -/
structure Storage where
  nullifierHashes : U256 → Bool

/-- The arguments of `distributeGrants`, and who calls it. -/
structure DistributeGrants where
  sender : Address
  vkeyHash : U256
  numClaims : U256
  root : U256
  grantIds : List U256
  receivers : List Address
  nullifierHashes : List U256
  proof : List UInt8

def minimumSnarkLength : ℕ := 14 * 32

def outputHashHiOffset : ℕ := 12 * 32

def outputHashLoOffset : ℕ := 13 * 32

namespace DistributeGrants

variable (args : DistributeGrants)

/-- The packed output. The elements of arrays are padded to 32 bytes, addresses too; packing an
address with upper bits reverts. -/
def packed : List UInt8 :=
  digestBytes (args.vkeyHash >>> 128) ++
    digestBytes (args.vkeyHash &&& 0xFFFFFFFFFFFFFFFFFFFFFFFFFFFFFFFF) ++ digestBytes args.root ++
    digestBytes args.numClaims ++ args.grantIds.flatMap digestBytes ++
    args.receivers.flatMap (fun receiver => digestBytes (receiver.setWidth 256)) ++
    args.nullifierHashes.flatMap digestBytes

/-- The output hash that the contract decodes. -/
def outputHash : U256 :=
  hiLoWord (unsafeCalldataBytesAccess args.proof outputHashHiOffset)
    (unsafeCalldataBytesAccess args.proof outputHashLoOffset)

end DistributeGrants

/-- Mark a nullifier hash as used. -/
def Storage.use (storage : Storage) (nullifierHash : U256) : Storage where
  nullifierHashes := Function.update storage.nullifierHashes nullifierHash true

variable {Chain : Type}

/-- `distributeGrants` up to its loop. -/
def verify (agg : WorldcoinAggregationV1) (env : Externals Chain) (chain : Chain)
    (args : DistributeGrants) : Except Error Unit := do
  revertIf (agg.prover ≠ 0 ∧ args.sender ≠ agg.prover) .onlyProver
  revertIf (args.receivers.length ≠ args.nullifierHashes.length) .invalidProof
  revertIf (args.numClaims.toNat ≠ args.receivers.length) .invalidProof
  revertIf (args.numClaims.toNat ≠ args.grantIds.length) .invalidProof
  revertIf (args.proof.length < minimumSnarkLength) .invalidProof
  revertIf (args.vkeyHash ≠ agg.vkeyHash) .invalidVkeyHash
  revertIf (env.requireValidRoot chain args.root = false) .external
  revertIf (args.numClaims > agg.maxNumClaims) .tooManyClaims
  -- the halves of the output hash are not cleaned
  revertIf (args.outputHash ≠ env.keccak256 args.packed) .invalidProof
  revertIf (env.verifies 14 args.proof = false) .invalidProof

/-- One iteration of the loop up to its call of `WLD.transfer`: the storage and the payment that it
requests. -/
def claim (env : Externals Chain) (chain : Chain) (storage : Storage) (args : DistributeGrants)
    (i : ℕ) : Except Error (Storage × Payment Chain) := do
  let grantId := unsafeCalldataArrayAccess args.grantIds i
  revertIf (env.checkValidity chain grantId = false) .external
  let receiver := unsafeCalldataArrayAccess args.receivers i
  revertIf (receiver = 0) .invalidReceiver
  let claimedNullifierHash := unsafeCalldataArrayAccess args.nullifierHashes i
  revertIf (storage.nullifierHashes claimedNullifierHash = true) .nullifierHashAlreadyUsed
  let storage := storage.use claimedNullifierHash
  let grantAmount ← orRevert .external (env.getAmount chain grantId)
  return (storage, ⟨grantId, receiver, claimedNullifierHash, grantAmount, chain⟩)

/-! ## Calls -/

/-- Where a call stands: before its checks, in front of iteration `i`, or in the transfer of
iteration `i`. -/
inductive Phase (Chain : Type) where
  | started
  | loop (i : ℕ)
  | transferring (i : ℕ) (payment : Payment Chain) (phase : TransferPhase)

/-- A call of `distributeGrants`, with the transfers that it has made and the events that it has
emitted itself. -/
structure Frame (Chain : Type) where
  args : DistributeGrants
  phase : Phase Chain
  made : List (Payment Chain)
  emitted : List GrantClaimed

/-- The world of the V1 contract. -/
abbrev World (Chain : Type) := WorldcoinAggregation.World Storage DistributeGrants Chain

/-- Run a call up to the next iteration or to the next point where other code gets control. -/
def advance (agg : WorldcoinAggregationV1) (env : Externals Chain) (address : Address)
    (world : World Chain) (frame : Frame Chain) : Option (World Chain × Frame Chain) :=
  match frame.phase with
  | .started =>
      match agg.verify env world.chain frame.args with
      | .ok () =>
          some ({ world with verified := world.verified ++ [(frame.args, world.chain)] },
            { frame with phase := .loop 0 })
      | .error _ => none
  -- one iteration: check the grant, mark the nullifier hash, request the transfer
  | .loop i =>
      if i = frame.args.numClaims.toNat then none
      else
        match claim env world.chain world.storage frame.args i with
        | .ok (storage, payment) =>
            some ({ world with storage },
              { frame with phase := .transferring i payment .requested })
        | .error _ => none
  -- the token moves the amount; other code runs before and after it
  | .transferring i payment .requested =>
      (world.transfer env address payment).map fun world =>
        (world, { frame with
          phase := .transferring i payment .moved
          made := frame.made ++ [payment] })
  | .transferring i payment .moved =>
      some ({ world with events := world.events ++ [payment.event] },
        { frame with phase := .loop (i + 1), emitted := frame.emitted ++ [payment.event] })

/-- The V1 contract at an address. -/
def contract (agg : WorldcoinAggregationV1) (env : Externals Chain) (address : Address) :
    Contract (World Chain) DistributeGrants (Frame Chain) where
  start args := ⟨args, .started, [], []⟩
  advance := agg.advance env address
  waits frame :=
    match frame.phase with
    | .transferring .. => true
    | _ => false
  returns frame :=
    match frame.phase with
    | .loop i => i = frame.args.numClaims.toNat
    | _ => false
  outside := World.Outside

/-- The world after the deployment of the contract. -/
def deployed (balances : Address → ℕ) (chain : Chain) : World Chain where
  storage := ⟨fun _ => false⟩
  balances := balances
  chain := chain
  events := []
  payments := []
  verified := []

/-! ## What a call checks -/

variable {agg : WorldcoinAggregationV1} {env : Externals Chain} {chain : Chain}
  {storage storage' : Storage} {address : Address} {world world' : World Chain}
  {args : DistributeGrants} {payment : Payment Chain} {i : ℕ}

/-- The checks that a batch has passed before its loop. -/
structure DistributeGrants.Checked (agg : WorldcoinAggregationV1) (env : Externals Chain)
    (chain : Chain) (args : DistributeGrants) : Prop where
  authorised : agg.prover = 0 ∨ args.sender = agg.prover
  length_grantIds : args.grantIds.length = args.numClaims.toNat
  length_receivers : args.receivers.length = args.numClaims.toNat
  length_nullifierHashes : args.nullifierHashes.length = args.numClaims.toNat
  length_le : 14 * 32 ≤ args.proof.length
  vkeyHash_eq : args.vkeyHash = agg.vkeyHash
  root_valid : env.requireValidRoot chain args.root = true
  numClaims_le : args.numClaims ≤ agg.maxNumClaims
  outputHash_eq : args.outputHash = env.keccak256 args.packed
  accepted : env.verifies 14 args.proof = true

/-- A batch reaches the loop exactly when its checks pass. -/
theorem verify_eq_ok : agg.verify env chain args = .ok () ↔ args.Checked agg env chain := by
  simp only [verify, bind_eq_ok, revertIf_eq_ok, ne_eq, not_not, not_and, not_lt,
    Bool.not_eq_false, exists_const, gt_iff_lt, BitVec.not_lt]
  constructor
  · rintro ⟨hprover, hnullifiers, hreceivers, hgrants, hlength, hvkey, hroot, hcount, hhash,
      haccepted⟩
    exact ⟨or_iff_not_imp_left.mpr hprover, hgrants.symm, hreceivers.symm,
      hnullifiers.symm.trans hreceivers.symm, hlength, hvkey, hroot, hcount, hhash, haccepted⟩
  · rintro ⟨hprover, hgrants, hreceivers, hnullifiers, hlength, hvkey, hroot, hcount, hhash,
      haccepted⟩
    exact ⟨or_iff_not_imp_left.mp hprover, hreceivers.trans hnullifiers.symm, hreceivers.symm,
      hgrants.symm, hlength, hvkey, hroot, hcount, hhash, haccepted⟩

/-- A payment is the one for claim `i` of a batch: to its receiver, who is not the zero address,
and of the amount of its grant. -/
structure DistributeGrants.Pays (env : Externals Chain) (args : DistributeGrants) (i : ℕ)
    (payment : Payment Chain) : Prop where
  grantId_eq : args.grantIds[i]? = some payment.grantId
  receiver_eq : args.receivers[i]? = some payment.receiver
  nullifierHash_eq : args.nullifierHashes[i]? = some payment.nullifierHash
  receiver_ne : payment.receiver ≠ 0
  valid : env.checkValidity payment.chain payment.grantId = true
  amount_eq : env.getAmount payment.chain payment.grantId = some payment.amount

/-- The payments are those for the first claims of a batch, in order. -/
def DistributeGrants.PaysFirst (env : Externals Chain) (args : DistributeGrants)
    (payments : List (Payment Chain)) : Prop :=
  ∀ i payment, payments[i]? = some payment → args.Pays env i payment

/-- The element within the bounds. -/
theorem unsafeCalldataArrayAccess_eq {n : ℕ} {array : List (BitVec n)} (h : i < array.length) :
    array[i]? = some (unsafeCalldataArrayAccess array i) := by
  rw [unsafeCalldataArrayAccess, List.getD_eq_getElem?_getD, List.getElem?_eq_getElem h]
  rfl

/-- An iteration marks the nullifier hash and requests the payment of its claim exactly when its
checks pass. -/
theorem claim_eq_ok (h : args.Checked agg env chain) {at_ : Chain}
    (hi : i < args.numClaims.toNat) :
    claim env at_ storage args i = .ok (storage', payment) ↔
      storage.nullifierHashes payment.nullifierHash = false ∧ args.Pays env i payment ∧
        payment.chain = at_ ∧ storage' = storage.use payment.nullifierHash := by
  have hgrant := unsafeCalldataArrayAccess_eq (h.length_grantIds ▸ hi)
  have hreceiver := unsafeCalldataArrayAccess_eq (h.length_receivers ▸ hi)
  have hnullifier := unsafeCalldataArrayAccess_eq (h.length_nullifierHashes ▸ hi)
  simp only [claim, bind_eq_ok, revertIf_eq_ok, orRevert_eq_ok, pure_eq_ok, Prod.mk.injEq,
    Bool.not_eq_true, Bool.not_eq_false, exists_const]
  constructor
  · rintro ⟨hvalid, hne, hunused, amount, hamount, rfl, rfl⟩
    exact ⟨hunused, ⟨hgrant, hreceiver, hnullifier, hne, hvalid, hamount⟩, rfl, rfl⟩
  · rintro ⟨hunused, hpays, rfl, rfl⟩
    obtain ⟨hgrant', hreceiver', hnullifier', hne, hvalid, hamount⟩ := hpays
    rw [hgrant, Option.some.injEq] at hgrant'
    rw [hreceiver, Option.some.injEq] at hreceiver'
    rw [hnullifier, Option.some.injEq] at hnullifier'
    rw [hgrant', hreceiver', hnullifier']
    exact ⟨hvalid, hne, hunused, payment.amount, hamount, rfl, rfl⟩

/-- What a call does between two points where other code may get control. -/
theorem advance_cases {frame frame' : Frame Chain}
    (h : agg.advance env address world frame = some (world', frame')) :
    (frame.phase = .started ∧ frame.args.Checked agg env world.chain ∧
      frame' = { frame with phase := .loop 0 } ∧
      world' = { world with verified := world.verified ++ [(frame.args, world.chain)] }) ∨
    (∃ i payment storage, frame.phase = .loop i ∧ i ≠ frame.args.numClaims.toNat ∧
      claim env world.chain world.storage frame.args i = .ok (storage, payment) ∧
      frame' = { frame with phase := .transferring i payment .requested } ∧
      world' = { world with storage }) ∨
    (∃ i payment ok balances, frame.phase = .transferring i payment .requested ∧
      env.transfer world.chain world.balances address payment.receiver payment.amount =
        some (ok, balances) ∧
      frame' = { frame with
        phase := .transferring i payment .moved
        made := frame.made ++ [payment] } ∧
      world' = { world with balances, payments := world.payments ++ [payment] }) ∨
    (∃ i payment, frame.phase = .transferring i payment .moved ∧
      frame' = { frame with
        phase := .loop (i + 1)
        emitted := frame.emitted ++ [payment.event] } ∧
      world' = { world with events := world.events ++ [payment.event] }) := by
  cases hphase : frame.phase with
  | started =>
      simp only [advance, hphase] at h
      split at h
      · rename_i hverify
        cases h
        exact .inl ⟨rfl, verify_eq_ok.mp hverify, rfl, rfl⟩
      · cases h
  | loop i =>
      simp only [advance, hphase] at h
      split at h
      · cases h
      · rename_i hi
        split at h
        · rename_i storage payment hclaim
          cases h
          exact .inr (.inl ⟨i, payment, storage, rfl, hi, hclaim, rfl, rfl⟩)
        · cases h
  | transferring i payment phase =>
      cases phase with
      | requested =>
          simp only [advance, hphase, Option.map_eq_some_iff, Prod.mk.injEq] at h
          obtain ⟨moved, htransfer, rfl, rfl⟩ := h
          obtain ⟨ok, balances, hmoved, rfl⟩ := World.transfer_eq_some htransfer
          exact .inr (.inr (.inl ⟨i, payment, ok, balances, rfl, hmoved, rfl, rfl⟩))
      | moved =>
          simp only [advance, hphase, Option.some.injEq, Prod.mk.injEq] at h
          obtain ⟨rfl, rfl⟩ := h
          exact .inr (.inr (.inr ⟨i, payment, rfl, rfl, rfl⟩))

/-! ## Calls that succeed -/

/-- The world after a payment has been made and its event emitted. -/
structure PaidFrom (address : Address) (world next : World Chain) (payment : Payment Chain) :
    Prop where
  storage_eq : next.storage = world.storage.use payment.nullifierHash
  chain_eq : next.chain = world.chain
  payments_eq : next.payments = world.payments ++ [payment]
  balance_le : world.balances address ≤ next.balances address + payment.amount.toNat

/-- One iteration is paid from a sufficient balance. -/
theorem exists_iteration (htoken : env.StandardToken) {at_ : Chain} {made : List (Payment Chain)}
    {emitted : List GrantClaimed} (h : args.Checked agg env at_) (hi : i < args.numClaims.toNat)
    (hpays : args.Pays env i payment) (hchain : payment.chain = world.chain)
    (hunused : world.storage.nullifierHashes payment.nullifierHash = false)
    (hbalance : payment.amount.toNat ≤ world.balances address) :
    ∃ next, PaidFrom address world next payment ∧ ∀ world',
      Completes (agg.contract env address) next
        ⟨args, .loop (i + 1), made ++ [payment], emitted ++ [payment.event]⟩ world' →
      Completes (agg.contract env address) world ⟨args, .loop i, made, emitted⟩ world' := by
  obtain ⟨used, hused⟩ : ∃ used : World Chain,
      used = { world with storage := world.storage.use payment.nullifierHash } := ⟨_, rfl⟩
  have hclaim : claim env world.chain world.storage args i =
      .ok (world.storage.use payment.nullifierHash, payment) :=
    (claim_eq_ok h hi).mpr ⟨hunused, hpays, hchain, rfl⟩
  have hrequest : (agg.contract env address).advance world ⟨args, .loop i, made, emitted⟩ =
      some (used, ⟨args, .transferring i payment .requested, made, emitted⟩) := by
    simp only [contract, advance, if_neg hi.ne, hclaim, hused]
  have hbalance' : payment.amount.toNat ≤ used.balances address := by rwa [hused]
  obtain ⟨balances, htransfer, hle⟩ := World.exists_transfer htoken hpays.receiver_ne hbalance'
  have hmove : (agg.contract env address).advance used
      ⟨args, .transferring i payment .requested, made, emitted⟩ =
      some ({ used with balances, payments := used.payments ++ [payment] },
        ⟨args, .transferring i payment .moved, made ++ [payment], emitted⟩) := by
    simp only [contract, advance, htransfer, Option.map_some]
  have hresume (moved : World Chain) : (agg.contract env address).advance moved
      ⟨args, .transferring i payment .moved, made ++ [payment], emitted⟩ =
      some ({ moved with events := moved.events ++ [payment.event] },
        ⟨args, .loop (i + 1), made ++ [payment], emitted ++ [payment.event]⟩) := rfl
  subst hused
  refine ⟨_, ?_, fun world' hrest =>
    .advance hrequest (.advance hmove (.advance (hresume _) hrest))⟩
  exact ⟨rfl, rfl, rfl, hle⟩

/-- The rest of a batch is paid, claim after claim. -/
theorem exists_completes_loop (htoken : env.StandardToken) {at_ : Chain}
    {made todo : List (Payment Chain)} {emitted : List GrantClaimed}
    (h : args.Checked agg env at_)
    (hlength : made.length + todo.length = args.numClaims.toNat)
    (hpays : args.PaysFirst env (made ++ todo))
    (hchain : ∀ payment ∈ todo, payment.chain = world.chain)
    (hunused : ∀ payment ∈ todo, world.storage.nullifierHashes payment.nullifierHash = false)
    (hnodup : (todo.map Payment.nullifierHash).Nodup)
    (hbalance : (todo.map fun payment => payment.amount.toNat).sum ≤ world.balances address) :
    ∃ world', Completes (agg.contract env address) world
        ⟨args, .loop made.length, made, emitted⟩ world' ∧
      world'.payments = world.payments ++ todo := by
  induction todo generalizing made emitted world with
  | nil =>
      refine ⟨world, .returns (decide_eq_true ?_), (List.append_nil _).symm⟩
      simpa using hlength
  | cons payment todo ih =>
      simp only [List.length_cons, List.map_cons, List.sum_cons, List.nodup_cons,
        List.forall_mem_cons] at hlength hchain hunused hnodup hbalance
      have hget : (made ++ payment :: todo)[made.length]? = some payment := by simp
      have hamount : payment.amount.toNat ≤ world.balances address := by omega
      obtain ⟨next, ⟨hstorage, hnext, hmade, hle⟩, hcompletes⟩ := exists_iteration htoken h
        (by omega) (hpays _ _ hget) hchain.1 hunused.1 hamount
      have hrest : args.PaysFirst env (made ++ [payment] ++ todo) := by
        rwa [List.append_assoc, List.singleton_append]
      have hlength' : (made ++ [payment]).length + todo.length = args.numClaims.toNat := by
        rw [List.length_append, List.length_singleton]
        omega
      have hunused' : ∀ other ∈ todo,
          next.storage.nullifierHashes other.nullifierHash = false := by
        intro other hother
        have hne : other.nullifierHash ≠ payment.nullifierHash := fun heq =>
          hnodup.1 (heq ▸ List.mem_map_of_mem hother)
        simp only [hstorage, Storage.use, Function.update_of_ne hne]
        exact hunused.2 other hother
      obtain ⟨world', hdone, hpayments⟩ := ih hlength' hrest (hnext ▸ hchain.2) hunused' hnodup.2
        (by omega)
      rw [List.length_append, List.length_singleton] at hdone
      refine ⟨world', hcompletes world' hdone, ?_⟩
      rw [hpayments, hmade, List.append_assoc, List.singleton_append]

/-- A batch that passes its checks, for claims that can be paid, is distributed without the help of
other code. -/
theorem exists_completes_distributeGrants (address : Address) {payments : List (Payment Chain)}
    (htoken : env.StandardToken) (h : args.Checked agg env world.chain)
    (hlength : payments.length = args.numClaims.toNat) (hpays : args.PaysFirst env payments)
    (hchain : ∀ payment ∈ payments, payment.chain = world.chain)
    (hunused : ∀ payment ∈ payments, world.storage.nullifierHashes payment.nullifierHash = false)
    (hnodup : (payments.map Payment.nullifierHash).Nodup)
    (hbalance : (payments.map fun payment => payment.amount.toNat).sum ≤ world.balances address) :
    ∃ world', Completes (agg.contract env address) world
        ((agg.contract env address).start args) world' ∧
      world'.payments = world.payments ++ payments := by
  obtain ⟨verified, hverified⟩ : ∃ verified : World Chain,
      verified = { world with verified := world.verified ++ [(args, world.chain)] } := ⟨_, rfl⟩
  have hverify : agg.verify env world.chain args = .ok () := verify_eq_ok.mpr h
  have hstart : (agg.contract env address).advance world ⟨args, .started, [], []⟩ =
      some (verified, ⟨args, .loop 0, [], []⟩) := by
    simp only [contract, advance, hverify, hverified]
  have hloop : ∃ world', Completes (agg.contract env address) verified ⟨args, .loop 0, [], []⟩
      world' ∧ world'.payments = world.payments ++ payments := by
    have hlength' : ([] : List (Payment Chain)).length + payments.length =
        args.numClaims.toNat := by
      rw [List.length_nil, Nat.zero_add, hlength]
    subst hverified
    exact exists_completes_loop htoken h hlength' hpays hchain hunused hnodup hbalance
  obtain ⟨world', hcompletes, hpayments⟩ := hloop
  exact ⟨world', .advance hstart hcompletes, hpayments⟩

end WorldcoinAggregationV1

end WorldcoinAggregation
