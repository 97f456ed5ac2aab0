import WorldcoinAggregation.Base.CallStack
import WorldcoinAggregation.Base.Fallible
import WorldcoinAggregation.Base.SpentSet
import WorldcoinAggregation.Contract.Abi

/-!
# What the two contracts share

Both contracts consult the same kinds of contracts, and both pay grants by a transfer of WLD. The
views `GRANT` and `ROOT_VALIDATOR` answer from the state of the rest of the chain, which other code
may change whenever it has control. The token may call anyone before and after it moves the tokens.
The contracts do not look at what it returns, so they rely on it to revert when a transfer fails.
-/

namespace WorldcoinAggregation

open CallStack

/-- The hash function, the verifier, the views of the other contracts and the token; `none` is a
call that reverts. The verifier depends on its public instances and on the bytes behind them. A
transfer takes the holder, the receiver and the amount, and it returns whether it succeeded and the
balances. -/
structure Externals (Chain : Type) where
  keccak256 : List UInt8 → U256
  snarkAccepts : List Fr → List UInt8 → Bool
  requireValidRoot : Chain → U256 → Bool
  checkValidity : Chain → U256 → Bool
  getAmount : Chain → U256 → Option U256
  transfer : Chain → (Address → ℕ) → Address → Address → U256 → Option (Bool × (Address → ℕ))

/-- Whether the verifier contract with this number of public instances accepts its calldata. -/
def Externals.verifies {Chain : Type} (env : Externals Chain) (numInstances : ℕ)
    (proof : List UInt8) : Bool :=
  env.snarkAccepts (publicInstances numInstances proof) (proof.drop (32 * numInstances))

/-- The balances after an amount has moved from the holder to the receiver. -/
def movedBalances (balances : Address → ℕ) (holder receiver : Address) (amount : ℕ) :
    Address → ℕ :=
  let debited := Function.update balances holder (balances holder - amount)
  Function.update debited receiver (debited receiver + amount)

/-- A transfer that fails reverts, so one that returns has moved its amount. -/
def Externals.RevertsOnFailure {Chain : Type} (env : Externals Chain) : Prop :=
  ∀ chain balances holder receiver amount ok balances',
    env.transfer chain balances holder receiver amount = some (ok, balances') →
      ok = true ∧ amount.toNat ≤ balances holder ∧
        balances' = movedBalances balances holder receiver amount.toNat

/-- A token that reverts on failure, and whose transfers within the balance do not fail. -/
structure Externals.StandardToken {Chain : Type} (env : Externals Chain) : Prop where
  reverts : env.RevertsOnFailure
  succeeds : ∀ chain balances holder receiver amount, receiver ≠ 0 →
    amount.toNat ≤ balances holder →
      (env.transfer chain balances holder receiver amount).isSome = true

/-- A transfer of WLD for a claim, with the state of the chain that fixed its amount. -/
structure Payment (Chain : Type) where
  grantId : U256
  receiver : Address
  nullifierHash : U256
  amount : U256
  chain : Chain

/-- The event of a claimed grant. -/
structure GrantClaimed where
  grantId : U256
  receiver : Address
deriving DecidableEq

/-- The event of a payment. -/
def Payment.event {Chain : Type} (payment : Payment Chain) : GrantClaimed :=
  ⟨payment.grantId, payment.receiver⟩

/-- The state of a contract, the WLD balances, the rest of the chain and the events. The transfers
that the contract has made and the SNARKs that it has acted upon are recorded as well. -/
structure World (Storage Verified Chain : Type) where
  storage : Storage
  balances : Address → ℕ
  chain : Chain
  events : List GrantClaimed
  payments : List (Payment Chain)
  verified : List (Verified × Chain)

namespace World

variable {Storage Verified Chain : Type}

/-- `WLD.transfer` by the contract at an address. What it returns is not looked at. -/
def transfer (env : Externals Chain) (address : Address) (world : World Storage Verified Chain)
    (payment : Payment Chain) : Option (World Storage Verified Chain) :=
  (env.transfer world.chain world.balances address payment.receiver payment.amount).map
    fun result => { world with
      balances := result.2
      payments := world.payments ++ [payment] }

/-- The nullifier hashes that have been paid for. -/
def paid (world : World Storage Verified Chain) : List U256 :=
  world.payments.map Payment.nullifierHash

/-- What other code may change: balances and the rest of the chain. -/
def Outside (world world' : World Storage Verified Chain) : Prop :=
  ∃ balances chain, world' = { world with balances, chain }

variable {env : Externals Chain} {address : Address} {world world' : World Storage Verified Chain}
  {payment : Payment Chain}

/-- What a transfer does. -/
theorem transfer_eq_some (h : world.transfer env address payment = some world') :
    ∃ ok balances, env.transfer world.chain world.balances address payment.receiver
        payment.amount = some (ok, balances) ∧
      world' = { world with balances, payments := world.payments ++ [payment] } := by
  obtain ⟨⟨ok, balances⟩, htransfer, rfl⟩ := Option.map_eq_some_iff.mp h
  exact ⟨ok, balances, htransfer, rfl⟩

/-- A transfer within the balance succeeds, and takes no more than its amount. -/
theorem exists_transfer (htoken : env.StandardToken) (hreceiver : payment.receiver ≠ 0)
    (h : payment.amount.toNat ≤ world.balances address) :
    ∃ balances, world.transfer env address payment =
        some { world with balances, payments := world.payments ++ [payment] } ∧
      world.balances address ≤ balances address + payment.amount.toNat := by
  obtain ⟨⟨ok, balances⟩, htransfer⟩ := Option.isSome_iff_exists.mp
    (htoken.succeeds world.chain world.balances address payment.receiver payment.amount hreceiver h)
  obtain ⟨-, -, rfl⟩ := htoken.reverts _ _ _ _ _ _ _ htransfer
  refine ⟨_, by rw [transfer, htransfer]; rfl, ?_⟩
  unfold movedBalances
  by_cases hself : address = payment.receiver
  · simp only [hself, Function.update_self]
    omega
  · simp only [Function.update_of_ne hself, Function.update_self]
    omega

end World

/-- `transfer` of a token that reverts on an insufficient balance. -/
def ledgerTransfer {Chain : Type} (_ : Chain) (balances : Address → ℕ) (holder receiver : Address)
    (amount : U256) : Option (Bool × (Address → ℕ)) :=
  if amount.toNat ≤ balances holder then
    some (true, movedBalances balances holder receiver amount.toNat)
  else none

/-- A token that reverts on an insufficient balance is a standard one. -/
theorem standardToken_ledger {Chain : Type} {env : Externals Chain}
    (h : env.transfer = ledgerTransfer) : env.StandardToken where
  reverts chain balances holder receiver amount ok balances' htransfer := by
    rw [h, ledgerTransfer] at htransfer
    split at htransfer
    · rename_i hbalance
      cases htransfer
      exact ⟨rfl, hbalance, rfl⟩
    · cases htransfer
  succeeds chain balances holder receiver amount _ hbalance := by
    rw [h, ledgerTransfer, if_pos hbalance]
    rfl

/-- Where a call that pays stands: the transfer has been requested, or the tokens have moved. -/
inductive TransferPhase where
  | requested
  | moved
deriving DecidableEq

/-- Revert with an error on a condition. -/
def revertIf {ε : Type} (condition : Prop) [Decidable condition] (err : ε) : Except ε Unit :=
  if condition then .error err else .ok ()

/-- The result of a view, or its revert. -/
def orRevert {ε α : Type} (err : ε) : Option α → Except ε α
  | some value => .ok value
  | none => .error err

@[simp] theorem revertIf_eq_ok {ε : Type} {condition : Prop} [Decidable condition] {err : ε}
    {u : Unit} : revertIf condition err = .ok u ↔ ¬condition := by
  unfold revertIf
  split <;> simp [*]

@[simp] theorem orRevert_eq_ok {ε α : Type} {err : ε} {result : Option α} {value : α} :
    orRevert err result = .ok value ↔ result = some value := by
  cases result <;> simp [orRevert]

end WorldcoinAggregation
