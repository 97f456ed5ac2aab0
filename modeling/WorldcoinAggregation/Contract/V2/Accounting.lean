import WorldcoinAggregation.Contract.V2.MerkleClaims

/-!
# Accounting of the V2 contract

A nullifier hash is marked before its transfer, and other code gets control in between. `Accounted`
is the invariant over all interleavings: the used nullifier hashes are those that have been paid
for and those whose transfer is requested by a call in flight, each exactly once. The recorded
claims roots are those of the accepted SNARKs.
-/

namespace WorldcoinAggregation

open CallStack

namespace WorldcoinAggregationV2

variable {Chain : Type} {agg : WorldcoinAggregationV2} {env : Externals Chain} {address : Address}

/-- The call that a frame belongs to. -/
def Frame.call : Frame Chain → Call
  | .started call => call
  | .transferring args _ _ => .claim args
  | .finished call => call

/-- The nullifier hash that a call has marked and not paid for. -/
def Frame.pending? : Frame Chain → Option U256
  | .transferring _ payment .requested => some payment.nullifierHash
  | _ => none

/-- The nullifier hashes that the calls in flight have marked and not paid for. -/
def pending (calls : List (InFlight (World Chain) (Frame Chain))) : List U256 :=
  calls.filterMap fun call => call.frame.pending?

/-- A payment is for a claim that passed its checks. -/
def Backed (agg : WorldcoinAggregationV2) (env : Externals Chain) (admits : Call → Prop)
    (storage : Storage) (payment : Payment Chain) : Prop :=
  ∃ args, admits (.claim args) ∧ Claim.Checked agg env storage args payment

/-- The books of the contract. -/
structure Accounted (agg : WorldcoinAggregationV2) (env : Externals Chain) (admits : Call → Prop)
    (world : World Chain) (calls : List (InFlight (World Chain) (Frame Chain))) : Prop where
  admitted : ∀ call ∈ calls, admits call.frame.call
  spent : SpentOnce world.storage.nullifierHashes world.paid (pending calls)
  requested : ∀ call ∈ calls, ∀ args payment phase,
    call.frame = .transferring args payment phase →
      Claim.Checked agg env world.storage args payment
  backed : ∀ payment ∈ world.payments, Backed agg env admits world.storage payment
  recorded : ∀ root claimsRoot, world.storage.validClaimsRoots root claimsRoot = true ↔
    ∃ accepted ∈ world.verified, root = accepted.1.root ∧ claimsRoot = accepted.1.claimsRoot
  verified : ∀ accepted ∈ world.verified, admits (.validateClaimsRoot accepted.1) ∧
    ValidateClaimsRoot.Checked agg env accepted.2 accepted.1

/-! ## One step -/

variable {storage storage' : Storage} {payment : Payment Chain} {args : Claim}
  {admits : Call → Prop}

/-- Every claims root recorded in one storage is recorded in another. -/
def Storage.RootsLe (storage storage' : Storage) : Prop :=
  ∀ root claimsRoot, storage.validClaimsRoots root claimsRoot = true →
    storage'.validClaimsRoots root claimsRoot = true

/-- Recording keeps the recorded claims roots. -/
theorem Storage.rootsLe_record (storage : Storage) (root claimsRoot : U256) :
    storage.RootsLe (storage.record root claimsRoot) :=
  fun _ _ h => Storage.record_eq_true.mpr (.inr h)

/-- More recorded claims roots keep the checks of a claim. -/
theorem Claim.Checked.mono (h : args.Checked agg env storage payment)
    (hle : storage.RootsLe storage') : args.Checked agg env storage' payment :=
  ⟨h.grantId_eq, h.receiver_eq, h.nullifierHash_eq, h.receiver_ne, h.valid, h.amount_eq,
    h.length_eq, hle _ _ h.recorded⟩

/-- More recorded claims roots keep what backs a payment. -/
theorem Backed.mono (h : Backed agg env admits storage payment) (hle : storage.RootsLe storage') :
    Backed agg env admits storage' payment :=
  ⟨h.choose, h.choose_spec.1, h.choose_spec.2.mono hle⟩

variable {world world' entry : World Chain} {frame frame' : Frame Chain}
  {calls : List (InFlight (World Chain) (Frame Chain))}

/-- Marking the nullifier hash of a claim and requesting its payment. -/
theorem Accounted.claim
    (h : Accounted agg env admits world (⟨entry, .started (.claim args)⟩ :: calls))
    (hunused : world.storage.nullifierHashes args.nullifierHash = false)
    (hchecked : args.Checked agg env world.storage payment) :
    Accounted agg env admits { world with storage := world.storage.use args.nullifierHash }
      (⟨entry, .transferring args payment .requested⟩ :: calls) := by
  obtain ⟨hadmitted, hadmits⟩ := List.forall_mem_cons.mp h.admitted
  obtain ⟨-, hrequested⟩ := List.forall_mem_cons.mp h.requested
  have hle : world.storage.RootsLe (world.storage.use args.nullifierHash) := fun _ _ h => h
  refine ⟨List.forall_mem_cons.mpr ⟨hadmitted, hadmits⟩, ?_, ?_, ?_, h.recorded, h.verified⟩
  -- the nullifier hash is marked and pending from here on
  · have hspent : SpentOnce (world.storage.use args.nullifierHash).nullifierHashes world.paid
        (payment.nullifierHash :: pending calls) := by
      rw [hchecked.nullifierHash_eq]
      exact h.spent.mark hunused
    exact hspent
  · refine List.forall_mem_cons.mpr ⟨?_, ?_⟩
    · rintro _ _ _ ⟨rfl, rfl⟩
      exact hchecked.mono hle
    · exact fun call hcall args payment phase hframe =>
        (hrequested call hcall args payment phase hframe).mono hle
  · exact fun payment hpayment => (h.backed payment hpayment).mono hle

/-- Recording a claims root. -/
theorem Accounted.validateClaimsRoot {args : ValidateClaimsRoot}
    (h : Accounted agg env admits world (⟨entry, .started (.validateClaimsRoot args)⟩ :: calls))
    (hchecked : args.Checked agg env world.chain) :
    Accounted agg env admits { world with
        storage := world.storage.record args.root args.claimsRoot
        verified := world.verified ++ [(args, world.chain)] }
      (⟨entry, .finished (.validateClaimsRoot args)⟩ :: calls) := by
  obtain ⟨hadmitted, hadmits⟩ := List.forall_mem_cons.mp h.admitted
  obtain ⟨-, hrequested⟩ := List.forall_mem_cons.mp h.requested
  have hle := world.storage.rootsLe_record args.root args.claimsRoot
  refine ⟨List.forall_mem_cons.mpr ⟨hadmitted, hadmits⟩, h.spent, ?_, ?_, ?_, ?_⟩
  · refine List.forall_mem_cons.mpr ⟨fun _ _ _ hframe => (nomatch hframe), ?_⟩
    exact fun call hcall args payment phase hframe =>
      (hrequested call hcall args payment phase hframe).mono hle
  · exact fun payment hpayment => (h.backed payment hpayment).mono hle
  · intro root claimsRoot
    rw [Storage.record_eq_true, h.recorded]
    simp [or_and_right, exists_or, or_comm]
  · intro accepted haccepted
    rcases List.mem_append.mp haccepted with haccepted | haccepted
    · exact h.verified accepted haccepted
    · rw [List.mem_singleton.mp haccepted]
      exact ⟨hadmitted, hchecked⟩

/-- Moving the tokens. -/
theorem Accounted.transfer {balances : Address → ℕ}
    (h : Accounted agg env admits world (⟨entry, .transferring args payment .requested⟩ :: calls)) :
    Accounted agg env admits
      { world with balances, payments := world.payments ++ [payment] }
      (⟨entry, .transferring args payment .moved⟩ :: calls) := by
  obtain ⟨hadmitted, hadmits⟩ := List.forall_mem_cons.mp h.admitted
  obtain ⟨hchecked, hrequested⟩ := List.forall_mem_cons.mp h.requested
  have hpayment := hchecked args payment .requested rfl
  refine ⟨List.forall_mem_cons.mpr ⟨hadmitted, hadmits⟩, ?_, ?_, ?_, h.recorded, h.verified⟩
  -- the pending nullifier hash is paid for
  · have hspent : SpentOnce world.storage.nullifierHashes
        ((world.payments ++ [payment]).map Payment.nullifierHash) (pending calls) := by
      rw [List.map_append, List.map_singleton]
      exact h.spent.pay
    exact hspent
  · refine List.forall_mem_cons.mpr ⟨?_, hrequested⟩
    rintro _ _ _ ⟨rfl, rfl⟩
    exact hpayment
  · intro other hother
    rcases List.mem_append.mp hother with hother | hother
    · exact h.backed other hother
    · rw [List.mem_singleton.mp hother]
      exact ⟨args, hadmitted, hpayment⟩

/-- Leaving the transfer. -/
theorem Accounted.resume {events : List GrantClaimed}
    (h : Accounted agg env admits world (⟨entry, .transferring args payment .moved⟩ :: calls)) :
    Accounted agg env admits { world with events } (⟨entry, .finished (.claim args)⟩ :: calls) := by
  obtain ⟨hadmitted, hadmits⟩ := List.forall_mem_cons.mp h.admitted
  obtain ⟨-, hrequested⟩ := List.forall_mem_cons.mp h.requested
  exact ⟨List.forall_mem_cons.mpr ⟨hadmitted, hadmits⟩, h.spent,
    List.forall_mem_cons.mpr ⟨fun _ _ _ hframe => (nomatch hframe), hrequested⟩, h.backed,
    h.recorded, h.verified⟩

/-- The books are in order before and after every stretch of a call, and whatever other code
does. -/
theorem preserves_accounted (agg : WorldcoinAggregationV2) (env : Externals Chain)
    (address : Address) (admits : Call → Prop) :
    Preserves (agg.contract env address) admits (Accounted agg env admits) where
  enter h _ hadmits :=
    ⟨List.forall_mem_cons.mpr ⟨hadmits, h.admitted⟩, h.spent,
      List.forall_mem_cons.mpr ⟨fun _ _ _ hframe => (nomatch hframe), h.requested⟩, h.backed,
      h.recorded, h.verified⟩
  advance h hstep := by
    rcases advance_cases hstep with ⟨args, payment, rfl, rfl, hunused, hchecked, rfl⟩ |
      ⟨args, rfl, rfl, hchecked, rfl⟩ | ⟨args, payment, ok, balances, rfl, rfl, -, rfl⟩ |
      ⟨args, payment, rfl, rfl, rfl⟩
    · exact h.claim hunused hchecked
    · exact h.validateClaimsRoot hchecked
    · exact h.transfer
    · exact h.resume
  ret {world entry frame calls} h hreturns := by
    have hpending : pending (⟨entry, frame⟩ :: calls) = pending calls := by
      cases frame with
      | started call => cases hreturns
      | transferring args payment phase => cases hreturns
      | finished call => rfl
    exact ⟨(List.forall_mem_cons.mp h.admitted).2, hpending ▸ h.spent,
      (List.forall_mem_cons.mp h.requested).2, h.backed, h.recorded, h.verified⟩
  outside h _ houtside := by
    obtain ⟨balances, chain, rfl⟩ := houtside
    exact ⟨h.admitted, h.spent, h.requested, h.backed, h.recorded, h.verified⟩

/-- The books of a contract that has just been deployed. -/
theorem accounted_deployed (agg : WorldcoinAggregationV2) (env : Externals Chain)
    (admits : Call → Prop) (balances : Address → ℕ) (chain : Chain) :
    Accounted agg env admits (deployed balances chain) [] where
  admitted := by simp
  spent := .init
  requested := by simp
  backed := by simp [deployed]
  recorded := by simp [deployed]
  verified := by simp [deployed]

/-! ## Whole runs -/

variable {balances : Address → ℕ} {chain : Chain} {entered : List Call}
  {s s' : State (World Chain) (Frame Chain)}

/-- The books are in order throughout every run from deployment, in which all calls are among those
that the run makes. -/
theorem accounted_of_run
    (hrun : Run (agg.contract env address) ⟨deployed balances chain, []⟩ entered s) :
    Accounted agg env (· ∈ entered) s.world (ownCalls s.stack) :=
  hrun.invariant (preserves_accounted agg env address _) (fun _ hcall => hcall)
    (accounted_deployed agg env _ balances chain)

/-- What the storage of one world has recorded, another one has too. -/
structure Kept (world world' : World Chain) : Prop where
  claimsRoots : world.storage.RootsLe world'.storage
  verified : world.verified ⊆ world'.verified

/-- Nothing that is recorded while no call is in flight is removed later. -/
theorem kept_of_run (hrun : Run (agg.contract env address) ⟨world, []⟩ entered s) :
    Kept world s.world := by
  have hpreserves : Preserves (agg.contract env address) (fun _ => True)
      fun world' _ => Kept world world' := by
    refine ⟨fun h _ _ => h, ?_, fun h _ => h, ?_⟩
    · intro world₁ world₂ entry frame frame' calls h hstep
      rcases advance_cases hstep with ⟨args, payment, -, -, -, -, rfl⟩ | ⟨args, -, -, -, rfl⟩ |
        ⟨args, payment, ok, balances, -, -, -, rfl⟩ | ⟨args, payment, -, -, rfl⟩
      · exact ⟨h.claimsRoots, h.verified⟩
      · exact ⟨fun root claimsRoot hroot => Storage.rootsLe_record _ _ _ _ _
          (h.claimsRoots root claimsRoot hroot),
          List.Subset.trans h.verified (List.subset_append_left _ _)⟩
      · exact ⟨h.claimsRoots, h.verified⟩
      · exact ⟨h.claimsRoots, h.verified⟩
    · rintro world₁ _ calls h - ⟨balances, chain, rfl⟩
      exact ⟨h.claimsRoots, h.verified⟩
  exact hrun.invariant hpreserves (fun _ _ => trivial) ⟨fun _ _ h => h, List.Subset.refl _⟩

/-- Repeating an accepted validation, whoever repeats it, changes neither storage nor balances,
payments and events. -/
theorem Accounted.repeated (h : Accounted agg env admits world calls) {args : ValidateClaimsRoot}
    {at_ : Chain} (haccepted : (args, at_) ∈ world.verified) {sender : Address}
    (hstep : agg.advance env address world
      (.started (.validateClaimsRoot { args with sender })) = some (world', frame')) :
    world'.storage = world.storage ∧ world'.balances = world.balances ∧
      world'.payments = world.payments ∧ world'.events = world.events := by
  have hrecorded : world.storage.validClaimsRoots args.root args.claimsRoot = true :=
    (h.recorded _ _).mpr ⟨_, haccepted, rfl, rfl⟩
  rcases advance_cases hstep with ⟨_, _, hframe, -⟩ | ⟨_, hframe, -, -, rfl⟩ |
    ⟨_, _, _, _, hframe, -⟩ | ⟨_, _, hframe, -⟩ <;> cases hframe
  exact ⟨Storage.record_self hrecorded, rfl, rfl, rfl⟩

/-- What holds after a run of these calls. Without a call of the contract in flight, a nullifier
hash has been paid for once if it is used and never otherwise. Every payment is backed by a claim
under a recorded root, and every recorded root by an authorised validation. What is recorded while
nothing is in flight stays recorded. A call of the contract ends by returning or by a revert, which
leaves the world as the call found it. An accepted validation may be repeated without effect. -/
structure Accounts (agg : WorldcoinAggregationV2) (env : Externals Chain) (address : Address)
    (entered : List Call) (s : State (World Chain) (Frame Chain)) : Prop where
  paid_once : ownCalls s.stack = [] → ∀ nullifierHash, s.world.paid.count nullifierHash =
    if s.world.storage.nullifierHashes nullifierHash then 1 else 0
  backed : ∀ payment ∈ s.world.payments,
    ∃ args, .claim args ∈ entered ∧ Claim.Checked agg env s.world.storage args payment
  authorised : ∀ root claimsRoot, s.world.storage.validClaimsRoots root claimsRoot = true →
    ∃ args chain, .validateClaimsRoot args ∈ entered ∧
      ValidateClaimsRoot.Checked agg env chain args ∧
      root = args.root ∧ claimsRoot = args.claimsRoot
  kept : s.stack = [] → ∀ later s', Run (agg.contract env address) s later s' →
    Kept s.world s'.world
  reverted : ∀ call stack calls s', s.stack = .own call :: stack →
    Step (agg.contract env address) s calls s' → s'.stack = stack →
      (agg.contract env address).returns call.frame = true ∧ s'.world = s.world ∨
        s'.world = call.entry
  repeated : ∀ args chain sender world' frame', (args, chain) ∈ s.world.verified →
    agg.advance env address s.world (.started (.validateClaimsRoot { args with sender })) =
      some (world', frame') →
    world'.storage = s.world.storage ∧ world'.balances = s.world.balances ∧
      world'.payments = s.world.payments ∧ world'.events = s.world.events

/-- The accounting of the V2 contract, over every run from deployment. -/
theorem v2_accounting {agg : WorldcoinAggregationV2} {env : Externals Chain} {address : Address}
    {balances : Address → ℕ} {chain : Chain} {entered : List Call}
    {s : State (World Chain) (Frame Chain)}
    (hrun : Run (agg.contract env address) ⟨deployed balances chain, []⟩ entered s) :
    Accounts agg env address entered s := by
  have haccounted := accounted_of_run hrun
  refine ⟨fun hidle n => ?_, haccounted.backed, fun root claimsRoot hrecorded => ?_,
    fun hidle later s' hlater => ?_, fun call stack calls s' hstack hstep hend => ?_,
    fun args chain sender world' frame' haccepted hstep => haccounted.repeated haccepted hstep⟩
  · have hspent := haccounted.spent
    rw [hidle] at hspent
    exact hspent.count_eq n
  · obtain ⟨accepted, haccepted, rfl, rfl⟩ := (haccounted.recorded root claimsRoot).mp hrecorded
    obtain ⟨hentered, hchecked⟩ := haccounted.verified accepted haccepted
    exact ⟨accepted.1, accepted.2, hentered, hchecked, rfl, rfl⟩
  · obtain ⟨world, stack⟩ := s
    cases hidle
    exact kept_of_run hlater
  · obtain ⟨world, stack'⟩ := s
    cases hstack
    exact hstep.ends hend

/-- The run that validates a root and pays the second claim under it. -/
theorem exists_run_pairClaim : ∃ s, Run (pairContract.contract pairExternals 9)
      ⟨deployed (fun _ => 10) (), []⟩ [.validateClaimsRoot pairValidation, .claim pairClaim] s ∧
    s.world.paid = [6] := by
  have hyields := (pairContract.contract pairExternals 9).yields_nil
  obtain ⟨world, hcompletes, -, hpayments⟩ := exists_completes_claim 9 (standardToken_ledger rfl)
    rfl checked_pairClaim rfl (by decide)
  refine ⟨⟨world, []⟩, (run_pairValidation 9).trans (hcompletes.call hyields), ?_⟩
  rw [World.paid, hpayments]
  rfl

/-- A root is validated, and the second claim under it is paid. -/
theorem v2_accounting_pair : ∃ entered s, s.world.paid = [6] ∧
    Accounts pairContract pairExternals 9 entered s := by
  obtain ⟨s, hrun, hpaid⟩ := exists_run_pairClaim
  exact ⟨_, s, hpaid, v2_accounting hrun⟩

end WorldcoinAggregationV2

end WorldcoinAggregation
