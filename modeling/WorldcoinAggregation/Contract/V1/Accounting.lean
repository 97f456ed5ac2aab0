import WorldcoinAggregation.Base.Keccak
import WorldcoinAggregation.Contract.V1.Packing

/-!
# Accounting of the V1 contract

A batch may be interrupted in each of its transfers, by other batches too. `Accounted` is the
invariant over all interleavings: every call in flight has paid the first of its claims, one after
another, and the used nullifier hashes are those that have been paid for and those whose transfer
is requested, each exactly once. That the nullifier hashes of a batch are distinct and were unused
follows, because all its payments come after those that the call found.
-/

namespace WorldcoinAggregation

open CallStack

namespace WorldcoinAggregationV1

variable {Chain : Type} {agg : WorldcoinAggregationV1} {env : Externals Chain} {address : Address}
  {args : DistributeGrants} {payment : Payment Chain} {payments : List (Payment Chain)}

/-- One more claim is paid. -/
theorem DistributeGrants.PaysFirst.append (h : args.PaysFirst env payments)
    (hpays : args.Pays env payments.length payment) :
    args.PaysFirst env (payments ++ [payment]) := by
  intro i other hother
  rcases Nat.lt_or_ge i payments.length with hlt | hge
  · rw [List.getElem?_append_left hlt] at hother
    exact h i other hother
  · rw [List.getElem?_append_right hge, List.getElem?_singleton] at hother
    split at hother
    · obtain rfl : i = payments.length := by omega
      cases hother
      exact hpays
    · cases hother

/-- No claim is paid yet. -/
theorem DistributeGrants.PaysFirst.nil : args.PaysFirst env ([] : List (Payment Chain)) := by
  intro i payment hpayment
  cases hpayment

/-- Two claims are paid. -/
theorem DistributeGrants.PaysFirst.pair {first second : Payment Chain}
    (hfirst : args.Pays env 0 first) (hsecond : args.Pays env 1 second) :
    args.PaysFirst env [first, second] :=
  (PaysFirst.nil.append hfirst).append hsecond

/-- A call has paid the first of its claims, and has emitted the events of all these payments but
the one that it is in. -/
inductive Progress (env : Externals Chain) (args : DistributeGrants) :
    Phase Chain → List (Payment Chain) → List GrantClaimed → Prop where
  | started : Progress env args .started [] []
  | loop {payments : List (Payment Chain)} (hle : payments.length ≤ args.numClaims.toNat)
      (hpays : args.PaysFirst env payments) :
      Progress env args (.loop payments.length) payments (payments.map Payment.event)
  | requested {payments : List (Payment Chain)} {payment : Payment Chain}
      (hlt : payments.length < args.numClaims.toNat) (hpays : args.PaysFirst env payments)
      (hpayment : args.Pays env payments.length payment) :
      Progress env args (.transferring payments.length payment .requested) payments
        (payments.map Payment.event)
  | moved {payments : List (Payment Chain)} {payment : Payment Chain}
      (hlt : payments.length < args.numClaims.toNat) (hpays : args.PaysFirst env payments)
      (hpayment : args.Pays env payments.length payment) :
      Progress env args (.transferring payments.length payment .moved) (payments ++ [payment])
        (payments.map Payment.event)

/-- The nullifier hash that a call has marked and not paid for. -/
def Frame.pending? (frame : Frame Chain) : Option U256 :=
  match frame.phase with
  | .transferring _ payment .requested => some payment.nullifierHash
  | _ => none

/-- The nullifier hashes that the calls in flight have marked and not paid for. -/
def pending (calls : List (InFlight (World Chain) (Frame Chain))) : List U256 :=
  calls.filterMap fun call => call.frame.pending?

/-- A call in flight is in order: what it has paid and emitted is in the logs of the world. -/
structure InOrder (agg : WorldcoinAggregationV1) (env : Externals Chain)
    (admits : DistributeGrants → Prop) (world : World Chain)
    (call : InFlight (World Chain) (Frame Chain)) : Prop where
  admitted : admits call.frame.args
  checked : call.frame.phase ≠ .started → ∃ chain, (call.frame.args, chain) ∈ world.verified ∧
    call.frame.args.Checked agg env chain
  progress : Progress env call.frame.args call.frame.phase call.frame.made call.frame.emitted
  made : AddedSince call.entry.payments world.payments call.frame.made
  emitted : AddedSince call.entry.events world.events call.frame.emitted

/-- A payment is for a claim of a batch that passed its checks. -/
def Backed (agg : WorldcoinAggregationV1) (env : Externals Chain)
    (admits : DistributeGrants → Prop) (verified : List (DistributeGrants × Chain))
    (payment : Payment Chain) : Prop :=
  ∃ accepted ∈ verified, admits accepted.1 ∧
    DistributeGrants.Checked agg env accepted.2 accepted.1 ∧ ∃ i, accepted.1.Pays env i payment

/-- Accepting more batches keeps what backs a payment. -/
theorem Backed.mono {admits : DistributeGrants → Prop}
    {verified verified' : List (DistributeGrants × Chain)}
    (h : Backed agg env admits verified payment) (hle : verified ⊆ verified') :
    Backed agg env admits verified' payment := by
  obtain ⟨accepted, haccepted, hbacked⟩ := h
  exact ⟨accepted, hle haccepted, hbacked⟩

/-- The books of the contract. -/
structure Accounted (agg : WorldcoinAggregationV1) (env : Externals Chain)
    (admits : DistributeGrants → Prop) (world : World Chain)
    (calls : List (InFlight (World Chain) (Frame Chain))) : Prop where
  inOrder : ∀ call ∈ calls, InOrder agg env admits world call
  spent : SpentOnce world.storage.nullifierHashes world.paid (pending calls)
  backed : ∀ payment ∈ world.payments, Backed agg env admits world.verified payment

/-! ## One step -/

variable {admits : DistributeGrants → Prop} {world world' entry : World Chain}
  {frame frame' : Frame Chain} {calls : List (InFlight (World Chain) (Frame Chain))}
  {call : InFlight (World Chain) (Frame Chain)}

/-- A call stays in order while the logs grow. -/
theorem InOrder.mono (h : InOrder agg env admits world call)
    (hverified : world.verified ⊆ world'.verified) (hpayments : world.payments <+: world'.payments)
    (hevents : world.events <+: world'.events) : InOrder agg env admits world' call := by
  refine ⟨h.admitted, fun hphase => ?_, h.progress, h.made.mono hpayments, h.emitted.mono hevents⟩
  obtain ⟨chain, hmem, hchecked⟩ := h.checked hphase
  exact ⟨chain, hverified hmem, hchecked⟩

/-- The other calls stay in order while one of them goes on and the logs grow. -/
theorem Accounted.inOrder_step (h : Accounted agg env admits world (⟨entry, frame⟩ :: calls))
    (hverified : world.verified ⊆ world'.verified) (hpayments : world.payments <+: world'.payments)
    (hevents : world.events <+: world'.events)
    (hframe : InOrder agg env admits world' ⟨entry, frame'⟩) :
    ∀ call ∈ ⟨entry, frame'⟩ :: calls, InOrder agg env admits world' call :=
  List.forall_mem_cons.mpr ⟨hframe, fun call hcall =>
    (h.inOrder call (List.mem_cons_of_mem _ hcall)).mono hverified hpayments hevents⟩

/-- Entering the loop. -/
theorem Accounted.verify (h : Accounted agg env admits world (⟨entry, frame⟩ :: calls))
    (hphase : frame.phase = .started) (hchecked : frame.args.Checked agg env world.chain) :
    Accounted agg env admits
      { world with verified := world.verified ++ [(frame.args, world.chain)] }
      (⟨entry, { frame with phase := .loop 0 }⟩ :: calls) := by
  obtain ⟨hadmitted, -, hprogress, hmade, hemitted⟩ := h.inOrder _ List.mem_cons_self
  obtain ⟨args, phase, made, emitted⟩ := frame
  simp only at hphase hprogress hmade hemitted hadmitted hchecked ⊢
  subst hphase
  cases hprogress
  have hloop : Progress env args (.loop 0) [] [] := .loop (Nat.zero_le _) .nil
  have hverified : world.verified ⊆ world.verified ++ [(args, world.chain)] :=
    List.subset_append_left _ _
  have hmem : (args, world.chain) ∈ world.verified ++ [(args, world.chain)] :=
    List.mem_append_right _ (List.mem_singleton_self _)
  exact ⟨h.inOrder_step hverified (List.prefix_refl _) (List.prefix_refl _)
    ⟨hadmitted, fun _ => ⟨_, hmem, hchecked⟩, hloop, hmade, hemitted⟩, h.spent,
    fun payment hpayment => (h.backed payment hpayment).mono hverified⟩

/-- Marking the nullifier hash of a claim and requesting its payment. -/
theorem Accounted.claim {i : ℕ} {storage : Storage}
    (h : Accounted agg env admits world (⟨entry, frame⟩ :: calls)) (hphase : frame.phase = .loop i)
    (hi : i ≠ frame.args.numClaims.toNat)
    (hclaim : claim env world.chain world.storage frame.args i = .ok (storage, payment)) :
    Accounted agg env admits { world with storage }
      (⟨entry, { frame with phase := .transferring i payment .requested }⟩ :: calls) := by
  obtain ⟨hadmitted, hstarted, hprogress, hmade, hemitted⟩ := h.inOrder _ List.mem_cons_self
  have hspent := h.spent
  obtain ⟨args, phase, made, emitted⟩ := frame
  simp only at hphase hprogress hmade hemitted hadmitted hi hclaim hstarted ⊢
  subst hphase
  obtain ⟨chain, hmem, hchecked⟩ := hstarted (by simp)
  cases hprogress with
  | loop hle hpays =>
      have hlt := lt_of_le_of_ne hle hi
      obtain ⟨hunused, hpayment, -, rfl⟩ := (claim_eq_ok hchecked hlt).mp hclaim
      exact ⟨h.inOrder_step (List.Subset.refl _) (List.prefix_refl _) (List.prefix_refl _)
        ⟨hadmitted, fun _ => ⟨_, hmem, hchecked⟩, .requested hlt hpays hpayment, hmade, hemitted⟩,
        hspent.mark hunused, h.backed⟩

/-- Moving the tokens. -/
theorem Accounted.transfer {i : ℕ} {balances : Address → ℕ}
    (h : Accounted agg env admits world (⟨entry, frame⟩ :: calls))
    (hphase : frame.phase = .transferring i payment .requested) :
    Accounted agg env admits { world with balances, payments := world.payments ++ [payment] }
      (⟨entry, { frame with
        phase := .transferring i payment .moved
        made := frame.made ++ [payment] }⟩ :: calls) := by
  obtain ⟨hadmitted, hstarted, hprogress, hmade, hemitted⟩ := h.inOrder _ List.mem_cons_self
  have hspent := h.spent
  obtain ⟨args, phase, made, emitted⟩ := frame
  simp only at hphase hprogress hmade hemitted hadmitted hstarted ⊢
  subst hphase
  obtain ⟨chain, hmem, hchecked⟩ := hstarted (by simp)
  cases hprogress with
  | requested hlt hpays hpayment =>
      refine ⟨h.inOrder_step (List.Subset.refl _) (List.prefix_append _ _) (List.prefix_refl _)
        ⟨hadmitted, fun _ => ⟨_, hmem, hchecked⟩, .moved hlt hpays hpayment, hmade.add payment,
          hemitted⟩, ?_, ?_⟩
      -- the pending nullifier hash of the call is paid for
      · have hpaid : SpentOnce world.storage.nullifierHashes
            ((world.payments ++ [payment]).map Payment.nullifierHash) (pending calls) := by
          rw [List.map_append, List.map_singleton]
          exact hspent.pay
        exact hpaid
      · intro other hother
        rcases List.mem_append.mp hother with hother | hother
        · exact h.backed other hother
        · rw [List.mem_singleton.mp hother]
          exact ⟨(args, chain), hmem, hadmitted, hchecked, _, hpayment⟩

/-- Emitting the event and going on with the next claim. -/
theorem Accounted.resume {i : ℕ} (h : Accounted agg env admits world (⟨entry, frame⟩ :: calls))
    (hphase : frame.phase = .transferring i payment .moved) :
    Accounted agg env admits { world with events := world.events ++ [payment.event] }
      (⟨entry, { frame with
        phase := .loop (i + 1)
        emitted := frame.emitted ++ [payment.event] }⟩ :: calls) := by
  obtain ⟨hadmitted, hstarted, hprogress, hmade, hemitted⟩ := h.inOrder _ List.mem_cons_self
  have hspent := h.spent
  obtain ⟨args, phase, made, emitted⟩ := frame
  simp only at hphase hprogress hmade hemitted hadmitted hstarted ⊢
  subst hphase
  obtain ⟨chain, hmem, hchecked⟩ := hstarted (by simp)
  cases hprogress with
  | @moved payments _ hlt hpays hpayment =>
      have hlength : (payments ++ [payment]).length ≤ args.numClaims.toNat := by
        rw [List.length_append, List.length_singleton]
        exact hlt
      have hnext := Progress.loop hlength (hpays.append hpayment)
      rw [List.length_append, List.map_append] at hnext
      exact ⟨h.inOrder_step (List.Subset.refl _) (List.prefix_refl _) (List.prefix_append _ _)
        ⟨hadmitted, fun _ => ⟨_, hmem, hchecked⟩, hnext, hmade, hemitted.add _⟩, hspent, h.backed⟩

/-- The books are in order before and after every stretch of a call, and whatever other code
does. -/
theorem preserves_accounted (agg : WorldcoinAggregationV1) (env : Externals Chain)
    (address : Address) (admits : DistributeGrants → Prop) :
    Preserves (agg.contract env address) admits (Accounted agg env admits) where
  enter h _ hadmits :=
    ⟨List.forall_mem_cons.mpr ⟨⟨hadmits, fun hne => absurd rfl hne, .started, .refl _, .refl _⟩,
      h.inOrder⟩, h.spent, h.backed⟩
  advance h hstep := by
    rcases advance_cases hstep with ⟨hphase, hchecked, rfl, rfl⟩ |
      ⟨i, payment, storage, hphase, hi, hclaim, rfl, rfl⟩ |
      ⟨i, payment, ok, balances, hphase, -, rfl, rfl⟩ | ⟨i, payment, hphase, rfl, rfl⟩
    · exact h.verify hphase hchecked
    · exact h.claim hphase hi hclaim
    · exact h.transfer hphase
    · exact h.resume hphase
  -- a call that returns has nothing pending, since it is in front of an iteration
  ret {world entry frame calls} h hreturns := by
    have hpending : pending (⟨entry, frame⟩ :: calls) = pending calls := by
      simp only [contract] at hreturns
      split at hreturns
      · rename_i i hphase
        simp [pending, Frame.pending?, hphase]
      · cases hreturns
    exact ⟨(List.forall_mem_cons.mp h.inOrder).2, hpending ▸ h.spent, h.backed⟩
  outside h _ houtside := by
    obtain ⟨balances, chain, rfl⟩ := houtside
    exact ⟨fun call hcall => (h.inOrder call hcall).mono (List.Subset.refl _) (List.prefix_refl _)
      (List.prefix_refl _), h.spent, h.backed⟩

/-- The books of a contract that has just been deployed. -/
theorem accounted_deployed (agg : WorldcoinAggregationV1) (env : Externals Chain)
    (admits : DistributeGrants → Prop) (balances : Address → ℕ) (chain : Chain) :
    Accounted agg env admits (deployed balances chain) [] where
  inOrder := by simp
  spent := .init
  backed := by simp [deployed]

/-! ## Whole runs -/

variable {balances : Address → ℕ} {chain : Chain} {entered : List DistributeGrants}
  {s s' : State (World Chain) (Frame Chain)}

/-- The books are in order throughout every run from deployment, in which all calls are among those
that the run makes. -/
theorem accounted_of_run
    (hrun : Run (agg.contract env address) ⟨deployed balances chain, []⟩ entered s) :
    Accounted agg env (· ∈ entered) s.world (ownCalls s.stack) :=
  hrun.invariant (preserves_accounted agg env address _) (fun _ hcall => hcall)
    (accounted_deployed agg env _ balances chain)

/-- A batch has been distributed by a call, whose own payments and events these are. Event `i` names
grant `i` and receiver `i` of the batch. -/
structure Distributed (env : Externals Chain) (args : DistributeGrants) (entry world : World Chain)
    (made : List (Payment Chain)) (emitted : List GrantClaimed) : Prop where
  length_eq : made.length = args.numClaims.toNat
  pays : args.PaysFirst env made
  events_eq : emitted = List.zipWith GrantClaimed.mk args.grantIds args.receivers
  made : AddedSince entry.payments world.payments made
  emitted : AddedSince entry.events world.events emitted
  nodup : args.nullifierHashes.Nodup
  unused : ∀ nullifierHash ∈ args.nullifierHashes,
    entry.storage.nullifierHashes nullifierHash = false

/-- The nullifier hashes of a batch whose claims are all paid. -/
theorem DistributeGrants.Checked.map_nullifierHash {made : List (Payment Chain)}
    (h : args.Checked agg env chain) (hlength : made.length = args.numClaims.toNat)
    (hpays : args.PaysFirst env made) :
    made.map Payment.nullifierHash = args.nullifierHashes := by
  refine List.ext_getElem? fun i => ?_
  rw [List.getElem?_map]
  rcases Nat.lt_or_ge i made.length with hlt | hge
  · rw [List.getElem?_eq_getElem hlt]
    exact (hpays i _ (List.getElem?_eq_getElem hlt)).nullifierHash_eq.symm
  · rw [List.getElem?_eq_none hge,
      List.getElem?_eq_none (by rw [h.length_nullifierHashes, ← hlength]; exact hge)]
    rfl

/-- The events of a batch whose claims are all paid. -/
theorem DistributeGrants.Checked.map_event {made : List (Payment Chain)}
    (h : args.Checked agg env chain) (hlength : made.length = args.numClaims.toNat)
    (hpays : args.PaysFirst env made) :
    made.map Payment.event = List.zipWith GrantClaimed.mk args.grantIds args.receivers := by
  refine List.ext_getElem? fun i => ?_
  rw [List.getElem?_map, List.getElem?_zipWith]
  rcases Nat.lt_or_ge i made.length with hlt | hge
  · have hpaid := hpays i _ (List.getElem?_eq_getElem hlt)
    rw [List.getElem?_eq_getElem hlt, hpaid.grantId_eq, hpaid.receiver_eq]
    rfl
  · rw [List.getElem?_eq_none hge,
      List.getElem?_eq_none (by rw [h.length_grantIds, ← hlength]; exact hge)]
    rfl

/-- A call that returns has distributed its batch. -/
theorem Accounted.distributed
    (h : Accounted agg env admits world (⟨entry, frame⟩ :: calls))
    (hentry : Accounted agg env admits entry calls)
    (hreturns : (agg.contract env address).returns frame = true) :
    Distributed env frame.args entry world frame.made frame.emitted := by
  have hspent := h.spent
  obtain ⟨-, hstarted, hprogress, hmade, hemitted⟩ := h.inOrder _ List.mem_cons_self
  obtain ⟨args, phase, made, emitted⟩ := frame
  simp only [contract] at hreturns hstarted hprogress hmade hemitted ⊢
  cases hprogress with
  | started | requested | moved => cases hreturns
  | loop hle hpays =>
      have hlength : made.length = args.numClaims.toNat := of_decide_eq_true hreturns
      obtain ⟨chain, -, hchecked⟩ := hstarted (by simp)
      have hnullifiers := hchecked.map_nullifierHash hlength hpays
      obtain ⟨later, hpayments, hsub⟩ := hmade
      -- the payments of the call come after those that it found
      have hlater : SpentOnce world.storage.nullifierHashes
          (entry.paid ++ later.map Payment.nullifierHash) (pending calls) := by
        rw [World.paid, ← List.map_append, ← hpayments]
        exact hspent
      obtain ⟨hnodup, hdisjoint⟩ := hlater.disjoint_of_append
      have hbatch : args.nullifierHashes.Sublist (later.map Payment.nullifierHash) := by
        rw [← hnullifiers]
        exact hsub.map _
      refine ⟨hlength, hpays, hchecked.map_event hlength hpays, ⟨later, hpayments, hsub⟩,
        hemitted, hbatch.nodup hnodup, ?_⟩
      intro nullifierHash hmem
      obtain ⟨hpaid, hpending⟩ := hdisjoint nullifierHash (hbatch.subset hmem)
      rw [Bool.eq_false_iff, ne_eq, ← hentry.spent.mem_iff, List.mem_append]
      exact fun hused => hused.elim hpaid hpending

/-- What holds after a run of these calls. Without a nullifier hash whose transfer is under way, a
nullifier hash has been paid for once if it is used and never otherwise. Every payment is for a
claim of a batch that passed its checks. A call that makes a payment moves its amount. A call ends
by a revert, which leaves the world as the call found it, or by returning, and then it has
distributed its batch. -/
structure Accounts (agg : WorldcoinAggregationV1) (env : Externals Chain) (address : Address)
    (entered : List DistributeGrants) (s : State (World Chain) (Frame Chain)) : Prop where
  paid_once : pending (ownCalls s.stack) = [] → ∀ nullifierHash,
    s.world.paid.count nullifierHash =
      if s.world.storage.nullifierHashes nullifierHash then 1 else 0
  backed : ∀ payment ∈ s.world.payments, Backed agg env (· ∈ entered) s.world.verified payment
  moved : ∀ call frame payment stack calls s', s.stack = .own call :: stack →
    Step (agg.contract env address) s calls s' → s'.stack = .own ⟨call.entry, frame⟩ :: stack →
      frame.made = call.frame.made ++ [payment] →
        payment.amount.toNat ≤ s.world.balances address ∧
          s'.world.balances = movedBalances s.world.balances address payment.receiver
            payment.amount.toNat ∧
          s'.world.payments = s.world.payments ++ [payment]
  ended : ∀ call stack calls s', s.stack = .own call :: stack →
    Step (agg.contract env address) s calls s' → s'.stack = stack →
      s'.world = call.entry ∨
        s'.world = s.world ∧ Distributed env call.frame.args call.entry s'.world call.frame.made
          call.frame.emitted

/-- A step in which a call makes a payment moves its amount. -/
theorem moved_of_step (htoken : env.RevertsOnFailure)
    {stack : List (Activation (World Chain) (Frame Chain))}
    (hstep : Step (agg.contract env address) ⟨world, .own ⟨entry, frame⟩ :: stack⟩ entered s)
    (hstack : s.stack = .own ⟨entry, frame'⟩ :: stack)
    (hmade : frame'.made = frame.made ++ [payment]) :
    payment.amount.toNat ≤ world.balances address ∧
      s.world.balances = movedBalances world.balances address payment.receiver
        payment.amount.toNat ∧
      s.world.payments = world.payments ++ [payment] := by
  have hne : frame.made ≠ frame.made ++ [payment] := fun heq => by
    have hlength := congrArg List.length heq
    rw [List.length_append, List.length_singleton] at hlength
    omega
  cases hstep with
  | advance h =>
      cases hstack
      rcases advance_cases h with ⟨-, -, rfl, -⟩ | ⟨i, other, storage, -, -, -, rfl, -⟩ |
        ⟨i, other, ok, balances, -, htransfer, rfl, rfl⟩ | ⟨i, other, -, rfl, -⟩
      · exact absurd hmade hne
      · exact absurd hmade hne
      · obtain ⟨-, hle, rfl⟩ := htoken _ _ _ _ _ _ _ htransfer
        cases List.append_cancel_left hmade
        exact ⟨hle, rfl, rfl⟩
      · exact absurd hmade hne
  | outside =>
      cases hstack
      exact absurd hmade hne
  | enter | enterForeign | ret | revert =>
      have hlength := congrArg List.length hstack
      simp only [List.length_cons] at hlength
      omega

/-- The accounting of the V1 contract, over every run from deployment. -/
theorem v1_accounting {agg : WorldcoinAggregationV1} {env : Externals Chain} {address : Address}
    {balances : Address → ℕ} {chain : Chain} {entered : List DistributeGrants}
    {s : State (World Chain) (Frame Chain)} (htoken : env.RevertsOnFailure)
    (hrun : Run (agg.contract env address) ⟨deployed balances chain, []⟩ entered s) :
    Accounts agg env address entered s := by
  have haccounted := accounted_of_run hrun
  refine ⟨fun hidle n => ?_, haccounted.backed,
    fun call frame payment stack calls s' hstack hstep hgoes hmade => ?_,
    fun call stack calls s' hstack hstep hend => ?_⟩
  · have hspent := haccounted.spent
    rw [hidle] at hspent
    exact hspent.count_eq n
  · obtain ⟨world, stack'⟩ := s
    cases hstack
    exact moved_of_step htoken hstep hgoes hmade
  · obtain ⟨world, stack'⟩ := s
    cases hstack
    have hentry := hrun.invariant_entry (preserves_accounted agg env address _)
      (fun _ hcall => hcall) (accounted_deployed agg env _ balances chain)
    rcases hstep.ends hend with ⟨hreturns, hworld⟩ | hworld
    · rw [hworld]
      exact .inr ⟨rfl, haccounted.distributed hentry hreturns⟩
    · exact .inl hworld

/-- A contract for two claims. -/
def pairContract : WorldcoinAggregationV1 where
  vkeyHash := 1
  maxNumClaims := 2
  prover := 0
  maxNumClaims_ne := by decide
  maxNumClaims_and := by decide

/-- A batch of two claims, without a proof. -/
def pairGrants : DistributeGrants where
  sender := 5
  vkeyHash := 1
  numClaims := 2
  root := 7
  grantIds := [3, 3]
  receivers := [2, 4]
  nullifierHashes := [5, 6]
  proof := []

/-- Views that accept, a grant of ten, and a verifier that accepts the SNARK of the batch only. -/
def pairExternals : Externals Unit where
  keccak256 := Keccak.keccak256
  snarkAccepts instances rest :=
    instances = pairGrants.packedInstances Keccak.keccak256 ∧ rest = []
  requireValidRoot _ _ := true
  checkValidity _ _ := true
  getAmount _ _ := some 10
  transfer := ledgerTransfer

/-- The payments for the batch. -/
theorem paysFirst_pairGrants : (pairGrants.carryPacked Keccak.keccak256).PaysFirst pairExternals
    [⟨3, 2, 5, 10, ()⟩, ⟨3, 4, 6, 10, ()⟩] :=
  .pair ⟨rfl, rfl, rfl, by decide, rfl, rfl⟩ ⟨rfl, rfl, rfl, by decide, rfl, rfl⟩

/-- The run that pays for the batch. -/
theorem exists_run_pairGrants : ∃ s, Run (pairContract.contract pairExternals 9)
      ⟨deployed (fun _ => 20) (), []⟩ [pairGrants.carryPacked Keccak.keccak256] s ∧
    s.world.paid = [5, 6] := by
  have haccepted : pairExternals.snarkAccepts (pairGrants.packedInstances Keccak.keccak256) [] =
      true := by
    simp only [pairExternals, and_self, decide_true]
  have hchecked : (pairGrants.carryPacked Keccak.keccak256).Checked pairContract pairExternals () :=
    DistributeGrants.checked_carryPacked rfl rfl rfl rfl rfl rfl (by decide) haccepted
  have hchain : (deployed (fun _ => 20) () : World Unit).chain = () := rfl
  obtain ⟨world, hcompletes, hpayments⟩ := exists_completes_distributeGrants 9
    (standardToken_ledger rfl) (hchain ▸ hchecked) rfl paysFirst_pairGrants (by simp)
    (by simp [deployed]) (by decide) (by decide)
  refine ⟨⟨world, []⟩, hcompletes.call (Contract.yields_nil _), ?_⟩
  rw [World.paid, hpayments]
  rfl

/-- A batch of two claims is paid. -/
theorem v1_accounting_pair : ∃ entered s, s.world.paid = [5, 6] ∧
    Accounts pairContract pairExternals 9 entered s := by
  obtain ⟨s, hrun, hpaid⟩ := exists_run_pairGrants
  exact ⟨_, s, hpaid, v1_accounting (standardToken_ledger rfl).reverts hrun⟩

end WorldcoinAggregationV1

end WorldcoinAggregation
