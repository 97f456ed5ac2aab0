import WorldcoinAggregation.Circuit.V1.Soundness
import WorldcoinAggregation.Contract.V1.Accounting
import WorldcoinAggregation.Contract.V2.Accounting
import WorldcoinAggregation.Scheduler.CircuitFactory

/-!
# Nullifiers and their words

A World ID nullifier is a field element, and the contracts keep a set of words. While the nullifier
hashes of the calls that pass their checks are below the field order, no nullifier is paid for twice
(`paidOnce_of_canonical`). A circuit decomposes a nullifier into any word of its residue class, so
the contracts may also be called with another word for a nullifier that has been paid for
(`not_paidOnce_alias`).
-/

namespace WorldcoinAggregation

open CallStack Synthesis

/-- No two words in the list stand for the same field element. -/
def PaidOnce (paid : List U256) : Prop :=
  paid.Pairwise fun a b => ¬ a.toNat ≡ b.toNat [MOD frModulus]

instance (paid : List U256) : Decidable (PaidOnce paid) :=
  inferInstanceAs (Decidable (paid.Pairwise fun a b => ¬ a.toNat ≡ b.toNat [MOD frModulus]))

/-- Different words below the field order stand for different field elements. -/
theorem PaidOnce.of_lt {paid : List U256} (hnodup : paid.Nodup)
    (hlt : ∀ word ∈ paid, word.toNat < frModulus) : PaidOnce paid := by
  refine List.Pairwise.imp_of_mem (fun {a b} ha hb hne hmod => ?_) hnodup
  exact hne (BitVec.eq_of_toNat_eq (Nat.ModEq.eq_of_lt_of_lt hmod (hlt a ha) (hlt b hb)))

variable {Chain : Type} {env : Externals Chain} {address : Address} {balances : Address → ℕ}
  {chain : Chain}

namespace WorldcoinAggregationV1

variable {agg : WorldcoinAggregationV1} {entered : List DistributeGrants}
  {s : State (World Chain) (Frame Chain)}

/-- A batch that passes its checks has no nullifier hash from the field order on. -/
def DistributeGrants.Canonical (agg : WorldcoinAggregationV1) (env : Externals Chain)
    (args : DistributeGrants) : Prop :=
  ∀ chain, args.Checked agg env chain →
    ∀ nullifierHash ∈ args.nullifierHashes, nullifierHash.toNat < frModulus

/-- What canonical batches pay for. -/
theorem paidOnce_of_run
    (hrun : Run (agg.contract env address) ⟨deployed balances chain, []⟩ entered s)
    (hcanonical : ∀ args ∈ entered, args.Canonical agg env) : PaidOnce s.world.paid := by
  have haccounted := accounted_of_run hrun
  have hnodup : s.world.paid.Nodup := haccounted.spent.nodup.of_append_left
  refine .of_lt hnodup fun word hword => ?_
  obtain ⟨payment, hpayment, rfl⟩ := List.mem_map.mp hword
  obtain ⟨accepted, -, hentered, hchecked, i, hpays⟩ := haccounted.backed payment hpayment
  exact hcanonical accepted.1 hentered _ hchecked _ (List.mem_of_getElem? hpays.nullifierHash_eq)

end WorldcoinAggregationV1

namespace WorldcoinAggregationV2

variable {agg : WorldcoinAggregationV2} {entered : List Call}
  {s : State (World Chain) (Frame Chain)}

/-- A claim that passes its checks is not for a nullifier hash from the field order on. -/
def Call.CanonicalNullifier (agg : WorldcoinAggregationV2) (env : Externals Chain) : Call → Prop
  | .claim args => ∀ storage payment, args.Checked agg env storage payment →
      args.nullifierHash.toNat < frModulus
  | .validateClaimsRoot _ => True

/-- What canonical claims pay for. -/
theorem paidOnce_of_run
    (hrun : Run (agg.contract env address) ⟨deployed balances chain, []⟩ entered s)
    (hcanonical : ∀ call ∈ entered, call.CanonicalNullifier agg env) : PaidOnce s.world.paid := by
  have haccounted := accounted_of_run hrun
  have hnodup : s.world.paid.Nodup := haccounted.spent.nodup.of_append_left
  refine .of_lt hnodup fun word hword => ?_
  obtain ⟨payment, hpayment, rfl⟩ := List.mem_map.mp hword
  obtain ⟨args, hentered, hchecked⟩ := haccounted.backed payment hpayment
  rw [hchecked.nullifierHash_eq]
  exact hcanonical _ hentered _ _ hchecked

end WorldcoinAggregationV2

/-- While the nullifier hashes of all calls that pass their checks are below the field order,
neither contract pays for a nullifier twice, in any state of any run from deployment. -/
theorem paidOnce_of_canonical {Chain : Type} (env : Externals Chain) (address : Address)
    (balances : Address → ℕ) (chain : Chain) :
    (∀ (agg : WorldcoinAggregationV1) entered s,
      Run (agg.contract env address) ⟨WorldcoinAggregationV1.deployed balances chain, []⟩
        entered s →
      (∀ args ∈ entered, args.Canonical agg env) → PaidOnce s.world.paid) ∧
    ∀ (agg : WorldcoinAggregationV2) entered s,
      Run (agg.contract env address) ⟨WorldcoinAggregationV2.deployed balances chain, []⟩
        entered s →
      (∀ call ∈ entered, call.CanonicalNullifier agg env) → PaidOnce s.world.paid :=
  ⟨fun _ _ _ => WorldcoinAggregationV1.paidOnce_of_run,
    fun _ _ _ => WorldcoinAggregationV2.paidOnce_of_run⟩

/-- The batch of two claims and the claim under a root of two claims are canonical. -/
theorem paidOnce_of_canonical_pair :
    (∃ entered s, Run (WorldcoinAggregationV1.pairContract.contract
        WorldcoinAggregationV1.pairExternals 9)
        ⟨WorldcoinAggregationV1.deployed (fun _ => 20) (), []⟩ entered s ∧
      s.world.paid = [5, 6] ∧ PaidOnce s.world.paid) ∧
    ∃ entered s, Run (WorldcoinAggregationV2.pairContract.contract
        WorldcoinAggregationV2.pairExternals 9)
        ⟨WorldcoinAggregationV2.deployed (fun _ => 10) (), []⟩ entered s ∧
      s.world.paid = [6] ∧ PaidOnce s.world.paid := by
  constructor
  · obtain ⟨s, hrun, hpaid⟩ := WorldcoinAggregationV1.exists_run_pairGrants
    refine ⟨_, s, hrun, hpaid,
      (paidOnce_of_canonical _ 9 _ ()).1 _ _ s hrun fun args hargs _ _ => ?_⟩
    rw [List.mem_singleton.mp hargs]
    intro nullifierHash hmem
    rcases List.mem_pair.mp hmem with rfl | rfl <;> decide
  · obtain ⟨s, hrun, hpaid⟩ := WorldcoinAggregationV2.exists_run_pairClaim
    refine ⟨_, s, hrun, hpaid, (paidOnce_of_canonical _ 9 _ ()).2 _ _ s hrun fun call hcall => ?_⟩
    have hlt : (6 : U256).toNat < frModulus := by decide
    rcases List.mem_pair.mp hcall with rfl | rfl
    · trivial
    · exact fun _ _ _ => hlt

namespace WorldcoinAggregationV1

/-- The verifier accepts the instances of satisfied root circuits only. -/
def AcceptsSatisfied (chips : Chips) (initialDepth height : ℕ) (env : Externals Chain) : Prop :=
  ∀ instances rest, env.snarkAccepts instances rest = true →
    ∃ (tree : ProofTree (height + 1)) (accumulator out : List Fr),
      accumulator.length = numFeAccumulator ∧
      tree.rootOutput (v1Circuits chips)
        (WorldcoinRootAggregationInput.virtualAssignPhase0 chips) initialDepth = some out ∧
      instances = accumulator ++ out

/-- The hash of the verifying key of the sole claim. -/
def soleVkeyHash : U256 :=
  Keccak.keccak256 (canonicalWords (List.replicate numFeHiloVkey 1)).flatten

/-- A contract for two claims under the verifying key of the sole claim. -/
def soleContract : WorldcoinAggregationV1 :=
  { pairContract with vkeyHash := soleVkeyHash }

/-- A batch with the sole claim twice, whose nullifier hash is written in two ways. -/
def aliasGrants : DistributeGrants where
  sender := 5
  vkeyHash := soleVkeyHash
  numClaims := 2
  root := 7
  grantIds := [3, 3]
  receivers := [2, 2]
  nullifierHashes := [5, BitVec.ofNat 256 (5 + frModulus)]
  proof := []

/-- The verifier accepts the SNARK of this batch only. -/
def aliasExternals : Externals Unit :=
  { pairExternals with
    snarkAccepts := fun instances rest =>
      instances = aliasGrants.packedInstances Keccak.keccak256 ∧ rest = [] }

/-- The output of the batch is that of two sole leaves. -/
theorem output_aliasGrants : aliasGrants.output =
    WorldcoinRootAggregationInput.outputOf soleVkHash 7 2
      ((soleLeaf 0 1).columns.append (soleLeaf 1 2).columns) := by
  -- the second word is reduced to the first one's field element
  have halias : ((BitVec.ofNat 256 (5 + frModulus)).toNat : Fr) = 5 := by
    have hfits : 5 + frModulus < 2 ^ 256 := by decide
    rw [BitVec.toNat_ofNat, Nat.mod_eq_of_lt hfits, Nat.cast_add, ZMod.natCast_self, add_zero]
    rfl
  have hcolumns : aliasGrants.columns = (soleLeaf 0 1).columns.append (soleLeaf 1 2).columns := by
    simp only [DistributeGrants.columns, aliasGrants, List.map_cons, List.map_nil, halias]
    rfl
  rw [DistributeGrants.output, hcolumns]
  rfl

/-- Two sole leaves satisfy the circuits with the bytes that the contract packs for the batch. -/
theorem acceptsSatisfied_aliasExternals : AcceptsSatisfied soleChips 0 0 aliasExternals := by
  intro instances rest haccepted
  obtain ⟨rfl, -⟩ := of_decide_eq_true haccepted
  obtain ⟨words, hwords, hpacked⟩ := aliasGrants.wordsOf_packed
  rw [output_aliasGrants] at hwords
  obtain ⟨tree, hroot⟩ := exists_sole_rootOutput hwords
  rw [← hpacked] at hroot
  exact ⟨tree, List.replicate 12 0, _, rfl, hroot, rfl⟩

/-- The payments for the batch. -/
theorem paysFirst_aliasGrants : (aliasGrants.carryPacked Keccak.keccak256).PaysFirst aliasExternals
    [⟨3, 2, 5, 10, ()⟩, ⟨3, 2, BitVec.ofNat 256 (5 + frModulus), 10, ()⟩] :=
  .pair ⟨rfl, rfl, rfl, by decide, rfl, rfl⟩ ⟨rfl, rfl, rfl, by decide, rfl, rfl⟩

/-- The batch is paid. -/
theorem exists_run_aliasGrants : ∃ world,
    Run (soleContract.contract aliasExternals 9) ⟨deployed (fun _ => 20) (), []⟩
        [aliasGrants.carryPacked Keccak.keccak256] ⟨world, []⟩ ∧
      world.payments = [⟨3, 2, 5, 10, ()⟩, ⟨3, 2, BitVec.ofNat 256 (5 + frModulus), 10, ()⟩] := by
  have haccepted : aliasExternals.snarkAccepts (aliasGrants.packedInstances Keccak.keccak256) [] =
      true := by
    simp only [aliasExternals, and_self, decide_true]
  have hchecked :
      (aliasGrants.carryPacked Keccak.keccak256).Checked soleContract aliasExternals () :=
    DistributeGrants.checked_carryPacked rfl rfl rfl rfl rfl rfl (by decide) haccepted
  have hchain : (deployed (fun _ => 20) () : World Unit).chain = () := rfl
  obtain ⟨world, hcompletes, hpayments⟩ := exists_completes_distributeGrants 9
    (standardToken_ledger rfl) (hchain ▸ hchecked) rfl paysFirst_aliasGrants (by simp)
    (by simp [deployed]) (by decide) (by decide)
  exact ⟨world, hcompletes.call (Contract.yields_nil _), hpayments⟩

/-- The contract pays twice for the nullifier of the sole claim, although the verifier accepts only
what satisfies the circuits. -/
theorem not_paidOnce_alias : AcceptsSatisfied soleChips 0 0 aliasExternals ∧
    ∃ entered s, Run (soleContract.contract aliasExternals 9)
        ⟨deployed (fun _ => 20) (), []⟩ entered s ∧
      s.world.paid = [5, BitVec.ofNat 256 (5 + frModulus)] ∧ ¬ PaidOnce s.world.paid := by
  refine ⟨acceptsSatisfied_aliasExternals, ?_⟩
  obtain ⟨world, hrun, hpayments⟩ := exists_run_aliasGrants
  have hpaid : world.paid = [5, BitVec.ofNat 256 (5 + frModulus)] := by
    rw [World.paid, hpayments]
    rfl
  refine ⟨_, ⟨world, []⟩, hrun, hpaid, ?_⟩
  rw [hpaid]
  decide

end WorldcoinAggregationV1

end WorldcoinAggregation
