import WorldcoinAggregation.Circuit.HashedStrings
import WorldcoinAggregation.Contract.Payouts
import WorldcoinAggregation.Scheduler.CircuitFactory

/-!
# Trees behind SNARKs

The contracts see a SNARK over hashes, and the Groth16 proofs of the claims are verified two layers
below it. Behind every SNARK that the verifier accepts there is a satisfied tree of circuits, which
an extractor finds (`Extracts`).
-/

namespace WorldcoinAggregation

open Synthesis

variable {Chain : Type} {chips : Chips} {initialDepth height : ℕ}

/-- An extractor finds a satisfied tree of circuits for every SNARK that the verifier accepts. The
instances are an accumulator and what the root circuit over the tree exposes. -/
def Extracts (circuits : TreeCircuits)
    (rootCircuit : List Fr → List Fr → Fr → ℕ → Circuit (List Fr)) (initialDepth : ℕ)
    (env : Externals Chain) (extract : List Fr → List UInt8 → ProofTree (height + 1)) : Prop :=
  ∀ instances rest, env.snarkAccepts instances rest = true →
    ∃ accumulator out, accumulator.length = numFeAccumulator ∧
      (extract instances rest).rootOutput circuits rootCircuit initialDepth = some out ∧
      instances = accumulator ++ out

/-- A Groth16 proof for the grant of a payment was accepted, under this World ID root and a
verifying key with this hash. -/
def Payment.Proven (chips : Chips) (vkeyHash root : U256) (payment : Payment Chain) : Prop :=
  GrantProven chips (HiLo.ofDigest vkeyHash) (root.toNat : Fr) (payment.grantId.toNat : Fr)
    (payment.receiver.toNat : Fr) (payment.nullifierHash.toNat : Fr)

/-- Words that are below the field order are those of their public instances. -/
theorem calldataload_eq_word {proof : List UInt8} {i numInstances : ℕ} {x : Fr}
    (hi : i < numInstances) (hx : (publicInstances numInstances proof)[i]? = some x)
    (hlt : (calldataload proof (32 * i)).toNat < frModulus) :
    calldataload proof (32 * i) = x.word := by
  rw [publicInstances_getElem? hi] at hx
  refine BitVec.eq_of_toNat_eq ?_
  rw [Fr.toNat_word, ← Option.some.inj hx, Fr.val_natCast hlt]

/-- Words decompose one list of values. -/
theorem WordsOf.values_eq {values values' : List Fr} {words : List (List UInt8)}
    (h : WordsOf values words) (h' : WordsOf values' words) : values = values' := by
  induction h generalizing values' with
  | nil =>
      cases h'
      rfl
  | cons hword _ ih =>
      cases h' with
      | cons hword' htail => rw [← hword.2, ← hword'.2, ih htail]

/-- Columns of one length are determined by their list. -/
theorem Columns.HasLength.toList_injective {a b : Columns} {m : ℕ} (ha : a.HasLength m)
    (hb : b.HasLength m) (h : a.toList = b.toList) : a = b := by
  obtain ⟨hfront, hnullifiers⟩ := List.append_inj h (by
    rw [List.length_append, List.length_append, ha.grantIds, ha.receivers, hb.grantIds,
      hb.receivers])
  obtain ⟨hgrants, hreceivers⟩ := List.append_inj hfront (ha.grantIds.trans hb.grantIds.symm)
  cases a
  cases b
  simp only at hgrants hreceivers hnullifiers
  rw [hgrants, hreceivers, hnullifiers]

end WorldcoinAggregation
