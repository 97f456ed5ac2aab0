import WorldcoinAggregation.Circuit.V1.Intermediate

/-!
# The V1 root circuit

The root circuit joins its two children like any other aggregation circuit and exposes only the
hash of its output. The output is written out with 32 bytes for each value, which the prover may
decompose as it likes.
-/

namespace WorldcoinAggregation

open Synthesis

namespace WorldcoinRootAggregationInput

/-- The values whose hash the root circuit exposes:
`[vkHashHi, vkHashLo, root, numProofs] ++ grantIds ++ receivers ++ nullifierHashes`. -/
def output (lookupBits : ℕ) (instance0 instance1 : List Fr) (numProofs : Fr) (maxDepth : ℕ) :
    Circuit (List Fr) := do
  let newInstances ← WorldcoinIntermediateAggregationInput.joinPreviousInstances lookupBits
    instance0 instance1 numProofs maxDepth
  let maxProofs ← lift (oneShl 64 maxDepth)
  return newInstances.extract 2 5 ++ [numProofs] ++ newInstances.extract 5 (5 + 3 * maxProofs)

/-- The bytes of the output, 32 for each value. -/
def outputBytes (output : List Fr) (maxDepth : ℕ) : Circuit (List UInt8) := do
  let bytes ← output.mapM fun b => uintToBytesBe b 32
  let maxProofs ← lift (oneShl 64 maxDepth)
  require (bytes.flatten.length = 32 * (4 + 3 * maxProofs))
  return bytes.flatten

/-- The V1 root circuit. Its instances, after the accumulator, are the halves of the output
hash. -/
def virtualAssignPhase0 (chips : Chips) (instance0 instance1 : List Fr) (numProofs : Fr)
    (maxDepth : ℕ) : Circuit (List Fr) := do
  let output ← output chips.lookupBits instance0 instance1 numProofs maxDepth
  let outputBytes ← outputBytes output maxDepth
  return (keccakFixedLen chips.keccak256 outputBytes).hiLo

/-! ## What the root guarantees -/

/-- The output of a root circuit over these claims. -/
def outputOf (vkHash : HiLo Fr) (root numProofs : Fr) (columns : Columns) : List Fr :=
  vkHash.hiLo ++ [root, numProofs] ++ columns.toList

/-- The output has four values and three for each claim slot. -/
theorem length_outputOf {vkHash : HiLo Fr} {root numProofs : Fr} {columns : Columns} {m : ℕ}
    (h : columns.HasLength m) :
    (outputOf vkHash root numProofs columns).length = 4 + 3 * m := by
  rw [outputOf, List.length_append, h.toList]
  rfl

/-- The slices that the root takes from its joined instances are the output. -/
theorem extract_outputOf (shared : SharedInstances) (numProofs : Fr) {columns : Columns} {m : ℕ}
    (h : columns.HasLength m) :
    (v1Instances shared columns).extract 2 5 ++ [numProofs] ++
        (v1Instances shared columns).extract 5 (5 + 3 * m) =
      outputOf shared.vkHash shared.root numProofs columns := by
  have hcolumns : (v1Instances shared columns).extract 5 (5 + 3 * m) = columns.toList := by
    rw [v1Instances, ← List.append_nil (_ ++ _)]
    exact extract_append _ _ _ rfl (by rw [h.toList]; rfl)
  rw [hcolumns]
  rfl

variable {left right : SharedInstances} {leftCount rightCount k lookupBits : ℕ}
  {columns0 columns1 : Columns} {total endIdx is2ndProofDummy : Fr}

/-- Children that join satisfy the constraints of a root. -/
theorem honest_output (hl : left.Covers leftCount) (hr : right.Covers rightCount)
    (hm : columns0.HasLength (2 ^ k)) (hn : columns1.HasLength (2 ^ k))
    (hk : k + 1 < 64) (hsize : 5 + 3 * 2 ^ k < 2 ^ 64) (hcount1 : rightCount ≤ 2 ^ k)
    (hvk : left.vkHash = right.vkHash) (hroot : left.root = right.root)
    (hrange : RangeAdmits lookupBits k (2 ^ (k + 1)))
    (h : Joined k left right leftCount rightCount total.val endIdx is2ndProofDummy) :
    Honest
      (output lookupBits (v1Instances left columns0) (v1Instances right columns1) total (k + 1))
      (outputOf left.vkHash left.root total (columns0.append columns1)) := by
  have hlen : (columns0.append columns1).HasLength (2 ^ (k + 1)) := by
    rw [pow_succ, mul_two]
    exact hm.append hn
  have hout := extract_outputOf { left with end_ := endIdx } total hlen
  refine (WorldcoinIntermediateAggregationInput.honest_joinPreviousInstances hl hr hm hn hsize
    hcount1 hvk hroot hrange h).bind ?_
  refine (Honest.lift (oneShl_eq hk)).bind ?_
  rw [← hout]
  exact .pure _

/-- Slicing the output of a V1 root out of its join reads nothing. -/
theorem tracks_output {lookupBits maxDepth : ℕ} {instance0 instance1 : List Fr} {numProofs : Fr} :
    Tracks (output lookupBits instance0 instance1 numProofs maxDepth) fun used _ => used = [] :=
  WorldcoinIntermediateAggregationInput.tracks_joinPreviousInstances.bind_nil fun _ =>
    Tracks.lift_nil.bind_nil fun _ => .pure rfl

/-- Writing out the output of a V1 root reads its words. -/
theorem tracks_outputBytes {values : List Fr} {maxDepth : ℕ} :
    Tracks (outputBytes values maxDepth) fun used bytes => WordsOf values used ∧
      used.length = 4 + 3 * 2 ^ maxDepth ∧ bytes = used.flatten := by
  refine (tracks_words values).bind fun used words ⟨hused, hwords⟩ => ?_
  refine Tracks.lift.bind fun _ maxProofs ⟨h₁, hshift⟩ => ?_
  refine Tracks.require.bind fun _ _ ⟨h₂, hlength⟩ => .pure ?_
  obtain ⟨-, rfl⟩ := oneShl_eq_some.mp hshift
  have hcount : words.length = 4 + 3 * 2 ^ maxDepth := by
    rw [hwords.length_flatten] at hlength
    rw [← hwords.length_eq]
    omega
  rw [hused, h₁, h₂, List.append_nil, List.append_nil, List.append_nil]
  exact ⟨hwords, hcount, rfl⟩

/-- Every decomposition of the output can be supplied. -/
theorem replays_outputBytes {vkHash : HiLo Fr} {root numProofs : Fr} {columns : Columns}
    {maxDepth : ℕ} {words : List (List UInt8)} (hdepth : maxDepth < 64)
    (h : columns.HasLength (2 ^ maxDepth))
    (hwords : WordsOf (outputOf vkHash root numProofs columns) words) :
    Replays (outputBytes (outputOf vkHash root numProofs columns) maxDepth) words
      words.flatten := by
  have hlen : words.flatten.length = 32 * (4 + 3 * 2 ^ maxDepth) := by
    rw [hwords.length_flatten, length_outputOf h]
  exact Replays.of_eq ((replays_words hwords).bind ((Replays.lift (oneShl_eq hdepth)).bind
    ((Replays.require hlen).bind (.pure _)))) (by simp)

/-- The honest prover writes out the output canonically. -/
theorem honest_outputBytes {vkHash : HiLo Fr} {root numProofs : Fr} {columns : Columns}
    {maxDepth : ℕ} (hdepth : maxDepth < 64) (h : columns.HasLength (2 ^ maxDepth)) :
    Honest (outputBytes (outputOf vkHash root numProofs columns) maxDepth)
      (canonicalWords (outputOf vkHash root numProofs columns)).flatten := by
  refine (honest_words _).bind ((Honest.lift (oneShl_eq hdepth)).bind ?_)
  refine (Honest.require ?_).bind (.pure _)
  rw [(wordsOf_canonicalWords _).length_flatten, length_outputOf h]

end WorldcoinRootAggregationInput

end WorldcoinAggregation
