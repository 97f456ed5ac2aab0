import WorldcoinAggregation.Circuit.V1.Leaf

/-!
# The V1 aggregation circuits

An aggregation circuit of depth `maxDepth` takes the instances of two circuits of depth
`maxDepth - 1` that its prover has verified. The second one is a dummy when the first covers all
claims. `checkAndJoinSharedInstances` is shared with V2, and `Joined` is what its constraints mean
for two intervals.
-/

namespace WorldcoinAggregation

open Synthesis

/-- Sanity check of the intervals of two child circuits, whose key hashes and roots must agree.
Returns the first five instances of the parent and the indicator of a dummy second child. -/
def checkAndJoinSharedInstances (lookupBits : ℕ) (instances0 instances1 : List Fr)
    (numProofs : Fr) (maxDepth numInstancePrevDepth : ℕ) : Circuit (List Fr × Fr) := do
  require (numInstancePrevDepth = instances0.length)
  require (numInstancePrevDepth = instances1.length)
  let startIdx := instances0.getD 0 0
  let intermedIdx0 := instances0.getD 1 0
  let intermedIdx1 := instances1.getD 0 0
  let endIdx := instances1.getD 1 0
  let numProofs0 := intermedIdx0 - startIdx
  let numProofs1 := endIdx - intermedIdx1
  let prevDepth := maxDepth - 1
  let prevMaxProofs ← lift (oneShl 64 prevDepth)
  let prevMaxProofsPlusOne := prevMaxProofs + 1
  checkLessThanSafe lookupBits numProofs0 prevMaxProofsPlusOne
  checkLessThanSafe lookupBits numProofs1 prevMaxProofsPlusOne
  -- the second child is ignored when the claims fit into the first
  let is2ndProofDummy ← isLessThanSafe lookupBits numProofs prevMaxProofsPlusOne
  let endIdx := select intermedIdx0 endIdx is2ndProofDummy
  -- the proofs link up
  let eqCheck := isEqual intermedIdx0 intermedIdx1
  assertIsConst (gateOr eqCheck is2ndProofDummy) 1
  -- the first child is full unless it is the only one
  let isMaxDepth0 := isEqual numProofs0 ((2 ^ prevDepth : ℕ) : Fr)
  assertIsConst (gateOr isMaxDepth0 is2ndProofDummy) 1
  let boundaryNumDiff := endIdx - startIdx
  constrainEqual boundaryNumDiff numProofs
  constrainEqual (instances0.getD 2 0) (instances1.getD 2 0)
  constrainEqual (instances0.getD 3 0) (instances1.getD 3 0)
  constrainEqual (instances0.getD 4 0) (instances1.getD 4 0)
  return ([startIdx, endIdx] ++ instances0.extract 2 5, is2ndProofDummy)

namespace WorldcoinIntermediateAggregationInput

/-- The number of instances of a V1 circuit of this depth, without accumulators. -/
def getNumInstance (maxDepth : ℕ) : Option ℕ := do
  let maxProofs ← oneShl 64 maxDepth
  if 5 + 3 * maxProofs < 2 ^ 64 then some (5 + 3 * maxProofs) else none

/-- Joins the instances of two circuits of depth `maxDepth - 1`. -/
def joinPreviousInstances (lookupBits : ℕ) (instance0 instance1 : List Fr) (numProofs : Fr)
    (maxDepth : ℕ) : Circuit (List Fr) := do
  let numInstancePrevDepth ← lift (getNumInstance (maxDepth - 1))
  let (instances, _) ← checkAndJoinSharedInstances lookupBits instance0 instance1 numProofs
    maxDepth numInstancePrevDepth
  let prevDepth := maxDepth - 1
  let maxProofsPrevDepth ← lift (oneShl 64 prevDepth)
  let column (input : List Fr) (i : ℕ) : List Fr :=
    input.extract (5 + i * maxProofsPrevDepth) (5 + (i + 1) * maxProofsPrevDepth)
  return instances ++ column instance0 0 ++ column instance1 0 ++ column instance0 1 ++
    column instance1 1 ++ column instance0 2 ++ column instance1 2

end WorldcoinIntermediateAggregationInput

/-! ## Joining intervals -/

/-- The instances that all circuits below the root share. -/
structure SharedInstances where
  start : Fr
  end_ : Fr
  vkHash : HiLo Fr
  root : Fr

/-- The shared instances in the order in which they are exposed. -/
def SharedInstances.toList (shared : SharedInstances) : List Fr :=
  [shared.start, shared.end_] ++ shared.vkHash.hiLo ++ [shared.root]

/-- The circuit covers the `count` claims from `start` up to `end_`, and at least one. -/
structure SharedInstances.Covers (shared : SharedInstances) (count : ℕ) : Prop where
  start_add : shared.start.val + count = shared.end_.val
  end_lt : shared.end_.val < 2 ^ 64
  pos : 0 < count

variable {left right shared : SharedInstances} {leftCount rightCount count k numProofs : ℕ}
  {endIdx is2ndProofDummy : Fr}

/-- How a parent of two children of depth `k` covers `numProofs` claims up to `endIdx`. Either the
first child covers everything and the second is ignored, or the first is full and the second
continues it. -/
inductive Joined (k : ℕ) (left right : SharedInstances) (leftCount rightCount numProofs : ℕ)
    (endIdx is2ndProofDummy : Fr) : Prop where
  | dummy (hdummy : is2ndProofDummy = 1) (hend : endIdx = left.end_)
      (hcount : numProofs = leftCount) (hleft : leftCount ≤ 2 ^ k)
  | linked (hdummy : is2ndProofDummy = 0) (hend : endIdx = right.end_)
      (hcount : numProofs = leftCount + rightCount) (hleft : leftCount = 2 ^ k)
      (hright : rightCount ≤ 2 ^ k) (hlink : left.end_ = right.start)

/-- The number of covered claims is the difference of the bounds. -/
theorem SharedInstances.Covers.val_sub (h : shared.Covers count) :
    (shared.end_ - shared.start).val = count := by
  have := h.start_add
  rw [Fr.val_sub_of_le (by omega)]
  omega

/-- The interval from the start of the first child to the end of a linked second child. -/
theorem SharedInstances.Covers.link (hl : left.Covers leftCount) (hr : right.Covers rightCount)
    (hlink : left.end_ = right.start) :
    ({ left with end_ := right.end_ } : SharedInstances).Covers (leftCount + rightCount) := by
  refine ⟨?_, hr.end_lt, Nat.add_pos_left hl.pos _⟩
  have hstart := hl.start_add
  have hend := hr.start_add
  rw [← hlink] at hend
  simp only
  omega

/-- A parent covers as many claims as it says. -/
theorem Joined.covers (hl : left.Covers leftCount) (hr : right.Covers rightCount)
    (h : Joined k left right leftCount rightCount numProofs endIdx is2ndProofDummy) :
    ({ left with end_ := endIdx } : SharedInstances).Covers numProofs := by
  cases h with
  | dummy _ hend hcount => rwa [hend, hcount]
  | linked _ hend hcount _ _ hlink =>
      rw [hend, hcount]
      exact hl.link hr hlink

/-- A parent covers no more claims than its depth allows. -/
theorem Joined.le (h : Joined k left right leftCount rightCount numProofs endIdx is2ndProofDummy) :
    numProofs ≤ 2 ^ (k + 1) := by
  rw [pow_succ]
  cases h <;> omega

/-- A power of two that fits into 64 bits is its own value in the field. -/
theorem val_two_pow (hk : k < 64) : ((2 ^ k : ℕ) : Fr).val = 2 ^ k := by
  have hpow : 2 ^ k ≤ 2 ^ 63 := Nat.pow_le_pow_right (by omega) (by omega)
  have hfield := pow_128_lt_frModulus
  exact Fr.val_natCast (by omega)

/-- The first child is full exactly when the difference of its bounds is the power of two. -/
theorem SharedInstances.Covers.isEqual_pow (h : shared.Covers count) (hk : k < 64) :
    isEqual (shared.end_ - shared.start) ((2 ^ k : ℕ) : Fr) = 1 ↔ count = 2 ^ k := by
  rw [isEqual_eq_one]
  constructor
  · intro hfull
    rw [← h.val_sub, hfull, val_two_pow hk]
  · intro hcount
    rw [← hcount, ← h.val_sub, ZMod.natCast_zmod_val]

/-- The difference of the bounds is the number of claims exactly when it has its value. -/
theorem SharedInstances.Covers.sub_eq_iff (h : shared.Covers count) {x : Fr} :
    shared.end_ - shared.start = x ↔ x.val = count := by
  rw [← h.val_sub]
  constructor
  · rintro rfl
    rfl
  · intro hval
    exact (ZMod.val_injective _ hval).symm

/-- What the join constrains is that the children join. -/
theorem joined_iff_constraints {total : Fr} (hl : left.Covers leftCount)
    (hr : right.Covers rightCount) (hk : k < 64) (hcount0 : leftCount ≤ 2 ^ k)
    (hcount1 : rightCount ≤ 2 ^ k) :
    (is2ndProofDummy = (if total.val < 2 ^ k + 1 then 1 else 0) ∧
      endIdx = select left.end_ right.end_ is2ndProofDummy ∧
      gateOr (isEqual left.end_ right.start) is2ndProofDummy = 1 ∧
      gateOr (isEqual (left.end_ - left.start) ((2 ^ k : ℕ) : Fr)) is2ndProofDummy = 1 ∧
      endIdx - left.start = total) ↔
    Joined k left right leftCount rightCount total.val endIdx is2ndProofDummy := by
  constructor
  · rintro ⟨hdummy, hend, hlink, hfull, hdiff⟩
    split at hdummy
    -- the claims fit into the first child, and both disjunctions hold by the indicator
    · subst hdummy
      rw [select_one] at hend
      subst hend
      exact .dummy rfl rfl (hl.sub_eq_iff.mp hdiff) hcount0
    · subst hdummy
      rw [select_zero] at hend
      subst hend
      -- both children count, so the first one is full and linked to the second
      rw [gateOr_zero] at hlink hfull
      have hlink' := isEqual_eq_one.mp hlink
      exact .linked rfl rfl ((hl.link hr hlink').sub_eq_iff.mp hdiff)
        ((hl.isEqual_pow hk).mp hfull) hcount1 hlink'
  · intro h
    cases h with
    | dummy hdummy hend hcount hleft =>
        subst hdummy hend
        rw [if_pos (by omega)]
        simp only [select_one, gateOr_one, true_and]
        exact hl.sub_eq_iff.mpr hcount
    | linked hdummy hend hcount hleft hright hlink =>
        subst hdummy hend
        have hpos := hr.pos
        rw [if_neg (by omega)]
        simp only [select_zero, gateOr_zero, true_and]
        exact ⟨isEqual_eq_one.mpr hlink, (hl.isEqual_pow hk).mpr hleft,
          (hl.link hr hlink).sub_eq_iff.mpr hcount⟩

/-- The constraints on the instances of two children of depth `k`, with the values that the join
computes from them. -/
structure JoinConstraints (k : ℕ) (left right : SharedInstances)
    (total endIdx is2ndProofDummy : Fr) : Prop where
  left_lt : (left.end_ - left.start).val < 2 ^ k + 1
  right_lt : (right.end_ - right.start).val < 2 ^ k + 1
  dummy_eq : is2ndProofDummy = if total.val < 2 ^ k + 1 then 1 else 0
  end_eq : endIdx = select left.end_ right.end_ is2ndProofDummy
  linked : gateOr (isEqual left.end_ right.start) is2ndProofDummy = 1
  full : gateOr (isEqual (left.end_ - left.start) ((2 ^ k : ℕ) : Fr)) is2ndProofDummy = 1
  count_eq : endIdx - left.start = total
  vkHash_eq : left.vkHash = right.vkHash
  root_eq : left.root = right.root

section

variable {lookupBits len : ℕ} {rest0 rest1 : List Fr} {total : Fr}

/-- What a join constrains, whatever the instances of its children are. -/
theorem sound_joinConstraints :
    Sound (checkAndJoinSharedInstances lookupBits (left.toList ++ rest0) (right.toList ++ rest1)
      total (k + 1) len) fun out =>
      len = (left.toList ++ rest0).length ∧ len = (right.toList ++ rest1).length ∧ k < 64 ∧
      ∃ endIdx, out.1 = ({ left with end_ := endIdx } : SharedInstances).toList ∧
        JoinConstraints k left right total endIdx out.2 := by
  refine Sound.require.bind fun _ hlen0 => Sound.require.bind fun _ hlen1 => ?_
  refine Sound.lift.bind fun prevMaxProofs hshift => ?_
  obtain ⟨hk, rfl⟩ := oneShl_eq_some.mp hshift
  refine sound_checkLessThanSafe.bind fun _ hcount0 => ?_
  refine sound_checkLessThanSafe.bind fun _ hcount1 => ?_
  refine sound_isLessThanSafe.bind fun is2ndProofDummy hdummy => ?_
  refine Sound.require.bind fun _ hlink => Sound.require.bind fun _ hfull => ?_
  refine Sound.require.bind fun _ hdiff => ?_
  refine Sound.require.bind fun _ hhi => Sound.require.bind fun _ hlo => ?_
  refine Sound.require.bind fun _ hroot => .pure
    ⟨hlen0, hlen1, hk, select left.end_ right.end_ is2ndProofDummy, rfl, ?_⟩
  exact ⟨hcount0, hcount1, hdummy, rfl, hlink, hfull, hdiff, congrArg₂ HiLo.mk hhi hlo, hroot⟩

/-- The range checks in front of the comparisons of a join admit this number of claims. -/
def RangeAdmits (lookupBits k count : ℕ) : Prop :=
  count < 2 ^ rangeBits lookupBits (2 ^ k + 1)

instance (lookupBits k count : ℕ) : Decidable (RangeAdmits lookupBits k count) :=
  inferInstanceAs (Decidable (_ < _))

/-- The constraints of a join are satisfied when they hold and the range checks admit the number
of claims. -/
theorem honest_joinConstraints (hk : k < 64) (hlen0 : len = (left.toList ++ rest0).length)
    (hlen1 : len = (right.toList ++ rest1).length)
    (hrange : RangeAdmits lookupBits k (2 ^ (k + 1))) (htotal : total.val ≤ 2 ^ (k + 1))
    (h : JoinConstraints k left right total endIdx is2ndProofDummy) :
    Honest (checkAndJoinSharedInstances lookupBits (left.toList ++ rest0) (right.toList ++ rest1)
      total (k + 1) len) (({ left with end_ := endIdx } : SharedInstances).toList,
        is2ndProofDummy) := by
  have hpow : 2 ^ k ≤ 2 ^ (k + 1) := Nat.pow_le_pow_right (by omega) (by omega)
  have hcheck {a : Fr} (ha : a.val < 2 ^ k + 1) :
      Honest (checkLessThanSafe lookupBits a (2 ^ k + 1)) () :=
    honest_checkLessThanSafe ha (lt_of_le_of_lt ((Nat.lt_succ_iff.mp ha).trans hpow) hrange)
  obtain ⟨hcount0, hcount1, hdummy, rfl, hlink, hfull, hdiff, hvk, hroot⟩ := h
  refine (Honest.require hlen0).bind ((Honest.require hlen1).bind ?_)
  refine (Honest.lift (oneShl_eq hk)).bind ?_
  refine (hcheck hcount0).bind ((hcheck hcount1).bind ?_)
  refine (honest_isLessThanSafe (lt_of_le_of_lt htotal hrange)).bind ?_
  rw [← hdummy]
  refine (Honest.require hlink).bind ((Honest.require hfull).bind ?_)
  refine (Honest.require hdiff).bind ?_
  refine (Honest.require (congrArg HiLo.hi hvk)).bind ?_
  refine (Honest.require (congrArg HiLo.lo hvk)).bind ?_
  exact (Honest.require hroot).bind (.pure _)

/-- The constraints of a parent mean that its children join. -/
theorem sound_checkAndJoinSharedInstances (hl : left.Covers leftCount)
    (hr : right.Covers rightCount) :
    Sound (checkAndJoinSharedInstances lookupBits (left.toList ++ rest0) (right.toList ++ rest1)
      total (k + 1) len) fun out =>
      len = (left.toList ++ rest0).length ∧ len = (right.toList ++ rest1).length ∧
      k < 64 ∧ left.vkHash = right.vkHash ∧ left.root = right.root ∧
      ∃ endIdx, out.1 = ({ left with end_ := endIdx } : SharedInstances).toList ∧
        Joined k left right leftCount rightCount total.val endIdx out.2 := by
  refine sound_joinConstraints.mono fun out ⟨hlen0, hlen1, hk, endIdx, hout, h⟩ => ?_
  refine ⟨hlen0, hlen1, hk, h.vkHash_eq, h.root_eq, endIdx, hout, ?_⟩
  refine (joined_iff_constraints hl hr hk ?_ ?_).mp
    ⟨h.dummy_eq, h.end_eq, h.linked, h.full, h.count_eq⟩
  · rw [← hl.val_sub]
    exact Nat.lt_succ_iff.mp h.left_lt
  · rw [← hr.val_sub]
    exact Nat.lt_succ_iff.mp h.right_lt

/-- Children that join satisfy the constraints of a parent. -/
theorem honest_checkAndJoinSharedInstances (hl : left.Covers leftCount)
    (hr : right.Covers rightCount) (hk : k < 64)
    (hlen0 : len = (left.toList ++ rest0).length) (hlen1 : len = (right.toList ++ rest1).length)
    (hcount1 : rightCount ≤ 2 ^ k) (hvk : left.vkHash = right.vkHash)
    (hroot : left.root = right.root) (hrange : RangeAdmits lookupBits k (2 ^ (k + 1)))
    (h : Joined k left right leftCount rightCount total.val endIdx is2ndProofDummy) :
    Honest (checkAndJoinSharedInstances lookupBits (left.toList ++ rest0) (right.toList ++ rest1)
      total (k + 1) len) (({ left with end_ := endIdx } : SharedInstances).toList,
        is2ndProofDummy) := by
  have hcount0 : leftCount ≤ 2 ^ k := by
    cases h with
    | dummy _ _ _ hleft => exact hleft
    | linked _ _ _ hleft => exact hleft.le
  obtain ⟨hdummy, hend, hlink, hfull, hdiff⟩ :=
    (joined_iff_constraints hl hr hk hcount0 hcount1).mpr h
  refine honest_joinConstraints hk hlen0 hlen1 hrange h.le
    ⟨?_, ?_, hdummy, hend, hlink, hfull, hdiff, hvk, hroot⟩
  · rw [hl.val_sub]
    omega
  · rw [hr.val_sub]
    omega

/-- A join of intervals reads nothing. -/
theorem tracks_checkAndJoinSharedInstances {lookupBits maxDepth len : ℕ}
    {instances0 instances1 : List Fr} {numProofs : Fr} :
    Tracks (checkAndJoinSharedInstances lookupBits instances0 instances1 numProofs maxDepth len)
      fun used _ => used = [] := by
  have hsafe (a : Fr) (b : ℕ) :
      Tracks (checkLessThanSafe lookupBits a b) fun used _ => used = [] :=
    Tracks.require_nil.bind_nil fun _ => .require_nil
  refine Tracks.require_nil.bind_nil fun _ => Tracks.require_nil.bind_nil fun _ => ?_
  refine Tracks.lift_nil.bind_nil fun prevMaxProofs => ?_
  refine (hsafe _ _).bind_nil fun _ => (hsafe _ _).bind_nil fun _ => ?_
  refine Tracks.bind_nil (Tracks.require_nil.bind_nil fun _ => .pure rfl) fun _ => ?_
  refine Tracks.require_nil.bind_nil fun _ => Tracks.require_nil.bind_nil fun _ => ?_
  refine Tracks.require_nil.bind_nil fun _ => Tracks.require_nil.bind_nil fun _ => ?_
  exact Tracks.require_nil.bind_nil fun _ => Tracks.require_nil.bind_nil fun _ => .pure rfl

end

/-! ## Arbitrary instances -/

/-- The comparisons of a join of depth `maxDepth` are with a 64-bit number, and their range checks
admit all numbers of claims of this depth. -/
structure ComparisonsFit (lookupBits maxDepth : ℕ) : Prop where
  bound_lt : 2 ^ (maxDepth - 1) + 1 < 2 ^ 64
  admits : RangeAdmits lookupBits (maxDepth - 1) (2 ^ maxDepth)

/-- The pairs of children for which a join of depth `maxDepth` over `numProofs` claims is meant:
the second one is dropped, or it is not empty and continues a full first one. -/
structure JoinIntended (maxDepth : ℕ) (left right : SharedInstances) (numProofs : Fr) :
    Prop where
  vkHash_eq : left.vkHash = right.vkHash
  root_eq : left.root = right.root
  left_le : (left.end_ - left.start).val ≤ 2 ^ (maxDepth - 1)
  right_le : (right.end_ - right.start).val ≤ 2 ^ (maxDepth - 1)
  count : numProofs = left.end_ - left.start ∨
    left.end_ = right.start ∧ (left.end_ - left.start).val = 2 ^ (maxDepth - 1) ∧
      1 ≤ (right.end_ - right.start).val ∧ numProofs = right.end_ - left.start

/-- Two differences that link up add up, if they are far below the field order. -/
theorem val_sub_link {a b c d : Fr} (hk : k < 64) (hlink : b = c) (hleft : (b - a).val = 2 ^ k)
    (hright : (d - c).val ≤ 2 ^ k) : (d - a).val = 2 ^ k + (d - c).val := by
  have hpow : 2 ^ k ≤ 2 ^ 63 := Nat.pow_le_pow_right (by omega) (by omega)
  have hfield := pow_128_lt_frModulus
  have hsum : d - a = (b - a) + (d - c) := by
    rw [hlink]
    ring
  rw [hsum, ZMod.val_add_of_lt (by omega), hleft]

/-- The constraints of a join hold for the intended pairs and no others. -/
theorem joinConstraints_iff {total : Fr} (hk : k < 64) :
    (∃ endIdx is2ndProofDummy, JoinConstraints k left right total endIdx is2ndProofDummy) ↔
      JoinIntended (k + 1) left right total := by
  constructor
  · rintro ⟨endIdx, is2ndProofDummy, hcount0, hcount1, hdummy, hend, hlink, hfull, hdiff, hvk,
      hroot⟩
    refine ⟨hvk, hroot, Nat.lt_succ_iff.mp hcount0, Nat.lt_succ_iff.mp hcount1, ?_⟩
    split at hdummy
    · subst hdummy
      rw [select_one] at hend
      exact .inl (by rw [← hdiff, hend])
    · rename_i hlarge
      subst hdummy
      rw [select_zero] at hend
      rw [gateOr_zero] at hlink hfull
      have hlink' := isEqual_eq_one.mp hlink
      have hfull' : (left.end_ - left.start).val = 2 ^ k := by
        rw [isEqual_eq_one.mp hfull, val_two_pow hk]
      -- more claims than the first child holds leave at least one for the second
      have hcount : total = right.end_ - left.start := by rw [← hdiff, hend]
      rw [hcount, val_sub_link hk hlink' hfull' (Nat.lt_succ_iff.mp hcount1)] at hlarge
      exact .inr ⟨hlink', hfull', by omega, hcount⟩
  · rintro ⟨hvk, hroot, hleft, hright, hcount⟩
    simp only [Nat.add_sub_cancel] at hleft hright hcount
    rcases hcount with hcount | ⟨hlink, hfull, hpos, hcount⟩
    · refine ⟨left.end_, 1, by omega, by omega, ?_, ?_, gateOr_one _, gateOr_one _, hcount.symm,
        hvk, hroot⟩
      · rw [if_pos (by rw [hcount]; omega)]
      · rw [select_one]
    · have hsum := val_sub_link hk hlink hfull hright
      have hfull' : left.end_ - left.start = ((2 ^ k : ℕ) : Fr) :=
        ZMod.val_injective _ (hfull.trans (val_two_pow hk).symm)
      refine ⟨right.end_, 0, by omega, by omega, ?_, ?_, ?_, ?_, hcount.symm, hvk, hroot⟩
      · rw [if_neg (by rw [hcount, hsum]; omega)]
      · rw [select_zero]
      · rw [gateOr_zero, isEqual_eq_one.mpr hlink]
      · rw [gateOr_zero, isEqual_eq_one.mpr hfull']

/-- The intended numbers of claims are those of the depth. -/
theorem JoinIntended.val_le {total : Fr} (hk : k < 64)
    (h : JoinIntended (k + 1) left right total) : total.val ≤ 2 ^ (k + 1) := by
  have hleft := h.left_le
  have hright := h.right_le
  have hcount := h.count
  simp only [Nat.add_sub_cancel] at hleft hright hcount
  rw [pow_succ]
  rcases hcount with rfl | ⟨hlink, hfull, -, rfl⟩
  · omega
  · have hsum := val_sub_link hk hlink hfull hright
    omega

/-- Whatever the instances of two children are, a join over them is satisfiable exactly for the
intended pairs, and it covers `numProofs` claims from the start of the first. -/
theorem checkAndJoinSharedInstances_satisfiable_iff {lookupBits maxDepth len : ℕ}
    (left right : SharedInstances) (rest0 rest1 : List Fr) (numProofs : Fr)
    (hdepth : 1 ≤ maxDepth) (hfit : ComparisonsFit lookupBits maxDepth)
    (hlen0 : len = (left.toList ++ rest0).length) (hlen1 : len = (right.toList ++ rest1).length) :
    ((∃ prover out, output (checkAndJoinSharedInstances lookupBits (left.toList ++ rest0)
        (right.toList ++ rest1) numProofs maxDepth len) prover = some out) ↔
      JoinIntended maxDepth left right numProofs) ∧
    ∀ prover out, output (checkAndJoinSharedInstances lookupBits (left.toList ++ rest0)
        (right.toList ++ rest1) numProofs maxDepth len) prover = some out →
      out.1 = ({ left with end_ := left.start + numProofs } : SharedInstances).toList := by
  obtain ⟨k, rfl⟩ := Nat.exists_eq_add_of_le' hdepth
  have hk : k < 64 := by
    by_contra hge
    have hpow : 2 ^ 64 ≤ 2 ^ k := Nat.pow_le_pow_right (by omega) (by omega)
    have hbound := hfit.bound_lt
    simp only [Nat.add_sub_cancel] at hbound
    omega
  refine ⟨⟨?_, fun h => ?_⟩, fun prover out hout => ?_⟩
  · rintro ⟨prover, out, hout⟩
    obtain ⟨-, -, -, endIdx, -, h⟩ := sound_joinConstraints.of_output hout
    exact (joinConstraints_iff hk).mp ⟨endIdx, out.2, h⟩
  · obtain ⟨endIdx, is2ndProofDummy, hconstraints⟩ := (joinConstraints_iff hk).mpr h
    exact ⟨.honest, _,
      (honest_joinConstraints hk hlen0 hlen1 hfit.admits (h.val_le hk) hconstraints).output⟩
  · obtain ⟨-, -, -, endIdx, hshared, h⟩ := sound_joinConstraints.of_output hout
    rw [hshared, ← h.count_eq, add_sub_cancel]

/-- A full child of one claim joins with a second claim. -/
theorem checkAndJoinSharedInstances_satisfiable_pair :
    ∃ prover out, output (checkAndJoinSharedInstances 8
      (SharedInstances.toList ⟨4, 5, ⟨1, 2⟩, 7⟩ ++ [])
      (SharedInstances.toList ⟨5, 6, ⟨1, 2⟩, 7⟩ ++ []) 2 1 5) prover = some out :=
  (checkAndJoinSharedInstances_satisfiable_iff ⟨4, 5, ⟨1, 2⟩, 7⟩ ⟨5, 6, ⟨1, 2⟩, 7⟩ [] [] 2 le_rfl
    ⟨by decide, by decide⟩ rfl rfl).1.mpr
      ⟨rfl, rfl, by decide, by decide, .inr ⟨rfl, by decide, by decide, by decide⟩⟩

/-! ## Joining columns -/

/-- The three columns of claims that the V1 circuits expose. -/
structure Columns where
  grantIds : List Fr
  receivers : List Fr
  nullifierHashes : List Fr

namespace Columns

/-- The columns in the order in which they are exposed. -/
def toList (columns : Columns) : List Fr :=
  columns.grantIds ++ columns.receivers ++ columns.nullifierHashes

/-- One batch of claims after another. -/
def append (a b : Columns) : Columns where
  grantIds := a.grantIds ++ b.grantIds
  receivers := a.receivers ++ b.receivers
  nullifierHashes := a.nullifierHashes ++ b.nullifierHashes

/-- All columns have this length. -/
structure HasLength (columns : Columns) (len : ℕ) : Prop where
  grantIds : columns.grantIds.length = len
  receivers : columns.receivers.length = len
  nullifierHashes : columns.nullifierHashes.length = len

variable {a b : Columns} {m n : ℕ}

/-- The length of all columns together. -/
theorem HasLength.toList (h : a.HasLength n) : a.toList.length = 3 * n := by
  simp only [Columns.toList, List.length_append, h.grantIds, h.receivers, h.nullifierHashes]
  omega

/-- Lengths add up. -/
theorem HasLength.append (ha : a.HasLength m) (hb : b.HasLength n) :
    (a.append b).HasLength (m + n) where
  grantIds := by simp [Columns.append, ha.grantIds, hb.grantIds]
  receivers := by simp [Columns.append, ha.receivers, hb.receivers]
  nullifierHashes := by simp [Columns.append, ha.nullifierHashes, hb.nullifierHashes]

end Columns

/-- The instances of a V1 circuit below the root. -/
def v1Instances (shared : SharedInstances) (columns : Columns) : List Fr :=
  shared.toList ++ columns.toList

/-- The slice between a front and a back. -/
theorem extract_append {α : Type} (front mid back : List α) {start stop : ℕ}
    (hstart : start = front.length) (hstop : stop = front.length + mid.length) :
    (front ++ mid ++ back).extract start stop = mid := by
  subst hstart hstop
  simp [List.extract_eq_take_drop]

/-- The slices that a join takes are the columns. -/
theorem extract_v1Instances (shared : SharedInstances) {columns : Columns} {m : ℕ}
    (h : columns.HasLength m) :
    (v1Instances shared columns).extract (5 + 0 * m) (5 + (0 + 1) * m) = columns.grantIds ∧
    (v1Instances shared columns).extract (5 + 1 * m) (5 + (1 + 1) * m) = columns.receivers ∧
    (v1Instances shared columns).extract (5 + 2 * m) (5 + (2 + 1) * m) =
      columns.nullifierHashes := by
  have hshared : shared.toList.length = 5 := rfl
  refine ⟨?_, ?_, ?_⟩
  · rw [v1Instances, Columns.toList, ← List.append_assoc, ← List.append_assoc, List.append_assoc]
    exact extract_append _ _ _ (by omega) (by rw [h.grantIds]; omega)
  · rw [v1Instances, Columns.toList, ← List.append_assoc, ← List.append_assoc]
    refine extract_append _ _ _ ?_ ?_
    · rw [List.length_append, h.grantIds]
      omega
    · rw [List.length_append, h.grantIds, h.receivers]
      omega
  · rw [v1Instances, Columns.toList, ← List.append_assoc, ← List.append_nil (_ ++ _)]
    refine extract_append _ _ _ ?_ ?_
    · simp only [List.length_append, h.grantIds, h.receivers]
      omega
    · simp only [List.length_append, h.grantIds, h.receivers, h.nullifierHashes]
      omega

/-- The number of instances of a V1 circuit below the root. -/
theorem getNumInstance_eq_some {depth len : ℕ} :
    WorldcoinIntermediateAggregationInput.getNumInstance depth = some len ↔
      5 + 3 * 2 ^ depth < 2 ^ 64 ∧ len = 5 + 3 * 2 ^ depth := by
  have hdepth : 5 + 3 * 2 ^ depth < 2 ^ 64 → depth < 64 := by
    intro hlt
    refine (Nat.pow_lt_pow_iff_right (by omega : 1 < 2)).mp ?_
    omega
  unfold WorldcoinIntermediateAggregationInput.getNumInstance oneShl
  by_cases h : depth < 64
  · simp [h, eq_comm]
  · simp only [h, if_false, Option.bind_eq_bind, Option.bind_none, reduceCtorEq, false_iff]
    exact fun hlen => h (hdepth hlen.1)

namespace WorldcoinIntermediateAggregationInput

variable {lookupBits m n : ℕ} {columns0 columns1 : Columns} {total : Fr}

/-- A V1 join of children with equally long columns joins their intervals and appends their
columns. -/
theorem sound_joinPreviousInstances (hl : left.Covers leftCount) (hr : right.Covers rightCount)
    (hm : columns0.HasLength m) (hn : columns1.HasLength n) :
    Sound (joinPreviousInstances lookupBits (v1Instances left columns0)
      (v1Instances right columns1) total (k + 1)) fun out =>
      m = 2 ^ k ∧ n = 2 ^ k ∧ left.vkHash = right.vkHash ∧ left.root = right.root ∧
      ∃ endIdx is2ndProofDummy,
        out = v1Instances { left with end_ := endIdx } (columns0.append columns1) ∧
        Joined k left right leftCount rightCount total.val endIdx is2ndProofDummy := by
  refine Sound.lift.bind fun len hnum => ?_
  refine (sound_checkAndJoinSharedInstances hl hr).bind fun out hjoin => ?_
  obtain ⟨hlen0, hlen1, hk, hvk, hroot, endIdx, hshared, hjoined⟩ := hjoin
  refine Sound.lift.bind fun maxProofs hshift => .pure ?_
  obtain ⟨-, hlen⟩ := getNumInstance_eq_some.mp hnum
  rw [Nat.add_sub_cancel] at hlen hshift
  obtain ⟨-, rfl⟩ := oneShl_eq_some.mp hshift
  have hfive (shared : SharedInstances) : shared.toList.length = 5 := rfl
  rw [List.length_append, hfive, hm.toList] at hlen0
  rw [List.length_append, hfive, hn.toList] at hlen1
  obtain rfl : m = 2 ^ k := by omega
  obtain rfl : n = 2 ^ k := by omega
  obtain ⟨hg0, hr0, hn0⟩ := extract_v1Instances left hm
  obtain ⟨hg1, hr1, hn1⟩ := extract_v1Instances right hn
  refine ⟨rfl, rfl, hvk, hroot, endIdx, out.2, ?_, hjoined⟩
  beta_reduce
  rw [hg0, hr0, hn0, hg1, hr1, hn1, hshared]
  simp only [v1Instances, Columns.toList, Columns.append, List.append_assoc]

/-- Children that join satisfy the constraints of a V1 parent. -/
theorem honest_joinPreviousInstances (hl : left.Covers leftCount) (hr : right.Covers rightCount)
    (hm : columns0.HasLength (2 ^ k)) (hn : columns1.HasLength (2 ^ k))
    (hsize : 5 + 3 * 2 ^ k < 2 ^ 64) (hcount1 : rightCount ≤ 2 ^ k)
    (hvk : left.vkHash = right.vkHash) (hroot : left.root = right.root)
    (hrange : RangeAdmits lookupBits k (2 ^ (k + 1)))
    (h : Joined k left right leftCount rightCount total.val endIdx is2ndProofDummy) :
    Honest (joinPreviousInstances lookupBits (v1Instances left columns0)
      (v1Instances right columns1) total (k + 1))
      (v1Instances { left with end_ := endIdx } (columns0.append columns1)) := by
  have hk : k < 64 := by
    refine (Nat.pow_lt_pow_iff_right (by omega : 1 < 2)).mp ?_
    omega
  have hlen (shared : SharedInstances) {columns : Columns} (hc : columns.HasLength (2 ^ k)) :
      5 + 3 * 2 ^ k = (shared.toList ++ columns.toList).length := by
    rw [List.length_append, hc.toList]
    rfl
  obtain ⟨hg0, hr0, hn0⟩ := extract_v1Instances left hm
  obtain ⟨hg1, hr1, hn1⟩ := extract_v1Instances right hn
  have hout : v1Instances { left with end_ := endIdx } (columns0.append columns1) =
      ({ left with end_ := endIdx } : SharedInstances).toList ++ columns0.grantIds ++
        columns1.grantIds ++ columns0.receivers ++ columns1.receivers ++
        columns0.nullifierHashes ++ columns1.nullifierHashes := by
    simp only [v1Instances, Columns.toList, Columns.append, List.append_assoc]
  refine (Honest.lift (getNumInstance_eq_some.mpr ⟨hsize, rfl⟩)).bind ?_
  refine (honest_checkAndJoinSharedInstances hl hr hk (hlen left hm) (hlen right hn) hcount1 hvk
    hroot hrange h).bind ?_
  refine (Honest.lift (oneShl_eq hk)).bind ?_
  rw [hout, ← hg0, ← hr0, ← hn0, ← hg1, ← hr1, ← hn1]
  exact .pure _

/-- A V1 join reads nothing. -/
theorem tracks_joinPreviousInstances {lookupBits maxDepth : ℕ} {instance0 instance1 : List Fr}
    {numProofs : Fr} :
    Tracks (joinPreviousInstances lookupBits instance0 instance1 numProofs maxDepth)
      fun used _ => used = [] := by
  refine Tracks.lift_nil.bind_nil fun len => ?_
  refine tracks_checkAndJoinSharedInstances.bind_nil fun _ => ?_
  exact Tracks.lift_nil.bind_nil fun _ => .pure rfl

end WorldcoinIntermediateAggregationInput

end WorldcoinAggregation
