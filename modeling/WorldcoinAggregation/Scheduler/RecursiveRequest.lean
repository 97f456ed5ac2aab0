import WorldcoinAggregation.Scheduler.NodeParams
import Mathlib.Algebra.Order.Group.Nat
import Mathlib.Tactic.Linarith

/-!
# Requests and how they split

A request asks a node of the aggregation tree to prove the claims from `start` up to `end_`.
`RecursiveRequest.dependencies` splits it into the requests of the nodes below. A request that is
`WellFormed` splits without a panic as long as the ends of its parts fit into 32 bits
(`dependencies_eq`).
-/

namespace WorldcoinAggregation

open Fallible

/-- A claim as a client sends it. Decimal strings are the numbers they denote. -/
structure ClaimNative where
  receiver : BitVec 160
  nullifierHash : ℕ
  grantId : ℕ
  proof : List ℕ
deriving DecidableEq

/-- A request for the claims from `start` up to `end_`. -/
structure RecursiveRequest where
  start : ℕ
  end_ : ℕ
  root : ℕ
  claims : List ClaimNative
  params : NodeParams
deriving DecidableEq

/-- The numbers from `start` up to `stop` in steps. -/
def stepBy (start stop step : ℕ) : List ℕ :=
  (List.range ((stop - start + step - 1) / step)).map fun k => start + k * step

namespace RecursiveRequest

/-- A request that passes the checks on its interval. -/
def new (start end_ root : ℕ) (claims : List ClaimNative) (params : NodeParams) :
    Fallible RecursiveRequest := do
  if end_ ≤ start then
    throw (.error "end <= start")
  let numProofs ← checkedSub end_ start
  let maxProofs ← checkedShl 32 params.depth
  if maxProofs < numProofs then
    throw (.error s!"start: {start}, end: {end_}, end - start > 2^{params.depth}")
  if params.depth < params.initialDepth then
    throw (.error "depth < initial_depth")
  return ⟨start, end_, root, claims, params⟩

/-- The number of claims of a request. -/
def numProofs (req : RecursiveRequest) : Fallible ℕ :=
  checkedSub req.end_ req.start

/-- The part of a request that starts at `i`. -/
def dependency (req : RecursiveRequest) (childParams : NodeParams) (i : ℕ) :
    Fallible RecursiveRequest := do
  let startIdx := i
  let width ← checkedShl 32 childParams.depth
  let endIdx := min req.end_ (← checkedAdd i width)
  let claims ← slice req.claims (← checkedSub startIdx req.start) (← checkedSub endIdx req.start)
  return { start := startIdx, end_ := endIdx, root := req.root, claims, params := childParams }

/-- The requests of the nodes that a request aggregates. -/
def dependencies (req : RecursiveRequest) : Fallible (List RecursiveRequest) := do
  -- `num_proofs` and the bound are `u32`
  assert ((← checkedSub req.end_ req.start) ≤ (← checkedShl 32 req.params.depth))
  if req.params.depth = req.params.initialDepth then
    return []
  else
    -- only a leaf has no child, and its depth is the initial depth
    let childParams ← unwrap (← req.params.child)
    let step ← checkedShl 64 childParams.depth
    (stepBy req.start req.end_ step).mapM (req.dependency childParams)

/-- A request whose claims are those of its interval, at least one and no more than its node
holds. -/
structure WellFormed (req : RecursiveRequest) : Prop where
  start_lt : req.start < req.end_
  end_lt : req.end_ < 2 ^ 32
  length_claims : req.claims.length = req.end_ - req.start
  length_le : req.claims.length ≤ 2 ^ req.params.depth

/-- The part of a request that starts at `i`, where nothing overflows. -/
def part (req : RecursiveRequest) (childParams : NodeParams) (i : ℕ) : RecursiveRequest where
  start := i
  end_ := min req.end_ (i + 2 ^ childParams.depth)
  root := req.root
  claims := req.claims.extract (i - req.start)
    (min req.end_ (i + 2 ^ childParams.depth) - req.start)
  params := childParams

end RecursiveRequest

/-- The requests that the scheduler makes on the way down from a request. -/
inductive RecursiveRequest.Reaches (top : RecursiveRequest) : RecursiveRequest → Prop where
  | refl : Reaches top top
  | dep {req part : RecursiveRequest} {deps : List RecursiveRequest} (hreq : Reaches top req)
      (hdeps : req.dependencies = .ok deps) (hmem : part ∈ deps) : Reaches top part

/-! ## Steps -/

variable {start stop step : ℕ}

/-- The numbers in steps are those between the bounds at multiples of the step. -/
theorem mem_stepBy (hstep : 0 < step) {i : ℕ} :
    i ∈ stepBy start stop step ↔ ∃ k, i = start + k * step ∧ i < stop := by
  simp only [stepBy, List.mem_map, List.mem_range]
  constructor
  · rintro ⟨k, hk, rfl⟩
    refine ⟨k, rfl, ?_⟩
    rw [← Nat.succ_le_iff, Nat.le_div_iff_mul_le hstep, Nat.succ_mul] at hk
    omega
  · rintro ⟨k, rfl, hlt⟩
    refine ⟨k, ?_, rfl⟩
    rw [← Nat.succ_le_iff, Nat.le_div_iff_mul_le hstep, Nat.succ_mul]
    omega

/-- One step covers a short interval. -/
theorem stepBy_one (hlt : start < stop) (hle : stop - start ≤ step) :
    stepBy start stop step = [start] := by
  have hcount : (stop - start + step - 1) / step = 1 := by
    refine Nat.div_eq_of_lt_le ?_ ?_ <;> omega
  simp [stepBy, hcount]

/-- Two steps cover an interval of up to twice the step. -/
theorem stepBy_two (hlt : step < stop - start) (hle : stop - start ≤ 2 * step) :
    stepBy start stop step = [start, start + step] := by
  have hcount : (stop - start + step - 1) / step = 2 := by
    refine Nat.div_eq_of_lt_le ?_ ?_ <;> omega
  simp [stepBy, hcount, List.range_succ]

/-- The number of steps. -/
theorem length_stepBy : (stepBy start stop step).length = (stop - start + step - 1) / step := by
  simp [stepBy]

/-- There is a step in every interval that is not empty. -/
theorem stepBy_ne_nil (hstep : 0 < step) (hlt : start < stop) : stepBy start stop step ≠ [] := by
  intro hnil
  have hmem : start ∈ stepBy start stop step := (mem_stepBy hstep).mpr ⟨0, by simp, hlt⟩
  rw [hnil] at hmem
  cases hmem

/-! ## How a request splits -/

namespace RecursiveRequest

variable {req : RecursiveRequest} {c : NodeParams} {i : ℕ}

/-- A part within the request is computed without overflow if its end fits into 32 bits. -/
theorem dependency_eq_ok (hwf : req.WellFormed) (hstart : req.start ≤ i) (hend : i < req.end_)
    {part : RecursiveRequest} : req.dependency c i = .ok part ↔
      (c.depth < 32 ∧ i + 2 ^ c.depth < 2 ^ 32) ∧ part = req.part c i := by
  have hpow := Nat.two_pow_pos c.depth
  have hlength := hwf.length_claims
  simp only [dependency, bind_eq_ok, pure_eq_ok, checkedShl_eq_ok, checkedAdd_eq_ok,
    checkedSub_eq_ok, slice_eq_ok]
  constructor
  · rintro ⟨_, ⟨hdepth, rfl⟩, _, ⟨hfits, rfl⟩, _, ⟨-, rfl⟩, _, ⟨-, rfl⟩, _, ⟨-, rfl⟩, rfl⟩
    exact ⟨⟨hdepth, hfits⟩, rfl⟩
  · rintro ⟨⟨hdepth, hfits⟩, rfl⟩
    exact ⟨_, ⟨hdepth, rfl⟩, _, ⟨hfits, rfl⟩, _, ⟨hstart, rfl⟩, _, ⟨by omega, rfl⟩, _,
      ⟨⟨by omega, by omega⟩, rfl⟩, rfl⟩

/-- The end of the last part of a request, before it is cut off. -/
def partsEnd (req : RecursiveRequest) (childDepth : ℕ) : ℕ :=
  req.start + (req.end_ - req.start + 2 ^ childDepth - 1) / 2 ^ childDepth * 2 ^ childDepth

/-- Every part ends before the end of the last part. -/
theorem le_partsEnd {childDepth : ℕ} (hi : i ∈ stepBy req.start req.end_ (2 ^ childDepth)) :
    i + 2 ^ childDepth ≤ req.partsEnd childDepth := by
  simp only [stepBy, List.mem_map, List.mem_range] at hi
  obtain ⟨k, hk, rfl⟩ := hi
  have hmul := Nat.mul_le_mul_right (2 ^ childDepth) (Nat.succ_le_of_lt hk)
  rw [Nat.succ_mul] at hmul
  rw [partsEnd]
  omega

/-- Some part ends there. -/
theorem exists_partsEnd (childDepth : ℕ) (hlt : req.start < req.end_) :
    ∃ i ∈ stepBy req.start req.end_ (2 ^ childDepth),
      i + 2 ^ childDepth = req.partsEnd childDepth := by
  have hpow := Nat.two_pow_pos childDepth
  obtain ⟨k, hk⟩ : ∃ k, (req.end_ - req.start + 2 ^ childDepth - 1) / 2 ^ childDepth = k + 1 := by
    refine Nat.exists_eq_add_one.mpr (Nat.div_pos ?_ hpow)
    omega
  refine ⟨req.start + k * 2 ^ childDepth, ?_, ?_⟩
  · exact List.mem_map.mpr ⟨k, List.mem_range.mpr (by omega), rfl⟩
  · rw [partsEnd, hk, Nat.succ_mul, Nat.add_assoc]

/-- A request at the initial depth has no dependencies, provided that its interval fits. -/
theorem dependencies_initial_iff (hdepth : req.params.depth = req.params.initialDepth)
    {deps : List RecursiveRequest} : req.dependencies = .ok deps ↔
      (req.start ≤ req.end_ ∧ req.params.depth < 32 ∧
        req.end_ - req.start ≤ 2 ^ req.params.depth) ∧ deps = [] := by
  simp only [dependencies, bind_eq_ok, pure_eq_ok, checkedShl_eq_ok, checkedSub_eq_ok,
    assert_eq_ok, if_pos hdepth]
  constructor
  · rintro ⟨_, ⟨hle, rfl⟩, _, ⟨h32, rfl⟩, _, hcount, rfl⟩
    exact ⟨⟨hle, h32, hcount⟩, rfl⟩
  · rintro ⟨⟨hle, h32, hcount⟩, rfl⟩
    exact ⟨_, ⟨hle, rfl⟩, _, ⟨h32, rfl⟩, (), hcount, rfl⟩

/-- The interval of a request holds no more claims than its node. -/
theorem WellFormed.count_le (hwf : req.WellFormed) :
    req.end_ - req.start ≤ 2 ^ req.params.depth :=
  hwf.length_claims ▸ hwf.length_le

/-- A request in good order at the initial depth has no dependencies. -/
theorem dependencies_initial (hwf : req.WellFormed)
    (hdepth : req.params.depth = req.params.initialDepth) {deps : List RecursiveRequest} :
    req.dependencies = .ok deps ↔ req.params.depth < 32 ∧ deps = [] := by
  rw [dependencies_initial_iff hdepth]
  constructor
  · rintro ⟨⟨-, h32, -⟩, rfl⟩
    exact ⟨h32, rfl⟩
  · rintro ⟨h32, rfl⟩
    exact ⟨⟨hwf.start_lt.le, h32, hwf.count_le⟩, rfl⟩

/-- A request above the initial depth splits into parts, provided that their ends fit into
32 bits. -/
theorem dependencies_eq_ok (hwf : req.WellFormed)
    (hdepth : req.params.depth ≠ req.params.initialDepth) (hchild : req.params.child = .ok (some c))
    (hle : c.depth ≤ req.params.depth) {deps : List RecursiveRequest} :
    req.dependencies = .ok deps ↔
      (req.params.depth < 32 ∧ req.partsEnd c.depth < 2 ^ 32) ∧
        deps = (stepBy req.start req.end_ (2 ^ c.depth)).map (req.part c) := by
  have hlt := hwf.start_lt
  have hlength := hwf.length_claims
  have hcount := hwf.length_le
  have hpow := Nat.two_pow_pos c.depth
  have hbounds {i : ℕ} (hi : i ∈ stepBy req.start req.end_ (2 ^ c.depth)) :
      req.start ≤ i ∧ i < req.end_ := by
    obtain ⟨k, rfl, hend⟩ := (mem_stepBy hpow).mp hi
    exact ⟨Nat.le_add_right _ _, hend⟩
  have hparts (deps : List RecursiveRequest) :
      (stepBy req.start req.end_ (2 ^ c.depth)).mapM (req.dependency c) = .ok deps ↔
        (∀ i ∈ stepBy req.start req.end_ (2 ^ c.depth),
          c.depth < 32 ∧ i + 2 ^ c.depth < 2 ^ 32) ∧
        deps = (stepBy req.start req.end_ (2 ^ c.depth)).map (req.part c) :=
    mapM_eq_ok fun i hi _ => dependency_eq_ok hwf (hbounds hi).1 (hbounds hi).2
  simp only [dependencies, bind_eq_ok, checkedShl_eq_ok, checkedSub_eq_ok, assert_eq_ok,
    if_neg hdepth, unwrap_eq_ok, hchild, Except.ok.injEq]
  constructor
  · rintro ⟨_, -, _, ⟨h32, rfl⟩, _, -, _, rfl, _, hc, _, ⟨-, rfl⟩, hdeps⟩
    obtain rfl := Option.some.inj hc
    obtain ⟨hfits, rfl⟩ := (hparts deps).mp hdeps
    obtain ⟨i, hi, hend⟩ := exists_partsEnd c.depth hlt
    exact ⟨⟨h32, hend ▸ (hfits i hi).2⟩, rfl⟩
  · rintro ⟨⟨h32, hfits⟩, rfl⟩
    refine ⟨_, ⟨hlt.le, rfl⟩, _, ⟨h32, rfl⟩, (), by omega, _, rfl, c, rfl, _,
      ⟨by omega, rfl⟩, (hparts _).mpr ⟨fun i hi => ?_, rfl⟩⟩
    have hpart := le_partsEnd hi
    exact ⟨by omega, by omega⟩

/-- A part of a request holds the claims of its own interval. -/
theorem WellFormed.part (hwf : req.WellFormed)
    (hi : i ∈ stepBy req.start req.end_ (2 ^ c.depth)) : (req.part c i).WellFormed := by
  obtain ⟨j, rfl, hend⟩ := (mem_stepBy (Nat.two_pow_pos _)).mp hi
  have hlength := hwf.length_claims
  have hlt := hwf.end_lt
  have hpow := Nat.two_pow_pos c.depth
  have hclaims : (req.part c (req.start + j * 2 ^ c.depth)).claims.length =
      min req.end_ (req.start + j * 2 ^ c.depth + 2 ^ c.depth) -
        (req.start + j * 2 ^ c.depth) := by
    simp only [RecursiveRequest.part, List.extract_eq_take_drop, List.length_take,
      List.length_drop, hlength]
    omega
  refine ⟨?_, ?_, hclaims, ?_⟩
  · simp only [RecursiveRequest.part]
    omega
  · simp only [RecursiveRequest.part]
    omega
  · rw [hclaims]
    simp only [RecursiveRequest.part]
    omega

/-- A part that covers the whole request has all of its claims. -/
theorem part_self (hwf : req.WellFormed) (hle : req.end_ - req.start ≤ 2 ^ c.depth) :
    req.part c req.start = { req with params := c } := by
  have hlt := hwf.start_lt
  have hlength := hwf.length_claims
  have hend : min req.end_ (req.start + 2 ^ c.depth) = req.end_ := by omega
  have hclaims : req.claims.extract (req.start - req.start) (req.end_ - req.start) =
      req.claims := by
    rw [Nat.sub_self, ← hlength, List.extract_eq_take_drop]
    simp
  simp only [part, hend, hclaims]

/-- The claims of a request above a full child are split between its two parts. -/
theorem claims_parts (hwf : req.WellFormed) (hlt : 2 ^ c.depth < req.end_ - req.start)
    (hle : req.end_ - req.start ≤ 2 * 2 ^ c.depth) :
    (req.part c req.start).claims = req.claims.take (2 ^ c.depth) ∧
      (req.part c (req.start + 2 ^ c.depth)).claims = req.claims.drop (2 ^ c.depth) := by
  have hlength := hwf.length_claims
  have hend : min req.end_ (req.start + 2 ^ c.depth) - req.start = 2 ^ c.depth := by omega
  have hend' : min req.end_ (req.start + 2 ^ c.depth + 2 ^ c.depth) - req.start =
      req.claims.length := by omega
  simp only [part, hend, hend', Nat.sub_self, Nat.add_sub_cancel_left, List.extract_eq_take_drop]
  exact ⟨by simp, List.take_of_length_le (by simp)⟩

end RecursiveRequest

end WorldcoinAggregation
