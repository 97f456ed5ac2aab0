import WorldcoinAggregation.Scheduler.Recursion

/-!
# The scheduler walks the tree of keygen

Keygen stops at a leaf node and the scheduler at the initial depth. The two tests agree except at
a wrapper whose depth is the initial depth, which `local_server` requests by default.
-/

namespace WorldcoinAggregation

open Fallible

variable {Snark : Type} {vk : VkNative} {req : RecursiveRequest}

/-- The scheduler splits a request into requests for the child node of keygen, stops where keygen
stops, and builds the circuit of the node whose circuit id it looks up. -/
def WalksKeygenTree (vk : VkNative) (req : RecursiveRequest) : Prop :=
  ∃ child deps, req.params.child = .ok child ∧ req.dependencies = .ok deps ∧
    (∀ dep ∈ deps, child = some dep.params) ∧ (deps = [] ↔ child = none) ∧
    ∀ (Snark : Type) (snarks : List Snark), snarks.length = deps.length →
      ∃ request, handleRecursiveRequest vk snarks req = .ok request ∧ request.params = req.params

/-- The node is a leaf or above the initial depth, and no bound of a part overflows. -/
def RecursiveRequest.Splits (req : RecursiveRequest) : Prop :=
  req.params.depth < 32 ∧ (req.params.nodeType = .leaf ∨
    req.params.initialDepth < req.params.depth ∧ req.partsEnd req.params.childDepth < 2 ^ 32)

/-- A leaf request is accepted. -/
theorem getRequestLeaf_eq (hle : req.start ≤ req.end_) (hdepth : req.params.depth < 32)
    (hcount : req.end_ - req.start ≤ 2 ^ req.params.depth) :
    getRequestLeaf vk req.start req.end_ req.params.depth req.root req.claims =
      .ok ⟨req.start, req.end_, req.params.depth, vk, req.root, req.claims⟩ := by
  have hsub : checkedSub req.end_ req.start = .ok (req.end_ - req.start) :=
    checkedSub_eq_ok.mpr ⟨hle, rfl⟩
  have hshl : checkedShl 32 req.params.depth = .ok (2 ^ req.params.depth) :=
    checkedShl_eq_ok.mpr ⟨hdepth, rfl⟩
  simp only [getRequestLeaf, hsub, hshl, bind, Except.bind, if_neg hcount.not_gt]
  rfl

/-- One or two snarks are padded to two. -/
theorem padSnarks_eq {snarks : List Snark} (hpos : snarks ≠ []) (hle : snarks.length ≤ 2) :
    ∃ first second, padSnarks snarks = .ok [first, second] ∧
      (snarks = [first] ∧ second = first ∨ snarks = [first, second]) := by
  match snarks, hpos, hle with
  | [first], _, _ => exact ⟨first, first, rfl, .inl ⟨rfl, rfl⟩⟩
  | [first, second], _, _ => exact ⟨first, second, rfl, .inr rfl⟩

/-- A request at the initial depth builds a leaf, provided that its interval fits. -/
theorem handleRecursiveRequest_leaf (hle : req.start ≤ req.end_) (h32 : req.params.depth < 32)
    (hcount : req.end_ - req.start ≤ 2 ^ req.params.depth)
    (hdepth : req.params.depth = req.params.initialDepth) (snarks : List Snark) :
    handleRecursiveRequest vk snarks req =
      .ok (.leaf ⟨req.start, req.end_, req.params.depth, vk, req.root, req.claims⟩) := by
  simp only [handleRecursiveRequest, if_pos hdepth, getRequestLeaf_eq hle h32 hcount]
  rfl

/-- A request in good order at the initial depth builds a leaf. -/
theorem handleRecursiveRequest_initial (hwf : req.WellFormed)
    (hdepth : req.params.depth = req.params.initialDepth) (h32 : req.params.depth < 32)
    (snarks : List Snark) : handleRecursiveRequest vk snarks req =
      .ok (.leaf ⟨req.start, req.end_, req.params.depth, vk, req.root, req.claims⟩) :=
  handleRecursiveRequest_leaf hwf.start_lt.le h32 hwf.count_le hdepth snarks

/-- An intermediate request builds an intermediate circuit on its padded snarks. -/
theorem handleRecursiveRequest_intermediate {snarks padded : List Snark}
    (hdepth : req.params.depth ≠ req.params.initialDepth)
    (htype : req.params.nodeType = .intermediate) (hpos : snarks ≠ [])
    (hpad : padSnarks snarks = .ok padded) : handleRecursiveRequest vk snarks req =
      .ok (.intermediate
        ⟨req.start, req.end_, req.params.depth, req.params.initialDepth, padded⟩) := by
  have hassert : assert (snarks.isEmpty = false) = .ok () := assert_eq_ok.mpr (by simpa using hpos)
  simp only [handleRecursiveRequest, if_neg hdepth, htype, hassert, hpad]
  rfl

/-- A root request builds a root circuit on its padded snarks. -/
theorem handleRecursiveRequest_root {snarks padded : List Snark}
    (hdepth : req.params.depth ≠ req.params.initialDepth)
    (htype : req.params.nodeType = .root) (hpos : snarks ≠ [])
    (hpad : padSnarks snarks = .ok padded) : handleRecursiveRequest vk snarks req =
      .ok (.root ⟨req.start, req.end_, req.params.depth, req.params.initialDepth, padded⟩) := by
  have hassert : assert (snarks.isEmpty = false) = .ok () := assert_eq_ok.mpr (by simpa using hpos)
  simp only [handleRecursiveRequest, if_neg hdepth, htype, hassert, hpad]
  rfl

/-- A wrapper request builds a wrapper around its only snark. -/
theorem handleRecursiveRequest_evm {snark : Snark} {round : ℕ}
    (hdepth : req.params.depth ≠ req.params.initialDepth)
    (htype : req.params.nodeType = .evm round) : handleRecursiveRequest vk [snark] req =
      .ok (.evm
        ⟨req.start, req.end_, req.params.depth, req.params.initialDepth, round, snark⟩) := by
  simp only [handleRecursiveRequest, if_neg hdepth, htype]
  rfl

/-- Two halves of a join cover what it holds. -/
theorem length_halves {start end_ depth : ℕ} (hdepth : 0 < depth) (hle : end_ - start ≤ 2 ^ depth) :
    (stepBy start end_ (2 ^ (depth - 1))).length ≤ 2 := by
  have hpow : 2 ^ depth = 2 * 2 ^ (depth - 1) := by
    rw [← pow_succ', Nat.sub_add_cancel hdepth]
  rw [length_stepBy, ← Nat.lt_succ_iff]
  refine Nat.div_lt_of_lt_mul ?_
  have := Nat.two_pow_pos (depth - 1)
  omega

/-- A request splits into at most two parts below a join and one below a wrapper. -/
theorem length_parts (hwf : req.WellFormed) (hvalid : req.params.Valid) :
    (stepBy req.start req.end_ (2 ^ req.params.childDepth)).length ≤ 2 ∧
      ∀ round, req.params.nodeType = .evm round →
        (stepBy req.start req.end_ (2 ^ req.params.childDepth)).length = 1 := by
  have hlt := hwf.start_lt
  have hlength := hwf.length_claims
  have hle := hwf.length_le
  obtain ⟨start, end_, root, claims, nodeType, depth, initialDepth⟩ := req
  simp only at *
  have hone (hcount : end_ - start ≤ 2 ^ depth) :
      (stepBy start end_ (2 ^ depth)).length = 1 := by
    rw [stepBy_one hlt hcount, List.length_singleton]
  have htwo (hdepth : initialDepth < depth) :
      (stepBy start end_ (2 ^ (depth - 1))).length ≤ 2 :=
    length_halves (by omega) (by omega)
  cases nodeType with
  | leaf => exact ⟨(hone (by omega)).le.trans (by omega), by simp⟩
  | intermediate => exact ⟨htwo hvalid, by simp⟩
  | root => exact ⟨htwo hvalid, by simp⟩
  | evm round => exact ⟨(hone (by omega)).le.trans (by omega), fun _ _ => hone (by omega)⟩

/-- Above the initial depth a request builds the circuit of its node, given one snark for each of
its parts. -/
theorem exists_handleRecursiveRequest (hwf : req.WellFormed) (hvalid : req.params.Valid)
    (hdepth : req.params.initialDepth < req.params.depth) {snarks : List Snark}
    (hcount : snarks.length = (stepBy req.start req.end_ (2 ^ req.params.childDepth)).length) :
    ∃ request, handleRecursiveRequest vk snarks req = .ok request ∧
      request.params = req.params := by
  have hne : req.params.depth ≠ req.params.initialDepth := hdepth.ne'
  obtain ⟨hle, hone⟩ := length_parts hwf hvalid
  have hpos : snarks ≠ [] := by
    rw [← List.length_pos_iff, hcount, List.length_pos_iff]
    exact stepBy_ne_nil (Nat.two_pow_pos _) hwf.start_lt
  obtain ⟨first, second, hpad, -⟩ := padSnarks_eq hpos (hcount ▸ hle)
  rcases htype : req.params.nodeType with _ | _ | _ | round
  · rw [NodeParams.Valid, htype] at hvalid
    exact absurd hvalid hne
  · refine ⟨_, handleRecursiveRequest_intermediate hne htype hpos hpad, ?_⟩
    simp only [RequestRouter.params, ← htype]
  · refine ⟨_, handleRecursiveRequest_root hne htype hpos hpad, ?_⟩
    simp only [RequestRouter.params, ← htype]
  · obtain ⟨snark, rfl⟩ := List.length_eq_one_iff.mp (hcount.trans (hone round htype))
    refine ⟨_, handleRecursiveRequest_evm hne htype, ?_⟩
    simp only [RequestRouter.params, ← htype]

/-- On the chain of keygen, the scheduler walks the tree that keygen builds exactly when the
request splits: wrappers at the initial depth are the one kind of node where it does not, unless
the bounds of the request overflow. -/
theorem walksKeygenTree_iff (vk : VkNative) {round depth initialDepth : ℕ}
    (hdepth : initialDepth ≤ depth) (req : RecursiveRequest)
    (hchain : NodeParams.KeygenChain ⟨.evm round, depth, initialDepth⟩ req.params)
    (hwf : req.WellFormed) : WalksKeygenTree vk req ↔ req.Splits := by
  have hroot : NodeParams.Valid ⟨.evm round, depth, initialDepth⟩ := hdepth
  have hvalid : req.params.Valid := hchain.valid hroot
  -- keygen stops at a leaf node, the scheduler at the initial depth
  by_cases hleaf : req.params.nodeType = .leaf
  · have hinitial : req.params.depth = req.params.initialDepth := by
      rwa [NodeParams.Valid, hleaf] at hvalid
    constructor
    · rintro ⟨child, deps, -, hdeps, -⟩
      exact ⟨((RecursiveRequest.dependencies_initial hwf hinitial).mp hdeps).1, .inl hleaf⟩
    · rintro ⟨h32, -⟩
      refine ⟨none, [], NodeParams.child_leaf hleaf,
        (RecursiveRequest.dependencies_initial hwf hinitial).mpr ⟨h32, rfl⟩, by simp, by simp, ?_⟩
      intro Snark snarks _
      refine ⟨_, handleRecursiveRequest_initial hwf hinitial h32 snarks, ?_⟩
      rw [RequestRouter.params, ← hleaf]
      nth_rewrite 2 [hinitial]
      rfl
  · obtain ⟨c, hchild, -, hcdepth⟩ := NodeParams.exists_child hvalid hleaf
    have hcle : c.depth ≤ req.params.depth := by
      rw [hcdepth, NodeParams.childDepth]
      split <;> omega
    constructor
    · rintro ⟨child, deps, hchild', hdeps, -, hnil, -⟩
      obtain rfl : child = some c := Except.ok.inj (hchild'.symm.trans hchild)
      have hne : req.params.depth ≠ req.params.initialDepth := by
        intro hinitial
        obtain ⟨-, rfl⟩ := (RecursiveRequest.dependencies_initial hwf hinitial).mp hdeps
        simp at hnil
      obtain ⟨⟨h32, hfits⟩, -⟩ :=
        (RecursiveRequest.dependencies_eq_ok hwf hne hchild hcle).mp hdeps
      have hle := hvalid.le
      exact ⟨h32, .inr ⟨by omega, hcdepth ▸ hfits⟩⟩
    · rintro ⟨h32, hsplits⟩
      obtain ⟨hlt, hfits⟩ := hsplits.resolve_left hleaf
      refine ⟨some c, _, hchild, (RecursiveRequest.dependencies_eq_ok hwf hlt.ne' hchild hcle).mpr
        ⟨⟨h32, hcdepth ▸ hfits⟩, rfl⟩, ?_, ?_, ?_⟩
      · intro dep hdep
        obtain ⟨i, -, rfl⟩ := List.mem_map.mp hdep
        rfl
      · simpa using stepBy_ne_nil (Nat.two_pow_pos _) hwf.start_lt
      · intro Snark snarks hcount
        rw [List.length_map, hcdepth] at hcount
        exact exists_handleRecursiveRequest hwf hvalid hlt hcount

/-- A claim. -/
def soleNative : ClaimNative := ⟨2, 5, 3, [0, 0, 0, 0, 0, 0, 0, 0]⟩

/-- A request for this many copies of one claim. -/
def soleRequest (count : ℕ) (params : NodeParams) : RecursiveRequest where
  start := 0
  end_ := count
  root := 7
  claims := List.replicate count soleNative
  params := params

/-- A verifying key. -/
def soleVk : VkNative := ⟨[], [], [], [], []⟩

/-- The scheduler walks the tree for two claims below a wrapped root of depth 1. -/
theorem walksKeygenTree_pair : WalksKeygenTree soleVk (soleRequest 2 ⟨.evm 0, 1, 0⟩) := by
  refine (walksKeygenTree_iff soleVk (by decide : 0 ≤ 1) _ .refl ?_).mpr ?_
  · exact ⟨by decide, by decide, by decide, by decide⟩
  · exact ⟨by decide, .inr ⟨by decide, by decide⟩⟩

/-- A wrapper at the initial depth, which is what `local_server` requests by default, has a child
for keygen but no dependencies for the scheduler, which builds a leaf in its place. -/
theorem not_walksKeygenTree_default : ∃ req : RecursiveRequest,
    NodeParams.KeygenChain ⟨.evm 1, 3, 3⟩ req.params ∧ req.WellFormed ∧
      ¬ WalksKeygenTree soleVk req := by
  refine ⟨soleRequest 1 ⟨.evm 1, 3, 3⟩, .refl, ⟨by decide, by decide, by decide, by decide⟩, ?_⟩
  rintro ⟨child, deps, hchild, hdeps, -, hnil, -⟩
  have hchild' : NodeParams.child ⟨.evm 1, 3, 3⟩ = .ok (some ⟨.evm 0, 3, 3⟩) := rfl
  have hdeps' : (soleRequest 1 ⟨.evm 1, 3, 3⟩).dependencies = .ok [] := rfl
  obtain rfl := Except.ok.inj (hchild'.symm.trans hchild)
  obtain rfl := Except.ok.inj (hdeps'.symm.trans hdeps)
  simp at hnil

end WorldcoinAggregation
