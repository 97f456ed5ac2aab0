import WorldcoinAggregation.Scheduler.CircuitFactory
import WorldcoinAggregation.Scheduler.RequestTree

/-!
# The servers

`SchedulerServer.serve` and `LocalServer.serve` turn what a client sends into a request for the
scheduler. The first makes requests that split all the way down. The second bypasses
`RecursiveRequest.new`; `LocalServer.answers_iff` says which clients crash it.
-/

namespace WorldcoinAggregation

open Fallible

/-- Why a server gives up: an error in the context of invalid input, or a failure. -/
inductive ServeError where
  | invalidInput (message : String)
  | failed (failure : Failure)
deriving DecidableEq

/-- A failure that a server does not handle. -/
def orFailed {α : Type} (c : Fallible α) : Except ServeError α :=
  c.mapError .failed

/-- A failure that is not handled is no result. -/
@[simp] theorem orFailed_eq_ok {α : Type} {c : Fallible α} {a : α} :
    orFailed c = .ok a ↔ c = .ok a := by
  cases c <;> simp [orFailed, Except.mapError]

/-! ## The scheduler server -/

/-- A batch of claims to be proven. -/
structure SchedulerTaskRequest where
  root : ℕ
  claims : List ClaimNative

namespace SchedulerServer

/-- The request that the scheduler server makes of a task. -/
def serve (finalCircuitParams : NodeParams) (task : SchedulerTaskRequest) :
    Except ServeError RecursiveRequest := do
  let numProofs := task.claims.length
  let maxProofs ← orFailed (checkedShl 64 finalCircuitParams.depth)
  if numProofs = 0 then
    throw (.invalidInput "Zero claims!")
  if maxProofs < numProofs then
    throw (.invalidInput "Too many claims!")
  return {
    start := 0, end_ := numProofs % 2 ^ 32, root := task.root, claims := task.claims,
    params := finalCircuitParams }

/-- The node that the server aggregates to: the last one that keygen wrote down. -/
def finalCircuitParams (cids : List (NodeParams × String)) : Fallible NodeParams := do
  assert (0 < cids.length)
  return (← unwrap cids.getLast?).1

/-- The circuit ids of nodes, where later entries replace earlier ones. -/
def cidsRepo (cids : List (NodeParams × String)) : NodeParams → Option String :=
  cids.foldl (fun repo entry => Function.update repo entry.1 (some entry.2)) fun _ => none

/-- The nodes of circuit ids, where later entries replace earlier ones. -/
def cidToParams (cids : List (NodeParams × String)) : String → Option NodeParams :=
  cids.foldl (fun params entry => Function.update params entry.2 (some entry.1)) fun _ => none

variable {params : NodeParams} {task : SchedulerTaskRequest} {req : RecursiveRequest}

/-- The nodes with a circuit id are those of the list. -/
theorem isSome_cidsRepo {cids : List (NodeParams × String)} :
    (cidsRepo cids params).isSome ↔ params ∈ cids.map Prod.fst := by
  have hfold (repo : NodeParams → Option String) :
      (cids.foldl (fun (repo : NodeParams → Option String) entry =>
        Function.update repo entry.1 (some entry.2)) repo params).isSome ↔
          (repo params).isSome ∨ params ∈ cids.map Prod.fst := by
    induction cids generalizing repo with
    | nil => simp
    | cons entry cids ih =>
        rw [List.foldl_cons, ih, List.map_cons, List.mem_cons, ← or_assoc]
        refine or_congr_left ?_
        by_cases heq : params = entry.1
        · simp [heq]
        · simp [heq]
  simpa [cidsRepo] using hfold fun _ => none

/-- The server accepts at least one claim and no more than its final circuit holds. -/
theorem serve_eq_ok : serve params task = .ok req ↔
    params.depth < 64 ∧ 1 ≤ task.claims.length ∧ task.claims.length ≤ 2 ^ params.depth ∧
      req = ⟨0, task.claims.length % 2 ^ 32, task.root, task.claims, params⟩ := by
  simp only [serve, bind_eq_ok, orFailed_eq_ok, checkedShl_eq_ok]
  constructor
  · rintro ⟨_, ⟨hdepth, rfl⟩, h⟩
    split at h
    · cases h
    · split at h
      · cases h
      · exact ⟨hdepth, by omega, by omega, pure_eq_ok.mp h⟩
  · rintro ⟨hdepth, hpos, hle, rfl⟩
    refine ⟨_, ⟨hdepth, rfl⟩, ?_⟩
    rw [if_neg (by omega)]
    simp only [bind, Except.bind, if_neg (not_lt.mpr hle)]
    rfl

/-- A request that the server makes of a task splits all the way down. -/
theorem expandable_of_serve {round depth initialDepth : ℕ} (hle : initialDepth ≤ depth)
    (hdepth : depth ≤ 31) (h : serve ⟨.evm round, depth, initialDepth⟩ task = .ok req) :
    req = ⟨0, task.claims.length, task.root, task.claims, ⟨.evm round, depth, initialDepth⟩⟩ ∧
      req.Expandable := by
  obtain ⟨-, hpos, hcount, rfl⟩ := serve_eq_ok.mp h
  have hcount : task.claims.length ≤ 2 ^ depth := hcount
  have hpow : 2 ^ depth ≤ 2 ^ 31 := Nat.pow_le_pow_right (by omega) hdepth
  have hmod : task.claims.length % 2 ^ 32 = task.claims.length := Nat.mod_eq_of_lt (by omega)
  have hone : (task.claims.length - 0 + 2 ^ depth - 1) / 2 ^ depth = 1 :=
    Nat.div_eq_of_lt_le (by omega) (by omega)
  rw [hmod]
  refine ⟨rfl, ⟨hpos, ?_, rfl, hcount⟩, hle, ?_, fun _ => ?_⟩
  · simp only
    omega
  · simp only
    omega
  · simp only [RecursiveRequest.partsEnd, NodeParams.childDepth, hone]
    omega

/-- The recursive split of a request that the server makes ends without a panic, and it loses and
duplicates no claim. -/
theorem serve_expand {round depth initialDepth : ℕ} (hle : initialDepth ≤ depth)
    (hdepth : depth ≤ 31) (h : serve ⟨.evm round, depth, initialDepth⟩ task = .ok req) :
    (req.start = 0 ∧ req.end_ = task.claims.length ∧ req.claims = task.claims) ∧
      ∃ nodes,
        (∀ fuel, depth - initialDepth + round + 1 < fuel → req.expand fuel = .ok nodes) ∧
        (∀ node ∈ nodes, ∃ deps, node.dependencies = .ok deps ∧ (∀ dep ∈ deps, dep ∈ nodes) ∧
          (node.params.depth = node.params.initialDepth ∧ deps = [] ∧
              (∀ vk, getRequestLeaf vk node.start node.end_ node.params.depth node.root
                node.claims = .ok ⟨node.start, node.end_, node.params.depth, vk, node.root,
                  node.claims⟩) ∨
            node.params.depth ≠ node.params.initialDepth ∧ node.SplitsInto deps)) ∧
        (nodes.filter fun node => node.params.depth = node.params.initialDepth).flatMap
          (fun node => node.claims) = task.claims := by
  obtain ⟨rfl, hexpandable⟩ := expandable_of_serve hle hdepth h
  obtain ⟨nodes, hnodes⟩ := hexpandable.exists_expand
  refine ⟨⟨rfl, rfl, rfl⟩, nodes, hnodes, fun node hnode => ?_,
    hexpandable.claims_leaves (hnodes _ (Nat.lt_succ_self _))⟩
  have hexpand := hnodes _ (Nat.lt_succ_self _)
  have hbelow := hexpandable.of_reaches ((RecursiveRequest.mem_expand_iff hexpand).mp hnode)
  obtain ⟨deps, hdeps, hsub⟩ := RecursiveRequest.dependencies_of_mem_expand hexpand hnode
  refine ⟨deps, hdeps, hsub, ?_⟩
  by_cases hinitial : node.params.depth = node.params.initialDepth
  · have hnil := Except.ok.inj (hdeps.symm.trans (hbelow.dependencies_initial hinitial))
    have hwf := hbelow.wellFormed
    exact .inl ⟨hinitial, hnil, fun vk =>
      getRequestLeaf_eq hwf.start_lt.le hbelow.depth_lt hwf.count_le⟩
  · obtain ⟨deps', hdeps', hsplits, -⟩ := hbelow.exists_dependencies hinitial
    obtain rfl := Except.ok.inj (hdeps'.symm.trans hdeps)
    exact .inr ⟨hinitial, hsplits⟩

/-- Three claims below a wrapped root of depth 2 come back from its leaves. -/
theorem serve_expand_three :
    (0 ≤ 2 ∧ 2 ≤ 31 ∧ serve ⟨.evm 0, 2, 0⟩ ⟨7, List.replicate 3 soleNative⟩ =
      .ok (soleRequest 3 ⟨.evm 0, 2, 0⟩)) ∧
    ∃ nodes, (∀ fuel, 3 < fuel → (soleRequest 3 ⟨.evm 0, 2, 0⟩).expand fuel = .ok nodes) ∧
      (nodes.filter fun node => node.params.depth = node.params.initialDepth).flatMap
        (fun node => node.claims) = List.replicate 3 soleNative := by
  have hserve : serve ⟨.evm 0, 2, 0⟩ ⟨7, List.replicate 3 soleNative⟩ =
      .ok (soleRequest 3 ⟨.evm 0, 2, 0⟩) := by decide
  refine ⟨⟨by decide, by decide, hserve⟩, ?_⟩
  obtain ⟨-, nodes, hnodes, -, hclaims⟩ := serve_expand (by decide) (by decide) hserve
  exact ⟨nodes, hnodes, hclaims⟩

end SchedulerServer

/-! ## The local server -/

/-- A leaf circuit verifies `2 ^ INITIAL_DEPTH` claims by default. -/
def Constants.initialDepth : ℕ := 3

/-- Extra rounds for a proof on the chain. -/
def Constants.extraRounds : ℕ := 1

namespace LocalServer

/-- What a client of the local server sends. -/
structure Request where
  start : ℕ
  end_ : ℕ
  root : ℕ
  claims : List ClaimNative
  initialDepth : Option ℕ
  depth : Option ℕ
  isFinal : Option Bool
  forEvm : Option Bool
  rounds : Option ℕ

/-- The request that the local server makes for its scheduler. -/
def recursiveRequest (task : Request) : Except ServeError RecursiveRequest := do
  let depth := task.depth.getD Constants.initialDepth
  let initialDepth := task.initialDepth.getD Constants.initialDepth
  let numProofs ← orFailed (checkedSub task.end_ task.start)
  let maxProofs ← orFailed (checkedShl 32 depth)
  if maxProofs < numProofs then
    throw (.invalidInput "Too many proofs!")
  let isFinal := task.isFinal.getD true
  let forEvm := task.forEvm.getD true
  if forEvm && !isFinal then
    throw (.invalidInput "EVM proofs must be final!")
  let nodeType :=
    if isFinal then
      if forEvm then NodeType.evm (task.rounds.getD Constants.extraRounds) else NodeType.root
    else if depth = initialDepth then NodeType.leaf
    else NodeType.intermediate
  let params ← orFailed (NodeParams.new nodeType depth initialDepth)
  -- the fields are set without the checks of `RecursiveRequest.new`
  return ⟨task.start, task.end_, task.root, task.claims, params⟩

/-- Proves what a client asks for, and answers with the proof for the chain if there is one. -/
def serve {Snark EvmProof : Type} (scheduler : LocalScheduler Snark EvmProof) (fuel : ℕ)
    (task : Request) : Except ServeError (Option EvmProof) := do
  let req ← recursiveRequest task
  if task.forEvm.getD true then
    match ← orFailed (scheduler.recursiveGenProof fuel req true) with
    | .evmProof proof => return some proof
    | .snark _ => throw (.failed .panicked)
  else
    let _ ← orFailed (scheduler.recursiveGenProof fuel req false)
    return none

/-! ### Panics -/

/-- A node of the recursion splits, builds the request for its circuit and fills its leaf without a
panic. -/
structure SafeStep (node : RecursiveRequest) : Prop where
  dependencies : ¬ Panics node.dependencies
  handled : ∀ deps, node.dependencies = .ok deps →
    ∀ (vk : VkNative) (Snark : Type) (snarks : List Snark), snarks.length = deps.length →
      ¬ Panics (handleRecursiveRequest vk snarks node)
  leafInput : ∀ (vk : VkNative) (Snark : Type) (snarks : List Snark) (leaf : WorldcoinRequestLeaf),
    handleRecursiveRequest vk snarks node = .ok (.leaf leaf) →
      ∀ component : Groth16Component, ¬ Panics (WorldcoinLeafInput.new component leaf.vk leaf.root
        leaf.start leaf.end_ leaf.depth leaf.claims)

/-- The whole recursion of a request does not panic. -/
def SafeRecursion (req : RecursiveRequest) : Prop :=
  ∀ node, req.Reaches node → SafeStep node

variable {req node : RecursiveRequest} {deps : List RecursiveRequest} {Snark : Type}
  {vk : VkNative} {component : Groth16Component}

/-- When a leaf request in good order is filled. -/
theorem leafInput_eq_ok_iff (vk : VkNative) (h : node.Expandable) :
    (∃ input, WorldcoinLeafInput.new component vk node.root node.start node.end_ node.params.depth
      node.claims = .ok input) ↔
        node.root < 2 ^ 256 ∧ ∀ claim ∈ node.claims, claim.Converts := by
  have hlt := h.wellFormed.start_lt
  have hlength := h.wellFormed.length_claims
  have hdepth := h.depth_lt
  have hsub : checkedSub node.end_ node.start = .ok (node.end_ - node.start) :=
    checkedSub_eq_ok.mpr ⟨hlt.le, rfl⟩
  have hcount : assert (node.claims.length = node.end_ - node.start) = .ok () :=
    assert_eq_ok.mpr hlength
  have hnonempty : assert (0 < node.end_ - node.start) = .ok () := assert_eq_ok.mpr (by omega)
  have hshl : checkedShl 64 node.params.depth = .ok (2 ^ node.params.depth) :=
    checkedShl_eq_ok.mpr ⟨by omega, rfl⟩
  simp only [WorldcoinLeafInput.new, hsub, hcount, hnonempty, hshl, bind, Except.bind]
  constructor
  · rintro ⟨input, hinput⟩
    obtain ⟨inputs, hinputs, hinput⟩ := bind_eq_ok.mp hinput
    obtain ⟨first, -, hinput⟩ := bind_eq_ok.mp hinput
    obtain ⟨root, hroot, -⟩ := bind_eq_ok.mp hinput
    refine ⟨?_, fun claim hclaim => ?_⟩
    · by_contra hroot_lt
      rw [biguintToFe, if_neg hroot_lt] at hroot
      cases hroot
    · obtain ⟨claimInput, -, hclaimInput⟩ := exists_mapM_of_mem hinputs hclaim
      exact (claimInput_eq_ok.mp hclaimInput).1
  · rintro ⟨hroot, hclaims⟩
    obtain ⟨inputs, hinputs⟩ := exists_mapM (f := claimInput component) fun claim hclaim =>
      ⟨_, claimInput_eq_ok.mpr ⟨hclaims claim hclaim, rfl⟩⟩
    have hpos : inputs ≠ [] := by
      rw [← List.length_pos_iff, length_mapM hinputs]
      omega
    obtain ⟨first, rest, rfl⟩ := List.exists_cons_of_ne_nil hpos
    simp only [hinputs, biguintToFe_eq hroot]
    exact ⟨_, rfl⟩

/-- A leaf is filled unless it panics. -/
theorem onlyPanics_leafInput (vk : VkNative) (root start end_ maxDepth : ℕ)
    (claims : List ClaimNative) :
    OnlyPanics (WorldcoinLeafInput.new component vk root start end_ maxDepth claims) := by
  have hclaim (claim : ClaimNative) : OnlyPanics (claimInput component claim) :=
    ((onlyPanics_ite _ ()).bind fun _ => onlyPanics_ok _).bind fun _ =>
      (onlyPanics_ite _ _).bind fun _ => (onlyPanics_ite _ _).bind fun _ => onlyPanics_ok _
  exact (onlyPanics_ite _ _).bind fun _ => (onlyPanics_ite _ _).bind fun _ =>
    (onlyPanics_ite _ _).bind fun _ => (onlyPanics_ite _ _).bind fun _ =>
      (OnlyPanics.mapM hclaim _).bind fun _ => (onlyPanics_unwrap _).bind fun _ =>
        (onlyPanics_ite _ _).bind fun _ => onlyPanics_ok _

/-- Only a request at the initial depth is handled by a leaf. -/
theorem leaf_of_handled {snarks : List Snark} {leaf : WorldcoinRequestLeaf}
    (h : handleRecursiveRequest vk snarks node = .ok (.leaf leaf)) :
    node.params.depth = node.params.initialDepth := by
  by_contra hdepth
  simp only [handleRecursiveRequest, if_neg hdepth, bind_eq_ok] at h
  obtain ⟨-, -, h⟩ := h
  cases htype : node.params.nodeType with
  | leaf =>
      rw [htype] at h
      cases h
  | intermediate =>
      rw [htype] at h
      obtain ⟨_, -, h⟩ := bind_eq_ok.mp h
      cases h
  | root =>
      rw [htype] at h
      obtain ⟨_, -, h⟩ := bind_eq_ok.mp h
      cases h
  | evm round =>
      rw [htype] at h
      obtain ⟨_, -, h⟩ := bind_eq_ok.mp h
      obtain ⟨_, -, h⟩ := bind_eq_ok.mp h
      cases h

/-- A request that splits all the way down is handled, given a snark for each dependency. -/
theorem exists_handled (vk : VkNative) (h : node.Expandable) (hdeps : node.dependencies = .ok deps)
    {snarks : List Snark} (hcount : snarks.length = deps.length) :
    ∃ request, handleRecursiveRequest vk snarks node = .ok request := by
  by_cases hinitial : node.params.depth = node.params.initialDepth
  · exact ⟨_, handleRecursiveRequest_initial h.wellFormed hinitial h.depth_lt snarks⟩
  · obtain ⟨-, -, -, hcases⟩ := RecursiveRequest.dependencies_spec hdeps
    obtain ⟨-, c, hchild, rfl, -⟩ := hcases.resolve_left fun hnil => hinitial hnil.1
    rw [List.length_map, (NodeParams.isChild_of_child hchild).depth_eq] at hcount
    obtain ⟨request, hrequest, -⟩ := exists_handleRecursiveRequest h.wellFormed h.valid
      (lt_of_le_of_ne h.valid.le (Ne.symm hinitial)) hcount
    exact ⟨request, hrequest⟩

/-- A request that splits all the way down does not panic if its numbers can be read. -/
theorem safeStep_of_expandable (h : node.Expandable) (hroot : node.root < 2 ^ 256)
    (hclaims : ∀ claim ∈ node.claims, claim.Converts) : SafeStep node := by
  refine ⟨?_, fun deps hdeps vk Snark snarks hcount => ?_,
    fun vk Snark snarks leaf hleaf component => ?_⟩
  · by_cases hinitial : node.params.depth = node.params.initialDepth
    · exact not_panics_of_ok (h.dependencies_initial hinitial)
    · obtain ⟨deps, hdeps, -⟩ := h.exists_dependencies hinitial
      exact not_panics_of_ok hdeps
  · obtain ⟨request, hrequest⟩ := exists_handled vk h hdeps hcount
    exact not_panics_of_ok hrequest
  · rw [handleRecursiveRequest_initial h.wellFormed (leaf_of_handled hleaf) h.depth_lt] at hleaf
    cases hleaf
    obtain ⟨input, hinput⟩ := (leafInput_eq_ok_iff vk h).mpr ⟨hroot, hclaims⟩
    exact not_panics_of_ok hinput

/-- If the recursion does not panic, the numbers of every part of it can be read. -/
theorem SafeRecursion.converts (h : SafeRecursion req) (hreach : req.Reaches node)
    (hexpandable : node.Expandable) :
    node.root < 2 ^ 256 ∧ ∀ claim ∈ node.claims, claim.Converts := by
  have hread : ∀ leaf, node.Reaches leaf → leaf.params.depth = leaf.params.initialDepth →
      leaf.root < 2 ^ 256 ∧ ∀ claim ∈ leaf.claims, claim.Converts := by
    intro leaf hleaf hinitial
    have hbelow := hexpandable.of_reaches hleaf
    have hhandled : handleRecursiveRequest soleVk ([] : List Unit) leaf = .ok (.leaf
        ⟨leaf.start, leaf.end_, leaf.params.depth, soleVk, leaf.root, leaf.claims⟩) :=
      handleRecursiveRequest_initial hbelow.wellFormed hinitial hbelow.depth_lt []
    have hinput := (h leaf (hreach.trans hleaf)).leafInput soleVk Unit [] _ hhandled
      ⟨fun _ => [], fun _ => []⟩
    obtain ⟨input, hnew⟩ := (onlyPanics_leafInput _ _ _ _ _ _).exists_ok hinput
    exact (leafInput_eq_ok_iff soleVk hbelow).mp ⟨input, hnew⟩
  refine ⟨?_, fun claim hclaim => ?_⟩
  · obtain ⟨claim, hclaim⟩ : ∃ claim, claim ∈ node.claims :=
      List.exists_mem_of_length_pos (by
        have := hexpandable.wellFormed.start_lt
        rw [hexpandable.wellFormed.length_claims]
        omega)
    obtain ⟨leaf, hleaf, hinitial, -⟩ := hexpandable.exists_leaf hclaim
    rw [← hleaf.root_eq]
    exact (hread leaf hleaf hinitial).1
  · obtain ⟨leaf, hleaf, hinitial, hmem⟩ := hexpandable.exists_leaf hclaim
    exact (hread leaf hleaf hinitial).2 claim hmem

/-- A request for an interval of the claims that it brings. Claims that are too many do not matter
above the leaves: they are left out here. -/
def taken (req : RecursiveRequest) : RecursiveRequest :=
  { req with claims := req.claims.take (req.end_ - req.start) }

/-- Without the claims that are too many, a request splits all the way down. -/
theorem expandable_taken (hvalid : req.params.Valid) (h32 : req.params.depth < 32)
    (hcount : req.end_ - req.start ≤ 2 ^ req.params.depth) (hlt : req.start < req.end_)
    (hclaims : req.end_ - req.start ≤ req.claims.length)
    (hfits : req.partsEnd req.params.childDepth < 2 ^ 32) : (taken req).Expandable := by
  have hend : req.end_ < 2 ^ 32 := by
    have hcover := Nat.lt_div_mul_add (a := req.end_ - req.start + 2 ^ req.params.childDepth - 1)
      (Nat.two_pow_pos req.params.childDepth)
    rw [RecursiveRequest.partsEnd] at hfits
    omega
  have hlength : (taken req).claims.length = req.end_ - req.start := by
    rw [taken, List.length_take, Nat.min_eq_left hclaims]
  exact ⟨⟨hlt, hend, hlength, hlength.trans_le hcount⟩, hvalid, h32, fun _ => hfits⟩

/-- A request splits into parts of the claims in its interval. -/
theorem flatMap_claims_of_dependencies (h : (taken req).Expandable)
    (habove : req.params.initialDepth < req.params.depth)
    (hdeps : req.dependencies = .ok deps) :
    deps.flatMap (fun dep => dep.claims) = req.claims.take (req.end_ - req.start) := by
  obtain ⟨deps', hdeps', hsplits, -⟩ := h.exists_dependencies habove.ne'
  obtain ⟨-, -, -, hcases⟩ := RecursiveRequest.dependencies_spec hdeps
  obtain ⟨-, c, hchild, rfl, -⟩ := hcases.resolve_left fun hnil => habove.ne' hnil.1
  obtain ⟨-, -, -, hcases'⟩ := RecursiveRequest.dependencies_spec hdeps'
  obtain ⟨-, c', hchild', rfl, -⟩ := hcases'.resolve_left fun hnil => habove.ne' hnil.1
  obtain rfl : c = c' := Option.some.inj (Except.ok.inj (hchild.symm.trans hchild'))
  rw [show req.claims.take (req.end_ - req.start) = (taken req).claims from rfl,
    ← hsplits.flatMap_claims h.wellFormed]
  rw [List.flatMap_map, List.flatMap_map]
  refine congrArg (fun f => List.flatMap f _) (funext fun i => ?_)
  have hle : min req.end_ (i + 2 ^ c.depth) - req.start ≤ req.end_ - req.start := by omega
  simp only [RecursiveRequest.part, taken, List.extract_eq_take_drop, List.drop_take,
    List.take_take]
  congr 1
  omega

/-- The recursion from a node above the leaves does not panic exactly when its interval is not
empty, its claims are there, the ends of its parts fit into 32 bits, and the numbers of its root and
of the claims in its interval can be read. -/
theorem safeRecursion_iff (hvalid : req.params.Valid)
    (habove : req.params.initialDepth < req.params.depth) (h32 : req.params.depth < 32)
    (hcount : req.end_ - req.start ≤ 2 ^ req.params.depth) (hle : req.start ≤ req.end_) :
    SafeRecursion req ↔ req.start < req.end_ ∧ req.end_ - req.start ≤ req.claims.length ∧
      req.partsEnd req.params.childDepth < 2 ^ 32 ∧ req.root < 2 ^ 256 ∧
        ∀ claim ∈ req.claims.take (req.end_ - req.start), claim.Converts := by
  have hleaf : req.params.nodeType ≠ .leaf := by
    intro hleaf
    rw [NodeParams.Valid, hleaf] at hvalid
    exact habove.ne' hvalid
  obtain ⟨c, hchild, -, hcdepth⟩ := NodeParams.exists_child hvalid hleaf
  have hcle : c.depth ≤ req.params.depth := by
    rw [hcdepth, NodeParams.childDepth]
    split <;> omega
  constructor
  · intro h
    obtain ⟨deps, hdeps⟩ := (RecursiveRequest.onlyPanics_dependencies req).exists_ok
      (h req .refl).dependencies
    obtain ⟨-, -, -, hcases⟩ := RecursiveRequest.dependencies_spec hdeps
    obtain ⟨-, c', -, hparts, hexpandable⟩ := hcases.resolve_left fun hnil => habove.ne' hnil.1
    have hlt : req.start < req.end_ := by
      -- without dependencies there is no snark to build on
      refine lt_of_le_of_ne hle fun heq => ?_
      refine (h req .refl).handled _ hdeps soleVk Unit [] ?_ ?_
      · rw [hparts, List.length_map, length_stepBy, heq, Nat.sub_self, List.length_nil,
          Nat.div_eq_of_lt]
        have := Nat.two_pow_pos c'.depth
        omega
      · simp only [handleRecursiveRequest, if_neg habove.ne']
        rfl
    obtain ⟨⟨-, -, hclaims, hfits⟩, -⟩ :=
      (RecursiveRequest.dependencies_eq_ok_iff hlt habove.ne' hchild hcle).mp hdeps
    rw [hcdepth] at hfits
    have htaken := expandable_taken hvalid h32 hcount hlt hclaims hfits
    have hclaimsDeps := flatMap_claims_of_dependencies htaken habove hdeps
    -- every claim of the interval is in some part, and there is a part
    have hread : ∀ claim ∈ req.claims.take (req.end_ - req.start),
        req.root < 2 ^ 256 ∧ claim.Converts := by
      intro claim hclaim
      rw [← hclaimsDeps, List.mem_flatMap] at hclaim
      obtain ⟨dep, hdep, hmem⟩ := hclaim
      obtain ⟨hroot, hconverts⟩ := h.converts (.dep .refl hdeps hdep) (hexpandable dep hdep)
      rw [(RecursiveRequest.part_of_dependencies hdeps hdep).1] at hroot
      exact ⟨hroot, hconverts claim hmem⟩
    obtain ⟨claim, hclaim⟩ : ∃ claim, claim ∈ req.claims.take (req.end_ - req.start) :=
      List.exists_mem_of_length_pos (by
        rw [List.length_take]
        omega)
    exact ⟨hlt, hclaims, hfits, (hread claim hclaim).1, fun claim hclaim => (hread claim hclaim).2⟩
  · rintro ⟨hlt, hclaims, hfits, hroot, hconverts⟩ node hreach
    rcases hreach.eq_or_expandable with rfl | hexpandable
    swap
    · rcases hreach.claims_subset with rfl | hsubset
      · have hlength := hexpandable.wellFormed.length_claims
        refine safeStep_of_expandable hexpandable hroot fun claim hclaim => hconverts claim ?_
        rwa [← hlength, List.take_length]
      · exact safeStep_of_expandable hexpandable (hreach.root_eq ▸ hroot)
          fun claim hclaim => hconverts claim (hsubset hclaim)
    have hdeps := (RecursiveRequest.dependencies_eq_ok_iff hlt habove.ne' hchild hcle).mpr
      ⟨⟨h32, hcount, hclaims, hcdepth.symm ▸ hfits⟩, rfl⟩
    refine ⟨not_panics_of_ok hdeps, fun deps hdeps' vk Snark snarks hlength => ?_,
      fun _ _ _ _ hleaf => absurd (leaf_of_handled hleaf) habove.ne'⟩
    obtain rfl := Except.ok.inj (hdeps.symm.trans hdeps')
    rw [List.length_map, hcdepth] at hlength
    have htaken := expandable_taken hvalid h32 hcount hlt hclaims hfits
    obtain ⟨request, hrequest⟩ : ∃ request,
        handleRecursiveRequest vk snarks (taken node) = .ok request := by
      obtain ⟨request, hrequest, -⟩ :=
        exists_handleRecursiveRequest htaken.wellFormed hvalid habove hlength
      exact ⟨request, hrequest⟩
    -- the claims are not read above the leaves
    have htaken_above : (taken node).params.depth ≠ (taken node).params.initialDepth := habove.ne'
    simp only [handleRecursiveRequest, if_neg htaken_above] at hrequest
    refine not_panics_of_ok (a := request) ?_
    simp only [handleRecursiveRequest, if_neg habove.ne']
    exact hrequest

/-! ### Which clients crash the server -/

/-- The depth of the tree of a task. -/
abbrev Request.treeDepth (task : Request) : ℕ :=
  task.depth.getD Constants.initialDepth

/-- The depth of the leaves of a task. -/
abbrev Request.leafDepth (task : Request) : ℕ :=
  task.initialDepth.getD Constants.initialDepth

/-- A task for a proof on the chain that is not the final one. -/
abbrev Request.Contradictory (task : Request) : Prop :=
  task.forEvm.getD true = true ∧ task.isFinal.getD true = false

/-- The depth of the nodes that the node of a task aggregates. -/
def Request.partDepth (task : Request) : ℕ :=
  if task.forEvm.getD true then task.treeDepth else task.treeDepth - 1

/-- The node of a task above the leaves. -/
def Request.params (task : Request) : NodeParams where
  nodeType :=
    if task.isFinal.getD true then
      if task.forEvm.getD true then .evm (task.rounds.getD Constants.extraRounds) else .root
    else .intermediate
  depth := task.treeDepth
  initialDepth := task.leafDepth

/-- The request of a task above the leaves. -/
def Request.top (task : Request) : RecursiveRequest :=
  ⟨task.start, task.end_, task.root, task.claims, task.params⟩

/-- The interval of a task is one, its depth is below 32, and it asks for too much or something
contradictory, or for at least one claim and no more than it brings, in parts whose ends fit into
32 bits, for a root that fits into a word and claims of eight coordinates and of field elements. -/
def Request.Answerable (task : Request) : Prop :=
  task.start ≤ task.end_ ∧ task.treeDepth ≤ 31 ∧
    (2 ^ task.treeDepth < task.end_ - task.start ∨ task.Contradictory ∨
      task.start < task.end_ ∧ task.end_ - task.start ≤ task.claims.length ∧
        task.start + (task.end_ - task.start + 2 ^ task.partDepth - 1) / 2 ^ task.partDepth *
          2 ^ task.partDepth < 2 ^ 32 ∧
        task.root < 2 ^ 256 ∧
        ∀ claim ∈ task.claims.take (task.end_ - task.start), claim.Converts)

/-- The server rejects a task as invalid input, or the recursion that it starts does not panic. -/
def Answers {EvmProof : Type} (scheduler : LocalScheduler Snark EvmProof) (fuel : ℕ)
    (task : Request) : Prop :=
  (∃ message, serve scheduler fuel task = .error (.invalidInput message)) ∨
    ∃ req, recursiveRequest task = .ok req ∧ SafeRecursion req

variable {EvmProof : Type} {scheduler : LocalScheduler Snark EvmProof} {fuel : ℕ} {task : Request}

/-- What the local server makes of a task whose bound is computed. -/
theorem recursiveRequest_eq (habove : task.leafDepth < task.treeDepth)
    (hle : task.start ≤ task.end_) (hdepth : task.treeDepth < 32) :
    recursiveRequest task =
      if 2 ^ task.treeDepth < task.end_ - task.start then
        .error (.invalidInput "Too many proofs!")
      else if task.Contradictory then .error (.invalidInput "EVM proofs must be final!")
      else .ok task.top := by
  have hsub : orFailed (checkedSub task.end_ task.start) = .ok (task.end_ - task.start) :=
    orFailed_eq_ok.mpr (checkedSub_eq_ok.mpr ⟨hle, rfl⟩)
  have hshl : orFailed (checkedShl 32 task.treeDepth) = .ok (2 ^ task.treeDepth) :=
    orFailed_eq_ok.mpr (checkedShl_eq_ok.mpr ⟨hdepth, rfl⟩)
  have hnew (nodeType : NodeType) :
      orFailed (NodeParams.new nodeType task.treeDepth task.leafDepth) =
        .ok ⟨nodeType, task.treeDepth, task.leafDepth⟩ :=
    orFailed_eq_ok.mpr (NodeParams.new_eq habove.le)
  simp only [recursiveRequest, hsub, hshl, bind, Except.bind]
  split
  · rfl
  · rcases Bool.eq_false_or_eq_true (task.forEvm.getD true) with hevm | hevm
    all_goals
      rcases Bool.eq_false_or_eq_true (task.isFinal.getD true) with hfinal | hfinal
      all_goals
        simp only [Request.Contradictory, Request.top, Request.params, hevm, hfinal, hnew,
          if_neg habove.ne', Bool.not_true, Bool.not_false, Bool.and_true, Bool.and_false,
          Bool.false_eq_true, reduceCtorEq, and_true, and_false, and_self, if_true, if_false]
        rfl

/-- The bounds of a task that does not fail are computed. -/
theorem bounds_of_recursiveRequest
    (h : ∀ failure, recursiveRequest task ≠ .error (.failed failure)) :
    task.start ≤ task.end_ ∧ task.treeDepth < 32 := by
  constructor
  · by_contra hlt
    refine h .panicked ?_
    simp only [recursiveRequest, checkedSub, if_neg hlt]
    rfl
  · by_contra hdepth
    by_cases hle : task.start ≤ task.end_
    · refine h .panicked ?_
      simp only [recursiveRequest, checkedSub, if_pos hle, checkedShl, if_neg hdepth]
      rfl
    · refine h .panicked ?_
      simp only [recursiveRequest, checkedSub, if_neg hle]
      rfl

/-- Only the checks before the recursion reject a task as invalid input. -/
theorem serve_eq_invalidInput {message : String} :
    serve scheduler fuel task = .error (.invalidInput message) ↔
      recursiveRequest task = .error (.invalidInput message) := by
  rw [serve]
  cases hreq : recursiveRequest task with
  | error failure => simp [bind, Except.bind]
  | ok req =>
      have hfailed {α : Type} (c : Fallible α) (m : String) :
          orFailed c ≠ .error (.invalidInput m) := by
        cases c <;> simp [orFailed, Except.mapError]
      simp only [bind, Except.bind, reduceCtorEq, iff_false]
      split
      · cases hproof : orFailed (scheduler.recursiveGenProof fuel req true) with
        | error failure =>
            rintro ⟨⟩
            exact hfailed _ _ hproof
        | ok proof => cases proof <;> nofun
      · cases hproof : orFailed (scheduler.recursiveGenProof fuel req false) with
        | error failure =>
            rintro ⟨⟩
            exact hfailed _ _ hproof
        | ok proof => nofun

/-- The node of a task is valid, and it aggregates nodes of the depth of its parts. -/
theorem valid_params (habove : task.leafDepth < task.treeDepth) (hcon : ¬ task.Contradictory) :
    task.params.Valid ∧ task.params.childDepth = task.partDepth := by
  rcases Bool.eq_false_or_eq_true (task.isFinal.getD true) with hfinal | hfinal
  all_goals rcases Bool.eq_false_or_eq_true (task.forEvm.getD true) with hevm | hevm
  · simp only [NodeParams.Valid, NodeParams.childDepth, Request.params, Request.partDepth, hfinal,
      hevm, if_true]
    exact ⟨habove.le, trivial⟩
  · simp only [NodeParams.Valid, NodeParams.childDepth, Request.params, Request.partDepth, hfinal,
      hevm, if_true, Bool.false_eq_true, if_false]
    exact ⟨habove, trivial⟩
  · exact absurd ⟨hevm, hfinal⟩ hcon
  · simp only [NodeParams.Valid, NodeParams.childDepth, Request.params, Request.partDepth, hfinal,
      hevm, Bool.false_eq_true, if_false]
    exact ⟨habove, trivial⟩

/-- Exactly the tasks that are `Answerable` are rejected as invalid input or run without a panic. -/
theorem answers_iff (habove : task.leafDepth < task.treeDepth) :
    Answers scheduler fuel task ↔ task.Answerable := by
  by_cases hbounds : task.start ≤ task.end_ ∧ task.treeDepth < 32
  swap
  · -- the bounds are computed before anything is checked
    have hfailed : ¬ ∀ failure, recursiveRequest task ≠ .error (.failed failure) :=
      fun h => hbounds (bounds_of_recursiveRequest h)
    obtain ⟨failure, hfailure⟩ := not_forall_not.mp hfailed
    simp only [Answers, serve_eq_invalidInput, hfailure, Request.Answerable]
    constructor
    · rintro (⟨message, hmessage⟩ | ⟨req, hreq, -⟩)
      · cases hmessage
      · cases hreq
    · rintro ⟨hle, hdepth, -⟩
      exact absurd ⟨hle, by omega⟩ hbounds
  obtain ⟨hle, h32⟩ := hbounds
  simp only [Answers, serve_eq_invalidInput, recursiveRequest_eq habove hle h32]
  by_cases hcount : 2 ^ task.treeDepth < task.end_ - task.start
  · rw [if_pos hcount]
    exact ⟨fun _ => ⟨hle, by omega, .inl hcount⟩, fun _ => .inl ⟨_, rfl⟩⟩
  rw [if_neg hcount]
  by_cases hcon : task.Contradictory
  · rw [if_pos hcon]
    exact ⟨fun _ => ⟨hle, by omega, .inr (.inl hcon)⟩, fun _ => .inl ⟨_, rfl⟩⟩
  rw [if_neg hcon]
  obtain ⟨hvalid, hpart⟩ := valid_params habove hcon
  have hsafe : SafeRecursion task.top ↔ _ :=
    safeRecursion_iff hvalid habove h32 (not_lt.mp hcount) hle
  rw [show task.top.params.childDepth = task.partDepth from hpart] at hsafe
  constructor
  · rintro (⟨message, hmessage⟩ | ⟨req, hreq, hrecursion⟩)
    · cases hmessage
    · cases hreq
      exact ⟨hle, by omega, .inr (.inr (hsafe.mp hrecursion))⟩
  · rintro ⟨-, -, hcases⟩
    exact .inr ⟨_, rfl, hsafe.mpr ((hcases.resolve_left hcount).resolve_left hcon)⟩

/-- A prover that answers every task. -/
def soleScheduler : LocalScheduler Unit Unit where
  state := ⟨fun _ _ => .ok (), fun _ _ => .ok ()⟩
  circuitIdRepo := fun _ => some "circuit"
  vk := soleVk

/-- A task for a batch of depth 4 with the defaults. -/
def soleTask (start end_ : ℕ) (claims : List ClaimNative) : Request :=
  ⟨start, end_, 7, claims, none, some 4, none, none, none⟩

/-- Two claims with the defaults below a wrapped root of depth 4 are proven without a panic. -/
theorem answers_pair : Constants.initialDepth < 4 ∧
    Answers soleScheduler 9 (soleTask 0 2 (List.replicate 2 soleNative)) := by
  refine ⟨by decide, (answers_iff (by decide)).mpr ⟨by decide, by decide, .inr (.inr ?_)⟩⟩
  have hsole : soleNative.Converts := ⟨by decide, by decide, by decide⟩
  refine ⟨by decide, by decide, by decide, by decide, fun claim hclaim => ?_⟩
  rwa [List.eq_of_mem_replicate (List.mem_of_mem_take hclaim)]

/-- A task without claims is neither rejected nor proven: the wrapper has no snark to wrap. -/
theorem not_answers_empty : Constants.initialDepth < 4 ∧
    serve soleScheduler 9 (soleTask 0 0 []) = .error (.failed .panicked) ∧
      ¬ Answers soleScheduler 9 (soleTask 0 0 []) := by
  have hrequest : recursiveRequest (soleTask 0 0 []) = .ok (soleTask 0 0 []).top := by decide
  have hserve : serve soleScheduler 9 (soleTask 0 0 []) = .error (.failed .panicked) := rfl
  refine ⟨by decide, hserve, ?_⟩
  rintro (⟨message, hmessage⟩ | ⟨req, hreq, hsafe⟩)
  · rw [hserve] at hmessage
    cases hmessage
  · obtain rfl := Except.ok.inj (hrequest.symm.trans hreq)
    exact (hsafe _ .refl).handled [] rfl soleVk Unit [] rfl rfl

end LocalServer

end WorldcoinAggregation
