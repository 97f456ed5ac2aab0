import WorldcoinAggregation.Scheduler.RecursiveRequest

/-!
# The recursive scheduler

A request is proven by proving its dependencies, handing their snarks to the circuit of its node
and proving that circuit (`LocalScheduler.recursiveGenProof`). Which circuit a request builds is
decided by `handleRecursiveRequest`, and which circuit id it is proven under by its parameters.
The two agree with the circuits of keygen exactly where `walksKeygenTree_iff` says.
-/

namespace WorldcoinAggregation

open Fallible

/-- A verifying key as it is stored. Decimal strings are the numbers they denote. -/
structure VkNative where
  vkAlpha1 : List ℕ
  vkBeta2 : List (List ℕ)
  vkGamma2 : List (List ℕ)
  vkDelta2 : List (List ℕ)
  ic : List (List ℕ)
deriving DecidableEq

/-- What a leaf circuit is built from. -/
structure WorldcoinRequestLeaf where
  start : ℕ
  end_ : ℕ
  depth : ℕ
  vk : VkNative
  root : ℕ
  claims : List ClaimNative
deriving DecidableEq

/-- What an intermediate circuit is built from. -/
structure WorldcoinRequestIntermediate (Snark : Type) where
  start : ℕ
  end_ : ℕ
  depth : ℕ
  initialDepth : ℕ
  snarks : List Snark

/-- What a root circuit is built from. -/
abbrev WorldcoinRequestRoot := WorldcoinRequestIntermediate

/-- What a wrapper for the chain is built from. -/
structure WorldcoinRequestEvm (Snark : Type) where
  start : ℕ
  end_ : ℕ
  depth : ℕ
  initialDepth : ℕ
  round : ℕ
  snark : Snark

/-- A request for the circuit of one node. -/
inductive RequestRouter (Snark : Type) where
  | leaf (req : WorldcoinRequestLeaf)
  | intermediate (req : WorldcoinRequestIntermediate Snark)
  | root (req : WorldcoinRequestRoot Snark)
  | evm (req : WorldcoinRequestEvm Snark)

/-- The node whose circuit a request builds. -/
def RequestRouter.params {Snark : Type} : RequestRouter Snark → NodeParams
  | .leaf req => ⟨.leaf, req.depth, req.depth⟩
  | .intermediate req => ⟨.intermediate, req.depth, req.initialDepth⟩
  | .root req => ⟨.root, req.depth, req.initialDepth⟩
  | .evm req => ⟨.evm req.round, req.depth, req.initialDepth⟩

/-- A list cut off or filled up to this length. -/
def resize {α : Type} (xs : List α) (len : ℕ) (fill : α) : List α :=
  xs.take len ++ List.replicate (len - xs.length) fill

variable {Snark EvmProof : Type}

/-- The request for a leaf circuit. -/
def getRequestLeaf (vk : VkNative) (start end_ depth root : ℕ) (claims : List ClaimNative) :
    Fallible WorldcoinRequestLeaf := do
  let numProofs ← checkedSub end_ start
  let maxProofs ← checkedShl 32 depth
  if maxProofs < numProofs then
    throw (.error
      s!"start: {start}, end: {end_}, cannot request more than 2^{depth} proofs")
  return ⟨start, end_, depth, vk, root, claims⟩

/-- The two snarks that a join aggregates: a single one is its own dummy. -/
def padSnarks (snarks : List Snark) : Fallible (List Snark) := do
  assert (snarks.length ≤ 2)
  -- a single snark is aggregated twice, the second time as a dummy
  if snarks.length ≠ 2 then
    return resize snarks 2 (← unwrap snarks.head?)
  else
    return snarks

/-- The request for the circuit of a node, given the snarks of its dependencies. -/
def handleRecursiveRequest (vk : VkNative) (snarks : List Snark) (req : RecursiveRequest) :
    Fallible (RequestRouter Snark) :=
  let params := req.params
  -- the depth decides first, whatever the node type
  if params.depth = params.initialDepth then do
    return .leaf (← getRequestLeaf vk req.start req.end_ params.depth req.root req.claims)
  else do
    assert (snarks.isEmpty = false)
    match params.nodeType with
    | .leaf => throw .panicked
    | .intermediate => do
        let snarks ← padSnarks snarks
        return .intermediate ⟨req.start, req.end_, params.depth, params.initialDepth, snarks⟩
    | .root => do
        let snarks ← padSnarks snarks
        return .root ⟨req.start, req.end_, params.depth, params.initialDepth, snarks⟩
    | .evm round => do
        assert (snarks.length = 1)
        let snark ← unwrap snarks.getLast?
        return .evm ⟨req.start, req.end_, params.depth, params.initialDepth, round, snark⟩

/-! ## Generating proofs -/

/-- A task for a prover. -/
structure ProverTask (Snark : Type) where
  circuitId : String
  isEvmProof : Bool
  request : RequestRouter Snark

/-- The result of a task. -/
inductive ProverProof (Snark EvmProof : Type) where
  | snark (snark : Snark)
  | evmProof (proof : EvmProof)

/-- A prover for single circuits. -/
structure ProvingServerState (Snark EvmProof : Type) where
  getSnark : (circuitId : String) → RequestRouter Snark → Fallible Snark
  getEvmProof : (circuitId : String) → WorldcoinRequestEvm Snark → Fallible EvmProof

/-- The scheduler that runs one task at a time. -/
structure LocalScheduler (Snark EvmProof : Type) where
  state : ProvingServerState Snark EvmProof
  circuitIdRepo : NodeParams → Option String
  vk : VkNative

namespace LocalScheduler

variable (scheduler : LocalScheduler Snark EvmProof)

/-- The circuit that handles the last step of a request. -/
def getCircuitId (req : RecursiveRequest) : Fallible String :=
  match scheduler.circuitIdRepo req.params with
  | some circuitId => return circuitId
  | none => throw (.error s!"Circuit ID for {req.params.debug} not found")

/-- Runs one task. -/
def generateProof (task : ProverTask Snark) : Fallible (ProverProof Snark EvmProof) :=
  if task.isEvmProof then
    match task.request with
    | .evm req => do return .evmProof (← scheduler.state.getEvmProof task.circuitId req)
    | .leaf _ | .intermediate _ | .root _ => throw .panicked
  else do return .snark (← scheduler.state.getSnark task.circuitId task.request)

/-- The snark of a dependency. -/
def intoSnark : ProverProof Snark EvmProof → Fallible Snark
  | .snark snark => return snark
  | .evmProof _ => throw .panicked

/-- Proves a request, its dependencies first. -/
def recursiveGenProof :
    ℕ → RecursiveRequest → (isEvmProof : Bool) → Fallible (ProverProof Snark EvmProof)
  | 0, _, _ => throw .outOfFuel
  | fuel + 1, req, isEvmProof => do
      let deps ← req.dependencies
      let snarks ← deps.mapM fun dep => do intoSnark (← recursiveGenProof fuel dep false)
      let request ← handleRecursiveRequest scheduler.vk snarks req
      let circuitId ← scheduler.getCircuitId req
      scheduler.generateProof ⟨circuitId, isEvmProof, request⟩

/-- The snarks of the dependencies of a request, from left to right. -/
def getSnarksForDeps (fuel : ℕ) (req : RecursiveRequest) : Fallible (List Snark) := do
  let deps ← req.dependencies
  deps.mapM fun dep => do intoSnark (← scheduler.recursiveGenProof fuel dep false)

/-- A request is proven from the snarks of its dependencies. -/
theorem recursiveGenProof_succ (fuel : ℕ) (req : RecursiveRequest) (isEvmProof : Bool) :
    scheduler.recursiveGenProof (fuel + 1) req isEvmProof = (do
      let snarks ← scheduler.getSnarksForDeps fuel req
      let request ← handleRecursiveRequest scheduler.vk snarks req
      let circuitId ← scheduler.getCircuitId req
      scheduler.generateProof ⟨circuitId, isEvmProof, request⟩) := by
  simp only [recursiveGenProof, getSnarksForDeps, bind_assoc]

end LocalScheduler

end WorldcoinAggregation
