import WorldcoinAggregation.Scheduler.TreeLevels

/-!
# The tasks of the sequential scheduler

`LocalScheduler.runWithTasks` proves a request as `LocalScheduler.recursiveGenProof` does
(`map_fst_runWithTasks`) and lists the tasks in the order in which they are run. There is one task
for each node of the tree of the request (`expand_of_runWithTasks`), and no two tasks are the same
(`nodup_tasks`).
-/

namespace WorldcoinAggregation

open Fallible

variable {Snark EvmProof : Type}

/-- Where the claims of a request for a circuit start. -/
def RequestRouter.start : RequestRouter Snark → ℕ
  | .leaf req => req.start
  | .intermediate req => req.start
  | .root req => req.start
  | .evm req => req.start

namespace LocalScheduler

variable (scheduler : LocalScheduler Snark EvmProof)

/-- Proves a request and lists the tasks that this takes, each with its node. -/
def runWithTasks : ℕ → RecursiveRequest → (isEvmProof : Bool) →
    Fallible (ProverProof Snark EvmProof × List (RecursiveRequest × ProverTask Snark))
  | 0, _, _ => throw .outOfFuel
  | fuel + 1, req, isEvmProof => do
      let deps ← req.dependencies
      let below ← deps.mapM fun dep => do
        let (proof, tasks) ← runWithTasks fuel dep false
        return (← intoSnark proof, tasks)
      let request ← handleRecursiveRequest scheduler.vk (below.map Prod.fst) req
      let circuitId ← scheduler.getCircuitId req
      let task : ProverTask Snark := ⟨circuitId, isEvmProof, request⟩
      let proof ← scheduler.generateProof task
      return (proof, (below.map Prod.snd).flatten ++ [(req, task)])

/-- The snark of a dependency and the tasks that it takes. -/
def runDependency (fuel : ℕ) (dep : RecursiveRequest) :
    Fallible (Snark × List (RecursiveRequest × ProverTask Snark)) := do
  let (proof, tasks) ← scheduler.runWithTasks fuel dep false
  return (← intoSnark proof, tasks)

variable {scheduler} {fuel : ℕ} {req dep : RecursiveRequest} {isEvmProof : Bool}
  {proof : ProverProof Snark EvmProof} {tasks : List (RecursiveRequest × ProverTask Snark)}

/-- A request is proven from its dependencies. -/
theorem runWithTasks_succ : scheduler.runWithTasks (fuel + 1) req isEvmProof = (do
    let deps ← req.dependencies
    let below ← deps.mapM (scheduler.runDependency fuel)
    let request ← handleRecursiveRequest scheduler.vk (below.map Prod.fst) req
    let circuitId ← scheduler.getCircuitId req
    let task : ProverTask Snark := ⟨circuitId, isEvmProof, request⟩
    let proof ← scheduler.generateProof task
    return (proof, (below.map Prod.snd).flatten ++ [(req, task)])) :=
  rfl

/-- When a request is proven, and with which tasks. -/
theorem runWithTasks_succ_eq_ok :
    scheduler.runWithTasks (fuel + 1) req isEvmProof = .ok (proof, tasks) ↔
      ∃ deps below request circuitId, req.dependencies = .ok deps ∧
        deps.mapM (scheduler.runDependency fuel) = .ok below ∧
        handleRecursiveRequest scheduler.vk (below.map Prod.fst) req = .ok request ∧
        scheduler.getCircuitId req = .ok circuitId ∧
        scheduler.generateProof ⟨circuitId, isEvmProof, request⟩ = .ok proof ∧
        tasks = (below.map Prod.snd).flatten ++ [(req, ⟨circuitId, isEvmProof, request⟩)] := by
  simp only [runWithTasks_succ, bind_eq_ok, pure_eq_ok, Prod.mk.injEq]
  constructor
  · rintro ⟨deps, hdeps, below, hbelow, request, hrequest, circuitId, hid, _, hproof, rfl, rfl⟩
    exact ⟨deps, below, request, circuitId, hdeps, hbelow, hrequest, hid, hproof, rfl⟩
  · rintro ⟨deps, below, request, circuitId, hdeps, hbelow, hrequest, hid, hproof, rfl⟩
    exact ⟨deps, hdeps, below, hbelow, request, hrequest, circuitId, hid, _, hproof, rfl, rfl⟩

/-- When a dependency is proven, and with which tasks. -/
theorem runDependency_eq_ok {snark : Snark} :
    scheduler.runDependency fuel dep = .ok (snark, tasks) ↔
      scheduler.runWithTasks fuel dep false = .ok (.snark snark, tasks) := by
  simp only [runDependency, bind_eq_ok, pure_eq_ok, Prod.mk.injEq]
  constructor
  · rintro ⟨⟨proof, tasks'⟩, hrun, _, hproof, rfl, rfl⟩
    cases proof with
    | snark snark =>
        obtain rfl := pure_eq_ok.mp hproof
        exact hrun
    | evmProof proof => cases hproof
  · intro hrun
    exact ⟨_, hrun, snark, rfl, rfl, rfl⟩

/-- Listing the tasks does not change the proof. -/
theorem map_fst_runWithTasks : Except.map Prod.fst (scheduler.runWithTasks fuel req isEvmProof) =
    scheduler.recursiveGenProof fuel req isEvmProof := by
  induction fuel generalizing req isEvmProof with
  | zero => rfl
  | succ fuel ih =>
      have hdep (dep : RecursiveRequest) :
          Except.map Prod.fst (scheduler.runDependency fuel dep) = (do
            intoSnark (← scheduler.recursiveGenProof fuel dep false)) := by
        rw [← ih, runDependency]
        rcases scheduler.runWithTasks fuel dep false with failure | ⟨_ | _, tasks⟩ <;> rfl
      rw [runWithTasks_succ, recursiveGenProof]
      cases req.dependencies with
      | error failure => rfl
      | ok deps =>
          simp only [bind, Except.bind] at hdep ⊢
          rw [← map_mapM hdep]
          cases deps.mapM (scheduler.runDependency fuel) with
          | error failure => rfl
          | ok below =>
              simp only [Except.map]
              cases handleRecursiveRequest scheduler.vk (below.map Prod.fst) req with
              | error failure => rfl
              | ok request =>
                  cases scheduler.getCircuitId req with
                  | error failure => rfl
                  | ok circuitId =>
                      simp only
                      cases scheduler.generateProof ⟨circuitId, isEvmProof, request⟩ <;> rfl

/-- There is one task for each node of the tree, in the order of the tree. -/
theorem expand_of_runWithTasks
    (h : scheduler.runWithTasks fuel req isEvmProof = .ok (proof, tasks)) :
    req.expand fuel = .ok (tasks.map Prod.fst) := by
  induction fuel generalizing req isEvmProof proof tasks with
  | zero => cases h
  | succ fuel ih =>
      obtain ⟨deps, below, request, circuitId, hdeps, hbelow, -, -, -, rfl⟩ :=
        runWithTasks_succ_eq_ok.mp h
      refine RecursiveRequest.expand_succ_eq_ok.mpr
        ⟨deps, below.map fun dep => dep.2.map Prod.fst, hdeps, ?_, ?_⟩
      · refine mapM_eq_ok_iff.mpr (List.forall₂_map_right_iff.mpr ?_)
        refine (mapM_eq_ok_iff.mp hbelow).imp fun dep result hdep => ?_
        exact ih (runDependency_eq_ok.mp hdep)
      · simp [List.map_flatten, Function.comp_def]

/-- The task of a node is for the circuit of the node. -/
theorem exists_handled_of_mem
    (h : scheduler.runWithTasks fuel req isEvmProof = .ok (proof, tasks)) {node : RecursiveRequest}
    {task : ProverTask Snark} (hmem : (node, task) ∈ tasks) :
    ∃ snarks, handleRecursiveRequest scheduler.vk snarks node = .ok task.request := by
  induction fuel generalizing req isEvmProof proof tasks with
  | zero => cases h
  | succ fuel ih =>
      obtain ⟨deps, below, request, circuitId, -, hbelow, hrequest, -, -, rfl⟩ :=
        runWithTasks_succ_eq_ok.mp h
      rw [List.mem_append, List.mem_flatten, List.mem_singleton] at hmem
      rcases hmem with ⟨tasks, htasks, hmem⟩ | heq
      · obtain ⟨result, hresult, rfl⟩ := List.mem_map.mp htasks
        obtain ⟨dep, -, hdep⟩ := exists_of_mem_mapM hbelow hresult
        exact ih (runDependency_eq_ok.mp hdep) hmem
      · cases heq
        exact ⟨_, hrequest⟩

/-- A leaf request tells the start and the depth of its node. -/
theorem start_of_getRequestLeaf {vk : VkNative} {start end_ depth root : ℕ}
    {claims : List ClaimNative} {leaf : WorldcoinRequestLeaf}
    (h : getRequestLeaf vk start end_ depth root claims = .ok leaf) :
    leaf.start = start ∧ leaf.depth = depth := by
  obtain ⟨n, -, h⟩ := bind_eq_ok.mp h
  obtain ⟨m, -, h⟩ := bind_eq_ok.mp h
  by_cases hcount : m < n
  · simp only [if_pos hcount] at h
    cases h
  · simp only [if_neg hcount] at h
    cases h
    exact ⟨rfl, rfl⟩

/-- The request for a circuit tells its node, if only leaves are at the initial depth. -/
theorem key_of_handled {vk : VkNative} {snarks : List Snark} {request : RequestRouter Snark}
    (h : handleRecursiveRequest vk snarks req = .ok request)
    (hleaf : req.params.depth = req.params.initialDepth → req.params.nodeType = .leaf) :
    (request.start, request.params) = req.key := by
  obtain ⟨start, end_, root, claims, nodeType, depth, initialDepth⟩ := req
  by_cases hinitial : depth = initialDepth
  · obtain rfl : nodeType = .leaf := hleaf hinitial
    simp only [handleRecursiveRequest, if_pos hinitial, bind_eq_ok, pure_eq_ok] at h
    obtain ⟨leaf, hrequest, rfl⟩ := h
    obtain ⟨hstart, hdepth⟩ := start_of_getRequestLeaf hrequest
    simp only [RequestRouter.start, RequestRouter.params, RecursiveRequest.key, hstart, hdepth,
      hinitial]
  · simp only [handleRecursiveRequest, if_neg hinitial, bind_eq_ok] at h
    obtain ⟨-, -, h⟩ := h
    cases nodeType with
    | leaf => cases h
    | intermediate =>
        obtain ⟨_, -, h⟩ := bind_eq_ok.mp h
        cases h
        rfl
    | root =>
        obtain ⟨_, -, h⟩ := bind_eq_ok.mp h
        cases h
        rfl
    | evm round =>
        obtain ⟨_, -, h⟩ := bind_eq_ok.mp h
        obtain ⟨_, -, h⟩ := bind_eq_ok.mp h
        cases h
        rfl

/-- No task is submitted twice. -/
theorem nodup_tasks (h : scheduler.runWithTasks fuel req isEvmProof = .ok (proof, tasks)) :
    (tasks.map Prod.snd).Nodup := by
  have hexpand := expand_of_runWithTasks h
  by_cases hinitial : req.params.depth = req.params.initialDepth
  · -- the tree is a single node
    have hone : tasks.length = 1 := by
      cases fuel with
      | zero => cases h
      | succ fuel =>
          obtain ⟨deps, below, hdeps, hbelow, hnodes⟩ :=
            RecursiveRequest.expand_succ_eq_ok.mp hexpand
          obtain ⟨-, -, -, ⟨-, rfl⟩ | ⟨hne, -⟩⟩ := RecursiveRequest.dependencies_spec hdeps
          · obtain rfl : below = [] := pure_eq_ok.mp hbelow
            simpa using congrArg List.length hnodes
          · exact absurd hinitial hne
    obtain ⟨entry, rfl⟩ := List.length_eq_one_iff.mp hone
    exact List.nodup_singleton _
  · have hkeys : (tasks.map Prod.snd).map (fun task => (task.request.start, task.request.params)) =
        (tasks.map Prod.fst).map RecursiveRequest.key := by
      rw [List.map_map, List.map_map]
      refine List.map_congr_left fun entry hentry => ?_
      obtain ⟨snarks, hrequest⟩ := exists_handled_of_mem h hentry
      have hreach := (RecursiveRequest.mem_expand_iff hexpand).mp (List.mem_map_of_mem hentry)
      exact key_of_handled hrequest (hreach.leaf_of_initial hinitial)
    exact .of_map _ (hkeys ▸ RecursiveRequest.nodup_of_expand hexpand)

end LocalScheduler

end WorldcoinAggregation
