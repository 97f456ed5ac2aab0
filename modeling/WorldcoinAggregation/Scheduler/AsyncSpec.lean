import WorldcoinAggregation.Scheduler.AsyncScheduler
import WorldcoinAggregation.Scheduler.LocalTasks
import WorldcoinAggregation.Scheduler.Servers

/-!
# What a run of the concurrent scheduler is like

`AsyncScheduler.Guard` says what has to have happened before an event, and `AsyncScheduler.nodeSpec`
what the recursion promises for a request: that the nodes of its tree are recorded once it has
succeeded (`AsyncScheduler.Completed`) and, if the executor is deterministic, that it ends as the
sequential scheduler does (`AsyncScheduler.Agrees`). The results of dependencies are collected from
the left, as the sequential scheduler makes them (`collectSnarks_eq`).
-/

namespace WorldcoinAggregation

open Fallible Async

variable {Snark EvmProof : Type}

/-- A wrapper above the leaves. -/
def RecursiveRequest.Wraps (req : RecursiveRequest) : Prop :=
  req.params.depth ≠ req.params.initialDepth ∧ ∃ round, req.params.nodeType = .evm round

/-- A request for a leaf or a join that is not rejected: its interval fits, and above the leaves its
claims are there and the ends of its parts fit into 32 bits. -/
def RecursiveRequest.Builds (req : RecursiveRequest) : Prop :=
  req.start ≤ req.end_ ∧ req.params.depth < 32 ∧ req.end_ - req.start ≤ 2 ^ req.params.depth ∧
    (req.params.depth = req.params.initialDepth ∨
      (req.params.nodeType = .intermediate ∨ req.params.nodeType = .root) ∧
        req.params.initialDepth < req.params.depth ∧ req.start < req.end_ ∧
        req.end_ - req.start ≤ req.claims.length ∧ req.partsEnd (req.params.depth - 1) < 2 ^ 32)

namespace RecursiveRequest

variable {req : RecursiveRequest} {deps : List RecursiveRequest} {vk : VkNative}

/-- Such a request splits, and a circuit is built from a snark for each of its dependencies. -/
theorem Builds.exists_handled (h : req.Builds) (Snark : Type) (vk : VkNative) :
    ∃ deps, req.dependencies = .ok deps ∧ ∀ snarks : List Snark, snarks.length = deps.length →
      ∃ request, handleRecursiveRequest vk snarks req = .ok request := by
  obtain ⟨hle, h32, hcount, hinitial | ⟨htype, habove, hlt, hclaims, hfits⟩⟩ := h
  · refine ⟨[], (dependencies_initial_iff hinitial).mpr ⟨⟨hle, h32, hcount⟩, rfl⟩, ?_⟩
    exact fun snarks _ => ⟨_, handleRecursiveRequest_leaf hle h32 hcount hinitial snarks⟩
  · have hvalid : req.params.Valid := by
      rcases htype with htype | htype <;> simpa only [NodeParams.Valid, htype] using habove
    have hchildDepth : req.params.childDepth = req.params.depth - 1 := by
      rcases htype with htype | htype <;> simp only [NodeParams.childDepth, htype]
    have hleaf : req.params.nodeType ≠ .leaf := by
      rcases htype with htype | htype <;> simp [htype]
    obtain ⟨c, hchild, -, hcdepth⟩ := NodeParams.exists_child hvalid hleaf
    rw [hchildDepth] at hcdepth
    refine ⟨_, (dependencies_eq_ok_iff hlt habove.ne' hchild (by omega)).mpr
      ⟨⟨h32, hcount, hclaims, hcdepth ▸ hfits⟩, rfl⟩, fun snarks hsnarks => ?_⟩
    rw [List.length_map, hcdepth] at hsnarks
    have hpos : snarks ≠ [] := by
      rw [← List.length_pos_iff, hsnarks, List.length_pos_iff]
      exact stepBy_ne_nil (Nat.two_pow_pos _) hlt
    obtain ⟨first, second, hpad, -⟩ :=
      padSnarks_eq hpos (hsnarks ▸ length_halves (by omega) hcount)
    rcases htype with htype | htype
    · exact ⟨_, handleRecursiveRequest_intermediate habove.ne' htype hpos hpad⟩
    · exact ⟨_, handleRecursiveRequest_root habove.ne' htype hpos hpad⟩

/-- A request that is no wrapper is rejected otherwise. -/
theorem builds_of_handled (hwraps : ¬ req.Wraps) (hdeps : req.dependencies = .ok deps)
    {snarks : List Snark} {request : RequestRouter Snark} (hsnarks : snarks.length = deps.length)
    (hrequest : handleRecursiveRequest vk snarks req = .ok request) : req.Builds := by
  obtain ⟨hle, h32, hcount, ⟨hinitial, -⟩ | ⟨hinitial, c, hchild, hparts, -⟩⟩ :=
    dependencies_spec hdeps
  · exact ⟨hle, h32, hcount, .inl hinitial⟩
  · refine ⟨hle, h32, hcount, .inr ?_⟩
    have htype : req.params.nodeType = .intermediate ∨ req.params.nodeType = .root := by
      cases htype : req.params.nodeType with
      | leaf =>
          rw [NodeParams.child_leaf htype] at hchild
          cases hchild
      | intermediate => exact .inl rfl
      | root => exact .inr rfl
      | evm round => exact absurd ⟨hinitial, round, htype⟩ hwraps
    have hc := NodeParams.isChild_of_child hchild
    have habove : req.params.initialDepth < req.params.depth := by
      have hvalid := hc.parent_valid
      rcases htype with htype | htype <;> simpa only [NodeParams.Valid, htype] using hvalid
    have hcdepth : c.depth = req.params.depth - 1 := by
      rw [hc.depth_eq]
      rcases htype with htype | htype <;> simp only [NodeParams.childDepth, htype]
    have hlt : req.start < req.end_ := by
      -- without dependencies there is no snark to build on
      refine lt_of_le_of_ne hle fun heq => ?_
      have hnone : snarks = [] := by
        rw [← List.length_eq_zero_iff, hsnarks, hparts, List.length_map, length_stepBy, heq,
          Nat.sub_self, Nat.div_eq_of_lt]
        have := Nat.two_pow_pos c.depth
        omega
      simp only [handleRecursiveRequest, if_neg hinitial, hnone] at hrequest
      cases hrequest
    obtain ⟨⟨-, -, hclaims, hfits⟩, -⟩ :=
      (dependencies_eq_ok_iff hlt hinitial hchild (by omega)).mp hdeps
    exact ⟨htype, habove, hlt, hclaims, hcdepth ▸ hfits⟩

end RecursiveRequest

/-! ## The sequential scheduler -/

namespace AsyncScheduler

variable {scheduler : AsyncScheduler Snark EvmProof} {fuel : ℕ} {req dep node : RecursiveRequest}
  {deps : List RecursiveRequest} {isEvmProof : Bool} {proof : ProverProof Snark EvmProof}
  {tasks : List (RecursiveRequest × ProverTask Snark)} {requestId : String}
  {prover : ProverFunction Snark EvmProof}

/-- The sequential scheduler answers a task as its prover does, unless a proof for the chain is
asked of a circuit that is no wrapper. -/
theorem localScheduler_generateProof (scheduler : AsyncScheduler Snark EvmProof)
    (prover : ProverFunction Snark EvmProof) (task : ProverTask Snark) :
    (scheduler.localScheduler prover).generateProof task =
        (prover.prove task).mapError .error ∨
      task.isEvmProof = true ∧ (∀ request, task.request ≠ .evm request) ∧
        (scheduler.localScheduler prover).generateProof task = .error .panicked := by
  obtain ⟨circuitId, isEvmProof, request⟩ := task
  cases isEvmProof with
  | false =>
      refine .inl ?_
      simp only [LocalScheduler.generateProof, localScheduler, ProverFunction.provingServerState,
        ProverFunction.getSnark, Bool.false_eq_true, if_false]
      cases hprove : prover.prove ⟨circuitId, false, request⟩ with
      | error message => rfl
      | ok proof =>
          cases proof with
          | snark snark => rfl
          | evmProof proof => exact absurd hprove (prover.isSnark _ _ _)
  | true =>
      cases request with
      | leaf request => exact .inr ⟨rfl, nofun, rfl⟩
      | intermediate request => exact .inr ⟨rfl, nofun, rfl⟩
      | root request => exact .inr ⟨rfl, nofun, rfl⟩
      | evm request =>
          refine .inl ?_
          simp only [LocalScheduler.generateProof, localScheduler,
            ProverFunction.provingServerState, ProverFunction.getEvmProof, if_true]
          cases hprove : prover.prove ⟨circuitId, true, .evm request⟩ with
          | error message => rfl
          | ok proof =>
              cases proof with
              | snark snark => exact absurd hprove (prover.isEvmProof _ _ _)
              | evmProof proof => rfl

/-- A circuit id is found where one is registered. -/
theorem getCircuitId_eq_ok {circuitId : String} : scheduler.getCircuitId req = .ok circuitId ↔
    scheduler.circuitIdRepo req.params = some circuitId := by
  unfold getCircuitId
  split
  · rename_i found hfound
    rw [hfound, pure_eq_ok, Option.some.injEq, eq_comm]
  · rename_i hnone
    rw [hnone]
    exact ⟨nofun, nofun⟩

/-- An unknown circuit is an error. -/
theorem failsWith_getCircuitId : FailsWith IsError (scheduler.getCircuitId req) := by
  unfold getCircuitId
  split
  · exact failsWith_of_ok rfl
  · rintro _ ⟨⟩
    exact ⟨_, rfl⟩

/-- The circuit ids of what a request splits into are registered as well. -/
theorem Registered.of_mem (h : scheduler.Registered req) (hdeps : req.dependencies = .ok deps)
    (hmem : dep ∈ deps) : scheduler.Registered dep :=
  fun node hnode => h node (.of_mem hdeps hmem hnode)

/-- A dependency is proven by a snark. -/
theorem isEvmProof_of_runWithTasks
    (h : (scheduler.localScheduler prover).runWithTasks fuel req false = .ok (proof, tasks)) :
    ∃ snark, proof = .snark snark := by
  cases fuel with
  | zero => cases h
  | succ fuel =>
      obtain ⟨-, -, request, circuitId, -, -, -, -, hproof, -⟩ :=
        LocalScheduler.runWithTasks_succ_eq_ok.mp h
      simp only [LocalScheduler.generateProof, Bool.false_eq_true, if_false] at hproof
      obtain ⟨snark, -, hsnark⟩ := bind_eq_ok.mp hproof
      exact ⟨snark, pure_eq_ok.mp hsnark⟩

/-- The prover answers a task for a snark with this error. -/
def Refuses (prover : ProverFunction Snark EvmProof) (failure : Failure) : Prop :=
  ∃ circuitId request message,
    prover.prove ⟨circuitId, false, request⟩ = .error message ∧ failure = .error message

/-- A dependency fails as its proof does. -/
theorem failsWith_runDependency {prop : Failure → Prop}
    (h : FailsWith prop ((scheduler.localScheduler prover).runWithTasks fuel dep false)) :
    FailsWith prop ((scheduler.localScheduler prover).runDependency fuel dep) := by
  refine h.bind fun result hresult => ?_
  obtain ⟨proof, tasks⟩ := result
  obtain ⟨snark, rfl⟩ := isEvmProof_of_runWithTasks hresult
  exact failsWith_of_ok rfl

/-- Nothing but an error of the prover can go wrong for a request that splits all the way down. -/
theorem failsWith_runWithTasks (h : req.Expandable) (hregistered : scheduler.Registered req)
    (hfuel : req.params.height < fuel) :
    FailsWith (Refuses prover) ((scheduler.localScheduler prover).runWithTasks fuel req false) := by
  induction fuel generalizing req with
  | zero => exact absurd hfuel (Nat.not_lt_zero _)
  | succ fuel ih =>
      obtain ⟨deps, hdeps⟩ := h.exists_ok
      rw [LocalScheduler.runWithTasks_succ, hdeps]
      refine (failsWith_of_ok rfl).bind fun deps' hdeps' => ?_
      cases hdeps'
      have hbelow (dep : RecursiveRequest) (hmem : dep ∈ deps) :
          FailsWith (Refuses prover)
            ((scheduler.localScheduler prover).runDependency fuel dep) := by
        obtain ⟨hdep, hheight⟩ := RecursiveRequest.expandable_of_mem hdeps hmem
        exact failsWith_runDependency (ih hdep (hregistered.of_mem hdeps hmem) (by omega))
      refine (FailsWith.mapM hbelow).bind fun below hbelow => ?_
      have hcount : (below.map Prod.fst).length = deps.length := by
        rw [List.length_map, length_mapM hbelow]
      obtain ⟨request, hrequest⟩ :=
        LocalServer.exists_handled (scheduler.localScheduler prover).vk h hdeps hcount
      refine (failsWith_of_ok hrequest).bind fun request _ => ?_
      obtain ⟨circuitId, hid, -⟩ := hregistered req .refl
      have hid : (scheduler.localScheduler prover).getCircuitId req = .ok circuitId :=
        getCircuitId_eq_ok.mpr hid
      refine (failsWith_of_ok hid).bind fun circuitId _ => ?_
      refine FailsWith.bind ?_ fun proof _ => failsWith_of_ok rfl
      rcases localScheduler_generateProof scheduler prover ⟨circuitId, false, request⟩
        with heq | ⟨hevm, -⟩
      · rw [heq]
        intro failure hfailure
        cases hprove : prover.prove ⟨circuitId, false, request⟩ with
        | error message =>
            rw [hprove] at hfailure
            cases hfailure
            exact ⟨circuitId, request, message, hprove, rfl⟩
        | ok proof =>
            rw [hprove] at hfailure
            cases hfailure
      · cases hevm

/-! ## What a run is like -/

/-- The nodes whose tasks are submitted, with the tasks. -/
def submissions (tr : List (SchedulerEvent Snark EvmProof)) :
    List (RecursiveRequest × ProverTask Snark) :=
  tr.filterMap fun
    | ⟨.submit node task, _⟩ => some (node, task)
    | ⟨.await _ _, _⟩ => none
    | ⟨.record _ _ _ _, _⟩ => none

/-- The nodes whose tasks are recorded. -/
def recordedNodes (tr : List (SchedulerEvent Snark EvmProof)) : List RecursiveRequest :=
  tr.filterMap fun
    | ⟨.submit _ _, _⟩ => none
    | ⟨.await _ _, _⟩ => none
    | ⟨.record _ node _ _, _⟩ => some node

/-- A dependency has succeeded with this proof. -/
def Succeeded (tr : List (SchedulerEvent Snark EvmProof)) (dep : RecursiveRequest)
    (proof : ProverProof Snark EvmProof) : Prop :=
  ∃ task taskId, .answered dep task (.ok ⟨taskId, proof⟩) ∈ tr

/-- A node is recorded for a request. -/
def IsRecorded (requestId : String) (tr : List (SchedulerEvent Snark EvmProof))
    (node : RecursiveRequest) : Prop :=
  ∃ taskId params, .recorded requestId node taskId params ∈ tr

/-- The dependencies of a node have succeeded, and its task is made of their snarks from left to
right. -/
def Submittable (scheduler : AsyncScheduler Snark EvmProof)
    (tr : List (SchedulerEvent Snark EvmProof)) (node : RecursiveRequest)
    (task : ProverTask Snark) : Prop :=
  ∃ deps snarks, node.dependencies = .ok deps ∧
    List.Forall₂ (fun dep snark => Succeeded tr dep (.snark snark)) deps snarks ∧
    handleRecursiveRequest scheduler.vk snarks node = .ok task.request

/-- A node is recorded under the request of its client, with the parameters of its circuit, after
its dependencies. -/
structure Recordable (scheduler : AsyncScheduler Snark EvmProof) (requestId : String)
    (tr : List (SchedulerEvent Snark EvmProof)) (id : String) (node : RecursiveRequest)
    (taskId : String) (params : NodeParams) : Prop where
  id_eq : id = requestId
  params_eq : ∃ circuitId, scheduler.circuitIdRepo node.params = some circuitId ∧
    scheduler.cidToParams circuitId = some params
  answered : ∃ task proof, .answered node task (.ok ⟨taskId, proof⟩) ∈ tr
  deps : ∃ deps, node.dependencies = .ok deps ∧ ∀ dep ∈ deps, IsRecorded requestId tr dep

/-- What has to have happened before an event. -/
def Guard (scheduler : AsyncScheduler Snark EvmProof) (requestId : String)
    (tr : List (SchedulerEvent Snark EvmProof)) : SchedulerEvent Snark EvmProof → Prop
  | ⟨.submit node task, _⟩ => scheduler.Submittable tr node task
  | ⟨.await node task, _⟩ => .submitted node task ∈ tr
  | ⟨.record id node taskId params, _⟩ => scheduler.Recordable requestId tr id node taskId params

/-- What has happened has happened later on. -/
theorem Guard.mono {tr tr' : List (SchedulerEvent Snark EvmProof)}
    {event : SchedulerEvent Snark EvmProof} (hsub : tr ⊆ tr')
    (h : scheduler.Guard requestId tr event) : scheduler.Guard requestId tr' event := by
  obtain ⟨effect, answer⟩ := event
  cases effect with
  | submit node task =>
      obtain ⟨deps, snarks, hdeps, hsnarks, hrequest⟩ := h
      refine ⟨deps, snarks, hdeps, hsnarks.imp fun dep snark => ?_, hrequest⟩
      rintro ⟨task, taskId, hmem⟩
      exact ⟨task, taskId, hsub hmem⟩
  | await node task => exact hsub h
  | record id node taskId params =>
      obtain ⟨hid, hparams, ⟨task, proof, hanswered⟩, deps, hdeps, hrecorded⟩ := h
      refine ⟨hid, hparams, ⟨task, proof, hsub hanswered⟩, deps, hdeps, fun dep hmem => ?_⟩
      obtain ⟨taskId, params, hdep⟩ := hrecorded dep hmem
      exact ⟨taskId, params, hsub hdep⟩

/-- A run ends as the sequential scheduler does, with the same tasks. -/
def EndsAlike (scheduler : AsyncScheduler Snark EvmProof) (prover : ProverFunction Snark EvmProof)
    (fuel : ℕ) (req : RecursiveRequest) (isEvmProof : Bool)
    (tr : List (SchedulerEvent Snark EvmProof)) :
    Except String (ProverProof Snark EvmProof) → Prop
  | .ok proof => ∃ tasks, (scheduler.localScheduler prover).runWithTasks fuel req isEvmProof =
      .ok (proof, tasks) ∧ (submissions tr).Perm tasks
  | .error message => (scheduler.localScheduler prover).runWithTasks fuel req isEvmProof =
      .error (.error message)

/-- Runs end alike, or the sequential scheduler has panicked because a proof for the chain is asked
of the circuit of a leaf or a join. -/
def Agrees (scheduler : AsyncScheduler Snark EvmProof) (prover : ProverFunction Snark EvmProof)
    (fuel : ℕ) (req : RecursiveRequest) (isEvmProof : Bool)
    (tr : List (SchedulerEvent Snark EvmProof))
    (result : Except String (ProverProof Snark EvmProof)) : Prop :=
  isEvmProof = true ∧ ¬ req.Wraps ∧ req.Builds ∧
      (scheduler.localScheduler prover).runWithTasks fuel req isEvmProof = .error .panicked ∨
    scheduler.EndsAlike prover fuel req isEvmProof tr result

/-- A node is proven: its task is answered and recorded, and the nodes of its tree are recorded once
each. -/
structure Completed (requestId : String) (fuel : ℕ) (node : RecursiveRequest)
    (tr : List (SchedulerEvent Snark EvmProof)) (proof : ProverProof Snark EvmProof) : Prop where
  succeeded : Succeeded tr node proof
  isRecorded : IsRecorded requestId tr node
  nodes : ∃ nodes, node.expand fuel = .ok nodes ∧ (recordedNodes tr).Perm nodes

/-- What the recursion promises for a request. -/
def nodeSpec (scheduler : AsyncScheduler Snark EvmProof) (requestId : String) (fuel : ℕ)
    (req : RecursiveRequest) (isEvmProof : Bool) :
    Spec (SchedulerEffect Snark) (SchedulerEffect.Answer EvmProof)
      (Except String (ProverProof Snark EvmProof)) where
  always := Guarded (scheduler.Guard requestId)
  returns tr result :=
    (∀ prover, scheduler.executor.Follows prover →
      scheduler.Agrees prover fuel req isEvmProof tr result) ∧
    ∀ proof, result = .ok proof → Completed requestId fuel req tr proof
  crashes _ := ∀ prover, scheduler.executor.Follows prover → scheduler.Registered req →
    req.params.height < fuel → ¬ req.Builds ∧
      (scheduler.localScheduler prover).runWithTasks fuel req isEvmProof = .error .panicked

variable {tr : List (SchedulerEvent Snark EvmProof)}
  {outcomes : List (List (SchedulerEvent Snark EvmProof) ×
    Except String (ProverProof Snark EvmProof))}

/-- The result of a dependency is the one of the sequential scheduler. -/
theorem Agrees.intoSnark_eq {result : Except String (ProverProof Snark EvmProof)}
    (h : scheduler.Agrees prover fuel dep false tr result) :
    (result.mapError .error >>= LocalScheduler.intoSnark) =
      Except.map Prod.fst ((scheduler.localScheduler prover).runDependency fuel dep) := by
  obtain ⟨hevm, -⟩ | h := h
  · cases hevm
  · rw [LocalScheduler.runDependency]
    cases result with
    | error message =>
        rw [h]
        rfl
    | ok proof =>
        obtain ⟨tasks, hrun, -⟩ := h
        rw [hrun]
        cases proof <;> rfl

/-- The results of the dependencies are collected as the sequential scheduler does, up to the first
error from the left. -/
theorem collectSnarks_eq (h : List.Forall₂ (fun dep outcome =>
      scheduler.Agrees prover fuel dep false outcome.1 outcome.2) deps outcomes) :
    collectSnarks (outcomes.map Prod.snd) =
      Except.map (List.map Prod.fst)
        (deps.mapM ((scheduler.localScheduler prover).runDependency fuel)) := by
  induction h with
  | nil => rfl
  | @cons dep outcome deps outcomes hdep htail ih =>
      rw [collectSnarks] at ih
      rw [collectSnarks, List.map_cons, List.mapM_cons, List.mapM_cons, hdep.intoSnark_eq, ih]
      cases (scheduler.localScheduler prover).runDependency fuel dep with
      | error failure => rfl
      | ok result => cases deps.mapM ((scheduler.localScheduler prover).runDependency fuel) <;> rfl

@[simp] theorem submissions_append (tr tr' : List (SchedulerEvent Snark EvmProof)) :
    submissions (tr ++ tr') = submissions tr ++ submissions tr' :=
  List.filterMap_append

@[simp] theorem recordedNodes_append (tr tr' : List (SchedulerEvent Snark EvmProof)) :
    recordedNodes (tr ++ tr') = recordedNodes tr ++ recordedNodes tr' :=
  List.filterMap_append

/-- The tasks of the dependencies are those of the sequential scheduler. -/
theorem submissions_perm (h : List.Forall₂ (fun dep outcome =>
      scheduler.Agrees prover fuel dep false outcome.1 outcome.2) deps outcomes)
    {below : List (Snark × List (RecursiveRequest × ProverTask Snark))}
    (hbelow : deps.mapM ((scheduler.localScheduler prover).runDependency fuel) = .ok below) :
    (submissions (outcomes.map Prod.fst).flatten).Perm (below.map Prod.snd).flatten := by
  replace hbelow := mapM_eq_ok_iff.mp hbelow
  induction h generalizing below with
  | nil =>
      cases hbelow
      exact .refl _
  | @cons dep outcome deps outcomes hdep htail ih =>
      cases hbelow with
      | @cons _ result _ below hresult hbelow =>
          obtain ⟨own, result⟩ := outcome
          rw [List.map_cons, List.flatten_cons, submissions_append, List.map_cons,
            List.flatten_cons]
          refine List.Perm.append ?_ (ih hbelow)
          have hrun := LocalScheduler.runDependency_eq_ok.mp hresult
          obtain ⟨hevm, -⟩ | hdep := hdep
          · cases hevm
          · cases result with
            | error message => cases hrun.symm.trans hdep
            | ok proof =>
                obtain ⟨tasks, heq, hperm⟩ := hdep
                cases hrun.symm.trans heq
                exact hperm

/-- The dependencies whose snarks are collected have completed, and what they have recorded are the
nodes of their trees. -/
theorem completed_of_collectSnarks (h : List.Forall₂ (fun dep outcome =>
      ∀ proof, outcome.2 = .ok proof → Completed requestId fuel dep outcome.1 proof) deps outcomes)
    {snarks : List Snark} (hsnarks : collectSnarks (outcomes.map Prod.snd) = .ok snarks) :
    List.Forall₂ (fun dep snark => ∃ outcome ∈ outcomes,
        Completed requestId fuel dep outcome.1 (.snark snark)) deps snarks ∧
      ∃ below, deps.mapM (RecursiveRequest.expand fuel) = .ok below ∧
        (recordedNodes (outcomes.map Prod.fst).flatten).Perm below.flatten := by
  replace hsnarks := mapM_eq_ok_iff.mp hsnarks
  induction h generalizing snarks with
  | nil =>
      cases hsnarks
      exact ⟨.nil, [], rfl, .refl _⟩
  | @cons dep outcome deps outcomes hdep htail ih =>
      cases hsnarks with
      | @cons _ snark _ snarks hsnark hsnarks =>
          obtain ⟨own, result⟩ := outcome
          obtain ⟨hcompleted, below, hbelow, hperm⟩ := ih hsnarks
          have hown : Completed requestId fuel dep own (.snark snark) := by
            refine hdep _ ?_
            cases result with
            | error message => cases hsnark
            | ok proof =>
                cases proof with
                | snark snark' =>
                    cases hsnark
                    rfl
                | evmProof proof => cases hsnark
          obtain ⟨nodes, hnodes, hownPerm⟩ := hown.nodes
          refine ⟨.cons ⟨_, List.mem_cons_self, hown⟩ ?_, nodes :: below, ?_, ?_⟩
          · refine hcompleted.imp fun dep snark => ?_
            rintro ⟨outcome, hmem, hdep⟩
            exact ⟨outcome, List.mem_cons_of_mem _ hmem, hdep⟩
          · exact mapM_eq_ok_iff.mpr (.cons hnodes (mapM_eq_ok_iff.mp hbelow))
          · rw [List.map_cons, List.flatten_cons, recordedNodes_append, List.flatten_cons]
            exact hownPerm.append hperm

end AsyncScheduler

end WorldcoinAggregation
