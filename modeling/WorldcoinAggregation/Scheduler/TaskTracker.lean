import WorldcoinAggregation.Scheduler.AsyncRefinement

/-!
# The task tracker

The scheduler server proves the requests of its clients concurrently, and every finished task is
recorded under the id of its request. Whatever the executor answers, `requestIdToTasks_complete`
says what the tracker holds at any time and, once a request has succeeded, that it has one entry for
each node of its tree, after the entries of the dependencies of the node.
-/

namespace WorldcoinAggregation

open Fallible Async AsyncScheduler

variable {Snark EvmProof ι : Type} [DecidableEq ι]

/-- The finished tasks of every request, each with its id and the parameters of its node. -/
structure SchedulerTaskTracker where
  requestIdToTasks : String → Option (List (String × NodeParams))

namespace SchedulerTaskTracker

/-- A tracker without entries. -/
def new : SchedulerTaskTracker :=
  ⟨fun _ => none⟩

/-- The entries of a request. -/
def tasks (tracker : SchedulerTaskTracker) (requestId : String) : List (String × NodeParams) :=
  (tracker.requestIdToTasks requestId).getD []

/-- Adds an entry to a request. -/
def recordTask (tracker : SchedulerTaskTracker) (requestId taskId : String) (params : NodeParams) :
    SchedulerTaskTracker :=
  ⟨Function.update tracker.requestIdToTasks requestId
    (some (tracker.tasks requestId ++ [(taskId, params)]))⟩

/-- What an event does to the tracker. -/
def apply (tracker : SchedulerTaskTracker) :
    SchedulerEvent Snark EvmProof → SchedulerTaskTracker
  | ⟨.submit _ _, _⟩ => tracker
  | ⟨.await _ _, _⟩ => tracker
  | ⟨.record requestId _ taskId params, _⟩ => tracker.recordTask requestId taskId params

end SchedulerTaskTracker

/-- A request of a client of the scheduler server. -/
structure SchedulerClient where
  requestId : String
  req : RecursiveRequest
  isEvmProof : Bool

namespace AsyncScheduler

variable (scheduler : AsyncScheduler Snark EvmProof)

/-- What the server runs for a client, with fuel for every generation of nodes. -/
def handler (client : SchedulerClient) : SchedulerProg Snark EvmProof :=
  scheduler.recursiveGenProof client.requestId (client.req.params.height + 1) client.req
    client.isEvmProof

/-- The states that the server reaches while its handlers take turns. -/
inductive Serves (clients : ι → SchedulerClient) :
    (ι → SchedulerProg Snark EvmProof) → SchedulerTaskTracker → Prop where
  | init : Serves clients (fun i => scheduler.handler (clients i)) .new
  | step {handlers : ι → SchedulerProg Snark EvmProof} {tracker : SchedulerTaskTracker} {i : ι}
      {evs : List (SchedulerEvent Snark EvmProof)} {p : SchedulerProg Snark EvmProof}
      (h : Serves clients handlers tracker) (hstep : Step scheduler.Answers (handlers i) evs p) :
      Serves clients (Function.update handlers i p) (evs.foldl .apply tracker)

end AsyncScheduler

/-! ## Entries -/

/-- The entry that an event adds to a request. -/
def entryOf (requestId : String) : SchedulerEvent Snark EvmProof → Option (String × NodeParams)
  | ⟨.submit _ _, _⟩ => none
  | ⟨.await _ _, _⟩ => none
  | ⟨.record id _ taskId params, _⟩ => if id = requestId then some (taskId, params) else none

/-- The entries that a run adds, whatever their request. -/
def entries (tr : List (SchedulerEvent Snark EvmProof)) : List (String × NodeParams) :=
  tr.filterMap fun
    | ⟨.submit _ _, _⟩ => none
    | ⟨.await _ _, _⟩ => none
    | ⟨.record _ _ taskId params, _⟩ => some (taskId, params)

variable {scheduler : AsyncScheduler Snark EvmProof} {clients : ι → SchedulerClient}
  {handlers : ι → SchedulerProg Snark EvmProof} {tracker : SchedulerTaskTracker}
  {tr : List (SchedulerEvent Snark EvmProof)} {requestId : String}

namespace SchedulerTaskTracker

/-- An event adds its entry. -/
theorem tasks_apply (event : SchedulerEvent Snark EvmProof) :
    (tracker.apply event).tasks requestId =
      tracker.tasks requestId ++ (entryOf requestId event).toList := by
  obtain ⟨effect, answer⟩ := event
  cases effect with
  | submit node task => exact (List.append_nil _).symm
  | await node task => exact (List.append_nil _).symm
  | record id node taskId params =>
      by_cases hid : id = requestId
      · subst hid
        simp [apply, recordTask, tasks, entryOf]
      · simp [apply, recordTask, tasks, entryOf, hid, Ne.symm hid]

/-- Events add their entries in order. -/
theorem tasks_foldl : (tr.foldl apply tracker).tasks requestId =
    tracker.tasks requestId ++ tr.filterMap (entryOf requestId) := by
  induction tr generalizing tracker with
  | nil => exact (List.append_nil _).symm
  | cons event tr ih =>
      rw [List.foldl_cons, ih, tasks_apply, List.append_assoc, List.filterMap_cons]
      cases entryOf requestId event <;> rfl

end SchedulerTaskTracker

namespace AsyncScheduler

/-- The tracker holds what the handlers have recorded. -/
theorem Serves.exists_runAll (h : scheduler.Serves clients handlers tracker) :
    ∃ tr, RunAll scheduler.Answers (fun i => scheduler.handler (clients i)) tr handlers ∧
      tracker = tr.foldl .apply .new := by
  induction h with
  | init => exact ⟨[], .refl, rfl⟩
  | step _ hstep ih =>
      obtain ⟨tr, hrun, rfl⟩ := ih
      exact ⟨_, hrun.step hstep, (List.foldl_append).symm⟩

/-- The circuit ids of the scheduler belong to one node each. -/
def HasCircuitIds (scheduler : AsyncScheduler Snark EvmProof) : Prop :=
  ∀ params circuitId, scheduler.circuitIdRepo params = some circuitId →
    scheduler.cidToParams circuitId = some params

/-- What is recorded in a run has been recordable before. -/
theorem exists_recordable {id taskId : String} {node : RecursiveRequest} {params : NodeParams}
    (hguard : Guarded (scheduler.Guard requestId) tr)
    (hmem : SchedulerEvent.recorded id node taskId params ∈ tr) :
    ∃ before, scheduler.Recordable requestId before id node taskId params := by
  obtain ⟨before, after, rfl⟩ := List.append_of_mem hmem
  exact ⟨before, hguard before _ after rfl⟩

/-- A run records entries for its own request only. -/
theorem filterMap_entryOf (hguard : Guarded (scheduler.Guard requestId) tr) :
    tr.filterMap (entryOf requestId) = entries tr := by
  refine List.filterMap_congr fun event hmem => ?_
  obtain ⟨effect, answer⟩ := event
  cases effect with
  | submit node task => rfl
  | await node task => rfl
  | record id node taskId params =>
      obtain ⟨before, hrecord⟩ := exists_recordable hguard hmem
      exact if_pos hrecord.id_eq

/-- A run records no entries for other requests. -/
theorem entryOf_eq_none {id : String} (hguard : Guarded (scheduler.Guard requestId) tr)
    (hne : requestId ≠ id) {event : SchedulerEvent Snark EvmProof} (hmem : event ∈ tr) :
    entryOf id event = none := by
  obtain ⟨effect, answer⟩ := event
  cases effect with
  | submit node task => rfl
  | await node task => rfl
  | record id' node taskId params =>
      obtain ⟨before, hrecord⟩ := exists_recordable hguard hmem
      exact if_neg (hrecord.id_eq ▸ hne)

/-- Of interleaved runs, the tracker holds for each request what its own run has recorded. -/
theorem tasks_eq_of_interleaves (hdistinct : Function.Injective fun i => (clients i).requestId)
    {trs : ι → List (SchedulerEvent Snark EvmProof)}
    (hguard : ∀ i, Guarded (scheduler.Guard (clients i).requestId) (trs i))
    (htrs : Interleaves trs tr) (i : ι) :
    (tr.foldl SchedulerTaskTracker.apply .new).tasks (clients i).requestId = entries (trs i) := by
  have htasks : (tr.foldl SchedulerTaskTracker.apply .new).tasks (clients i).requestId =
      tr.filterMap (entryOf (clients i).requestId) := SchedulerTaskTracker.tasks_foldl
  rw [htasks, ← filterMap_entryOf (hguard i)]
  refine htrs.filterMap_eq _ i fun j hj event hmem => entryOf_eq_none (hguard j) ?_ hmem
  exact fun heq => hj (hdistinct heq)

/-- The entries of a run carry the parameters of their nodes. -/
theorem map_snd_entries (hids : scheduler.HasCircuitIds)
    (hguard : Guarded (scheduler.Guard requestId) tr) :
    (entries tr).map Prod.snd = (recordedNodes tr).map RecursiveRequest.params := by
  rw [entries, recordedNodes, List.map_filterMap, List.map_filterMap]
  refine List.filterMap_congr fun event hmem => ?_
  obtain ⟨effect, answer⟩ := event
  cases effect with
  | submit node task => rfl
  | await node task => rfl
  | record id node taskId params =>
      obtain ⟨before, hrecord⟩ := exists_recordable hguard hmem
      obtain ⟨circuitId, hid, hparams⟩ := hrecord.params_eq
      exact congrArg some (Option.some.inj (hparams.symm.trans (hids _ _ hid)))

/-- A node is recorded after its dependencies. -/
theorem dependencies_recorded (hguard : Guarded (scheduler.Guard requestId) tr)
    {before after : List RecursiveRequest} {node : RecursiveRequest}
    (h : recordedNodes tr = before ++ node :: after) :
    ∃ deps, node.dependencies = .ok deps ∧ ∀ dep ∈ deps, dep ∈ before := by
  obtain ⟨front, back, rfl, hfront, hback⟩ := List.filterMap_eq_append_iff.mp h
  obtain ⟨skipped, event, rest, rfl, hskipped, hevent, -⟩ := List.filterMap_eq_cons_iff.mp hback
  obtain ⟨effect, answer⟩ := event
  cases effect with
  | submit node task => cases hevent
  | await node task => cases hevent
  | record id node taskId params =>
      cases hevent
      have hrecord : scheduler.Recordable requestId (front ++ skipped) id node taskId params :=
        hguard (front ++ skipped) ⟨.record id node taskId params, answer⟩ rest (by simp)
      obtain ⟨deps, hdeps, hrecorded⟩ := hrecord.deps
      refine ⟨deps, hdeps, fun dep hmem => ?_⟩
      obtain ⟨taskId, params, hdep⟩ := hrecorded dep hmem
      have hnode : dep ∈ recordedNodes (front ++ skipped) :=
        List.mem_filterMap.mpr ⟨_, hdep, rfl⟩
      rw [recordedNodes_append] at hnode
      have hnone : recordedNodes skipped = [] := List.filterMap_eq_nil_iff.mpr hskipped
      rwa [hnone, List.append_nil, recordedNodes, hfront] at hnode

/-- The task of a node that has succeeded was submitted after its dependencies. -/
theorem exists_submittable {node : RecursiveRequest} {proof : ProverProof Snark EvmProof}
    (hguard : Guarded (scheduler.Guard requestId) tr) (h : Succeeded tr node proof) :
    ∃ before task, scheduler.Submittable before node task := by
  obtain ⟨task, taskId, hmem⟩ := h
  obtain ⟨before, after, rfl⟩ := List.append_of_mem hmem
  have hsubmitted : SchedulerEvent.submitted node task ∈ before := hguard before _ after rfl
  obtain ⟨front, back, rfl⟩ := List.append_of_mem hsubmitted
  exact ⟨front, task, hguard front (.submitted node task) _ (List.append_assoc _ _ _)⟩

/-- A wrapper whose task is submitted has claims. -/
theorem Submittable.start_lt {node : RecursiveRequest} {task : ProverTask Snark}
    (h : scheduler.Submittable tr node task) (hwraps : node.Wraps) : node.start < node.end_ := by
  obtain ⟨deps, snarks, hdeps, hsnarks, hrequest⟩ := h
  have hnonempty : deps ≠ [] := by
    rintro rfl
    obtain rfl := List.forall₂_nil_left_iff.mp hsnarks
    simp only [handleRecursiveRequest, if_neg hwraps.1] at hrequest
    cases hrequest
  obtain ⟨dep, hmem⟩ := List.exists_mem_of_ne_nil deps hnonempty
  have hdep := (RecursiveRequest.expandable_of_mem hdeps hmem).1.wellFormed.start_lt
  obtain ⟨hstart, hend, -⟩ := (RecursiveRequest.Reaches.dep .refl hdeps hmem).bounds
  omega

/-- What a run has recorded of a request for a wrapped root: every node of its tree once, after the
dependencies of the node, with an entry that has its parameters. There is one entry for each
wrapper, one for the root, on each level below as many as the claims need, and nothing else. -/
structure IsComplete (req : RecursiveRequest) (round depth initialDepth : ℕ)
    (tr : List (SchedulerEvent Snark EvmProof)) : Prop where
  nodes : ∃ tree, req.expand (req.params.height + 1) = .ok tree ∧ (recordedNodes tr).Perm tree
  nodup : (recordedNodes tr).Nodup
  params_eq : (entries tr).map Prod.snd = (recordedNodes tr).map RecursiveRequest.params
  ordered : ∀ before node after, recordedNodes tr = before ++ node :: after →
    ∃ deps, node.dependencies = .ok deps ∧ ∀ dep ∈ deps, dep ∈ before
  wrappers : ∀ j ≤ round, ((entries tr).map Prod.snd).count ⟨.evm j, depth, initialDepth⟩ = 1
  root : ((entries tr).map Prod.snd).count ⟨.root, depth, initialDepth⟩ = 1
  levels : ∀ k, initialDepth ≤ k → k < depth →
    ((entries tr).map Prod.snd).count (.below k initialDepth) =
      (req.end_ - req.start + 2 ^ k - 1) / 2 ^ k
  params : ∀ task ∈ entries tr, (∃ j ≤ round, task.2 = ⟨.evm j, depth, initialDepth⟩) ∨
    task.2 = ⟨.root, depth, initialDepth⟩ ∨
    ∃ k, initialDepth ≤ k ∧ k < depth ∧ task.2 = .below k initialDepth

/-- The entries of a handler that has succeeded are complete. -/
theorem isComplete_entries {client : SchedulerClient} {proof : ProverProof Snark EvmProof}
    {round depth initialDepth : ℕ} (hids : scheduler.HasCircuitIds)
    (hrun : Run scheduler.Answers (scheduler.handler client) tr (.ret (.ok proof)))
    (hparams : client.req.params = ⟨.evm round, depth, initialDepth⟩)
    (hdepth : initialDepth < depth) :
    IsComplete client.req round depth initialDepth tr := by
  have hwraps : client.req.Wraps := by
    rw [RecursiveRequest.Wraps, hparams]
    exact ⟨hdepth.ne', round, rfl⟩
  obtain ⟨hguard, hreturns, -⟩ := meets_recursiveGenProof _ _ _ _ _ _ _ hrun
  obtain ⟨hsucceeded, -, tree, htree, hperm⟩ := (hreturns _ rfl).2 proof rfl
  obtain ⟨before, task, hsubmittable⟩ := exists_submittable hguard hsucceeded
  have hlt := hsubmittable.start_lt hwraps
  have hentries := map_snd_entries hids hguard
  have hnodup := List.Nodup.of_map _ (RecursiveRequest.nodup_of_expand htree)
  have hcount (p : NodeParams) :
      ((entries tr).map Prod.snd).count p = (tree.map RecursiveRequest.params).count p := by
    rw [hentries]
    exact (hperm.map _).count_eq p
  obtain ⟨hwrappers, hroot, hlevels⟩ :=
    RecursiveRequest.levels_of_expand hdepth hlt hparams htree
  refine ⟨⟨tree, htree, hperm⟩, hperm.nodup_iff.mpr hnodup, hentries,
    fun before node after => dependencies_recorded hguard, fun j hj => ?_, ?_, fun k hk hkd => ?_,
    fun task htask => ?_⟩
  · rw [hcount, hwrappers j hj]
  · rw [hcount, hroot]
  · rw [hcount, hlevels k hk hkd]
    rfl
  · have hmem : task.2 ∈ (entries tr).map Prod.snd := List.mem_map_of_mem htask
    rw [hentries] at hmem
    obtain ⟨node, hnode, heq⟩ := List.mem_map.mp hmem
    rw [← heq]
    exact RecursiveRequest.params_of_mem_expand hdepth hparams htree (hperm.mem_iff.mp hnode)

/-- The tracker holds, at any time, the entries that the handler of each request has recorded in its
own run, and no others. Once a request for a wrapped root has succeeded, they are complete. -/
theorem requestIdToTasks_complete (hids : scheduler.HasCircuitIds)
    (hdistinct : Function.Injective fun i => (clients i).requestId)
    (h : scheduler.Serves clients handlers tracker) :
    (∀ id, (∀ i, (clients i).requestId ≠ id) → tracker.tasks id = []) ∧
    ∀ i, ∃ tr, Run scheduler.Answers (scheduler.handler (clients i)) tr (handlers i) ∧
      tracker.tasks (clients i).requestId = entries tr ∧
      ∀ proof round depth initialDepth, handlers i = .ret (.ok proof) →
        (clients i).req.params = ⟨.evm round, depth, initialDepth⟩ → initialDepth < depth →
        IsComplete (clients i).req round depth initialDepth tr := by
  obtain ⟨tr, hrunAll, rfl⟩ := h.exists_runAll
  obtain ⟨trs, hruns, htrs⟩ := hrunAll.exists_runs
  have hguard (i : ι) : Guarded (scheduler.Guard (clients i).requestId) (trs i) :=
    (meets_recursiveGenProof _ _ _ _ _ _ _ (hruns i)).1
  refine ⟨fun id hid => ?_,
    fun i => ⟨trs i, hruns i, tasks_eq_of_interleaves hdistinct hguard htrs i, ?_⟩⟩
  · have htasks : (tr.foldl SchedulerTaskTracker.apply .new).tasks id =
        tr.filterMap (entryOf id) := SchedulerTaskTracker.tasks_foldl
    rw [htasks, List.filterMap_eq_nil_iff]
    intro event hmem
    obtain ⟨i, hmem⟩ := htrs.exists_mem hmem
    exact entryOf_eq_none (hguard i) (hid i) hmem
  · intro proof round depth initialDepth hret hparams hdepth
    exact isComplete_entries hids (hret ▸ hruns i) hparams hdepth

/-! ## Circuit ids -/

/-- An entry that a list of updates leaves is one of the updates. -/
theorem exists_of_foldl_update {α β γ : Type} [DecidableEq α] {key : γ → α} {value : γ → β} {a : α}
    {b : β} (entries : List γ) (init : α → Option β)
    (h : entries.foldl (fun map entry => Function.update map (key entry) (some (value entry)))
      init a = some b) : init a = some b ∨ ∃ entry ∈ entries, key entry = a ∧ value entry = b := by
  induction entries generalizing init with
  | nil => exact .inl h
  | cons entry entries ih =>
      rw [List.foldl_cons] at h
      rcases ih _ h with hinit | ⟨entry', hmem, heq⟩
      · by_cases ha : key entry = a
        · subst ha
          rw [Function.update_self] at hinit
          exact .inr ⟨entry, by simp, rfl, Option.some.inj hinit⟩
        · rw [Function.update_of_ne (Ne.symm ha)] at hinit
          exact .inl hinit
      · exact .inr ⟨entry', List.mem_cons_of_mem _ hmem, heq⟩

/-- Updates leave other arguments alone. -/
theorem foldl_update_of_ne {α β γ : Type} [DecidableEq α] {key : γ → α} {value : γ → β} {a : α}
    (entries : List γ) (init : α → Option β) (h : ∀ entry ∈ entries, key entry ≠ a) :
    entries.foldl (fun map entry => Function.update map (key entry) (some (value entry))) init a =
      init a := by
  induction entries generalizing init with
  | nil => rfl
  | cons entry entries ih =>
      rw [List.foldl_cons, ih _ fun entry' hmem => h entry' (List.mem_cons_of_mem _ hmem),
        Function.update_of_ne (h entry (by simp)).symm]

/-- The maps that the server makes of the circuit ids of keygen belong together if no two circuits
have the same id. -/
theorem hasCircuitIds_of_cids {cids : List (NodeParams × String)}
    (hrepo : scheduler.circuitIdRepo = SchedulerServer.cidsRepo cids)
    (hparams : scheduler.cidToParams = SchedulerServer.cidToParams cids)
    (hnodup : (cids.map Prod.snd).Nodup) : scheduler.HasCircuitIds := by
  intro params circuitId hid
  rw [hrepo] at hid
  rcases exists_of_foldl_update cids _ hid with hinit | ⟨⟨_, _⟩, hmem, rfl, rfl⟩
  · cases hinit
  obtain ⟨front, back, rfl⟩ := List.append_of_mem hmem
  rw [List.map_append, List.map_cons, List.nodup_middle, List.nodup_cons, List.mem_append,
    not_or] at hnodup
  rw [hparams, SchedulerServer.cidToParams, List.foldl_append, List.foldl_cons,
    foldl_update_of_ne back _ fun entry hentry heq =>
      hnodup.1.2 (List.mem_map.mpr ⟨entry, hentry, heq⟩)]
  exact Function.update_self _ _ _

/-! ## Three claims -/

/-- A handler that goes on while the others wait. -/
theorem Serves.run {i : ι} {q : SchedulerProg Snark EvmProof}
    (h : scheduler.Serves clients handlers tracker)
    (hrun : Run scheduler.Answers (handlers i) tr q) :
    scheduler.Serves clients (Function.update handlers i q) (tr.foldl .apply tracker) := by
  induction hrun with
  | refl =>
      rw [Function.update_eq_self]
      exact h
  | @step tr evs q q' _ hstep ih =>
      rw [List.foldl_append, ← Function.update_idem (a := i) (v := q)]
      refine ih.step ?_
      rwa [Function.update_self]

/-- The circuits of a wrapped root of depth 2 with leaves for single claims. -/
def pairCids : List (NodeParams × String) :=
  [(⟨.leaf, 0, 0⟩, "leaf"), (⟨.intermediate, 1, 0⟩, "intermediate"), (⟨.root, 2, 0⟩, "root"),
    (⟨.evm 0, 2, 0⟩, "evm")]

/-- The id that the task of a node is given: its circuit and where its claims start. -/
def pairTaskId (circuitId : String) (request : RequestRouter (List ℕ)) : String :=
  s!"{circuitId} {request.start}"

/-- A scheduler with these circuits, whose executor proves every task. -/
def pairScheduler : AsyncScheduler (List ℕ) (List ℕ) where
  executor := ⟨fun task result =>
    result = (startsProver.prove task).map (.mk (pairTaskId task.circuitId task.request))⟩
  circuitIdRepo := SchedulerServer.cidsRepo pairCids
  cidToParams := SchedulerServer.cidToParams pairCids
  vk := soleVk

/-- Its executor is deterministic. -/
theorem follows_pairScheduler : pairScheduler.executor.Follows startsProver where
  answers task := ⟨_, rfl⟩
  proof_eq task result hresult := by
    obtain rfl : result = _ := hresult
    cases startsProver.prove task <;> rfl

/-- Two clients that send the same three claims. -/
def pairClient (first : Bool) : SchedulerClient where
  requestId := if first then "first" else "second"
  req := soleRequest 3 ⟨.evm 0, 2, 0⟩
  isEvmProof := true

/-- All circuits of the tree are registered. -/
theorem registered_pair : pairScheduler.Registered (soleRequest 3 ⟨.evm 0, 2, 0⟩) := by
  intro node hnode
  rcases NodeParams.keygenChain_cases (by decide) hnode.keygenChain with
    ⟨j, hj, heq⟩ | heq | ⟨k, -, hk, heq⟩
  · obtain rfl := Nat.le_zero.mp hj
    rw [heq]
    exact ⟨"evm", by decide, by decide⟩
  · rw [heq]
    exact ⟨"root", by decide, by decide⟩
  · rw [heq]
    match k, hk with
    | 0, _ => exact ⟨"leaf", by decide, by decide⟩
    | 1, _ => exact ⟨"intermediate", by decide, by decide⟩

/-- The handler of a client succeeds when it is run alone. On the way it awaits the answer to the
task of the wrapper. -/
theorem exists_pairRun (first : Bool) : ∃ front back q task,
    Run pairScheduler.Answers (pairScheduler.handler (pairClient first)) front q ∧
      q.Awaits (.await (soleRequest 3 ⟨.evm 0, 2, 0⟩) task) ∧
      Run pairScheduler.Answers q back (.ret (.ok (.evmProof [0, 1, 2, 2]))) := by
  have hequals : pairScheduler.EqualsLocal startsProver (pairClient first).requestId 4
      (soleRequest 3 ⟨.evm 0, 2, 0⟩) true :=
    equalsLocal follows_pairScheduler _ (Nat.lt_succ_self _) registered_pair
      fun _ => .inl ⟨by decide, 0, rfl⟩
  obtain ⟨tr, q, hrun, hfinal⟩ := exists_run_final (exists_answer follows_pairScheduler)
    (pairScheduler.handler (pairClient first))
  have houtcome : outcome q = .ok (.evmProof [0, 1, 2, 2]) := hequals.outcome_eq tr q hrun hfinal
  rcases hfinal with rfl | ⟨result, rfl⟩
  · cases houtcome
  · obtain ⟨-, hreturns, -⟩ := meets_recursiveGenProof _ _ _ _ _ _ _ hrun
    cases result with
    | error message => cases houtcome
    | ok proof =>
        cases houtcome
        obtain ⟨⟨task, taskId, hmem⟩, -⟩ := (hreturns _ rfl).2 _ rfl
        obtain ⟨front, back, q, -, hfront, hback, hawaits⟩ := hrun.exists_awaits hmem
        exact ⟨front, back, q, task, hfront, hawaits, hback⟩

/-- Once the request of the first client has succeeded, while the other awaits the answer to its
last task, it has its entries. -/
theorem requestIdToTasks_complete_pair :
    pairScheduler.HasCircuitIds ∧ (Function.Injective fun first => (pairClient first).requestId) ∧
    ∃ handlers tracker task, pairScheduler.Serves pairClient handlers tracker ∧
      handlers true = .ret (.ok (.evmProof [0, 1, 2, 2])) ∧
      (handlers false).Awaits (.await (soleRequest 3 ⟨.evm 0, 2, 0⟩) task) ∧
      ∃ tr, Run pairScheduler.Answers (pairScheduler.handler (pairClient true)) tr
          (handlers true) ∧
        tracker.tasks "first" = entries tr ∧
        IsComplete (soleRequest 3 ⟨.evm 0, 2, 0⟩) 0 2 0 tr := by
  have hrepo : pairScheduler.circuitIdRepo = SchedulerServer.cidsRepo pairCids := rfl
  have hids : pairScheduler.HasCircuitIds := hasCircuitIds_of_cids hrepo rfl (by decide)
  have hdistinct : Function.Injective fun first => (pairClient first).requestId := by decide
  obtain ⟨front, back, q, -, hfront, -, hback⟩ := exists_pairRun true
  obtain ⟨front', -, q', task, hfront', hawaits, -⟩ := exists_pairRun false
  -- the second client goes on while the first one waits
  have hboth := (Serves.run .init hfront).run (i := false) hfront'
  have hserves := hboth.run (i := true) hback
  obtain ⟨-, hrequests⟩ := requestIdToTasks_complete hids hdistinct hserves
  obtain ⟨tr, hrun, htasks, hcomplete⟩ := hrequests true
  exact ⟨hids, hdistinct, _, _, task, hserves, Function.update_self _ _ _, hawaits, tr, hrun,
    htasks, hcomplete _ 0 2 0 (Function.update_self _ _ _) rfl (by decide)⟩

end AsyncScheduler

end WorldcoinAggregation
