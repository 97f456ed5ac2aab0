import WorldcoinAggregation.Scheduler.Summaries

/-!
# Where proofs come from

The dispatcher may respond in any way. Still, a proof that the scheduler server submits for a client
comes from a tree of tasks that it has exchanged with the dispatcher for this client: every task was
created for the circuit of its node and with the snarks of its dependencies, after these had been
retrieved, was reported done, and its proof was retrieved under its own id (`submitted_vouched`).
-/

namespace WorldcoinAggregation

open Fallible Async

variable {Snark EvmProof Params : Type} {system : SchedulerSystem Snark EvmProof Params} {count : ℕ}
  {clients : Fin count → SchedulerClient} {logs : Fin count → system.Log} {w : system.State count}

namespace SchedulerSystem

/-- What a client has done vouches for a proof of a node under the id of a task. First it vouched
for proofs of the dependencies under their ids. Then the dispatcher was asked to create the task for
the circuit of the node and these snarks and responded with the id, it was polled until it reported
the task done, and it handed out the proof. -/
inductive Vouched (system : SchedulerSystem Snark EvmProof Params) :
    system.Log → String → RecursiveRequest → ProverProof Snark EvmProof → Prop where
  | node {log before after : system.Log} {node : RecursiveRequest}
      {below : List (RecursiveRequest × Snark × String)} {task : ProverTask Snark}
      {taskId : String} {proof : ProverProof Snark EvmProof}
      (hlog : log = before ++ after) (hdeps : node.dependencies = .ok (below.map Prod.fst))
      (hbelow : ∀ child ∈ below, Vouched system before child.2.2 child.1 (.snark child.2.1))
      (hrequest : handleRecursiveRequest system.vk (below.map fun child => child.2.1) node =
        .ok task.request)
      (hcircuit : system.circuitIdRepo node.params = some task.circuitId)
      (hexchanged : ((system.executor.exchangesOf task ⟨taskId, proof⟩).map
        (.noted (.inl (.await node task)))).Sublist after) :
      Vouched system log taskId node proof

/-- Whatever a client does later, it has been vouched for. -/
theorem Vouched.append {log : system.Log} {taskId : String} {node : RecursiveRequest}
    {proof : ProverProof Snark EvmProof} (h : system.Vouched log taskId node proof)
    (more : system.Log) : system.Vouched (log ++ more) taskId node proof := by
  cases h with
  | @node _ before after _ _ _ _ _ hlog hdeps hbelow hrequest hcircuit hexchanged =>
      have hlog : log ++ more = before ++ (after ++ more) := by rw [hlog, List.append_assoc]
      exact .node hlog hdeps hbelow hrequest hcircuit
        (hexchanged.trans (List.sublist_append_left _ _))

/-! ## Circuits -/

/-- The tasks of nodes are for their circuits. -/
def ForCircuit (scheduler : AsyncScheduler Snark EvmProof) : SchedulerEffect Snark → Prop
  | .submit node task => scheduler.circuitIdRepo node.params = some task.circuitId
  | .await node task => scheduler.circuitIdRepo node.params = some task.circuitId
  | .record _ _ _ _ => True

variable {scheduler : AsyncScheduler Snark EvmProof} {P : SchedulerEffect Snark → Prop}

/-- What goes on with a result awaits what it awaits for each result. -/
theorem calls_orReturn {α : Type} {c : Fallible α} {k : α → SchedulerProg Snark EvmProof}
    (hk : ∀ a, c = .ok a → (k a).Calls P) : (orReturn c k).Calls P := by
  cases c with
  | ok a => exact hk a rfl
  | error failure => cases failure <;> trivial

/-- The handlers have nodes proven by their circuits. -/
theorem calls_recursiveGenProof (scheduler : AsyncScheduler Snark EvmProof) (requestId : String)
    (fuel : ℕ) (req : RecursiveRequest) (isEvmProof : Bool) :
    (scheduler.recursiveGenProof requestId fuel req isEvmProof).Calls (ForCircuit scheduler) := by
  induction fuel generalizing req isEvmProof with
  | zero => trivial
  | succ fuel ih =>
      refine calls_orReturn fun deps _ => ⟨fun i => ih _ false, fun rs => ?_⟩
      refine calls_orReturn fun snarks _ => calls_orReturn fun request _ => ?_
      refine calls_orReturn fun circuitId hid => ?_
      have hcircuit := AsyncScheduler.getCircuitId_eq_ok.mp hid
      refine ⟨hcircuit, fun _ => ⟨hcircuit, fun result => ?_⟩⟩
      refine calls_orReturn fun result _ => calls_orReturn fun params _ => ⟨trivial, fun _ => ?_⟩
      trivial

/-! ## Trees of tasks -/

/-- Dependencies that are vouched for. -/
theorem exists_below {log : system.Log} {deps : List RecursiveRequest} {snarks : List Snark}
    (h : List.Forall₂ (fun dep snark => ∃ taskId, system.Vouched log taskId dep (.snark snark))
      deps snarks) : ∃ below : List (RecursiveRequest × Snark × String),
      below.map Prod.fst = deps ∧ (below.map fun child => child.2.1) = snarks ∧
        ∀ child ∈ below, system.Vouched log child.2.2 child.1 (.snark child.2.1) := by
  induction h with
  | nil => exact ⟨[], rfl, rfl, fun child hchild => nomatch hchild⟩
  | @cons dep snark deps snarks hhead _ ih =>
      obtain ⟨taskId, hvouched⟩ := hhead
      obtain ⟨below, rfl, rfl, hbelow⟩ := ih
      refine ⟨(dep, snark, taskId) :: below, rfl, rfl, fun child hchild => ?_⟩
      rcases List.mem_cons.mp hchild with rfl | hchild
      · exact hvouched
      · exact hbelow child hchild

/-- What the execution of a task notes is what it exchanges with the dispatcher. -/
theorem comes_of_path {node : RecursiveRequest} {task : ProverTask Snark}
    {exchanges : List (Exchange Snark EvmProof)}
    {phase : system.machines.Phase (.inl (.await node task))}
    (h : system.machines.Path (.inl (.await node task)) exchanges phase) :
    system.executor.Comes system.dispatcher task exchanges phase := by
  induction h with
  | start => exact .start
  | work _ hwork ih => exact ih.work hwork

/-- The results that a client has got are those that its effects have been answered with. -/
theorem exists_split {log : system.Log} {node : RecursiveRequest} {task : ProverTask Snark}
    {result : Except String (ExecutionResult Snark EvmProof)}
    (h : SchedulerEvent.answered node task result ∈ leftEvents (events log)) :
    ∃ front back, log = front ++ .answered ⟨.inl (.await node task), result⟩ :: back :=
  List.append_of_mem (answered_mem_of_mem (left_mem_of_mem h))

/-- A run of a client is one of its handler, and of what is done with the result. -/
theorem exists_handler {client : SchedulerClient} {q : ServerProg Snark EvmProof}
    {tr : List (Event (ServerEffect Snark EvmProof) (ServerEffect.Answer Snark EvmProof))}
    (h : Async.Run (eitherAnswers system.scheduler.Answers fun _ _ => True)
      (system.spawn client) tr q) :
    ∃ handler, Async.Run system.scheduler.Answers (system.scheduler.handler client)
        (leftEvents tr) handler ∧
      (q = handler.followedBy (fulfill client) ∨ ∃ result tr, handler = .ret result ∧
        Async.Run (eitherAnswers system.scheduler.Answers fun _ _ => True)
          (fulfill client result) tr q) :=
  h.of_followedBy fun _ _ _ _ _ => leftEvents_fulfill

/-- What a client has done before it gets a result vouches for the result. The induction is on how
much that is: the results that the task was made of are earlier ones. -/
theorem vouched_of_answered (h : system.Runs clients logs w) {i : Fin count} {bound : ℕ}
    {front back : system.Log} {node : RecursiveRequest} {task : ProverTask Snark}
    {result : ExecutionResult Snark EvmProof} (hbound : front.length < bound)
    (hlog : logs i = front ++ .answered ⟨.inl (.await node task), .ok result⟩ :: back) :
    system.Vouched front result.taskId node result.proof := by
  induction bound generalizing front back node task result with
  | zero => cases hbound
  | succ bound ih =>
      obtain ⟨-, hcarried⟩ := h.carried system.keeps i
      obtain ⟨phase, tracker, hbegan, hanswer⟩ := hcarried front _ back hlog
      obtain ⟨before, after, exchanges, q, rfl, hrun, hawaits, hpath, hexchanges⟩ := hbegan
      have hcomes := comes_of_path hpath
      obtain rfl : phase = ExecutePhase.returned (.ok result) := hanswer
      -- the task could have been answered as soon as it was awaited
      obtain ⟨q', hstep⟩ : ∃ q', Async.Step (eitherAnswers system.scheduler.Answers fun _ _ => True)
          q [⟨.inl (.await node task), .ok result⟩] q' :=
        hawaits.exists_step ⟨exchanges, hcomes⟩
      obtain ⟨handler, hhandler, -⟩ := exists_handler (hrun.step hstep)
      rw [leftEvents_append] at hhandler
      obtain ⟨hguard, -⟩ := AsyncScheduler.meets_recursiveGenProof _ _ _ _ _ _ _ hhandler
      obtain ⟨hcircuits, -⟩ := hhandler.calls (calls_recursiveGenProof system.scheduler _ _ _ _)
      have hsubmitted : SchedulerEvent.submitted node task ∈ leftEvents (events before) :=
        hguard _ (SchedulerEvent.answered node task (.ok result)) [] rfl
      have hcircuit : ForCircuit system.scheduler (.await node task) :=
        hcircuits (SchedulerEvent.answered node task (.ok result))
          (List.mem_append_right _ (List.mem_singleton_self _))
      obtain ⟨first, second, hfirst⟩ := List.append_of_mem hsubmitted
      have hsubmittable : system.scheduler.Submittable first node task :=
        hguard first (SchedulerEvent.submitted node task) _ (by rw [hfirst, List.append_assoc]; rfl)
      obtain ⟨deps, snarks, hdeps, hsnarks, hrequest⟩ := hsubmittable
      have hvouched : List.Forall₂
          (fun dep snark => ∃ taskId, system.Vouched before taskId dep (.snark snark))
          deps snarks := by
        refine hsnarks.imp fun dep snark hdep => ?_
        obtain ⟨depTask, taskId, hdep⟩ := hdep
        have hmem : SchedulerEvent.answered dep depTask (.ok ⟨taskId, .snark snark⟩) ∈
            leftEvents (events before) := by
          rw [hfirst]
          exact List.mem_append_left _ hdep
        obtain ⟨earlier, later, hbefore⟩ := exists_split hmem
        simp only [hbefore, List.length_append, List.length_cons] at hbound
        rw [hbefore, List.append_assoc, List.append_assoc] at hlog
        have hdep := ih (by omega) hlog
        rw [hbefore]
        exact ⟨taskId, hdep.append _⟩
      obtain ⟨below, rfl, rfl, hbelow⟩ := exists_below hvouched
      exact .node rfl hdeps hbelow hrequest hcircuit
        ((hcomes.evidence.map _).trans hexchanges)

/-- What a client has done vouches for every result that it has got. -/
theorem vouched_of_mem (h : system.Runs clients logs w) {i : Fin count} {node : RecursiveRequest}
    {task : ProverTask Snark} {result : ExecutionResult Snark EvmProof}
    (hmem : SchedulerEvent.answered node task (.ok result) ∈ leftEvents (events (logs i))) :
    system.Vouched (logs i) result.taskId node result.proof := by
  obtain ⟨front, back, hlog⟩ := exists_split hmem
  rw [hlog]
  exact (vouched_of_answered h (Nat.lt_succ_self _) hlog).append _

/-- What a client has done vouches for the proof that it submits. -/
theorem vouched_of_submitting (h : system.Runs clients logs w) {i : Fin count}
    {effect : FulfillEffect EvmProof} {phase : system.machines.Phase (.inr effect)}
    {k : FulfillOutcome → ServerProg Snark EvmProof}
    (hi : w.lives i = .running (.inr effect) phase k) : effect.req = (clients i).req ∧
      ∃ taskId, system.Vouched (logs i) taskId effect.req (.evmProof effect.proof) := by
  obtain ⟨-, hruns, -⟩ := h.exists_runAll system.keeps
  obtain ⟨handler, hhandler, hprog⟩ := exists_handler (hruns i)
  have hcall : (w.lives i).prog = .call (.inr effect) k := by
    rw [hi]
    rfl
  obtain ⟨proof, hreturned, rfl⟩ := exists_proof hprog hcall
  obtain ⟨-, hreturns, -⟩ := AsyncScheduler.meets_recursiveGenProof _ _ _ _ _ _ _ hhandler
  obtain ⟨⟨task, taskId, hmem⟩, -⟩ := (hreturns _ hreturned).2 _ rfl
  exact ⟨rfl, taskId, vouched_of_mem h hmem⟩

/-- The tracker holds for a client what it has recorded itself. -/
theorem tasks_eq_entries (hdistinct : Function.Injective fun i => (clients i).requestId)
    (h : system.Runs clients logs w) (i : Fin count) :
    w.memory.tasks (clients i).requestId = entries (leftEvents (events (logs i))) := by
  obtain ⟨-, hruns, tr, -, htr, hmemory⟩ := h.exists_runAll system.keeps
  have hguard (j : Fin count) : Guarded (system.scheduler.Guard (clients j).requestId)
      (leftEvents (events (logs j))) := by
    obtain ⟨handler, hhandler, -⟩ := exists_handler (hruns j)
    exact (AsyncScheduler.meets_recursiveGenProof _ _ _ _ _ _ _ hhandler).1
  rw [hmemory, foldl_applyLeft]
  exact AsyncScheduler.tasks_eq_of_interleaves hdistinct hguard (htr.filterMap _) i

/-- In every run of the system, what a client has done itself vouches for the proof that it submits
for its request and, under the id and with the parameters of the entry, for a proof of each entry
that the tracker holds for its request. -/
theorem submitted_vouched (hids : system.scheduler.HasCircuitIds)
    (hdistinct : Function.Injective fun i => (clients i).requestId)
    (h : system.Runs clients logs w) (i : Fin count) :
    (∀ effect phase k, w.lives i = .running (.inr effect) phase k →
      effect.req = (clients i).req ∧
        ∃ taskId, system.Vouched (logs i) taskId effect.req (.evmProof effect.proof)) ∧
    ∀ entry ∈ w.memory.tasks (clients i).requestId,
      ∃ node proof, node.params = entry.2 ∧ system.Vouched (logs i) entry.1 node proof := by
  refine ⟨fun effect phase k hi => vouched_of_submitting h hi, fun entry hentry => ?_⟩
  obtain ⟨-, hruns, -⟩ := h.exists_runAll system.keeps
  obtain ⟨handler, hhandler, -⟩ := exists_handler (hruns i)
  obtain ⟨hguard, -⟩ := AsyncScheduler.meets_recursiveGenProof _ _ _ _ _ _ _ hhandler
  rw [tasks_eq_entries hdistinct h] at hentry
  obtain ⟨⟨effect, answer⟩, hmem, hevent⟩ := List.mem_filterMap.mp hentry
  cases effect with
  | submit node task => cases hevent
  | await node task => cases hevent
  | record id node taskId params =>
      cases hevent
      obtain ⟨before, after, htr⟩ := List.append_of_mem hmem
      have hrecordable : system.scheduler.Recordable _ before id node taskId params :=
        hguard before _ after htr
      obtain ⟨task, proof, hanswered⟩ := hrecordable.answered
      obtain ⟨circuitId, hid, hparams⟩ := hrecordable.params_eq
      have hmem' : SchedulerEvent.answered node task (.ok ⟨taskId, proof⟩) ∈
          leftEvents (events (logs i)) := by
        rw [htr]
        exact List.mem_append_left _ hanswered
      exact ⟨node, proof, Option.some.inj ((hids _ _ hid).symm.trans hparams),
        vouched_of_mem h hmem'⟩

/-- While the task of the second client is in flight, the first one submits a proof that what it has
done vouches for. -/
theorem submitted_vouched_pair : ∃ (logs : Fin 2 → pairSystem.Log) (w : pairSystem.State 2)
    (effect : FulfillEffect (List ℕ)) (tasks : List (String × NodeParams))
    (k : FulfillOutcome → ServerProg (List ℕ) (List ℕ)) (taskId : String),
    pairSystem.Runs pairClients logs w ∧
      w.lives 0 = .running (.inr effect) (FulfillPhase.fulfilling tasks effect.proof 0) k ∧
      1 ≤ (w.lives 1).total inFlight ∧
      pairSystem.Vouched (logs 0) taskId effect.req (.evmProof effect.proof) := by
  have hids : pairSystem.scheduler.HasCircuitIds :=
    AsyncScheduler.hasCircuitIds_of_cids rfl rfl (by decide)
  have hdistinct : Function.Injective fun i => (pairClients i).requestId := by decide
  obtain ⟨w, effect, tasks, k, hreaches, hlives, hflight⟩ := exists_reaches_fulfilling
  obtain ⟨logs, hruns⟩ := Machines.reaches_iff_exists_runs.mp hreaches
  obtain ⟨hsubmitted, -⟩ := submitted_vouched hids hdistinct hruns 0
  obtain ⟨-, taskId, hvouched⟩ := hsubmitted effect _ k hlives
  exact ⟨logs, w, effect, tasks, k, taskId, hruns, hlives, hflight, hvouched⟩

end SchedulerSystem

end WorldcoinAggregation
