import WorldcoinAggregation.Scheduler.AsyncScheduler

/-!
# The dispatcher executor

`DispatcherExecutor` has the tasks of a scheduler proven by a dispatcher that it reaches over HTTP.
For each task it waits for a permit, creates the task, polls its status until the task is over,
gives the permit back, and retrieves the proof. The dispatcher may respond in any way. An execution
is told with what it exchanges with the dispatcher, and the result that it returns is the one that
was exchanged (`DispatcherExecutor.Comes.evidence`).
-/

namespace WorldcoinAggregation

variable {Snark EvmProof : Type}

/-! ## The dispatcher -/

/-- The status of a task of the dispatcher. -/
inductive TaskStatus where
  | pending
  | preparing
  | proving
  | done
  | failed
deriving DecidableEq

/-- What the dispatcher is asked to prove. -/
structure TasksRequest (Snark : Type) where
  circuitId : String
  isEvmProof : Bool
  request : RequestRouter Snark
  forceProve : Bool

/-- What becomes of a request over HTTP: no response comes back, its body is not received or does
not parse, or it is a value. -/
inductive Response (α : Type) where
  | unsent
  | unread (message : String)
  | unparsed
  | value (a : α)
deriving DecidableEq

/-- A request to the dispatcher with its response: a task is created, its status is polled, or its
proof is retrieved. -/
inductive Exchange (Snark EvmProof : Type) where
  | tasks (request : TasksRequest Snark) (response : Response String)
  | status (taskId : String) (response : Response TaskStatus)
  | snark (taskId : String) (response : Response (ProverProof Snark EvmProof))

/-- A dispatcher: the responses that it may give. -/
structure Dispatcher (Snark EvmProof : Type) where
  tasks : TasksRequest Snark → Response String → Prop
  status : (taskId : String) → Response TaskStatus → Prop
  snark : (taskId : String) → Response (ProverProof Snark EvmProof) → Prop

/-- A dispatcher that always responds, and that may finish every task. -/
structure Dispatcher.Responsive (dispatcher : Dispatcher Snark EvmProof) : Prop where
  tasks : ∀ request, ∃ response, dispatcher.tasks request response
  status : ∀ taskId, ∃ response, dispatcher.status taskId response ∧
    ∀ status, response = .value status → status = .done ∨ status = .failed
  snark : ∀ taskId, ∃ response, dispatcher.snark taskId response

/-! ## The executor -/

/-- An executor of a scheduler. Paths are joined to the URL of the dispatcher, which may fail. -/
structure DispatcherExecutor where
  join : String → Except String String
  proofConcurrencySemaphore : Option ℕ
  forceProve : Bool

/-- Where the execution of a task is. -/
inductive ExecutePhase (Snark EvmProof : Type) where
  | acquiring
  | creating (permit : Bool)
  | waiting (permit : Bool) (taskId : String)
  | retrieving (taskId : String)
  | returned (result : Except String (ExecutionResult Snark EvmProof))

/-- Goes on with a result, or returns its error. -/
def ExecutePhase.orReturned {α : Type} (c : Except String α)
    (k : α → ExecutePhase Snark EvmProof) : ExecutePhase Snark EvmProof :=
  match c with
  | .ok a => k a
  | .error message => .returned (.error message)

namespace DispatcherExecutor

/-- An executor that has at most this many tasks proven at the same time, or any number for 0. -/
def new (join : String → Except String String) (proofConcurrency : ℕ) (forceProve : Bool) :
    DispatcherExecutor where
  join := join
  proofConcurrencySemaphore := if proofConcurrency = 0 then none else some proofConcurrency
  forceProve := forceProve

variable (executor : DispatcherExecutor)

/-- The body of the request that creates a task. -/
def tasksRequest (proof : ProverTask Snark) : TasksRequest Snark where
  circuitId := proof.circuitId
  isEvmProof := proof.isEvmProof
  request := proof.request
  forceProve := executor.forceProve

/-- The id of the task that a response says was created. -/
def createTask (response : Response String) : Except String String := do
  let taskUrl ← executor.join "tasks"
  match response with
  | .unsent => throw s!"Failed when requesting {taskUrl}"
  | .unread _ => throw "Failed to parse response of /tasks"
  | .unparsed => throw "Failed to parse response of /tasks"
  | .value taskId => return taskId

/-- Whether a response says that a task is done. A round of polling ends with an error if it is not
known or if the task has failed. -/
def waitTaskDone (taskId : String) (response : Response TaskStatus) : Except String Bool := do
  let statusUrl ← executor.join s!"tasks/{taskId}/status"
  match response with
  | .unsent => throw s!"Failed when requesting {statusUrl}"
  | .unread message => throw message
  | .unparsed => throw s!"Failed to parse response of {statusUrl}"
  | .value .done => return true
  | .value .failed => throw s!"Task {taskId} failed"
  | .value _ => return false

/-- The proof that a response holds. -/
def getProverProof (taskId : String) (response : Response (ProverProof Snark EvmProof)) :
    Except String (ProverProof Snark EvmProof) := do
  let proofUrl ← executor.join s!"tasks/{taskId}/snark"
  match response with
  | .unsent => throw s!"Failed when requesting {proofUrl}"
  | .unread _ => throw s!"Failed to parse response of {proofUrl}"
  | .unparsed => throw s!"Failed to parse response of {proofUrl}"
  | .value proof => return proof

/-- What is exchanged with the dispatcher, if its URL and the path can be joined. -/
def exchanged (path : String) (exchange : Exchange Snark EvmProof) :
    List (Exchange Snark EvmProof) :=
  match executor.join path with
  | .ok _ => [exchange]
  | .error _ => []

variable (dispatcher : Dispatcher Snark EvmProof)

/-- The execution of a task goes on, with what is exchanged. The permit is dropped once the task is
done, and by every error before. -/
inductive Work (proof : ProverTask Snark) : ExecutePhase Snark EvmProof →
    List (Exchange Snark EvmProof) → ExecutePhase Snark EvmProof → Prop where
  | acquire : Work proof .acquiring [] (.creating executor.proofConcurrencySemaphore.isSome)
  | create {permit : Bool} {response : Response String}
      (h : dispatcher.tasks (executor.tasksRequest proof) response) :
      Work proof (.creating permit)
        (executor.exchanged "tasks" (.tasks (executor.tasksRequest proof) response))
        (.orReturned (executor.createTask response) (.waiting permit))
  | poll {permit : Bool} {taskId : String} {response : Response TaskStatus}
      (h : dispatcher.status taskId response) :
      Work proof (.waiting permit taskId)
        (executor.exchanged s!"tasks/{taskId}/status" (.status taskId response))
        (.orReturned (executor.waitTaskDone taskId response) fun done =>
          if done then .retrieving taskId else .waiting permit taskId)
  | retrieve {taskId : String} {response : Response (ProverProof Snark EvmProof)}
      (h : dispatcher.snark taskId response) :
      Work proof (.retrieving taskId)
        (executor.exchanged s!"tasks/{taskId}/snark" (.snark taskId response))
        (.orReturned (executor.getProverProof taskId response) fun proof =>
          .returned (.ok ⟨taskId, proof⟩))

/-- The phases that the execution of a task comes to, with all that has been exchanged. -/
inductive Comes (proof : ProverTask Snark) :
    List (Exchange Snark EvmProof) → ExecutePhase Snark EvmProof → Prop where
  | start : Comes proof [] .acquiring
  | work {exchanges more : List (Exchange Snark EvmProof)}
      {phase phase' : ExecutePhase Snark EvmProof} (h : Comes proof exchanges phase)
      (hwork : executor.Work dispatcher proof phase more phase') :
      Comes proof (exchanges ++ more) phase'

/-- What the executor may answer a task with. -/
def proofExecutor : ProofExecutor Snark EvmProof where
  execute proof result := ∃ exchanges, executor.Comes dispatcher proof exchanges (.returned result)

end DispatcherExecutor

/-! ## Permits -/

/-- Whether an execution holds a permit. -/
def ExecutePhase.holdsPermit : ExecutePhase Snark EvmProof → Bool
  | .acquiring => false
  | .creating permit => permit
  | .waiting permit _ => permit
  | .retrieving _ => false
  | .returned _ => false

/-- Whether an execution is between sending the request that creates its task and the end of the
waiting for it. -/
def ExecutePhase.inFlight : ExecutePhase Snark EvmProof → Bool
  | .acquiring => false
  | .creating _ => true
  | .waiting _ _ => true
  | .retrieving _ => false
  | .returned _ => false

/-- How far an execution is from its result, if the dispatcher finishes its task when it is asked
next. -/
def ExecutePhase.rank : ExecutePhase Snark EvmProof → ℕ
  | .acquiring => 4
  | .creating _ => 3
  | .waiting _ _ => 2
  | .retrieving _ => 1
  | .returned _ => 0

variable {executor : DispatcherExecutor} {dispatcher : Dispatcher Snark EvmProof}
  {proof : ProverTask Snark} {phase phase' : ExecutePhase Snark EvmProof}
  {exchanges : List (Exchange Snark EvmProof)}

/-- An execution that has not returned an error goes on with a result. -/
theorem ExecutePhase.orReturned_eq {α : Type} {c : Except String α}
    {k : α → ExecutePhase Snark EvmProof}
    (h : ∀ message, ExecutePhase.orReturned c k ≠ .returned (.error message)) :
    ∃ a, c = .ok a ∧ ExecutePhase.orReturned c k = k a := by
  cases c with
  | ok a => exact ⟨a, rfl, rfl⟩
  | error message => exact absurd rfl (h message)

/-- A task in flight is none that has ended. -/
theorem ExecutePhase.ne_returned_of_inFlight (h : phase.inFlight = true)
    (result : Except String (ExecutionResult Snark EvmProof)) : phase ≠ .returned result := by
  rintro rfl
  cases h

namespace DispatcherExecutor

/-- A task in flight has a permit if there is a semaphore. -/
theorem Comes.holdsPermit (h : executor.Comes dispatcher proof exchanges phase)
    (hflight : phase.inFlight = true) :
    phase.holdsPermit = executor.proofConcurrencySemaphore.isSome := by
  induction h with
  | start => cases hflight
  | work _ hwork ih =>
      cases hwork with
      | acquire => rfl
      | create _ =>
          obtain ⟨taskId, -, heq⟩ :=
            ExecutePhase.orReturned_eq fun _ => ExecutePhase.ne_returned_of_inFlight hflight _
          rw [heq]
          exact ih rfl
      | poll _ =>
          obtain ⟨done, -, heq⟩ :=
            ExecutePhase.orReturned_eq fun _ => ExecutePhase.ne_returned_of_inFlight hflight _
          rw [heq] at hflight ⊢
          cases done with
          | false => exact ih rfl
          | true => cases hflight
      | retrieve _ =>
          obtain ⟨proof, -, heq⟩ :=
            ExecutePhase.orReturned_eq fun _ => ExecutePhase.ne_returned_of_inFlight hflight _
          rw [heq] at hflight
          cases hflight

/-- An execution that holds a permit has a task in flight. -/
theorem inFlight_of_holdsPermit (h : phase.holdsPermit = true) : phase.inFlight = true := by
  cases phase with
  | creating permit => rfl
  | waiting permit taskId => rfl
  | acquiring => cases h
  | retrieving taskId => cases h
  | returned result => cases h

/-- What is exchanged about a task whose proof is returned: it is created, reported done, and its
proof is retrieved. -/
def exchangesOf (executor : DispatcherExecutor) (proof : ProverTask Snark)
    (result : ExecutionResult Snark EvmProof) : List (Exchange Snark EvmProof) :=
  [.tasks (executor.tasksRequest proof) (.value result.taskId),
    .status result.taskId (.value .done), .snark result.taskId (.value result.proof)]

/-- What an execution has exchanged about its task. -/
def Evidence (executor : DispatcherExecutor) (proof : ProverTask Snark)
    (exchanges : List (Exchange Snark EvmProof)) : ExecutePhase Snark EvmProof → Prop
  | .waiting _ taskId =>
      [.tasks (executor.tasksRequest proof) (.value taskId)].Sublist exchanges
  | .retrieving taskId =>
      [.tasks (executor.tasksRequest proof) (.value taskId),
        .status taskId (.value .done)].Sublist exchanges
  | .returned (.ok result) => (executor.exchangesOf proof result).Sublist exchanges
  | _ => True

/-- The id of a task is read from the response to a request. -/
theorem createTask_eq_ok {response : Response String} {taskId : String}
    (h : executor.createTask response = .ok taskId) : response = .value taskId ∧
      ∀ exchange : Exchange Snark EvmProof, executor.exchanged "tasks" exchange = [exchange] := by
  unfold createTask at h
  cases hjoin : executor.join "tasks" with
  | error message =>
      rw [hjoin] at h
      cases h
  | ok taskUrl =>
      rw [hjoin] at h
      refine ⟨?_, fun exchange => ?_⟩
      · cases response <;> cases h
        rfl
      · rw [exchanged, hjoin]

/-- A task is only done if the response to a request says so. -/
theorem waitTaskDone_eq_true {response : Response TaskStatus} {taskId : String}
    (h : executor.waitTaskDone taskId response = .ok true) : response = .value .done ∧
      ∀ exchange : Exchange Snark EvmProof,
        executor.exchanged s!"tasks/{taskId}/status" exchange = [exchange] := by
  unfold waitTaskDone at h
  cases hjoin : executor.join s!"tasks/{taskId}/status" with
  | error message =>
      rw [hjoin] at h
      cases h
  | ok statusUrl =>
      rw [hjoin] at h
      refine ⟨?_, fun exchange => ?_⟩
      · cases response with
        | value status => cases status <;> cases h; rfl
        | unsent => cases h
        | unread message => cases h
        | unparsed => cases h
      · rw [exchanged, hjoin]

/-- The proof of a task is read from the response to a request. -/
theorem getProverProof_eq_ok {response : Response (ProverProof Snark EvmProof)} {taskId : String}
    {result : ProverProof Snark EvmProof}
    (h : executor.getProverProof taskId response = .ok result) : response = .value result ∧
      ∀ exchange : Exchange Snark EvmProof,
        executor.exchanged s!"tasks/{taskId}/snark" exchange = [exchange] := by
  unfold getProverProof at h
  cases hjoin : executor.join s!"tasks/{taskId}/snark" with
  | error message =>
      rw [hjoin] at h
      cases h
  | ok proofUrl =>
      rw [hjoin] at h
      refine ⟨?_, fun exchange => ?_⟩
      · cases response <;> cases h
        rfl
      · rw [exchanged, hjoin]

/-- A response that is not that the task is under way ends the polling. -/
theorem waitTaskDone_ne_false {response : Response TaskStatus} {taskId : String}
    (hover : ∀ status, response = .value status → status = .done ∨ status = .failed) :
    executor.waitTaskDone taskId response ≠ .ok false := by
  intro h
  unfold waitTaskDone at h
  cases hjoin : executor.join s!"tasks/{taskId}/status" with
  | error message =>
      rw [hjoin] at h
      cases h
  | ok statusUrl =>
      rw [hjoin] at h
      cases response with
      | value status =>
          rcases hover status rfl with rfl | rfl
          · cases h
          · cases h
      | unsent => cases h
      | unread message => cases h
      | unparsed => cases h

/-- An execution goes by what it has exchanged about its task. -/
theorem Comes.evidence (h : executor.Comes dispatcher proof exchanges phase) :
    executor.Evidence proof exchanges phase := by
  induction h with
  | start => trivial
  | @work exchanges more _ _ _ hwork ih =>
      cases hwork with
      | acquire => trivial
      | @create permit response _ =>
          cases hc : executor.createTask response with
          | error message => trivial
          | ok taskId =>
              obtain ⟨rfl, hexchanged⟩ := createTask_eq_ok hc
              rw [hexchanged]
              exact List.sublist_append_right _ _
      | @poll permit taskId response _ =>
          cases hc : executor.waitTaskDone taskId response with
          | error message => trivial
          | ok done =>
              cases done with
              | false => exact ih.trans (List.sublist_append_left _ _)
              | true =>
                  obtain ⟨rfl, hexchanged⟩ := waitTaskDone_eq_true hc
                  rw [hexchanged]
                  exact List.Sublist.append ih (.refl _)
      | @retrieve taskId response _ =>
          cases hc : executor.getProverProof taskId response with
          | error message => trivial
          | ok result =>
              obtain ⟨rfl, hexchanged⟩ := getProverProof_eq_ok hc
              rw [hexchanged]
              exact List.Sublist.append ih (.refl _)

/-- An execution that has not returned gets closer to its result, if the dispatcher responds. It
takes a permit only where it holds none. -/
theorem exists_work (hresponsive : dispatcher.Responsive) (phase : ExecutePhase Snark EvmProof) :
    (∃ result, phase = .returned result) ∨
      ∃ more phase', executor.Work dispatcher proof phase more phase' ∧ phase'.rank < phase.rank ∧
        ((phase'.holdsPermit = true → phase.holdsPermit = true) ∨
          phase = .acquiring ∧
            phase'.holdsPermit = executor.proofConcurrencySemaphore.isSome) := by
  cases phase with
  | acquiring => exact .inr ⟨_, _, .acquire, Nat.lt_succ_self _, .inr ⟨rfl, rfl⟩⟩
  | creating permit =>
      obtain ⟨response, hresponse⟩ := hresponsive.tasks (executor.tasksRequest proof)
      refine .inr ⟨_, _, .create hresponse, ?_⟩
      cases executor.createTask response with
      | ok taskId => exact ⟨Nat.lt_succ_self _, .inl id⟩
      | error message => exact ⟨Nat.zero_lt_succ _, .inl nofun⟩
  | waiting permit taskId =>
      obtain ⟨response, hresponse, hover⟩ := hresponsive.status taskId
      refine .inr ⟨_, _, .poll hresponse, ?_⟩
      have hne : executor.waitTaskDone taskId response ≠ .ok false := waitTaskDone_ne_false hover
      cases hc : executor.waitTaskDone taskId response with
      | ok done =>
          cases done with
          | false => exact absurd hc hne
          | true => exact ⟨Nat.lt_succ_self _, .inl nofun⟩
      | error message => exact ⟨Nat.zero_lt_succ _, .inl nofun⟩
  | retrieving taskId =>
      obtain ⟨response, hresponse⟩ := hresponsive.snark taskId
      refine .inr ⟨_, _, .retrieve hresponse, ?_⟩
      cases executor.getProverProof taskId response with
      | ok result => exact ⟨Nat.zero_lt_succ _, .inl nofun⟩
      | error message => exact ⟨Nat.zero_lt_succ _, .inl nofun⟩
  | returned result => exact .inl ⟨result, rfl⟩

end DispatcherExecutor

end WorldcoinAggregation
