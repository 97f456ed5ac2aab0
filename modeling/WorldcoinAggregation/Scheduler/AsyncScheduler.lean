import WorldcoinAggregation.Base.Async
import WorldcoinAggregation.Scheduler.Recursion

/-!
# The concurrent scheduler

`AsyncScheduler` proves the dependencies of a request concurrently: their tasks are submitted and
answered in any order. A deterministic executor answers the same task with the same proof or error
whenever it is asked (`ProofExecutor.Follows`).
-/

namespace WorldcoinAggregation

open Fallible Async

variable {Snark EvmProof : Type}

/-! ## The executor -/

/-- The result of a task and the id that the executor gave it. -/
structure ExecutionResult (Snark EvmProof : Type) where
  taskId : String
  proof : ProverProof Snark EvmProof

/-- An executor: the results and errors that it may answer a task with. -/
structure ProofExecutor (Snark EvmProof : Type) where
  execute : ProverTask Snark → Except String (ExecutionResult Snark EvmProof) → Prop

/-- A function that makes a proof or an error of every task. Of the tasks of wrappers that ask for a
proof for the chain it makes such a proof, and of all tasks that do not ask for one a snark. -/
structure ProverFunction (Snark EvmProof : Type) where
  prove : ProverTask Snark → Except String (ProverProof Snark EvmProof)
  isSnark : ∀ circuitId request proof, prove ⟨circuitId, false, request⟩ ≠ .ok (.evmProof proof)
  isEvmProof : ∀ circuitId request snark,
    prove ⟨circuitId, true, .evm request⟩ ≠ .ok (.snark snark)

/-- A deterministic executor: it answers every task, always with the proof or error that the
function makes of it. -/
structure ProofExecutor.Follows (executor : ProofExecutor Snark EvmProof)
    (prover : ProverFunction Snark EvmProof) : Prop where
  answers : ∀ task, ∃ result, executor.execute task result
  proof_eq : ∀ task result, executor.execute task result →
    Except.map ExecutionResult.proof result = prover.prove task

namespace ProverFunction

variable (prover : ProverFunction Snark EvmProof)

/-- The snark that is made of a request. -/
def getSnark (circuitId : String) (request : RequestRouter Snark) : Fallible Snark := do
  match ← (prover.prove ⟨circuitId, false, request⟩).mapError .error with
  | .snark snark => return snark
  | .evmProof _ => throw .panicked

/-- The proof for the chain that is made of a request. -/
def getEvmProof (circuitId : String) (request : WorldcoinRequestEvm Snark) :
    Fallible EvmProof := do
  match ← (prover.prove ⟨circuitId, true, .evm request⟩).mapError .error with
  | .evmProof proof => return proof
  | .snark _ => throw .panicked

/-- The prover that computes the function. -/
def provingServerState : ProvingServerState Snark EvmProof :=
  ⟨prover.getSnark, prover.getEvmProof⟩

end ProverFunction

/-! ## The scheduler -/

/-- What a scheduler awaits on behalf of a node: that its task is accepted, that its task is
answered, and that its task is recorded for the request of a client. -/
inductive SchedulerEffect (Snark : Type) where
  | submit (node : RecursiveRequest) (task : ProverTask Snark)
  | await (node : RecursiveRequest) (task : ProverTask Snark)
  | record (requestId : String) (node : RecursiveRequest) (taskId : String) (params : NodeParams)

/-- What an effect is answered with. -/
def SchedulerEffect.Answer (EvmProof : Type) : SchedulerEffect Snark → Type
  | .submit _ _ => Unit
  | .await _ _ => Except String (ExecutionResult Snark EvmProof)
  | .record _ _ _ _ => Unit

/-- Programs of the scheduler. They end with a proof or an error. -/
abbrev SchedulerProg (Snark EvmProof : Type) :=
  Prog (SchedulerEffect Snark) (SchedulerEffect.Answer EvmProof)
    (Except String (ProverProof Snark EvmProof))

/-- Events of the scheduler. -/
abbrev SchedulerEvent (Snark EvmProof : Type) :=
  Event (SchedulerEffect Snark) (SchedulerEffect.Answer EvmProof)

namespace SchedulerEvent

/-- The task of a node is submitted. -/
def submitted (node : RecursiveRequest) (task : ProverTask Snark) : SchedulerEvent Snark EvmProof :=
  ⟨.submit node task, ()⟩

/-- The task of a node is answered. -/
def answered (node : RecursiveRequest) (task : ProverTask Snark)
    (result : Except String (ExecutionResult Snark EvmProof)) : SchedulerEvent Snark EvmProof :=
  ⟨.await node task, result⟩

/-- The task of a node is recorded. -/
def recorded (requestId : String) (node : RecursiveRequest) (taskId : String)
    (params : NodeParams) : SchedulerEvent Snark EvmProof :=
  ⟨.record requestId node taskId params, ()⟩

end SchedulerEvent

/-- Goes on with a result. An error is returned, and anything else that is none crashes. -/
def orReturn {α : Type} (c : Fallible α) (k : α → SchedulerProg Snark EvmProof) :
    SchedulerProg Snark EvmProof :=
  match c with
  | .ok a => k a
  | .error (.error message) => .ret (.error message)
  | .error _ => .crash

/-- The scheduler that runs the tasks of dependencies concurrently. -/
structure AsyncScheduler (Snark EvmProof : Type) where
  executor : ProofExecutor Snark EvmProof
  circuitIdRepo : NodeParams → Option String
  cidToParams : String → Option NodeParams
  vk : VkNative

namespace AsyncScheduler

variable (scheduler : AsyncScheduler Snark EvmProof)

/-- What happens to an effect. The executor answers tasks. -/
def Answers : (e : SchedulerEffect Snark) → e.Answer EvmProof → Prop
  | .submit _ _, _ => True
  | .await _ task, answer => scheduler.executor.execute task answer
  | .record _ _ _ _, _ => True

/-- The circuit that handles the last step of a request. -/
def getCircuitId (req : RecursiveRequest) : Fallible String :=
  match scheduler.circuitIdRepo req.params with
  | some circuitId => return circuitId
  | none => throw (.error s!"Circuit ID for {req.params.debug} not found")

/-- Runs the task of a node. -/
def generateProof (node : RecursiveRequest) (task : ProverTask Snark)
    (k : ExecutionResult Snark EvmProof → SchedulerProg Snark EvmProof) :
    SchedulerProg Snark EvmProof :=
  .call (.submit node task) fun _ => .call (.await node task)
    fun (result : Except String (ExecutionResult Snark EvmProof)) =>
      orReturn (result.mapError .error) k

/-- Records the task of a node. -/
def postProofGenProcessing (requestId : String) (node : RecursiveRequest) (circuitId : String)
    (result : ExecutionResult Snark EvmProof) (k : SchedulerProg Snark EvmProof) :
    SchedulerProg Snark EvmProof :=
  orReturn (unwrap (scheduler.cidToParams circuitId)) fun nodeParams =>
    .call (.record requestId node result.taskId nodeParams) fun _ => k

/-- The snarks among results, or the first error. -/
def collectSnarks (results : List (Except String (ProverProof Snark EvmProof))) :
    Fallible (List Snark) :=
  results.mapM fun result => do LocalScheduler.intoSnark (← result.mapError .error)

/-- Proves the dependencies of a request concurrently and goes on with their snarks. -/
def getSnarksForDeps (recursiveGenProof : RecursiveRequest → SchedulerProg Snark EvmProof)
    (req : RecursiveRequest) (k : List Snark → SchedulerProg Snark EvmProof) :
    SchedulerProg Snark EvmProof :=
  orReturn req.dependencies fun deps =>
    joinAll deps recursiveGenProof fun results => orReturn (collectSnarks results) k

/-- Proves a request, its dependencies first. -/
def recursiveGenProof (requestId : String) :
    ℕ → RecursiveRequest → (isEvmProof : Bool) → SchedulerProg Snark EvmProof
  -- not reached with fuel for every generation of nodes
  | 0, _, _ => .crash
  | fuel + 1, req, isEvmProof =>
      getSnarksForDeps (fun dep => recursiveGenProof requestId fuel dep false) req fun snarks =>
        orReturn (handleRecursiveRequest scheduler.vk snarks req) fun request =>
          orReturn (scheduler.getCircuitId req) fun circuitId =>
            generateProof req ⟨circuitId, isEvmProof, request⟩ fun result =>
              scheduler.postProofGenProcessing requestId req circuitId result
                (.ret (.ok result.proof))

/-- The circuit ids of a request and of everything below it are registered. -/
def Registered (req : RecursiveRequest) : Prop :=
  ∀ node, req.Reaches node → ∃ circuitId, scheduler.circuitIdRepo node.params = some circuitId ∧
    (scheduler.cidToParams circuitId).isSome

/-- The sequential scheduler with the same circuits. -/
def localScheduler (prover : ProverFunction Snark EvmProof) : LocalScheduler Snark EvmProof where
  state := prover.provingServerState
  circuitIdRepo := scheduler.circuitIdRepo
  vk := scheduler.vk

end AsyncScheduler

end WorldcoinAggregation
