import WorldcoinAggregation.Base.Machines
import WorldcoinAggregation.Scheduler.Dispatcher
import WorldcoinAggregation.Scheduler.TaskTracker

/-!
# The scheduler server at work

For every client the scheduler server spawns a task that proves the request, dumps a summary of the
tasks it took and submits the proof to the contract. The tasks share the permits of the dispatcher
executor and the lock of the task tracker, which a client keeps while it submits its proof.
-/

namespace WorldcoinAggregation

open Fallible Async

variable {Snark EvmProof Params : Type}

/-! ## Submitting a proof -/

/-- What becomes of a transaction: its hash, an error, or a panic. -/
inductive SendResult where
  | ok (txHash : BitVec 256)
  | err
  | panicked

/-- A client of the contract: what it makes of a proof, and what may become of its transactions. -/
structure ContractClient (EvmProof Params : Type) where
  claimParams : RecursiveRequest → EvmProof → Fallible Params
  fulfill : Params → SendResult → Prop

/-- A proven request is summarised and submitted. -/
structure FulfillEffect (EvmProof : Type) where
  requestId : String
  req : RecursiveRequest
  proof : EvmProof

/-- How the submission of a proof ends. -/
inductive FulfillOutcome where
  | fulfilled (txHash : BitVec 256)
  | gaveUp
  | panicked

/-- Where the submission of a proof is. The tracker is locked from `locked` on. -/
inductive FulfillPhase (Params : Type) where
  | locking
  | locked
  | fulfilling (tasks : List (String × NodeParams)) (params : Params) (failures : ℕ)
  | finished (outcome : FulfillOutcome)

/-- How often the server tries to submit a proof. -/
def retrySendThreshold : ℕ := 5

namespace FulfillPhase

/-- How a submission goes on after an attempt. -/
def afterSend (tasks : List (String × NodeParams)) (params : Params) (failures : ℕ) :
    SendResult → FulfillPhase Params
  | .ok txHash => .finished (.fulfilled txHash)
  | .err =>
      if failures + 1 < retrySendThreshold then .fulfilling tasks params (failures + 1)
      else .finished .gaveUp
  | .panicked => .finished .panicked

/-- Whether the tracker is locked. -/
def locks : FulfillPhase Params → Bool
  | .locking => false
  | .locked => true
  | .fulfilling _ _ _ => true
  | .finished _ => false

/-- How far a submission is from its end, if all further attempts fail. -/
def rank : FulfillPhase Params → ℕ
  | .locking => 8
  | .locked => 7
  | .fulfilling _ _ failures => 6 - failures
  | .finished _ => 0

/-- A submission that goes on has not used up its attempts. -/
def Within : FulfillPhase Params → Prop
  | .fulfilling _ _ failures => failures < retrySendThreshold
  | _ => True

/-- The submission of a proof goes on. A panic releases the tracker. -/
inductive Work (client : ContractClient EvmProof Params) (effect : FulfillEffect EvmProof)
    (tracker : SchedulerTaskTracker) : FulfillPhase Params → FulfillPhase Params → Prop where
  | lock : Work client effect tracker .locking .locked
  | noTasks (h : tracker.requestIdToTasks effect.requestId = none) :
      Work client effect tracker .locked (.finished .panicked)
  -- the summary is not serialised, or its file is not written
  | noSummary {tasks : List (String × NodeParams)}
      (h : tracker.requestIdToTasks effect.requestId = some tasks) :
      Work client effect tracker .locked (.finished .panicked)
  | noParams {tasks : List (String × NodeParams)} {failure : Failure}
      (h : tracker.requestIdToTasks effect.requestId = some tasks)
      (hparams : client.claimParams effect.req effect.proof = .error failure) :
      Work client effect tracker .locked (.finished .panicked)
  | summarised {tasks : List (String × NodeParams)} {params : Params}
      (h : tracker.requestIdToTasks effect.requestId = some tasks)
      (hparams : client.claimParams effect.req effect.proof = .ok params) :
      Work client effect tracker .locked (.fulfilling tasks params 0)
  | send {tasks : List (String × NodeParams)} {params : Params} {failures : ℕ}
      {result : SendResult} (h : client.fulfill params result) :
      Work client effect tracker (.fulfilling tasks params failures)
        (afterSend tasks params failures result)

end FulfillPhase

/-! ## The system -/

/-- The scheduler server with the services that it uses. -/
structure SchedulerSystem (Snark EvmProof Params : Type) where
  executor : DispatcherExecutor
  dispatcher : Dispatcher Snark EvmProof
  contractClient : ContractClient EvmProof Params
  circuitIdRepo : NodeParams → Option String
  cidToParams : String → Option NodeParams
  vk : VkNative

/-- What a spawned task awaits. -/
abbrev ServerEffect (Snark EvmProof : Type) := SchedulerEffect Snark ⊕ FulfillEffect EvmProof

/-- What an effect is answered with. -/
abbrev ServerEffect.Answer (Snark EvmProof : Type) : ServerEffect Snark EvmProof → Type :=
  Sum.elim (SchedulerEffect.Answer EvmProof) fun _ => FulfillOutcome

/-- Spawned tasks. -/
abbrev ServerProg (Snark EvmProof : Type) :=
  Prog (ServerEffect Snark EvmProof) (ServerEffect.Answer Snark EvmProof)
    (Except String (ProverProof Snark EvmProof))

/-- What the spawned tasks share. -/
inductive SchedulerResource where
  | permit
  | taskTracker
deriving DecidableEq

/-- Whether a task waits for the lock of the tracker or has it. -/
inductive LockPhase where
  | locking
  | locked

/-- Where an effect is. -/
def ServerEffect.Phase (Params : Type) : ServerEffect Snark EvmProof → Type
  | .inl (.submit _ _) => Unit
  | .inl (.await _ _) => ExecutePhase Snark EvmProof
  | .inl (.record _ _ _ _) => LockPhase
  | .inr _ => FulfillPhase Params

namespace SchedulerSystem

variable (system : SchedulerSystem Snark EvmProof Params)

/-- The scheduler, for which the dispatcher executes tasks. -/
def scheduler : AsyncScheduler Snark EvmProof where
  executor := system.executor.proofExecutor system.dispatcher
  circuitIdRepo := system.circuitIdRepo
  cidToParams := system.cidToParams
  vk := system.vk

/-- What is done with the result of a request. -/
def fulfill (client : SchedulerClient) :
    Except String (ProverProof Snark EvmProof) → ServerProg Snark EvmProof
  | .ok (.evmProof proof) =>
      .call (.inr ⟨client.requestId, client.req, proof⟩) fun (outcome : FulfillOutcome) =>
        match outcome with
        | .fulfilled _ => .ret (.ok (.evmProof proof))
        | .gaveUp => .ret (.ok (.evmProof proof))
        | .panicked => .crash
  | .ok (.snark _) => .crash
  | .error _ => .crash

/-- The task that is spawned for a client. -/
def spawn (client : SchedulerClient) : ServerProg Snark EvmProof :=
  (system.scheduler.handler client).followedBy (fulfill client)

/-- How an effect starts. -/
def start : (e : ServerEffect Snark EvmProof) → e.Phase Params
  | .inl (.submit _ _) => ()
  | .inl (.await _ _) => ExecutePhase.acquiring
  | .inl (.record _ _ _ _) => LockPhase.locking
  | .inr _ => FulfillPhase.locking

/-- What an effect holds. -/
def held : (e : ServerEffect Snark EvmProof) → e.Phase Params → SchedulerResource → ℕ
  | .inl (.await _ _), phase, .permit => (ExecutePhase.holdsPermit phase).toNat
  | .inl (.record _ _ _ _), LockPhase.locked, .taskTracker => 1
  | .inr _, phase, .taskTracker => (FulfillPhase.locks phase).toNat
  | _, _, _ => 0

/-- How an effect goes on, with what is exchanged with the dispatcher. -/
def work : (e : ServerEffect Snark EvmProof) → SchedulerTaskTracker → e.Phase Params →
    List (Exchange Snark EvmProof) → e.Phase Params → Prop
  | .inl (.submit _ _), _, _, _, _ => False
  | .inl (.await _ proof), _, phase, exchanges, phase' =>
      system.executor.Work system.dispatcher proof phase exchanges phase'
  | .inl (.record _ _ _ _), _, phase, exchanges, phase' =>
      exchanges = [] ∧ phase = LockPhase.locking ∧ phase' = LockPhase.locked
  | .inr effect, tracker, phase, exchanges, phase' =>
      exchanges = [] ∧ FulfillPhase.Work system.contractClient effect tracker phase phase'

/-- What an effect is answered with in the end. -/
def answer : (e : ServerEffect Snark EvmProof) → e.Phase Params →
    ServerEffect.Answer Snark EvmProof e → Prop
  | .inl (.submit _ _), _, _ => True
  | .inl (.await _ _), phase, result => phase = ExecutePhase.returned result
  | .inl (.record _ _ _ _), phase, _ => phase = LockPhase.locked
  | .inr _, phase, outcome => phase = FulfillPhase.finished outcome

/-- The machines that carry out the effects. -/
def machines : Machines (ServerEffect Snark EvmProof) (ServerEffect.Answer Snark EvmProof)
    (Exchange Snark EvmProof) SchedulerResource SchedulerTaskTracker where
  Phase := ServerEffect.Phase Params
  start := start
  held := held
  work := system.work
  answer e _ := answer e
  held_start e r := by
    rcases e with (_ | _ | _) | _ <;> cases r <;> rfl

/-- The permits of the semaphore, and the lock of the tracker. -/
def capacity : SchedulerResource → ℕ
  | .permit => system.executor.proofConcurrencySemaphore.getD 0
  | .taskTracker => 1

/-- States of the system with this many clients. -/
abbrev State (count : ℕ) :=
  Async.World system.machines.Phase (ServerEffect.Answer Snark EvmProof)
    (Except String (ProverProof Snark EvmProof)) SchedulerResource SchedulerTaskTracker count

/-- The states that the system reaches while the tasks of its clients take turns. -/
def Reaches {count : ℕ} (clients : Fin count → SchedulerClient) : system.State count → Prop :=
  system.machines.Reaches (applyLeft SchedulerTaskTracker.apply)
    (system.machines.initial system.capacity .new fun i => system.spawn (clients i))

/-- What a client does in the system: its tasks exchange something with the dispatcher, or an effect
is answered. -/
abbrev Log (_system : SchedulerSystem Snark EvmProof Params) :=
  List (Deed (ServerEffect Snark EvmProof) (ServerEffect.Answer Snark EvmProof)
    (Exchange Snark EvmProof))

/-- The states that the system reaches, with what each of the clients has done. -/
def Runs {count : ℕ} (clients : Fin count → SchedulerClient) :
    (Fin count → system.Log) → system.State count → Prop :=
  system.machines.Runs (applyLeft SchedulerTaskTracker.apply) system.capacity .new
    fun i => system.spawn (clients i)

/-! ## What the effects keep -/

/-- What is known of an effect: an execution has come to its phase, and a submission is within its
attempts. -/
def Known : (e : ServerEffect Snark EvmProof) → e.Phase Params → Prop
  | .inl (.submit _ _), _ => True
  | .inl (.await _ proof), phase =>
      ∃ exchanges, system.executor.Comes system.dispatcher proof exchanges phase
  | .inl (.record _ _ _ _), _ => True
  | .inr _, phase => FulfillPhase.Within phase

/-- How far an effect is from its end. -/
def rank : (e : ServerEffect Snark EvmProof) → e.Phase Params → ℕ
  | .inl (.submit _ _), _ => 0
  | .inl (.await _ _), phase => ExecutePhase.rank phase
  | .inl (.record _ _ _ _), LockPhase.locking => 1
  | .inl (.record _ _ _ _), LockPhase.locked => 0
  | .inr _, phase => FulfillPhase.rank phase

/-- Whether an effect is an execution that has sent its task and waits for it. -/
def inFlight : (e : ServerEffect Snark EvmProof) → e.Phase Params → ℕ
  | .inl (.submit _ _), _ => 0
  | .inl (.await _ _), phase => (ExecutePhase.inFlight phase).toNat
  | .inl (.record _ _ _ _), _ => 0
  | .inr _, _ => 0

/-- Whether an effect uses the tracker. -/
def usesTracker : (e : ServerEffect Snark EvmProof) → e.Phase Params → ℕ
  | .inl (.submit _ _), _ => 0
  | .inl (.await _ _), _ => 0
  | .inl (.record _ _ _ _), LockPhase.locking => 0
  | .inl (.record _ _ _ _), LockPhase.locked => 1
  | .inr _, phase => (FulfillPhase.locks phase).toNat

variable {system : SchedulerSystem Snark EvmProof Params}

/-- After an attempt a submission has ended, or the attempt has failed and is not the last one. -/
theorem afterSend_cases (tasks : List (String × NodeParams)) (params : Params) (failures : ℕ)
    (result : SendResult) :
    (∃ outcome, FulfillPhase.afterSend tasks params failures result = .finished outcome) ∨
      failures + 1 < retrySendThreshold ∧
        FulfillPhase.afterSend tasks params failures result =
          .fulfilling tasks params (failures + 1) := by
  cases result with
  | ok txHash => exact .inl ⟨_, rfl⟩
  | panicked => exact .inl ⟨_, rfl⟩
  | err =>
      by_cases hlast : failures + 1 < retrySendThreshold
      · exact .inr ⟨hlast, if_pos hlast⟩
      · exact .inl ⟨_, if_neg hlast⟩

/-- A submission stays within its attempts. -/
theorem within_of_work {client : ContractClient EvmProof Params} {effect : FulfillEffect EvmProof}
    {tracker : SchedulerTaskTracker} {phase phase' : FulfillPhase Params}
    (h : FulfillPhase.Work client effect tracker phase phase') : phase'.Within := by
  cases h with
  | lock => trivial
  | noTasks _ => trivial
  | noSummary _ => trivial
  | noParams _ _ => trivial
  | summarised _ _ => exact Nat.zero_lt_succ _
  | @send tasks params failures result _ =>
      rcases afterSend_cases tasks params failures result with ⟨outcome, heq⟩ | ⟨hlast, heq⟩
      · rw [heq]
        trivial
      · rw [heq]
        exact hlast

/-- The effects are answered as the scheduler promises. -/
theorem keeps (system : SchedulerSystem Snark EvmProof Params) :
    system.machines.Keeps system.Known
      (eitherAnswers system.scheduler.Answers fun _ _ => True) where
  start e := by
    cases e with
    | inl e =>
        cases e with
        | submit node task => trivial
        | await node task => exact ⟨[], .start⟩
        | record id node taskId params => trivial
    | inr effect => trivial
  work e tracker phase exchanges phase' hphase hwork := by
    cases e with
    | inl e =>
        cases e with
        | submit node task => trivial
        | await node task =>
            obtain ⟨earlier, hcomes⟩ := hphase
            exact ⟨_, hcomes.work hwork⟩
        | record id node taskId params => trivial
    | inr effect => exact within_of_work hwork.2
  answer e tracker phase a hphase hanswer := by
    cases e with
    | inl e =>
        cases e with
        | submit node task => trivial
        | await node task =>
            cases hanswer
            exact hphase
        | record id node taskId params => trivial
    | inr effect => trivial

/-- A submission that has not ended gets closer to its end, and only at first it takes the lock. -/
theorem exists_fulfillWork {client : ContractClient EvmProof Params}
    (hclient : ∀ params, ∃ result, client.fulfill params result) (effect : FulfillEffect EvmProof)
    (tracker : SchedulerTaskTracker) {phase : FulfillPhase Params} (hphase : phase.Within) :
    (∃ outcome, phase = .finished outcome) ∨
      ∃ phase', FulfillPhase.Work client effect tracker phase phase' ∧ phase'.rank < phase.rank ∧
        ((phase'.locks = true → phase.locks = true) ∨ phase.locks = false) := by
  cases phase with
  | locking => exact .inr ⟨_, .lock, Nat.lt_succ_self _, .inr rfl⟩
  | locked =>
      cases htasks : tracker.requestIdToTasks effect.requestId with
      | none => exact .inr ⟨_, .noTasks htasks, Nat.zero_lt_succ _, .inl nofun⟩
      | some tasks => exact .inr ⟨_, .noSummary htasks, Nat.zero_lt_succ _, .inl nofun⟩
  | fulfilling tasks params failures =>
      have hfailures : failures < 5 := hphase
      obtain ⟨result, hresult⟩ := hclient params
      refine .inr ⟨_, .send hresult, ?_, .inl fun _ => rfl⟩
      show _ < 6 - failures
      rcases afterSend_cases tasks params failures result with ⟨outcome, heq⟩ | ⟨-, heq⟩
      · rw [heq]
        show 0 < 6 - failures
        omega
      · rw [heq]
        show 6 - (failures + 1) < 6 - failures
        omega
  | finished outcome => exact .inl ⟨outcome, rfl⟩

/-- A semaphore has at least one permit. -/
theorem toNat_isSome_le (hnew : ∃ join concurrency force,
      system.executor = .new join concurrency force) :
    system.executor.proofConcurrencySemaphore.isSome.toNat ≤
      system.executor.proofConcurrencySemaphore.getD 0 := by
  obtain ⟨join, concurrency, force, heq⟩ := hnew
  rw [heq]
  by_cases hzero : concurrency = 0
  · simp [DispatcherExecutor.new, hzero]
  · have hpos : 1 ≤ concurrency := Nat.one_le_iff_ne_zero.mpr hzero
    simpa [DispatcherExecutor.new, hzero] using hpos

/-- No effect waits for a permit or for the lock while it has one of them. -/
theorem progresses (hnew : ∃ join concurrency force,
      system.executor = .new join concurrency force) (hresponsive : system.dispatcher.Responsive)
    (hclient : ∀ params, ∃ result, system.contractClient.fulfill params result) :
    system.machines.Progresses system.capacity system.Known rank where
  next e tracker phase hphase := by
    cases e with
    | inl e =>
        cases e with
        | submit node task => exact .inl ⟨(), trivial⟩
        | await node task =>
            rcases DispatcherExecutor.exists_work hresponsive phase with
              ⟨result, rfl⟩ | ⟨exchanges, phase', hwork, hrank, hheld⟩
            · exact .inl ⟨result, rfl⟩
            · refine .inr ⟨exchanges, phase', hwork, hrank, ?_⟩
              rcases hheld with hheld | ⟨rfl, hheld⟩
              · refine .inl fun r => ?_
                cases r with
                | permit => exact Bool.toNat_le_toNat hheld
                | taskTracker => exact le_rfl
              · refine .inr fun r => ?_
                cases r with
                | permit =>
                    refine ⟨rfl, ?_⟩
                    show phase'.holdsPermit.toNat ≤ system.executor.proofConcurrencySemaphore.getD 0
                    rw [hheld]
                    exact toNat_isSome_le hnew
                | taskTracker => exact ⟨rfl, Nat.zero_le _⟩
        | record id node taskId params =>
            cases phase with
            | locking =>
                refine .inr ⟨[], LockPhase.locked, ⟨rfl, rfl, rfl⟩, Nat.lt_succ_self _,
                  .inr fun r => ?_⟩
                cases r with
                | permit => exact ⟨rfl, Nat.zero_le _⟩
                | taskTracker => exact ⟨rfl, le_rfl⟩
            | locked => exact .inl ⟨(), rfl⟩
    | inr effect =>
        rcases exists_fulfillWork hclient effect tracker hphase with
          ⟨outcome, rfl⟩ | ⟨phase', hwork, hrank, hheld⟩
        · exact .inl ⟨outcome, rfl⟩
        · refine .inr ⟨[], phase', ⟨rfl, hwork⟩, hrank, ?_⟩
          rcases hheld with hheld | hnone
          · refine .inl fun r => ?_
            cases r with
            | permit => exact le_rfl
            | taskTracker => exact Bool.toNat_le_toNat hheld
          · refine .inr fun r => ?_
            cases r with
            | permit => exact ⟨rfl, Nat.zero_le _⟩
            | taskTracker => exact ⟨congrArg Bool.toNat hnone, Bool.toNat_le _⟩

end SchedulerSystem

end WorldcoinAggregation
