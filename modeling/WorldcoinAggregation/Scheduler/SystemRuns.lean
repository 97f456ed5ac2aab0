import WorldcoinAggregation.Scheduler.SchedulerSystem

/-!
# Runs of the scheduler server

However the tasks of the clients take turns and whatever the dispatcher and the contract respond,
the handlers do what they do when their effects are answered at once (`refines_serves`), so what is
known of the tracker holds of the system. No more tasks are in flight than there are permits, one
client at a time uses the tracker, and nothing is lost (`resources_bounded`). From every state that
is reached, all clients can be served (`exists_ended`).
-/

namespace WorldcoinAggregation

open Fallible Async

variable {Snark EvmProof Params : Type} {system : SchedulerSystem Snark EvmProof Params} {count : ℕ}
  {clients : Fin count → SchedulerClient} {w : system.State count}

namespace SchedulerSystem

/-! ## What the handlers do -/

variable {others : (e : FulfillEffect EvmProof) → FulfillOutcome → Prop}
  {tr evs : List (Event (ServerEffect Snark EvmProof) (ServerEffect.Answer Snark EvmProof))}
  {q q' : ServerProg Snark EvmProof}

/-- What is done with a result is nothing, or the submission of a proof and then nothing. -/
theorem fulfill_cases {client : SchedulerClient}
    {result : Except String (ProverProof Snark EvmProof)}
    (hrun :
      Async.Run (eitherAnswers system.scheduler.Answers others) (fulfill client result) tr q) :
    q.Final ∨ ∃ proof, result = .ok (.evmProof proof) ∧ q = fulfill client result := by
  cases result with
  | error message =>
      obtain ⟨-, rfl⟩ := hrun.of_final (.inl rfl)
      exact .inl (.inl rfl)
  | ok proof =>
      cases proof with
      | snark snark =>
          obtain ⟨-, rfl⟩ := hrun.of_final (.inl rfl)
          exact .inl (.inl rfl)
      | evmProof proof =>
          rcases hrun.of_call with ⟨-, rfl⟩ | ⟨outcome, rest, -, -, hrest⟩
          · exact .inr ⟨proof, rfl, rfl⟩
          · refine .inl ?_
            cases outcome with
            | fulfilled txHash =>
                obtain ⟨-, rfl⟩ := hrest.of_final (.inr ⟨_, rfl⟩)
                exact .inr ⟨_, rfl⟩
            | gaveUp =>
                obtain ⟨-, rfl⟩ := hrest.of_final (.inr ⟨_, rfl⟩)
                exact .inr ⟨_, rfl⟩
            | panicked =>
                obtain ⟨-, rfl⟩ := hrest.of_final (.inl rfl)
                exact .inl rfl

/-- What is done with a result awaits nothing of the scheduler. -/
theorem leftEvents_fulfill {client : SchedulerClient}
    {result : Except String (ProverProof Snark EvmProof)}
    (hrun : Async.Run (eitherAnswers system.scheduler.Answers others) (fulfill client result) tr q)
    (hstep : Async.Step (eitherAnswers system.scheduler.Answers others) q evs q') :
    leftEvents evs = [] := by
  rcases fulfill_cases hrun with (rfl | ⟨result, rfl⟩) | ⟨proof, rfl, rfl⟩
  · cases hstep
  · cases hstep
  · cases hstep
    rfl

/-- Handlers that take turns are served. -/
theorem serves_of_runAll {handlers : Fin count → SchedulerProg Snark EvmProof}
    {tr : List (SchedulerEvent Snark EvmProof)}
    (h : RunAll system.scheduler.Answers (fun i => system.scheduler.handler (clients i)) tr
      handlers) :
    system.scheduler.Serves clients handlers (tr.foldl SchedulerTaskTracker.apply .new) := by
  induction h with
  | refl => exact .init
  | step _ hstep ih =>
      rw [List.foldl_append]
      exact ih.step hstep

/-- In a state that the system reaches, every handler has come to where it comes when its effects
are answered at once, or it has returned and its result is dealt with. The tracker is the same. -/
theorem exists_serves (h : system.Reaches clients w) :
    ∃ handlers : Fin count → SchedulerProg Snark EvmProof,
      system.scheduler.Serves clients handlers w.memory ∧
      ∀ i, (w.lives i).prog = (handlers i).followedBy (fulfill (clients i)) ∨
        ∃ result tr, handlers i = .ret result ∧
          Async.Run (eitherAnswers system.scheduler.Answers fun _ _ => True)
            (fulfill (clients i) result) tr (w.lives i).prog := by
  obtain ⟨-, tr, hrun, hmemory⟩ := Machines.exists_runAll system.keeps h
  obtain ⟨handlers, hhandlers, hprogs⟩ :=
    RunAll.of_followedBy (fun _ _ _ _ _ _ => leftEvents_fulfill) hrun
  rw [foldl_applyLeft] at hmemory
  refine ⟨handlers, ?_, hprogs⟩
  rw [hmemory]
  exact serves_of_runAll hhandlers

/-- An execution comes to its phases with no more than there is. -/
theorem path_of_comes (hnew : ∃ join concurrency force,
      system.executor = .new join concurrency force) {node : RecursiveRequest}
    {proof : ProverTask Snark} {phase : ExecutePhase Snark EvmProof}
    {exchanges : List (Exchange Snark EvmProof)}
    (h : system.executor.Comes system.dispatcher proof exchanges phase) :
    Relation.ReflTransGen (fun phase phase' : ExecutePhase Snark EvmProof =>
      (∃ more, system.executor.Work system.dispatcher proof phase more phase') ∧
        ∀ r, system.machines.held (.inl (.await node proof)) phase' r ≤ system.capacity r)
      .acquiring phase := by
  induction h with
  | start => exact .refl
  | @work exchanges more phase phase' hcomes hwork ih =>
      refine ih.tail ⟨⟨more, hwork⟩, fun r => ?_⟩
      cases r with
      | taskTracker => exact Nat.zero_le _
      | permit =>
          have hcomes' := hcomes.work hwork
          have hle : phase'.holdsPermit.toNat ≤
              system.executor.proofConcurrencySemaphore.isSome.toNat := by
            refine Bool.toNat_le_toNat fun hpermit => ?_
            rw [← hcomes'.holdsPermit (DispatcherExecutor.inFlight_of_holdsPermit hpermit)]
            exact hpermit
          exact hle.trans (toNat_isSome_le hnew)

/-- The machines can give every answer that the scheduler awaits. -/
theorem realises (hnew : ∃ join concurrency force,
      system.executor = .new join concurrency force) :
    system.machines.Realises system.capacity
      (eitherAnswers system.scheduler.Answers fun _ _ => False) where
  answer e tracker a ha := by
    cases e with
    | inr effect => cases ha
    | inl e =>
        cases e with
        | submit node task => exact ⟨(), .refl, trivial⟩
        | await node task =>
            obtain ⟨exchanges, hcomes⟩ := ha
            exact ⟨ExecutePhase.returned a, path_of_comes hnew hcomes, rfl⟩
        | record id node taskId params =>
            refine ⟨LockPhase.locked, .single ⟨⟨[], rfl, rfl, rfl⟩, fun r => ?_⟩, rfl⟩
            cases r with
            | permit => exact Nat.zero_le _
            | taskTracker => exact le_rfl

/-- Where handlers come when their effects are answered at once, they come in the system, with
everything given back. -/
theorem reaches_of_serves (hnew : ∃ join concurrency force,
      system.executor = .new join concurrency force)
    {handlers : Fin count → SchedulerProg Snark EvmProof} {tracker : SchedulerTaskTracker}
    (h : system.scheduler.Serves clients handlers tracker) :
    system.Reaches clients ⟨fun i => system.machines.launch
      ((handlers i).followedBy (fulfill (clients i))), system.capacity, tracker⟩ := by
  obtain ⟨tr, hrun, rfl⟩ := h.exists_runAll
  have hspawned : RunAll (eitherAnswers system.scheduler.Answers fun _ _ => False)
      (fun i => system.spawn (clients i)) (tr.map Event.left)
      fun i => (handlers i).followedBy (fulfill (clients i)) := hrun.followedBy
  have hreaches : system.Reaches clients ⟨fun i => system.machines.launch
      ((handlers i).followedBy (fulfill (clients i))), system.capacity,
        (tr.map Event.left).foldl (applyLeft SchedulerTaskTracker.apply) .new⟩ :=
    (realises hnew).reaches hspawned
  rw [foldl_applyLeft, leftEvents_map_left] at hreaches
  exact hreaches

/-- The system does what its handlers do when their effects are answered at once: in every state
that it reaches, every handler has come to where it comes then, or it has returned and its result is
dealt with, and the tracker is the same. And where the handlers come then, they come in the system,
with all permits and the lock given back. -/
theorem refines_serves (hnew : ∃ join concurrency force,
      system.executor = .new join concurrency force) :
    (∀ w : system.State count, system.Reaches clients w →
      ∃ handlers : Fin count → SchedulerProg Snark EvmProof,
        system.scheduler.Serves clients handlers w.memory ∧
        ∀ i, (w.lives i).prog = (handlers i).followedBy (fulfill (clients i)) ∨
          ∃ result tr, handlers i = .ret result ∧
            Async.Run (eitherAnswers system.scheduler.Answers fun _ _ => True)
              (fulfill (clients i) result) tr (w.lives i).prog) ∧
    ∀ (handlers : Fin count → SchedulerProg Snark EvmProof) (tracker : SchedulerTaskTracker),
      system.scheduler.Serves clients handlers tracker →
        system.Reaches clients ⟨fun i => system.machines.launch
          ((handlers i).followedBy (fulfill (clients i))), system.capacity, tracker⟩ :=
  ⟨fun _ h => exists_serves h, fun _ _ h => reaches_of_serves hnew h⟩

/-! ### Two clients -/

/-- A system with a single permit. Its dispatcher names a task by its circuit and where its claims
start, and hands out its proof under this name, or does not respond. -/
def pairSystem : SchedulerSystem (List ℕ) (List ℕ) (List ℕ) where
  executor := .new .ok 1 false
  dispatcher :=
    ⟨fun request response =>
        response = .value (AsyncScheduler.pairTaskId request.circuitId request.request),
      fun _ response => response = .value .pending ∨ response = .value .done,
      fun taskId response => response = .unsent ∨ ∃ task proof,
        taskId = AsyncScheduler.pairTaskId task.circuitId task.request ∧
          AsyncScheduler.startsProver.prove task = .ok proof ∧ response = .value proof⟩
  contractClient := ⟨fun _ proof => .ok proof, fun _ _ => True⟩
  circuitIdRepo := SchedulerServer.cidsRepo AsyncScheduler.pairCids
  cidToParams := SchedulerServer.cidToParams AsyncScheduler.pairCids
  vk := soleVk

/-- The executor has a single permit. -/
theorem new_pairSystem :
    ∃ join concurrency force, pairSystem.executor = .new join concurrency force :=
  ⟨.ok, 1, false, rfl⟩

/-- The dispatcher responds, and it may finish every task. -/
theorem responsive_pairSystem : pairSystem.dispatcher.Responsive := by
  refine ⟨fun _ => ⟨_, rfl⟩, fun _ => ⟨.value .done, .inr rfl, ?_⟩, fun _ => ⟨.unsent, .inl rfl⟩⟩
  intro status hstatus
  cases hstatus
  exact .inl rfl

/-- Two clients that send the same three claims. -/
def pairClients (i : Fin 2) : SchedulerClient :=
  AsyncScheduler.pairClient (i = 0)

/-- A task is created and polled. -/
theorem comes_waiting (task : ProverTask (List ℕ)) : ∃ exchanges,
    pairSystem.executor.Comes pairSystem.dispatcher task exchanges
      (.waiting true (AsyncScheduler.pairTaskId task.circuitId task.request)) := by
  have hcreating : pairSystem.executor.Comes pairSystem.dispatcher task [] (.creating true) :=
    DispatcherExecutor.Comes.work .start .acquire
  have htasks : pairSystem.dispatcher.tasks (pairSystem.executor.tasksRequest task)
      (.value (AsyncScheduler.pairTaskId task.circuitId task.request)) := rfl
  exact ⟨_, hcreating.work (.create htasks)⟩

/-- The executor answers with the proof of the task. -/
theorem execute_pairSystem {task : ProverTask (List ℕ)} {proof : ProverProof (List ℕ) (List ℕ)}
    (hprove : AsyncScheduler.startsProver.prove task = .ok proof) :
    pairSystem.scheduler.executor.execute task
      (.ok ⟨AsyncScheduler.pairTaskId task.circuitId task.request, proof⟩) := by
  obtain ⟨exchanges, hwaiting⟩ := comes_waiting task
  have hstatus : pairSystem.dispatcher.status
      (AsyncScheduler.pairTaskId task.circuitId task.request) (.value .done) := .inr rfl
  have hretrieving := hwaiting.work (.poll hstatus)
  have hsnark : pairSystem.dispatcher.snark
      (AsyncScheduler.pairTaskId task.circuitId task.request) (.value proof) :=
    .inr ⟨task, proof, rfl, hprove, rfl⟩
  exact ⟨_, hretrieving.work (.retrieve hsnark)⟩

/-- What a handler does depends on the circuits of the scheduler, not on its executor. -/
theorem recursiveGenProof_congr {scheduler scheduler' : AsyncScheduler Snark EvmProof}
    (hrepo : scheduler.circuitIdRepo = scheduler'.circuitIdRepo)
    (hparams : scheduler.cidToParams = scheduler'.cidToParams)
    (hvk : scheduler.vk = scheduler'.vk) (requestId : String) (fuel : ℕ) :
    scheduler.recursiveGenProof requestId fuel = scheduler'.recursiveGenProof requestId fuel := by
  induction fuel with
  | zero => rfl
  | succ fuel ih =>
      funext req isEvmProof
      simp only [AsyncScheduler.recursiveGenProof, AsyncScheduler.getCircuitId,
        AsyncScheduler.postProofGenProcessing, ih, hrepo, hparams, hvk]

/-- The first client may succeed while the other awaits the answer to its last task. -/
theorem exists_serves_pair : ∃ handlers tracker task,
    pairSystem.scheduler.Serves pairClients handlers tracker ∧
      handlers 0 = .ret (.ok (.evmProof [0, 1, 2, 2])) ∧
      (handlers 1).Awaits (.await (soleRequest 3 ⟨.evm 0, 2, 0⟩) task) := by
  have hle (e : SchedulerEffect (List ℕ)) (a : e.Answer (List ℕ))
      (ha : AsyncScheduler.pairScheduler.Answers e a) : pairSystem.scheduler.Answers e a := by
    cases e with
    | submit node task => trivial
    | await node task =>
        obtain rfl : a = _ := ha
        obtain ⟨circuitId, isEvmProof, request⟩ := task
        cases isEvmProof <;> cases request <;> exact execute_pairSystem rfl
    | record id node taskId params => trivial
  have hhandler (i : Fin 2) : pairSystem.scheduler.handler (pairClients i) =
      AsyncScheduler.pairScheduler.handler (pairClients i) :=
    congrFun (congrFun (recursiveGenProof_congr rfl rfl rfl _ _) _) _
  obtain ⟨front, back, q, -, hfront, -, hback⟩ := AsyncScheduler.exists_pairRun true
  obtain ⟨front', -, q', task, hfront', hawaits, -⟩ := AsyncScheduler.exists_pairRun false
  have hfirst : Async.Run pairSystem.scheduler.Answers
      (pairSystem.scheduler.handler (pairClients 0)) front q := by
    rw [hhandler]
    exact hfront.mono hle
  have hsecond : Async.Run pairSystem.scheduler.Answers
      (pairSystem.scheduler.handler (pairClients 1)) front' q' := by
    rw [hhandler]
    exact hfront'.mono hle
  -- the second client goes on while the first one waits
  have hboth := (AsyncScheduler.Serves.run .init hfirst).run (i := 1) hsecond
  exact ⟨_, _, task, hboth.run (i := 0) (hback.mono hle), Function.update_self _ _ _, hawaits⟩

/-- While the task of the second client is in flight, the first one may lock the tracker. -/
theorem exists_reaches_locked : ∃ (w : pairSystem.State 2) (effect : FulfillEffect (List ℕ))
    (k : FulfillOutcome → ServerProg (List ℕ) (List ℕ)), pairSystem.Reaches pairClients w ∧
      w.lives 0 = .running (.inr effect) FulfillPhase.locked k ∧
      1 ≤ (w.lives 1).total inFlight := by
  obtain ⟨handlers, tracker, task, hserves, hreturned, hawaits⟩ := exists_serves_pair
  have hreaches := reaches_of_serves new_pairSystem hserves
  -- the second client creates its task
  obtain ⟨exchanges, hwaiting⟩ := comes_waiting task
  let e : ServerEffect (List ℕ) (List ℕ) := .inl (.await (soleRequest 3 ⟨.evm 0, 2, 0⟩) task)
  let phase : pairSystem.machines.Phase e :=
    ExecutePhase.waiting true (AsyncScheduler.pairTaskId task.circuitId task.request)
  let free : SchedulerResource → ℕ := fun r =>
    pairSystem.capacity r - pairSystem.machines.held e phase r
  have hpath : Relation.ReflTransGen (fun phase phase' =>
      (∃ more, pairSystem.machines.work e tracker phase more phase') ∧
        ∀ r, pairSystem.machines.held e phase' r ≤ pairSystem.capacity r)
      (pairSystem.machines.start e) phase := path_of_comes new_pairSystem hwaiting
  obtain ⟨second, hworks, htotal⟩ := Machines.exists_works_of_path hpath
    (hawaits.followedBy (f := fulfill (pairClients 1)))
  have hcreated := hreaches.trans (Machines.Works.reaches (i := 1) hworks)
  -- the first client locks the tracker
  let lives : Fin 2 → Live pairSystem.machines.Phase (ServerEffect.Answer (List ℕ) (List ℕ))
      (Except String (ProverProof (List ℕ) (List ℕ))) := fun i =>
    pairSystem.machines.launch ((handlers i).followedBy (fulfill (pairClients i)))
  have hfirst : Function.update lives 1 second 0 =
      pairSystem.machines.launch (fulfill (pairClients 0) (.ok (.evmProof [0, 1, 2, 2]))) := by
    rw [Function.update_of_ne (by decide)]
    show pairSystem.machines.launch ((handlers 0).followedBy (fulfill (pairClients 0))) = _
    rw [hreturned]
    rfl
  have hlock : ∃ deeds p free', pairSystem.machines.Step tracker
      (Function.update lives 1 second 0) free deeds p free' ∧
        ∃ effect k, p = .running (.inr effect) FulfillPhase.locked k := by
    have hwork : pairSystem.machines.work (.inr ⟨"first", (pairClients 0).req, [0, 1, 2, 2]⟩)
        tracker FulfillPhase.locking [] FulfillPhase.locked := ⟨rfl, .lock⟩
    rw [hfirst]
    refine ⟨_, _, _, .work hwork fun r => ?_, _, _, rfl⟩
    cases r with
    | permit => exact Nat.zero_le _
    | taskTracker => exact le_rfl
  obtain ⟨deeds, p, free', hstep, effect, k, rfl⟩ := hlock
  have hsecond : Function.update (Function.update lives 1 second) 0
      (.running (.inr effect) FulfillPhase.locked k) 1 = second := by
    rw [Function.update_of_ne (by decide), Function.update_self]
  refine ⟨_, effect, k, hcreated.tail (.step hstep), Function.update_self _ _ _, ?_⟩
  exact hsecond ▸ htotal inFlight

/-- What the handlers of two clients do is what they do in the system, and the other way round:
while the first client has locked the tracker after its success and a task of the second is in
flight, its handler awaits the answer. -/
theorem refines_serves_pair :
    (∃ handlers tracker task, pairSystem.scheduler.Serves pairClients handlers tracker ∧
      handlers 0 = .ret (.ok (.evmProof [0, 1, 2, 2])) ∧
      (handlers 1).Awaits (.await (soleRequest 3 ⟨.evm 0, 2, 0⟩) task) ∧
      pairSystem.Reaches pairClients ⟨fun i => pairSystem.machines.launch
        ((handlers i).followedBy (fulfill (pairClients i))), pairSystem.capacity, tracker⟩) ∧
    ∃ (w : pairSystem.State 2) (handlers : Fin 2 → SchedulerProg (List ℕ) (List ℕ)),
      pairSystem.Reaches pairClients w ∧ 1 ≤ (w.lives 1).total inFlight ∧
        pairSystem.scheduler.Serves pairClients handlers w.memory ∧
        ∀ i, (w.lives i).prog = (handlers i).followedBy (fulfill (pairClients i)) ∨
          ∃ result tr, handlers i = .ret result ∧
            Async.Run (eitherAnswers pairSystem.scheduler.Answers fun _ _ => True)
              (fulfill (pairClients i) result) tr (w.lives i).prog := by
  obtain ⟨handlers, tracker, task, hserves, hreturned, hawaits⟩ := exists_serves_pair
  obtain ⟨w, -, -, hreaches, -, hflight⟩ := exists_reaches_locked
  obtain ⟨handlers', hserves', hprogs⟩ := (refines_serves new_pairSystem).1 w hreaches
  exact ⟨⟨handlers, tracker, task, hserves, hreturned, hawaits,
    (refines_serves new_pairSystem).2 handlers tracker hserves⟩,
    w, handlers', hreaches, hflight, hserves', hprogs⟩

/-! ## Permits and the lock -/

/-- An execution whose task is in flight holds a permit if there is a semaphore. -/
theorem inFlight_le (hsemaphore : system.executor.proofConcurrencySemaphore.isSome = true)
    (e : ServerEffect Snark EvmProof) (phase : e.Phase Params) (hphase : system.Known e phase) :
    inFlight e phase ≤ held e phase .permit := by
  cases e with
  | inl e =>
      cases e with
      | submit node task => exact le_rfl
      | await node task =>
          have hpermit : ExecutePhase.inFlight phase = true →
              ExecutePhase.holdsPermit phase = true := by
            obtain ⟨exchanges, hcomes⟩ := hphase
            exact fun hflight => (hcomes.holdsPermit hflight).trans hsemaphore
          exact Bool.toNat_le_toNat hpermit
      | record id node taskId params => cases phase <;> exact Nat.le_refl 0
  | inr effect => exact le_rfl

/-- An effect that uses the tracker holds its lock. -/
theorem usesTracker_le (e : ServerEffect Snark EvmProof) (phase : e.Phase Params) :
    usesTracker e phase ≤ held e phase .taskTracker := by
  cases e with
  | inl e =>
      cases e with
      | submit node task => exact le_rfl
      | await node task => exact le_rfl
      | record id node taskId params => cases phase <;> exact le_rfl
  | inr effect => exact le_rfl

/-- What has ended holds nothing. -/
theorem holds_of_final {p : Live system.machines.Phase (ServerEffect.Answer Snark EvmProof)
      (Except String (ProverProof Snark EvmProof))} (hp : p.Final) (r : SchedulerResource) :
    system.machines.holds p r = 0 := by
  rcases hp with rfl | ⟨result, rfl⟩
  · rfl
  · rfl

/-- There are never more executions between sending the request that creates their task and the end
of the waiting for it than there are permits, at most one effect uses the tracker, and when all
clients are done, whatever went wrong, everything has been given back. -/
theorem resources_bounded (h : system.Reaches clients w) :
    (∀ permits, system.executor.proofConcurrencySemaphore = some permits →
      ∑ i, (w.lives i).total inFlight ≤ permits) ∧
    ∑ i, (w.lives i).total usesTracker ≤ 1 ∧
    ((∀ i, (w.lives i).Final) → w.free = system.capacity) := by
  have hconserved := Machines.conserved_of_initial h
  have hall := (Machines.exists_runAll system.keeps h).1
  refine ⟨fun permits hpermits => ?_, ?_, fun hfinal => funext fun r => ?_⟩
  · have hsemaphore : system.executor.proofConcurrencySemaphore.isSome = true := by
      rw [hpermits]
      rfl
    have hle : ∑ i, (w.lives i).total inFlight ≤ ∑ i, system.machines.holds (w.lives i) .permit :=
      Finset.sum_le_sum fun i _ => Live.total_le (inFlight_le hsemaphore) (hall i)
    have hcapacity : system.capacity .permit = permits := by
      show system.executor.proofConcurrencySemaphore.getD 0 = permits
      rw [hpermits]
      rfl
    have hpermit := hconserved .permit
    omega
  · have hle : ∑ i, (w.lives i).total usesTracker ≤
        ∑ i, system.machines.holds (w.lives i) .taskTracker :=
      Finset.sum_le_sum fun i _ => Live.total_le (fun e phase _ => usesTracker_le e phase) (hall i)
    have hlock := hconserved .taskTracker
    have hone : system.capacity .taskTracker = 1 := rfl
    omega
  · have hnone : ∑ i, system.machines.holds (w.lives i) r = 0 :=
      Finset.sum_eq_zero fun i _ => holds_of_final (hfinal i) r
    have hfree := hconserved r
    omega

/-- While the first client has locked the tracker and the second waits for its task, the lock and
the only permit are taken. -/
theorem resources_bounded_pair : ∃ w : pairSystem.State 2, pairSystem.Reaches pairClients w ∧
    (w.lives 0).total usesTracker = 1 ∧ (w.lives 1).total inFlight = 1 ∧
      ∑ i, (w.lives i).total usesTracker ≤ 1 ∧ ∑ i, (w.lives i).total inFlight ≤ 1 := by
  obtain ⟨w, effect, k, hreaches, hlocked, hflight⟩ := exists_reaches_locked
  obtain ⟨hbound, htracker, -⟩ := resources_bounded hreaches
  have hbound := hbound 1 rfl
  have hone : (w.lives 1).total inFlight ≤ ∑ i, (w.lives i).total inFlight :=
    Finset.single_le_sum (f := fun i => (w.lives i).total inFlight)
      (fun _ _ => Nat.zero_le _) (Finset.mem_univ 1)
  have hlocks : (w.lives 0).total usesTracker = 1 := by
    rw [hlocked]
    rfl
  exact ⟨w, hreaches, hlocks, le_antisymm (hone.trans hbound) hflight, htracker, hbound⟩

/-! ## Serving every client -/

/-- From every state that is reached, all clients can be served, if the dispatcher responds and may
finish every task, and something becomes of every transaction. -/
theorem exists_ended (hnew : ∃ join concurrency force,
      system.executor = .new join concurrency force) (hresponsive : system.dispatcher.Responsive)
    (hclient : ∀ params, ∃ result, system.contractClient.fulfill params result)
    (h : system.Reaches clients w) :
    ∃ w' : system.State count,
      system.machines.Reaches (applyLeft SchedulerTaskTracker.apply) w w' ∧
        ∀ i, (w'.lives i).Final :=
  Machines.exists_final system.keeps (progresses hnew hresponsive hclient) h

/-- With a single permit, while the first client has locked the tracker and the second waits for its
task, both clients can be served. -/
theorem exists_ended_pair : ∃ w w' : pairSystem.State 2, pairSystem.Reaches pairClients w ∧
    (w.lives 0).total usesTracker = 1 ∧ 1 ≤ (w.lives 1).total inFlight ∧
      pairSystem.machines.Reaches (applyLeft SchedulerTaskTracker.apply) w w' ∧
        ∀ i, (w'.lives i).Final := by
  obtain ⟨w, effect, k, hreaches, hlocked, hflight⟩ := exists_reaches_locked
  have hlocks : (w.lives 0).total usesTracker = 1 := by
    rw [hlocked]
    rfl
  obtain ⟨w', hended, hfinal⟩ := exists_ended new_pairSystem responsive_pairSystem
    (fun params => ⟨.err, trivial⟩) hreaches
  exact ⟨w, w', hreaches, hlocks, hflight, hended, hfinal⟩

end SchedulerSystem

end WorldcoinAggregation
