import WorldcoinAggregation.Scheduler.SystemRuns

/-!
# Summaries

When the request of a client has been proven, the scheduler server locks the task tracker, dumps the
entries of the request as a summary and submits the proof, all under the lock. The summary is what
the tracker holds for the request until the submission ends, and it is complete
(`summary_complete`).
-/

namespace WorldcoinAggregation

open Fallible Async

variable {Snark EvmProof Params : Type} {system : SchedulerSystem Snark EvmProof Params} {count : ℕ}
  {clients : Fin count → SchedulerClient} {w : system.State count}
  {deeds : system.Log} {q : ServerProg Snark EvmProof}

namespace SchedulerSystem

/-- A submission is that of the proof that the handler of the client has returned. -/
theorem exists_proof {client : SchedulerClient} {handler : SchedulerProg Snark EvmProof}
    {effect : FulfillEffect EvmProof} {k : FulfillOutcome → ServerProg Snark EvmProof}
    (hprog : q = handler.followedBy (fulfill client) ∨ ∃ result tr, handler = .ret result ∧
      Async.Run (eitherAnswers system.scheduler.Answers fun _ _ => True)
        (fulfill client result) tr q) (hq : q = .call (.inr effect) k) :
    ∃ proof, handler = .ret (.ok (.evmProof proof)) ∧
      effect = ⟨client.requestId, client.req, proof⟩ := by
  have hreturned : ∃ result tr, handler = .ret result ∧
      Async.Run (eitherAnswers system.scheduler.Answers fun _ _ => True)
        (fulfill client result) tr q := by
    rcases hprog with heq | hreturned
    · cases handler with
      | ret result => exact ⟨result, [], rfl, heq ▸ .refl⟩
      | crash => cases hq.symm.trans heq
      | call e k => cases hq.symm.trans heq
      | join n ps k => cases hq.symm.trans heq
    · exact hreturned
  obtain ⟨result, tr, rfl, hrun⟩ := hreturned
  rcases fulfill_cases hrun with (rfl | ⟨result, rfl⟩) | ⟨proof, rfl, rfl⟩
  · cases hq
  · cases hq
  · cases hq
    exact ⟨proof, rfl, rfl⟩

/-- A client that submits its proof holds the lock. -/
theorem holds_fulfilling {i : Fin count} {effect : FulfillEffect EvmProof}
    {tasks : List (String × NodeParams)} {params : Params} {failures : ℕ}
    {k : FulfillOutcome → ServerProg Snark EvmProof}
    (hi : w.lives i = .running (.inr effect) (FulfillPhase.fulfilling tasks params failures) k) :
    system.machines.holds (w.lives i) .taskTracker = 1 := by
  rw [hi]
  rfl

/-- Only a program that holds the lock changes the tracker. -/
theorem memory_eq_of_step {p p' : Live system.machines.Phase (ServerEffect.Answer Snark EvmProof)
      (Except String (ProverProof Snark EvmProof))} {tracker : SchedulerTaskTracker}
    {free free' : SchedulerResource → ℕ} (h : system.machines.Step tracker p free deeds p' free')
    (hp : system.machines.holds p .taskTracker = 0) :
    (events deeds).foldl (applyLeft SchedulerTaskTracker.apply) tracker = tracker := by
  have hnone : ∀ ev ∈ events deeds, ∀ tracker : SchedulerTaskTracker,
      applyLeft SchedulerTaskTracker.apply tracker ev = tracker := by
    intro ev hev tracker
    obtain ⟨phase, hanswer, hheld⟩ := h.exists_answer hev
    obtain ⟨e, a⟩ := ev
    cases e with
    | inr effect => rfl
    | inl e =>
        cases e with
        | submit node task => rfl
        | await node task => rfl
        | record id node taskId params =>
            obtain rfl : phase = LockPhase.locked := hanswer
            have hone : 1 ≤ system.machines.holds p .taskTracker := hheld .taskTracker
            omega
  clear h
  generalize events deeds = evs at hnone ⊢
  induction evs with
  | nil => rfl
  | cons ev evs ih =>
      rw [List.foldl_cons, hnone ev List.mem_cons_self]
      exact ih fun ev hev => hnone ev (List.mem_cons_of_mem _ hev)

/-- A submission goes on with the summary that it has written. -/
theorem work_fulfilling {client : ContractClient EvmProof Params} {effect : FulfillEffect EvmProof}
    {tracker : SchedulerTaskTracker} {phase phase' : FulfillPhase Params}
    {tasks : List (String × NodeParams)} {params : Params} {failures : ℕ}
    (h : FulfillPhase.Work client effect tracker phase phase')
    (hphase' : phase' = .fulfilling tasks params failures) :
    (tracker.requestIdToTasks effect.requestId = some tasks ∧
        client.claimParams effect.req effect.proof = .ok params) ∨
      ∃ failures, phase = .fulfilling tasks params failures := by
  cases h with
  | lock => cases hphase'
  | noTasks _ => cases hphase'
  | noSummary _ => cases hphase'
  | noParams _ _ => cases hphase'
  | summarised htasks hparams =>
      cases hphase'
      exact .inl ⟨htasks, hparams⟩
  | @send tasks' params' failures' result _ =>
      rcases afterSend_cases tasks' params' failures' result with ⟨outcome, heq⟩ | ⟨-, heq⟩
      · cases heq.symm.trans hphase'
      · cases heq.symm.trans hphase'
        exact .inr ⟨failures', rfl⟩

/-- A summary that has been written is what the tracker holds for the request, and what is submitted
is made of its proof. -/
theorem summarised_of_reaches (h : system.Reaches clients w) {i : Fin count}
    {effect : FulfillEffect EvmProof} {tasks : List (String × NodeParams)} {params : Params}
    {failures : ℕ} {k : FulfillOutcome → ServerProg Snark EvmProof}
    (hi : w.lives i = .running (.inr effect) (FulfillPhase.fulfilling tasks params failures) k) :
    w.memory.requestIdToTasks effect.requestId = some tasks ∧
      system.contractClient.claimParams effect.req effect.proof = .ok params := by
  induction h generalizing failures with
  | refl => cases Machines.launch_eq_running hi
  | @tail w _ hreaches hstep ih =>
      cases hstep with
      | @step j deeds p free hstep =>
          by_cases hij : i = j
          · subst hij
            have hi : p =
                .running (.inr effect) (FulfillPhase.fulfilling tasks params failures) k :=
              (Function.update_self i p w.lives).symm.trans hi
            rcases hstep.of_running hi with hstart | ⟨phase, notes, rfl, hprev, -, hwork⟩
            · cases hstart
            · rw [events_noted]
              rcases work_fulfilling hwork rfl with hsummarised | ⟨failures, rfl⟩
              · exact hsummarised
              · exact ih hprev
          · have hi : w.lives i =
                .running (.inr effect) (FulfillPhase.fulfilling tasks params failures) k :=
              (Function.update_of_ne hij p w.lives).symm.trans hi
            have hle := Machines.holds_add_le (Machines.conserved_of_initial hreaches) hij
              SchedulerResource.taskTracker
            have hone : system.capacity .taskTracker = 1 := rfl
            rw [holds_fulfilling hi] at hle
            have hmemory := memory_eq_of_step hstep (by omega)
            show ((events deeds).foldl _ w.memory).requestIdToTasks effect.requestId =
              some tasks ∧ _
            rw [hmemory]
            exact ih hi

/-- The tracker holds for a client what its handler has recorded in its own run. -/
theorem exists_entries {scheduler : AsyncScheduler Snark EvmProof}
    {handlers : Fin count → SchedulerProg Snark EvmProof} {tracker : SchedulerTaskTracker}
    (hdistinct : Function.Injective fun i => (clients i).requestId)
    (h : scheduler.Serves clients handlers tracker) (i : Fin count) :
    ∃ tr, Async.Run scheduler.Answers (scheduler.handler (clients i)) tr (handlers i) ∧
      tracker.tasks (clients i).requestId = entries tr := by
  obtain ⟨tr, hrunAll, rfl⟩ := h.exists_runAll
  obtain ⟨trs, hruns, htrs⟩ := hrunAll.exists_runs
  have hguard (j : Fin count) : Guarded (scheduler.Guard (clients j).requestId) (trs j) :=
    (AsyncScheduler.meets_recursiveGenProof _ _ _ _ _ _ _ (hruns j)).1
  exact ⟨trs i, hruns i, AsyncScheduler.tasks_eq_of_interleaves hdistinct hguard htrs i⟩

/-- Once a handler has succeeded, the tracker has entries for its request. -/
theorem requestIdToTasks_eq_some {scheduler : AsyncScheduler Snark EvmProof}
    {handlers : Fin count → SchedulerProg Snark EvmProof} {tracker : SchedulerTaskTracker}
    (hdistinct : Function.Injective fun i => (clients i).requestId)
    (h : scheduler.Serves clients handlers tracker) {i : Fin count}
    {proof : ProverProof Snark EvmProof} (hi : handlers i = .ret (.ok proof)) :
    tracker.requestIdToTasks (clients i).requestId =
      some (tracker.tasks (clients i).requestId) := by
  obtain ⟨tr, hrun, hentries⟩ := exists_entries hdistinct h i
  rw [hi] at hrun
  obtain ⟨-, hreturns, -⟩ := AsyncScheduler.meets_recursiveGenProof _ _ _ _ _ _ _ hrun
  obtain ⟨-, ⟨taskId, params, hmem⟩, -⟩ := (hreturns _ rfl).2 proof rfl
  have hentry : (taskId, params) ∈ entries tr := List.mem_filterMap.mpr ⟨_, hmem, rfl⟩
  rw [← hentries, SchedulerTaskTracker.tasks] at hentry
  rw [SchedulerTaskTracker.tasks]
  cases htasks : tracker.requestIdToTasks (clients i).requestId with
  | none =>
      rw [htasks] at hentry
      cases hentry
  | some tasks => rfl

/-- A client whose request is proven finds its entries in the tracker, so it does not panic for want
of them: what its handler has recorded on the way to its proof. The summary that it writes is what
the tracker holds for its request for as long as it submits its proof, and it is complete if the
request is for a wrapped root. What it submits is made of the request and its proof, in five
attempts at most. -/
theorem summary_complete (hids : system.scheduler.HasCircuitIds)
    (hdistinct : Function.Injective fun i => (clients i).requestId)
    (h : system.Reaches clients w) (i : Fin count) (effect : FulfillEffect EvmProof)
    (phase : FulfillPhase Params) (k : FulfillOutcome → ServerProg Snark EvmProof)
    (hi : w.lives i = .running (.inr effect) phase k) :
    effect.requestId = (clients i).requestId ∧ effect.req = (clients i).req ∧
    ∃ tr, Async.Run system.scheduler.Answers (system.scheduler.handler (clients i)) tr
        (.ret (.ok (.evmProof effect.proof))) ∧
      w.memory.requestIdToTasks effect.requestId = some (entries tr) ∧
      (∀ round depth initialDepth, effect.req.params = ⟨.evm round, depth, initialDepth⟩ →
        initialDepth < depth →
          AsyncScheduler.IsComplete effect.req round depth initialDepth tr) ∧
      ∀ written params failures, phase = .fulfilling written params failures →
        written = entries tr ∧
          system.contractClient.claimParams effect.req effect.proof = .ok params ∧
          failures < retrySendThreshold := by
  obtain ⟨handlers, hserves, hprogs⟩ := exists_serves h
  have hprog : (w.lives i).prog = .call (.inr effect) k := by
    rw [hi]
    rfl
  obtain ⟨proof, hreturned, rfl⟩ := exists_proof (hprogs i) hprog
  obtain ⟨tr, hrun, hentries⟩ := exists_entries hdistinct hserves i
  rw [hreturned] at hrun
  have hsome := requestIdToTasks_eq_some hdistinct hserves hreturned
  rw [hentries] at hsome
  refine ⟨rfl, rfl, tr, hrun, hsome, fun round depth initialDepth hparams hdepth => ?_,
    fun written params failures hphase => ?_⟩
  · exact AsyncScheduler.isComplete_entries hids hrun hparams hdepth
  · subst hphase
    obtain ⟨htasks, hparams⟩ := summarised_of_reaches h hi
    have hknown : Live.All system.Known (w.lives i) :=
      (Machines.exists_runAll system.keeps h).1 i
    rw [hi] at hknown
    exact ⟨Option.some.inj (htasks.symm.trans hsome), hparams, hknown⟩

/-! ### Two clients -/

/-- While the task of the second client is in flight, the first one may be submitting its proof. -/
theorem exists_reaches_fulfilling : ∃ (w : pairSystem.State 2) (effect : FulfillEffect (List ℕ))
    (tasks : List (String × NodeParams)) (k : FulfillOutcome → ServerProg (List ℕ) (List ℕ)),
    pairSystem.Reaches pairClients w ∧
      w.lives 0 = .running (.inr effect) (FulfillPhase.fulfilling tasks effect.proof 0) k ∧
      1 ≤ (w.lives 1).total inFlight := by
  obtain ⟨w, effect, k, hreaches, hlocked, hflight⟩ := exists_reaches_locked
  have hdistinct : Function.Injective fun i => (pairClients i).requestId := by decide
  obtain ⟨handlers, hserves, hprogs⟩ := exists_serves hreaches
  have hprog : (w.lives 0).prog = .call (.inr effect) k := by
    rw [hlocked]
    rfl
  obtain ⟨proof, hreturned, heffect⟩ := exists_proof (hprogs 0) hprog
  have htasks : w.memory.requestIdToTasks effect.requestId =
      some (w.memory.tasks effect.requestId) := by
    rw [heffect]
    exact requestIdToTasks_eq_some hdistinct hserves hreturned
  have hstep : ∃ deeds p free, pairSystem.machines.Step w.memory (w.lives 0) w.free deeds p free ∧
      ∃ tasks, p = .running (.inr effect) (FulfillPhase.fulfilling tasks effect.proof 0) k := by
    have hwork : pairSystem.machines.work (.inr effect) w.memory FulfillPhase.locked []
        (FulfillPhase.fulfilling (w.memory.tasks effect.requestId) effect.proof 0) :=
      ⟨rfl, .summarised htasks rfl⟩
    rw [hlocked]
    refine ⟨_, _, _, .work hwork fun r => ?_, _, rfl⟩
    cases r with
    | permit => exact Nat.zero_le _
    | taskTracker => exact Nat.le_add_left _ _
  obtain ⟨deeds, p, free, hstep, tasks, rfl⟩ := hstep
  have hsecond : Function.update w.lives 0 (.running (.inr effect)
      (FulfillPhase.fulfilling tasks effect.proof 0) k) 1 = w.lives 1 :=
    Function.update_of_ne (by decide) _ _
  have hlives := Function.update_self (0 : Fin 2) (Live.running (.inr effect)
    (FulfillPhase.fulfilling tasks effect.proof 0) k) w.lives
  refine ⟨_, effect, tasks, k, hreaches.tail (.step hstep), hlives, ?_⟩
  exact hsecond ▸ hflight

/-- While the task of the second client is in flight, the first one submits its proof with a
complete summary. -/
theorem summary_complete_pair : ∃ (w : pairSystem.State 2) (effect : FulfillEffect (List ℕ))
    (k : FulfillOutcome → ServerProg (List ℕ) (List ℕ))
    (tr : List (SchedulerEvent (List ℕ) (List ℕ))),
    w.lives 0 = .running (.inr effect) (FulfillPhase.fulfilling (entries tr) effect.proof 0) k ∧
      1 ≤ (w.lives 1).total inFlight ∧
      AsyncScheduler.IsComplete (soleRequest 3 ⟨.evm 0, 2, 0⟩) 0 2 0 tr := by
  have hids : pairSystem.scheduler.HasCircuitIds :=
    AsyncScheduler.hasCircuitIds_of_cids rfl rfl (by decide)
  have hdistinct : Function.Injective fun i => (pairClients i).requestId := by decide
  obtain ⟨w, effect, tasks, k, hreaches, hlives, hflight⟩ := exists_reaches_fulfilling
  obtain ⟨-, hreq, tr, -, -, hcomplete, hwritten⟩ :=
    summary_complete hids hdistinct hreaches 0 effect _ k hlives
  obtain ⟨rfl, -⟩ := hwritten tasks effect.proof 0 rfl
  rw [hreq] at hcomplete
  exact ⟨w, effect, k, tr, hlives, hflight, hcomplete 0 2 0 rfl (by decide)⟩

end SchedulerSystem

end WorldcoinAggregation
