import WorldcoinAggregation.Scheduler.AsyncSpec

/-!
# The concurrent scheduler refines the sequential one

Every run of `AsyncScheduler.recursiveGenProof` meets `AsyncScheduler.nodeSpec`
(`meets_recursiveGenProof`): dependencies split all the way down, so that none of them panics while
another one returns an error. With a deterministic executor all orders of the dependencies come to
the same as the sequential one, but for the requests of `AsyncScheduler.equalsLocal_iff`.
-/

namespace WorldcoinAggregation

open Fallible Async

namespace AsyncScheduler

variable {Snark EvmProof : Type} {scheduler : AsyncScheduler Snark EvmProof} {fuel : ℕ}
  {req : RecursiveRequest} {deps : List RecursiveRequest} {isEvmProof : Bool}
  {tasks : List (RecursiveRequest × ProverTask Snark)} {requestId : String}
  {tr : List (SchedulerEvent Snark EvmProof)} {prover : ProverFunction Snark EvmProof}
  {outcomes : List (List (SchedulerEvent Snark EvmProof) ×
    Except String (ProverProof Snark EvmProof))}

/-- A computation that may give up, followed by a program. -/
theorem meets_orReturn {α : Type} {c : Fallible α} {k : α → SchedulerProg Snark EvmProof}
    {spec : Spec (SchedulerEffect Snark) (SchedulerEffect.Answer EvmProof)
      (Except String (ProverProof Snark EvmProof))} (halways : spec.always tr)
    (hok : ∀ a, c = .ok a → Meets scheduler.Answers (k a) (spec.after tr))
    (herror : ∀ message, c = .error (.error message) → spec.returns tr (.error message))
    (hcrash : ∀ failure, c = .error failure → ¬ IsError failure → spec.crashes tr) :
    Meets scheduler.Answers (orReturn c k) (spec.after tr) := by
  cases c with
  | ok a => exact hok a rfl
  | error failure =>
      cases failure with
      | error message => exact meets_ret halways (herror message rfl)
      | panicked => exact meets_crash halways (hcrash _ rfl nofun)
      | unsatisfied => exact meets_crash halways (hcrash _ rfl nofun)
      | outOfFuel => exact meets_crash halways (hcrash _ rfl nofun)

/-- A wrapper is handled by the circuit of a wrapper. -/
theorem exists_evm_of_wraps {vk : VkNative} {snarks : List Snark} {request : RequestRouter Snark}
    (h : handleRecursiveRequest vk snarks req = .ok request) (hwraps : req.Wraps) :
    ∃ wrapper, request = .evm wrapper := by
  obtain ⟨hdepth, round, htype⟩ := hwraps
  simp only [handleRecursiveRequest, if_neg hdepth, htype, bind_eq_ok, pure_eq_ok] at h
  obtain ⟨-, -, -, -, -, -, rfl⟩ := h
  exact ⟨_, rfl⟩

/-- The sequential scheduler proves the dependencies with the same snarks and tasks. -/
def DepsAgree (scheduler : AsyncScheduler Snark EvmProof) (prover : ProverFunction Snark EvmProof)
    (fuel : ℕ) (deps : List RecursiveRequest) (tr : List (SchedulerEvent Snark EvmProof))
    (snarks : List Snark) : Prop :=
  ∃ below, deps.mapM ((scheduler.localScheduler prover).runDependency fuel) = .ok below ∧
    below.map Prod.fst = snarks ∧ (submissions tr).Perm (below.map Prod.snd).flatten

/-- What is made of the task of a node is what the sequential scheduler makes of it. -/
theorem agrees_of_prove {snarks : List Snark} {request : RequestRouter Snark} {circuitId : String}
    {rest : List (SchedulerEvent Snark EvmProof)} (hdeps : req.dependencies = .ok deps)
    (hbelow : scheduler.DepsAgree prover fuel deps tr snarks)
    (hrequest : handleRecursiveRequest scheduler.vk snarks req = .ok request)
    (hid : scheduler.circuitIdRepo req.params = some circuitId)
    (hrest : submissions rest = [(req, ⟨circuitId, isEvmProof, request⟩)]) :
    scheduler.Agrees prover (fuel + 1) req isEvmProof (tr ++ rest)
      (prover.prove ⟨circuitId, isEvmProof, request⟩) := by
  obtain ⟨below, hbelow, rfl, hsubmissions⟩ := hbelow
  let task : ProverTask Snark := ⟨circuitId, isEvmProof, request⟩
  have hgetCircuitId : (scheduler.localScheduler prover).getCircuitId req = .ok circuitId :=
    getCircuitId_eq_ok.mpr hid
  have hhandled : handleRecursiveRequest (scheduler.localScheduler prover).vk (below.map Prod.fst)
      req = .ok request := hrequest
  have hrun : (scheduler.localScheduler prover).runWithTasks (fuel + 1) req isEvmProof = (do
      return (← (scheduler.localScheduler prover).generateProof task,
        (below.map Prod.snd).flatten ++ [(req, task)])) := by
    simp only [LocalScheduler.runWithTasks_succ, hdeps, hbelow, hhandled, hgetCircuitId, bind,
      Except.bind, task]
  rcases localScheduler_generateProof scheduler prover task with heq | ⟨hevm, hnot, hpanic⟩
  · refine .inr ?_
    rw [heq] at hrun
    cases hprove : prover.prove task with
    | error message =>
        rw [hprove] at hrun
        exact hrun
    | ok proof =>
        rw [hprove] at hrun
        refine ⟨_, hrun, ?_⟩
        rw [submissions_append, hrest]
        exact hsubmissions.append_right _
  · have hwraps : ¬ req.Wraps := by
      intro hwraps
      obtain ⟨wrapper, hwrapper⟩ := exists_evm_of_wraps hrequest hwraps
      exact hnot wrapper hwrapper
    have hcount : (below.map Prod.fst).length = deps.length := by
      rw [List.length_map, length_mapM hbelow]
    refine .inl ⟨hevm, hwraps, RecursiveRequest.builds_of_handled hwraps hdeps hcount hrequest, ?_⟩
    rw [hrun, hpanic]
    rfl

/-- The last step of a node: its task is submitted, answered and recorded. -/
theorem meets_generateProof {snarks : List Snark} {request : RequestRouter Snark}
    {circuitId : String} {below : List (List RecursiveRequest)}
    (hguard : Guarded (scheduler.Guard requestId) tr) (hdeps : req.dependencies = .ok deps)
    (hlocal : ∀ prover, scheduler.executor.Follows prover →
      scheduler.DepsAgree prover fuel deps tr snarks)
    (hrequest : handleRecursiveRequest scheduler.vk snarks req = .ok request)
    (hid : scheduler.circuitIdRepo req.params = some circuitId)
    (hsucceeded : List.Forall₂ (fun dep snark => Succeeded tr dep (.snark snark)) deps snarks)
    (hrecorded : ∀ dep ∈ deps, IsRecorded requestId tr dep)
    (hbelow : deps.mapM (RecursiveRequest.expand fuel) = .ok below)
    (hnodes : (recordedNodes tr).Perm below.flatten) :
    Meets scheduler.Answers
      (generateProof req ⟨circuitId, isEvmProof, request⟩ fun result =>
        scheduler.postProofGenProcessing requestId req circuitId result (.ret (.ok result.proof)))
      ((scheduler.nodeSpec requestId (fuel + 1) req isEvmProof).after tr) := by
  let task : ProverTask Snark := ⟨circuitId, isEvmProof, request⟩
  have hsubmit : Guarded (scheduler.Guard requestId) (tr ++ [.submitted req task]) :=
    hguard.concat ⟨deps, _, hdeps, hsucceeded, hrequest⟩
  refine meets_call hguard fun _ _ => meets_call hsubmit fun answer hanswer => ?_
  have hawait : Guarded (scheduler.Guard requestId)
      (tr ++ [.submitted req task] ++ [.answered req task answer]) :=
    hsubmit.concat (List.mem_append_right _ (List.mem_singleton_self _))
  have hagrees {rest : List (SchedulerEvent Snark EvmProof)}
      (hrest : submissions rest = [(req, task)]) (prover : ProverFunction Snark EvmProof)
      (hexecutor : scheduler.executor.Follows prover) :
      scheduler.Agrees prover (fuel + 1) req isEvmProof (tr ++ rest)
        (Except.map ExecutionResult.proof answer) := by
    rw [hexecutor.proof_eq task answer hanswer]
    exact agrees_of_prove hdeps (hlocal prover hexecutor) hrequest hid hrest
  cases answer with
  | error message =>
      refine meets_ret hawait ⟨?_, nofun⟩
      rw [List.append_assoc]
      exact hagrees rfl
  | ok result =>
      show Meets _ (orReturn (unwrap (scheduler.cidToParams circuitId)) _) _
      refine meets_orReturn hawait (fun params hparams => ?_) (fun message hmessage => ?_)
        fun failure hfailure _ => ?_
      · have hrecord : Guarded (scheduler.Guard requestId)
            (tr ++ [.submitted req task] ++ [.answered req task (.ok result)] ++
              [.recorded requestId req result.taskId params]) := by
          refine hawait.concat ⟨rfl, ⟨circuitId, hid, unwrap_eq_ok.mp hparams⟩,
            ⟨task, result.proof, by simp⟩, deps, hdeps, fun dep hmem => ?_⟩
          obtain ⟨taskId, params, hdep⟩ := hrecorded dep hmem
          exact ⟨taskId, params, by simp [hdep]⟩
        refine meets_call hawait fun _ _ => meets_ret hrecord ?_
        rw [List.append_assoc, List.append_assoc]
        refine ⟨hagrees rfl, ?_⟩
        rintro _ ⟨⟩
        refine ⟨⟨task, result.taskId, List.mem_append_right _ (.tail _ (.head _))⟩,
          ⟨result.taskId, params, List.mem_append_right _ (.tail _ (.tail _ (.head _)))⟩,
          below.flatten ++ [req],
          RecursiveRequest.expand_succ_eq_ok.mpr ⟨deps, below, hdeps, hbelow, rfl⟩, ?_⟩
        rw [recordedNodes_append]
        exact hnodes.append (.refl _)
      · cases onlyPanics_unwrap _ _ hmessage
      · intro _ _ hregistered _
        obtain ⟨circuitId', hid', hparams⟩ := hregistered req .refl
        obtain rfl := Option.some.inj (hid.symm.trans hid')
        obtain ⟨params, hparams⟩ := Option.isSome_iff_exists.mp hparams
        rw [hparams] at hfailure
        cases hfailure

/-- The request for a circuit fails by a panic or by an error that is returned. -/
theorem failsWith_handleRecursiveRequest (vk : VkNative) (snarks : List Snark) :
    FailsWith (fun failure => failure = .panicked ∨ IsError failure)
      (handleRecursiveRequest vk snarks req) := by
  have hite (p : Prop) [Decidable p] {α : Type} (a : α) :
      FailsWith (fun failure => failure = .panicked ∨ IsError failure)
        (if p then .ok a else .error .panicked) :=
    (onlyPanics_ite p a).failsWith (.inl rfl)
  have hunwrap {α : Type} (value : Option α) :
      FailsWith (fun failure => failure = .panicked ∨ IsError failure) (unwrap value) :=
    (onlyPanics_unwrap value).failsWith (.inl rfl)
  have hpad : FailsWith (fun failure => failure = .panicked ∨ IsError failure)
      (padSnarks snarks) := by
    refine (hite _ ()).bind fun _ _ => ?_
    split
    · exact (hunwrap _).bind fun _ _ => failsWith_of_ok rfl
    · exact failsWith_of_ok rfl
  simp only [handleRecursiveRequest]
  split
  · refine FailsWith.bind ?_ fun _ _ => failsWith_of_ok rfl
    refine (hite _ _).bind fun n _ => (hite _ _).bind fun m _ => ?_
    by_cases hcount : m < n
    · simp only [if_pos hcount]
      rintro _ ⟨⟩
      exact .inr ⟨_, rfl⟩
    · simp only [if_neg hcount]
      exact failsWith_of_ok rfl
  · refine (hite _ ()).bind fun _ _ => ?_
    split
    · rintro _ ⟨⟩
      exact .inl rfl
    · exact hpad.bind fun _ _ => failsWith_of_ok rfl
    · exact hpad.bind fun _ _ => failsWith_of_ok rfl
    · exact (hite _ ()).bind fun _ _ => (hunwrap _).bind fun _ _ => failsWith_of_ok rfl

/-- Dependencies fail by errors of the prover only. -/
theorem failsWith_mapM_runDependency (hdeps : req.dependencies = .ok deps)
    (hregistered : scheduler.Registered req) (hfuel : req.params.height < fuel + 1) :
    FailsWith (Refuses prover)
      (deps.mapM ((scheduler.localScheduler prover).runDependency fuel)) := by
  refine .mapM fun dep hmem => ?_
  obtain ⟨hdep, hheight⟩ := RecursiveRequest.expandable_of_mem hdeps hmem
  exact failsWith_runDependency
    (failsWith_runWithTasks hdep (hregistered.of_mem hdeps hmem) (by omega))

/-- What happens once the dependencies have returned. -/
theorem meets_collectSnarks (hdeps : req.dependencies = .ok deps)
    (houtcomes : List.Forall₂ (fun dep outcome =>
      (scheduler.nodeSpec requestId fuel dep false).returns outcome.1 outcome.2) deps outcomes)
    (hperm : tr.Perm (outcomes.map Prod.fst).flatten)
    (hguard : Guarded (scheduler.Guard requestId) tr) :
    Meets scheduler.Answers
      (orReturn (collectSnarks (outcomes.map Prod.snd)) fun snarks =>
        orReturn (handleRecursiveRequest scheduler.vk snarks req) fun request =>
          orReturn (scheduler.getCircuitId req) fun circuitId =>
            generateProof req ⟨circuitId, isEvmProof, request⟩ fun result =>
              scheduler.postProofGenProcessing requestId req circuitId result
                (.ret (.ok result.proof)))
      ((scheduler.nodeSpec requestId (fuel + 1) req isEvmProof).after tr) := by
  have hagrees (prover) (hexecutor : scheduler.executor.Follows prover) :=
    houtcomes.imp fun _ _ h => h.1 prover hexecutor
  have hcompleted := houtcomes.imp fun _ _ => And.right
  have hsub (outcome) (hmem : outcome ∈ outcomes) : outcome.1 ⊆ tr := fun event hevent =>
    hperm.mem_iff.mpr (List.mem_flatten.mpr ⟨_, List.mem_map_of_mem hmem, hevent⟩)
  have hrun (prover) : (scheduler.localScheduler prover).runWithTasks (fuel + 1) req isEvmProof =
      (do
        let below ← deps.mapM ((scheduler.localScheduler prover).runDependency fuel)
        let request ← handleRecursiveRequest scheduler.vk (below.map Prod.fst) req
        let circuitId ← scheduler.getCircuitId req
        let task : ProverTask Snark := ⟨circuitId, isEvmProof, request⟩
        let proof ← (scheduler.localScheduler prover).generateProof task
        return (proof, (below.map Prod.snd).flatten ++ [(req, task)])) := by
    rw [LocalScheduler.runWithTasks_succ, hdeps]
    rfl
  cases hcollect : collectSnarks (outcomes.map Prod.snd) with
  | error failure =>
      have hbelow (prover) (hexecutor : scheduler.executor.Follows prover) :
          deps.mapM ((scheduler.localScheduler prover).runDependency fuel) = .error failure :=
        map_eq_error.mp ((collectSnarks_eq (hagrees prover hexecutor)).symm.trans hcollect)
      refine meets_orReturn hguard nofun (fun message hmessage => ?_) fun failure hfailure hne => ?_
      · cases hmessage
        refine ⟨fun prover hexecutor => .inr ?_, nofun⟩
        refine (hrun prover).trans ?_
        rw [hbelow prover hexecutor]
        rfl
      · cases hfailure
        intro prover hexecutor hregistered hfuel
        obtain ⟨-, -, message, -, hmessage⟩ :=
          failsWith_mapM_runDependency hdeps hregistered hfuel _ (hbelow prover hexecutor)
        exact absurd ⟨message, hmessage⟩ hne
  | ok snarks =>
      have hlocal (prover) (hexecutor : scheduler.executor.Follows prover) :
          scheduler.DepsAgree prover fuel deps tr snarks := by
        obtain ⟨below, hbelow, hsnarks⟩ :=
          map_eq_ok.mp ((collectSnarks_eq (hagrees prover hexecutor)).symm.trans hcollect)
        exact ⟨below, hbelow, hsnarks,
          (hperm.filterMap _).trans (submissions_perm (hagrees prover hexecutor) hbelow)⟩
      obtain ⟨hall, below, hbelow, hnodes⟩ := completed_of_collectSnarks hcompleted hcollect
      have hhandled {failure : Failure}
          (h : handleRecursiveRequest scheduler.vk snarks req = .error failure) (prover)
          (hexecutor : scheduler.executor.Follows prover) :
          (scheduler.localScheduler prover).runWithTasks (fuel + 1) req isEvmProof =
            .error failure := by
        obtain ⟨below, hbelow, rfl, -⟩ := hlocal prover hexecutor
        rw [hrun, hbelow]
        simp only [bind, Except.bind, h]
      show Meets _ (orReturn (handleRecursiveRequest scheduler.vk snarks req) _) _
      refine meets_orReturn hguard (fun request hrequest => ?_)
        (fun message hmessage =>
          ⟨fun prover hexecutor => .inr (hhandled hmessage prover hexecutor), nofun⟩)
        fun failure hfailure hne => ?_
      · refine meets_orReturn hguard (fun circuitId hid => ?_) (fun message hmessage => ?_)
          fun failure hfailure hne => ?_
        · have hdone : List.Forall₂ (fun dep snark => IsRecorded requestId tr dep ∧
              Succeeded tr dep (.snark snark)) deps snarks := by
            refine hall.imp fun dep snark => ?_
            rintro ⟨outcome, hmem, ⟨task, taskId, hevent⟩, ⟨taskId', params, hrecord⟩, -⟩
            exact ⟨⟨taskId', params, hsub outcome hmem hrecord⟩,
              ⟨task, taskId, hsub outcome hmem hevent⟩⟩
          obtain ⟨hrecorded, hsucceeded⟩ := (List.forall₂_and_left _ _).mp hdone
          exact meets_generateProof hguard hdeps hlocal hrequest (getCircuitId_eq_ok.mp hid)
            hsucceeded hrecorded hbelow ((hperm.filterMap _).trans hnodes)
        · refine ⟨fun prover hexecutor => .inr ?_, nofun⟩
          obtain ⟨below, hbelow, rfl, -⟩ := hlocal prover hexecutor
          refine (hrun prover).trans ?_
          rw [hbelow]
          simp only [bind, Except.bind, hrequest, hmessage]
        · exact absurd (failsWith_getCircuitId _ hfailure) hne
      · intro prover hexecutor _ _
        rcases failsWith_handleRecursiveRequest _ _ _ hfailure with rfl | herror
        · refine ⟨fun hbuilds => ?_, hhandled hfailure prover hexecutor⟩
          obtain ⟨below, hbelow, rfl, -⟩ := hlocal prover hexecutor
          obtain ⟨deps', hdeps', hrequest⟩ := hbuilds.exists_handled Snark scheduler.vk
          obtain rfl := Except.ok.inj (hdeps.symm.trans hdeps')
          obtain ⟨request, hrequest⟩ := hrequest (below.map Prod.fst) (by
            rw [List.length_map, length_mapM hbelow])
          cases hfailure.symm.trans hrequest
        · exact absurd herror hne

/-- The recursion meets its specification. -/
theorem meets_recursiveGenProof (scheduler : AsyncScheduler Snark EvmProof) (requestId : String)
    (fuel : ℕ) (req : RecursiveRequest) (isEvmProof : Bool) :
    Meets scheduler.Answers (scheduler.recursiveGenProof requestId fuel req isEvmProof)
      (scheduler.nodeSpec requestId fuel req isEvmProof) := by
  induction fuel generalizing req isEvmProof with
  | zero =>
      show Meets _ .crash ((scheduler.nodeSpec requestId 0 req isEvmProof).after [])
      exact meets_crash guarded_nil fun _ _ _ hfuel => absurd hfuel (Nat.not_lt_zero _)
  | succ fuel ih =>
      show Meets _ (getSnarksForDeps _ req _)
        ((scheduler.nodeSpec requestId (fuel + 1) req isEvmProof).after [])
      unfold getSnarksForDeps
      refine meets_orReturn guarded_nil (fun deps hdeps => ?_) (fun message hmessage => ?_)
        fun failure hfailure _ => ?_
      · show Meets _ (joinAll deps _ _) (scheduler.nodeSpec requestId (fuel + 1) req isEvmProof)
        refine meets_joinAll (scheduler.Guard requestId)
          (fun dep => scheduler.nodeSpec requestId fuel dep false) (fun _ _ _ => Guard.mono)
          (fun _ => rfl) (fun dep _ => ih dep false) (fun _ => id)
          (fun dep hmem own tr hcrash prover hexecutor hregistered hfuel => ?_)
          fun outcomes tr houtcomes hperm hguard => ?_
        · obtain ⟨hexpandable, hheight⟩ := RecursiveRequest.expandable_of_mem hdeps hmem
          have hdep := hregistered.of_mem hdeps hmem
          have hlt : dep.params.height < fuel := by omega
          obtain ⟨-, hpanic⟩ := hcrash prover hexecutor hdep hlt
          obtain ⟨-, -, -, -, ⟨⟩⟩ := failsWith_runWithTasks hexpandable hdep hlt _ hpanic
        · exact meets_collectSnarks hdeps houtcomes hperm hguard
      · cases RecursiveRequest.onlyPanics_dependencies _ _ hmessage
      · intro _ _ _ _
        obtain rfl := RecursiveRequest.onlyPanics_dependencies _ _ hfailure
        refine ⟨fun hbuilds => ?_, ?_⟩
        · obtain ⟨deps, hdeps, -⟩ := hbuilds.exists_handled Snark scheduler.vk
          cases hfailure.symm.trans hdeps
        · rw [LocalScheduler.runWithTasks_succ, hfailure]
          rfl

/-! ## The concurrent scheduler and the sequential one -/

/-- What a program that has ended has come to. -/
def outcome : SchedulerProg Snark EvmProof → Fallible (ProverProof Snark EvmProof)
  | .ret (.ok proof) => .ok proof
  | .ret (.error message) => .error (.error message)
  | .crash | .call _ _ | .join _ _ _ => .error .panicked

/-- Every effect has an answer, if the executor answers every task. -/
theorem exists_answer (hexecutor : scheduler.executor.Follows prover)
    (e : SchedulerEffect Snark) : ∃ answer, scheduler.Answers e answer := by
  cases e with
  | submit node task => exact ⟨(), trivial⟩
  | await node task => exact hexecutor.answers task
  | record id node taskId params => exact ⟨(), trivial⟩

/-- Whatever the order in which the tasks of dependencies are submitted and answered, the concurrent
scheduler ends, and it ends as the sequential scheduler does: with the same proof or error, and with
the same tasks when it succeeds. Tasks are submitted after their dependencies have succeeded, with
the snarks of these from left to right. -/
structure EqualsLocal (scheduler : AsyncScheduler Snark EvmProof)
    (prover : ProverFunction Snark EvmProof) (requestId : String) (fuel : ℕ)
    (req : RecursiveRequest) (isEvmProof : Bool) : Prop where
  ends : Acc (fun q p => ∃ evs, Step scheduler.Answers p evs q)
    (scheduler.recursiveGenProof requestId fuel req isEvmProof)
  progress : ∀ tr q,
    Run scheduler.Answers (scheduler.recursiveGenProof requestId fuel req isEvmProof) tr q →
      q.Final ∨ ∃ evs q', Step scheduler.Answers q evs q'
  outcome_eq : ∀ tr q,
    Run scheduler.Answers (scheduler.recursiveGenProof requestId fuel req isEvmProof) tr q →
      q.Final → outcome q = (scheduler.localScheduler prover).recursiveGenProof fuel req isEvmProof
  tasks : ∀ tr q proof,
    Run scheduler.Answers (scheduler.recursiveGenProof requestId fuel req isEvmProof) tr q →
      q.Final → outcome q = .ok proof → ∃ tasks,
        (scheduler.localScheduler prover).runWithTasks fuel req isEvmProof = .ok (proof, tasks) ∧
          (submissions tr).Perm tasks ∧ ((submissions tr).map Prod.snd).Nodup
  submittable : ∀ tr q,
    Run scheduler.Answers (scheduler.recursiveGenProof requestId fuel req isEvmProof) tr q →
      ∀ before node task after, tr = before ++ SchedulerEvent.submitted node task :: after →
        scheduler.Submittable before node task

/-- Where no proof for the chain is asked of the circuit of a leaf or a join, the two schedulers
come to the same. -/
theorem equalsLocal (hexecutor : scheduler.executor.Follows prover) (requestId : String)
    (hfuel : req.params.height < fuel) (hregistered : scheduler.Registered req)
    (hevm : isEvmProof = true → req.Wraps ∨ ¬ req.Builds) :
    scheduler.EqualsLocal prover requestId fuel req isEvmProof := by
  have hmeets := meets_recursiveGenProof scheduler requestId fuel req isEvmProof
  have hreturned {tr : List (SchedulerEvent Snark EvmProof)}
      {result : Except String (ProverProof Snark EvmProof)}
      (hrun : Run scheduler.Answers (scheduler.recursiveGenProof requestId fuel req isEvmProof) tr
        (.ret result)) : scheduler.EndsAlike prover fuel req isEvmProof tr result := by
    obtain ⟨-, hreturns, -⟩ := hmeets tr _ hrun
    rcases (hreturns result rfl).1 prover hexecutor with ⟨htrue, hwraps, hbuilds, -⟩ | hagrees
    · exact absurd hbuilds ((hevm htrue).resolve_left hwraps)
    · exact hagrees
  refine ⟨acc_step _ _, fun tr q _ => exists_step (exists_answer hexecutor) q,
    fun tr q hrun hfinal => ?_, fun tr q proof hrun hfinal hproof => ?_,
    fun tr q hrun before node task after => (hmeets tr q hrun).1 before _ after⟩
  · rw [← LocalScheduler.map_fst_runWithTasks]
    rcases hfinal with rfl | ⟨result, rfl⟩
    · obtain ⟨-, -, hcrashes⟩ := hmeets tr _ hrun
      obtain ⟨-, hpanic⟩ := hcrashes rfl prover hexecutor hregistered hfuel
      rw [hpanic]
      rfl
    · cases result with
      | error message =>
          have herror : _ = Except.error (Failure.error message) := hreturned hrun
          rw [herror]
          rfl
      | ok proof =>
          obtain ⟨tasks, htasks, -⟩ := hreturned hrun
          rw [htasks]
          rfl
  · rcases hfinal with rfl | ⟨result, rfl⟩
    · cases hproof
    · cases result with
      | error message => cases hproof
      | ok proof =>
          cases hproof
          obtain ⟨tasks, htasks, hperm⟩ := hreturned hrun
          exact ⟨tasks, htasks, hperm,
            (hperm.map Prod.snd).nodup_iff.mpr (LocalScheduler.nodup_tasks htasks)⟩

/-- A request for a leaf or a join is not handled by the circuit of a wrapper. -/
theorem wraps_of_evm {vk : VkNative} {snarks : List Snark} {wrapper : WorldcoinRequestEvm Snark}
    (h : handleRecursiveRequest vk snarks req = .ok (.evm wrapper)) : req.Wraps := by
  simp only [handleRecursiveRequest] at h
  split at h
  · obtain ⟨_, -, ⟨⟩⟩ := bind_eq_ok.mp h
  · rename_i hdepth
    obtain ⟨_, -, h⟩ := bind_eq_ok.mp h
    split at h
    · cases h
    · obtain ⟨_, -, ⟨⟩⟩ := bind_eq_ok.mp h
    · obtain ⟨_, -, ⟨⟩⟩ := bind_eq_ok.mp h
    · rename_i round htype
      exact ⟨hdepth, round, htype⟩

/-- The sequential scheduler panics once it comes to a proof for the chain by the circuit of a leaf
or a join. -/
theorem runWithTasks_panics (hfuel : req.params.height < fuel)
    (hregistered : scheduler.Registered req) (hwraps : ¬ req.Wraps) (hbuilds : req.Builds)
    (hprove : ∀ failure, ¬ Refuses prover failure) :
    (scheduler.localScheduler prover).runWithTasks fuel req true = .error .panicked := by
  obtain ⟨fuel, rfl⟩ := Nat.exists_eq_add_one.mpr (Nat.zero_lt_of_lt hfuel)
  obtain ⟨deps, hdeps, hhandled⟩ := hbuilds.exists_handled Snark scheduler.vk
  cases hmapM : deps.mapM ((scheduler.localScheduler prover).runDependency fuel) with
  | error failure =>
      exact absurd (failsWith_mapM_runDependency hdeps hregistered hfuel failure hmapM)
        (hprove failure)
  | ok below =>
      have hcount : (below.map Prod.fst).length = deps.length := by
        rw [List.length_map, length_mapM hmapM]
      obtain ⟨request, hrequest⟩ := hhandled (below.map Prod.fst) hcount
      obtain ⟨circuitId, hid, -⟩ := hregistered req .refl
      have hid : (scheduler.localScheduler prover).getCircuitId req = .ok circuitId :=
        getCircuitId_eq_ok.mpr hid
      have hpanic : (scheduler.localScheduler prover).generateProof ⟨circuitId, true, request⟩ =
          .error .panicked := by
        cases request with
        | leaf request => rfl
        | intermediate request => rfl
        | root request => rfl
        | evm wrapper => exact absurd (wraps_of_evm hrequest) hwraps
      have hrequest : handleRecursiveRequest (scheduler.localScheduler prover).vk
        (below.map Prod.fst) req = .ok request := hrequest
      rw [LocalScheduler.runWithTasks_succ]
      simp only [hdeps, hmapM, hrequest, hid, hpanic, bind, Except.bind]

/-- A prover that makes a snark of every task but those of wrappers for the chain. -/
def snarkProver (snark : Snark) : ProverFunction Snark EvmProof where
  prove task :=
    match task.isEvmProof, task.request with
    | true, .evm _ => .error "no proof for the chain"
    | _, _ => .ok (.snark snark)
  isSnark _ _ _ := nofun
  isEvmProof _ _ _ := nofun

/-- The executor that answers as a function says, with any task id. -/
def executorOf (prover : ProverFunction Snark EvmProof) : ProofExecutor Snark EvmProof :=
  ⟨fun task result => Except.map ExecutionResult.proof result = prover.prove task⟩

/-- It is deterministic. -/
theorem follows_executorOf (prover : ProverFunction Snark EvmProof) :
    (executorOf prover).Follows prover where
  answers task := by
    refine ⟨(prover.prove task).map (ExecutionResult.mk ""), ?_⟩
    show Except.map _ (Except.map _ (prover.prove task)) = _
    cases prover.prove task <;> rfl
  proof_eq _ _ := id

/-- The same circuits, with another executor. -/
def withExecutor (scheduler : AsyncScheduler Snark EvmProof)
    (executor : ProofExecutor Snark EvmProof) : AsyncScheduler Snark EvmProof :=
  { scheduler with executor := executor }

/-- With every deterministic executor and in every order, the concurrent scheduler comes to the same
as the sequential one exactly for the requests that ask for no proof for the chain, that are for a
wrapper above the leaves, or that are rejected before their own task is made. -/
theorem equalsLocal_iff [Inhabited Snark] (scheduler : AsyncScheduler Snark EvmProof)
    (requestId : String) (isEvmProof : Bool) (hfuel : req.params.height < fuel)
    (hregistered : scheduler.Registered req) :
    (∀ executor prover, executor.Follows prover →
      (scheduler.withExecutor executor).EqualsLocal prover requestId fuel req isEvmProof) ↔
      (isEvmProof = true → req.Wraps ∨ ¬ req.Builds) := by
  constructor
  · intro hequals hevm
    subst hevm
    by_contra hnot
    obtain ⟨hwraps, hbuilds⟩ := not_or.mp hnot
    let prover : ProverFunction Snark EvmProof := snarkProver default
    let concurrent := scheduler.withExecutor (executorOf prover)
    have hexecutor : concurrent.executor.Follows prover := follows_executorOf prover
    have hregistered : concurrent.Registered req := hregistered
    have hpanic : (concurrent.localScheduler prover).recursiveGenProof fuel req true =
        .error .panicked := by
      rw [← LocalScheduler.map_fst_runWithTasks,
        runWithTasks_panics hfuel hregistered hwraps (not_not.mp hbuilds) ?_]
      · rfl
      · rintro failure ⟨circuitId, request, message, ⟨⟩, -⟩
    obtain ⟨tr, q, hrun, hfinal⟩ := exists_run_final (exists_answer hexecutor)
      (concurrent.recursiveGenProof requestId fuel req true)
    have houtcome := (hequals _ prover hexecutor).outcome_eq tr q hrun hfinal
    rcases hfinal with rfl | ⟨result, rfl⟩
    · obtain ⟨-, -, hcrashes⟩ := meets_recursiveGenProof _ _ _ _ _ _ _ hrun
      exact (hcrashes rfl prover hexecutor hregistered hfuel).1 (not_not.mp hbuilds)
    · cases result <;> cases houtcome.trans hpanic
  · intro hevm executor prover hexecutor
    exact equalsLocal hexecutor requestId hfuel hregistered hevm

/-- A prover whose snarks list where their leaves start. -/
def startsProver : ProverFunction (List ℕ) (List ℕ) where
  prove task :=
    match task.isEvmProof, task.request with
    | true, .evm request => .ok (.evmProof request.snark)
    | false, .evm request => .ok (.snark request.snark)
    | _, .leaf request => .ok (.snark [request.start])
    | _, .intermediate request => .ok (.snark request.snarks.flatten)
    | _, .root request => .ok (.snark request.snarks.flatten)
  isSnark _ request _ := by cases request <;> exact nofun
  isEvmProof _ _ _ := nofun

/-- A scheduler whose executor runs this prover. -/
def startsScheduler : AsyncScheduler (List ℕ) (List ℕ) where
  executor := executorOf startsProver
  circuitIdRepo _ := some "circuit"
  cidToParams _ := some ⟨.leaf, 0, 0⟩
  vk := soleVk

/-- Three claims below a wrapped root of depth 2 are proven in any order, and their leaves are
aggregated from left to right: the single leaf of the second half twice. -/
theorem equalsLocal_three :
    ((soleRequest 3 ⟨.evm 0, 2, 0⟩).params.height < 4 ∧
      startsScheduler.Registered (soleRequest 3 ⟨.evm 0, 2, 0⟩)) ∧
    (∀ executor prover, executor.Follows prover →
      (startsScheduler.withExecutor executor).EqualsLocal prover "request" 4
        (soleRequest 3 ⟨.evm 0, 2, 0⟩) true) ∧
    ∀ tr q, Run startsScheduler.Answers (startsScheduler.recursiveGenProof "request" 4
        (soleRequest 3 ⟨.evm 0, 2, 0⟩) true) tr q → q.Final →
      outcome q = .ok (.evmProof [0, 1, 2, 2]) := by
  have hfuel : (soleRequest 3 ⟨.evm 0, 2, 0⟩).params.height < 4 := by decide
  have hregistered : startsScheduler.Registered (soleRequest 3 ⟨.evm 0, 2, 0⟩) :=
    fun _ _ => ⟨"circuit", rfl, rfl⟩
  have hequals := (equalsLocal_iff startsScheduler "request" true hfuel hregistered).mpr
    fun _ => .inl ⟨by decide, 0, rfl⟩
  refine ⟨⟨hfuel, hregistered⟩, hequals, fun tr q hrun hfinal => ?_⟩
  exact (hequals _ _ (follows_executorOf startsProver)).outcome_eq tr q hrun hfinal

/-- The wrapper that `local_server` requests by default is as deep as a leaf and is handled by the
circuit of a leaf. Asked for its proof for the chain, the concurrent scheduler returns the answer of
the executor, and the sequential scheduler panics. -/
theorem not_equalsLocal_default :
    (startsScheduler.executor.Follows startsProver ∧
      (soleRequest 1 ⟨.evm 1, 3, 3⟩).params.height < 3 ∧
      startsScheduler.Registered (soleRequest 1 ⟨.evm 1, 3, 3⟩)) ∧
    (∃ tr q, Run startsScheduler.Answers (startsScheduler.recursiveGenProof "request" 3
        (soleRequest 1 ⟨.evm 1, 3, 3⟩) true) tr q ∧ q.Final ∧ outcome q = .ok (.snark [0])) ∧
    (startsScheduler.localScheduler startsProver).recursiveGenProof 3
        (soleRequest 1 ⟨.evm 1, 3, 3⟩) true = .error .panicked ∧
    ¬ startsScheduler.EqualsLocal startsProver "request" 3 (soleRequest 1 ⟨.evm 1, 3, 3⟩) true := by
  have hregistered : startsScheduler.Registered (soleRequest 1 ⟨.evm 1, 3, 3⟩) :=
    fun _ _ => ⟨"circuit", rfl, rfl⟩
  have hanswer (task : ProverTask (List ℕ)) (htask : startsProver.prove task = .ok (.snark [0])) :
      startsScheduler.Answers (.await (soleRequest 1 ⟨.evm 1, 3, 3⟩) task)
        (Except.ok ⟨"task", .snark [0]⟩) :=
    htask.symm
  have hrun : ∃ tr, Run startsScheduler.Answers (startsScheduler.recursiveGenProof "request" 3
      (soleRequest 1 ⟨.evm 1, 3, 3⟩) true) tr (.ret (.ok (.snark [0]))) := by
    have hdeps : (soleRequest 1 ⟨.evm 1, 3, 3⟩).dependencies = .ok [] := rfl
    simp only [recursiveGenProof, getSnarksForDeps, hdeps, orReturn]
    apply Exists.intro
    apply Run.head
    · exact step_joinAll_nil
    -- submitted, answered and recorded
    apply Run.head
    · exact .call (a := ()) trivial
    apply Run.head
    · exact .call (hanswer _ rfl)
    apply Run.head
    · exact .call (a := ()) trivial
    exact .refl
  have hlocal : (startsScheduler.localScheduler startsProver).recursiveGenProof 3
      (soleRequest 1 ⟨.evm 1, 3, 3⟩) true = .error .panicked := rfl
  obtain ⟨tr, hrun⟩ := hrun
  refine ⟨⟨follows_executorOf _, by decide, hregistered⟩, ⟨tr, _, hrun, .inr ⟨_, rfl⟩, rfl⟩, hlocal,
    fun hequals => ?_⟩
  cases (hequals.outcome_eq tr _ hrun (.inr ⟨_, rfl⟩)).trans hlocal

end AsyncScheduler

end WorldcoinAggregation
