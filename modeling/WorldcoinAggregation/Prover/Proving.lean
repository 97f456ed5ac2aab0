import WorldcoinAggregation.Scheduler.Servers

/-!
# The recursion of the local server

`Proving.serve` is the program with which the local server proves what a client asks for, whatever
it means to prove a single circuit: with effects, with several possible outcomes, or with a single
one. Two ways of proving circuits that are related make related programs (`Proving.Related.serve`),
and with a prover that always proves a circuit in the same way, the program is that of the
sequential local server (`Proving.serve_ofState`).
-/

namespace WorldcoinAggregation

/-- How single circuits are proven, and how a program gives up. -/
structure Proving (m : Type → Type) (Snark : Type) where
  fail : {α : Type} → ServeError → m α
  getSnark : (circuitId : String) → RequestRouter Snark → m Snark
  getEvmProof : (circuitId : String) → WorldcoinRequestEvm Snark → m String

namespace Proving

variable {m : Type → Type} [Monad m] {Snark : Type} (proving : Proving m Snark)

/-- Single circuits are proven as before, but for proofs for the chain. -/
def withEvmProof (getEvmProof : (circuitId : String) → WorldcoinRequestEvm Snark → m String) :
    Proving m Snark where
  fail := proving.fail
  getSnark := proving.getSnark
  getEvmProof := getEvmProof

/-- A failure is returned. -/
def orFail {α : Type} : Except ServeError α → m α
  | .ok a => return a
  | .error e => proving.fail e

/-- Runs one task. -/
def generateProof (task : ProverTask Snark) : m (ProverProof Snark String) :=
  if task.isEvmProof then
    match task.request with
    | .evm req => do return .evmProof (← proving.getEvmProof task.circuitId req)
    | .leaf _ | .intermediate _ | .root _ => proving.fail (.failed .panicked)
  else do return .snark (← proving.getSnark task.circuitId task.request)

/-- The snark of a dependency. -/
def intoSnark : ProverProof Snark String → m Snark
  | .snark snark => return snark
  | .evmProof _ => proving.fail (.failed .panicked)

variable (circuitIdRepo : NodeParams → Option String) (vk : VkNative)

/-- The circuit that handles the last step of a request. -/
def getCircuitId (req : RecursiveRequest) : Except ServeError String :=
  match circuitIdRepo req.params with
  | some circuitId => return circuitId
  | none => throw (.failed (.error s!"Circuit ID for {req.params.debug} not found"))

/-- Proves a request, its dependencies first, one after the other. -/
def recursiveGenProof :
    ℕ → RecursiveRequest → (isEvmProof : Bool) → m (ProverProof Snark String)
  | 0, _, _ => proving.fail (.failed .outOfFuel)
  | fuel + 1, req, isEvmProof =>
      match req.dependencies with
      | .error failure => proving.fail (.failed failure)
      | .ok deps => do
          let snarks ← deps.mapM' fun dep => do
            proving.intoSnark (← recursiveGenProof fuel dep false)
          let request ← proving.orFail (orFailed (handleRecursiveRequest vk snarks req))
          let circuitId ← proving.orFail (getCircuitId circuitIdRepo req)
          proving.generateProof ⟨circuitId, isEvmProof, request⟩

/-- Proves what a client asks for, and answers with the proof for the chain, or with nothing. The
recursion ends below the lowest nodes. -/
def serve (task : LocalServer.Request) : m String :=
  match LocalServer.recursiveRequest task with
  | .error e => proving.fail e
  | .ok req =>
      let forEvm := task.forEvm.getD true
      do
        let proof ← proving.recursiveGenProof circuitIdRepo vk (req.params.height + 1) req forEvm
        if forEvm then
          match proof with
          | .evmProof evmProof => return evmProof
          | .snark _ => proving.fail (.failed .panicked)
        else
          return ""

/-! ## Two ways of proving -/

/-- Two ways of proving that are related for single circuits and stay related when they go on. -/
structure Related {n : Type → Type} [Monad n] (proving : Proving m Snark)
    (proving' : Proving n Snark) (rel : {α : Type} → m α → n α → Prop) : Prop where
  pure : ∀ {α : Type} (a : α), rel (pure a) (pure a)
  bind : ∀ {α β : Type} {x : m α} {y : n α} {f : α → m β} {g : α → n β},
    rel x y → (∀ a, rel (f a) (g a)) → rel (x >>= f) (y >>= g)
  fail : ∀ {α : Type} e, rel (proving.fail e : m α) (proving'.fail e)
  getSnark : ∀ circuitId request,
    rel (proving.getSnark circuitId request) (proving'.getSnark circuitId request)
  getEvmProof : ∀ circuitId req,
    rel (proving.getEvmProof circuitId req) (proving'.getEvmProof circuitId req)

namespace Related

variable {n : Type → Type} [Monad n] {proving : Proving m Snark} {proving' : Proving n Snark}
  {rel : {α : Type} → m α → n α → Prop} {circuitIdRepo : NodeParams → Option String} {vk : VkNative}

/-- Related programs for the elements of a list. -/
theorem mapM' (h : proving.Related proving' rel) {α β : Type} {f : α → m β} {g : α → n β}
    (hf : ∀ a, rel (f a) (g a)) (l : List α) : rel (l.mapM' f) (l.mapM' g) := by
  induction l with
  | nil => exact h.pure []
  | cons a l ih => exact h.bind (hf a) fun b => h.bind ih fun bs => h.pure (b :: bs)

/-- Failures are passed on. -/
theorem orFail (h : proving.Related proving' rel) {α : Type} (c : Except ServeError α) :
    rel (proving.orFail c) (proving'.orFail c) := by
  cases c with
  | error e => exact h.fail e
  | ok a => exact h.pure a

/-- Tasks are run in related ways. -/
theorem generateProof (h : proving.Related proving' rel) (task : ProverTask Snark) :
    rel (proving.generateProof task) (proving'.generateProof task) := by
  obtain ⟨circuitId, isEvmProof, request⟩ := task
  cases isEvmProof with
  | false => exact h.bind (h.getSnark _ _) fun snark => h.pure (ProverProof.snark snark)
  | true =>
      cases request with
      | leaf req => exact h.fail _
      | intermediate req => exact h.fail _
      | root req => exact h.fail _
      | evm req => exact h.bind (h.getEvmProof _ _) fun proof => h.pure (ProverProof.evmProof proof)

/-- Requests are proven in related ways. The induction is on the recursion. -/
theorem recursiveGenProof (h : proving.Related proving' rel) (fuel : ℕ) (req : RecursiveRequest)
    (isEvmProof : Bool) : rel (proving.recursiveGenProof circuitIdRepo vk fuel req isEvmProof)
      (proving'.recursiveGenProof circuitIdRepo vk fuel req isEvmProof) := by
  induction fuel generalizing req isEvmProof with
  | zero => exact h.fail _
  | succ fuel ih =>
      unfold Proving.recursiveGenProof
      cases req.dependencies with
      | error failure => exact h.fail _
      | ok deps =>
          refine h.bind (h.mapM' (fun dep => ?_) deps) fun snarks => ?_
          · refine h.bind (ih dep false) fun proof => ?_
            cases proof with
            | snark snark => exact h.pure snark
            | evmProof proof => exact h.fail _
          · refine h.bind (h.orFail _) fun request => ?_
            exact h.bind (h.orFail _) fun circuitId => h.generateProof _

/-- Clients are served in related ways. -/
theorem serve (h : proving.Related proving' rel) (task : LocalServer.Request) :
    rel (proving.serve circuitIdRepo vk task) (proving'.serve circuitIdRepo vk task) := by
  unfold Proving.serve
  cases LocalServer.recursiveRequest task with
  | error e => exact h.fail e
  | ok req =>
      refine h.bind (h.recursiveGenProof _ _ _) fun proof => ?_
      cases task.forEvm.getD true with
      | false => exact h.pure ""
      | true =>
          cases proof with
          | snark snark => exact h.fail _
          | evmProof evmProof => exact h.pure evmProof

end Related

/-! ## The end of the recursion -/

/-- Programs that agree on the elements of a list agree when they run one after the other. -/
theorem mapM'_congr {α β : Type} {f g : α → m β} {l : List α} (h : ∀ a ∈ l, f a = g a) :
    l.mapM' f = l.mapM' g := by
  induction l with
  | nil => rfl
  | cons a l ih =>
      rw [List.mapM'_cons, List.mapM'_cons, h a List.mem_cons_self,
        ih fun b hb => h b (List.mem_cons_of_mem a hb)]

/-- Dependencies are below their request. -/
theorem height_lt {req dep : RecursiveRequest} {deps : List RecursiveRequest}
    (hdeps : req.dependencies = .ok deps) (hdep : dep ∈ deps) :
    dep.params.height < req.params.height := by
  obtain ⟨-, -, -, ⟨-, rfl⟩ | ⟨-, c, hchild, rfl, -⟩⟩ := RecursiveRequest.dependencies_spec hdeps
  · cases hdep
  · obtain ⟨i, -, rfl⟩ := List.mem_map.mp hdep
    have hheight := (NodeParams.isChild_of_child hchild).height_eq
    show c.height < req.params.height
    omega

/-- The snark that proves a dependency. -/
def dependencySnark (fuel : ℕ) (dep : RecursiveRequest) : m Snark := do
  proving.intoSnark (← proving.recursiveGenProof circuitIdRepo vk fuel dep false)

/-- A request is proven from the snarks of its dependencies. -/
theorem recursiveGenProof_succ (fuel : ℕ) (req : RecursiveRequest) (isEvmProof : Bool) :
    proving.recursiveGenProof circuitIdRepo vk (fuel + 1) req isEvmProof =
      (match req.dependencies with
      | .error failure => proving.fail (.failed failure)
      | .ok deps => do
          let snarks ← deps.mapM' (proving.dependencySnark circuitIdRepo vk fuel)
          let request ← proving.orFail (orFailed (handleRecursiveRequest vk snarks req))
          let circuitId ← proving.orFail (getCircuitId circuitIdRepo req)
          proving.generateProof ⟨circuitId, isEvmProof, request⟩) :=
  rfl

variable {proving circuitIdRepo vk} {req : RecursiveRequest} {isEvmProof : Bool} {fuel fuel' : ℕ}

/-- Where no proof for the chain is asked for, it does not matter how one is made. -/
theorem recursiveGenProof_withEvmProof
    {getEvmProof : (circuitId : String) → WorldcoinRequestEvm Snark → m String} :
    (proving.withEvmProof getEvmProof).recursiveGenProof circuitIdRepo vk fuel req false =
      proving.recursiveGenProof circuitIdRepo vk fuel req false := by
  induction fuel generalizing req with
  | zero => rfl
  | succ fuel ih =>
      have hdep (dep : RecursiveRequest) :
          (proving.withEvmProof getEvmProof).dependencySnark circuitIdRepo vk fuel dep =
            proving.dependencySnark circuitIdRepo vk fuel dep := by
        unfold dependencySnark
        rw [ih]
        rfl
      rw [recursiveGenProof_succ, recursiveGenProof_succ, funext hdep]
      rfl

/-- Dependencies are proven by their snarks, so it does not matter how a proof for the chain is
made. -/
theorem dependencySnark_withEvmProof
    {getEvmProof : (circuitId : String) → WorldcoinRequestEvm Snark → m String}
    (dep : RecursiveRequest) :
    (proving.withEvmProof getEvmProof).dependencySnark circuitIdRepo vk fuel dep =
      proving.dependencySnark circuitIdRepo vk fuel dep := by
  unfold dependencySnark
  rw [recursiveGenProof_withEvmProof]
  rfl

/-- The recursion is cut off at no node of the tree. -/
theorem recursiveGenProof_eq (hfuel : req.params.height < fuel)
    (hfuel' : req.params.height < fuel') :
    proving.recursiveGenProof circuitIdRepo vk fuel req isEvmProof =
      proving.recursiveGenProof circuitIdRepo vk fuel' req isEvmProof := by
  induction fuel generalizing fuel' req isEvmProof with
  | zero => omega
  | succ fuel ih =>
      obtain ⟨fuel', rfl⟩ := Nat.exists_eq_add_one_of_ne_zero (Nat.ne_zero_of_lt hfuel')
      rw [recursiveGenProof_succ, recursiveGenProof_succ]
      cases hdeps : req.dependencies with
      | error failure => rfl
      | ok deps =>
          have hbelow (dep : RecursiveRequest) (hdep : dep ∈ deps) :
              proving.dependencySnark circuitIdRepo vk fuel dep =
                proving.dependencySnark circuitIdRepo vk fuel' dep := by
            have hlt := height_lt hdeps hdep
            have hsame : proving.recursiveGenProof circuitIdRepo vk fuel dep false =
                proving.recursiveGenProof circuitIdRepo vk fuel' dep false :=
              ih (by omega) (by omega)
            unfold dependencySnark
            rw [hsame]
          simp only [mapM'_congr hbelow]

/-! ## The sequential local server -/

/-- A prover that always proves a circuit in the same way. -/
def ofState (state : ProvingServerState Snark String) : Proving (Except ServeError) Snark where
  fail e := throw e
  getSnark circuitId request := orFailed (state.getSnark circuitId request)
  getEvmProof circuitId req := orFailed (state.getEvmProof circuitId req)

variable {state : ProvingServerState Snark String} {scheduler : LocalScheduler Snark String}

/-- Failures are passed on. -/
theorem orFailed_bind {α β : Type} (c : Fallible α) (f : α → Fallible β) :
    orFailed (c >>= f) = orFailed c >>= fun a => orFailed (f a) := by
  cases c <;> rfl

/-- Failures are passed on from the elements of a list. -/
theorem orFailed_mapM {α β : Type} (f : α → Fallible β) (l : List α) :
    orFailed (l.mapM f) = l.mapM' fun a => orFailed (f a) := by
  induction l with
  | nil => rfl
  | cons a l ih =>
      rw [List.mapM_cons, List.mapM'_cons, orFailed_bind]
      refine bind_congr fun b => ?_
      rw [orFailed_bind, ih]
      rfl

/-- Failures that are returned stay what they are. -/
theorem orFail_ofState {α : Type} (c : Except ServeError α) : (ofState state).orFail c = c := by
  cases c <;> rfl

/-- Circuits are looked up as by the sequential scheduler. -/
theorem getCircuitId_eq (req : RecursiveRequest) :
    getCircuitId scheduler.circuitIdRepo req = orFailed (scheduler.getCircuitId req) := by
  unfold getCircuitId LocalScheduler.getCircuitId
  cases scheduler.circuitIdRepo req.params <;> rfl

/-- With such a prover, tasks are run as by the sequential scheduler. -/
theorem generateProof_ofState (task : ProverTask Snark) :
    (ofState scheduler.state).generateProof task = orFailed (scheduler.generateProof task) := by
  obtain ⟨circuitId, isEvmProof, request⟩ := task
  cases isEvmProof with
  | false =>
      show _ = orFailed (scheduler.state.getSnark circuitId request >>= fun snark => _)
      rw [orFailed_bind]
      rfl
  | true =>
      cases request with
      | leaf req => rfl
      | intermediate req => rfl
      | root req => rfl
      | evm req =>
          show _ = orFailed (scheduler.state.getEvmProof circuitId req >>= fun proof => _)
          rw [orFailed_bind]
          rfl

/-- With such a prover, requests are proven as by the sequential scheduler. -/
theorem recursiveGenProof_ofState :
    (ofState scheduler.state).recursiveGenProof scheduler.circuitIdRepo scheduler.vk fuel req
      isEvmProof = orFailed (scheduler.recursiveGenProof fuel req isEvmProof) := by
  induction fuel generalizing req isEvmProof with
  | zero => rfl
  | succ fuel ih =>
      have hdep (dep : RecursiveRequest) :
          (ofState scheduler.state).dependencySnark scheduler.circuitIdRepo scheduler.vk fuel dep =
            orFailed (do
              LocalScheduler.intoSnark (← scheduler.recursiveGenProof fuel dep false)) := by
        unfold dependencySnark
        rw [ih, orFailed_bind]
        refine bind_congr fun proof => ?_
        cases proof <;> rfl
      rw [recursiveGenProof_succ, LocalScheduler.recursiveGenProof_succ]
      unfold LocalScheduler.getSnarksForDeps
      cases req.dependencies with
      | error failure => rfl
      | ok deps =>
          have hsnarks : deps.mapM' ((ofState scheduler.state).dependencySnark
              scheduler.circuitIdRepo scheduler.vk fuel) = orFailed (do
                let deps ← .ok deps
                deps.mapM fun dep => do
                  LocalScheduler.intoSnark (← scheduler.recursiveGenProof fuel dep false)) := by
            show _ = orFailed (deps.mapM _)
            rw [orFailed_mapM]
            exact mapM'_congr fun dep _ => hdep dep
          show (deps.mapM' _ >>= _) = _
          rw [hsnarks, orFailed_bind]
          simp only [orFail_ofState, getCircuitId_eq, generateProof_ofState, orFailed_bind]

/-- With such a prover, clients are served as by the sequential local server. -/
theorem serve_ofState {task : LocalServer.Request}
    (hfuel : ∀ req, LocalServer.recursiveRequest task = .ok req → req.params.height < fuel) :
    (ofState scheduler.state).serve scheduler.circuitIdRepo scheduler.vk task =
      (LocalServer.serve scheduler fuel task).map fun evmProof => evmProof.getD "" := by
  unfold serve LocalServer.serve
  cases hrequest : LocalServer.recursiveRequest task with
  | error e => rfl
  | ok req =>
      have hsame : (ofState scheduler.state).recursiveGenProof scheduler.circuitIdRepo scheduler.vk
          (req.params.height + 1) req (task.forEvm.getD true) =
            orFailed (scheduler.recursiveGenProof fuel req (task.forEvm.getD true)) := by
        rw [recursiveGenProof_eq (Nat.lt_succ_self _) (hfuel req hrequest),
          recursiveGenProof_ofState]
      simp only [hsame, bind, Except.bind]
      cases task.forEvm.getD true with
      | false => cases scheduler.recursiveGenProof fuel req false <;> rfl
      | true =>
          cases scheduler.recursiveGenProof fuel req true with
          | error failure => rfl
          | ok proof => cases proof <;> rfl

end Proving

end WorldcoinAggregation
