import WorldcoinAggregation.Prover.Proving
import WorldcoinAggregation.Prover.ProvingRuns

/-!
# Runs of the local server

The local server proves what its clients ask for with a prover of its own. The clients are served at
the same time and share the memory and the directory of the prover, and any of them can clear the
memory. Every client gets what the same program gives with a prover that keeps nothing and works for
this client alone, unless the file for its proof fails (`SharedScheduler.answer_of_reaches`). As
long as steps are made, all clients are answered (`SharedScheduler.answered_of_stuck`).
-/

namespace WorldcoinAggregation

open Async

/-! ## A prover that is shared -/

namespace ProverServer

variable {Snark : Type} (server : ProverServer Snark)

/-- The programs of a prover that is shared. -/
def shared : Proving server.Program Snark where
  fail e := .done (outcome (.error e))
  getSnark circuitId request := server.getSnark circuitId request
  getEvmProof circuitId req := server.getEvmProof circuitId (.evm req)

/-- What can come of proving circuits with a prover that keeps nothing. -/
def alone : Proving (Possible ServeError) Snark where
  fail e := fun o => o = outcome (.error e)
  getSnark circuitId request := server.FreshSnark circuitId request
  getEvmProof circuitId req := server.FreshEvmProof circuitId (.evm req)

/-- What can come of it with a prover that keeps proofs for the chain in files. -/
def keeping (failing : String → Prop) : Proving (Possible ServeError) Snark :=
  server.alone.withEvmProof fun circuitId req =>
    server.EvmProofAnswer failing circuitId (.evm req)

variable {server} {failing : String → Prop} {tasks : String → RequestRouter Snark → Prop}

/-- A shared prover proves as one that keeps proofs for the chain in files. -/
theorem related_yields (hdocumented : server.library.Documented)
    (hconsistent : server.Consistent tasks) :
    server.shared.Related (server.keeping failing)
      (Script.Yields (server.effects tasks failing) (server.inv tasks failing)) where
  pure _ := ⟨rfl, rfl⟩
  bind h hf := h.bind hf
  fail _ := ⟨rfl, rfl⟩
  getSnark _ _ := wp_getSnark hdocumented hconsistent
  getEvmProof _ _ := wp_getEvmProof hconsistent

/-- A prover that always proves a circuit in the same way is one of those that keep nothing, if this
way is possible. -/
theorem related_ofState {state : ProvingServerState Snark String}
    (hsnark : ∀ circuitId request,
      server.FreshSnark circuitId request (outcome (orFailed (state.getSnark circuitId request))))
    (hevmProof : ∀ circuitId req, server.FreshEvmProof circuitId (.evm req)
      (outcome (orFailed (state.getEvmProof circuitId req)))) :
    server.alone.Related (Proving.ofState state) fun c d => c (outcome d) where
  pure _ := rfl
  bind {_ _ x y f g} hx hf := by
    refine ⟨outcome y, hx, ?_⟩
    cases y with
    | ok a => exact hf a
    | error e =>
        rcases e with message | failure
        · rfl
        · cases failure <;> rfl
  fail _ := rfl
  getSnark := hsnark
  getEvmProof := hevmProof

/-- A prover that keeps nothing proves a circuit in one way only if there is only one. -/
theorem related_ofState_of_forall {state : ProvingServerState Snark String}
    (hsnark : ∀ circuitId request o, server.FreshSnark circuitId request o →
      o = outcome (orFailed (state.getSnark circuitId request)))
    (hevmProof : ∀ circuitId req o, server.FreshEvmProof circuitId (.evm req) o →
      o = outcome (orFailed (state.getEvmProof circuitId req))) :
    server.alone.Related (Proving.ofState state) fun c d => ∀ o, c o → o = outcome d where
  pure _ _ ho := ho
  bind {_ _ x y f g} hx hf o ho := by
    obtain ⟨o', hc, ho⟩ := ho
    obtain rfl := hx o' hc
    cases y with
    | ok a => exact hf a o ho
    | error e =>
        rcases e with message | failure
        · exact ho
        · cases failure <;> exact ho
  fail _ _ ho := ho
  getSnark := hsnark
  getEvmProof := hevmProof

/-- A shared prover takes the mutex for each task and gives it back. -/
theorem related_orderly : server.shared.Related server.shared
    fun p _ => Orderly (fun _ _ => True) p false false where
  pure _ := rfl
  bind h hf := h.bind hf
  fail _ := rfl
  getSnark _ _ := orderly_getSnark trivial
  getEvmProof _ _ := orderly_getEvmProof trivial

/-! ## Files that fail -/

variable {α β : Type} {files : String → Prop} {mk : String → β}

variable (failing) in
/-- Instead of a proof for the chain that can come of something, there is the error that it cannot
be written to one of these files, or a part of it from one of them that was cut off. -/
def FileFails (files : String → Prop) (mk : String → β) (c : Possible ServeError β)
    (o : Outcome ServeError β) : Prop :=
  ∃ file evmProof, files file ∧ c (.ok (mk evmProof)) ∧
    (o = .error (writeError file) ∨
      failing file ∧ ∃ text : String, text.toList <+: evmProof.toList ∧ o = .ok (mk text))

/-- When going on with a result, files fail after it. -/
theorem bind_or_fileFails {c : Possible ServeError α} {f g : α → Possible ServeError β}
    {o : Outcome ServeError β} (h : (c >>= f) o)
    (hf : ∀ r, c (.ok r) → f r o → g r o ∨ FileFails failing files mk (g r) o) :
    (c >>= g) o ∨ FileFails failing files mk (c >>= g) o := by
  obtain ⟨o', hc, ho⟩ := h
  cases o' with
  | error e => exact .inl ⟨_, hc, ho⟩
  | crashed => exact .inl ⟨_, hc, ho⟩
  | ok r =>
      rcases hf r hc ho with hg | ⟨file, evmProof, hfile, hg, hfails⟩
      · exact .inl ⟨_, hc, hg⟩
      · exact .inr ⟨file, evmProof, hfile, ⟨_, hc, hg⟩, hfails⟩

/-- Only the file for the proof of a task can fail. -/
theorem generateProof_or_fileFails {circuitId : String} {isEvmProof : Bool}
    {request : RequestRouter Snark} {o : Outcome ServeError (ProverProof Snark String)}
    (h : (server.keeping failing).generateProof ⟨circuitId, isEvmProof, request⟩ o) :
    server.alone.generateProof ⟨circuitId, isEvmProof, request⟩ o ∨
      FileFails failing
        (fun file => evmProofPath server.outDir server.hash circuitId request = some file)
        .evmProof (server.alone.generateProof ⟨circuitId, isEvmProof, request⟩) o := by
  cases isEvmProof with
  | false => exact .inl h
  | true =>
      cases request with
      | leaf req => exact .inl h
      | intermediate req => exact .inl h
      | root req => exact .inl h
      | evm req =>
          obtain ⟨o', hfresh | ⟨file, evmProof, hpath, hfresh, hfails⟩, ho⟩ := h
          · exact .inl ⟨o', hfresh, ho⟩
          · refine .inr ⟨file, evmProof, hpath, ⟨_, hfresh, rfl⟩, ?_⟩
            rcases hfails with rfl | ⟨hfailing, text, hpart, rfl⟩
            · exact .inl ho
            · exact .inr ⟨hfailing, text, hpart, ho⟩

variable {circuitIdRepo : NodeParams → Option String} {vk : VkNative} {req : RecursiveRequest}
  {isEvmProof : Bool} {fuel : ℕ}

/-- What is returned is no failure. -/
theorem eq_ok_of_orFail {c : Except ServeError α} {a : α}
    (h : server.alone.orFail c (.ok a)) : c = .ok a := by
  cases c with
  | ok b => exact congrArg Except.ok (Outcome.ok.inj h).symm
  | error e =>
      rcases e with message | failure
      · cases h
      · cases failure <;> cases h

variable (server circuitIdRepo vk req) in
/-- The files in which the proof for the chain of a request may be kept. -/
def KeptIn (file : String) : Prop :=
  ∃ snarks request circuitId, handleRecursiveRequest vk snarks req = .ok request ∧
    Proving.getCircuitId circuitIdRepo req = .ok circuitId ∧
      evmProofPath server.outDir server.hash circuitId request = some file

/-- In a recursion, only the file for the proof of the request itself can fail. -/
theorem recursiveGenProof_or_fileFails {o : Outcome ServeError (ProverProof Snark String)}
    (h : (server.keeping failing).recursiveGenProof circuitIdRepo vk fuel req isEvmProof o) :
    server.alone.recursiveGenProof circuitIdRepo vk fuel req isEvmProof o ∨
      FileFails failing (server.KeptIn circuitIdRepo vk req) .evmProof
        (server.alone.recursiveGenProof circuitIdRepo vk fuel req isEvmProof) o := by
  cases fuel with
  | zero => exact .inl h
  | succ fuel =>
      have hdep (dep : RecursiveRequest) :
          (server.keeping failing).dependencySnark circuitIdRepo vk fuel dep =
            server.alone.dependencySnark circuitIdRepo vk fuel dep :=
        Proving.dependencySnark_withEvmProof dep
      rw [Proving.recursiveGenProof_succ, funext hdep] at h
      rw [Proving.recursiveGenProof_succ]
      generalize req.dependencies = dependencies at h ⊢
      cases dependencies with
      | error failure => exact .inl h
      | ok deps =>
          refine bind_or_fileFails h fun snarks _ h => ?_
          refine bind_or_fileFails h fun request hrequest h => ?_
          refine bind_or_fileFails h fun circuitId hcircuitId h => ?_
          rcases generateProof_or_fileFails h with h | ⟨file, evmProof, hpath, hrest⟩
          · exact .inl h
          · have hhandled := orFailed_eq_ok.mp (eq_ok_of_orFail hrequest)
            exact .inr ⟨file, evmProof, ⟨snarks, request, circuitId, hhandled,
              eq_ok_of_orFail hcircuitId, hpath⟩, hrest⟩

/-- For a client, only the file for its own proof can fail. -/
theorem serve_or_fileFails {task : LocalServer.Request} {o : Outcome ServeError String}
    (h : (server.keeping failing).serve circuitIdRepo vk task o) :
    server.alone.serve circuitIdRepo vk task o ∨
      ∃ req, LocalServer.recursiveRequest task = .ok req ∧ task.forEvm.getD true = true ∧
        FileFails failing (server.KeptIn circuitIdRepo vk req) id
          (server.alone.serve circuitIdRepo vk task) o := by
  unfold Proving.serve at h ⊢
  generalize LocalServer.recursiveRequest task = request at h ⊢
  cases request with
  | error e => exact .inl h
  | ok req =>
      obtain ⟨o', hproof, ho⟩ := h
      generalize task.forEvm.getD true = forEvm at hproof ho ⊢
      cases forEvm with
      | false =>
          have hsame : (server.keeping failing).recursiveGenProof circuitIdRepo vk
              (req.params.height + 1) req false = server.alone.recursiveGenProof circuitIdRepo vk
                (req.params.height + 1) req false := Proving.recursiveGenProof_withEvmProof
          rw [hsame] at hproof
          exact .inl ⟨o', hproof, ho⟩
      | true =>
          rcases recursiveGenProof_or_fileFails hproof with
            hproof | ⟨file, evmProof, hfile, hproof, hfails⟩
          · exact .inl ⟨o', hproof, ho⟩
          · refine .inr ⟨req, rfl, rfl, file, evmProof, hfile, ⟨_, hproof, rfl⟩, ?_⟩
            rcases hfails with rfl | ⟨hfailing, text, hpart, rfl⟩
            · exact .inl ho
            · exact .inr ⟨hfailing, text, hpart, ho⟩

end ProverServer

/-! ## Runs -/

/-- The scheduler of the local server: its prover, the circuits of nodes, and the verifying key. -/
structure SharedScheduler (Snark : Type) where
  state : ProverServer Snark
  circuitIdRepo : NodeParams → Option String
  vk : VkNative

namespace SharedScheduler

variable {Snark : Type} (scheduler : SharedScheduler Snark)

/-- What a client of the local server sends. -/
inductive Message where
  | prove (task : LocalServer.Request)
  | reset

/-- Handles what a client sends. -/
def handle : Message → scheduler.state.Program String
  | .prove task => scheduler.state.shared.serve scheduler.circuitIdRepo scheduler.vk task
  | .reset => do
      scheduler.state.reset
      return ""

/-- What can come of what a client sends, if a prover that keeps nothing works for it alone. -/
def Answer : Message → Possible ServeError String
  | .prove task => scheduler.state.alone.serve scheduler.circuitIdRepo scheduler.vk task
  | .reset => return ""

/-- Instead of a proof for the chain that a client can get from such a prover, it gets the error
that the proof cannot be written to its own file, or a part of it from that file, which was cut off
when it was written. -/
def FileFails (failing : String → Prop) : Message → Outcome ServeError String → Prop
  | .prove task, o => ∃ req, LocalServer.recursiveRequest task = .ok req ∧
      task.forEvm.getD true = true ∧ ProverServer.FileFails failing
        (scheduler.state.KeptIn scheduler.circuitIdRepo scheduler.vk req) id
          (scheduler.Answer (.prove task)) o
  | .reset, _ => False

/-- The programs of all clients, who has the mutex, the memory, and the directory. -/
abbrev State (ι : Type) :=
  Script.World ι (ProverEffect scheduler.state.library) (OutDirEffect scheduler.state.library)
    (ProverMemory scheduler.state.library) (OutDir Snark) ServeError String ProverEffect.Answer
    OutDirEffect.Answer

/-- Clients have sent these to a local server with this directory and nothing in memory. -/
def start {ι : Type} (messages : ι → Message) (dir : OutDir Snark) : scheduler.State ι :=
  ⟨fun i => scheduler.handle (messages i), none, fun _ _ => none, dir⟩

variable {scheduler} {tasks : String → RequestRouter Snark → Prop} {failing : String → Prop}
  {ι : Type} [DecidableEq ι] {messages : ι → Message}

/-- In any run of the local server in which these circuits and requests come up, every client gets
what it can get from a prover that keeps nothing and works for it alone, unless the file for its
proof for the chain fails. -/
theorem answer_of_reaches (hdocumented : scheduler.state.library.Documented)
    (hconsistent : scheduler.state.Consistent tasks) {dir : OutDir Snark}
    (hdir : scheduler.state.Stored tasks failing dir) {w : scheduler.State ι}
    (hreaches : Script.Reaches (scheduler.state.effects tasks failing)
      (scheduler.start messages dir) w) {i : ι} {o : Outcome ServeError String}
    (hdone : w.scripts i = .done o) :
    scheduler.Answer (messages i) o ∨ scheduler.FileFails failing (messages i) o := by
  have hyields (i : ι) : Script.Yields (scheduler.state.effects tasks failing)
      (scheduler.state.inv tasks failing) (scheduler.handle (messages i))
      (fun o => scheduler.Answer (messages i) o ∨
        scheduler.FileFails failing (messages i) o) := by
    cases messages i with
    | prove task =>
        have hserve : Script.Yields (scheduler.state.effects tasks failing)
            (scheduler.state.inv tasks failing) (scheduler.handle (.prove task))
            ((scheduler.state.keeping failing).serve scheduler.circuitIdRepo scheduler.vk task) :=
          (ProverServer.related_yields hdocumented hconsistent).serve task
        refine Script.wp_mono hserve fun o own ho => ?_
        exact ⟨ho.1, ProverServer.serve_or_fileFails ho.2⟩
    | reset =>
        refine Script.Computes.yields ?_ (.inl rfl)
        exact ProverServer.computes_reset.bind fun _ _ => Script.computes_done _
  have hholds := Script.holds_start ProverServer.kept_empty hdir hyields
  exact (hholds.of_reaches hreaches).good_of_done hdone

/-- The answers of the sequential local server are possible if those of its prover are. -/
theorem answer_serve {state : ProvingServerState Snark String} {fuel : ℕ}
    (hsnark : ∀ circuitId request, scheduler.state.FreshSnark circuitId request
      (ProverServer.outcome (orFailed (state.getSnark circuitId request))))
    (hevmProof : ∀ circuitId req, scheduler.state.FreshEvmProof circuitId (.evm req)
      (ProverServer.outcome (orFailed (state.getEvmProof circuitId req))))
    {task : LocalServer.Request}
    (hfuel : ∀ req, LocalServer.recursiveRequest task = .ok req → req.params.height < fuel) :
    scheduler.Answer (.prove task) (ProverServer.outcome
      ((LocalServer.serve ⟨state, scheduler.circuitIdRepo, scheduler.vk⟩ fuel task).map
        fun evmProof => evmProof.getD "")) := by
  rw [← Proving.serve_ofState hfuel]
  exact (ProverServer.related_ofState hsnark hevmProof).serve task

variable (failing) in
/-- One of the clients makes a step, whatever circuit and request comes up. -/
abbrev Step (w w' : scheduler.State ι) : Prop :=
  Script.Step (scheduler.state.effects (fun _ _ => True) failing) w w'

variable (failing) in
/-- The local server can get from one state to another. -/
abbrev Reaches (w w' : scheduler.State ι) : Prop :=
  Script.Reaches (scheduler.state.effects (fun _ _ => True) failing) w w'

/-- Whatever clients send, the mutex is taken and given back. -/
theorem holds_of_reaches {dir : OutDir Snark} {w : scheduler.State ι}
    (hreaches : Reaches failing (scheduler.start messages dir) w) :
    w.Holds (scheduler.state.effects (fun _ _ => True) failing) ⟨fun _ => True, fun _ => True⟩
      fun _ _ => True := by
  have horderly (i : ι) :
      ProverServer.Orderly (fun _ _ => True) (scheduler.handle (messages i)) false false := by
    cases messages i with
    | prove task => exact ProverServer.related_orderly.serve task
    | reset => exact ProverServer.orderly_reset.bind fun _ => rfl
  exact (Script.holds_of_orderly horderly).of_reaches hreaches

/-- A local server with a prover that makes lists of claims. -/
def claimsLocal : SharedScheduler (List ℕ) where
  state := ProverServer.claimsServer
  circuitIdRepo params :=
    match params.nodeType with
    | .leaf => some "leaf"
    | .intermediate => some "inter"
    | .root => some "root"
    | .evm _ => some "evm"
  vk := soleVk

/-- What its prover gives for a circuit. -/
def claimsState : ProvingServerState (List ℕ) String where
  getSnark _ request := .ok (ProverServer.coveredClaims request)
  getEvmProof _ req := .ok (.ofList (req.snark.flatMap (Nat.toDigits 16)))

/-- A client of this local server has only one answer if no file fails. -/
theorem eq_of_answer {task : LocalServer.Request} {o : Outcome ServeError String}
    (h : claimsLocal.Answer (.prove task) o) : o = ProverServer.outcome
      ((Proving.ofState claimsState).serve claimsLocal.circuitIdRepo claimsLocal.vk task) := by
  refine (ProverServer.related_ofState_of_forall ?_ ?_).serve task o h
  · intro circuitId request o hfresh
    exact ProverServer.eq_of_freshSnark hfresh
  · intro circuitId req o hfresh
    obtain ⟨_, rfl, rfl⟩ := hfresh
    rfl

/-- A task for two claims with one claim in each leaf, for the chain or not. -/
def pairTask (forEvm : Bool) : LocalServer.Request where
  start := 0
  end_ := 2
  root := 7
  claims := [soleNative, soleNative]
  initialDepth := some 0
  depth := some 1
  isFinal := some true
  forEvm := some forEvm
  rounds := some 0

/-- Two clients have the same claims proven, one of them for the chain, and one has the memory
cleared. -/
def sharedMessages : Fin 3 → Message
  | 0 => .prove (pairTask false)
  | 1 => .prove (pairTask true)
  | 2 => .reset

/-- A directory in which the snark of the first leaf of both is cached. -/
def leafDir : OutDir (List ℕ) :=
  ProverServer.cachedDir "leaf" (.leaf ⟨0, 1, 0, soleVk, 7, [soleNative]⟩)

/-- All clients come to their ends, and the one that asks for a proof for the chain gets it, or the
error that it cannot be written. -/
theorem answer_of_reaches_cached : ∃ w : claimsLocal.State (Fin 3),
    Reaches (fun _ => False) (claimsLocal.start sharedMessages leafDir) w ∧
      w.scripts 0 = .done (.ok "") ∧ w.scripts 2 = .done (.ok "") ∧
        (w.scripts 1 = .done (.ok "01") ∨
          ∃ file, w.scripts 1 = .done (.error (ProverServer.writeError file))) := by
  have hrefl : Reaches (fun _ => False) (claimsLocal.start sharedMessages leafDir) _ := .refl
  obtain ⟨w, hreaches, -, hended⟩ := (holds_of_reaches hrefl).reaches_ended
    (ProverServer.answering ProverServer.terminating_claimsServer) Finset.univ
  have hanswer (i : Fin 3) (o : Outcome ServeError String) (hdone : w.scripts i = .done o) :
      claimsLocal.Answer (sharedMessages i) o ∨
        claimsLocal.FileFails (fun _ => False) (sharedMessages i) o :=
    answer_of_reaches ProverServer.documented_claimsServer ProverServer.consistent_claimsServer
      ProverServer.stored_cachedDir hreaches hdone
  obtain ⟨o₀, h₀⟩ := hended 0 (Finset.mem_univ 0)
  obtain ⟨o₁, h₁⟩ := hended 1 (Finset.mem_univ 1)
  obtain ⟨o₂, h₂⟩ := hended 2 (Finset.mem_univ 2)
  refine ⟨w, hreaches, ?_, ?_, ?_⟩
  · rcases hanswer 0 o₀ h₀ with hanswer | ⟨_, _, hfalse, _⟩
    · rw [h₀, eq_of_answer hanswer]
      rfl
    · cases hfalse
  · rcases hanswer 2 o₂ h₂ with hanswer | hfails
    · obtain rfl : o₂ = .ok "" := hanswer
      exact h₂
    · exact hfails.elim
  · rcases hanswer 1 o₁ h₁ with hanswer | ⟨_, _, _, file, _, _, _, rfl | ⟨hfalse, _⟩⟩
    · refine .inl ?_
      rw [h₁, eq_of_answer hanswer]
      rfl
    · exact .inr ⟨file, h₁⟩
    · exact hfalse.elim

/-- From every state that the local server reaches with finitely many clients: no step can be made
exactly when all of them have been answered and nobody has the mutex, and this comes about whichever
of the clients make their steps, as long as one of those that can does. -/
theorem answered_of_stuck [Finite ι] (hterminating : scheduler.state.library.Terminating)
    {dir : OutDir Snark} {w : scheduler.State ι}
    (hreaches : Reaches failing (scheduler.start messages dir) w) :
    ((∀ w', ¬ Step failing w w') ↔ w.holder = none ∧ ∀ i, w.Ended i) ∧
    ∀ run : ℕ → scheduler.State ι, run 0 = w →
      (∀ n, (∃ w', Step failing (run n) w') → Step failing (run n) (run (n + 1))) →
        ∃ n, Reaches failing w (run n) ∧ (run n).holder = none ∧ ∀ i, (run n).Ended i := by
  have hanswering : Script.Answering (scheduler.state.effects (fun _ _ => True) failing)
      ⟨fun _ => True, fun _ => True⟩ := ProverServer.answering hterminating
  have hholds := holds_of_reaches hreaches
  exact ⟨hholds.stuck_iff hanswering, fun run hstart hrun =>
    hholds.ended_of_run hanswering hstart hrun⟩

/-- One of two clients that need the same snarks has taken the mutex and the other one waits for it.
A step can be made, and in the end all have been answered. -/
theorem answered_of_stuck_shared : ∃ w : claimsLocal.State (Fin 3),
    Reaches (fun _ => True) (claimsLocal.start sharedMessages leafDir) w ∧
      w.holder = some 0 ∧ (∃ k, w.scripts 1 = .lock k) ∧ (∃ w', Step (fun _ => True) w w') ∧
        ∃ w', Reaches (fun _ => True) w w' ∧ (∀ w'', ¬ Step (fun _ => True) w' w'') ∧
          w'.holder = none ∧ ∀ i, w'.Ended i := by
  have hterminating : claimsLocal.state.library.Terminating := ProverServer.terminating_claimsServer
  obtain ⟨k, hk⟩ : ∃ k, (claimsLocal.start sharedMessages leafDir).scripts 0 = .lock k := ⟨_, rfl⟩
  obtain ⟨w, hstep, hholder, hwaits⟩ : ∃ w,
      Step (fun _ => True) (claimsLocal.start sharedMessages leafDir) w ∧ w.holder = some 0 ∧
        ∃ k, w.scripts 1 = .lock k := ⟨_, .lock hk rfl, rfl, _, rfl⟩
  have hreaches : Reaches (fun _ => True) (claimsLocal.start sharedMessages leafDir) w :=
    .single hstep
  obtain ⟨hstuck, hended⟩ := answered_of_stuck hterminating hreaches
  have hmoves : ∃ w', Step (fun _ => True) w w' := by
    by_contra hnone
    have hfree := (hstuck.mp (not_exists.mp hnone)).1
    cases hholder.symm.trans hfree
  obtain ⟨run, hstart, hrun⟩ := Script.exists_run
    (claimsLocal.state.effects (fun _ _ => True) fun _ => True) w
  obtain ⟨n, hlater, hfree, hall⟩ := hended run hstart hrun
  obtain ⟨hstuck', -⟩ := answered_of_stuck hterminating (hreaches.trans hlater)
  exact ⟨w, hreaches, hholder, hwaits, hmoves, _, hlater, hstuck'.mpr ⟨hfree, hall⟩, hfree, hall⟩

end SharedScheduler

end WorldcoinAggregation
