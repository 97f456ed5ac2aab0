import Mathlib.Logic.Equiv.List
import WorldcoinAggregation.Prover.ProvingAnswers

/-!
# What the prover server answers

Clients send requests to the prover server, and the programs that handle them take turns in any
order. Each of them is answered as by a prover that keeps nothing, but for the files of proofs for
the chain (`answers_of_reaches`). The mutex is given back however a program ends, so all of them can
be answered (`exists_answered`).
-/

namespace WorldcoinAggregation

open Async

namespace ProverServer

variable {Snark : Type} {server : ProverServer Snark} {tasks : String → RequestRouter Snark → Prop}
  {failing : String → Prop} {circuitId : String} {request : RequestRouter Snark}

/-! ## The routes -/

variable (server failing) in
/-- What can come of having a task proven. Failures are not handled. -/
def TaskAnswer (task : ProverTask Snark) (o : Outcome ServeError (Response Snark)) : Prop :=
  match task.request, task.isEvmProof with
  | .evm req, true => ∃ evmProof, server.EvmProofAnswer failing task.circuitId (.evm req) evmProof ∧
      o = (do return .evmProof (← evmProof.unwrap))
  | request, _ => ∃ snark, server.FreshSnark task.circuitId request snark ∧
      o = (do return .snark ⟨task.circuitId, ← snark.unwrap⟩)

variable (server failing) in
/-- What can come of what a client sends. -/
def Answer : Request Snark → Outcome ServeError (Response Snark) → Prop
  | .tasks task, o => server.TaskAnswer failing task o
  | .circuitData task, o => o = (do
      let _ ← server.loadData task.circuitId task.request
      return .done)
  | .reset, o => o = .ok .done

/-- A route that asks for a snark. -/
theorem wp_returnSnark (hdocumented : server.library.Documented)
    (hconsistent : server.Consistent tasks) :
    Script.wp (server.effects tasks failing) (server.inv tasks failing)
      (server.returnSnark circuitId request)
      (fun o own => own = none ∧ ∃ snark, server.FreshSnark circuitId request snark ∧
        o = (do return .snark ⟨circuitId, ← snark.unwrap⟩)) none := by
  refine Script.wp_bind (Script.wp_unwrap ?_)
  refine Script.wp_mono (wp_getSnark hdocumented hconsistent) fun o own ho => ?_
  obtain ⟨rfl, hfresh⟩ := ho
  cases o with
  | ok snark => exact ⟨rfl, _, hfresh, rfl⟩
  | error e => exact ⟨rfl, _, hfresh, rfl⟩
  | crashed => exact ⟨rfl, _, hfresh, rfl⟩

/-- A task is answered as by a prover that keeps nothing, but for the files of proofs for the
chain. -/
theorem wp_serve (hdocumented : server.library.Documented)
    (hconsistent : server.Consistent tasks) (task : ProverTask Snark) :
    Script.wp (server.effects tasks failing) (server.inv tasks failing) (server.serve task)
      (fun o own => own = none ∧ server.TaskAnswer failing task o) none := by
  obtain ⟨circuitId, isEvmProof, request⟩ := task
  cases request with
  | leaf req => exact wp_returnSnark hdocumented hconsistent
  | intermediate req => exact wp_returnSnark hdocumented hconsistent
  | root req => exact wp_returnSnark hdocumented hconsistent
  | evm req =>
      cases isEvmProof with
      | false => exact wp_returnSnark hdocumented hconsistent
      | true =>
          refine Script.wp_bind (Script.wp_unwrap ?_)
          refine Script.wp_mono (wp_getEvmProof hconsistent) fun o own ho => ?_
          obtain ⟨rfl, hanswer⟩ := ho
          cases o with
          | ok evmProof => exact ⟨rfl, _, hanswer, rfl⟩
          | error e => exact ⟨rfl, _, hanswer, rfl⟩
          | crashed => exact ⟨rfl, _, hanswer, rfl⟩

/-- The data for a task is loaded, or what keeps it from being loaded is returned. -/
theorem computes_loadCircuitData (hconsistent : server.Consistent tasks) {task : ProverTask Snark}
    (htask : tasks task.circuitId task.request) :
    Computes tasks failing (server.loadCircuitData task) (do
      let _ ← server.loadData task.circuitId task.request
      return .done) :=
  (computes_buildCircuit hconsistent htask).bind fun _ _ => Script.computes_done _

/-- Clearing a table keeps the invariant. -/
theorem computes_clear (table : CacheTable) :
    Computes tasks failing (server.ask (.clear table)) (.ok ()) := by
  refine Script.computes_ask fun memory a memory' hmemory heffect => ?_
  obtain rfl := heffect
  exact ⟨hmemory.clear table, rfl⟩

/-- Clearing the memory keeps the invariant. -/
theorem computes_reset : Computes tasks failing server.reset (.ok ()) := by
  refine (computes_clear .srs).bind fun _ _ => ?_
  refine (computes_clear .pinning).bind fun _ _ => ?_
  exact (computes_clear .pk).bind fun _ _ => Script.computes_done _

/-! ## The use of the mutex -/

/-- An effect logs no circuits and requests but these. -/
def Logs (tasks : String → RequestRouter Snark → Prop) : ProverEffect server.library → Prop
  | .log circuitId request => tasks circuitId request
  | .get _ _ => True
  | .insert _ _ _ => True
  | .clear _ => True
  | .openFile _ => True
  | .genEvmProofShplonk _ _ _ _ => True

/-- A program uses the mutex as it should, from having it or not to having it at the end or not. -/
abbrev Orderly {α : Type} (tasks : String → RequestRouter Snark → Prop) (p : server.Program α)
    (now last : Bool) : Prop :=
  Script.Orderly (Logs tasks) last now p

variable {now : Bool}

/-- Opening a file leaves the mutex alone. -/
theorem orderly_openFile (path : String) : Orderly tasks (server.openFile path) now now :=
  .bind (Script.orderly_ask trivial) fun _ => rfl

/-- Reading through a table leaves the mutex alone if reading does. -/
theorem orderly_readThrough {table : CacheTable} {key : table.Key}
    {read : server.Program (server.library.Cached table)} (hread : Orderly tasks read now now) :
    Orderly tasks (server.readThrough table key read) now now := by
  refine .bind (Script.orderly_ask trivial) fun cached => ?_
  cases cached with
  | some value => rfl
  | none =>
      refine hread.bind fun value => ?_
      exact .bind (Script.orderly_ask trivial) fun _ => rfl

/-- Finding the data of a circuit leaves the mutex alone. -/
theorem orderly_buildCircuit (circuitId : String) (request : RequestRouter Snark) :
    Orderly tasks (server.buildCircuit circuitId request) now now := by
  refine .bind (orderly_readThrough ((orderly_openFile _).bind fun _ => rfl)) fun value => ?_
  refine .bind (show Orderly tasks (.done _) now now from rfl) fun pinning => ?_
  refine .bind (orderly_readThrough ((orderly_openFile _).bind fun _ => rfl)) fun srs => ?_
  refine .bind (show Orderly tasks (.done _) now now from rfl) fun circuit => ?_
  refine .bind (orderly_readThrough ?_) fun pk => rfl
  exact .bind (Script.orderly_ask trivial) fun _ => rfl

/-- Making a snark takes the mutex and gives it back. -/
theorem orderly_getSnark (htask : tasks circuitId request) :
    Orderly tasks (server.getSnark circuitId request) false false := by
  refine .withLock (.bind (Script.orderly_ask htask) fun _ => ?_)
  refine .bind (orderly_buildCircuit _ _) fun data => ?_
  refine .bind Script.orderly_askGuarded fun snark => ?_
  cases snark with
  | none => rfl
  | some snark => exact .bind (show Orderly tasks (.done _) true true from rfl) fun _ => rfl

/-- Looking for a proof for the chain is done with the mutex. -/
theorem orderly_readToString (path : Option String) :
    Orderly tasks (server.readToString path) true true := by
  cases path with
  | none => rfl
  | some file => exact Script.orderly_askGuarded

/-- Writing a proof for the chain is done with the mutex. -/
theorem orderly_write (path : Option String) (evmProof : String) :
    Orderly tasks (server.write path evmProof) true true := by
  cases path with
  | none => rfl
  | some file =>
      refine .bind Script.orderly_askGuarded fun created => ?_
      cases created with
      | false => rfl
      | true =>
          refine .bind Script.orderly_askGuarded fun written => ?_
          cases written <;> rfl

/-- Making a proof for the chain takes the mutex and gives it back. -/
theorem orderly_getEvmProof (htask : tasks circuitId request) :
    Orderly tasks (server.getEvmProof circuitId request) false false := by
  refine .withLock (.bind (Script.orderly_ask htask) fun _ => ?_)
  refine .bind (orderly_readToString _) fun cached => ?_
  cases cached with
  | some evmProof => rfl
  | none =>
      refine .bind (orderly_buildCircuit _ _) fun data => ?_
      refine .bind (Script.orderly_ask trivial) fun proof => ?_
      cases proof with
      | none => rfl
      | some proof =>
          refine .bind (show Orderly tasks (.done _) true true from rfl) fun _ => ?_
          exact .bind (orderly_write _ _) fun _ => rfl

/-- A route that asks for a snark. -/
theorem orderly_returnSnark (htask : tasks circuitId request) :
    Orderly tasks (server.returnSnark circuitId request) false false :=
  (orderly_getSnark htask).unwrap.bind fun _ => rfl

/-- Having a task proven takes the mutex and gives it back. -/
theorem orderly_serve {task : ProverTask Snark} (htask : tasks task.circuitId task.request) :
    Orderly tasks (server.serve task) false false := by
  obtain ⟨circuitId, isEvmProof, request⟩ := task
  cases request with
  | leaf req => exact orderly_returnSnark htask
  | intermediate req => exact orderly_returnSnark htask
  | root req => exact orderly_returnSnark htask
  | evm req =>
      cases isEvmProof with
      | false => exact orderly_returnSnark htask
      | true => exact (orderly_getEvmProof htask).unwrap.bind fun _ => rfl

/-- Clearing the memory leaves the mutex alone. -/
theorem orderly_reset : Orderly tasks server.reset now now := by
  refine .bind (Script.orderly_ask trivial) fun _ => ?_
  refine .bind (Script.orderly_ask trivial) fun _ => ?_
  exact .bind (Script.orderly_ask trivial) fun _ => rfl

/-! ## Runs -/

/-- Circuits and requests that do not come up do not matter. -/
theorem reaches_logs {ι R : Type} [DecidableEq ι]
    {w w' : Script.World ι (ProverEffect server.library) (OutDirEffect server.library)
      (ProverMemory server.library) (OutDir Snark) ServeError R ProverEffect.Answer
      OutDirEffect.Answer}
    (horderly : ∀ i, Orderly tasks (w.scripts i) false false)
    (hreaches : Script.Reaches (server.effects (fun _ _ => True) failing) w w') :
    Script.Reaches (server.effects tasks failing) w w' := by
  have hguarded : (server.effects tasks failing).guarded =
      (server.effects (fun _ _ => True) failing).guarded := rfl
  refine (hreaches.restrict ?_ hguarded fun i => (horderly i).awaits).1
  intro effect memory a memory' hmay heffect
  cases effect with
  | log circuitId request => exact ⟨hmay, heffect.2⟩
  | get table key => exact heffect
  | insert table key value => exact heffect
  | clear table => exact heffect
  | openFile path => exact heffect
  | genEvmProofShplonk srs pk circuit instances => exact heffect

/-- The circuits and requests that come up when clients send these. -/
def ComesUp {ι : Type} (requests : ι → Request Snark) (circuitId : String)
    (request : RequestRouter Snark) : Prop :=
  ∃ i task, (requests i = .tasks task ∨ requests i = .circuitData task) ∧
    task.circuitId = circuitId ∧ task.request = request

variable (server) in
/-- The programs of all clients, who has the mutex, the memory, and the directory. -/
abbrev State (ι : Type) :=
  Script.World ι (ProverEffect server.library) (OutDirEffect server.library)
    (ProverMemory server.library) (OutDir Snark) ServeError (Response Snark) ProverEffect.Answer
    OutDirEffect.Answer

variable (server) in
/-- Clients have sent these to a prover with this directory and nothing in memory. -/
def start {ι : Type} (requests : ι → Request Snark) (dir : OutDir Snark) : server.State ι :=
  ⟨fun i => server.handle (requests i), none, fun _ _ => none, dir⟩

variable {ι : Type} {requests : ι → Request Snark}

/-- Whatever a client sends, the mutex is taken and given back. -/
theorem orderly_handle
    (hcomes : ∀ circuitId request, ComesUp requests circuitId request → tasks circuitId request)
    (i : ι) : Orderly tasks (server.handle (requests i)) false false := by
  cases hrequest : requests i with
  | tasks task => exact orderly_serve (hcomes _ _ ⟨i, task, .inl hrequest, rfl, rfl⟩)
  | circuitData task => exact (orderly_buildCircuit _ _).bind fun _ => rfl
  | reset => exact orderly_reset.bind fun _ => rfl

/-- Whatever a client sends is answered as by a prover that keeps nothing, but for the files of
proofs for the chain. -/
theorem wp_handle (hdocumented : server.library.Documented)
    (hconsistent : server.Consistent tasks)
    (hcomes : ∀ circuitId request, ComesUp requests circuitId request → tasks circuitId request)
    (i : ι) :
    Script.wp (server.effects tasks failing) (server.inv tasks failing)
      (server.handle (requests i))
      (fun o own => own = none ∧ server.Answer failing (requests i) o) none := by
  cases hrequest : requests i with
  | tasks task => exact wp_serve hdocumented hconsistent task
  | circuitData task =>
      have htask := hcomes _ _ ⟨i, task, .inr hrequest, rfl, rfl⟩
      refine Script.wp_mono (computes_loadCircuitData hconsistent htask none) fun o own ho => ?_
      exact ⟨ho.2, ho.1⟩
  | reset =>
      have hreset : Computes tasks failing (server.handle .reset) (.ok .done) :=
        computes_reset.bind fun _ _ => Script.computes_done _
      exact Script.wp_mono (hreset none) fun o own ho => ⟨ho.2, ho.1⟩

variable (failing) in
/-- The prover can get from one state to another. -/
abbrev Reaches [DecidableEq ι] (w w' : server.State ι) : Prop :=
  Script.Reaches (server.effects (fun _ _ => True) failing) w w'

/-- Whatever is in memory and in the directory, the mutex is used as it should be. -/
theorem holds_of_reaches [DecidableEq ι] {dir : OutDir Snark} {w : server.State ι}
    (hreaches : Reaches failing (server.start requests dir) w) :
    w.Holds (server.effects (fun _ _ => True) failing) ⟨fun _ => True, fun _ => True⟩
      fun _ _ => True := by
  have horderly (i : ι) : Orderly (ComesUp requests) (server.handle (requests i)) false false :=
    orderly_handle (fun _ _ hcomes => hcomes) i
  exact (Script.holds_of_orderly horderly).of_reaches hreaches

/-- Effects are answered if making proofs comes to an end. -/
theorem answering (hterminating : server.library.Terminating) :
    Script.Answering (server.effects (fun _ _ => True) failing)
      ⟨fun _ => True, fun _ => True⟩ := by
  constructor
  · intro effect memory _
    cases effect with
    | get table key => exact ⟨_, _, rfl, rfl⟩
    | insert table key value => exact ⟨(), _, rfl⟩
    | clear table => exact ⟨(), _, rfl⟩
    | openFile path => exact ⟨_, _, rfl, rfl⟩
    | log circuitId request => exact ⟨(), _, trivial, rfl⟩
    | genEvmProofShplonk srs pk circuit instances =>
        obtain ⟨proof, hproof⟩ := hterminating.genEvmProof srs pk circuit instances
        exact ⟨proof, memory, hproof, rfl⟩
  · intro effect dir
    cases effect with
    | genSnarkShplonk srs pk circuit path => exact hterminating.genSnark srs pk circuit path dir
    | readToString path => exact ⟨none, dir, .inl rfl, rfl⟩
    | create path => exact ⟨false, dir, .inl ⟨rfl, rfl⟩⟩
    | writeAll path contents => exact ⟨true, _, .inl ⟨rfl, rfl⟩⟩

/-- In any run, everything in memory is what the files of circuits have, everything in the directory
was made for its request while nobody has the mutex, and everyone is answered as by a prover that
keeps nothing, but for the files of proofs for the chain. -/
theorem answers_of_reaches [DecidableEq ι] (hdocumented : server.library.Documented)
    (hconsistent : server.Consistent tasks)
    (hcomes : ∀ circuitId request, ComesUp requests circuitId request → tasks circuitId request)
    {dir : OutDir Snark} (hdir : server.Stored tasks failing dir)
    {w : server.State ι} (hreaches : Reaches failing (server.start requests dir) w) :
    server.Kept tasks w.shared ∧ (w.holder = none → server.Stored tasks failing w.guarded) ∧
      ∀ i o, w.scripts i = .done o → server.Answer failing (requests i) o := by
  have hholds := (Script.holds_start kept_empty hdir
    (wp_handle hdocumented hconsistent hcomes)).of_reaches
      (reaches_logs (orderly_handle hcomes) hreaches)
  exact ⟨hholds.shared, hholds.guarded, fun i o hi => hholds.good_of_done hi⟩

/-- The claims that a snark of the libraries below is for. -/
def coveredClaims : RequestRouter (List ℕ) → List ℕ
  | .leaf req => List.range' req.start (req.end_ - req.start)
  | .intermediate req => req.snarks.flatten
  | .root req => req.snarks.flatten
  | .evm req => req.snark

/-- Libraries that make lists of claims. A file contains its own path, and a snark is read from its
file if it is there and written there otherwise. -/
def claimsLibrary : ProverLibrary (List ℕ) where
  Bytes := String
  ParamsKZG := String
  Value := String
  Pinning := String
  ProvingKey := String
  Circuit := List ℕ
  Instances := List ℕ
  Proof := List ℕ
  readParams bytes := .ok bytes
  readValue bytes := .ok bytes
  fromValue _ value := .ok value
  getK kind _ := if kind = .leaf then 20 else 22
  proverCircuit request _ _ := .ok (coveredClaims request)
  readPk contents _ := .ok (contents.getD "")
  genSnark _ _ circuit snark := snark = some circuit
  genSnarkShplonk _ _ circuit path dir snark dir' :=
    match path.bind dir.snarks with
    | some cached => snark = some cached ∧ dir' = dir
    | none => snark = some circuit ∧ dir' = { dir with
        snarks := fun file => if path = some file then some circuit else dir.snarks file }
  verifySnarkShplonk _ _ := .ok ()
  instances circuit := circuit
  genEvmProofShplonk _ _ circuit _ proof := proof = some circuit
  verifyEvmProofShplonk _ _ _ _ := .ok ()
  encodeCalldata instances _ := .ofList (instances.flatMap (Nat.toDigits 16))

/-- What the hash of a request below is taken of. -/
def hashedContents : RequestRouter (List ℕ) → List (List (List ℕ))
  | .leaf req => [[req.root]] :: [req.vk.vkAlpha1] :: req.vk.vkBeta2 :: req.vk.vkGamma2 ::
      req.vk.vkDelta2 :: req.vk.ic :: req.claims.map fun claim =>
        [[claim.receiver.toNat, claim.nullifierHash, claim.grantId], claim.proof]
  | .intermediate req => [req.snarks]
  | .root req => [req.snarks]
  | .evm req => [[req.snark]]

/-- A prover with these libraries and a directory for proofs. -/
def claimsServer : ProverServer (List ℕ) where
  library := claimsLibrary
  files path := some path
  srsPath k := s!"kzg_bn254_{k}.srs"
  pinningPath circuitId := s!"{circuitId}.json"
  pkeyPath circuitId := s!"{circuitId}.pk"
  outDir := some "out"
  hash request := Encodable.encode (hashedContents request)
  debugAssertions := true

/-- A snark is read from its file, or made and written there. -/
theorem documented_claimsServer : claimsServer.library.Documented := by
  refine ⟨fun srs pk circuit path dir snark dir' h => ?_⟩
  change (match path.bind dir.snarks with
    | some cached => snark = some cached ∧ dir' = dir
    | none => _) at h
  cases hcached : path.bind dir.snarks with
  | some cached =>
      rw [hcached] at h
      obtain ⟨rfl, rfl⟩ := h
      obtain ⟨file, rfl, hfile⟩ := Option.bind_eq_some_iff.mp hcached
      exact ⟨rfl, .inl ⟨file, cached, rfl, hfile, rfl, rfl⟩⟩
  | none =>
      rw [hcached] at h
      obtain ⟨rfl, rfl⟩ := h
      refine ⟨rfl, .inr ⟨rfl, fun file s hs => ?_⟩⟩
      by_cases hpath : path = some file
      · refine .inr ⟨hpath, ?_⟩
        simpa [hpath] using hs
      · refine .inl ?_
        simpa [hpath] using hs

/-- Proofs are made at once. -/
theorem terminating_claimsServer : claimsServer.library.Terminating := by
  refine ⟨fun srs pk circuit path dir => ?_, fun _ _ circuit _ => ⟨some circuit, rfl⟩⟩
  show ∃ snark dir', match path.bind dir.snarks with
    | some cached => snark = some cached ∧ dir' = dir
    | none => _
  cases path.bind dir.snarks with
  | some cached => exact ⟨_, _, rfl, rfl⟩
  | none => exact ⟨_, _, rfl, rfl⟩

/-- Requests with the same name are the same. -/
theorem eq_of_sameName {request other : RequestRouter (List ℕ)}
    (h : SameName claimsServer.hash request other) : request = other := by
  obtain ⟨hhash, hstart, hend, hparams⟩ := h
  have hcontents : hashedContents request = hashedContents other :=
    Encodable.encode_injective hhash
  have hclaim : Function.Injective fun claim : ClaimNative =>
      [[claim.receiver.toNat, claim.nullifierHash, claim.grantId], claim.proof] := by
    rintro ⟨receiver, _, _, _⟩ ⟨receiver', _, _, _⟩ heq
    simp only [List.cons.injEq, and_true] at heq
    obtain ⟨⟨hreceiver, rfl, rfl⟩, rfl⟩ := heq
    obtain rfl := BitVec.eq_of_toNat_eq hreceiver
    rfl
  cases request with
  | leaf req =>
      obtain ⟨_, _, _, ⟨_, _, _, _, _⟩, _, claims⟩ := req
      cases other with
      | leaf req' =>
          obtain ⟨_, _, _, ⟨_, _, _, _, _⟩, _, claims'⟩ := req'
          simp only [hashedContents, List.cons.injEq, and_true] at hcontents
          obtain ⟨rfl, rfl, rfl, rfl, rfl, rfl, hclaims⟩ := hcontents
          obtain rfl := List.map_injective_iff.mpr hclaim hclaims
          cases hstart
          cases hend
          cases hparams
          rfl
      | intermediate req' => cases congrArg NodeParams.nodeType hparams
      | root req' => cases congrArg NodeParams.nodeType hparams
      | evm req' => cases congrArg NodeParams.nodeType hparams
  | intermediate req =>
      obtain ⟨_, _, _, _, _⟩ := req
      cases other with
      | intermediate req' =>
          obtain ⟨_, _, _, _, _⟩ := req'
          cases hstart
          cases hend
          cases hparams
          cases hcontents
          rfl
      | leaf req' => cases congrArg NodeParams.nodeType hparams
      | root req' => cases congrArg NodeParams.nodeType hparams
      | evm req' => cases congrArg NodeParams.nodeType hparams
  | root req =>
      obtain ⟨_, _, _, _, _⟩ := req
      cases other with
      | root req' =>
          obtain ⟨_, _, _, _, _⟩ := req'
          cases hstart
          cases hend
          cases hparams
          cases hcontents
          rfl
      | leaf req' => cases congrArg NodeParams.nodeType hparams
      | intermediate req' => cases congrArg NodeParams.nodeType hparams
      | evm req' => cases congrArg NodeParams.nodeType hparams
  | evm req =>
      obtain ⟨_, _, _, _, _, _⟩ := req
      cases other with
      | evm req' =>
          obtain ⟨_, _, _, _, _, _⟩ := req'
          cases hstart
          cases hend
          cases hparams
          cases hcontents
          rfl
      | leaf req' => cases congrArg NodeParams.nodeType hparams
      | intermediate req' => cases congrArg NodeParams.nodeType hparams
      | root req' => cases congrArg NodeParams.nodeType hparams

/-- Names of files tell all requests apart. -/
theorem consistent_claimsServer : claimsServer.Consistent fun _ _ => True :=
  ⟨fun _ _ _ _ _ hname => eq_of_sameName hname, fun _ _ _ _ _ _ _ _ _ _ _ => rfl⟩

/-- The only outcome of making a snark. -/
theorem eq_of_freshSnark {request : RequestRouter (List ℕ)} {o : Outcome ServeError (List ℕ)}
    (h : claimsServer.FreshSnark circuitId request o) : o = .ok (coveredClaims request) := by
  obtain ⟨_, rfl, rfl⟩ := h
  rfl

/-- A directory in which the snark of one request is cached. -/
def cachedDir (circuitId : String) (request : RequestRouter (List ℕ)) : OutDir (List ℕ) where
  snarks file :=
    if snarkPath claimsServer.outDir claimsServer.hash circuitId request = some file then
      some (coveredClaims request)
    else none
  evmProofs _ := none

/-- The snark in this directory was made for its request. -/
theorem stored_cachedDir {request : RequestRouter (List ℕ)} :
    claimsServer.Stored (fun _ _ => True) failing (cachedDir circuitId request) := by
  refine ⟨?_, fun _ _ _ _ _ _ hfile => (Option.some_ne_none _ hfile.symm).elim⟩
  intro circuitId' request' file snark _ hpath' hfile
  change (if snarkPath _ _ circuitId request = some file then _ else none) = some snark at hfile
  split at hfile
  case isTrue hpath =>
    obtain ⟨hname, rfl⟩ := snarkPath_inj hpath hpath'
    obtain rfl := eq_of_sameName hname
    exact ⟨_, _, _, rfl, hfile.symm⟩
  case isFalse => cases hfile

/-- A leaf for two claims. -/
def pairLeaf : RequestRouter (List ℕ) :=
  .leaf ⟨0, 2, 1, soleVk, 7, [soleNative, soleNative]⟩

/-- Two clients have the same leaf proven, one has a root proven, and one has the memory cleared. -/
def sharedRequests : Fin 4 → Request (List ℕ)
  | 0 => .tasks ⟨"leaf", false, pairLeaf⟩
  | 1 => .tasks ⟨"leaf", false, pairLeaf⟩
  | 2 => .tasks ⟨"root", false, .root ⟨0, 4, 2, 1, [[0, 1], [2, 3]]⟩⟩
  | 3 => .reset

/-- The snark of the leaf is in the directory, and all clients get their own snarks. -/
theorem answers_of_reaches_cached : ∃ w : claimsServer.State (Fin 4),
    Reaches (fun _ => True) (claimsServer.start sharedRequests (cachedDir "leaf" pairLeaf)) w ∧
      claimsServer.Stored (fun _ _ => True) (fun _ => True) w.guarded ∧
        w.scripts 0 = .done (.ok (.snark ⟨"leaf", [0, 1]⟩)) ∧
          w.scripts 1 = .done (.ok (.snark ⟨"leaf", [0, 1]⟩)) ∧
            w.scripts 2 = .done (.ok (.snark ⟨"root", [0, 1, 2, 3]⟩)) ∧
              w.scripts 3 = .done (.ok .done) := by
  have hrefl : Reaches (fun _ => True)
      (claimsServer.start sharedRequests (cachedDir "leaf" pairLeaf)) _ := .refl
  obtain ⟨w, hreaches, hfree, hended⟩ := (holds_of_reaches hrefl).reaches_ended
    (answering terminating_claimsServer) Finset.univ
  obtain ⟨-, hstored, hanswer⟩ := answers_of_reaches documented_claimsServer
    consistent_claimsServer (fun _ _ _ => trivial) stored_cachedDir hreaches
  have hdone (i : Fin 4) : ∃ o, w.scripts i = .done o := hended i (Finset.mem_univ i)
  obtain ⟨o₀, h₀⟩ := hdone 0
  obtain ⟨o₁, h₁⟩ := hdone 1
  obtain ⟨o₂, h₂⟩ := hdone 2
  obtain ⟨o₃, h₃⟩ := hdone 3
  obtain ⟨_, hfresh₀, rfl⟩ := hanswer 0 o₀ h₀
  obtain ⟨_, hfresh₁, rfl⟩ := hanswer 1 o₁ h₁
  obtain ⟨_, hfresh₂, rfl⟩ := hanswer 2 o₂ h₂
  obtain rfl := eq_of_freshSnark hfresh₀
  obtain rfl := eq_of_freshSnark hfresh₁
  obtain rfl := eq_of_freshSnark hfresh₂
  obtain rfl : o₃ = _ := hanswer 3 o₃ h₃
  exact ⟨w, hreaches, hstored hfree, h₀, h₁, h₂, h₃⟩

/-- In every state that is reached, only one of the clients works with the directory, and any of
them can all be answered. -/
theorem exists_answered [DecidableEq ι] (hterminating : server.library.Terminating)
    {dir : OutDir Snark} {w : server.State ι}
    (hreaches : Reaches failing (server.start requests dir) w) :
    (∀ i j f f' k k', w.scripts i = .guarded f k → w.scripts j = .guarded f' k' → i = j) ∧
      ∀ clients : Finset ι, ∃ w', Reaches failing w w' ∧ w'.holder = none ∧
        ∀ i ∈ clients, w'.Ended i := by
  have hholds := holds_of_reaches hreaches
  refine ⟨?_, hholds.reaches_ended (answering hterminating)⟩
  intro i j f f' k k' hi hj
  exact Option.some.inj ((hholds.holder_eq hi).symm.trans (hholds.holder_eq hj))

/-- One of four clients has taken the mutex, and all of them can be answered. -/
theorem exists_answered_cached : ∃ w : claimsServer.State (Fin 4),
    Reaches (fun _ => True) (claimsServer.start sharedRequests (cachedDir "leaf" pairLeaf)) w ∧
      w.holder = some 0 ∧ ∃ w', Reaches (fun _ => True) w w' ∧ w'.holder = none ∧
        ∀ i, w'.Ended i := by
  obtain ⟨k, hk⟩ : ∃ k, (claimsServer.start sharedRequests (cachedDir "leaf" pairLeaf)).scripts 0 =
      .lock k := ⟨_, rfl⟩
  obtain ⟨w, hstep, hholder⟩ : ∃ w, Script.Step (claimsServer.effects (fun _ _ => True)
      fun _ => True) (claimsServer.start sharedRequests (cachedDir "leaf" pairLeaf)) w ∧
        w.holder = some 0 := ⟨_, .lock hk rfl, rfl⟩
  obtain ⟨-, hanswered⟩ := exists_answered terminating_claimsServer (.single hstep)
  obtain ⟨w', hreaches, hfree, hended⟩ := hanswered Finset.univ
  exact ⟨w, .single hstep, hholder, w', hreaches, hfree, fun i => hended i (Finset.mem_univ i)⟩

end ProverServer

end WorldcoinAggregation
