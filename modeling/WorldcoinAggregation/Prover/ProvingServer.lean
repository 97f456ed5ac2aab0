import WorldcoinAggregation.Base.Scripts
import WorldcoinAggregation.Prover.ProofIds
import WorldcoinAggregation.Scheduler.Servers

/-!
# The prover server

A prover keeps the data of its circuits in memory and, if it has a directory for them, the proofs
that it has made in files. Clients have circuits proven, have the data of circuits loaded, and have
the memory cleared, all at the same time. Proofs are made one at a time.
-/

namespace WorldcoinAggregation

open Fallible Async

/-! ## What the prover uses -/

/-- The kinds of circuits. -/
inductive CircuitKind where
  | leaf
  | intermediate
  | root
  | evm
deriving DecidableEq

/-- The kind of circuit that a request builds. -/
def RequestRouter.kind {Snark : Type} : RequestRouter Snark → CircuitKind
  | .leaf _ => .leaf
  | .intermediate _ => .intermediate
  | .root _ => .root
  | .evm _ => .evm

/-- The files in the directory for proofs: those that are read as snarks, and those that are read as
texts. -/
structure OutDir (Snark : Type) where
  snarks : String → Option Snark
  evmProofs : String → Option String

/-- A file of the directory is now read as this text. -/
def OutDir.withText {Snark : Type} (dir : OutDir Snark) (path text : String) : OutDir Snark :=
  { dir with evmProofs := Function.update dir.evmProofs path (some text) }

/-- The libraries of the prover. Files are read into parameters, pinnings and proving keys. A proof
is made with randomness, and making it may panic. -/
structure ProverLibrary (Snark : Type) where
  Bytes : Type
  ParamsKZG : Type
  Value : Type
  Pinning : Type
  ProvingKey : Type
  Circuit : Type
  Instances : Type
  Proof : Type
  readParams : Bytes → Except String ParamsKZG
  readValue : Bytes → Except String Value
  fromValue : CircuitKind → Value → Except String Pinning
  getK : CircuitKind → Pinning → ℕ
  proverCircuit : RequestRouter Snark → Pinning → ParamsKZG → Fallible Circuit
  readPk : Option Bytes → Circuit → Except String ProvingKey
  genSnark : ParamsKZG → ProvingKey → Circuit → Option Snark → Prop
  genSnarkShplonk : ParamsKZG → ProvingKey → Circuit → (path : Option String) → OutDir Snark →
    Option Snark → OutDir Snark → Prop
  verifySnarkShplonk : ParamsKZG → Snark → Except String Unit
  instances : Circuit → Instances
  genEvmProofShplonk : ParamsKZG → ProvingKey → Circuit → Instances → Option Proof → Prop
  verifyEvmProofShplonk : ParamsKZG → ProvingKey → Proof → Instances → Except String Unit
  encodeCalldata : Instances → Proof → String

/-- What is documented of the path that a snark is made with: a snark that is read from there is
handed out, and otherwise a new snark is made and written there. -/
structure ProverLibrary.Documented {Snark : Type} (library : ProverLibrary Snark) : Prop where
  genSnark : ∀ srs pk circuit path dir snark dir',
    library.genSnarkShplonk srs pk circuit path dir snark dir' →
      dir'.evmProofs = dir.evmProofs ∧
        ((∃ file s, path = some file ∧ dir.snarks file = some s ∧ snark = some s ∧ dir' = dir) ∨
          library.genSnark srs pk circuit snark ∧ ∀ file s, dir'.snarks file = some s →
            dir.snarks file = some s ∨ path = some file ∧ snark = some s)

/-- Making proofs comes to an end, also if it panics. -/
structure ProverLibrary.Terminating {Snark : Type} (library : ProverLibrary Snark) : Prop where
  genSnark : ∀ srs pk circuit path dir, ∃ snark dir',
    library.genSnarkShplonk srs pk circuit path dir snark dir'
  genEvmProof : ∀ srs pk circuit instances, ∃ proof,
    library.genEvmProofShplonk srs pk circuit instances proof

/-- The tables that a prover keeps in memory. -/
inductive CacheTable where
  | srs
  | pinning
  | pk
deriving DecidableEq

/-- Parameters are kept by their degree, and everything else by the id of the circuit. -/
def CacheTable.Key : CacheTable → Type
  | .srs => ℕ
  | .pinning => String
  | .pk => String

instance : (table : CacheTable) → DecidableEq table.Key
  | .srs => instDecidableEqNat
  | .pinning => instDecidableEqString
  | .pk => instDecidableEqString

variable {Snark : Type}

/-- What a table holds. -/
def ProverLibrary.Cached (library : ProverLibrary Snark) : CacheTable → Type
  | .srs => library.ParamsKZG
  | .pinning => library.Value
  | .pk => library.ProvingKey

/-- The memory of a prover. -/
abbrev ProverMemory (library : ProverLibrary Snark) :=
  (table : CacheTable) → table.Key → Option (library.Cached table)

/-! ## Effects -/

/-- What a prover awaits: access to a table, to a file with the data of a circuit, to its log, and a
proof for the chain. -/
inductive ProverEffect (library : ProverLibrary Snark) where
  | get (table : CacheTable) (key : table.Key)
  | insert (table : CacheTable) (key : table.Key) (value : library.Cached table)
  | clear (table : CacheTable)
  | openFile (path : String)
  | log (circuitId : String) (request : RequestRouter Snark)
  | genEvmProofShplonk (srs : library.ParamsKZG) (pk : library.ProvingKey)
      (circuit : library.Circuit) (instances : library.Instances)

/-- What an effect is answered with. -/
def ProverEffect.Answer {library : ProverLibrary Snark} : ProverEffect library → Type
  | .get table _ => Option (library.Cached table)
  | .insert _ _ _ => Unit
  | .clear _ => Unit
  | .openFile _ => Option library.Bytes
  | .log _ _ => Unit
  | .genEvmProofShplonk _ _ _ _ => Option library.Proof

/-- What a prover does with its directory while it has the mutex. -/
inductive OutDirEffect (library : ProverLibrary Snark) where
  | genSnarkShplonk (srs : library.ParamsKZG) (pk : library.ProvingKey) (circuit : library.Circuit)
      (path : Option String)
  | readToString (path : String)
  | create (path : String)
  | writeAll (path : String) (contents : String)

/-- What an effect on the directory is answered with. -/
def OutDirEffect.Answer {library : ProverLibrary Snark} : OutDirEffect library → Type
  | .genSnarkShplonk _ _ _ _ => Option Snark
  | .readToString _ => Option String
  | .create _ => Bool
  | .writeAll _ _ => Bool

/-- A prover: its libraries, the files with the data of its circuits and where they are, the
directory for proofs, the hash of requests, and whether debug assertions are on. -/
structure ProverServer (Snark : Type) where
  library : ProverLibrary Snark
  files : String → Option library.Bytes
  srsPath : ℕ → String
  pinningPath : String → String
  pkeyPath : String → String
  outDir : Option String
  hash : RequestRouter Snark → ℕ
  debugAssertions : Bool

namespace ProverServer

variable (server : ProverServer Snark)

/-- Programs of a prover. -/
abbrev Program :=
  Script (ProverEffect server.library) (OutDirEffect server.library) ProverEffect.Answer
    OutDirEffect.Answer ServeError

/-- Awaits an effect. -/
def ask (effect : ProverEffect server.library) : server.Program effect.Answer :=
  Script.ask effect

/-- Awaits an effect on the directory. -/
def askOutDir (effect : OutDirEffect server.library) : server.Program effect.Answer :=
  Script.askGuarded effect

/-! ## Failures -/

/-- How a program ends that does nothing but this. -/
def outcome {α : Type} : Except ServeError α → Outcome ServeError α
  | .ok a => .ok a
  | .error (.invalidInput message) => .error (.invalidInput message)
  | .error (.failed (.error message)) => .error (.failed (.error message))
  | .error (.failed _) => .crashed

/-- An error of a library is returned. -/
def ofExcept {α : Type} : Except String α → Outcome ServeError α
  | .ok a => .ok a
  | .error message => .error (.failed (.error message))

/-- An error is returned in the context of invalid input. -/
def inContext {α : Type} : Fallible α → Except ServeError α
  | .ok a => .ok a
  | .error (.error message) => .error (.invalidInput message)
  | .error failure => .error (.failed failure)

/-! ## The data of circuits -/

/-- The contents of a file, or an error if it cannot be opened. -/
def opened (path : String) : Option server.library.Bytes → Outcome ServeError server.library.Bytes
  | some bytes => .ok bytes
  | none => .error (.failed (.error s!"Failed to open {path}"))

/-- Opens a file. -/
def openFile (path : String) : server.Program server.library.Bytes := do
  let contents : Option server.library.Bytes ← server.ask (.openFile path)
  .done (server.opened path contents)

/-- Reads the parameters of a degree. -/
def readSrs (k : ℕ) : server.Program server.library.ParamsKZG := do
  let bytes ← server.openFile (server.srsPath k)
  .done (ofExcept (server.library.readParams bytes))

/-- Reads the pinning of a circuit. -/
def readPinning (circuitId : String) : server.Program server.library.Value := do
  let bytes ← server.openFile (server.pinningPath circuitId)
  .done (ofExcept (server.library.readValue bytes))

/-- Reads the proving key of a circuit. -/
def readPk (circuitId : String) (circuit : server.library.Circuit) :
    server.Program server.library.ProvingKey := do
  let contents : Option server.library.Bytes ← server.ask (.openFile (server.pkeyPath circuitId))
  .done (ofExcept (server.library.readPk contents circuit))

/-- Looks up an entry of a table, and reads it and keeps it if it is missing. Other programs may
change the table in between. -/
def readThrough (table : CacheTable) (key : table.Key)
    (read : server.Program (server.library.Cached table)) :
    server.Program (server.library.Cached table) := do
  let cached : Option (server.library.Cached table) ← server.ask (.get table key)
  match cached with
  | some value => return value
  | none => do
      let value ← read
      let _ ← server.ask (.insert table key value)
      return value

/-- The parameters of a degree. -/
def getSrs (k : ℕ) : server.Program server.library.ParamsKZG :=
  server.readThrough .srs k (server.readSrs k)

/-- The pinning of a circuit. -/
def getPinning (circuitId : String) : server.Program server.library.Value :=
  server.readThrough .pinning circuitId (server.readPinning circuitId)

/-- The parameters, the proving key and the circuit of a request. -/
def buildCircuit (circuitId : String) (request : RequestRouter Snark) : server.Program
    (server.library.ParamsKZG × server.library.ProvingKey × server.library.Circuit) := do
  let value ← server.getPinning circuitId
  let pinning ← .done (ofExcept (server.library.fromValue request.kind value))
  let srs ← server.getSrs (server.library.getK request.kind pinning)
  let circuit ← .done (outcome (inContext (server.library.proverCircuit request pinning srs)))
  let pk ← server.readThrough .pk circuitId (server.readPk circuitId circuit)
  return (srs, pk, circuit)

/-! ## Proofs -/

/-- Checks are only made with debug assertions. -/
def checked (check : Except String Unit) : Outcome ServeError Unit :=
  if server.debugAssertions then ofExcept check else .ok ()

/-- Makes the snark of a request. -/
def getSnark (circuitId : String) (request : RequestRouter Snark) : server.Program Snark :=
  Script.withLock do
    let _ ← server.ask (.log circuitId request)
    let (srs, pk, circuit) ← server.buildCircuit circuitId request
    let snark : Option Snark ← server.askOutDir (.genSnarkShplonk srs pk circuit
      (snarkPath server.outDir server.hash circuitId request))
    match snark with
    | none => .done .crashed
    | some snark => do
        .done (server.checked (server.library.verifySnarkShplonk srs snark))
        return snark

/-- The proof for the chain in a file, if there is one. -/
def readToString (path : Option String) : server.Program (Option String) :=
  match path with
  | some path => server.askOutDir (.readToString path)
  | none => return none

/-- Writes a proof for the chain to a file, if there is one: it is created or emptied first. -/
def write (path : Option String) (evmProof : String) : server.Program Unit :=
  match path with
  | some path => do
      let failed : Outcome ServeError Unit :=
        .error (.failed (.error s!"Failed to write evm_proof to {path}"))
      let created : Bool ← server.askOutDir (.create path)
      if created then
        let written : Bool ← server.askOutDir (.writeAll path evmProof)
        if written then return () else .done failed
      else
        .done failed
  | none => return ()

/-- Makes the proof for the chain of a request, unless it is in its file. -/
def getEvmProof (circuitId : String) (request : RequestRouter Snark) : server.Program String :=
  Script.withLock do
    let _ ← server.ask (.log circuitId request)
    let path := evmProofPath server.outDir server.hash circuitId request
    let cached ← server.readToString path
    match cached with
    | some evmProof => return evmProof
    | none => do
        let (srs, pk, circuit) ← server.buildCircuit circuitId request
        let instances := server.library.instances circuit
        let proof : Option server.library.Proof ←
          server.ask (.genEvmProofShplonk srs pk circuit instances)
        match proof with
        | none => .done .crashed
        | some proof => do
            .done (server.checked (server.library.verifyEvmProofShplonk srs pk proof instances))
            let evmProof := server.library.encodeCalldata instances proof
            server.write path evmProof
            return evmProof

/-- Clears everything that is kept in memory, one table after the other. -/
def reset : server.Program Unit := do
  let _ ← server.ask (.clear .srs)
  let _ ← server.ask (.clear .pinning)
  let _ ← server.ask (.clear .pk)
  return ()

/-! ## The routes -/

/-- What a client of the prover server sends. -/
inductive Request (Snark : Type) where
  | tasks (task : ProverTask Snark)
  | circuitData (task : ProverTask Snark)
  | reset

/-- A snark and the circuit that it is for. -/
structure ProverSnark (Snark : Type) where
  circuitId : String
  snark : Snark

/-- What a client of the prover server gets. -/
inductive Response (Snark : Type) where
  | snark (snark : ProverSnark Snark)
  | evmProof (evmProof : String)
  | done

/-- The snark of a request. A failure is not handled. -/
def returnSnark (circuitId : String) (request : RequestRouter Snark) :
    server.Program (Response Snark) := do
  let snark ← (server.getSnark circuitId request).unwrap
  return .snark ⟨circuitId, snark⟩

/-- Has a task proven. Only wrappers are proven for the chain, and a failure is not handled. -/
def serve (task : ProverTask Snark) : server.Program (Response Snark) :=
  match task.request with
  | .evm req =>
      if task.isEvmProof then do
        let evmProof ← (server.getEvmProof task.circuitId (.evm req)).unwrap
        return .evmProof evmProof
      else
        server.returnSnark task.circuitId (.evm req)
  | .intermediate req => server.returnSnark task.circuitId (.intermediate req)
  | .leaf req => server.returnSnark task.circuitId (.leaf req)
  | .root req => server.returnSnark task.circuitId (.root req)

/-- Has the data for a task loaded. -/
def loadCircuitData (task : ProverTask Snark) : server.Program (Response Snark) := do
  let _ ← server.buildCircuit task.circuitId task.request
  return .done

/-- Handles what a client sends. -/
def handle : Request Snark → server.Program (Response Snark)
  | .tasks task => server.serve task
  | .circuitData task => server.loadCircuitData task
  | .reset => do
      server.reset
      return .done

/-! ## What effects do -/

/-- What effects are answered with and what they do, while these are the circuits and requests that
come up and these the files that may be cut off when they are written. Files of circuits do not
change, and files of the directory may be unreadable. -/
def effects (tasks : String → RequestRouter Snark → Prop) (failing : String → Prop) :
    Effects (ProverEffect server.library) (OutDirEffect server.library) ProverEffect.Answer
      OutDirEffect.Answer (ProverMemory server.library) (OutDir Snark) where
  shared
    | .get table key, memory, value, memory' => value = memory table key ∧ memory' = memory
    | .insert table key value, memory, _, memory' =>
        memory' = Function.update memory table (Function.update (memory table) key (some value))
    | .clear table, memory, _, memory' => memory' = Function.update memory table fun _ => none
    | .openFile path, memory, contents, memory' => contents = server.files path ∧ memory' = memory
    | .log circuitId request, memory, _, memory' => tasks circuitId request ∧ memory' = memory
    | .genEvmProofShplonk srs pk circuit instances, memory, proof, memory' =>
        server.library.genEvmProofShplonk srs pk circuit instances proof ∧ memory' = memory
  guarded
    | .genSnarkShplonk srs pk circuit path, dir, snark, dir' =>
        server.library.genSnarkShplonk srs pk circuit path dir snark dir'
    | .readToString path, dir, contents, dir' =>
        (contents = none ∨ contents = dir.evmProofs path) ∧ dir' = dir
    | .create path, dir, created, dir' =>
        created = false ∧ dir' = dir ∨ created = true ∧ dir' = dir.withText path ""
    | .writeAll path contents, dir, written, dir' =>
        written = true ∧ dir' = dir.withText path contents ∨
          written = false ∧ failing path ∧
            ∃ part : String, part.toList <+: contents.toList ∧ dir' = dir.withText path part

end ProverServer

end WorldcoinAggregation
