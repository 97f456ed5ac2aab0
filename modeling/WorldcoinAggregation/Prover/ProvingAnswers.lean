import WorldcoinAggregation.Prover.ProvingServer

/-!
# What a prover answers for one request

Many programs share the memory and the directory of a prover. What is in memory is what the files of
circuits have, and what is in the directory was made for the request that its name is for. So every
program ends as with a prover that keeps nothing, as long as the names of cached files tell the
requests apart and a circuit id stands for one circuit.
-/

namespace WorldcoinAggregation

open Async

namespace ProverServer

variable {Snark : Type} (server : ProverServer Snark)

/-! ## A prover that keeps nothing -/

/-- The contents of a file. -/
def loadFile (path : String) : Outcome ServeError server.library.Bytes :=
  server.opened path (server.files path)

/-- The parameters of a degree, from their file. -/
def loadSrs (k : ℕ) : Outcome ServeError server.library.ParamsKZG := do
  let bytes ← server.loadFile (server.srsPath k)
  ofExcept (server.library.readParams bytes)

/-- The pinning of a circuit, from its file. -/
def loadPinning (circuitId : String) : Outcome ServeError server.library.Value := do
  let bytes ← server.loadFile (server.pinningPath circuitId)
  ofExcept (server.library.readValue bytes)

/-- The proving key of a circuit, from its file. -/
def loadPk (circuitId : String) (circuit : server.library.Circuit) :
    Outcome ServeError server.library.ProvingKey :=
  ofExcept (server.library.readPk (server.files (server.pkeyPath circuitId)) circuit)

/-- The parameters and the circuit of a request, from files. -/
def loadCircuit (circuitId : String) (request : RequestRouter Snark) :
    Outcome ServeError (server.library.ParamsKZG × server.library.Circuit) := do
  let value ← server.loadPinning circuitId
  let pinning ← ofExcept (server.library.fromValue request.kind value)
  let srs ← server.loadSrs (server.library.getK request.kind pinning)
  let circuit ← outcome (inContext (server.library.proverCircuit request pinning srs))
  return (srs, circuit)

/-- The parameters, the proving key and the circuit of a request, from files. -/
def loadData (circuitId : String) (request : RequestRouter Snark) : Outcome ServeError
    (server.library.ParamsKZG × server.library.ProvingKey × server.library.Circuit) := do
  let value ← server.loadPinning circuitId
  let pinning ← ofExcept (server.library.fromValue request.kind value)
  let srs ← server.loadSrs (server.library.getK request.kind pinning)
  let circuit ← outcome (inContext (server.library.proverCircuit request pinning srs))
  let pk ← server.loadPk circuitId circuit
  return (srs, pk, circuit)

/-- How a snark ends that was made, or that could not be made. -/
def snarkOutcome (srs : server.library.ParamsKZG) : Option Snark → Outcome ServeError Snark
  | none => .crashed
  | some snark => do
      server.checked (server.library.verifySnarkShplonk srs snark)
      return snark

/-- What can come of making the snark of a request. -/
def FreshSnark (circuitId : String) (request : RequestRouter Snark) :
    Outcome ServeError Snark → Prop :=
  (server.loadData circuitId request).Then fun (srs, pk, circuit) o =>
    ∃ snark, server.library.genSnark srs pk circuit snark ∧ o = server.snarkOutcome srs snark

/-- How a proof for the chain ends that was made, or that could not be made. -/
def evmProofOutcome (srs : server.library.ParamsKZG) (pk : server.library.ProvingKey)
    (instances : server.library.Instances) :
    Option server.library.Proof → Outcome ServeError String
  | none => .crashed
  | some proof => do
      server.checked (server.library.verifyEvmProofShplonk srs pk proof instances)
      return server.library.encodeCalldata instances proof

/-- What can come of making the proof for the chain of a request. -/
def FreshEvmProof (circuitId : String) (request : RequestRouter Snark) :
    Outcome ServeError String → Prop :=
  (server.loadData circuitId request).Then fun (srs, pk, circuit) o =>
    ∃ proof, server.library.genEvmProofShplonk srs pk circuit (server.library.instances circuit)
      proof ∧ o = server.evmProofOutcome srs pk (server.library.instances circuit) proof

/-! ## What is kept -/

variable (tasks : String → RequestRouter Snark → Prop) (failing : String → Prop)

/-- Names of cached files tell the requests that come up apart, and a circuit id stands for circuits
with the same proving key. -/
structure Consistent : Prop where
  request_eq : ∀ circuitId request request', tasks circuitId request → tasks circuitId request' →
    SameName server.hash request request' → request = request'
  pk_eq : ∀ circuitId request request', tasks circuitId request → tasks circuitId request' →
    ∀ srs srs' circuit circuit', server.loadCircuit circuitId request = .ok (srs, circuit) →
      server.loadCircuit circuitId request' = .ok (srs', circuit') →
        server.loadPk circuitId circuit = server.loadPk circuitId circuit'

/-- An entry of a table is what a file has. A proving key fits all requests for its circuit. -/
def Right : (table : CacheTable) → table.Key → server.library.Cached table → Prop
  | .srs, k, srs => server.loadSrs k = .ok srs
  | .pinning, circuitId, value => server.loadPinning circuitId = .ok value
  | .pk, circuitId, pk => ∀ request srs circuit, tasks circuitId request →
      server.loadCircuit circuitId request = .ok (srs, circuit) →
        server.loadPk circuitId circuit = .ok pk

/-- Every entry in memory is what a file has. -/
def Kept (memory : ProverMemory server.library) : Prop :=
  ∀ table key value, memory table key = some value → server.Right tasks table key value

/-- A snark in its file was made for its request, and so was a proof for the chain, unless its file
may have been cut off. -/
structure Stored (dir : OutDir Snark) : Prop where
  snark : ∀ circuitId request file snark, tasks circuitId request →
    snarkPath server.outDir server.hash circuitId request = some file →
      dir.snarks file = some snark → ∃ srs pk circuit,
        server.loadData circuitId request = .ok (srs, pk, circuit) ∧
          server.library.genSnark srs pk circuit (some snark)
  evmProof : ∀ circuitId request file text, tasks circuitId request →
    evmProofPath server.outDir server.hash circuitId request = some file →
      dir.evmProofs file = some text → ∃ evmProof,
        server.FreshEvmProof circuitId request (.ok evmProof) ∧
          (text = evmProof ∨ failing file ∧ text.toList <+: evmProof.toList)

/-- What is known of the memory and of the directory. -/
def inv : Script.Invariant (ProverMemory server.library) (OutDir Snark) :=
  ⟨server.Kept tasks, server.Stored tasks failing⟩

variable {server tasks failing}

/-- Nothing is kept at first. -/
theorem kept_empty : server.Kept tasks fun _ _ => none :=
  nofun

/-- Nothing is stored in an empty directory. -/
theorem stored_empty : server.Stored tasks failing ⟨fun _ => none, fun _ => none⟩ :=
  ⟨fun _ _ _ _ _ _ hfile => (Option.some_ne_none _ hfile.symm).elim,
    fun _ _ _ _ _ _ hfile => (Option.some_ne_none _ hfile.symm).elim⟩

/-- What is right can be kept. -/
theorem Kept.insert {memory : ProverMemory server.library} (h : server.Kept tasks memory)
    {table : CacheTable} {key : table.Key} {value : server.library.Cached table}
    (hvalue : server.Right tasks table key value) :
    server.Kept tasks
      (Function.update memory table (Function.update (memory table) key (some value))) := by
  intro table' key' value' hmem
  by_cases htable : table' = table
  · subst htable
    rw [Function.update_self] at hmem
    by_cases hkey : key' = key
    · subst hkey
      rw [Function.update_self, Option.some.injEq] at hmem
      subst hmem
      exact hvalue
    · rw [Function.update_of_ne hkey] at hmem
      exact h _ _ _ hmem
  · rw [Function.update_of_ne htable] at hmem
    exact h _ _ _ hmem

/-- Tables can be cleared. -/
theorem Kept.clear {memory : ProverMemory server.library} (h : server.Kept tasks memory)
    (table : CacheTable) : server.Kept tasks (Function.update memory table fun _ => none) := by
  intro table' key value hmem
  by_cases htable : table' = table
  · subst htable
    rw [Function.update_self] at hmem
    cases hmem
  · rw [Function.update_of_ne htable] at hmem
    exact h _ _ _ hmem

/-! ## The data of circuits -/

/-- A program computes an outcome whatever the others do. -/
abbrev Computes {α : Type} (tasks : String → RequestRouter Snark → Prop) (failing : String → Prop)
    (p : server.Program α) (c : Outcome ServeError α) : Prop :=
  Script.Computes (server.effects tasks failing) (server.inv tasks failing) p c

/-- Files of circuits are what they are. -/
theorem computes_openFile (path : String) :
    Computes tasks failing (server.openFile path) (server.loadFile path) := by
  have hask : Computes tasks failing (server.ask (.openFile path)) (.ok (server.files path)) := by
    refine Script.computes_ask fun memory a memory' hmemory heffect => ?_
    obtain ⟨rfl, rfl⟩ := heffect
    exact ⟨hmemory, rfl⟩
  exact hask.bind fun _ _ => Script.computes_done _

/-- Reading through a table gives what reading gives, if what is read is what is right. -/
theorem computes_readThrough {table : CacheTable} {key : table.Key}
    {read : server.Program (server.library.Cached table)}
    {c : Outcome ServeError (server.library.Cached table)} (hread : Computes tasks failing read c)
    (hright : ∀ value, server.Right tasks table key value ↔ c = .ok value) :
    Computes tasks failing (server.readThrough table key read) c := by
  intro own
  refine Script.wp_bind (Script.wp_ask fun memory cached memory' hmemory heffect => ?_)
  obtain ⟨hcached, rfl⟩ := heffect
  refine ⟨hmemory, ?_⟩
  cases cached with
  | some value => exact ⟨((hright value).mp (hmemory _ _ _ hcached.symm)).symm, rfl⟩
  | none =>
      refine hread.wp_bind ?_
      cases c with
      | ok value =>
          refine Script.wp_bind (Script.wp_ask fun memory a memory' hmemory heffect => ?_)
          obtain rfl := heffect
          exact ⟨hmemory.insert ((hright value).mpr rfl), rfl, rfl⟩
      | error e => exact ⟨rfl, rfl⟩
      | crashed => exact ⟨rfl, rfl⟩

/-- Parameters are those of their file. -/
theorem computes_getSrs (k : ℕ) :
    Computes tasks failing (server.getSrs k) (server.loadSrs k) := by
  refine computes_readThrough ?_ fun value => Iff.rfl
  exact (computes_openFile _).bind fun _ _ => Script.computes_done _

/-- Pinnings are those of their file. -/
theorem computes_getPinning (circuitId : String) :
    Computes tasks failing (server.getPinning circuitId) (server.loadPinning circuitId) := by
  refine computes_readThrough ?_ fun value => Iff.rfl
  exact (computes_openFile _).bind fun _ _ => Script.computes_done _

/-- Proving keys are those of their file. -/
theorem computes_readPk (circuitId : String) (circuit : server.library.Circuit) :
    Computes tasks failing (server.readPk circuitId circuit)
      (server.loadPk circuitId circuit) := by
  have hask : Computes tasks failing (server.ask (.openFile (server.pkeyPath circuitId)))
      (.ok (server.files (server.pkeyPath circuitId))) := by
    refine Script.computes_ask fun memory a memory' hmemory heffect => ?_
    obtain ⟨rfl, rfl⟩ := heffect
    exact ⟨hmemory, rfl⟩
  exact hask.bind fun _ _ => Script.computes_done _

variable {circuitId : String} {request : RequestRouter Snark}

/-- Keeping the data of circuits in memory makes no difference for the requests that come up. -/
theorem computes_buildCircuit (hconsistent : server.Consistent tasks)
    (htask : tasks circuitId request) :
    Computes tasks failing (server.buildCircuit circuitId request)
      (server.loadData circuitId request) := by
  refine (computes_getPinning circuitId).bind fun value hvalue => ?_
  refine (Script.computes_done _).bind fun pinning hpinning => ?_
  refine (computes_getSrs _).bind fun srs hsrs => ?_
  refine (Script.computes_done _).bind fun circuit hcircuit => ?_
  have hload : server.loadCircuit circuitId request = .ok (srs, circuit) := by
    unfold loadCircuit
    rw [hvalue]
    show (ofExcept _ >>= _) = _
    rw [hpinning]
    show (server.loadSrs _ >>= _) = _
    rw [hsrs]
    show (outcome _ >>= _) = _
    rw [hcircuit]
    rfl
  have hpk : Computes tasks failing
      (server.readThrough .pk circuitId (server.readPk circuitId circuit))
      (server.loadPk circuitId circuit) := by
    refine computes_readThrough (computes_readPk circuitId circuit) fun pk => ?_
    constructor
    · intro hright
      exact hright request srs circuit htask hload
    · intro hpk request' srs' circuit' htask' hload'
      exact (hconsistent.pk_eq _ _ _ htask' htask _ _ _ _ hload' hload).trans hpk
  exact hpk.bind fun _ _ => Script.computes_done _

/-! ## Snarks -/

/-- Making a snark leaves a directory in which snarks are stored. -/
theorem Stored.genSnark (hdocumented : server.library.Documented)
    (hconsistent : server.Consistent tasks) (htask : tasks circuitId request)
    {srs : server.library.ParamsKZG} {pk : server.library.ProvingKey}
    {circuit : server.library.Circuit} {dir dir' : OutDir Snark} {snark : Option Snark}
    (hdir : server.Stored tasks failing dir)
    (hload : server.loadData circuitId request = .ok (srs, pk, circuit))
    (h : server.library.genSnarkShplonk srs pk circuit
      (snarkPath server.outDir server.hash circuitId request) dir snark dir') :
    server.Stored tasks failing dir' ∧ server.library.genSnark srs pk circuit snark := by
  obtain ⟨hevmProofs, ⟨file, s, hpath, hfile, rfl, rfl⟩ | ⟨hgen, hsnarks⟩⟩ :=
    hdocumented.genSnark _ _ _ _ _ _ _ h
  · obtain ⟨srs', pk', circuit', hload', hgen⟩ := hdir.snark _ _ _ _ htask hpath hfile
    cases hload.symm.trans hload'
    exact ⟨hdir, hgen⟩
  · refine ⟨⟨?_, ?_⟩, hgen⟩
    · intro circuitId' request' file s htask' hpath' hfile
      rcases hsnarks file s hfile with hold | ⟨hpath, rfl⟩
      · exact hdir.snark _ _ _ _ htask' hpath' hold
      · obtain ⟨hname, rfl⟩ := snarkPath_inj hpath hpath'
        obtain rfl := hconsistent.request_eq _ _ _ htask htask' hname
        exact ⟨srs, pk, circuit, hload, hgen⟩
    · intro circuitId' request' file text htask' hpath' hfile
      rw [hevmProofs] at hfile
      exact hdir.evmProof _ _ _ _ htask' hpath' hfile

/-- A snark that was made is handed out after its check. -/
theorem snarkOutcome_some (srs : server.library.ParamsKZG) (snark : Snark) :
    server.snarkOutcome srs (some snark) = (do
      server.checked (server.library.verifySnarkShplonk srs snark)
      return snark) :=
  rfl

/-- Snarks are made as by a prover that keeps nothing. -/
theorem wp_getSnark (hdocumented : server.library.Documented)
    (hconsistent : server.Consistent tasks) :
    Script.wp (server.effects tasks failing) (server.inv tasks failing)
      (server.getSnark circuitId request)
      (fun o own => own = none ∧ server.FreshSnark circuitId request o) none := by
  refine Script.wp_withLock fun dir hdir => ?_
  refine Script.wp_bind (Script.wp_ask fun memory a memory' hmemory heffect => ?_)
  obtain ⟨htask, rfl⟩ := heffect
  refine ⟨hmemory, (computes_buildCircuit hconsistent htask).wp_bind ?_⟩
  cases hload : server.loadData circuitId request with
  | error e =>
      refine ⟨dir, rfl, hdir, rfl, ?_⟩
      unfold FreshSnark
      rw [hload]
      rfl
  | crashed =>
      refine ⟨dir, rfl, hdir, rfl, ?_⟩
      unfold FreshSnark
      rw [hload]
      rfl
  | ok data =>
      obtain ⟨srs, pk, circuit⟩ := data
      refine Script.wp_bind (Script.wp_askGuarded fun snark dir' heffect => ?_)
      obtain ⟨hdir', hgen⟩ := hdir.genSnark hdocumented hconsistent htask hload heffect
      have hfresh : server.FreshSnark circuitId request (server.snarkOutcome srs snark) := by
        unfold FreshSnark
        rw [hload]
        exact ⟨snark, hgen, rfl⟩
      cases snark with
      | none => exact ⟨dir', rfl, hdir', rfl, hfresh⟩
      | some snark =>
          refine (Script.computes_done _).wp_bind ?_
          rw [snarkOutcome_some] at hfresh
          generalize server.checked _ = check at hfresh ⊢
          cases check with
          | ok u => exact ⟨dir', rfl, hdir', rfl, hfresh⟩
          | error e => exact ⟨dir', rfl, hdir', rfl, hfresh⟩
          | crashed => exact ⟨dir', rfl, hdir', rfl, hfresh⟩

/-! ## Proofs for the chain -/

/-- A file that has just been emptied is overwritten. -/
@[simp] theorem withText_withText (dir : OutDir Snark) (file text text' : String) :
    (dir.withText file text).withText file text' = dir.withText file text' := by
  simp [OutDir.withText]

/-- Writing a proof for the chain, or a part of it if its file may be cut off, leaves a directory in
which proofs are stored. -/
theorem Stored.withText (hconsistent : server.Consistent tasks) (htask : tasks circuitId request)
    {dir : OutDir Snark} {file text evmProof : String} (hdir : server.Stored tasks failing dir)
    (hpath : evmProofPath server.outDir server.hash circuitId request = some file)
    (hfresh : server.FreshEvmProof circuitId request (.ok evmProof))
    (htext : text = evmProof ∨ failing file ∧ text.toList <+: evmProof.toList) :
    server.Stored tasks failing (dir.withText file text) := by
  refine ⟨hdir.snark, ?_⟩
  intro circuitId' request' file' text' htask' hpath' hfile'
  by_cases hfile : file' = file
  · subst hfile
    obtain ⟨hname, rfl⟩ := evmProofPath_inj hpath hpath'
    obtain rfl := hconsistent.request_eq _ _ _ htask htask' hname
    obtain rfl : text = text' := by
      simpa [OutDir.withText] using hfile'
    exact ⟨evmProof, hfresh, htext⟩
  · refine hdir.evmProof _ _ _ _ htask' hpath' ?_
    simpa [OutDir.withText, hfile] using hfile'

/-- The error that a file cannot be written. -/
def writeError (file : String) : ServeError :=
  .failed (.error s!"Failed to write evm_proof to {file}")

/-- Writing a proof for the chain leaves a directory in which proofs are stored, also where it
fails. -/
theorem wp_write (hconsistent : server.Consistent tasks) (htask : tasks circuitId request)
    {dir : OutDir Snark} {evmProof : String} (hdir : server.Stored tasks failing dir)
    (hfresh : server.FreshEvmProof circuitId request (.ok evmProof)) :
    Script.wp (server.effects tasks failing) (server.inv tasks failing)
      (server.write (evmProofPath server.outDir server.hash circuitId request) evmProof)
      (fun o own => (∃ dir', own = some dir' ∧ server.Stored tasks failing dir') ∧
        (o = .ok () ∨ ∃ file, o = .error (writeError file) ∧
          evmProofPath server.outDir server.hash circuitId request = some file)) (some dir) := by
  cases hpath : evmProofPath server.outDir server.hash circuitId request with
  | none => exact ⟨⟨dir, rfl, hdir⟩, .inl rfl⟩
  | some file =>
      refine Script.wp_bind (Script.wp_askGuarded fun created dir' heffect => ?_)
      rcases heffect with ⟨rfl, rfl⟩ | ⟨rfl, rfl⟩
      · exact ⟨⟨_, rfl, hdir⟩, .inr ⟨file, rfl, rfl⟩⟩
      · refine Script.wp_bind (Script.wp_askGuarded fun written dir' heffect => ?_)
        rcases heffect with ⟨rfl, rfl⟩ | ⟨rfl, hfailing, part, hpart, rfl⟩
        · rw [withText_withText]
          exact ⟨⟨_, rfl, hdir.withText hconsistent htask hpath hfresh (.inl rfl)⟩, .inl rfl⟩
        · rw [withText_withText]
          exact ⟨⟨_, rfl, hdir.withText hconsistent htask hpath hfresh (.inr ⟨hfailing, hpart⟩)⟩,
            .inr ⟨file, rfl, rfl⟩⟩

variable (server failing) in
/-- What can come of asking for the proof for the chain of a request: what can come of making it, an
error because it cannot be written, or a part of it if its file may have been cut off. -/
def EvmProofAnswer (circuitId : String) (request : RequestRouter Snark)
    (o : Outcome ServeError String) : Prop :=
  server.FreshEvmProof circuitId request o ∨
    ∃ file evmProof, evmProofPath server.outDir server.hash circuitId request = some file ∧
      server.FreshEvmProof circuitId request (.ok evmProof) ∧
        (o = .error (writeError file) ∨
          failing file ∧ ∃ text : String, text.toList <+: evmProof.toList ∧ o = .ok text)

/-- A proof for the chain that is found in its file. -/
theorem Stored.evmProofAnswer {dir : OutDir Snark} (hdir : server.Stored tasks failing dir)
    (htask : tasks circuitId request) {file text : String}
    (hpath : evmProofPath server.outDir server.hash circuitId request = some file)
    (hfile : dir.evmProofs file = some text) :
    server.EvmProofAnswer failing circuitId request (.ok text) := by
  obtain ⟨evmProof, hfresh, rfl | ⟨hfailing, hpart⟩⟩ := hdir.evmProof _ _ _ _ htask hpath hfile
  · exact .inl hfresh
  · exact .inr ⟨file, evmProof, hpath, hfresh, .inr ⟨hfailing, text, hpart, rfl⟩⟩

/-- Looking for a proof for the chain in its file leaves the directory as it is. -/
theorem wp_readToString {dir : OutDir Snark} {path : Option String} :
    Script.wp (server.effects tasks failing) (server.inv tasks failing) (server.readToString path)
      (fun o own => own = some dir ∧ (o = .ok none ∨
        ∃ file text, o = .ok (some text) ∧ path = some file ∧ dir.evmProofs file = some text))
      (some dir) := by
  cases path with
  | none => exact ⟨rfl, .inl rfl⟩
  | some file =>
      refine Script.wp_askGuarded fun text dir' heffect => ?_
      obtain ⟨htext, rfl⟩ := heffect
      refine ⟨rfl, ?_⟩
      cases text with
      | none => exact .inl rfl
      | some text =>
          rcases htext with htext | htext
          · cases htext
          · exact .inr ⟨file, text, rfl, rfl, htext.symm⟩

/-- A proof for the chain that was made is handed out after its check. -/
theorem evmProofOutcome_some (srs : server.library.ParamsKZG) (pk : server.library.ProvingKey)
    (instances : server.library.Instances) (proof : server.library.Proof) :
    server.evmProofOutcome srs pk instances (some proof) = (do
      server.checked (server.library.verifyEvmProofShplonk srs pk proof instances)
      return server.library.encodeCalldata instances proof) :=
  rfl

/-- Proofs for the chain are made as by a prover that keeps nothing, or found in their files. -/
theorem wp_getEvmProof (hconsistent : server.Consistent tasks) :
    Script.wp (server.effects tasks failing) (server.inv tasks failing)
      (server.getEvmProof circuitId request)
      (fun o own => own = none ∧ server.EvmProofAnswer failing circuitId request o) none := by
  refine Script.wp_withLock fun dir hdir => ?_
  refine Script.wp_bind (Script.wp_ask fun memory a memory' hmemory heffect => ?_)
  obtain ⟨htask, rfl⟩ := heffect
  refine ⟨hmemory, Script.wp_bind (Script.wp_mono wp_readToString fun o own ho => ?_)⟩
  obtain ⟨rfl, rfl | ⟨file, text, rfl, hpath, hfile⟩⟩ := ho
  · refine (computes_buildCircuit hconsistent htask).wp_bind ?_
    cases hload : server.loadData circuitId request with
    | error e =>
        refine ⟨dir, rfl, hdir, rfl, .inl ?_⟩
        unfold FreshEvmProof
        rw [hload]
        rfl
    | crashed =>
        refine ⟨dir, rfl, hdir, rfl, .inl ?_⟩
        unfold FreshEvmProof
        rw [hload]
        rfl
    | ok data =>
        obtain ⟨srs, pk, circuit⟩ := data
        refine Script.wp_bind (Script.wp_ask fun memory proof memory' hmemory heffect => ?_)
        obtain ⟨hgen, rfl⟩ := heffect
        refine ⟨hmemory, ?_⟩
        have hfresh : server.FreshEvmProof circuitId request
            (server.evmProofOutcome srs pk (server.library.instances circuit) proof) := by
          unfold FreshEvmProof
          rw [hload]
          exact ⟨proof, hgen, rfl⟩
        cases proof with
        | none => exact ⟨dir, rfl, hdir, rfl, .inl hfresh⟩
        | some proof =>
            refine (Script.computes_done _).wp_bind ?_
            rw [evmProofOutcome_some] at hfresh
            generalize server.checked _ = check at hfresh ⊢
            cases check with
            | ok u =>
                refine Script.wp_bind (Script.wp_mono (wp_write hconsistent htask hdir hfresh) ?_)
                rintro o own ⟨⟨dir', rfl, hdir'⟩, rfl | ⟨file, rfl, hpath⟩⟩
                · exact ⟨dir', rfl, hdir', rfl, .inl hfresh⟩
                · exact ⟨dir', rfl, hdir', rfl, .inr ⟨file, _, hpath, hfresh, .inl rfl⟩⟩
            | error e => exact ⟨dir, rfl, hdir, rfl, .inl hfresh⟩
            | crashed => exact ⟨dir, rfl, hdir, rfl, .inl hfresh⟩
  · exact ⟨dir, rfl, hdir, rfl, hdir.evmProofAnswer htask hpath hfile⟩

end ProverServer

end WorldcoinAggregation
