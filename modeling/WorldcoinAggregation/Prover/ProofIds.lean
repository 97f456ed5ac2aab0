import WorldcoinAggregation.Base.Formats
import WorldcoinAggregation.Scheduler.LocalTasks

/-!
# The names of cached proofs

The prover keeps snarks and proofs for the chain in files that are named after the request, with a
hash of the request in the name, and the id of the circuit. Two requests share a file exactly if
they have the same hash, range, node and circuit (`snarkPath_inj`, `evmProofPath_inj`).
-/

namespace WorldcoinAggregation

open Formats

variable {Snark : Type}

/-! ## Names -/

/-- A number with six hexadecimal digits, or more if it needs them. -/
def hex6 (n : ℕ) : String :=
  .ofList (zeroPadded 16 6 n)

/-- The identifier of a leaf. -/
def WorldcoinRequestLeaf.proofId (req : WorldcoinRequestLeaf) (hash : ℕ) : String :=
  s!"worldcoin_{hash}_{hex6 req.start}_{hex6 req.end_}_{req.depth}_leaf"

/-- The identifier of an intermediate node. -/
def WorldcoinRequestIntermediate.proofId (req : WorldcoinRequestIntermediate Snark) (hash : ℕ) :
    String :=
  s!"worldcoin_{hash}_{hex6 req.start}_{hex6 req.end_}_{req.depth}_{req.initialDepth}_inter"

/-- The identifier of a root. -/
def WorldcoinRequestRoot.proofId (req : WorldcoinRequestRoot Snark) (hash : ℕ) : String :=
  s!"worldcoin_{hash}_{hex6 req.start}_{hex6 req.end_}_{req.depth}_{req.initialDepth}_root"

/-- The identifier of a wrapper. -/
def WorldcoinRequestEvm.proofId (req : WorldcoinRequestEvm Snark) (hash : ℕ) : String :=
  s!"worldcoin_{hash}_{hex6 req.start}_{hex6 req.end_}_{req.depth}_{req.initialDepth}" ++
    s!"_evm{req.round}"

/-- The identifier of a proof: what its circuit is built from, with a hash of the request. -/
def RequestRouter.proofId (hash : RequestRouter Snark → ℕ) :
    RequestRouter Snark → String
  | .leaf req => req.proofId (hash (.leaf req))
  | .intermediate req => req.proofId (hash (.intermediate req))
  | .root req => WorldcoinRequestRoot.proofId req (hash (.root req))
  | .evm req => req.proofId (hash (.evm req))

/-- A file in a directory. -/
def join (dir name : String) : String :=
  if dir.isEmpty || dir.endsWith "/" then dir ++ name else dir ++ "/" ++ name

/-- Where the snark of a request is cached, if snarks are. -/
def snarkPath (outDir : Option String) (hash : RequestRouter Snark → ℕ) (circuitId : String)
    (request : RequestRouter Snark) : Option String :=
  outDir.map fun dir => join dir s!"{request.proofId hash}_{circuitId}.snark"

/-- Where the proof for the chain is cached, if proofs are. -/
def evmProofPath (outDir : Option String) (hash : RequestRouter Snark → ℕ) (circuitId : String)
    (request : RequestRouter Snark) : Option String :=
  outDir.map fun dir => join dir s!"{request.proofId hash}_{circuitId}.evm_proof"

/-! ## What names tell -/

/-- The end of the claims that a request is for. -/
def RequestRouter.end_ : RequestRouter Snark → ℕ
  | .leaf req => req.end_
  | .intermediate req => req.end_
  | .root req => req.end_
  | .evm req => req.end_

/-- How a name ends for a type of nodes. -/
def NodeType.tag : NodeType → List Char
  | .leaf => ['l', 'e', 'a', 'f']
  | .intermediate => ['i', 'n', 't', 'e', 'r']
  | .root => ['r', 'o', 'o', 't']
  | .evm round => ['e', 'v', 'm'] ++ Nat.toDigits 10 round

/-- What a name tells of a node, after its depth. -/
def NodeParams.suffix (p : NodeParams) : List Char :=
  if p.nodeType = .leaf then p.nodeType.tag
  else Nat.toDigits 10 p.initialDepth ++ '_' :: p.nodeType.tag

/-- What is in a name, from left to right. -/
theorem toList_proofId (hash : RequestRouter Snark → ℕ) (request : RequestRouter Snark) :
    (request.proofId hash).toList = "worldcoin".toList ++ '_' ::
      (Nat.toDigits 10 (hash request) ++ '_' :: (zeroPadded 16 6 request.start ++ '_' ::
        (zeroPadded 16 6 request.end_ ++ '_' :: (Nat.toDigits 10 request.params.depth ++ '_' ::
          request.params.suffix)))) := by
  have htext (text : String) : toString text = text := rfl
  -- the texts are opened by `delta`: their equation lemmas are too slow
  cases request with
  | leaf req =>
      show (req.proofId _).toList = _
      delta WorldcoinRequestLeaf.proofId
      simp [htext, hex6, RequestRouter.start, RequestRouter.end_, RequestRouter.params,
        NodeParams.suffix, NodeType.tag]
  | intermediate req =>
      show (req.proofId _).toList = _
      delta WorldcoinRequestIntermediate.proofId
      simp [htext, hex6, RequestRouter.start, RequestRouter.end_, RequestRouter.params,
        NodeParams.suffix, NodeType.tag]
  | root req =>
      show (WorldcoinRequestRoot.proofId req _).toList = _
      delta WorldcoinRequestRoot.proofId
      simp [htext, hex6, RequestRouter.start, RequestRouter.end_, RequestRouter.params,
        NodeParams.suffix, NodeType.tag]
  | evm req =>
      show (req.proofId _).toList = _
      delta WorldcoinRequestEvm.proofId
      simp [htext, hex6, RequestRouter.start, RequestRouter.end_, RequestRouter.params,
        NodeParams.suffix, NodeType.tag]

/-- Decimal numbers contain no letters and no underscores. -/
theorem notMem_decimal {n : ℕ} {c : Char} (hc : ∀ d < 10, c ≠ Nat.digitChar d) :
    c ∉ Nat.toDigits 10 n :=
  notMem_toDigits (by decide) hc

/-- Decimal numbers contain no underscores. -/
theorem underscore_notMem_decimal {n : ℕ} : '_' ∉ Nat.toDigits 10 n :=
  notMem_decimal (by decide)

/-- Tags contain no underscores. -/
theorem NodeType.underscore_notMem_tag (nodeType : NodeType) : '_' ∉ nodeType.tag := by
  cases nodeType with
  | leaf => decide
  | intermediate => decide
  | root => decide
  | evm round =>
      intro hmem
      rcases List.mem_append.mp hmem with hmem | hmem
      · exact absurd hmem (by decide)
      · exact underscore_notMem_decimal hmem

/-- Types with the same tag are the same. -/
theorem NodeType.tag_injective : Function.Injective NodeType.tag := by
  intro nodeType nodeType' h
  cases nodeType <;> cases nodeType' <;> simp_all [NodeType.tag, toDigits_inj]

/-- No decimal number ends a name as leaves do. -/
theorem NodeType.tag_leaf_ne_decimal (n : ℕ) : NodeType.leaf.tag ≠ Nat.toDigits 10 n := by
  intro h
  have hmem : 'l' ∈ NodeType.leaf.tag := by decide
  rw [h] at hmem
  exact notMem_decimal (by decide) hmem

/-- What a name tells of a node comes back from the name. -/
theorem NodeParams.suffix_inj {p p' : NodeParams} {rest rest' : List Char}
    (h : p.suffix ++ '_' :: rest = p'.suffix ++ '_' :: rest') :
    p.nodeType = p'.nodeType ∧ (p.nodeType ≠ .leaf → p.initialDepth = p'.initialDepth) ∧
      rest = rest' := by
  unfold NodeParams.suffix at h
  by_cases hleaf : p.nodeType = .leaf
  · by_cases hleaf' : p'.nodeType = .leaf
    · rw [if_pos hleaf, if_pos hleaf', append_sep_inj p.nodeType.underscore_notMem_tag
        p'.nodeType.underscore_notMem_tag] at h
      exact ⟨NodeType.tag_injective h.1, fun hne => absurd hleaf hne, h.2⟩
    · rw [if_pos hleaf, if_neg hleaf', List.append_assoc, List.cons_append,
        append_sep_inj p.nodeType.underscore_notMem_tag underscore_notMem_decimal, hleaf] at h
      exact absurd h.1 (NodeType.tag_leaf_ne_decimal _)
  · by_cases hleaf' : p'.nodeType = .leaf
    · rw [if_neg hleaf, if_pos hleaf', List.append_assoc, List.cons_append,
        append_sep_inj underscore_notMem_decimal p'.nodeType.underscore_notMem_tag, hleaf'] at h
      exact absurd h.1.symm (NodeType.tag_leaf_ne_decimal _)
    · rw [if_neg hleaf, if_neg hleaf', List.append_assoc, List.append_assoc, List.cons_append,
        List.cons_append, append_sep_inj underscore_notMem_decimal underscore_notMem_decimal,
        append_sep_inj p.nodeType.underscore_notMem_tag p'.nodeType.underscore_notMem_tag,
        toDigits_inj (by decide) (by decide)] at h
      exact ⟨NodeType.tag_injective h.2.1, fun _ => h.1, h.2.2⟩

/-- A request for a leaf has no other depths. -/
theorem RequestRouter.initialDepth_eq {request : RequestRouter Snark}
    (h : request.params.nodeType = .leaf) :
    request.params.initialDepth = request.params.depth := by
  cases request with
  | leaf req => rfl
  | intermediate req => cases h
  | root req => cases h
  | evm req => cases h

/-- Requests that only their contents tell apart: they have the same range and node, and the same
hash. -/
structure SameName (hash : RequestRouter Snark → ℕ) (request other : RequestRouter Snark) :
    Prop where
  hash_eq : hash request = hash other
  start_eq : request.start = other.start
  end_eq : request.end_ = other.end_
  params_eq : request.params = other.params

variable {hash : RequestRouter Snark → ℕ} {request other : RequestRouter Snark}
  {circuitId otherId : String}

/-- What is before the circuit id in a name and the circuit id come back from the name. -/
theorem name_inj {extension : List Char}
    (h : (request.proofId hash).toList ++ '_' :: (circuitId.toList ++ extension) =
      (other.proofId hash).toList ++ '_' :: (otherId.toList ++ extension)) :
    SameName hash request other ∧ circuitId = otherId := by
  have hprefix : '_' ∉ "worldcoin".toList := by decide
  have hhex (n : ℕ) : '_' ∉ zeroPadded 16 6 n := notMem_zeroPadded (by decide) (by decide)
  simp only [toList_proofId, List.append_assoc, List.cons_append] at h
  obtain ⟨-, h⟩ := (append_sep_inj hprefix hprefix).mp h
  obtain ⟨hhash, h⟩ := (append_sep_inj underscore_notMem_decimal underscore_notMem_decimal).mp h
  obtain ⟨hstart, h⟩ := (append_sep_inj (hhex _) (hhex _)).mp h
  obtain ⟨hend, h⟩ := (append_sep_inj (hhex _) (hhex _)).mp h
  obtain ⟨hdepth, h⟩ := (append_sep_inj underscore_notMem_decimal underscore_notMem_decimal).mp h
  obtain ⟨htype, hinitial, hrest⟩ := NodeParams.suffix_inj h
  rw [toDigits_inj (by decide) (by decide)] at hhash hdepth
  rw [zeroPadded_inj (by decide) (by decide)] at hstart hend
  have hparams : request.params.initialDepth = other.params.initialDepth := by
    by_cases hleaf : request.params.nodeType = .leaf
    · rw [request.initialDepth_eq hleaf, other.initialDepth_eq (htype ▸ hleaf), hdepth]
    · exact hinitial hleaf
  have hext (p p' : NodeParams) (h : p.nodeType = p'.nodeType) (hd : p.depth = p'.depth)
      (hi : p.initialDepth = p'.initialDepth) : p = p' := by
    obtain ⟨nodeType, depth, initialDepth⟩ := p
    cases h
    cases hd
    cases hi
    rfl
  exact ⟨⟨hhash, hstart, hend, hext _ _ htype hdepth hparams⟩,
    String.toList_inj.mp (List.append_cancel_right hrest)⟩

/-- Requests that only their contents tell apart have the same identifier. -/
theorem SameName.proofId_eq (h : SameName hash request other) :
    request.proofId hash = other.proofId hash := by
  apply String.toList_inj.mp
  rw [toList_proofId, toList_proofId, h.hash_eq, h.start_eq, h.end_eq, h.params_eq]

/-- Files in the same directory are told apart by their names. -/
theorem join_inj {dir name name' : String} : join dir name = join dir name' ↔ name = name' := by
  refine ⟨fun h => ?_, congrArg _⟩
  have hlist := congrArg String.toList h
  unfold join at hlist
  split at hlist
  · simp only [String.toList_append] at hlist
    exact String.toList_inj.mp (List.append_cancel_left hlist)
  · simp only [String.toList_append] at hlist
    exact String.toList_inj.mp (List.append_cancel_left hlist)

/-- The name of a cached file, from left to right. -/
theorem toList_name (proofId circuitId extension : String) :
    (s!"{proofId}_{circuitId}" ++ extension).toList =
      proofId.toList ++ '_' :: (circuitId.toList ++ extension.toList) := by
  have htext (text : String) : toString text = text := rfl
  simp [htext]

variable {dir : String}

/-- Requests share a file exactly if they have the same hash, range and node and are for the same
circuit. -/
theorem cacheFile_inj {extension : String} :
    join dir (s!"{request.proofId hash}_{circuitId}" ++ extension) =
        join dir (s!"{other.proofId hash}_{otherId}" ++ extension) ↔
      SameName hash request other ∧ circuitId = otherId := by
  constructor
  · intro h
    have h := join_inj.mp h
    rw [← String.toList_inj, toList_name, toList_name] at h
    exact name_inj h
  · intro h
    obtain ⟨hname, rfl⟩ := h
    rw [hname.proofId_eq]

/-- The files of snarks and of proofs for the chain are different. -/
theorem snarkFile_ne_evmProofFile (name name' : String) :
    join dir (name ++ ".snark") ≠ join dir (name' ++ ".evm_proof") := by
  intro h
  have h := congrArg (fun text => text.toList.getLast?) (join_inj.mp h)
  simp at h

/-- Requests that share the file of a cached snark have the same name and circuit. -/
theorem snarkPath_inj {outDir : Option String} {file : String}
    (h : snarkPath outDir hash circuitId request = some file)
    (h' : snarkPath outDir hash otherId other = some file) :
    SameName hash request other ∧ circuitId = otherId := by
  obtain ⟨dir, rfl, hfile⟩ := Option.map_eq_some_iff.mp h
  exact cacheFile_inj.mp (hfile.trans (Option.some.inj h').symm)

/-- Requests that share the file of a cached proof for the chain have the same name and circuit. -/
theorem evmProofPath_inj {outDir : Option String} {file : String}
    (h : evmProofPath outDir hash circuitId request = some file)
    (h' : evmProofPath outDir hash otherId other = some file) :
    SameName hash request other ∧ circuitId = otherId := by
  obtain ⟨dir, rfl, hfile⟩ := Option.map_eq_some_iff.mp h
  exact cacheFile_inj.mp (hfile.trans (Option.some.inj h').symm)

/-- Requests share the file of a cached snark, or of a cached proof for the chain, exactly if they
have the same hash, range and node and are for the same circuit. No snark shares a file with a
proof for the chain. -/
theorem cachePaths_inj (dir : String) (hash : RequestRouter Snark → ℕ)
    (circuitId otherId : String) (request other : RequestRouter Snark) :
    (snarkPath (some dir) hash circuitId request =
        snarkPath (some dir) hash otherId other ↔
      SameName hash request other ∧ circuitId = otherId) ∧
    (evmProofPath (some dir) hash circuitId request =
        evmProofPath (some dir) hash otherId other ↔
      SameName hash request other ∧ circuitId = otherId) ∧
    snarkPath (some dir) hash circuitId request ≠
      evmProofPath (some dir) hash otherId other := by
  refine ⟨?_, ?_, ?_⟩
  · exact (Option.some_inj).trans cacheFile_inj
  · exact (Option.some_inj).trans cacheFile_inj
  · intro h
    exact snarkFile_ne_evmProofFile _ _ (Option.some.inj h)

end WorldcoinAggregation
