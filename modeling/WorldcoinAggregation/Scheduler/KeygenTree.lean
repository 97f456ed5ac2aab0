import WorldcoinAggregation.Scheduler.Keygen
import WorldcoinAggregation.Scheduler.Provenance

/-!
# The circuits of a proof

Keygen returns the tree of the circuits that it made, each for the proving key of the circuits below
it. The tasks behind a proof that the scheduler server submits form the same tree: every task is for
the circuit at its place, and it gets one snark from each of the circuits that this circuit was made
to aggregate (`submitted_along`).
-/

namespace WorldcoinAggregation

open Fallible

/-- How many snarks the circuit of a node aggregates. -/
def NodeParams.arity (p : NodeParams) : ℕ :=
  match p.nodeType with
  | .leaf => 0
  | .intermediate | .root => 2
  | .evm _ => 1

/-- Only leaves have no child. -/
theorem NodeParams.leaf_of_child_none {p : NodeParams} (h : p.child = .ok none) :
    p.nodeType = .leaf := by
  obtain ⟨nodeType, depth, initialDepth⟩ := p
  cases nodeType with
  | leaf => rfl
  | intermediate =>
      obtain ⟨_, -, h⟩ := bind_eq_ok.mp h
      split at h <;> obtain ⟨_, -, h⟩ := bind_eq_ok.mp h <;> cases h
  | root =>
      obtain ⟨_, -, h⟩ := bind_eq_ok.mp h
      split at h <;> obtain ⟨_, -, h⟩ := bind_eq_ok.mp h <;> cases h
  | evm round =>
      cases round <;> obtain ⟨_, -, h⟩ := bind_eq_ok.mp h <;> cases h

/-! ## What keygen returns -/

/-- A tree of circuits has the circuit ids of the nodes from this one down. -/
inductive AggTreeId.Fits (ids : NodeParams → Option String) : NodeParams → AggTreeId → Prop where
  | leaf {p : NodeParams} {tree : AggTreeId} (hchild : p.child = .ok none)
      (hid : ids p = some tree.circuitId) (hchildren : tree.children = []) : Fits ids p tree
  | node {p c : NodeParams} {tree child : AggTreeId} (hchild : p.child = .ok (some c))
      (hid : ids p = some tree.circuitId)
      (hchildren : tree.children = List.replicate p.arity child) (hbelow : Fits ids c child) :
      Fits ids p tree

namespace AggTreeId.Fits

variable {ids ids' : NodeParams → Option String} {p : NodeParams} {path : List NodeParams}
  {tree : AggTreeId}

/-- Only the circuit ids of the nodes on the way down matter. -/
theorem congr (hpath : NodeParams.Descends p path) (h : Fits ids p tree)
    (hids : ∀ q ∈ path, ids' q = ids q) : Fits ids' p tree := by
  induction hpath generalizing tree with
  | @leaf p hleaf =>
      cases h with
      | leaf hchild hid hchildren =>
          exact .leaf hchild ((hids p (List.mem_singleton_self p)).trans hid) hchildren
      | node hchild => cases hleaf.symm.trans hchild
  | @node p c path hnode hpath ih =>
      cases h with
      | leaf hchild => cases hnode.symm.trans hchild
      | node hchild hid hchildren hbelow =>
          cases hnode.symm.trans hchild
          refine .node hchild ((hids p List.mem_cons_self).trans hid) hchildren (ih hbelow ?_)
          exact fun q hq => hids q (List.mem_cons_of_mem p hq)

end AggTreeId.Fits

namespace KeygenBackend

variable {Srs ProvingKey Pinning : Type} {backend : KeygenBackend Srs ProvingKey Pinning} {k : ℕ}
  {kAtDepth : List ℕ} {params c : NodeParams} {path : List NodeParams}
  {cidRepo cidRepo' : CidRepo} {child : Option (AggTreeId × ProvingKey × List ℕ × Bool)}
  {node : AggTreeId × ProvingKey × Pinning}

/-- The circuit of a leaf aggregates nothing. -/
theorem children_leaf (hleaf : params.nodeType = .leaf)
    (h : backend.createCircuit k params child = .ok node) : node.1.children = [] := by
  simp only [createCircuit, keygenIntent, hleaf, bind_eq_ok, pure_eq_ok] at h
  obtain ⟨_, -, _, rfl, _, -, _, -, rfl⟩ := h
  rfl

/-- The circuit of a node above the leaves aggregates copies of the circuit below it. -/
theorem children_node (hleaf : params.nodeType ≠ .leaf)
    {below : AggTreeId × ProvingKey × List ℕ × Bool}
    (h : backend.createCircuit k params (some below) = .ok node) :
    node.1.children = List.replicate params.arity below.1 := by
  obtain ⟨nodeType, depth, initialDepth⟩ := params
  simp only [createCircuit, bind_eq_ok, pure_eq_ok] at h
  obtain ⟨_, -, ⟨intent, children⟩, hintent, _, -, _, -, rfl⟩ := h
  cases nodeType with
  | leaf => exact (hleaf rfl).elim
  | intermediate =>
      cases hintent
      rfl
  | root =>
      cases hintent
      rfl
  | evm round =>
      cases hintent
      rfl

/-- What was made and noted for a node. -/
theorem createNode_eq_ok (h : backend.createNode k params child cidRepo = .ok (node, cidRepo')) :
    backend.createCircuit k params child = .ok node ∧
      cidRepo' = cidRepo.insert params node.1.circuitId := by
  simp only [createNode, bind_eq_ok] at h
  obtain ⟨node', hcircuit, repo, hinsert, h⟩ := h
  cases h
  refine ⟨?_, ?_⟩
  · cases hcreate : backend.createCircuit k params child with
    | ok node' =>
        rw [hcreate] at hcircuit
        cases hcircuit
        rfl
    | error failure =>
        rw [hcreate] at hcircuit
        cases hcircuit
  · unfold insertCid at hinsert
    split at hinsert
    · split at hinsert
      · cases hinsert
      · exact (Except.ok.inj hinsert).symm
    · exact (Except.ok.inj hinsert).symm

/-- A node is made after its child. -/
theorem exists_of_createAndSerializeProvingKey (hchild : params.child = .ok (some c))
    (h : backend.createAndSerializeProvingKey (k :: kAtDepth) params cidRepo =
      .ok (node, cidRepo')) : ∃ below repo numInstance,
        backend.createAndSerializeProvingKey kAtDepth c cidRepo = .ok (below, repo) ∧
          backend.createNode k params (some (below.1, below.2.1, numInstance, c.nodeType ≠ .leaf))
            repo = .ok (node, cidRepo') := by
  rw [createAndSerializeProvingKey, hchild] at h
  obtain ⟨child, hsome, h⟩ := bind_eq_ok.mp h
  obtain rfl : some c = child := Except.ok.inj hsome
  obtain ⟨⟨below, repo⟩, hbelow, h⟩ := bind_eq_ok.mp h
  obtain ⟨numInstance, -, h⟩ := bind_eq_ok.mp h
  exact ⟨below, repo, numInstance, hbelow, h⟩

/-- The tree that keygen returns has the circuit ids that it noted. The induction is on the way
down. -/
theorem fits_of_createAndSerializeProvingKey (hpath : NodeParams.Descends params path)
    (h : backend.createAndSerializeProvingKey kAtDepth params cidRepo = .ok (node, cidRepo')) :
    node.1.Fits (fun q => cidRepo'[q]?) params := by
  induction hpath generalizing kAtDepth node cidRepo' with
  | @leaf p hleaf =>
      cases kAtDepth with
      | nil => cases h
      | cons k kAtDepth =>
          rw [backend.createAndSerializeProvingKey_leaf k kAtDepth hleaf] at h
          obtain ⟨hcircuit, rfl⟩ := createNode_eq_ok h
          exact .leaf hleaf Std.TreeMap.getElem?_insert_self
            (children_leaf (NodeParams.leaf_of_child_none hleaf) hcircuit)
  | @node p c path hchild hpath ih =>
      cases kAtDepth with
      | nil => cases h
      | cons k kAtDepth =>
          obtain ⟨below, repo, numInstance, hbelow, hnode⟩ :=
            exists_of_createAndSerializeProvingKey hchild h
          obtain ⟨hcircuit, rfl⟩ := createNode_eq_ok hnode
          refine .node hchild Std.TreeMap.getElem?_insert_self (children_node ?_ hcircuit) ?_
          · intro hleaf
            cases (NodeParams.child_leaf hleaf).symm.trans hchild
          · refine (ih hbelow).congr hpath fun q hq => ?_
            have hnodup := (NodeParams.Descends.node hchild hpath).nodup
            have hne : compare p q ≠ .eq := by
              rw [Ne, Std.LawfulEqOrd.compare_eq_iff_eq]
              rintro rfl
              exact (List.nodup_cons.mp hnodup).1 hq
            rw [Std.TreeMap.getElem?_insert, if_neg hne]

end KeygenBackend

/-- The circuit id of a node that comes once in a list. -/
theorem SchedulerServer.cidsRepo_of_mem {cids : List (NodeParams × String)} {params : NodeParams}
    {circuitId : String} (hnodup : (cids.map Prod.fst).Nodup) (hmem : (params, circuitId) ∈ cids) :
    cidsRepo cids params = some circuitId := by
  obtain ⟨before, after, rfl⟩ := List.append_of_mem hmem
  have hafter (repo : NodeParams → Option String) (l : List (NodeParams × String))
      (hl : params ∉ l.map Prod.fst) : l.foldl (fun (repo : NodeParams → Option String) entry =>
        Function.update repo entry.1 (some entry.2)) repo params = repo params := by
    induction l generalizing repo with
    | nil => rfl
    | cons entry l ih =>
        rw [List.map_cons, List.mem_cons, not_or] at hl
        rw [List.foldl_cons, ih _ hl.2, Function.update_of_ne hl.1]
  rw [List.map_append, List.map_cons, List.nodup_append, List.nodup_cons] at hnodup
  unfold cidsRepo
  rw [List.foldl_append, List.foldl_cons, hafter _ _ hnodup.2.1.1, Function.update_self]

/-- What keygen wrote down is what it noted. -/
theorem SchedulerServer.cidsRepo_toList (cidRepo : CidRepo) (params : NodeParams) :
    cidsRepo cidRepo.toList params = cidRepo[params]? := by
  have hnodup : (cidRepo.toList.map Prod.fst).Nodup := by
    rw [Std.TreeMap.map_fst_toList_eq_keys]
    exact cidRepo.nodup_keys
  cases hget : cidRepo[params]? with
  | some circuitId =>
      exact cidsRepo_of_mem hnodup (Std.TreeMap.mem_toList_iff_getElem?_eq_some.mpr hget)
  | none =>
      rw [← Option.not_isSome_iff_eq_none, isSome_cidsRepo, Std.TreeMap.map_fst_toList_eq_keys,
        Std.TreeMap.mem_keys, Std.TreeMap.mem_iff_isSome_getElem?, hget]
      exact Bool.false_ne_true

/-! ## What circuits are given -/

variable {Snark EvmProof Params : Type}

/-- The snarks that a request gives to its circuit. -/
def RequestRouter.snarks : RequestRouter Snark → List Snark
  | .leaf _ => []
  | .intermediate req => req.snarks
  | .root req => req.snarks
  | .evm req => [req.snark]

/-- The two snarks of a join come from one dependency or from two. -/
theorem exists_index_of_padSnarks {snarks padded : List Snark} (hpos : snarks ≠ [])
    (h : padSnarks snarks = .ok padded) : ∃ index : Fin 2 → Fin snarks.length,
      padded = List.ofFn (fun i => snarks.get (index i)) ∧ Function.Surjective index := by
  have hle : snarks.length ≤ 2 := assert_eq_ok.mp (bind_eq_ok.mp h).choose_spec.1
  obtain ⟨first, second, hpad, ⟨rfl, rfl⟩ | rfl⟩ := padSnarks_eq hpos hle
  · cases hpad.symm.trans h
    exact ⟨fun _ => ⟨0, Nat.one_pos⟩, rfl, fun j => ⟨0, Subsingleton.elim (0 : Fin 1) j⟩⟩
  · cases hpad.symm.trans h
    exact ⟨id, rfl, Function.surjective_id⟩

/-- A request above the initial depth gives its circuit as many snarks as it aggregates, and among
them those of all dependencies. -/
theorem exists_index_of_handled {vk : VkNative} {snarks : List Snark} {node : RecursiveRequest}
    {request : RequestRouter Snark} (hdepth : node.params.depth ≠ node.params.initialDepth)
    (h : handleRecursiveRequest vk snarks node = .ok request) :
    ∃ index : Fin node.params.arity → Fin snarks.length,
      request.snarks = List.ofFn (fun i => snarks.get (index i)) ∧ Function.Surjective index := by
  obtain ⟨start, end_, root, claims, nodeType, depth, initialDepth⟩ := node
  simp only [handleRecursiveRequest, if_neg hdepth, bind_eq_ok, assert_eq_ok] at h
  obtain ⟨_, hpos, h⟩ := h
  have hpos : snarks ≠ [] := by
    rintro rfl
    cases hpos
  cases nodeType with
  | leaf => cases h
  | intermediate =>
      obtain ⟨padded, hpadded, h⟩ := bind_eq_ok.mp h
      obtain rfl := pure_eq_ok.mp h
      exact exists_index_of_padSnarks hpos hpadded
  | root =>
      obtain ⟨padded, hpadded, h⟩ := bind_eq_ok.mp h
      obtain rfl := pure_eq_ok.mp h
      exact exists_index_of_padSnarks hpos hpadded
  | evm round =>
      obtain ⟨_, hone, h⟩ := bind_eq_ok.mp h
      obtain ⟨snark, rfl⟩ := List.length_eq_one_iff.mp (assert_eq_ok.mp hone)
      obtain ⟨_, hsnark, h⟩ := bind_eq_ok.mp h
      cases hsnark
      obtain rfl := pure_eq_ok.mp h
      exact ⟨fun _ => ⟨0, Nat.one_pos⟩, rfl,
        fun j => ⟨⟨0, Nat.one_pos⟩, Subsingleton.elim (0 : Fin 1) j⟩⟩

/-- Each snark that a request above the initial depth gives to its circuit is that of a dependency,
and each dependency has one. -/
theorem exists_source {vk : VkNative} {below : List (RecursiveRequest × Snark × String)}
    {node : RecursiveRequest} {request : RequestRouter Snark} {n : ℕ}
    (hdepth : node.params.depth ≠ node.params.initialDepth)
    (h : handleRecursiveRequest vk (below.map fun child => child.2.1) node = .ok request)
    (hn : n = node.params.arity) : ∃ source : Fin n → RecursiveRequest × Snark × String,
      (∀ i, source i ∈ below) ∧ request.snarks = List.ofFn (fun i => (source i).2.1) ∧
        ∀ entry ∈ below, ∃ i, source i = entry := by
  subst hn
  obtain ⟨index, hindex, hsurjective⟩ := exists_index_of_handled hdepth h
  have hlength : (below.map fun child => child.2.1).length = below.length := List.length_map _
  refine ⟨fun i => below.get (Fin.cast hlength (index i)), fun i => List.get_mem _ _, ?_, ?_⟩
  · rw [hindex]
    congr 1
    funext i
    exact List.getElem_map _
  · intro entry hentry
    obtain ⟨j, rfl⟩ := List.mem_iff_get.mp hentry
    obtain ⟨i, hi⟩ := hsurjective (Fin.cast hlength.symm j)
    refine ⟨i, ?_⟩
    show below.get (Fin.cast hlength (index i)) = below.get j
    rw [hi, Fin.cast_cast, Fin.cast_eq_self]

/-- A request at the initial depth gives its circuit no snarks. -/
theorem snarks_of_handled {vk : VkNative} {snarks : List Snark} {node : RecursiveRequest}
    {request : RequestRouter Snark} (hdepth : node.params.depth = node.params.initialDepth)
    (h : handleRecursiveRequest vk snarks node = .ok request) : request.snarks = [] := by
  simp only [handleRecursiveRequest, if_pos hdepth, bind_eq_ok] at h
  obtain ⟨leaf, -, h⟩ := h
  obtain rfl := pure_eq_ok.mp h
  rfl

/-! ## Proofs along a tree of circuits -/

namespace SchedulerSystem

/-- What a client has done vouches for a proof along a tree of circuits. First it vouched along the
trees below, one for each of the circuits below, for snarks of the dependencies, and each dependency
has one. Then the task that was exchanged with the dispatcher was for the circuit at the top, which
builds the circuit of the node, from these snarks. -/
inductive VouchedAlong (system : SchedulerSystem Snark EvmProof Params) :
    system.Log → AggTreeId → String → RecursiveRequest → ProverProof Snark EvmProof → Prop where
  | node {log before after : system.Log} {tree : AggTreeId} {node : RecursiveRequest}
      {deps : List RecursiveRequest} {task : ProverTask Snark} {taskId : String}
      {proof : ProverProof Snark EvmProof}
      (source : Fin tree.children.length → RecursiveRequest × Snark × String)
      (hlog : log = before ++ after) (hcircuit : task.circuitId = tree.circuitId)
      (hparams : task.request.params = node.params) (hdeps : node.dependencies = .ok deps)
      (hsnarks : task.request.snarks = List.ofFn fun i => (source i).2.1)
      (hcover : ∀ dep, dep ∈ deps ↔ ∃ i, (source i).1 = dep)
      (hbelow : ∀ i, VouchedAlong system before (tree.children.get i) (source i).2.2 (source i).1
        (.snark (source i).2.1))
      (hexchanged : ((system.executor.exchangesOf task ⟨taskId, proof⟩).map
        (.noted (.inl (.await node task)))).Sublist after) :
      VouchedAlong system log tree taskId node proof

variable {system : SchedulerSystem Snark EvmProof Params} {log : system.Log} {tree : AggTreeId}
  {taskId : String} {node : RecursiveRequest} {proof : ProverProof Snark EvmProof}

/-- What is vouched for is vouched for along the tree of circuits with the circuit ids of the nodes.
The induction is on the tree of tasks. -/
theorem Vouched.along (h : system.Vouched log taskId node proof)
    (hfits : tree.Fits system.circuitIdRepo node.params)
    (hdepth : node.params.depth = node.params.initialDepth → node.params.nodeType = .leaf) :
    system.VouchedAlong log tree taskId node proof := by
  induction h generalizing tree with
  | @node log before after node below task taskId proof hlog hdeps _ hrequest hcircuit hexchanged
      ih =>
      have hparams : task.request.params = node.params :=
        (Prod.mk.inj (LocalScheduler.key_of_handled hrequest hdepth)).2
      obtain ⟨circuitId, children⟩ := tree
      obtain ⟨-, -, -, ⟨hinitial, hnil⟩ | ⟨hne, c, hchild, hparts, -⟩⟩ :=
        RecursiveRequest.dependencies_spec hdeps
      · cases hfits with
        | leaf hnone hid hchildren =>
            obtain rfl : children = [] := hchildren
            refine .node nofun hlog ?_ hparams hdeps (snarks_of_handled hinitial hrequest) ?_ nofun
              hexchanged
            · exact Option.some.inj (hcircuit.symm.trans hid)
            · intro dep
              rw [hnil]
              exact ⟨nofun, nofun⟩
        | node hchild => cases (NodeParams.child_leaf (hdepth hinitial)).symm.trans hchild
      · cases hfits with
        | leaf hnone => cases hnone.symm.trans hchild
        | @node _ c' _ child hchild' hid hchildren hfits =>
            cases hchild.symm.trans hchild'
            obtain rfl : children = List.replicate node.params.arity child := hchildren
            obtain ⟨source, hmem, hsnarks, hcover⟩ :=
              exists_source hne hrequest (List.length_replicate (a := child))
            refine .node source hlog ?_ hparams hdeps hsnarks ?_ (fun i => ?_) hexchanged
            · exact Option.some.inj (hcircuit.symm.trans hid)
            · intro dep
              rw [List.mem_map]
              constructor
              · intro ⟨entry, hentry, hdep⟩
                obtain ⟨i, rfl⟩ := hcover entry hentry
                exact ⟨i, hdep⟩
              · intro ⟨i, hdep⟩
                exact ⟨source i, hmem i, hdep⟩
            · have hdep : (source i).1 ∈ below.map Prod.fst := List.mem_map_of_mem (hmem i)
              rw [hparts] at hdep
              obtain ⟨j, -, hpart⟩ := List.mem_map.mp hdep
              have hc : (source i).1.params = c := by
                rw [← hpart]
                rfl
              have hget : (List.replicate node.params.arity child).get i = child :=
                List.getElem_replicate _
              rw [hget]
              refine ih _ (hmem i) (by rw [hc]; exact hfits) ?_
              rw [hc]
              exact NodeParams.leaf_of_child hchild hne

variable {Srs ProvingKey Pinning : Type} {backend : KeygenBackend Srs ProvingKey Pinning}
  {count : ℕ} {clients : Fin count → SchedulerClient} {logs : Fin count → system.Log}
  {w : system.State count}

/-- If the circuit ids are those that keygen wrote down, then in every run of the system, what a
client has done vouches for the proof that it submits along the tree of circuits that keygen
returned. -/
theorem submitted_along {round depth initialDepth : ℕ} (hlt : initialDepth < depth)
    {kAtDepth : List ℕ} {cids : List (NodeParams × String)}
    (hmain : backend.main ⟨kAtDepth, ⟨.evm round, depth, initialDepth⟩⟩ = .ok cids)
    (hrepo : system.circuitIdRepo = SchedulerServer.cidsRepo cids)
    (h : system.Runs clients logs w) {i : Fin count}
    (hparams : (clients i).req.params = ⟨.evm round, depth, initialDepth⟩)
    {effect : FulfillEffect EvmProof} {phase : system.machines.Phase (.inr effect)}
    {k : FulfillOutcome → ServerProg Snark EvmProof}
    (hi : w.lives i = .running (.inr effect) phase k) :
    ∃ tree pk pinning cidRepo taskId,
      backend.createAndSerializeProvingKey kAtDepth ⟨.evm round, depth, initialDepth⟩ ∅ =
        .ok ((tree, pk, pinning), cidRepo) ∧
      tree.Fits system.circuitIdRepo ⟨.evm round, depth, initialDepth⟩ ∧
      system.VouchedAlong (logs i) tree taskId (clients i).req (.evmProof effect.proof) := by
  have hvalid : NodeParams.Valid ⟨.evm round, depth, initialDepth⟩ := hlt.le
  obtain ⟨path, hpath, -⟩ := NodeParams.exists_descends hvalid
  obtain ⟨⟨tree, pk, pinning⟩, cidRepo, hcreate, rfl⟩ := backend.exists_cidRepo_of_main hmain
  have hids : system.circuitIdRepo = fun q => cidRepo[q]? := by
    rw [hrepo]
    funext q
    exact SchedulerServer.cidsRepo_toList cidRepo q
  have hfits : tree.Fits system.circuitIdRepo ⟨.evm round, depth, initialDepth⟩ := by
    rw [hids]
    exact KeygenBackend.fits_of_createAndSerializeProvingKey hpath hcreate
  obtain ⟨hreq, taskId, hvouched⟩ := vouched_of_submitting h hi
  rw [hreq] at hvouched
  refine ⟨tree, pk, pinning, cidRepo, taskId, hcreate, hfits, hvouched.along ?_ ?_⟩
  · rw [hparams]
    exact hfits
  · rw [hparams]
    exact fun heq => (hlt.ne' heq).elim

/-- While the task of the second client is in flight, the first one submits a proof from the
circuits that keygen made. -/
theorem submitted_along_pair : 0 < 2 ∧ ∃ (logs : Fin 2 → pairSystem.Log) (w : pairSystem.State 2)
    (effect : FulfillEffect (List ℕ)) (tree : AggTreeId) (taskId : String),
    pairSystem.Runs pairClients logs w ∧ 1 ≤ (w.lives 1).total inFlight ∧
      tree.Fits pairSystem.circuitIdRepo ⟨.evm 0, 2, 0⟩ ∧
      pairSystem.VouchedAlong (logs 0) tree taskId (pairClients 0).req
        (.evmProof effect.proof) := by
  have hmain : KeygenBackend.soleBackend.main ⟨[20, 20, 20, 20], ⟨.evm 0, 2, 0⟩⟩ =
      .ok AsyncScheduler.pairCids := rfl
  obtain ⟨w, effect, tasks, k, hreaches, hlives, hflight⟩ := exists_reaches_fulfilling
  obtain ⟨logs, hruns⟩ := Async.Machines.reaches_iff_exists_runs.mp hreaches
  obtain ⟨tree, pk, pinning, cidRepo, taskId, -, hfits, halong⟩ :=
    submitted_along (by decide) hmain rfl hruns rfl hlives
  exact ⟨by decide, logs, w, effect, tree, taskId, hruns, hflight, hfits, halong⟩

end SchedulerSystem

end WorldcoinAggregation
