import WorldcoinAggregation.Scheduler.Servers
import Mathlib.Data.Prod.Lex
import Std.Data.TreeMap.Lemmas

/-!
# Keygen

`createAndSerializeProvingKey` makes the circuit of a node after that of its child and notes its
circuit id. The nodes that it visits (`Descends`) get smaller in the derived order, so the list that
keygen writes down is sorted from the leaf to the node it was called for, which the scheduler server
takes for its final circuit.
-/

namespace WorldcoinAggregation

open Fallible

/-! ## The order of nodes -/

namespace NodeType

/-- The position of a variant in the declaration. -/
def discriminant : NodeType → ℕ
  | .leaf => 0
  | .intermediate => 1
  | .root => 2
  | .evm _ => 3

/-- What a variant carries. -/
def payload : NodeType → ℕ
  | .evm round => round
  | .leaf | .intermediate | .root => 0

/-- The derived order: by variant, then by what it carries. -/
instance : Ord NodeType :=
  ⟨compareLex (compareOn discriminant) (compareOn payload)⟩

instance : Std.TransOrd NodeType :=
  inferInstanceAs (Std.TransCmp (compareLex _ _))

instance : Std.LawfulEqOrd NodeType where
  eq_of_compare {a b} h := by
    have hkeys : compareLex (compareOn discriminant) (compareOn payload) a b = .eq := h
    simp only [compareLex, compareOn, Ordering.then_eq_eq, Nat.compare_eq_eq] at hkeys
    obtain ⟨hdiscriminant, hpayload⟩ := hkeys
    cases a <;> cases b <;> simp_all [discriminant, payload]

end NodeType

namespace NodeParams

/-- The derived order: field by field. -/
instance : Ord NodeParams :=
  ⟨compareLex (compareOn nodeType) (compareLex (compareOn depth) (compareOn initialDepth))⟩

instance : Std.TransOrd NodeParams :=
  inferInstanceAs (Std.TransCmp (compareLex _ _))

instance : Std.LawfulEqOrd NodeParams where
  eq_of_compare {a b} h := by
    have hkeys : compareLex (compareOn nodeType)
        (compareLex (compareOn depth) (compareOn initialDepth)) a b = .eq := h
    simp only [compareLex, compareOn, Ordering.then_eq_eq,
      Std.LawfulEqOrd.compare_eq_iff_eq] at hkeys
    obtain ⟨htype, hdepth, hinitial⟩ := hkeys
    cases a
    cases b
    simp_all

variable {p q c : NodeParams} {path : List NodeParams}

/-- When a node is smaller than another. -/
theorem compare_eq_lt : compare p q = .lt ↔
    compare p.nodeType q.nodeType = .lt ∨ p.nodeType = q.nodeType ∧
      (p.depth < q.depth ∨ p.depth = q.depth ∧ p.initialDepth < q.initialDepth) := by
  have hcompare : compare p q = compareLex (compareOn nodeType)
      (compareLex (compareOn depth) (compareOn initialDepth)) p q := rfl
  simp only [hcompare, compareLex, compareOn, Ordering.then_eq_lt, Nat.compare_eq_lt,
    Std.LawfulEqOrd.compare_eq_iff_eq]

/-- A child is smaller than its parent. -/
theorem compare_child (h : p.child = .ok (some c)) : compare c p = .lt := by
  obtain ⟨nodeType, depth, initialDepth⟩ := p
  rw [compare_eq_lt]
  have hjoin (htype : nodeType = .intermediate ∨ nodeType = .root) (hlt : initialDepth < depth) :
      compare c.nodeType nodeType = .lt ∨ c.nodeType = nodeType ∧
        (c.depth < depth ∨ c.depth = depth ∧ c.initialDepth < initialDepth) := by
    obtain ⟨k, rfl⟩ := Nat.exists_eq_add_of_lt hlt
    rw [child_join htype (Nat.le_add_right _ _)] at h
    cases h
    unfold below
    split
    · rcases htype with rfl | rfl <;> exact .inl rfl
    · rcases htype with rfl | rfl
      · exact .inr ⟨rfl, .inl (Nat.lt_succ_self _)⟩
      · exact .inl rfl
  have hvalid := (isChild_of_child h).parent_valid
  cases nodeType with
  | leaf => cases h
  | intermediate => exact hjoin (.inl rfl) hvalid
  | root => exact hjoin (.inr rfl) hvalid
  | evm round =>
      cases round with
      | zero =>
          by_cases heq : depth = initialDepth
          · subst heq
            simp only [child, if_true, new_eq le_rfl] at h
            cases h
            exact .inl rfl
          · rw [child_evm_zero (lt_of_le_of_ne hvalid (Ne.symm heq))] at h
            cases h
            exact .inl rfl
      | succ round =>
          rw [child_evm_succ hvalid] at h
          cases h
          have hlt : compare round (round + 1) = .lt := Nat.compare_eq_lt.mpr (Nat.lt_succ_self _)
          exact .inl hlt

/-- The nodes below a node and the node itself, from the root down to the leaf. -/
inductive Descends : NodeParams → List NodeParams → Prop where
  | leaf {p : NodeParams} (hleaf : p.child = .ok none) : Descends p [p]
  | node {p c : NodeParams} {path : List NodeParams} (hchild : p.child = .ok (some c))
      (hpath : Descends c path) : Descends p (p :: path)

/-- There is one node for each generation below a valid node, and the node itself. -/
theorem exists_descends (h : p.Valid) : ∃ path, Descends p path ∧ path.length = p.height + 1 := by
  induction hheight : p.height using Nat.strong_induction_on generalizing p with
  | h height ih =>
      by_cases hleaf : p.nodeType = .leaf
      · have hzero : p.height = 0 := by rw [NodeParams.height, hleaf]
        exact ⟨[p], .leaf (child_leaf hleaf), by rw [List.length_singleton, ← hheight, hzero]⟩
      · obtain ⟨c, hchild, hc, -⟩ := exists_child h hleaf
        have hlower := (isChild_of_child hchild).height_eq
        obtain ⟨path, hpath, hlength⟩ := ih c.height (by omega) hc rfl
        exact ⟨p :: path, .node hchild hpath, by rw [List.length_cons, hlength, hlower, hheight]⟩

/-- A node is the first on its way down, and all others are smaller. -/
theorem Descends.compare_eq_lt (h : Descends p path) :
    ∀ q ∈ path, q = p ∨ compare q p = .lt := by
  induction h with
  | leaf _ => simp
  | @node p c path hchild _ ih =>
      intro q hq
      rcases List.mem_cons.mp hq with rfl | hq
      · exact .inl rfl
      · right
        rcases ih q hq with rfl | hlt
        · exact compare_child hchild
        · exact Std.TransCmp.lt_trans hlt (compare_child hchild)

/-- The nodes on the way down get smaller. -/
theorem Descends.pairwise (h : Descends p path) :
    path.Pairwise fun p q => compare q p = .lt := by
  induction h with
  | leaf _ => exact List.pairwise_singleton _ _
  | @node p c path hchild hpath ih =>
      refine List.pairwise_cons.mpr ⟨fun q hq => ?_, ih⟩
      rcases hpath.compare_eq_lt q hq with rfl | hlt
      · exact compare_child hchild
      · exact Std.TransCmp.lt_trans hlt (compare_child hchild)

/-- No node comes twice on the way down. -/
theorem Descends.nodup (h : Descends p path) : path.Nodup := by
  refine h.pairwise.imp fun {a b} hlt heq => ?_
  rw [heq, Std.ReflOrd.compare_self] at hlt
  cases hlt

/-- A node is on its own way down. -/
theorem Descends.self_mem (h : Descends p path) : p ∈ path := by
  cases h <;> simp

/-- The way down is closed under children. -/
theorem Descends.child_mem (h : Descends p path) (hq : q ∈ path) (hc : q.child = .ok (some c)) :
    c ∈ path := by
  induction h with
  | leaf hleaf =>
      rw [List.mem_singleton.mp hq, hleaf] at hc
      cases hc
  | node hchild hpath ih =>
      rcases List.mem_cons.mp hq with rfl | hq
      · rw [hchild] at hc
        cases hc
        exact List.mem_cons_of_mem _ hpath.self_mem
      · exact List.mem_cons_of_mem _ (ih hq)

/-- The scheduler stays on the way down. -/
theorem Descends.params_mem {req node : RecursiveRequest} (h : Descends req.params path)
    (hreach : req.Reaches node) : node.params ∈ path := by
  induction hreach with
  | refl => exact h.self_mem
  | dep _ hdeps hmem ih =>
      obtain ⟨-, -, -, ⟨-, rfl⟩ | ⟨-, c, hchild, rfl, -⟩⟩ :=
        RecursiveRequest.dependencies_spec hdeps
      · cases hmem
      · obtain ⟨i, -, rfl⟩ := List.mem_map.mp hmem
        exact h.child_mem ih hchild

end NodeParams

/-! ## Making circuits -/

/-- Why keygen gives up. -/
inductive KeygenError where
  | emptyKAtDepth
  | differentCircuitId
  | failed (failure : Failure)

/-- A failure that keygen passes on. -/
def orKeygenFailed {α : Type} (c : Fallible α) : Except KeygenError α :=
  c.mapError .failed

/-- A circuit and the circuits that it aggregates. -/
structure AggTreeId where
  circuitId : String
  children : List AggTreeId

/-- What a circuit is made for, with the proving key of the circuit below it. -/
inductive KeygenIntent (ProvingKey : Type) where
  | leaf (k depth : ℕ)
  | intermediate (k : ℕ) (toAgg : List AggTreeId) (child : ProvingKey) (numInstance : List ℕ)
      (isAggregation : Bool) (depth initialDepth : ℕ)
  | root (k : ℕ) (toAgg : List AggTreeId) (child : ProvingKey) (numInstance : List ℕ)
      (isAggregation : Bool) (depth initialDepth : ℕ)
  | evm (k : ℕ) (toAgg : AggTreeId) (child : ProvingKey) (numInstance : List ℕ)
      (isAggregation : Bool)

/-- The proof system. -/
structure KeygenBackend (Srs ProvingKey Pinning : Type) where
  readSrs : ℕ → Fallible Srs
  createPkAndPinning : Srs → KeygenIntent ProvingKey → Fallible (ProvingKey × Pinning)
  numInstance : Pinning → Fallible (List ℕ)
  writePkAndPinning : ProvingKey → Pinning → Fallible String
  genEvmVerifier : Srs → ProvingKey → List ℕ → Fallible Unit

/-- A tree to be made: the domain sizes of its layers from the root down, and its root. -/
structure RecursiveIntent where
  kAtDepth : List ℕ
  params : NodeParams

/-- The circuit ids of nodes, in the order of the nodes. -/
abbrev CidRepo := Std.TreeMap NodeParams String

namespace KeygenBackend

variable {Srs ProvingKey Pinning : Type} (backend : KeygenBackend Srs ProvingKey Pinning)

/-- What the circuit of a node is made for. -/
def keygenIntent (k : ℕ) (params : NodeParams)
    (child : Option (AggTreeId × ProvingKey × List ℕ × Bool)) :
    Fallible (KeygenIntent ProvingKey × List AggTreeId) :=
  match params.nodeType with
  | .leaf => return (.leaf k params.initialDepth, [])
  | .intermediate => do
      let (childId, pk, numInstance, isAggregation) ← unwrap child
      let toAgg := [childId, childId]
      return (.intermediate k toAgg pk numInstance isAggregation params.depth params.initialDepth,
        toAgg)
  | .root => do
      let (childId, pk, numInstance, isAggregation) ← unwrap child
      let toAgg := [childId, childId]
      return (.root k toAgg pk numInstance isAggregation params.depth params.initialDepth, toAgg)
  | .evm _ => do
      let (childId, pk, numInstance, isAggregation) ← unwrap child
      return (.evm k childId pk numInstance isAggregation, [childId])

/-- Makes the circuit of a node whose child is made, up to its circuit id. -/
def createCircuit (k : ℕ) (params : NodeParams)
    (child : Option (AggTreeId × ProvingKey × List ℕ × Bool)) :
    Fallible (AggTreeId × ProvingKey × Pinning) := do
  let srs ← backend.readSrs k
  let (intent, children) ← keygenIntent k params child
  let (pk, pinning) ← backend.createPkAndPinning srs intent
  let circuitId ← backend.writePkAndPinning pk pinning
  return (⟨circuitId, children⟩, pk, pinning)

/-- Notes the circuit id of a node, which must not change. -/
def insertCid (cidRepo : CidRepo) (params : NodeParams) (circuitId : String) :
    Except KeygenError CidRepo :=
  match cidRepo[params]? with
  | some oldCid =>
      if oldCid ≠ circuitId then .error .differentCircuitId
      else return cidRepo.insert params circuitId
  | none => return cidRepo.insert params circuitId

/-- Makes the circuit of a node whose child is made, and notes its circuit id. -/
def createNode (k : ℕ) (params : NodeParams)
    (child : Option (AggTreeId × ProvingKey × List ℕ × Bool)) (cidRepo : CidRepo) :
    Except KeygenError ((AggTreeId × ProvingKey × Pinning) × CidRepo) := do
  let node ← orKeygenFailed (backend.createCircuit k params child)
  return (node, ← insertCid cidRepo params node.1.circuitId)

/-- Makes the circuits of a node and of all nodes below it, the lower ones first, and notes their
circuit ids. -/
def createAndSerializeProvingKey :
    (kAtDepth : List ℕ) → NodeParams → CidRepo →
      Except KeygenError ((AggTreeId × ProvingKey × Pinning) × CidRepo)
  -- the assertion that the list is not empty comes first, in `child`
  | [], _, _ => .error .emptyKAtDepth
  | k :: kAtDepth, params, cidRepo => do
      match ← orKeygenFailed params.child with
      | some childParams => do
          let ((childId, childPk, childPinning), cidRepo) ←
            createAndSerializeProvingKey kAtDepth childParams cidRepo
          let numInstance ← orKeygenFailed (backend.numInstance childPinning)
          backend.createNode k params
            (some (childId, childPk, numInstance, childParams.nodeType ≠ .leaf)) cidRepo
      | none => backend.createNode k params none cidRepo

/-- Makes the circuits of a tree and writes their circuit ids down. -/
def main (intent : RecursiveIntent) : Except KeygenError (List (NodeParams × String)) := do
  let k ← orKeygenFailed (unwrap intent.kAtDepth.head?)
  let ((_, pk, pinning), cidRepo) ←
    backend.createAndSerializeProvingKey intent.kAtDepth intent.params ∅
  match intent.params.nodeType with
  | .evm _ =>
      let numInstance ← orKeygenFailed (backend.numInstance pinning)
      let srs ← orKeygenFailed (backend.readSrs k)
      orKeygenFailed (backend.genEvmVerifier srs pk numInstance)
  | .leaf | .intermediate | .root => pure ()
  return cidRepo.toList

variable (k : ℕ) (kAtDepth : List ℕ) (child : Option (AggTreeId × ProvingKey × List ℕ × Bool))
  {cidRepo cidRepo' : CidRepo} {params p q : NodeParams} {path : List NodeParams}
  {node : AggTreeId × ProvingKey × Pinning}

/-- What fails elsewhere is no failure of keygen's own. -/
theorem orKeygenFailed_eq_error {α : Type} {c : Fallible α} {e : KeygenError}
    (h : orKeygenFailed c = .error e) : ∃ failure, e = .failed failure := by
  cases c with
  | ok a => cases h
  | error failure =>
      cases h
      exact ⟨failure, rfl⟩

/-- A node that has no circuit id yet gets one, unless the proof system fails. -/
theorem createNode_fresh (hfresh : params ∉ cidRepo) :
    (∃ failure, backend.createNode k params child cidRepo = .error (.failed failure)) ∨
      ∃ node, backend.createNode k params child cidRepo =
        .ok (node, cidRepo.insert params node.1.circuitId) := by
  rw [createNode]
  cases hcircuit : orKeygenFailed (backend.createCircuit k params child) with
  | error e =>
      obtain ⟨failure, rfl⟩ := orKeygenFailed_eq_error hcircuit
      exact .inl ⟨failure, rfl⟩
  | ok node =>
      refine .inr ⟨node, ?_⟩
      simp only [bind, Except.bind, insertCid, Std.TreeMap.getElem?_eq_none hfresh]
      rfl

/-- A node whose child is made does not lack a domain size. -/
theorem createNode_ne_empty :
    backend.createNode k params child cidRepo ≠ .error .emptyKAtDepth := by
  rw [createNode]
  cases hcircuit : orKeygenFailed (backend.createCircuit k params child) with
  | error e =>
      obtain ⟨failure, rfl⟩ := orKeygenFailed_eq_error hcircuit
      exact nofun
  | ok node =>
      simp only [bind, Except.bind, insertCid]
      split <;> rename_i hinsert
      · split at hinsert
        · split at hinsert
          · cases hinsert
            exact nofun
          · cases hinsert
        · cases hinsert
      · exact nofun

/-- What is noted after a node got its circuit id. -/
theorem mem_insert {circuitId : String} :
    q ∈ cidRepo.insert p circuitId ↔ q ∈ cidRepo ∨ q = p := by
  rw [Std.TreeMap.mem_insert, Std.LawfulEqOrd.compare_eq_iff_eq, or_comm, eq_comm (a := p)]

/-- A leaf is made on its own. -/
theorem createAndSerializeProvingKey_leaf (hleaf : p.child = .ok none) :
    backend.createAndSerializeProvingKey (k :: kAtDepth) p cidRepo =
      backend.createNode k p none cidRepo := by
  rw [createAndSerializeProvingKey, hleaf]
  rfl

/-- A node above the leaf is made after its child, or something fails. -/
theorem createAndSerializeProvingKey_node (cidRepo : CidRepo) {c : NodeParams}
    (hchild : p.child = .ok (some c)) :
    (∃ e, backend.createAndSerializeProvingKey kAtDepth c cidRepo = .error e ∧
      backend.createAndSerializeProvingKey (k :: kAtDepth) p cidRepo = .error e) ∨
    ∃ node cidRepo', backend.createAndSerializeProvingKey kAtDepth c cidRepo =
        .ok (node, cidRepo') ∧
      ((∃ failure, backend.createAndSerializeProvingKey (k :: kAtDepth) p cidRepo =
          .error (.failed failure)) ∨
        ∃ child, backend.createAndSerializeProvingKey (k :: kAtDepth) p cidRepo =
          backend.createNode k p child cidRepo') := by
  have hunfold : backend.createAndSerializeProvingKey (k :: kAtDepth) p cidRepo = (do
      let ((childId, childPk, childPinning), cidRepo) ←
        backend.createAndSerializeProvingKey kAtDepth c cidRepo
      let numInstance ← orKeygenFailed (backend.numInstance childPinning)
      backend.createNode k p (some (childId, childPk, numInstance, c.nodeType ≠ .leaf))
        cidRepo) := by
    rw [createAndSerializeProvingKey, hchild]
    rfl
  cases hbelow : backend.createAndSerializeProvingKey kAtDepth c cidRepo with
  | error e =>
      rw [hbelow] at hunfold
      exact .inl ⟨e, rfl, hunfold⟩
  | ok out =>
      obtain ⟨⟨childId, childPk, childPinning⟩, cidRepo'⟩ := out
      rw [hbelow] at hunfold
      refine .inr ⟨_, _, rfl, ?_⟩
      cases hnum : orKeygenFailed (backend.numInstance childPinning) with
      | error e =>
          obtain ⟨failure, rfl⟩ := orKeygenFailed_eq_error hnum
          refine .inl ⟨failure, hunfold.trans ?_⟩
          simp only [bind, Except.bind, hnum]
      | ok numInstance =>
          refine .inr ⟨some (childId, childPk, numInstance, c.nodeType ≠ .leaf), hunfold.trans ?_⟩
          simp only [bind, Except.bind, hnum]

/-- Keygen runs out of domain sizes exactly when there are fewer than nodes to visit. -/
theorem createAndSerializeProvingKey_empty_iff (hpath : NodeParams.Descends params path) :
    backend.createAndSerializeProvingKey kAtDepth params cidRepo = .error .emptyKAtDepth ↔
      kAtDepth.length < path.length := by
  induction hpath generalizing kAtDepth with
  | @leaf p hleaf =>
      cases kAtDepth with
      | nil => simp [createAndSerializeProvingKey]
      | cons k kAtDepth =>
          rw [backend.createAndSerializeProvingKey_leaf k kAtDepth hleaf]
          simp [backend.createNode_ne_empty]
  | @node p c path hchild hpath ih =>
      cases kAtDepth with
      | nil => simp [createAndSerializeProvingKey]
      | cons k kAtDepth =>
          rw [List.length_cons, List.length_cons, Nat.succ_lt_succ_iff, ← ih]
          rcases backend.createAndSerializeProvingKey_node k kAtDepth cidRepo hchild with
            ⟨e, hbelow, hnode⟩ | ⟨node, cidRepo', hbelow, ⟨failure, hnode⟩ | ⟨child, hnode⟩⟩
          · rw [hbelow, hnode]
          · simp [hbelow, hnode]
          · simp [hbelow, hnode, createNode_ne_empty]

/-- A node is still fresh when the nodes below it have been noted. -/
theorem not_noted (hpath : NodeParams.Descends p (p :: path))
    (hfresh : ∀ q ∈ p :: path, q ∉ cidRepo) : ¬(p ∈ cidRepo ∨ p ∈ path) := by
  rintro (hp | hp)
  · exact hfresh p (by simp) hp
  · exact (List.nodup_cons.mp hpath.nodup).1 hp

/-- Keygen notes the nodes that it visits. -/
theorem mem_createAndSerializeProvingKey (hpath : NodeParams.Descends params path)
    (hfresh : ∀ q ∈ path, q ∉ cidRepo)
    (h : backend.createAndSerializeProvingKey kAtDepth params cidRepo = .ok (node, cidRepo')) :
    q ∈ cidRepo' ↔ q ∈ cidRepo ∨ q ∈ path := by
  induction hpath generalizing kAtDepth node cidRepo' q with
  | @leaf p hleaf =>
      cases kAtDepth with
      | nil => cases h
      | cons k kAtDepth =>
          rw [backend.createAndSerializeProvingKey_leaf k kAtDepth hleaf] at h
          rcases backend.createNode_fresh k none (hfresh p (by simp)) with
            ⟨failure, hnode⟩ | ⟨node, hnode⟩
          · cases hnode.symm.trans h
          · cases hnode.symm.trans h
            rw [mem_insert, List.mem_singleton]
  | @node p c path hchild hpath ih =>
      cases kAtDepth with
      | nil => cases h
      | cons k kAtDepth =>
          have hfresh' (q : NodeParams) (hq : q ∈ path) : q ∉ cidRepo :=
            hfresh q (List.mem_cons_of_mem _ hq)
          rcases backend.createAndSerializeProvingKey_node k kAtDepth cidRepo hchild with
            ⟨e, -, hnode⟩ | ⟨_, below, hbelow, ⟨failure, hnode⟩ | ⟨child, hnode⟩⟩
          · cases hnode.symm.trans h
          · cases hnode.symm.trans h
          have hp : p ∉ below := by
            rw [ih kAtDepth hfresh' hbelow]
            exact not_noted (.node hchild hpath) hfresh
          rw [hnode] at h
          rcases backend.createNode_fresh k child hp with ⟨failure, hnode⟩ | ⟨node, hnode⟩
          · cases hnode.symm.trans h
          · cases hnode.symm.trans h
            rw [mem_insert, ih kAtDepth hfresh' hbelow, List.mem_cons, or_assoc,
              or_comm (a := q = p)]

/-- Keygen does not find another circuit id for a node that it visits. -/
theorem createAndSerializeProvingKey_ne_different (hpath : NodeParams.Descends params path)
    (hfresh : ∀ q ∈ path, q ∉ cidRepo) :
    backend.createAndSerializeProvingKey kAtDepth params cidRepo ≠ .error .differentCircuitId := by
  induction hpath generalizing kAtDepth with
  | @leaf p hleaf =>
      cases kAtDepth with
      | nil => exact nofun
      | cons k kAtDepth =>
          rw [backend.createAndSerializeProvingKey_leaf k kAtDepth hleaf]
          rcases backend.createNode_fresh k none (hfresh p (by simp)) with
            ⟨failure, hnode⟩ | ⟨node, hnode⟩
          · simp [hnode]
          · simp [hnode]
  | @node p c path hchild hpath ih =>
      cases kAtDepth with
      | nil => exact nofun
      | cons k kAtDepth =>
          have hfresh' (q : NodeParams) (hq : q ∈ path) : q ∉ cidRepo :=
            hfresh q (List.mem_cons_of_mem _ hq)
          rcases backend.createAndSerializeProvingKey_node k kAtDepth cidRepo hchild with
            ⟨e, hbelow, hnode⟩ | ⟨_, below, hbelow, ⟨failure, hnode⟩ | ⟨child, hnode⟩⟩
          · rw [hnode]
            exact fun heq => ih kAtDepth hfresh' (hbelow.trans heq)
          · simp [hnode]
          have hp : p ∉ below := by
            rw [backend.mem_createAndSerializeProvingKey kAtDepth hpath hfresh' hbelow]
            exact not_noted (.node hchild hpath) hfresh
          rw [hnode]
          rcases backend.createNode_fresh k child hp with ⟨failure, hnode⟩ | ⟨node, hnode⟩
          · simp [hnode]
          · simp [hnode]

/-- What keygen writes down is what it noted on the way. -/
theorem exists_cidRepo_of_main {intent : RecursiveIntent} {cids : List (NodeParams × String)}
    (h : backend.main intent = .ok cids) : ∃ node cidRepo,
      backend.createAndSerializeProvingKey intent.kAtDepth intent.params ∅ = .ok (node, cidRepo) ∧
        cids = cidRepo.toList := by
  simp only [main, bind_eq_ok] at h
  obtain ⟨_, -, ⟨node, cidRepo⟩, hcreate, h⟩ := h
  refine ⟨node, cidRepo, hcreate, ?_⟩
  split at h
  · obtain ⟨_, -, h⟩ := bind_eq_ok.mp h
    obtain ⟨_, -, h⟩ := bind_eq_ok.mp h
    obtain ⟨_, -, h⟩ := bind_eq_ok.mp h
    exact pure_eq_ok.mp h
  all_goals exact pure_eq_ok.mp h

/-- The list that keygen writes down goes from the leaf up to the node it was called for. -/
theorem keys_of_main {cids : List (NodeParams × String)} (hpath : NodeParams.Descends params path)
    (h : backend.main ⟨kAtDepth, params⟩ = .ok cids) : cids.map Prod.fst = path.reverse := by
  obtain ⟨node, cidRepo, hcreate, rfl⟩ := backend.exists_cidRepo_of_main h
  rw [Std.TreeMap.map_fst_toList_eq_keys]
  have hmem (q : NodeParams) : q ∈ cidRepo.keys ↔ q ∈ path.reverse := by
    rw [Std.TreeMap.mem_keys, backend.mem_createAndSerializeProvingKey kAtDepth hpath
      (fun q _ => Std.TreeMap.not_mem_emptyc) hcreate, List.mem_reverse]
    simp
  refine List.Perm.eq_of_pairwise (fun a b _ _ hab hba => ?_) cidRepo.ordered_keys
    (List.pairwise_reverse.mpr hpath.pairwise) ?_
  · rw [Std.OrientedOrd.eq_swap, hba] at hab
    cases hab
  · exact (List.perm_ext_iff_of_nodup cidRepo.nodup_keys
      (List.nodup_reverse.mpr hpath.nodup)).mpr hmem

/-- The circuit ids of keygen fit the scheduler. The recursion visits one node for each generation
of the tree, from the largest to the smallest, and stops early exactly when the domain sizes run
out. The last node of the list is the one that keygen was called for, and every node that the
scheduler comes to below it is in the list. -/
theorem main_fits (round : ℕ) {depth initialDepth : ℕ} (hle : initialDepth ≤ depth) :
    ∃ path, NodeParams.Descends ⟨.evm round, depth, initialDepth⟩ path ∧
      path.length = depth - initialDepth + round + 2 ∧
      (path.Pairwise fun p q => compare q p = .lt) ∧ path.Nodup ∧
      (backend.createAndSerializeProvingKey kAtDepth ⟨.evm round, depth, initialDepth⟩ ∅ ≠
        .error .emptyKAtDepth ↔ path.length ≤ kAtDepth.length) ∧
      backend.createAndSerializeProvingKey kAtDepth ⟨.evm round, depth, initialDepth⟩ ∅ ≠
        .error .differentCircuitId ∧
      ∀ cids, backend.main ⟨kAtDepth, ⟨.evm round, depth, initialDepth⟩⟩ = .ok cids →
        cids.map Prod.fst = path.reverse ∧
        SchedulerServer.finalCircuitParams cids = .ok ⟨.evm round, depth, initialDepth⟩ ∧
        ∀ req node : RecursiveRequest, req.params = ⟨.evm round, depth, initialDepth⟩ →
          req.Reaches node → node.params ∈ cids.map Prod.fst ∧
            (SchedulerServer.cidsRepo cids node.params).isSome := by
  have hvalid : NodeParams.Valid ⟨.evm round, depth, initialDepth⟩ := hle
  obtain ⟨path, hpath, hlength⟩ := NodeParams.exists_descends hvalid
  refine ⟨path, hpath, hlength, hpath.pairwise, hpath.nodup, ?_,
    backend.createAndSerializeProvingKey_ne_different kAtDepth hpath
      fun q _ => Std.TreeMap.not_mem_emptyc, fun cids hcids => ?_⟩
  · rw [Ne, backend.createAndSerializeProvingKey_empty_iff kAtDepth hpath, not_lt]
  have hkeys := backend.keys_of_main kAtDepth hpath hcids
  refine ⟨hkeys, ?_, fun req node hparams hreach => ?_⟩
  · have hlast : (cids.map Prod.fst).getLast? = some ⟨.evm round, depth, initialDepth⟩ := by
      rw [hkeys, List.getLast?_reverse]
      cases hpath <;> rfl
    rw [List.getLast?_map] at hlast
    obtain ⟨entry, hentry, hparams⟩ := Option.map_eq_some_iff.mp hlast
    have hpos : 0 < cids.length := List.length_pos_of_mem (List.mem_of_getLast? hentry)
    simp only [SchedulerServer.finalCircuitParams, bind_eq_ok, assert_eq_ok, unwrap_eq_ok, hentry]
    exact ⟨(), hpos, entry, rfl, congrArg Except.ok hparams⟩
  · have hmem : node.params ∈ cids.map Prod.fst := by
      rw [hkeys, List.mem_reverse]
      rw [← hparams] at hpath
      exact hpath.params_mem hreach
    exact ⟨hmem, SchedulerServer.isSome_cidsRepo.mpr hmem⟩

/-- A proof system whose circuit ids name the kind of the circuit. -/
def soleBackend : KeygenBackend Unit String Unit where
  readSrs _ := .ok ()
  createPkAndPinning _ intent :=
    match intent with
    | .leaf _ _ => .ok ("leaf", ())
    | .intermediate .. => .ok ("intermediate", ())
    | .root .. => .ok ("root", ())
    | .evm .. => .ok ("evm", ())
  numInstance _ := .ok [7]
  writePkAndPinning pk _ := .ok pk
  genEvmVerifier _ _ _ := .ok ()

/-- Keygen for a wrapped root of depth 1 writes down three nodes, and the wrapper last. -/
theorem main_fits_three : 0 ≤ 1 ∧ ∃ cids,
    soleBackend.main ⟨[20, 20, 20], ⟨.evm 0, 1, 0⟩⟩ = .ok cids ∧ cids.length = 3 ∧
      SchedulerServer.finalCircuitParams cids = .ok ⟨.evm 0, 1, 0⟩ := by
  obtain ⟨path, -, hlength, -, -, -, -, hcids⟩ :=
    soleBackend.main_fits [20, 20, 20] 0 (Nat.zero_le 1)
  have hmain : soleBackend.main ⟨[20, 20, 20], ⟨.evm 0, 1, 0⟩⟩ =
      .ok [(⟨.leaf, 0, 0⟩, "leaf"), (⟨.root, 1, 0⟩, "root"), (⟨.evm 0, 1, 0⟩, "evm")] := rfl
  obtain ⟨-, hfinal, -⟩ := hcids _ hmain
  exact ⟨Nat.zero_le 1, _, hmain, rfl, hfinal⟩

end KeygenBackend

end WorldcoinAggregation
