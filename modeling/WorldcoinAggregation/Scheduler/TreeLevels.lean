import WorldcoinAggregation.Scheduler.RequestTree
import Mathlib.Data.List.Nodup

/-!
# The nodes of a tree

The nodes of the tree of a request differ in their start or in their parameters
(`nodup_of_expand`): dependencies have disjoint intervals, and every generation has parameters of
its own. A wrapped root has one node for each of its wrappers, the root, and on every level below as
many nodes as are needed for its claims (`levels_of_expand`).
-/

namespace WorldcoinAggregation

open Fallible NodeParams

namespace RecursiveRequest

variable {req dep node : RecursiveRequest} {deps nodes : List RecursiveRequest} {c : NodeParams}
  {fuel i : ℕ}

/-- What a request splits into is one generation below it and splits all the way down. -/
theorem expandable_of_mem (hdeps : req.dependencies = .ok deps) (hmem : dep ∈ deps) :
    dep.Expandable ∧ dep.params.height + 1 = req.params.height := by
  obtain ⟨-, -, -, ⟨-, rfl⟩ | ⟨-, c, hchild, rfl, hexpandable⟩⟩ := dependencies_spec hdeps
  · cases hmem
  · refine ⟨hexpandable _ hmem, ?_⟩
    obtain ⟨i, -, rfl⟩ := List.mem_map.mp hmem
    exact (isChild_of_child hchild).height_eq

/-- A request that splits all the way down has dependencies. -/
theorem Expandable.exists_ok (h : req.Expandable) : ∃ deps, req.dependencies = .ok deps := by
  by_cases hinitial : req.params.depth = req.params.initialDepth
  · exact ⟨_, h.dependencies_initial hinitial⟩
  · obtain ⟨deps, hdeps, -⟩ := h.exists_dependencies hinitial
    exact ⟨deps, hdeps⟩

/-! ## Distinct nodes -/

/-- What comes out of a request lies within its interval, in its generation or below. -/
theorem Reaches.bounds (h : req.Reaches node) :
    req.start ≤ node.start ∧ node.end_ ≤ req.end_ ∧ node.params.height ≤ req.params.height := by
  induction h with
  | refl => exact ⟨le_rfl, le_rfl, le_rfl⟩
  | @dep req' dep deps _ hdeps hmem ih =>
      obtain ⟨-, hheight⟩ := expandable_of_mem hdeps hmem
      obtain ⟨-, -, -, ⟨-, rfl⟩ | ⟨-, c, -, rfl, -⟩⟩ := dependencies_spec hdeps
      · cases hmem
      · obtain ⟨i, hi, rfl⟩ := List.mem_map.mp hmem
        obtain ⟨k, rfl, -⟩ := (mem_stepBy (Nat.two_pow_pos _)).mp hi
        simp only [part] at hheight ⊢
        omega

/-- Dependencies follow each other. -/
theorem pairwise_dependencies (hdeps : req.dependencies = .ok deps) :
    deps.Pairwise fun dep next => dep.end_ ≤ next.start := by
  obtain ⟨-, -, -, ⟨-, rfl⟩ | ⟨-, c, -, rfl, -⟩⟩ := dependencies_spec hdeps
  · exact .nil
  · rw [List.pairwise_map, stepBy, List.pairwise_map]
    refine List.pairwise_lt_range.imp fun hlt => ?_
    rename_i i j
    have hmul := Nat.mul_le_mul_right (2 ^ c.depth) (Nat.succ_le_of_lt hlt)
    rw [Nat.succ_mul] at hmul
    simp only [part]
    omega

/-- What tells the nodes of a tree apart. -/
def key (req : RecursiveRequest) : ℕ × NodeParams :=
  (req.start, req.params)

/-- The nodes of the tree of a request that splits all the way down start within its interval. -/
theorem start_of_mem_expand (hreq : req.Expandable) (h : expand fuel req = .ok nodes)
    (hnode : node ∈ nodes) : req.start ≤ node.start ∧ node.start < req.end_ := by
  have hreach := (mem_expand_iff h).mp hnode
  obtain ⟨hstart, hend, -⟩ := hreach.bounds
  have hlt := (hreq.of_reaches hreach).wellFormed.start_lt
  omega

/-- Trees of requests that follow each other have no node in common. -/
theorem pairwise_disjoint_keys {below : List (List RecursiveRequest)}
    (hbelow : deps.mapM (expand fuel) = .ok below) (hexpandable : ∀ dep ∈ deps, dep.Expandable)
    (hdeps : deps.Pairwise fun dep next => dep.end_ ≤ next.start) :
    (below.map fun ns => ns.map key).Pairwise List.Disjoint := by
  induction mapM_eq_ok_iff.mp hbelow with
  | nil => exact .nil
  | @cons dep ns deps below hdep htail ih =>
      obtain ⟨hfirst, hdeps⟩ := List.pairwise_cons.mp hdeps
      have htail := mapM_eq_ok_iff.mpr htail
      have htailExpandable (dep : RecursiveRequest) (hmem : dep ∈ deps) : dep.Expandable :=
        hexpandable dep (List.mem_cons_of_mem _ hmem)
      rw [List.map_cons, List.pairwise_cons]
      refine ⟨fun keys hkeys => ?_, ih htail htailExpandable hdeps⟩
      obtain ⟨ns', hns', rfl⟩ := List.mem_map.mp hkeys
      obtain ⟨next, hnext, hexpand⟩ := exists_of_mem_mapM htail hns'
      intro k hk hk'
      obtain ⟨node, hnode, rfl⟩ := List.mem_map.mp hk
      obtain ⟨node', hnode', hkey⟩ := List.mem_map.mp hk'
      have hstart : node'.start = node.start := congrArg Prod.fst hkey
      have hbefore := (start_of_mem_expand (hexpandable dep (by simp)) hdep hnode).2
      have hafter := (start_of_mem_expand (htailExpandable next hnext) hexpand hnode').1
      have hle := hfirst next hnext
      omega

/-- The nodes below a request are in later generations. -/
theorem height_lt_of_mem {below : List (List RecursiveRequest)}
    (hdeps : req.dependencies = .ok deps) (hbelow : deps.mapM (expand fuel) = .ok below)
    (hnode : node ∈ below.flatten) :
    node.params.height < req.params.height := by
  obtain ⟨ns, hns, hnode⟩ := List.mem_flatten.mp hnode
  obtain ⟨dep, hmem, hdep⟩ := exists_of_mem_mapM hbelow hns
  have hle := ((mem_expand_iff hdep).mp hnode).bounds.2.2
  have hheight := (expandable_of_mem hdeps hmem).2
  omega

/-- No two nodes of a tree have the same start and the same parameters. -/
theorem nodup_of_expand (h : expand fuel req = .ok nodes) : (nodes.map key).Nodup := by
  induction fuel generalizing req nodes with
  | zero => cases h
  | succ fuel ih =>
      obtain ⟨deps, below, hdeps, hbelow, rfl⟩ := expand_succ_eq_ok.mp h
      rw [List.map_append, List.map_flatten, List.map_singleton, List.nodup_append]
      refine ⟨List.nodup_flatten.mpr ⟨?_, ?_⟩, List.nodup_singleton _, ?_⟩
      · intro keys hkeys
        obtain ⟨ns, hns, rfl⟩ := List.mem_map.mp hkeys
        obtain ⟨dep, -, hdep⟩ := exists_of_mem_mapM hbelow hns
        exact ih hdep
      · exact pairwise_disjoint_keys hbelow (fun dep hmem => (expandable_of_mem hdeps hmem).1)
          (pairwise_dependencies hdeps)
      · intro k hk k' hk' heq
        rw [← List.map_flatten] at hk
        obtain ⟨node, hnode, rfl⟩ := List.mem_map.mp hk
        obtain rfl := List.mem_singleton.mp hk'
        have hparams : node.params = req.params := congrArg Prod.snd heq
        have hlt := height_lt_of_mem hdeps hbelow hnode
        rw [hparams] at hlt
        exact lt_irrefl _ hlt

/-- Above the initial depth a request splits into leaves or into nodes above the initial depth. -/
theorem leaf_of_mem (hdeps : req.dependencies = .ok deps) (hmem : dep ∈ deps)
    (hinitial : dep.params.depth = dep.params.initialDepth) : dep.params.nodeType = .leaf := by
  obtain ⟨-, -, -, ⟨-, rfl⟩ | ⟨hdepth, c, hchild, rfl, -⟩⟩ := dependencies_spec hdeps
  · cases hmem
  obtain ⟨i, -, rfl⟩ := List.mem_map.mp hmem
  exact leaf_of_child hchild hdepth hinitial

/-- In a tree only leaves are at the initial depth, unless the tree is a single node. -/
theorem Reaches.leaf_of_initial (h : req.Reaches node)
    (hdepth : req.params.depth ≠ req.params.initialDepth)
    (hinitial : node.params.depth = node.params.initialDepth) : node.params.nodeType = .leaf := by
  cases h with
  | refl => exact absurd hinitial hdepth
  | dep _ hdeps hmem => exact leaf_of_mem hdeps hmem hinitial

/-! ## Levels -/

/-- How many nodes of a level are needed for this many claims. -/
def levelCount (numProofs depth : ℕ) : ℕ :=
  (numProofs + 2 ^ depth - 1) / 2 ^ depth

/-- One node is enough for no more claims than it holds. -/
theorem levelCount_one {n k : ℕ} (hpos : 0 < n) (hle : n ≤ 2 ^ k) : levelCount n k = 1 := by
  refine Nat.div_eq_of_lt_le ?_ ?_ <;> omega

/-- A full node above a level has all of its nodes on it. -/
theorem levelCount_add {n j k : ℕ} (hle : k ≤ j) :
    levelCount (2 ^ j + n) k = levelCount (2 ^ j) k + levelCount n k := by
  have hpos := Nat.two_pow_pos k
  have hfull : 2 ^ j = 2 ^ (j - k) * 2 ^ k := by rw [← pow_add, Nat.sub_add_cancel hle]
  have hall : levelCount (2 ^ j) k = 2 ^ (j - k) := by
    have hsum : 2 ^ j + 2 ^ k - 1 = 2 ^ k - 1 + 2 ^ (j - k) * 2 ^ k := by omega
    rw [levelCount, hsum, Nat.add_mul_div_right _ _ hpos, Nat.div_eq_of_lt (by omega), zero_add]
  have hsum : 2 ^ j + n + 2 ^ k - 1 = n + 2 ^ k - 1 + 2 ^ (j - k) * 2 ^ k := by omega
  rw [hall, levelCount, hsum, Nat.add_mul_div_right _ _ hpos, levelCount, add_comm]

variable {depth initialDepth k round : ℕ}

/-- The nodes of a level below a join are those below its dependencies. -/
theorem count_join {nodeType : NodeType} {below : List (List RecursiveRequest)}
    (htype : nodeType = .intermediate ∨ nodeType = .root) (hle : initialDepth ≤ depth)
    (hlt : req.start < req.end_) (hparams : req.params = ⟨nodeType, depth + 1, initialDepth⟩)
    (hdeps : req.dependencies = .ok deps) (hbelow : deps.mapM (expand fuel) = .ok below)
    (hcount : ∀ dep ns, dep.Expandable → dep.params = .below depth initialDepth →
      expand fuel dep = .ok ns → (ns.map params).count (.below k initialDepth) =
        if k ≤ depth then levelCount (dep.end_ - dep.start) k else 0) :
    (below.flatten.map params).count (.below k initialDepth) =
      if k ≤ depth then levelCount (req.end_ - req.start) k else 0 := by
  have hchild : req.params.child = .ok (some (.below depth initialDepth)) := by
    rw [hparams]
    exact child_join htype hle
  obtain ⟨-, -, hnum, ⟨hinitial, -⟩ | ⟨-, c, hc, hparts, hexpandable⟩⟩ := dependencies_spec hdeps
  · rw [hparams] at hinitial
    simp only at hinitial
    omega
  obtain rfl := Option.some.inj (Except.ok.inj (hchild.symm.trans hc))
  rw [below_depth] at hparts
  rw [hparams] at hnum
  simp only [pow_succ] at hnum
  by_cases hone : req.end_ - req.start ≤ 2 ^ depth
  · rw [stepBy_one hlt hone, List.map_singleton] at hparts
    subst hparts
    obtain ⟨ns, hns, rfl⟩ : ∃ ns, expand fuel (req.part (.below depth initialDepth) req.start) =
        .ok ns ∧ below = [ns] := by
      simpa [List.forall₂_cons_left_iff] using mapM_eq_ok_iff.mp hbelow
    have hlength : (req.part (.below depth initialDepth) req.start).end_ -
        (req.part (.below depth initialDepth) req.start).start = req.end_ - req.start := by
      simp only [part, below_depth]
      omega
    rw [List.flatten_singleton, hcount _ ns (hexpandable _ (by simp)) rfl hns, hlength]
  · rw [stepBy_two (not_le.mp hone) (by omega), List.map_cons, List.map_singleton] at hparts
    subst hparts
    obtain ⟨ns, hns, ns', hns', rfl⟩ : ∃ ns,
        expand fuel (req.part (.below depth initialDepth) req.start) = .ok ns ∧ ∃ ns',
        expand fuel (req.part (.below depth initialDepth) (req.start + 2 ^ depth)) = .ok ns' ∧
          below = [ns, ns'] := by
      simpa [List.forall₂_cons_left_iff] using mapM_eq_ok_iff.mp hbelow
    have hlength : (req.part (.below depth initialDepth) req.start).end_ -
        (req.part (.below depth initialDepth) req.start).start = 2 ^ depth := by
      simp only [part, below_depth]
      omega
    have hlength' : (req.part (.below depth initialDepth) (req.start + 2 ^ depth)).end_ -
        (req.part (.below depth initialDepth) (req.start + 2 ^ depth)).start =
          req.end_ - req.start - 2 ^ depth := by
      simp only [part, below_depth]
      omega
    have hsum : 2 ^ depth + (req.end_ - req.start - 2 ^ depth) = req.end_ - req.start := by omega
    rw [List.flatten_cons, List.flatten_singleton, List.map_append, List.count_append,
      hcount _ ns (hexpandable _ (by simp)) rfl hns,
      hcount _ ns' (hexpandable _ (by simp)) rfl hns', hlength, hlength']
    split
    · rename_i hkd
      rw [← levelCount_add hkd, hsum]
    · rfl

/-- The nodes of a level in the tree of a node below the root. -/
theorem count_below (hk : initialDepth ≤ k) (hreq : req.Expandable)
    (hparams : req.params = .below depth initialDepth) (h : expand fuel req = .ok nodes) :
    (nodes.map params).count (.below k initialDepth) =
      if k ≤ depth then levelCount (req.end_ - req.start) k else 0 := by
  induction fuel generalizing req nodes depth with
  | zero => cases h
  | succ fuel ih =>
      obtain ⟨deps, below, hdeps, hbelow, rfl⟩ := expand_succ_eq_ok.mp h
      have hlt := hreq.wellFormed.start_lt
      have hcount : req.end_ - req.start ≤ 2 ^ depth := by
        have hle := hreq.wellFormed.length_le
        rwa [hreq.wellFormed.length_claims, hparams, below_depth] at hle
      have hle : initialDepth ≤ depth := by
        have hvalid := hreq.valid.le
        rwa [hparams, below_depth, below_initialDepth] at hvalid
      have hself : ([req].map params).count (.below k initialDepth) =
          if k = depth then 1 else 0 := by
        rw [List.map_singleton, hparams]
        by_cases hkd : k = depth
        · rw [hkd, if_pos rfl, List.count_singleton_self]
        · rw [if_neg hkd, List.count_eq_zero, List.mem_singleton]
          intro heq
          have hdepth := congrArg NodeParams.depth heq
          rw [below_depth, below_depth] at hdepth
          exact hkd hdepth
      rw [List.map_append, List.count_append, hself]
      by_cases hinitial : depth = initialDepth
      · obtain rfl : deps = [] := by
          have hdepth : req.params.depth = req.params.initialDepth := by
            rw [hparams, below_depth, below_initialDepth, hinitial]
          have hnil := hreq.dependencies_initial hdepth
          exact Except.ok.inj (hdeps.symm.trans hnil)
        obtain rfl : below = [] := pure_eq_ok.mp hbelow
        by_cases hkd : k = depth
        · subst hkd
          rw [if_pos rfl, if_pos le_rfl, levelCount_one (by omega) hcount]
          rfl
        · rw [if_neg hkd, if_neg (by omega)]
          rfl
      · obtain ⟨m, rfl⟩ : ∃ m, depth = m + 1 := Nat.exists_eq_add_one.mpr (by omega)
        have hjoin : req.params = ⟨.intermediate, m + 1, initialDepth⟩ := by
          rw [hparams, NodeParams.below, if_neg hinitial]
        rw [count_join (.inl rfl) (by omega) hlt hjoin hdeps hbelow fun dep ns hdep hparams hns =>
          ih hdep hparams hns]
        by_cases hkm : k ≤ m
        · rw [if_pos hkm, if_neg (by omega), if_pos (by omega), add_zero]
        · rw [if_neg hkm]
          by_cases hkd : k = m + 1
          · subst hkd
            rw [if_pos rfl, if_pos le_rfl, levelCount_one (by omega) hcount]
          · rw [if_neg hkd, if_neg (by omega)]

/-! ## The tree of a wrapped root -/

/-- A wrapper is not on a level below a root. -/
theorem ne_below (hparams : req.params = ⟨.evm round, depth, initialDepth⟩) :
    req.params ≠ .below k initialDepth := by
  rw [hparams, NodeParams.below]
  split <;> simp

/-- A wrapper has one dependency, for the same claims. -/
theorem dependencies_wrapper (hdepth : initialDepth < depth) (hlt : req.start < req.end_)
    (hparams : req.params = ⟨.evm round, depth, initialDepth⟩)
    (hdeps : req.dependencies = .ok deps) : ∃ dep, deps = [dep] ∧
      req.params.child = .ok (some dep.params) ∧ dep.start = req.start ∧ dep.end_ = req.end_ := by
  obtain ⟨-, -, hnum, ⟨hinitial, -⟩ | ⟨-, c, hchild, hparts, -⟩⟩ := dependencies_spec hdeps
  · rw [hparams] at hinitial
    exact absurd hinitial hdepth.ne'
  · have hc : c.depth = req.params.depth := by
      rw [(isChild_of_child hchild).depth_eq, hparams]
      rfl
    rw [← hc] at hnum
    rw [stepBy_one hlt hnum, List.map_singleton] at hparts
    refine ⟨_, hparts, hchild, rfl, ?_⟩
    simp only [part]
    omega

/-- The tree of a wrapper is the tree of its dependency and the wrapper. -/
theorem expand_wrapper (hdepth : initialDepth < depth) (hlt : req.start < req.end_)
    (hparams : req.params = ⟨.evm round, depth, initialDepth⟩) (h : expand fuel req = .ok nodes) :
    ∃ fuel' dep ns, expand fuel' dep = .ok ns ∧ nodes = ns ++ [req] ∧
      req.params.child = .ok (some dep.params) ∧ dep.start = req.start ∧ dep.end_ = req.end_ := by
  cases fuel with
  | zero => cases h
  | succ fuel =>
      obtain ⟨deps, below, hdeps, hbelow, rfl⟩ := expand_succ_eq_ok.mp h
      obtain ⟨dep, rfl, hchild, hstart, hend⟩ := dependencies_wrapper hdepth hlt hparams hdeps
      obtain ⟨ns, hns, rfl⟩ : ∃ ns, expand fuel dep = .ok ns ∧ below = [ns] := by
        simpa [List.forall₂_cons_left_iff] using mapM_eq_ok_iff.mp hbelow
      exact ⟨fuel, dep, ns, hns, by rw [List.flatten_singleton], hchild, hstart, hend⟩

/-- Other parameters occur as often with a request as without it. -/
theorem count_concat {ns : List RecursiveRequest} {p : NodeParams} (hne : req.params ≠ p) :
    ((ns ++ [req]).map params).count p = (ns.map params).count p := by
  have hnone : p ∉ [req.params] := by simpa using hne.symm
  rw [List.map_append, List.count_append, List.map_singleton, List.count_eq_zero.mpr hnone,
    add_zero]

/-- The parameters of a request occur once in its tree. -/
theorem count_params (h : expand fuel req = .ok nodes) :
    (nodes.map params).count req.params = 1 := by
  cases fuel with
  | zero => cases h
  | succ fuel =>
      obtain ⟨deps, below, hdeps, hbelow, rfl⟩ := expand_succ_eq_ok.mp h
      have hnone : req.params ∉ below.flatten.map params := by
        intro hmem
        obtain ⟨node, hnode, heq⟩ := List.mem_map.mp hmem
        have hheight := height_lt_of_mem hdeps hbelow hnode
        rw [heq] at hheight
        exact lt_irrefl _ hheight
      rw [List.map_append, List.count_append, List.count_eq_zero.mpr hnone, List.map_singleton,
        List.count_singleton_self]

/-- The nodes on the levels below a root. -/
theorem levels_root (hlt : req.start < req.end_)
    (hparams : req.params = ⟨.root, depth, initialDepth⟩) (h : expand fuel req = .ok nodes)
    (hk : initialDepth ≤ k) (hkd : k < depth) :
    (nodes.map params).count (.below k initialDepth) = levelCount (req.end_ - req.start) k := by
  cases fuel with
  | zero => cases h
  | succ fuel =>
      obtain ⟨deps, below, hdeps, hbelow, rfl⟩ := expand_succ_eq_ok.mp h
      obtain ⟨m, rfl⟩ : ∃ m, depth = m + 1 := Nat.exists_eq_add_one.mpr (by omega)
      have hne : req.params ≠ .below k initialDepth := by
        rw [hparams]
        intro heq
        have hdepth := congrArg NodeParams.depth heq
        rw [below_depth] at hdepth
        exact hkd.ne' hdepth
      rw [count_concat hne,
        count_join (.inr rfl) (by omega) hlt hparams hdeps hbelow fun dep ns hdep hparams hns =>
          count_below hk hdep hparams hns, if_pos (by omega)]

/-- What comes out of a request is on the chain of circuits below it. -/
theorem Reaches.keygenChain (h : req.Reaches node) : KeygenChain req.params node.params := by
  induction h with
  | refl => exact .refl
  | dep _ hdeps hmem ih =>
      obtain ⟨-, -, -, ⟨-, rfl⟩ | ⟨-, c, hchild, rfl, -⟩⟩ := dependencies_spec hdeps
      · cases hmem
      · obtain ⟨i, -, rfl⟩ := List.mem_map.mp hmem
        exact ih.child hchild

/-- Every node in the tree of a wrapped root is a wrapper, the root, or on a level below it. -/
theorem params_of_mem_expand (hdepth : initialDepth < depth)
    (hparams : req.params = ⟨.evm round, depth, initialDepth⟩) (h : expand fuel req = .ok nodes)
    (hnode : node ∈ nodes) : (∃ j ≤ round, node.params = ⟨.evm j, depth, initialDepth⟩) ∨
      node.params = ⟨.root, depth, initialDepth⟩ ∨
      ∃ k, initialDepth ≤ k ∧ k < depth ∧ node.params = .below k initialDepth := by
  have hchain := ((mem_expand_iff h).mp hnode).keygenChain
  rw [hparams] at hchain
  exact keygenChain_cases hdepth hchain

/-- A wrapped root has one node for each of its wrappers, one root, and on every level below as many
nodes as its claims need. -/
theorem levels_of_expand (hdepth : initialDepth < depth) (hlt : req.start < req.end_)
    (hparams : req.params = ⟨.evm round, depth, initialDepth⟩) (h : expand fuel req = .ok nodes) :
    (∀ j ≤ round, (nodes.map params).count ⟨.evm j, depth, initialDepth⟩ = 1) ∧
      (nodes.map params).count ⟨.root, depth, initialDepth⟩ = 1 ∧
      ∀ k, initialDepth ≤ k → k < depth → (nodes.map params).count (.below k initialDepth) =
        levelCount (req.end_ - req.start) k := by
  induction round generalizing fuel req nodes with
  | zero =>
      have hself := count_params h
      obtain ⟨fuel', dep, ns, hns, rfl, hchild, hstart, hend⟩ :=
        expand_wrapper hdepth hlt hparams h
      rw [hparams, child_evm_zero hdepth, Except.ok.injEq, Option.some.injEq] at hchild
      have hroot := count_params hns
      rw [← hchild] at hroot
      refine ⟨fun j hj => ?_, ?_, fun k hk hkd => ?_⟩
      · obtain rfl := Nat.le_zero.mp hj
        rwa [hparams] at hself
      · rwa [count_concat (by rw [hparams]; simp)]
      · rw [count_concat (ne_below hparams), levels_root (by omega) hchild.symm hns hk hkd,
          hstart, hend]
  | succ round ih =>
      have hself := count_params h
      obtain ⟨fuel', dep, ns, hns, rfl, hchild, hstart, hend⟩ :=
        expand_wrapper hdepth hlt hparams h
      rw [hparams, child_evm_succ hdepth.le, Except.ok.injEq, Option.some.injEq] at hchild
      obtain ⟨hwrappers, hroot, hlevels⟩ := ih (by omega) hchild.symm hns
      refine ⟨fun j hj => ?_, ?_, fun k hk hkd => ?_⟩
      · by_cases heq : j = round + 1
        · rw [heq, ← hparams, hself]
        · rw [count_concat (by rw [hparams]; simpa using Ne.symm heq), hwrappers j (by omega)]
      · rwa [count_concat (by rw [hparams]; simp)]
      · rw [count_concat (ne_below hparams), hlevels k hk hkd, hstart, hend]

end RecursiveRequest

end WorldcoinAggregation
