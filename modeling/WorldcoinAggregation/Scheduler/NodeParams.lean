import WorldcoinAggregation.Base.Fallible
import Mathlib.Order.Nat

/-!
# Nodes of the aggregation tree

Keygen makes one circuit for each `NodeParams` on the chain of `NodeParams.child` from the final
circuit down to the leaf (`KeygenChain`). A chain that starts at a valid node visits valid nodes
only, and everything later needs of a node is `Valid`.
-/

namespace WorldcoinAggregation

open Fallible

/-- The kinds of nodes. `evm round` performs `round + 1` rounds of verification on the root. -/
inductive NodeType where
  | leaf
  | intermediate
  | root
  | evm (round : ℕ)
deriving DecidableEq

/-- Circuit parameters by node type. A node holds at most `2 ^ depth` claims, and the leaves
`2 ^ initialDepth` each. -/
structure NodeParams where
  nodeType : NodeType
  depth : ℕ
  initialDepth : ℕ
deriving DecidableEq

/-- The debug text of a node type. -/
def NodeType.debug : NodeType → String
  | .leaf => "Leaf"
  | .intermediate => "Intermediate"
  | .root => "Root"
  | .evm round => s!"Evm({round})"

namespace NodeParams

/-- The debug text of node parameters. -/
def debug (p : NodeParams) : String :=
  s!"NodeParams \x7b node_type: {p.nodeType.debug}, depth: {p.depth}, " ++
    s!"initial_depth: {p.initialDepth} \x7d"

/-- Parameters of a node that is not below the leaves. -/
def new (nodeType : NodeType) (depth initialDepth : ℕ) : Fallible NodeParams := do
  assert (initialDepth ≤ depth)
  return ⟨nodeType, depth, initialDepth⟩

/-- The parameters of the nodes that a node aggregates. -/
def child (p : NodeParams) : Fallible (Option NodeParams) :=
  match p.nodeType with
  | .leaf => return none
  | .intermediate | .root => do
      assert (p.initialDepth < p.depth)
      if p.depth = p.initialDepth + 1 then
        return some (← new .leaf p.initialDepth p.initialDepth)
      else
        return some (← new .intermediate (p.depth - 1) p.initialDepth)
  -- round 0 wraps the root, or the leaf of a tree without joins
  | .evm 0 => do
      let nodeType := if p.depth = p.initialDepth then NodeType.leaf else NodeType.root
      return some (← new nodeType p.depth p.initialDepth)
  | .evm (round + 1) => return some (← new (.evm round) p.depth p.initialDepth)

/-! ## The chain of circuits -/

/-- The depths that a node of this type can have. -/
def Valid (p : NodeParams) : Prop :=
  match p.nodeType with
  | .leaf => p.depth = p.initialDepth
  | .intermediate | .root => p.initialDepth < p.depth
  | .evm _ => p.initialDepth ≤ p.depth

/-- The node of depth `depth` below a join: a leaf at the initial depth and an intermediate node
above it. -/
def below (depth initialDepth : ℕ) : NodeParams :=
  if depth = initialDepth then ⟨.leaf, initialDepth, initialDepth⟩
  else ⟨.intermediate, depth, initialDepth⟩

variable {p c : NodeParams} {depth initialDepth round k : ℕ}

@[simp] theorem below_depth : (below depth initialDepth).depth = depth := by
  unfold below
  split <;> simp [*]

@[simp] theorem below_initialDepth : (below depth initialDepth).initialDepth = initialDepth := by
  unfold below
  split <;> rfl

/-- The node below a join is valid. -/
theorem valid_below (h : initialDepth ≤ depth) : (below depth initialDepth).Valid := by
  unfold below
  split
  · rfl
  · simp only [Valid]
    omega

/-- Parameters in order are accepted. -/
theorem new_eq {nodeType : NodeType} (h : initialDepth ≤ depth) :
    new nodeType depth initialDepth = .ok ⟨nodeType, depth, initialDepth⟩ := by
  simp [new, assert, h, pure, Except.pure, bind, Except.bind]

/-- The nodes that a join aggregates are one level below it. -/
theorem child_join {nodeType : NodeType} (htype : nodeType = .intermediate ∨ nodeType = .root)
    (h : initialDepth ≤ depth) : child ⟨nodeType, depth + 1, initialDepth⟩ =
      .ok (some (below depth initialDepth)) := by
  have hassert : assert (initialDepth < depth + 1) = .ok () := assert_eq_ok.mpr (by omega)
  rcases htype with rfl | rfl
  all_goals
    simp only [child, hassert, Nat.add_right_cancel_iff, below, Nat.add_sub_cancel]
    split
    · rw [new_eq le_rfl]
      rfl
    · rw [new_eq h]
      rfl

/-- The innermost wrapper aggregates the root. -/
theorem child_evm_zero (h : initialDepth < depth) :
    child ⟨.evm 0, depth, initialDepth⟩ = .ok (some ⟨.root, depth, initialDepth⟩) := by
  simp only [child, if_neg h.ne', new_eq h.le]
  rfl

/-- Other wrappers aggregate the wrapper of the round before. -/
theorem child_evm_succ (h : initialDepth ≤ depth) :
    child ⟨.evm (round + 1), depth, initialDepth⟩ =
      .ok (some ⟨.evm round, depth, initialDepth⟩) := by
  simp only [child, new_eq h]
  rfl

/-- The depth of the nodes that a node aggregates. -/
def childDepth (p : NodeParams) : ℕ :=
  match p.nodeType with
  | .intermediate | .root => p.depth - 1
  | .leaf | .evm _ => p.depth

/-- A valid node that is no leaf has a valid child. -/
theorem exists_child (h : p.Valid) (hleaf : p.nodeType ≠ .leaf) :
    ∃ c, p.child = .ok (some c) ∧ c.Valid ∧ c.depth = p.childDepth := by
  obtain ⟨nodeType, depth, initialDepth⟩ := p
  have hjoin (htype : nodeType = .intermediate ∨ nodeType = .root) (hlt : initialDepth < depth) :
      ∃ c, child ⟨nodeType, depth, initialDepth⟩ = .ok (some c) ∧ c.Valid ∧
        c.depth = depth - 1 := by
    obtain ⟨k, rfl⟩ := Nat.exists_eq_add_of_lt hlt
    exact ⟨_, child_join htype (by omega), valid_below (by omega), by simp⟩
  cases nodeType with
  | leaf => exact absurd rfl hleaf
  | intermediate => exact hjoin (.inl rfl) h
  | root => exact hjoin (.inr rfl) h
  | evm round =>
      have hle : initialDepth ≤ depth := h
      cases round with
      | zero =>
          by_cases heq : depth = initialDepth
          · subst heq
            refine ⟨⟨.leaf, depth, depth⟩, ?_, rfl, rfl⟩
            simp only [child, if_true, new_eq le_rfl]
            rfl
          · have hlt : initialDepth < depth := lt_of_le_of_ne hle (Ne.symm heq)
            exact ⟨_, child_evm_zero hlt, hlt, rfl⟩
      | succ round => exact ⟨_, child_evm_succ hle, hle, rfl⟩

/-- A valid node is not below the leaves. -/
theorem Valid.le (h : p.Valid) : p.initialDepth ≤ p.depth := by
  unfold Valid at h
  split at h <;> omega

/-- A leaf has no child. -/
theorem child_leaf (hleaf : p.nodeType = .leaf) : p.child = .ok none := by
  rw [child, hleaf]
  rfl

/-- How many generations of nodes lie below a node. -/
def height (p : NodeParams) : ℕ :=
  match p.nodeType with
  | .leaf => 0
  | .intermediate | .root => p.depth - p.initialDepth
  | .evm round => p.depth - p.initialDepth + round + 1

/-- What a child is, whatever its parent: a valid node of the same tree, one generation below. -/
structure IsChild (p c : NodeParams) : Prop where
  valid : c.Valid
  initialDepth_eq : c.initialDepth = p.initialDepth
  depth_eq : c.depth = p.childDepth
  height_eq : c.height + 1 = p.height
  parent_valid : p.Valid

/-- The node below a join is its child. -/
theorem isChild_below {nodeType : NodeType} (htype : nodeType = .intermediate ∨ nodeType = .root)
    (h : initialDepth ≤ depth) :
    IsChild ⟨nodeType, depth + 1, initialDepth⟩ (below depth initialDepth) := by
  have hheight : (below depth initialDepth).height = depth - initialDepth := by
    unfold below
    split
    · simp only [height]
      omega
    · rfl
  refine ⟨valid_below h, below_initialDepth, ?_, ?_, ?_⟩
  all_goals rcases htype with rfl | rfl
  · exact below_depth
  · exact below_depth
  · rw [hheight]
    exact (Nat.succ_sub h).symm
  · rw [hheight]
    exact (Nat.succ_sub h).symm
  · exact Nat.lt_succ_of_le h
  · exact Nat.lt_succ_of_le h

/-- Parameters that are accepted are in order. -/
theorem new_eq_ok {nodeType : NodeType} :
    new nodeType depth initialDepth = .ok c ↔
      initialDepth ≤ depth ∧ c = ⟨nodeType, depth, initialDepth⟩ := by
  simp only [new, bind_eq_ok, assert_eq_ok, pure_eq_ok, exists_const]

/-- Whatever is computed as a child is one. -/
theorem isChild_of_child (h : p.child = .ok (some c)) : IsChild p c := by
  obtain ⟨nodeType, depth, initialDepth⟩ := p
  have hjoin (htype : nodeType = .intermediate ∨ nodeType = .root) (hlt : initialDepth < depth) :
      IsChild ⟨nodeType, depth, initialDepth⟩ c := by
    obtain ⟨k, rfl⟩ := Nat.exists_eq_add_of_lt hlt
    rw [child_join htype (Nat.le_add_right _ _)] at h
    cases h
    exact isChild_below htype (Nat.le_add_right _ _)
  cases nodeType with
  | leaf => cases h
  | intermediate =>
      obtain ⟨_, hlt, -⟩ := bind_eq_ok.mp h
      exact hjoin (.inl rfl) (assert_eq_ok.mp hlt)
  | root =>
      obtain ⟨_, hlt, -⟩ := bind_eq_ok.mp h
      exact hjoin (.inr rfl) (assert_eq_ok.mp hlt)
  | evm round =>
      cases round with
      | zero =>
          obtain ⟨c', hc', hpure⟩ := bind_eq_ok.mp h
          obtain rfl := Option.some.inj (pure_eq_ok.mp hpure)
          obtain ⟨hle, rfl⟩ := new_eq_ok.mp hc'
          by_cases heq : depth = initialDepth
          · subst heq
            rw [if_pos rfl]
            exact ⟨rfl, rfl, rfl, by simp [height], le_rfl⟩
          · rw [if_neg heq]
            exact ⟨lt_of_le_of_ne hle (Ne.symm heq), rfl, rfl, rfl, hle⟩
      | succ round =>
          obtain ⟨c', hc', hpure⟩ := bind_eq_ok.mp h
          obtain rfl := Option.some.inj (pure_eq_ok.mp hpure)
          obtain ⟨hle, rfl⟩ := new_eq_ok.mp hc'
          exact ⟨hle, rfl, rfl, rfl, hle⟩

/-- Nodes above the initial depth aggregate leaves or nodes above the initial depth. -/
theorem leaf_of_child (h : p.child = .ok (some c)) (hdepth : p.depth ≠ p.initialDepth)
    (hinitial : c.depth = c.initialDepth) : c.nodeType = .leaf := by
  have hlt : p.initialDepth < p.depth :=
    lt_of_le_of_ne (isChild_of_child h).parent_valid.le (Ne.symm hdepth)
  obtain ⟨nodeType, depth, initialDepth⟩ := p
  have hlt : initialDepth < depth := hlt
  have hjoin (htype : nodeType = .intermediate ∨ nodeType = .root) : c.nodeType = .leaf := by
    obtain ⟨k, rfl⟩ := Nat.exists_eq_add_of_lt hlt
    rw [child_join htype (Nat.le_add_right _ _)] at h
    cases h
    rw [below_depth, below_initialDepth] at hinitial
    rw [below, if_pos hinitial]
  cases nodeType with
  | leaf => cases h
  | intermediate => exact hjoin (.inl rfl)
  | root => exact hjoin (.inr rfl)
  | evm round =>
      cases round with
      | zero =>
          rw [child_evm_zero hlt] at h
          cases h
          exact absurd hinitial hdepth
      | succ round =>
          rw [child_evm_succ hlt.le] at h
          cases h
          exact absurd hinitial hdepth

/-- The parameters that keygen visits from `p` on. -/
inductive KeygenChain (p : NodeParams) : NodeParams → Prop where
  | refl : KeygenChain p p
  | child {q c : NodeParams} (hq : KeygenChain p q) (hc : q.child = .ok (some c)) :
      KeygenChain p c

/-- Keygen visits valid parameters only. -/
theorem KeygenChain.valid {q : NodeParams} (hp : p.Valid) (h : KeygenChain p q) : q.Valid := by
  induction h with
  | refl => exact hp
  | @child q _ _ hc ih =>
      have hleaf : q.nodeType ≠ .leaf := by
        intro hleaf
        rw [child_leaf hleaf] at hc
        cases hc
      obtain ⟨c', hc', hvalid, -⟩ := exists_child ih hleaf
      rw [hc] at hc'
      cases hc'
      exact hvalid

/-- Keygen makes the wrappers of all rounds. -/
theorem keygenChain_evm (hdepth : initialDepth ≤ depth) {j : ℕ} (hj : j ≤ round) :
    KeygenChain ⟨.evm round, depth, initialDepth⟩ ⟨.evm j, depth, initialDepth⟩ := by
  obtain ⟨m, rfl⟩ := Nat.exists_eq_add_of_le hj
  clear hj
  induction m generalizing j with
  | zero => exact .refl
  | succ m ih =>
      have hchain := ih (j := j + 1)
      rw [Nat.add_right_comm] at hchain
      exact .child hchain (child_evm_succ hdepth)

/-- Keygen makes the root. -/
theorem keygenChain_root (hdepth : initialDepth < depth) :
    KeygenChain ⟨.evm round, depth, initialDepth⟩ ⟨.root, depth, initialDepth⟩ :=
  .child (keygenChain_evm hdepth.le (Nat.zero_le _)) (child_evm_zero hdepth)

/-- Keygen makes the circuits of all depths below the root. -/
theorem keygenChain_below (hk : initialDepth ≤ k) (hdepth : k < depth) :
    KeygenChain ⟨.evm round, depth, initialDepth⟩ (.below k initialDepth) := by
  obtain ⟨m, rfl⟩ := Nat.exists_eq_add_of_lt hdepth
  induction m generalizing k with
  | zero => exact .child (keygenChain_root (by omega)) (child_join (.inr rfl) hk)
  | succ m ih =>
      have hchain := ih (k := k + 1) (by omega) (by omega)
      rw [below, if_neg (by omega)] at hchain
      rw [show k + (m + 1) + 1 = k + 1 + m + 1 by omega]
      exact .child hchain (child_join (.inl rfl) hk)

/-- Keygen visits wrappers, the root, and the circuits of all depths below it. -/
theorem keygenChain_cases (hlt : initialDepth < depth) {q : NodeParams}
    (h : KeygenChain ⟨.evm round, depth, initialDepth⟩ q) :
    (∃ j ≤ round, q = ⟨.evm j, depth, initialDepth⟩) ∨ q = ⟨.root, depth, initialDepth⟩ ∨
      ∃ k, initialDepth ≤ k ∧ k < depth ∧ q = .below k initialDepth := by
  induction h with
  | refl => exact .inl ⟨round, le_rfl, rfl⟩
  | child _ hc ih =>
      rcases ih with ⟨j, hj, rfl⟩ | rfl | ⟨k, hk, hkd, rfl⟩
      · cases j with
        | zero =>
            rw [child_evm_zero hlt] at hc
            cases hc
            exact .inr (.inl rfl)
        | succ j =>
            rw [child_evm_succ hlt.le] at hc
            cases hc
            exact .inl ⟨j, by omega, rfl⟩
      · obtain ⟨k, rfl⟩ := Nat.exists_eq_add_of_lt hlt
        rw [child_join (.inr rfl) (Nat.le_add_right _ _)] at hc
        cases hc
        exact .inr (.inr ⟨_, Nat.le_add_right _ _, Nat.lt_succ_self _, rfl⟩)
      · by_cases hleaf : k = initialDepth
        · rw [below, if_pos hleaf, child_leaf rfl] at hc
          cases hc
        · obtain ⟨m, rfl⟩ := Nat.exists_eq_add_of_lt (lt_of_le_of_ne hk (Ne.symm hleaf))
          rw [below, if_neg hleaf,
            child_join (.inl rfl) (Nat.le_add_right _ _)] at hc
          cases hc
          exact .inr (.inr ⟨_, Nat.le_add_right _ _, by omega, rfl⟩)

end NodeParams

end WorldcoinAggregation
