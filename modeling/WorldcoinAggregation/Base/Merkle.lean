import Mathlib.Data.List.Forall2
import Mathlib.Data.Nat.Bitwise
import Mathlib.Data.Set.Function
import Mathlib.Tactic.Ring

/-!
# Perfect binary hash trees

`root node k leaves` is the root of the tree of height `k` over `2 ^ k` leaves, built level by
level from the leaves. `root_append` is the other reading: the root of two halves is the node of
their roots. `climb` folds a leaf with the siblings on its path.

Collision resistance is stated for the pairs that are actually hashed, `queries` in a tree and
`climbQueries` along a path. Under it a root determines its leaves (`root_injective`), and a path
that reaches a root starts at a leaf (`climb_binding`).

`HeapOrdered` describes the list of all nodes, root first, by the positions of parents and children.
-/

namespace Merkle

variable {α H : Type}

/-- The consecutive pairs of a list; a last unpaired element is dropped. -/
def chunks : List α → List (α × α)
  | a :: b :: rest => (a, b) :: chunks rest
  | _ => []

/-- Half as many pairs as elements. -/
@[simp] theorem length_chunks : ∀ xs : List α, (chunks xs).length = xs.length / 2
  | [] => by simp [chunks]
  | [_] => by simp [chunks]
  | a :: b :: rest => by
      simp only [chunks, List.length_cons, length_chunks rest]
      omega

/-- Pairing respects concatenation at an even position. -/
theorem chunks_append {xs ys : List α} (h : xs.length % 2 = 0) :
    chunks (xs ++ ys) = chunks xs ++ chunks ys := by
  induction xs using chunks.induct with
  | case1 a b rest ih =>
      have hrest : rest.length % 2 = 0 := by
        simp only [List.length_cons] at h
        omega
      simp [chunks, ih hrest]
  -- nothing is left over, since the length is even
  | case2 xs hshort =>
      match xs, hshort with
      | [], _ => rfl
      | [a], _ => simp at h
      | a :: b :: rest, hshort => exact absurd rfl (hshort a b rest)

/-- Pairing commutes with mapping. -/
theorem chunks_map {β : Type} (f : α → β) (xs : List α) :
    chunks (xs.map f) = (chunks xs).map fun p => (f p.1, f p.2) := by
  induction xs using chunks.induct with
  | case1 a b rest ih => simp [chunks, ih]
  | case2 xs hshort =>
      match xs, hshort with
      | [], _ => rfl
      | [a], _ => rfl
      | a :: b :: rest, hshort => exact absurd rfl (hshort a b rest)

/-- A list of even length is determined by its pairs. -/
theorem chunks_injective {xs ys : List α} (hx : xs.length % 2 = 0) (hy : ys.length % 2 = 0)
    (h : chunks xs = chunks ys) : xs = ys := by
  induction xs using chunks.induct generalizing ys with
  | case1 a b rest ih =>
      match ys with
      | [] => simp [chunks] at h
      | [c] => simp at hy
      | c :: d :: rest' =>
          simp only [chunks, List.cons.injEq, Prod.mk.injEq] at h
          obtain ⟨⟨rfl, rfl⟩, hrest⟩ := h
          simp only [List.length_cons] at hx hy
          rw [ih (by omega) (by omega) hrest]
  | case2 xs hshort =>
      match xs, hshort with
      | [], _ =>
          have hlen := congrArg List.length h
          simp only [length_chunks, List.length_nil] at hlen
          exact (List.length_eq_zero_iff.mp (by omega)).symm
      | [a], _ => simp at hx
      | a :: b :: rest, hshort => exact absurd rfl (hshort a b rest)

/-- The two elements of a pair, read off the list. -/
theorem getElem?_of_chunks {xs : List α} {i : ℕ} {a b : α} (h : (chunks xs)[i]? = some (a, b)) :
    xs[2 * i]? = some a ∧ xs[2 * i + 1]? = some b := by
  induction xs using chunks.induct generalizing i with
  | case1 c d rest ih =>
      cases i with
      | zero => simpa [chunks] using h
      | succ i =>
          simp only [chunks, List.getElem?_cons_succ] at h
          rw [show 2 * (i + 1) = 2 * i + 1 + 1 by ring]
          simpa using ih h
  | case2 xs hshort =>
      match xs, hshort with
      | [], _ => simp [chunks] at h
      | [c], _ => simp [chunks] at h
      | c :: d :: rest, hshort => exact absurd rfl (hshort c d rest)

/-- Two neighbours at an even position are a pair. -/
theorem getElem?_chunks {xs : List α} {i : ℕ} {a b : α} (ha : xs[2 * i]? = some a)
    (hb : xs[2 * i + 1]? = some b) : (chunks xs)[i]? = some (a, b) := by
  obtain ⟨hlt, -⟩ := List.getElem?_eq_some_iff.mp hb
  have hi : i < (chunks xs).length := by
    rw [length_chunks]
    omega
  obtain ⟨hleft, hright⟩ := getElem?_of_chunks (List.getElem?_eq_getElem hi)
  rw [List.getElem?_eq_getElem hi]
  exact congrArg some (Prod.ext (Option.some.inj (hleft.symm.trans ha))
    (Option.some.inj (hright.symm.trans hb)))

/-- Two lists with equal images agree where the function separates their elements. -/
theorem map_injOn {β : Type} {f : α → β} {s : Set α} (hf : s.InjOn f) {xs ys : List α}
    (hx : ∀ x ∈ xs, x ∈ s) (hy : ∀ y ∈ ys, y ∈ s) (h : xs.map f = ys.map f) : xs = ys := by
  induction xs generalizing ys with
  | nil => exact (List.map_eq_nil_iff.mp h.symm).symm
  | cons x xs ih =>
      match ys with
      | [] => simp at h
      | y :: ys =>
          simp only [List.map_cons, List.cons.injEq] at h
          rw [hf (hx x (by simp)) (hy y (by simp)) h.1,
            ih (fun a ha => hx a (by simp [ha])) (fun a ha => hy a (by simp [ha])) h.2]

section Tree

variable (node : H → H → H)

/-- One level of the tree from the level below it. -/
def levelUp (level : List H) : List H :=
  (chunks level).map fun p => node p.1 p.2

/-- The root of the tree of this height over the leaves. -/
def root [Inhabited H] : ℕ → List H → H
  | 0, leaves => leaves.headI
  | k + 1, leaves => root k (levelUp node leaves)

/-- The pairs hashed while building the tree. -/
def queries : ℕ → List H → List (H × H)
  | 0, _ => []
  | k + 1, leaves => chunks leaves ++ queries k (levelUp node leaves)

/-- Half as many nodes as in the level below. -/
@[simp] theorem length_levelUp (level : List H) :
    (levelUp node level).length = level.length / 2 := by
  simp [levelUp]

/-- A level over `2 ^ (k + 1)` nodes has `2 ^ k`. -/
theorem length_levelUp_pow {k : ℕ} {level : List H} (h : level.length = 2 ^ (k + 1)) :
    (levelUp node level).length = 2 ^ k := by
  rw [length_levelUp, h, pow_succ, Nat.mul_div_cancel _ (by omega)]

/-- The root of two halves is the node of their roots. -/
theorem root_append [Inhabited H] {k : ℕ} {left right : List H} (hl : left.length = 2 ^ k)
    (hr : right.length = 2 ^ k) :
    root node (k + 1) (left ++ right) = node (root node k left) (root node k right) := by
  induction k generalizing left right with
  | zero =>
      obtain ⟨a, rfl⟩ := List.length_eq_one_iff.mp hl
      obtain ⟨b, rfl⟩ := List.length_eq_one_iff.mp hr
      rfl
  | succ k ih =>
      have hup : levelUp node (left ++ right) = levelUp node left ++ levelUp node right := by
        have heven : left.length % 2 = 0 := by
          rw [hl, pow_succ]
          omega
        simp [levelUp, chunks_append heven]
      have hroots := ih (length_levelUp_pow node hl) (length_levelUp_pow node hr)
      calc root node (k + 1 + 1) (left ++ right)
          = root node (k + 1) (levelUp node left ++ levelUp node right) := by
            rw [root, hup]
        _ = node (root node k (levelUp node left)) (root node k (levelUp node right)) := hroots

/-- The root over a tree whose leaves are all the same. -/
def uniformRoot (leaf : H) : ℕ → H
  | 0 => leaf
  | k + 1 => node (uniformRoot leaf k) (uniformRoot leaf k)

/-- `uniformRoot` is the root over copies of one leaf. -/
theorem root_replicate [Inhabited H] (leaf : H) (k : ℕ) :
    root node k (List.replicate (2 ^ k) leaf) = uniformRoot node leaf k := by
  induction k with
  | zero => rfl
  | succ k ih =>
      have hsplit : List.replicate (2 ^ (k + 1)) leaf
          = List.replicate (2 ^ k) leaf ++ List.replicate (2 ^ k) leaf := by
        rw [List.replicate_append_replicate, pow_succ, mul_two]
      rw [hsplit, root_append node (by simp) (by simp), ih, uniformRoot]

/-- Without collisions among the hashed pairs, a root determines the leaves. -/
theorem root_injective [Inhabited H] {s : Set (H × H)} (hs : s.InjOn fun p => node p.1 p.2)
    {k : ℕ} {xs ys : List H} (hx : xs.length = 2 ^ k) (hy : ys.length = 2 ^ k)
    (hqx : ∀ q ∈ queries node k xs, q ∈ s) (hqy : ∀ q ∈ queries node k ys, q ∈ s)
    (h : root node k xs = root node k ys) : xs = ys := by
  induction k generalizing xs ys with
  | zero =>
      obtain ⟨a, rfl⟩ := List.length_eq_one_iff.mp hx
      obtain ⟨b, rfl⟩ := List.length_eq_one_iff.mp hy
      simpa [root] using h
  | succ k ih =>
      simp only [queries, List.mem_append] at hqx hqy
      -- the roots are those of the levels above, so these levels are equal
      have hlevel : levelUp node xs = levelUp node ys :=
        ih (length_levelUp_pow node hx) (length_levelUp_pow node hy)
          (fun q hq => hqx q (.inr hq)) (fun q hq => hqy q (.inr hq)) h
      have hchunks : chunks xs = chunks ys :=
        map_injOn hs (fun q hq => hqx q (.inl hq)) (fun q hq => hqy q (.inl hq)) hlevel
      have heven : 2 ^ (k + 1) % 2 = 0 := by
        rw [pow_succ]
        omega
      exact chunks_injective (by rw [hx, heven]) (by rw [hy, heven]) hchunks

/-! ## Paths -/

/-- The parent of a node and its sibling, whose side the flag gives. -/
def parent (x : H) (step : Bool × H) : H :=
  if step.1 then node step.2 x else node x step.2

/-- The pair that `parent` hashes. -/
def parentQuery (x : H) (step : Bool × H) : H × H :=
  if step.1 then (step.2, x) else (x, step.2)

/-- `parent` hashes `parentQuery`. -/
theorem node_parentQuery (x : H) (step : Bool × H) :
    node (parentQuery x step).1 (parentQuery x step).2 = parent node x step := by
  unfold parentQuery parent
  split <;> rfl

/-- Fold a leaf with the siblings on its path, lowest first. -/
def climb : H → List (Bool × H) → H
  | x, [] => x
  | x, step :: path => climb (parent node x step) path

/-- The pairs hashed along a path. -/
def climbQueries : H → List (Bool × H) → List (H × H)
  | _, [] => []
  | x, step :: path => parentQuery x step :: climbQueries (parent node x step) path

/-- The leaf index that the sides of the siblings spell, lowest bit first. -/
def pathIndex : List (Bool × H) → ℕ
  | [] => 0
  | step :: path => Nat.bit step.1 (pathIndex path)

/-- Bit `i` of the index is the side of sibling `i`. -/
theorem testBit_pathIndex (path : List (Bool × H)) (i : ℕ) :
    (pathIndex path).testBit i = (path.map Prod.fst).getD i false := by
  induction path generalizing i with
  | nil => simp [pathIndex]
  | cons step path ih =>
      cases i with
      | zero => simp [pathIndex]
      | succ i => simpa [pathIndex, Nat.testBit_bit_succ] using ih i

/-- Without collisions among the hashed pairs, a path that reaches the root of a tree of its own
height starts at the leaf its index names. -/
theorem climb_binding [Inhabited H] {s : Set (H × H)} (hs : s.InjOn fun p => node p.1 p.2)
    {path : List (Bool × H)} {leaves : List H} {x : H} (hlen : leaves.length = 2 ^ path.length)
    (hqtree : ∀ q ∈ queries node path.length leaves, q ∈ s)
    (hqpath : ∀ q ∈ climbQueries node x path, q ∈ s)
    (h : climb node x path = root node path.length leaves) :
    leaves[pathIndex path]? = some x := by
  induction path generalizing leaves x with
  | nil =>
      obtain ⟨a, rfl⟩ := List.length_eq_one_iff.mp hlen
      have hx : x = a := h
      simp [pathIndex, hx]
  | cons step path ih =>
      simp only [List.length_cons, queries, List.mem_append] at hqtree
      simp only [climbQueries, List.mem_cons] at hqpath
      have habove : (levelUp node leaves)[pathIndex path]? = some (parent node x step) :=
        ih (length_levelUp_pow node hlen) (fun q hq => hqtree q (.inr hq))
          (fun q hq => hqpath q (.inr hq)) h
      simp only [levelUp, List.getElem?_map, Option.map_eq_some_iff] at habove
      obtain ⟨⟨a, b⟩, hpair, hnode⟩ := habove
      -- the pair below this node is the pair the path hashes, because neither collides
      have hquery : (a, b) = parentQuery x step := by
        refine hs (hqtree _ (.inl (List.mem_of_getElem? hpair))) (hqpath _ (.inl rfl)) ?_
        exact hnode.trans (node_parentQuery node x step).symm
      obtain ⟨hleft, hright⟩ := getElem?_of_chunks hpair
      rw [pathIndex, Nat.bit_val]
      cases hside : step.1 with
      | false =>
          simp only [parentQuery, hside, Bool.false_eq_true, if_false, Prod.mk.injEq] at hquery
          simpa [hquery.1] using hleft
      | true =>
          simp only [parentQuery, hside, if_true, Prod.mk.injEq] at hquery
          simpa [hquery.2] using hright

/-! ## Openings -/

/-- The levels of the tree of this height, the leaves first. -/
def levels : ℕ → List H → List (List H)
  | 0, leaves => [leaves]
  | k + 1, leaves => leaves :: levels k (levelUp node leaves)

/-- There is a level. -/
theorem levels_ne_nil (k : ℕ) (leaves : List H) : levels node k leaves ≠ [] := by
  cases k <;> exact List.cons_ne_nil _ _

/-- The path of the leaf at an index: at each level the node beside it, and whether that stands on
the left. -/
def opening [Inhabited H] : ℕ → ℕ → List H → List (Bool × H)
  | 0, _, _ => []
  | k + 1, i, leaves =>
      (if i % 2 = 1 then (true, leaves.getD (i - 1) default)
        else (false, leaves.getD (i + 1) default)) :: opening k (i / 2) (levelUp node leaves)

/-- A path has one step for each level below the root. -/
@[simp] theorem length_opening [Inhabited H] (k i : ℕ) (leaves : List H) :
    (opening node k i leaves).length = k := by
  induction k generalizing i leaves with
  | zero => rfl
  | succ k ih => rw [opening, List.length_cons, ih]

/-- The last level holds the root alone. -/
theorem getLast?_levels [Inhabited H] {k : ℕ} {leaves : List H} (hlen : leaves.length = 2 ^ k) :
    (levels node k leaves).getLast? = some [root node k leaves] := by
  induction k generalizing leaves with
  | zero =>
      obtain ⟨leaf, rfl⟩ := List.length_eq_one_iff.mp hlen
      rfl
  | succ k ih =>
      rw [levels, root, List.getLast?_cons, ih (length_levelUp_pow node hlen)]
      rfl

/-- The path of a leaf leads from the leaf to the root. -/
theorem climb_opening [Inhabited H] {k i : ℕ} {leaves : List H} {x : H}
    (hlen : leaves.length = 2 ^ k) (hleaf : leaves[i]? = some x) :
    climb node x (opening node k i leaves) = root node k leaves := by
  induction k generalizing i leaves x with
  | zero =>
      obtain ⟨leaf, rfl⟩ := List.length_eq_one_iff.mp hlen
      obtain ⟨hlt, hget⟩ := List.getElem?_eq_some_iff.mp hleaf
      obtain rfl : i = 0 := Nat.lt_one_iff.mp hlt
      exact hget.symm
  | succ k ih =>
      obtain ⟨hlt, -⟩ := List.getElem?_eq_some_iff.mp hleaf
      have heven : leaves.length % 2 = 0 := by
        rw [hlen, pow_succ]
        omega
      have habove {a b : H} (ha : leaves[2 * (i / 2)]? = some a)
          (hb : leaves[2 * (i / 2) + 1]? = some b) :
          (levelUp node leaves)[i / 2]? = some (node a b) := by
        rw [levelUp, List.getElem?_map, getElem?_chunks ha hb]
        rfl
      rw [opening, climb, root]
      refine ih (length_levelUp_pow node hlen) ?_
      -- the node beside a leaf is the other one of its pair
      rcases Nat.mod_two_eq_zero_or_one i with hmod | hmod
      · have hbeside : i + 1 < leaves.length := by omega
        have hleft : 2 * (i / 2) = i := by omega
        rw [hleft] at habove
        rw [if_neg (by omega), habove hleaf (List.getElem?_eq_getElem hbeside), parent,
          List.getD_eq_getElem _ _ hbeside]
        rfl
      · have hbeside : i - 1 < leaves.length := by omega
        have hleft : 2 * (i / 2) = i - 1 := by omega
        have hright : i - 1 + 1 = i := by omega
        rw [hleft, hright] at habove
        rw [if_pos hmod, habove (List.getElem?_eq_getElem hbeside) hleaf, parent,
          List.getD_eq_getElem _ _ hbeside]
        rfl

end Tree

/-! ## Heaps -/

section Heap

variable {isParent : H → H → H → Prop} {leaves level tree leaves' tree' : List H}

/-- The nodes of a tree over the leaves, level by level from the root: node `i` is a parent of the
nodes `2 * i + 1` and `2 * i + 2`, and the leaves stand at the end. -/
structure HeapOrdered (isParent : H → H → H → Prop) (leaves tree : List H) : Prop where
  length_eq : tree.length = 2 * leaves.length - 1
  parent : ∀ i < leaves.length - 1, ∃ x left right, tree[i]? = some x ∧
    tree[2 * i + 1]? = some left ∧ tree[2 * i + 2]? = some right ∧ isParent left right x
  leaf : ∀ j < leaves.length, tree[leaves.length - 1 + j]? = leaves[j]?

/-- A single leaf is its own tree. -/
theorem HeapOrdered.singleton (x : H) : HeapOrdered isParent [x] [x] where
  length_eq := rfl
  parent i hi := absurd hi (Nat.not_lt_zero i)
  leaf j hj := by
    obtain rfl : j = 0 := Nat.lt_one_iff.mp hj
    rfl

/-- The leaves are appended to a tree over the level above them. -/
theorem HeapOrdered.append (h : HeapOrdered isParent level tree)
    (hlen : leaves.length = 2 * level.length) (hpos : 0 < level.length)
    (hlevel : List.Forall₂ (fun pair x => isParent pair.1 pair.2 x) (chunks leaves) level) :
    HeapOrdered isParent leaves (tree ++ leaves) := by
  have hlength := h.length_eq
  refine ⟨by rw [List.length_append]; omega, fun i hi => ?_, fun j hj => ?_⟩
  · by_cases hupper : i < level.length - 1
    -- an inner node of the tree above
    · obtain ⟨x, left, right, hx, hleft, hright, hparent⟩ := h.parent i hupper
      refine ⟨x, left, right, ?_, ?_, ?_, hparent⟩
      all_goals rwa [List.getElem?_append_left (by omega)]
    -- a leaf of the tree above, whose children are new
    · obtain ⟨j, rfl⟩ := Nat.exists_eq_add_of_le (Nat.le_of_not_lt hupper)
      have hj : j < level.length := by omega
      have hpair : j < (chunks leaves).length := by
        rw [length_chunks]
        omega
      obtain ⟨hleft, hright⟩ := getElem?_of_chunks (List.getElem?_eq_getElem hpair)
      refine ⟨level.get ⟨j, hj⟩, ((chunks leaves).get ⟨j, hpair⟩).1,
        ((chunks leaves).get ⟨j, hpair⟩).2, ?_, ?_, ?_,
        hlevel.get hpair hj⟩
      · rw [List.getElem?_append_left (by omega), h.leaf j hj, List.getElem?_eq_getElem hj]
        rfl
      · rw [List.getElem?_append_right (by omega), ← hleft]
        congr 1
        omega
      · rw [List.getElem?_append_right (by omega), ← hright]
        congr 1
        omega
  · rw [List.getElem?_append_right (by omega)]
    congr 1
    omega

/-- Every leaf of a tree with two leaves or more is a child. -/
theorem HeapOrdered.exists_parent (h : HeapOrdered isParent leaves tree) {j : ℕ} {x : H}
    (htwo : 2 ≤ leaves.length) (hj : leaves[j]? = some x) :
    ∃ sibling p, isParent x sibling p ∨ isParent sibling x p := by
  obtain ⟨hlt, -⟩ := List.getElem?_eq_some_iff.mp hj
  have hleaf := (h.leaf j hlt).trans hj
  obtain ⟨p, left, right, -, hleft, hright, hparent⟩ :=
    h.parent ((leaves.length - 2 + j) / 2) (by omega)
  -- the leaf is the left child or the right one, by the parity of its position
  rcases Nat.mod_two_eq_zero_or_one (leaves.length - 2 + j) with hmod | hmod
  · have hindex : 2 * ((leaves.length - 2 + j) / 2) + 1 = leaves.length - 1 + j := by omega
    rw [hindex, hleaf, Option.some.injEq] at hleft
    exact ⟨right, p, .inl (hleft ▸ hparent)⟩
  · have hindex : 2 * ((leaves.length - 2 + j) / 2) + 2 = leaves.length - 1 + j := by omega
    rw [hindex, hleaf, Option.some.injEq] at hright
    exact ⟨left, p, .inr (hright ▸ hparent)⟩

/-- Where parents determine their children, the first node determines all leaves. -/
theorem HeapOrdered.leaves_injective (h : HeapOrdered isParent leaves tree)
    (h' : HeapOrdered isParent leaves' tree') (hlen : leaves.length = leaves'.length)
    (hinj : ∀ i left right left' right' x,
      tree[2 * i + 1]? = some left → tree[2 * i + 2]? = some right →
      tree'[2 * i + 1]? = some left' → tree'[2 * i + 2]? = some right' →
      isParent left right x → isParent left' right' x → left = left' ∧ right = right')
    (hroot : tree[0]? = tree'[0]?) : leaves = leaves' := by
  have hnode (i : ℕ) (hi : i < 2 * leaves.length - 1) : tree[i]? = tree'[i]? := by
    induction i using Nat.strong_induction_on with
    | _ i ih =>
        rcases Nat.eq_zero_or_pos i with rfl | hpos
        · exact hroot
        obtain ⟨x, left, right, hx, hleft, hright, hparent⟩ := h.parent ((i - 1) / 2) (by omega)
        obtain ⟨x', left', right', hx', hleft', hright', hparent'⟩ :=
          h'.parent ((i - 1) / 2) (by omega)
        obtain rfl : x = x' := by
          rw [ih ((i - 1) / 2) (by omega) (by omega), hx', Option.some.injEq] at hx
          exact hx.symm
        obtain ⟨rfl, rfl⟩ := hinj _ _ _ _ _ _ hleft hright hleft' hright' hparent hparent'
        rcases Nat.mod_two_eq_zero_or_one i with hmod | hmod
        · have hindex : i = 2 * ((i - 1) / 2) + 2 := by omega
          rw [hindex, hright, hright']
        · have hindex : i = 2 * ((i - 1) / 2) + 1 := by omega
          rw [hindex, hleft, hleft']
  refine List.ext_getElem? fun j => ?_
  by_cases hj : j < leaves.length
  · rw [← h.leaf j hj, ← h'.leaf j (hlen ▸ hj), ← hlen]
    exact hnode _ (by omega)
  · rw [List.getElem?_eq_none (by omega), List.getElem?_eq_none (by omega)]

end Heap

end Merkle
