import WorldcoinAggregation.Base.Keccak
import WorldcoinAggregation.Circuit.Utils

/-!
# The tree that the leaf circuit builds

`computeKeccakMerkleTree` recurses on the level above its leaves and appends the leaves to the
result. Whatever the leaves are, the nodes come out in the order of a heap
(`computeKeccakMerkleTree_heap`), and the recursion is never cut off.
-/

namespace WorldcoinAggregation

open Synthesis Merkle

variable {keccak256 : List UInt8 → BitVec 256} {left right parent : HiLo Fr}

/-- Both halves are numbers of 128 bits. -/
def HiLo.Fits (x : HiLo Fr) : Prop :=
  x.hi.val < 2 ^ 128 ∧ x.lo.val < 2 ^ 128

/-- The bytes that are hashed for the parent of two nodes. -/
def nodeBytes (left right : HiLo Fr) : List UInt8 :=
  BigEndian.toBytes 16 left.hi.val ++ BigEndian.toBytes 16 left.lo.val ++
    BigEndian.toBytes 16 right.hi.val ++ BigEndian.toBytes 16 right.lo.val

/-- Some prover gets this parent from these two nodes. -/
def IsBranchNode (keccak256 : List UInt8 → BitVec 256) (left right parent : HiLo Fr) : Prop :=
  ∃ prover, output (computeKeccakForBranchNodes keccak256 left right) prover = some parent

/-- The strings that are hashed for a tree in the order of a heap. -/
def branchStrings (tree : List (HiLo Fr)) : Set (List UInt8) :=
  {s | ∃ i left right, tree[2 * i + 1]? = some left ∧ tree[2 * i + 2]? = some right ∧
    s = nodeBytes left right}

/-! ## One parent -/

/-- A value that decomposes into 16 bytes has 128 bits, and its bytes are determined. -/
theorem sound_uintToBytesBe_16 {input : Fr} :
    Sound (uintToBytesBe input 16) fun bytes =>
      bytes = BigEndian.toBytes 16 input.val ∧ input.val < 2 ^ 128 := by
  refine tracks_uintToBytesBe.sound.mono fun bytes ⟨_, _, hbytes⟩ => ?_
  have hcanonical : Canonical bytes := hbytes.canonical pow_128_lt_frModulus.le
  refine ⟨hbytes.eq_toBytes hcanonical, ?_⟩
  have hlt := BigEndian.ofBytes_lt bytes
  rw [hbytes.1] at hlt
  rwa [← hbytes.2, Fr.val_natCast hcanonical]

/-- The parent of two nodes is the hash of their bytes, and only nodes of 128-bit halves have
one. -/
theorem IsBranchNode.eq (h : IsBranchNode keccak256 left right parent) :
    (left.Fits ∧ right.Fits) ∧ parent = HiLo.ofDigest (keccak256 (nodeBytes left right)) := by
  obtain ⟨prover, hout⟩ := h
  have hsound : Sound (computeKeccakForBranchNodes keccak256 left right) fun parent =>
      (left.Fits ∧ right.Fits) ∧ parent = HiLo.ofDigest (keccak256 (nodeBytes left right)) := by
    refine sound_uintToBytesBe_16.bind fun leftHi hlh => ?_
    refine sound_uintToBytesBe_16.bind fun leftLo hll => ?_
    refine sound_uintToBytesBe_16.bind fun rightHi hrh => ?_
    refine sound_uintToBytesBe_16.bind fun rightLo hrl => .pure ?_
    refine ⟨⟨⟨hlh.2, hll.2⟩, hrh.2, hrl.2⟩, ?_⟩
    rw [hlh.1, hll.1, hrh.1, hrl.1]
    rfl
  exact hsound.of_output hout

/-- Nodes of 128-bit halves are determined by their bytes. -/
theorem nodeBytes_injective {left' right' : HiLo Fr} (hl : left.Fits) (hr : right.Fits)
    (hl' : left'.Fits) (hr' : right'.Fits) (h : nodeBytes left right = nodeBytes left' right') :
    left = left' ∧ right = right' := by
  have hpow : (2 : ℕ) ^ 128 = 256 ^ 16 := by norm_num
  have hvalue {x y : Fr} (hx : x.val < 2 ^ 128) (hy : y.val < 2 ^ 128)
      (hxy : BigEndian.toBytes 16 x.val = BigEndian.toBytes 16 y.val) : x = y :=
    ZMod.val_injective _ (BigEndian.toBytes_injective (hpow ▸ hx) (hpow ▸ hy) hxy)
  obtain ⟨hfront, hrightLo⟩ := List.append_inj h (by simp)
  obtain ⟨hfront, hrightHi⟩ := List.append_inj hfront (by simp)
  obtain ⟨hleftHi, hleftLo⟩ := List.append_inj hfront (by simp)
  exact ⟨congrArg₂ HiLo.mk (hvalue hl.1 hl'.1 hleftHi) (hvalue hl.2 hl'.2 hleftLo),
    congrArg₂ HiLo.mk (hvalue hr.1 hr'.1 hrightHi) (hvalue hr.2 hr'.2 hrightLo)⟩

/-- Values of 128-bit halves are halves of a digest. -/
theorem HiLo.Fits.exists_digest {x : HiLo Fr} (h : x.Fits) :
    ∃ digest, HiLo.ofDigest digest = x := by
  obtain ⟨hhi, hlo⟩ := h
  have hlt : x.hi.val * 2 ^ 128 + x.lo.val < 2 ^ 256 := by omega
  have htoNat : (BitVec.ofNat 256 (x.hi.val * 2 ^ 128 + x.lo.val)).toNat =
      x.hi.val * 2 ^ 128 + x.lo.val := by
    rw [BitVec.toNat_ofNat, Nat.mod_eq_of_lt hlt]
  have hdiv : (x.hi.val * 2 ^ 128 + x.lo.val) / 2 ^ 128 = x.hi.val := by omega
  have hmod : (x.hi.val * 2 ^ 128 + x.lo.val) % 2 ^ 128 = x.lo.val := by omega
  refine ⟨BitVec.ofNat 256 (x.hi.val * 2 ^ 128 + x.lo.val), congrArg₂ HiLo.mk ?_ ?_⟩
  · rw [htoNat, hdiv, ZMod.natCast_zmod_val]
  · rw [htoNat, hmod, ZMod.natCast_zmod_val]

/-! ## The whole tree -/

/-- The level above a list of leaves has one node for each pair, whatever the prover does. -/
theorem sound_nextLevel (leaves : List (HiLo Fr)) :
    Sound ((chunks leaves).mapM fun c => computeKeccakForBranchNodes keccak256 c.1 c.2)
      fun level => List.Forall₂ (fun c x => IsBranchNode keccak256 c.1 c.2 x) (chunks leaves)
        level :=
  Sound.mapM fun c _ => Sound.output (computeKeccakForBranchNodes keccak256 c.1 c.2)

/-- The number of nodes in the level above `2 ^ (k + 1)` leaves. -/
theorem length_nextLevel {k : ℕ} {leaves level : List (HiLo Fr)}
    (hlen : leaves.length = 2 ^ (k + 1))
    (hlevel : List.Forall₂ (fun c x => IsBranchNode keccak256 c.1 c.2 x) (chunks leaves) level) :
    level.length = 2 ^ k := by
  rw [← hlevel.length_eq, length_chunks, hlen, pow_succ, Nat.mul_div_cancel _ (by omega)]

/-- The nodes of a tree come out in the order of a heap. -/
theorem sound_computeKeccakMerkleTreeAux {fuel k : ℕ} {leaves : List (HiLo Fr)}
    (hlen : leaves.length = 2 ^ k) :
    Sound (computeKeccakMerkleTreeAux keccak256 fuel leaves)
      (HeapOrdered (IsBranchNode keccak256) leaves) := by
  induction fuel generalizing k leaves with
  | zero => exact .abort
  | succ fuel ih =>
      refine Sound.require.bind fun _ _ => ?_
      simp only [hlen]
      cases k with
      | zero =>
          obtain ⟨leaf, rfl⟩ := List.length_eq_one_iff.mp hlen
          exact .pure (.singleton leaf)
      | succ k =>
          rw [if_neg (two_pow_succ_ne_one k)]
          refine (sound_nextLevel leaves).bind fun level hlevel => ?_
          have hlength := length_nextLevel hlen hlevel
          refine (ih hlength).bind fun tree htree => .pure (htree.append ?_ ?_ hlevel)
          · rw [hlen, hlength, pow_succ, mul_comm]
          · rw [hlength]
            exact Nat.two_pow_pos k

/-- The recursion is not cut off: from one unit of fuel for each level on, more fuel changes
nothing. -/
theorem computeKeccakMerkleTreeAux_fuel {fuel fuel' k : ℕ} {leaves : List (HiLo Fr)}
    (hlen : leaves.length = 2 ^ k) (hfuel : k < fuel) (hfuel' : k < fuel') :
    computeKeccakMerkleTreeAux keccak256 fuel leaves =
      computeKeccakMerkleTreeAux keccak256 fuel' leaves := by
  induction k generalizing fuel fuel' leaves with
  | zero =>
      obtain ⟨fuel, rfl⟩ := Nat.exists_eq_add_of_lt hfuel
      obtain ⟨fuel', rfl⟩ := Nat.exists_eq_add_of_lt hfuel'
      simp only [computeKeccakMerkleTreeAux, hlen, pow_zero, if_true]
  | succ k ih =>
      obtain ⟨fuel, rfl⟩ := Nat.exists_eq_add_of_lt hfuel
      obtain ⟨fuel', rfl⟩ := Nat.exists_eq_add_of_lt hfuel'
      simp only [computeKeccakMerkleTreeAux, hlen, if_neg (two_pow_succ_ne_one k)]
      refine congrArg _ (funext fun _ => ?_)
      refine (sound_nextLevel leaves).bind_congr fun level hlevel => ?_
      have hrest : computeKeccakMerkleTreeAux keccak256 (k + 1 + fuel) level =
          computeKeccakMerkleTreeAux keccak256 (k + 1 + fuel') level :=
        ih (length_nextLevel hlen hlevel) (by omega) (by omega)
      rw [hrest]

/-- Leaves of 128-bit halves have a tree. -/
theorem honest_computeKeccakMerkleTree_of_fits {k : ℕ} {leaves : List (HiLo Fr)}
    (hlen : leaves.length = 2 ^ k) (hfits : ∀ leaf ∈ leaves, leaf.Fits) :
    ∃ tree, Honest (computeKeccakMerkleTree keccak256 leaves) tree := by
  have hdigests : ∃ digests : List (BitVec 256), digests.map HiLo.ofDigest = leaves := by
    clear hlen
    induction leaves with
    | nil => exact ⟨[], rfl⟩
    | cons leaf leaves ih =>
        obtain ⟨digest, hdigest⟩ := (hfits leaf (by simp)).exists_digest
        obtain ⟨digests, hdigests⟩ := ih fun x hx => hfits x (by simp [hx])
        exact ⟨digest :: digests, by rw [List.map_cons, hdigest, hdigests]⟩
  obtain ⟨digests, rfl⟩ := hdigests
  rw [List.length_map] at hlen
  obtain ⟨tree, -, htree⟩ := honest_computeKeccakMerkleTree keccak256 hlen
  exact ⟨tree, htree⟩

/-- A single leaf is its own tree, whatever its halves are. -/
theorem honest_computeKeccakMerkleTree_singleton (leaf : HiLo Fr) :
    Honest (computeKeccakMerkleTree keccak256 [leaf]) [leaf] :=
  (Honest.require (by rw [List.length_singleton, Nat.log_one_right, pow_zero])).bind (.pure _)

/-- The leaves of a tree with inner nodes have 128-bit halves. -/
theorem fits_of_heapOrdered {leaves tree : List (HiLo Fr)}
    (h : HeapOrdered (IsBranchNode keccak256) leaves tree) (htwo : 2 ≤ leaves.length) :
    ∀ leaf ∈ leaves, leaf.Fits := by
  intro leaf hleaf
  obtain ⟨j, hj⟩ := List.mem_iff_getElem?.mp hleaf
  obtain ⟨sibling, parent, hparent | hparent⟩ := h.exists_parent htwo hj
  · exact hparent.eq.1.1
  · exact hparent.eq.1.2

/-- If no strings that are hashed for two trees collide, equal roots have equal leaves. -/
theorem leaves_eq_of_root {leaves leaves' tree tree' : List (HiLo Fr)}
    (h : HeapOrdered (IsBranchNode keccak256) leaves tree)
    (h' : HeapOrdered (IsBranchNode keccak256) leaves' tree')
    (hlen : leaves.length = leaves'.length)
    (hinj : (branchStrings tree ∪ branchStrings tree').InjOn keccak256)
    (hroot : tree[0]? = tree'[0]?) : leaves = leaves' := by
  refine h.leaves_injective h' hlen ?_ hroot
  intro i left right left' right' x hleft hright hleft' hright' hparent hparent'
  obtain ⟨⟨hfl, hfr⟩, hx⟩ := hparent.eq
  obtain ⟨⟨hfl', hfr'⟩, hx'⟩ := hparent'.eq
  refine nodeBytes_injective hfl hfr hfl' hfr' (hinj ?_ ?_ ?_)
  · exact .inl ⟨i, left, right, hleft, hright, rfl⟩
  · exact .inr ⟨i, left', right', hleft', hright', rfl⟩
  · exact HiLo.ofDigest_injective (hx.symm.trans hx')

/-- The tree over `2 ^ k` leaves: the recursion is not cut off, a tree exists unless a leaf with a
parent does not fit, every tree is in the order of a heap, and its first node commits to the
leaves. -/
theorem computeKeccakMerkleTree_heap (keccak256 : List UInt8 → BitVec 256) (k : ℕ)
    (leaves : List (HiLo Fr)) (hlen : leaves.length = 2 ^ k) :
    (∀ fuel > k, computeKeccakMerkleTreeAux keccak256 fuel leaves =
      computeKeccakMerkleTree keccak256 leaves) ∧
    ((∃ prover tree, output (computeKeccakMerkleTree keccak256 leaves) prover = some tree) ↔
      k = 0 ∨ ∀ leaf ∈ leaves, leaf.Fits) ∧
    ∀ prover tree, output (computeKeccakMerkleTree keccak256 leaves) prover = some tree →
      HeapOrdered (IsBranchNode keccak256) leaves tree ∧
      ∀ prover' leaves' tree', leaves'.length = leaves.length →
        output (computeKeccakMerkleTree keccak256 leaves') prover' = some tree' →
        (branchStrings tree ∪ branchStrings tree').InjOn keccak256 →
        tree[0]? = tree'[0]? → leaves = leaves' := by
  have hheap {prover tree} (leaves : List (HiLo Fr)) (hlen : leaves.length = 2 ^ k)
      (hout : output (computeKeccakMerkleTree keccak256 leaves) prover = some tree) :
      HeapOrdered (IsBranchNode keccak256) leaves tree :=
    (sound_computeKeccakMerkleTreeAux hlen).of_output hout
  refine ⟨fun fuel hfuel => ?_, ⟨?_, ?_⟩, fun prover tree hout => ⟨hheap leaves hlen hout, ?_⟩⟩
  · exact computeKeccakMerkleTreeAux_fuel hlen hfuel (hlen ▸ Nat.lt_two_pow_self)
  · rintro ⟨prover, tree, hout⟩
    rcases Nat.eq_zero_or_pos k with hk | hk
    · exact .inl hk
    · have htwo : 2 ≤ leaves.length := hlen ▸ Nat.le_self_pow hk.ne' 2
      exact .inr (fits_of_heapOrdered (hheap leaves hlen hout) htwo)
  · rintro (rfl | hfits)
    · obtain ⟨leaf, rfl⟩ := List.length_eq_one_iff.mp hlen
      exact ⟨.honest, _, (honest_computeKeccakMerkleTree_singleton leaf).output⟩
    · obtain ⟨tree, htree⟩ := honest_computeKeccakMerkleTree_of_fits hlen hfits
      exact ⟨.honest, tree, htree.output⟩
  · intro prover' leaves' tree' hlen' hout' hinj hroot
    exact leaves_eq_of_root (hheap leaves hlen hout) (hheap leaves' (hlen'.trans hlen) hout')
      hlen'.symm hinj hroot

/-- Four leaves lie behind the three nodes above them. -/
theorem computeKeccakMerkleTree_heap_four : ∃ tree,
    output (computeKeccakMerkleTree Keccak.keccak256 [⟨0, 1⟩, ⟨0, 2⟩, ⟨0, 3⟩, ⟨0, 4⟩]) .honest =
      some tree ∧ HeapOrdered (IsBranchNode Keccak.keccak256)
        [⟨0, 1⟩, ⟨0, 2⟩, ⟨0, 3⟩, ⟨0, 4⟩] tree := by
  have hfits : ∀ leaf ∈ ([⟨0, 1⟩, ⟨0, 2⟩, ⟨0, 3⟩, ⟨0, 4⟩] : List (HiLo Fr)), leaf.Fits := by
    simp only [List.forall_mem_cons, HiLo.Fits]
    decide
  obtain ⟨tree, htree⟩ : ∃ tree, Honest (computeKeccakMerkleTree Keccak.keccak256 _) tree :=
    honest_computeKeccakMerkleTree_of_fits (k := 2) rfl hfits
  exact ⟨tree, htree.output,
    ((computeKeccakMerkleTree_heap Keccak.keccak256 2 _ rfl).2.2 _ _ htree.output).1⟩

end WorldcoinAggregation
