import WorldcoinAggregation.Base.BigEndian
import Mathlib.Data.Set.Function

/-!
# The hashed byte strings

Circuits and contracts agree on two packed encodings: a claim is hashed as 84 bytes and a pair of
Merkle nodes as 64 bytes. Both encodings are injective, and no claim string is a node string.
-/

namespace WorldcoinAggregation

/-- A digest as 32 bytes. -/
def digestBytes (digest : BitVec 256) : List UInt8 :=
  BigEndian.toBytes 32 digest.toNat

/-- The packed bytes of a claim: 32 bytes of grant id, 20 of receiver, 32 of nullifier hash. -/
def packClaim (grantId receiver nullifierHash : ℕ) : List UInt8 :=
  BigEndian.toBytes 32 grantId ++ BigEndian.toBytes 20 receiver ++
    BigEndian.toBytes 32 nullifierHash

/-- The packed bytes of the zero claim, which fills up a batch. -/
def zeroClaim : List UInt8 :=
  List.replicate 84 0

/-- The packed bytes of two sibling nodes. -/
def packNodes (left right : BitVec 256) : List UInt8 :=
  digestBytes left ++ digestBytes right

/-- The parent of two nodes. -/
def hashNodes (keccak256 : List UInt8 → BitVec 256) (left right : BitVec 256) : BitVec 256 :=
  keccak256 (packNodes left right)

@[simp] theorem length_digestBytes (digest : BitVec 256) : (digestBytes digest).length = 32 := by
  simp [digestBytes]

@[simp] theorem length_packClaim (grantId receiver nullifierHash : ℕ) :
    (packClaim grantId receiver nullifierHash).length = 84 := by
  simp [packClaim]

@[simp] theorem length_packNodes (left right : BitVec 256) :
    (packNodes left right).length = 64 := by
  simp [packNodes]

/-- A digest is determined by its bytes. -/
theorem digestBytes_injective {a b : BitVec 256} (h : digestBytes a = digestBytes b) : a = b :=
  BitVec.eq_of_toNat_eq (BigEndian.toBytes_injective a.isLt b.isLt h)

/-- Two nodes are determined by their packed bytes. -/
theorem packNodes_injective {a b c d : BitVec 256} (h : packNodes a b = packNodes c d) :
    a = c ∧ b = d := by
  obtain ⟨hleft, hright⟩ := List.append_inj h (by simp)
  exact ⟨digestBytes_injective hleft, digestBytes_injective hright⟩

/-- A claim in range is determined by its packed bytes. -/
theorem packClaim_injective {g r n g' r' n' : ℕ} (hg : g < 256 ^ 32) (hg' : g' < 256 ^ 32)
    (hr : r < 256 ^ 20) (hr' : r' < 256 ^ 20) (hn : n < 256 ^ 32) (hn' : n' < 256 ^ 32)
    (h : packClaim g r n = packClaim g' r' n') : g = g' ∧ r = r' ∧ n = n' := by
  obtain ⟨hfront, hnull⟩ := List.append_inj h (by simp)
  obtain ⟨hgrant, hrecv⟩ := List.append_inj hfront (by simp)
  exact ⟨BigEndian.toBytes_injective hg hg' hgrant, BigEndian.toBytes_injective hr hr' hrecv,
    BigEndian.toBytes_injective hn hn' hnull⟩

/-- Packing zeros gives the zero claim. -/
theorem packClaim_zero : packClaim 0 0 0 = zeroClaim := by
  simp only [packClaim, BigEndian.toBytes_zero, List.replicate_append_replicate, zeroClaim]

/-- Hashing nodes does not collide where hashing their bytes does not. -/
theorem hashNodes_injOn {keccak256 : List UInt8 → BitVec 256} {strings : Set (List UInt8)}
    (h : strings.InjOn keccak256) :
    {p : BitVec 256 × BitVec 256 | packNodes p.1 p.2 ∈ strings}.InjOn
      fun p => hashNodes keccak256 p.1 p.2 := by
  intro p hp q hq hpq
  obtain ⟨hleft, hright⟩ := packNodes_injective (h hp hq hpq)
  exact Prod.ext hleft hright

end WorldcoinAggregation
