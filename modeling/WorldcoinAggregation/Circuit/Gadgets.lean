import WorldcoinAggregation.Base.BigEndian
import WorldcoinAggregation.Base.Synthesis
import Mathlib.Data.ZMod.Basic
import Mathlib.Data.Nat.Size

/-!
# Field elements and the gadgets the circuits are built from

The circuits compute over the scalar field of BN254. The range and gate gadgets of the circuit
library constrain what their names say. The one gadget with a choice for the prover is
`uintToBytesBe`, which only ties the value of the bytes to the field element modulo the field
order: 16 and 20 bytes are determined by the element (`BytesOf.canonical`), 32 bytes are
not.
-/

namespace WorldcoinAggregation

open Synthesis

/-- The order of the BN254 scalar field. -/
def frModulus : ℕ := 0x30644e72e131a029b85045b68181585d2833e84879b9709143e1f593f0000001

/-- The BN254 scalar field. -/
abbrev Fr := ZMod frModulus

instance : NeZero frModulus := ⟨by decide⟩

/-- A field element is below the field order. -/
theorem Fr.val_lt (x : Fr) : x.val < frModulus :=
  ZMod.val_lt x

/-- The field order is larger than every 128-bit number. -/
theorem pow_128_lt_frModulus : 2 ^ 128 < frModulus := by decide

/-- The field order is larger than every 20-byte number. -/
theorem pow_160_lt_frModulus : 256 ^ 20 < frModulus := by decide

/-- The field order fits into 32 bytes. -/
theorem frModulus_lt : frModulus < 256 ^ 32 := by decide

/-- A number below the field order is the value of its field element. -/
theorem Fr.val_natCast {n : ℕ} (h : n < frModulus) : (n : Fr).val = n :=
  ZMod.val_cast_of_lt h

/-- Subtraction of field elements in order does not wrap. -/
theorem Fr.val_sub_of_le {x y : Fr} (h : y.val ≤ x.val) : (x - y).val = x.val - y.val :=
  ZMod.val_sub h

/-- A 256-bit value as two 128-bit halves. -/
structure HiLo (T : Type) where
  hi : T
  lo : T
deriving DecidableEq

namespace HiLo

/-- The halves in the order in which they are exposed. -/
def hiLo {T : Type} (x : HiLo T) : List T :=
  [x.hi, x.lo]

/-- The halves of a 256-bit digest as field elements. -/
def ofDigest (digest : BitVec 256) : HiLo Fr where
  hi := (digest.toNat / 2 ^ 128 : ℕ)
  lo := (digest.toNat % 2 ^ 128 : ℕ)

/-- The high half of a digest. -/
theorem val_hi_ofDigest (digest : BitVec 256) :
    (ofDigest digest).hi.val = digest.toNat / 2 ^ 128 := by
  refine Fr.val_natCast (lt_trans ?_ pow_128_lt_frModulus)
  have := digest.isLt
  omega

/-- The low half of a digest. -/
theorem val_lo_ofDigest (digest : BitVec 256) :
    (ofDigest digest).lo.val = digest.toNat % 2 ^ 128 :=
  Fr.val_natCast (lt_trans (Nat.mod_lt _ (by decide)) pow_128_lt_frModulus)

/-- A digest is determined by its halves. -/
theorem ofDigest_injective {a b : BitVec 256} (h : ofDigest a = ofDigest b) : a = b := by
  have hhi := congrArg (fun x : HiLo Fr => x.hi.val) h
  have hlo := congrArg (fun x : HiLo Fr => x.lo.val) h
  simp only [val_hi_ofDigest, val_lo_ofDigest] at hhi hlo
  refine BitVec.eq_of_toNat_eq ?_
  rw [← Nat.div_add_mod a.toNat (2 ^ 128), hhi, hlo, Nat.div_add_mod]

end HiLo

/-- What the Groth16 gadget reads. -/
structure Groth16VerifierInput where
  vk : List Fr
  proof : List Fr
  numPublicInputs : Fr
  publicInputs : List Fr
deriving DecidableEq

/-- What a circuit is built with: the number of bits of the range chip's lookup table, the hash
function behind the keccak chip, and the success flag that the Groth16 gadget computes for given
limbs and maximal number of public inputs. -/
structure Chips where
  lookupBits : ℕ
  keccak256 : List UInt8 → BitVec 256
  handleSingleGroth16verify :
    Groth16VerifierInput → (limbBits numLimbs maxPi : ℕ) → HiLo Fr

/-- Gadgets whose advice values are byte strings. -/
abbrev Circuit := Synth (List UInt8)

/-- `1 << k` for an unsigned integer of this width; a shift by the width or more panics. -/
def oneShl (width k : ℕ) : Option ℕ :=
  if k < width then some (2 ^ k) else none

/-- A shift within the width. -/
theorem oneShl_eq {width k : ℕ} (h : k < width) : oneShl width k = some (2 ^ k) :=
  if_pos h

/-- A shift that does not panic is a power of two. -/
theorem oneShl_eq_some {width k n : ℕ} : oneShl width k = some n ↔ k < width ∧ n = 2 ^ k := by
  unfold oneShl
  split <;> simp [*, eq_comm]

/-! ## Range and gate gadgets -/

/-- `a` has at most this many bits. -/
def rangeCheck (a : Fr) (rangeBits : ℕ) : Circuit Unit :=
  require (a.val < 2 ^ rangeBits)

/-- `a < b`, for operands that have been range checked. -/
def checkLessThan (a b : Fr) : Circuit Unit :=
  require (a.val < b.val)

/-- The bits of the range check in front of a comparison with `b`: those of `b`, rounded up to
the lookup table. -/
def rangeBits (lookupBits b : ℕ) : ℕ :=
  (b.size + lookupBits - 1) / lookupBits * lookupBits

/-- `a < b` for a constant `b`. -/
def checkLessThanSafe (lookupBits : ℕ) (a : Fr) (b : ℕ) : Circuit Unit := do
  rangeCheck a (rangeBits lookupBits b)
  require (a.val < b)

/-- The indicator of `a < b` for a constant `b`. -/
def isLessThanSafe (lookupBits : ℕ) (a : Fr) (b : ℕ) : Circuit Fr := do
  rangeCheck a (rangeBits lookupBits b)
  return if a.val < b then 1 else 0

/-- The indicator of equality. -/
def isEqual (a b : Fr) : Fr :=
  if a = b then 1 else 0

/-- Disjunction of indicators. -/
def gateOr (a b : Fr) : Fr :=
  a + b - a * b

/-- `a` if the indicator is one, `b` if it is zero. -/
def select (a b sel : Fr) : Fr :=
  (a - b) * sel + b

/-- Two assigned values are equal. -/
def constrainEqual (a b : Fr) : Circuit Unit :=
  require (a = b)

/-- An assigned value is a constant. -/
def assertIsConst (a constant : Fr) : Circuit Unit :=
  require (a = constant)

/-- The mask whose entry `i` indicates `i < numProofs`. -/
def unsafeLtMask (numProofs : Fr) (len : ℕ) : List Fr :=
  (List.range len).map fun i => if i < numProofs.val then 1 else 0

/-- Big-endian bytes of an assigned value. The prover chooses `n` bytes whose value is congruent
to the field element. -/
def uintToBytesBe (input : Fr) (numBytes : ℕ) : Circuit (List UInt8) := do
  -- nothing compares the bytes with the field order
  let bytes ← advise (BigEndian.toBytes numBytes input.val)
  require (bytes.length = numBytes ∧ (BigEndian.ofBytes bytes : Fr) = input)
  return bytes

/-- The digest of the assigned bytes, as two halves. -/
def keccakFixedLen (keccak256 : List UInt8 → BitVec 256) (bytes : List UInt8) : HiLo Fr :=
  HiLo.ofDigest (keccak256 bytes)

@[simp] theorem select_one (a b : Fr) : select a b 1 = a := by
  simp [select]

@[simp] theorem select_zero (a b : Fr) : select a b 0 = b := by
  simp [select]

@[simp] theorem gateOr_one (a : Fr) : gateOr a 1 = 1 := by
  simp [gateOr]

@[simp] theorem gateOr_zero (a : Fr) : gateOr a 0 = a := by
  simp [gateOr]

@[simp] theorem length_unsafeLtMask (numProofs : Fr) (len : ℕ) :
    (unsafeLtMask numProofs len).length = len := by
  simp [unsafeLtMask]

/-- Zero and one differ in the scalar field. -/
theorem Fr.zero_ne_one : (0 : Fr) ≠ 1 := by decide

/-- An equality indicator is one exactly when the operands are equal. -/
theorem isEqual_eq_one {a b : Fr} : isEqual a b = 1 ↔ a = b := by
  unfold isEqual
  split
  · simp [*]
  · simp [*, Fr.zero_ne_one]

/-! ## What the gadgets guarantee -/

/-- A comparison with a constant. -/
theorem sound_checkLessThanSafe {lookupBits : ℕ} {a : Fr} {b : ℕ} :
    Sound (checkLessThanSafe lookupBits a b) fun _ => a.val < b :=
  Sound.require.bind fun _ _ => .require

/-- A comparison with a constant is satisfied when it holds and the range check admits it. -/
theorem honest_checkLessThanSafe {lookupBits : ℕ} {a : Fr} {b : ℕ} (hlt : a.val < b)
    (hbits : a.val < 2 ^ rangeBits lookupBits b) :
    Honest (checkLessThanSafe lookupBits a b) () :=
  (Honest.require hbits).bind (.require hlt)

/-- The indicator of a comparison with a constant. -/
theorem sound_isLessThanSafe {lookupBits : ℕ} {a : Fr} {b : ℕ} :
    Sound (isLessThanSafe lookupBits a b) fun ind => ind = if a.val < b then 1 else 0 :=
  Sound.require.bind fun _ _ => .pure rfl

/-- The indicator of a comparison is defined when the range check admits the operand. -/
theorem honest_isLessThanSafe {lookupBits : ℕ} {a : Fr} {b : ℕ}
    (hbits : a.val < 2 ^ rangeBits lookupBits b) :
    Honest (isLessThanSafe lookupBits a b) (if a.val < b then 1 else 0) :=
  (Honest.require hbits).bind (.pure _)

/-- The bytes are some decomposition of the field element. -/
def BytesOf (numBytes : ℕ) (input : Fr) (bytes : List UInt8) : Prop :=
  bytes.length = numBytes ∧ (BigEndian.ofBytes bytes : Fr) = input

instance (numBytes : ℕ) (input : Fr) (bytes : List UInt8) :
    Decidable (BytesOf numBytes input bytes) :=
  inferInstanceAs (Decidable (_ ∧ _))

/-- The bytes denote a number below the field order. -/
def Canonical (bytes : List UInt8) : Prop :=
  BigEndian.ofBytes bytes < frModulus

/-- A decomposition into canonical bytes is the honest one. -/
theorem BytesOf.eq_toBytes {numBytes : ℕ} {input : Fr} {bytes : List UInt8}
    (h : BytesOf numBytes input bytes) (hcanonical : Canonical bytes) :
    bytes = BigEndian.toBytes numBytes input.val := by
  rw [← h.2, Fr.val_natCast hcanonical]
  exact BigEndian.eq_toBytes h.1

/-- The honest bytes are canonical. -/
theorem canonical_toBytes (numBytes : ℕ) (input : Fr) :
    Canonical (BigEndian.toBytes numBytes input.val) := by
  rw [Canonical, BigEndian.ofBytes_toBytes_mod]
  exact lt_of_le_of_lt (Nat.mod_le _ _) input.val_lt

/-- Bytes too few to hold the field order are canonical. -/
theorem BytesOf.canonical {numBytes : ℕ} {input : Fr} {bytes : List UInt8}
    (h : BytesOf numBytes input bytes) (hfits : 256 ^ numBytes ≤ frModulus) : Canonical bytes :=
  lt_of_lt_of_le (h.1 ▸ BigEndian.ofBytes_lt bytes) hfits

/-- Canonical bytes of an element show that the element fits. -/
theorem BytesOf.val_lt {numBytes : ℕ} {input : Fr} {bytes : List UInt8}
    (h : BytesOf numBytes input bytes) (hfits : 256 ^ numBytes ≤ frModulus) :
    input.val < 256 ^ numBytes := by
  rw [← h.2, Fr.val_natCast (h.canonical hfits)]
  exact h.1 ▸ BigEndian.ofBytes_lt bytes

/-- A decomposition reads one advice value, which has the right length and, in the field, the
right value. -/
theorem tracks_uintToBytesBe {input : Fr} {numBytes : ℕ} :
    Tracks (uintToBytesBe input numBytes) fun used bytes =>
      used = [bytes] ∧ BytesOf numBytes input bytes := by
  refine Tracks.advise.bind fun used bytes hused => ?_
  refine Tracks.require.bind fun _ _ h => .pure ?_
  simp [hused, h.1, BytesOf, h.2]

/-- Every decomposition of the right length and value can be supplied. -/
theorem replays_uintToBytesBe {input : Fr} {numBytes : ℕ} {bytes : List UInt8}
    (h : BytesOf numBytes input bytes) :
    Replays (uintToBytesBe input numBytes) [bytes] bytes := by
  have hconstraint : bytes.length = numBytes ∧ (BigEndian.ofBytes bytes : Fr) = input := h
  exact (Replays.advise _ bytes).bind ((Replays.require hconstraint).bind (.pure bytes))

/-- The honest prover assigns the canonical bytes of an element that fits. -/
theorem honest_uintToBytesBe {input : Fr} {numBytes : ℕ} (hfits : input.val < 256 ^ numBytes) :
    Honest (uintToBytesBe input numBytes) (BigEndian.toBytes numBytes input.val) := by
  refine (Honest.advise _).bind ((Honest.require ?_).bind (.pure _))
  rw [BigEndian.ofBytes_toBytes hfits]
  exact ⟨BigEndian.length_toBytes _ _, ZMod.natCast_zmod_val input⟩

/-- Every field element has 32 bytes. -/
theorem Fr.val_lt_32 (x : Fr) : x.val < 256 ^ 32 :=
  x.val_lt.trans frModulus_lt

end WorldcoinAggregation
