import WorldcoinAggregation.Base.BigEndian

/-!
# Keccak-256

The permutation Keccak-f[1600] and the sponge with rate 1088 and the original `0x01` padding,
written over a five-by-five array of 64-bit lanes. Nothing is proved about the function here: it
is the concrete hash at which statements about an arbitrary hash function are evaluated.
-/

namespace Keccak

/-- One of the 25 words of the state. -/
abbrev Lane := BitVec 64

/-- Five values in the order of the sheet or plane coordinate. -/
structure Quint (α : Type) where
  (x0 x1 x2 x3 x4 : α)

namespace Quint

variable {α β γ : Type}

/-- Apply a function to each of the five values. -/
def map (f : α → β) : Quint α → Quint β
  | ⟨a, b, c, d, e⟩ => ⟨f a, f b, f c, f d, f e⟩

/-- Combine two quintuples position by position. -/
def zipWith (f : α → β → γ) : Quint α → Quint β → Quint γ
  | ⟨a, b, c, d, e⟩, ⟨a', b', c', d', e'⟩ => ⟨f a a', f b b', f c c', f d d', f e e'⟩

/-- The values as a list. -/
def toList : Quint α → List α
  | ⟨a, b, c, d, e⟩ => [a, b, c, d, e]

end Quint

/-- The lanes with one `y` coordinate, in the order of `x`. -/
abbrev Plane := Quint Lane

/-- The five planes, in the order of `y`. -/
abbrev State := Quint Plane

/-- Lane-wise exclusive or of two planes. -/
def xorPlane : Plane → Plane → Plane :=
  Quint.zipWith (· ^^^ ·)

/-- The all-zero plane. -/
def zeroPlane : Plane := ⟨0, 0, 0, 0, 0⟩

/-- Add the parities of the two neighbouring columns to every lane. -/
def theta (s : State) : State :=
  let c := s.toList.foldr xorPlane zeroPlane
  let d : Plane := ⟨c.x4 ^^^ c.x1.rotateLeft 1, c.x0 ^^^ c.x2.rotateLeft 1,
    c.x1 ^^^ c.x3.rotateLeft 1, c.x2 ^^^ c.x4.rotateLeft 1, c.x3 ^^^ c.x0.rotateLeft 1⟩
  s.map (xorPlane d)

/-- The rotation offsets of `rho`, plane by plane. -/
def rotations : Quint (Quint ℕ) :=
  ⟨⟨0, 1, 62, 28, 27⟩, ⟨36, 44, 6, 55, 20⟩, ⟨3, 10, 43, 25, 39⟩, ⟨41, 45, 15, 21, 8⟩,
    ⟨18, 2, 61, 56, 14⟩⟩

/-- Rotate every lane by its offset. -/
def rho (s : State) : State :=
  s.zipWith (fun plane offsets => plane.zipWith BitVec.rotateLeft offsets) rotations

/-- Move the lane at `(x, y)` to `(y, 2x + 3y)`. -/
def pi (s : State) : State :=
  ⟨⟨s.x0.x0, s.x1.x1, s.x2.x2, s.x3.x3, s.x4.x4⟩, ⟨s.x0.x3, s.x1.x4, s.x2.x0, s.x3.x1, s.x4.x2⟩,
    ⟨s.x0.x1, s.x1.x2, s.x2.x3, s.x3.x4, s.x4.x0⟩, ⟨s.x0.x4, s.x1.x0, s.x2.x1, s.x3.x2, s.x4.x3⟩,
    ⟨s.x0.x2, s.x1.x3, s.x2.x4, s.x3.x0, s.x4.x1⟩⟩

/-- The nonlinear map on one plane. -/
def chiPlane : Plane → Plane
  | ⟨a, b, c, d, e⟩ => ⟨a ^^^ (~~~b &&& c), b ^^^ (~~~c &&& d), c ^^^ (~~~d &&& e),
      d ^^^ (~~~e &&& a), e ^^^ (~~~a &&& b)⟩

/-- Add the round constant to the lane at the origin. -/
def iota (s : State) (constant : Lane) : State :=
  { s with x0 := { s.x0 with x0 := s.x0.x0 ^^^ constant } }

/-- The 24 round constants. -/
def roundConstants : List Lane :=
  [0x0000000000000001, 0x0000000000008082, 0x800000000000808A, 0x8000000080008000,
    0x000000000000808B, 0x0000000080000001, 0x8000000080008081, 0x8000000000008009,
    0x000000000000008A, 0x0000000000000088, 0x0000000080008009, 0x000000008000000A,
    0x000000008000808B, 0x800000000000008B, 0x8000000000008089, 0x8000000000008003,
    0x8000000000008002, 0x8000000000000080, 0x000000000000800A, 0x800000008000000A,
    0x8000000080008081, 0x8000000000008080, 0x0000000080000001, 0x8000000080008008]

/-- One round of the permutation. -/
def round (s : State) (constant : Lane) : State :=
  iota ((pi (rho (theta s))).map chiPlane) constant

/-- The permutation Keccak-f[1600]. -/
def permute (s : State) : State :=
  roundConstants.foldl round s

/-- The number of message bytes absorbed by one permutation. -/
def rateBytes : ℕ := 136

/-- Append `0x01`, zeros and `0x80` up to a multiple of the rate. -/
def pad (message : List UInt8) : List UInt8 :=
  let missing := rateBytes - message.length % rateBytes
  if missing = 1 then message ++ [0x81]
  else message ++ 0x01 :: (List.replicate (missing - 2) 0 ++ [0x80])

/-- A lane from its little-endian bytes. -/
def laneOfBytes (bytes : List UInt8) : Lane :=
  BitVec.ofNat 64 (BigEndian.ofBytes bytes.reverse)

/-- The next five lanes of a block; a block ends inside the fourth plane. -/
def planeOfBytes (block : List UInt8) : Plane :=
  ⟨laneOfBytes (block.take 8), laneOfBytes ((block.drop 8).take 8),
    laneOfBytes ((block.drop 16).take 8), laneOfBytes ((block.drop 24).take 8),
    laneOfBytes ((block.drop 32).take 8)⟩

/-- Absorb one block of `rateBytes` bytes. -/
def absorbBlock (s : State) (block : List UInt8) : State :=
  permute (s.zipWith xorPlane ⟨planeOfBytes block, planeOfBytes (block.drop 40),
    planeOfBytes (block.drop 80), planeOfBytes (block.drop 120), zeroPlane⟩)

/-- Absorb this many blocks of a padded message. -/
def absorb : ℕ → State → List UInt8 → State
  | 0, s, _ => s
  | blocks + 1, s, message =>
      absorb blocks (absorbBlock s (message.take rateBytes)) (message.drop rateBytes)

/-- The 32-byte Keccak-256 digest of a message. -/
def digest (message : List UInt8) : List UInt8 :=
  let padded := pad message
  let s := absorb (padded.length / rateBytes) ⟨zeroPlane, zeroPlane, zeroPlane, zeroPlane,
    zeroPlane⟩ padded
  (s.x0.toList.take 4).flatMap fun lane => (BigEndian.toBytes 8 lane.toNat).reverse

/-- The digest as a 256-bit word, most significant byte first. -/
def keccak256 (message : List UInt8) : BitVec 256 :=
  BitVec.ofNat 256 (BigEndian.ofBytes (digest message))

/-- The digest of the empty message. -/
example : keccak256 [] = 0xc5d2460186f7233c927e7db2dcc703c0e500b653ca82273b7bfad8045d85a470 := by
  decide +kernel

end Keccak
