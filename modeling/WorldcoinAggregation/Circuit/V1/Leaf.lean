import WorldcoinAggregation.Circuit.Utils

/-!
# The V1 leaf circuit

A leaf circuit of depth `maxDepth` verifies `2 ^ maxDepth` Groth16 proofs against one verifying
key and one root, and covers the claims `start` to `end_` of a batch. `LeafConstraints` says
what its constraints are worth; the V2 leaf shares them.
-/

namespace WorldcoinAggregation

open Synthesis

/-- A claim as the circuits see it. -/
structure ClaimInput where
  receiver : Fr
  nullifierHash : Fr
  grantId : Fr
  proofBytes : List Fr

/-- The witness of a leaf circuit. -/
structure WorldcoinLeafInput where
  start : Fr
  end_ : Fr
  vkBytes : List Fr
  root : Fr
  claims : List ClaimInput
  numPublicInputs : Fr
  maxDepth : ℕ

/-- `start < end_ < 2 ^ 64`, and between one and `2 ^ maxDepth` claims are covered. -/
def constrainRange (start end_ : Fr) (maxDepth : ℕ) : Circuit Unit := do
  rangeCheck start 64
  rangeCheck end_ 64
  checkLessThan start end_
  -- no underflow, because the bounds are in order
  let numProofs := end_ - start
  let maxProofs ← lift (oneShl 64 maxDepth)
  let maxProofsPlusOne := (maxProofs : Fr) + 1
  rangeCheck numProofs 64
  checkLessThan numProofs maxProofsPlusOne

/-- The Groth16 gadget's input for a claim. -/
def ClaimInput.groth16VerifierInput (vk : List Fr) (numPublicInputs root : Fr)
    (claim : ClaimInput) : Groth16VerifierInput where
  vk := vk
  proof := claim.proofBytes
  numPublicInputs := numPublicInputs
  publicInputs := [root, claim.nullifierHash, claim.receiver, claim.grantId]

/-- The Groth16 proof of a claim verifies. -/
def verifyClaim (chips : Chips) (vk : List Fr) (numPublicInputs root : Fr) (claim : ClaimInput) :
    Circuit Unit := do
  let success := chips.handleSingleGroth16verify
    (claim.groth16VerifierInput vk numPublicInputs root) limbBits numLimbs maxGroth16Pi
  constrainEqual success.hi 0
  constrainEqual success.lo 1

/-- The constraints of a leaf before its claims; yields the hash of the verifying key. -/
def WorldcoinLeafInput.constrainShared (chips : Chips) (input : WorldcoinLeafInput) :
    Circuit (HiLo Fr) := do
  constrainRange input.start input.end_ input.maxDepth
  require (input.vkBytes.length = numFeHiloVkey)
  getVkHash chips.keccak256 input.vkBytes

/-- The V1 leaf circuit. Its instances are
`[start, end_, vkHashHi, vkHashLo, root] ++ grantIds ++ receivers ++ nullifierHashes`. -/
def WorldcoinLeafInput.virtualAssignPhase0 (chips : Chips) (input : WorldcoinLeafInput) :
    Circuit (List Fr) := do
  let vkHash ← input.constrainShared chips
  let _ ← input.claims.mapM (verifyClaim chips input.vkBytes input.numPublicInputs input.root)
  let grantIds := input.claims.map ClaimInput.grantId
  let receivers := input.claims.map ClaimInput.receiver
  let nullifierHashes := input.claims.map ClaimInput.nullifierHash
  return [input.start, input.end_] ++ vkHash.hiLo ++ [input.root] ++ grantIds ++ receivers ++
    nullifierHashes

/-! ## What a leaf guarantees -/

/-- The Groth16 gadget accepts the proof of a claim. -/
def ClaimInput.Accepted (chips : Chips) (vk : List Fr) (numPublicInputs root : Fr)
    (claim : ClaimInput) : Prop :=
  chips.handleSingleGroth16verify (claim.groth16VerifierInput vk numPublicInputs root)
    limbBits numLimbs maxGroth16Pi = ⟨0, 1⟩

/-- What the constraints of a leaf circuit say about its witness. -/
structure LeafConstraints (chips : Chips) (input : WorldcoinLeafInput) : Prop where
  start_lt : input.start.val < input.end_.val
  end_lt : input.end_.val < 2 ^ 64
  depth_lt : input.maxDepth < 64
  count_le : input.end_.val - input.start.val ≤ 2 ^ input.maxDepth
  vk_length : input.vkBytes.length = numFeHiloVkey
  accepted : ∀ claim ∈ input.claims,
    claim.Accepted chips input.vkBytes input.numPublicInputs input.root

/-- A power of two that fits into 64 bits, plus one, is far below the field order. -/
theorem val_two_pow_add_one {k : ℕ} (hk : k < 64) : (((2 ^ k : ℕ) : Fr) + 1).val = 2 ^ k + 1 := by
  have hlt : 2 ^ k + 1 < frModulus := by
    have hpow : 2 ^ k ≤ 2 ^ 63 := Nat.pow_le_pow_right (by omega) (by omega)
    have hfield := pow_128_lt_frModulus
    omega
  rw [← Nat.cast_one, ← Nat.cast_add]
  exact Fr.val_natCast hlt

/-- The range constraints mean that the interval is not empty and fits the circuit. -/
theorem tracks_constrainRange {start end_ : Fr} {maxDepth : ℕ} :
    Tracks (constrainRange start end_ maxDepth) fun used _ => used = [] ∧
      start.val < end_.val ∧ end_.val < 2 ^ 64 ∧ maxDepth < 64 ∧
      end_.val - start.val ≤ 2 ^ maxDepth := by
  refine Tracks.require.bind fun _ _ ⟨h₁, _⟩ => ?_
  refine Tracks.require.bind fun _ _ ⟨h₂, hend⟩ => ?_
  refine Tracks.require.bind fun _ _ ⟨h₃, hlt⟩ => ?_
  refine Tracks.lift.bind fun _ maxProofs ⟨h₄, hshift⟩ => ?_
  refine Tracks.require.bind fun _ _ ⟨h₅, _⟩ => ?_
  refine Tracks.require.mono fun _ _ ⟨h₆, hcount⟩ => ?_
  obtain ⟨hdepth, rfl⟩ := oneShl_eq_some.mp hshift
  rw [val_two_pow_add_one hdepth, Fr.val_sub_of_le hlt.le] at hcount
  subst h₁ h₂ h₃ h₄ h₅ h₆
  exact ⟨rfl, hlt, hend, hdepth, by omega⟩

/-- The range constraints can be satisfied by every interval that fits the circuit. -/
theorem honest_constrainRange {start end_ : Fr} {maxDepth : ℕ} (hlt : start.val < end_.val)
    (hend : end_.val < 2 ^ 64) (hdepth : maxDepth < 64)
    (hcount : end_.val - start.val ≤ 2 ^ maxDepth) :
    Honest (constrainRange start end_ maxDepth) () := by
  refine (Honest.require (hlt.trans hend)).bind ?_
  refine (Honest.require hend).bind ((Honest.require hlt).bind ?_)
  refine (Honest.lift (oneShl_eq hdepth)).bind ?_
  refine (Honest.require ?_).bind (Honest.require ?_)
  · rw [Fr.val_sub_of_le hlt.le]
    omega
  · rw [val_two_pow_add_one hdepth, Fr.val_sub_of_le hlt.le]
    omega

/-- A verified claim was accepted. -/
theorem tracks_verifyClaim {chips : Chips} {vk : List Fr} {numPublicInputs root : Fr}
    {claim : ClaimInput} :
    Tracks (verifyClaim chips vk numPublicInputs root claim) fun used _ =>
      used = [] ∧ claim.Accepted chips vk numPublicInputs root := by
  refine Tracks.require.bind fun _ _ ⟨h₁, hhi⟩ => ?_
  refine Tracks.require.mono fun _ _ ⟨h₂, hlo⟩ => ?_
  subst h₁ h₂
  refine ⟨rfl, ?_⟩
  rw [ClaimInput.Accepted, ← hhi, ← hlo]

/-- An accepted claim is verified. -/
theorem honest_verifyClaim {chips : Chips} {vk : List Fr} {numPublicInputs root : Fr}
    {claim : ClaimInput} (h : claim.Accepted chips vk numPublicInputs root) :
    Honest (verifyClaim chips vk numPublicInputs root claim) () := by
  rw [ClaimInput.Accepted] at h
  refine (Honest.require ?_).bind (Honest.require ?_)
  · rw [h]
  · rw [h]

/-- The hash of the verifying key that a leaf exposes, for given words of the key. -/
def vkHashOf (keccak256 : List UInt8 → BitVec 256) (words : List (List UInt8)) : HiLo Fr :=
  HiLo.ofDigest (keccak256 words.flatten)

/-- The constraints in front of the claims. -/
theorem WorldcoinLeafInput.tracks_constrainShared {chips : Chips} {input : WorldcoinLeafInput} :
    Tracks (input.constrainShared chips) fun used vkHash =>
      (input.start.val < input.end_.val ∧ input.end_.val < 2 ^ 64 ∧ input.maxDepth < 64 ∧
        input.end_.val - input.start.val ≤ 2 ^ input.maxDepth) ∧
      input.vkBytes.length = numFeHiloVkey ∧ WordsOf input.vkBytes used ∧
      vkHash = vkHashOf chips.keccak256 used := by
  refine tracks_constrainRange.bind fun _ _ ⟨h₁, hrange⟩ => ?_
  refine Tracks.require.bind fun _ _ ⟨h₂, hlen⟩ => ?_
  refine tracks_getVkHash.mono fun used vkHash ⟨hwords, hhash⟩ => ?_
  subst h₁ h₂
  exact ⟨hrange, hlen, hwords, hhash⟩

/-- The constraints in front of the claims can be satisfied by the honest prover. -/
theorem WorldcoinLeafInput.honest_constrainShared {chips : Chips} {input : WorldcoinLeafInput}
    (h : LeafConstraints chips input) :
    Honest (input.constrainShared chips)
      (vkHashOf chips.keccak256 (canonicalWords input.vkBytes)) := by
  refine (honest_constrainRange h.start_lt h.end_lt h.depth_lt h.count_le).bind ?_
  exact (Honest.require h.vk_length).bind (honest_getVkHash h.vk_length)

/-- The constraints in front of the claims can be satisfied with any words of the key. -/
theorem WorldcoinLeafInput.replays_constrainShared {chips : Chips} {input : WorldcoinLeafInput}
    {words : List (List UInt8)} (h : LeafConstraints chips input)
    (hwords : WordsOf input.vkBytes words) :
    Replays (input.constrainShared chips) words (vkHashOf chips.keccak256 words) := by
  have hrange := (honest_constrainRange h.start_lt h.end_lt h.depth_lt h.count_le).replays_nil
    (tracks_constrainRange.mono fun _ _ hused => hused.1)
  exact hrange.bind ((Replays.require h.vk_length).bind (replays_getVkHash h.vk_length hwords))

/-- The instances of a V1 leaf whose verifying key has this hash. -/
def WorldcoinLeafInput.instances (input : WorldcoinLeafInput) (vkHash : HiLo Fr) : List Fr :=
  [input.start, input.end_] ++ vkHash.hiLo ++ [input.root] ++ input.claims.map ClaimInput.grantId ++
    input.claims.map ClaimInput.receiver ++ input.claims.map ClaimInput.nullifierHash

/-- Verifying the claims reads nothing, and all of them were accepted. -/
theorem tracks_verifyClaims {chips : Chips} {vk : List Fr} {numPublicInputs root : Fr}
    (claims : List ClaimInput) :
    Tracks (claims.mapM (verifyClaim chips vk numPublicInputs root)) fun used _ =>
      used = [] ∧ ∀ claim ∈ claims, claim.Accepted chips vk numPublicInputs root := by
  refine (Tracks.mapM fun claim _ => tracks_verifyClaim).mono ?_
  rintro used outs ⟨pieces, rfl, -, hpieces⟩
  induction hpieces with
  | nil => simp
  | cons h _ ih => simpa [h.1, h.2] using ih

/-- A satisfied V1 leaf meets its constraints and exposes its claims. It reads the words of its
verifying key. -/
theorem WorldcoinLeafInput.tracks_virtualAssignPhase0 {chips : Chips}
    {input : WorldcoinLeafInput} :
    Tracks (input.virtualAssignPhase0 chips) fun used out => LeafConstraints chips input ∧
      WordsOf input.vkBytes used ∧ out = input.instances (vkHashOf chips.keccak256 used) := by
  refine tracks_constrainShared.bind fun words vkHash ⟨hrange, hlen, hwords, hhash⟩ => ?_
  refine (tracks_verifyClaims _).bind fun _ _ ⟨hused, haccepted⟩ => .pure ?_
  obtain ⟨hlt, hend, hdepth, hcount⟩ := hrange
  subst hused
  rw [List.append_nil, List.append_nil, hhash]
  exact ⟨⟨hlt, hend, hdepth, hcount, hlen, haccepted⟩, hwords, rfl⟩

/-- The honest prover satisfies a V1 leaf that meets its constraints. -/
theorem WorldcoinLeafInput.honest_virtualAssignPhase0 {chips : Chips}
    {input : WorldcoinLeafInput} (h : LeafConstraints chips input) :
    Honest (input.virtualAssignPhase0 chips)
      (input.instances (vkHashOf chips.keccak256 (canonicalWords input.vkBytes))) := by
  have hclaims := Honest.mapM fun claim hmem => honest_verifyClaim (h.accepted claim hmem)
  exact (honest_constrainShared h).bind (hclaims.bind (.pure _))

/-- Any words of the key can be supplied to a V1 leaf that meets its constraints. -/
theorem WorldcoinLeafInput.replays_virtualAssignPhase0 {chips : Chips}
    {input : WorldcoinLeafInput} {words : List (List UInt8)} (h : LeafConstraints chips input)
    (hwords : WordsOf input.vkBytes words) :
    Replays (input.virtualAssignPhase0 chips) words
      (input.instances (vkHashOf chips.keccak256 words)) := by
  have hclaims := (Honest.mapM fun claim hmem =>
    honest_verifyClaim (h.accepted claim hmem)).replays_nil
      ((tracks_verifyClaims _).mono fun _ _ hused => hused.1)
  exact Replays.of_eq ((replays_constrainShared h hwords).bind (hclaims.bind (.pure _))) (by simp)

end WorldcoinAggregation
