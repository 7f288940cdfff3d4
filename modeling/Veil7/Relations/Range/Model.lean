import Veil7.Core.Checked
import Veil7.Library.Bits
import Veil7.Library.Keccak
import Veil7.Relations.Statements

/-!
# The Range Relation

`relations/range_proof.rs`: a value is committed to bit by bit, as its offset
from the lower end of the range, and the proof opens the commitments.

The prover never branches on the value. It always makes a full proof, and for
a value out of range it spoils the first nonce with a mask, so that the first
commitment no longer opens. The verifier checks every opening, puts the bits
together and checks that the offset, added to the lower end with an addition
that clamps, stays below the upper end.

The number of bits never exceeds 64 (`numBits_le`), so the prover's shifts stay
in range. The verifier takes the number from the statement, and there a shift
can be too long: with more than 64 commitments it panics (`verify_returns_iff`).

## Main definitions

* `Witness`, `Proof`: The secret value with its range, and the openings.
* `bitCommitment`: The commitment to one bit.
* `statementFromWitness`, `prove`, `verify`: The three functions of the
  relation.

## Theorems

* `numBits_le`, `lt_two_pow_numBits`: The width fits a word and the range.
* `val_checkBits`: What the verifier's loop computes.
* `accepts_iff`: When the verifier accepts.
* `checkBits_panics`, `verify_returns_iff`: When the verifier returns at all.
-/

namespace Veil7

namespace RangeProof

structure Witness where
  value : UInt64
  min : UInt64
  max : UInt64
deriving DecidableEq

structure Proof where
  bits : Bytes
  nonces : List (Block 32)
deriving DecidableEq

/-- The string hashed into the commitment to a bit. -/
def bitString (bit : UInt8) (nonce : Block 32) : Bytes :=
  [Domain.rangeBit, [bit &&& 1], nonce.toList].flatten

def bitCommitment (X : Xof) (bit : UInt8) (nonce : Block 32) : Hashing (Block 32) :=
  h32 X [Domain.rangeBit, [bit &&& 1], nonce.toList]

/-- How many bits the offset is cut into. -/
def numBits (witness : Witness) : Nat :=
  let range := saturatingSub witness.max witness.min
  let numBits := if range = 0 then 1 else 64 - leadingZeros range
  Nat.min numBits 64

/-- `value.wrapping_sub(min)`. -/
def offset (witness : Witness) : UInt64 := witness.value - witness.min

/-- `((offset >> i) & 1) as u8`. -/
def offsetBit (witness : Witness) (i : Nat) : UInt8 :=
  ((offset witness >>> UInt64.ofNat i) &&& 1).toUInt8

section

variable (X : Xof)

/-- The nonce of a bit, derived from the value and the bit's position. -/
def bitNonce (witness : Witness) (i : Nat) : Hashing (Block 32) :=
  h32 X [ascii "veil7:range:nonce", u64Bytes witness.value.toNat, u64Bytes i,
    u64Bytes witness.min.toNat]

def statementFromWitness (witness : Witness) : Hashing Statement := do
  let commitments ← (List.range (numBits witness)).mapM fun i => do
    let nonce ← bitNonce X witness i
    bitCommitment X (offsetBit witness i) nonce
  pure { commitments := commitments, min := witness.min, max := witness.max }

/-- `nonce[0] ^= corrupt`. -/
def spoil (corrupt : UInt8) (nonce : Block 32) : Block 32 :=
  nonce.set 0 (nonce.get 0 ^^^ corrupt)

/-- The first nonce, if there is one, is spoiled. -/
def spoilFirst (corrupt : UInt8) : List (Block 32) → List (Block 32)
  | first :: rest => spoil corrupt first :: rest
  | [] => []

/-- `0x00` for a value in range and `0xFF` for one outside. -/
def corruption (witness : Witness) : UInt8 :=
  let inRangeLo : UInt8 := if witness.min ≤ witness.value then 1 else 0
  let inRangeHi : UInt8 := if witness.value ≤ witness.max then 1 else 0
  (inRangeLo &&& inRangeHi) - 1

def prove (witness : Witness) : Hashing (Except VeilError (Statement × Proof)) := do
  let stmt ← statementFromWitness X witness
  let numBits := stmt.commitments.length
  let bits := (List.range numBits).map (offsetBit witness)
  -- The nonces are derived a second time, as they were for the statement.
  let nonces ← (List.range numBits).mapM (bitNonce X witness)
  let nonces := spoilFirst (corruption witness) nonces
  pure (.ok (stmt, { bits := bits, nonces := nonces }))

/-- The verifier's loop over the bits, walking the three lists in step; their
    lengths have been compared before. -/
def checkBits : List (Block 32) → Bytes → List (Block 32) → Nat → Choice → UInt64 →
    Checked (Choice × UInt64)
  | commitment :: commitments, b :: bits, nonce :: nonces, i, ok, reconstructed => do
    let bit := b &&& 1
    let recomputed ← ExceptT.lift (bitCommitment X bit nonce)
    let ok := ok && decide (recomputed = commitment)
    let shifted ← Checked.of (shl64 bit.toUInt64 i)
    checkBits commitments bits nonces (i + 1) ok (reconstructed ||| shifted)
  | _, _, _, _, ok, reconstructed => pure (ok, reconstructed)

def verify (stmt : Statement) (proof : Proof) : Checked (Except VeilError Choice) := do
  let numBits := stmt.commitments.length
  if proof.bits.length ≠ numBits ∨ proof.nonces.length ≠ numBits then pure (.ok false)
  else do
    let (ok, reconstructed) ← checkBits X stmt.commitments proof.bits proof.nonces 0 true 0
    -- The addition clamps at the largest number.
    let value := saturatingAdd reconstructed stmt.min
    let inRange := decide (stmt.min ≤ value) && decide (value ≤ stmt.max)
    pure (.ok (ok && inRange))

/-- The verdict of a run of the verifier. -/
def Accepts (stmt : Statement) (proof : Proof) : Prop :=
  (verify X stmt proof).run.val = .ok (.ok true)

instance (stmt : Statement) (proof : Proof) : Decidable (Accepts X stmt proof) :=
  inferInstanceAs (Decidable (_ = _))

end

/-! ### The width -/

theorem numBits_eq (witness : Witness) :
    numBits witness = bitWidth (witness.max.toNat - witness.min.toNat) := by
  have hrange := toNat_saturatingSub witness.max witness.min
  have hle : bitWidth (witness.max.toNat - witness.min.toNat) ≤ 64 :=
    bitWidth_le _ 64 (by omega) (by have := witness.max.toNat_lt; omega)
  unfold numBits
  dsimp only
  by_cases h : saturatingSub witness.max witness.min = 0
  · rw [if_pos h]
    rw [h, UInt64.toNat_zero] at hrange
    rw [← hrange]
    rfl
  · rw [if_neg h, sub_leadingZeros _ h, hrange]
    exact Nat.min_eq_left hle

theorem numBits_pos (witness : Witness) : 0 < numBits witness := by
  rw [numBits_eq]
  exact bitWidth_pos _

theorem numBits_le (witness : Witness) : numBits witness ≤ 64 := Nat.min_le_right _ 64

/-- The range fits the width. -/
theorem lt_two_pow_numBits (witness : Witness) :
    witness.max.toNat - witness.min.toNat < 2 ^ numBits witness := by
  rw [numBits_eq]
  exact lt_two_pow_bitWidth _

/-! ### The verifier's loop -/

/-- The number the lowest bits of some bytes stand for. -/
def bitSum (bits : Bytes) : Nat := Nat.ofDigits 2 (bits.map fun b => (b &&& 1).toNat)

theorem bitSum_nil : bitSum [] = 0 := rfl

theorem bitSum_cons (b : UInt8) (bits : Bytes) :
    bitSum (b :: bits) = (b &&& 1).toNat + 2 * bitSum bits := by
  unfold bitSum
  rw [List.map_cons, Nat.ofDigits_cons]

theorem toNat_and_one_lt (b : UInt8) : (b &&& 1).toNat < 2 := by
  rw [UInt8.toNat_and, UInt8.toNat_one, Nat.and_one_is_mod]
  omega

section

variable (X : Xof)

/-- Bits and nonces open the commitments. -/
def Opens (commitments : List (Block 32)) (bits : Bytes) (nonces : List (Block 32)) : Prop :=
  commitments = List.zipWith (fun b nonce => digest X 32 (bitString b nonce)) bits nonces

instance (commitments : List (Block 32)) (bits : Bytes) (nonces : List (Block 32)) :
    Decidable (Opens X commitments bits nonces) :=
  inferInstanceAs (Decidable (_ = _))

theorem val_bitCommitment (bit : UInt8) (nonce : Block 32) :
    (bitCommitment X bit nonce).val = digest X 32 (bitString bit nonce) :=
  val_h32 X _

theorem bitString_and_one (b : UInt8) (nonce : Block 32) :
    bitString (b &&& 1) nonce = bitString b nonce := by
  unfold bitString
  rw [UInt8.and_assoc, UInt8.and_self]

/-- The loop, from a place with the bits below it collected: it remembers
    whether every commitment opened, and adds the rest of the number. -/
theorem val_checkBits (commitments : List (Block 32)) (bits : Bytes) (nonces : List (Block 32))
    (i : Nat) (ok : Choice) (r : UInt64) (hbits : bits.length = commitments.length)
    (hnonces : nonces.length = commitments.length) (hi : i + commitments.length ≤ 64)
    (hr : r.toNat < 2 ^ i) :
    ∃ r', (checkBits X commitments bits nonces i ok r).run.val
        = .ok (ok && decide (Opens X commitments bits nonces), r') ∧
      r'.toNat = r.toNat + 2 ^ i * bitSum bits := by
  induction commitments generalizing bits nonces i ok r with
  | nil =>
      rw [List.length_nil, List.length_eq_zero_iff] at hbits hnonces
      subst hbits hnonces
      refine ⟨r, ?_, ?_⟩
      · rw [decide_eq_true (show Opens X [] [] [] from rfl), Bool.and_true]
        rfl
      · rw [bitSum_nil, Nat.mul_zero, Nat.add_zero]
  | cons c commitments ih =>
      cases bits with
      | nil => exact absurd hbits (by simp only [List.length_nil, List.length_cons]; omega)
      | cons b bits =>
      cases nonces with
      | nil => exact absurd hnonces (by simp only [List.length_nil, List.length_cons]; omega)
      | cons nonce nonces =>
      simp only [List.length_cons, Nat.add_right_cancel_iff] at hbits hnonces hi
      have hb := toNat_and_one_lt b
      have hword : (b &&& 1).toUInt64.toNat = (b &&& 1).toNat := UInt8.toNat_toUInt64 _
      -- The bit is added at its place, above the bits collected so far.
      have hjoin := toNat_or_shiftLeft r (b &&& 1).toUInt64 i (by omega) hr
        (by rw [hword]; exact hb)
      rw [hword] at hjoin
      have hnext : (r ||| ((b &&& 1).toUInt64 <<< UInt64.ofNat i)).toNat < 2 ^ (i + 1) := by
        rw [hjoin, pow_succ]
        have hle : 2 ^ i * (b &&& 1).toNat ≤ 2 ^ i * 1 := Nat.mul_le_mul_left _ (by omega)
        omega
      rcases ih bits nonces (i + 1)
        (ok && decide ((bitCommitment X (b &&& 1) nonce).val = c)) _ hbits hnonces (by omega) hnext
        with ⟨r', hrun, hr'⟩
      refine ⟨r', ?_, ?_⟩
      · rw [checkBits, Checked.val_run_bind, Checked.val_run_lift, Panic.ok_bind,
          Checked.val_run_bind, Checked.val_run_of, shl64_of_lt _ i (by omega), Panic.ok_bind, hrun,
          Bool.and_assoc, ← Bool.decide_and]
        congr 3
        refine decide_eq_decide.mpr ?_
        unfold Opens
        rw [val_bitCommitment, bitString_and_one, List.zipWith_cons_cons, List.cons.injEq,
          eq_comm (a := c)]
      · rw [hr', hjoin, bitSum_cons, pow_succ]
        ring

/-- A proof fits a statement: one bit and one nonce for every commitment, and
    together they open it. -/
def Fits (stmt : Statement) (proof : Proof) : Prop :=
  (proof.bits.length = stmt.commitments.length ∧
    proof.nonces.length = stmt.commitments.length) ∧
  Opens X stmt.commitments proof.bits proof.nonces

instance (stmt : Statement) (proof : Proof) : Decidable (Fits X stmt proof) :=
  inferInstanceAs (Decidable ((_ ∧ _) ∧ _))

/-- The verifier accepts exactly the fitting proofs whose clamped sum stays
    below the upper end. -/
theorem accepts_iff (stmt : Statement) (proof : Proof) (hlen : stmt.commitments.length ≤ 64) :
    Accepts X stmt proof ↔ Fits X stmt proof ∧
      min (stmt.min.toNat + bitSum proof.bits) (2 ^ 64 - 1) ≤ stmt.max.toNat := by
  unfold Accepts Fits verify
  by_cases hshape : proof.bits.length = stmt.commitments.length ∧
      proof.nonces.length = stmt.commitments.length
  · rw [if_neg (by rw [not_or, not_not, not_not]; exact hshape)]
    rcases val_checkBits X stmt.commitments proof.bits proof.nonces 0 true 0 hshape.1 hshape.2
      (by omega) (by rw [UInt64.toNat_zero]; exact Nat.one_pos) with ⟨r, hrun, hr⟩
    rw [UInt64.toNat_zero, pow_zero, Nat.zero_add, Nat.one_mul] at hr
    rw [Checked.val_run_bind, hrun, Panic.ok_bind]
    have hvalue := toNat_saturatingAdd r stmt.min
    rw [hr, Nat.add_comm] at hvalue
    have hmin := stmt.min.toNat_lt
    -- The lower comparison always holds: clamping never goes below the lower end.
    have hlo : stmt.min ≤ saturatingAdd r stmt.min := by
      rw [UInt64.le_iff_toNat_le, hvalue]
      omega
    simp only [Checked.val_run_pure, Except.ok.injEq, Bool.true_and, Bool.and_eq_true,
      decide_eq_true_eq, hlo, true_and, hshape, and_self, UInt64.le_iff_toNat_le, hvalue]
  · rw [if_pos (by rw [← not_and_or]; exact hshape)]
    simp only [Checked.val_run_pure, Except.ok.injEq, Bool.false_eq_true, hshape, false_and]

/-! ### The shifts -/

/-- From a place where the lists reach past bit 63, the loop comes to a shift by
    the width of the word. -/
theorem checkBits_panics (commitments : List (Block 32)) (bits : Bytes) (nonces : List (Block 32))
    (i : Nat) (ok : Choice) (r : UInt64) (hbits : bits.length = commitments.length)
    (hnonces : nonces.length = commitments.length) (hi : i ≤ 64)
    (hlong : 64 < i + commitments.length) :
    (checkBits X commitments bits nonces i ok r).run.val = .error .arithmeticOverflow := by
  induction commitments generalizing bits nonces i ok r with
  | nil =>
      rw [List.length_nil] at hlong
      omega
  | cons c commitments ih =>
      cases bits with
      | nil => exact absurd hbits (by simp only [List.length_nil, List.length_cons]; omega)
      | cons b bits =>
      cases nonces with
      | nil => exact absurd hnonces (by simp only [List.length_nil, List.length_cons]; omega)
      | cons nonce nonces =>
      simp only [List.length_cons, Nat.add_right_cancel_iff] at hbits hnonces hlong
      rw [checkBits, Checked.val_run_bind, Checked.val_run_lift, Panic.ok_bind,
        Checked.val_run_bind, Checked.val_run_of]
      by_cases hlast : i = 64
      · rw [shl64_of_le _ i (by omega), Panic.error_bind]
      · rw [shl64_of_lt _ i (by omega), Panic.ok_bind]
        exact ih bits nonces (i + 1) _ _ hbits hnonces (by omega) (by omega)

/-- One bit and one nonce for every commitment. -/
def Shaped (stmt : Statement) (proof : Proof) : Prop :=
  proof.bits.length = stmt.commitments.length ∧ proof.nonces.length = stmt.commitments.length

/-- The verifier returns a verdict, and a negative one for a malformed shape. -/
def Returns (stmt : Statement) (proof : Proof) : Prop :=
  (∃ valid, (verify X stmt proof).run.val = .ok (.ok valid)) ∧
  (¬ Shaped stmt proof → (verify X stmt proof).run.val = .ok (.ok false))

section

variable (stmt : Statement) (proof : Proof)

theorem val_verify_of_malformed (h : ¬ Shaped stmt proof) :
    (verify X stmt proof).run.val = .ok (.ok false) := by
  unfold verify
  rw [if_pos (by rw [← not_and_or]; exact h)]
  rfl

theorem exists_val_verify (h : Shaped stmt proof) (hlen : stmt.commitments.length ≤ 64) :
    ∃ valid, (verify X stmt proof).run.val = .ok (.ok valid) := by
  rcases val_checkBits X stmt.commitments proof.bits proof.nonces 0 true 0 h.1 h.2
    (by omega) (by rw [UInt64.toNat_zero]; exact Nat.one_pos) with ⟨r, hrun, -⟩
  unfold verify
  rw [if_neg (by rw [not_or, not_not, not_not]; exact h), Checked.val_run_bind, hrun,
    Panic.ok_bind]
  exact ⟨_, rfl⟩

theorem verify_panics (h : Shaped stmt proof) (hlen : 64 < stmt.commitments.length) :
    (verify X stmt proof).run.val = .error .arithmeticOverflow := by
  unfold verify
  rw [if_neg (by rw [not_or, not_not, not_not]; exact h), Checked.val_run_bind,
    checkBits_panics X _ _ _ 0 true 0 h.1 h.2 (by omega) (by omega), Panic.error_bind]

/-- The verifier returns, exactly if there are at most 64 commitments or the
    shape is malformed. -/
theorem verify_returns_iff :
    Returns X stmt proof ↔ stmt.commitments.length ≤ 64 ∨ ¬ Shaped stmt proof := by
  constructor
  · rintro ⟨⟨valid, hvalid⟩, -⟩
    by_contra hno
    rw [not_or, Nat.not_le, not_not] at hno
    rw [verify_panics X stmt proof hno.2 hno.1] at hvalid
    cases hvalid
  · intro h
    refine ⟨?_, val_verify_of_malformed X stmt proof⟩
    by_cases hshaped : Shaped stmt proof
    · exact exists_val_verify X stmt proof hshaped (h.resolve_right (not_not.mpr hshaped))
    · exact ⟨false, val_verify_of_malformed X stmt proof hshaped⟩

end

end

/-- Sixty-five commitments, opened or not. -/
theorem verify_sixty_five :
    (verify Keccak.shake256
        { commitments := List.replicate 65 (zeros 32), min := 0, max := 0 }
        { bits := List.replicate 65 0, nonces := List.replicate 65 (zeros 32) }).run.val
      = .error .arithmeticOverflow ∧
    ¬ Returns Keccak.shake256
        { commitments := List.replicate 65 (zeros 32), min := 0, max := 0 }
        { bits := List.replicate 65 0, nonces := List.replicate 65 (zeros 32) } := by
  have hpanic := verify_panics Keccak.shake256
    { commitments := List.replicate 65 (zeros 32), min := 0, max := 0 }
    { bits := List.replicate 65 0, nonces := List.replicate 65 (zeros 32) } ⟨by decide, by decide⟩
    (by decide)
  refine ⟨hpanic, ?_⟩
  rintro ⟨⟨valid, hvalid⟩, -⟩
  rw [hpanic] at hvalid
  cases hvalid

end RangeProof

end Veil7
