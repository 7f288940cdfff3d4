import Veil7.Library.Keccak
import Veil7.Relations.Range.Model

/-!
# What an Accepted Range Proof Shows

The verifier adds the opened offset to the lower end of the range with an
addition that clamps at `2^64 - 1`. A sum that leaves the type is therefore
taken for the largest number, and when the upper end is that number the
comparison passes. `verify_sound_iff` says that this is the only way to a
verdict that is wrong about the integers: with a smaller upper end, or with a
sum that fits, an accepted proof opens a value in range.

Honest proofs are not affected. Their offset is the difference of two words,
cut to a width the range fits, so the sum is the value itself; and a value out
of range has its first nonce spoiled, which makes the first opening fail unless
the commitment collides.

## Main definitions

* `InRange`: The witness's value lies in its range.
* `honestStatement`, `honestProof`: What the honest prover returns.
* `Passes`: What decides whether its proof is accepted.

## Theorems

* `verify_sound_iff`: When acceptance proves membership.
* `accepts_past_top`: An accepted proof of a value above the upper end.
* `val_prove`: The honest statement and proof.
* `honest_iff`: Honest proofs decide membership.
* `val_verify_honest`: The verdict of an honest run.
* `passes_iff_inRange`: It is positive exactly in range.
-/

namespace Veil7

namespace RangeProof

section

variable (X : Xof)

/-- Acceptance proves that the opened value lies in the range, exactly if the
    upper end is below the largest word, or the sum fits a word, or the proof
    does not fit the statement and is refused for that. -/
theorem verify_sound_iff (stmt : Statement) (proof : Proof)
    (hlen : stmt.commitments.length ≤ 64) :
    (Accepts X stmt proof →
      stmt.min.toNat ≤ stmt.min.toNat + bitSum proof.bits ∧
        stmt.min.toNat + bitSum proof.bits ≤ stmt.max.toNat) ↔
      stmt.max.toNat < 2 ^ 64 - 1 ∨ stmt.min.toNat + bitSum proof.bits < 2 ^ 64 ∨
        ¬ Fits X stmt proof := by
  have hmax := stmt.max.toNat_lt
  rw [accepts_iff X stmt proof hlen]
  constructor
  · intro h
    by_contra hneg
    rw [not_or, not_or, not_not] at hneg
    rcases hneg with ⟨htop, hsum, hfits⟩
    -- The clamped sum is the upper end itself, so the proof is accepted.
    have hin := (h ⟨hfits, by omega⟩).2
    omega
  · rintro hcond ⟨hfits, hclamped⟩
    refine ⟨Nat.le_add_right _ _, ?_⟩
    rcases hcond with htop | hsum | hnot
    · omega
    · omega
    · exact absurd hfits hnot

end

/-- A statement over the single number `2^64 - 1`, with one commitment to a
    one. -/
def topStatement (X : Xof) : Statement :=
  { commitments := [digest X 32 (bitString 1 (zeros 32))],
    min := UInt64.ofNat (2 ^ 64 - 1), max := UInt64.ofNat (2 ^ 64 - 1) }

/-- Its opening: the offset one. -/
def topProof : Proof := { bits := [1], nonces := [zeros 32] }

theorem fits_top (X : Xof) : Fits X (topStatement X) topProof := ⟨⟨rfl, rfl⟩, rfl⟩

/-- The opened value `2^64` lies above the range, and the proof is accepted. -/
theorem accepts_past_top :
    (topStatement Keccak.shake256).commitments.length ≤ 64 ∧
    Accepts Keccak.shake256 (topStatement Keccak.shake256) topProof ∧
    ¬ (topStatement Keccak.shake256).min.toNat + bitSum topProof.bits
      ≤ (topStatement Keccak.shake256).max.toNat := by
  have hsum : bitSum topProof.bits = 1 := by decide
  have hlen : (topStatement Keccak.shake256).commitments.length ≤ 64 := by
    unfold topStatement
    simp only [List.length_singleton]
    omega
  refine ⟨hlen, (accepts_iff Keccak.shake256 _ _ hlen).mpr ⟨fits_top _, ?_⟩, ?_⟩
  · rw [hsum]
    unfold topStatement
    decide
  · rw [hsum]
    unfold topStatement
    decide

/-- The same commitment in a range of two small numbers. -/
def smallStatement (X : Xof) : Statement :=
  { commitments := [digest X 32 (bitString 1 (zeros 32))], min := 5, max := 6 }

theorem fits_small (X : Xof) : Fits X (smallStatement X) topProof := ⟨⟨rfl, rfl⟩, rfl⟩

/-- There the same opening is accepted and shows a value in range. -/
theorem verify_sound_iff_below_top :
    Accepts Keccak.shake256 (smallStatement Keccak.shake256) topProof ∧
    (smallStatement Keccak.shake256).min.toNat
        ≤ (smallStatement Keccak.shake256).min.toNat + bitSum topProof.bits ∧
      (smallStatement Keccak.shake256).min.toNat + bitSum topProof.bits
        ≤ (smallStatement Keccak.shake256).max.toNat := by
  have hlen : (smallStatement Keccak.shake256).commitments.length ≤ 64 := by
    unfold smallStatement
    rw [List.length_singleton]
    omega
  have haccepts : Accepts Keccak.shake256 (smallStatement Keccak.shake256) topProof :=
    (accepts_iff Keccak.shake256 _ _ hlen).mpr ⟨fits_small _, by
      rw [show bitSum topProof.bits = 1 by decide]
      unfold smallStatement
      decide⟩
  have htop : (smallStatement Keccak.shake256).max.toNat < 2 ^ 64 - 1 := by
    change (6 : UInt64).toNat < 2 ^ 64 - 1
    decide
  exact ⟨haccepts,
    (verify_sound_iff Keccak.shake256 _ topProof hlen).mpr (Or.inl htop) haccepts⟩

/-! ### Honest proofs -/

/-- The value lies in the range. -/
def InRange (witness : Witness) : Prop :=
  witness.min ≤ witness.value ∧ witness.value ≤ witness.max

instance (witness : Witness) : Decidable (InRange witness) :=
  inferInstanceAs (Decidable (_ ∧ _))

theorem corruption_of_inRange (witness : Witness) (h : InRange witness) :
    corruption witness = 0 := by
  unfold corruption
  rw [if_pos h.1, if_pos h.2]
  decide

theorem corruption_of_not_inRange (witness : Witness) (h : ¬ InRange witness) :
    corruption witness = 0xFF := by
  unfold corruption
  by_cases hlo : witness.min ≤ witness.value
  · rw [if_pos hlo, if_neg (fun hhi => h ⟨hlo, hhi⟩)]
    decide
  · rw [if_neg hlo]
    by_cases hhi : witness.value ≤ witness.max
    · rw [if_pos hhi]
      decide
    · rw [if_neg hhi]
      decide

theorem spoil_zero (nonce : Block 32) : spoil 0 nonce = nonce := by
  unfold spoil
  rw [UInt8.xor_zero]
  apply List.Vector.ext
  intro i
  rw [List.Vector.get_set_eq_if]
  by_cases h : 0 = i
  · rw [if_pos h, h]
  · rw [if_neg h]

/-- A spoiled nonce is another one. -/
theorem spoil_ne (nonce : Block 32) : spoil 0xFF nonce ≠ nonce := by
  intro h
  have hfirst := congrArg (fun b : Block 32 => b.get 0) h
  simp only [spoil, List.Vector.get_set_same] at hfirst
  -- Added to itself, the byte would leave the mask alone and be zero.
  have hmask := congrArg (fun b => nonce.get 0 ^^^ b) hfirst
  simp only [← UInt8.xor_assoc, UInt8.xor_self, UInt8.zero_xor] at hmask
  exact absurd hmask (by decide)

theorem toNat_offsetBit_and_one (witness : Witness) (i : Nat) (hi : i < 64) :
    (offsetBit witness i &&& 1).toNat = (offset witness).toNat / 2 ^ i % 2 := by
  have hbit := toNat_shiftRight_and_one (offset witness) i hi
  unfold offsetBit
  rw [UInt8.toNat_and, UInt64.toNat_toUInt8, hbit, UInt8.toNat_one, Nat.and_one_is_mod]
  omega

/-- The bits of a proof stand for the offset, cut to their number. -/
theorem bitSum_offsetBits (witness : Witness) (n : Nat) (hn : n ≤ 64) :
    bitSum ((List.range n).map (offsetBit witness)) = (offset witness).toNat % 2 ^ n := by
  rw [← ofDigits_bitsOf]
  unfold bitSum bitsOf
  rw [List.map_map]
  congr 1
  refine List.map_congr_left (fun i hi => ?_)
  exact toNat_offsetBit_and_one witness i (by have := List.mem_range.mp hi; omega)

section

variable (X : Xof) (witness : Witness)

/-- The commitments of an honest statement. -/
def honestCommitments : List (Block 32) :=
  (List.range (numBits witness)).map fun i =>
    digest X 32 (bitString (offsetBit witness i) (bitNonce X witness i).val)

theorem val_statementFromWitness :
    (statementFromWitness X witness).val
      = { commitments := honestCommitments X witness, min := witness.min, max := witness.max } := by
  rw [statementFromWitness, Queried.val_bind, Queried.val_mapM, Queried.val_pure,
    honestCommitments]
  simp only [Queried.val_bind, val_bitCommitment]

theorem length_honestCommitments : (honestCommitments X witness).length = numBits witness := by
  rw [honestCommitments, List.length_map, List.length_range]

/-- The honest prover's statement and proof. -/
theorem val_prove :
    (prove X witness).val = .ok
      ({ commitments := honestCommitments X witness, min := witness.min, max := witness.max },
        { bits := (List.range (numBits witness)).map (offsetBit witness),
          nonces := spoilFirst (corruption witness)
            ((List.range (numBits witness)).map fun i => (bitNonce X witness i).val) }) := by
  rw [prove, Queried.val_bind, val_statementFromWitness, Queried.val_bind, Queried.val_mapM,
    Queried.val_pure, length_honestCommitments]

/-- The first nonce is the only one that is spoiled, and there is one. -/
theorem spoilFirst_nonces (corrupt : UInt8) :
    spoilFirst corrupt ((List.range (numBits witness)).map fun i => (bitNonce X witness i).val)
      = spoil corrupt (bitNonce X witness 0).val
        :: (List.range (numBits witness - 1)).map fun i => (bitNonce X witness (i + 1)).val := by
  have hpos := numBits_pos witness
  obtain ⟨n, hn⟩ : ∃ n, numBits witness = n + 1 := ⟨numBits witness - 1, by omega⟩
  rw [hn, List.range_succ_eq_map, List.map_cons, List.map_map, Nat.add_sub_cancel]
  rfl

/-- The honest prover always returns a proof. It is accepted for a value in
    range; and if it is accepted, the value is in range, unless the commitment
    to the first bit collides with the one under the spoiled nonce. -/
theorem honest_iff :
    ∃ stmt proof, (prove X witness).val = .ok (stmt, proof) ∧
      (InRange witness → Accepts X stmt proof) ∧
      (CollisionFree (digest X 32)
          [bitString (offsetBit witness 0) (bitNonce X witness 0).val,
            bitString (offsetBit witness 0) (spoil 0xFF (bitNonce X witness 0).val)] →
        Accepts X stmt proof → InRange witness) := by
  refine ⟨_, _, val_prove X witness, fun hin => ?_, fun hcf hacc => ?_⟩
  -- In range: every opening is the one committed to, and the sum is the value.
  · have hbits := numBits_le witness
    refine (accepts_iff X _ _ (by rw [length_honestCommitments]; exact hbits)).mpr
      ⟨⟨⟨?_, ?_⟩, ?_⟩, ?_⟩
    · rw [List.length_map, List.length_range, length_honestCommitments]
    · rw [spoilFirst_nonces, List.length_cons, List.length_map, List.length_range,
        length_honestCommitments]
      have := numBits_pos witness
      omega
    · unfold Opens
      have hnonces := spoilFirst_nonces X witness 0
      rw [corruption_of_inRange witness hin]
      have hsame : spoilFirst 0 ((List.range (numBits witness)).map
          fun i => (bitNonce X witness i).val)
            = (List.range (numBits witness)).map fun i => (bitNonce X witness i).val := by
        cases (List.range (numBits witness)).map fun i => (bitNonce X witness i).val with
        | nil => rfl
        | cons first rest => rw [spoilFirst, spoil_zero]
      rw [hsame, honestCommitments, List.zipWith_map, List.zipWith_self]
    · have hlo := UInt64.le_iff_toNat_le.mp hin.1
      have hhi := UInt64.le_iff_toNat_le.mp hin.2
      have hwidth := lt_two_pow_numBits witness
      have hoffset : (offset witness).toNat = witness.value.toNat - witness.min.toNat :=
        UInt64.toNat_sub_of_le _ _ hin.1
      rw [bitSum_offsetBits witness _ hbits, hoffset, Nat.mod_eq_of_lt (by omega)]
      dsimp only
      omega
  -- Out of range: the first commitment would have two openings.
  · by_contra hout
    have hfits := ((accepts_iff X _ _ (by
      rw [length_honestCommitments]; exact numBits_le witness)).mp hacc).1.2
    unfold Opens honestCommitments at hfits
    dsimp only at hfits
    rw [corruption_of_not_inRange witness hout, spoilFirst_nonces] at hfits
    obtain ⟨n, hn⟩ : ∃ n, numBits witness = n + 1 :=
      ⟨numBits witness - 1, by have := numBits_pos witness; omega⟩
    rw [hn, List.range_succ_eq_map, List.map_cons, List.map_cons, List.zipWith_cons_cons,
      List.cons.injEq] at hfits
    have hstring := CollisionFree.eq_of_pair _ _ _ hcf hfits.1
    unfold bitString at hstring
    simp only [List.flatten_cons, List.flatten_nil, List.append_nil] at hstring
    have hnonce := Block.toList_inj 32 _ _
      (List.append_cancel_left (List.append_cancel_left hstring))
    exact spoil_ne _ hnonce.symm

end

theorem collisionFree_below :
    CollisionFree (digest Keccak.shake256 32)
      [bitString (offsetBit { value := 50, min := 100, max := 200 } 0)
          (bitNonce Keccak.shake256 { value := 50, min := 100, max := 200 } 0).val,
        bitString (offsetBit { value := 50, min := 100, max := 200 } 0)
          (spoil 0xFF (bitNonce Keccak.shake256 { value := 50, min := 100, max := 200 } 0).val)] := by
  decide +kernel

/-- A value below its range is refused, and one at the top of it accepted. -/
theorem honest_iff_below :
    (∃ stmt proof,
      (prove Keccak.shake256 { value := 50, min := 100, max := 200 }).val = .ok (stmt, proof) ∧
        ¬ Accepts Keccak.shake256 stmt proof) ∧
    (∃ stmt proof,
      (prove Keccak.shake256 { value := 200, min := 100, max := 200 }).val = .ok (stmt, proof) ∧
        Accepts Keccak.shake256 stmt proof) := by
  constructor
  · rcases honest_iff Keccak.shake256 { value := 50, min := 100, max := 200 } with
      ⟨stmt, proof, hprove, -, honly⟩
    exact ⟨stmt, proof, hprove, fun hacc => absurd (honly collisionFree_below hacc) (by decide)⟩
  · rcases honest_iff Keccak.shake256 { value := 200, min := 100, max := 200 } with
      ⟨stmt, proof, hprove, hif, -⟩
    exact ⟨stmt, proof, hprove, hif (by decide)⟩

/-! ### The verdict of an honest run -/

section

variable (X : Xof) (witness : Witness)

/-- The proof of the honest prover. -/
def honestProof : Proof :=
  { bits := (List.range (numBits witness)).map (offsetBit witness),
    nonces := spoilFirst (corruption witness)
      ((List.range (numBits witness)).map fun i => (bitNonce X witness i).val) }

/-- The statement of the honest prover. -/
def honestStatement : Statement :=
  { commitments := honestCommitments X witness, min := witness.min, max := witness.max }

/-- What an accepted honest proof comes down to: the first commitment opens
    under the nonce that was spoiled or not, and the offset, cut to the width,
    stays below the upper end. -/
def Passes : Prop :=
  digest X 32 (bitString (offsetBit witness 0) (bitNonce X witness 0).val)
    = digest X 32 (bitString (offsetBit witness 0)
        (spoil (corruption witness) (bitNonce X witness 0).val)) ∧
  min (witness.min.toNat + (offset witness).toNat % 2 ^ numBits witness) (2 ^ 64 - 1)
    ≤ witness.max.toNat

instance : Decidable (Passes X witness) := inferInstanceAs (Decidable (_ ∧ _))

/-- All commitments but the first are opened as they were made. -/
theorem opens_honest_iff (corrupt : UInt8) :
    Opens X (honestCommitments X witness) ((List.range (numBits witness)).map (offsetBit witness))
        (spoilFirst corrupt ((List.range (numBits witness)).map fun i => (bitNonce X witness i).val))
      ↔ digest X 32 (bitString (offsetBit witness 0) (bitNonce X witness 0).val)
          = digest X 32 (bitString (offsetBit witness 0)
              (spoil corrupt (bitNonce X witness 0).val)) := by
  have hpos := numBits_pos witness
  obtain ⟨n, hn⟩ : ∃ n, numBits witness = n + 1 := ⟨numBits witness - 1, by omega⟩
  unfold Opens honestCommitments
  rw [spoilFirst_nonces, hn, Nat.add_sub_cancel, List.range_succ_eq_map, List.map_cons,
    List.map_cons, List.zipWith_cons_cons, List.cons.injEq, List.map_map, List.map_map,
    List.zipWith_map, List.zipWith_self]
  exact and_iff_left rfl

/-- Bits, nonces and commitments of an honest run have one number. -/
theorem shaped_honest : Shaped (honestStatement X witness) (honestProof X witness) := by
  have hpos := numBits_pos witness
  unfold Shaped honestStatement honestProof
  dsimp only
  rw [spoilFirst_nonces, length_honestCommitments, List.length_map, List.length_range,
    List.length_cons, List.length_map, List.length_range]
  exact ⟨rfl, by omega⟩

theorem accepts_honest_iff :
    Accepts X (honestStatement X witness) (honestProof X witness) ↔ Passes X witness := by
  have hbits := numBits_le witness
  have hlen : (honestStatement X witness).commitments.length ≤ 64 := by
    rw [honestStatement, length_honestCommitments]
    exact hbits
  have hshaped := shaped_honest X witness
  unfold Shaped at hshaped
  rw [accepts_iff X _ _ hlen, Fits, and_iff_right hshaped, Passes]
  unfold honestStatement honestProof
  dsimp only
  rw [opens_honest_iff, bitSum_offsetBits witness _ hbits]

/-- The verifier returns on the prover's own proof. -/
theorem val_verify_honest :
    (verify X (honestStatement X witness) (honestProof X witness)).run.val
      = .ok (.ok (decide (Passes X witness))) := by
  have hlen : (honestStatement X witness).commitments.length ≤ 64 := by
    rw [honestStatement, length_honestCommitments]
    exact numBits_le witness
  rcases exists_val_verify X _ _ (shaped_honest X witness) hlen with ⟨valid, hvalid⟩
  have haccepts := accepts_honest_iff X witness
  rw [Accepts, hvalid, Except.ok.injEq, Except.ok.injEq] at haccepts
  rw [hvalid, ← Bool.decide_coe valid]
  exact congrArg (fun b => Except.ok (Except.ok b)) (decide_eq_decide.mpr haccepts)

/-- A value in range passes. -/
theorem passes_of_inRange (hin : InRange witness) : Passes X witness := by
  have hlo := UInt64.le_iff_toNat_le.mp hin.1
  have hhi := UInt64.le_iff_toNat_le.mp hin.2
  have hwidth := lt_two_pow_numBits witness
  have hoffset : (offset witness).toNat = witness.value.toNat - witness.min.toNat :=
    UInt64.toNat_sub_of_le _ _ hin.1
  refine ⟨?_, ?_⟩
  · rw [corruption_of_inRange witness hin, spoil_zero]
  · rw [hoffset, Nat.mod_eq_of_lt (by omega)]
    omega

/-- A value out of range does not, unless its first commitment collides. -/
theorem inRange_of_passes (hpasses : Passes X witness)
    (hcf : CollisionFree (digest X 32)
      [bitString (offsetBit witness 0) (bitNonce X witness 0).val,
        bitString (offsetBit witness 0) (spoil 0xFF (bitNonce X witness 0).val)]) :
    InRange witness := by
  by_contra hout
  have hfirst := hpasses.1
  rw [corruption_of_not_inRange witness hout] at hfirst
  have hstring := CollisionFree.eq_of_pair _ _ _ hcf hfirst
  unfold bitString at hstring
  simp only [List.flatten_cons, List.flatten_nil, List.append_nil] at hstring
  have hnonce := Block.toList_inj 32 _ _
    (List.append_cancel_left (List.append_cancel_left hstring))
  exact spoil_ne _ hnonce.symm

/-- Apart from that collision, what passes is what lies in range. -/
theorem passes_iff_inRange
    (hcf : CollisionFree (digest X 32)
      [bitString (offsetBit witness 0) (bitNonce X witness 0).val,
        bitString (offsetBit witness 0) (spoil 0xFF (bitNonce X witness 0).val)]) :
    Passes X witness ↔ InRange witness :=
  ⟨fun hpasses => inRange_of_passes X witness hpasses hcf, passes_of_inRange X witness⟩

end

end RangeProof

end Veil7
