import Mathlib.Data.Finset.Card
import Mathlib.Data.Nat.Choose.Bounds
import Veil7.Layers.Emit
import Veil7.Layers.Verify
import Veil7.Library.Distinct

/-!
# The Validators of Digests and Signatures

`validate_*` and `validate_*_strength` of `l3_commit.rs`, `l4_prove.rs` and
`l7_emit.rs`, and `verify_multi_check` of `l5_verify.rs`. The first kind refuses
strings of zeros and strings of ones, the second one strings with too few values:
less than four for commitments and transcripts, less than ten for signatures.

A string with two values is neither of zeros nor of ones, nor all of one value.
So the least number of values decides alone, and all the other checks refuse
nothing on top of it (`validated_iff`). What is refused is a vanishing part of
the strings of its length (`card_refused`), and the verification with all the
checks is the plain one except for a signature with less than ten values
(`verifyMultiCheck_eq`).

## Main definitions

* `validateFormat`, `validateStrength`: The two kinds of checks.
* `uniqueCount`: The loop that counts values.
* `verifyMultiCheck`: Verification with all the checks.

## Theorems

* `uniqueCount_eq`: The loop counts the values of the string.
* `validated_iff`: What both checks together accept.
* `card_refused`: How much they refuse.
* `verifyMultiCheck_eq`: What verification with all the checks returns.
-/

namespace Veil7

/-! ### The checks -/

/-- Not all zeros, and not all ones. -/
def validateFormat (bytes : Bytes) : Except VeilError Unit :=
  if bytes.all (· = 0) then .error .crypto
  else if bytes.all (· = 0xFF) then .error .crypto
  else .ok ()

/-- One turn of the count, with the values seen before. -/
def countUnique (s : (UInt8 → Bool) × Nat) (b : UInt8) : (UInt8 → Bool) × Nat :=
  if s.1 b = false then (Function.update s.1 b true, s.2 + 1) else s

def uniqueCount (bytes : Bytes) : Nat := (bytes.foldl countUnique (fun _ => false, 0)).2

/-- Not all of one value, and not of less than `least` values. -/
def validateStrength (least : Nat) (bytes : Bytes) : Except VeilError Unit :=
  let firstByte := bytes.headD 0
  if bytes.all (· = firstByte) then .error .crypto
  else if uniqueCount bytes < least then .error .crypto
  else .ok ()

def validateCommitment (commitment : Commitment) : Except VeilError Unit :=
  validateFormat commitment.toList

def validateCommitmentStrength (commitment : Commitment) : Except VeilError Unit :=
  validateStrength 4 commitment.toList

def validateProof (proof : Proof) : Except VeilError Unit :=
  if proof.sig.toList.length ≠ 3309 then .error .crypto else validateFormat proof.sig.toList

def validateProofStrength (proof : Proof) : Except VeilError Unit :=
  validateStrength 10 proof.sig.toList

/-- A choice is 0 or 1 already. -/
def validateVerificationResult (result : Choice) : Except VeilError Unit :=
  let value : UInt8 := if result then 1 else 0
  if value ≠ 0 ∧ value ≠ 1 then .error .crypto else .ok ()

def validateVerdict (verdict : Verdict) : Except VeilError Unit :=
  let validValue : UInt8 := if verdict.valid then 1 else 0
  if validValue ≠ 0 ∧ validValue ≠ 1 then .error .crypto
  else validateFormat verdict.transcript.toList

def validateVerdictStrength (verdict : Verdict) : Except VeilError Unit :=
  validateStrength 4 verdict.transcript.toList

def verifyMultiCheck (X : Xof) (L : Libcrux) (keys : EphemeralKeys) (claim : Bytes)
    (proof : Proof) : Hashing (Except VeilError Choice) :=
  match validateProof proof with
  | .error e => pure (.error e)
  | .ok () =>
    match validateProofStrength proof with
    | .error e => pure (.error e)
    | .ok () => do
      match ← MlDsaVerifier.verify X L keys claim proof with
      | .error e => pure (.error e)
      | .ok standardResult =>
        match validateVerificationResult standardResult with
        | .error e => pure (.error e)
        | .ok () => pure (.ok standardResult)

/-! ### The number of values -/

/-- The loop from the values of a set on. -/
theorem foldl_countUnique (bytes : Bytes) (seen : Finset UInt8) :
    (bytes.foldl countUnique (fun b => decide (b ∈ seen), seen.card)).2
      = (seen ∪ bytes.toFinset).card := by
  induction bytes generalizing seen with
  | nil => rw [List.toFinset_nil, Finset.union_empty]; rfl
  | cons b bytes ih =>
      rw [List.foldl_cons, List.toFinset_cons, countUnique]
      by_cases hseen : b ∈ seen
      · have hold : ¬ decide (b ∈ seen) = false := by
          rw [decide_eq_true hseen]
          exact Bool.noConfusion
        rw [if_neg hold, ih, Finset.union_insert,
          Finset.insert_eq_of_mem (Finset.mem_union_left _ hseen)]
      · have hupdate : Function.update (fun b => decide (b ∈ seen)) b true
            = fun b' => decide (b' ∈ insert b seen) := by
          funext b'
          rw [Function.update_apply]
          split
          case isTrue h => rw [h, decide_eq_true (Finset.mem_insert_self b seen)]
          case isFalse h =>
            refine decide_eq_decide.mpr ?_
            rw [Finset.mem_insert, or_iff_right h]
        rw [if_pos (decide_eq_false hseen), hupdate, ← Finset.card_insert_of_notMem hseen, ih,
          Finset.insert_union, Finset.union_insert]

theorem uniqueCount_eq (bytes : Bytes) : uniqueCount bytes = bytes.toFinset.card := by
  have hempty := foldl_countUnique bytes ∅
  rw [Finset.empty_union, Finset.card_empty] at hempty
  exact hempty

/-- A string all of one value has one value at most. -/
theorem not_all_of_lt (bytes : Bytes) (b : UInt8) (h : 1 < bytes.toFinset.card) :
    bytes.all (· = b) = false := by
  rw [← Bool.not_eq_true]
  intro hall
  have hsub : bytes.toFinset ⊆ {b} := by
    intro b' hb'
    rw [List.mem_toFinset] at hb'
    exact Finset.mem_singleton.mpr (of_decide_eq_true (List.all_eq_true.mp hall b' hb'))
  have hle := Finset.card_le_card hsub
  rw [Finset.card_singleton] at hle
  omega

/-- With a least number of values above one, only this number counts. -/
theorem validateStrength_eq (least : Nat) (hleast : 1 < least) (bytes : Bytes) :
    validateStrength least bytes
      = if bytes.toFinset.card < least then .error .crypto else .ok () := by
  unfold validateStrength
  dsimp only
  rw [uniqueCount_eq]
  by_cases hfew : bytes.toFinset.card < least
  · rw [if_pos hfew, ite_self]
  · rw [not_all_of_lt bytes _ (by omega), if_neg Bool.false_ne_true, if_neg hfew]

theorem validateFormat_of_lt (bytes : Bytes) (h : 1 < bytes.toFinset.card) :
    validateFormat bytes = .ok () := by
  rw [validateFormat, not_all_of_lt bytes _ h, not_all_of_lt bytes _ h]
  rfl

/-- Both checks together accept the strings with enough values. -/
theorem validated_iff (least : Nat) (hleast : 1 < least) (bytes : Bytes) :
    validateFormat bytes = .ok () ∧ validateStrength least bytes = .ok ()
      ↔ least ≤ bytes.toFinset.card := by
  rw [validateStrength_eq least hleast]
  by_cases hfew : bytes.toFinset.card < least
  · rw [if_pos hfew]
    exact iff_of_false (fun h => nomatch h.2) (Nat.not_le.mpr hfew)
  · rw [if_neg hfew]
    exact iff_of_true ⟨validateFormat_of_lt bytes (by omega), rfl⟩ (Nat.not_lt.mp hfew)

/-- What is refused has few values. -/
theorem card_refused_le (n k : Nat) (hk : 0 < k) (hbyte : k ≤ 256) :
    Nat.card { b : Block n // ¬ (validateFormat b.toList = .ok () ∧
        validateStrength (k + 1) b.toList = .ok ()) } ≤ Nat.choose 256 k * k ^ n := by
  have hiff : ∀ b : Block n, ¬ (validateFormat b.toList = .ok () ∧
      validateStrength (k + 1) b.toList = .ok ()) ↔ b.toList.toFinset.card ≤ k := by
    intro b
    rw [validated_iff (k + 1) (by omega)]
    omega
  rw [Nat.card_congr (Equiv.subtypeEquivRight hiff), ← card_byte]
  exact card_few_le n k (by rw [card_byte]; exact hbyte)

/-- The checks fail with one error only. -/
theorem validateFormat_cases (bytes : Bytes) :
    validateFormat bytes = .ok () ∨ validateFormat bytes = .error .crypto := by
  rw [validateFormat]
  split
  · exact Or.inr rfl
  · split
    · exact Or.inr rfl
    · exact Or.inl rfl

theorem validateProof_eq (proof : Proof) :
    validateProof proof = validateFormat proof.sig.toList :=
  if_neg (not_not.mpr (Block.length_toList 3309 proof.sig))

/-- Of the digests of 32 bytes less than one in `2 ^ 183` is refused, as a
    commitment or as the transcript of a verdict, and of the signatures less than
    one in `2 ^ 15000`. -/
theorem card_refused (valid : Choice) :
    Nat.card { c : Commitment // ¬ (validateCommitment c = .ok () ∧
        validateCommitmentStrength c = .ok ()) } * 2 ^ 183 < 256 ^ 32 ∧
      Nat.card { t : Block 32 // ¬ (validateVerdict { valid, transcript := t } = .ok () ∧
        validateVerdictStrength { valid, transcript := t } = .ok ()) } * 2 ^ 183 < 256 ^ 32 ∧
      Nat.card { sig : Block 3309 // ¬ (validateProof { sig } = .ok () ∧
        validateProofStrength { sig } = .ok ()) } * 2 ^ 15000 < 256 ^ 3309 := by
  have hdigests := Nat.lt_of_le_of_lt
    (Nat.mul_le_mul_right (2 ^ 183) (card_refused_le 32 3 (by decide) (by decide)))
    (show Nat.choose 256 3 * 3 ^ 32 * 2 ^ 183 < 256 ^ 32 by decide +kernel)
  refine ⟨hdigests, ?_, ?_⟩
  · cases valid with
    | true => exact hdigests
    | false => exact hdigests
  · simp only [validateProof_eq]
    have hfew := card_refused_le 3309 9 (by decide) (by decide)
    have hchoose := Nat.mul_le_mul_right (9 ^ 3309) (Nat.choose_le_two_pow 256 9)
    refine Nat.lt_of_le_of_lt (Nat.mul_le_mul_right (2 ^ 15000) (hfew.trans hchoose)) ?_
    decide +kernel

/-- Verification with all the checks fails on a signature with less than ten
    values, and is the plain verification on every other one. -/
theorem verifyMultiCheck_eq (X : Xof) (L : Libcrux) (keys : EphemeralKeys) (claim : Bytes)
    (proof : Proof) :
    (verifyMultiCheck X L keys claim proof).val
      = if proof.sig.toList.toFinset.card < 10 then .error .crypto
        else (MlDsaVerifier.verify X L keys claim proof).val := by
  have hstrength : validateProofStrength proof
      = if proof.sig.toList.toFinset.card < 10 then .error .crypto else .ok () :=
    validateStrength_eq 10 (by omega) _
  rw [verifyMultiCheck, validateProof_eq, hstrength]
  by_cases hfew : proof.sig.toList.toFinset.card < 10
  · rw [if_pos hfew, if_pos hfew]
    rcases validateFormat_cases proof.sig.toList with hok | herror
    · rw [hok]
      rfl
    · rw [herror]
      rfl
  · rw [if_neg hfew, if_neg hfew, validateFormat_of_lt _ (by omega)]
    dsimp only
    rw [Queried.val_bind, val_verify]
    -- Whichever the result is, it is a choice.
    cases L.dsaVerify keys.dsaKp.verificationKey (commit X keys claim).val.toList sigCtx proof.sig
      && kemOk X L keys (commit X keys claim).val with
    | true => rfl
    | false => rfl

end Veil7
