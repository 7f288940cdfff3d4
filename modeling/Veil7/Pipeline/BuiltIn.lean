import Veil7.Pipeline.Relation
import Veil7.Relations.Lamport
import Veil7.Relations.Merkle.Invalid
import Veil7.Relations.Merkle.Soundness
import Veil7.Relations.MlDsa
import Veil7.Relations.Pedersen
import Veil7.Relations.Range.Soundness
import Veil7.Relations.ThresholdVerify

/-!
# The Built-In Relations in the Pipeline

`prove_and_verify` of `pipeline.rs` over the six relations, and the wrappers of
`interface.rs` around it. The range verifier can panic, so the pipeline is
stated a second time with panics; on a relation without any it is the pipeline
of `Pipeline/Relation` (`proveAndVerify_checked`).

What a run returns is the same for every seed: an error exactly where the prover
refuses its witness, and otherwise a verdict whose transcript is that of the
witness's statement (`proveAndVerify_builtIn`). Its bit is set for a witness of
four of the relations. The range relation has a prover that spoils its proof when
the value is out of range, and the threshold relation one that casts the number of
shares to a byte, so there it says whether the value is in range and whether the
number fits. No run panics.

## Main definitions

* `CheckedRelation`: A relation whose verifier may panic.
* `proveAndVerify`: The pipeline, from the outcome of the harvest.
* `SecretWitness`: A witness of one of the six relations.
* `SecretWitness.Refused`, `SecretWitness.Accepted`: What the prover refuses,
  and what the verdict's bit says.
* `SecretWitness.firstBitStrings`: What a range prover must not collide on.
* `proveRange`: The range wrapper.

## Theorems

* `proveAndVerify_checked`: The pipeline with panics extends the one without.
* `proveAndVerify_builtIn`: What the pipeline returns for any witness.
* `proveRange_exact`: The range wrapper decides membership.
-/

namespace Veil7

/-- A relation, with what the pipeline calls, its verifier's panics included. -/
structure CheckedRelation (Statement Witness Proof : Type) where
  protocolLabel : Bytes
  bindStatement : Statement → Transcript → Hashing Transcript
  prove : Witness → Bytes → Hashing (Except VeilError (Statement × Proof))
  verify : Statement → Proof → Checked (Except VeilError Choice)

/-- A relation whose verifier does not panic. -/
def Relation.checked {Statement Witness Proof : Type} (R : Relation Statement Witness Proof) :
    CheckedRelation Statement Witness Proof where
  protocolLabel := R.protocolLabel
  bindStatement := R.bindStatement
  prove := R.prove
  verify := fun stmt proof => ExceptT.lift (R.verify stmt proof)

section

variable (X : Xof) (L : Libcrux)

/-- One stateless prove and verify iteration, on the outcome of the harvest. -/
def proveAndVerify {Statement Witness Proof : Type} (R : CheckedRelation Statement Witness Proof)
    (harvested : Except VeilError Seed) (witness : Witness) : Checked (Except VeilError Verdict) :=
  match harvested with
  | .error e => pure (.error e)
  | .ok entropy => do
    match ← ExceptT.lift (R.prove witness entropy.toList) with
    | .error e => pure (.error e)
    | .ok (stmt, proof) =>
      match ← R.verify stmt proof with
      | .error e => pure (.error e)
      | .ok valid =>
        let verdict ← ExceptT.lift (emitVerdict X R.protocolLabel (R.bindStatement stmt) valid)
        pure (.ok verdict)

/-- On a relation without panics this is the pipeline of relations. -/
theorem proveAndVerify_checked {Statement Witness Proof : Type}
    (R : Relation Statement Witness Proof) (entropy : Seed) (witness : Witness) :
    (proveAndVerify X R.checked (.ok entropy) witness).run.val
      = .ok (proveAndVerifyWithEntropy X R witness entropy).val := by
  unfold proveAndVerify proveAndVerifyWithEntropy
  dsimp only
  rw [Checked.val_run_bind, Checked.val_run_lift, Panic.ok_bind, Queried.val_bind]
  change (match (R.prove witness entropy.toList).val with
    | .error e => _
    | .ok (stmt, proof) => _ : Checked (Except VeilError Verdict)).run.val = _
  cases (R.prove witness entropy.toList).val with
  | error e => rfl
  | ok pair =>
      dsimp only
      rw [Checked.val_run_bind, Queried.val_bind]
      change ((ExceptT.lift (R.verify pair.1 pair.2)).run.val >>= _) = _
      rw [Checked.val_run_lift, Panic.ok_bind]
      cases (R.verify pair.1 pair.2).val with
      | error e => rfl
      | ok valid => rfl

/-- A refusal of the prover ends the iteration. -/
theorem proveAndVerify_of_refused {Statement Witness Proof : Type}
    (R : CheckedRelation Statement Witness Proof) (entropy : Seed) (witness : Witness)
    (e : VeilError) (hprove : (R.prove witness entropy.toList).val = .error e) :
    (proveAndVerify X R (.ok entropy) witness).run.val = .ok (.error e) := by
  unfold proveAndVerify
  dsimp only
  rw [Checked.val_run_bind, Checked.val_run_lift, Panic.ok_bind, hprove]
  rfl

/-- A proof and the outcome of its verification become a verdict. -/
theorem proveAndVerify_of_proof {Statement Witness Proof : Type}
    (R : CheckedRelation Statement Witness Proof) (entropy : Seed) (witness : Witness)
    (stmt : Statement) (proof : Proof) (valid : Choice)
    (hprove : (R.prove witness entropy.toList).val = .ok (stmt, proof))
    (hverify : (R.verify stmt proof).run.val = .ok (.ok valid)) :
    (proveAndVerify X R (.ok entropy) witness).run.val
      = .ok (.ok (emitVerdict X R.protocolLabel (R.bindStatement stmt) valid).val) := by
  unfold proveAndVerify
  dsimp only
  rw [Checked.val_run_bind, Checked.val_run_lift, Panic.ok_bind, hprove]
  dsimp only
  rw [Checked.val_run_bind, hverify, Panic.ok_bind]
  rfl

/-! ### The six relations -/

def hashPreimage : Relation HashPreimage.Statement HashPreimage.Witness HashPreimage.Proof where
  protocolLabel := HashPreimage.protocolLabel
  statementFromWitness := HashPreimage.statementFromWitness X
  bindStatement := HashPreimage.bindStatement X
  prove := fun witness _entropy => HashPreimage.prove X witness
  verify := HashPreimage.verify X

def mlDsaKnowledge : Relation MlDsa.Statement MlDsa.Witness MlDsa.Proof where
  protocolLabel := MlDsa.protocolLabel
  statementFromWitness := MlDsa.statementFromWitness L
  bindStatement := MlDsa.bindStatement X
  prove := fun witness _entropy => MlDsa.prove X L witness
  verify := MlDsa.verify X L

def pedersenCommitment : Relation Pedersen.Statement Pedersen.Witness Pedersen.Proof where
  protocolLabel := Pedersen.protocolLabel
  statementFromWitness := Pedersen.statementFromWitness X
  bindStatement := Pedersen.bindStatement X
  prove := fun witness _entropy => Pedersen.prove X witness
  verify := Pedersen.verify X

/-- The range relation, whose verifier may panic. -/
def rangeProof : CheckedRelation RangeProof.Statement RangeProof.Witness RangeProof.Proof where
  protocolLabel := RangeProof.protocolLabel
  bindStatement := RangeProof.bindStatement X
  prove := fun witness _entropy => RangeProof.prove X witness
  verify := RangeProof.verify X

def thresholdVerify :
    Relation ThresholdVerify.Statement ThresholdVerify.Witness ThresholdVerify.Proof where
  protocolLabel := ThresholdVerify.protocolLabel
  statementFromWitness := ThresholdVerify.statementFromWitness X
  bindStatement := ThresholdVerify.bindStatement X
  prove := fun witness _entropy => ThresholdVerify.prove X witness
  verify := fun stmt proof => pure (ThresholdVerify.verify stmt proof)

end

/-- The transcript of a verdict about a statement. -/
def emittedDigest (X : Xof) (s : PublicStatement) : Block 32 :=
  digest X 32 (Verdict.transcriptString (digest X 32 (digestString X s)))

/-- A witness that is not refused is proved for its own statement, and the proof
    is accepted. -/
theorem Merkle.verify_prove (X : Xof) (witness : Witness) (h : ¬ Refused witness) :
    ∃ proof, (prove X witness).val = .ok ((statementFromWitness X witness).val, proof) ∧
      (verify X (statementFromWitness X witness).val proof).val = .ok true := by
  have hguard := h
  rw [← refused_iff X witness] at hguard
  rw [Refused, not_or, Nat.not_le] at h
  have hstatement : (statementFromWitness X witness).val
      = { root := (rootAndPath X (baseLevel X witness.leaves).val witness.index).val.1,
          leaf := (baseLevel X witness.leaves).val.getD witness.index (zeros 32) } := by
    rw [statementFromWitness, Queried.val_bind, if_neg hguard]
    rfl
  rw [hstatement]
  refine ⟨_, prove_eq X witness.leaves witness.index h.2, ?_⟩
  rw [verify_eq]
  exact congrArg Except.ok (merkleVerifyPath_honest X witness.leaves witness.index h.2)

/-- The range relation returns a verdict for any witness. -/
theorem proveAndVerify_rangeProof (X : Xof) (entropy : Seed) (witness : RangeProof.Witness) :
    (proveAndVerify X (rangeProof X) (.ok entropy) witness).run.val
      = .ok (.ok {
          valid := decide (RangeProof.Passes X witness)
          transcript := emittedDigest X
            (.rangeProof (RangeProof.statementFromWitness X witness).val) }) := by
  refine (proveAndVerify_of_proof X (rangeProof X) entropy witness _ _ _
    (RangeProof.val_prove X witness) (RangeProof.val_verify_honest X witness)).trans ?_
  rw [RangeProof.val_statementFromWitness]
  exact congrArg (fun v => Except.ok (Except.ok v))
    (val_emitVerdict X (.rangeProof (RangeProof.honestStatement X witness)) _)

/-- A witness of one of the built-in relations. -/
inductive SecretWitness where
  | hashPreimage (witness : HashPreimage.Witness)
  | merkleInclusion (witness : Merkle.Witness)
  | mlDsaKnowledge (witness : MlDsa.Witness)
  | pedersenCommitment (witness : Pedersen.Witness)
  | rangeProof (witness : RangeProof.Witness)
  | thresholdVerify (witness : ThresholdVerify.Witness)

namespace SecretWitness

section

variable (X : Xof) (L : Libcrux)

/-- The pipeline of the witness's relation. -/
def proveAndVerify (harvested : Except VeilError Seed) :
    SecretWitness → Checked (Except VeilError Verdict)
  | hashPreimage witness =>
    Veil7.proveAndVerify X (Veil7.hashPreimage X).checked harvested witness
  | merkleInclusion witness =>
    Veil7.proveAndVerify X (Veil7.merkleInclusion X).checked harvested witness
  | mlDsaKnowledge witness =>
    Veil7.proveAndVerify X (Veil7.mlDsaKnowledge X L).checked harvested witness
  | pedersenCommitment witness =>
    Veil7.proveAndVerify X (Veil7.pedersenCommitment X).checked harvested witness
  | rangeProof witness => Veil7.proveAndVerify X (Veil7.rangeProof X) harvested witness
  | thresholdVerify witness =>
    Veil7.proveAndVerify X (Veil7.thresholdVerify X).checked harvested witness

/-- The statement of a witness. -/
def statement : SecretWitness → PublicStatement
  | hashPreimage witness => .hashPreimage (HashPreimage.statementFromWitness X witness).val
  | merkleInclusion witness => .merkleInclusion (Merkle.statementFromWitness X witness).val
  | mlDsaKnowledge witness => .mlDsaKnowledge (MlDsa.statementFromWitness L witness).val
  | pedersenCommitment witness =>
    .pedersenCommitment (Pedersen.statementFromWitness X witness).val
  | rangeProof witness => .rangeProof (RangeProof.statementFromWitness X witness).val
  | thresholdVerify witness =>
    .thresholdVerify (ThresholdVerify.statementFromWitness X witness).val

/-- The prover refuses the witness: a tree without the leaf, or shares without
    an index for each. -/
def Refused : SecretWitness → Prop
  | merkleInclusion witness => Merkle.Refused witness
  | thresholdVerify witness =>
    witness.shares = [] ∨ witness.shares.length ≠ witness.indices.length
  | _ => False

/-- What the verdict's bit says of a witness that is not refused: the value lies
    in its range, or there are at most 255 shares and none hashes to zeros. For the
    other relations every proof of the prover is accepted. -/
def Accepted : SecretWitness → Prop
  | rangeProof witness => RangeProof.InRange witness
  | thresholdVerify witness => witness.shares.length ≤ 255 ∧
      ∀ share ∈ witness.shares, digest X 32 (ThresholdVerify.shareString share) ≠ zeros 32
  | _ => True

/-- The strings that commit a range prover to its first bit, under its nonce and
    under the spoiled one. -/
def firstBitStrings : SecretWitness → List Bytes
  | rangeProof witness =>
    [RangeProof.bitString (RangeProof.offsetBit witness 0) (RangeProof.bitNonce X witness 0).val,
      RangeProof.bitString (RangeProof.offsetBit witness 0)
        (RangeProof.spoil 0xFF (RangeProof.bitNonce X witness 0).val)]
  | _ => []

instance : (w : SecretWitness) → Decidable w.Refused
  | hashPreimage _ => inferInstanceAs (Decidable False)
  | merkleInclusion witness =>
    inferInstanceAs (Decidable (witness.leaves = [] ∨ witness.leaves.length ≤ witness.index))
  | mlDsaKnowledge _ => inferInstanceAs (Decidable False)
  | pedersenCommitment _ => inferInstanceAs (Decidable False)
  | rangeProof _ => inferInstanceAs (Decidable False)
  | thresholdVerify witness => inferInstanceAs
    (Decidable (witness.shares = [] ∨ witness.shares.length ≠ witness.indices.length))

instance : (w : SecretWitness) → Decidable (w.Accepted X)
  | hashPreimage _ => inferInstanceAs (Decidable True)
  | merkleInclusion _ => inferInstanceAs (Decidable True)
  | mlDsaKnowledge _ => inferInstanceAs (Decidable True)
  | pedersenCommitment _ => inferInstanceAs (Decidable True)
  | rangeProof witness => inferInstanceAs (Decidable (RangeProof.InRange witness))
  | thresholdVerify witness => inferInstanceAs (Decidable (witness.shares.length ≤ 255 ∧
      ∀ share ∈ witness.shares, digest X 32 (ThresholdVerify.shareString share) ≠ zeros 32))

/-- The pipeline returns the error of a failed harvest, an error for a refused
    witness, and otherwise the verdict of the witness's statement, whose bit says
    whether the witness is one that is accepted; for a range this is apart from a
    collision of its first commitment. It depends on the seed in no other way, and
    it does not panic. -/
theorem proveAndVerify_builtIn (hL : L.Lawful) (harvested : Except VeilError Seed)
    (w : SecretWitness) (hcf : CollisionFree (digest X 32) (w.firstBitStrings X)) :
    (w.proveAndVerify X L harvested).run.val
      = .ok (harvested.bind fun _ =>
          if w.Refused then .error .crypto
          else .ok { valid := decide (w.Accepted X),
                     transcript := emittedDigest X (w.statement X L) }) := by
  cases harvested with
  | error e => cases w <;> rfl
  | ok seed =>
      rw [Except.bind]
      cases w with
      | hashPreimage witness =>
          rw [if_neg (show ¬ (hashPreimage witness).Refused from not_false)]
          exact (proveAndVerify_of_proof X (Veil7.hashPreimage X).checked seed witness _ _ true
            (HashPreimage.val_prove X witness)
            (congrArg Except.ok (HashPreimage.verify_prove X witness))).trans
            (congrArg (fun v => Except.ok (Except.ok v))
              (val_emitVerdict X ((hashPreimage witness).statement X L) true))
      | merkleInclusion witness =>
          by_cases hrefused : (merkleInclusion witness).Refused
          · rw [if_pos hrefused]
            exact proveAndVerify_of_refused X (Veil7.merkleInclusion X).checked seed witness _
              (Merkle.prove_refused X witness hrefused)
          · rw [if_neg hrefused]
            rcases Merkle.verify_prove X witness hrefused with ⟨proof, hprove, hverify⟩
            exact (proveAndVerify_of_proof X (Veil7.merkleInclusion X).checked seed witness _ _
              true hprove (congrArg Except.ok hverify)).trans
              (congrArg (fun v => Except.ok (Except.ok v))
                (val_emitVerdict X ((merkleInclusion witness).statement X L) true))
      | mlDsaKnowledge witness =>
          rw [if_neg (show ¬ (mlDsaKnowledge witness).Refused from not_false)]
          rcases MlDsa.verify_prove X L hL witness with ⟨proof, hprove, hverify⟩
          exact (proveAndVerify_of_proof X (Veil7.mlDsaKnowledge X L).checked seed witness _ _
            true hprove (congrArg Except.ok hverify)).trans
            (congrArg (fun v => Except.ok (Except.ok v))
              (val_emitVerdict X ((mlDsaKnowledge witness).statement X L) true))
      | pedersenCommitment witness =>
          rw [if_neg (show ¬ (pedersenCommitment witness).Refused from not_false)]
          exact (proveAndVerify_of_proof X (Veil7.pedersenCommitment X).checked seed witness _ _
            true (Pedersen.val_prove X witness)
            (congrArg Except.ok (Pedersen.verify_prove X witness))).trans
            (congrArg (fun v => Except.ok (Except.ok v))
              (val_emitVerdict X ((pedersenCommitment witness).statement X L) true))
      | rangeProof witness =>
          rw [if_neg (show ¬ (rangeProof witness).Refused from not_false)]
          rw [Veil7.SecretWitness.proveAndVerify, proveAndVerify_rangeProof,
            decide_eq_decide.mpr (RangeProof.passes_iff_inRange X witness hcf)]
          rfl
      | thresholdVerify witness =>
          by_cases hrefused : (thresholdVerify witness).Refused
          · rw [if_pos hrefused]
            exact proveAndVerify_of_refused X (Veil7.thresholdVerify X).checked seed witness _
              (ThresholdVerify.prove_error X witness hrefused)
          · rw [if_neg hrefused]
            rw [Refused, not_or, not_not] at hrefused
            refine (proveAndVerify_of_proof X (Veil7.thresholdVerify X).checked seed witness _ _ _
              (ThresholdVerify.val_prove X witness hrefused.1 hrefused.2)
              (congrArg Except.ok (ThresholdVerify.verify_eq _ _))).trans ?_
            have hpasses := ThresholdVerify.passes_prove_iff X witness hrefused.1 hrefused.2
            rw [decide_eq_decide.mpr hpasses]
            exact congrArg (fun v => Except.ok (Except.ok v))
              (val_emitVerdict X ((thresholdVerify witness).statement X L) _)

end

/-- Knowledge of the seed of zeros, a value below its range, and an empty list of
    leaves. -/
theorem proveAndVerify_builtIn_zeros :
    (((mlDsaKnowledge { seed := zeros 32 }).proveAndVerify Keccak.shake256 Libcrux.transparent
      (.ok (zeros 64))).run.val).map (fun result => result.map Verdict.valid) = .ok (.ok true) ∧
    (((rangeProof { value := 50, min := 100, max := 200 }).proveAndVerify Keccak.shake256
      Libcrux.transparent (.ok (zeros 64))).run.val).map (fun result => result.map Verdict.valid)
        = .ok (.ok false) ∧
    ((merkleInclusion { leaves := [], index := 0 }).proveAndVerify Keccak.shake256
      Libcrux.transparent (.ok (zeros 64))).run.val = .ok (.error .crypto) := by
  have hnone : CollisionFree (digest Keccak.shake256 32) [] := by decide
  rw [proveAndVerify_builtIn _ _ Libcrux.transparent_lawful _ _ hnone,
    proveAndVerify_builtIn _ _ Libcrux.transparent_lawful _ _ RangeProof.collisionFree_below,
    proveAndVerify_builtIn _ _ Libcrux.transparent_lawful _ _ hnone]
  exact ⟨rfl, rfl, rfl⟩

end SecretWitness

/-! ### The range wrapper -/

/-- A proof that the value lies in the range, checked at once. -/
def proveRange (X : Xof) (harvested : Except VeilError Seed) (value min max : UInt64) :
    Checked (Except VeilError Verdict) :=
  if max < min then pure (.error .crypto)
  else
    let witness : RangeProof.Witness := { value := value, min := min, max := max }
    proveAndVerify X (rangeProof X) harvested witness

/-- The wrapper refuses an empty range, and otherwise returns the verdict of the
    statement, whose bit says whether the value lies in the range, unless the
    commitment to the first bit collides with the one under the spoiled nonce. -/
theorem proveRange_exact (X : Xof) (harvested : Except VeilError Seed)
    (witness : RangeProof.Witness)
    (hcf : CollisionFree (digest X 32)
      [RangeProof.bitString (RangeProof.offsetBit witness 0) (RangeProof.bitNonce X witness 0).val,
        RangeProof.bitString (RangeProof.offsetBit witness 0)
          (RangeProof.spoil 0xFF (RangeProof.bitNonce X witness 0).val)]) :
    (proveRange X harvested witness.value witness.min witness.max).run.val
      = .ok (if witness.max < witness.min then .error .crypto
          else harvested.map fun _ => {
            valid := decide (witness.min ≤ witness.value ∧ witness.value ≤ witness.max)
            transcript := emittedDigest X
              (.rangeProof (RangeProof.statementFromWitness X witness).val) }) := by
  unfold proveRange
  by_cases hempty : witness.max < witness.min
  · rw [if_pos hempty, if_pos hempty]
    rfl
  · rw [if_neg hempty, if_neg hempty]
    cases harvested with
    | error e => rfl
    | ok entropy =>
        rw [proveAndVerify_rangeProof,
          decide_eq_decide.mpr (RangeProof.passes_iff_inRange X witness hcf)]
        rfl

/-- A value below its range has a negative verdict. -/
theorem proveRange_exact_below :
    ((proveRange Keccak.shake256 (.ok (zeros 64)) 50 100 200).run.val).map
      (fun result => result.map Verdict.valid) = .ok (.ok false) := by
  rw [proveRange_exact Keccak.shake256 (.ok (zeros 64)) { value := 50, min := 100, max := 200 }
    RangeProof.collisionFree_below]
  rfl

end Veil7
