import Veil7.Relations.Statements

/-!
# The Pedersen Relation

`relations/pedersen.rs`: knowledge of the opening of a commitment. The proof is
the opening itself, and the verifier computes the commitment again. Both sides
derive a challenge that nothing depends on.

## Main definitions

* `Witness`, `Proof`: An opening, secret and revealed.
* `statementFromWitness`, `prove`, `verify`: The three functions of the
  relation.

## Theorems

* `val_prove`, `val_verify`: What they return.
* `verify_prove`: The prover's own proof is accepted.
-/

namespace Veil7

namespace Pedersen

structure Witness where
  value : Block 32
  blinding : Block 32

@[ext]
structure Proof where
  value : Block 32
  blinding : Block 32

section

variable (X : Xof)

def statementFromWitness (witness : Witness) : Hashing Statement := do
  let commitment ← computeCommitment X witness.value witness.blinding
  pure { commitment := commitment }

/-- The challenge that both sides derive and neither uses. -/
def bindingChallenge (stmt : Statement) : Hashing (Block 32) := do
  let t ← Transcript.new X protocolLabel
  let t ← bindStatement X stmt t
  let (challenge, _) ← t.challenge X (ascii "pedersen:binding") 32
  pure challenge

def prove (witness : Witness) : Hashing (Except VeilError (Statement × Proof)) := do
  let stmt ← statementFromWitness X witness
  let _challenge ← bindingChallenge X stmt
  pure (.ok (stmt, { value := witness.value, blinding := witness.blinding }))

def verify (stmt : Statement) (proof : Proof) : Hashing (Except VeilError Choice) := do
  let _challenge ← bindingChallenge X stmt
  let recomputed ← computeCommitment X proof.value proof.blinding
  pure (.ok (decide (recomputed = stmt.commitment)))

theorem val_prove (witness : Witness) :
    (prove X witness).val = .ok ((statementFromWitness X witness).val,
      { value := witness.value, blinding := witness.blinding }) := rfl

theorem val_verify (stmt : Statement) (proof : Proof) :
    (verify X stmt proof).val
      = .ok (decide ((computeCommitment X proof.value proof.blinding).val = stmt.commitment)) :=
  rfl

/-- The prover's own proof is accepted. -/
theorem verify_prove (witness : Witness) :
    (verify X (statementFromWitness X witness).val
      { value := witness.value, blinding := witness.blinding }).val = .ok true := by
  rw [val_verify]
  exact congrArg Except.ok (decide_eq_true rfl)

end

end Pedersen

end Veil7
