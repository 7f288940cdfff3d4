import Veil7.Layers.Verify
import Veil7.Relations.Statements

/-!
# The ML-DSA Relation

`relations/ml_dsa.rs`: knowledge of the seed of a verification key. The prover
signs the challenge of the key; the randomness of the signature is a hash of
the seed and the challenge.

## Main definitions

* `Witness`, `Proof`: The seed, and a signature.
* `challengeFor`: The challenge of a verification key.
* `statementFromWitness`, `prove`, `verify`: The three functions of the
  relation.

## Theorems

* `val_prove`: Proving succeeds where signing does.
* `verify_prove`: With lawful schemes the prover's own proof is accepted.
-/

namespace Veil7

namespace MlDsa

/-- The signing context. -/
def ctx : Bytes := ascii "veil7:rel:mldsa:ctx:v1"

structure Witness where
  seed : Block 32

structure Proof where
  sig : Block 3309

section

variable (X : Xof) (L : Libcrux)

def deriveSigningRandomness (seed challenge : Block 32) : Hashing (Block 32) :=
  let xof := Shake256.new.update (ascii "veil7:rel:mldsa:sig-randomness:v1")
  ((xof.update seed.toList).update challenge.toList).squeeze X 32

def challengeFor (stmt : Statement) : Hashing (Block 32) := do
  let t ← Transcript.new X protocolLabel
  let t ← bindStatement X stmt t
  let (challenge, _) ← t.challenge X (ascii "mldsa:challenge") 32
  pure challenge

def statementFromWitness (witness : Witness) : Hashing Statement :=
  pure { vk := (L.dsaGenerateKeyPair witness.seed).verificationKey }

def prove (witness : Witness) : Hashing (Except VeilError (Statement × Proof)) := do
  let kp := L.dsaGenerateKeyPair witness.seed
  let stmt : Statement := { vk := kp.verificationKey }
  let msg ← challengeFor X stmt
  let sigRandomness ← deriveSigningRandomness X witness.seed msg
  match dsaSign L kp.signingKey msg.toList ctx sigRandomness with
  | .error e => pure (.error e)
  | .ok sig => pure (.ok (stmt, { sig := sig }))

def verify (stmt : Statement) (proof : Proof) : Hashing (Except VeilError Choice) := do
  let msg ← challengeFor X stmt
  pure (.ok (L.dsaVerify stmt.vk msg.toList ctx proof.sig))

/-- The statement of a seed. -/
def keyOf (witness : Witness) : Statement :=
  { vk := (L.dsaGenerateKeyPair witness.seed).verificationKey }

/-- Where signing the challenge succeeds, the signature is the proof. -/
theorem val_prove (witness : Witness) (sig : Block 3309)
    (hsig : L.dsaSign (L.dsaGenerateKeyPair witness.seed).signingKey
      (challengeFor X (keyOf L witness)).val.toList ctx
      (deriveSigningRandomness X witness.seed (challengeFor X (keyOf L witness)).val).val
        = some sig) :
    (prove X L witness).val = .ok (keyOf L witness, { sig := sig }) := by
  have hsign : dsaSign L (L.dsaGenerateKeyPair witness.seed).signingKey
      (challengeFor X (keyOf L witness)).val.toList ctx
      (deriveSigningRandomness X witness.seed (challengeFor X (keyOf L witness)).val).val
        = .ok sig := by
    rw [dsaSign, hsig]
  unfold prove
  rw [Queried.val_bind, Queried.val_bind]
  change (match dsaSign L (L.dsaGenerateKeyPair witness.seed).signingKey
      (challengeFor X (keyOf L witness)).val.toList ctx
      (deriveSigningRandomness X witness.seed (challengeFor X (keyOf L witness)).val).val with
    | .error e => (pure (.error e) : Hashing (Except VeilError (Statement × Proof)))
    | .ok sig => pure (.ok (keyOf L witness, { sig := sig }))).val = _
  rw [hsign]
  rfl

/-- With lawful schemes there is a proof, and it is accepted. -/
theorem verify_prove (hL : L.Lawful) (witness : Witness) :
    ∃ proof, (prove X L witness).val = .ok (keyOf L witness, proof) ∧
      (verify X L (keyOf L witness) proof).val = .ok true := by
  have hsigns := hL.signs witness.seed (challengeFor X (keyOf L witness)).val ctx
    (deriveSigningRandomness X witness.seed (challengeFor X (keyOf L witness)).val).val (by decide)
  rcases Option.isSome_iff_exists.mp hsigns with ⟨sig, hsig⟩
  refine ⟨{ sig := sig }, val_prove X L witness sig hsig, ?_⟩
  -- The verifier derives the challenge that was signed.
  have hverifies := hL.verifies _ _ _ _ _ hsig (challengeFor X (keyOf L witness)).val ctx
  exact congrArg Except.ok (hverifies.mpr ⟨rfl, rfl⟩)

end

end MlDsa

end Veil7
