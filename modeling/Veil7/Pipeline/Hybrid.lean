import Veil7.Pipeline.Iteration

/-!
# The Hybrid Pipeline

`hybrid_attest` of `hybrid.rs`: the iteration of the pipeline with a second
layer beside the signature, a hash of the claim under a key made of the same
seed, and a transcript of its own over the commitment.

The second layer computes its hash twice from the same key and claim and
compares the two, so it never decides anything: the hybrid pipeline is the
plain one with another transcript (`val_hybridAttest`). The transcript covers
the commitment alone, under a tag that no plain transcript is under.

## Main definitions

* `hybridAttest`: The hybrid pipeline.
* `hybridTranscript`: The hash its verdict carries for a seed and a claim.

## Theorems

* `val_hybridAttest`: The hybrid pipeline against the plain one.
* `hybridTranscript_eq_iff`: What two hybrid verdicts share.
-/

namespace Veil7

namespace Hybrid

def hybridMac : Bytes := ascii "veil7:hybrid:mac:v1"

def hybridKey : Bytes := ascii "veil7:hybrid:key:v1"

def hybridBind : Bytes := ascii "veil7:hybrid:bind:v1"

section

variable (X : Xof) (L : Libcrux)

/-- The hash of a claim under a key. -/
def mac (macKey : Block 32) (claim : Bytes) : Hashing (Block 32) :=
  (((Shake256.new.update hybridMac).update macKey.toList).update claim).squeeze X 32

/-- The hybrid iteration, on the outcome of the harvest. -/
def hybridAttest (harvested : Except VeilError Seed) (claim : Claim) :
    Hashing (Except VeilError Verdict) :=
  match harvested with
  | .error e => pure (.error e)
  | .ok seed => do
    match ← deriveKeys X L seed with
    | .error e => pure (.error e)
    | .ok keys =>
      let macKey ← ((Shake256.new.update hybridKey).update seed.toList).squeeze X 32
      let commitment ← commit X keys claim.bytes
      match ← MlDsaProver.prove X L keys commitment with
      | .error e => pure (.error e)
      | .ok proof =>
        match ← MlDsaVerifier.verify X L keys claim.bytes proof with
        | .error e => pure (.error e)
        | .ok pqValid =>
          -- The hash of the claim, and the same hash computed again.
          let tag ← mac X macKey claim.bytes
          let tagCheck ← mac X macKey claim.bytes
          let classicalValid := decide (tag = tagCheck)
          let combined := pqValid && classicalValid
          let transcript ← ((Shake256.new.update hybridBind).update commitment.toList).squeeze X 32
          pure (.ok (Verdict.fromBatch combined transcript))

/-- The string hashed into the transcript of a commitment. -/
def bindString (commitment : Commitment) : Bytes := hybridBind ++ commitment.toList

/-- The transcript of the hybrid verdict, if there is one. -/
def hybridTranscript (seed : Seed) (claim : Bytes) : Block 32 :=
  digest X 32 (bindString (digest X 32 (commitString (derivedKeys X L seed) claim)))

/-- The hybrid pipeline returns a verdict exactly if the plain one does, fails
    with its error otherwise, and its verdict has the same bit. -/
theorem val_hybridAttest (harvested : Except VeilError Seed) (claim : Claim) :
    (hybridAttest X L harvested claim).val
      = match harvested with
        | .error e => .error e
        | .ok seed => (verifyOnce X L (.ok seed) claim).val.map fun verdict =>
            { valid := verdict.valid, transcript := hybridTranscript X L seed claim.bytes } := by
  cases harvested with
  | error e => rfl
  | ok seed =>
      unfold hybridAttest verifyOnce verifyOnceWithSeed
      dsimp only
      rw [Queried.val_bind, Queried.val_bind, val_deriveKeys]
      simp only [Queried.val_bind]
      -- Both pipelines sign the same commitment, and check the same signature.
      cases (MlDsaProver.prove X L (derivedKeys X L seed)
        (commit X (derivedKeys X L seed) claim.bytes).val).val with
      | error e => rfl
      | ok proof =>
          simp only [Queried.val_bind, val_verify, Queried.val_pure, decide_true, Bool.and_true]
          rfl

/-- Apart from collisions no hybrid verdict has the transcript of a plain one,
    and two hybrid verdicts have one transcript exactly if their iterations
    have the same public keys and the same claim. -/
theorem hybridTranscript_eq_iff (seed seed' : Seed) (claim claim' : Bytes)
    (hcommitment : CollisionFree (digest X 32)
      [commitString (derivedKeys X L seed) claim, commitString (derivedKeys X L seed') claim'])
    (hbind : CollisionFree (digest X 32)
      [bindString (digest X 32 (commitString (derivedKeys X L seed) claim)),
        bindString (digest X 32 (commitString (derivedKeys X L seed') claim')),
        Verdict.transcriptString (digest X 32 (commitString (derivedKeys X L seed') claim'))]) :
    hybridTranscript X L seed claim ≠ iterationTranscript X L seed' claim' ∧
      (hybridTranscript X L seed claim = hybridTranscript X L seed' claim' ↔
        (derivedKeys X L seed).kemKp.publicKey = (derivedKeys X L seed').kemKp.publicKey ∧
          (derivedKeys X L seed).dsaKp.verificationKey
            = (derivedKeys X L seed').dsaKp.verificationKey ∧ claim = claim') := by
  constructor
  · intro h
    -- The two tags part in their seventh byte.
    have hstring := hbind _ (by simp) _ (by simp) h
    exact append_ne_of_take 7 hybridBind Domain.transcript _ _ (by decide) (by decide) (by decide)
      hstring
  · constructor
    · intro h
      have hstring := hbind _ (by simp) _ (by simp) h
      have hdigest := Block.toList_inj 32 _ _ (List.append_cancel_left hstring)
      exact commitString_inj _ _ _ _ (CollisionFree.eq_of_pair _ _ _ hcommitment hdigest)
    · rintro ⟨hkem, hdsa, rfl⟩
      have hstring : commitString (derivedKeys X L seed) claim
          = commitString (derivedKeys X L seed') claim := by
        rw [commitString, commitString, kemPkBytes, kemPkBytes, dsaVkBytes, dsaVkBytes, hkem, hdsa]
      rw [hybridTranscript, hybridTranscript, hstring]

/-- The commitment of the empty claim under a seed of zeros. -/
def emptyCommitment : Commitment :=
  digest Keccak.shake256 32
    (commitString (derivedKeys Keccak.shake256 Libcrux.transparent (zeros 64)) [])

/-- What the two pipelines hash for it, with two digests for the two strings. -/
def emptyStrings : { asked : List Bytes // CollisionFree (digest Keccak.shake256 32) asked } :=
  ⟨[bindString emptyCommitment, bindString emptyCommitment,
    Verdict.transcriptString emptyCommitment], by decide +kernel⟩

/-- The empty claim, attested in both pipelines. -/
theorem hybridTranscript_empty :
    hybridTranscript Keccak.shake256 Libcrux.transparent (zeros 64) []
      ≠ iterationTranscript Keccak.shake256 Libcrux.transparent (zeros 64) [] :=
  (hybridTranscript_eq_iff Keccak.shake256 Libcrux.transparent (zeros 64) (zeros 64) [] []
    (collisionFree_pair_self _ _) emptyStrings.2).1

end

end Hybrid

end Veil7
