import Veil7.Layers.Emit
import Veil7.Layers.Verify

/-!
# The Pipeline

`verify_once_with_seed` and `verify_once` of `pipeline.rs`: one iteration from
an entropy seed and a claim to a verdict. Keys are derived, the claim is
committed to, the commitment signed, the signature checked, and the verdict
emitted; an error ends the iteration wherever it occurs.

The seed is what `harvest` returned, drawn from the system's entropy, so
`verifyOnce` takes the outcome of that call. Wiping the keys and dropping the
proof have no counterpart.

## Main definitions

* `Claim`: A claim.
* `verifyOnceWithSeed`: One iteration, for any prover and verifier.
* `verifyOnce`: One iteration of the default scheme.
* `iterationTranscript`: The hash a verdict carries for a seed and a claim.

## Theorems

* `transcript_of_verifyOnceWithSeed`: The transcript of a verdict.
* `verifyOnce_of_signs`: A verdict is returned where signing succeeds.
* `val_verifyOnce_of_lawful`: With lawful schemes it is positive.
* `verifyOnceWithSeed_attests`: The verdict is positive, and the proof serves
  no other claim.
-/

namespace Veil7

structure Claim where
  bytes : Bytes
  personalization : Bytes
deriving DecidableEq

/-- A claim without personalization. -/
def Claim.new (bytes : Bytes) : Claim := { bytes := bytes, personalization := [] }

section

variable (X : Xof) (L : Libcrux)

/-- One stateless iteration with a given seed. -/
def verifyOnceWithSeed (P : Prover) (V : Verifier) (seed : Seed) (claim : Claim) :
    Hashing (Except VeilError Verdict) := do
  match ← deriveKeys X L seed with
  | .error e => pure (.error e)
  | .ok keys =>
    let commitment ← commit X keys claim.bytes
    match ← P keys commitment with
    | .error e => pure (.error e)
    | .ok proof =>
      match ← V keys claim.bytes proof with
      | .error e => pure (.error e)
      | .ok valid =>
        let verdict ← Verdict.new X valid commitment
        pure (.ok verdict)

/-- One iteration of the default scheme, on the outcome of the harvest. -/
def verifyOnce (harvested : Except VeilError Seed) (claim : Claim) :
    Hashing (Except VeilError Verdict) :=
  match harvested with
  | .error e => pure (.error e)
  | .ok seed =>
    verifyOnceWithSeed X L (MlDsaProver.prove X L) (MlDsaVerifier.verify X L) seed claim

/-- The transcript of the iteration's verdict, if it has one. -/
def iterationTranscript (seed : Seed) (claim : Bytes) : Block 32 :=
  digest X 32 (Verdict.transcriptString (digest X 32 (commitString (derivedKeys X L seed) claim)))

/-- Whatever the scheme, a verdict's transcript is the hash of the commitment
    to the claim under the seed's keys. -/
theorem transcript_of_verifyOnceWithSeed (P : Prover) (V : Verifier) (seed : Seed) (claim : Claim)
    (verdict : Verdict) (h : (verifyOnceWithSeed X L P V seed claim).val = .ok verdict) :
    verdict.transcript = iterationTranscript X L seed claim.bytes := by
  unfold verifyOnceWithSeed at h
  rcases Queried.exists_of_val_ok _ _ _ h fun _ => rfl with ⟨keys, hkeys, h, -⟩
  rw [Queried.val_bind] at h
  rcases Queried.exists_of_val_ok _ _ _ h fun _ => rfl with ⟨proof, -, h, -⟩
  rcases Queried.exists_of_val_ok _ _ _ h fun _ => rfl with ⟨valid, -, h, -⟩
  rw [val_deriveKeys, Except.ok.injEq] at hkeys
  rw [Queried.val_bind, Queried.val_pure, Except.ok.injEq] at h
  rw [← h, Verdict.val_new, val_commit, ← hkeys]
  rfl

/-- The signature the default scheme makes for a claim. -/
def iterationSignature (seed : Seed) (claim : Bytes) : Option (Block 3309) :=
  let commitment := digest X 32 (commitString (derivedKeys X L seed) claim)
  L.dsaSign (derivedKeys X L seed).dsaKp.signingKey commitment.toList sigCtx
    (digest X 32 (sigRandomnessString commitment))

/-- The signature is what proving returns. -/
theorem val_prove_of_signature (seed : Seed) (claim : Bytes) (sig : Block 3309)
    (hsig : iterationSignature X L seed claim = some sig) :
    (MlDsaProver.prove X L (derivedKeys X L seed)
      (commit X (derivedKeys X L seed) claim).val).val = .ok { sig := sig } := by
  rw [val_prove, val_commit]
  unfold iterationSignature at hsig
  dsimp only at hsig
  rw [hsig]

/-- The verdict of the default scheme, where it is given a proof. -/
theorem val_verifyOnceWithSeed (seed : Seed) (claim : Claim) (proof : Proof)
    (hproof : (MlDsaProver.prove X L (derivedKeys X L seed)
      (commit X (derivedKeys X L seed) claim.bytes).val).val = .ok proof) :
    ∃ valid, (MlDsaVerifier.verify X L (derivedKeys X L seed) claim.bytes proof).val = .ok valid ∧
      (verifyOnceWithSeed X L (MlDsaProver.prove X L) (MlDsaVerifier.verify X L) seed claim).val
        = .ok { valid := valid, transcript := iterationTranscript X L seed claim.bytes } := by
  refine ⟨_, val_verify X L _ _ _, ?_⟩
  unfold verifyOnceWithSeed
  rw [Queried.val_bind, val_deriveKeys]
  simp only [Queried.val_bind]
  rw [hproof]
  simp only [Queried.val_bind]
  rw [val_verify]
  rfl

/-- The default scheme returns a verdict where signing succeeds. -/
theorem verifyOnce_of_signs (seed : Seed) (claim : Claim)
    (hsign : (iterationSignature X L seed claim.bytes).isSome) :
    ∃ valid, (verifyOnce X L (.ok seed) claim).val
      = .ok { valid := valid, transcript := iterationTranscript X L seed claim.bytes } := by
  rcases Option.isSome_iff_exists.mp hsign with ⟨sig, hsig⟩
  have hproof := val_prove_of_signature X L seed claim.bytes sig hsig
  rcases val_verifyOnceWithSeed X L seed claim _ hproof with ⟨valid, -, hverdict⟩
  exact ⟨valid, hverdict⟩

/-! ### What an iteration attests -/

/-- Signing succeeds under derived keys. -/
theorem iterationSignature_of_lawful (hL : L.Lawful) (seed : Seed) (claim : Bytes) :
    (iterationSignature X L seed claim).isSome :=
  hL.signs _ _ sigCtx _ (by decide)

/-- Under derived keys the proof for a claim verifies for a claim exactly if
    the two commitments are one. -/
theorem val_verify_of_signature (hL : L.Lawful) (seed : Seed) (claim claim' : Bytes)
    (sig : Block 3309) (hsig : iterationSignature X L seed claim = some sig) :
    (MlDsaVerifier.verify X L (derivedKeys X L seed) claim' { sig := sig }).val
      = .ok (decide (digest X 32 (commitString (derivedKeys X L seed) claim')
          = digest X 32 (commitString (derivedKeys X L seed) claim))) := by
  have hverifies := hL.verifies _ _ _ _ _ hsig
    (digest X 32 (commitString (derivedKeys X L seed) claim')) sigCtx
  rw [val_verify, Libcrux.kemOk_of_lawful X L hL, Bool.and_true, val_commit]
  refine congrArg Except.ok (Bool.eq_iff_iff.mpr ?_)
  rw [decide_eq_true_iff]
  refine hverifies.trans ?_
  rw [and_iff_left rfl]

/-- An iteration attests its own claim and no other: its verdict is positive,
    and under the same keys its proof is refused for every other claim. -/
theorem verifyOnceWithSeed_attests (hL : L.Lawful) (seed : Seed) (claim : Claim) :
    ∃ keys proof, (deriveKeys X L seed).val = .ok keys ∧
      (MlDsaProver.prove X L keys (commit X keys claim.bytes).val).val = .ok proof ∧
      (∃ verdict, (verifyOnceWithSeed X L (MlDsaProver.prove X L) (MlDsaVerifier.verify X L)
        seed claim).val = .ok verdict ∧ verdict.valid = true) ∧
      ∀ claim', claim' ≠ claim.bytes →
        CollisionFree (digest X 32) [commitString keys claim.bytes, commitString keys claim'] →
          (MlDsaVerifier.verify X L keys claim' proof).val = .ok false := by
  rcases Option.isSome_iff_exists.mp (iterationSignature_of_lawful X L hL seed claim.bytes)
    with ⟨sig, hsig⟩
  have hproof := val_prove_of_signature X L seed claim.bytes sig hsig
  refine ⟨derivedKeys X L seed, { sig := sig }, val_deriveKeys X L seed, hproof, ?_, ?_⟩
  · rcases val_verifyOnceWithSeed X L seed claim _ hproof with ⟨valid, hvalid, hverdict⟩
    refine ⟨_, hverdict, ?_⟩
    rw [val_verify_of_signature X L hL seed claim.bytes claim.bytes sig hsig, Except.ok.injEq]
      at hvalid
    rw [← hvalid]
    exact decide_eq_true rfl
  · intro claim' hne hcf
    rw [val_verify_of_signature X L hL seed claim.bytes claim' sig hsig]
    refine congrArg Except.ok (decide_eq_false ?_)
    intro heq
    -- Equal commitments are commitments to one claim.
    have hstring := (CollisionFree.eq_of_pair _ _ _ hcf heq.symm).symm
    exact hne (commitString_inj _ _ _ _ hstring).2.2

end

/-- Two claims with two commitments under the keys of a seed of zeros. -/
def twoClaims : { claims : Bytes × Bytes //
    digest Keccak.shake256 32 (commitString
        (derivedKeys Keccak.shake256 Libcrux.transparent (zeros 64)) claims.1)
      ≠ digest Keccak.shake256 32 (commitString
        (derivedKeys Keccak.shake256 Libcrux.transparent (zeros 64)) claims.2) } :=
  ⟨(ascii "paid 10", ascii "paid 99"), by decide +kernel⟩

/-- A claim is attested under a seed of zeros, and its proof is refused for the same
    claim with another sum. -/
theorem verifyOnceWithSeed_attests_sum :
    ∃ keys proof, (deriveKeys Keccak.shake256 Libcrux.transparent (zeros 64)).val = .ok keys ∧
      (MlDsaProver.prove Keccak.shake256 Libcrux.transparent keys
        (commit Keccak.shake256 keys (ascii "paid 10")).val).val = .ok proof ∧
      (verifyOnceWithSeed Keccak.shake256 Libcrux.transparent
        (MlDsaProver.prove Keccak.shake256 Libcrux.transparent)
        (MlDsaVerifier.verify Keccak.shake256 Libcrux.transparent) (zeros 64)
        (Claim.new (ascii "paid 10"))).val.map Verdict.valid = .ok true ∧
      (MlDsaVerifier.verify Keccak.shake256 Libcrux.transparent keys (ascii "paid 99") proof).val
        = .ok false := by
  rcases verifyOnceWithSeed_attests Keccak.shake256 Libcrux.transparent Libcrux.transparent_lawful
    (zeros 64) (Claim.new (ascii "paid 10")) with
    ⟨keys, proof, hkeys, hproof, ⟨verdict, hverdict, hvalid⟩, hothers⟩
  refine ⟨keys, proof, hkeys, hproof, ?_, ?_⟩
  · rw [hverdict]
    exact congrArg Except.ok hvalid
  · refine hothers (ascii "paid 99") (by decide) ?_
    rw [val_deriveKeys, Except.ok.injEq] at hkeys
    rw [← hkeys]
    exact collisionFree_pair_of_ne _ _ _ twoClaims.2

end Veil7
