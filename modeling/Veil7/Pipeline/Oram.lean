import Veil7.Pipeline.Iteration
import Veil7.Storage.Oram

/-!
# The Pipeline with Oblivious Storage

`verify_once_with_oram` of `pipeline.rs`: the harvested seed is written to slot
0 of a fresh oblivious memory and read back, and what was read seeds an ordinary
iteration.

The memory hashes what is written and not what is read, so the seed that comes
back is the hash of the one that went in (`val_verifyOnceWithOram`). The keys of
the iteration are derived from it, and the verdict, which depends on the public
keys through its transcript, is the one for the harvested seed only where the
hash returns the seed itself (`verifyOnceWithOram_eq_iff`).

## Main definitions

* `verifyOnceWithOram`: The pipeline.
* `iterationStrings`: What an iteration hashes for its identity and transcript.

## Theorems

* `val_verifyOnceWithOram`: The pipeline is the ordinary one on the hash.
* `seed_eq_of_transcript_eq`, `seed_eq_of_val_eq`: A verdict shows the seed.
* `verifyOnceWithOram_eq_iff`: When the verdict is the one for the seed.
* `verifyOnceWithOram_moved`: A seed of zeros.
-/

namespace Veil7

section

variable (X : Xof) (L : Libcrux)

/-- One iteration of the default scheme with the seed kept in an oblivious
    memory, on the outcome of the harvest. -/
def verifyOnceWithOram (harvested : Except VeilError Seed) (claim : Claim) :
    Hashing (Except VeilError Verdict) :=
  match harvested with
  | .error e => pure (.error e)
  | .ok seed => do
    let oram := Oram.new
    let oram ← Oram.write X oram 0 seed
    let raw := Oram.read oram 0
    let seedFromOram : Seed := raw
    verifyOnceWithSeed X L (MlDsaProver.prove X L) (MlDsaVerifier.verify X L) seedFromOram claim

/-- The seed that comes back from the memory. -/
def storedSeed (seed : Seed) : Seed := (Oram.oramHash X seed.toList).val

theorem val_verifyOnceWithOram (seed : Seed) (claim : Claim) :
    (verifyOnceWithOram X L (.ok seed) claim).val
      = (verifyOnceWithSeed X L (MlDsaProver.prove X L) (MlDsaVerifier.verify X L)
          (storedSeed X seed) claim).val := by
  rw [verifyOnceWithOram, Queried.val_bind]
  dsimp only
  rw [Oram.read_write]
  rfl

/-- The signing seed that the keys of a seed are made from. -/
def signingSeed (seed : Seed) : Block 32 := digest X 32 (Domain.sigSeed ++ seed.toList)

/-- Key generation does not give two signing seeds one verification key. -/
def Libcrux.Separates (a b : Block 32) : Prop :=
  (L.dsaGenerateKeyPair a).verificationKey = (L.dsaGenerateKeyPair b).verificationKey → a = b

/-- What an iteration hashes on the way from its seed to its transcript. -/
def iterationStrings (seed : Seed) (claim : Bytes) : List Bytes :=
  [Domain.sigSeed ++ seed.toList, commitString (derivedKeys X L seed) claim,
    Verdict.transcriptString (digest X 32 (commitString (derivedKeys X L seed) claim))]

/-- Without a collision on the way, and where two signing seeds do not share a
    verification key, a transcript shows the seed. -/
theorem seed_eq_of_transcript_eq (seed seed' : Seed) (claim : Bytes)
    (hkey : L.Separates (signingSeed X seed) (signingSeed X seed'))
    (hcf : CollisionFree (digest X 32)
      (iterationStrings X L seed claim ++ iterationStrings X L seed' claim))
    (h : iterationTranscript X L seed claim = iterationTranscript X L seed' claim) :
    seed = seed' := by
  -- Back from the transcript, one string at a time.
  have hcommitment := Verdict.transcriptString_inj _ _
    (hcf _ (by simp [iterationStrings]) _ (by simp [iterationStrings]) h)
  have hcommit : commitString (derivedKeys X L seed) claim
      = commitString (derivedKeys X L seed') claim :=
    hcf _ (by simp [iterationStrings]) _ (by simp [iterationStrings]) hcommitment
  have hderived : Domain.sigSeed ++ seed.toList = Domain.sigSeed ++ seed'.toList :=
    hcf _ (by simp [iterationStrings]) _ (by simp [iterationStrings])
      (hkey (commitString_inj _ _ _ _ hcommit).2.1)
  exact Block.toList_inj 64 seed seed' (List.append_cancel_left hderived)

/-- So do whole verdicts, as signing succeeds. -/
theorem seed_eq_of_val_eq (hL : L.Lawful) (seed seed' : Seed) (claim : Claim)
    (hkey : L.Separates (signingSeed X seed) (signingSeed X seed'))
    (hcf : CollisionFree (digest X 32)
      (iterationStrings X L seed claim.bytes ++ iterationStrings X L seed' claim.bytes))
    (h : (verifyOnceWithSeed X L (MlDsaProver.prove X L) (MlDsaVerifier.verify X L) seed claim).val
      = (verifyOnceWithSeed X L (MlDsaProver.prove X L) (MlDsaVerifier.verify X L) seed'
          claim).val) :
    seed = seed' := by
  obtain ⟨valid, hval⟩ := verifyOnce_of_signs X L seed claim
    (iterationSignature_of_lawful X L hL _ _)
  obtain ⟨valid', hval'⟩ := verifyOnce_of_signs X L seed' claim
    (iterationSignature_of_lawful X L hL _ _)
  have hverdict := (hval.symm.trans h).trans hval'
  rw [Except.ok.injEq, Verdict.mk.injEq] at hverdict
  exact seed_eq_of_transcript_eq X L seed seed' claim.bytes hkey hcf hverdict.2

/-- The verdict is the one for the harvested seed, exactly if the memory's hash
    returns that seed. -/
theorem verifyOnceWithOram_eq_iff (hL : L.Lawful) (seed : Seed) (claim : Claim)
    (hkey : L.Separates (signingSeed X (storedSeed X seed)) (signingSeed X seed))
    (hcf : CollisionFree (digest X 32)
      (iterationStrings X L (storedSeed X seed) claim.bytes
        ++ iterationStrings X L seed claim.bytes)) :
    (verifyOnceWithOram X L (.ok seed) claim).val
        = (verifyOnceWithSeed X L (MlDsaProver.prove X L) (MlDsaVerifier.verify X L) seed claim).val
      ↔ storedSeed X seed = seed := by
  rw [val_verifyOnceWithOram]
  constructor
  · exact seed_eq_of_val_eq X L hL (storedSeed X seed) seed claim hkey hcf
  · intro h
    rw [h]

end

/-- The verification key shows the signing seed. -/
theorem Libcrux.transparent_separates (a b : Block 32) : transparent.Separates a b := by
  intro h
  apply Block.toList_inj
  rw [← take_firstBytes 1952 32 a (by omega), ← take_firstBytes 1952 32 b (by omega)]
  exact congrArg (fun key : Block 1952 => key.toList.take 32) h

/-- The strings of the two iterations for a seed of zeros and an empty claim
    have six different hashes. -/
theorem nodup_oramStrings :
    ((iterationStrings Keccak.shake256 Libcrux.transparent
        (storedSeed Keccak.shake256 (zeros 64)) []
      ++ iterationStrings Keccak.shake256 Libcrux.transparent (zeros 64) []).map
        (digest Keccak.shake256 32)).Nodup := by
  decide +kernel

theorem collisionFree_oramStrings :
    CollisionFree (digest Keccak.shake256 32)
      (iterationStrings Keccak.shake256 Libcrux.transparent
          (storedSeed Keccak.shake256 (zeros 64)) []
        ++ iterationStrings Keccak.shake256 Libcrux.transparent (zeros 64) []) :=
  fun _ hs _ ht heq => List.inj_on_of_nodup_map nodup_oramStrings hs ht heq

theorem storedSeed_zeros : storedSeed Keccak.shake256 (zeros 64) ≠ zeros 64 := by
  intro h
  have hnodup := nodup_oramStrings
  rw [h, List.map_append, List.nodup_append] at hnodup
  exact hnodup.2.2 _ List.mem_cons_self _ List.mem_cons_self rfl

theorem verifyOnceWithOram_eq_iff_zeros :
    (verifyOnceWithOram Keccak.shake256 Libcrux.transparent (.ok (zeros 64)) (Claim.new [])).val
        = (verifyOnceWithSeed Keccak.shake256 Libcrux.transparent
            (MlDsaProver.prove Keccak.shake256 Libcrux.transparent)
            (MlDsaVerifier.verify Keccak.shake256 Libcrux.transparent) (zeros 64)
            (Claim.new [])).val
      ↔ storedSeed Keccak.shake256 (zeros 64) = zeros 64 :=
  verifyOnceWithOram_eq_iff Keccak.shake256 Libcrux.transparent Libcrux.transparent_lawful
    (zeros 64) (Claim.new []) (Libcrux.transparent_separates _ _) collisionFree_oramStrings

/-- The verdict for a seed of zeros is another one with the memory in between. -/
theorem verifyOnceWithOram_moved :
    storedSeed Keccak.shake256 (zeros 64) ≠ zeros 64 ∧
    (verifyOnceWithOram Keccak.shake256 Libcrux.transparent (.ok (zeros 64)) (Claim.new [])).val
      ≠ (verifyOnceWithSeed Keccak.shake256 Libcrux.transparent
          (MlDsaProver.prove Keccak.shake256 Libcrux.transparent)
          (MlDsaVerifier.verify Keccak.shake256 Libcrux.transparent) (zeros 64)
          (Claim.new [])).val := by
  refine ⟨storedSeed_zeros, fun h => ?_⟩
  rw [val_verifyOnceWithOram] at h
  exact storedSeed_zeros (seed_eq_of_val_eq _ _ Libcrux.transparent_lawful _ _ (Claim.new [])
    (Libcrux.transparent_separates _ _) collisionFree_oramStrings h)

end Veil7
