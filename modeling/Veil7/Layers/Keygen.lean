import Veil7.Core.Shake256

/-!
# Ephemeral Keygen

`l2_keygen.rs`, with the functions of `libcrux_backend.rs`: two post-quantum key
pairs derived from the entropy seed.

The algorithms themselves are libcrux's and live outside the repository. They
are the parameter `L : Libcrux` of the pipeline, typed by the arrays the engine
hands over and gets back. What is modelled is what the engine does around them:
which strings it hashes into their seeds, and what it checks of their results.

The checks compare lengths that the types fix, so they never fail
(`validateKeys_eq`, `validateKeyStrength_eq`), and keys are always derived
(`val_deriveKeys`).

## Main definitions

* `Libcrux`: The key pairs, the encapsulation and the signature scheme.
* `Seed`, `EphemeralKeys`: The entropy seed and the derived key material.
* `derive`, `deriveKeys`: The key derivation.

## Theorems

* `val_deriveKeys`, `queries_deriveKeys`: The keys, and what is hashed for them.
-/

namespace Veil7

/-- An ML-KEM-768 key pair. -/
structure KemKeyPair where
  publicKey : Block 1184
  privateKey : Block 2400
deriving DecidableEq

/-- An ML-DSA-65 key pair. -/
structure DsaKeyPair where
  verificationKey : Block 1952
  signingKey : Block 4032
deriving DecidableEq

/-- `libcrux_ml_kem::mlkem768` and `libcrux_ml_dsa::ml_dsa_65`. -/
structure Libcrux where
  kemGenerateKeyPair : Block 64 → KemKeyPair
  /-- The ciphertext and the shared secret for a public key and coins. -/
  kemEncapsulate : Block 1184 → Block 32 → Block 1088 × Block 32
  kemDecapsulate : Block 2400 → Block 1088 → Block 32
  dsaGenerateKeyPair : Block 32 → DsaKeyPair
  /-- The signature under a key of a message and a context, with the signing
      randomness; nothing where signing fails. -/
  dsaSign : Block 4032 → Bytes → Bytes → Block 32 → Option (Block 3309)
  dsaVerify : Block 1952 → Bytes → Bytes → Block 3309 → Bool

/-- The engine's entropy seed. -/
abbrev Seed : Type := Block 64

structure EphemeralKeys where
  kemKp : KemKeyPair
  dsaKp : DsaKeyPair
deriving DecidableEq

def kemPkBytes (kp : KemKeyPair) : Bytes := kp.publicKey.toList

def dsaVkBytes (kp : DsaKeyPair) : Bytes := kp.verificationKey.toList

def validateKemPk (pkBytes : Bytes) : Bool := decide (pkBytes.length = 1184)

def validateDsaVk (vkBytes : Bytes) : Bool := decide (vkBytes.length = 1952)

def validateKeys (keys : EphemeralKeys) : Except VeilError Unit :=
  if validateKemPk (kemPkBytes keys.kemKp) = false then .error .crypto
  else if validateDsaVk (dsaVkBytes keys.dsaKp) = false then .error .crypto
  else .ok ()

def validateKeyStrength (keys : EphemeralKeys) : Except VeilError Unit :=
  if (kemPkBytes keys.kemKp).length ≠ 1184 then .error .crypto
  else if (dsaVkBytes keys.dsaKp).length ≠ 1952 then .error .crypto
  else .ok ()

@[simp] theorem length_kemPkBytes (kp : KemKeyPair) : (kemPkBytes kp).length = 1184 :=
  Block.length_toList 1184 kp.publicKey

@[simp] theorem length_dsaVkBytes (kp : DsaKeyPair) : (dsaVkBytes kp).length = 1952 :=
  Block.length_toList 1952 kp.verificationKey

theorem validateKeys_eq (keys : EphemeralKeys) : validateKeys keys = .ok () := by
  unfold validateKeys validateKemPk validateDsaVk
  rw [length_kemPkBytes, length_dsaVkBytes]
  rfl

theorem validateKeyStrength_eq (keys : EphemeralKeys) : validateKeyStrength keys = .ok () := by
  unfold validateKeyStrength
  rw [if_neg (not_not.mpr (length_kemPkBytes _)), if_neg (not_not.mpr (length_dsaVkBytes _))]

section

variable (X : Xof) (L : Libcrux)

/-- `n` bytes derived from the master seed under a tag. -/
def derive (n : Nat) (seed : Seed) (tag : Bytes) : Hashing (Block n) :=
  ((Shake256.new.update tag).update seed.toList).squeeze X n

def deriveKeys (seed : Seed) : Hashing (Except VeilError EphemeralKeys) := do
  let kemSeedBytes ← derive X 64 seed Domain.kemSeed
  let kemKp := L.kemGenerateKeyPair kemSeedBytes
  let sigSeedBytes ← derive X 32 seed Domain.sigSeed
  let dsaKp := L.dsaGenerateKeyPair sigSeedBytes
  let keys := { kemKp := kemKp, dsaKp := dsaKp }
  pure (validateKeys keys >>= fun _ => validateKeyStrength keys >>= fun _ => .ok keys)

/-- The key material of a seed. -/
def derivedKeys (seed : Seed) : EphemeralKeys :=
  {
    kemKp := L.kemGenerateKeyPair (digest X 64 (Domain.kemSeed ++ seed.toList))
    dsaKp := L.dsaGenerateKeyPair (digest X 32 (Domain.sigSeed ++ seed.toList)) }

/-- Key derivation does not fail. -/
theorem val_deriveKeys (seed : Seed) : (deriveKeys X L seed).val = .ok (derivedKeys X L seed) := by
  unfold deriveKeys
  simp only [Queried.val_bind, Queried.val_pure, validateKeys_eq, validateKeyStrength_eq]
  rfl

end

end Veil7
