import Veil7.Layers.Commit
import Veil7.Library.Keccak

/-!
# Proof and Verification

`l4_prove.rs` and `l5_verify.rs`: a signature over the commitment, and its
check. The verifier computes the commitment again from the claim, checks the
signature over it, and makes a round trip through the key encapsulation with
coins derived from it; both checks are made and their results combined.

The signing randomness and the coins are hashes of the commitment, so nothing
here is random.

## Main definitions

* `Proof`, `Prover`, `Verifier`: A signature, and the pluggable schemes.
* `MlDsaProver.prove`: The signature over a commitment.
* `MlDsaVerifier.verify`: The two checks.
* `Libcrux.transparent`: Schemes without secrets, to evaluate the engine with.
* `Libcrux.Lawful`: What the engine relies on.

## Theorems

* `val_prove`: Proving succeeds where signing does.
* `val_verify`: Verification returns the conjunction of the two checks.
* `kemOk_of_lawful`: The round trip succeeds under derived keys.
* `transparent_lawful`: The schemes without secrets are as relied on.
-/

namespace Veil7

structure Proof where
  sig : Block 3309
deriving DecidableEq

/-- A proof generator. -/
abbrev Prover : Type := EphemeralKeys → Commitment → Hashing (Except VeilError Proof)

/-- A verification scheme. -/
abbrev Verifier : Type := EphemeralKeys → Bytes → Proof → Hashing (Except VeilError Choice)

/-- The context string bound into the signature. -/
def sigCtx : Bytes := ascii "veil7:proof:v1"

section

variable (X : Xof) (L : Libcrux)

def dsaSign (sk : Block 4032) (message context : Bytes) (randomness : Block 32) :
    Except VeilError (Block 3309) :=
  match L.dsaSign sk message context randomness with
  | some sig => .ok sig
  | none => .error .crypto

def deriveSigRandomness (commitment : Commitment) : Hashing (Block 32) :=
  let xof := Shake256.new.update (ascii "veil7:l4:sig-randomness:v1")
  (xof.update commitment.toList).squeeze X 32

def MlDsaProver.prove : Prover := fun keys commitment => do
  let sigRandomness ← deriveSigRandomness X commitment
  match dsaSign L keys.dsaKp.signingKey commitment.toList sigCtx sigRandomness with
  | .error e => pure (.error e)
  | .ok sig => pure (.ok { sig := sig })

/-- Encapsulation to the public key, and decapsulation with the private one;
    the comparison of the two secrets. -/
def kemRoundtrip (keys : EphemeralKeys) (commitment : Commitment) :
    Hashing (Except VeilError Choice) := do
  let xof := Shake256.new.update Domain.kemEncapCoins
  let m ← (xof.update commitment.toList).squeeze X 32
  let (ct, ssSend) := L.kemEncapsulate keys.kemKp.publicKey m
  let ssRecv := L.kemDecapsulate keys.kemKp.privateKey ct
  pure (.ok (decide (ssSend = ssRecv)))

def MlDsaVerifier.verify : Verifier := fun keys claim proof => do
  -- The commitment is derived from scratch.
  let recommitment ← commit X keys claim
  let sigOk := L.dsaVerify keys.dsaKp.verificationKey recommitment.toList sigCtx proof.sig
  match ← kemRoundtrip X L keys recommitment with
  | .error e => pure (.error e)
  | .ok kemOk => pure (.ok (sigOk && kemOk))

/-- The string hashed into the signing randomness. -/
def sigRandomnessString (commitment : Commitment) : Bytes :=
  ascii "veil7:l4:sig-randomness:v1" ++ commitment.toList

/-- The string hashed into the encapsulation coins. -/
def kemCoinsString (commitment : Commitment) : Bytes :=
  Domain.kemEncapCoins ++ commitment.toList

/-- The secrets on both sides of the round trip agree. -/
def kemOk (keys : EphemeralKeys) (commitment : Commitment) : Bool :=
  let sent := L.kemEncapsulate keys.kemKp.publicKey (digest X 32 (kemCoinsString commitment))
  decide (sent.2 = L.kemDecapsulate keys.kemKp.privateKey sent.1)

/-- Proving succeeds with the signature that signing returns. -/
theorem val_prove (keys : EphemeralKeys) (commitment : Commitment) :
    (MlDsaProver.prove X L keys commitment).val
      = match L.dsaSign keys.dsaKp.signingKey commitment.toList sigCtx
          (digest X 32 (sigRandomnessString commitment)) with
        | some sig => .ok { sig := sig }
        | none => .error .crypto := by
  unfold MlDsaProver.prove dsaSign
  rw [Queried.val_bind]
  change (match (match L.dsaSign keys.dsaKp.signingKey commitment.toList sigCtx
    (digest X 32 (sigRandomnessString commitment)) with
    | some sig => Except.ok sig
    | none => Except.error VeilError.crypto) with
    | .error e => (pure (.error e) : Hashing (Except VeilError Proof))
    | .ok sig => pure (.ok { sig := sig })).val = _
  cases L.dsaSign keys.dsaKp.signingKey commitment.toList sigCtx
    (digest X 32 (sigRandomnessString commitment)) with
  | none => rfl
  | some sig => rfl

/-- Verification does not fail; it returns both checks combined. -/
theorem val_verify (keys : EphemeralKeys) (claim : Bytes) (proof : Proof) :
    (MlDsaVerifier.verify X L keys claim proof).val
      = .ok (L.dsaVerify keys.dsaKp.verificationKey (commit X keys claim).val.toList sigCtx
          proof.sig && kemOk X L keys (commit X keys claim).val) := rfl

end

/-! ### Schemes to evaluate with -/

namespace Libcrux

/-- A key, a message and a context in one string that shows all three. -/
def plainText (key message context : Bytes) : Bytes :=
  key.take 32 ++ u64Bytes message.length ++ message ++ u64Bytes context.length ++ context

/-- The functions of libcrux without their secrecy. Keys are their seeds, the
    ciphertext is the shared secret, and a signature spells out what it signs;
    what does not fit into it is not signed. -/
def transparent : Libcrux where
  kemGenerateKeyPair := fun seed =>
    {
      publicKey := Keccak.firstBytes 1184 seed.toList
      privateKey := Keccak.firstBytes 2400 seed.toList }
  kemEncapsulate := fun _ coins => (Keccak.firstBytes 1088 coins.toList, coins)
  kemDecapsulate := fun _ ct => Keccak.firstBytes 32 ct.toList
  dsaGenerateKeyPair := fun seed =>
    {
      verificationKey := Keccak.firstBytes 1952 seed.toList
      signingKey := Keccak.firstBytes 4032 seed.toList }
  dsaSign := fun sk message context _ =>
    if (plainText sk.toList message context).length ≤ 3309 then
      some (Keccak.firstBytes 3309 (plainText sk.toList message context))
    else none
  dsaVerify := fun vk message context sig =>
    decide ((plainText vk.toList message context).length ≤ 3309 ∧
      sig = Keccak.firstBytes 3309 (plainText vk.toList message context))

theorem length_plainText (key message context : Bytes) (hkey : 32 ≤ key.length) :
    (plainText key message context).length = 48 + message.length + context.length := by
  unfold plainText
  simp only [List.length_append, List.length_take, length_u64Bytes, Nat.min_eq_left hkey]
  omega

/-- The text shows the message and the context, whatever it is padded with. -/
theorem plainText_append_inj (key key' message message' context context' : Bytes) (u u' : Bytes)
    (hkey : key.take 32 = key'.take 32) (hmessage : message.length < 2 ^ 64)
    (hmessage' : message'.length < 2 ^ 64) (hcontext : context.length < 2 ^ 64)
    (hcontext' : context'.length < 2 ^ 64)
    (h : plainText key message context ++ u = plainText key' message' context' ++ u') :
    message = message' ∧ context = context' := by
  have hframes : ∀ key message context v, plainText key message context ++ v
      = key.take 32 ++ (framed 8 message ++ (framed 8 context ++ v)) := by
    intro key message context v
    simp only [plainText, framed, u64Bytes, List.append_assoc]
  rw [hframes, hframes, hkey] at h
  have hfirst := framed_append_inj 8 _ _ _ _ (by omega) (by omega) (List.append_cancel_left h)
  have hsecond := framed_append_inj 8 _ _ _ _ (by omega) (by omega) hfirst.2
  exact ⟨hfirst.1, hsecond.1⟩

/-- Messages and contexts that fit are signed. -/
theorem transparent_signs (sk : Block 4032) (message context : Bytes) (randomness : Block 32)
    (h : message.length + context.length ≤ 3261) :
    (transparent.dsaSign sk message context randomness).isSome := by
  change (if _ then _ else _ : Option (Block 3309)).isSome
  rw [if_pos]
  · rfl
  · rw [length_plainText _ _ _ (by rw [Block.length_toList]; omega)]
    omega

/-! ### What is relied on -/

/-- What the engine relies on: signing succeeds with a context of the size the
    standard admits, a signature by the key's owner verifies for the message and
    the context it was made for and for no others, and decapsulation returns the
    encapsulated secret. -/
structure Lawful (L : Libcrux) : Prop where
  signs : ∀ (seed message : Block 32) (context : Bytes) (randomness : Block 32),
    context.length ≤ 255 →
      (L.dsaSign (L.dsaGenerateKeyPair seed).signingKey message.toList context randomness).isSome
  verifies : ∀ (seed message : Block 32) (context : Bytes) (randomness : Block 32)
    (sig : Block 3309),
    L.dsaSign (L.dsaGenerateKeyPair seed).signingKey message.toList context randomness = some sig →
      ∀ (message' : Block 32) (context' : Bytes),
        L.dsaVerify (L.dsaGenerateKeyPair seed).verificationKey message'.toList context' sig = true
          ↔ message' = message ∧ context' = context
  decapsulates : ∀ (seed : Block 64) (coins : Block 32),
    L.kemDecapsulate (L.kemGenerateKeyPair seed).privateKey
      (L.kemEncapsulate (L.kemGenerateKeyPair seed).publicKey coins).1
        = (L.kemEncapsulate (L.kemGenerateKeyPair seed).publicKey coins).2

/-- With keys from a seed the two secrets agree. -/
theorem kemOk_of_lawful (X : Xof) (L : Libcrux) (hL : L.Lawful) (seed : Seed)
    (commitment : Commitment) : kemOk X L (derivedKeys X L seed) commitment = true :=
  decide_eq_true (hL.decapsulates _ _).symm

/-- A key or a ciphertext shows what it is made of. -/
theorem take_firstBytes (n m : Nat) (b : Block m) (hm : m ≤ n) :
    (Keccak.firstBytes n b.toList).toList.take m = b.toList := by
  rw [Keccak.toList_firstBytes_of_le n _ (by rw [Block.length_toList]; exact hm)]
  exact List.take_left' (Block.length_toList m b)

theorem transparent_lawful : transparent.Lawful := by
  constructor
  case signs =>
    intro seed message context randomness hcontext
    refine transparent_signs _ _ _ _ ?_
    rw [Block.length_toList]
    omega
  case verifies =>
    intro seed message context randomness sig hsign message' context'
    change (if _ then _ else none : Option (Block 3309)) = some sig at hsign
    change decide _ = true ↔ _
    rw [decide_eq_true_iff]
    -- Both keys begin with the seed.
    have hsk : (transparent.dsaGenerateKeyPair seed).signingKey.toList.take 32 = seed.toList :=
      take_firstBytes 4032 32 seed (by omega)
    have hvk : (transparent.dsaGenerateKeyPair seed).verificationKey.toList.take 32
        = seed.toList := take_firstBytes 1952 32 seed (by omega)
    by_cases hfits : (plainText (transparent.dsaGenerateKeyPair seed).signingKey.toList
        message.toList context).length ≤ 3309
    · rw [if_pos hfits, Option.some.injEq] at hsign
      constructor
      · rintro ⟨hfits', hsig⟩
        have htexts := congrArg List.Vector.toList (hsig.symm.trans hsign.symm)
        rw [Keccak.toList_firstBytes_of_le 3309 _ hfits,
          Keccak.toList_firstBytes_of_le 3309 _ hfits'] at htexts
        rw [length_plainText _ _ _ (by rw [Block.length_toList]; omega)] at hfits hfits'
        have hparts := plainText_append_inj _ _ _ _ _ _ _ _ (hvk.trans hsk.symm) (by omega)
          (by omega) (by omega) (by omega) htexts
        exact ⟨Block.toList_inj 32 _ _ hparts.1, hparts.2⟩
      · rintro ⟨rfl, rfl⟩
        have hsame : plainText (transparent.dsaGenerateKeyPair seed).verificationKey.toList
            message'.toList context' = plainText
              (transparent.dsaGenerateKeyPair seed).signingKey.toList message'.toList context' := by
          rw [plainText, hvk, plainText, hsk]
        rw [hsame]
        exact ⟨hfits, hsign.symm⟩
    · rw [if_neg hfits] at hsign
      cases hsign
  case decapsulates =>
    intro seed coins
    change Keccak.firstBytes 32 (Keccak.firstBytes 1088 coins.toList).toList = coins
    apply Block.toList_inj
    have hlen : (Keccak.firstBytes 1088 coins.toList).toList.length = 1088 :=
      Block.length_toList 1088 _
    rw [Keccak.toList_firstBytes 32 _ (by rw [hlen]; omega),
      take_firstBytes 1088 32 coins (by omega)]

end Libcrux

end Veil7
