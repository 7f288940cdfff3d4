import Veil7.Library.Keccak
import Veil7.Relations.Statements

/-!
# The Lamport Relation

`relations/hash_preimage.rs`: 256 pairs of secret leaves are derived from a
seed, and their hashes are the public statement. The challenge of the statement
selects one leaf of every pair, and a proof reveals these.

Prover and verifier derive the challenge on their own, from the statement alone,
and read its bits in the same order. So the verifier compares every opening
with the hash of the leaf that the prover reveals there, and accepts the
prover's own proof and no other (`verify_iff_opens`).

## Main definitions

* `statementFromWitness`, `prove`, `verify`: The three functions of the
  relation.
* `challengeOf`: The challenge of a statement.
* `Opens`: A proof with the challenged leaves of a seed.

## Theorems

* `challengeBit_eq`: A bit of the challenge selects one of two leaves.
* `val_prove`: The prover returns the challenged leaves.
* `val_verify`: What the verifier compares.
* `verify_iff_opens`: What it accepts for the statement of a seed.
-/

namespace Veil7

namespace HashPreimage

/-- `SECURITY_BITS`: the number of positions. -/
def securityBits : Nat := 256

structure Witness where
  seed : Block 32

@[ext]
structure Proof where
  openings : List (Block 32)

/-- Bit `i` of the challenge, the lowest of a byte first. -/
def challengeBit (c : Block 32) (i : Nat) : UInt8 :=
  (c.toList.getD (i / 8) 0 >>> UInt8.ofNat (i % 8)) &&& 1

/-- The leaf of a pair that a bit selects. -/
def leafAt (pair : Block 32 × Block 32) (b : UInt8) : Block 32 :=
  if b = 0 then pair.1 else pair.2

section

variable (X : Xof)

def statementFromWitness (witness : Witness) : Hashing Statement := do
  let pk ← (List.range securityBits).mapM fun i => do
    let sk0 ← deriveSk X witness.seed i 0
    let sk1 ← deriveSk X witness.seed i 1
    let p0 ← pubnode X sk0
    let p1 ← pubnode X sk1
    pure (p0, p1)
  pure { pk := pk }

def prove (witness : Witness) : Hashing (Except VeilError (Statement × Proof)) := do
  let stmt ← statementFromWitness X witness
  let t ← Transcript.new X protocolLabel
  let t ← bindStatement X stmt t
  let (c, _) ← t.challenge X (ascii "lamport:challenge") 32
  let openings ← (List.range securityBits).mapM fun i =>
    deriveSk X witness.seed i (challengeBit c i)
  pure (.ok (stmt, { openings := openings }))

def verify (stmt : Statement) (proof : Proof) : Hashing (Except VeilError Choice) :=
  if stmt.pk.length ≠ securityBits ∨ proof.openings.length ≠ securityBits then pure (.ok false)
  else do
    let t ← Transcript.new X protocolLabel
    let t ← bindStatement X stmt t
    let (c, _) ← t.challenge X (ascii "lamport:challenge") 32
    -- Both lists have an entry at every position.
    let ok ← (List.range securityBits).foldlM (fun ok i => do
      let b := challengeBit c i
      let recomputed ← pubnode X (proof.openings.getD i (zeros 32))
      pure (ok && decide (recomputed = leafAt (stmt.pk.getD i (zeros 32, zeros 32)) b))) true
    pure (.ok ok)

/-- The challenge of a statement, as both sides derive it. -/
def challengeOf (stmt : Statement) : Hashing (Block 32) := do
  let t ← Transcript.new X protocolLabel
  let t ← bindStatement X stmt t
  let (c, _) ← t.challenge X (ascii "lamport:challenge") 32
  pure c

/-- The leaf that the prover reveals at a position. -/
def revealed (witness : Witness) (i : Nat) : Block 32 :=
  (deriveSk X witness.seed i
    (challengeBit (challengeOf X (statementFromWitness X witness).val).val i)).val

/-- The proof has 256 openings, and each is the challenged leaf there. -/
def Opens (witness : Witness) (proof : Proof) : Prop :=
  proof.openings.length = securityBits ∧
    ∀ i < securityBits, proof.openings[i]? = some (revealed X witness i)

end

theorem challengeBit_eq (c : Block 32) (i : Nat) : challengeBit c i = 0 ∨ challengeBit c i = 1 := by
  have hnat : (challengeBit c i).toNat
      = (c.toList.getD (i / 8) 0 >>> UInt8.ofNat (i % 8)).toNat % 2 := by
    rw [challengeBit, UInt8.toNat_and, UInt8.toNat_one, Nat.and_one_is_mod]
  rcases Nat.mod_two_eq_zero_or_one
    (c.toList.getD (i / 8) 0 >>> UInt8.ofNat (i % 8)).toNat with h | h
  · left
    exact UInt8.toNat_inj.mp (hnat.trans h)
  · right
    exact UInt8.toNat_inj.mp (hnat.trans h)

section

variable (X : Xof)

/-- The published pair of a position. -/
theorem val_statementFromWitness (witness : Witness) :
    (statementFromWitness X witness).val.pk
      = (List.range securityBits).map fun i =>
        ((pubnode X (deriveSk X witness.seed i 0).val).val,
          (pubnode X (deriveSk X witness.seed i 1).val).val) := by
  rw [statementFromWitness, Queried.val_bind, Queried.val_pure, Queried.val_mapM]
  rfl

/-- The selected leaf of a published pair is the hash of the challenged secret. -/
theorem leafAt_getD (witness : Witness) (i : Nat) (h : i < securityBits) (c : Block 32) :
    leafAt ((statementFromWitness X witness).val.pk.getD i (zeros 32, zeros 32))
        (challengeBit c i)
      = (pubnode X (deriveSk X witness.seed i (challengeBit c i)).val).val := by
  rw [val_statementFromWitness, List.getD_eq_getElem?_getD, List.getElem?_map,
    List.getElem?_range h, Option.map_some, Option.getD_some, leafAt]
  rcases challengeBit_eq c i with hb | hb
  · rw [hb, if_pos rfl]
  · rw [hb, if_neg (by decide)]

/-- The prover returns the challenged leaves, in order. -/
theorem val_prove (witness : Witness) :
    (prove X witness).val = .ok ((statementFromWitness X witness).val,
      { openings := (List.range securityBits).map (revealed X witness) }) := by
  unfold prove
  simp only [Queried.val_bind, Queried.val_pure, Queried.val_mapM]
  rfl

/-- What the verifier compares, at all positions. -/
theorem val_verify (stmt : Statement) (proof : Proof) (hpk : stmt.pk.length = securityBits)
    (hlen : proof.openings.length = securityBits) :
    (verify X stmt proof).val = .ok ((List.range securityBits).all fun i =>
      decide ((pubnode X (proof.openings.getD i (zeros 32))).val
        = leafAt (stmt.pk.getD i (zeros 32, zeros 32))
          (challengeBit (challengeOf X stmt).val i))) := by
  rw [verify, if_neg (by rw [hpk, hlen]; simp only [ne_eq, not_true_eq_false, or_self,
    not_false_eq_true])]
  simp only [Queried.val_bind, Queried.val_pure, Queried.val_foldlM]
  rw [foldl_and, Bool.true_and]
  rfl

theorem verify_of_length_ne (stmt : Statement) (proof : Proof)
    (h : proof.openings.length ≠ securityBits) : (verify X stmt proof).val = .ok false := by
  rw [verify, if_pos (Or.inr h)]
  rfl

/-- For the statement of a seed, the verifier compares the hash of every opening
    with that of the leaf revealed there. -/
theorem verify_iff_pubnode (witness : Witness) (proof : Proof) :
    (verify X (statementFromWitness X witness).val proof).val = .ok true ↔
      proof.openings.length = securityBits ∧ ∀ i < securityBits,
        (pubnode X (proof.openings.getD i (zeros 32))).val
          = (pubnode X (revealed X witness i)).val := by
  have hpk : (statementFromWitness X witness).val.pk.length = securityBits := by
    rw [val_statementFromWitness, List.length_map, List.length_range]
  by_cases hlen : proof.openings.length = securityBits
  · rw [val_verify X _ proof hpk hlen, Except.ok.injEq, List.all_eq_true]
    simp only [decide_eq_true_eq, List.mem_range]
    constructor
    · intro h
      refine ⟨hlen, fun i hi => ?_⟩
      have hi' := h i hi
      rw [leafAt_getD X witness i hi] at hi'
      exact hi'
    · rintro ⟨-, h⟩ i hi
      rw [leafAt_getD X witness i hi]
      exact h i hi
  · rw [verify_of_length_ne X _ proof hlen]
    exact iff_of_false (fun h => by cases h) (fun h => hlen h.1)

/-- The prover's own proof is accepted. -/
theorem verify_prove (witness : Witness) :
    (verify X (statementFromWitness X witness).val
      { openings := (List.range securityBits).map (revealed X witness) }).val = .ok true := by
  refine (verify_iff_pubnode X witness _).mpr ⟨?_, fun i hi => ?_⟩
  · rw [List.length_map, List.length_range]
  · rw [List.getD_eq_getElem?_getD, List.getElem?_map, List.getElem?_range hi, Option.map_some,
      Option.getD_some]

/-- A proof opens the challenged leaves exactly if it is the prover's. -/
theorem opens_iff (witness : Witness) (proof : Proof) :
    Opens X witness proof ↔
      (prove X witness).val = .ok ((statementFromWitness X witness).val, proof) := by
  rw [val_prove, Except.ok.injEq, Prod.mk.injEq, Proof.ext_iff]
  constructor
  · rintro ⟨hlen, h⟩
    refine ⟨rfl, List.ext_getElem? fun i => ?_⟩
    rw [List.getElem?_map]
    by_cases hi : i < securityBits
    · rw [List.getElem?_range hi, h i hi]
      rfl
    · rw [List.getElem?_eq_none (by rw [List.length_range]; omega),
        List.getElem?_eq_none (by rw [hlen]; omega)]
      rfl
  · rintro ⟨-, h⟩
    rw [Opens, ← h, List.length_map, List.length_range]
    refine ⟨rfl, fun i hi => ?_⟩
    rw [List.getElem?_map, List.getElem?_range hi]
    rfl

/-- For the statement of a seed the prover's own proof is accepted, for any
    hash, and apart from collisions of `pubnode` between an opening and the leaf
    it is compared with, no other proof is. -/
theorem verify_iff_opens (witness : Witness) (proof : Proof) :
    (Opens X witness proof ↔
      (prove X witness).val = .ok ((statementFromWitness X witness).val, proof)) ∧
    (Opens X witness proof →
      (verify X (statementFromWitness X witness).val proof).val = .ok true) ∧
    ((∀ i < securityBits, CollisionFree (fun sk => (pubnode X sk).val)
        [proof.openings.getD i (zeros 32), revealed X witness i]) →
      ((verify X (statementFromWitness X witness).val proof).val = .ok true ↔
        Opens X witness proof)) := by
  have hcomplete : Opens X witness proof →
      (verify X (statementFromWitness X witness).val proof).val = .ok true := by
    rintro ⟨hlen, h⟩
    refine (verify_iff_pubnode X witness proof).mpr ⟨hlen, fun i hi => ?_⟩
    rw [List.getD_eq_getElem?_getD, h i hi, Option.getD_some]
  refine ⟨opens_iff X witness proof, hcomplete, fun hcf => ⟨fun hver => ?_, hcomplete⟩⟩
  rcases (verify_iff_pubnode X witness proof).mp hver with ⟨hlen, h⟩
  refine ⟨hlen, fun i hi => ?_⟩
  -- One hash at this position, so one leaf.
  have hleaf := CollisionFree.eq_of_pair _ _ _ (hcf i hi) (h i hi)
  rw [← hleaf, List.getD_eq_getElem?_getD, List.getElem?_eq_getElem (by rw [hlen]; exact hi),
    Option.getD_some]

end

/-- The proof made from a seed of zeros, compared with itself. -/
theorem verify_iff_opens_zeros :
    ∃ proof, (prove Keccak.shake256 { seed := zeros 32 }).val
        = .ok ((statementFromWitness Keccak.shake256 { seed := zeros 32 }).val, proof) ∧
      (verify Keccak.shake256 (statementFromWitness Keccak.shake256 { seed := zeros 32 }).val
        proof).val = .ok true := by
  have hprove := val_prove Keccak.shake256 { seed := zeros 32 }
  have hiff := verify_iff_opens Keccak.shake256 { seed := zeros 32 }
    { openings := (List.range securityBits).map (revealed Keccak.shake256 { seed := zeros 32 }) }
  refine ⟨_, hprove, (hiff.2.2 ?_).mpr (hiff.1.mpr hprove)⟩
  intro i hi
  have hget : ((List.range securityBits).map
      (revealed Keccak.shake256 { seed := zeros 32 })).getD i (zeros 32)
        = revealed Keccak.shake256 { seed := zeros 32 } i := by
    rw [List.getD_eq_getElem?_getD, List.getElem?_map, List.getElem?_range hi]
    rfl
  dsimp only
  rw [hget]
  exact collisionFree_pair_self _ _

end HashPreimage

end Veil7
