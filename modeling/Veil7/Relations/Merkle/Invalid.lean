import Veil7.Library.Keccak
import Veil7.Relations.Merkle.Shape

/-!
# Statements of Invalid Witnesses

`statement_from_witness` of `relations/merkle.rs` returns no error. Where
`prove` refuses a witness, it answers with a root of zeros and a leaf of zeros,
and leaves it to the verifier that nothing proves them.

Climbing from the leaf of zeros ends with a hash, which is not all zeros unless
SHAKE256 returns that. One shape of proof climbs nowhere: a tree of one leaf
has the leaf for its root, and here the two are equal. `verify_invalid_iff` is
the exact condition, and the proof of that shape is accepted for every witness
that the prover refuses.

## Main definitions

* `Refused`: A witness that `prove` refuses.

## Theorems

* `prove_refused`: It does.
* `val_statementFromWitness_refused`: The statement of such a witness.
* `verify_invalid_iff`: The proofs that are rejected for it.
* `verify_invalid_accepted`: The proof that is not.
-/

namespace Veil7

namespace Merkle

/-- There is no leaf at the index. -/
def Refused (witness : Witness) : Prop :=
  witness.leaves = [] ∨ witness.leaves.length ≤ witness.index

section

variable (X : Xof)

/-- The guard of the prover and of the statement. -/
theorem refused_iff (witness : Witness) :
    ((baseLevel X witness.leaves).val.isEmpty = true ∨
        (baseLevel X witness.leaves).val.length ≤ witness.index) ↔ Refused witness := by
  rw [List.isEmpty_iff_length_eq_zero, val_baseLevel, List.length_map, List.length_map,
    List.length_eq_zero_iff]
  rfl

theorem prove_refused (witness : Witness) (h : Refused witness) :
    (prove X witness).val = .error .crypto := by
  rw [prove, Queried.val_bind, if_pos ((refused_iff X witness).mpr h)]
  rfl

/-- Where the prover has an error, the statement is one of zeros. -/
theorem val_statementFromWitness_refused (witness : Witness) (h : Refused witness) :
    (statementFromWitness X witness).val = { root := zeros 32, leaf := zeros 32 } := by
  rw [statementFromWitness, Queried.val_bind, if_pos ((refused_iff X witness).mpr h)]
  rfl

/-- The statement of a refused witness has an accepted proof, the empty path in
    a tree of one leaf, and no other, unless a node on the way is hashed to
    zeros. -/
theorem verify_invalid_iff (witness : Witness) (proof : Proof) (h : Refused witness)
    (hzero : ∀ q ∈ (verify X (statementFromWitness X witness).val proof).queries,
      digest X 32 q ≠ zeros 32) :
    (verify X (statementFromWitness X witness).val proof).val = .ok false ↔
      ¬ (proof.leafCount = 1 ∧ proof.index = 0 ∧ proof.siblings = []) := by
  rw [val_statementFromWitness_refused X witness h, verify_eq] at hzero ⊢
  rw [Queried.queries_map] at hzero
  rw [Queried.val_map, Except.ok.injEq, ← Bool.not_eq_true, not_iff_not, merkleVerifyPath_iff]
  constructor
  · rintro ⟨hidx, hlen, hclimb⟩
    by_cases hone : 1 < proof.leafCount
    -- The climb has a last step, whose hash would be zeros.
    · exfalso
      have hpath : pathOf (route proof.index proof.leafCount) proof.siblings ≠ [] := by
        rw [ne_eq, ← List.length_eq_zero_iff, ← List.length_map Prod.fst,
          map_fst_pathOf _ _ hlen, List.length_reverse, List.length_eq_zero_iff]
        exact route_ne_nil _ _ hone
      rcases (scheme X).exists_ask_climb (zeros 32) _ hpath with ⟨q, hq, hask⟩
      rw [queries_merkleVerifyPath X _ _ _ _ _ hidx hlen] at hzero
      exact hzero q hq (hask.symm.trans hclimb)
    · rw [route_of_le _ _ (by omega), List.length_nil, List.length_eq_zero_iff] at hlen
      exact ⟨by omega, by omega, hlen⟩
  · rintro ⟨hcount, hindex, hsiblings⟩
    rw [hcount, hindex, hsiblings, route_of_le 0 1 (Nat.le_refl 1)]
    exact ⟨Nat.zero_lt_one, rfl, rfl⟩

/-- A path of one sibling for the empty list is rejected. -/
theorem verify_invalid_iff_pair :
    (verify Keccak.shake256
      (statementFromWitness Keccak.shake256 { leaves := [], index := 0 }).val
      { siblings := [zeros 32], index := 0, leafCount := 2 }).val = .ok false :=
  (verify_invalid_iff Keccak.shake256 { leaves := [], index := 0 }
    { siblings := [zeros 32], index := 0, leafCount := 2 } (Or.inl rfl)
    (by decide +kernel)).mpr (by decide)

/-- The prover refuses the empty list, and the empty path proves its
    statement. -/
theorem verify_invalid_accepted :
    (prove Keccak.shake256 { leaves := [], index := 0 }).val = .error .crypto ∧
    (verify Keccak.shake256
      (statementFromWitness Keccak.shake256 { leaves := [], index := 0 }).val
      { siblings := [], index := 0, leafCount := 1 }).val = .ok true := by
  refine ⟨rfl, ?_⟩
  rw [val_statementFromWitness_refused Keccak.shake256 _ (Or.inl rfl), verify_eq, Queried.val_map]
  refine congrArg Except.ok ((merkleVerifyPath_iff _ _ _ _ _ _).mpr ?_)
  rw [route_of_le 0 1 (Nat.le_refl 1)]
  exact ⟨Nat.zero_lt_one, rfl, rfl⟩

end

end Merkle

end Veil7
