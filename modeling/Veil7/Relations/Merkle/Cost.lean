import Mathlib.Data.Nat.Log
import Veil7.Relations.Merkle.Soundness

/-!
# What a Merkle Proof Costs

The builder of `relations/merkle.rs` hashes every leaf once, and every level
removes as many names as it hashes pairs, so over all levels it hashes one pair
less than there are leaves. A level halves the number of names and records at
most one sibling of the leaf.

The verifier hashes at most once on a level and at most once for a sibling of
the proof. That holds of every proof, also of one that was not built by the
prover, so the number of leaves that a proof claims costs the verifier only its
logarithm.

## Theorems

* `length_queries_rootAndPath`, `length_rootAndPath`: The builder, from a level.
* `length_queries_replay`: The verifier's loop, from a level.
* `merkle_cost`: The hashes of the prover and of the verifier.
-/

namespace Veil7

namespace Merkle

section

variable (X : Xof)

/-- A level hashes its pairs. -/
theorem length_queries_nextLevel (level : List Digest) :
    (nextLevel X level).queries.length = level.length / 2 := by
  induction level using nextLevel.induct with
  | case1 left right rest ih =>
      rw [nextLevel, Queried.queries_bind, Queried.queries_bind, Queried.queries_pure,
        List.append_nil, queries_nodeHash, List.length_append, ih, List.length_singleton,
        List.length_cons, List.length_cons]
      omega
  | case2 last => simp only [nextLevel, Queried.queries_pure, List.length_nil, List.length_cons]
  | case3 => simp only [nextLevel, Queried.queries_pure, List.length_nil]

/-- The levels together hash one pair less than the first has names. -/
theorem length_queries_rootAndPath (level : List Digest) (idx : Nat) (hpos : 0 < level.length) :
    (rootAndPath X level idx).queries.length + 1 = level.length := by
  induction hn : level.length using Nat.strong_induction_on generalizing level idx with
  | _ n ih =>
    rw [rootAndPath]
    by_cases hlt : 1 < level.length
    · have hlen := length_nextLevel X level
      rw [dif_pos hlt]
      simp only [Queried.queries_bind, Queried.queries_attach, Queried.val_attach,
        Queried.queries_pure, List.append_nil, List.length_append, length_queries_nextLevel]
      have hrest := ih _ (by omega) (nextLevel X level).val (idx / 2) (by omega) hlen
      omega
    · rw [dif_neg hlt]
      change 0 + 1 = n
      omega

/-- A path has at most as many siblings as the number of names can be halved. -/
theorem length_rootAndPath (level : List Digest) (idx : Nat) :
    (rootAndPath X level idx).val.2.length ≤ Nat.clog 2 level.length := by
  induction hn : level.length using Nat.strong_induction_on generalizing level idx with
  | _ n ih =>
    rw [rootAndPath]
    by_cases hlt : 1 < level.length
    · have hlen := length_nextLevel X level
      have hsibling : (sibling level idx).length ≤ 1 := by
        unfold sibling
        split
        · exact Nat.zero_le 1
        · split
          · exact Nat.le_refl 1
          · exact Nat.le_refl 1
      rw [dif_pos hlt]
      simp only [Queried.val_bind, Queried.val_attach, Queried.val_pure, List.length_append]
      have hrest := ih _ (by omega) (nextLevel X level).val (idx / 2) hlen
      rw [Nat.clog_of_two_le (by omega) (by omega), show n + 2 - 1 = level.length + 1 by omega]
      omega
    · rw [dif_neg hlt]
      exact Nat.zero_le _

/-- The verifier's loop hashes at most once on a level, and each time for
    another sibling. -/
theorem length_queries_replay (siblings : List Digest) (hash : Digest) (idx n used : Nat) :
    (replay X siblings hash idx n used).queries.length
      ≤ min (siblings.length - used) (Nat.clog 2 n) := by
  induction n using Nat.strong_induction_on generalizing hash idx used with
  | _ n ih =>
    rw [replay]
    by_cases hn : 1 < n
    · have hclog := Nat.clog_of_two_le (b := 2) (n := n) (by omega) (by omega)
      rw [show n + 2 - 1 = n + 1 by omega] at hclog
      rw [if_pos hn]
      by_cases hlone : idx = n - 1 ∧ n % 2 = 1
      · rw [if_pos hlone]
        have hrest := ih ((n + 1) / 2) (by omega) hash (idx / 2) used
        omega
      · rw [if_neg hlone]
        by_cases hused : used < siblings.length
        · rw [List.getElem?_eq_getElem hused]
          dsimp only
          have hstep : (if idx % 2 = 0 then nodeHash X hash siblings[used]
              else nodeHash X siblings[used] hash).queries.length = 1 := by
            split
            · rw [queries_nodeHash, List.length_singleton]
            · rw [queries_nodeHash, List.length_singleton]
          rw [Queried.queries_bind, List.length_append, hstep]
          have hrest := ih ((n + 1) / 2) (by omega)
            (if idx % 2 = 0 then nodeHash X hash siblings[used]
              else nodeHash X siblings[used] hash).val (idx / 2) (used + 1)
          omega
        · rw [List.getElem?_eq_none (by omega)]
          exact Nat.zero_le _
    · rw [if_neg hn]
      exact Nat.zero_le _

/-- The prover hashes once for a leaf and once for each pair that is joined, and
    its proof is as long as the logarithm of the number of leaves at most. The
    verifier hashes at most once for a sibling, and no more often than the
    logarithm of the number of leaves claimed, whatever the proof. -/
theorem merkle_cost :
    (∀ (leaves : List Bytes) (i : Nat), i < leaves.length →
      ∃ stmt proof, (prove X { leaves := leaves, index := i }).val = .ok (stmt, proof) ∧
        (prove X { leaves := leaves, index := i }).queries.length = 2 * leaves.length - 1 ∧
        proof.siblings.length ≤ Nat.clog 2 leaves.length) ∧
    ∀ (stmt : Statement) (proof : Proof),
      (verify X stmt proof).queries.length
        ≤ min proof.siblings.length (Nat.clog 2 proof.leafCount) := by
  constructor
  · intro leaves i hi
    have hlen : (baseLevel X leaves).val.length = leaves.length := by
      rw [val_baseLevel, List.length_map, List.length_map]
    have hpath := length_rootAndPath X (baseLevel X leaves).val i
    have hqueries := length_queries_rootAndPath X (baseLevel X leaves).val i (by omega)
    rw [hlen] at hpath hqueries
    refine ⟨_, _, prove_eq X leaves i hi, ?_, hpath⟩
    have hguard : ¬ ((baseLevel X leaves).val.isEmpty = true ∨
        (baseLevel X leaves).val.length ≤ i) := by
      rw [List.isEmpty_iff_length_eq_zero]
      omega
    rw [prove, Queried.queries_bind, if_neg hguard, queries_baseLevel]
    simp only [Queried.queries_bind, Queried.queries_pure, List.append_nil, List.length_append,
      List.length_map]
    omega
  · intro stmt proof
    rw [verify]
    by_cases hguard : proof.leafCount = 0 ∨ proof.leafCount ≤ proof.index
    · rw [if_pos hguard]
      exact Nat.zero_le _
    · rw [if_neg hguard]
      simp only [Queried.queries_bind, Queried.queries_pure, List.append_nil]
      exact length_queries_replay X proof.siblings stmt.leaf proof.index proof.leafCount 0

end

end Merkle

end Veil7
