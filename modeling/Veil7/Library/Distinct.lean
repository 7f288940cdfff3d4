import Mathlib.Data.FinEnum
import Mathlib.Data.Finset.Powerset
import Mathlib.Data.Fintype.BigOperators
import Mathlib.Data.Fintype.CardEmbedding
import Mathlib.Data.Fintype.Powerset
import Mathlib.Data.Vector.Mem
import Mathlib.Algebra.Order.BigOperators.Group.Finset
import Mathlib.SetTheory.Cardinal.Finite

/-!
# Strings with Many or Few Values

How many strings of a given length have all their values different, and how many
have few of them. The strings without a repetition are the embeddings of the
positions into the values. A string with at most `k` values is a string over one
of the sets of `k` values, and these are counted once for each set.

## Theorems

* `card_nodup`: The strings without a repetition.
* `card_few_le`: The strings with few values.
-/

namespace Veil7

universe u

theorem card_byte : Fintype.card UInt8 = 256 := (@FinEnum.card_eq_fintypeCard UInt8 _ _).symm

variable {α : Type u} [Fintype α]

/-- The strings without a repetition are counted by the falling factorial. -/
theorem card_nodup (n : Nat) :
    Nat.card { v : List.Vector α n // v.toList.Nodup } = (Fintype.card α).descFactorial n := by
  let embeddings : { v : List.Vector α n // v.toList.Nodup } ≃ (Fin n ↪ α) := {
    toFun := fun v => ⟨v.val.get, List.Vector.nodup_iff_injective_get.mp v.property⟩
    invFun := fun f => ⟨List.Vector.ofFn f, by
      rw [List.Vector.nodup_iff_injective_get]
      intro i j h
      rw [List.Vector.get_ofFn, List.Vector.get_ofFn] at h
      exact f.injective h⟩
    left_inv := fun v => Subtype.ext (List.Vector.ofFn_get v.val)
    right_inv := fun f => by
      ext i
      exact List.Vector.get_ofFn f i }
  classical
  rw [Nat.card_congr embeddings, Nat.card_eq_fintype_card, Fintype.card_embedding_eq,
    Fintype.card_fin]

variable [DecidableEq α]

/-- The strings with at most `k` values are at most so many. -/
theorem card_few_le (n k : Nat) (hk : k ≤ Fintype.card α) :
    Nat.card { v : List.Vector α n // v.toList.toFinset.card ≤ k }
      ≤ (Fintype.card α).choose k * k ^ n := by
  -- The strings over the sets of `k` values.
  let confined : Finset (Fin n → α) :=
    (Finset.powersetCard k Finset.univ).biUnion fun s => Fintype.piFinset fun _ : Fin n => s
  have hconfined : confined.card ≤ (Fintype.card α).choose k * k ^ n := by
    refine (Finset.card_biUnion_le_card_mul _ _ (k ^ n) fun s hs => ?_).trans_eq ?_
    · rw [Fintype.card_piFinset_const, (Finset.mem_powersetCard.mp hs).2]
    · rw [Finset.card_powersetCard, Finset.card_univ]
  have hmem : ∀ v : List.Vector α n, v.toList.toFinset.card ≤ k → v.get ∈ confined := by
    intro v hv
    obtain ⟨s, hsub, hcard⟩ := Finset.exists_superset_card_eq hv hk
    refine Finset.mem_biUnion.mpr ⟨s, Finset.mem_powersetCard.mpr ⟨Finset.subset_univ s, hcard⟩,
      Fintype.mem_piFinset.mpr fun i => hsub ?_⟩
    exact List.mem_toFinset.mpr (List.Vector.get_mem i v)
  have hinj : Function.Injective
      fun v : { v : List.Vector α n // v.toList.toFinset.card ≤ k } =>
        (⟨v.val.get, hmem v.val v.property⟩ : { f // f ∈ confined }) := by
    intro v w h
    refine Subtype.ext (List.Vector.ext fun i => ?_)
    exact congrFun (congrArg Subtype.val h) i
  refine (Nat.card_le_card_of_injective _ hinj).trans ?_
  rw [Nat.card_eq_fintype_card, Fintype.card_coe]
  exact hconfined

end Veil7
