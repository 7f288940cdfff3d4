import Mathlib.Algebra.BigOperators.Group.Finset.Basic
import Mathlib.GroupTheory.GroupAction.Basic
import Mathlib.SetTheory.Cardinal.Finite

/-!
# Pools and Masks

What a group does with a random element of it.

Contributions added into a pool one after the other, in a commutative group.
Their order does not matter, and each of them counts: with the others fixed,
the pool is a bijective image of any one of them, so whoever cannot predict
that one cannot predict the pool.

Where every element is its own inverse, as under exclusive or, equal
contributions cancel, and the pool depends on nothing but the parity with which
each value is contributed.

A secret is hidden by a random element of a finite group acting on the messages.
How often a message is masked to an output says what an observer learns: two
messages are hidden from each other when every output is reached from both by
the same number of group elements. That is the case exactly for two messages
of one orbit. Inside an orbit, shifting by the element that joins the messages
matches up the masks; from another orbit, a message cannot reach the output
that the zero mask gives.

## Main definitions

* `pooled`: The pool after a list of contributions.

## Theorems

* `pooled_eq_add_sum`: The pool is a sum, in any order.
* `pooled_eq_iff`: Pools with one contribution changed.
* `pooled_bijective`: The pool as a function of one contribution.
* `pooled_eq_of_parity`: What the pool depends on under exclusive or.
* `card_vadd_eq_iff`: When two messages are masked alike.
-/

namespace Veil7

universe u v

section

variable {G : Type u} [AddCommGroup G]

/-- The pool after adding the contributions in order. -/
def pooled (pool : G) (contributions : List G) : G :=
  contributions.foldl (fun pool c => pool + c) pool

/-- The contributions are added up, so their order does not matter. -/
theorem pooled_eq_add_sum (pool : G) (l : List G) : pooled pool l = pool + l.sum := by
  induction l generalizing pool with
  | nil => rw [List.sum_nil, add_zero]; rfl
  | cons c l ih =>
      change pooled (pool + c) l = _
      rw [ih, List.sum_cons, add_assoc]

/-- Two pools that differ in one contribution only agree if it does not differ. -/
theorem pooled_eq_iff (pool : G) (pre post : List G) (c c' : G) :
    pooled pool (pre ++ c :: post) = pooled pool (pre ++ c' :: post) ↔ c = c' := by
  rw [pooled_eq_add_sum, pooled_eq_add_sum, List.sum_append, List.sum_append, List.sum_cons,
    List.sum_cons, add_right_inj, add_right_inj, add_left_inj]

/-- With the other contributions fixed, every pool comes from exactly one value
    of the one that is left. -/
theorem pooled_bijective (pool : G) (pre post : List G) :
    Function.Bijective fun c => pooled pool (pre ++ c :: post) := by
  refine ⟨fun c c' h => (pooled_eq_iff pool pre post c c').mp h, fun target => ?_⟩
  refine ⟨target - pool - pre.sum - post.sum, ?_⟩
  dsimp only
  rw [pooled_eq_add_sum, List.sum_append, List.sum_cons, sub_add_cancel, add_sub_cancel,
    add_sub_cancel]

end

section

variable {G : Type u} [AddCommGroup G] [DecidableEq G]

/-- Contributions that occur equally often modulo two make one pool. -/
theorem pooled_eq_of_parity (h2 : ∀ g : G, g + g = 0) (pool : G) (l l' : List G)
    (hparity : ∀ g, l.count g % 2 = l'.count g % 2) : pooled pool l = pooled pool l' := by
  rw [pooled_eq_add_sum, pooled_eq_add_sum,
    Finset.sum_list_count_of_subset l (l.toFinset ∪ l'.toFinset) Finset.subset_union_left,
    Finset.sum_list_count_of_subset l' (l.toFinset ∪ l'.toFinset) Finset.subset_union_right]
  refine congrArg (pool + ·) (Finset.sum_congr rfl fun g _ => ?_)
  have hg : (2 : Nat) • g = 0 := by rw [two_nsmul, h2]
  rw [nsmul_eq_mod_nsmul (l.count g) hg, nsmul_eq_mod_nsmul (l'.count g) hg, hparity]

end

section

variable {G : Type u} {α : Type v} [AddGroup G] [AddAction G α]

/-- Messages of one orbit are masked to every output equally often. -/
theorem card_vadd_eq_of_mem_orbit (a b : α) (h : b ∈ AddAction.orbit G a) (c : α) :
    Nat.card { g : G // g +ᵥ a = c } = Nat.card { g : G // g +ᵥ b = c } := by
  rcases h with ⟨k, rfl⟩
  -- A mask for the second message, with the joining element added, is one for the first.
  refine (Nat.card_congr ((Equiv.addRight k).subtypeEquiv fun g => ?_)).symm
  rw [Equiv.coe_addRight, add_vadd]

/-- Two messages are masked to every output equally often exactly if they lie
    in one orbit. -/
theorem card_vadd_eq_iff [Finite G] (a b : α) :
    (∀ c, Nat.card { g : G // g +ᵥ a = c } = Nat.card { g : G // g +ᵥ b = c }) ↔
      b ∈ AddAction.orbit G a := by
  constructor
  · intro h
    -- The zero mask leaves the first message alone, so some mask sends the second there.
    have hpos : 0 < Nat.card { g : G // g +ᵥ a = a } :=
      Nat.card_pos_iff.mpr ⟨⟨0, zero_vadd G a⟩, inferInstance⟩
    rw [h a] at hpos
    rcases (Nat.card_pos_iff.mp hpos).1 with ⟨g, hg⟩
    exact ⟨-g, by rw [← hg]; exact neg_vadd_vadd g b⟩
  · exact card_vadd_eq_of_mem_orbit a b

end

end Veil7
