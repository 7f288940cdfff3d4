import Mathlib.SetTheory.Cardinal.Finite
import Veil7.Blind
import Veil7.Layers.Verify
import Veil7.Library.Pool

/-!
# Keys from Several Seeds

`derive_keys_multi_source` of `l2_keygen.rs`: the seeds are combined by
exclusive or, and the keys derived from the result. Blocks form a commutative
group under exclusive or, so the combination is a pool (`Library/Pool`).

One unpredictable seed is enough: whatever the others are, the keys are
distributed as those of that seed alone (`card_deriveKeysMultiSource`). But a
seed that is given twice is not given at all, and seeds that all come in pairs
lead to the keys of the seed of zeros (`deriveKeysMultiSource_of_parity`).

## Main definitions

* `combineSeeds`: The exclusive or of the seeds.
* `deriveKeysMultiSource`: The key derivation from several seeds.

## Theorems

* `val_deriveKeysMultiSource`: When keys are derived, and which.
* `card_deriveKeysMultiSource`: How often a choice of one seed leads to given
  keys.
* `deriveKeysMultiSource_of_parity`: What the keys depend on.
-/

namespace Veil7

/-- Blocks are added byte by byte, modulo two, in any order. -/
instance {n : Nat} : AddCommGroup (Block n) where
  add_comm a b := by
    apply List.Vector.ext
    intro i
    rw [Blind.get_add, Blind.get_add, UInt8.xor_comm]

theorem block_add_self {n : Nat} (a : Block n) : a + a = 0 := neg_add_cancel a

/-- The seeds combined, `combined_seed[i] ^= byte`. -/
def combineSeeds (seeds : List Seed) : Seed :=
  seeds.foldl (fun combined seed => List.Vector.zipWith (· ^^^ ·) combined seed) (zeros 64)

theorem combineSeeds_eq (seeds : List Seed) : combineSeeds seeds = pooled 0 seeds := rfl

section

variable (X : Xof) (L : Libcrux)

def deriveKeysMultiSource (seeds : List Seed) : Hashing (Except VeilError EphemeralKeys) :=
  if seeds.isEmpty then pure (.error .crypto)
  else deriveKeys X L (combineSeeds seeds)

/-- Key derivation fails for no seeds only. -/
theorem val_deriveKeysMultiSource (seeds : List Seed) (hne : seeds ≠ []) :
    (deriveKeysMultiSource X L seeds).val = .ok (derivedKeys X L (combineSeeds seeds)) := by
  rw [deriveKeysMultiSource, if_neg (by rw [List.isEmpty_iff]; exact hne), val_deriveKeys]

/-- Whatever the other seeds are, one seed leads to given keys, or to an error,
    for as many of its values as if it were the only one. -/
theorem card_deriveKeysMultiSource (pre post : List Seed) (r : Except VeilError EphemeralKeys) :
    Nat.card { seed : Seed // (deriveKeysMultiSource X L (pre ++ seed :: post)).val = r }
      = Nat.card { seed : Seed // (deriveKeys X L seed).val = r } := by
  have hbijective : Function.Bijective fun seed : Seed => combineSeeds (pre ++ seed :: post) := by
    simp only [combineSeeds_eq]
    exact pooled_bijective 0 pre post
  -- The seed that is combined to a given one is matched with it.
  refine Nat.card_congr ((Equiv.ofBijective _ hbijective).subtypeEquiv fun seed => ?_)
  rw [val_deriveKeysMultiSource X L _ (by simp only [ne_eq, List.append_eq_nil_iff, reduceCtorEq,
    and_false, not_false_eq_true]), val_deriveKeys]
  rfl

/-- The keys depend on the seeds only through which of them are given an odd
    number of times; where none is, they are the keys of the seed of zeros. -/
theorem deriveKeysMultiSource_of_parity (seeds : List Seed) (hne : seeds ≠ []) :
    (∀ seeds' : List Seed, seeds' ≠ [] →
      (∀ seed, seeds.count seed % 2 = seeds'.count seed % 2) →
        (deriveKeysMultiSource X L seeds).val = (deriveKeysMultiSource X L seeds').val) ∧
    ((∀ seed, seeds.count seed % 2 = 0) →
      (deriveKeysMultiSource X L seeds).val = .ok (derivedKeys X L (zeros 64))) := by
  have hpool : ∀ seeds' : List Seed, (∀ seed, seeds.count seed % 2 = seeds'.count seed % 2) →
      combineSeeds seeds = combineSeeds seeds' := by
    intro seeds' hparity
    rw [combineSeeds_eq, combineSeeds_eq]
    exact pooled_eq_of_parity block_add_self 0 seeds seeds' hparity
  constructor
  · intro seeds' hne' hparity
    rw [val_deriveKeysMultiSource X L seeds hne, val_deriveKeysMultiSource X L seeds' hne',
      hpool seeds' hparity]
  · intro heven
    rw [val_deriveKeysMultiSource X L seeds hne, hpool [] heven]
    rfl

end

/-- A seed combined with itself. -/
theorem deriveKeysMultiSource_of_parity_twice :
    (deriveKeysMultiSource Keccak.shake256 Libcrux.transparent
        [List.Vector.replicate 64 7, List.Vector.replicate 64 7]).val
      = .ok (derivedKeys Keccak.shake256 Libcrux.transparent (zeros 64)) := by
  refine (deriveKeysMultiSource_of_parity Keccak.shake256 Libcrux.transparent
    [List.Vector.replicate 64 7, List.Vector.replicate 64 7] (List.cons_ne_nil _ _)).2
    fun seed => ?_
  rw [List.count_cons, List.count_cons, List.count_nil]
  split
  · rfl
  · rfl

end Veil7
