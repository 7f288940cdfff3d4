import Veil7.Library.Interpolation
import Veil7.Shamir.Sharing

/-!
# Reconstruction Recovers the Secret

`reconstruct` is Lagrange interpolation at zero over the byte field. With
distinct indices every denominator is a product of non-zero differences, so the
exit for a zero inverse is not taken, and the loops return the values of the
shares weighted by `weightAtZero`. The values of a polynomial of degree below
the number of shares then sum to its constant term, which is the secret byte.

## Main definitions

* `point`: The field element of a share's index.

## Theorems

* `hasDuplicate_eq_false_iff`: The duplicate check is injectivity of indices.
* `foldl_basisRound`, `foldlM_valueRound`, `foldlM_secretRound`: The three
  loops of `reconstruct`, from the inside out.
* `basisFraction_eq`: The numerator and denominator of a weight.
* `reconstruct_eq`: What `reconstruct` returns for distinct indices.
* `gfEval_eq`: `gf_eval` evaluates the polynomial of its coefficients.
* `reconstruct_split`: Any enough shares of a split give back the secret.
-/

open Polynomial

namespace Veil7

namespace Shamir

/-- The point of the field at which a share was evaluated. -/
def point (shares : List Share) (i : Fin shares.length) : GF256 := ⟨(shares.get i).index⟩

theorem hasDuplicate_eq_false_iff (shares : List Share) :
    hasDuplicate shares = false ↔ Function.Injective (point shares) := by
  simp only [hasDuplicate, List.any_eq_false, List.mem_finRange, true_imp_iff,
    Bool.and_eq_true, decide_eq_true_eq, beq_iff_eq, not_and, Bool.not_eq_true]
  constructor
  · intro h i j hij
    have hidx : (shares.get i).index = (shares.get j).index := congrArg GF256.byte hij
    rcases lt_trichotomy i j with hlt | heq | hgt
    · exact absurd hidx (h i j hlt)
    · exact heq
    · exact absurd hidx.symm (h j i hgt)
  · intro h i j hlt hidx
    exact absurd (h (GF256.ext hidx)) (ne_of_lt hlt)

/-- The loop over `j` multiplies up both products, skipping share `i`. -/
theorem foldl_basisRound (shares : List Share) (i : Fin shares.length)
    (js : List (Fin shares.length)) (num den : GF256) :
    js.foldl (basisRound shares i) (num.byte, den.byte)
      = ((num * (js.map fun j => if i = j then 1 else point shares j).prod).byte,
        (den * (js.map fun j => if i = j then 1
          else point shares j - point shares i).prod).byte) := by
  induction js generalizing num den with
  | nil => rw [List.foldl_nil, List.map_nil, List.map_nil, List.prod_nil, mul_one, mul_one]
  | cons j js ih =>
      rw [List.foldl_cons, List.map_cons, List.map_cons, List.prod_cons, List.prod_cons, basisRound]
      by_cases hij : i = j
      · rw [if_pos hij, if_pos hij, if_pos hij, one_mul, one_mul, ih]
      · rw [if_neg hij, if_neg hij, if_neg hij, ← mul_assoc, ← mul_assoc, UInt8.xor_comm]
        exact ih (num * point shares j) (den * (point shares j - point shares i))

theorem prod_skip (n : Nat) (i : Fin n) (f : Fin n → GF256) :
    ((List.finRange n).map fun j => if i = j then 1 else f j).prod
      = ∏ j ∈ Finset.univ.erase i, f j := by
  have herase : ∏ j ∈ Finset.univ.erase i, (if i = j then 1 else f j)
      = ∏ j, (if i = j then 1 else f j) := Finset.prod_erase _ (if_pos rfl)
  -- A factor of one stands for the share that is skipped.
  rw [← Fin.prod_univ_def, ← herase]
  exact Finset.prod_congr rfl (fun j hj => if_neg (Finset.ne_of_mem_erase hj).symm)

theorem basisFraction_eq (shares : List Share) (i : Fin shares.length) :
    basisFraction shares i
      = ((∏ j ∈ Finset.univ.erase i, point shares j).byte,
        (∏ j ∈ Finset.univ.erase i, (point shares j - point shares i)).byte) := by
  have h := foldl_basisRound shares i (List.finRange shares.length) 1 1
  rw [one_mul, one_mul, prod_skip, prod_skip] at h
  exact h

/-- For distinct indices no denominator is zero, and the loop goes on. -/
theorem valueRound_eq (shares : List Share) (bytePos : Fin 64) (value : GF256)
    (i : Fin shares.length) (hinj : Function.Injective (point shares)) :
    valueRound shares bytePos value.byte i
      = some (value + GF256.mk ((shares.get i).data.get bytePos)
        * weightAtZero (point shares) i).byte := by
  have hden := inv_ne_zero (prod_sub_ne_zero (point shares) hinj i)
  unfold valueRound
  rw [basisFraction_eq]
  exact if_neg (fun h => hden (GF256.ext h))

theorem foldlM_valueRound (shares : List Share) (bytePos : Fin 64)
    (is : List (Fin shares.length)) (value : GF256) (hinj : Function.Injective (point shares)) :
    is.foldlM (valueRound shares bytePos) value.byte
      = some (value + (is.map fun i => GF256.mk ((shares.get i).data.get bytePos)
        * weightAtZero (point shares) i).sum).byte := by
  induction is generalizing value with
  | nil =>
      rw [List.map_nil, List.sum_nil, add_zero]
      rfl
  | cons i is ih =>
      rw [List.foldlM_cons, List.map_cons, List.sum_cons, ← add_assoc,
        valueRound_eq shares bytePos value i hinj]
      exact ih _

/-- One byte is the sum of the shares' bytes with the weights at zero. -/
theorem secretRound_eq (shares : List Share) (secret : Block 64) (bytePos : Fin 64)
    (hinj : Function.Injective (point shares)) :
    secretRound shares secret bytePos
      = some (secret.set bytePos (∑ i, GF256.mk ((shares.get i).data.get bytePos)
          * weightAtZero (point shares) i).byte) := by
  have h := foldlM_valueRound shares bytePos (List.finRange shares.length) 0 hinj
  rw [zero_add, ← Fin.sum_univ_def] at h
  unfold secretRound
  rw [show (0 : UInt8) = (0 : GF256).byte from rfl, h]
  rfl

theorem foldlM_secretRound (shares : List Share) (ps : List (Fin 64)) (secret : Block 64)
    (hinj : Function.Injective (point shares)) :
    ps.foldlM (secretRound shares) secret
      = some (ps.foldl (fun b p => b.set p
          (∑ i, GF256.mk ((shares.get i).data.get p) * weightAtZero (point shares) i).byte)
          secret) := by
  induction ps generalizing secret with
  | nil => rfl
  | cons p ps ih =>
      rw [List.foldlM_cons, secretRound_eq shares secret p hinj]
      exact ih _

/-- Of a list with shares, `reconstruct` looks for duplicates and runs the loops. -/
theorem reconstruct_of_ne_nil (shares : List Share) (hne : shares ≠ []) :
    reconstruct shares
      = if hasDuplicate shares then none
        else (List.finRange 64).foldlM (secretRound shares) (zeros 64) := by
  rw [reconstruct, if_neg (by rw [List.isEmpty_iff]; exact hne)]

/-- What `reconstruct` returns for distinct indices. -/
theorem reconstruct_eq (shares : List Share) (hne : shares ≠ [])
    (hinj : Function.Injective (point shares)) :
    reconstruct shares
      = some (List.Vector.ofFn fun bytePos =>
          (∑ i, GF256.mk ((shares.get i).data.get bytePos)
            * weightAtZero (point shares) i).byte) := by
  have hdup := (hasDuplicate_eq_false_iff shares).mpr hinj
  rw [reconstruct_of_ne_nil shares hne, hdup, if_neg Bool.false_ne_true,
    foldlM_secretRound shares _ _ hinj, Block.foldl_set_finRange]

/-- The loop of `gf_eval` with the power of `x` it has reached. -/
theorem foldl_gfEvalRound (coeffs : Bytes) (x result xPow : GF256) :
    (coeffs.foldl (gfEvalRound x.byte) (result.byte, xPow.byte)).1
      = (result + xPow * (ofCoeffs (coeffs.map GF256.mk)).eval x).byte := by
  induction coeffs generalizing result xPow with
  | nil =>
      rw [List.map_nil, ofCoeffs, eval_zero, mul_zero, add_zero]
      rfl
  | cons c cs ih =>
      rw [List.foldl_cons, List.map_cons, eval_ofCoeffs_cons, mul_add, ← mul_assoc, ← add_assoc,
        mul_comm xPow (GF256.mk c)]
      exact ih (result + GF256.mk c * xPow) (xPow * x)

/-- `gf_eval` evaluates the polynomial of its coefficients. -/
theorem gfEval_eq (coeffs : Bytes) (x : UInt8) :
    gfEval coeffs x = ((ofCoeffs (coeffs.map GF256.mk)).eval (GF256.mk x)).byte := by
  have h := foldl_gfEvalRound coeffs ⟨x⟩ 0 1
  rw [zero_add, one_mul] at h
  exact h

theorem index_shareAt (secret : Block 64) (t : UInt8) (rngBytes : Block (64 * 32)) (i : UInt8) :
    (shareAt secret t rngBytes i).index = i := rfl

theorem get_data_shareAt (secret : Block 64) (t : UInt8) (rngBytes : Block (64 * 32)) (i : UInt8)
    (bytePos : Fin 64) :
    (shareAt secret t rngBytes i).data.get bytePos
      = gfEval (secret.get bytePos :: coeffsOf rngBytes bytePos t.toNat) i :=
  List.Vector.get_ofFn _ _

/-- Any shares of a split, at least as many as the threshold, in any order and
    without repeats, give back the secret. -/
theorem reconstruct_split (secret : Block 64) (n t : UInt8) (rngBytes : Block (64 * 32))
    (shares subset : List Share)
    (hsplit : split secret n t (some rngBytes) = .ok (some shares))
    (hsub : subset ⊆ shares) (hnodup : subset.Nodup) (hlen : t.toNat ≤ subset.length) :
    reconstruct subset = some secret := by
  rcases (split_eq_some_iff secret n t rngBytes shares).mp hsplit with ⟨ht2, -, -, hshares⟩
  have ht : 2 ≤ t.toNat := ht2
  have hne : subset ≠ [] := by
    intro h
    rw [h, List.length_nil] at hlen
    omega
  -- Every share is the one of its index, so distinct shares have distinct indices.
  have hat : ∀ i : Fin subset.length,
      subset.get i = shareAt secret t rngBytes (subset.get i).index := by
    intro i
    have hmem := hsub (List.get_mem subset i)
    rw [hshares, List.mem_map] at hmem
    rcases hmem with ⟨k, -, hk⟩
    rw [← hk, index_shareAt]
  -- So the duplicate check passes and no denominator vanishes.
  have hinj : Function.Injective (point subset) := by
    intro i j hij
    have hidx : (subset.get i).index = (subset.get j).index := congrArg GF256.byte hij
    refine hnodup.injective_get ?_
    rw [hat i, hat j, hidx]
  rw [reconstruct_eq subset hne hinj]
  refine congrArg some (List.Vector.ext (fun bytePos => ?_))
  rw [List.Vector.get_ofFn]
  -- Each byte is the value at zero of the polynomial its shares lie on.
  set p := ofCoeffs ((secret.get bytePos :: coeffsOf rngBytes bytePos t.toNat).map GF256.mk) with hp
  -- Its degree is below the threshold, and there are that many shares.
  have hdeg : p.degree < Fintype.card (Fin subset.length) := by
    refine lt_of_lt_of_le (degree_ofCoeffs_lt _) ?_
    rw [List.length_map, List.length_cons, length_coeffsOf, Fintype.card_fin, Nat.cast_le]
    omega
  have hvalue : ∀ i, GF256.mk ((subset.get i).data.get bytePos) = p.eval (point subset i) := by
    intro i
    rw [hat i, get_data_shareAt, gfEval_eq]
    rfl
  calc (∑ i, GF256.mk ((subset.get i).data.get bytePos) * weightAtZero (point subset) i).byte
      = (∑ i, p.eval (point subset i) * weightAtZero (point subset) i).byte := by
        simp only [hvalue]
    _ = (p.eval 0).byte := by rw [sum_weightAtZero (point subset) hinj p hdeg]
    _ = secret.get bytePos := by rw [hp, List.map_cons, eval_ofCoeffs_zero]

/-- The third and the first of three shares, in that order, at threshold two. -/
theorem reconstruct_split_two_of_three :
    reconstruct
        [shareAt (List.Vector.replicate 64 0xAB) 2 (List.Vector.replicate (64 * 32) 0x1F) 3,
          shareAt (List.Vector.replicate 64 0xAB) 2 (List.Vector.replicate (64 * 32) 0x1F) 1]
      = some (List.Vector.replicate 64 0xAB) := by
  refine reconstruct_split _ 3 2 (List.Vector.replicate (64 * 32) 0x1F) _ _
    ((split_eq_some_iff _ _ _ _ _).mpr ⟨by decide, by decide, by decide, rfl⟩) ?_ ?_ (by decide)
  · intro share hshare
    rcases List.mem_pair.mp hshare with h | h
    · exact List.mem_map.mpr ⟨3, by decide, h.symm⟩
    · exact List.mem_map.mpr ⟨1, by decide, h.symm⟩
  · refine List.nodup_cons.mpr ⟨fun h => ?_, List.nodup_singleton _⟩
    have hidx := congrArg Share.index (List.mem_singleton.mp h)
    exact absurd hidx (by decide)

end Shamir

end Veil7
