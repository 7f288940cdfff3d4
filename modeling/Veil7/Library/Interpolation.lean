import Mathlib.Data.List.GetD
import Mathlib.LinearAlgebra.Lagrange

/-!
# Interpolation at Zero

What a scheme that shares the constant term of a polynomial needs of Lagrange
interpolation, over any field and for polynomials given by their coefficients.

One direction recovers: the values at distinct points, with weights that depend
on the points only, sum to the value at zero (`sum_weightAtZero`), for any
number of points above the degree. The other direction hides: at distinct
non-zero points a constant term and any values there are met by exactly one
list of as many further coefficients (`existsUnique_coeffs`).

## Main definitions

* `ofCoeffs`: The polynomial of a coefficient list, constant term first.
* `weightAtZero`: The Lagrange weight of a point for the value at zero.
* `weightOver`: The same weight, from the set of points.

## Theorems

* `coeff_ofCoeffs`, `degree_ofCoeffs_lt`: The list is the coefficients.
* `sum_weightAtZero`: The weighted values sum to the value at zero.
* `weightAtZero_of_zero`, `weightAtZero_of_ne`: A point at zero decides alone.
* `weightAtZero_eq`: The order of the points does not matter.
* `weightOver_eq_zero_iff`: A point counts unless another one is zero.
* `existsUnique_coeffs`: Exactly one list of coefficients fits.
-/

open Polynomial

namespace Veil7

section

variable {F : Type*} [Field F]

/-- The polynomial with the given coefficients, constant term first. -/
noncomputable def ofCoeffs : List F → F[X]
  | [] => 0
  | c :: cs => C c + X * ofCoeffs cs

theorem coeff_ofCoeffs (cs : List F) (n : Nat) : (ofCoeffs cs).coeff n = cs.getD n 0 := by
  induction cs generalizing n with
  | nil => rw [ofCoeffs, coeff_zero, List.getD_nil]
  | cons c cs ih =>
      cases n with
      | zero =>
          rw [ofCoeffs, coeff_add, coeff_C_zero, mul_coeff_zero, coeff_X_zero, zero_mul, add_zero,
            List.getD_cons_zero]
      | succ n =>
          rw [ofCoeffs, coeff_add, coeff_C_succ, coeff_X_mul, zero_add, List.getD_cons_succ, ih]

theorem eval_ofCoeffs_cons (c : F) (cs : List F) (x : F) :
    (ofCoeffs (c :: cs)).eval x = c + x * (ofCoeffs cs).eval x := by
  rw [ofCoeffs, eval_add, eval_C, eval_mul, eval_X]

theorem eval_ofCoeffs_zero (c : F) (cs : List F) : (ofCoeffs (c :: cs)).eval 0 = c := by
  rw [eval_ofCoeffs_cons, zero_mul, add_zero]

theorem degree_ofCoeffs_lt (cs : List F) : (ofCoeffs cs).degree < cs.length := by
  rw [degree_lt_iff_coeff_zero]
  intro n hn
  rw [coeff_ofCoeffs, List.getD_eq_default _ _ hn]

/-- A polynomial is read back from as many coefficients as bound its degree. -/
theorem ofCoeffs_map_coeff (p : F[X]) (n : Nat) (h : p.degree < n) :
    ofCoeffs ((List.range n).map p.coeff) = p := by
  ext k
  rw [coeff_ofCoeffs]
  by_cases hk : k < n
  · rw [List.getD_eq_getElem _ _ (by rw [List.length_map, List.length_range]; exact hk),
      List.getElem_map, List.getElem_range]
  · rw [List.getD_eq_default _ _ (by rw [List.length_map, List.length_range]; omega)]
    exact ((degree_lt_iff_coeff_zero p n).mp h k (by omega)).symm

/-- Lists of one length with one polynomial are equal. -/
theorem ofCoeffs_inj (cs cs' : List F) (hlen : cs.length = cs'.length)
    (h : ofCoeffs cs = ofCoeffs cs') : cs = cs' := by
  refine List.ext_getElem hlen (fun n hn hn' => ?_)
  have hcoeff := congrArg (fun p => p.coeff n) h
  simp only [coeff_ofCoeffs] at hcoeff
  rw [List.getD_eq_getElem _ _ hn, List.getD_eq_getElem _ _ hn'] at hcoeff
  exact hcoeff

end

section

variable {F : Type*} [Field F] {ι : Type*} [Fintype ι] [DecidableEq ι]

/-- The weight of point `i` in the value at zero: the product over the other
    points of each divided by its distance to point `i`. -/
def weightAtZero (v : ι → F) (i : ι) : F :=
  (∏ j ∈ Finset.univ.erase i, v j) * (∏ j ∈ Finset.univ.erase i, (v j - v i))⁻¹

/-- A point at zero has the whole weight. -/
theorem weightAtZero_of_zero (v : ι → F) (hv : Function.Injective v) (i : ι) (hi : v i = 0) :
    weightAtZero v i = 1 := by
  have hprod : ∏ j ∈ Finset.univ.erase i, v j ≠ 0 := by
    rw [Finset.prod_ne_zero_iff]
    intro j hj hzero
    exact Finset.ne_of_mem_erase hj (hv (hzero.trans hi.symm))
  unfold weightAtZero
  simp only [hi, sub_zero]
  exact mul_inv_cancel₀ hprod

/-- Beside a point at zero the others have no weight. -/
theorem weightAtZero_of_ne (v : ι → F) (i k : ι) (hi : v i = 0) (hk : k ≠ i) :
    weightAtZero v k = 0 := by
  unfold weightAtZero
  rw [Finset.prod_eq_zero (Finset.mem_erase.mpr ⟨hk.symm, Finset.mem_univ i⟩) hi, zero_mul]

theorem eval_basis_zero (v : ι → F) (i : ι) :
    (Lagrange.basis Finset.univ v i).eval 0 = weightAtZero v i := by
  rw [Lagrange.basis, eval_prod, weightAtZero, ← Finset.prod_inv_distrib, ← Finset.prod_mul_distrib]
  refine Finset.prod_congr rfl (fun j _ => ?_)
  rw [Lagrange.basisDivisor, eval_mul, eval_C, eval_sub, eval_X, eval_C, zero_sub, mul_neg,
    ← neg_mul, ← inv_neg, neg_sub, mul_comm]

/-- The values at distinct points, weighted, sum to the value at zero. -/
theorem sum_weightAtZero (v : ι → F) (hv : Function.Injective v) (p : F[X])
    (hdeg : p.degree < Fintype.card ι) : ∑ i, p.eval (v i) * weightAtZero v i = p.eval 0 := by
  -- The polynomial is its own interpolation at the points; evaluate that at zero.
  have hp := Lagrange.eq_interpolate (hv.injOn (s := (Finset.univ : Finset ι))) hdeg
  conv_rhs => rw [hp, Lagrange.interpolate_apply, eval_finsetSum]
  refine Finset.sum_congr rfl (fun i _ => ?_)
  rw [eval_mul, eval_C, eval_basis_zero]

/-- No denominator of the weights vanishes. -/
theorem prod_sub_ne_zero (v : ι → F) (hv : Function.Injective v) (i : ι) :
    ∏ j ∈ Finset.univ.erase i, (v j - v i) ≠ 0 := by
  refine Finset.prod_ne_zero_iff.mpr (fun j hj h => ?_)
  exact Finset.ne_of_mem_erase hj (hv (sub_eq_zero.mp h))

end

section

variable {F : Type*} [Field F] [DecidableEq F]

/-- The weight of a point of a set in the value at zero. -/
def weightOver (S : Finset F) (x : F) : F :=
  (∏ y ∈ S.erase x, y) * (∏ y ∈ S.erase x, (y - x))⁻¹

/-- Only the set of the points matters for a weight. -/
theorem weightAtZero_eq {ι : Type*} [Fintype ι] [DecidableEq ι] (v : ι → F)
    (hv : Function.Injective v) (i : ι) :
    weightAtZero v i = weightOver (Finset.univ.image v) (v i) := by
  rw [weightAtZero, weightOver, ← Finset.image_erase hv, Finset.prod_image hv.injOn,
    Finset.prod_image hv.injOn]

theorem weightOver_eq_zero_iff (S : Finset F) (x : F) : weightOver S x = 0 ↔ 0 ∈ S.erase x := by
  have hden : (∏ y ∈ S.erase x, (y - x))⁻¹ ≠ 0 :=
    inv_ne_zero (Finset.prod_ne_zero_iff.mpr fun y hy hzero =>
      Finset.ne_of_mem_erase hy (sub_eq_zero.mp hzero))
  rw [weightOver, mul_eq_zero, or_iff_left hden, Finset.prod_eq_zero_iff]
  constructor
  · rintro ⟨y, hy, rfl⟩
    exact hy
  · intro h
    exact ⟨0, h, rfl⟩

/-- A polynomial of degree at most the number of non-zero points is known from
    its constant term and its values there. -/
theorem eq_of_eval_eq (xs : Finset F) (h0 : 0 ∉ xs) (s : F) (cs cs' : List F)
    (hcs : cs.length = xs.card) (hcs' : cs'.length = xs.card)
    (h : ∀ x ∈ xs, (ofCoeffs (s :: cs)).eval x = (ofCoeffs (s :: cs')).eval x) : cs = cs' := by
  have hcard : (insert 0 xs).card = xs.card + 1 := Finset.card_insert_of_notMem h0
  -- With zero added the points are one more than the degree.
  have hdeg : ∀ ds : List F, ds.length = xs.card →
      (ofCoeffs (s :: ds)).degree < (insert 0 xs).card := by
    intro ds hds
    have hlt := degree_ofCoeffs_lt (s :: ds)
    rw [List.length_cons, hds, ← hcard] at hlt
    exact hlt
  have hpoly := eq_of_degrees_lt_of_eval_finset_eq (insert 0 xs) (hdeg cs hcs) (hdeg cs' hcs')
    (fun x hx => ?_)
  · have hlen : (s :: cs).length = (s :: cs').length := by
      rw [List.length_cons, List.length_cons, hcs, hcs']
    exact List.tail_eq_of_cons_eq (ofCoeffs_inj _ _ hlen hpoly)
  · rcases Finset.mem_insert.mp hx with hx | hx
    · rw [hx, eval_ofCoeffs_zero, eval_ofCoeffs_zero]
    · exact h x hx

/-- A constant term and values at distinct non-zero points are met by exactly
    one list of as many further coefficients. -/
theorem existsUnique_coeffs (xs : Finset F) (h0 : 0 ∉ xs) (s : F) (y : F → F) :
    ∃! cs : List.Vector F xs.card, ∀ x ∈ xs, (ofCoeffs (s :: cs.toList)).eval x = y x := by
  have hcard : (insert 0 xs).card = xs.card + 1 := Finset.card_insert_of_notMem h0
  have hinj : Set.InjOn (id : F → F) (insert 0 xs : Finset F) := Function.injective_id.injOn
  -- The polynomial through the constant term at zero and the values.
  set p := Lagrange.interpolate (insert 0 xs) id (fun x => if x = 0 then s else y x) with hp
  have hdeg : p.degree < (xs.card + 1 : Nat) := by
    have hlt := Lagrange.degree_interpolate_lt (fun x => if x = 0 then s else y x) hinj
    rw [hcard] at hlt
    exact hlt
  have heval : ∀ x ∈ insert 0 xs, p.eval x = if x = 0 then s else y x := fun x hx =>
    Lagrange.eval_interpolate_at_node _ hinj hx
  -- Its constant term is the one given, so the list is the rest of its coefficients.
  have hcons : s :: (List.range xs.card).map (fun i => p.coeff (i + 1))
      = (List.range (xs.card + 1)).map p.coeff := by
    rw [List.range_succ_eq_map, List.map_cons, List.map_map, coeff_zero_eq_eval_zero,
      heval 0 (Finset.mem_insert_self _ _), if_pos rfl]
    rfl
  refine ⟨⟨(List.range xs.card).map (fun i => p.coeff (i + 1)), ?_⟩, ?_, ?_⟩
  · rw [List.length_map, List.length_range]
  · intro x hx
    rw [List.Vector.toList_mk, hcons, ofCoeffs_map_coeff p _ hdeg,
      heval x (Finset.mem_insert_of_mem hx), if_neg (ne_of_mem_of_not_mem hx h0)]
  · intro cs hcs
    refine List.Vector.toList_injective (eq_of_eval_eq xs h0 s _ _ cs.toList_length ?_ ?_)
    · rw [List.Vector.toList_mk, List.length_map, List.length_range]
    · intro x hx
      rw [hcs x hx, List.Vector.toList_mk, hcons, ofCoeffs_map_coeff p _ hdeg,
        heval x (Finset.mem_insert_of_mem hx), if_neg (ne_of_mem_of_not_mem hx h0)]

end

end Veil7
