import Veil7.Shamir.Recovery

/-!
# What Is Split and What Is Accepted

The two ends of `shamir.rs` at the edges of their domains.

`split` documents thresholds from two to the number of shares. It checks these
bounds, but it keeps the coefficients in an array of 32, so it is safe up to
that and runs out of bounds from there on (`splitsSafely_iff`).

`reconstruct` accepts every list of shares without repeated indices
(`isSome_reconstruct_iff`); its check of the inverse is never what refuses one
(`gfInv_basisFraction_ne_zero`). The index zero is not checked, though `Share`
rules it out. Zero is where the secret is evaluated, and a share with that index
is returned as the secret, whatever the others are
(`reconstruct_of_index_zero`).

## Main definitions

* `SplitsSafely`: `split` behaves as documented on given parameters.
* `WellFormed`: Shares as `Share` describes them, without repeats.
* `AcceptsWellFormed`: `reconstruct` accepts given shares exactly if they are
  well-formed, and its inner check refuses none.

## Theorems

* `splitsSafely_iff`: When `split` is safe.
* `reconstruct_of_index_zero`: A share at index zero decides alone.
* `acceptsWellFormed_iff`: When `reconstruct` accepts as it should.
-/

namespace Veil7

namespace Shamir

/-! ### Splitting -/

/-- The outcome that the documentation of `split` promises: shares for the
    indices from one to `n` if the threshold is from two to `n`, and nothing
    otherwise. -/
def SplitsSafely (secret : Block 64) (n t : UInt8) (rngBytes : Block (64 * 32)) : Prop :=
  (2 ≤ t ∧ t ≤ n → ∃ shares, split secret n t (some rngBytes) = .ok (some shares) ∧
    shares.map (fun share => share.index.toNat) = List.range' 1 n.toNat) ∧
  (¬ (2 ≤ t ∧ t ≤ n) → split secret n t (some rngBytes) = .ok none)

theorem index_shares (secret : Block 64) (n t : UInt8) (rngBytes : Block (64 * 32)) :
    ((indices n).map (shareAt secret t rngBytes)).map (fun share => share.index.toNat)
      = List.range' 1 n.toNat := by
  have hlt := n.toNat_lt
  rw [indices, List.map_map, List.map_map]
  refine (List.map_congr_left ?_).trans (List.map_id _)
  intro k hk
  rw [List.mem_range'_1] at hk
  refine UInt8.toNat_ofNat_of_lt' ?_
  change k < 256
  omega

/-- `split` is safe exactly up to thresholds of 32. -/
theorem splitsSafely_iff (secret : Block 64) (n t : UInt8) (rngBytes : Block (64 * 32)) :
    SplitsSafely secret n t rngBytes ↔ t.toNat ≤ 32 ∨ n < t := by
  constructor
  · intro h
    by_contra hno
    rw [not_or, Nat.not_le, UInt8.not_lt] at hno
    have h2 : 2 ≤ t := UInt8.le_iff_toNat_le.mpr (by
      change 2 ≤ t.toNat
      omega)
    rcases h.1 ⟨h2, hno.2⟩ with ⟨shares, hshares, -⟩
    rw [split_of_lt secret n t rngBytes h2 hno.2 hno.1] at hshares
    cases hshares
  · intro h
    refine ⟨?_, split_of_invalid secret n t _⟩
    rintro ⟨h2, hn⟩
    have ht32 := h.resolve_right (UInt8.not_lt.mpr hn)
    exact ⟨_, split_of_le secret n t rngBytes h2 hn ht32, index_shares secret n t rngBytes⟩

/-- Thirty-three shares, all of them needed. -/
theorem split_thirty_three :
    split (zeros 64) 33 33 (some (zeros (64 * 32))) = .error .indexOutOfBounds ∧
      ¬ SplitsSafely (zeros 64) 33 33 (zeros (64 * 32)) := by
  have hpanic := split_of_lt (zeros 64) 33 33 (zeros (64 * 32)) (by decide) (by decide) (by decide)
  refine ⟨hpanic, ?_⟩
  intro h
  rcases h.1 ⟨by decide, by decide⟩ with ⟨shares, hshares, -⟩
  rw [hpanic] at hshares
  cases hshares

/-! ### Reconstructing -/

/-- There are shares, their indices are those `Share` admits, and none occurs
    twice. -/
def WellFormed (shares : List Share) : Prop :=
  shares ≠ [] ∧ (∀ share ∈ shares, share.index ≠ 0) ∧ (shares.map Share.index).Nodup

/-- `reconstruct` accepts the shares exactly if they are well-formed, and the
    exit for a zero inverse is not taken behind the duplicate check. -/
def AcceptsWellFormed (shares : List Share) : Prop :=
  ((reconstruct shares).isSome ↔ WellFormed shares) ∧
  (hasDuplicate shares = false → ∀ i, gfInv (basisFraction shares i).2 ≠ 0)

theorem injective_point_iff (shares : List Share) :
    Function.Injective (point shares) ↔ (shares.map Share.index).Nodup := by
  have hmap : shares.map Share.index = List.ofFn fun i => (shares.get i).index := by
    conv_lhs => rw [← List.ofFn_get shares, List.map_ofFn]
    rfl
  rw [hmap, List.nodup_ofFn]
  constructor
  · intro h i j hij
    exact h (GF256.ext hij)
  · intro h i j hij
    exact h (congrArg GF256.byte hij)

/-- The denominators are products of differences, none of them zero. -/
theorem gfInv_basisFraction_ne_zero (shares : List Share) (h : hasDuplicate shares = false)
    (i : Fin shares.length) : gfInv (basisFraction shares i).2 ≠ 0 := by
  have hinj := (hasDuplicate_eq_false_iff shares).mp h
  have hden := inv_ne_zero (prod_sub_ne_zero (point shares) hinj i)
  rw [basisFraction_eq]
  exact fun hzero => hden (GF256.ext hzero)

/-- Shares are accepted exactly if there are any and no index occurs twice. -/
theorem isSome_reconstruct_iff (shares : List Share) :
    (reconstruct shares).isSome ↔ shares ≠ [] ∧ (shares.map Share.index).Nodup := by
  rw [← injective_point_iff]
  by_cases hnil : shares = []
  · rw [hnil]
    simp [reconstruct]
  by_cases hinj : Function.Injective (point shares)
  · rw [reconstruct_eq shares hnil hinj]
    exact iff_of_true rfl ⟨hnil, hinj⟩
  · have hdup : hasDuplicate shares = true := by
      rw [← Bool.not_eq_false, hasDuplicate_eq_false_iff]
      exact hinj
    rw [reconstruct_of_ne_nil shares hnil, if_pos hdup]
    exact iff_of_false Bool.false_ne_true (fun h => hinj h.2)

/-- `reconstruct` accepts as it should exactly if there are no shares, an index
    occurs twice, or no index is zero. -/
theorem acceptsWellFormed_iff (shares : List Share) :
    AcceptsWellFormed shares ↔
      shares = [] ∨ ¬ (shares.map Share.index).Nodup ∨ ∀ share ∈ shares, share.index ≠ 0 := by
  have hinner := gfInv_basisFraction_ne_zero shares
  unfold AcceptsWellFormed WellFormed
  rw [and_iff_left hinner, isSome_reconstruct_iff]
  tauto

/-- A share at index zero is the secret, whatever the others are. -/
theorem reconstruct_of_index_zero (shares : List Share) (i : Fin shares.length)
    (hnodup : (shares.map Share.index).Nodup) (hzero : (shares.get i).index = 0) :
    reconstruct shares = some (shares.get i).data := by
  have hinj := (injective_point_iff shares).mpr hnodup
  have hpoint : point shares i = 0 := GF256.ext hzero
  rw [reconstruct_eq shares (List.ne_nil_of_length_pos (by have := i.isLt; omega)) hinj]
  refine congrArg some (List.Vector.ext (fun bytePos => ?_))
  rw [List.Vector.get_ofFn, Finset.sum_eq_single i]
  · rw [weightAtZero_of_zero _ hinj i hpoint, mul_one]
  · intro k _ hk
    rw [weightAtZero_of_ne _ i k hpoint hk, mul_zero]
  · intro h
    exact absurd (Finset.mem_univ i) h

/-- A share at index zero beside another one. -/
theorem reconstruct_zero_and_one :
    reconstruct [⟨0, List.Vector.replicate 64 0xAB⟩, ⟨1, zeros 64⟩]
        = some (List.Vector.replicate 64 0xAB) ∧
      ¬ WellFormed [⟨0, List.Vector.replicate 64 0xAB⟩, ⟨1, zeros 64⟩] ∧
      ¬ AcceptsWellFormed [⟨0, List.Vector.replicate 64 0xAB⟩, ⟨1, zeros 64⟩] := by
  have hreturn := reconstruct_of_index_zero
    [⟨0, List.Vector.replicate 64 0xAB⟩, ⟨1, zeros 64⟩] 0 (by decide) rfl
  have hill : ¬ WellFormed [⟨0, List.Vector.replicate 64 0xAB⟩, ⟨1, zeros 64⟩] :=
    fun h => h.2.1 _ List.mem_cons_self rfl
  refine ⟨hreturn, hill, ?_⟩
  intro h
  refine hill (h.1.mp ?_)
  rw [hreturn]
  rfl

end Shamir

end Veil7
