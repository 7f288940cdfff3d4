import Veil7.Shamir.Acceptance

/-!
# One Share Against the Others

What a single share can do to the secret that `reconstruct` returns. The order
of the shares does not matter (`reconstruct_perm`), so the share may be taken to
be the first.

Every share given counts, those above the threshold too: a byte changed in one
of them changes the same byte of the secret and no other. The holder of one
share can therefore bring about any secret, with one choice of the bytes for
each. There is one exception, a share with index zero among the others, which
alone decides (`reconstruct_forged_iff`). Nothing in the format tells a secret
so brought about from the one that was shared.

## Main definitions

* `pointsOf`: The points at which shares were evaluated.
* `part`: What a share adds to a byte of the secret.

## Theorems

* `reconstruct_eq_sum`: The secret as a sum over the shares.
* `reconstruct_perm`: The order of the shares.
* `nodup_of_reconstruct`, `reconstruct_tampered`: Changed bytes of one share.
* `reconstruct_forged_iff`: The secrets that one share can bring about.
-/

namespace Veil7

namespace Shamir

/-- The points at which shares with the indices were evaluated. -/
def pointsOf (indices : List UInt8) : Finset GF256 := (indices.map GF256.mk).toFinset

/-- What a share adds to a byte of the secret, beside shares at the points. -/
def part (S : Finset GF256) (bytePos : Fin 64) (share : Share) : GF256 :=
  GF256.mk (share.data.get bytePos) * weightOver S ⟨share.index⟩

theorem image_point (shares : List Share) :
    Finset.univ.image (point shares) = pointsOf (shares.map Share.index) := by
  ext x
  rw [pointsOf, Finset.mem_image, List.mem_toFinset, List.map_map, List.mem_map]
  constructor
  · rintro ⟨i, -, rfl⟩
    exact ⟨shares.get i, List.get_mem shares i, rfl⟩
  · rintro ⟨share, hshare, rfl⟩
    obtain ⟨i, rfl⟩ := List.mem_iff_get.mp hshare
    exact ⟨i, Finset.mem_univ i, rfl⟩

/-- The secret as a sum over the shares, in whatever order they come. -/
theorem reconstruct_eq_sum (shares : List Share) (hne : shares ≠ [])
    (hnodup : (shares.map Share.index).Nodup) :
    reconstruct shares = some (List.Vector.ofFn fun bytePos =>
      (shares.map (part (pointsOf (shares.map Share.index)) bytePos)).sum.byte) := by
  have hinj := (injective_point_iff shares).mpr hnodup
  have hsum : ∀ bytePos, ∑ i, GF256.mk ((shares.get i).data.get bytePos)
      * weightAtZero (point shares) i
        = (shares.map (part (pointsOf (shares.map Share.index)) bytePos)).sum := by
    intro bytePos
    rw [← Fin.sum_univ_fun_getElem]
    refine Finset.sum_congr rfl fun i _ => ?_
    rw [weightAtZero_eq (point shares) hinj i, image_point, part, point, List.get_eq_getElem]
  rw [reconstruct_eq shares hne hinj]
  simp only [hsum]

/-- The order of the shares does not matter. -/
theorem reconstruct_perm (shares shares' : List Share) (hperm : shares.Perm shares') :
    reconstruct shares = reconstruct shares' := by
  by_cases hok : shares ≠ [] ∧ (shares.map Share.index).Nodup
  · have hne : shares' ≠ [] := fun h => hok.1 (hperm.trans (List.Perm.of_eq h)).eq_nil
    have hnodup := (hperm.map Share.index).nodup_iff.mp hok.2
    have hpoints : pointsOf (shares.map Share.index) = pointsOf (shares'.map Share.index) :=
      List.toFinset_eq_of_perm _ _ ((hperm.map Share.index).map GF256.mk)
    rw [reconstruct_eq_sum shares hok.1 hok.2, reconstruct_eq_sum shares' hne hnodup, hpoints]
    simp only [(hperm.map (part _ _)).sum_eq]
  · have hnone : ∀ shares : List Share, ¬ (shares ≠ [] ∧ (shares.map Share.index).Nodup) →
        reconstruct shares = none := by
      intro shares h
      rw [← isSome_reconstruct_iff] at h
      exact Option.not_isSome_iff_eq_none.mp h
    rw [hnone shares hok, hnone shares' ?_]
    rintro ⟨hne, hnodup⟩
    exact hok ⟨fun h => hne ((List.Perm.of_eq h).symm.trans hperm).symm.eq_nil,
      (hperm.map Share.index).nodup_iff.mpr hnodup⟩

/-- Two shares, the other way round. -/
theorem reconstruct_perm_two :
    reconstruct [⟨1, zeros 64⟩, ⟨2, List.Vector.replicate 64 7⟩]
      = reconstruct [⟨2, List.Vector.replicate 64 7⟩, ⟨1, zeros 64⟩] :=
  reconstruct_perm _ _ (List.Perm.swap _ _ _)

section

variable (pre post : List Share) (index : UInt8)

/-- The weight of a share beside the others. -/
def weightBeside : GF256 :=
  weightOver (pointsOf (index :: (pre ++ post).map Share.index)) ⟨index⟩

/-- What the other shares add to a byte. -/
def restBeside (bytePos : Fin 64) : GF256 :=
  ((pre ++ post).map (part (pointsOf (index :: (pre ++ post).map Share.index)) bytePos)).sum

/-- The secret as a function of the bytes of one share. -/
theorem reconstruct_beside (hnodup : (index :: (pre ++ post).map Share.index).Nodup)
    (data : Block 64) :
    reconstruct (pre ++ { index, data } :: post) = some (List.Vector.ofFn fun bytePos =>
      (GF256.mk (data.get bytePos) * weightBeside pre post index
        + restBeside pre post index bytePos).byte) := by
  have hnodup' : ((({ index, data } : Share) :: (pre ++ post)).map Share.index).Nodup := hnodup
  rw [reconstruct_perm _ ({ index, data } :: (pre ++ post)) List.perm_middle,
    reconstruct_eq_sum _ (List.cons_ne_nil _ _) hnodup']
  simp only [List.map_cons, List.sum_cons, weightBeside, restBeside, part]

/-- A share counts unless another one has index zero. -/
theorem weightBeside_eq_zero_iff (hnodup : (index :: (pre ++ post).map Share.index).Nodup) :
    weightBeside pre post index = 0 ↔ ∃ share ∈ pre ++ post, share.index = 0 := by
  rw [List.nodup_cons, List.mem_map] at hnodup
  rw [weightBeside, weightOver_eq_zero_iff, Finset.mem_erase, pointsOf, List.mem_toFinset,
    List.map_cons, List.mem_cons]
  constructor
  · rintro ⟨hne, heq | hmem⟩
    · exact absurd heq hne
    · rw [List.map_map, List.mem_map] at hmem
      obtain ⟨share, hshare, hzero⟩ := hmem
      exact ⟨share, hshare, congrArg GF256.byte hzero⟩
  · rintro ⟨share, hshare, hzero⟩
    constructor
    · intro heq
      exact hnodup.1 ⟨share, hshare, hzero.trans (congrArg GF256.byte heq)⟩
    · refine Or.inr (List.mem_map.mpr ⟨0, List.mem_map.mpr ⟨share, hshare, hzero⟩, rfl⟩)

/-- Shares that give a secret have distinct indices. -/
theorem nodup_of_reconstruct (data secret : Block 64)
    (h : reconstruct (pre ++ { index, data } :: post) = some secret) :
    (index :: (pre ++ post).map Share.index).Nodup := by
  have hsome := (isSome_reconstruct_iff _).mp (Option.isSome_of_eq_some h)
  have hperm : (pre ++ ({ index, data } : Share) :: post).Perm ({ index, data } :: (pre ++ post)) :=
    List.perm_middle
  exact (hperm.map Share.index).nodup_iff.mp hsome.2

/-- Beside shares with other indices than zero, shares that give a secret give one
    however one share is changed, and it is another at the bytes where the share is
    changed and nowhere else. -/
theorem reconstruct_tampered (hindex : ∀ share ∈ pre ++ post, share.index ≠ 0)
    (data data' secret : Block 64)
    (h : reconstruct (pre ++ { index, data } :: post) = some secret) :
    ∃ secret', reconstruct (pre ++ { index, data := data' } :: post) = some secret' ∧
      ∀ bytePos, secret.get bytePos = secret'.get bytePos ↔
        data.get bytePos = data'.get bytePos := by
  have hnodup := nodup_of_reconstruct pre post index data secret h
  have hweight : weightBeside pre post index ≠ 0 := by
    rw [ne_eq, weightBeside_eq_zero_iff pre post index hnodup]
    rintro ⟨share, hshare, hzero⟩
    exact hindex share hshare hzero
  refine ⟨_, reconstruct_beside pre post index hnodup data', fun bytePos => ?_⟩
  rw [reconstruct_beside pre post index hnodup, Option.some.injEq] at h
  rw [← h, List.Vector.get_ofFn, List.Vector.get_ofFn]
  constructor
  · intro hbyte
    have hsum := add_right_cancel (GF256.ext hbyte)
    exact congrArg GF256.byte (mul_right_cancel₀ hweight hsum)
  · intro hbyte
    rw [hbyte]

/-- Every byte of the first of two shares changed. -/
theorem reconstruct_tampered_first :
    ∃ secret secret', reconstruct [⟨1, zeros 64⟩, ⟨2, zeros 64⟩] = some secret ∧
      reconstruct [⟨1, List.Vector.replicate 64 1⟩, ⟨2, zeros 64⟩] = some secret' ∧
      ∀ bytePos, secret.get bytePos ≠ secret'.get bytePos := by
  have h := reconstruct_beside [] [⟨2, zeros 64⟩] 1 (by decide) (zeros 64)
  rcases reconstruct_tampered [] [⟨2, zeros 64⟩] 1 (by decide) _ (List.Vector.replicate 64 1) _ h
    with ⟨secret', h', hbytes⟩
  refine ⟨_, secret', h, h', fun bytePos heq => ?_⟩
  have hbyte := (hbytes bytePos).mp heq
  rw [zeros, List.Vector.get_replicate, List.Vector.get_replicate] at hbyte
  exact absurd hbyte (by decide)

/-- One share can bring about any secret, with one choice of its bytes for each,
    exactly if no other share has index zero. -/
theorem reconstruct_forged_iff (hnodup : (index :: (pre ++ post).map Share.index).Nodup) :
    (∀ secret, ∃! data, reconstruct (pre ++ { index, data } :: post) = some secret)
      ↔ ∀ share ∈ pre ++ post, share.index ≠ 0 := by
  simp only [reconstruct_beside pre post index hnodup, Option.some.injEq]
  constructor
  · intro h share hshare hzero
    have hweight := (weightBeside_eq_zero_iff pre post index hnodup).mpr ⟨share, hshare, hzero⟩
    simp only [hweight, mul_zero, zero_add] at h
    -- Without a weight all choices bring about the same secret.
    obtain ⟨data, -, hunique⟩ := h (List.Vector.ofFn fun bytePos =>
      (restBeside pre post index bytePos).byte)
    have hzeros := hunique (zeros 64) rfl
    have hones := hunique (List.Vector.replicate 64 1) rfl
    exact absurd (hzeros.trans hones.symm) (by decide)
  · intro hindex secret
    have hweight : weightBeside pre post index ≠ 0 := by
      rw [ne_eq, weightBeside_eq_zero_iff pre post index hnodup]
      rintro ⟨share, hshare, hzero⟩
      exact hindex share hshare hzero
    refine ⟨List.Vector.ofFn fun bytePos => ((GF256.mk (secret.get bytePos)
      - restBeside pre post index bytePos) * (weightBeside pre post index)⁻¹).byte, ?_, ?_⟩
    · apply List.Vector.ext
      intro bytePos
      rw [List.Vector.get_ofFn, List.Vector.get_ofFn]
      change (_ * _ * _ + _ : GF256).byte = _
      rw [inv_mul_cancel_right₀ hweight, sub_add_cancel]
    · intro data hdata
      apply List.Vector.ext
      intro bytePos
      rw [List.Vector.get_ofFn, ← hdata, List.Vector.get_ofFn]
      change data.get bytePos = ((_ + _ - _ : GF256) * _).byte
      rw [add_sub_cancel_right, mul_inv_cancel_right₀ hweight]

end

/-- The first of two shares makes the secret all ones. -/
theorem reconstruct_forged_iff_first :
    ∃! data, reconstruct [⟨1, data⟩, ⟨2, zeros 64⟩] = some (List.Vector.replicate 64 255) :=
  (reconstruct_forged_iff [] [⟨2, zeros 64⟩] 1 (by decide)).mpr (by decide) _

end Shamir

end Veil7
