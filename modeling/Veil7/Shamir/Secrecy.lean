import Mathlib.SetTheory.Cardinal.Finite
import Veil7.Shamir.Recovery

/-!
# One Share Less Says Nothing

Fewer shares than the threshold fit every secret equally often. At one point
less than the threshold the coefficients of each byte are determined by the
secret byte and the values (`existsUnique_gfEval`), so the random buffers that
lead to given shares are those with certain bytes at the places the
coefficients are taken from, and anything elsewhere (`produces_iff`). Replacing
the bytes for one secret by the bytes for another is a bijection of the two
sets of buffers.

The places belong to different byte positions and never overlap: position `p`
takes its coefficients from `32 p + 1` to `32 p + t - 1`.

## Main definitions

* `Produces`: A random buffer leads to the given values of some shares.
* `overwrite`: A buffer with other coefficients.

## Theorems

* `existsUnique_gfEval`: Exactly one coefficient vector fits a byte.
* `produces_iff`: The buffers that lead to given shares.
* `card_produces_eq`: There are equally many for any two secrets.
-/

namespace Veil7

namespace Shamir

/-- The buffer makes `split` return shares among which the ones of the index set
    have the given data. -/
def Produces (secret : Block 64) (n t : UInt8) (idx : Finset UInt8) (vals : UInt8 → Block 64)
    (rngBytes : Block (64 * 32)) : Prop :=
  ∃ shares, split secret n t (some rngBytes) = .ok (some shares) ∧
    ∀ i ∈ idx, { index := i, data := vals i } ∈ shares

/-- At distinct non-zero points as many further coefficients are determined by
    the constant term and the values. -/
theorem existsUnique_gfEval (idx : Finset UInt8) (m : Nat) (h0 : 0 ∉ idx) (hcard : idx.card = m)
    (s : UInt8) (y : UInt8 → UInt8) :
    ∃! cs : List.Vector UInt8 m, ∀ i ∈ idx, gfEval (s :: cs.toList) i = y i := by
  let emb : UInt8 ↪ GF256 := ⟨GF256.mk, fun a b h => congrArg GF256.byte h⟩
  have hmap0 : 0 ∉ idx.map emb := by
    intro h
    rcases Finset.mem_map.mp h with ⟨i, hi, hzero⟩
    have hi0 : i = 0 := congrArg GF256.byte hzero
    rw [hi0] at hi
    exact h0 hi
  have hmapcard : (idx.map emb).card = m := by rw [Finset.card_map, hcard]
  have hbytes : ∀ cs : List GF256, (cs.map GF256.byte).map GF256.mk = cs := by
    intro cs
    rw [List.map_map]
    exact List.map_id cs
  rcases existsUnique_coeffs (idx.map emb) hmap0 (GF256.mk s) (fun x => GF256.mk (y x.byte)) with
    ⟨cs, hcs, -⟩
  have hfit : ∀ i ∈ idx, gfEval (s :: cs.toList.map GF256.byte) i = y i := by
    intro i hi
    rw [gfEval_eq, List.map_cons, hbytes]
    exact congrArg GF256.byte (hcs _ (Finset.mem_map_of_mem emb hi))
  refine ⟨⟨cs.toList.map GF256.byte, ?_⟩, hfit, ?_⟩
  · rw [List.length_map, cs.toList_length, hmapcard]
  · intro ds hds
    refine Block.toList_inj m _ _ ?_
    -- Two fitting vectors agree at zero and at every point.
    have heq := eq_of_eval_eq (idx.map emb) hmap0 (GF256.mk s) (ds.toList.map GF256.mk) cs.toList
      (by rw [List.length_map, ds.toList_length, hmapcard]) cs.toList_length ?_
    · rw [List.Vector.toList_mk, ← heq, List.map_map]
      exact (List.map_id ds.toList).symm
    · intro x hx
      rcases Finset.mem_map.mp hx with ⟨i, hi, rfl⟩
      rw [hcs _ hx]
      have h := hds i hi
      rw [gfEval_eq] at h
      exact GF256.ext h

/-- The buffer with the coefficients of every byte position replaced. -/
def overwrite (t : Nat) (c : Fin 64 → Bytes) (rngBytes : Block (64 * 32)) : Block (64 * 32) :=
  List.Vector.ofFn fun k =>
    if 1 ≤ k.val % 32 ∧ k.val % 32 < t then
      (c ⟨k.val / 32, by omega⟩).getD (k.val % 32 - 1) 0
    else rngBytes.get k

theorem getD_toList (rngBytes : Block (64 * 32)) (k : Fin (64 * 32)) :
    rngBytes.toList.getD k 0 = rngBytes.get k := by
  rw [List.Vector.get_eq_get_toList,
    List.getD_eq_getElem _ _ (by rw [Block.length_toList]; exact k.isLt)]
  rfl

/-- The replaced coefficients are the ones read. -/
theorem coeffsOf_overwrite (t : Nat) (c : Fin 64 → Bytes) (rngBytes : Block (64 * 32))
    (bytePos : Fin 64) (ht : t ≤ 32) (hc : (c bytePos).length = t - 1) :
    coeffsOf (overwrite t c rngBytes) bytePos t = c bytePos := by
  have hpos := bytePos.isLt
  refine List.ext_getElem (by rw [length_coeffsOf, hc]) (fun j hj hj' => ?_)
  rw [hc] at hj'
  -- Entry `1 + j` of the 32 that belong to this byte position, and to no other.
  have hk : bytePos.val * 32 + (1 + j) < 64 * 32 := by omega
  have hdiv : (bytePos.val * 32 + (1 + j)) / 32 = bytePos.val := by omega
  have hmod : (bytePos.val * 32 + (1 + j)) % 32 = 1 + j := by omega
  simp only [coeffsOf, List.getElem_map, List.getElem_range', Nat.one_mul]
  rw [getD_toList (overwrite t c rngBytes) ⟨bytePos.val * 32 + (1 + j), hk⟩, overwrite,
    List.Vector.get_ofFn]
  simp only [hmod, hdiv]
  rw [if_pos (by omega), Nat.add_sub_cancel_left, List.getD_eq_getElem]

/-- A second replacement undoes the first. -/
theorem overwrite_overwrite (t : Nat) (c c' : Fin 64 → Bytes) (rngBytes : Block (64 * 32)) :
    overwrite t c (overwrite t c' rngBytes) = overwrite t c rngBytes := by
  apply List.Vector.ext
  intro k
  unfold overwrite
  rw [List.Vector.get_ofFn, List.Vector.get_ofFn, List.Vector.get_ofFn]
  by_cases h : 1 ≤ k.val % 32 ∧ k.val % 32 < t
  · rw [if_pos h, if_pos h]
  · rw [if_neg h, if_neg h, if_neg h]

/-- Replacing the coefficients by themselves changes nothing. -/
theorem overwrite_self (t : Nat) (c : Fin 64 → Bytes) (rngBytes : Block (64 * 32))
    (h : ∀ bytePos : Fin 64, coeffsOf rngBytes bytePos t = c bytePos) :
    overwrite t c rngBytes = rngBytes := by
  apply List.Vector.ext
  intro k
  unfold overwrite
  rw [List.Vector.get_ofFn]
  by_cases hk : 1 ≤ k.val % 32 ∧ k.val % 32 < t
  · have hlen : k.val % 32 - 1 < (coeffsOf rngBytes (k.val / 32) t).length := by
      rw [length_coeffsOf]
      omega
    rw [if_pos hk, ← h, List.getD_eq_getElem _ _ hlen, ← getD_toList]
    simp only [coeffsOf, List.getElem_map, List.getElem_range', Nat.one_mul]
    congr 1
    omega
  · rw [if_neg hk]

/-- Replacing the coefficients and putting them back changes nothing. -/
theorem overwrite_back (t : Nat) (c c' : Fin 64 → Bytes) (rngBytes : Block (64 * 32))
    (h : ∀ bytePos : Fin 64, coeffsOf rngBytes bytePos t = c bytePos) :
    overwrite t c (overwrite t c' rngBytes) = rngBytes := by
  rw [overwrite_overwrite, overwrite_self t c rngBytes h]

theorem mem_indices (n i : UInt8) (h1 : 1 ≤ i) (hn : i ≤ n) : i ∈ indices n := by
  refine List.mem_map.mpr ⟨i.toNat, ?_, UInt8.ofNat_toNat⟩
  have h1' : 1 ≤ i.toNat := h1
  have hn' : i.toNat ≤ n.toNat := hn
  rw [List.mem_range'_1]
  omega

/-- A buffer leads to given values of one share less than the threshold exactly
    when it holds the coefficients that fit them, at every byte position. -/
theorem produces_iff (secret : Block 64) (n t : UInt8) (idx : Finset UInt8)
    (vals : UInt8 → Block 64) (rngBytes : Block (64 * 32))
    (c : Fin 64 → List.Vector UInt8 (t.toNat - 1))
    (ht : 2 ≤ t ∧ t ≤ n ∧ t.toNat ≤ 32) (hidx : ∀ i ∈ idx, 1 ≤ i ∧ i ≤ n)
    (hc : ∀ bytePos, ∀ i ∈ idx,
      gfEval (secret.get bytePos :: (c bytePos).toList) i = (vals i).get bytePos)
    (huniq : ∀ bytePos, ∀ cs : List.Vector UInt8 (t.toNat - 1),
      (∀ i ∈ idx, gfEval (secret.get bytePos :: cs.toList) i = (vals i).get bytePos) →
        cs = c bytePos) :
    Produces secret n t idx vals rngBytes ↔
      ∀ bytePos : Fin 64, coeffsOf rngBytes bytePos t.toNat = (c bytePos).toList := by
  constructor
  -- The data of the shares are values of the polynomial read from the buffer.
  · rintro ⟨shares, hsplit, hmem⟩ bytePos
    rcases (split_eq_some_iff secret n t rngBytes shares).mp hsplit with ⟨-, -, -, hshares⟩
    refine congrArg List.Vector.toList
      (huniq bytePos ⟨coeffsOf rngBytes bytePos t.toNat, length_coeffsOf _ _ _⟩ (fun i hi => ?_))
    have hi' := hmem i hi
    rw [hshares] at hi'
    rcases List.mem_map.mp hi' with ⟨k, -, hk⟩
    have hki : k = i := congrArg Share.index hk
    rw [hki] at hk
    have hdata := congrArg (fun share => share.data.get bytePos) hk
    rw [← hdata]
    exact (get_data_shareAt secret t rngBytes i bytePos).symm
  · intro h
    refine ⟨_, (split_eq_some_iff secret n t rngBytes _).mpr ⟨ht.1, ht.2.1, ht.2.2, rfl⟩,
      fun i hi => List.mem_map.mpr ⟨i, mem_indices n i (hidx i hi).1 (hidx i hi).2, ?_⟩⟩
    refine congrArg (Share.mk i) (List.Vector.ext (fun bytePos => ?_))
    rw [List.Vector.get_ofFn, h bytePos, hc bytePos i hi]

/-- For every index set of one less than the threshold, every assignment of data
    to it and every two secrets, equally many random buffers lead to that data;
    at each byte position exactly one coefficient vector fits. -/
theorem card_produces_eq (n t : UInt8) (idx : Finset UInt8) (vals : UInt8 → Block 64)
    (secret secret' : Block 64)
    (hok : ∃ s rngBytes shares, split s n t (some rngBytes) = .ok (some shares))
    (hcard : idx.card = t.toNat - 1) (hidx : ∀ i ∈ idx, 1 ≤ i ∧ i ≤ n) :
    Nat.card { rngBytes // Produces secret n t idx vals rngBytes }
        = Nat.card { rngBytes // Produces secret' n t idx vals rngBytes } ∧
      ∀ bytePos : Fin 64, ∃! cs : List.Vector UInt8 (t.toNat - 1),
        ∀ i ∈ idx, gfEval (secret.get bytePos :: cs.toList) i = (vals i).get bytePos := by
  rcases hok with ⟨s, rngBytes, shares, hsplit⟩
  rcases (split_eq_some_iff s n t rngBytes shares).mp hsplit with ⟨ht2, htn, ht32, -⟩
  have h0 : 0 ∉ idx := fun h => absurd (hidx 0 h).1 (by decide)
  have hunique : ∀ (s : Block 64) (bytePos : Fin 64), ∃! cs : List.Vector UInt8 (t.toNat - 1),
      ∀ i ∈ idx, gfEval (s.get bytePos :: cs.toList) i = (vals i).get bytePos :=
    fun s bytePos => existsUnique_gfEval idx _ h0 hcard _ (fun i => (vals i).get bytePos)
  refine ⟨?_, hunique secret⟩
  choose c hc huniq using hunique
  -- The buffers for a secret are those that hold its coefficients.
  have hiff : ∀ s rngBytes, Produces s n t idx vals rngBytes ↔
      ∀ bytePos : Fin 64, coeffsOf rngBytes bytePos t.toNat = (c s bytePos).toList :=
    fun s rngBytes =>
      produces_iff s n t idx vals rngBytes (c s) ⟨ht2, htn, ht32⟩ hidx (hc s) (huniq s)
  have hmaps : ∀ s rngBytes,
      Produces s n t idx vals (overwrite t.toNat (fun p => (c s p).toList) rngBytes) := by
    intro s rngBytes
    rw [hiff]
    intro bytePos
    exact coeffsOf_overwrite _ _ _ _ ht32 (c s bytePos).toList_length
  have hback : ∀ s s' rngBytes, Produces s n t idx vals rngBytes →
      overwrite t.toNat (fun p => (c s p).toList)
        (overwrite t.toNat (fun p => (c s' p).toList) rngBytes) = rngBytes :=
    fun s s' rngBytes h => overwrite_back _ _ _ rngBytes ((hiff s rngBytes).mp h)
  -- Overwriting with the other secret's coefficients goes back and forth.
  refine Nat.card_congr ⟨fun r => ⟨_, hmaps secret' r.1⟩, fun r => ⟨_, hmaps secret r.1⟩, ?_, ?_⟩
  · rintro ⟨r, hr⟩
    simp only [hback secret secret' r hr]
  · rintro ⟨r, hr⟩
    simp only [hback secret' secret r hr]

/-- One of three shares at threshold two, for two constant secrets. -/
theorem card_produces_eq_one_of_three :
    Nat.card { rngBytes // Produces (zeros 64) 3 2 {3}
        (fun _ => List.Vector.replicate 64 0x5A) rngBytes }
      = Nat.card { rngBytes // Produces (List.Vector.replicate 64 0xFF) 3 2 {3}
        (fun _ => List.Vector.replicate 64 0x5A) rngBytes } := by
  have hsplit := (split_eq_some_iff (zeros 64) 3 2 (zeros (64 * 32)) _).mpr
    ⟨by decide, by decide, by decide, rfl⟩
  refine (card_produces_eq 3 2 {3} _ _ _ ⟨_, _, _, hsplit⟩ (by decide) ?_).1
  · intro i hi
    rw [Finset.mem_singleton.mp hi]
    decide

end Shamir

end Veil7
