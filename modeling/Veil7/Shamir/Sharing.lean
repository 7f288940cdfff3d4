import Mathlib.Data.List.GetD
import Veil7.Core.Buffer
import Veil7.Shamir.Field

/-!
# Splitting and Reconstructing

`split` and `reconstruct` of `shamir.rs`, loop for loop. Each of the 64 bytes
of the secret is the constant term of its own polynomial; the other
coefficients are taken from the random buffer, 32 bytes to a position, and a
share is the value of the 64 polynomials at its index.

The array of coefficients has room for 32, so a threshold above 32 runs out of
bounds; the accesses are the checked ones. `getrandom` is the parameter
`rngBytes` of `split`, absent when the call fails. Wiping the buffers has no
counterpart, as nothing here outlives the call.

The equations at the end say what `split` computes with the loops unrolled: it
returns shares for thresholds up to 32 and stops with a panic above, and each
share is given by the polynomials.

## Main definitions

* `Share`: An index and 64 bytes of data.
* `split`, `reconstruct`: The functions of the module.
* `coeffsOf`: The random coefficients of a byte position.
* `shareAt`: The share of an index.

## Theorems

* `fillCoeffs_of_lt`, `fillCoeffs_of_le`: The inner loop, within the room for
  coefficients and beyond it.
* `foldlM_splitByte`: The outer loop.
* `split_of_invalid`, `split_of_le`, `split_of_lt`: What `split` does.
* `split_eq_some_iff`: When `split` returns shares, and which.
-/

namespace Veil7

namespace Shamir

structure Share where
  index : UInt8
  data : Block 64
deriving DecidableEq

/-- One round of the loop that fills in the random coefficients of a byte. -/
def fillCoeff (rngBytes : Block (64 * 32)) (bytePos : Nat) (coeffs : Block 32) (j : Nat) :
    Except Panic (Block 32) := do
  let r ← rngBytes.read (bytePos * 32 + j)
  coeffs.write j r

/-- The loop over `1..t`. -/
def fillCoeffs (rngBytes : Block (64 * 32)) (bytePos t : Nat) (coeffs : Block 32) :
    Except Panic (Block 32) :=
  (List.range' 1 (t - 1)).foldlM (fillCoeff rngBytes bytePos) coeffs

/-- The body of the loop over the bytes of the secret. -/
def splitByte (secret : Block 64) (t : UInt8) (rngBytes : Block (64 * 32)) (shares : List Share)
    (bytePos : Fin 64) : Except Panic (List Share) := do
  let coeffs ← (zeros 32).write 0 (secret.get bytePos)
  let coeffs ← fillCoeffs rngBytes bytePos t.toNat coeffs
  let used ← coeffs.prefixOf t.toNat
  pure (shares.map fun share =>
    { share with data := share.data.set bytePos (gfEval used share.index) })

/-- The range `1..=n` of share indices. -/
def indices (n : UInt8) : List UInt8 := (List.range' 1 n.toNat).map UInt8.ofNat

/-- Split a 64-byte secret into `n` shares with threshold `t`. -/
def split (secret : Block 64) (n t : UInt8) (rngBytes : Option (Block (64 * 32))) :
    Except Panic (Option (List Share)) :=
  if n < 1 ∨ t < 2 ∨ t > n then
    pure none
  else
    match rngBytes with
    | none => pure none
    | some rngBytes => do
        let shares := (indices n).map fun i => { index := i, data := zeros 64 }
        let shares ← (List.finRange 64).foldlM (splitByte secret t rngBytes) shares
        pure (some shares)

/-- Some index occurs at two positions. -/
def hasDuplicate (shares : List Share) : Bool :=
  (List.finRange shares.length).any fun i =>
    (List.finRange shares.length).any fun j =>
      i < j && (shares.get i).index == (shares.get j).index

/-- One round of the loop over `j`, on the pair of `num` and `den`. -/
def basisRound (shares : List Share) (i : Fin shares.length) (s : UInt8 × UInt8)
    (j : Fin shares.length) : UInt8 × UInt8 :=
  if i = j then s
  else (gfMul s.1 (shares.get j).index,
    gfMul s.2 ((shares.get i).index ^^^ (shares.get j).index))

/-- The numerator and the denominator of the basis polynomial of share `i` at
    zero. -/
def basisFraction (shares : List Share) (i : Fin shares.length) : UInt8 × UInt8 :=
  (List.finRange shares.length).foldl (basisRound shares i) (1, 1)

/-- One round of the loop over `i`: add the share's part of the byte. -/
def valueRound (shares : List Share) (bytePos : Fin 64) (value : UInt8)
    (i : Fin shares.length) : Option UInt8 :=
  let fraction := basisFraction shares i
  let denInv := gfInv fraction.2
  -- Two shares at one point: excluded by the duplicate check.
  if denInv = 0 then none
  else
    let basis := gfMul fraction.1 denInv
    some (value ^^^ gfMul ((shares.get i).data.get bytePos) basis)

/-- One round of the loop over the bytes of the secret. -/
def secretRound (shares : List Share) (secret : Block 64) (bytePos : Fin 64) :
    Option (Block 64) := do
  let value ← (List.finRange shares.length).foldlM (valueRound shares bytePos) 0
  pure (secret.set bytePos value)

/-- Reconstruct a 64-byte secret from shares. -/
def reconstruct (shares : List Share) : Option (Block 64) :=
  if shares.isEmpty then none
  else if hasDuplicate shares then none
  else (List.finRange 64).foldlM (secretRound shares) (zeros 64)

/-! ### What the loops compute -/

/-- The random coefficients of a byte position: entries `1..t` of its 32 bytes
    of the buffer. -/
def coeffsOf (rngBytes : Block (64 * 32)) (bytePos t : Nat) : Bytes :=
  (List.range' 1 (t - 1)).map fun j => rngBytes.toList.getD (bytePos * 32 + j) 0

/-- The share of an index: the value there of the polynomial of each byte. -/
def shareAt (secret : Block 64) (t : UInt8) (rngBytes : Block (64 * 32)) (i : UInt8) : Share :=
  { index := i,
    data := List.Vector.ofFn fun bytePos =>
      gfEval (secret.get bytePos :: coeffsOf rngBytes bytePos t.toNat) i }

theorem length_coeffsOf (rngBytes : Block (64 * 32)) (bytePos t : Nat) :
    (coeffsOf rngBytes bytePos t).length = t - 1 := by
  rw [coeffsOf, List.length_map, List.length_range']

theorem fillCoeff_of_lt (rngBytes : Block (64 * 32)) (bytePos : Fin 64) (coeffs : Block 32)
    (j : Nat) (hj : j < 32) :
    fillCoeff rngBytes bytePos coeffs j
      = .ok (coeffs.set ⟨j, hj⟩ (rngBytes.toList.getD (bytePos * 32 + j) 0)) := by
  have hpos := bytePos.isLt
  have hlt : bytePos.val * 32 + j < 64 * 32 := by omega
  rw [fillCoeff, Block.read_of_lt _ _ hlt, Panic.ok_bind, Block.write_of_lt _ _ _ hj,
    List.Vector.get_eq_get_toList,
    List.getD_eq_getElem _ _ (by rw [Block.length_toList]; exact hlt)]
  rfl

/-- Entry 32 is not there to be written, whether it can be read or not. -/
theorem fillCoeff_of_le (rngBytes : Block (64 * 32)) (bytePos : Nat) (coeffs : Block 32)
    (j : Nat) (hj : 32 ≤ j) :
    fillCoeff rngBytes bytePos coeffs j = .error .indexOutOfBounds := by
  unfold fillCoeff Block.read
  by_cases h : bytePos * 32 + j < 64 * 32
  · rw [dif_pos h, Panic.ok_bind, Block.write_of_le _ _ _ hj]
  · rw [dif_neg h, Panic.error_bind]

/-- After `m` rounds the entries `1..=m` are written and the others are not. -/
theorem fillCoeffs_of_lt (rngBytes : Block (64 * 32)) (bytePos : Fin 64) (m : Nat)
    (coeffs : Block 32) (hm : m < 32) :
    fillCoeffs rngBytes bytePos (m + 1) coeffs
      = .ok (List.Vector.ofFn fun k => if 1 ≤ k.val ∧ k.val ≤ m
          then rngBytes.toList.getD (bytePos * 32 + k) 0 else coeffs.get k) := by
  induction m with
  | zero =>
      refine congrArg Except.ok (List.Vector.ext (fun k => ?_))
      rw [List.Vector.get_ofFn, if_neg (by omega)]
  | succ m ih =>
      have hih := ih (by omega)
      rw [fillCoeffs, Nat.add_sub_cancel] at hih ⊢
      rw [List.range'_1_concat, List.foldlM_append, hih, Nat.add_comm 1 m, Panic.ok_bind,
        List.foldlM_cons, fillCoeff_of_lt _ _ _ _ hm, Panic.ok_bind, List.foldlM_nil]
      refine congrArg Except.ok (List.Vector.ext (fun k => ?_))
      rw [List.Vector.get_set_eq_if, List.Vector.get_ofFn, List.Vector.get_ofFn]
      by_cases hk : k.val = m + 1
      · rw [if_pos (Fin.ext hk.symm), if_pos (by omega), hk]
      · rw [if_neg (fun h => hk (congrArg Fin.val h).symm)]
        by_cases hle : 1 ≤ k.val ∧ k.val ≤ m
        · rw [if_pos hle, if_pos (by omega)]
        · rw [if_neg hle, if_neg (by omega)]

/-- Above the room for 32 coefficients the loop runs out of bounds. -/
theorem fillCoeffs_of_le (rngBytes : Block (64 * 32)) (bytePos : Fin 64) (t : Nat)
    (coeffs : Block 32) (ht : 32 < t) :
    fillCoeffs rngBytes bytePos t coeffs = .error .indexOutOfBounds := by
  -- The first 31 rounds are in bounds, and the next one is not.
  have hrange : List.range' 1 (t - 1) = List.range' 1 31 ++ 32 :: List.range' 33 (t - 33) := by
    have hsplit : t - 1 = 31 + (t - 33 + 1) := by omega
    rw [hsplit, ← List.range'_append_1]
    rfl
  have hfill := fillCoeffs_of_lt rngBytes bytePos 31 coeffs (by omega)
  rw [fillCoeffs] at hfill ⊢
  rw [hrange, List.foldlM_append, hfill, Panic.ok_bind, List.foldlM_cons,
    fillCoeff_of_le _ _ _ _ (Nat.le_refl 32), Panic.error_bind]

/-- One round of the outer loop sets one byte of every share. -/
theorem splitByte_of_le (secret : Block 64) (t : UInt8) (rngBytes : Block (64 * 32))
    (shares : List Share) (bytePos : Fin 64) (ht : 0 < t.toNat) (ht32 : t.toNat ≤ 32) :
    splitByte secret t rngBytes shares bytePos
      = .ok (shares.map fun share => { share with
          data := share.data.set bytePos
            (gfEval (secret.get bytePos :: coeffsOf rngBytes bytePos t.toNat) share.index) }) := by
  have hfill := fillCoeffs_of_lt rngBytes bytePos (t.toNat - 1)
    ((zeros 32).set 0 (secret.get bytePos)) (by omega)
  rw [Nat.sub_add_cancel ht] at hfill
  -- The first `t` entries: the secret byte, then the coefficients filled in.
  have hused : ∀ a : Block 32, a = (List.Vector.ofFn fun k => if 1 ≤ k.val ∧ k.val ≤ t.toNat - 1
      then rngBytes.toList.getD (bytePos * 32 + k) 0
      else ((zeros 32).set 0 (secret.get bytePos)).get k) →
      a.toList.take t.toNat = secret.get bytePos :: coeffsOf rngBytes bytePos t.toNat := by
    intro a ha
    rw [ha]
    refine List.ext_getElem ?_ (fun k hk hk' => ?_)
    · rw [List.length_take, Block.length_toList, List.length_cons, length_coeffsOf]
      omega
    · rw [List.length_cons, length_coeffsOf] at hk'
      simp only [List.getElem_take, List.Vector.toList_ofFn, List.getElem_ofFn]
      cases k with
      | zero =>
          rw [if_neg (by omega), List.getElem_cons_zero]
          exact List.Vector.get_set_same _ _ _
      | succ k =>
          rw [if_pos (by omega), List.getElem_cons_succ]
          simp only [coeffsOf, List.getElem_map, List.getElem_range', Nat.one_mul,
            Nat.add_comm 1 k]
  rw [splitByte, Block.write_of_lt _ _ _ (by omega), Panic.ok_bind, Fin.mk_zero, hfill,
    Panic.ok_bind, Block.prefixOf_of_le _ _ ht32, hused _ rfl, Panic.ok_bind]
  rfl

theorem splitByte_of_lt (secret : Block 64) (t : UInt8) (rngBytes : Block (64 * 32))
    (shares : List Share) (bytePos : Fin 64) (ht : 32 < t.toNat) :
    splitByte secret t rngBytes shares bytePos = .error .indexOutOfBounds := by
  rw [splitByte, Block.write_of_lt _ _ _ (by omega), Panic.ok_bind,
    fillCoeffs_of_le _ _ _ _ ht, Panic.error_bind]

/-- The outer loop over a list of positions, by induction on the list. -/
theorem foldlM_splitByte (secret : Block 64) (t : UInt8) (rngBytes : Block (64 * 32))
    (is : List UInt8) (ps : List (Fin 64)) (d : UInt8 → Block 64) (ht : 0 < t.toNat)
    (ht32 : t.toNat ≤ 32) :
    ps.foldlM (splitByte secret t rngBytes) (is.map fun i => { index := i, data := d i })
      = .ok (is.map fun i =>
          { index := i,
            data := ps.foldl (fun b p =>
              b.set p (gfEval (secret.get p :: coeffsOf rngBytes p t.toNat) i)) (d i) }) := by
  induction ps generalizing d with
  | nil => rfl
  | cons p ps ih =>
      rw [List.foldlM_cons, splitByte_of_le secret t rngBytes _ p ht ht32, List.map_map]
      exact ih _

/-- The check of the parameters, as the two bounds on the threshold. -/
theorem not_invalid_iff (n t : UInt8) : ¬ (n < 1 ∨ t < 2 ∨ t > n) ↔ 2 ≤ t ∧ t ≤ n := by
  simp only [not_or, UInt8.not_lt]
  constructor
  · rintro ⟨-, h2, hn⟩
    exact ⟨h2, hn⟩
  · rintro ⟨h2, hn⟩
    refine ⟨?_, h2, hn⟩
    exact UInt8.le_trans (by decide) (UInt8.le_trans h2 hn)

theorem split_of_invalid (secret : Block 64) (n t : UInt8) (rngBytes : Option (Block (64 * 32)))
    (h : ¬ (2 ≤ t ∧ t ≤ n)) : split secret n t rngBytes = .ok none := by
  rw [← not_invalid_iff, not_not] at h
  unfold split
  rw [if_pos h]
  rfl

/-- With room for the coefficients `split` returns the polynomials' shares. -/
theorem split_of_le (secret : Block 64) (n t : UInt8) (rngBytes : Block (64 * 32)) (h2 : 2 ≤ t)
    (hn : t ≤ n) (ht32 : t.toNat ≤ 32) :
    split secret n t (some rngBytes)
      = .ok (some ((indices n).map (shareAt secret t rngBytes))) := by
  have hpos : 2 ≤ t.toNat := h2
  have hfold := foldlM_splitByte secret t rngBytes (indices n) (List.finRange 64)
    (fun _ => zeros 64) (by omega) ht32
  simp only [Block.foldl_set_finRange] at hfold
  unfold split
  rw [if_neg ((not_invalid_iff n t).mpr ⟨h2, hn⟩)]
  simp only [hfold]
  rfl

/-- Without it the first byte position already runs out of bounds. -/
theorem split_of_lt (secret : Block 64) (n t : UInt8) (rngBytes : Block (64 * 32)) (h2 : 2 ≤ t)
    (hn : t ≤ n) (ht : 32 < t.toNat) :
    split secret n t (some rngBytes) = .error .indexOutOfBounds := by
  unfold split
  rw [if_neg ((not_invalid_iff n t).mpr ⟨h2, hn⟩), List.finRange_succ]
  simp only [List.foldlM_cons, splitByte_of_lt secret t rngBytes _ _ ht, Panic.error_bind]

/-- `split` returns shares exactly for thresholds from two to the number of
    shares and at most 32, and then those of the polynomials. -/
theorem split_eq_some_iff (secret : Block 64) (n t : UInt8) (rngBytes : Block (64 * 32))
    (shares : List Share) :
    split secret n t (some rngBytes) = .ok (some shares) ↔
      2 ≤ t ∧ t ≤ n ∧ t.toNat ≤ 32 ∧ shares = (indices n).map (shareAt secret t rngBytes) := by
  by_cases hpar : 2 ≤ t ∧ t ≤ n
  · by_cases ht32 : t.toNat ≤ 32
    · rw [split_of_le secret n t rngBytes hpar.1 hpar.2 ht32, Except.ok.injEq, Option.some.injEq]
      constructor
      · intro h
        exact ⟨hpar.1, hpar.2, ht32, h.symm⟩
      · rintro ⟨-, -, -, h⟩
        exact h.symm
    · rw [split_of_lt secret n t rngBytes hpar.1 hpar.2 (by omega)]
      constructor
      · intro h
        cases h
      · rintro ⟨-, -, h, -⟩
        exact absurd h ht32
  · rw [split_of_invalid secret n t _ hpar]
    constructor
    · intro h
      cases h
    · rintro ⟨h2, hn, -⟩
      exact absurd ⟨h2, hn⟩ hpar

end Shamir

end Veil7
