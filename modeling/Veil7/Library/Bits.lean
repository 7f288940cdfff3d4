import Mathlib.Data.Nat.Digits.Defs
import Mathlib.Tactic.Ring

/-!
# Numbers as Bits

A number taken apart into its low bits and put together again. The bits are
the digits to base two, lowest first, so that the number they stand for is
Mathlib's `Nat.ofDigits 2`. A machine puts them together by shifting each bit
to its place and joining it with the ones below; as long as the places do not
run out of the word, that is addition.

## Main definitions

* `bitsOf`: The low bits of a number.
* `bitWidth`: How many bits a number takes.
* `leadingZeros`: How many it leaves of a 64-bit word.

## Theorems

* `ofDigits_bitsOf`: The low bits stand for the remainder.
* `lt_two_pow_bitWidth`: A number fits its width.
* `toNat_or_shiftLeft`: A bit joined to the ones below it.
* `toNat_shiftRight_and_one`: A bit taken out of a word.
-/

namespace Veil7

/-- The `k` low bits of `n`, lowest first. -/
def bitsOf (n k : Nat) : List Nat := (List.range k).map fun i => n / 2 ^ i % 2

theorem bitsOf_succ (n k : Nat) : bitsOf n (k + 1) = n % 2 :: bitsOf (n / 2) k := by
  unfold bitsOf
  rw [List.range_succ_eq_map, List.map_cons, List.map_map, pow_zero, Nat.div_one]
  congr 1
  refine List.map_congr_left (fun i _ => ?_)
  rw [Function.comp_apply, Nat.succ_eq_add_one, pow_succ', Nat.div_div_eq_div_mul]

/-- The low bits of a number stand for its remainder. -/
theorem ofDigits_bitsOf (n k : Nat) : Nat.ofDigits 2 (bitsOf n k) = n % 2 ^ k := by
  induction k generalizing n with
  | zero => rw [pow_zero, Nat.mod_one]; rfl
  | succ k ih =>
      rw [bitsOf_succ, Nat.ofDigits_cons, ih, pow_succ', Nat.mod_mul]

/-- The number of bits a number takes; zero takes one. -/
def bitWidth (n : Nat) : Nat := if n = 0 then 1 else Nat.log2 n + 1

theorem lt_two_pow_bitWidth (n : Nat) : n < 2 ^ bitWidth n := by
  unfold bitWidth
  by_cases h : n = 0
  · rw [if_pos h, h]
    omega
  · rw [if_neg h]
    exact Nat.lt_log2_self

theorem bitWidth_pos (n : Nat) : 0 < bitWidth n := by
  unfold bitWidth
  by_cases h : n = 0
  · rw [if_pos h]
    omega
  · rw [if_neg h]
    omega

theorem bitWidth_le (n k : Nat) (hk : 0 < k) (hn : n < 2 ^ k) : bitWidth n ≤ k := by
  unfold bitWidth
  by_cases h : n = 0
  · rw [if_pos h]
    omega
  · rw [if_neg h]
    exact (Nat.log2_lt h).mpr hn

/-- `x.leading_zeros()` for a 64-bit word. -/
def leadingZeros (x : UInt64) : Nat := if x = 0 then 64 else 63 - Nat.log2 x.toNat

/-- A word other than zero takes what its leading zeros leave. -/
theorem sub_leadingZeros (x : UInt64) (hx : x ≠ 0) : 64 - leadingZeros x = bitWidth x.toNat := by
  have hne : x.toNat ≠ 0 := fun h => hx (UInt64.toNat_inj.mp h)
  have hlog : Nat.log2 x.toNat < 64 := (Nat.log2_lt hne).mpr x.toNat_lt
  rw [leadingZeros, if_neg hx, bitWidth, if_neg hne]
  omega

/-- One bit at a place. -/
theorem toNat_one_shiftLeft (i : Nat) (hi : i < 64) :
    ((1 : UInt64) <<< UInt64.ofNat i).toNat = 2 ^ i := by
  have hmod : (UInt64.ofNat i).toNat % 64 = i := by
    rw [UInt64.toNat_ofNat']
    omega
  rw [UInt64.toNat_shiftLeft, hmod, UInt64.toNat_one, Nat.shiftLeft_eq, Nat.one_mul,
    Nat.mod_eq_of_lt (Nat.pow_lt_pow_right (by omega) hi)]

/-- Joined to bits below its place, a bit is added. -/
theorem toNat_or_shiftLeft (r b : UInt64) (i : Nat) (hi : i < 64) (hr : r.toNat < 2 ^ i)
    (hb : b.toNat < 2) : (r ||| (b <<< UInt64.ofNat i)).toNat = r.toNat + 2 ^ i * b.toNat := by
  have hmod : (UInt64.ofNat i).toNat % 64 = i := by
    rw [UInt64.toNat_ofNat']
    omega
  have hfits : b.toNat <<< i < 2 ^ 64 := by
    rw [Nat.shiftLeft_eq]
    calc b.toNat * 2 ^ i < 2 * 2 ^ i := Nat.mul_lt_mul_of_pos_right hb (Nat.two_pow_pos i)
      _ = 2 ^ (i + 1) := by rw [pow_succ']
      _ ≤ 2 ^ 64 := Nat.pow_le_pow_right (by omega) hi
  rw [UInt64.toNat_or, UInt64.toNat_shiftLeft, hmod, Nat.mod_eq_of_lt hfits, Nat.or_comm,
    ← Nat.shiftLeft_add_eq_or_of_lt hr, Nat.shiftLeft_eq, Nat.mul_comm, Nat.add_comm]

/-- The bit of a word at a place. -/
theorem toNat_shiftRight_and_one (x : UInt64) (i : Nat) (hi : i < 64) :
    ((x >>> UInt64.ofNat i) &&& 1).toNat = x.toNat / 2 ^ i % 2 := by
  have hmod : (UInt64.ofNat i).toNat % 64 = i := by
    rw [UInt64.toNat_ofNat']
    omega
  rw [UInt64.toNat_and, UInt64.toNat_shiftRight, hmod, Nat.shiftRight_eq_div_pow,
    UInt64.toNat_one, Nat.and_one_is_mod]

end Veil7
