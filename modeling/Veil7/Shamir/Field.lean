import Mathlib.Algebra.Field.Basic
import Mathlib.Algebra.CharP.Lemmas
import Mathlib.Algebra.CharP.Two
import Mathlib.Data.FinEnum
import Mathlib.Data.List.Iterate
import Mathlib.Tactic.IntervalCases
import Mathlib.Tactic.Ring

/-!
# The Byte Field of the Shamir Module

`gf_mul`, `gf_inv` and `gf_eval` of `shamir.rs`, and the proof that the first
two make the bytes a field with exclusive or for addition.

The multiplication is eight rounds of the peasant's algorithm on 16-bit words,
with masks in place of branches. Each round is additive in the running multiple
and in the bits consumed, so the product is additive in both arguments, and a
law of the field that is additive in each of its variables holds as soon as it
holds of the eight single bits; and as these are one doubled again and again,
associativity only asks that doubling moves out of a product.

The inverse is the power 254. Squaring is additive too, so every byte is its
own 256th power; the power 255 is then an idempotent, and the only idempotents
are zero and one.

## Main definitions

* `gfMul`, `gfInv`, `gfEval`: The functions of the module.
* `GF256`: The bytes with their field structure.

## Theorems

* `gfMul_xor_left`, `gfMul_xor_right`: Multiplication is additive.
* `byte_induction`: What holds of bits and is closed under addition holds.
* `gfMul_comm`, `gfMul_assoc`: The laws of a ring.
* `gfInv_eq_pow`: The inverse is the power 254.
* `pow_255`: A non-zero byte to the power 255 is one.
-/

namespace Veil7

namespace Shamir

/-- Irreducible polynomial for GF(2^8): `x^8 + x^4 + x^3 + x + 1`. -/
def poly : UInt16 := 0x11B

/-- The constant-time mask: all ones if the lowest bit is set, else zero. -/
def bitMask (w : UInt16) : UInt16 := 0 - (w &&& 1)

/-- Twice an element: shift, and reduce if the high bit was set. -/
def doubled (a : UInt16) : UInt16 := (a <<< 1) ^^^ (poly &&& bitMask (a >>> 7))

/-- One round of `gf_mul` on the pair of `result` and `a`: add `a` if bit `i`
    of `b` is set, then double `a`. -/
def gfMulRound (b : UInt16) (s : UInt16 × UInt16) (i : Nat) : UInt16 × UInt16 :=
  (s.1 ^^^ (s.2 &&& bitMask (b >>> UInt16.ofNat i)), doubled s.2)

/-- Multiply two elements; all eight bits of `b` are processed. -/
def gfMul (a b : UInt8) : UInt8 :=
  ((List.range 8).foldl (gfMulRound b.toUInt16) (0, a.toUInt16)).1.toUInt8

/-- One round of `gf_inv` on the pair of `acc` and `base`: multiply if bit `i`
    of 254 is set, then square `base`. -/
def gfInvRound (s : UInt8 × UInt8) (i : Nat) : UInt8 × UInt8 :=
  let bit := (254 >>> UInt8.ofNat i) &&& 1
  let product := gfMul s.1 s.2
  -- All ones or zero: the choice between the two without a branch.
  let mask := 0 - bit
  ((s.1 &&& ~~~mask) ||| (product &&& mask), gfMul s.2 s.2)

/-- The multiplicative inverse, by Fermat's little theorem; zero for zero. -/
def gfInv (a : UInt8) : UInt8 := ((List.range 8).foldl gfInvRound (1, a)).1

/-- One round of `gf_eval` on the pair of `result` and `x_pow`. -/
def gfEvalRound (x : UInt8) (s : UInt8 × UInt8) (c : UInt8) : UInt8 × UInt8 :=
  (s.1 ^^^ gfMul c s.2, gfMul s.2 x)

/-- Evaluate a polynomial at `x`; the first coefficient is the constant term. -/
def gfEval (coeffs : List UInt8) (x : UInt8) : UInt8 :=
  (coeffs.foldl (gfEvalRound x) (0, 1)).1

/-! ### Multiplication is additive -/

theorem and_xor_right (v w m : UInt16) : (v ^^^ w) &&& m = (v &&& m) ^^^ (w &&& m) := by
  refine UInt16.toBitVec_inj.mp (BitVec.eq_of_getElem_eq (fun i h => ?_))
  simp only [UInt16.toBitVec_and, UInt16.toBitVec_xor, BitVec.getElem_and, BitVec.getElem_xor,
    Bool.and_xor_distrib_right]

theorem and_xor_left (m v w : UInt16) : m &&& (v ^^^ w) = (m &&& v) ^^^ (m &&& w) := by
  rw [UInt16.and_comm, and_xor_right, UInt16.and_comm v, UInt16.and_comm w]

theorem xor_xor_xor_comm (a b c d : UInt16) :
    (a ^^^ b) ^^^ (c ^^^ d) = (a ^^^ c) ^^^ (b ^^^ d) := by
  rw [UInt16.xor_assoc, ← UInt16.xor_assoc b, UInt16.xor_comm b, UInt16.xor_assoc c,
    ← UInt16.xor_assoc a]

theorem and_one_cases (w : UInt16) : w &&& 1 = 0 ∨ w &&& 1 = 1 := by
  have h : (w &&& 1).toNat < 2 := by
    rw [UInt16.toNat_and]
    exact Nat.lt_of_le_of_lt Nat.and_le_right Nat.one_lt_two
  rcases Nat.lt_succ_iff_lt_or_eq.mp h with h | h
  · exact Or.inl (UInt16.toNat_inj.mp (Nat.lt_one_iff.mp h))
  · exact Or.inr (UInt16.toNat_inj.mp h)

/-- The mask of a sum is the sum of the masks. -/
theorem bitMask_xor (v w : UInt16) : bitMask (v ^^^ w) = bitMask v ^^^ bitMask w := by
  unfold bitMask
  rw [and_xor_right]
  rcases and_one_cases v with hv | hv <;> rcases and_one_cases w with hw | hw <;>
    rw [hv, hw] <;> rfl

theorem doubled_xor (a a' : UInt16) : doubled (a ^^^ a') = doubled a ^^^ doubled a' := by
  unfold doubled
  rw [UInt16.shiftLeft_xor, UInt16.shiftRight_xor, bitMask_xor, and_xor_left, xor_xor_xor_comm]

theorem gfMulRound_xor_left (b : UInt16) (r r' a a' : UInt16) (i : Nat) :
    gfMulRound b (r ^^^ r', a ^^^ a') i
      = ((gfMulRound b (r, a) i).1 ^^^ (gfMulRound b (r', a') i).1,
        (gfMulRound b (r, a) i).2 ^^^ (gfMulRound b (r', a') i).2) := by
  simp only [gfMulRound, and_xor_right, doubled_xor, xor_xor_xor_comm]

theorem gfMulRound_xor_right (b b' : UInt16) (r r' a : UInt16) (i : Nat) :
    gfMulRound (b ^^^ b') (r ^^^ r', a) i
      = ((gfMulRound b (r, a) i).1 ^^^ (gfMulRound b' (r', a) i).1, doubled a) := by
  simp only [gfMulRound, UInt16.shiftRight_xor, bitMask_xor, and_xor_left, xor_xor_xor_comm]

/-- The rounds are additive in the starting pair, by induction on the bits. -/
theorem foldl_gfMulRound_xor_left (b : UInt16) (is : List Nat) (r r' a a' : UInt16) :
    (is.foldl (gfMulRound b) (r ^^^ r', a ^^^ a')).1
      = (is.foldl (gfMulRound b) (r, a)).1 ^^^ (is.foldl (gfMulRound b) (r', a')).1 := by
  induction is generalizing r r' a a' with
  | nil => rfl
  | cons i is ih =>
      rw [List.foldl_cons, List.foldl_cons, List.foldl_cons, gfMulRound_xor_left, ih]

/-- The rounds are additive in the multiplier, whose bits alone decide what is
    added; the running multiple never sees it. -/
theorem foldl_gfMulRound_xor_right (b b' : UInt16) (is : List Nat) (r r' a : UInt16) :
    (is.foldl (gfMulRound (b ^^^ b')) (r ^^^ r', a)).1
      = (is.foldl (gfMulRound b) (r, a)).1 ^^^ (is.foldl (gfMulRound b') (r', a)).1 := by
  induction is generalizing r r' a with
  | nil => rfl
  | cons i is ih =>
      rw [List.foldl_cons, List.foldl_cons, List.foldl_cons, gfMulRound_xor_right, ih]
      rfl

theorem gfMul_xor_left (a a' b : UInt8) : gfMul (a ^^^ a') b = gfMul a b ^^^ gfMul a' b := by
  have h := foldl_gfMulRound_xor_left b.toUInt16 (List.range 8) 0 0 a.toUInt16 a'.toUInt16
  rw [UInt16.xor_self] at h
  unfold gfMul
  rw [UInt8.toUInt16_xor, h, UInt16.toUInt8_xor]

theorem gfMul_xor_right (a b b' : UInt8) : gfMul a (b ^^^ b') = gfMul a b ^^^ gfMul a b' := by
  have h := foldl_gfMulRound_xor_right b.toUInt16 b'.toUInt16 (List.range 8) 0 0 a.toUInt16
  rw [UInt16.xor_self] at h
  unfold gfMul
  rw [UInt8.toUInt16_xor, h, UInt16.toUInt8_xor]

/-! ### Laws on bits are laws on bytes -/

/-- The eight bytes with one bit set. -/
def bits : List UInt8 := (List.range 8).map fun i => 1 <<< UInt8.ofNat i

set_option maxRecDepth 100000 in
theorem foldr_bits (a : UInt8) :
    (bits.filter fun b => a &&& b ≠ 0).foldr (· ^^^ ·) 0 = a := by
  revert a
  decide

/-- A property of zero and of the single bits that sums keep holds of every
    byte. -/
theorem byte_induction (P : UInt8 → Prop) (hzero : P 0) (hbit : ∀ b ∈ bits, P b)
    (hxor : ∀ a b, P a → P b → P (a ^^^ b)) (a : UInt8) : P a := by
  have hsum : ∀ bs : List UInt8, (∀ b ∈ bs, b ∈ bits) → P (bs.foldr (· ^^^ ·) 0) := by
    intro bs
    induction bs with
    | nil => exact fun _ => hzero
    | cons b bs ih =>
        intro hbs
        rw [List.forall_mem_cons] at hbs
        exact hxor _ _ (hbit b hbs.1) (ih hbs.2)
  rw [← foldr_bits a]
  exact hsum _ (fun b hb => List.mem_of_mem_filter hb)

theorem gfMul_zero_left (b : UInt8) : gfMul 0 b = 0 := by
  have h := gfMul_xor_left 0 0 b
  rw [UInt8.xor_self, UInt8.xor_self] at h
  exact h

theorem gfMul_zero_right (a : UInt8) : gfMul a 0 = 0 := by
  have h := gfMul_xor_right a 0 0
  rw [UInt8.xor_self, UInt8.xor_self] at h
  exact h

set_option maxRecDepth 100000 in
/-- The laws on bits: one is neutral, factors commute, doubling moves out of a
    product, and eight squarings lead back. -/
theorem gfMul_bits : ∀ a ∈ bits, gfMul 1 a = a ∧
    ((List.range 8).foldl gfInvRound (1, a)).2 = a ∧
    ∀ b ∈ bits, gfMul a b = gfMul b a ∧ gfMul (gfMul 2 a) b = gfMul 2 (gfMul a b) := by
  decide

theorem gfMul_comm (a b : UInt8) : gfMul a b = gfMul b a := by
  -- Additive in both arguments, so it is enough to look at pairs of bits.
  refine byte_induction (fun a => ∀ b, gfMul a b = gfMul b a) ?_ ?_ ?_ a b
  · intro b
    rw [gfMul_zero_left, gfMul_zero_right]
  · intro a ha b
    refine byte_induction (fun b => gfMul a b = gfMul b a) ?_
      (fun b hb => ((gfMul_bits a ha).2.2 b hb).1) ?_ b
    · rw [gfMul_zero_left, gfMul_zero_right]
    · intro b b' h h'
      rw [gfMul_xor_right, gfMul_xor_left, h, h']
  · intro a a' h h' b
    rw [gfMul_xor_left, gfMul_xor_right, h, h']

theorem gfMul_one_left (b : UInt8) : gfMul 1 b = b := by
  refine byte_induction (fun b => gfMul 1 b = b) (gfMul_zero_right 1)
    (fun b hb => (gfMul_bits b hb).1) ?_ b
  intro b b' h h'
  rw [gfMul_xor_right, h, h']

theorem gfMul_two_left (a b : UInt8) : gfMul (gfMul 2 a) b = gfMul 2 (gfMul a b) := by
  refine byte_induction (fun a => ∀ b, gfMul (gfMul 2 a) b = gfMul 2 (gfMul a b)) ?_ ?_ ?_ a b
  · intro b
    rw [gfMul_zero_right, gfMul_zero_left, gfMul_zero_right]
  · intro a ha b
    refine byte_induction (fun b => gfMul (gfMul 2 a) b = gfMul 2 (gfMul a b)) ?_
      (fun b hb => ((gfMul_bits a ha).2.2 b hb).2) ?_ b
    · rw [gfMul_zero_right, gfMul_zero_right, gfMul_zero_right]
    · intro b b' h h'
      rw [gfMul_xor_right, gfMul_xor_right a, gfMul_xor_right 2, h, h']
  · intro a a' h h' b
    rw [gfMul_xor_right, gfMul_xor_left, gfMul_xor_left a, gfMul_xor_right, h, h']

theorem bits_eq_iterate : bits = List.iterate (gfMul 2) 1 8 := by
  decide

/-- Every byte is a sum of ones doubled again and again. -/
theorem byte_induction_two (P : UInt8 → Prop) (hone : P 1) (htwo : ∀ a, P a → P (gfMul 2 a))
    (hxor : ∀ a b, P a → P b → P (a ^^^ b)) (a : UInt8) : P a := by
  refine byte_induction P (hxor 1 1 hone hone) (fun b hb => ?_) hxor a
  rw [bits_eq_iterate, List.mem_iterate] at hb
  rcases hb with ⟨m, -, hm⟩
  rw [hm]
  clear hm
  induction m with
  | zero => exact hone
  | succ m ih =>
      rw [Function.iterate_succ_apply']
      exact htwo _ ih

theorem gfMul_assoc (a b c : UInt8) : gfMul (gfMul a b) c = gfMul a (gfMul b c) := by
  -- In the first factor only: one, doubled, and sums of these.
  refine byte_induction_two (fun a => ∀ b c, gfMul (gfMul a b) c = gfMul a (gfMul b c))
    ?_ ?_ ?_ a b c
  · intro b c
    rw [gfMul_one_left, gfMul_one_left]
  · intro a h b c
    rw [gfMul_two_left, gfMul_two_left, gfMul_two_left, h]
  · intro a a' h h' b c
    rw [gfMul_xor_left, gfMul_xor_left, gfMul_xor_left, h, h']

/-! ### The field -/

/-- A byte, as an element of the field. -/
@[ext]
structure GF256 where
  /-- The byte itself. -/
  byte : UInt8
deriving DecidableEq

namespace GF256

instance : Zero GF256 := ⟨⟨0⟩⟩
instance : One GF256 := ⟨⟨1⟩⟩
instance : Add GF256 := ⟨fun a b => ⟨a.byte ^^^ b.byte⟩⟩
instance : Neg GF256 := ⟨fun a => a⟩
instance : Sub GF256 := ⟨fun a b => ⟨a.byte ^^^ b.byte⟩⟩
instance : Mul GF256 := ⟨fun a b => ⟨gfMul a.byte b.byte⟩⟩
instance : Inv GF256 := ⟨fun a => ⟨gfInv a.byte⟩⟩

@[simp] theorem byte_mul (a b : GF256) : (a * b).byte = gfMul a.byte b.byte := rfl
@[simp] theorem byte_inv (a : GF256) : a⁻¹.byte = gfInv a.byte := rfl

theorem mk_xor (a b : UInt8) : GF256.mk (a ^^^ b) = GF256.mk a + GF256.mk b := rfl

instance : CommRing GF256 where
  add_assoc a b c := GF256.ext (UInt8.xor_assoc _ _ _)
  zero_add a := GF256.ext UInt8.zero_xor
  add_zero a := GF256.ext UInt8.xor_zero
  add_comm a b := GF256.ext (UInt8.xor_comm _ _)
  left_distrib a b c := GF256.ext (gfMul_xor_right _ _ _)
  right_distrib a b c := GF256.ext (gfMul_xor_left _ _ _)
  zero_mul a := GF256.ext (gfMul_zero_left _)
  mul_zero a := GF256.ext (gfMul_zero_right _)
  mul_assoc a b c := GF256.ext (gfMul_assoc _ _ _)
  one_mul a := GF256.ext (gfMul_one_left _)
  mul_one a := GF256.ext ((gfMul_comm _ _).trans (gfMul_one_left _))
  mul_comm a b := GF256.ext (gfMul_comm _ _)
  neg_add_cancel a := GF256.ext UInt8.xor_self
  sub_eq_add_neg a b := rfl
  nsmul := nsmulRec
  zsmul := zsmulRec

theorem add_self (a : GF256) : a + a = 0 := GF256.ext UInt8.xor_self

instance : CharP GF256 2 :=
  CharTwo.of_one_ne_zero_of_two_eq_zero (by decide) (add_self 1)

/-- What the constant-time choice of `gf_inv` leaves in `acc`. -/
theorem select_bit (x y : UInt8) :
    ((x &&& ~~~(0 - 0)) ||| (y &&& (0 - 0)) = x) ∧
      ((x &&& ~~~(0 - 1)) ||| (y &&& (0 - 1)) = y) := by
  constructor
  · rw [UInt8.sub_self, UInt8.and_zero, UInt8.or_zero]
    exact UInt8.and_neg_one
  · rw [show ~~~((0 : UInt8) - 1) = 0 from rfl, UInt8.and_zero, UInt8.zero_or]
    exact UInt8.and_neg_one

/-- After `k` rounds `acc` is the power given by the low `k` bits of 254 and
    `base` is the repeated square. -/
theorem foldl_gfInvRound (a : GF256) (k : Nat) (hk : k ≤ 8) :
    (List.range k).foldl gfInvRound (1, a.byte)
      = ((a ^ (254 % 2 ^ k)).byte, (a ^ 2 ^ k).byte) := by
  induction k with
  | zero => rw [pow_zero, Nat.mod_one, pow_zero, pow_one]; rfl
  | succ k ih =>
      rw [List.range_succ, List.foldl_append, ih (by omega), List.foldl_cons, List.foldl_nil]
      have hsq : gfMul (a ^ 2 ^ k).byte (a ^ 2 ^ k).byte = (a ^ 2 ^ (k + 1)).byte := by
        rw [← byte_mul, ← pow_add, pow_succ, mul_two]
      have hmul : gfMul (a ^ (254 % 2 ^ k)).byte (a ^ 2 ^ k).byte
          = (a ^ (254 % 2 ^ k + 2 ^ k)).byte := by
        rw [← byte_mul, ← pow_add]
      simp only [gfInvRound, hsq, hmul, Prod.mk.injEq, and_true]
      -- Every bit of 254 but the lowest is set.
      rcases Nat.eq_zero_or_pos k with h0 | hpos
      · subst h0
        exact (select_bit _ _).1
      · have hlt : k < 8 := by omega
        have hbit : (254 >>> UInt8.ofNat k) &&& 1 = (1 : UInt8) := by
          interval_cases k <;> rfl
        have hmod : 254 % 2 ^ (k + 1) = 254 % 2 ^ k + 2 ^ k := by
          interval_cases k <;> rfl
        rw [hbit, hmod]
        exact (select_bit _ _).2

/-- The inverse is the power 254. -/
theorem gfInv_eq_pow (a : GF256) : gfInv a.byte = (a ^ 254).byte := by
  rw [gfInv, foldl_gfInvRound a 8 (Nat.le_refl 8)]
  rfl

/-- Every byte is its own 256th power: eight squarings are additive and fix
    the bits. -/
theorem pow_256 (a : GF256) : a ^ 256 = a := by
  refine byte_induction (fun b => GF256.mk b ^ 2 ^ 8 = GF256.mk b) ?_ (fun b hb => ?_) ?_ a.byte
  · exact zero_pow (by omega)
  · have h := foldl_gfInvRound (GF256.mk b) 8 (Nat.le_refl 8)
    exact GF256.ext ((congrArg Prod.snd h).symm.trans (gfMul_bits b hb).2.1)
  · intro b b' h h'
    rw [mk_xor, add_pow_char_pow, h, h']

set_option maxRecDepth 100000 in
theorem gfMul_self_cases : ∀ e : UInt8, gfMul e e = e → e = 0 ∨ e = 1 := by
  decide

/-- A non-zero byte to the power 255 is an idempotent and not zero, so it is
    one. -/
theorem pow_255 (a : GF256) (ha : a ≠ 0) : a ^ 255 = 1 := by
  -- `a ^ 256 = a` turns the square of the power 255 into that power.
  have hidem : a ^ 255 * a ^ 255 = a ^ 255 := by
    calc a ^ 255 * a ^ 255 = a ^ 256 * a ^ 254 := by rw [← pow_add, ← pow_add]
      _ = a ^ 255 := by rw [pow_256, ← pow_succ']
  rcases gfMul_self_cases (a ^ 255).byte (congrArg byte hidem) with h | h
  · refine absurd ?_ ha
    calc a = a ^ 255 * a := by rw [← pow_succ, pow_256]
      _ = 0 := by rw [show a ^ 255 = 0 from GF256.ext h, zero_mul]
  · exact GF256.ext h

instance : Field GF256 where
  exists_pair_ne := ⟨0, 1, by decide⟩
  mul_inv_cancel a ha := by
    have hinv : a⁻¹ = a ^ 254 := GF256.ext (gfInv_eq_pow a)
    rw [hinv, ← pow_succ', pow_255 a ha]
  inv_zero := GF256.ext (by rw [byte_inv, gfInv_eq_pow, zero_pow (by decide)])
  nnqsmul := _
  qsmul := _

end GF256

end Shamir

end Veil7
