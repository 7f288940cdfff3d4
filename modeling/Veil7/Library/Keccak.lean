import Mathlib.Data.Vector.Basic
import Veil7.Library.Encoding

/-!
# SHAKE256

The extendable-output function of FIPS 202, written to be evaluated.

The development is stated over an arbitrary extendable-output function, since
nothing it proves depends on which one is used. A statement with a
collision-freeness assumption still has to be shown satisfiable at a concrete
input, and there the honest choice is the function the engine really runs.

The state is one number of 1600 bits, with lane `(x, y)` in the 64 bits from
`64 * (x + 5 * y)` on. A step of a round then works on whole rows or on all
twenty-five lanes at once, with shifts and masks that evaluate directly on
numerals; only the rotations go lane by lane.

## Main definitions

* `Keccak.permute`: The permutation Keccak-f[1600].
* `Keccak.absorb`: Padded message blocks mixed into the state.
* `Keccak.squeeze`: Output blocks read off the state.
* `Keccak.shake256`: The first `n` output bytes for a message.

## Theorems

* `squeeze_prefix`: More output blocks continue fewer.
* `take_shake256`: A longer output continues a shorter one.
-/

namespace Veil7

namespace Keccak

/-- One bit at the bottom of every row; times a row, five copies of it. -/
def rows : Nat := 1 + 2 ^ 320 + 2 ^ 640 + 2 ^ 960 + 2 ^ 1280

/-- The lanes `a` up to `b` of every row, all their bits set. -/
def columns (a b : Nat) : Nat := (2 ^ (64 * b) - 2 ^ (64 * a)) * rows

/-- The bottom bit of each of the five lanes of a row. -/
def bottoms : Nat := 1 + 2 ^ 64 + 2 ^ 128 + 2 ^ 192 + 2 ^ 256

/-- Rotation of a lane to the left. -/
def rotateLeft (x k : Nat) : Nat := ((x <<< k) % 2 ^ 64) ||| (x >>> (64 - k))

/-- The lane a position is filled from, and how far it is rotated on the way;
    one entry for each position, in order. -/
def moves : List (Nat × Nat) :=
  [(0, 0), (6, 44), (12, 43), (18, 21), (24, 14), (3, 28), (9, 20), (10, 3), (16, 45), (22, 61),
   (1, 1), (7, 6), (13, 25), (19, 8), (20, 18), (4, 27), (5, 36), (11, 10), (17, 15), (23, 56),
   (2, 62), (8, 55), (14, 39), (15, 41), (21, 2)]

/-- The constants added to the first lane, one for each round. -/
def roundConstants : List Nat :=
  [0x0000000000000001, 0x0000000000008082, 0x800000000000808A, 0x8000000080008000,
   0x000000000000808B, 0x0000000080000001, 0x8000000080008081, 0x8000000000008009,
   0x000000000000008A, 0x0000000000000088, 0x0000000080008009, 0x000000008000000A,
   0x000000008000808B, 0x800000000000008B, 0x8000000000008089, 0x8000000000008003,
   0x8000000000008002, 0x8000000000000080, 0x000000000000800A, 0x800000008000000A,
   0x8000000080008081, 0x8000000000008080, 0x0000000080000001, 0x8000000080008008]

/-- The column parities spread to the neighbouring columns. -/
def theta (s : Nat) : Nat :=
  -- All five rows added up, then compared with their neighbours lane by lane.
  let c := (s ^^^ (s >>> 320) ^^^ (s >>> 640) ^^^ (s >>> 960) ^^^ (s >>> 1280)) % 2 ^ 320
  let before := ((c <<< 64) % 2 ^ 320) ||| (c >>> 256)
  let after := (c >>> 64) ||| ((c % 2 ^ 64) <<< 256)
  let turned := (((after <<< 1) % 2 ^ 320) &&& ((2 ^ 320 - 1) ^^^ bottoms)) |||
    ((after >>> 63) &&& bottoms)
  s ^^^ ((before ^^^ turned) * rows)

/-- The lanes rotated and moved to their new positions. -/
def rhoPi (s : Nat) : Nat :=
  moves.foldr (fun m rest => rotateLeft ((s >>> (64 * m.1)) % 2 ^ 64) m.2 ||| (rest <<< 64)) 0

/-- The non-linear step along the rows. -/
def chi (s : Nat) : Nat :=
  let next := ((s >>> 64) &&& columns 0 4) ||| ((s <<< 256) &&& columns 4 5)
  let second := ((s >>> 128) &&& columns 0 3) ||| ((s <<< 192) &&& columns 3 5)
  s ^^^ ((columns 0 5 ^^^ next) &&& second)

/-- One round of the permutation. -/
def round (s c : Nat) : Nat := chi (rhoPi (theta s)) ^^^ c

/-- The permutation Keccak-f[1600]. -/
def permute (s : Nat) : Nat := roundConstants.foldl round s

/-- The bytes of a block mixed into one call of the permutation. -/
def rate : Nat := 136

/-- The message with the SHAKE suffix, padded to whole blocks. -/
def pad (msg : List UInt8) : List UInt8 :=
  -- The suffix and the final bit share a byte when only one is left.
  let gap := rate - 1 - msg.length % rate
  if gap = 0 then msg ++ [0x9F]
  else msg ++ [0x1F] ++ List.replicate (gap - 1) 0 ++ [0x80]

/-- The state with `k` message blocks absorbed. -/
def absorb : Nat → Nat → List UInt8 → Nat
  | 0, s, _ => s
  | k + 1, s, msg => absorb k (permute (s ^^^ ofLeBytes (msg.take rate))) (msg.drop rate)

/-- The next `k` output blocks of the state. -/
def squeeze : Nat → Nat → List UInt8
  | 0, _ => []
  | k + 1, s => leBytes rate s ++ squeeze k (permute s)

/-- The first `n` bytes of a list, filled up with zeros. -/
def firstBytes (n : Nat) (l : List UInt8) : List.Vector UInt8 n :=
  ⟨l.take n ++ List.replicate (n - (l.take n).length) 0, by
    rw [List.length_append, List.length_replicate, List.length_take]
    omega⟩

/-- The first `n` output bytes of SHAKE256 for a message. -/
def shake256 (msg : List UInt8) (n : Nat) : List.Vector UInt8 n :=
  let s := absorb (msg.length / rate + 1) 0 (pad msg)
  firstBytes n (squeeze (n / rate + 1) s)

theorem length_squeeze (k s : Nat) : (squeeze k s).length = rate * k := by
  induction k generalizing s with
  | zero => rfl
  | succ k ih =>
      rw [squeeze, List.length_append, length_leBytes, ih]
      ring

/-- Blocks already produced do not depend on how many more follow. -/
theorem squeeze_prefix (j k s : Nat) (hjk : j ≤ k) : squeeze j s <+: squeeze k s := by
  induction j generalizing k s with
  | zero => exact List.nil_prefix
  | succ j ih =>
      cases k with
      | zero => omega
      | succ k =>
          rw [squeeze, squeeze]
          exact (List.prefix_append_right_inj _).mpr (ih k (permute s) (by omega))

theorem toList_firstBytes (n : Nat) (l : List UInt8) (hn : n ≤ l.length) :
    (firstBytes n l).toList = l.take n := by
  change l.take n ++ List.replicate (n - (l.take n).length) 0 = _
  rw [List.length_take, Nat.min_eq_left hn, Nat.sub_self, List.replicate_zero, List.append_nil]

theorem toList_firstBytes_of_le (n : Nat) (l : List UInt8) (hn : l.length ≤ n) :
    (firstBytes n l).toList = l ++ List.replicate (n - l.length) 0 := by
  change l.take n ++ List.replicate (n - (l.take n).length) 0 = _
  rw [List.take_of_length_le hn]

theorem toList_shake256 (msg : List UInt8) (n : Nat) :
    (shake256 msg n).toList
      = (squeeze (n / rate + 1) (absorb (msg.length / rate + 1) 0 (pad msg))).take n := by
  refine toList_firstBytes n _ ?_
  rw [length_squeeze, rate]
  omega

/-- A longer output continues a shorter one. -/
theorem take_shake256 (msg : List UInt8) (m n : Nat) (hmn : m ≤ n) :
    (shake256 msg n).toList.take m = (shake256 msg m).toList := by
  rw [toList_shake256, toList_shake256, List.take_take, Nat.min_eq_left hmn]
  -- Both outputs begin in the same blocks, and the shorter one ends inside them.
  have hblocks : m / rate + 1 ≤ n / rate + 1 := by
    rw [rate]
    omega
  have hpre := squeeze_prefix _ _ (absorb (msg.length / rate + 1) 0 (pad msg)) hblocks
  rcases hpre with ⟨more, hmore⟩
  rw [← hmore, List.take_append_of_le_length]
  rw [length_squeeze, rate]
  omega

example : (shake256 [] 8).toList = [70, 185, 221, 43, 11, 168, 141, 19] := by decide +kernel

end Keccak

end Veil7
