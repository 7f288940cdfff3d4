import Veil7.Core.Domain
import Veil7.Library.Query

/-!
# The Incremental Hasher

`shake256.rs`: a buffer that collects everything absorbed and is hashed in
one call when the output is first needed.

The function that call runs is `libcrux_sha3::shake256_ema`, which lives
outside the repository. It is the parameter `X : Xof` of the whole
development: it fills an output array of any size from an input of any
length. Every hash the engine computes goes through `finalizeXof`, and that
is the one place a query is recorded, so the queries of a computation are
the byte strings it hashes.

The reader computes 256 bytes up front and serves from those, which is why
`digest` reads a prefix of a fixed 256-byte output and not an output of the
length asked for. Reading beyond them yields zeros.

## Main definitions

* `Xof`: The extendable-output function behind the hasher.
* `Shake256`: The collecting hasher.
* `Shake256Reader`: The output window and the position reached in it.
* `digest`: The first `n` bytes read for a string.
* `absorbAll`: The hasher after absorbing a list of parts.
* `h32`: The 32-byte hash of a list of parts.

## Theorems

* `toList_digest`: A digest is a beginning of the 256-byte window.
* `take_digest`: A shorter digest is a beginning of a longer one.
* `collisionFree_digest`: A longer output has no collision where a shorter
  one has none.
-/

namespace Veil7

/-- `libcrux_sha3::shake256_ema`: fills an array of `n` bytes from a message. -/
abbrev Xof : Type := Bytes → (n : Nat) → Block n

/-- A computation that hashes, with the strings it hashed. -/
abbrev Hashing (α : Type) : Type := Queried Bytes α

structure Shake256 where
  buf : Bytes

structure Shake256Reader where
  out : Block 256
  pos : Nat

namespace Shake256

def new : Shake256 := { buf := [] }

def update (xof : Shake256) (data : Bytes) : Shake256 :=
  { buf := xof.buf ++ data }

/-- The reader over the first 256 output bytes; records the string hashed. -/
def finalizeXof (X : Xof) (xof : Shake256) : Hashing Shake256Reader :=
  { val := { out := X xof.buf 256, pos := 0 }, queries := [xof.buf] }

@[simp] theorem buf_new : new.buf = [] := rfl

@[simp] theorem buf_update (xof : Shake256) (data : Bytes) :
    (xof.update data).buf = xof.buf ++ data := rfl

end Shake256

/-- Fills an array of `n` bytes from the window, with zeros once it is used
    up, and advances the position by the bytes copied. -/
def Shake256Reader.read (reader : Shake256Reader) (n : Nat) : Block n × Shake256Reader :=
  let available := 256 - reader.pos
  let toCopy := min n available
  (⟨(reader.out.toList.drop reader.pos).take toCopy ++ List.replicate (n - toCopy) 0, by
    rw [List.length_append, List.length_take, List.length_drop, List.length_replicate,
      Block.length_toList]
    omega⟩, { reader with pos := reader.pos + toCopy })

section

variable (X : Xof)

/-- The hasher's output array of `n` bytes, read in one call. -/
def Shake256.squeeze (xof : Shake256) (n : Nat) : Hashing (Block n) := do
  let reader ← xof.finalizeXof X
  pure (reader.read n).1

/-- The first `n` bytes read for a string. -/
def digest (n : Nat) (s : Bytes) : Block n := (Shake256.squeeze X { buf := s } n).val

@[simp] theorem Shake256.val_squeeze (xof : Shake256) (n : Nat) :
    (xof.squeeze X n).val = digest X n xof.buf := rfl

@[simp] theorem Shake256.queries_squeeze (xof : Shake256) (n : Nat) :
    (xof.squeeze X n).queries = [xof.buf] := rfl

/-- Up to the window's size a digest is a beginning of the window. -/
theorem toList_digest (n : Nat) (s : Bytes) (hn : n ≤ 256) :
    (digest X n s).toList = (X s 256).toList.take n := by
  change ((X s 256).toList.drop 0).take (min n (256 - 0)) ++
    List.replicate (n - min n (256 - 0)) 0 = _
  rw [List.drop_zero, Nat.sub_zero, Nat.min_eq_left hn, Nat.sub_self, List.replicate_zero,
    List.append_nil]

theorem take_digest (m n : Nat) (s : Bytes) (hmn : m ≤ n) (hn : n ≤ 256) :
    (digest X n s).toList.take m = (digest X m s).toList := by
  rw [toList_digest X n s hn, toList_digest X m s (by omega), List.take_take,
    Nat.min_eq_left hmn]

/-- Equal digests stay equal when they are shortened. -/
theorem digest_eq_of_le (m n : Nat) (s t : Bytes) (hmn : m ≤ n) (hn : n ≤ 256)
    (h : digest X n s = digest X n t) : digest X m s = digest X m t := by
  apply Block.toList_inj
  rw [← take_digest X m n s hmn hn, h, take_digest X m n t hmn hn]

end

/-- The hasher after absorbing the parts in order. -/
def Shake256.absorbAll (parts : List Bytes) : Shake256 :=
  parts.foldl Shake256.update Shake256.new

theorem Shake256.buf_foldl_update (parts : List Bytes) (xof : Shake256) :
    (parts.foldl Shake256.update xof).buf = xof.buf ++ parts.flatten := by
  induction parts generalizing xof with
  | nil => rw [List.foldl_nil, List.flatten_nil, List.append_nil]
  | cons p parts ih => rw [List.foldl_cons, ih, buf_update, List.flatten_cons, List.append_assoc]

@[simp] theorem Shake256.buf_absorbAll (parts : List Bytes) :
    (Shake256.absorbAll parts).buf = parts.flatten := by
  rw [Shake256.absorbAll, Shake256.buf_foldl_update, Shake256.buf_new, List.nil_append]

/-- The 32-byte hash of a sequence of parts, as the relations compute it. -/
def h32 (X : Xof) (parts : List Bytes) : Hashing (Block 32) :=
  (Shake256.absorbAll parts).squeeze X 32

@[simp] theorem val_h32 (X : Xof) (parts : List Bytes) :
    (h32 X parts).val = digest X 32 parts.flatten := by
  rw [h32, Shake256.val_squeeze, Shake256.buf_absorbAll]

@[simp] theorem queries_h32 (X : Xof) (parts : List Bytes) :
    (h32 X parts).queries = [parts.flatten] := by
  rw [h32, Shake256.queries_squeeze, Shake256.buf_absorbAll]

end Veil7
