import Veil7.Core.Domain

/-!
# Checked Access to Fixed Arrays

Rust checks every index into an array and panics when it is out of bounds. The
functions here are those accesses: they return the element or the changed
array, or stop the run with `Panic.indexOutOfBounds`.

## Main definitions

* `Panic`: How a run stops short of returning.
* `Block.read`, `Block.write`, `Block.prefixOf`: `a[i]`, `a[i] = x`, `&a[..k]`.

## Theorems

* `ok_bind`, `error_bind`: A run goes on after a value and ends with a panic.
* `read_of_lt`, `write_of_lt`, `prefixOf_of_le`: In bounds, the access is made.
* `foldl_set_finRange`: A loop that sets every position builds its array.
-/

namespace Veil7

/-- The reasons for which the checked build of the program panics. -/
inductive Panic where
  | indexOutOfBounds
  | arithmeticOverflow
  | capacityOverflow
deriving DecidableEq

section

variable {α β : Type}

@[simp] theorem Panic.ok_bind (a : α) (f : α → Except Panic β) : (Except.ok a >>= f) = f a := rfl

@[simp] theorem Panic.error_bind (e : Panic) (f : α → Except Panic β) :
    ((Except.error e : Except Panic α) >>= f) = .error e := rfl

end

namespace Block

variable {n : Nat}

/-- `a[i]`. -/
def read (a : Block n) (i : Nat) : Except Panic UInt8 :=
  if h : i < n then .ok (a.get ⟨i, h⟩) else .error .indexOutOfBounds

/-- `a[i] = x`. -/
def write (a : Block n) (i : Nat) (x : UInt8) : Except Panic (Block n) :=
  if h : i < n then .ok (a.set ⟨i, h⟩ x) else .error .indexOutOfBounds

/-- `&a[..k]`. -/
def prefixOf (a : Block n) (k : Nat) : Except Panic Bytes :=
  if k ≤ n then .ok (a.toList.take k) else .error .indexOutOfBounds

theorem read_of_lt (a : Block n) (i : Nat) (h : i < n) : a.read i = .ok (a.get ⟨i, h⟩) :=
  dif_pos h

theorem write_of_lt (a : Block n) (i : Nat) (x : UInt8) (h : i < n) :
    a.write i x = .ok (a.set ⟨i, h⟩ x) :=
  dif_pos h

theorem write_of_le (a : Block n) (i : Nat) (x : UInt8) (h : n ≤ i) :
    a.write i x = .error .indexOutOfBounds :=
  dif_neg (by omega)

theorem prefixOf_of_le (a : Block n) (k : Nat) (h : k ≤ n) : a.prefixOf k = .ok (a.toList.take k) :=
  if_pos h

theorem get_foldl_set_of_not_mem (f : Fin n → UInt8) (ps : List (Fin n)) (a : Block n) (i : Fin n)
    (hmem : i ∉ ps) : (ps.foldl (fun b p => b.set p (f p)) a).get i = a.get i := by
  induction ps generalizing a with
  | nil => rfl
  | cons p ps ih =>
      rw [List.mem_cons, not_or] at hmem
      rw [List.foldl_cons, ih _ hmem.2, List.Vector.get_set_of_ne (Ne.symm hmem.1)]

theorem get_foldl_set_of_mem (f : Fin n → UInt8) (ps : List (Fin n)) (a : Block n) (i : Fin n)
    (hmem : i ∈ ps) : (ps.foldl (fun b p => b.set p (f p)) a).get i = f i := by
  induction ps generalizing a with
  | nil => cases hmem
  | cons p ps ih =>
      rw [List.foldl_cons]
      by_cases hrest : i ∈ ps
      · exact ih _ hrest
      -- The position is set here for the last time.
      · rw [get_foldl_set_of_not_mem f ps _ i hrest]
        rcases List.mem_cons.mp hmem with rfl | hmem
        · exact List.Vector.get_set_same _ _ _
        · exact absurd hmem hrest

/-- A loop that sets every position to a value of its own builds the array of
    these values, whatever it started from. -/
theorem foldl_set_finRange (f : Fin n → UInt8) (a : Block n) :
    (List.finRange n).foldl (fun b p => b.set p (f p)) a = List.Vector.ofFn f := by
  apply List.Vector.ext
  intro i
  rw [get_foldl_set_of_mem f _ a i (List.mem_finRange i), List.Vector.get_ofFn]

end Block

end Veil7
