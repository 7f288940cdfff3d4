import Veil7.Core.Buffer
import Veil7.Core.Shake256

/-!
# Runs That May Panic

Hashing computations of the checked build. The release profile keeps overflow
checks on, so an addition that leaves its type or a shift by the type's width
ends the run, as an index out of bounds does.

`usize` is a 64-bit number throughout.

## Main definitions

* `Checked`: A computation that hashes and may panic.
* `Checked.of`: A step that may panic and hashes nothing.
* `shl64`, `add32`: The checked operations the engine uses.
* `reserve`: `Vec::with_capacity` for one-byte elements.
* `Room`: How far a vector of bytes can grow.
* `Shake256.updateAll`: Updates of the hasher whose buffer has such a limit.
* `saturatingAdd`, `saturatingSub`: The operations that clamp.

## Theorems

* `val_run_bind`: A sequence stops at its first panic.
* `queries_run_bind_of_ok`, `exists_of_run_bind`: What a sequence asks, and when
  it gives a value.
* `shl64_of_lt`, `add32_of_lt`: Within range the operation is made.
* `Shake256.updateAll_eq`, `Shake256.buf_of_updateAll`: The parts are absorbed if
  they fit all together.
* `toNat_saturatingAdd`, `toNat_saturatingSub`: The clamped results.
-/

namespace Veil7

/-- A computation that hashes and may panic. -/
abbrev Checked (α : Type) : Type := ExceptT Panic Hashing α

namespace Checked

variable {α β : Type}

/-- A step that may panic and hashes nothing. -/
def of (x : Except Panic α) : Checked α := ExceptT.mk (pure x)

@[simp] theorem val_run_of (x : Except Panic α) : (of x).run.val = x := rfl

@[simp] theorem val_run_pure (a : α) : (pure a : Checked α).run.val = .ok a := rfl

@[simp] theorem val_run_lift (x : Hashing α) :
    (ExceptT.lift x : Checked α).run.val = .ok x.val := rfl

/-- A sequence goes on with a value and stops at a panic. -/
theorem val_run_bind (x : Checked α) (f : α → Checked β) :
    (x >>= f).run.val = x.run.val >>= fun a => (f a).run.val := by
  rw [ExceptT.run_bind, Queried.val_bind]
  cases x.run.val with
  | ok a => rfl
  | error e => rfl

/-- Both parts of a sequence ask, if the first gives a value. -/
theorem queries_run_bind_of_ok (x : Checked α) (f : α → Checked β) (a : α)
    (h : x.run.val = .ok a) :
    (x >>= f).run.queries = x.run.queries ++ (f a).run.queries := by
  rw [ExceptT.run_bind, Queried.queries_bind, h]

@[simp] theorem queries_run_of (x : Except Panic α) : (of x).run.queries = [] := rfl

@[simp] theorem queries_run_lift (x : Hashing α) :
    (ExceptT.lift x : Checked α).run.queries = x.queries := Queried.queries_map _ x

/-- A sequence gives a value only if its first part does. -/
theorem exists_of_run_bind (x : Checked α) (f : α → Checked β) (b : β)
    (h : (x >>= f).run.val = .ok b) : ∃ a, x.run.val = .ok a ∧ (f a).run.val = .ok b := by
  rw [val_run_bind] at h
  cases hx : x.run.val with
  | error e =>
      rw [hx] at h
      cases h
  | ok a =>
      rw [hx] at h
      exact ⟨a, rfl, h⟩

end Checked

/-- `x << i` for `u64`. -/
def shl64 (x : UInt64) (i : Nat) : Except Panic UInt64 :=
  if i < 64 then .ok (x <<< UInt64.ofNat i) else .error .arithmeticOverflow

/-- `a + b` for `u32`. -/
def add32 (a b : UInt32) : Except Panic UInt32 :=
  if a.toNat + b.toNat < 2 ^ 32 then .ok (a + b) else .error .arithmeticOverflow

/-- `Vec::with_capacity(m)` for elements of one byte; a vector takes at most
    `isize::MAX` bytes. -/
def reserve (m : UInt64) : Except Panic Unit :=
  if m.toNat < 2 ^ 63 then .ok () else .error .capacityOverflow

/-- How many bytes a `Vec<u8>` can come to hold as it grows. The steps it grows
    by are the standard library's own matter, but none leads past `isize::MAX`. -/
structure Room where
  bytes : Nat
  le_isizeMax : bytes ≤ 2 ^ 63 - 1

/-- A vector that grows as far as a vector may. -/
def isizeMax : Room := ⟨2 ^ 63 - 1, Nat.le_refl _⟩

/-- `xof.update(data)`, whose `extend_from_slice` panics when the buffer cannot
    grow to take the data. -/
def Shake256.updateWithin (room : Room) (xof : Shake256) (data : Bytes) :
    Except Panic Shake256 :=
  if xof.buf.length + data.length ≤ room.bytes then .ok (xof.update data)
  else .error .capacityOverflow

/-- One update after the other. -/
def Shake256.updateAll (room : Room) (xof : Shake256) (parts : List Bytes) :
    Except Panic Shake256 :=
  parts.foldlM (Shake256.updateWithin room) xof

/-- `a.saturating_add(b)`. -/
def saturatingAdd (a b : UInt64) : UInt64 :=
  if a.toNat + b.toNat < 2 ^ 64 then a + b else UInt64.ofNat (2 ^ 64 - 1)

/-- `a.saturating_sub(b)`. -/
def saturatingSub (a b : UInt64) : UInt64 :=
  if b ≤ a then a - b else 0

theorem shl64_of_lt (x : UInt64) (i : Nat) (h : i < 64) :
    shl64 x i = .ok (x <<< UInt64.ofNat i) :=
  if_pos h

theorem shl64_of_le (x : UInt64) (i : Nat) (h : 64 ≤ i) :
    shl64 x i = .error .arithmeticOverflow :=
  if_neg (by omega)

theorem add32_of_lt (a b : UInt32) (h : a.toNat + b.toNat < 2 ^ 32) : add32 a b = .ok (a + b) :=
  if_pos h

theorem add32_of_le (a b : UInt32) (h : 2 ^ 32 ≤ a.toNat + b.toNat) :
    add32 a b = .error .arithmeticOverflow :=
  if_neg (by omega)

/-- Updates are made as long as the buffer has room for all they absorb. -/
theorem Shake256.updateAll_eq (room : Room) (xof : Shake256) (parts : List Bytes)
    (h : xof.buf.length ≤ room.bytes) :
    xof.updateAll room parts
      = if xof.buf.length + parts.flatten.length ≤ room.bytes
        then .ok (parts.foldl Shake256.update xof) else .error .capacityOverflow := by
  unfold Shake256.updateAll
  induction parts generalizing xof with
  | nil =>
      rw [List.flatten_nil, List.length_nil, Nat.add_zero, if_pos h]
      rfl
  | cons data parts ih =>
      rw [List.foldlM_cons, List.flatten_cons, List.length_append, ← Nat.add_assoc]
      by_cases hfits : xof.buf.length + data.length ≤ room.bytes
      · have hlen : (xof.update data).buf.length = xof.buf.length + data.length := by
          rw [Shake256.buf_update, List.length_append]
        rw [Shake256.updateWithin, if_pos hfits, Panic.ok_bind,
          ih (xof.update data) (by rw [hlen]; exact hfits), hlen]
        rfl
      -- This part is already too much, whatever comes after it.
      · rw [Shake256.updateWithin, if_neg hfits, Panic.error_bind, if_neg (by omega)]

/-- Updates that are made append the parts, and the buffer still has its limit. -/
theorem Shake256.buf_of_updateAll (room : Room) (parts : List Bytes) (xof xof' : Shake256)
    (hxof : xof.buf.length ≤ room.bytes) (h : xof.updateAll room parts = .ok xof') :
    xof'.buf = xof.buf ++ parts.flatten ∧ xof'.buf.length ≤ room.bytes := by
  rw [Shake256.updateAll_eq room xof parts hxof] at h
  by_cases hfits : xof.buf.length + parts.flatten.length ≤ room.bytes
  · rw [if_pos hfits, Except.ok.injEq] at h
    rw [← h, Shake256.buf_foldl_update, List.length_append]
    exact ⟨rfl, hfits⟩
  · rw [if_neg hfits] at h
    cases h

/-- The sum, or the largest number. -/
theorem toNat_saturatingAdd (a b : UInt64) :
    (saturatingAdd a b).toNat = min (a.toNat + b.toNat) (2 ^ 64 - 1) := by
  unfold saturatingAdd
  by_cases h : a.toNat + b.toNat < 2 ^ 64
  · rw [if_pos h, UInt64.toNat_add, Nat.mod_eq_of_lt h]
    omega
  · rw [if_neg h, UInt64.toNat_ofNat']
    omega

/-- The difference, or zero. -/
theorem toNat_saturatingSub (a b : UInt64) :
    (saturatingSub a b).toNat = a.toNat - b.toNat := by
  unfold saturatingSub
  by_cases h : b ≤ a
  · rw [if_pos h, UInt64.toNat_sub_of_le a b h]
  · rw [if_neg h, UInt64.toNat_zero]
    rw [UInt64.le_iff_toNat_le] at h
    omega

end Veil7
