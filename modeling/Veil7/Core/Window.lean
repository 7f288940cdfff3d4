import Veil7.Core.Shake256
import Veil7.Library.Keccak

/-!
# Reading Past the Output Window

What a reader serves over any number of reads. `finalizeXof` computes the
first 256 output bytes and keeps no state to compute more, so the reads of one
reader, put end to end, are those bytes and then zeros: up to 256 bytes in all
they are the extendable output of the absorbed string, and what is asked for
beyond that is filled with zeros and reported to nobody.

That the bytes are the same however the reads are cut needs nothing of the
output function. That they are what one call for the whole length returns
needs the property its name promises, `Continues`: a longer output begins with
every shorter one.

## Main definitions

* `Xof.Continues`: Longer outputs begin with the shorter ones.
* `Shake256Reader.readMany`: The bytes of several reads, put end to end.
* `shake256Xof`: The one-shot output of any length.

## Theorems

* `toList_read`: The bytes of one read.
* `readMany_eq`: The bytes of several reads.
* `readMany_finalizeXof`: The wrapper against the one-shot function.
* `readMany_past_window`: A read of 257 bytes ends in a zero.
-/

namespace Veil7

/-- A longer output begins with every shorter one, as the outputs of an
    extendable-output function do. -/
def Xof.Continues (X : Xof) : Prop :=
  ∀ s m n, m ≤ n → (X s n).toList.take m = (X s m).toList

theorem continues_shake256 : Xof.Continues Keccak.shake256 :=
  fun s m n hmn => Keccak.take_shake256 s m n hmn

/-- One-shot output into an array of `n` bytes. -/
def shake256Xof (X : Xof) (n : Nat) (data : Bytes) : Hashing (Block n) :=
  { val := X data n, queries := [data] }

namespace Shake256Reader

/-- The reads of arrays of the given lengths, put end to end. -/
def readMany (reader : Shake256Reader) : List Nat → Bytes × Shake256Reader
  | [] => ([], reader)
  | n :: ns =>
    let (out, reader) := reader.read n
    let (rest, reader) := reader.readMany ns
    (out.toList ++ rest, reader)

/-- The bytes of one read: what is left of the window, then zeros. -/
theorem toList_read (reader : Shake256Reader) (n : Nat) :
    (reader.read n).1.toList
      = (reader.out.toList.drop reader.pos).take n
        ++ List.replicate (n - (256 - reader.pos)) 0 := by
  change (reader.out.toList.drop reader.pos).take (min n (256 - reader.pos)) ++
    List.replicate (n - min n (256 - reader.pos)) 0 = _
  have hlen : (reader.out.toList.drop reader.pos).length = 256 - reader.pos := by
    rw [List.length_drop, Block.length_toList]
  rcases Nat.le_total n (256 - reader.pos) with h | h
  · rw [Nat.min_eq_left h, Nat.sub_self, Nat.sub_eq_zero_of_le h]
  · rw [Nat.min_eq_right h, List.take_of_length_le (Nat.le_of_eq hlen),
      List.take_of_length_le (by omega)]

theorem out_read (reader : Shake256Reader) (n : Nat) : (reader.read n).2.out = reader.out := rfl

theorem pos_read (reader : Shake256Reader) (n : Nat) :
    (reader.read n).2.pos = reader.pos + min n (256 - reader.pos) := rfl

/-- The bytes of several reads are those of one read of the total length. -/
theorem readMany_eq (reader : Shake256Reader) (ns : List Nat) (hpos : reader.pos ≤ 256) :
    (reader.readMany ns).1
      = (reader.out.toList.drop reader.pos).take ns.sum
        ++ List.replicate (ns.sum - (256 - reader.pos)) 0 := by
  induction ns generalizing reader with
  | nil => rw [readMany, List.sum_nil, List.take_zero, Nat.zero_sub]; rfl
  | cons n ns ih =>
      have hrest := ih (reader.read n).2 (by rw [pos_read]; omega)
      simp only [out_read, pos_read] at hrest
      simp only [readMany, List.sum_cons]
      rw [toList_read, hrest]
      have hlen : (reader.out.toList.drop reader.pos).length = 256 - reader.pos := by
        rw [List.length_drop, Block.length_toList]
      rcases Nat.le_total n (256 - reader.pos) with h | h
      -- The read ends inside the window: the rest of the window goes on.
      · rw [Nat.min_eq_left h, Nat.sub_eq_zero_of_le h, List.replicate_zero, List.append_nil,
          ← List.drop_drop, List.take_add, List.append_assoc]
        congr 3
        omega
      -- The read uses the window up: zeros from here on.
      · rw [Nat.min_eq_right h, Nat.add_sub_cancel' hpos,
          List.drop_of_length_le (Nat.le_of_eq (Block.length_toList 256 _)), List.take_nil,
          List.nil_append, List.take_of_length_le (by omega), List.take_of_length_le (by omega),
          List.append_assoc, ← List.replicate_add]
        congr 2
        omega

end Shake256Reader

/-- Any sequence of updates and reads gives the first 256 bytes, at most, of
    the output for the absorbed string, and zeros beyond them. Up to 256 bytes
    in all, that is what the one-shot function returns. -/
theorem readMany_finalizeXof (X : Xof) (hX : X.Continues) (parts : List Bytes) (ns : List Nat) :
    (((Shake256.absorbAll parts).finalizeXof X).val.readMany ns).1
        = (shake256Xof X (min ns.sum 256) parts.flatten).val.toList
          ++ List.replicate (ns.sum - 256) 0 ∧
      (ns.sum ≤ 256 →
        (((Shake256.absorbAll parts).finalizeXof X).val.readMany ns).1
          = (shake256Xof X ns.sum parts.flatten).val.toList) := by
  have hwindow : ((Shake256.absorbAll parts).finalizeXof X).val
      = { out := X parts.flatten 256, pos := 0 } := by
    rw [Shake256.finalizeXof, Shake256.buf_absorbAll]
  have hread : (((Shake256.absorbAll parts).finalizeXof X).val.readMany ns).1
      = (shake256Xof X (min ns.sum 256) parts.flatten).val.toList
        ++ List.replicate (ns.sum - 256) 0 := by
    rw [hwindow, Shake256Reader.readMany_eq _ _ (Nat.zero_le 256), List.drop_zero, Nat.sub_zero]
    -- The window's beginning is the shorter output.
    rw [shake256Xof, ← hX _ _ _ (Nat.min_le_right ns.sum 256)]
    rcases Nat.le_total ns.sum 256 with h | h
    · rw [Nat.min_eq_left h]
    · rw [Nat.min_eq_right h, List.take_of_length_le (by rw [Block.length_toList]; exact h),
        List.take_of_length_le (by rw [Block.length_toList])]
  refine ⟨hread, fun h => ?_⟩
  rw [hread, Nat.min_eq_left h, Nat.sub_eq_zero_of_le h, List.replicate_zero, List.append_nil]

/-- Two updates and three reads, the last of them across the window's end. -/
theorem readMany_finalizeXof_across :
    (((Shake256.absorbAll [ascii "ab", ascii "c"]).finalizeXof Keccak.shake256).val.readMany
        [16, 200, 60]).1
      = (shake256Xof Keccak.shake256 256 (ascii "abc")).val.toList ++ List.replicate 20 0 :=
  (readMany_finalizeXof Keccak.shake256 continues_shake256 [ascii "ab", ascii "c"]
    [16, 200, 60]).1

/-- One read of 257 bytes for the empty string is not the 257-byte output. -/
theorem readMany_past_window :
    Xof.Continues Keccak.shake256 ∧
    (((Shake256.absorbAll []).finalizeXof Keccak.shake256).val.readMany [257]).1
      ≠ (shake256Xof Keccak.shake256 257 []).val.toList := by
  refine ⟨continues_shake256, fun h => ?_⟩
  -- The last byte of the output is not zero.
  have hlast : (shake256Xof Keccak.shake256 257 []).val.toList.getLast? ≠ some 0 := by
    decide +kernel
  rw [← h, (readMany_finalizeXof Keccak.shake256 continues_shake256 [] [257]).1] at hlast
  exact hlast (List.getLast?_concat ..)

end Veil7
