import Mathlib.Data.List.Infix

/-!
# Values in a Row

A list in which one value stands a number of times in a row. A pass over the
list that keeps the current value and its count sees the list as a block of
equal values and a rest; what the rest begins with decides whether the block
goes on (`replicate_append_cons_self`) or is over and can be forgotten
(`streak_replicate_append_cons`).

## Main definitions

* `Streak`: One value stands `k` times in a row.

## Theorems

* `streak_replicate_append`: A long enough block is a streak.
* `not_streak_replicate`: A short block alone is none.
* `streak_replicate_append_cons`: No streak goes across a change of value.
-/

namespace Veil7

variable {α : Type}

/-- Some value stands `k` times in a row. -/
def Streak (k : Nat) (l : List α) : Prop := ∃ b, List.replicate k b <:+: l

theorem streak_replicate_append (k n : Nat) (b : α) (l : List α) (hkn : k ≤ n) :
    Streak k (List.replicate n b ++ l) := by
  refine ⟨b, [], List.replicate (n - k) b ++ l, ?_⟩
  rw [List.nil_append, ← List.append_assoc, ← List.replicate_add, Nat.add_sub_cancel' hkn]

theorem not_streak_replicate (k n : Nat) (b : α) (hnk : n < k) :
    ¬ Streak k (List.replicate n b) := by
  rintro ⟨c, hinfix⟩
  have hlen := hinfix.length_le
  rw [List.length_replicate, List.length_replicate] at hlen
  exact Nat.not_le_of_lt hnk hlen

theorem streak_of_streak_cons (k : Nat) (b : α) (l : List α) (h : Streak k l) :
    Streak k (b :: l) := by
  obtain ⟨c, hinfix⟩ := h
  exact ⟨c, List.infix_cons hinfix⟩

/-- One more of the same value makes the block longer. -/
theorem replicate_append_cons_self (n : Nat) (b : α) (l : List α) :
    List.replicate n b ++ b :: l = List.replicate (n + 1) b ++ l := by
  rw [List.replicate_succ', List.append_assoc, List.singleton_append]

/-- A block too short to be a streak cannot begin one across a change of value. -/
theorem not_prefix_of_change (k n : Nat) (b c x : α) (l : List α) (hbc : b ≠ c)
    (hnk : n + 1 < k) : ¬ List.replicate k x <+: List.replicate (n + 1) b ++ c :: l := by
  rintro ⟨rest, heq⟩
  -- The first value and the one after the block are both the streak's.
  have hfirst : (List.replicate (n + 1) b ++ c :: l)[0]? = some x := by
    rw [← heq, List.getElem?_append_left (by rw [List.length_replicate]; omega),
      List.getElem?_replicate_of_lt (by omega)]
  have hnext : (List.replicate (n + 1) b ++ c :: l)[n + 1]? = some x := by
    rw [← heq, List.getElem?_append_left (by rw [List.length_replicate]; omega),
      List.getElem?_replicate_of_lt hnk]
  rw [List.replicate_succ, List.cons_append, List.getElem?_cons_zero, Option.some.injEq] at hfirst
  rw [List.getElem?_append_right (by rw [List.length_replicate]), List.length_replicate,
    Nat.sub_self, List.getElem?_cons_zero, Option.some.injEq] at hnext
  exact hbc (hfirst.trans hnext.symm)

/-- A short block before a change of value adds no streak. -/
theorem streak_replicate_append_cons (k n : Nat) (b c : α) (l : List α) (hbc : b ≠ c)
    (hnk : n < k) : Streak k (List.replicate n b ++ c :: l) ↔ Streak k (c :: l) := by
  induction n with
  | zero => rfl
  | succ n ih =>
      rw [← ih (by omega)]
      constructor
      · rintro ⟨x, hinfix⟩
        rw [List.replicate_succ, List.cons_append, List.infix_cons_iff, ← List.cons_append,
          ← List.replicate_succ] at hinfix
        rcases hinfix with hprefix | hinfix
        · exact absurd hprefix (not_prefix_of_change k n b c x l hbc hnk)
        · exact ⟨x, hinfix⟩
      · intro h
        rw [List.replicate_succ, List.cons_append]
        exact streak_of_streak_cons k b _ h

end Veil7
