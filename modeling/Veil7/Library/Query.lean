import Mathlib.Data.List.Flatten
import Mathlib.Data.List.Basic
import Mathlib.Logic.Function.Basic

/-!
# Queried Computations

Computations that put questions to a fixed oracle and keep a record of them.

A security statement about a hash function is never "the hash is injective",
which no function into short strings satisfies. It is "no collision occurred
among the strings that were hashed", and to say that one needs the list of
those strings. `Queried` carries it: a value and, beside it, every question
asked on the way, so the record is produced by the same definition that
produces the value and cannot drift away from it.

`CollisionFree` is the assumption itself, over an explicit list of questions.
It is monotone in the list, which is how the assumption about two whole runs
is cut down to the two questions an argument compares.

## Main definitions

* `Queried`: A result with the questions asked on the way to it.
* `CollisionFree`: The oracle separates the questions of a list.

## Theorems

* `val_bind`, `queries_bind`: Sequencing appends the records.
* `exists_of_val_ok`: A sequence of fallible steps stops at its first error.
* `val_mapM`, `queries_mapM`: A traversal asks element by element.
* `val_foldlM`, `queries_foldlM`: A fold computes and asks step by step.
* `CollisionFree.mono`: Fewer questions, fewer collisions.
* `CollisionFree.eq_of_pair`: Two questions with one answer are one question.
* `CollisionFree.eq_of_map`: So are two lists of questions with the same answers.
-/

namespace Veil7

universe u v

/-- A result together with the questions put to an oracle on the way to it,
    oldest first. -/
structure Queried (ι : Type u) (α : Type v) where
  val : α
  queries : List ι

namespace Queried

variable {ι : Type u} {α β : Type v}

instance : Monad (Queried ι) where
  -- The record is only ever extended, never read.
  pure a := ⟨a, []⟩
  bind x f := ⟨(f x.val).val, x.queries ++ (f x.val).queries⟩

@[simp] theorem val_pure (a : α) : (pure a : Queried ι α).val = a := rfl

@[simp] theorem queries_pure (a : α) : (pure a : Queried ι α).queries = [] := rfl

@[simp] theorem val_bind (x : Queried ι α) (f : α → Queried ι β) :
    (x >>= f).val = (f x.val).val := rfl

@[simp] theorem queries_bind (x : Queried ι α) (f : α → Queried ι β) :
    (x >>= f).queries = x.queries ++ (f x.val).queries := rfl

@[simp] theorem val_map (f : α → β) (x : Queried ι α) : (f <$> x).val = f x.val := rfl

@[simp] theorem queries_map (f : α → β) (x : Queried ι α) : (f <$> x).queries = x.queries :=
  List.append_nil x.queries

instance : LawfulMonad (Queried ι) := LawfulMonad.mk' _
  (fun x => by cases x; simp only [Functor.map, Function.comp, id_eq, List.append_nil])
  (fun _ _ => rfl)
  (fun x f g => by simp only [bind, List.append_assoc])

/-- A sequence that passes errors on returned a value only if its first step
    did, and then it went on with that. -/
theorem exists_of_val_ok {ε : Type v} (x : Queried ι (Except ε α))
    (f : Except ε α → Queried ι (Except ε β)) (b : β)
    (h : (x >>= f).val = .ok b) (herror : ∀ e, f (.error e) = pure (.error e)) :
    ∃ a, x.val = .ok a ∧ (f (.ok a)).val = .ok b ∧
      (x >>= f).queries = x.queries ++ (f (.ok a)).queries := by
  rw [val_bind] at h
  cases hx : x.val with
  | error e =>
      rw [hx, herror] at h
      cases h
  | ok a =>
      rw [hx] at h
      exact ⟨a, rfl, h, by rw [queries_bind, hx]⟩

/-- The same computation, its result remembered to be its own. A recursion
    on what a computation returns needs this to be seen to terminate. -/
def attach (x : Queried ι α) : Queried ι { a : α // a = x.val } :=
  { val := ⟨x.val, rfl⟩, queries := x.queries }

@[simp] theorem val_attach (x : Queried ι α) : x.attach.val = ⟨x.val, rfl⟩ := rfl

@[simp] theorem queries_attach (x : Queried ι α) : x.attach.queries = x.queries := rfl

/-- A monadic traversal computes elementwise. -/
theorem val_mapM (f : α → Queried ι β) (l : List α) :
    (l.mapM f).val = l.map fun a => (f a).val := by
  induction l with
  | nil => rfl
  | cons a l ih =>
      rw [List.mapM_cons, List.map_cons, ← ih]
      rfl

/-- A monadic traversal asks its questions elementwise, in order. -/
theorem queries_mapM (f : α → Queried ι β) (l : List α) :
    (l.mapM f).queries = l.flatMap fun a => (f a).queries := by
  induction l with
  | nil => rfl
  | cons a l ih =>
      rw [List.mapM_cons, List.flatMap_cons, ← ih]
      simp only [queries_bind, queries_pure, List.append_nil]

/-- A monadic fold computes as the fold of the values. -/
theorem val_foldlM (f : β → α → Queried ι β) (l : List α) (b : β) :
    (l.foldlM f b).val = l.foldl (fun b a => (f b a).val) b := by
  induction l generalizing b with
  | nil => rfl
  | cons a l ih =>
      rw [List.foldlM_cons, List.foldl_cons, ← ih]
      rfl

/-- A monadic fold whose steps ask by their element alone asks elementwise. -/
theorem queries_foldlM (f : β → α → Queried ι β) (g : α → List ι)
    (hf : ∀ b a, (f b a).queries = g a) (l : List α) (b : β) :
    (l.foldlM f b).queries = l.flatMap g := by
  induction l generalizing b with
  | nil => rfl
  | cons a l ih => rw [List.foldlM_cons, queries_bind, ih, hf, List.flatMap_cons]

end Queried

section CollisionFree

variable {ι : Type u} {β : Type v}

/-- The oracle gives different answers to different questions of the list. -/
def CollisionFree (h : ι → β) (qs : List ι) : Prop :=
  ∀ s ∈ qs, ∀ t ∈ qs, h s = h t → s = t

instance [DecidableEq ι] [DecidableEq β] (h : ι → β) (qs : List ι) :
    Decidable (CollisionFree h qs) :=
  inferInstanceAs (Decidable (∀ s ∈ qs, ∀ t ∈ qs, h s = h t → s = t))

theorem CollisionFree.mono (h : ι → β) (qs rs : List ι) (hsub : qs ⊆ rs)
    (hrs : CollisionFree h rs) : CollisionFree h qs :=
  fun s hs t ht heq => hrs s (hsub hs) t (hsub ht) heq

/-- A question does not collide with itself. -/
theorem collisionFree_pair_self (h : ι → β) (q : ι) : CollisionFree h [q, q] := by
  intro s hs t ht _
  rw [List.mem_pair, or_self] at hs ht
  rw [hs, ht]

/-- Two questions with two answers do not collide. -/
theorem collisionFree_pair_of_ne (h : ι → β) (q r : ι) (hne : h q ≠ h r) :
    CollisionFree h [q, r] := by
  intro s hs t ht heq
  rw [List.mem_pair] at hs ht
  rcases hs with rfl | rfl
  · rcases ht with rfl | rfl
    · rfl
    · exact absurd heq hne
  · rcases ht with rfl | rfl
    · exact absurd heq.symm hne
    · rfl

/-- Where two computations ask one question each, one answer is one question. -/
theorem CollisionFree.eq_of_pair (h : ι → β) (q r : ι) (hpair : CollisionFree h [q, r])
    (heq : h q = h r) : q = r :=
  hpair q List.mem_cons_self r (List.mem_cons_of_mem _ List.mem_cons_self) heq

/-- The same answers in the same order come from the same questions. -/
theorem CollisionFree.eq_of_map (h : ι → β) (qs rs : List ι) (hboth : CollisionFree h (qs ++ rs))
    (heq : qs.map h = rs.map h) : qs = rs := by
  induction qs generalizing rs with
  | nil => exact (List.map_eq_nil_iff.mp heq.symm).symm
  | cons q qs ih =>
      cases rs with
      | nil => cases heq
      | cons r rs =>
          rw [List.map_cons, List.map_cons, List.cons.injEq] at heq
          have hqr := hboth q (List.mem_append_left _ List.mem_cons_self) r
            (List.mem_append_right _ List.mem_cons_self) heq.1
          have hsub : qs ++ rs ⊆ (q :: qs) ++ (r :: rs) :=
            List.append_subset.mpr
              ⟨List.subset_append_of_subset_left _ (List.subset_cons_self q qs),
                List.subset_append_of_subset_right _ (List.subset_cons_self r rs)⟩
          rw [hqr, ih rs (hboth.mono _ _ _ hsub) heq.2]

end CollisionFree

end Veil7
