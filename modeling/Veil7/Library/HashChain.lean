import Mathlib.Data.List.Induction
import Veil7.Library.Query

/-!
# Hash Chains

A state that is replaced, step after step, by the hash of itself and of an
item. If the string hashed determines the state before and the item, and no
later string is a first one, then the last state determines the whole history:
two histories with one last state hashed one last string, so they ended with
one item in one state, and so on down to the beginning. Their lengths need not
be the same in advance.

## Main definitions

* `ChainScheme`: The strings of a chain and what they determine.
* `ChainScheme.state`: The state after a history.
* `ChainScheme.asked`: The strings hashed along a history.

## Theorems

* `asked_concat`: One more item hashes one more string.
* `state_inj`: The state determines the history.
-/

namespace Veil7

universe u v w x

/-- The strings hashed by a chain: a first one for a label, and one for every
    state and item. What they determine is promised for valid labels and items
    only. -/
structure ChainScheme (ι : Type u) (α : Type v) (ω : Type w) (σ : Type x) where
  ask : ι → σ
  start : α → ι
  next : σ → ω → ι
  validStart : α → Prop
  valid : ω → Prop
  start_inj : ∀ a a', validStart a → validStart a' → start a = start a' → a = a'
  next_inj : ∀ s s' o o', valid o → valid o' → next s o = next s' o' → s = s' ∧ o = o'
  start_ne_next : ∀ a s o, start a ≠ next s o

namespace ChainScheme

variable {ι : Type u} {α : Type v} {ω : Type w} {σ : Type x} (C : ChainScheme ι α ω σ)

/-- The state after a history. -/
def state (a : α) (ops : List ω) : σ :=
  ops.foldl (fun s o => C.ask (C.next s o)) (C.ask (C.start a))

/-- The strings hashed from a state on. -/
def steps (s : σ) : List ω → List ι
  | [] => []
  | o :: ops => C.next s o :: steps (C.ask (C.next s o)) ops

/-- The strings hashed along a history. -/
def asked (a : α) (ops : List ω) : List ι := C.start a :: C.steps (C.ask (C.start a)) ops

theorem state_nil (a : α) : C.state a [] = C.ask (C.start a) := rfl

theorem state_concat (a : α) (ops : List ω) (o : ω) :
    C.state a (ops ++ [o]) = C.ask (C.next (C.state a ops) o) := by
  rw [state, List.foldl_append]
  rfl

theorem steps_concat (s : σ) (ops : List ω) (o : ω) :
    C.steps s (ops ++ [o])
      = C.steps s ops ++ [C.next (ops.foldl (fun s o => C.ask (C.next s o)) s) o] := by
  induction ops generalizing s with
  | nil => rfl
  | cons p ops ih => rw [List.cons_append, steps, steps, ih, List.foldl_cons, List.cons_append]

theorem asked_concat (a : α) (ops : List ω) (o : ω) :
    C.asked a (ops ++ [o]) = C.asked a ops ++ [C.next (C.state a ops) o] := by
  rw [asked, asked, steps_concat, state, List.cons_append]

theorem start_mem_asked (a : α) (ops : List ω) : C.start a ∈ C.asked a ops :=
  List.mem_cons_self

theorem next_mem_asked (a : α) (ops : List ω) (o : ω) :
    C.next (C.state a ops) o ∈ C.asked a (ops ++ [o]) := by
  rw [asked_concat]
  exact List.mem_append_right _ (List.mem_singleton_self _)

/-- The state determines the history, by induction from its end. -/
theorem state_inj (a a' : α) (ops ops' : List ω) (ha : C.validStart a) (ha' : C.validStart a')
    (hops : ∀ o ∈ ops, C.valid o) (hops' : ∀ o ∈ ops', C.valid o)
    (hcf : CollisionFree C.ask (C.asked a ops ++ C.asked a' ops'))
    (h : C.state a ops = C.state a' ops') : a = a' ∧ ops = ops' := by
  induction ops using List.reverseRecOn generalizing ops' with
  | nil =>
      rcases List.eq_nil_or_concat' ops' with hnil | ⟨rest', o', hcons⟩
      · subst hnil
        have hq := hcf _ (List.mem_append_left _ (C.start_mem_asked a []))
          _ (List.mem_append_right _ (C.start_mem_asked a' [])) h
        exact ⟨C.start_inj a a' ha ha' hq, rfl⟩
      · subst hcons
        rw [state_nil, state_concat] at h
        have hq := hcf _ (List.mem_append_left _ (C.start_mem_asked a []))
          _ (List.mem_append_right _ (C.next_mem_asked a' rest' o')) h
        exact absurd hq (C.start_ne_next a _ o')
  | append_singleton rest o ih =>
      rcases List.eq_nil_or_concat' ops' with hnil | ⟨rest', o', hcons⟩
      · subst hnil
        rw [state_nil, state_concat] at h
        have hq := hcf _ (List.mem_append_left _ (C.next_mem_asked a rest o))
          _ (List.mem_append_right _ (C.start_mem_asked a' [])) h
        exact absurd hq.symm (C.start_ne_next a' _ o)
      · subst hcons
        rw [state_concat, state_concat] at h
        -- One last string: the same item in the same state before it.
        have hq := hcf _ (List.mem_append_left _ (C.next_mem_asked a rest o))
          _ (List.mem_append_right _ (C.next_mem_asked a' rest' o')) h
        have hlast := C.next_inj _ _ o o' (hops o (by simp)) (hops' o' (by simp)) hq
        have hsub : C.asked a rest ++ C.asked a' rest'
            ⊆ C.asked a (rest ++ [o]) ++ C.asked a' (rest' ++ [o']) := by
          rw [asked_concat, asked_concat]
          exact List.append_subset.mpr
            ⟨List.subset_append_of_subset_left _ (List.subset_append_left _ _),
              List.subset_append_of_subset_right _ (List.subset_append_left _ _)⟩
        have hrest := ih rest' (fun p hp => hops p (List.mem_append_left _ hp))
          (fun p hp => hops' p (List.mem_append_left _ hp)) (hcf.mono _ _ _ hsub) hlast.1
        exact ⟨hrest.1, by rw [hrest.2, hlast.2]⟩

end ChainScheme

end Veil7
