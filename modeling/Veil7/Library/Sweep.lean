import Mathlib.Data.List.FinRange
import Mathlib.Data.Vector.Basic

/-!
# Sweeps over an Array

Loops that visit every position of an array, whichever position they are
after. One that replaces each element by a function of itself and its position
is a pointwise map, since no position is visited twice. One that overwrites an
accumulator at a single position and keeps it at all others picks the element
there. Two accumulators driven side by side are two loops.

## Main definitions

* `sweep`: Every element replaced, position after position.

## Theorems

* `get_sweep`: A sweep is a pointwise map.
* `sweep_sweep`: Two sweeps in one.
* `foldl_pick`: An overwrite at one position picks the element there.
* `foldl_prod`: Accumulators side by side.
-/

namespace Veil7

universe u v w

section

variable {α : Type u} {n : Nat}

/-- Every element replaced by a function of itself and its position. -/
def sweep (f : Fin n → α → α) (v : List.Vector α n) : List.Vector α n :=
  (List.finRange n).foldl (fun v i => v.set i (f i (v.get i))) v

theorem get_foldl_sweep (f : Fin n → α → α) (ps : List (Fin n)) (hps : ps.Nodup)
    (v : List.Vector α n) (i : Fin n) :
    (ps.foldl (fun v i => v.set i (f i (v.get i))) v).get i
      = if i ∈ ps then f i (v.get i) else v.get i := by
  induction ps generalizing v with
  | nil => rw [List.foldl_nil, if_neg List.not_mem_nil]
  | cons p ps ih =>
      rw [List.nodup_cons] at hps
      rw [List.foldl_cons, ih hps.2, List.Vector.get_set_eq_if]
      by_cases hp : p = i
      -- Visited now, and not again.
      · rw [hp] at hps
        rw [if_neg hps.1, if_pos hp, if_pos (by rw [hp]; exact List.mem_cons_self), hp]
      · rw [if_neg hp]
        by_cases hmem : i ∈ ps
        · rw [if_pos hmem, if_pos (List.mem_cons_of_mem p hmem)]
        · rw [if_neg hmem, if_neg (by
            rw [List.mem_cons, not_or]
            exact ⟨fun h => hp h.symm, hmem⟩)]

/-- A sweep is a pointwise map. -/
theorem get_sweep (f : Fin n → α → α) (v : List.Vector α n) (i : Fin n) :
    (sweep f v).get i = f i (v.get i) := by
  rw [sweep, get_foldl_sweep f _ (List.nodup_finRange n), if_pos (List.mem_finRange i)]

/-- Two sweeps are one that does both at each position. -/
theorem sweep_sweep (f g : Fin n → α → α) (v : List.Vector α n) :
    sweep g (sweep f v) = sweep (fun i a => g i (f i a)) v := by
  apply List.Vector.ext
  intro i
  rw [get_sweep, get_sweep, get_sweep]

/-- An accumulator overwritten at one position only ends as the element there. -/
theorem foldl_pick (a : Fin n → α) (k : Fin n) (init : α) :
    (List.finRange n).foldl (fun acc i => if i = k then a i else acc) init = a k := by
  have hlist : ∀ (ps : List (Fin n)) (acc : α),
      ps.foldl (fun acc i => if i = k then a i else acc) acc = if k ∈ ps then a k else acc := by
    intro ps
    induction ps with
    | nil => intro acc; rw [List.foldl_nil, if_neg List.not_mem_nil]
    | cons p ps ih =>
        intro acc
        rw [List.foldl_cons, ih]
        by_cases hmem : k ∈ ps
        · rw [if_pos hmem, if_pos (List.mem_cons_of_mem p hmem)]
        · rw [if_neg hmem]
          by_cases hp : p = k
          · rw [if_pos hp, if_pos (by rw [hp]; exact List.mem_cons_self), hp]
          · rw [if_neg hp, if_neg (by
              rw [List.mem_cons, not_or]
              exact ⟨fun h => hp h.symm, hmem⟩)]
  rw [hlist, if_pos (List.mem_finRange k)]

end

/-- Two accumulators driven side by side are two loops. -/
theorem foldl_prod {α : Type u} {β : Type v} {γ : Type w} (f : α → γ → α) (g : β → γ → β)
    (l : List γ) (a : α) (b : β) :
    l.foldl (fun p c => (f p.1 c, g p.2 c)) (a, b) = (l.foldl f a, l.foldl g b) := by
  induction l generalizing a b with
  | nil => rfl
  | cons c l ih => rw [List.foldl_cons, ih, List.foldl_cons, List.foldl_cons]

end Veil7
