import Mathlib.Data.List.Induction
import Mathlib.Data.List.Infix

/-!
# Runs of a Guarded Machine

A machine whose steps may be impossible: `step s a` is the next state, or
nothing where the action is not enabled. A run is a list of actions taken one
after the other.

Two properties of a run are kept apart. `Along` speaks of the states it passes
through, `Taken` of the steps it takes, each in the state it is taken from. An
invariant that needs a condition on the steps is a bridge from the second to
the first (`along_of_taken`); where a step that breaks the condition also
breaks the invariant, there is a bridge back (`taken_of_along`), and the
condition is exact.

## Main definitions

* `run`: The state after a list of actions.
* `Along`: Every state on the way has a property.
* `Taken`: Every step on the way meets a condition.

## Theorems

* `run_concat`: One more action is one more step.
* `along_of_taken`: A conditional invariant.
* `taken_of_along`: A condition that the invariant forces.
* `taken_cons`: The first step and the rest of a run.
-/

namespace Veil7

universe u v

variable {σ : Type u} {α : Type v} (step : σ → α → Option σ)

/-- The state after a list of actions, if all of them are possible in turn. -/
def run (s : σ) (as : List α) : Option σ := as.foldlM step s

/-- Every state passed through on the way has the property. -/
def Along (s : σ) (as : List α) (P : σ → Prop) : Prop :=
  ∀ pre, pre <+: as → ∀ t, run step s pre = some t → P t

/-- Every step taken on the way meets the condition in the state it is taken
    from. -/
def Taken (s : σ) (as : List α) (C : σ → α → Prop) : Prop :=
  ∀ pre a, pre ++ [a] <+: as → ∀ t, run step s pre = some t → (step t a).isSome → C t a

theorem run_nil (s : σ) : run step s [] = some s := rfl

theorem run_concat (s : σ) (as : List α) (a : α) :
    run step s (as ++ [a]) = (run step s as).bind fun t => step t a := by
  unfold run
  rw [List.foldlM_append]
  cases as.foldlM step s with
  | none => rfl
  | some t =>
      change (step t a >>= fun u => [].foldlM step u) = step t a
      exact bind_pure (step t a)

/-- A property that holds at the start and survives every step that meets the
    condition holds along every run whose steps all meet it. -/
theorem along_of_taken (P : σ → Prop) (C : σ → α → Prop) (s : σ) (as : List α) (hs : P s)
    (hstep : ∀ t a t', P t → C t a → step t a = some t' → P t') (hC : Taken step s as C) :
    Along step s as P := by
  intro pre hpre
  -- By induction from the end: the last step leads out of a state already settled.
  induction pre using List.reverseRecOn with
  | nil =>
      intro t ht
      rw [run_nil, Option.some.injEq] at ht
      rw [← ht]
      exact hs
  | append_singleton pre a ih =>
      intro t ht
      rw [run_concat, Option.bind_eq_some_iff] at ht
      rcases ht with ⟨u, hu, ha⟩
      have hu' := ih ((List.prefix_append pre [a]).trans hpre) u hu
      exact hstep u a t hu' (hC pre a hpre u hu (by rw [ha]; rfl)) ha

/-- A condition that holds of a step whenever the property holds before and
    after it holds of every step of a run along which the property holds. -/
theorem taken_of_along (P : σ → Prop) (C : σ → α → Prop) (s : σ) (as : List α)
    (hstep : ∀ t a t', step t a = some t' → P t → P t' → C t a) (hP : Along step s as P) :
    Taken step s as C := by
  intro pre a hpre t ht hsome
  rcases Option.isSome_iff_exists.mp hsome with ⟨t', ht'⟩
  refine hstep t a t' ht' (hP pre ((List.prefix_append pre [a]).trans hpre) t ht)
    (hP (pre ++ [a]) hpre t' ?_)
  rw [run_concat, ht, Option.bind_some, ht']

theorem taken_nil (s : σ) (C : σ → α → Prop) : Taken step s [] C := by
  intro pre a hpre
  rw [List.prefix_nil, List.append_eq_nil_iff] at hpre
  exact absurd hpre.2 (List.cons_ne_nil _ _)

/-- The steps of a run meet a condition if the first does, and those of the rest
    from where it leads. -/
theorem taken_cons (s t : σ) (a : α) (as : List α) (C : σ → α → Prop) (hstep : step s a = some t)
    (ha : C s a) (has : Taken step t as C) : Taken step s (a :: as) C := by
  intro pre b hpre u hu
  cases pre with
  | nil =>
      rw [List.nil_append, List.cons_prefix_cons] at hpre
      rw [run_nil, Option.some.injEq] at hu
      rw [hpre.1, ← hu]
      exact fun _ => ha
  | cons c pre =>
      rw [List.cons_append, List.cons_prefix_cons] at hpre
      obtain ⟨rfl, hpre⟩ := hpre
      have hrest : run step s (c :: pre) = run step t pre := by
        rw [run, List.foldlM_cons, hstep]
        rfl
      rw [hrest] at hu
      exact has pre b hpre u hu

end Veil7
