import Mathlib.Logic.Function.Basic
import Mathlib.Control.Basic
import Veil7.Library.Query

/-!
# Machines and Their Simulation

A machine with an interface: each operation changes its state and returns a
result. A history of operations runs through it from a state on and leaves the
results in order beside the last state.

One machine simulates another along an abstraction of its states if every
single operation does. Then every history does: the same results, and the
abstraction of the last state. The steps live in a monad, so that what they do
besides is part of the comparison.

## Main definitions

* `runOps`: A history of operations.

## Theorems

* `runOps_simulates`: Step by step simulation carries over to histories.
* `val_runOps_eq`: Machines that keep records of different kinds.
* `queries_runOps`: The record of a history whose steps show the operation only.
-/

namespace Veil7

universe u

variable {m : Type u → Type u} [Monad m] {σ τ ι ο : Type u}

/-- The results of a history of operations, and the state after it. -/
def runOps (step : σ → ι → m (ο × σ)) : σ → List ι → m (List ο × σ)
  | s, [] => pure ([], s)
  | s, op :: ops => do
    let (result, s) ← step s op
    let (results, s) ← runOps step s ops
    pure (result :: results, s)

/-- If every operation returns the same on a state and on its abstraction, and
    leaves the abstraction of its state, then so does every history. -/
theorem runOps_simulates [LawfulMonad m] (step : σ → ι → m (ο × σ)) (step' : τ → ι → m (ο × τ))
    (abs : σ → τ) (hstep : ∀ s op, step' (abs s) op = Prod.map id abs <$> step s op)
    (s : σ) (ops : List ι) : runOps step' (abs s) ops = Prod.map id abs <$> runOps step s ops := by
  induction ops generalizing s with
  | nil => rw [runOps, runOps, map_pure]; rfl
  | cons op ops ih =>
      rw [runOps, runOps, hstep, bind_map_left, map_bind]
      refine bind_congr (fun p => ?_)
      rcases p with ⟨result, s'⟩
      simp only [Prod.map_apply, id_eq]
      rw [ih, bind_map_left, map_bind]
      refine bind_congr (fun q => ?_)
      rcases q with ⟨results, t⟩
      rw [map_pure]
      rfl

section Records

variable {σ ι ο κ κ' : Type u}

theorem val_runOps_cons (step : σ → ι → Queried κ (ο × σ)) (s : σ) (op : ι) (ops : List ι) :
    (runOps step s (op :: ops)).val
      = ((step s op).val.1 :: (runOps step (step s op).val.2 ops).val.1,
          (runOps step (step s op).val.2 ops).val.2) := rfl

/-- Machines whose operations return the same, whatever they record, do so along
    every history. -/
theorem val_runOps_eq (step : σ → ι → Queried κ (ο × σ)) (step' : σ → ι → Queried κ' (ο × σ))
    (hstep : ∀ s op, (step s op).val = (step' s op).val) (s : σ) (ops : List ι) :
    (runOps step s ops).val = (runOps step' s ops).val := by
  induction ops generalizing s with
  | nil => rfl
  | cons op ops ih => rw [val_runOps_cons, val_runOps_cons, hstep, ih]

/-- Where the record of a step depends on the operation alone, that of a history
    is one after the other. -/
theorem queries_runOps (step : σ → ι → Queried κ (ο × σ)) (g : ι → List κ)
    (hstep : ∀ s op, (step s op).queries = g op) (s : σ) (ops : List ι) :
    (runOps step s ops).queries = ops.flatMap g := by
  induction ops generalizing s with
  | nil => rfl
  | cons op ops ih =>
      have hcons : (runOps step s (op :: ops)).queries
          = (step s op).queries ++ ((runOps step (step s op).val.2 ops).queries ++ []) := rfl
      rw [hcons, hstep, ih, List.append_nil, List.flatMap_cons]

end Records

end Veil7
