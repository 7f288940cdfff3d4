import Mathlib.Data.List.Perm.Subperm
import Mathlib.Data.List.Nodup
import Mathlib.Tactic.Ring

/-!
# Ranges of Addresses

Ranges of addresses that have no address in common. Together they are no longer
than any space they all lie in, which is what bounds a total of their lengths
without a bound on their number.

## Main definitions

* `Range`: A first address and a number of addresses.
* `Range.Apart`: Two ranges without a common address.

## Theorems

* `sum_size_le_of_apart`: Ranges apart fit into the space they lie in.
-/

namespace Veil7

structure Range where
  addr : Nat
  size : Nat
deriving DecidableEq

namespace Range

/-- The ranges have no address in common. -/
def Apart (r s : Range) : Prop :=
  r.size = 0 ∨ s.size = 0 ∨ r.addr + r.size ≤ s.addr ∨ s.addr + s.size ≤ r.addr

instance (r s : Range) : Decidable (Apart r s) :=
  inferInstanceAs (Decidable (_ ∨ _ ∨ _ ∨ _))

theorem Apart.symm {r s : Range} (h : Apart r s) : Apart s r := by
  unfold Apart at h ⊢
  omega

/-- The addresses of the range. -/
def cells (r : Range) : List Nat := List.range' r.addr r.size

theorem mem_cells_iff (r : Range) (a : Nat) :
    a ∈ r.cells ↔ r.addr ≤ a ∧ a < r.addr + r.size := by
  rw [cells, List.mem_range'_1]

theorem disjoint_cells_of_apart {r s : Range} (h : Apart r s) : r.cells.Disjoint s.cells := by
  intro a hr hs
  rw [mem_cells_iff] at hr hs
  unfold Apart at h
  omega

/-- Ranges that are apart are together no longer than the space they lie in. -/
theorem sum_size_le_of_apart (rs : List Range) (lo hi : Nat)
    (hin : ∀ r ∈ rs, lo ≤ r.addr ∧ r.addr + r.size ≤ hi) (hapart : rs.Pairwise Apart) :
    (rs.map size).sum ≤ hi - lo := by
  have hnodup : (rs.flatMap cells).Nodup :=
    List.nodup_flatMap.mpr ⟨fun r _ => List.nodup_range', hapart.imp disjoint_cells_of_apart⟩
  have hsub : rs.flatMap cells ⊆ List.range' lo (hi - lo) := by
    intro a ha
    obtain ⟨r, hr, hcell⟩ := List.mem_flatMap.mp ha
    rw [mem_cells_iff] at hcell
    have hbounds := hin r hr
    rw [List.mem_range'_1]
    omega
  have hlen := (hnodup.subperm hsub).length_le
  rw [List.length_flatMap, List.length_range'] at hlen
  have hsizes : rs.map (fun r => r.cells.length) = rs.map size :=
    List.map_congr_left fun r _ => List.length_range'
  rwa [hsizes] at hlen

end Range

end Veil7
