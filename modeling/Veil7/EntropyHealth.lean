import Veil7.Core.Domain
import Veil7.Library.Streak

/-!
# The Entropy Health Tests

The two integer tests of `entropy_health.rs` on a list of samples. The repetition
count test looks for a source that is stuck and the adaptive proportion test for
one that prefers a value; both are single passes, and what they find is stated
here without the pass.

The repetition count starts at 1 and is only compared after it went up, so a
cutoff of 1 behaves as a cutoff of 2: from 2 on the test finds the samples with
`cutoff` equal values in a row and no others.

## Main definitions

* `repetitionCountTest`: No value too often in a row.
* `adaptiveProportionTest`: No value too often in all.

## Theorems

* `repetitionLoop_eq_false_iff`: The loop in the middle of a run of values.
* `repetitionCountTest_eq_false_iff`: When the first test fails.
* `adaptiveProportionTest_eq_false_iff`: When the second test fails.
-/

namespace Veil7

/-- The loop over the samples after the first. -/
def repetitionLoop (cutoff count : Nat) (prev : UInt8) : Bytes → Bool
  | [] => true
  | sample :: samples =>
    if sample = prev then
      if count + 1 ≥ cutoff then false
      else repetitionLoop cutoff (count + 1) prev samples
    else repetitionLoop cutoff 1 sample samples

def repetitionCountTest (samples : Bytes) (cutoff : Nat) : Bool :=
  match samples with
  | [] => true
  | sample :: samples => repetitionLoop cutoff 1 sample samples

/-- The loop fails if there is a streak in what it has counted and what is to
    come. -/
theorem repetitionLoop_eq_false_iff (cutoff count : Nat) (prev : UInt8) (samples : Bytes)
    (hpos : 1 < cutoff) (hcount : count < cutoff) :
    repetitionLoop cutoff count prev samples = false
      ↔ Streak cutoff (List.replicate count prev ++ samples) := by
  induction samples generalizing count prev with
  | nil =>
      rw [List.append_nil]
      exact iff_of_false (Ne.symm Bool.false_ne_true)
        (not_streak_replicate cutoff count prev hcount)
  | cons sample samples ih =>
      rw [repetitionLoop]
      by_cases hsame : sample = prev
      · subst hsame
        rw [if_pos rfl, replicate_append_cons_self]
        by_cases hcut : count + 1 ≥ cutoff
        · rw [if_pos hcut]
          exact iff_of_true rfl (streak_replicate_append cutoff (count + 1) sample samples hcut)
        · rw [if_neg hcut]
          exact ih (count + 1) sample (Nat.lt_of_not_le hcut)
      -- The value changed: the count starts again, and the old run is over.
      · rw [if_neg hsame, ih 1 sample hpos,
          streak_replicate_append_cons cutoff count prev sample samples (Ne.symm hsame) hcount]
        rfl

/-- The test fails exactly on the samples with `cutoff` equal values in a row. -/
theorem repetitionCountTest_eq_false_iff (samples : Bytes) (cutoff : Nat) (hcutoff : 2 ≤ cutoff) :
    repetitionCountTest samples cutoff = false
      ↔ ∃ b, List.replicate cutoff b <:+: samples := by
  cases samples with
  | nil =>
      exact iff_of_false (Ne.symm Bool.false_ne_true) (not_streak_replicate cutoff 0 0 (by omega))
  | cons sample samples =>
      exact repetitionLoop_eq_false_iff cutoff 1 sample samples hcutoff hcutoff

/-- A run of two at the end, between shorter runs. -/
theorem repetitionCountTest_eq_false_iff_two :
    repetitionCountTest [1, 2, 1, 1] 2 = false
      ↔ ∃ b : UInt8, List.replicate 2 b <:+: [1, 2, 1, 1] :=
  repetitionCountTest_eq_false_iff [1, 2, 1, 1] 2 (Nat.le_refl 2)

/-- How often each value occurs. -/
def countSamples (samples : Bytes) : List Nat :=
  samples.foldl (fun counts sample => counts.modify sample.toNat (· + 1)) (List.replicate 256 0)

/-- The greatest of the counts. -/
def maxCount (counts : List Nat) : Nat :=
  counts.foldl (fun maxCount count => if count > maxCount then count else maxCount) 0

def adaptiveProportionTest (samples : Bytes) (cutoff : Nat) : Bool :=
  match samples with
  | [] => true
  | _ :: _ => decide (maxCount (countSamples samples) < cutoff)

theorem length_countSamples (samples : Bytes) : (countSamples samples).length = 256 := by
  rw [countSamples]
  suffices h : ∀ counts : List Nat, (samples.foldl
      (fun counts sample => counts.modify sample.toNat (· + 1)) counts).length = counts.length by
    rw [h, List.length_replicate]
  induction samples with
  | nil => exact fun counts => rfl
  | cons sample samples ih =>
      intro counts
      rw [List.foldl_cons, ih, List.length_modify]

/-- Counting from any counts, every value has its own place. -/
theorem getElem?_foldl_modify (samples : Bytes) (counts : List Nat) (b : UInt8) :
    (samples.foldl (fun counts sample => counts.modify sample.toNat (· + 1)) counts)[b.toNat]?
      = counts[b.toNat]?.map (· + samples.count b) := by
  induction samples generalizing counts with
  | nil => exact (Option.map_id' (x := counts[b.toNat]?)).symm
  | cons sample samples ih =>
      rw [List.foldl_cons, ih, List.getElem?_modify, List.count_cons]
      change Option.map _ (Option.map _ _) = _
      rw [Option.map_map]
      congr 1
      funext n
      by_cases hsame : sample = b
      · rw [Function.comp_apply, hsame, if_pos rfl, if_pos (beq_self_eq_true b)]
        omega
      · have hne : sample.toNat ≠ b.toNat := fun h => hsame (UInt8.toNat_inj.mp h)
        rw [Function.comp_apply, if_neg hne, if_neg (fun h => hsame (eq_of_beq h))]
        omega

theorem getElem?_countSamples (samples : Bytes) (b : UInt8) :
    (countSamples samples)[b.toNat]? = some (samples.count b) := by
  rw [countSamples, getElem?_foldl_modify, List.getElem?_replicate_of_lt b.toNat_lt,
    Option.map_some, Nat.zero_add]

/-- The counts are those of the 256 values. -/
theorem mem_countSamples_iff (samples : Bytes) (n : Nat) :
    n ∈ countSamples samples ↔ ∃ b, n = samples.count b := by
  constructor
  · intro hmem
    obtain ⟨i, hi, hget⟩ := List.mem_iff_getElem.mp hmem
    rw [length_countSamples] at hi
    have hbyte : (UInt8.ofNat i).toNat = i := UInt8.toNat_ofNat_of_lt hi
    have hcount := getElem?_countSamples samples (UInt8.ofNat i)
    rw [hbyte, List.getElem?_eq_some_iff] at hcount
    obtain ⟨hi', hcount⟩ := hcount
    exact ⟨UInt8.ofNat i, hget.symm.trans hcount⟩
  · rintro ⟨b, rfl⟩
    exact List.mem_of_getElem? (getElem?_countSamples samples b)

/-- The greatest count stays below a bound if the start and every count do. -/
theorem foldl_max_lt_iff (counts : List Nat) (m cutoff : Nat) :
    counts.foldl (fun maxCount count => if count > maxCount then count else maxCount) m < cutoff
      ↔ m < cutoff ∧ ∀ n ∈ counts, n < cutoff := by
  induction counts generalizing m with
  | nil => exact (and_iff_left (fun n hn => nomatch hn)).symm
  | cons n counts ih =>
      rw [List.foldl_cons, ih, List.forall_mem_cons, ← and_assoc]
      refine and_congr_left fun _ => ?_
      split
      · omega
      · omega

/-- The test fails exactly on the samples in which some value occurs `cutoff`
    times; without samples it passes. -/
theorem adaptiveProportionTest_eq_false_iff (samples : Bytes) (cutoff : Nat) :
    adaptiveProportionTest samples cutoff = false
      ↔ samples ≠ [] ∧ ∃ b, cutoff ≤ samples.count b := by
  cases samples with
  | nil => exact iff_of_false (Ne.symm Bool.false_ne_true) (fun h => h.1 rfl)
  | cons sample samples =>
      rw [adaptiveProportionTest, decide_eq_false_iff_not, maxCount, foldl_max_lt_iff,
        and_iff_right (List.cons_ne_nil sample samples)]
      constructor
      · intro h
        by_contra hnone
        have hlt : ∀ b, (sample :: samples).count b < cutoff :=
          fun b => Nat.lt_of_not_le fun hle => hnone ⟨b, hle⟩
        refine h ⟨Nat.lt_of_le_of_lt (Nat.zero_le _) (hlt sample), fun n hn => ?_⟩
        obtain ⟨b, rfl⟩ := (mem_countSamples_iff (sample :: samples) n).mp hn
        exact hlt b
      · rintro ⟨b, hle⟩ ⟨-, hall⟩
        exact Nat.not_lt_of_le hle
          (hall _ ((mem_countSamples_iff (sample :: samples) _).mpr ⟨b, rfl⟩))

end Veil7
