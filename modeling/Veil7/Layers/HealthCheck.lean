import Mathlib.Data.Int.Log
import Mathlib.Data.Rat.Floor
import Mathlib.Tactic.Linarith
import Mathlib.Tactic.NormNum
import Mathlib.Tactic.Positivity
import Veil7.EntropyHealth
import Veil7.Layers.EntropySources
import Veil7.Library.Distinct

/-!
# The Health Check of an Entropy Source

`monitor_entropy_quality` and `health_check_source` of `entropy_health.rs`. The
monitor estimates the min-entropy of its samples and runs the two integer tests
of `EntropyHealth`; the check of a source runs it over the 64 bytes of the
source's buffer, with a threshold of 6 bits.

A buffer of 64 bytes has 6 bits of min-entropy by the estimate only if no byte
occurs twice. So the check accepts exactly the buffers without a repetition, and
the two integer tests never refuse what the first has let through
(`healthCheckSource_eq`). That is one buffer in some thousands
(`card_healthy`), and of the twelve methods of a harvest at most the three that
fill their whole buffer can pass (`healthy_methods`).

The estimate is a logarithm of floating-point numbers. The quotient of the
counts is exact for 64 samples; of the logarithm it is only assumed that it is
exact at `1 / 64` and above its value there from `1 / 32` on.

## Main definitions

* `estimateMinEntropy`, `monitorEntropyQuality`: The estimate and the three tests.
* `healthCheckSource`: The check of a source.
* `FaithfulLog2`: What is assumed of the logarithm.

## Theorems

* `healthCheckSource_eq`: What the check returns.
* `card_healthy`: How many buffers pass.
* `healthy_methods`: Which methods can pass.
-/

namespace Veil7

section

variable (log2 : ℚ → ℚ)

/-- The quotient is not rounded here. -/
def estimateMinEntropy (samples : Bytes) : ℚ :=
  if samples.isEmpty then 0
  else
    let maxProb : ℚ := (maxCount (countSamples samples) : ℚ) / samples.length
    if maxProb ≤ 0 then 0 else -log2 maxProb

def monitorEntropyQuality (samples : Bytes) (minEntropyThreshold : ℚ) : Except String Unit :=
  if estimateMinEntropy log2 samples < minEntropyThreshold then
    .error "Entropy quality below threshold"
  else if repetitionCountTest samples 10 = false then .error "Repetition count test failed"
  else if adaptiveProportionTest samples (samples.length / 2) = false then
    .error "Adaptive proportion test failed"
  else .ok ()

def healthCheckSource (source : MultiSource.EntropySource) : Except String Unit :=
  monitorEntropyQuality log2 source.raw.toList 6

end

/-- The greatest count is below 2 exactly if no value is repeated. -/
theorem maxCount_lt_two_iff (samples : Bytes) :
    maxCount (countSamples samples) < 2 ↔ samples.Nodup := by
  rw [maxCount, foldl_max_lt_iff, List.nodup_iff_count_le_one]
  constructor
  · rintro ⟨-, hall⟩ b
    exact Nat.le_of_lt_succ (hall _ ((mem_countSamples_iff samples _).mpr ⟨b, rfl⟩))
  · intro h
    refine ⟨Nat.zero_lt_two, fun n hn => ?_⟩
    obtain ⟨b, rfl⟩ := (mem_countSamples_iff samples n).mp hn
    exact Nat.lt_succ_of_le (h b)

theorem maxCount_pos (samples : Bytes) (hne : samples ≠ []) :
    0 < maxCount (countSamples samples) := by
  obtain ⟨b, hb⟩ := List.exists_mem_of_ne_nil samples hne
  by_contra hzero
  have hlt : maxCount (countSamples samples) < 1 := by omega
  rw [maxCount, foldl_max_lt_iff] at hlt
  have hcount := hlt.2 _ ((mem_countSamples_iff samples _).mpr ⟨b, rfl⟩)
  have hpos := List.count_pos_iff.mpr hb
  omega

/-- Without a repetition no value stands twice in a row. -/
theorem repetitionCountTest_of_nodup (samples : Bytes) (cutoff : Nat) (hcutoff : 2 ≤ cutoff)
    (h : samples.Nodup) : repetitionCountTest samples cutoff = true := by
  cases samples with
  | nil => rfl
  | cons sample samples =>
      rw [← Bool.not_eq_false]
      intro hfails
      rw [repetitionCountTest, repetitionLoop_eq_false_iff cutoff 1 sample samples hcutoff
        hcutoff] at hfails
      obtain ⟨b, hinfix⟩ := hfails
      have hle := List.nodup_replicate.mp (h.sublist hinfix.sublist)
      omega

theorem adaptiveProportionTest_of_nodup (samples : Bytes) (cutoff : Nat) (hcutoff : 2 ≤ cutoff)
    (h : samples.Nodup) : adaptiveProportionTest samples cutoff = true := by
  cases samples with
  | nil => rfl
  | cons sample samples =>
      have hlt := (maxCount_lt_two_iff (sample :: samples)).mpr h
      exact decide_eq_true (by omega)

/-- The logarithm of the platform, as far as the check needs it. -/
structure FaithfulLog2 (log2 : ℚ → ℚ) : Prop where
  exact : log2 (1 / 64) = -6
  above : ∀ q, 1 / 32 ≤ q → -6 < log2 q

section

variable (log2 : ℚ → ℚ)

/-- The estimate of 64 samples reaches 6 bits exactly if no value is repeated. -/
theorem estimateMinEntropy_lt_iff (hlog : FaithfulLog2 log2) (samples : Bytes)
    (hlen : samples.length = 64) : estimateMinEntropy log2 samples < 6 ↔ ¬ samples.Nodup := by
  have hne : samples ≠ [] := fun h => by rw [h] at hlen; cases hlen
  have hpos := maxCount_pos samples hne
  rw [estimateMinEntropy, if_neg (by rw [List.isEmpty_iff]; exact hne), hlen]
  dsimp only
  have hprob : ¬ ((maxCount (countSamples samples) : ℚ) / (64 : ℕ) ≤ 0) := by
    rw [not_le]
    positivity
  rw [if_neg hprob, ← maxCount_lt_two_iff, Nat.not_lt]
  rcases Nat.lt_or_ge (maxCount (countSamples samples)) 2 with hlt | hge
  · have hone : maxCount (countSamples samples) = 1 := by omega
    have hsix : log2 (((1 : ℕ) : ℚ) / (64 : ℕ)) = -6 := by
      rw [← hlog.exact]
      norm_num
    rw [hone, hsix]
    exact iff_of_false (by norm_num) (by omega)
  · refine iff_of_true ?_ hge
    have hle : (1 / 32 : ℚ) ≤ (maxCount (countSamples samples) : ℚ) / (64 : ℕ) := by
      have hcast : ((2 : ℕ) : ℚ) ≤ maxCount (countSamples samples) := Nat.cast_le.mpr hge
      push_cast at hcast ⊢
      linarith
    linarith [hlog.above _ hle]

/-- The check accepts a source exactly if no byte occurs twice in its buffer, and
    otherwise it is the estimate that fails. -/
theorem healthCheckSource_eq (hlog : FaithfulLog2 log2) (source : MultiSource.EntropySource) :
    healthCheckSource log2 source
      = if source.raw.toList.Nodup then .ok () else .error "Entropy quality below threshold" := by
  have hlen := Block.length_toList 64 source.raw
  rw [healthCheckSource, monitorEntropyQuality]
  by_cases h : source.raw.toList.Nodup
  · rw [if_neg (by rw [estimateMinEntropy_lt_iff log2 hlog _ hlen]; exact not_not.mpr h),
      repetitionCountTest_of_nodup _ 10 (by omega) h,
      adaptiveProportionTest_of_nodup _ _ (by rw [hlen]; omega) h, if_pos h]
    rfl
  · rw [if_pos ((estimateMinEntropy_lt_iff log2 hlog _ hlen).mpr h), if_neg h]

/-- A logarithm rounded down to a whole number. -/
def floorLog2 (q : ℚ) : ℚ := Int.log 2 q

theorem faithfulLog2_floor : FaithfulLog2 floorLog2 := by
  constructor
  · have hpow : (1 / 64 : ℚ) = (2 : ℕ) ^ (-6 : ℤ) := by norm_num
    rw [floorLog2, hpow, Int.log_zpow Nat.one_lt_two]
    norm_num
  · intro q hq
    have hpow : ((2 : ℕ) : ℚ) ^ (-5 : ℤ) ≤ q := le_trans (by norm_num) hq
    have hle := (Int.zpow_le_iff_le_log Nat.one_lt_two (by linarith)).mp hpow
    have hcast : ((-5 : ℤ) : ℚ) ≤ floorLog2 q := Int.cast_le.mpr hle
    push_cast at hcast
    linarith

/-- The bytes 0 to 63. -/
def countingUp : Block 64 := List.Vector.ofFn fun i => UInt8.ofNat i.val

/-- The first method, with a buffer that counts up. -/
def countingSource : MultiSource.EntropySource :=
  { name := "os_csprng_primary", domainTag := Domain.entropySourceOsPrimary, raw := countingUp }

/-- Sixty-four different bytes pass. -/
theorem healthCheckSource_eq_counting : healthCheckSource floorLog2 countingSource = .ok () :=
  (healthCheckSource_eq floorLog2 faithfulLog2_floor countingSource).trans
    (if_pos (by decide +kernel))

/-- So many buffers pass the check, and of five thousand less than one. -/
theorem card_healthy (hlog : FaithfulLog2 log2) (name : String) (tag : Bytes) :
    Nat.card { raw : Block 64 // healthCheckSource log2 { name, domainTag := tag, raw } = .ok () }
        = Nat.descFactorial 256 64 ∧
      5000 * Nat.descFactorial 256 64 < 256 ^ 64 := by
  have hiff : ∀ raw : Block 64,
      healthCheckSource log2 { name, domainTag := tag, raw } = .ok () ↔ raw.toList.Nodup := by
    intro raw
    rw [healthCheckSource_eq log2 hlog]
    split
    case isTrue h => exact iff_of_true rfl h
    case isFalse h => exact iff_of_false (fun herror => nomatch herror) h
  refine ⟨?_, by decide +kernel⟩
  rw [Nat.card_congr (Equiv.subtypeEquivRight hiff), card_nodup, card_byte]

/-- A number copied into a buffer leaves two zeros behind it. -/
theorem not_nodup_padded {k : Nat} (bytes : Block k) (hk : k ≤ 64) (hshort : k ≤ 62) :
    ¬ (MultiSource.padded bytes hk).toList.Nodup := by
  intro h
  change (bytes.toList ++ List.replicate (64 - k) 0).Nodup at h
  have hzeros := (List.nodup_append.mp h).2.1
  have hle := List.nodup_replicate.mp hzeros
  omega

/-- A method that copies a number does not pass. -/
theorem not_healthy_copied (hlog : FaithfulLog2 log2) {k : Nat} (name : String) (tag : Bytes)
    (bytes : Block k) (hk : k ≤ 64) (hshort : k ≤ 62) :
    healthCheckSource log2 (MultiSource.copied name tag bytes hk) ≠ .ok () := by
  have hrepeated : ¬ (MultiSource.copied name tag bytes hk).raw.toList.Nodup :=
    not_nodup_padded bytes hk hshort
  rw [healthCheckSource_eq log2 hlog, if_neg hrepeated]
  exact fun herror => nomatch herror

/-- Of the methods of a harvest only the calls of the system and the hashed
    counter can pass, whatever the methods read. -/
theorem healthy_methods (hlog : FaithfulLog2 log2) (X : Xof) (r : MultiSource.Readings)
    (srcs : List MultiSource.EntropySource) (hsrcs : (MultiSource.sources X r).val = .ok srcs)
    (src : MultiSource.EntropySource) (hsrc : src ∈ srcs)
    (hpasses : healthCheckSource log2 src = .ok ()) :
    src.domainTag = Domain.entropySourceOsPrimary ∨
      src.domainTag = Domain.entropySourceOsSecondary ∨
      src.domainTag = Domain.entropySourceHwCounter := by
  rcases MultiSource.mem_sources X r srcs hsrcs src hsrc with hos | hos | hcounter | hcopied
  · exact Or.inl hos
  · exact Or.inr (Or.inl hos)
  · exact Or.inr (Or.inr hcounter)
  · obtain ⟨k, name, tag, bytes, hk, hshort, rfl⟩ := hcopied
    exact absurd hpasses (not_healthy_copied log2 hlog name tag bytes hk (by omega))

end

theorem card_healthy_floor :
    Nat.card { raw : Block 64 // healthCheckSource floorLog2
      { name := "os_csprng_primary", domainTag := Domain.entropySourceOsPrimary, raw } = .ok () }
        = Nat.descFactorial 256 64 :=
  (card_healthy floorLog2 faithfulLog2_floor _ _).1

/-- The clock reads a number of nanoseconds, and does not pass. -/
theorem healthy_methods_clock :
    healthCheckSource floorLog2 (MultiSource.wallClock MultiSource.readZeros) ≠ .ok () := by
  intro hpasses
  obtain ⟨srcs, hsrcs, hsrc⟩ : ∃ srcs,
      (MultiSource.sources Keccak.shake256 MultiSource.readZeros).val = .ok srcs ∧
        MultiSource.wallClock MultiSource.readZeros ∈ srcs :=
    ⟨_, rfl, List.mem_cons_of_mem _ (List.mem_cons_of_mem _ List.mem_cons_self)⟩
  have htag := healthy_methods floorLog2 faithfulLog2_floor Keccak.shake256 MultiSource.readZeros
    srcs hsrcs _ hsrc hpasses
  revert htag
  decide

end Veil7
