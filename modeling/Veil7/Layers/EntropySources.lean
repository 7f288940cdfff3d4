import Veil7.Layers.KeySources

/-!
# The Multi-Source Harvest

`entropy_sources.rs` and `harvest_multi_source` of `l1_entropy.rs`: up to twelve
methods each fill a buffer of 64 bytes, every buffer is hashed under the tag of
its method, the hashes are added into a pool by exclusive or, and a last hash of
the pool is the seed. Only the first method may not fail; the second may be
missing.

Every method counts: of two harvests in which the methods fill their buffers
alike but for one of them, the seeds agree exactly if the personalizations and
that one buffer do (`harvestMultiSource_eq_iff`). And no two methods cancel, as
they would if equal buffers were added as they are (`contributions_nodup`).

## Main definitions

* `Readings`: What the methods read from the system.
* `EntropySource`: The buffer of a method, with its name and its tag.
* `sources`: The methods of a harvest.
* `harvestMultiSource`: The harvest.

## Theorems

* `harvestMultiSource_error_iff`: When there is no seed.
* `harvestMultiSource_eq_iff`: Which harvests share a seed.
* `contributions_nodup`: No two methods contribute the same.
-/

namespace Veil7

namespace MultiSource

/-- What the methods read. Numbers are given by the little-endian bytes that are
    copied into the buffers; the two calls of `getrandom` may fail. -/
structure Readings where
  osPrimary : Option (Block 64)
  osSecondary : Option (Block 64)
  wallNanos : Block 16
  stackProbe : Block 8
  threadHash : Block 8
  counterElapsed : Block 16
  counterWall : Block 16
  pid : Block 4
  allocation : Block 8
  cacheElapsed : Block 16
  pageFaultElapsed : Block 16
  interruptElapsed : Block 16
  contentionElapsed : Block 16

structure EntropySource where
  name : String
  domainTag : Bytes
  raw : Block 64

/-- `raw[..k].copy_from_slice(bytes)`, into a buffer of zeros. -/
def padded {k : Nat} (bytes : Block k) (hk : k ≤ 64) : Block 64 :=
  ⟨bytes.toList ++ List.replicate (64 - k) 0, by
    rw [List.length_append, Block.length_toList, List.length_replicate]
    omega⟩

/-! ### The methods -/

def osCsprngPrimary (r : Readings) : Except String EntropySource :=
  match r.osPrimary with
  | none => .error "os_csprng_primary failed"
  | some raw => .ok {
      name := "os_csprng_primary", domainTag := Domain.entropySourceOsPrimary, raw := raw }

def osCsprngSecondary (r : Readings) : Except String EntropySource :=
  match r.osSecondary with
  | none => .error "os_csprng_secondary failed"
  | some raw => .ok {
      name := "os_csprng_secondary", domainTag := Domain.entropySourceOsSecondary, raw := raw }

/-- A method that copies a number into its buffer. -/
def copied {k : Nat} (name : String) (tag : Bytes) (bytes : Block k) (hk : k ≤ 64) :
    EntropySource :=
  { name := name, domainTag := tag, raw := padded bytes hk }

def wallClock (r : Readings) : EntropySource :=
  copied "wall_clock" Domain.entropySourceWallClock r.wallNanos (by omega)

def stackAddr (r : Readings) : EntropySource :=
  copied "stack_addr" Domain.entropySourceStackAddr r.stackProbe (by omega)

def threadId (r : Readings) : EntropySource :=
  copied "thread_id" Domain.entropySourceThreadId r.threadHash (by omega)

/-- The timer's two readings are hashed together. -/
def hwCounter (X : Xof) (r : Readings) : Hashing EntropySource := do
  let xof := Shake256.new.update (ascii "veil7:L1:src:hw-counter-combine:v1")
  let raw ← ((xof.update r.counterElapsed.toList).update r.counterWall.toList).squeeze X 64
  pure { name := "hw_counter", domainTag := Domain.entropySourceHwCounter, raw := raw }

def processId (r : Readings) : EntropySource :=
  copied "process_id" Domain.entropySourceProcessId r.pid (by omega)

def memoryAllocationAddr (r : Readings) : EntropySource :=
  copied "memory_allocation_addr" Domain.entropySourceMemoryAlloc r.allocation (by omega)

def cpuCacheTiming (r : Readings) : EntropySource :=
  copied "cpu_cache_timing" Domain.entropySourceCpuCache r.cacheElapsed (by omega)

def pageFaultTiming (r : Readings) : EntropySource :=
  copied "page_fault_timing" Domain.entropySourcePageFault r.pageFaultElapsed (by omega)

def interruptTiming (r : Readings) : EntropySource :=
  copied "interrupt_timing" Domain.entropySourceInterrupt r.interruptElapsed (by omega)

def memoryContentionTiming (r : Readings) : EntropySource :=
  copied "memory_contention_timing" Domain.entropySourceMemoryContention
    r.contentionElapsed (by omega)

/-! ### The harvest -/

section

variable (X : Xof)

/-- The hash of the buffer under the method's tag. -/
def EntropySource.whiten (src : EntropySource) : Hashing (Block 64) :=
  ((Shake256.new.update src.domainTag).update src.raw.toList).squeeze X 64

/-- The methods in the order they are collected. -/
def sources (r : Readings) : Hashing (Except VeilError (List EntropySource)) :=
  match osCsprngPrimary r with
  | .error _ => pure (.error .entropy)
  | .ok primary => do
    -- The second call is left out where it fails.
    let secondary := match osCsprngSecondary r with
      | .ok s => [s]
      | .error _ => []
    let counter ← hwCounter X r
    pure (.ok ([primary] ++ secondary ++ [wallClock r, stackAddr r, threadId r, counter,
      processId r, memoryAllocationAddr r, cpuCacheTiming r, pageFaultTiming r, interruptTiming r,
      memoryContentionTiming r]))

/-- The pool of the hashed buffers. -/
def poolOf (srcs : List EntropySource) : Hashing (Block 64) :=
  srcs.foldlM (fun pool src => do
    let whitened ← src.whiten X
    pure (List.Vector.zipWith (· ^^^ ·) pool whitened)) (zeros 64)

def harvestMultiSource (personalization : Bytes) (r : Readings) :
    Hashing (Except VeilError Seed) := do
  match ← sources X r with
  | .error e => pure (.error e)
  | .ok srcs =>
    let pool ← poolOf X srcs
    let locked ← (Shake256.absorbAll [Domain.entropyFinalize, personalization,
      pool.toList]).squeeze X 64
    pure (.ok locked)

/-! ### What is hashed -/

/-- The string hashed for a buffer. -/
def whitenString (src : EntropySource) : Bytes := src.domainTag ++ src.raw.toList

/-- The string hashed into the seed. -/
def finalString (personalization : Bytes) (pool : Block 64) : Bytes :=
  [Domain.entropyFinalize, personalization, pool.toList].flatten

/-- The buffers have one size, so the string shows where the tag ends. -/
theorem whitenString_inj (src src' : EntropySource) (h : whitenString src = whitenString src') :
    src.domainTag = src'.domainTag ∧ src.raw = src'.raw := by
  have hparts := List.append_inj' h (by rw [Block.length_toList, Block.length_toList])
  exact ⟨hparts.1, Block.toList_inj 64 _ _ hparts.2⟩

theorem finalString_inj (p p' : Bytes) (pool pool' : Block 64)
    (h : finalString p pool = finalString p' pool') : p = p' ∧ pool = pool' := by
  unfold finalString at h
  simp only [List.flatten_cons, List.flatten_nil, List.append_nil] at h
  have hparts := List.append_inj' (List.append_cancel_left h)
    (by rw [Block.length_toList, Block.length_toList])
  exact ⟨hparts.1, Block.toList_inj 64 _ _ hparts.2⟩

theorem val_whiten (src : EntropySource) :
    (src.whiten X).val = digest X 64 (whitenString src) :=
  rfl

theorem queries_whiten (src : EntropySource) : (src.whiten X).queries = [whitenString src] :=
  rfl

theorem val_poolOf (srcs : List EntropySource) :
    (poolOf X srcs).val = pooled 0 (srcs.map fun src => (src.whiten X).val) := by
  rw [poolOf, Queried.val_foldlM, pooled, List.foldl_map]
  rfl

theorem queries_poolOf (srcs : List EntropySource) :
    (poolOf X srcs).queries = srcs.flatMap fun src => [whitenString src] := by
  refine Queried.queries_foldlM _ _ (fun pool src => ?_) srcs _
  rw [Queried.queries_bind, queries_whiten, Queried.queries_pure, List.append_nil]

/-- With the methods collected, the seed is the hash of their pool, and all the
    strings are among those hashed. -/
theorem harvest_of_sources (p : Bytes) (r : Readings) (srcs : List EntropySource)
    (hsrcs : (sources X r).val = .ok srcs) :
    (harvestMultiSource X p r).val = .ok (digest X 64 (finalString p (poolOf X srcs).val)) ∧
      finalString p (poolOf X srcs).val ∈ (harvestMultiSource X p r).queries ∧
      ∀ src ∈ srcs, whitenString src ∈ (harvestMultiSource X p r).queries := by
  unfold harvestMultiSource
  rw [Queried.val_bind, Queried.queries_bind, hsrcs]
  dsimp only
  rw [Queried.val_bind, Queried.queries_bind, Queried.val_bind, Queried.queries_bind,
    Shake256.val_squeeze, Shake256.queries_squeeze, Shake256.buf_absorbAll, queries_poolOf]
  refine ⟨rfl, ?_, fun src hsrc => ?_⟩
  · exact List.mem_append_right _ (List.mem_append_right _
      (List.mem_append_left _ (List.mem_singleton.mpr rfl)))
  · exact List.mem_append_right _ (List.mem_append_left _
      (List.mem_flatMap.mpr ⟨src, hsrc, List.mem_singleton.mpr rfl⟩))

/-! ### The methods of a harvest -/

/-- The tags of the methods, with the second or without it. -/
def tags (secondary : Bool) : List Bytes :=
  [Domain.entropySourceOsPrimary] ++
    (if secondary then [Domain.entropySourceOsSecondary] else []) ++
    [Domain.entropySourceWallClock, Domain.entropySourceStackAddr, Domain.entropySourceThreadId,
      Domain.entropySourceHwCounter, Domain.entropySourceProcessId,
      Domain.entropySourceMemoryAlloc, Domain.entropySourceCpuCache, Domain.entropySourcePageFault,
      Domain.entropySourceInterrupt, Domain.entropySourceMemoryContention]

theorem nodup_tags (secondary : Bool) : (tags secondary).Nodup := by
  cases secondary <;> decide

theorem tags_sources (r : Readings) (srcs : List EntropySource)
    (hsrcs : (sources X r).val = .ok srcs) :
    srcs.map EntropySource.domainTag = tags r.osSecondary.isSome := by
  unfold sources osCsprngPrimary osCsprngSecondary at hsrcs
  cases hprimary : r.osPrimary with
  | none =>
      rw [hprimary] at hsrcs
      cases hsrcs
  | some primary =>
      cases hsecondary : r.osSecondary with
      | none =>
          rw [hprimary, hsecondary] at hsrcs
          cases hsrcs
          rfl
      | some secondary =>
          rw [hprimary, hsecondary] at hsrcs
          cases hsrcs
          rfl

/-- All methods but the calls of the system and the hashed counter copy a number
    of at most 16 bytes. -/
theorem mem_sources (r : Readings) (srcs : List EntropySource)
    (hsrcs : (sources X r).val = .ok srcs) (src : EntropySource) (hsrc : src ∈ srcs) :
    src.domainTag = Domain.entropySourceOsPrimary ∨
      src.domainTag = Domain.entropySourceOsSecondary ∨
      src.domainTag = Domain.entropySourceHwCounter ∨
      ∃ (k : Nat) (name : String) (tag : Bytes) (bytes : Block k) (hk : k ≤ 64),
        k ≤ 16 ∧ src = copied name tag bytes hk := by
  unfold sources osCsprngPrimary osCsprngSecondary at hsrcs
  cases hprimary : r.osPrimary with
  | none =>
      rw [hprimary] at hsrcs
      cases hsrcs
  | some primary =>
      rw [hprimary, Queried.val_bind, Queried.val_pure, Except.ok.injEq] at hsrcs
      rw [← hsrcs, List.mem_append, List.mem_append, List.mem_singleton] at hsrc
      rcases hsrc with (rfl | hsecondary) | hrest
      · exact Or.inl rfl
      · right
        left
        cases hread : r.osSecondary with
        | none =>
            rw [hread] at hsecondary
            cases hsecondary
        | some secondary =>
            rw [hread] at hsecondary
            rw [List.mem_singleton.mp hsecondary]
      · simp only [List.mem_cons, List.not_mem_nil, or_false] at hrest
        rcases hrest with rfl | rfl | rfl | rfl | rfl | rfl | rfl | rfl | rfl | rfl
        · exact Or.inr (Or.inr (Or.inr ⟨16, _, _, r.wallNanos, _, by omega, rfl⟩))
        · exact Or.inr (Or.inr (Or.inr ⟨8, _, _, r.stackProbe, _, by omega, rfl⟩))
        · exact Or.inr (Or.inr (Or.inr ⟨8, _, _, r.threadHash, _, by omega, rfl⟩))
        · exact Or.inr (Or.inr (Or.inl rfl))
        · exact Or.inr (Or.inr (Or.inr ⟨4, _, _, r.pid, _, by omega, rfl⟩))
        · exact Or.inr (Or.inr (Or.inr ⟨8, _, _, r.allocation, _, by omega, rfl⟩))
        · exact Or.inr (Or.inr (Or.inr ⟨16, _, _, r.cacheElapsed, _, by omega, rfl⟩))
        · exact Or.inr (Or.inr (Or.inr ⟨16, _, _, r.pageFaultElapsed, _, by omega, rfl⟩))
        · exact Or.inr (Or.inr (Or.inr ⟨16, _, _, r.interruptElapsed, _, by omega, rfl⟩))
        · exact Or.inr (Or.inr (Or.inr ⟨16, _, _, r.contentionElapsed, _, by omega, rfl⟩))

/-- There is no seed exactly if the first method fails. -/
theorem harvestMultiSource_error_iff (p : Bytes) (r : Readings) :
    (harvestMultiSource X p r).val = .error .entropy ↔ r.osPrimary = none := by
  cases hprimary : r.osPrimary with
  | none =>
      have hsrcs : (sources X r).val = .error .entropy := by
        unfold sources osCsprngPrimary
        rw [hprimary]
        rfl
      rw [harvestMultiSource, Queried.val_bind, hsrcs]
      exact iff_of_true rfl rfl
  | some primary =>
      have hsrcs : ∃ srcs, (sources X r).val = .ok srcs := by
        unfold sources osCsprngPrimary
        rw [hprimary]
        exact ⟨_, rfl⟩
      rcases hsrcs with ⟨srcs, hsrcs⟩
      rw [(harvest_of_sources X p r srcs hsrcs).1]
      exact iff_of_false (fun h => nomatch h) (fun h => nomatch h)

/-- Methods at one place of two harvests with as many of them have one tag. -/
theorem domainTag_eq (r r' : Readings) (pre post : List EntropySource) (src src' : EntropySource)
    (hsrcs : (sources X r).val = .ok (pre ++ src :: post))
    (hsrcs' : (sources X r').val = .ok (pre ++ src' :: post)) :
    src.domainTag = src'.domainTag := by
  have htags := tags_sources X r _ hsrcs
  have htags' := tags_sources X r' _ hsrcs'
  -- The number of methods says whether the second is there.
  have hsame : tags r.osSecondary.isSome = tags r'.osSecondary.isSome := by
    have hlen := congrArg List.length htags
    have hlen' := congrArg List.length htags'
    rw [List.length_map, List.length_append, List.length_cons] at hlen hlen'
    rw [hlen] at hlen'
    cases hb : r.osSecondary.isSome <;> cases hb' : r'.osSecondary.isSome
    · rfl
    · rw [hb, hb'] at hlen'
      exact absurd hlen' (by decide)
    · rw [hb, hb'] at hlen'
      exact absurd hlen' (by decide)
    · rfl
  rw [← htags, ← htags', List.map_append, List.map_append, List.map_cons, List.map_cons] at hsame
  exact (List.cons.inj (List.append_cancel_left hsame)).1

/-- All methods read zeros. -/
def readZeros : Readings where
  osPrimary := some (zeros 64)
  osSecondary := some (zeros 64)
  wallNanos := zeros 16
  stackProbe := zeros 8
  threadHash := zeros 8
  counterElapsed := zeros 16
  counterWall := zeros 16
  pid := zeros 4
  allocation := zeros 8
  cacheElapsed := zeros 16
  pageFaultElapsed := zeros 16
  interruptElapsed := zeros 16
  contentionElapsed := zeros 16

theorem collisionFree_readZeros :
    CollisionFree (digest Keccak.shake256 64)
      ((harvestMultiSource Keccak.shake256 [] readZeros).queries ++
        (harvestMultiSource Keccak.shake256 [1] readZeros).queries) := by
  decide +kernel

/-- Two harvests whose methods fill their buffers alike, but for one of them,
    return one seed exactly if they have one personalization and that method
    fills its buffer alike too, apart from collisions. -/
theorem harvestMultiSource_eq_iff (p p' : Bytes) (r r' : Readings)
    (pre post : List EntropySource) (src src' : EntropySource)
    (hsrcs : (sources X r).val = .ok (pre ++ src :: post))
    (hsrcs' : (sources X r').val = .ok (pre ++ src' :: post))
    (hcf : CollisionFree (digest X 64)
      ((harvestMultiSource X p r).queries ++ (harvestMultiSource X p' r').queries)) :
    (harvestMultiSource X p r).val = (harvestMultiSource X p' r').val ↔
      p = p' ∧ src.raw = src'.raw := by
  rcases harvest_of_sources X p r _ hsrcs with ⟨hval, hfinal, hwhiten⟩
  rcases harvest_of_sources X p' r' _ hsrcs' with ⟨hval', hfinal', hwhiten'⟩
  have hmem : ∀ s : EntropySource, s ∈ pre ++ s :: post := fun s =>
    List.mem_append_right pre List.mem_cons_self
  -- Pools with one contribution changed agree where it does.
  have hpools : (poolOf X (pre ++ src :: post)).val = (poolOf X (pre ++ src' :: post)).val ↔
      digest X 64 (whitenString src) = digest X 64 (whitenString src') := by
    rw [val_poolOf, val_poolOf, List.map_append, List.map_append, List.map_cons, List.map_cons,
      pooled_eq_iff, val_whiten, val_whiten]
  rw [hval, hval', Except.ok.injEq]
  constructor
  · intro hseed
    have hstring := hcf _ (List.mem_append_left _ hfinal) _ (List.mem_append_right _ hfinal') hseed
    rcases finalString_inj p p' _ _ hstring with ⟨hp, hpool⟩
    have hwhitened := hcf _ (List.mem_append_left _ (hwhiten src (hmem src))) _
      (List.mem_append_right _ (hwhiten' src' (hmem src'))) (hpools.mp hpool)
    exact ⟨hp, (whitenString_inj src src' hwhitened).2⟩
  · rintro ⟨rfl, hraw⟩
    have htag := domainTag_eq X r r' pre post src src' hsrcs hsrcs'
    have hwhitened : whitenString src = whitenString src' := by
      rw [whitenString, htag, hraw, whitenString]
    rw [hpools.mpr (by rw [hwhitened])]

/-- The same readings under two personalizations. -/
theorem harvestMultiSource_eq_iff_zeros :
    (harvestMultiSource Keccak.shake256 [] readZeros).val
      ≠ (harvestMultiSource Keccak.shake256 [1] readZeros).val := by
  obtain ⟨src, post, hsrcs⟩ : ∃ src post,
      (sources Keccak.shake256 readZeros).val = .ok ([] ++ src :: post) := ⟨_, _, rfl⟩
  intro h
  exact absurd ((harvestMultiSource_eq_iff Keccak.shake256 [] [1] readZeros readZeros [] post
    src src hsrcs hsrcs collisionFree_readZeros).mp h).1 (by decide)

/-- The contributions of one harvest are all different, apart from collisions,
    also where the methods fill their buffers alike. -/
theorem contributions_nodup (p : Bytes) (r : Readings) (srcs : List EntropySource)
    (hsrcs : (sources X r).val = .ok srcs)
    (hcf : CollisionFree (digest X 64) (harvestMultiSource X p r).queries) :
    (srcs.map fun src => (src.whiten X).val).Nodup := by
  have hwhiten := (harvest_of_sources X p r srcs hsrcs).2.2
  have htags : (srcs.map EntropySource.domainTag).Nodup := by
    rw [tags_sources X r srcs hsrcs]
    exact nodup_tags _
  refine List.Nodup.map_on (fun src hsrc src' hsrc' heq => ?_) (List.Nodup.of_map _ htags)
  have hstring := hcf _ (hwhiten src hsrc) _ (hwhiten src' hsrc') heq
  exact List.inj_on_of_nodup_map htags hsrc hsrc' (whitenString_inj src src' hstring).1

/-- Twelve methods that read zeros contribute different hashes. -/
theorem contributions_nodup_zeros :
    ∃ srcs, (sources Keccak.shake256 readZeros).val = .ok srcs ∧ srcs.length = 12 ∧
      (srcs.map fun src => (src.whiten Keccak.shake256).val).Nodup := by
  obtain ⟨srcs, hsrcs, hlen⟩ : ∃ srcs,
      (sources Keccak.shake256 readZeros).val = .ok srcs ∧ srcs.length = 12 := ⟨_, rfl, rfl⟩
  exact ⟨srcs, hsrcs, hlen, contributions_nodup Keccak.shake256 [] readZeros srcs hsrcs
    (collisionFree_readZeros.mono _ _ _ (List.subset_append_left _ _))⟩

end

end MultiSource

end Veil7
