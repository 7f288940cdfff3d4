import Veil7.Core.Checked
import Veil7.Layers.Emit
import Veil7.Library.Keccak

/-!
# Threshold Verification

`threshold.rs`: `m` independent iterations on one claim, of which `n` have to
be valid.

The iterations are a parameter here, one outcome for every index, since what
`threshold_verify` makes of them depends on nothing else. It collects their
bits, counts the ones in a `u32` and compares the count with `n` cast to a
`u32`. Both narrowings are invisible below `2 ^ 32`. From there on the cast
drops the high half of `n`, so an unmet threshold can pass, and a count that
reaches `2 ^ 32` overflows and panics (`thresholdVerify_exact_iff`).

The hasher keeps 63 bytes for every iteration, and panics when its buffer cannot
grow any more. How far a buffer grows is a parameter as well, bounded by what any
vector can hold.

The transcript folds both numbers and the transcripts of the iterations under
their indices, all in fields of one size, and so binds them
(`thresholdVerify_transcript_iff`). The bits of the iterations are not in it: two
runs with the same transcripts and different bits have one transcript.

## Main definitions

* `collect`: The loop over the iterations.
* `countChoices`: The count of the valid ones.
* `thresholdVerify`: The aggregation.
* `Outcomes`: No iteration fails, and these are their bits.
* `thresholdEntry`: What an iteration has the aggregator absorb.
* `transcriptOf`: The transcript of an iteration.
* `thresholdString`: The string squeezed at the end.

## Theorems

* `countChoices_eq`: The count, or an overflow.
* `val_thresholdVerify`: The aggregated verdict.
* `thresholdVerify_exact_iff`: When the verdict is exact.
* `thresholdVerify_none_valid`: A threshold of `2 ^ 32` met by no iteration.
* `thresholdString_inj`: What is folded shows the numbers and the transcripts.
* `thresholdVerify_transcript_iff`: When two verdicts have one transcript.
-/

namespace Veil7

namespace Threshold

def thresholdHead : Bytes := ascii "veil7:threshold:head:v1"

def thresholdStep : Bytes := ascii "veil7:threshold:step:v1"

/-- The loop over the iterations: their bits in order, and the transcripts
    folded into the aggregator. An error of an iteration ends it, and so does a
    buffer that is full. -/
def collect (room : Room) (verifyOnce : Nat → Hashing (Except VeilError Verdict)) :
    List Nat → List Choice → Shake256 → Checked (Except VeilError (List Choice × Shake256))
  | [], validChoices, xof => pure (.ok (validChoices, xof))
  | i :: is, validChoices, xof => do
    match ← ExceptT.lift (verifyOnce i) with
    | .error e => pure (.error e)
    | .ok verdict =>
      let xof ← Checked.of (xof.updateAll room
        [thresholdStep, u64Bytes i, verdict.transcript.toList])
      collect room verifyOnce is (validChoices ++ [verdict.valid]) xof

/-- `count += c.unwrap_u8() as u32` over the choices. -/
def countChoices (validChoices : List Choice) (count : UInt32) : Except Panic UInt32 :=
  validChoices.foldlM (fun count c => add32 count (if c then 1 else 0)) count

/-- The aggregated verdict over `m` iterations, of which `n` must be valid. -/
def thresholdVerify (X : Xof) (room : Room)
    (verifyOnce : Nat → Hashing (Except VeilError Verdict)) (n m : UInt64) :
    Checked (Except VeilError Verdict) :=
  if n = 0 ∨ m = 0 ∨ m < n then pure (.error .crypto)
  else do
    Checked.of (reserve m)
    let xof ← Checked.of (Shake256.new.updateAll room
      [thresholdHead, u64Bytes n.toNat, u64Bytes m.toNat])
    match ← collect room verifyOnce (List.range m.toNat) [] xof with
    | .error e => pure (.error e)
    | .ok (validChoices, xof) =>
      let count ← Checked.of (countChoices validChoices 0)
      -- The threshold is narrowed to the type of the count.
      let passed := decide (n.toUInt32 ≤ count)
      let transcript ← ExceptT.lift (xof.squeeze X 32)
      pure (.ok (Verdict.fromBatch passed transcript))

/-- No iteration below `m` fails, and `valid` gives their bits. -/
def Outcomes (verifyOnce : Nat → Hashing (Except VeilError Verdict)) (m : UInt64)
    (valid : Nat → Choice) : Prop :=
  ∀ i < m.toNat, ∃ verdict, (verifyOnce i).val = .ok verdict ∧ verdict.valid = valid i

/-- How many of the first `m` bits are set. -/
def validCount (valid : Nat → Choice) (m : UInt64) : Nat :=
  (List.range m.toNat).countP fun i => valid i

theorem add32_bit (count : UInt32) (c : Choice) (h : count.toNat + c.toNat < 2 ^ 32) :
    ∃ count', add32 count (if c then 1 else 0) = .ok count' ∧
      count'.toNat = count.toNat + c.toNat := by
  have hbit : (if c then 1 else 0 : UInt32).toNat = c.toNat := by cases c <;> rfl
  rw [← hbit] at h ⊢
  exact ⟨_, add32_of_lt _ _ h, by rw [UInt32.toNat_add, Nat.mod_eq_of_lt h]⟩

/-- Counting from `count` on gives the sum, or panics where it leaves the type. -/
theorem countChoices_eq (validChoices : List Choice) (count : UInt32) :
    countChoices validChoices count
      = if count.toNat + validChoices.countP id < 2 ^ 32
        then .ok (UInt32.ofNat (count.toNat + validChoices.countP id))
        else .error .arithmeticOverflow := by
  unfold countChoices
  induction validChoices generalizing count with
  | nil =>
      have hlt := count.toNat_lt
      rw [List.countP_nil, Nat.add_zero, if_pos hlt, UInt32.ofNat_toNat]
      rfl
  | cons c validChoices ih =>
      have hcons : (c :: validChoices).countP id = validChoices.countP id + c.toNat := by
        cases c <;> rw [List.countP_cons] <;> rfl
      rw [List.foldlM_cons, hcons]
      by_cases hfits : count.toNat + c.toNat < 2 ^ 32
      · rcases add32_bit count c hfits with ⟨count', hadd, hcount'⟩
        have hsum : count.toNat + (validChoices.countP id + c.toNat)
            = count'.toNat + validChoices.countP id := by omega
        rw [hadd, Panic.ok_bind, ih, hsum]
      -- This very addition overflows.
      · have hone : 2 ^ 32 ≤ count.toNat + (if c then 1 else 0 : UInt32).toNat := by
          cases c <;> exact Nat.not_lt.mp hfits
        rw [add32_of_le _ _ hone, Panic.error_bind, if_neg (by omega)]

/-- A transcript under its index. -/
def thresholdEntry (entry : Block 32 × Nat) : Bytes :=
  thresholdStep ++ u64Bytes entry.2 ++ entry.1.toList

theorem length_thresholdEntry (entry : Block 32 × Nat) : (thresholdEntry entry).length = 63 := by
  unfold thresholdEntry
  rw [List.length_append, List.length_append, length_u64Bytes, Block.length_toList]
  rfl

/-- It is what an iteration has the aggregator absorb. -/
theorem flatten_thresholdEntry (i : Nat) (transcript : Block 32) :
    [thresholdStep, u64Bytes i, transcript.toList].flatten = thresholdEntry (transcript, i) := by
  rw [List.flatten_cons, List.flatten_cons, List.flatten_singleton, thresholdEntry,
    List.append_assoc]

section

variable (room : Room) (verifyOnce : Nat → Hashing (Except VeilError Verdict))

/-- When no iteration fails, the loop collects all bits, if the buffer takes
    63 bytes for each. -/
theorem val_collect (valid : Nat → Choice) (is : List Nat) (validChoices : List Choice)
    (xof : Shake256) (hxof : xof.buf.length ≤ room.bytes)
    (h : ∀ i ∈ is, ∃ verdict, (verifyOnce i).val = .ok verdict ∧ verdict.valid = valid i) :
    ∃ xof', (collect room verifyOnce is validChoices xof).run.val
      = if xof.buf.length + 63 * is.length ≤ room.bytes
        then .ok (.ok (validChoices ++ is.map valid, xof')) else .error .capacityOverflow := by
  induction is generalizing validChoices xof with
  | nil =>
      refine ⟨xof, ?_⟩
      rw [List.length_nil, Nat.mul_zero, Nat.add_zero, if_pos hxof, List.map_nil, List.append_nil]
      rfl
  | cons i is ih =>
      rcases h i List.mem_cons_self with ⟨verdict, hrun, hvalid⟩
      have hlen : [thresholdStep, u64Bytes i, verdict.transcript.toList].flatten.length = 63 := by
        rw [flatten_thresholdEntry, length_thresholdEntry]
      rw [List.length_cons, collect, Checked.val_run_bind, Checked.val_run_lift, hrun,
        Panic.ok_bind]
      dsimp only
      rw [Checked.val_run_bind, Checked.val_run_of, Shake256.updateAll_eq room xof _ hxof, hlen]
      by_cases hfits : xof.buf.length + 63 ≤ room.bytes
      · rw [if_pos hfits, Panic.ok_bind]
        have hbuf : ([thresholdStep, u64Bytes i, verdict.transcript.toList].foldl
            Shake256.update xof).buf.length = xof.buf.length + 63 := by
          rw [Shake256.buf_foldl_update, List.length_append, hlen]
        rcases ih (validChoices ++ [verdict.valid]) _ (by rw [hbuf]; exact hfits)
          (fun j hj => h j (List.mem_cons_of_mem i hj)) with ⟨xof', hrest⟩
        refine ⟨xof', hrest.trans ?_⟩
        rw [hbuf, hvalid, List.append_assoc, List.map_cons, List.singleton_append,
          Nat.add_assoc, Nat.mul_succ, Nat.add_comm 63]
      · refine ⟨xof, ?_⟩
        rw [if_neg hfits, Panic.error_bind, if_neg (by omega)]

variable (X : Xof) (n m : UInt64) (valid : Nat → Choice)

/-- The run after the guards: what the hasher absorbs has to fit its buffer, and
    then there is a count and a comparison. -/
theorem val_thresholdVerify (hn : 1 ≤ n) (hm : n ≤ m) (h : Outcomes verifyOnce m valid) :
    ∃ transcript, (thresholdVerify X room verifyOnce n m).run.val
      = if 39 + 63 * m.toNat ≤ room.bytes
        then countChoices ((List.range m.toNat).map valid) 0 >>= fun count =>
          .ok (.ok { valid := decide (n.toUInt32 ≤ count), transcript := transcript })
        else .error .capacityOverflow := by
  have hguard : ¬ (n = 0 ∨ m = 0 ∨ m < n) := by
    rw [UInt64.le_iff_toNat_le, UInt64.toNat_one] at hn
    rw [UInt64.le_iff_toNat_le] at hm
    rw [← UInt64.toNat_inj, ← UInt64.toNat_inj, UInt64.lt_iff_toNat_lt, UInt64.toNat_zero]
    omega
  have hroom := room.le_isizeMax
  have hhead : [thresholdHead, u64Bytes n.toNat, u64Bytes m.toNat].flatten.length = 39 := by
    rw [List.flatten_cons, List.flatten_cons, List.flatten_singleton, List.length_append,
      List.length_append, length_u64Bytes, length_u64Bytes]
    rfl
  rw [thresholdVerify, if_neg hguard, Checked.val_run_bind, Checked.val_run_of, reserve]
  by_cases hcap : m.toNat < 2 ^ 63
  · rw [if_pos hcap, Panic.ok_bind, Checked.val_run_bind, Checked.val_run_of,
      Shake256.updateAll_eq room _ _ (Nat.zero_le _), hhead, Shake256.buf_new, List.length_nil,
      Nat.zero_add]
    by_cases hfits : 39 ≤ room.bytes
    · rw [if_pos hfits, Panic.ok_bind]
      have hbuf : ([thresholdHead, u64Bytes n.toNat, u64Bytes m.toNat].foldl
          Shake256.update Shake256.new).buf.length = 39 := by
        rw [Shake256.buf_foldl_update, Shake256.buf_new, List.nil_append, hhead]
      rcases val_collect room verifyOnce valid (List.range m.toNat) [] _
        (by rw [hbuf]; exact hfits) (fun i hi => h i (List.mem_range.mp hi)) with ⟨xof', hcollect⟩
      rw [hbuf, List.length_range, List.nil_append] at hcollect
      refine ⟨(xof'.squeeze X 32).val, ?_⟩
      rw [Checked.val_run_bind, hcollect]
      by_cases hall : 39 + 63 * m.toNat ≤ room.bytes
      · rw [if_pos hall, if_pos hall, Panic.ok_bind]
        dsimp only
        rw [Checked.val_run_bind, Checked.val_run_of]
        rfl
      · rw [if_neg hall, if_neg hall, Panic.error_bind]
    · refine ⟨zeros 32, ?_⟩
      rw [if_neg hfits, Panic.error_bind, if_neg (by omega)]
  -- Where the vector of bits cannot be reserved, the buffer would not fit either.
  · refine ⟨zeros 32, ?_⟩
    rw [if_neg hcap, Panic.error_bind, if_neg (by omega)]

theorem countP_map_valid : ((List.range m.toNat).map valid).countP id = validCount valid m := by
  rw [List.countP_map]
  rfl

/-- Below the limits of the buffer and of the count, the verdict compares the
    count with the narrowed threshold. -/
theorem val_thresholdVerify_of_lt (hn : 1 ≤ n) (hm : n ≤ m) (h : Outcomes verifyOnce m valid)
    (hfits : 39 + 63 * m.toNat ≤ room.bytes) (hcount : validCount valid m < 2 ^ 32) :
    ∃ transcript, (thresholdVerify X room verifyOnce n m).run.val = .ok (.ok
      { valid := decide (n.toNat % 2 ^ 32 ≤ validCount valid m), transcript := transcript }) := by
  rcases val_thresholdVerify room verifyOnce X n m valid hn hm h with ⟨transcript, hrun⟩
  refine ⟨transcript, ?_⟩
  rw [hrun, if_pos hfits, countChoices_eq, countP_map_valid, UInt32.toNat_zero, Nat.zero_add,
    if_pos hcount, Panic.ok_bind]
  have hle : n.toUInt32 ≤ UInt32.ofNat (validCount valid m)
      ↔ n.toNat % 2 ^ 32 ≤ validCount valid m := by
    rw [UInt32.le_iff_toNat_le, UInt64.toNat_toUInt32, UInt32.toNat_ofNat', Nat.mod_eq_of_lt hcount]
  rw [decide_eq_decide.mpr hle]

/-- The verdict is returned and exact if and only if the hasher's buffer takes
    the numbers and all transcripts, fewer than `2 ^ 32` bits are set, and the
    threshold fits a `u32` or its low half is still above the count. -/
theorem thresholdVerify_exact_iff (hn : 1 ≤ n) (hm : n ≤ m) (h : Outcomes verifyOnce m valid) :
    (∃ verdict, (thresholdVerify X room verifyOnce n m).run.val = .ok (.ok verdict) ∧
      (verdict.valid = true ↔ n.toNat ≤ validCount valid m)) ↔
      39 + 63 * m.toNat ≤ room.bytes ∧ validCount valid m < 2 ^ 32 ∧
        (n.toNat < 2 ^ 32 ∨ validCount valid m < n.toNat % 2 ^ 32) := by
  have hrunIf := val_thresholdVerify_of_lt room verifyOnce X n m valid hn hm h
  rcases val_thresholdVerify room verifyOnce X n m valid hn hm h with ⟨transcript, hrun⟩
  constructor
  · rintro ⟨verdict, hverdict, hexact⟩
    -- A verdict was returned, so neither the buffer nor the count panicked.
    have hfits : 39 + 63 * m.toNat ≤ room.bytes := by
      by_contra hfits
      rw [hrun, if_neg hfits] at hverdict
      cases hverdict
    have hcount : validCount valid m < 2 ^ 32 := by
      by_contra hcount
      rw [hrun, if_pos hfits, countChoices_eq, countP_map_valid, UInt32.toNat_zero, Nat.zero_add,
        if_neg hcount, Panic.error_bind] at hverdict
      cases hverdict
    rcases hrunIf hfits hcount with ⟨transcript', hrun'⟩
    rw [hrun', Except.ok.injEq, Except.ok.injEq] at hverdict
    rw [← hverdict, decide_eq_true_eq] at hexact
    refine ⟨hfits, hcount, ?_⟩
    by_contra hneg
    rw [not_or] at hneg
    have hunmet := hexact.mp (by omega)
    omega
  · rintro ⟨hfits, hcount, hnarrow⟩
    rcases hrunIf hfits hcount with ⟨transcript', hrun'⟩
    refine ⟨_, hrun', ?_⟩
    rw [decide_eq_true_eq]
    rcases hnarrow with hsmall | hlow
    · rw [Nat.mod_eq_of_lt hsmall]
    · have := Nat.mod_le n.toNat (2 ^ 32)
      omega

end

/-- Iterations that all return the same bit. -/
def constantly (valid : Choice) : Nat → Hashing (Except VeilError Verdict) :=
  fun _ => pure (.ok { valid := valid, transcript := zeros 32 })

theorem outcomes_constantly (valid : Choice) (m : UInt64) :
    Outcomes (constantly valid) m fun _ => valid :=
  fun _ _ => ⟨_, rfl, rfl⟩

/-- Three of five valid iterations are enough. -/
theorem thresholdVerify_three_of_five :
    ∃ verdict, (thresholdVerify Keccak.shake256 isizeMax (constantly true) 3 5).run.val
        = .ok (.ok verdict) ∧
      (verdict.valid = true ↔ (3 : UInt64).toNat ≤ validCount (fun _ => true) 5) :=
  (thresholdVerify_exact_iff isizeMax (constantly true) Keccak.shake256 3 5 (fun _ => true)
    (by decide) (by decide) (outcomes_constantly true 5)).mpr
    ⟨by decide, by decide, Or.inl (by decide)⟩

theorem validCount_false (m : UInt64) : validCount (fun _ => false) m = 0 :=
  List.countP_eq_zero.mpr fun _ _ => Bool.false_ne_true

/-- A threshold of `2 ^ 32` out of as many iterations, all of them invalid,
    gives a valid verdict: the narrowed threshold is zero. -/
theorem thresholdVerify_none_valid :
    Outcomes (constantly false) 4294967296 (fun _ => false) ∧
    validCount (fun _ => false) 4294967296 < (4294967296 : UInt64).toNat ∧
    ∃ verdict,
      (thresholdVerify Keccak.shake256 isizeMax (constantly false) 4294967296 4294967296).run.val
        = .ok (.ok verdict) ∧ verdict.valid = true := by
  have hnone := validCount_false 4294967296
  have hn : (4294967296 : UInt64).toNat = 2 ^ 32 := rfl
  refine ⟨outcomes_constantly false _, by rw [hnone, hn]; omega, ?_⟩
  rcases val_thresholdVerify_of_lt isizeMax (constantly false) Keccak.shake256 4294967296
    4294967296 (fun _ => false) (by decide) (by decide) (outcomes_constantly false _)
    (by rw [hn]; decide) (by rw [hnone]; omega) with ⟨transcript, hrun⟩
  refine ⟨_, hrun, ?_⟩
  rw [decide_eq_true_eq, hn]
  exact Nat.zero_le _

/-! ### What the transcript binds -/

/-- The transcript of an iteration, if it has one. -/
def transcriptOf (verifyOnce : Nat → Hashing (Except VeilError Verdict)) (i : Nat) :
    Except VeilError (Block 32) :=
  (verifyOnce i).val.map Verdict.transcript

/-- The string squeezed at the end of a run. -/
def thresholdString (n m : UInt64) (ts : List (Block 32)) : Bytes :=
  thresholdHead ++ u64Bytes n.toNat ++ u64Bytes m.toNat ++ ts.zipIdx.flatMap thresholdEntry

theorem thresholdEntry_determines (a b : Block 32 × Nat) (u v : Bytes)
    (h : thresholdEntry a ++ u = thresholdEntry b ++ v) :
    thresholdEntry a = thresholdEntry b ∧ a.1 = b.1 := by
  have hentry : thresholdEntry a = thresholdEntry b :=
    (List.append_inj h (by rw [length_thresholdEntry, length_thresholdEntry])).1
  refine ⟨hentry, ?_⟩
  unfold thresholdEntry at hentry
  exact Block.toList_inj 32 a.1 b.1 (List.append_inj' hentry
    (by rw [Block.length_toList, Block.length_toList])).2

/-- The string shows both numbers and the transcripts in their order. -/
theorem thresholdString_inj (n m n' m' : UInt64) (ts ts' : List (Block 32))
    (h : thresholdString n m ts = thresholdString n' m' ts') : n = n' ∧ m = m' ∧ ts = ts' := by
  unfold thresholdString at h
  rw [List.append_assoc, List.append_assoc, List.append_assoc, List.append_assoc,
    List.append_cancel_left_eq] at h
  have hn := List.append_inj h (by rw [length_u64Bytes, length_u64Bytes])
  have hm := List.append_inj hn.2 (by rw [length_u64Bytes, length_u64Bytes])
  have hne : ∀ entry, thresholdEntry entry ≠ [] := by
    intro entry hnil
    have hlen := length_thresholdEntry entry
    rw [hnil, List.length_nil] at hlen
    omega
  have hmap := flatMap_determines thresholdEntry Prod.fst thresholdEntry_determines hne _ _ hm.2
  rw [List.zipIdx_map_fst, List.zipIdx_map_fst] at hmap
  exact ⟨UInt64.toNat_inj.mp (leBytes_inj 8 _ _ n.toNat_lt n'.toNat_lt hn.1),
    UInt64.toNat_inj.mp (leBytes_inj 8 _ _ m.toNat_lt m'.toNat_lt hm.1), hmap⟩

section

variable (room : Room) (verifyOnce : Nat → Hashing (Except VeilError Verdict))

/-- A loop that comes to its end has folded the transcript of every iteration. -/
theorem exists_of_collect (is : List Nat) (validChoices validChoices' : List Choice)
    (xof xof' : Shake256) (hxof : xof.buf.length ≤ room.bytes)
    (h : (collect room verifyOnce is validChoices xof).run.val = .ok (.ok (validChoices', xof'))) :
    ∃ ts : List (Block 32), is.map (transcriptOf verifyOnce) = ts.map .ok ∧
      xof'.buf = xof.buf ++ (ts.zip is).flatMap thresholdEntry := by
  induction is generalizing validChoices xof with
  | nil =>
      rw [collect, Checked.val_run_pure, Except.ok.injEq, Except.ok.injEq, Prod.mk.injEq] at h
      refine ⟨[], rfl, ?_⟩
      rw [List.zip_nil_left, List.flatMap_nil, List.append_nil, h.2]
  | cons i is ih =>
      rw [collect, Checked.val_run_bind, Checked.val_run_lift, Panic.ok_bind] at h
      cases hrun : (verifyOnce i).val with
      | error e =>
          rw [hrun] at h
          cases h
      | ok verdict =>
          rw [hrun] at h
          rcases Checked.exists_of_run_bind _ _ _ h with ⟨xof₁, hupdate, h⟩
          rw [Checked.val_run_of] at hupdate
          rcases Shake256.buf_of_updateAll room _ _ _ hxof hupdate with ⟨hbuf₁, hroom₁⟩
          rcases ih _ _ hroom₁ h with ⟨ts, hts, hbuf⟩
          refine ⟨verdict.transcript :: ts, ?_, ?_⟩
          · rw [List.map_cons, List.map_cons, hts, transcriptOf, hrun]
            rfl
          · rw [hbuf, hbuf₁, flatten_thresholdEntry, List.zip_cons_cons, List.flatMap_cons,
              List.append_assoc]

variable (X : Xof) (n m : UInt64) (verdict : Verdict)

/-- A verdict that is returned carries the digest of the run's string. -/
theorem exists_of_thresholdVerify
    (h : (thresholdVerify X room verifyOnce n m).run.val = .ok (.ok verdict)) :
    ∃ ts : List (Block 32), (List.range m.toNat).map (transcriptOf verifyOnce) = ts.map .ok ∧
      verdict.transcript = digest X 32 (thresholdString n m ts) ∧
      thresholdString n m ts ∈ (thresholdVerify X room verifyOnce n m).run.queries := by
  unfold thresholdVerify at h ⊢
  split at h
  · cases h
  rename_i hguard
  rw [if_neg hguard]
  rcases Checked.exists_of_run_bind _ _ _ h with ⟨_, hreserve, h⟩
  rw [Checked.queries_run_bind_of_ok _ _ _ hreserve]
  rcases Checked.exists_of_run_bind _ _ _ h with ⟨xof₀, hhead, h⟩
  rw [Checked.queries_run_bind_of_ok _ _ _ hhead]
  rw [Checked.val_run_of] at hhead
  rcases Shake256.buf_of_updateAll room _ _ _ (Nat.zero_le _) hhead with ⟨hbuf₀, hroom₀⟩
  rcases Checked.exists_of_run_bind _ _ _ h with ⟨collected, hcollect, h⟩
  rw [Checked.queries_run_bind_of_ok _ _ _ hcollect]
  cases collected with
  | error e => cases h
  | ok result =>
      rcases result with ⟨validChoices, xof⟩
      dsimp only at h ⊢
      rcases Checked.exists_of_run_bind _ _ _ h with ⟨count, hcount, h⟩
      rw [Checked.queries_run_bind_of_ok _ _ _ hcount]
      rcases Checked.exists_of_run_bind _ _ _ h with ⟨transcript, hsqueeze, h⟩
      rw [Checked.queries_run_bind_of_ok _ _ _ hsqueeze]
      rcases exists_of_collect room verifyOnce _ _ _ _ _ hroom₀ hcollect with ⟨ts, hts, hbuf⟩
      have hlen := congrArg List.length hts
      rw [List.length_map, List.length_map, List.length_range] at hlen
      have hstring : xof.buf = thresholdString n m ts := by
        rw [hbuf, hbuf₀, thresholdString, List.zipIdx_eq_zip_range', ← hlen,
          List.range_eq_range']
        simp only [Shake256.buf_new, List.flatten_cons, List.flatten_nil, List.append_nil,
          List.nil_append, List.append_assoc]
      refine ⟨ts, hts, ?_, ?_⟩
      · rw [Checked.val_run_lift, Shake256.val_squeeze, Except.ok.injEq, hstring] at hsqueeze
        rw [Checked.val_run_pure, Except.ok.injEq, Except.ok.injEq] at h
        rw [← h, hsqueeze]
        rfl
      · rw [Checked.queries_run_lift (xof.squeeze X 32), Shake256.queries_squeeze, hstring]
        simp only [List.mem_append, List.mem_singleton, true_or, or_true]

end

/-- Two runs that return a verdict return one transcript exactly if they were
    asked for the same numbers and their iterations have the same transcripts, in
    their order; apart from collisions, and whatever the bits of the iterations
    are. -/
theorem thresholdVerify_transcript_iff (X : Xof) (room : Room)
    (verifyOnce verifyOnce' : Nat → Hashing (Except VeilError Verdict)) (n m n' m' : UInt64)
    (verdict verdict' : Verdict)
    (h : (thresholdVerify X room verifyOnce n m).run.val = .ok (.ok verdict))
    (h' : (thresholdVerify X room verifyOnce' n' m').run.val = .ok (.ok verdict'))
    (hcf : CollisionFree (digest X 32) ((thresholdVerify X room verifyOnce n m).run.queries ++
      (thresholdVerify X room verifyOnce' n' m').run.queries)) :
    verdict.transcript = verdict'.transcript ↔
      n = n' ∧ m = m' ∧ ∀ i < m.toNat, transcriptOf verifyOnce i = transcriptOf verifyOnce' i := by
  rcases exists_of_thresholdVerify room verifyOnce X n m verdict h with ⟨ts, hts, htx, hmem⟩
  rcases exists_of_thresholdVerify room verifyOnce' X n' m' verdict' h' with
    ⟨ts', hts', htx', hmem'⟩
  rw [htx, htx']
  constructor
  · intro heq
    have hstring := hcf _ (List.mem_append_left _ hmem) _ (List.mem_append_right _ hmem') heq
    rcases thresholdString_inj n m n' m' ts ts' hstring with ⟨rfl, rfl, rfl⟩
    refine ⟨rfl, rfl, ?_⟩
    rw [← hts', List.map_inj_left] at hts
    exact fun i hi => hts i (List.mem_range.mpr hi)
  · rintro ⟨rfl, rfl, hsame⟩
    have hmaps : (List.range m.toNat).map (transcriptOf verifyOnce)
        = (List.range m.toNat).map (transcriptOf verifyOnce') :=
      List.map_congr_left (fun i hi => hsame i (List.mem_range.mp hi))
    rw [hts, hts'] at hmaps
    rw [List.map_injective_iff.mpr (fun _ _ => Except.ok.inj) hmaps]

/-- What two runs of the same iterations hash, with two digests for the two strings. -/
def thresholds : { asked : List Bytes // CollisionFree (digest Keccak.shake256 32) asked } :=
  ⟨(thresholdVerify Keccak.shake256 isizeMax (constantly true) 1 2).run.queries ++
    (thresholdVerify Keccak.shake256 isizeMax (constantly true) 2 2).run.queries, by decide +kernel⟩

/-- The same iterations under two thresholds, both met: two transcripts. -/
theorem thresholdVerify_transcript_iff_thresholds :
    ∃ verdict verdict',
      (thresholdVerify Keccak.shake256 isizeMax (constantly true) 1 2).run.val
        = .ok (.ok verdict) ∧
      (thresholdVerify Keccak.shake256 isizeMax (constantly true) 2 2).run.val
        = .ok (.ok verdict') ∧
      verdict.transcript ≠ verdict'.transcript := by
  rcases val_thresholdVerify_of_lt isizeMax (constantly true) Keccak.shake256 1 2 (fun _ => true)
    (by decide) (by decide) (outcomes_constantly true 2) (by decide) (by decide) with ⟨t, hrun⟩
  rcases val_thresholdVerify_of_lt isizeMax (constantly true) Keccak.shake256 2 2 (fun _ => true)
    (by decide) (by decide) (outcomes_constantly true 2) (by decide) (by decide) with ⟨t', hrun'⟩
  refine ⟨_, _, hrun, hrun', ?_⟩
  intro hsame
  have hnumbers := ((thresholdVerify_transcript_iff Keccak.shake256 isizeMax _ _ 1 2 2 2 _ _ hrun
    hrun' thresholds.2).mp hsame).1
  exact absurd hnumbers (by decide)

end Threshold

end Veil7
