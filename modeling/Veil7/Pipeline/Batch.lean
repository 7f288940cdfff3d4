import Mathlib.Data.Set.List
import Veil7.Pipeline.Iteration

/-!
# Batches

`verify_batch` of `pipeline.rs` and `verify_batch_transcripts` of `audit.rs`.
The pipeline runs one iteration per claim, combines the bits and folds the
transcripts under their indices; an auditor who is given the transcripts
computes the fold again and compares.

The two folds are written twice in the source, and are here. Both absorb
`batchString`, whose entries have one size, so the string shows how many
transcripts there are, and which, in their order.

The iterations are a parameter, one outcome for every index and claim: every
one of them harvests its own entropy.

## Main definitions

* `verifyBatch`: The aggregated verdict over a list of claims.
* `verifyBatchTranscripts`: The auditor's check of a list of transcripts.
* `outcomes`: What the iterations of a batch return.
* `batchString`: The string both folds absorb.

## Theorems

* `val_verifyBatch`: The verdict of a batch, or the first error.
* `val_verifyBatchTranscripts`: The auditor compares with the same fold.
* `batchString_inj`: The fold determines the transcripts.
* `verifyBatch_agrees_with_audit`: The auditor accepts the batch's transcripts
  and no others.
-/

namespace Veil7

section

variable (verifyOnce : Nat → Claim → Hashing (Except VeilError Verdict))

/-- The loop over the claims, the next of which is the `i`-th. An error of an
    iteration ends it. -/
def batchLoop : Nat → List Claim → Choice → Shake256 →
    Hashing (Except VeilError (Choice × Shake256))
  | _, [], allValid, batchXof => pure (.ok (allValid, batchXof))
  | i, claim :: claims, allValid, batchXof => do
    match ← verifyOnce i claim with
    | .error e => pure (.error e)
    | .ok verdict =>
      let allValid := allValid && verdict.valid
      let batchXof := batchXof.update Domain.batchStep
      let batchXof := batchXof.update (u64Bytes i)
      let batchXof := batchXof.update verdict.transcript.toList
      batchLoop (i + 1) claims allValid batchXof

def verifyBatch (X : Xof) (claims : List Claim) : Hashing (Except VeilError Verdict) :=
  if claims.isEmpty then pure (.error .crypto)
  else do
    match ← batchLoop verifyOnce 0 claims true (Shake256.new.update Domain.batchHead) with
    | .error e => pure (.error e)
    | .ok (allValid, batchXof) =>
      let batchTranscript ← batchXof.squeeze X 32
      pure (.ok (Verdict.fromBatch allValid batchTranscript))

end

/-- The auditor's fold of the transcripts, compared with the batch's. -/
def verifyBatchTranscripts (X : Xof) (individualTranscripts : List (Block 32))
    (expectedBatchTranscript : Block 32) : Hashing Choice :=
  if individualTranscripts.isEmpty then pure false
  else do
    let xof := individualTranscripts.zipIdx.foldl
      (fun xof (t, i) =>
        ((xof.update Domain.batchStep).update (u64Bytes i)).update t.toList)
      (Shake256.new.update Domain.batchHead)
    let computed ← xof.squeeze X 32
    pure (decide (computed = expectedBatchTranscript))

/-! ### The string both folds absorb -/

/-- A transcript under its index. -/
def batchEntry (entry : Block 32 × Nat) : Bytes :=
  Domain.batchStep ++ u64Bytes entry.2 ++ entry.1.toList

/-- The string absorbed for a list of transcripts. -/
def batchString (ts : List (Block 32)) : Bytes :=
  Domain.batchHead ++ ts.zipIdx.flatMap batchEntry

theorem length_batchEntry (entry : Block 32 × Nat) : (batchEntry entry).length = 59 := by
  unfold batchEntry
  rw [List.length_append, List.length_append, length_u64Bytes, Block.length_toList]
  rfl

theorem batchEntry_determines (a b : Block 32 × Nat) (u v : Bytes)
    (h : batchEntry a ++ u = batchEntry b ++ v) :
    batchEntry a = batchEntry b ∧ a.1 = b.1 := by
  have hentry : batchEntry a = batchEntry b :=
    (List.append_inj h (by rw [length_batchEntry, length_batchEntry])).1
  refine ⟨hentry, ?_⟩
  unfold batchEntry at hentry
  exact Block.toList_inj 32 a.1 b.1 (List.append_inj' hentry
    (by rw [Block.length_toList, Block.length_toList])).2

/-- The string shows the transcripts in their order, and how many there are. -/
theorem batchString_inj (ts ts' : List (Block 32)) (h : batchString ts = batchString ts') :
    ts = ts' := by
  have hne : ∀ entry, batchEntry entry ≠ [] := by
    intro entry hnil
    have hlen := length_batchEntry entry
    rw [hnil, List.length_nil] at hlen
    omega
  have hmap := flatMap_determines batchEntry Prod.fst batchEntry_determines hne _ _
    (List.append_cancel_left h)
  rw [List.zipIdx_map_fst, List.zipIdx_map_fst] at hmap
  exact hmap

/-- Folding transcripts into a hasher appends their entries. -/
theorem buf_foldl_batch (entries : List (Block 32 × Nat)) (xof : Shake256) :
    (entries.foldl (fun xof (t, i) =>
        ((xof.update Domain.batchStep).update (u64Bytes i)).update t.toList) xof).buf
      = xof.buf ++ entries.flatMap batchEntry := by
  induction entries generalizing xof with
  | nil => rw [List.foldl_nil, List.flatMap_nil, List.append_nil]
  | cons entry entries ih =>
      rw [List.foldl_cons, ih, List.flatMap_cons]
      simp only [Shake256.buf_update, batchEntry, List.append_assoc]

/-- Of a list with transcripts, the auditor hashes the string and compares. -/
theorem verifyBatchTranscripts_of_ne_nil (X : Xof) (ts : List (Block 32)) (expected : Block 32)
    (h : ts ≠ []) :
    verifyBatchTranscripts X ts expected
      = ({ buf := batchString ts } : Shake256).squeeze X 32 >>= fun computed =>
        pure (decide (computed = expected)) := by
  have hbuf := buf_foldl_batch ts.zipIdx (Shake256.new.update Domain.batchHead)
  rw [Shake256.buf_update, Shake256.buf_new, List.nil_append] at hbuf
  unfold verifyBatchTranscripts
  rw [if_neg (by rw [List.isEmpty_iff]; exact h), batchString, ← hbuf]

/-- The auditor compares with the hash of the transcripts' string. -/
theorem val_verifyBatchTranscripts (X : Xof) (ts : List (Block 32)) (expected : Block 32) :
    (verifyBatchTranscripts X ts expected).val
      = decide (ts ≠ [] ∧ digest X 32 (batchString ts) = expected) := by
  by_cases hnil : ts = []
  · rw [hnil]
    rfl
  · rw [verifyBatchTranscripts_of_ne_nil X ts expected hnil, Queried.val_bind, Queried.val_pure,
      Shake256.val_squeeze]
    simp only [ne_eq, hnil, not_false_eq_true, true_and]

theorem queries_verifyBatchTranscripts (X : Xof) (ts : List (Block 32)) (expected : Block 32)
    (hne : ts ≠ []) : (verifyBatchTranscripts X ts expected).queries = [batchString ts] := by
  rw [verifyBatchTranscripts_of_ne_nil X ts expected hne, Queried.queries_bind,
    Queried.queries_pure, Shake256.queries_squeeze, List.append_nil]

/-! ### The fold of the pipeline -/

section

variable (verifyOnce : Nat → Claim → Hashing (Except VeilError Verdict))

/-- What the iterations return, the first of them the `i`-th. -/
def outcomes (i : Nat) (claims : List Claim) : List (Except VeilError Verdict) :=
  (claims.zipIdx i).map fun (claim, i) => (verifyOnce i claim).val

theorem outcomes_cons (i : Nat) (claim : Claim) (claims : List Claim) :
    outcomes verifyOnce i (claim :: claims)
      = (verifyOnce i claim).val :: outcomes verifyOnce (i + 1) claims := rfl

/-- Without an error the loop combines the bits and appends the entries. -/
theorem val_batchLoop_of_ok (i : Nat) (claims : List Claim) (allValid : Choice) (xof : Shake256)
    (verdicts : List Verdict) (h : outcomes verifyOnce i claims = verdicts.map .ok) :
    (batchLoop verifyOnce i claims allValid xof).val
      = .ok (allValid && verdicts.all Verdict.valid,
          {
            buf := xof.buf ++
              ((verdicts.map Verdict.transcript).zipIdx i).flatMap batchEntry }) := by
  induction claims generalizing i allValid xof verdicts with
  | nil =>
      have hnil : verdicts = [] := List.map_eq_nil_iff.mp h.symm
      rw [hnil, batchLoop, Queried.val_pure, List.all_nil, Bool.and_true, List.map_nil,
        List.zipIdx_nil, List.flatMap_nil, List.append_nil]
  | cons claim claims ih =>
      rw [outcomes_cons] at h
      cases verdicts with
      | nil => cases h
      | cons verdict verdicts =>
          rw [List.map_cons, List.cons.injEq] at h
          rw [batchLoop, Queried.val_bind, h.1]
          dsimp only
          rw [ih (i + 1) _ _ verdicts h.2]
          simp only [List.all_cons, Bool.and_assoc, List.map_cons, List.zipIdx_cons,
            List.flatMap_cons, Shake256.buf_update, batchEntry, List.append_assoc]

/-- An error of an iteration is an error of the loop. -/
theorem val_batchLoop_of_error (i : Nat) (claims : List Claim) (allValid : Choice) (xof : Shake256)
    (h : ∃ e, .error e ∈ outcomes verifyOnce i claims) :
    ∃ e, (batchLoop verifyOnce i claims allValid xof).val = .error e := by
  induction claims generalizing i allValid xof with
  | nil =>
      rcases h with ⟨e, he⟩
      exact absurd he List.not_mem_nil
  | cons claim claims ih =>
      rw [outcomes_cons] at h
      rcases h with ⟨e, he⟩
      rw [batchLoop, Queried.val_bind]
      cases hrun : (verifyOnce i claim).val with
      | error e' => exact ⟨e', rfl⟩
      | ok verdict =>
          dsimp only
          refine ih (i + 1) _ _ ⟨e, ?_⟩
          rw [hrun, List.mem_cons] at he
          rcases he with he | he
          · cases he
          · exact he

/-- Iterations without an error return verdicts. -/
theorem exists_verdicts (l : List (Except VeilError Verdict)) (h : ¬ ∃ e, .error e ∈ l) :
    ∃ verdicts : List Verdict, l = verdicts.map .ok := by
  have hrange : l ∈ Set.range (List.map Except.ok) := by
    rw [Set.range_list_map]
    intro r hr
    cases r with
    | error e => exact absurd ⟨e, hr⟩ h
    | ok verdict => exact ⟨verdict, rfl⟩
  rcases hrange with ⟨verdicts, hverdicts⟩
  exact ⟨verdicts, hverdicts.symm⟩

section

variable (X : Xof) (claims : List Claim)

/-- Of a list with claims, the batch's hash is squeezed after the loop. -/
theorem verifyBatch_of_ne_nil (h : claims ≠ []) :
    verifyBatch verifyOnce X claims
      = batchLoop verifyOnce 0 claims true (Shake256.new.update Domain.batchHead) >>= fun run =>
        match run with
        | .error e => pure (.error e)
        | .ok (allValid, batchXof) => batchXof.squeeze X 32 >>= fun batchTranscript =>
          pure (.ok (Verdict.fromBatch allValid batchTranscript)) := by
  unfold verifyBatch
  rw [if_neg (by rw [List.isEmpty_iff]; exact h)]

/-- The verdict of a batch whose iterations return verdicts. -/
theorem val_verifyBatch_of_ok (verdicts : List Verdict) (hne : claims ≠ [])
    (h : outcomes verifyOnce 0 claims = verdicts.map .ok) :
    (verifyBatch verifyOnce X claims).val
      = .ok {
          valid := verdicts.all Verdict.valid
          transcript := digest X 32 (batchString (verdicts.map Verdict.transcript)) } := by
  rw [verifyBatch_of_ne_nil verifyOnce X claims hne, Queried.val_bind,
    val_batchLoop_of_ok verifyOnce 0 claims _ _ verdicts h]
  rfl

/-- A batch fails if it is empty or an iteration fails. -/
theorem val_verifyBatch_of_error
    (h : claims = [] ∨ ∃ e, .error e ∈ outcomes verifyOnce 0 claims) :
    ∃ e, (verifyBatch verifyOnce X claims).val = .error e := by
  by_cases hnil : claims = []
  · rw [hnil]
    exact ⟨_, rfl⟩
  · have herror := h.resolve_left hnil
    rcases val_batchLoop_of_error verifyOnce 0 claims true
      (Shake256.new.update Domain.batchHead) herror with ⟨e, he⟩
    rw [verifyBatch_of_ne_nil verifyOnce X claims hnil, Queried.val_bind, he]
    exact ⟨e, rfl⟩

/-- A batch fails exactly if it is empty or an iteration fails. Otherwise its
    bit combines all bits, and the auditor accepts its transcript for the
    iterations' transcripts in order and for no other list. -/
theorem verifyBatch_agrees_with_audit :
    ((∃ e, (verifyBatch verifyOnce X claims).val = .error e) ↔
      claims = [] ∨ ∃ e, .error e ∈ outcomes verifyOnce 0 claims) ∧
    ∀ batch, (verifyBatch verifyOnce X claims).val = .ok batch →
      ∃ verdicts : List Verdict, outcomes verifyOnce 0 claims = verdicts.map .ok ∧
        (batch.valid = true ↔ ∀ verdict ∈ verdicts, verdict.valid = true) ∧
        (verifyBatchTranscripts X (verdicts.map Verdict.transcript) batch.transcript).val = true ∧
        ∀ ts', ts' ≠ verdicts.map Verdict.transcript →
          CollisionFree (digest X 32)
            [batchString (verdicts.map Verdict.transcript), batchString ts'] →
          (verifyBatchTranscripts X ts' batch.transcript).val = false := by
  have hok : ¬ (claims = [] ∨ ∃ e, .error e ∈ outcomes verifyOnce 0 claims) →
      claims ≠ [] ∧ ∃ verdicts : List Verdict,
        outcomes verifyOnce 0 claims = verdicts.map .ok := by
    intro h
    rw [not_or] at h
    exact ⟨h.1, exists_verdicts _ h.2⟩
  refine ⟨⟨?_, val_verifyBatch_of_error verifyOnce X claims⟩, ?_⟩
  · rintro ⟨e, he⟩
    by_contra hno
    rcases hok hno with ⟨hne, verdicts, hverdicts⟩
    rw [val_verifyBatch_of_ok verifyOnce X claims verdicts hne hverdicts] at he
    cases he
  · intro batch hbatch
    have hno : ¬ (claims = [] ∨ ∃ e, .error e ∈ outcomes verifyOnce 0 claims) := by
      intro h
      rcases val_verifyBatch_of_error verifyOnce X claims h with ⟨e, he⟩
      rw [he] at hbatch
      cases hbatch
    rcases hok hno with ⟨hne, verdicts, hverdicts⟩
    rw [val_verifyBatch_of_ok verifyOnce X claims verdicts hne hverdicts, Except.ok.injEq]
      at hbatch
    refine ⟨verdicts, hverdicts, ?_, ?_, ?_⟩
    · rw [← hbatch]
      exact List.all_eq_true
    · -- There is a transcript for every claim, and there are claims.
      have htsne : verdicts.map Verdict.transcript ≠ [] := by
        intro hnil
        rw [List.map_eq_nil_iff.mp hnil, List.map_nil] at hverdicts
        have hlen := congrArg List.length hverdicts
        rw [outcomes, List.length_map, List.length_zipIdx, List.length_nil] at hlen
        exact hne (List.length_eq_zero_iff.mp hlen)
      rw [val_verifyBatchTranscripts, ← hbatch]
      exact decide_eq_true ⟨htsne, rfl⟩
    · intro ts' hts' hcf
      rw [val_verifyBatchTranscripts, ← hbatch]
      refine decide_eq_false ?_
      rintro ⟨-, heq⟩
      -- Equal hashes are hashes of one string, which shows one list.
      have hstring := (CollisionFree.eq_of_pair _ _ _ hcf heq.symm).symm
      exact hts' (batchString_inj _ _ hstring)

end

end

/-- Two verdicts in the other order are another batch. -/
theorem verifyBatch_agrees_with_audit_two :
    (verifyBatchTranscripts Keccak.shake256 [List.Vector.replicate 32 1, zeros 32]
      (digest Keccak.shake256 32 (batchString [zeros 32, List.Vector.replicate 32 1]))).val
      = false := by
  let verdicts : List Verdict :=
    [⟨true, zeros 32⟩, ⟨true, List.Vector.replicate 32 1⟩]
  let run : Nat → Claim → Hashing (Except VeilError Verdict) := fun i _ =>
    pure (.ok (if i = 0 then ⟨true, zeros 32⟩ else ⟨true, List.Vector.replicate 32 1⟩))
  rcases (verifyBatch_agrees_with_audit run Keccak.shake256 [Claim.new [], Claim.new []]).2 _
    (val_verifyBatch_of_ok run Keccak.shake256 _ verdicts (List.cons_ne_nil _ _) rfl)
    with ⟨verdicts', hverdicts', -, -, hreject⟩
  have hsame : verdicts' = verdicts :=
    (List.map_injective_iff.mpr (fun _ _ h => Except.ok.inj h)) hverdicts'.symm
  rw [hsame] at hreject
  exact hreject [List.Vector.replicate 32 1, zeros 32] (by decide) (by decide +kernel)

end Veil7
