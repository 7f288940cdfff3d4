import Veil7.Chain
import Veil7.Pipeline.Batch
import Veil7.Relations.Merkle.Shape
import Veil7.Relations.Range.Model

/-!
# Domain Separation

The contract of `common/domain.rs`: every place that absorbs into SHAKE256
absorbs a tag first, so that two different steps never hash one string.

The tags keep it as far as tags can. None of them begins another
(`tags_incomparable`), so steps with different tags hash different strings
whatever follows. But two tags are used by more than one step. The tag of the
Lamport public nodes is also that of the commitment to the whole key, and there
the lengths differ: 32 bytes against a count and pairs of 32. The transcript
tag is that of `Verdict::new`, of `from_statement_digest` and of
`verdict_multi_source`, and nothing tells these apart: all three hash the tag
and 32 bytes, and what the third appends may be empty.

`steps_separated_iff` says that nothing else is shared.

## Main definitions

* `StepKind`: The hashing steps.
* `Step`: A step with its inputs.
* `Step.queries`: What the modelled functions hash for it.
* `Step.transcriptParts`: The bytes and the context under the transcript tag.

## Theorems

* `kind_eq_or_shared`: No tag begins another, and two are shared.
* `mem_queries`: A step hashes its tag and its body.
* `steps_separated_iff`: When two steps hash different strings.
* `verdict_steps_coincide`: Three steps that hash one string.
-/

namespace Veil7

namespace Separation

/-- The steps that hash. -/
inductive StepKind where
  | verdictNew
  | verdictFromStatementDigest
  | verdictMultiSource
  | verdictBlind
  | transcriptNew
  | transcriptAbsorb
  | challengeSqueeze
  | challengeFold
  | chainRoot
  | batchFold
  | leafHash
  | nodeHash
  | deriveSk
  | pubnode
  | pkCommitment
  | pedersenCommitment
  | rangeBitCommitment
deriving DecidableEq

/-- The tag a step absorbs first. -/
def StepKind.tag : StepKind → Bytes
  | .verdictNew => Domain.transcript
  | .verdictFromStatementDigest => Domain.transcript
  | .verdictMultiSource => Domain.transcript
  | .verdictBlind => Verdict.blindingTag
  | .transcriptNew => Domain.fsProtocol
  | .transcriptAbsorb => Domain.fsAbsorb
  | .challengeSqueeze => Domain.fsSqueeze
  | .challengeFold => Domain.fsPostChallenge
  | .chainRoot => Domain.chainHead
  | .batchFold => Domain.batchHead
  | .leafHash => Domain.merkleLeaf
  | .nodeHash => Domain.merkleNode
  | .deriveSk => Domain.lamportSecret
  | .pubnode => Domain.lamportPubnode
  | .pkCommitment => Domain.lamportPubnode
  | .pedersenCommitment => Domain.pedersenOpen
  | .rangeBitCommitment => Domain.rangeBit

/-- A step with its inputs. -/
inductive Step where
  | verdictNew (valid : Choice) (commitment : Block 32)
  | verdictFromStatementDigest (valid : Choice) (statementDigest : Block 32)
  | verdictMultiSource (verdict : Verdict) (additionalContext : Bytes)
  | verdictBlind (verdict : Verdict) (blinding : Block 32)
  | transcriptNew (protocolLabel : Bytes)
  | transcriptAbsorb (t : Transcript) (label data : Bytes)
  | challengeSqueeze (t : Transcript) (label : Bytes) (n : Nat)
  | challengeFold (t : Transcript) (label : Bytes) (n : Nat)
  | chainRoot (events : List Bytes)
  | batchFold (individualTranscripts : List (Block 32)) (expected : Block 32)
  | leafHash (data : Bytes)
  | nodeHash (left right : Block 32)
  | deriveSk (seed : Block 32) (i : Nat) (b : UInt8)
  | pubnode (sk : Block 32)
  | pkCommitment (stmt : HashPreimage.Statement)
  | pedersenCommitment (value blinding : Block 32)
  | rangeBitCommitment (bit : UInt8) (nonce : Block 32)

namespace Step

def kind : Step → StepKind
  | verdictNew _ _ => .verdictNew
  | verdictFromStatementDigest _ _ => .verdictFromStatementDigest
  | verdictMultiSource _ _ => .verdictMultiSource
  | verdictBlind _ _ => .verdictBlind
  | transcriptNew _ => .transcriptNew
  | transcriptAbsorb _ _ _ => .transcriptAbsorb
  | challengeSqueeze _ _ _ => .challengeSqueeze
  | challengeFold _ _ _ => .challengeFold
  | chainRoot _ => .chainRoot
  | batchFold _ _ => .batchFold
  | leafHash _ => .leafHash
  | nodeHash _ _ => .nodeHash
  | deriveSk _ _ _ => .deriveSk
  | pubnode _ => .pubnode
  | pkCommitment _ => .pkCommitment
  | pedersenCommitment _ _ => .pedersenCommitment
  | rangeBitCommitment _ _ => .rangeBitCommitment

section

variable (X : Xof)

/-- The strings that the function behind a step hashes. A challenge hashes two,
    the squeeze and then the fold; an empty chain or batch is refused and hashes
    none. -/
def queries : Step → List Bytes
  | verdictNew valid commitment => (Verdict.new X valid commitment).queries
  | verdictFromStatementDigest valid statementDigest =>
    (Verdict.fromStatementDigest X valid statementDigest).queries
  | verdictMultiSource verdict additionalContext =>
    (verdict.verdictMultiSource X additionalContext).queries
  | verdictBlind verdict blinding => (verdict.verdictBlind X blinding).queries
  | transcriptNew protocolLabel => (Transcript.new X protocolLabel).queries
  | transcriptAbsorb t label data => (t.absorb X label data).queries
  | challengeSqueeze t label n => (t.challenge X label n).queries.take 1
  | challengeFold t label n => (t.challenge X label n).queries.drop 1
  | chainRoot events => (Chain.chainRoot X events).queries
  | batchFold individualTranscripts expected =>
    (verifyBatchTranscripts X individualTranscripts expected).queries
  | leafHash data => (Merkle.leafHash X data).queries
  | nodeHash left right => (Merkle.nodeHash X left right).queries
  | deriveSk seed i b => (HashPreimage.deriveSk X seed i b).queries
  | pubnode sk => (HashPreimage.pubnode X sk).queries
  | pkCommitment stmt => (HashPreimage.pkCommitment X stmt).queries
  | pedersenCommitment value blinding => (Pedersen.computeCommitment X value blinding).queries
  | rangeBitCommitment bit nonce => (RangeProof.bitCommitment X bit nonce).queries

/-- What follows the tag. -/
def body : Step → Bytes
  | verdictNew _ commitment => commitment.toList
  | verdictFromStatementDigest _ statementDigest => statementDigest.toList
  | verdictMultiSource verdict additionalContext => verdict.transcript.toList ++ additionalContext
  | verdictBlind verdict blinding => verdict.transcript.toList ++ blinding.toList
  | transcriptNew protocolLabel => framed 8 protocolLabel
  | transcriptAbsorb t label data => t.state.toList ++ (framed 8 label ++ framed 8 data)
  | challengeSqueeze t label n => t.state.toList ++ (framed 8 label ++ u64Bytes n)
  | challengeFold t label n => t.state.toList ++ (framed 8 label ++
      framed 8 (digest X n (Transcript.squeezeString t.state label n)).toList)
  | chainRoot events => separated Domain.chainStep events
  | batchFold individualTranscripts _ => individualTranscripts.zipIdx.flatMap batchEntry
  | leafHash data => data
  | nodeHash left right => left.toList ++ right.toList
  | deriveSk seed i b => seed.toList ++ (leBytes 2 i ++ [b])
  | pubnode sk => sk.toList
  | pkCommitment stmt => u64Bytes stmt.pk.length ++
      stmt.pk.flatMap fun pair => pair.1.toList ++ pair.2.toList
  | pedersenCommitment value blinding => value.toList ++ blinding.toList
  | rangeBitCommitment bit nonce => (bit &&& 1) :: nonce.toList

end

/-- The 32 bytes and the context that a step hashes under the transcript tag. -/
def transcriptParts : Step → Option (Block 32 × Bytes)
  | verdictNew _ commitment => some (commitment, [])
  | verdictFromStatementDigest _ statementDigest => some (statementDigest, [])
  | verdictMultiSource verdict additionalContext => some (verdict.transcript, additionalContext)
  | _ => none

end Step

/-! ### Tags -/

def kinds : List StepKind :=
  [.verdictNew, .verdictFromStatementDigest, .verdictMultiSource, .verdictBlind, .transcriptNew,
    .transcriptAbsorb, .challengeSqueeze, .challengeFold, .chainRoot, .batchFold, .leafHash,
    .nodeHash, .deriveSk, .pubnode, .pkCommitment, .pedersenCommitment, .rangeBitCommitment]

/-- The steps under the transcript tag. -/
def transcriptKinds : List StepKind :=
  [.verdictNew, .verdictFromStatementDigest, .verdictMultiSource]

/-- The steps under the tag of Lamport's public nodes. -/
def lamportKinds : List StepKind := [.pubnode, .pkCommitment]

/-- Two different steps may share a tag. -/
def Shared (k k' : StepKind) : Prop :=
  (k ∈ transcriptKinds ∧ k' ∈ transcriptKinds) ∨ (k ∈ lamportKinds ∧ k' ∈ lamportKinds)

instance (k k' : StepKind) : Decidable (Shared k k') :=
  inferInstanceAs (Decidable (_ ∨ _))

theorem Shared.symm (k k' : StepKind) (h : Shared k k') : Shared k' k := by
  rcases h with h | h
  · exact Or.inl h.symm
  · exact Or.inr h.symm

theorem mem_kinds (k : StepKind) : k ∈ kinds := by
  cases k <;> simp [kinds]

/-- No tag begins another, and two are shared. -/
theorem tags_incomparable :
    ∀ k ∈ kinds, ∀ k' ∈ kinds, k.tag <+: k'.tag → k = k' ∨ Shared k k' := by
  decide +kernel

/-- Different steps without a shared tag differ in what they hash, whatever
    follows the tags. -/
theorem kind_eq_or_shared (k k' : StepKind) (u u' : Bytes) (h : k.tag ++ u = k'.tag ++ u') :
    k = k' ∨ Shared k k' := by
  -- Both tags begin the one string, so one of them begins the other.
  have hk : k.tag <+: k.tag ++ u := List.prefix_append _ _
  have hk' : k'.tag <+: k.tag ++ u := h ▸ List.prefix_append _ _
  rcases List.prefix_or_prefix_of_prefix hk hk' with hpre | hpre
  · exact tags_incomparable k (mem_kinds k) k' (mem_kinds k') hpre
  · rcases tags_incomparable k' (mem_kinds k') k (mem_kinds k) hpre with heq | hshared
    · exact Or.inl heq.symm
    · exact Or.inr (hshared.symm _ _)

/-- A step hashes its tag and its body, and nothing else. -/
theorem mem_queries (X : Xof) (a : Step) (s : Bytes) (h : s ∈ a.queries X) :
    s = a.kind.tag ++ a.body X := by
  cases a with
  | verdictNew valid commitment => exact List.mem_singleton.mp h
  | verdictFromStatementDigest valid statementDigest => exact List.mem_singleton.mp h
  | verdictMultiSource verdict additionalContext =>
      rw [Step.queries, Verdict.queries_verdictMultiSource, List.mem_singleton] at h
      rw [h, Verdict.transcriptString, List.append_assoc]
      rfl
  | verdictBlind verdict blinding =>
      rw [Step.queries, Verdict.queries_verdictBlind, List.mem_singleton] at h
      rw [h, List.append_assoc]
      rfl
  | transcriptNew protocolLabel =>
      rw [Step.queries, Transcript.queries_new, List.mem_singleton] at h
      rw [h]
      rfl
  | transcriptAbsorb t label data =>
      rw [Step.queries, Transcript.queries_absorb, List.mem_singleton] at h
      rw [h]
      rfl
  | challengeSqueeze t label n =>
      rw [Step.queries, Transcript.queries_challenge] at h
      rw [List.mem_singleton.mp h]
      rfl
  | challengeFold t label n =>
      rw [Step.queries, Transcript.queries_challenge] at h
      rw [List.mem_singleton.mp h]
      rfl
  | chainRoot events =>
      by_cases hnil : events = []
      · rw [hnil] at h
        exact absurd h List.not_mem_nil
      · rw [Step.queries, Chain.queries_chainRoot X events hnil, List.mem_singleton] at h
        exact h
  | batchFold individualTranscripts expected =>
      by_cases hnil : individualTranscripts = []
      · rw [hnil] at h
        exact absurd h List.not_mem_nil
      · rw [Step.queries, queries_verifyBatchTranscripts X _ expected hnil, List.mem_singleton] at h
        exact h
  | leafHash data =>
      rw [Step.queries, Merkle.queries_leafHash, List.mem_singleton] at h
      rw [h]
      rfl
  | nodeHash left right =>
      rw [Step.queries, Merkle.queries_nodeHash, List.mem_singleton] at h
      rw [h]
      rfl
  | deriveSk seed i b =>
      rw [Step.queries, HashPreimage.deriveSk, queries_h32, List.mem_singleton] at h
      rw [h]
      rfl
  | pubnode sk =>
      rw [Step.queries, HashPreimage.pubnode, queries_h32, List.mem_singleton] at h
      rw [h]
      simp only [List.flatten_cons, List.flatten_nil, List.append_nil]
      rfl
  | pkCommitment stmt =>
      rw [Step.queries, HashPreimage.queries_pkCommitment, List.mem_singleton] at h
      exact h
  | pedersenCommitment value blinding =>
      rw [Step.queries, Pedersen.computeCommitment, queries_h32, List.mem_singleton] at h
      rw [h]
      simp only [List.flatten_cons, List.flatten_nil, List.append_nil]
      rfl
  | rangeBitCommitment bit nonce =>
      rw [Step.queries, RangeProof.bitCommitment, queries_h32, List.mem_singleton] at h
      rw [h]
      simp only [List.flatten_cons, List.flatten_nil, List.append_nil]
      rfl

/-! ### Shared tags -/

/-- Under the transcript tag there are 32 bytes, and a context in one step. -/
theorem exists_transcriptParts (X : Xof) (a : Step) (h : a.kind ∈ transcriptKinds) :
    ∃ d context, a.transcriptParts = some (d, context) ∧
      a.queries X = [Domain.transcript ++ (d.toList ++ context)] ∧
      (a.kind ≠ .verdictMultiSource → context = []) := by
  cases a with
  | verdictNew valid commitment =>
      refine ⟨commitment, [], rfl, ?_, fun _ => rfl⟩
      rw [List.append_nil]
      rfl
  | verdictFromStatementDigest valid statementDigest =>
      refine ⟨statementDigest, [], rfl, ?_, fun _ => rfl⟩
      rw [List.append_nil]
      rfl
  | verdictMultiSource verdict additionalContext =>
      refine ⟨verdict.transcript, additionalContext, rfl, ?_, fun hne => absurd rfl hne⟩
      rw [Step.queries, Verdict.queries_verdictMultiSource, Verdict.transcriptString,
        List.append_assoc]
  | _ => simp [Step.kind, transcriptKinds] at h

theorem kind_mem_of_transcriptParts (a : Step) (h : a.transcriptParts ≠ none) :
    a.kind ∈ transcriptKinds := by
  cases a with
  | verdictNew _ _ => exact List.mem_cons_self
  | verdictFromStatementDigest _ _ => exact List.mem_cons_of_mem _ List.mem_cons_self
  | verdictMultiSource _ _ =>
      exact List.mem_cons_of_mem _ (List.mem_cons_of_mem _ List.mem_cons_self)
  | _ => exact absurd rfl h

/-- A public node hashes 32 bytes under its tag, a whole key never does. -/
theorem length_body_of_lamport (X : Xof) (a : Step) (h : a.kind ∈ lamportKinds) :
    (a.kind = .pubnode ∧ (a.body X).length % 64 = 32) ∨
      (a.kind = .pkCommitment ∧ (a.body X).length % 64 = 8) := by
  cases a with
  | pubnode sk =>
      refine Or.inl ⟨rfl, ?_⟩
      rw [Step.body, Block.length_toList]
  | pkCommitment stmt =>
      refine Or.inr ⟨rfl, ?_⟩
      have hpairs : (stmt.pk.flatMap fun pair => pair.1.toList ++ pair.2.toList).length
          = 64 * stmt.pk.length := by
        rw [List.length_flatMap]
        simp only [List.length_append, Block.length_toList, List.map_const', List.sum_replicate_nat]
        omega
      rw [Step.body, List.length_append, length_u64Bytes, hpairs]
      omega
  | _ => simp [Step.kind, lamportKinds] at h

/-- Two different steps hash different strings, unless both are under the
    transcript tag and hash the same 32 bytes, with nothing behind them. -/
theorem steps_separated_iff (X : Xof) (a b : Step) (hkind : a.kind ≠ b.kind) :
    (∀ s ∈ a.queries X, ∀ t ∈ b.queries X, s ≠ t) ↔
      ¬ ∃ d, a.transcriptParts = some (d, []) ∧ b.transcriptParts = some (d, []) := by
  constructor
  · rintro hsep ⟨d, ha, hb⟩
    -- Both hash the tag and these bytes.
    have hstring : ∀ c : Step, c.transcriptParts = some (d, []) →
        Domain.transcript ++ (d.toList ++ []) ∈ c.queries X := by
      intro c hc
      have hmem := kind_mem_of_transcriptParts c (by rw [hc]; exact Option.some_ne_none _)
      rcases exists_transcriptParts X c hmem with ⟨d', context, hparts, hqueries, -⟩
      rw [hparts, Option.some.injEq, Prod.mk.injEq] at hc
      rw [hqueries, hc.1, hc.2]
      exact List.mem_singleton_self _
    exact hsep _ (hstring a ha) _ (hstring b hb) rfl
  · intro hparts s hs t ht hst
    have hbodies := (mem_queries X a s hs).symm.trans (hst.trans (mem_queries X b t ht))
    rcases kind_eq_or_shared _ _ _ _ hbodies with heq | ⟨ha, hb⟩ | ⟨ha, hb⟩
    · exact hkind heq
    · -- The 32 bytes agree, and the step that appends a context appends none.
      rcases exists_transcriptParts X a ha with ⟨d, context, hpa, hqa, hca⟩
      rcases exists_transcriptParts X b hb with ⟨d', context', hpb, hqb, hcb⟩
      rw [hqa, List.mem_singleton] at hs
      rw [hqb, List.mem_singleton] at ht
      rw [hs, ht] at hst
      have hblocks := Block.toList_append_inj 32 _ _ _ _ (List.append_cancel_left hst)
      have hnil : context = [] := by
        by_cases hmulti : a.kind = .verdictMultiSource
        · rw [hblocks.2]
          exact hcb (by rw [← hmulti]; exact hkind.symm)
        · exact hca hmulti
      refine hparts ⟨d, ?_, ?_⟩
      · rw [hpa, hnil]
      · rw [hpb, ← hblocks.2, hnil, hblocks.1]
    · -- The Lamport tag is followed by strings of different lengths.
      rcases length_body_of_lamport X a ha with ⟨hka, hla⟩ | ⟨hka, hla⟩
      · rcases length_body_of_lamport X b hb with ⟨hkb, -⟩ | ⟨hkb, hlb⟩
        · exact hkind (hka.trans hkb.symm)
        · rw [hka, hkb] at hbodies
          have hbody : a.body X = b.body X := List.append_cancel_left hbodies
          rw [hbody] at hla
          omega
      · rcases length_body_of_lamport X b hb with ⟨hkb, hlb⟩ | ⟨hkb, -⟩
        · rw [hka, hkb] at hbodies
          have hbody : a.body X = b.body X := List.append_cancel_left hbodies
          rw [hbody] at hla
          omega
        · exact hkind (hka.trans hkb.symm)

/-- A node of a Lamport key and a whole key without pairs. -/
theorem steps_separated_lamport :
    Domain.lamportPubnode ++ (zeros 32).toList ≠ HashPreimage.pkString { pk := [] } := by
  refine (steps_separated_iff Keccak.shake256 (.pubnode (zeros 32))
    (.pkCommitment { pk := [] }) (by decide)).mpr ?_ _ ?_ _ ?_
  · rintro ⟨d, ha, -⟩
    cases ha
  · rw [Step.queries, HashPreimage.pubnode, queries_h32]
    exact List.mem_singleton_self _
  · rw [Step.queries, HashPreimage.queries_pkCommitment]
    exact List.mem_singleton_self _

/-- A verdict with a transcript of zeros. -/
def zeroVerdict : Verdict := { valid := true, transcript := zeros 32 }

/-- Three steps that hash one string, and return one verdict. -/
theorem verdict_steps_coincide :
    (Verdict.new Keccak.shake256 true (zeros 32)).queries
        = (Verdict.fromStatementDigest Keccak.shake256 true (zeros 32)).queries ∧
      (Verdict.new Keccak.shake256 true (zeros 32)).queries
        = (zeroVerdict.verdictMultiSource Keccak.shake256 []).queries ∧
      (Verdict.new Keccak.shake256 true (zeros 32)).val
        = (Verdict.fromStatementDigest Keccak.shake256 true (zeros 32)).val ∧
      (Verdict.new Keccak.shake256 true (zeros 32)).val
        = (zeroVerdict.verdictMultiSource Keccak.shake256 []).val := by
  refine ⟨rfl, ?_, rfl, ?_⟩
  · rw [Verdict.queries_new, Verdict.queries_verdictMultiSource, List.append_nil]
    rfl
  · rw [Verdict.val_new, Verdict.val_verdictMultiSource, List.append_nil]
    rfl

end Separation

end Veil7
