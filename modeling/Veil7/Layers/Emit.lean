import Veil7.Core.Shake256

/-!
# Traceless Emission

The verdict of `l7_emit.rs`: one bit and a 32-byte transcript hash, with its
three constructors: for a commitment, for a statement digest, and for a
transcript that has been folded already. Two functions derive a verdict from
another one and keep its bit. The compiler fences have no counterpart.

## Main definitions

* `Verdict`: The validity bit and the transcript.
* `Verdict.new`: The verdict bound to a commitment.
* `Verdict.fromStatementDigest`: The verdict bound to a statement digest.
* `Verdict.fromBatch`: The verdict over a folded transcript.
* `Verdict.verdictMultiSource`, `Verdict.verdictBlind`: The verdicts derived from another.
-/

namespace Veil7

structure Verdict where
  valid : Choice
  transcript : Block 32
deriving DecidableEq

namespace Verdict

/-- The tag of blinded transcripts, spelled out where it is used. -/
def blindingTag : Bytes := ascii "veil7:L7:blinding:v1"

/-- The string hashed into the transcript of a statement digest. -/
def transcriptString (statementDigest : Block 32) : Bytes :=
  Domain.transcript ++ statementDigest.toList

/-- The verdict of an iteration, bound to its commitment. -/
def new (X : Xof) (valid : Choice) (commitment : Block 32) : Hashing Verdict := do
  let xof := (Shake256.new.update Domain.transcript).update commitment.toList
  let transcript ← xof.squeeze X 32
  pure { valid := valid, transcript := transcript }

/-- A verdict from an aggregated bit and a transcript computed before. -/
def fromBatch (valid : Choice) (batchTranscript : Block 32) : Verdict :=
  { valid := valid, transcript := batchTranscript }

/-- A verdict bound to an arbitrary 32-byte statement digest. -/
def fromStatementDigest (X : Xof) (valid : Choice) (statementDigest : Block 32) :
    Hashing Verdict := do
  let xof := (Shake256.new.update Domain.transcript).update statementDigest.toList
  let transcript ← xof.squeeze X 32
  pure { valid := valid, transcript := transcript }

theorem val_fromStatementDigest (X : Xof) (valid : Choice) (d : Block 32) :
    (fromStatementDigest X valid d).val
      = { valid := valid, transcript := digest X 32 (transcriptString d) } := rfl

theorem val_new (X : Xof) (valid : Choice) (commitment : Block 32) :
    (new X valid commitment).val
      = { valid := valid, transcript := digest X 32 (transcriptString commitment) } := rfl

theorem queries_new (X : Xof) (valid : Choice) (commitment : Block 32) :
    (new X valid commitment).queries = [transcriptString commitment] := rfl

/-- A verdict bound to a second context besides its transcript. -/
def verdictMultiSource (X : Xof) (verdict : Verdict) (additionalContext : Bytes) :
    Hashing Verdict := do
  let xof := (Shake256.new.update Domain.transcript).update verdict.transcript.toList
  let newTranscript ← (xof.update additionalContext).squeeze X 32
  pure { valid := verdict.valid, transcript := newTranscript }

/-- A verdict with a blinded transcript. -/
def verdictBlind (X : Xof) (verdict : Verdict) (blinding : Block 32) : Hashing Verdict := do
  let xof := (Shake256.new.update blindingTag).update verdict.transcript.toList
  let newTranscript ← (xof.update blinding.toList).squeeze X 32
  pure { valid := verdict.valid, transcript := newTranscript }

theorem queries_verdictMultiSource (X : Xof) (verdict : Verdict) (additionalContext : Bytes) :
    (verdictMultiSource X verdict additionalContext).queries
      = [transcriptString verdict.transcript ++ additionalContext] := rfl

theorem val_verdictMultiSource (X : Xof) (verdict : Verdict) (additionalContext : Bytes) :
    (verdictMultiSource X verdict additionalContext).val = {
      valid := verdict.valid
      transcript := digest X 32 (transcriptString verdict.transcript ++ additionalContext) } := rfl

theorem queries_verdictBlind (X : Xof) (verdict : Verdict) (blinding : Block 32) :
    (verdictBlind X verdict blinding).queries
      = [blindingTag ++ verdict.transcript.toList ++ blinding.toList] := rfl

theorem transcriptString_inj (d d' : Block 32) (h : transcriptString d = transcriptString d') :
    d = d' :=
  Block.toList_inj 32 d d' (List.append_cancel_left h)

end Verdict

end Veil7
