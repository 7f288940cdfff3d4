import Veil7.Interface.ChainFiles

/-!
# Streamed Files

`attest_file_streaming_with_chunk_size` of `interface.rs`: a file read into one
buffer of a chosen size, each read folded into the event chain as it comes.

A read may return fewer bytes than the buffer holds; the file system decides.
Every read is one event, so the root depends on where the reads end and not only
on the file. `streamedRoot_eq_iff` says how far: two sequences of reads have one
root exactly if they agree once every read is cut at the step tags inside it,
which for a file without the tag means that they are the same reads.

The file system is a parameter: a file that opens comes with what its reads
return, in order, until the end of the file.

## Main definitions

* `absorbReads`: The loop over the reads.
* `streamedRoot`: The root that is attested.
* `attestFileStreamingWithChunkSize`: The attestation.
* `Delivers`: A sequence of reads that the standard library allows.

## Theorems

* `streamedRoot_delivers`: The root is that of the chain of reads.
* `streamedRoot_eq_iff`: When two sequences of reads have one root.
* `streamedRoot_short_read`: A short read, and another root.
-/

namespace Veil7

/-- The loop over the reads, each of which may fail; a read of nothing is the
    end of the file. -/
def absorbReads (state : Chain.ChainState) :
    List (Option Bytes) → Except VeilError Chain.ChainState
  | [] => .ok state
  | none :: _ => .error .crypto
  | some buf :: reads =>
    if buf = [] then .ok state
    else absorbReads (state.absorb buf) reads

section

variable (X : Xof) (L : Libcrux) (harvested : Except VeilError Seed) (chunkSize : Nat)

/-- The root of a file, given as the reads it answers, if it opens. -/
def streamedRoot (file : Option (List (Option Bytes))) : Hashing (Except VeilError (Block 32)) :=
  if chunkSize = 0 then pure (.error .crypto)
  else
    match file with
    | none => pure (.error .crypto)
    | some reads =>
      match absorbReads Chain.ChainState.new reads with
      | .error e => pure (.error e)
      | .ok state => state.finalize X

def attestFileStreamingWithChunkSize (file : Option (List (Option Bytes))) :
    Hashing (Except VeilError Verdict) := do
  match ← streamedRoot X chunkSize file with
  | .error e => pure (.error e)
  | .ok root => attestBytes X L harvested root.toList

def attestFileStreaming (file : Option (List (Option Bytes))) :
    Hashing (Except VeilError Verdict) :=
  attestFileStreamingWithChunkSize X L harvested fileChunk file

end

/-- Reads that deliver the contents: none is empty before the end of the file,
    and none is longer than the buffer. -/
structure Delivers (chunkSize : Nat) (contents : Bytes) (reads : List Bytes) : Prop where
  flatten : reads.flatten = contents
  bounds : ∀ buf ∈ reads, 1 ≤ buf.length ∧ buf.length ≤ chunkSize

/-- A file whose reads all succeed. -/
def answering (reads : List Bytes) : Option (List (Option Bytes)) := some (reads.map some)

theorem absorbReads_eq (state : Chain.ChainState) (reads : List Bytes)
    (h : ∀ buf ∈ reads, 1 ≤ buf.length) :
    absorbReads state (reads.map some) = .ok (reads.foldl Chain.ChainState.absorb state) := by
  induction reads generalizing state with
  | nil => rfl
  | cons buf reads ih =>
      have hbuf : buf ≠ [] := List.length_pos_iff.mp (h buf List.mem_cons_self)
      rw [List.map_cons, absorbReads, if_neg hbuf, List.foldl_cons]
      exact ih (state.absorb buf) (fun b hb => h b (List.mem_cons_of_mem buf hb))

/-- No contents, no reads. -/
theorem reads_eq_nil_iff (chunkSize : Nat) (contents : Bytes) (reads : List Bytes)
    (h : Delivers chunkSize contents reads) :
    reads = [] ↔ contents = [] := by
  constructor
  · intro hnil
    rw [← h.flatten, hnil, List.flatten_nil]
  · intro hnil
    cases reads with
    | nil => rfl
    | cons buf reads =>
        have hflat := h.flatten
        rw [hnil, List.flatten_cons, List.append_eq_nil_iff] at hflat
        have hlen := (h.bounds buf List.mem_cons_self).1
        rw [hflat.1, List.length_nil] at hlen
        omega

/-- Reads of a file without the step tag are free of it. -/
theorem pieces_of_delivers (chunkSize : Nat) (contents : Bytes) (reads : List Bytes)
    (h : Delivers chunkSize contents reads) (hclean : Clean Domain.chainStep contents) :
    pieces Domain.chainStep reads = reads := by
  refine pieces_of_clean _ _ Chain.chainStep_unbordered Chain.chainStep_ne_nil ?_
  intro buf hbuf hin
  have hpart : buf <:+: contents := h.flatten ▸ List.infix_of_mem_flatten hbuf
  exact hclean (hin.trans hpart)

/-- The root depends on the string absorbed alone. -/
theorem chainRoot_of_frame (X : Xof) (es es' : List Bytes) (hes : es ≠ []) (hes' : es' ≠ [])
    (h : Chain.chainFrame es = Chain.chainFrame es') :
    Chain.chainRoot X es = Chain.chainRoot X es' := by
  have hbuf := Chain.buf_absorbEvents_chainHead es
  rw [h, ← Chain.buf_absorbEvents_chainHead es'] at hbuf
  rw [Chain.chainRoot_of_ne_nil X es hes, Chain.chainRoot_of_ne_nil X es' hes']
  rw [show Chain.absorbEvents _ es = Chain.absorbEvents _ es' from congrArg Shake256.mk hbuf]

section

variable (X : Xof) (chunkSize : Nat) (hsize : 1 ≤ chunkSize) (contents : Bytes)

include hsize

/-- The root of delivered contents is that of the chain of the reads. -/
theorem streamedRoot_delivers (reads : List Bytes) (h : Delivers chunkSize contents reads) :
    streamedRoot X chunkSize (answering reads) = Chain.chainRoot X reads := by
  have habsorb := absorbReads_eq Chain.ChainState.new reads (fun buf hbuf => (h.bounds buf hbuf).1)
  unfold streamedRoot answering
  dsimp only
  rw [if_neg (by omega), habsorb]
  exact Chain.finalize_foldl_absorb X reads

/-- Two sequences of reads that deliver one file have one root, and are attested
    alike, exactly if they agree once every read is cut at the step tags inside
    it. For a file without the tag they are then the same reads. -/
theorem streamedRoot_eq_iff (reads reads' : List Bytes)
    (h : Delivers chunkSize contents reads) (h' : Delivers chunkSize contents reads') :
    (pieces Domain.chainStep reads = pieces Domain.chainStep reads' →
      streamedRoot X chunkSize (answering reads) = streamedRoot X chunkSize (answering reads') ∧
      ∀ L harvested, attestFileStreamingWithChunkSize X L harvested chunkSize (answering reads)
        = attestFileStreamingWithChunkSize X L harvested chunkSize (answering reads')) ∧
    (CollisionFree (digest X 32) [Chain.chainFrame reads, Chain.chainFrame reads'] →
      ((streamedRoot X chunkSize (answering reads)).val
          = (streamedRoot X chunkSize (answering reads')).val ↔
        pieces Domain.chainStep reads = pieces Domain.chainStep reads')) ∧
    (Clean Domain.chainStep contents →
      (pieces Domain.chainStep reads = pieces Domain.chainStep reads' ↔ reads = reads')) := by
  have hroot := streamedRoot_delivers X chunkSize hsize contents reads h
  have hroot' := streamedRoot_delivers X chunkSize hsize contents reads' h'
  have hempty := reads_eq_nil_iff chunkSize contents reads h
  have hempty' := reads_eq_nil_iff chunkSize contents reads' h'
  have hsame : pieces Domain.chainStep reads = pieces Domain.chainStep reads' →
      streamedRoot X chunkSize (answering reads) = streamedRoot X chunkSize (answering reads') := by
    intro hpieces
    rw [hroot, hroot']
    by_cases hnil : contents = []
    · rw [hempty.mpr hnil, hempty'.mpr hnil]
    · exact chainRoot_of_frame X reads reads' (fun hr => hnil (hempty.mp hr))
        (fun hr => hnil (hempty'.mp hr)) ((Chain.chainFrame_eq_iff reads reads').mpr hpieces)
  refine ⟨?_, ?_, ?_⟩
  · intro hpieces
    refine ⟨hsame hpieces, ?_⟩
    intro L harvested
    rw [attestFileStreamingWithChunkSize, hsame hpieces, attestFileStreamingWithChunkSize]
  · intro hcf
    refine ⟨?_, fun hpieces => congrArg Queried.val (hsame hpieces)⟩
    intro hval
    by_cases hnil : contents = []
    · rw [hempty.mpr hnil, hempty'.mpr hnil]
    · rw [hroot, hroot', Chain.val_chainRoot X reads (fun hr => hnil (hempty.mp hr)),
        Chain.val_chainRoot X reads' (fun hr => hnil (hempty'.mp hr)), Except.ok.injEq] at hval
      -- One root, so one string, so the same pieces.
      have hframe := CollisionFree.eq_of_pair _ _ _ hcf hval
      exact (Chain.chainFrame_eq_iff reads reads').mp hframe
  · intro hclean
    rw [pieces_of_delivers chunkSize contents reads h hclean,
      pieces_of_delivers chunkSize contents reads' h' hclean]

end

/-- A tag in the file that a read completes or begins. -/
theorem streamedRoot_eq_iff_tag :
    (streamedRoot Keccak.shake256 20 (answering [97 :: Domain.chainStep, [98]])).val
      = (streamedRoot Keccak.shake256 20 (answering [[97], Domain.chainStep ++ [98]])).val := by
  refine congrArg Queried.val ((streamedRoot_eq_iff Keccak.shake256 20 (by decide)
    (97 :: (Domain.chainStep ++ [98])) _ _ ⟨by decide, by decide⟩ ⟨by decide, by decide⟩).1 ?_).1
  rw [← Chain.chainFrame_eq_iff]
  decide

/-- The file `ab`, once read whole into a buffer of two bytes and once in two
    short reads: two roots. -/
theorem streamedRoot_short_read :
    Delivers 2 (ascii "ab") [ascii "ab"] ∧ Delivers 2 (ascii "ab") [ascii "a", ascii "b"] ∧
      (streamedRoot Keccak.shake256 2 (answering [ascii "ab"])).val
        ≠ (streamedRoot Keccak.shake256 2 (answering [ascii "a", ascii "b"])).val := by
  refine ⟨⟨by decide, by decide⟩, ⟨by decide, by decide⟩, ?_⟩
  rw [streamedRoot_delivers Keccak.shake256 2 (by decide) (ascii "ab") _ ⟨by decide, by decide⟩,
    streamedRoot_delivers Keccak.shake256 2 (by decide) (ascii "ab") _ ⟨by decide, by decide⟩,
    Chain.val_chainRoot _ _ (by decide), Chain.val_chainRoot _ _ (by decide), ne_eq,
    Except.ok.injEq]
  decide +kernel

end Veil7
