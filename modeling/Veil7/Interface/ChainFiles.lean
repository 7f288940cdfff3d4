import Veil7.Chain
import Veil7.Library.Records
import Veil7.Pipeline.Iteration

/-!
# Chained Files

`attest_chain_files` of `interface.rs`: several files in one chain. For every
file its path is absorbed, then its contents, 4096 bytes at a time; the chain's
root is attested.

The path is absorbed in order to bind the boundary between files. But it is
absorbed as contents are, as one more event, and no count or length is absorbed
with it. A chunk that is valid UTF-8 may be the path of a further, shorter file;
a path may be the last chunk of the file before it. `absorbed_determines_iff` is
the exact account: the events give the files back only where no chunk is text
and no path fits where it could be a chunk.

A read is assumed to fill the buffer as long as the file lasts. The file system
is a parameter: every path comes with the contents found there, if it can be
read.

## Main definitions

* `absorbContents`, `absorbFiles`: The loops over a file and over the files.
* `attestChainFiles`: The attestation of the chain's root.
* `absorbed`: The events absorbed, in order.
* `PathJoins`: A path may be taken for a chunk of the file before.

## Theorems

* `absorbFiles_readable`: The loops absorb paths and chunks in order.
* `attestChainFiles_readable`: What is attested is the root of these events.
* `absorbed_determines_iff`: The lists of files that the events determine.
* `absorbed_text_chunk`: One file and two with the same events.
-/

namespace Veil7

/-- `FILE_CHUNK`. -/
def fileChunk : Nat := 4096

/-- `as_bytes`. -/
def asBytes (text : String) : Bytes := text.toByteArray.data.toList

theorem fileChunk_pos : 0 < fileChunk := by decide

theorem asBytes_inj (s t : String) (h : asBytes s = asBytes t) : s = t := by
  rw [← String.toByteArray_inj]
  exact ByteArray.ext (Array.toList_inj.mp h)

section

variable {σ : Type} (absorb : σ → Bytes → σ)

/-- The chunks of an open file, until a read returns nothing. -/
def absorbContents (state : σ) (rest : Bytes) : σ :=
  let buf := rest.take fileChunk
  if buf = [] then state
  else absorbContents (absorb state buf) (rest.drop fileChunk)
termination_by rest.length
decreasing_by
  rename_i hread
  have hrest : rest ≠ [] := by
    rintro rfl
    exact hread List.take_nil
  have hpos := List.length_pos_iff.mpr hrest
  have hchunk := fileChunk_pos
  rw [List.length_drop]
  omega

/-- The path, and the contents if the file can be read. -/
def absorbFile (state : σ) (file : String × Option Bytes) : Except VeilError σ :=
  let state := absorb state (asBytes file.1)
  match file.2 with
  | none => .error .crypto
  | some contents => .ok (absorbContents absorb state contents)

def absorbFiles (state : σ) (files : List (String × Option Bytes)) : Except VeilError σ :=
  files.foldlM (absorbFile absorb) state

end

/-- Files that can be read, with their contents. -/
def readable (files : List (String × Bytes)) : List (String × Option Bytes) :=
  files.map fun file => (file.1, some file.2)

/-- The events a run absorbs, collected in order. -/
def absorbed (files : List (String × Option Bytes)) : Except VeilError (List Bytes) :=
  absorbFiles (fun events event => events ++ [event]) [] files

section

variable (X : Xof) (L : Libcrux) (harvested : Except VeilError Seed)

def attestBytes (bytes : Bytes) : Hashing (Except VeilError Verdict) :=
  verifyOnce X L harvested (Claim.new bytes)

def attestChainFiles (files : List (String × Option Bytes)) :
    Hashing (Except VeilError Verdict) :=
  if files.isEmpty then pure (.error .crypto)
  else
    match absorbFiles Chain.ChainState.absorb Chain.ChainState.new files with
    | .error e => pure (.error e)
    | .ok state => do
      match ← state.finalize X with
      | .error e => pure (.error e)
      | .ok root => attestBytes X L harvested root.toList

end

/-- The paths and chunks of readable files. -/
def fileEvents (files : List (String × Bytes)) : List Bytes :=
  files.flatMap fun file => asBytes file.1 :: Records.chunks fileChunk file.2

theorem absorbContents_eq {σ : Type} (absorb : σ → Bytes → σ) (state : σ) (contents : Bytes) :
    absorbContents absorb state contents
      = (Records.chunks fileChunk contents).foldl absorb state := by
  induction contents using Records.chunks_induction fileChunk fileChunk_pos generalizing state with
  | hnil =>
      rw [absorbContents, Records.chunks_nil]
      exact if_pos List.take_nil
  | hcut contents hne ih =>
      have hread : contents.take fileChunk ≠ [] := by
        intro hnil
        rcases List.take_eq_nil_iff.mp hnil with hzero | hnil
        · exact absurd hzero (Nat.ne_of_gt fileChunk_pos)
        · exact hne hnil
      rw [absorbContents, Records.chunks_of_ne_nil fileChunk fileChunk_pos contents hne,
        List.foldl_cons, if_neg hread, ih]

/-- Whatever they are absorbed into, paths and chunks are absorbed in order. -/
theorem absorbFiles_readable {σ : Type} (absorb : σ → Bytes → σ) (state : σ)
    (files : List (String × Bytes)) :
    absorbFiles absorb state (readable files) = .ok ((fileEvents files).foldl absorb state) := by
  induction files generalizing state with
  | nil => rfl
  | cons file files ih =>
      unfold absorbFiles readable at ih ⊢
      rw [List.map_cons, List.foldlM_cons]
      change (files.map fun file => (file.1, some file.2)).foldlM (absorbFile absorb)
        (absorbContents absorb (absorb state (asBytes file.1)) file.2) = _
      rw [absorbContents_eq, ih, fileEvents, fileEvents, List.flatMap_cons, List.foldl_append,
        List.foldl_cons]

theorem foldl_concat {α : Type} (l : List α) (acc : List α) :
    l.foldl (fun events event => events ++ [event]) acc = acc ++ l := by
  induction l generalizing acc with
  | nil => rw [List.foldl_nil, List.append_nil]
  | cons a l ih => rw [List.foldl_cons, ih, List.append_assoc, List.singleton_append]

theorem absorbed_readable (files : List (String × Bytes)) :
    absorbed (readable files) = .ok (fileEvents files) := by
  unfold absorbed
  rw [absorbFiles_readable, foldl_concat, List.nil_append]

/-- What is attested for readable files is the root of their events. -/
theorem attestChainFiles_readable (X : Xof) (L : Libcrux) (harvested : Except VeilError Seed)
    (files : List (String × Bytes)) :
    attestChainFiles X L harvested (readable files)
      = Chain.chainRoot X (fileEvents files) >>= fun result =>
          match result with
          | .error e => pure (.error e)
          | .ok root => attestBytes X L harvested root.toList := by
  cases files with
  | nil => rfl
  | cons file files =>
      unfold attestChainFiles
      rw [absorbFiles_readable, if_neg (by exact Bool.false_ne_true)]
      dsimp only
      rw [Chain.finalize_foldl_absorb]

/-! ### When the events give the files back -/

/-- The bytes of some string. -/
def IsText (bytes : Bytes) : Prop := ∃ text, asBytes text = bytes

/-- The second file's path, and its contents with it, may continue the first
    file: the first ends with a full chunk or is empty, and the path is as long
    as a chunk can be there. -/
def PathJoins (f g : String × Bytes) : Prop :=
  fileChunk ∣ f.2.length ∧ asBytes g.1 ≠ [] ∧ (asBytes g.1).length ≤ fileChunk ∧
    (g.2 = [] ∨ (asBytes g.1).length = fileChunk)

/-- A file as its path and its chunks. -/
def record (file : String × Bytes) : Bytes × List Bytes :=
  (asBytes file.1, Records.chunks fileChunk file.2)

theorem fileEvents_eq_flat (files : List (String × Bytes)) :
    fileEvents files = Records.flat (files.map record) := by
  unfold fileEvents Records.flat
  rw [List.flatMap_map]
  rfl

theorem valid_records (files : List (String × Bytes)) :
    Records.Valid IsText (Records.FullPiece fileChunk) (Records.SomePiece fileChunk)
      (files.map record) := by
  intro r hr
  rcases List.mem_map.mp hr with ⟨file, -, rfl⟩
  exact ⟨⟨file.1, rfl⟩, Records.body_chunks fileChunk fileChunk_pos file.2⟩

theorem record_inj (f g : String × Bytes) (h : record f = record g) : f = g := by
  have hpath := asBytes_inj f.1 g.1 (congrArg Prod.fst h)
  have hchunks := congrArg (fun r => r.2.flatten) h
  unfold record at hchunks
  dsimp only at hchunks
  rw [Records.flatten_chunks fileChunk fileChunk_pos,
    Records.flatten_chunks fileChunk fileChunk_pos] at hchunks
  exact Prod.ext hpath hchunks

/-- Records of the right kind are those of some files. -/
theorem exists_files (rs : List (Bytes × List Bytes))
    (hrs : Records.Valid IsText (Records.FullPiece fileChunk) (Records.SomePiece fileChunk) rs) :
    ∃ files : List (String × Bytes), files.map record = rs := by
  induction rs with
  | nil => exact ⟨[], rfl⟩
  | cons r rs ih =>
      rcases ih (fun s hs => hrs s (List.mem_cons_of_mem r hs)) with ⟨files, hfiles⟩
      rcases hrs r List.mem_cons_self with ⟨⟨path, hpath⟩, hbody⟩
      refine ⟨(path, r.2.flatten) :: files, ?_⟩
      rw [List.map_cons, hfiles, record, hpath,
        Records.chunks_flatten fileChunk fileChunk_pos r.2 hbody]

theorem joins_record_iff (f g : String × Bytes) :
    Records.Joins (Records.FullPiece fileChunk) (Records.SomePiece fileChunk) (record f) (record g)
      ↔ PathJoins f g := by
  unfold Records.Joins PathJoins record
  dsimp only
  rw [Records.chunks_full_iff fileChunk fileChunk_pos,
    Records.chunks_eq_nil_iff fileChunk fileChunk_pos, Records.SomePiece, Records.FullPiece,
    and_assoc]

/-- The events absorbed for a list of files are absorbed for no other list,
    exactly if no chunk of a file is text and no path may continue the file
    before it. -/
theorem absorbed_determines_iff (files : List (String × Bytes)) :
    (∀ files', absorbed (readable files) = absorbed (readable files') → files = files') ↔
      (∀ file ∈ files, ∀ chunk ∈ Records.chunks fileChunk file.2, ¬ IsText chunk) ∧
        files.IsChain fun f g => ¬ PathJoins f g := by
  have hiff := Records.flat_determines_iff (files.map record) (valid_records files)
  rw [List.forall_mem_map, List.isChain_map] at hiff
  simp only [joins_record_iff] at hiff
  refine Iff.trans ?_ hiff
  constructor
  · intro h rs' hrs' hflat
    rcases exists_files rs' hrs' with ⟨files', rfl⟩
    rw [← fileEvents_eq_flat, ← fileEvents_eq_flat] at hflat
    rw [h files' (by rw [absorbed_readable, absorbed_readable, hflat])]
  · intro h files' hevents
    rw [absorbed_readable, absorbed_readable, Except.ok.injEq, fileEvents_eq_flat,
      fileEvents_eq_flat] at hevents
    have hrecords := h (files'.map record) (valid_records files') hevents
    exact List.map_injective_iff.mpr record_inj hrecords

/-- A file that holds a name, and an empty file beside another of that name. -/
theorem absorbed_text_chunk :
    absorbed (readable [("a", asBytes "b")]) = absorbed (readable [("a", []), ("b", [])]) ∧
      [("a", asBytes "b")] ≠ [("a", []), ("b", [])] := by
  refine ⟨?_, ?_⟩
  · have hchunks : Records.chunks fileChunk (asBytes "b") = [asBytes "b"] := by
      rw [Records.chunks_of_ne_nil fileChunk fileChunk_pos _ (by decide)]
      exact congrArg (fun l => asBytes "b" :: l) (Records.chunks_nil fileChunk)
    rw [absorbed_readable, absorbed_readable]
    simp only [fileEvents, List.flatMap_cons, List.flatMap_nil, hchunks, Records.chunks_nil]
    rfl
  · intro h
    have hlen := congrArg List.length h
    cases hlen

end Veil7
