import Veil7.Interface.Streaming
import Veil7.Relations.Merkle.Soundness

/-!
# Files in a Merkle Tree

`attest_file_merkle` of `interface.rs`: every file is hashed as an event chain of
its reads, the digests are the leaves of a Merkle tree, and the root is
attested.

Beside `attest_chain_files` this binds the files as it should. A chain of files
puts paths and chunks side by side and cannot tell them apart; here every file
has a digest of its own, and within a file nothing but chunks is absorbed, all
of one size but the last, so the tag may stand anywhere in them
(`fileMerkleRoot_eq_iff`). What it does not bind are the paths, which are only
opened, and it has no root for a set with an empty file, since a chain without
events has none.

An auditor who holds one file and the attested root checks a path to the name
of the file's leaf. That name is the root of the file alone
(`fileIncluded_iff`).

A file is given as in the streamed attestation, by what its reads return. In
what is proved a read fills the buffer as long as the file lasts.

## Main definitions

* `fileHash`, `fileHashes`: The digest of a file, and the loop over the files.
* `fileMerkleRoot`: The root that is attested.
* `attestFileMerkle`: The attestation.
* `filled`: Files whose reads fill the buffer.

## Theorems

* `val_fileHashes`: Which files have digests, and what they are.
* `fileMerkleRoot_eq_iff`: The root determines the contents, and nothing else.
* `fileIncluded_iff`: What a path to a position authenticates.
-/

namespace Veil7

open Merkle

section

variable (X : Xof) (L : Libcrux) (harvested : Except VeilError Seed)

/-- The root of the chain of a file's reads, if it opens. -/
def fileHash (file : Option (List (Option Bytes))) : Hashing (Except VeilError Digest) :=
  match file with
  | none => pure (.error .crypto)
  | some reads =>
    match absorbReads Chain.ChainState.new reads with
    | .error e => pure (.error e)
    | .ok state => state.finalize X

/-- The digests of the files at some paths; the first failure ends the loop. -/
def fileHashes : List (String × Option (List (Option Bytes))) → List Digest →
    Hashing (Except VeilError (List Digest))
  | [], hashes => pure (.ok hashes)
  | file :: files, hashes => do
    match ← fileHash X file.2 with
    | .error e => pure (.error e)
    | .ok hash => fileHashes files (hashes ++ [hash])

def fileMerkleRoot (files : List (String × Option (List (Option Bytes)))) :
    Hashing (Except VeilError Digest) :=
  if files.isEmpty then pure (.error .crypto)
  else do
    match ← fileHashes X files [] with
    | .error e => pure (.error e)
    | .ok hashes => merkleRoot X (hashes.map fun hash => hash.toList)

def attestFileMerkle (files : List (String × Option (List (Option Bytes)))) :
    Hashing (Except VeilError Verdict) := do
  match ← fileMerkleRoot X files with
  | .error e => pure (.error e)
  | .ok root => attestBytes X L harvested root.toList

end

/-- Files that open, each read filling the buffer as long as the file lasts. -/
def filled (files : List (String × Bytes)) : List (String × Option (List (Option Bytes))) :=
  files.map fun file => (file.1, answering (Records.chunks fileChunk file.2))

/-- The string hashed for a file. -/
def fileString (contents : Bytes) : Bytes :=
  Chain.chainFrame (Records.chunks fileChunk contents)

/-- Whatever is in a file, its string belongs to no other contents. -/
theorem fileString_inj (c c' : Bytes) (h : fileString c = fileString c') : c = c' :=
  Records.separated_chunks_inj fileChunk fileChunk_pos Domain.chainStep c c'
    (List.append_cancel_left h)

section

variable (X : Xof)

/-- The digest of a file's contents. -/
def fileDigest (contents : Bytes) : Digest := digest X 32 (fileString contents)

theorem fileHash_filled (contents : Bytes) :
    fileHash X (answering (Records.chunks fileChunk contents))
      = Chain.chainRoot X (Records.chunks fileChunk contents) := by
  have hpiece := (Records.body_chunks fileChunk fileChunk_pos contents).piece
  have habsorb := absorbReads_eq Chain.ChainState.new (Records.chunks fileChunk contents)
    (fun buf hbuf => List.length_pos_iff.mpr (hpiece buf hbuf).1)
  change (match absorbReads Chain.ChainState.new _ with
    | Except.error e => pure (Except.error e)
    | Except.ok state => state.finalize X) = _
  rw [habsorb]
  exact Chain.finalize_foldl_absorb X _

theorem fileHash_nil : fileHash X (answering (Records.chunks fileChunk [])) = pure (.error .crypto)
    := by
  rw [fileHash_filled, Records.chunks_nil]
  rfl

theorem val_fileHash (contents : Bytes) (h : contents ≠ []) :
    (fileHash X (answering (Records.chunks fileChunk contents))).val
      = .ok (fileDigest X contents) := by
  rw [fileHash_filled, Chain.val_chainRoot]
  · rfl
  · rw [ne_eq, Records.chunks_eq_nil_iff fileChunk fileChunk_pos]
    exact h

theorem queries_fileHash (contents : Bytes) (h : contents ≠ []) :
    (fileHash X (answering (Records.chunks fileChunk contents))).queries
      = [fileString contents] := by
  rw [fileHash_filled, Chain.queries_chainRoot]
  · rfl
  · rw [ne_eq, Records.chunks_eq_nil_iff fileChunk fileChunk_pos]
    exact h

theorem filled_cons (file : String × Bytes) (files : List (String × Bytes)) :
    filled (file :: files)
      = (file.1, answering (Records.chunks fileChunk file.2)) :: filled files :=
  rfl

theorem isEmpty_filled (files : List (String × Bytes)) :
    (filled files).isEmpty = files.isEmpty := by
  cases files with
  | nil => rfl
  | cons file files => rfl

theorem fileHashes_cons (file : String × Option (List (Option Bytes)))
    (files : List (String × Option (List (Option Bytes)))) (hashes : List Digest) :
    fileHashes X (file :: files) hashes = (do
      match ← fileHash X file.2 with
      | .error e => pure (.error e)
      | .ok hash => fileHashes X files (hashes ++ [hash])) :=
  rfl

/-- A file with a digest adds it, and the loop goes on. -/
theorem fileHashes_step (file : String × Bytes) (files : List (String × Bytes))
    (hashes : List Digest) (h : file.2 ≠ []) :
    (fileHashes X (filled (file :: files)) hashes).val
        = (fileHashes X (filled files) (hashes ++ [fileDigest X file.2])).val ∧
      (fileHashes X (filled (file :: files)) hashes).queries
        = fileString file.2
          :: (fileHashes X (filled files) (hashes ++ [fileDigest X file.2])).queries := by
  rw [filled_cons, fileHashes_cons, Queried.val_bind, Queried.queries_bind,
    val_fileHash X file.2 h, queries_fileHash X file.2 h]
  exact ⟨rfl, rfl⟩

/-- An empty file ends the loop. -/
theorem fileHashes_stop (file : String × Bytes) (files : List (String × Bytes))
    (hashes : List Digest) (h : file.2 = []) :
    (fileHashes X (filled (file :: files)) hashes).val = .error .crypto := by
  rw [filled_cons, fileHashes_cons, h, fileHash_nil]
  rfl

/-- The loop over files of which none is empty. -/
theorem val_fileHashes (files : List (String × Bytes)) (hashes : List Digest)
    (h : ∀ file ∈ files, file.2 ≠ []) :
    (fileHashes X (filled files) hashes).val
      = .ok (hashes ++ files.map fun file => fileDigest X file.2) := by
  induction files generalizing hashes with
  | nil =>
      rw [List.map_nil, List.append_nil]
      rfl
  | cons file files ih =>
      rw [(fileHashes_step X file files hashes (h file List.mem_cons_self)).1,
        ih _ (fun g hg => h g (List.mem_cons_of_mem file hg)), List.append_assoc, List.map_cons,
        List.singleton_append]

theorem queries_fileHashes (files : List (String × Bytes)) (hashes : List Digest)
    (h : ∀ file ∈ files, file.2 ≠ []) :
    (fileHashes X (filled files) hashes).queries = files.map fun file => fileString file.2 := by
  induction files generalizing hashes with
  | nil => rfl
  | cons file files ih =>
      rw [(fileHashes_step X file files hashes (h file List.mem_cons_self)).2,
        ih _ (fun g hg => h g (List.mem_cons_of_mem file hg)), List.map_cons]

/-- An empty file anywhere among them, and there is no root. -/
theorem val_fileHashes_of_empty (files : List (String × Bytes)) (hashes : List Digest)
    (h : ∃ file ∈ files, file.2 = []) :
    (fileHashes X (filled files) hashes).val = .error .crypto := by
  induction files generalizing hashes with
  | nil =>
      rcases h with ⟨file, hfile, -⟩
      exact absurd hfile List.not_mem_nil
  | cons file files ih =>
      by_cases hne : file.2 = []
      · exact fileHashes_stop X file files hashes hne
      · rw [(fileHashes_step X file files hashes hne).1]
        refine ih _ ?_
        rcases h with ⟨g, hg, hempty⟩
        rcases List.mem_cons.mp hg with rfl | hg
        · exact absurd hempty hne
        · exact ⟨g, hg, hempty⟩

/-- Only the contents of the files are read, not their paths. -/
theorem fileHashes_congr (files files' : List (String × Bytes)) (hashes : List Digest)
    (h : files.map Prod.snd = files'.map Prod.snd) :
    fileHashes X (filled files) hashes = fileHashes X (filled files') hashes := by
  induction files generalizing files' hashes with
  | nil => rw [List.map_eq_nil_iff.mp h.symm]
  | cons file files ih =>
      cases files' with
      | nil => cases h
      | cons file' files' =>
          rw [List.map_cons, List.map_cons, List.cons.injEq] at h
          rw [filled_cons, filled_cons, fileHashes_cons, fileHashes_cons, h.1]
          congr 1
          funext result
          cases result with
          | error e => rfl
          | ok hash => exact ih files' (hashes ++ [hash]) h.2

/-- The leaves of the tree. -/
def fileLeaves (files : List (String × Bytes)) : List Bytes :=
  files.map fun file => (fileDigest X file.2).toList

theorem fileLeaves_ne_nil (files : List (String × Bytes)) (h : files ≠ []) :
    fileLeaves X files ≠ [] :=
  mt List.map_eq_nil_iff.mp h

theorem length_fileLeaves (files : List (String × Bytes)) :
    (fileLeaves X files).length = files.length :=
  List.length_map _

theorem getElem?_fileLeaves (files : List (String × Bytes)) (i : Nat) (hi : i < files.length) :
    (fileLeaves X files)[i]? = some (fileDigest X files[i].2).toList :=
  List.getElem?_map.trans (congrArg _ (List.getElem?_eq_getElem hi))

/-- The root of any files at all: their digests, then the tree over them. -/
theorem fileMerkleRoot_of_ne_nil (files : List (String × Bytes)) (h : files ≠ []) :
    fileMerkleRoot X (filled files) = (do
      match ← fileHashes X (filled files) [] with
      | .error e => pure (.error e)
      | .ok hashes => merkleRoot X (hashes.map fun hash => hash.toList)) := by
  refine if_neg ?_
  rw [isEmpty_filled, List.isEmpty_iff]
  exact h

/-- The root of files that all have a digest: the files hashed, then the tree. -/
theorem fileMerkleRoot_filled (files : List (String × Bytes)) (hne : files ≠ [])
    (h : ∀ file ∈ files, file.2 ≠ []) :
    (fileMerkleRoot X (filled files)).val = (merkleRoot X (fileLeaves X files)).val ∧
      (fileMerkleRoot X (filled files)).queries
        = (files.map fun file => fileString file.2)
          ++ (merkleRoot X (fileLeaves X files)).queries := by
  have hval := val_fileHashes X files [] h
  have hleaves : (([] : List Digest) ++ files.map fun file => fileDigest X file.2).map
      (fun (hash : Digest) => hash.toList) = fileLeaves X files := by
    rw [List.nil_append, List.map_map]
    rfl
  rw [fileMerkleRoot_of_ne_nil X files hne]
  refine ⟨?_, ?_⟩
  · rw [Queried.val_bind, hval]
    dsimp only
    rw [hleaves]
  · rw [Queried.queries_bind, hval, queries_fileHashes X files [] h]
    dsimp only
    rw [hleaves]

/-- Every file is hashed, and so is its digest as a leaf. -/
theorem mem_queries_fileMerkleRoot (files : List (String × Bytes)) (hne : files ≠ [])
    (h : ∀ file ∈ files, file.2 ≠ []) (file : String × Bytes) (hfile : file ∈ files) :
    fileString file.2 ∈ (fileMerkleRoot X (filled files)).queries ∧
      leafString (fileDigest X file.2).toList ∈ (fileMerkleRoot X (filled files)).queries := by
  rcases exists_treeOf _ (fileLeaves_ne_nil X files hne) with ⟨t, ht⟩
  have hask := queries_subset_merkleRoot X _ t (fileLeaves_ne_nil X files hne) ht
  rw [(fileMerkleRoot_filled X files hne h).2]
  exact ⟨List.mem_append_left _ (List.mem_map.mpr ⟨file, hfile, rfl⟩),
    List.mem_append_right _ (hask.1 (List.mem_map_of_mem (List.mem_map.mpr ⟨file, hfile, rfl⟩)))⟩

/-- Exactly the lists of files of which none is empty have a root. -/
theorem exists_fileMerkleRoot_iff (files : List (String × Bytes)) :
    (∃ root, (fileMerkleRoot X (filled files)).val = .ok root) ↔
      files ≠ [] ∧ ∀ file ∈ files, file.2 ≠ [] := by
  constructor
  · rintro ⟨root, hroot⟩
    by_cases hne : files = []
    · rw [hne] at hroot
      cases hroot
    refine ⟨hne, ?_⟩
    intro file hfile hempty
    rw [fileMerkleRoot_of_ne_nil X files hne, Queried.val_bind,
      val_fileHashes_of_empty X files [] ⟨file, hfile, hempty⟩] at hroot
    cases hroot
  · rintro ⟨hne, h⟩
    rcases exists_treeOf _ (fileLeaves_ne_nil X files hne) with ⟨t, ht⟩
    rw [(fileMerkleRoot_filled X files hne h).1]
    exact ⟨_, val_merkleRoot X _ t (fileLeaves_ne_nil X files hne) ht⟩

/-- The same digests come from the same contents. -/
theorem eq_of_fileLeaves (files files' : List (String × Bytes)) (qs : List Bytes)
    (hcf : CollisionFree (digest X 32) qs)
    (hsub : (files.map fun file => fileString file.2) ⊆ qs)
    (hsub' : (files'.map fun file => fileString file.2) ⊆ qs)
    (h : fileLeaves X files = fileLeaves X files') : files.map Prod.snd = files'.map Prod.snd := by
  have hleaves : ∀ files : List (String × Bytes), fileLeaves X files
      = ((files.map fun file => fileString file.2).map (digest X 32)).map
        fun (hash : Digest) => hash.toList := by
    intro files
    rw [List.map_map, List.map_map]
    rfl
  have hstrings : ∀ files : List (String × Bytes),
      (files.map fun file => fileString file.2) = (files.map Prod.snd).map fileString := by
    intro files
    rw [List.map_map]
    rfl
  rw [hleaves, hleaves] at h
  have hdigests := List.map_injective_iff.mpr (fun a b => Block.toList_inj 32 a b) h
  have hsame := CollisionFree.eq_of_map _ _ _
    (hcf.mono _ _ _ (List.append_subset.mpr ⟨hsub, hsub'⟩)) hdigests
  rw [hstrings, hstrings] at hsame
  exact List.map_injective_iff.mpr (fun a b => fileString_inj a b) hsame

/-- Two trees with one name have the same leaves. -/
theorem fileLeaves_of_root (ls ls' : List Bytes) (root : Digest) (qs : List Bytes)
    (hls : ls ≠ []) (hls' : ls' ≠ []) (hcf : CollisionFree (digest X 32) qs)
    (hsub : (merkleRoot X ls).queries ⊆ qs) (hsub' : (merkleRoot X ls').queries ⊆ qs)
    (h : (merkleRoot X ls).val = .ok root) (h' : (merkleRoot X ls').val = .ok root) :
    ls = ls' := by
  rcases exists_treeOf ls hls with ⟨t, ht⟩
  rcases exists_treeOf ls' hls' with ⟨t', ht'⟩
  rw [val_merkleRoot X ls t hls ht, Except.ok.injEq] at h
  rw [val_merkleRoot X ls' t' hls' ht', Except.ok.injEq] at h'
  have hask := queries_subset_merkleRoot X ls t hls ht
  have hask' := queries_subset_merkleRoot X ls' t' hls' ht'
  have hnames : (ls ++ ls').map leafString ⊆ qs := by
    rw [List.map_append]
    exact List.append_subset.mpr
      ⟨List.Subset.trans hask.1 hsub, List.Subset.trans hask'.1 hsub'⟩
  have hnodes : (scheme X).queries t ++ (scheme X).queries t' ⊆ qs :=
    List.append_subset.mpr ⟨List.Subset.trans hask.2 hsub, List.Subset.trans hask'.2 hsub'⟩
  have hleaves : t.leaves ++ t'.leaves = ls ++ ls' := by
    rw [leaves_treeOf ls t ht, leaves_treeOf ls' t' ht']
  have htree : t = t' := by
    refine (scheme X).digest_inj t t' (hcf.mono _ _ _ hnodes) ?_ ?_ (h.trans h'.symm)
    · rw [hleaves]
      exact collisionFree_leafName X _ _ hcf hnames
    · rw [hleaves]
      refine leafSafe X _ _ _ hcf hnames hnodes (fun q hq => ?_)
      rcases List.mem_append.mp hq with hq | hq
      · exact (scheme X).mem_queries t q hq
      · exact (scheme X).mem_queries t' q hq
  rw [← leaves_treeOf ls t ht, htree, leaves_treeOf ls' t' ht']

/-- The lists of files with a root are those of which no file is empty. Files
    with the same contents in the same order have one root and are attested
    alike, whatever their paths; apart from collisions, no others have it. -/
theorem fileMerkleRoot_eq_iff (files files' : List (String × Bytes)) :
    ((∃ root, (fileMerkleRoot X (filled files)).val = .ok root) ↔
      files ≠ [] ∧ ∀ file ∈ files, file.2 ≠ []) ∧
    (files.map Prod.snd = files'.map Prod.snd →
      fileMerkleRoot X (filled files) = fileMerkleRoot X (filled files') ∧
      ∀ L harvested, attestFileMerkle X L harvested (filled files)
        = attestFileMerkle X L harvested (filled files')) ∧
    (∀ root, CollisionFree (digest X 32)
        ((fileMerkleRoot X (filled files)).queries ++ (fileMerkleRoot X (filled files')).queries) →
      (fileMerkleRoot X (filled files)).val = .ok root →
      (fileMerkleRoot X (filled files')).val = .ok root →
      files.map Prod.snd = files'.map Prod.snd) := by
  refine ⟨exists_fileMerkleRoot_iff X files, ?_, ?_⟩
  · intro hcontents
    have hroot : fileMerkleRoot X (filled files) = fileMerkleRoot X (filled files') := by
      by_cases hne : files = []
      · rw [hne] at hcontents ⊢
        rw [List.map_eq_nil_iff.mp hcontents.symm]
      · have hne' : files' ≠ [] := fun hnil => hne (List.map_eq_nil_iff.mp (by
          rw [hcontents, hnil, List.map_nil]))
        rw [fileMerkleRoot_of_ne_nil X files hne, fileMerkleRoot_of_ne_nil X files' hne',
          fileHashes_congr X files files' [] hcontents]
    refine ⟨hroot, ?_⟩
    intro L harvested
    change (fileMerkleRoot X (filled files) >>= _) = (fileMerkleRoot X (filled files') >>= _)
    rw [hroot]
  · intro root hcf hroot hroot'
    rcases (exists_fileMerkleRoot_iff X files).mp ⟨root, hroot⟩ with ⟨hne, h⟩
    rcases (exists_fileMerkleRoot_iff X files').mp ⟨root, hroot'⟩ with ⟨hne', h'⟩
    rcases fileMerkleRoot_filled X files hne h with ⟨hval, hqs⟩
    rcases fileMerkleRoot_filled X files' hne' h' with ⟨hval', hqs'⟩
    rw [hval] at hroot
    rw [hval'] at hroot'
    rw [hqs, hqs'] at hcf
    -- One root, so one list of digests, so one list of contents.
    have hleaves := fileLeaves_of_root X _ _ root _ (fileLeaves_ne_nil X files hne)
      (fileLeaves_ne_nil X files' hne') hcf
      (List.subset_append_of_subset_left _ (List.subset_append_right _ _))
      (List.subset_append_of_subset_right _ (List.subset_append_right _ _)) hroot hroot'
    exact eq_of_fileLeaves X files files' _ hcf
      (List.subset_append_of_subset_left _ (List.subset_append_left _ _))
      (List.subset_append_of_subset_right _ (List.subset_append_left _ _)) hleaves

/-- The root of one file is the name of its digest as a leaf. -/
theorem val_fileMerkleRoot_singleton (file : String × Bytes) (h : file.2 ≠ []) :
    (fileMerkleRoot X (filled [file])).val
      = .ok ((scheme X).leafName (fileDigest X file.2).toList) := by
  have hroot := (fileMerkleRoot_filled X [file] (List.cons_ne_nil _ _)
    (fun g hg => by rw [List.mem_singleton.mp hg]; exact h)).1
  have htree : treeOf (fileLeaves X [file]) = some (.leaf (fileDigest X file.2).toList) := by
    change treeOf [(fileDigest X file.2).toList] = _
    rw [treeOf, List.map_singleton, grow]
  rw [hroot, val_merkleRoot X _ _ (fileLeaves_ne_nil X _ (List.cons_ne_nil _ _)) htree]
  rfl

/-- Checked with the true position and the true number of files, the root of a
    file alone is authenticated by some path if the file has the contents at that
    position, and, apart from collisions, by none otherwise. -/
theorem fileIncluded_iff (files : List (String × Bytes)) (file : String × Bytes)
    (root leaf : Digest) (i : Nat) (hi : i < files.length)
    (hroot : (fileMerkleRoot X (filled files)).val = .ok root)
    (hleaf : (fileMerkleRoot X (filled [file])).val = .ok leaf) :
    (file.2 = files[i].2 →
      ∃ siblings, (merkleVerifyPath X leaf root i siblings files.length).val = true) ∧
    (∀ siblings, CollisionFree (digest X 32) ((fileMerkleRoot X (filled files)).queries ++
        (fileMerkleRoot X (filled [file])).queries ++
        (merkleVerifyPath X leaf root i siblings files.length).queries) →
      (merkleVerifyPath X leaf root i siblings files.length).val = true →
      file.2 = files[i].2) := by
  rcases (exists_fileMerkleRoot_iff X files).mp ⟨root, hroot⟩ with ⟨hne, h⟩
  have hlone := ((exists_fileMerkleRoot_iff X [file]).mp ⟨leaf, hleaf⟩).2
  have hval := (fileMerkleRoot_filled X files hne h).1
  have hsub : (merkleRoot X (fileLeaves X files)).queries ⊆
      (fileMerkleRoot X (filled files)).queries := by
    rw [(fileMerkleRoot_filled X files hne h).2]
    exact List.subset_append_right _ _
  have hleaves := fileLeaves_ne_nil X files hne
  rcases exists_treeOf _ hleaves with ⟨t, ht⟩
  rw [hval, val_merkleRoot X _ t hleaves ht, Except.ok.injEq] at hroot
  rw [val_fileMerkleRoot_singleton X file (hlone file (List.mem_singleton_self file)),
    Except.ok.injEq] at hleaf
  -- The route of the position leads to the leaf of the file there.
  have hdescend := descend_treeOf _ t i _ ht (getElem?_fileLeaves X files i hi)
  rw [length_fileLeaves] at hdescend
  have hask := queries_subset_merkleRoot X _ t hleaves ht
  refine ⟨?_, ?_⟩
  · intro hsame
    rcases accepted_of_descend X t _ i files.length hi hdescend with ⟨siblings, hacc, -⟩
    refine ⟨siblings, ?_⟩
    rw [← hleaf, ← hroot, hsame]
    exact hacc
  · intro siblings hcf hacc
    rw [← hroot] at hacc hcf
    rcases descend_of_accepted X _ t leaf i siblings files.length hleaves ht
      (hcf.mono _ _ _ (List.append_subset.mpr
        ⟨List.subset_append_of_subset_left _ (List.subset_append_of_subset_left _ hsub),
          List.subset_append_right _ _⟩)) hacc with ⟨s, hs, hname⟩
    rw [hdescend, Option.some.injEq] at hs
    rw [← hs, ← hleaf] at hname
    -- One name, so one digest, so one file.
    have hthere := mem_queries_fileMerkleRoot X files hne h files[i] (List.getElem_mem hi)
    have hhere := mem_queries_fileMerkleRoot X [file] (List.cons_ne_nil _ _) hlone file
      (List.mem_singleton_self file)
    have hleafs := hcf _ (List.mem_append_left _ (List.mem_append_left _ hthere.2)) _
      (List.mem_append_left _ (List.mem_append_right _ hhere.2)) hname
    have hdigests := Block.toList_inj 32 _ _ (leafString_inj _ _ hleafs)
    have hstrings := hcf _ (List.mem_append_left _ (List.mem_append_left _ hthere.1)) _
      (List.mem_append_left _ (List.mem_append_right _ hhere.1)) hdigests
    exact (fileString_inj _ _ hstrings).symm

end

/-- Two files under one root, and the second of them under another path. -/
theorem fileIncluded_iff_second :
    ∃ root leaf siblings,
      (fileMerkleRoot Keccak.shake256 (filled [("a", ascii "alpha"), ("b", ascii "beta")])).val
        = .ok root ∧
      (fileMerkleRoot Keccak.shake256 (filled [("c", ascii "beta")])).val = .ok leaf ∧
      (merkleVerifyPath Keccak.shake256 leaf root 1 siblings 2).val = true := by
  rcases (exists_fileMerkleRoot_iff Keccak.shake256
    [("a", ascii "alpha"), ("b", ascii "beta")]).mpr ⟨by decide, by decide⟩ with ⟨root, hroot⟩
  rcases (exists_fileMerkleRoot_iff Keccak.shake256
    [("c", ascii "beta")]).mpr ⟨by decide, by decide⟩ with ⟨leaf, hleaf⟩
  rcases (fileIncluded_iff Keccak.shake256 _ ("c", ascii "beta") root leaf 1 (by decide) hroot
    hleaf).1 rfl with ⟨siblings, hacc⟩
  exact ⟨root, leaf, siblings, hroot, hleaf, hacc⟩

end Veil7
