import Veil7.Interface.ChainFiles

/-!
# A Directory as One Chain

`attest_directory` of `interface.rs`: the regular files of a directory that are
not hidden, sorted by path and attested as a chain of files.

A file system lists a directory in any order it likes. The paths are sorted
before anything is absorbed, and their order as bytes is total, so the listing's
order is forgotten, as are the entries that are skipped; what is left is the
multiset of paths (`attestDirectory_of_perm`). An entry that cannot be read
refuses the directory, wherever it stands.

Beyond that the directory inherits what the chain of files can and cannot tell
apart. Where everything can be read, no chunk of a file is text and no path fits
behind a file, the events give back the paths shown and what is found at each
(`directory_eq_iff`).

The listing is a parameter, as the file system is: for every entry, if it can be
read, its kind, name and path, the last two made text.

## Main definitions

* `listPaths`: The loop over the entries.
* `sortPaths`: The paths in the order of their bytes.
* `attestDirectory`: The attestation.
* `shownPaths`: The paths of regular files that are not hidden.
* `directoryFiles`: The files to absorb, or the error of an entry.
* `absorbedOf`: The events of a directory.

## Theorems

* `listPaths_eq`: The loop collects the paths shown, or fails.
* `sortPaths_perm`: Sorting forgets the order.
* `attestDirectory_eq`: What is attested is the chain of the files.
* `attestDirectory_of_perm`: The order of the listing does not matter.
* `directory_eq_iff`: What two directories with the same events share.
-/

namespace Veil7

/-- An entry of a listing, as far as it is looked at. -/
structure DirEntry where
  /-- Whether it is a regular file, if that can be told. -/
  isFile : Option Bool
  fileName : String
  path : String

/-- `starts_with('.')`. -/
def DirEntry.hidden (entry : DirEntry) : Bool :=
  decide ((asBytes entry.fileName).head? = some 46)

/-- The paths pushed for the entries, the first failure ending the loop. -/
def listPaths : List (Option DirEntry) → List String → Except VeilError (List String)
  | [], paths => .ok paths
  | none :: _, _ => .error .crypto
  | some entry :: entries, paths =>
    match entry.isFile with
    | none => .error .crypto
    | some false => listPaths entries paths
    | some true =>
      if entry.hidden then listPaths entries paths
      else listPaths entries (paths ++ [entry.path])

/-- Texts are ordered by their bytes. -/
def pathLe (p q : String) : Bool := decide (asBytes p ≤ asBytes q)

def sortPaths (paths : List String) : List String := paths.mergeSort pathLe

/-- Every path with what is found there. -/
def lookUp (fs : String → Option Bytes) (paths : List String) : List (String × Option Bytes) :=
  paths.map fun path => (path, fs path)

section

variable (X : Xof) (L : Libcrux) (harvested : Except VeilError Seed)

def attestDirectory (fs : String → Option Bytes) (listing : Option (List (Option DirEntry))) :
    Hashing (Except VeilError Verdict) :=
  match listing with
  | none => pure (.error .crypto)
  | some entries =>
    match listPaths entries [] with
    | .error e => pure (.error e)
    | .ok paths =>
      if paths.isEmpty then pure (.error .crypto)
      else attestChainFiles X L harvested (lookUp fs (sortPaths paths))

end

/-- All entries can be read, and what they are. -/
def Listed (entries : List (Option DirEntry)) : Prop :=
  ∀ entry ∈ entries, ∃ e, entry = some e ∧ e.isFile ≠ none

/-- The path of an entry that is not skipped. -/
def shown (entry : Option DirEntry) : Option String :=
  entry.bind fun e => if e.isFile = some true ∧ ¬ e.hidden then some e.path else none

def shownPaths (entries : List (Option DirEntry)) : List String := entries.filterMap shown

theorem listed_cons (entry : Option DirEntry) (entries : List (Option DirEntry)) :
    Listed (entry :: entries) ↔ (∃ e, entry = some e ∧ e.isFile ≠ none) ∧ Listed entries :=
  List.forall_mem_cons

/-- The paths shown are collected if all entries can be read. -/
theorem listPaths_of_listed (entries : List (Option DirEntry)) (paths : List String)
    (h : Listed entries) : listPaths entries paths = .ok (paths ++ shownPaths entries) := by
  induction entries generalizing paths with
  | nil => rw [shownPaths, List.filterMap_nil, List.append_nil, listPaths]
  | cons entry entries ih =>
      rw [listed_cons] at h
      rcases h with ⟨⟨e, rfl, hkind⟩, hrest⟩
      have hih := fun paths => ih paths hrest
      unfold shownPaths at hih ⊢
      rw [listPaths, List.filterMap_cons, shown, Option.bind_some]
      cases hfile : e.isFile with
      | none => exact absurd hfile hkind
      | some isFile =>
          cases isFile with
          | false =>
              dsimp only
              rw [hih, if_neg (fun hc => Bool.false_ne_true (Option.some.inj hc.1))]
          | true =>
              dsimp only
              by_cases hhidden : e.hidden = true
              · rw [if_pos hhidden, hih, if_neg (fun hc => hc.2 hhidden)]
              · rw [if_neg hhidden, hih, if_pos ⟨rfl, hhidden⟩, List.append_assoc,
                  List.singleton_append]

/-- One entry that cannot be read is enough. -/
theorem listPaths_of_not_listed (entries : List (Option DirEntry)) (paths : List String)
    (h : ¬ Listed entries) : listPaths entries paths = .error .crypto := by
  induction entries generalizing paths with
  | nil => exact absurd (fun entry hentry => absurd hentry List.not_mem_nil) h
  | cons entry entries ih =>
      rw [listed_cons, not_and_or] at h
      cases entry with
      | none => rw [listPaths]
      | some e =>
          rw [listPaths]
          cases hfile : e.isFile with
          | none => rfl
          | some isFile =>
              have hrest : ¬ Listed entries := by
                refine h.resolve_left (not_not.mpr ⟨e, rfl, ?_⟩)
                rw [hfile]
                exact Option.some_ne_none isFile
              cases isFile with
              | false => exact ih paths hrest
              | true =>
                  dsimp only
                  split
                  · exact ih paths hrest
                  · exact ih _ hrest

theorem pathLe_trans (p q r : String) (hpq : pathLe p q = true) (hqr : pathLe q r = true) :
    pathLe p r = true :=
  decide_eq_true (List.le_trans (of_decide_eq_true hpq) (of_decide_eq_true hqr))

theorem pathLe_total (p q : String) : (pathLe p q || pathLe q p) = true := by
  rw [Bool.or_eq_true, pathLe, pathLe, decide_eq_true_eq, decide_eq_true_eq]
  exact List.le_total _ _

/-- Sorting forgets the order: two paths of which neither is before the other
    are one path. -/
theorem sortPaths_perm (paths paths' : List String) (h : paths.Perm paths') :
    sortPaths paths = sortPaths paths' := by
  refine List.Perm.eq_of_pairwise (fun p q _ _ hpq hqp => ?_)
    (List.pairwise_mergeSort pathLe_trans pathLe_total paths)
    (List.pairwise_mergeSort pathLe_trans pathLe_total paths') ?_
  · exact asBytes_inj p q (List.le_antisymm (of_decide_eq_true hpq) (of_decide_eq_true hqp))
  · exact (List.mergeSort_perm paths pathLe).trans
      (h.trans (List.mergeSort_perm paths' pathLe).symm)

/-- The files of a directory, in the order they are absorbed. An entry that cannot
    be read refuses the directory. -/
def directoryFiles (fs : String → Option Bytes) (entries : List (Option DirEntry)) :
    Except VeilError (List (String × Option Bytes)) :=
  (listPaths entries []).map fun paths => lookUp fs (sortPaths paths)

/-- The events a directory absorbs, in order, unless an entry or a file cannot be
    read. -/
def absorbedOf (fs : String → Option Bytes) (entries : List (Option DirEntry)) :
    Except VeilError (List Bytes) :=
  directoryFiles fs entries >>= absorbed

theorem directoryFiles_of_listed (fs : String → Option Bytes) (entries : List (Option DirEntry))
    (h : Listed entries) :
    directoryFiles fs entries = .ok (lookUp fs (sortPaths (shownPaths entries))) := by
  rw [directoryFiles, listPaths_of_listed entries [] h, List.nil_append]
  rfl

theorem directoryFiles_of_not_listed (fs : String → Option Bytes)
    (entries : List (Option DirEntry)) (h : ¬ Listed entries) :
    directoryFiles fs entries = .error .crypto := by
  rw [directoryFiles, listPaths_of_not_listed entries [] h]
  rfl

section

variable (X : Xof) (L : Libcrux) (harvested : Except VeilError Seed)

/-- A listing is attested as the chain of its files. -/
theorem attestDirectory_eq (fs : String → Option Bytes) (entries : List (Option DirEntry)) :
    attestDirectory X L harvested fs (some entries)
      = match directoryFiles fs entries with
        | .error e => pure (.error e)
        | .ok files => attestChainFiles X L harvested files := by
  unfold attestDirectory directoryFiles
  dsimp only
  cases listPaths entries [] with
  | error e => rfl
  | ok paths =>
      change (if paths.isEmpty then _ else _)
        = attestChainFiles X L harvested (lookUp fs (sortPaths paths))
      split
      · rename_i hempty
        rw [List.isEmpty_iff.mp hempty, sortPaths, List.mergeSort_nil]
        rfl
      · rfl

/-- The attestation depends neither on the order of the listing nor, where all
    entries can be read, on those that are skipped. -/
theorem attestDirectory_of_perm (fs : String → Option Bytes)
    (entries entries' : List (Option DirEntry)) :
    (entries.Perm entries' → attestDirectory X L harvested fs (some entries)
      = attestDirectory X L harvested fs (some entries')) ∧
    (Listed entries → Listed entries' → (shownPaths entries).Perm (shownPaths entries') →
      attestDirectory X L harvested fs (some entries)
        = attestDirectory X L harvested fs (some entries')) := by
  have hshown : Listed entries → Listed entries' →
      (shownPaths entries).Perm (shownPaths entries') →
      attestDirectory X L harvested fs (some entries)
        = attestDirectory X L harvested fs (some entries') := by
    intro h h' hperm
    rw [attestDirectory_eq, attestDirectory_eq, directoryFiles_of_listed fs entries h,
      directoryFiles_of_listed fs entries' h', sortPaths_perm _ _ hperm]
  refine ⟨?_, hshown⟩
  intro hperm
  have hlisted : Listed entries ↔ Listed entries' :=
    ⟨fun h entry hentry => h entry (hperm.mem_iff.mpr hentry),
      fun h entry hentry => h entry (hperm.mem_iff.mp hentry)⟩
  by_cases h : Listed entries
  · exact hshown h (hlisted.mp h) (hperm.filterMap shown)
  -- Somewhere in both listings is an entry that cannot be read.
  · rw [attestDirectory_eq, attestDirectory_eq, directoryFiles_of_not_listed fs entries h,
      directoryFiles_of_not_listed fs entries' (fun h' => h (hlisted.mpr h'))]

end

/-- Files whose events can be read in one way only. -/
theorem eq_of_fileEvents (files files' : List (String × Bytes))
    (hchunks : ∀ file ∈ files, ∀ chunk ∈ Records.chunks fileChunk file.2, ¬ IsText chunk)
    (hpaths : files.IsChain fun f g => ¬ PathJoins f g)
    (h : fileEvents files = fileEvents files') : files = files' := by
  rw [fileEvents_eq_flat, fileEvents_eq_flat] at h
  refine List.map_injective_iff.mpr record_inj (Records.eq_of_flat_eq _ _ (valid_records files)
    (valid_records files') ?_ ?_ h)
  · rw [List.forall_mem_map]
    exact hchunks
  · rw [List.isChain_map]
    simp only [joins_record_iff]
    exact hpaths

theorem map_fst_lookUp (fs : String → Option Bytes) (paths : List String) :
    (lookUp fs paths).map Prod.fst = paths := by
  rw [lookUp, List.map_map]
  exact List.map_id' paths

theorem mem_sortPaths (paths : List String) (path : String) :
    path ∈ sortPaths paths ↔ path ∈ paths :=
  (List.mergeSort_perm paths pathLe).mem_iff

/-- A directory with files can be read, and these are the files it shows. -/
theorem listed_of_directoryFiles (fs : String → Option Bytes) (entries : List (Option DirEntry))
    (files : List (String × Option Bytes)) (h : directoryFiles fs entries = .ok files) :
    Listed entries ∧ files = lookUp fs (sortPaths (shownPaths entries)) := by
  by_cases hlisted : Listed entries
  · rw [directoryFiles_of_listed fs entries hlisted, Except.ok.injEq] at h
    exact ⟨hlisted, h.symm⟩
  · rw [directoryFiles_of_not_listed fs entries hlisted] at h
    cases h

/-- Where two directories can be read with all their files, no chunk of a file of
    the first is text and no path fits behind the file before it, they have the
    same events exactly if they show the same paths and have the same contents at
    each. -/
theorem directory_eq_iff (fs fs' : String → Option Bytes)
    (entries entries' : List (Option DirEntry)) (files files' : List (String × Bytes))
    (hfiles : directoryFiles fs entries = .ok (readable files))
    (hfiles' : directoryFiles fs' entries' = .ok (readable files'))
    (hchunks : ∀ file ∈ files, ∀ chunk ∈ Records.chunks fileChunk file.2, ¬ IsText chunk)
    (hpaths : files.IsChain fun f g => ¬ PathJoins f g) :
    absorbedOf fs entries = absorbedOf fs' entries' ↔
      (shownPaths entries).Perm (shownPaths entries') ∧
        ∀ path ∈ shownPaths entries, fs path = fs' path := by
  have hshown := (listed_of_directoryFiles fs entries _ hfiles).2
  have hshown' := (listed_of_directoryFiles fs' entries' _ hfiles').2
  unfold absorbedOf
  rw [hfiles, hfiles']
  change absorbed (readable files) = absorbed (readable files') ↔ _
  constructor
  · intro habsorbed
    rw [absorbed_readable, absorbed_readable, Except.ok.injEq] at habsorbed
    have hsame : lookUp fs (sortPaths (shownPaths entries))
        = lookUp fs' (sortPaths (shownPaths entries')) := by
      rw [← hshown, ← hshown', eq_of_fileEvents files files' hchunks hpaths habsorbed]
    have hsorted := congrArg (List.map Prod.fst) hsame
    rw [map_fst_lookUp, map_fst_lookUp] at hsorted
    refine ⟨?_, ?_⟩
    · have hperm := List.mergeSort_perm (shownPaths entries) pathLe
      have hperm' := List.mergeSort_perm (shownPaths entries') pathLe
      unfold sortPaths at hsorted
      rw [hsorted] at hperm
      exact hperm.symm.trans hperm'
    · intro path hpath
      rw [hsorted, lookUp, lookUp, List.map_inj_left] at hsame
      have hmem : path ∈ sortPaths (shownPaths entries') := by
        rw [← hsorted, mem_sortPaths]
        exact hpath
      exact congrArg Prod.snd (hsame path hmem)
  · rintro ⟨hperm, hcontents⟩
    have hsame : readable files = readable files' := by
      rw [hshown, hshown', sortPaths_perm _ _ hperm, lookUp, lookUp, List.map_inj_left]
      intro path hpath
      rw [hcontents path (hperm.mem_iff.mpr ((mem_sortPaths _ path).mp hpath))]
    rw [hsame]

/-- One byte that is no text. -/
theorem not_isText_byte : ¬ IsText [0xff] := by
  rintro ⟨text, htext⟩
  have hvalid := text.isValidUTF8
  have hbytes : text.toByteArray = ⟨#[0xff]⟩ := ByteArray.ext (Array.toList_inj.mp htext)
  rw [hbytes] at hvalid
  exact ByteArray.validateUTF8_eq_false_iff.mp (by decide) hvalid

/-- A hidden file, a file and a directory. -/
def sampleListing : List (Option DirEntry) :=
  [some ⟨some true, ".git", "d/.git"⟩, some ⟨some true, "a", "d/a"⟩, some ⟨some false, "b", "d/b"⟩]

theorem directoryFiles_sampleListing (contents : Bytes) :
    directoryFiles (fun _ => some contents) sampleListing
      = .ok (readable [("d/a", contents)]) := by
  have hlisted : listPaths sampleListing [] = .ok ["d/a"] := rfl
  rw [directoryFiles, hlisted, Except.map, sortPaths, List.mergeSort_singleton]
  rfl

/-- One byte of one file changed, and the events are others. -/
theorem directory_eq_iff_byte :
    absorbedOf (fun _ => some [0xff]) sampleListing
      ≠ absorbedOf (fun _ => some [0xfe]) sampleListing := by
  have hchunks : Records.chunks fileChunk ([0xff] : Bytes) = [[0xff]] := by
    rw [Records.chunks_of_ne_nil fileChunk fileChunk_pos _ (List.cons_ne_nil _ _)]
    exact congrArg (fun l => ([0xff] : Bytes) :: l) (Records.chunks_nil fileChunk)
  intro h
  have hsame := ((directory_eq_iff _ _ sampleListing sampleListing _ _
    (directoryFiles_sampleListing [0xff]) (directoryFiles_sampleListing [0xfe]) ?_ ?_).mp h).2
    "d/a" (by decide)
  · exact absurd hsame (by decide)
  · intro file hfile chunk hchunk
    rw [List.mem_singleton.mp hfile, hchunks, List.mem_singleton] at hchunk
    rw [hchunk]
    exact not_isText_byte
  · exact List.IsChain.singleton _

end Veil7
