import Veil7.Layers.Entropy
import Veil7.Layers.KeySources

/-!
# What Goes Into a Harvested Seed

The twelve rounds of `harvest` in `l1_entropy.rs` add to the pool what each of
them makes of its draw (`Library/Pool`): the hash of one half of an output, and
the other half as it is. Between them the two halves show the whole output, so
no draw is lost on the way: of two harvests that differ in one draw only, the
seeds differ, apart from collisions (`harvest_eq_iff`).

## Main definitions

* `contribution`: What a round adds to the pool.
* `contributions`: What the rounds add, one after the other.

## Theorems

* `poolAfter_eq`: The pool is the sum of the contributions.
* `contribution_inj`: A contribution shows its draw.
* `harvest_eq_iff`: Which harvests share a seed.
-/

namespace Veil7

namespace Entropy

theorem toList_add {n : Nat} (a b : Block n) : (a + b).toList = xorBytes a.toList b.toList := by
  cases a
  cases b
  rfl

/-- Two halves put together. -/
def join (h2 : Block 32) (half2 : Bytes) (hlen : half2.length = 32) : Block 64 :=
  ⟨h2.toList ++ half2, by rw [List.length_append, Block.length_toList, hlen]⟩

/-- The halves are added to the pool in their places. -/
theorem foldPool_eq (pool : Block 64) (h2 : Block 32) (half2 : Bytes) (hlen : half2.length = 32) :
    foldPool pool h2 half2 hlen = pool + join h2 half2 hlen := by
  apply Block.toList_inj
  rw [toList_add, xorBytes_eq_append _ _ 32]
  change xorBytes (pool.toList.take 32) h2.toList ++ xorBytes (pool.toList.drop 32) half2
    = xorBytes (pool.toList.take 32) ((h2.toList ++ half2).take 32)
      ++ xorBytes (pool.toList.drop 32) ((h2.toList ++ half2).drop 32)
  rw [List.take_left' (Block.length_toList 32 h2), List.drop_left' (Block.length_toList 32 h2)]

section

variable (X : Xof) (personalization : Bytes)

/-- The string that a round hashes second. -/
def foldString (i : Nat) (half1 : Bytes) : Bytes := [Domain.entropyFold, u64Bytes i, half1].flatten

/-- The first output of a round. -/
def firstOutput (i : Nat) (draw : Draw) : Block 64 :=
  digest X 64 (mixString personalization i draw)

/-- What a round adds to the pool. -/
def contribution (i : Nat) (draw : Draw) : Block 64 :=
  join (digest X 32 (foldString i ((firstOutput X personalization i draw).toList.take 32)))
    ((firstOutput X personalization i draw).toList.drop 32)
    (by rw [List.length_drop, Block.length_toList])

/-- What the rounds from a number on add. -/
def contributions (i : Nat) : List Draw → List (Block 64)
  | [] => []
  | draw :: draws => contribution X personalization i draw :: contributions (i + 1) draws

theorem contributions_append (i : Nat) (pre post : List Draw) :
    contributions X personalization i (pre ++ post)
      = contributions X personalization i pre
        ++ contributions X personalization (i + pre.length) post := by
  induction pre generalizing i with
  | nil => rfl
  | cons d pre ih =>
      rw [List.cons_append, contributions, contributions, ih, List.cons_append, List.length_cons,
        Nat.add_right_comm i 1, ← Nat.add_assoc]

/-- A round whose call succeeds adds its contribution. -/
theorem pool_mixRound (i : Nat) (draw : Draw) (pool : Block 64) (h : draw.succeeded = true) :
    (mixRound X personalization i draw pool).val.pool
      = pool + contribution X personalization i draw := by
  rw [mixRound, if_pos h, contribution, ← foldPool_eq]
  simp only [Queried.val_bind, Queried.val_pure, Shake256.val_squeeze, Shake256.buf_absorbAll,
    firstOutput, mixString, foldString]

theorem queries_mixRound (i : Nat) (draw : Draw) (pool : Block 64) (h : draw.succeeded = true) :
    (mixRound X personalization i draw pool).queries
      = [mixString personalization i draw,
          foldString i ((firstOutput X personalization i draw).toList.take 32)] := by
  rw [mixRound, if_pos h]
  simp only [Queried.queries_bind, Queried.queries_pure, Shake256.queries_squeeze,
    Shake256.val_squeeze, Shake256.buf_absorbAll, List.append_nil, List.singleton_append,
    firstOutput, mixString, foldString]

/-- The pool is the sum of the contributions. -/
theorem poolAfter_eq (i : Nat) (draws : List Draw) (pool : Block 64)
    (hall : ∀ d ∈ draws, d.succeeded = true) :
    poolAfter X personalization i draws pool
      = pooled pool (contributions X personalization i draws) := by
  induction draws generalizing i pool with
  | nil => rfl
  | cons d draws ih =>
      rw [List.forall_mem_cons] at hall
      rw [poolAfter, ih (i + 1) _ hall.2, pool_mixRound X personalization i d pool hall.1]
      rfl

/-- The strings of a round are among those that the rounds hash, if the calls up
    to it succeed. -/
theorem mem_queries_mixRounds (i : Nat) (pre post : List Draw) (d : Draw) (pool : Block 64)
    (hpre : ∀ c ∈ pre, c.succeeded = true) (hd : d.succeeded = true) :
    [mixString personalization (i + pre.length) d,
        foldString (i + pre.length)
          ((firstOutput X personalization (i + pre.length) d).toList.take 32)]
      ⊆ (mixRounds X personalization i (pre ++ d :: post) pool).queries := by
  -- By induction on the rounds before; each of them goes on with the next.
  induction pre generalizing i pool with
  | nil =>
      rw [List.nil_append, mixRounds, Queried.queries_bind,
        queries_mixRound X personalization i d pool hd]
      exact List.subset_append_left _ _
  | cons c pre ih =>
      rw [List.forall_mem_cons] at hpre
      have hrest := ih (i + 1) (mixRound X personalization i c pool).val.pool hpre.2
      rw [List.length_cons, ← Nat.add_assoc, Nat.add_right_comm i pre.length 1]
      rw [List.cons_append, mixRounds, Queried.queries_bind,
        mixRound_of_succeeded X personalization i c pool hpre.1]
      dsimp only
      rw [Queried.queries_bind, Queried.queries_pure, List.append_nil]
      exact List.subset_append_of_subset_right _ hrest

/-- The string hashed into the seed. -/
def finalString (pool : Block 64) : Bytes :=
  [Domain.entropyFinalize, personalization, pool.toList].flatten

/-- A harvest whose calls succeed hashes its final string, and the strings of
    each of its rounds. -/
theorem queries_harvest (draws : List.Vector Draw 12) (pre post : List Draw) (d : Draw)
    (hdraws : draws.toList = pre ++ d :: post) (hall : ∀ d ∈ draws.toList, d.succeeded = true) :
    finalString personalization
        (pooled 0 (contributions X personalization 0 draws.toList))
        ∈ (harvest X personalization draws).queries ∧
      mixString personalization pre.length d ∈ (harvest X personalization draws).queries ∧
      foldString pre.length ((firstOutput X personalization pre.length d).toList.take 32)
        ∈ (harvest X personalization draws).queries := by
  have hpool := poolAfter_eq X personalization 0 draws.toList (zeros 64) hall
  have hrounds := mixRounds_append X personalization 0 draws.toList [] (zeros 64) hall
  rw [List.append_nil] at hrounds
  rw [hdraws, List.forall_mem_append, List.forall_mem_cons] at hall
  have hmem := mem_queries_mixRounds X personalization 0 pre post d (zeros 64) hall.1 hall.2.1
  rw [Nat.zero_add, ← hdraws, List.cons_subset, List.cons_subset] at hmem
  rw [harvest, Queried.queries_bind]
  refine ⟨List.mem_append_right _ ?_, List.mem_append_left _ hmem.1,
    List.mem_append_left _ hmem.2.1⟩
  rw [hrounds]
  change finalString personalization _ ∈ (Shake256.squeeze X (Shake256.absorbAll
    [Domain.entropyFinalize, personalization,
      (poolAfter X personalization 0 draws.toList (zeros 64)).toList]) 64 >>= _).queries
  rw [Queried.queries_bind, Shake256.queries_squeeze, Shake256.buf_absorbAll, hpool]
  exact List.mem_append_left _ (List.mem_singleton.mpr rfl)

end

theorem finalString_inj (p p' : Bytes) (pool pool' : Block 64)
    (h : finalString p pool = finalString p' pool') : p = p' ∧ pool = pool' := by
  unfold finalString at h
  simp only [List.flatten_cons, List.flatten_nil, List.append_nil] at h
  have hparts := List.append_inj' (List.append_cancel_left h)
    (by rw [Block.length_toList, Block.length_toList])
  exact ⟨hparts.1, Block.toList_inj 64 _ _ hparts.2⟩

theorem mixString_inj (p : Bytes) (i : Nat) (d d' : Draw) (h : mixString p i d = mixString p i d') :
    d.osBytes = d'.osBytes ∧ d.jit = d'.jit := by
  unfold mixString at h
  simp only [List.flatten_cons, List.flatten_nil, List.append_nil] at h
  have hrest := List.append_cancel_left (List.append_cancel_left (List.append_cancel_left h))
  have hos := Block.toList_append_inj 48 _ _ _ _ hrest
  exact ⟨hos.1, Block.toList_inj 24 _ _ hos.2⟩

/-- A contribution shows both halves of the first output, the first through its
    hash; so it shows the draw. -/
theorem contribution_inj (X : Xof) (p : Bytes) (i : Nat) (d d' : Draw)
    (hcf : CollisionFree (digest X 32) [mixString p i d, mixString p i d',
      foldString i ((firstOutput X p i d).toList.take 32),
      foldString i ((firstOutput X p i d').toList.take 32)])
    (h : contribution X p i d = contribution X p i d') :
    d.osBytes = d'.osBytes ∧ d.jit = d'.jit := by
  have hhalves := List.append_inj (congrArg List.Vector.toList h)
    (by rw [Block.length_toList, Block.length_toList])
  have hfold := hcf _ (by simp) _ (by simp) (Block.toList_inj 32 _ _ hhalves.1)
  unfold foldString at hfold
  simp only [List.flatten_cons, List.flatten_nil, List.append_nil] at hfold
  have hfirst := List.append_cancel_left (List.append_cancel_left hfold)
  have houtput : firstOutput X p i d = firstOutput X p i d' := by
    apply Block.toList_inj
    rw [← List.take_append_drop 32 (firstOutput X p i d).toList, hfirst, hhalves.2,
      List.take_append_drop]
  refine mixString_inj p i d d' (hcf _ (by simp) _ (by simp) ?_)
  exact digest_eq_of_le X 32 64 _ _ (by omega) (by omega) houtput

/-- Two harvests with the same draws but for one of them return one seed exactly
    if they have one personalization and that draw is the same too, apart from
    collisions. -/
theorem harvest_eq_iff (X : Xof) (p p' : Bytes) (draws draws' : List.Vector Draw 12)
    (pre post : List Draw) (d d' : Draw) (hdraws : draws.toList = pre ++ d :: post)
    (hdraws' : draws'.toList = pre ++ d' :: post)
    (hall : ∀ d ∈ draws.toList, d.succeeded = true)
    (hall' : ∀ d ∈ draws'.toList, d.succeeded = true)
    (hcf : CollisionFree (digest X 32)
      ((harvest X p draws).queries ++ (harvest X p' draws').queries)) :
    (harvest X p draws).val.result = (harvest X p' draws').val.result ↔
      p = p' ∧ d.osBytes = d'.osBytes ∧ d.jit = d'.jit := by
  rcases queries_harvest X p draws pre post d hdraws hall with ⟨hfinal, hmix, hfold⟩
  rcases queries_harvest X p' draws' pre post d' hdraws' hall' with ⟨hfinal', hmix', hfold'⟩
  rw [harvest_of_succeeded X p draws hall, harvest_of_succeeded X p' draws' hall',
    poolAfter_eq X p 0 _ _ hall, poolAfter_eq X p' 0 _ _ hall']
  change Except.ok (digest X 64 (finalString p (pooled 0 _)))
    = Except.ok (digest X 64 (finalString p' (pooled 0 _))) ↔ _
  rw [Except.ok.injEq]
  constructor
  · intro hseed
    have hstring := hcf _ (List.mem_append_left _ hfinal) _ (List.mem_append_right _ hfinal')
      (digest_eq_of_le X 32 64 _ _ (by omega) (by omega) hseed)
    rcases finalString_inj p p' _ _ hstring with ⟨rfl, hpool⟩
    rw [hdraws, hdraws', contributions_append, contributions_append, contributions, contributions,
      pooled_eq_iff, Nat.zero_add] at hpool
    refine ⟨rfl, contribution_inj X p pre.length d d' (hcf.mono _ _ _ ?_) hpool⟩
    intro q hq
    simp only [List.mem_cons, List.not_mem_nil, or_false] at hq
    rcases hq with rfl | rfl | rfl | rfl
    · exact List.mem_append_left _ hmix
    · exact List.mem_append_right _ hmix'
    · exact List.mem_append_left _ hfold
    · exact List.mem_append_right _ hfold'
  · rintro ⟨rfl, hos, hjit⟩
    have hd : d.succeeded = d'.succeeded := by
      rw [hall d (by rw [hdraws]; exact List.mem_append_right _ List.mem_cons_self),
        hall' d' (by rw [hdraws']; exact List.mem_append_right _ List.mem_cons_self)]
    have hsame : d = d' := by
      cases d
      cases d'
      cases hos
      cases hjit
      cases hd
      rfl
    rw [hdraws, hdraws', hsame]

/-- Twelve draws of zeros, the last of them with the given jitter. -/
def drawsOf (jit : Block 24) : List.Vector Draw 12 :=
  ⟨List.replicate 11 { osBytes := zeros 48, succeeded := true, jit := zeros 24 }
    ++ [{ osBytes := zeros 48, succeeded := true, jit := jit }], rfl⟩

theorem collisionFree_drawsOf :
    CollisionFree (digest Keccak.shake256 32)
      ((harvest Keccak.shake256 [] (drawsOf (zeros 24))).queries ++
        (harvest Keccak.shake256 [] (drawsOf (List.Vector.replicate 24 1))).queries) := by
  decide +kernel

/-- Another jitter in the last round is another seed. -/
theorem harvest_eq_iff_jitter :
    (harvest Keccak.shake256 [] (drawsOf (zeros 24))).val.result
      ≠ (harvest Keccak.shake256 [] (drawsOf (List.Vector.replicate 24 1))).val.result := by
  intro h
  have hiff := harvest_eq_iff Keccak.shake256 [] [] (drawsOf (zeros 24))
    (drawsOf (List.Vector.replicate 24 1)) _ [] _ _ rfl rfl (by decide) (by decide)
    collisionFree_drawsOf
  exact absurd (hiff.mp h).2.2 (by decide)

end Entropy

end Veil7
