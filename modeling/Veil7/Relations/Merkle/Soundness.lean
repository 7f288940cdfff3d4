import Veil7.Library.Keccak
import Veil7.Relations.Merkle.Shape

/-!
# What a Merkle Root and a Merkle Path Prove

Three statements about `relations/merkle.rs`, all apart from hash collisions
among the strings the two sides hash.

The root commits to the whole list (`merkleRoot_binds`): two lists with one
root are equal, whatever their lengths. The shape of the tree depends on the
length and the root does not contain it, but the leaf tag keeps a leaf from
being read as a node, so the root determines its tree, and the tree its leaves.

A path is exact for the true size (`inclusion_exact`): with the index and the
leaf count of the tree that was built, the verifier accepts the tree's own leaf
name with the tree's own siblings and nothing else.

The size is the prover's, though, and nothing ties it to the root. Then the
index and the claimed size only name a sequence of turns, and the verifier
accepts the name of whatever node those turns lead to. `membership_iff` says
exactly when that is the leaf the index speaks of; with a claimed size of one
it is the root itself, for any tree (`inner_node_accepted`).

## Main definitions

* `addressesLeaf`: The turns of an index and a claimed size lead to the leaf
  at that index, or nowhere.

## Theorems

* `val_merkleRoot`, `queries_subset_merkleRoot`: The root of the tree.
* `merkleRoot_binds`: Equal roots come from equal lists.
* `prove_eq`: What the honest prover returns.
* `merkleVerifyPath_honest`: What it returns is accepted.
* `inclusion_exact`: The true size admits the true path only.
* `membership_iff`: When acceptance proves membership at the index.
* `inner_node_accepted`: The root accepted as a leaf.
-/

namespace Veil7

namespace Merkle

section

variable (X : Xof)

/-- The names of leaves are told apart as far as the strings hashed are. -/
theorem collisionFree_leafName (qs : List Bytes) (leaves : List Bytes)
    (hcf : CollisionFree (digest X 32) qs) (hsub : leaves.map leafString ⊆ qs) :
    CollisionFree (scheme X).leafName leaves :=
  fun d hd d' hd' h => leafString_inj d d' (hcf _ (hsub (List.mem_map_of_mem hd)) _
    (hsub (List.mem_map_of_mem hd')) h)

/-- No leaf has the name of a node, as far as the strings hashed go. -/
theorem leafSafe (qs : List Bytes) (leaves ns : List Bytes)
    (hcf : CollisionFree (digest X 32) qs) (hsub : leaves.map leafString ⊆ qs) (hns : ns ⊆ qs)
    (hnode : ∀ q ∈ ns, ∃ l r, q = nodeString l r) : (scheme X).LeafSafe leaves ns := by
  intro d hd q hq heq
  rcases hnode q hq with ⟨l, r, hlr⟩
  have hstr := hcf _ (hsub (List.mem_map_of_mem hd)) q (hns hq) heq
  rw [hlr] at hstr
  exact leafString_ne_nodeString d l r hstr

theorem queries_leaves (leaves : List Bytes) :
    (leaves.map HashTree.leaf).flatMap (scheme X).queries = [] := by
  rw [List.flatMap_map]
  exact List.flatMap_eq_nil_iff.mpr (fun _ _ => rfl)

/-- The builder on a leaf list: the tree's name, and the siblings of the
    route. -/
theorem val_rootAndPath_baseLevel (leaves : List Bytes) (idx : Nat) (t : HashTree Bytes)
    (h : idx < leaves.length) (ht : treeOf leaves = some t) :
    (rootAndPath X (baseLevel X leaves).val idx).val
      = ((scheme X).digest t,
        ((scheme X).siblings t (route idx leaves.length).reverse).reverse) := by
  rw [val_baseLevel]
  have hval := val_rootAndPath X _ idx t (by rw [List.length_map]; exact h) ht
  rw [List.length_map] at hval
  exact hval

theorem queries_subset_rootAndPath_baseLevel (leaves : List Bytes) (idx : Nat)
    (t : HashTree Bytes) (ht : treeOf leaves = some t) :
    (scheme X).queries t ⊆ (rootAndPath X (baseLevel X leaves).val idx).queries := by
  rw [val_baseLevel]
  have hsub := queries_subset_rootAndPath X _ idx t ht
  rw [queries_leaves, List.nil_append] at hsub
  exact hsub

theorem val_merkleRoot (leaves : List Bytes) (t : HashTree Bytes) (h : leaves ≠ [])
    (ht : treeOf leaves = some t) :
    (merkleRoot X leaves).val = .ok ((scheme X).digest t) := by
  have hne : leaves.isEmpty = false := by
    rw [List.isEmpty_eq_false_iff]
    exact h
  rw [merkleRoot, hne]
  simp only [Bool.false_eq_true, if_false, Queried.val_bind, Queried.val_pure,
    val_rootAndPath_baseLevel X leaves 0 t (List.length_pos_iff.mpr h) ht]

/-- Building the root hashes every leaf and every node of the tree. -/
theorem queries_subset_merkleRoot (leaves : List Bytes) (t : HashTree Bytes) (h : leaves ≠ [])
    (ht : treeOf leaves = some t) :
    leaves.map leafString ⊆ (merkleRoot X leaves).queries ∧
      (scheme X).queries t ⊆ (merkleRoot X leaves).queries := by
  have hne : leaves.isEmpty = false := by
    rw [List.isEmpty_eq_false_iff]
    exact h
  have hq : (merkleRoot X leaves).queries = leaves.map leafString ++
      (rootAndPath X (baseLevel X leaves).val 0).queries := by
    rw [merkleRoot, hne]
    simp only [Bool.false_eq_true, if_false, Queried.queries_bind, Queried.queries_pure,
      List.append_nil, queries_baseLevel]
  rw [hq]
  exact ⟨List.subset_append_left _ _, List.Subset.trans
    (queries_subset_rootAndPath_baseLevel X leaves 0 t ht) (List.subset_append_right _ _)⟩

/-- Two non-empty lists of leaves with one root are the same list. -/
theorem merkleRoot_binds (ls ls' : List Bytes) (hls : ls ≠ []) (hls' : ls' ≠ [])
    (hcf : CollisionFree (digest X 32) ((merkleRoot X ls).queries ++ (merkleRoot X ls').queries))
    (h : (merkleRoot X ls).val = (merkleRoot X ls').val) : ls = ls' := by
  rcases exists_treeOf ls hls with ⟨t, ht⟩
  rcases exists_treeOf ls' hls' with ⟨t', ht'⟩
  rw [val_merkleRoot X ls t hls ht, val_merkleRoot X ls' t' hls' ht', Except.ok.injEq] at h
  have hsub := queries_subset_merkleRoot X ls t hls ht
  have hsub' := queries_subset_merkleRoot X ls' t' hls' ht'
  have hleaves : (ls ++ ls').map leafString ⊆
      (merkleRoot X ls).queries ++ (merkleRoot X ls').queries := by
    rw [List.map_append]
    exact List.append_subset.mpr ⟨List.Subset.trans hsub.1 (List.subset_append_left _ _),
      List.Subset.trans hsub'.1 (List.subset_append_right _ _)⟩
  have hnodes : (scheme X).queries t ++ (scheme X).queries t' ⊆
      (merkleRoot X ls).queries ++ (merkleRoot X ls').queries :=
    List.append_subset.mpr ⟨List.Subset.trans hsub.2 (List.subset_append_left _ _),
      List.Subset.trans hsub'.2 (List.subset_append_right _ _)⟩
  -- The root name determines the tree, and the tree its leaves.
  have htree : t = t' := by
    refine (scheme X).digest_inj t t' (hcf.mono _ _ _ hnodes) ?_ ?_ h
    · rw [leaves_treeOf ls t ht, leaves_treeOf ls' t' ht']
      exact collisionFree_leafName X _ _ hcf hleaves
    · rw [leaves_treeOf ls t ht, leaves_treeOf ls' t' ht']
      refine leafSafe X _ _ _ hcf hleaves hnodes (fun q hq => ?_)
      rcases List.mem_append.mp hq with hq | hq
      · exact (scheme X).mem_queries t q hq
      · exact (scheme X).mem_queries t' q hq
  rw [← leaves_treeOf ls t ht, htree, leaves_treeOf ls' t' ht']

/-- A list and the same list with its last leaf repeated hash eight strings
    to different names. -/
theorem collisionFree_merkleRoot_trailing :
    CollisionFree (digest Keccak.shake256 32)
      ((merkleRoot Keccak.shake256 [ascii "a", ascii "b", ascii "b"]).queries ++
        (merkleRoot Keccak.shake256 [ascii "a", ascii "b"]).queries) := by
  decide +kernel

/-- Two leaves have the root of two leaves; with the last one repeated they do
    not. -/
theorem merkleRoot_binds_trailing :
    ((merkleRoot Keccak.shake256 [ascii "a", ascii "b"]).val
          = (merkleRoot Keccak.shake256 [ascii "a", ascii "b"]).val ↔
        [ascii "a", ascii "b"] = [ascii "a", ascii "b"]) ∧
      ((merkleRoot Keccak.shake256 [ascii "a", ascii "b", ascii "b"]).val
          = (merkleRoot Keccak.shake256 [ascii "a", ascii "b"]).val ↔
        [ascii "a", ascii "b", ascii "b"] = [ascii "a", ascii "b"]) := by
  have hcf := collisionFree_merkleRoot_trailing
  refine ⟨⟨merkleRoot_binds _ _ _ (by decide) (by decide) (hcf.mono _ _ _ ?_), fun h => by rw [h]⟩,
    ⟨merkleRoot_binds _ _ _ (by decide) (by decide) hcf, fun h => by rw [h]⟩⟩
  exact List.append_subset.mpr ⟨List.subset_append_right _ _, List.subset_append_right _ _⟩

/-- The honest prover returns the leaf name, the root, and the built path. -/
theorem prove_eq (leaves : List Bytes) (i : Nat) (hi : i < leaves.length) :
    (prove X { leaves := leaves, index := i }).val
      = .ok ({ root := (rootAndPath X (baseLevel X leaves).val i).val.1,
               leaf := (baseLevel X leaves).val.getD i (zeros 32) },
             { siblings := (rootAndPath X (baseLevel X leaves).val i).val.2,
               index := i, leafCount := leaves.length }) := by
  have hlen : (baseLevel X leaves).val.length = leaves.length := by
    rw [val_baseLevel, List.length_map, List.length_map]
  have hne : (baseLevel X leaves).val.isEmpty = false := by
    rw [List.isEmpty_eq_false_iff, ← List.length_pos_iff]
    omega
  simp only [prove, Queried.val_bind]
  rw [if_neg (by rw [hne, hlen]; simp only [Bool.false_eq_true, false_or]; omega)]
  simp only [Queried.val_bind, Queried.val_pure, hlen]

theorem getD_baseLevel (leaves : List Bytes) (i : Nat) (d : Bytes) (h : leaves[i]? = some d) :
    (baseLevel X leaves).val.getD i (zeros 32) = (scheme X).leafName d := by
  rw [val_baseLevel, List.map_map, List.getD_eq_getElem?_getD, List.getElem?_map, h,
    Option.map_some, Option.getD_some]
  rfl

/-- What the prover returns is accepted: the tree's own siblings climb its own
    route to the root. -/
theorem merkleVerifyPath_honest (leaves : List Bytes) (i : Nat) (hi : i < leaves.length) :
    (merkleVerifyPath X ((baseLevel X leaves).val.getD i (zeros 32))
      (rootAndPath X (baseLevel X leaves).val i).val.1 i
      (rootAndPath X (baseLevel X leaves).val i).val.2 leaves.length).val = true := by
  have hne : leaves ≠ [] := by
    intro hnil
    rw [hnil] at hi
    exact absurd hi (Nat.not_lt_zero _)
  rcases exists_treeOf leaves hne with ⟨t, ht⟩
  have hget : leaves[i]? = some leaves[i] := List.getElem?_eq_getElem hi
  have hdesc := descend_treeOf leaves t i _ ht hget
  have hsib := (scheme X).length_siblings t _ _ hdesc
  rw [List.length_reverse] at hsib
  rw [val_rootAndPath_baseLevel X leaves i t hi ht, getD_baseLevel X leaves i _ hget,
    merkleVerifyPath_iff, List.length_reverse, pathOf_reverse _ _ hsib]
  exact ⟨hi, hsib, (scheme X).climb_siblings t _ _ hdesc⟩

/-- The prover returns the root and the leaf name of the tree that was built,
    with the path of the builder under the true index and the true size. There the
    verifier accepts that name with that path, for any hash; and, apart from
    collisions among the pairs hashed, nothing else. -/
theorem inclusion_exact (leaves : List Bytes) (i : Nat) (hi : i < leaves.length) :
    ((prove X { leaves := leaves, index := i }).val
        = .ok ({ root := (rootAndPath X (baseLevel X leaves).val i).val.1,
                 leaf := (baseLevel X leaves).val.getD i (zeros 32) },
               { siblings := (rootAndPath X (baseLevel X leaves).val i).val.2,
                 index := i, leafCount := leaves.length }) ∧
      (verify X
        { root := (rootAndPath X (baseLevel X leaves).val i).val.1,
          leaf := (baseLevel X leaves).val.getD i (zeros 32) }
        { siblings := (rootAndPath X (baseLevel X leaves).val i).val.2,
          index := i, leafCount := leaves.length }).val = .ok true) ∧
    ∀ (x : Digest) (ps : List Digest),
      (x = (baseLevel X leaves).val.getD i (zeros 32) ∧
          ps = (rootAndPath X (baseLevel X leaves).val i).val.2 →
        (merkleVerifyPath X x (rootAndPath X (baseLevel X leaves).val i).val.1 i ps
          leaves.length).val = true) ∧
      (CollisionFree (digest X 32) ((rootAndPath X (baseLevel X leaves).val i).queries ++
          (merkleVerifyPath X x (rootAndPath X (baseLevel X leaves).val i).val.1 i ps
            leaves.length).queries) →
        (merkleVerifyPath X x (rootAndPath X (baseLevel X leaves).val i).val.1 i ps
          leaves.length).val = true →
        x = (baseLevel X leaves).val.getD i (zeros 32) ∧
          ps = (rootAndPath X (baseLevel X leaves).val i).val.2) ∧
      verify X { root := (rootAndPath X (baseLevel X leaves).val i).val.1, leaf := x }
          { siblings := ps, index := i, leafCount := leaves.length }
        = Except.ok <$> merkleVerifyPath X x (rootAndPath X (baseLevel X leaves).val i).val.1 i ps
          leaves.length := by
  have hne : leaves ≠ [] := by
    intro hnil
    rw [hnil] at hi
    exact absurd hi (Nat.not_lt_zero _)
  rcases exists_treeOf leaves hne with ⟨t, ht⟩
  have hget : leaves[i]? = some leaves[i] := List.getElem?_eq_getElem hi
  have hdesc := descend_treeOf leaves t i _ ht hget
  have hbuilt := val_rootAndPath_baseLevel X leaves i t hi ht
  have hleaf := getD_baseLevel X leaves i _ hget
  have hhonest := merkleVerifyPath_honest X leaves i hi
  refine ⟨?_, fun x ps => ⟨?_, ?_, ?_⟩⟩
  · refine ⟨prove_eq X leaves i hi, ?_⟩
    rw [verify_eq, Queried.val_map]
    exact congrArg Except.ok hhonest
  · rintro ⟨hx, hps⟩
    rw [hx, hps]
    exact hhonest
  -- Any accepted path climbs the same turns, so it is the tree's own.
  · rw [hbuilt, hleaf]
    intro hcf hacc
    have hiff := (merkleVerifyPath_iff X _ _ _ _ _).mp hacc
    rw [queries_merkleVerifyPath X _ _ _ _ _ hi hiff.2.1] at hcf
    have hsub : (scheme X).queries t ++ (scheme X).climbQueries x
        (pathOf (route i leaves.length) ps) ⊆ (rootAndPath X (baseLevel X leaves).val i).queries ++
        (scheme X).climbQueries x (pathOf (route i leaves.length) ps) :=
      List.append_subset.mpr ⟨List.Subset.trans
        (queries_subset_rootAndPath_baseLevel X leaves i t ht) (List.subset_append_left _ _),
        List.subset_append_right _ _⟩
    have hpath := (scheme X).climb_inj t _ x (pathOf (route i leaves.length) ps)
      (hcf.mono _ _ _ hsub) (by rw [map_fst_pathOf _ _ hiff.2.1]; exact hdesc) hiff.2.2
    rw [map_fst_pathOf _ _ hiff.2.1, map_snd_pathOf _ _ hiff.2.1] at hpath
    exact ⟨hpath.1.symm, by rw [← hpath.2, List.reverse_reverse]⟩
  · exact verify_eq X _ _

/-- Three leaves, where the third is promoted once and then read. -/
def threeLeaves : List Bytes := [ascii "a", ascii "b", ascii "c"]

/-- The proof of the first of three leaves is its true path, and is accepted. -/
theorem inclusion_exact_three :
    (prove Keccak.shake256 { leaves := threeLeaves, index := 0 }).val
        = .ok ({ root := (rootAndPath Keccak.shake256
                   (baseLevel Keccak.shake256 threeLeaves).val 0).val.1,
                 leaf := (leafHash Keccak.shake256 (ascii "a")).val },
               { siblings := (rootAndPath Keccak.shake256
                   (baseLevel Keccak.shake256 threeLeaves).val 0).val.2,
                 index := 0, leafCount := 3 }) ∧
      (verify Keccak.shake256
        { root := (rootAndPath Keccak.shake256
            (baseLevel Keccak.shake256 threeLeaves).val 0).val.1,
          leaf := (leafHash Keccak.shake256 (ascii "a")).val }
        { siblings := (rootAndPath Keccak.shake256
            (baseLevel Keccak.shake256 threeLeaves).val 0).val.2,
          index := 0, leafCount := 3 }).val = .ok true := by
  have hexact := (inclusion_exact Keccak.shake256 threeLeaves 0 (by decide)).1
  rw [getD_baseLevel Keccak.shake256 threeLeaves 0 (ascii "a") rfl] at hexact
  exact hexact

end

/-- The turns that an index and a claimed size stand for lead, in the tree of
    the leaves, to the leaf at that index or out of the tree. -/
def addressesLeaf (leaves : List Bytes) (index leafCount : Nat) : Bool :=
  match (treeOf leaves).bind fun t => t.descend (route index leafCount).reverse with
  | none => true
  | some (.leaf data) => decide (leaves[index]? = some data)
  | some (.node _ _) => false

/-- The true size addresses every leaf by its index. -/
theorem addressesLeaf_length (leaves : List Bytes) (index : Nat) (h : index < leaves.length) :
    addressesLeaf leaves index leaves.length = true := by
  have hne : leaves ≠ [] := by
    intro hnil
    rw [hnil] at h
    exact absurd h (Nat.not_lt_zero _)
  rcases exists_treeOf leaves hne with ⟨t, ht⟩
  have hget : leaves[index]? = some leaves[index] := List.getElem?_eq_getElem h
  rw [addressesLeaf, ht, Option.bind_some, descend_treeOf leaves t index _ ht hget]
  exact decide_eq_true hget

section

variable (X : Xof)

/-- A claim the verifier accepts names the subtree its turns lead to. -/
theorem descend_of_accepted (leaves : List Bytes) (t : HashTree Bytes) (x : Digest)
    (index : Nat) (siblings : List Digest) (leafCount : Nat) (hne : leaves ≠ [])
    (ht : treeOf leaves = some t)
    (hcf : CollisionFree (digest X 32) ((merkleRoot X leaves).queries ++
      (merkleVerifyPath X x ((scheme X).digest t) index siblings leafCount).queries))
    (hacc : (merkleVerifyPath X x ((scheme X).digest t) index siblings leafCount).val = true) :
    ∃ s, t.descend (route index leafCount).reverse = some s ∧ (scheme X).digest s = x := by
  have hiff := (merkleVerifyPath_iff X _ _ _ _ _).mp hacc
  rw [queries_merkleVerifyPath X _ _ _ _ _ hiff.1 hiff.2.1] at hcf
  have hsub := queries_subset_merkleRoot X leaves t hne ht
  have hcfTree : CollisionFree (scheme X).ask ((scheme X).queries t ++
      (scheme X).climbQueries x (pathOf (route index leafCount) siblings)) := by
    refine hcf.mono _ _ _ (List.append_subset.mpr ⟨?_, List.subset_append_right _ _⟩)
    exact List.Subset.trans hsub.2 (List.subset_append_left _ _)
  have hsafe : (scheme X).LeafSafe t.leaves
      ((scheme X).climbQueries x (pathOf (route index leafCount) siblings)) := by
    rw [leaves_treeOf leaves t ht]
    exact leafSafe X _ _ _ hcf (List.Subset.trans hsub.1 (List.subset_append_left _ _))
      (List.subset_append_right _ _) (fun q hq => (scheme X).mem_climbQueries _ _ q hq)
  rcases (scheme X).descend_of_climb t x _ hcfTree hsafe hiff.2.2 with ⟨s, hs⟩
  have hx := (scheme X).climb_inj t s x _ hcfTree hs hiff.2.2
  rw [map_fst_pathOf _ _ hiff.2.1] at hs
  exact ⟨s, hs, hx.1⟩

/-- The name of any subtree is accepted at the turns that lead to it, with
    siblings from the tree and no string hashed that the builder did not. -/
theorem accepted_of_descend (t s : HashTree Bytes) (index leafCount : Nat)
    (hidx : index < leafCount) (hs : t.descend (route index leafCount).reverse = some s) :
    ∃ siblings,
      (merkleVerifyPath X ((scheme X).digest s) ((scheme X).digest t) index siblings
        leafCount).val = true ∧
      (merkleVerifyPath X ((scheme X).digest s) ((scheme X).digest t) index siblings
        leafCount).queries ⊆ (scheme X).queries t := by
  have hlen := (scheme X).length_siblings t s _ hs
  rw [List.length_reverse] at hlen
  refine ⟨((scheme X).siblings t (route index leafCount).reverse).reverse, ?_, ?_⟩
  · rw [merkleVerifyPath_iff, List.length_reverse, pathOf_reverse _ _ hlen]
    exact ⟨hidx, hlen, (scheme X).climb_siblings t s _ hs⟩
  · rw [queries_merkleVerifyPath X _ _ _ _ _ hidx (by rw [List.length_reverse, hlen]),
      pathOf_reverse _ _ hlen]
    exact (scheme X).climbQueries_siblings t s _ hs

/-- Acceptance at an index and a claimed size proves membership at that index,
    for every digest and every path, exactly when the two address the leaf at
    the index or leave the tree; the true size always does. -/
theorem membership_iff (leaves : List Bytes) (root : Digest) (index leafCount : Nat)
    (hne : leaves ≠ []) (hroot : (merkleRoot X leaves).val = .ok root)
    (hcf : CollisionFree (digest X 32) (merkleRoot X leaves).queries) :
    ((∀ (x : Digest) (siblings : List Digest),
        CollisionFree (digest X 32) ((merkleRoot X leaves).queries ++
          (merkleVerifyPath X x root index siblings leafCount).queries) →
        (merkleVerifyPath X x root index siblings leafCount).val = true →
        ∃ d, leaves[index]? = some d ∧ x = (leafHash X d).val) ↔
      leafCount ≤ index ∨ addressesLeaf leaves index leafCount = true) ∧
    (index < leaves.length → addressesLeaf leaves index leaves.length = true) ∧
    (∀ (x : Digest) (siblings : List Digest),
      verify X { root := root, leaf := x }
          { siblings := siblings, index := index, leafCount := leafCount }
        = Except.ok <$> merkleVerifyPath X x root index siblings leafCount) := by
  rcases exists_treeOf leaves hne with ⟨t, ht⟩
  rw [val_merkleRoot X leaves t hne ht, Except.ok.injEq] at hroot
  have hsub := queries_subset_merkleRoot X leaves t hne ht
  refine ⟨⟨?_, ?_⟩, addressesLeaf_length leaves index, fun x siblings => verify_eq X _ _⟩
  · intro h
    by_cases hidx : leafCount ≤ index
    · exact Or.inl hidx
    refine Or.inr ?_
    -- Otherwise some subtree is at the end of the turns; its name is accepted.
    rw [addressesLeaf, ht, Option.bind_some]
    cases hs : t.descend (route index leafCount).reverse with
    | none => rfl
    | some s =>
        rcases accepted_of_descend X t s index leafCount (by omega) hs with
          ⟨siblings, hacc, hqs⟩
        rw [hroot] at hacc hqs
        rcases h _ siblings (hcf.mono _ _ _ (List.append_subset.mpr
          ⟨List.Subset.refl _, List.Subset.trans hqs hsub.2⟩)) hacc with ⟨d, hd, hx⟩
        rw [val_leafHash] at hx
        have hmem : leafString d ∈ (merkleRoot X leaves).queries :=
          hsub.1 (List.mem_map_of_mem (List.mem_of_getElem? hd))
        cases s with
        | leaf d' =>
            -- A leaf with the name of the one at the index has its content.
            have hmem' : d' ∈ leaves := by
              rw [← leaves_treeOf leaves t ht]
              exact HashTree.mem_leaves_of_descend t _ d' hs
            have hdd := hcf _ (hsub.1 (List.mem_map_of_mem hmem')) _ hmem hx
            rw [leafString_inj d' d hdd]
            exact decide_eq_true hd
        | node l r =>
            -- An inner node would have the name of a leaf.
            exfalso
            have hnode : nodeString ((scheme X).digest l) ((scheme X).digest r) ∈
                (merkleRoot X leaves).queries :=
              hsub.2 ((scheme X).queries_of_descend t _ _ hs
                (List.mem_append_right _ (List.mem_singleton_self _)))
            exact leafString_ne_nodeString d _ _ (hcf _ hmem _ hnode hx.symm)
  -- Conversely, acceptance leads to a subtree, and the condition says to which.
  · intro h x siblings hcfv hacc
    rw [← hroot] at hcfv hacc
    have hidx := ((merkleVerifyPath_iff X _ _ _ _ _).mp hacc).1
    have haddr : addressesLeaf leaves index leafCount = true := by
      rcases h with h | h
      · omega
      · exact h
    rcases descend_of_accepted X leaves t x index siblings leafCount hne ht hcfv hacc with
      ⟨s, hs, hx⟩
    rw [addressesLeaf, ht, Option.bind_some, hs] at haddr
    cases s with
    | leaf d => exact ⟨d, of_decide_eq_true haddr, by rw [val_leafHash, ← hx]; rfl⟩
    | node l r => exact absurd haddr Bool.false_ne_true

/-- Two leaves under the true size: what is accepted at index one is the
    second leaf. -/
theorem membership_iff_pair :
    ∃ root, (merkleRoot Keccak.shake256 [ascii "a", ascii "b"]).val = .ok root ∧
      ∀ (x : Digest) (siblings : List Digest),
        CollisionFree (digest Keccak.shake256 32)
            ((merkleRoot Keccak.shake256 [ascii "a", ascii "b"]).queries ++
              (merkleVerifyPath Keccak.shake256 x root 1 siblings 2).queries) →
        (merkleVerifyPath Keccak.shake256 x root 1 siblings 2).val = true →
        ∃ d, [ascii "a", ascii "b"][1]? = some d ∧ x = (leafHash Keccak.shake256 d).val :=
  ⟨_, rfl, (membership_iff Keccak.shake256 [ascii "a", ascii "b"] _ 1 2 (by decide) rfl
    (collisionFree_merkleRoot_trailing.mono _ _ _ (List.subset_append_right _ _))).1.mpr
      (Or.inr (addressesLeaf_length _ 1 (by decide)))⟩

theorem treeOf_pair (d d' : Bytes) : treeOf [d, d'] = some (.node (.leaf d) (.leaf d')) := by
  unfold treeOf grow grow
  rfl

/-- For a claimed size of one the verifier hashes nothing and compares. -/
theorem merkleVerifyPath_one (x root : Digest) :
    merkleVerifyPath X x root 0 [] 1 = pure (decide (x = root)) := by
  unfold merkleVerifyPath replay
  rfl

/-- The root of two leaves is accepted as the leaf at index zero of a tree of
    one leaf, though it is the name of neither. -/
theorem inner_node_accepted :
    ∃ root, (merkleRoot Keccak.shake256 [ascii "a", ascii "b"]).val = .ok root ∧
      CollisionFree (digest Keccak.shake256 32)
        ((merkleRoot Keccak.shake256 [ascii "a", ascii "b"]).queries ++
          (merkleVerifyPath Keccak.shake256 root root 0 [] 1).queries) ∧
      (merkleVerifyPath Keccak.shake256 root root 0 [] 1).val = true ∧
      ¬ ∃ d, [ascii "a", ascii "b"][0]? = some d ∧ root = (leafHash Keccak.shake256 d).val := by
  have htree := treeOf_pair (ascii "a") (ascii "b")
  have hcf := collisionFree_merkleRoot_trailing.mono _ _ _
    (List.subset_append_right _ (merkleRoot Keccak.shake256 [ascii "a", ascii "b"]).queries)
  have hsub := queries_subset_merkleRoot Keccak.shake256 _ _ (by decide) htree
  refine ⟨_, val_merkleRoot _ _ _ (by decide) htree, ?_, ?_, ?_⟩
  · rw [merkleVerifyPath_one, Queried.queries_pure]
    exact hcf.mono _ _ _ (List.append_subset.mpr ⟨List.Subset.refl _, List.nil_subset _⟩)
  · rw [merkleVerifyPath_one, Queried.val_pure, decide_eq_true_eq]
  -- The root is the hash of a node string, which is no leaf string.
  · rintro ⟨d, hd, h⟩
    cases hd
    rw [val_leafHash] at h
    exact leafString_ne_nodeString _ _ _ (hcf _ (hsub.1 List.mem_cons_self) _
      (hsub.2 List.mem_cons_self) h.symm)

end

end Merkle

end Veil7
