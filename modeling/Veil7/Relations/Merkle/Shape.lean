import Veil7.Library.HashTree
import Veil7.Relations.Merkle.Model

/-!
# The Tree behind the Merkle Loops

The builder and the verifier as operations on one tree.

The tree of a leaf list is grown by pairing, and the two loops of
`relations/merkle.rs` compute things about it without ever building it: the
builder its root name and the siblings beside one route, the verifier the
name reached by climbing a route with siblings it is handed. The theorems
here say so, for the source's loops as they stand, and record which strings
each of them hashes. All arguments about soundness then happen on the tree.

The two loops take the same turns because both follow `route idx n`, the
builder at the size of the level it holds and the verifier at the size it
counts down.

## Main definitions

* `scheme`: Merkle names as a hash scheme.
* `treeOf`: The tree of a leaf list.

## Theorems

* `val_baseLevel`, `queries_baseLevel`: The lowest level.
* `val_nextLevel`, `queries_pairUp_subset`: One level names the paired trees.
* `val_rootAndPath`: The builder computes the root name and the siblings of
  the route.
* `queries_subset_rootAndPath`: The builder hashes every node of the tree.
* `replay_of_le`, `replay_of_lt`: The verifier climbs the route, or runs out
  of siblings.
* `merkleVerifyPath_iff`: What the verifier accepts, on the tree.
-/

namespace Veil7

namespace Merkle

/-- The string hashed for a leaf. -/
def leafString (data : Bytes) : Bytes := Domain.merkleLeaf ++ data

/-- The string hashed for a pair of names. -/
def nodeString (left right : Digest) : Bytes := Domain.merkleNode ++ (left.toList ++ right.toList)

theorem nodeString_inj (l r l' r' : Digest) (h : nodeString l r = nodeString l' r') :
    l = l' ∧ r = r' := by
  rw [nodeString, nodeString, List.append_cancel_left_eq] at h
  have hlr := Block.toList_append_inj 32 _ _ _ _ h
  exact ⟨hlr.1, Block.toList_inj 32 _ _ hlr.2⟩

theorem leafString_inj (d d' : Bytes) (h : leafString d = leafString d') : d = d' :=
  List.append_cancel_left h

/-- The leaf tag and the node tag part after their common beginning, whatever
    follows them. -/
theorem leafString_ne_nodeString (d : Bytes) (l r : Digest) :
    leafString d ≠ nodeString l r :=
  -- `veil7:rel:merkle:` is common to both tags and has 17 bytes.
  append_ne_of_take 18 _ _ _ _ (by decide) (by decide) (by decide)

/-- The tree of a list of leaf contents; none for the empty list. -/
def treeOf (leaves : List Bytes) : Option (HashTree Bytes) := grow (leaves.map HashTree.leaf)

theorem exists_treeOf (leaves : List Bytes) (h : leaves ≠ []) : ∃ t, treeOf leaves = some t :=
  exists_grow _ (by rw [ne_eq, List.map_eq_nil_iff]; exact h)

theorem leaves_treeOf (leaves : List Bytes) (t : HashTree Bytes) (h : treeOf leaves = some t) :
    t.leaves = leaves := by
  rw [leaves_grow _ t h, List.flatMap_map]
  change leaves.flatMap (fun a => [a]) = leaves
  rw [List.flatMap_singleton']

theorem descend_treeOf (leaves : List Bytes) (t : HashTree Bytes) (idx : Nat) (data : Bytes)
    (h : treeOf leaves = some t) (hidx : leaves[idx]? = some data) :
    t.descend (route idx leaves.length).reverse = some (.leaf data) := by
  have hlt : idx < leaves.length := (List.getElem?_eq_some_iff.mp hidx).1
  have hroute := descend_route _ t idx (by rw [List.length_map]; exact hlt) h
  rw [List.length_map] at hroute
  rw [hroute, List.getElem?_map, hidx, Option.map_some]

section

variable (X : Xof)

/-- Merkle names: a tagged hash of a leaf's content, a tagged hash of a pair
    of names. -/
def scheme : HashScheme Bytes Bytes Digest where
  leafName := fun d => digest X 32 (leafString d)
  ask := digest X 32
  nodeQuery := nodeString
  nodeQuery_inj := nodeString_inj

@[simp] theorem val_leafHash (d : Bytes) :
    (leafHash X d).val = (scheme X).leafName d := by
  rw [leafHash, val_h32]
  simp only [List.flatten_cons, List.flatten_nil, List.append_nil, scheme, leafString]

@[simp] theorem queries_leafHash (d : Bytes) : (leafHash X d).queries = [leafString d] := by
  rw [leafHash, queries_h32]
  simp only [List.flatten_cons, List.flatten_nil, List.append_nil, leafString]

@[simp] theorem val_nodeHash (l r : Digest) :
    (nodeHash X l r).val = digest X 32 (nodeString l r) := by
  rw [nodeHash, val_h32]
  simp only [List.flatten_cons, List.flatten_nil, List.append_nil, nodeString]

@[simp] theorem queries_nodeHash (l r : Digest) : (nodeHash X l r).queries = [nodeString l r] := by
  rw [nodeHash, queries_h32]
  simp only [List.flatten_cons, List.flatten_nil, List.append_nil, nodeString]

theorem val_baseLevel (leaves : List Bytes) :
    (baseLevel X leaves).val = (leaves.map HashTree.leaf).map (scheme X).digest := by
  rw [baseLevel, Queried.val_mapM, List.map_map]
  refine List.map_congr_left (fun d _ => ?_)
  rw [val_leafHash]
  rfl

theorem queries_baseLevel (leaves : List Bytes) :
    (baseLevel X leaves).queries = leaves.map leafString := by
  rw [baseLevel, Queried.queries_mapM, List.map_eq_flatMap]
  simp only [queries_leafHash]

/-- One level of the builder names the paired trees. -/
theorem val_nextLevel (ts : List (HashTree Bytes)) :
    (nextLevel X (ts.map (scheme X).digest)).val = (pairUp ts).map (scheme X).digest := by
  induction ts using pairUp.induct with
  | case1 a b ts ih =>
      simp only [List.map_cons, nextLevel, pairUp, Queried.val_bind, Queried.val_pure, ih,
        val_nodeHash]
      rfl
  | case2 t => rfl
  | case3 => rfl

/-- The nodes made by one level are hashed on that level. -/
theorem queries_pairUp_subset (ts : List (HashTree Bytes)) :
    (pairUp ts).flatMap (scheme X).queries ⊆
      ts.flatMap (scheme X).queries ++ (nextLevel X (ts.map (scheme X).digest)).queries := by
  induction ts using pairUp.induct with
  | case1 a b ts ih =>
      intro q hq
      simp only [pairUp, List.flatMap_cons, HashScheme.queries, List.mem_append,
        List.mem_singleton] at hq
      simp only [List.map_cons, nextLevel, List.flatMap_cons, Queried.queries_bind,
        queries_nodeHash, Queried.queries_pure, List.mem_append, List.mem_singleton]
      rcases hq with ((hq | hq) | hq) | hq
      · exact Or.inl (Or.inl hq)
      · exact Or.inl (Or.inr (Or.inl hq))
      · exact Or.inr (Or.inl hq)
      · have := ih hq
        simp only [List.mem_append] at this
        tauto
  | case2 t => exact List.subset_append_left _ _
  | case3 => exact List.subset_append_left _ _

/-- The sibling recorded at a level is the name across from the index. -/
theorem sibling_eq (ts : List (HashTree Bytes)) (idx : Nat) (s : HashTree Bytes)
    (hpair : ¬ (idx = ts.length - 1 ∧ ts.length % 2 = 1)) (hs : ts[partner idx]? = some s) :
    sibling (ts.map (scheme X).digest) idx = [(scheme X).digest s] := by
  have hget : ∀ i, ts[i]? = some s →
      (ts.map (scheme X).digest).getD i (zeros 32) = (scheme X).digest s := by
    intro i hi
    rw [List.getD_eq_getElem?_getD, List.getElem?_map, hi, Option.map_some, Option.getD_some]
  rw [sibling, List.length_map, if_neg hpair]
  rw [partner] at hs
  by_cases hmod : idx % 2 = 0
  · rw [if_pos hmod] at hs ⊢
    rw [hget _ hs]
  · rw [if_neg hmod] at hs ⊢
    rw [hget _ hs]

/-- The builder's loop computes the name of the grown tree and the siblings
    beside the route of its index, lowest first. -/
theorem val_rootAndPath (ts : List (HashTree Bytes)) (idx : Nat) (t : HashTree Bytes)
    (h : idx < ts.length) (hgrow : grow ts = some t) :
    (rootAndPath X (ts.map (scheme X).digest) idx).val
      = ((scheme X).digest t,
        ((scheme X).siblings t (route idx ts.length).reverse).reverse) := by
  -- Level by level, as the tree is grown and as the loop runs.
  induction ts using grow.induct generalizing idx with
  | case1 => exact absurd h (Nat.not_lt_zero _)
  | case2 s =>
      rw [grow, Option.some.injEq] at hgrow
      rw [rootAndPath, dif_neg (by simp), route_of_le _ _ (by simp), hgrow]
      simp only [List.map_cons, List.map_nil, List.headD_cons, Queried.val_pure,
        List.reverse_nil, HashScheme.siblings_nil]
  | case3 a b ts ih =>
      rw [grow] at hgrow
      have hlen : 1 < (a :: b :: ts).length := by
        simp only [List.length_cons]
        omega
      have hup := ih (idx / 2) (by rw [length_pairUp]; omega) hgrow
      rw [length_pairUp, ← val_nextLevel X] at hup
      rw [rootAndPath, dif_pos (by rw [List.length_map]; exact hlen)]
      simp only [Queried.val_bind, Queried.val_attach, Queried.val_pure, hup]
      by_cases hlone : idx = (a :: b :: ts).length - 1 ∧ (a :: b :: ts).length % 2 = 1
      · -- A promoted node: nothing is recorded and no turn is taken.
        rw [route_lone _ _ hlen hlone, sibling, List.length_map, if_pos hlone, List.nil_append]
      -- A paired node: its partner's name is recorded, and the turn is its side.
      · rcases paired_pairUp (a :: b :: ts) idx h hlone with ⟨p, c, s, hp, -, hs, -, hopp⟩
        have hdesc := descend_route _ t (idx / 2) (by rw [length_pairUp]; omega) hgrow
        rw [length_pairUp, hp] at hdesc
        rw [route_paired _ _ hlen hlone, sibling_eq X _ idx s hlone hs, List.reverse_cons,
          HashScheme.siblings_append _ t p _ _ hdesc,
          HashScheme.siblings_singleton _ p s _ hopp, List.reverse_append,
          List.reverse_singleton]

/-- Every node of the grown tree is hashed by the builder's loop. -/
theorem queries_subset_rootAndPath (ts : List (HashTree Bytes)) (idx : Nat)
    (t : HashTree Bytes) (hgrow : grow ts = some t) :
    (scheme X).queries t ⊆ ts.flatMap (scheme X).queries ++
      (rootAndPath X (ts.map (scheme X).digest) idx).queries := by
  induction ts using grow.induct generalizing idx with
  | case1 => simp only [grow, reduceCtorEq] at hgrow
  | case2 s =>
      rw [grow, Option.some.injEq] at hgrow
      rw [hgrow, List.flatMap_cons, List.flatMap_nil, List.append_nil]
      exact List.subset_append_left _ _
  | case3 a b ts ih =>
      rw [grow] at hgrow
      have hup := ih (idx / 2) hgrow
      rw [← val_nextLevel X] at hup
      rw [rootAndPath, dif_pos (by simp)]
      simp only [Queried.queries_bind, Queried.val_attach, Queried.queries_attach,
        Queried.queries_pure, List.append_nil]
      intro q hq
      rcases List.mem_append.mp (hup hq) with hq | hq
      · have := queries_pairUp_subset X (a :: b :: ts) hq
        simp only [List.mem_append] at this ⊢
        tauto
      · simp only [List.mem_append]
        tauto

/-- The path climbed with the first siblings of a list along a route, in the
    order of the library: from the root down. -/
def pathOf (ds : List Side) (siblings : List Digest) : List (Side × Digest) :=
  (ds.zip siblings).reverse

/-- The verifier's hash at one level is one step of the climb. -/
theorem val_replay_step (hash sib : Digest) (idx : Nat) :
    (if idx % 2 = 0 then nodeHash X hash sib else nodeHash X sib hash).val
      = (scheme X).climb hash [(sideOf idx, sib)] := by
  by_cases hmod : idx % 2 = 0
  · rw [if_pos hmod, val_nodeHash, sideOf, if_pos hmod]
    rfl
  · rw [if_neg hmod, val_nodeHash, sideOf, if_neg hmod]
    rfl

theorem queries_replay_step (hash sib : Digest) (idx : Nat) :
    (if idx % 2 = 0 then nodeHash X hash sib else nodeHash X sib hash).queries
      = (scheme X).climbQueries hash [(sideOf idx, sib)] := by
  by_cases hmod : idx % 2 = 0
  · rw [if_pos hmod, queries_nodeHash, sideOf, if_pos hmod]
    rfl
  · rw [if_neg hmod, queries_nodeHash, sideOf, if_neg hmod]
    rfl

/-- With enough siblings left, the verifier's loop climbs the route. -/
theorem replay_of_le (siblings : List Digest) (hash : Digest) (idx n used : Nat)
    (h : (route idx n).length ≤ (siblings.drop used).length) :
    (replay X siblings hash idx n used).val
        = ((scheme X).climb hash (pathOf (route idx n) (siblings.drop used)),
          used + (route idx n).length, true) ∧
      (replay X siblings hash idx n used).queries
        = (scheme X).climbQueries hash (pathOf (route idx n) (siblings.drop used)) := by
  -- On the level size; the loop and the route take the same branch on every level.
  induction n using Nat.strong_induction_on generalizing hash idx used with
  | _ n ih =>
    by_cases hn : 1 < n
    · rw [replay, if_pos hn]
      by_cases hlone : idx = n - 1 ∧ n % 2 = 1
      · rw [route_lone _ _ hn hlone] at h ⊢
        rw [if_pos hlone]
        exact ih _ (by omega) hash _ used h
      · rw [route_paired _ _ hn hlone] at h ⊢
        rw [if_neg hlone]
        have hused : used < siblings.length := by
          rw [List.length_cons, List.length_drop] at h
          omega
        have hdrop := List.drop_eq_getElem_cons hused
        rw [hdrop, List.length_cons, List.length_cons] at h
        have hrest := ih ((n + 1) / 2) (by omega)
          ((scheme X).climb hash [(sideOf idx, siblings[used])]) (idx / 2) (used + 1) (by omega)
        rw [List.getElem?_eq_getElem hused, hdrop]
        simp only [pathOf, List.zip_cons_cons, List.reverse_cons, HashScheme.climb_append,
          HashScheme.climbQueries_append, List.length_cons, Queried.val_bind,
          Queried.queries_bind, val_replay_step, queries_replay_step]
        rw [hrest.1, hrest.2]
        refine ⟨?_, rfl⟩
        rw [pathOf, show used + 1 + (route (idx / 2) ((n + 1) / 2)).length
          = used + ((route (idx / 2) ((n + 1) / 2)).length + 1) by omega]
    · rw [replay, if_neg hn, route_of_le _ _ (by omega)]
      exact ⟨rfl, rfl⟩

/-- With too few siblings left, the verifier's loop gives up. -/
theorem replay_of_lt (siblings : List Digest) (hash : Digest) (idx n used : Nat)
    (h : (siblings.drop used).length < (route idx n).length) :
    (replay X siblings hash idx n used).val.2.2 = false := by
  induction n using Nat.strong_induction_on generalizing hash idx used with
  | _ n ih =>
    by_cases hn : 1 < n
    · rw [replay, if_pos hn]
      by_cases hlone : idx = n - 1 ∧ n % 2 = 1
      · rw [route_lone _ _ hn hlone] at h
        rw [if_pos hlone]
        exact ih _ (by omega) hash _ used h
      · rw [route_paired _ _ hn hlone] at h
        rw [if_neg hlone]
        by_cases hused : used < siblings.length
        · rw [List.length_cons, List.length_drop] at h
          rw [List.getElem?_eq_getElem hused]
          exact ih ((n + 1) / 2) (by omega) _ (idx / 2) (used + 1)
            (by rw [List.length_drop]; omega)
        · rw [List.getElem?_eq_none (by omega)]
          rfl
    · rw [route_of_le _ _ (by omega)] at h
      exact absurd h (Nat.not_lt_zero _)

/-- The verifier accepts exactly the claims whose path has the length of the
    route and climbs to the root. -/
theorem merkleVerifyPath_iff (leaf root : Digest) (index : Nat) (siblings : List Digest)
    (leafCount : Nat) :
    (merkleVerifyPath X leaf root index siblings leafCount).val = true ↔
      index < leafCount ∧ siblings.length = (route index leafCount).length ∧
        (scheme X).climb leaf (pathOf (route index leafCount) siblings) = root := by
  rw [merkleVerifyPath]
  by_cases hbad : leafCount = 0 ∨ leafCount ≤ index
  · rw [if_pos hbad]
    simp only [Queried.val_pure, Bool.false_eq_true, false_iff, not_and]
    intro hlt
    omega
  rw [if_neg hbad]
  simp only [Queried.val_bind, Queried.val_pure, Bool.and_eq_true, decide_eq_true_eq]
  rcases Nat.lt_or_ge siblings.length (route index leafCount).length with hlt | hge
  -- Too short: the loop gives up, and the flag stays false.
  · have hfail := replay_of_lt X siblings leaf index leafCount 0
      (by rw [List.drop_zero]; exact hlt)
    rw [hfail, ite_self]
    simp only [Bool.false_eq_true, false_and, false_iff, not_and]
    intro _ heq
    omega
  -- Long enough: the loop climbs, and the final check refuses leftovers.
  · have hok := (replay_of_le X siblings leaf index leafCount 0
      (by rw [List.drop_zero]; exact hge)).1
    rw [List.drop_zero] at hok
    rw [hok]
    simp only [Nat.zero_add, ne_eq, ite_not]
    by_cases hlen : (route index leafCount).length = siblings.length
    · rw [if_pos hlen]
      simp only [true_and]
      constructor
      · intro h
        exact ⟨by omega, hlen.symm, h⟩
      · intro h
        exact h.2.2
    · rw [if_neg hlen]
      simp only [Bool.false_eq_true, false_and, false_iff, not_and]
      intro _ heq
      exact absurd heq.symm hlen

/-- The strings the verifier hashes when the path has the right length. -/
theorem queries_merkleVerifyPath (leaf root : Digest) (index : Nat) (siblings : List Digest)
    (leafCount : Nat) (hidx : index < leafCount)
    (hlen : siblings.length = (route index leafCount).length) :
    (merkleVerifyPath X leaf root index siblings leafCount).queries
      = (scheme X).climbQueries leaf (pathOf (route index leafCount) siblings) := by
  have hok := replay_of_le X siblings leaf index leafCount 0
    (by rw [List.drop_zero]; exact Nat.le_of_eq hlen.symm)
  rw [merkleVerifyPath, if_neg (by omega)]
  simp only [Queried.queries_bind, Queried.queries_pure, List.append_nil]
  rw [hok.2, List.drop_zero]

theorem map_fst_pathOf (ds : List Side) (siblings : List Digest)
    (hlen : siblings.length = ds.length) : (pathOf ds siblings).map Prod.fst = ds.reverse := by
  rw [pathOf, List.map_reverse, List.map_fst_zip (Nat.le_of_eq hlen.symm)]

theorem map_snd_pathOf (ds : List Side) (siblings : List Digest)
    (hlen : siblings.length = ds.length) :
    (pathOf ds siblings).map Prod.snd = siblings.reverse := by
  rw [pathOf, List.map_reverse, List.map_snd_zip (Nat.le_of_eq hlen)]

/-- The tree's own siblings, as a path of the verifier. -/
theorem pathOf_reverse (ds : List Side) (siblings : List Digest)
    (hlen : siblings.length = ds.length) :
    pathOf ds siblings.reverse = ds.reverse.zip siblings := by
  rw [pathOf, List.zip_eq_zipWith, List.reverse_zipWith (by rw [List.length_reverse, hlen]),
    List.reverse_reverse, ← List.zip_eq_zipWith]

end

end Merkle

end Veil7
