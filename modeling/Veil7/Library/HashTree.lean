import Mathlib.Tactic.Ring
import Mathlib.Tactic.Tauto
import Veil7.Library.Query

/-!
# Hash Trees

Binary trees whose nodes are named by the digest of their children's names,
and what the name of the root says about the rest.

A `HashScheme` names leaves by a function of their contents and nodes by the
answer of an oracle to a question about the pair of their children's names.
The questions are injective; this is a fact about how they are written, and it
is a field of the structure. That the *oracle* has no collision is an
assumption, made per theorem over the questions actually asked.

Under it, a path of siblings that climbs from a name to the root's name is the
tree's own path, once its turns are known to stay inside the tree
(`climb_inj`). Nothing in a path says how deep the tree is. Whether a climb
may start below the leaves depends on the leaf names, and `LeafSafe` says that
none of them is the name of a node; with it the climb cannot leave the tree
(`descend_of_climb`), and a name determines its tree (`digest_inj`). Even then
a climb may start at an inner node, and a verifier that needs a leaf has to
know the depth.

The last part is the shape of a tree built level by level, where a lone
trailing entry moves up unchanged. `route` is the sequence of turns from the
`idx`-th of `n` entries to the root; `descend_route` says it is right.

## Main definitions

* `HashTree`: A binary tree with contents at the leaves.
* `HashScheme`: Names for leaves, and an oracle that names nodes.
* `HashScheme.digest`: The name of a tree.
* `descend`: The subtree reached by a sequence of turns from the root.
* `siblings`: The digests passed on the way.
* `climb`: The root name computed from a name and a path.
* `LeafSafe`: No leaf has the name of a node.
* `pairUp`: One level of pairs, a lone trailing entry promoted.
* `grow`: Levels of pairs until one tree is left.
* `route`: The turns from an entry of the lowest level to the root.
* `Promoted`: An entry moves up unchanged on some level.

## Theorems

* `digest_inj`: Equal digests name equal trees.
* `climb_siblings`: Climbing the tree's own siblings reaches its digest.
* `climb_inj`: A climb along the tree's turns that reaches the digest is the
  tree's own.
* `descend_of_climb`: A climb that reaches the digest keeps to the tree.
* `leaves_grow`: Pairing keeps the leaves and their order.
* `paired_pairUp`: A pair under its parent.
* `route_of_not_promoted`: The turns of an entry that is never promoted.
* `two_pow_length_route_of_promoted`: One that is takes fewer turns than its
  position needs.
* `descend_route`: The route of an entry leads to it.
-/

namespace Veil7

universe u v w

/-- A binary tree with contents at the leaves. -/
inductive HashTree (α : Type u) where
  | leaf (a : α)
  | node (l r : HashTree α)

/-- Whether a node is its parent's left or right child. -/
inductive Side where
  | left
  | right
deriving DecidableEq

/-- Names for leaves, and an oracle that names a pair of names. -/
structure HashScheme (α : Type u) (ι : Type v) (δ : Type w) where
  leafName : α → δ
  ask : ι → δ
  nodeQuery : δ → δ → ι
  nodeQuery_inj : ∀ x y x' y', nodeQuery x y = nodeQuery x' y' → x = x' ∧ y = y'

variable {α : Type u} {ι : Type v} {δ : Type w}

namespace HashTree

/-- The contents of the leaves, left to right. -/
def leaves : HashTree α → List α
  | leaf a => [a]
  | node l r => l.leaves ++ r.leaves

/-- The subtree reached from the root by a sequence of turns. -/
def descend : HashTree α → List Side → Option (HashTree α)
  | t, [] => some t
  | leaf _, _ :: _ => none
  | node l _, Side.left :: ds => l.descend ds
  | node _ r, Side.right :: ds => r.descend ds

/-- The child of the root away from a side. -/
def opposite : HashTree α → Side → Option (HashTree α)
  | leaf _, _ => none
  | node _ r, Side.left => some r
  | node l _, Side.right => some l

theorem mem_leaves_of_descend (t : HashTree α) (ds : List Side) (a : α)
    (h : t.descend ds = some (.leaf a)) : a ∈ t.leaves := by
  induction ds generalizing t with
  | nil =>
      rw [descend, Option.some.injEq] at h
      rw [h, leaves]
      exact List.mem_singleton_self a
  | cons d ds ih =>
      cases t with
      | leaf b => simp only [descend, reduceCtorEq] at h
      | node l r =>
          cases d with
          | left => exact List.mem_append_left _ (ih l h)
          | right => exact List.mem_append_right _ (ih r h)

theorem descend_append (t : HashTree α) (ds es : List Side) :
    t.descend (ds ++ es) = (t.descend ds).bind fun s => s.descend es := by
  induction ds generalizing t with
  | nil => simp only [List.nil_append, descend, Option.bind_some]
  | cons d ds ih =>
      cases t with
      | leaf a => simp only [List.cons_append, descend, Option.bind_none]
      | node l r => cases d <;> simp only [List.cons_append, descend, ih]

end HashTree

namespace HashScheme

variable (S : HashScheme α ι δ)

/-- The name of a tree. -/
def digest : HashTree α → δ
  | .leaf a => S.leafName a
  | .node l r => S.ask (S.nodeQuery (digest l) (digest r))

/-- The questions asked to name the nodes of a tree. -/
def queries : HashTree α → List ι
  | .leaf _ => []
  | .node l r => queries l ++ queries r ++ [S.nodeQuery (S.digest l) (S.digest r)]

/-- The digests beside the path taken by a sequence of turns, from the root
    down; the path stops where the tree does. -/
def siblings : HashTree α → List Side → List δ
  | .node l r, Side.left :: ds => S.digest r :: siblings l ds
  | .node l r, Side.right :: ds => S.digest l :: siblings r ds
  | _, _ => []

/-- The name of the root, from the name at the end of a path and the
    siblings along it; the path is listed from the root down. -/
def climb (x : δ) : List (Side × δ) → δ
  | [] => x
  | (.left, s) :: path => S.ask (S.nodeQuery (climb x path) s)
  | (.right, s) :: path => S.ask (S.nodeQuery s (climb x path))

/-- The questions asked by a climb. -/
def climbQueries (x : δ) : List (Side × δ) → List ι
  | [] => []
  | (.left, s) :: path => climbQueries x path ++ [S.nodeQuery (S.climb x path) s]
  | (.right, s) :: path => climbQueries x path ++ [S.nodeQuery s (S.climb x path)]

theorem climb_append (x : δ) (p q : List (Side × δ)) :
    S.climb x (p ++ q) = S.climb (S.climb x q) p := by
  induction p with
  | nil => rfl
  | cons step p ih =>
      rcases step with ⟨d, s⟩
      cases d <;> simp only [List.cons_append, climb, ih]

theorem climbQueries_append (x : δ) (p q : List (Side × δ)) :
    S.climbQueries x (p ++ q) = S.climbQueries x q ++ S.climbQueries (S.climb x q) p := by
  induction p with
  | nil => simp only [List.nil_append, climbQueries, List.append_nil]
  | cons step p ih =>
      rcases step with ⟨d, s⟩
      cases d <;> simp only [List.cons_append, climbQueries, ih, climb_append, List.append_assoc]

/-- None of the leaves has the name that answers one of the questions. -/
def LeafSafe (as : List α) (qs : List ι) : Prop :=
  ∀ a ∈ as, ∀ q ∈ qs, S.leafName a ≠ S.ask q

/-- A name determines its tree, if no two of the questions collide and the
    leaf names are told apart from each other and from the node names. -/
theorem digest_inj (t t' : HashTree α)
    (hcf : CollisionFree S.ask (S.queries t ++ S.queries t'))
    (hleaf : CollisionFree S.leafName (t.leaves ++ t'.leaves))
    (hsafe : S.LeafSafe (t.leaves ++ t'.leaves) (S.queries t ++ S.queries t'))
    (h : S.digest t = S.digest t') : t = t' := by
  induction t generalizing t' with
  | leaf a =>
      cases t' with
      | leaf b =>
          -- Two leaves: their names are told apart by assumption.
          have hab := hleaf a (by simp [HashTree.leaves]) b (by simp [HashTree.leaves]) h
          rw [hab]
      | node l r =>
          -- A leaf with a node's name is what `LeafSafe` excludes.
          exact absurd h (hsafe a (by simp [HashTree.leaves]) _ (by simp [queries]))
  | node l r ihl ihr =>
      cases t' with
      | leaf b =>
          exact absurd h.symm (hsafe b (by simp [HashTree.leaves]) _ (by simp [queries]))
      | node l' r' =>
          -- One answer to two questions: the questions, and so the children's names, agree.
          have hq := hcf (S.nodeQuery (S.digest l) (S.digest r)) (by simp [queries])
            (S.nodeQuery (S.digest l') (S.digest r')) (by simp [queries]) h
          have hlr := S.nodeQuery_inj _ _ _ _ hq
          -- The assumptions about the nodes hold of their children.
          have hql : S.queries l ++ S.queries l' ⊆
              S.queries (.node l r) ++ S.queries (.node l' r') := by
            intro q hq
            simp only [queries, List.mem_append] at hq ⊢
            tauto
          have hqr : S.queries r ++ S.queries r' ⊆
              S.queries (.node l r) ++ S.queries (.node l' r') := by
            intro q hq
            simp only [queries, List.mem_append] at hq ⊢
            tauto
          have hll : l.leaves ++ l'.leaves ⊆
              (HashTree.node l r).leaves ++ (HashTree.node l' r').leaves := by
            intro a ha
            simp only [HashTree.leaves, List.mem_append] at ha ⊢
            tauto
          have hlr' : r.leaves ++ r'.leaves ⊆
              (HashTree.node l r).leaves ++ (HashTree.node l' r').leaves := by
            intro a ha
            simp only [HashTree.leaves, List.mem_append] at ha ⊢
            tauto
          rw [ihl l' (hcf.mono _ _ _ hql) (hleaf.mono _ _ _ hll)
              (fun a ha q hq => hsafe a (hll ha) q (hql hq)) hlr.1,
            ihr r' (hcf.mono _ _ _ hqr) (hleaf.mono _ _ _ hlr')
              (fun a ha q hq => hsafe a (hlr' ha) q (hqr hq)) hlr.2]

@[simp] theorem siblings_nil (t : HashTree α) : S.siblings t [] = [] := by
  cases t <;> rfl

theorem siblings_singleton (t s : HashTree α) (d : Side) (h : t.opposite d = some s) :
    S.siblings t [d] = [S.digest s] := by
  cases t with
  | leaf a => simp only [HashTree.opposite, reduceCtorEq] at h
  | node l r =>
      cases d <;> simp only [HashTree.opposite, Option.some.injEq] at h <;>
        simp only [siblings, siblings_nil, h]

theorem length_siblings (t s : HashTree α) (ds : List Side) (h : t.descend ds = some s) :
    (S.siblings t ds).length = ds.length := by
  induction ds generalizing t with
  | nil => rw [siblings_nil, List.length_nil, List.length_nil]
  | cons d ds ih =>
      cases t with
      | leaf a => simp only [HashTree.descend, reduceCtorEq] at h
      | node l r =>
          cases d with
          | left => simp only [siblings, List.length_cons, ih l h]
          | right => simp only [siblings, List.length_cons, ih r h]

/-- Appending a turn appends the sibling passed there. -/
theorem siblings_append (t s : HashTree α) (ds es : List Side) (h : t.descend ds = some s) :
    S.siblings t (ds ++ es) = S.siblings t ds ++ S.siblings s es := by
  induction ds generalizing t with
  | nil =>
      simp only [HashTree.descend, Option.some.injEq] at h
      rw [List.nil_append, siblings_nil, List.nil_append, h]
  | cons d ds ih =>
      cases t with
      | leaf a => simp only [HashTree.descend, reduceCtorEq] at h
      | node l r =>
          cases d with
          | left => simp only [List.cons_append, siblings, ih l h]
          | right => simp only [List.cons_append, siblings, ih r h]

/-- The tree's own siblings climb from a subtree's name to the tree's. -/
theorem climb_siblings (t s : HashTree α) (ds : List Side) (h : t.descend ds = some s) :
    S.climb (S.digest s) (ds.zip (S.siblings t ds)) = S.digest t := by
  induction ds generalizing t with
  | nil =>
      simp only [HashTree.descend, Option.some.injEq] at h
      simp only [List.zip_nil_left, climb, h]
  | cons d ds ih =>
      cases t with
      | leaf a => simp only [HashTree.descend, reduceCtorEq] at h
      | node l r =>
          cases d with
          | left => simp only [siblings, List.zip_cons_cons, climb, digest, ih l h]
          | right => simp only [siblings, List.zip_cons_cons, climb, digest, ih r h]

/-- The questions of the tree's own climb are questions of the tree. -/
theorem climbQueries_siblings (t s : HashTree α) (ds : List Side) (h : t.descend ds = some s) :
    S.climbQueries (S.digest s) (ds.zip (S.siblings t ds)) ⊆ S.queries t := by
  induction ds generalizing t with
  | nil => exact List.nil_subset _
  | cons d ds ih =>
      cases t with
      | leaf a => simp only [HashTree.descend, reduceCtorEq] at h
      | node l r =>
          cases d with
          | left =>
              have hclimb := S.climb_siblings l s ds h
              simp only [siblings, List.zip_cons_cons, climbQueries, queries, hclimb,
                List.append_subset]
              exact ⟨fun q hq => by simp [ih l h hq], by simp⟩
          | right =>
              have hclimb := S.climb_siblings r s ds h
              simp only [siblings, List.zip_cons_cons, climbQueries, queries, hclimb,
                List.append_subset]
              exact ⟨fun q hq => by simp [ih r h hq], by simp⟩

/-- The nodes of a subtree are nodes of the tree. -/
theorem queries_of_descend (t s : HashTree α) (ds : List Side) (h : t.descend ds = some s) :
    S.queries s ⊆ S.queries t := by
  induction ds generalizing t with
  | nil =>
      rw [HashTree.descend, Option.some.injEq] at h
      rw [h]
      exact List.Subset.refl _
  | cons d ds ih =>
      cases t with
      | leaf a => simp only [HashTree.descend, reduceCtorEq] at h
      | node l r =>
          cases d with
          | left => exact fun q hq => by simp [queries, ih l h hq]
          | right => exact fun q hq => by simp [queries, ih r h hq]

theorem mem_queries (t : HashTree α) (q : ι) (h : q ∈ S.queries t) :
    ∃ x y, q = S.nodeQuery x y := by
  induction t with
  | leaf a => exact absurd h List.not_mem_nil
  | node l r ihl ihr =>
      simp only [queries, List.mem_append, List.mem_singleton] at h
      rcases h with (h | h) | h
      · exact ihl h
      · exact ihr h
      · exact ⟨_, _, h⟩

theorem mem_climbQueries (x : δ) (path : List (Side × δ)) (q : ι)
    (h : q ∈ S.climbQueries x path) : ∃ y z, q = S.nodeQuery y z := by
  induction path with
  | nil => exact absurd h List.not_mem_nil
  | cons step path ih =>
      rcases step with ⟨d, s⟩
      cases d with
      | left =>
          simp only [climbQueries, List.mem_append, List.mem_singleton] at h
          rcases h with h | h
          · exact ih h
          · exact ⟨_, _, h⟩
      | right =>
          simp only [climbQueries, List.mem_append, List.mem_singleton] at h
          rcases h with h | h
          · exact ih h
          · exact ⟨_, _, h⟩

/-- A climb of at least one step ends with an answer. -/
theorem exists_ask_climb (x : δ) (path : List (Side × δ)) (h : path ≠ []) :
    ∃ q ∈ S.climbQueries x path, S.climb x path = S.ask q := by
  cases path with
  | nil => exact absurd rfl h
  | cons step path =>
      rcases step with ⟨d, s⟩
      cases d with
      | left => exact ⟨_, List.mem_append_right _ (List.mem_singleton_self _), rfl⟩
      | right => exact ⟨_, List.mem_append_right _ (List.mem_singleton_self _), rfl⟩

/-- The questions of a shorter climb in a child are asked by the longer one
    in the whole tree. -/
theorem queries_climb_child (l r : HashTree α) (x : δ) (d : Side) (y : δ)
    (path : List (Side × δ)) :
    S.queries l ++ S.climbQueries x path ⊆
        S.queries (.node l r) ++ S.climbQueries x ((d, y) :: path) ∧
      S.queries r ++ S.climbQueries x path ⊆
        S.queries (.node l r) ++ S.climbQueries x ((d, y) :: path) := by
  constructor
  all_goals
    intro q hq
    cases d <;> simp only [queries, climbQueries, List.mem_append] at hq ⊢ <;> tauto

/-- A node's question answered the same way as a climb's last one names the
    same pair. -/
theorem climb_step_inj (l r : HashTree α) (y y' : δ) (qs : List ι)
    (hcf : CollisionFree S.ask (S.queries (.node l r) ++ qs)) (hmem : S.nodeQuery y y' ∈ qs)
    (h : S.ask (S.nodeQuery y y') = S.digest (.node l r)) :
    y = S.digest l ∧ y' = S.digest r :=
  S.nodeQuery_inj _ _ _ _ (hcf _ (List.mem_append_right _ hmem)
    (S.nodeQuery (S.digest l) (S.digest r)) (by simp [queries]) h)

/-- A climb along turns that lead to a subtree, and that reaches the tree's
    name, started at that subtree's name and used the tree's own siblings. -/
theorem climb_inj (t s : HashTree α) (x : δ) (path : List (Side × δ))
    (hcf : CollisionFree S.ask (S.queries t ++ S.climbQueries x path))
    (hs : t.descend (path.map Prod.fst) = some s) (h : S.climb x path = S.digest t) :
    S.digest s = x ∧ path.map Prod.snd = S.siblings t (path.map Prod.fst) := by
  -- From the root down: the last question of the climb is the root's question.
  induction path generalizing t with
  | nil =>
      rw [List.map_nil, HashTree.descend, Option.some.injEq] at hs
      rw [List.map_nil, List.map_nil, siblings_nil, ← hs]
      exact ⟨h.symm, rfl⟩
  | cons step path ih =>
      rcases step with ⟨d, y⟩
      cases t with
      | leaf a => simp only [List.map_cons, HashTree.descend, reduceCtorEq] at hs
      | node l r =>
          cases d with
          | left =>
              have hlr := S.climb_step_inj l r _ _ _ hcf (by simp [climbQueries]) h
              have hsub := (S.queries_climb_child l r x .left y path).1
              rcases ih l (hcf.mono _ _ _ hsub) hs hlr.1 with ⟨hx, hsib⟩
              exact ⟨hx, by simp only [List.map_cons, siblings, hsib, hlr.2]⟩
          | right =>
              have hlr := S.climb_step_inj l r _ _ _ hcf (by simp [climbQueries]) h
              have hsub := (S.queries_climb_child l r x .right y path).2
              rcases ih r (hcf.mono _ _ _ hsub) hs hlr.2 with ⟨hx, hsib⟩
              exact ⟨hx, by simp only [List.map_cons, siblings, hsib, hlr.1]⟩

/-- A climb that reaches the tree's name keeps to the tree, if no leaf has
    the name of a node. It may stop above the leaves. -/
theorem descend_of_climb (t : HashTree α) (x : δ) (path : List (Side × δ))
    (hcf : CollisionFree S.ask (S.queries t ++ S.climbQueries x path))
    (hsafe : S.LeafSafe t.leaves (S.climbQueries x path)) (h : S.climb x path = S.digest t) :
    ∃ s, t.descend (path.map Prod.fst) = some s := by
  induction path generalizing t with
  | nil => exact ⟨t, by rw [List.map_nil, HashTree.descend]⟩
  | cons step path ih =>
      rcases step with ⟨d, y⟩
      cases t with
      | leaf a =>
          -- The climb would leave the tree through a leaf with a node's name.
          exfalso
          cases d with
          | left =>
              exact hsafe a (by simp [HashTree.leaves]) _ (by simp [climbQueries]) h.symm
          | right =>
              exact hsafe a (by simp [HashTree.leaves]) _ (by simp [climbQueries]) h.symm
      | node l r =>
          cases d with
          | left =>
              have hlr := S.climb_step_inj l r _ _ _ hcf (by simp [climbQueries]) h
              have hsub := (S.queries_climb_child l r x .left y path).1
              exact ih l (hcf.mono _ _ _ hsub) (fun a ha q hq => hsafe a
                (List.mem_append_left _ ha) q (List.mem_append_left _ hq)) hlr.1
          | right =>
              have hlr := S.climb_step_inj l r _ _ _ hcf (by simp [climbQueries]) h
              have hsub := (S.queries_climb_child l r x .right y path).2
              exact ih r (hcf.mono _ _ _ hsub) (fun a ha q hq => hsafe a
                (List.mem_append_right _ ha) q (List.mem_append_left _ hq)) hlr.2

end HashScheme

section Levels

/-- One level of pairs; a lone trailing tree is promoted unchanged. -/
def pairUp : List (HashTree α) → List (HashTree α)
  | a :: b :: ts => .node a b :: pairUp ts
  | [t] => [t]
  | [] => []

theorem length_pairUp (ts : List (HashTree α)) : (pairUp ts).length = (ts.length + 1) / 2 := by
  induction ts using pairUp.induct with
  | case1 a b ts ih =>
      simp only [pairUp, List.length_cons, ih]
      omega
  | case2 t => simp only [pairUp, List.length_cons, List.length_nil]
  | case3 => simp only [pairUp, List.length_nil]

theorem leaves_pairUp (ts : List (HashTree α)) :
    (pairUp ts).flatMap HashTree.leaves = ts.flatMap HashTree.leaves := by
  induction ts using pairUp.induct with
  | case1 a b ts ih =>
      simp only [pairUp, List.flatMap_cons, ih, HashTree.leaves, List.append_assoc]
  | case2 t => rfl
  | case3 => rfl

/-- Levels of pairs until one tree is left; no tree for an empty level. -/
def grow : List (HashTree α) → Option (HashTree α)
  | [] => none
  | [t] => some t
  | a :: b :: ts => grow (pairUp (a :: b :: ts))
termination_by ts => ts.length
decreasing_by
  simp only [length_pairUp, List.length_cons]
  omega

theorem exists_grow (ts : List (HashTree α)) (h : ts ≠ []) : ∃ t, grow ts = some t := by
  induction ts using grow.induct with
  | case1 => exact absurd rfl h
  | case2 t => exact ⟨t, by rw [grow]⟩
  | case3 a b ts ih =>
      rw [grow]
      exact ih (by simp only [pairUp, ne_eq, reduceCtorEq, not_false_eq_true])

theorem leaves_grow (ts : List (HashTree α)) (t : HashTree α) (h : grow ts = some t) :
    t.leaves = ts.flatMap HashTree.leaves := by
  induction ts using grow.induct with
  | case1 => simp only [grow, reduceCtorEq] at h
  | case2 s =>
      rw [grow, Option.some.injEq] at h
      simp only [h, List.flatMap_cons, List.flatMap_nil, List.append_nil]
  | case3 a b ts ih =>
      rw [grow] at h
      rw [ih h, leaves_pairUp]

/-- The side an entry of a level has under its parent. -/
def sideOf (idx : Nat) : Side :=
  if idx % 2 = 0 then .left else .right

/-- The turns from the `idx`-th of `n` entries up to the root, lowest first.
    A lone trailing entry takes no turn at its level. -/
def route (idx n : Nat) : List Side :=
  if n ≤ 1 then []
  else if idx = n - 1 ∧ n % 2 = 1 then route (idx / 2) ((n + 1) / 2)
  else sideOf idx :: route (idx / 2) ((n + 1) / 2)
termination_by n
decreasing_by all_goals omega

theorem route_of_le (idx n : Nat) (h : n ≤ 1) : route idx n = [] := by
  rw [route, if_pos h]

theorem route_lone (idx n : Nat) (hn : 1 < n) (h : idx = n - 1 ∧ n % 2 = 1) :
    route idx n = route (idx / 2) ((n + 1) / 2) := by
  rw [route, if_neg (by omega), if_pos h]

theorem route_paired (idx n : Nat) (hn : 1 < n) (h : ¬ (idx = n - 1 ∧ n % 2 = 1)) :
    route idx n = sideOf idx :: route (idx / 2) ((n + 1) / 2) := by
  rw [route, if_neg (by omega), if_neg h]

/-- Of more than one entry, every one takes a turn on its way up. -/
theorem route_ne_nil (idx n : Nat) (hn : 1 < n) : route idx n ≠ [] := by
  induction n using Nat.strongRecOn generalizing idx with
  | _ n ih =>
    by_cases hlone : idx = n - 1 ∧ n % 2 = 1
    -- A lone entry has at least one neighbour on the next level.
    · rw [route_lone idx n hn hlone]
      exact ih ((n + 1) / 2) (by omega) (idx / 2) (by omega)
    · rw [route_paired idx n hn hlone]
      exact List.cons_ne_nil _ _

/-- On some level of more than one entry, the entry is the lone trailing one.
    Level `k` has `(n - 1) / 2 ^ k + 1` entries. -/
def Promoted (idx n : Nat) : Prop :=
  ∃ k < n, 0 < (n - 1) / 2 ^ k ∧ idx / 2 ^ k = (n - 1) / 2 ^ k ∧ (n - 1) / 2 ^ k % 2 = 0

instance (idx n : Nat) : Decidable (Promoted idx n) :=
  inferInstanceAs (Decidable (∃ k < n, _ ∧ _ ∧ _))

/-- There are fewer levels than entries. -/
theorem promoted_iff (idx n : Nat) :
    Promoted idx n ↔
      ∃ k, 0 < (n - 1) / 2 ^ k ∧ idx / 2 ^ k = (n - 1) / 2 ^ k ∧ (n - 1) / 2 ^ k % 2 = 0 := by
  refine ⟨fun ⟨k, _, h⟩ => ⟨k, h⟩, fun ⟨k, h⟩ => ⟨k, ?_, h⟩⟩
  have hk := Nat.lt_two_pow_self (n := k)
  have hpow := (Nat.div_pos_iff.mp h.1).2
  omega

/-- The next level, counted from one less than its size. -/
theorem half_level (n k : Nat) (hn : 1 < n) :
    ((n + 1) / 2 - 1) / 2 ^ k = (n - 1) / 2 ^ (k + 1) := by
  rw [Nat.pow_succ', ← Nat.div_div_eq_div_mul, show (n + 1) / 2 - 1 = (n - 1) / 2 by omega]

theorem promoted_half (idx n : Nat) (hn : 1 < n) (h : Promoted (idx / 2) ((n + 1) / 2)) :
    Promoted idx n := by
  rw [promoted_iff] at h ⊢
  rcases h with ⟨k, hpos, hlast, heven⟩
  rw [half_level n k hn] at hpos hlast heven
  rw [Nat.div_div_eq_div_mul, ← Nat.pow_succ'] at hlast
  exact ⟨k + 1, hpos, hlast, heven⟩

theorem promoted_lone (idx n : Nat) (hn : 1 < n) (h : idx = n - 1 ∧ n % 2 = 1) :
    Promoted idx n := by
  refine ⟨0, by omega, ?_, ?_, ?_⟩
  · rw [Nat.pow_zero, Nat.div_one]
    omega
  · rw [Nat.pow_zero, Nat.div_one, Nat.div_one]
    exact h.1
  · rw [Nat.pow_zero, Nat.div_one]
    omega

theorem promoted_of_paired (idx n : Nat) (hn : 1 < n) (hpair : ¬ (idx = n - 1 ∧ n % 2 = 1))
    (h : Promoted idx n) : Promoted (idx / 2) ((n + 1) / 2) := by
  rw [promoted_iff] at h ⊢
  rcases h with ⟨k, hpos, hlast, heven⟩
  cases k with
  | zero =>
      rw [Nat.pow_zero, Nat.div_one] at hpos heven
      rw [Nat.pow_zero, Nat.div_one, Nat.div_one] at hlast
      omega
  | succ k =>
      rw [← half_level n k hn] at hpos hlast heven
      rw [Nat.pow_succ', ← Nat.div_div_eq_div_mul] at hlast
      exact ⟨k, hpos, hlast, heven⟩

/-- An entry that is never promoted takes the turns of a full tree, of as many
    levels as it has turns. -/
theorem route_of_not_promoted (idx n : Nat) (h : idx < n) (hnot : ¬ Promoted idx n) :
    n ≤ 2 ^ (route idx n).length ∧
      route idx (2 ^ (route idx n).length) = route idx n := by
  induction n using Nat.strongRecOn generalizing idx with
  | _ n ih =>
    by_cases hn : 1 < n
    · by_cases hlone : idx = n - 1 ∧ n % 2 = 1
      · exact absurd (promoted_lone idx n hn hlone) hnot
      · have hup := ih ((n + 1) / 2) (by omega) (idx / 2) (by omega)
          (fun hp => hnot (promoted_half idx n hn hp))
        rw [route_paired idx n hn hlone, List.length_cons, Nat.pow_succ']
        refine ⟨by omega, ?_⟩
        have hpos := Nat.two_pow_pos (route (idx / 2) ((n + 1) / 2)).length
        rw [route_paired _ _ (by omega) (by omega),
          show (2 * 2 ^ (route (idx / 2) ((n + 1) / 2)).length + 1) / 2
            = 2 ^ (route (idx / 2) ((n + 1) / 2)).length by omega, hup.2]
    · rw [route_of_le idx n (by omega)]
      refine ⟨by rw [List.length_nil, Nat.pow_zero]; omega, ?_⟩
      exact route_of_le _ _ (Nat.le_refl 1)

/-- There are no more turns than levels. -/
theorem two_pow_length_route_le (idx n : Nat) (hn : 1 < n) :
    2 ^ (route idx n).length ≤ 2 * (n - 1) := by
  induction n using Nat.strongRecOn generalizing idx with
  | _ n ih =>
    -- Half as many entries are left, or the one root.
    have hup : 2 ^ (route (idx / 2) ((n + 1) / 2)).length ≤ n - 1 := by
      by_cases hmore : 1 < (n + 1) / 2
      · have hle := ih ((n + 1) / 2) (by omega) (idx / 2) hmore
        omega
      · rw [route_of_le _ _ (by omega), List.length_nil, Nat.pow_zero]
        omega
    by_cases hlone : idx = n - 1 ∧ n % 2 = 1
    · rw [route_lone idx n hn hlone]
      omega
    · rw [route_paired idx n hn hlone, List.length_cons, Nat.pow_succ']
      omega

/-- The last entry takes few turns. -/
theorem two_pow_length_route_last (n : Nat) (hn : 0 < n) :
    2 ^ (route (n - 1) n).length ≤ n := by
  induction n using Nat.strongRecOn with
  | _ n ih =>
    by_cases h1 : 1 < n
    · have hup := ih ((n + 1) / 2) (by omega) (by omega)
      rw [show (n + 1) / 2 - 1 = (n - 1) / 2 by omega] at hup
      by_cases hlone : n - 1 = n - 1 ∧ n % 2 = 1
      · rw [route_lone _ n h1 hlone]
        omega
      · rw [route_paired _ n h1 hlone, List.length_cons, Nat.pow_succ']
        omega
    · rw [route_of_le _ n (by omega), List.length_nil, Nat.pow_zero]
      omega

/-- An entry that is promoted takes too few turns for its own position. -/
theorem two_pow_length_route_of_promoted (idx n : Nat) (h : Promoted idx n) :
    2 ^ (route idx n).length ≤ idx := by
  induction n using Nat.strongRecOn generalizing idx with
  | _ n ih =>
    have hn : 1 < n := by
      rcases h with ⟨k, -, hpos, -, -⟩
      have hle := Nat.div_le_self (n - 1) (2 ^ k)
      omega
    by_cases hlone : idx = n - 1 ∧ n % 2 = 1
    · -- Promoted here: half as many entries are left, and the turns go by their number.
      rw [route_lone idx n hn hlone]
      have hlast := two_pow_length_route_last ((n + 1) / 2) (by omega)
      rw [show (n + 1) / 2 - 1 = idx / 2 by omega] at hlast
      omega
    · have hup := ih ((n + 1) / 2) (by omega) (idx / 2) (promoted_of_paired idx n hn hlone h)
      rw [route_paired idx n hn hlone, List.length_cons, Nat.pow_succ']
      omega

/-- Two neighbours sit under one node of the next level. -/
theorem getElem?_pairUp (ts : List (HashTree α)) (k : Nat) (h : 2 * k + 1 < ts.length) :
    ∃ a b, ts[2 * k]? = some a ∧ ts[2 * k + 1]? = some b ∧ (pairUp ts)[k]? = some (.node a b) := by
  induction ts using pairUp.induct generalizing k with
  | case1 a b ts ih =>
      -- The first pair, or one of the rest.
      cases k with
      | zero => exact ⟨a, b, by simp only [pairUp, Nat.mul_zero, Nat.zero_add,
          List.getElem?_cons_zero, List.getElem?_cons_succ, and_self]⟩
      | succ k =>
          simp only [List.length_cons] at h
          rcases ih k (by omega) with ⟨c, d, hc, hd, hcd⟩
          refine ⟨c, d, ?_, ?_, ?_⟩
          · rw [show 2 * (k + 1) = 2 * k + 1 + 1 by omega, List.getElem?_cons_succ,
              List.getElem?_cons_succ, hc]
          · rw [show 2 * (k + 1) + 1 = 2 * k + 1 + 1 + 1 by omega, List.getElem?_cons_succ,
              List.getElem?_cons_succ, hd]
          · rw [pairUp, List.getElem?_cons_succ, hcd]
  | case2 t =>
      rw [List.length_singleton] at h
      omega
  | case3 => exact absurd h (Nat.not_lt_zero _)

/-- The other entry of a pair. -/
def partner (idx : Nat) : Nat :=
  if idx % 2 = 0 then idx + 1 else idx - 1

/-- A paired entry sits under its parent on its own side, across from its
    partner. -/
theorem paired_pairUp (ts : List (HashTree α)) (idx : Nat)
    (h : idx < ts.length) (hpair : ¬ (idx = ts.length - 1 ∧ ts.length % 2 = 1)) :
    ∃ p t s, (pairUp ts)[idx / 2]? = some p ∧ ts[idx]? = some t ∧ ts[partner idx]? = some s ∧
      p.descend [sideOf idx] = some t ∧ p.opposite (sideOf idx) = some s := by
  rcases getElem?_pairUp ts (idx / 2) (by omega) with ⟨a, b, ha, hb, hp⟩
  -- The parity of the index is its side.
  rcases Nat.mod_two_eq_zero_or_one idx with hmod | hmod
  · have hidx : 2 * (idx / 2) = idx := by omega
    rw [hidx] at ha hb
    refine ⟨_, a, b, hp, ha, ?_, ?_, ?_⟩
    · rw [partner, if_pos hmod, hb]
    · simp only [sideOf, if_pos hmod, HashTree.descend]
    · simp only [sideOf, if_pos hmod, HashTree.opposite]
  · have hidx : 2 * (idx / 2) + 1 = idx := by omega
    have hne : ¬ idx % 2 = 0 := by omega
    rw [hidx] at hb
    refine ⟨_, b, a, hp, hb, ?_, ?_, ?_⟩
    · rw [partner, if_neg hne, ← ha]
      congr 1
      omega
    · simp only [sideOf, if_neg hne, HashTree.descend]
    · simp only [sideOf, if_neg hne, HashTree.opposite]

/-- A lone trailing entry is its own parent. -/
theorem getElem?_pairUp_last (ts : List (HashTree α)) (hodd : ts.length % 2 = 1) :
    (pairUp ts)[(ts.length - 1) / 2]? = ts[ts.length - 1]? := by
  induction ts using pairUp.induct with
  | case1 a b ts ih =>
      simp only [List.length_cons] at hodd ⊢
      have hdiv : (ts.length + 1 + 1 - 1) / 2 = (ts.length - 1) / 2 + 1 := by omega
      have hlast : ts.length + 1 + 1 - 1 = (ts.length - 1) + 1 + 1 := by omega
      rw [pairUp, hdiv, hlast, List.getElem?_cons_succ, List.getElem?_cons_succ,
        List.getElem?_cons_succ]
      exact ih (by omega)
  | case2 t => simp only [pairUp, List.length_singleton, Nat.sub_self, Nat.zero_div]
  | case3 => rfl

/-- The route of an entry leads from the root back to it. -/
theorem descend_route (ts : List (HashTree α)) (t : HashTree α) (idx : Nat)
    (h : idx < ts.length) (hgrow : grow ts = some t) :
    t.descend (route idx ts.length).reverse = ts[idx]? := by
  induction ts using grow.induct generalizing idx with
  | case1 => simp only [List.length_nil, Nat.not_lt_zero] at h
  | case2 s =>
      rw [grow, Option.some.injEq] at hgrow
      have hidx : idx = 0 := by
        simp only [List.length_cons, List.length_nil] at h
        omega
      rw [route_of_le _ _ (by simp), hidx, hgrow]
      simp [HashTree.descend]
  | case3 a b ts ih =>
      rw [grow] at hgrow
      have hn : 1 < (a :: b :: ts).length := by
        simp only [List.length_cons]
        omega
      have hup := ih (idx / 2) (by rw [length_pairUp]; omega) hgrow
      rw [length_pairUp] at hup
      by_cases hlone : idx = (a :: b :: ts).length - 1 ∧ (a :: b :: ts).length % 2 = 1
      -- A promoted entry is found where its parent is.
      · rw [route_lone _ _ hn hlone, hup, hlone.1]
        exact getElem?_pairUp_last (a :: b :: ts) hlone.2
      -- A paired one is one turn below it.
      · rcases paired_pairUp (a :: b :: ts) idx h hlone with ⟨p, c, -, hp, hc, -, hdesc, -⟩
        rw [route_paired _ _ hn hlone, List.reverse_cons, HashTree.descend_append, hup, hp,
          Option.bind_some, hdesc, hc]

end Levels

end Veil7
