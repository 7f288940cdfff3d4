import Veil7.Core.Shake256

/-!
# The Merkle Inclusion Relation

`relations/merkle.rs`: the tree builder, the path recorded on the way, the
verifier's replay, and the entry points over them.

The builder and the verifier are two loops over levels. Both halve the index
and round the level size up, and both skip a lone trailing node, which moves
to the next level unchanged. The builder's loop ends because a level of more
than one node has a shorter next level (`length_nextLevel`); the verifier's
loop counts the level size down without ever seeing a level.

`MerkleInclusion::verify` and `merkle_verify_path` spell out the same loop.
It is `replay` here, and each of the two is written on top of it with its own
arguments and its own result type.

## Main definitions

* `leafHash`, `nodeHash`: The two tagged hashes.
* `nextLevel`: One level of pairs.
* `rootAndPath`: The root and the path of an index.
* `replay`: The verifier's loop.
* `prove`, `verify`, `statementFromWitness`: The relation.
* `merkleRoot`, `merkleVerifyPath`: The standalone helpers.
-/

namespace Veil7

namespace Merkle

/-- A leaf or node name, `[u8; HASH]`. -/
abbrev Digest : Type := Block 32

@[ext]
structure Statement where
  root : Digest
  leaf : Digest
deriving DecidableEq

structure Witness where
  leaves : List Bytes
  index : Nat

structure Proof where
  siblings : List Digest
  index : Nat
  leafCount : Nat

section

variable (X : Xof)

def leafHash (data : Bytes) : Hashing Digest := h32 X [Domain.merkleLeaf, data]

def nodeHash (left right : Digest) : Hashing Digest :=
  h32 X [Domain.merkleNode, left.toList, right.toList]

def baseLevel (leaves : List Bytes) : Hashing (List Digest) := leaves.mapM (leafHash X)

/-- The next level: neighbours hashed in pairs, a lone trailing node
    promoted. -/
def nextLevel : List Digest → Hashing (List Digest)
  | left :: right :: rest => do
    let node ← nodeHash X left right
    let next ← nextLevel rest
    pure (node :: next)
  | [last] => pure [last]
  | [] => pure []

theorem length_nextLevel (level : List Digest) :
    (nextLevel X level).val.length = (level.length + 1) / 2 := by
  induction level using nextLevel.induct with
  | case1 left right rest ih =>
      simp only [nextLevel, Queried.val_bind, Queried.val_pure, List.length_cons, ih]
      omega
  | case2 last => simp only [nextLevel, Queried.val_pure, List.length_cons, List.length_nil]
  | case3 => simp only [nextLevel, Queried.val_pure, List.length_nil]

/-- The sibling recorded at one level, if any. The source indexes the level
    directly; for an index of the level both accesses are in bounds. -/
def sibling (level : List Digest) (idx : Nat) : List Digest :=
  if idx = level.length - 1 ∧ level.length % 2 = 1 then []
  else if idx % 2 = 0 then [level.getD (idx + 1) (zeros 32)]
  else [level.getD (idx - 1) (zeros 32)]

def rootAndPath (level : List Digest) (idx : Nat) : Hashing (Digest × List Digest) :=
  if _h : 1 < level.length then do
    let ⟨next, _hnext⟩ ← (nextLevel X level).attach
    let (root, path) ← rootAndPath next (idx / 2)
    pure (root, sibling level idx ++ path)
  else pure (level.headD (zeros 32), [])
termination_by level.length
decreasing_by
  rw [_hnext, length_nextLevel]
  omega

/-- The verifier's loop over levels, from the name `hash` at position `idx`
    of a level of `n`: the final name, the siblings used, and whether the
    path was long enough. -/
def replay (siblings : List Digest) (hash : Digest) (idx n used : Nat) :
    Hashing (Digest × Nat × Choice) :=
  if 1 < n then
    -- The lone trailing node was promoted: it has no sibling on this level.
    if idx = n - 1 ∧ n % 2 = 1 then replay siblings hash (idx / 2) ((n + 1) / 2) used
    else match siblings[used]? with
      | some sib => do
        let hash ← (if idx % 2 = 0 then nodeHash X hash sib
          else nodeHash X sib hash : Hashing Digest)
        replay siblings hash (idx / 2) ((n + 1) / 2) (used + 1)
      -- A path that is too short.
      | none => pure (hash, used, false)
  else pure (hash, used, true)
termination_by n
decreasing_by all_goals omega

def merkleVerifyPath (leaf root : Digest) (index : Nat) (siblings : List Digest)
    (leafCount : Nat) : Hashing Choice :=
  if leafCount = 0 ∨ leafCount ≤ index then pure false
  else do
    let (hash, used, ok) ← replay X siblings leaf index leafCount 0
    -- Leftover siblings mean the path was too long.
    let ok := if used ≠ siblings.length then false else ok
    pure (ok && decide (hash = root))

def verify (stmt : Statement) (proof : Proof) : Hashing (Except VeilError Choice) :=
  if proof.leafCount = 0 ∨ proof.leafCount ≤ proof.index then pure (.ok false)
  else do
    let (hash, used, ok) ← replay X proof.siblings stmt.leaf proof.index proof.leafCount 0
    let ok := if used ≠ proof.siblings.length then false else ok
    pure (.ok (ok && decide (hash = stmt.root)))

def statementFromWitness (witness : Witness) : Hashing Statement := do
  let base ← baseLevel X witness.leaves
  -- No error here: an impossible witness gets a statement of zeros.
  if base.isEmpty ∨ base.length ≤ witness.index then
    pure { root := zeros 32, leaf := zeros 32 }
  else do
    let leaf := base.getD witness.index (zeros 32)
    let (root, _) ← rootAndPath X base witness.index
    pure { root := root, leaf := leaf }

def prove (witness : Witness) : Hashing (Except VeilError (Statement × Proof)) := do
  let base ← baseLevel X witness.leaves
  if base.isEmpty ∨ base.length ≤ witness.index then pure (.error .crypto)
  else do
    let leaf := base.getD witness.index (zeros 32)
    let leafCount := base.length
    let (root, siblings) ← rootAndPath X base witness.index
    pure (.ok ({ root := root, leaf := leaf },
      { siblings := siblings, index := witness.index, leafCount := leafCount }))

def merkleRoot (leaves : List Bytes) : Hashing (Except VeilError Digest) :=
  if leaves.isEmpty then pure (.error .crypto)
  else do
    let base ← baseLevel X leaves
    let (root, _) ← rootAndPath X base 0
    pure (.ok root)

/-- The relation's verifier is the standalone one on the statement's and the
    proof's fields. -/
theorem verify_eq (stmt : Statement) (proof : Proof) :
    verify X stmt proof = Except.ok <$>
      merkleVerifyPath X stmt.leaf stmt.root proof.index proof.siblings proof.leafCount := by
  rw [verify, merkleVerifyPath]
  split
  · rfl
  · rw [map_bind]
    rfl

end

end Merkle

end Veil7
