import Veil7.Core.Checked
import Veil7.Interface.Text
import Veil7.Library.Bits
import Veil7.Relations.Merkle.Invalid
import Veil7.Relations.Merkle.Soundness

/-!
# The Inclusion Check of the Command Line

`prove merkle-include` of `main.rs`: a leaf, a root, a position and the siblings
of a path, as texts, checked with `merkle_verify_path`.

The command is not told how many leaves the tree has, and takes the full tree
with as many levels as there are siblings. A path through a tree with promoted
nodes may have fewer siblings than the tree has levels. For a leaf that is
never promoted it has them all, and the full tree has the same turns. For one
that is, the position does not even fit the full tree, and the honest path is
refused (`merkleInclude_valid_iff`).

## Main definitions

* `runProveMerkleInclude`: The command, from its arguments to the line printed.
* `includeArgs`: The arguments for a statement and a proof.
* `ReportsValid`: The line says that the path is valid.

## Theorems

* `run_includeArgs`: The command on printed arguments.
* `merkleInclude_valid_iff`: When an honest path is reported valid.
* `merkleInclude_third_of_three`: One that is not.
-/

namespace Veil7

open Merkle

/-- The line for arguments that are no leaf, root, position and siblings. -/
def refusal : Bytes := ascii "valid=0 transcript=-"

section

variable (X : Xof)

/-- `prove merkle-include`: the line printed for the arguments behind it. -/
def runProveMerkleInclude : List Bytes → Checked Bytes
  | leafHex :: rootHex :: indexText :: siblingHexes =>
    match parseHexRoot leafHex with
    | none => pure refusal
    | some leaf =>
      match parseHexRoot rootHex with
      | none => pure refusal
      | some root =>
        match parseUsize indexText with
        | none => pure refusal
        | some index =>
          match siblingHexes.mapM parseHexRoot with
          | none => pure refusal
          | some siblings => do
            -- The number of leaves is a guess: a full tree of so many levels.
            let leafCount ← Checked.of
              (if siblings.isEmpty then .ok 1 else shl64 1 siblings.length)
            let ok ← (ExceptT.lift
              (merkleVerifyPath X leaf root index siblings leafCount.toNat) : Checked Choice)
            if ok then pure (ascii "valid=1 transcript=" ++ hex root)
            else pure (ascii "valid=0 transcript=" ++ hex root)
  | _ => pure refusal

/-- The arguments for a statement and a proof: all that the command is told. -/
def includeArgs (stmt : Statement) (proof : Merkle.Proof) : List Bytes :=
  hex stmt.leaf :: hex stmt.root :: decimal proof.index :: proof.siblings.map hex

/-- The command returned, and its line says that the path is valid. -/
def ReportsValid (out : Except Panic Bytes) : Prop :=
  ∃ line, out = .ok line ∧ ascii "valid=1" <+: line

theorem mapM_parseHexRoot (siblings : List Digest) :
    (siblings.map hex).mapM parseHexRoot = some siblings := by
  induction siblings with
  | nil => rfl
  | cons s siblings ih =>
      rw [List.map_cons, List.mapM_cons, parseHexRoot_hex, ih]
      rfl

/-- The guessed number of leaves, if it fits a word. -/
theorem leafCount_of_lt (siblings : List Digest) (h : siblings.length < 64) :
    ∃ leafCount : UInt64, leafCount.toNat = 2 ^ siblings.length ∧
      (if siblings.isEmpty then .ok 1 else shl64 1 siblings.length) = Except.ok leafCount := by
  by_cases hnil : siblings = []
  · refine ⟨1, ?_, ?_⟩
    · rw [hnil]
      rfl
    · rw [hnil]
      rfl
  · refine ⟨1 <<< UInt64.ofNat siblings.length, toNat_one_shiftLeft _ h, ?_⟩
    rw [if_neg (by rw [List.isEmpty_iff]; exact hnil), shl64_of_lt _ _ h]

theorem leafCount_of_le (siblings : List Digest) (h : 64 ≤ siblings.length) :
    (if siblings.isEmpty then .ok 1 else shl64 1 siblings.length)
      = (Except.error .arithmeticOverflow : Except Panic UInt64) := by
  have hnil : siblings ≠ [] := by
    intro hnil
    rw [hnil, List.length_nil] at h
    omega
  rw [if_neg (by rw [List.isEmpty_iff]; exact hnil), shl64_of_le _ _ h]

/-- The command on printed arguments: it may refuse the position, the shift may
    be too long, and otherwise the path is checked in the full tree. -/
theorem run_includeArgs (stmt : Statement) (proof : Merkle.Proof) :
    (runProveMerkleInclude X (includeArgs stmt proof)).run.val
      = if 2 ^ 64 ≤ proof.index then .ok refusal
        else if 64 ≤ proof.siblings.length then .error .arithmeticOverflow
        else if (merkleVerifyPath X stmt.leaf stmt.root proof.index proof.siblings
            (2 ^ proof.siblings.length)).val then .ok (ascii "valid=1 transcript=" ++ hex stmt.root)
        else .ok (ascii "valid=0 transcript=" ++ hex stmt.root) := by
  rw [includeArgs, runProveMerkleInclude, parseHexRoot_hex, parseHexRoot_hex, parseUsize_decimal]
  dsimp only
  by_cases hindex : 2 ^ 64 ≤ proof.index
  · rw [if_neg (Nat.not_lt.mpr hindex), if_pos hindex]
    rfl
  rw [if_pos (Nat.not_le.mp hindex), if_neg hindex, mapM_parseHexRoot]
  dsimp only
  rw [Checked.val_run_bind, Checked.val_run_of]
  by_cases hlong : 64 ≤ proof.siblings.length
  · rw [leafCount_of_le _ hlong, if_pos hlong]
    rfl
  · rcases leafCount_of_lt proof.siblings (Nat.not_le.mp hlong) with ⟨leafCount, hcount, heq⟩
    rw [heq, if_neg hlong, Panic.ok_bind, Checked.val_run_bind, Checked.val_run_lift,
      Panic.ok_bind, hcount]
    split <;> rfl

/-- Three of the four outcomes do not say that the path is valid. -/
theorem reportsValid_iff (stmt : Statement) (proof : Merkle.Proof) :
    ReportsValid (runProveMerkleInclude X (includeArgs stmt proof)).run.val ↔
      proof.index < 2 ^ 64 ∧ proof.siblings.length < 64 ∧
        (merkleVerifyPath X stmt.leaf stmt.root proof.index proof.siblings
          (2 ^ proof.siblings.length)).val = true := by
  have hinvalid : ∀ rest, ¬ ReportsValid (.ok (ascii "valid=0" ++ rest)) := by
    rintro rest ⟨line, hline, rest', hrest'⟩
    rw [Except.ok.injEq] at hline
    rw [← hline] at hrest'
    exact append_ne_of_take 7 _ _ _ _ (by decide) (by decide) (by decide) hrest'
  rw [run_includeArgs]
  by_cases hindex : 2 ^ 64 ≤ proof.index
  · rw [if_pos hindex]
    exact iff_of_false (hinvalid (ascii " transcript=-")) (fun h => Nat.not_lt.mpr hindex h.1)
  rw [if_neg hindex]
  by_cases hlong : 64 ≤ proof.siblings.length
  · rw [if_pos hlong]
    refine iff_of_false ?_ (fun h => Nat.not_lt.mpr hlong h.2.1)
    rintro ⟨line, hline, -⟩
    cases hline
  rw [if_neg hlong]
  by_cases hok : (merkleVerifyPath X stmt.leaf stmt.root proof.index proof.siblings
      (2 ^ proof.siblings.length)).val = true
  · rw [if_pos hok]
    exact iff_of_true ⟨_, rfl, ascii " transcript=" ++ hex stmt.root, rfl⟩
      ⟨Nat.not_le.mp hindex, Nat.not_le.mp hlong, hok⟩
  · rw [if_neg hok]
    exact iff_of_false (hinvalid (ascii " transcript=" ++ hex stmt.root)) (fun h => hok h.2.2)

/-- An honest path is reported valid exactly if its leaf is never promoted and
    the tree has no more than `2 ^ 63` leaves. Beyond that the number of leaves
    of a full tree does not fit a word, and the command panics. -/
theorem merkleInclude_valid_iff (witness : Witness) (stmt : Statement) (proof : Merkle.Proof)
    (hprove : (prove X witness).val = .ok (stmt, proof)) :
    ReportsValid (runProveMerkleInclude X (includeArgs stmt proof)).run.val ↔
      ¬ Promoted witness.index witness.leaves.length ∧ witness.leaves.length ≤ 2 ^ 63 := by
  have hidx : witness.index < witness.leaves.length := by
    by_contra hidx
    rw [prove_refused X witness (Or.inr (Nat.not_lt.mp hidx))] at hprove
    cases hprove
  have hhonest := (merkleVerifyPath_iff X _ _ _ _ _).mp
    (merkleVerifyPath_honest X witness.leaves witness.index hidx)
  rw [prove_eq X witness.leaves witness.index hidx, Except.ok.injEq, Prod.mk.injEq] at hprove
  rw [reportsValid_iff, merkleVerifyPath_iff, ← hprove.1, ← hprove.2]
  dsimp only
  rw [hhonest.2.1]
  constructor
  · rintro ⟨-, hlong, hfull, -, -⟩
    have hnot : ¬ Promoted witness.index witness.leaves.length := by
      intro hprom
      have hle := two_pow_length_route_of_promoted _ _ hprom
      omega
    have hcount := (route_of_not_promoted _ _ hidx hnot).1
    have hpow : 2 ^ (route witness.index witness.leaves.length).length ≤ 2 ^ 63 :=
      Nat.pow_le_pow_right (by omega) (by omega)
    exact ⟨hnot, hcount.trans hpow⟩
  · rintro ⟨hnot, hcount⟩
    have hroute := route_of_not_promoted _ _ hidx hnot
    refine ⟨by omega, ?_, by omega, by rw [hroute.2], by rw [hroute.2]; exact hhonest.2.2⟩
    -- No more turns than levels, and the levels of so many leaves fit a word.
    by_cases hone : 1 < witness.leaves.length
    · have hle := two_pow_length_route_le witness.index _ hone
      by_contra hlong
      have hpow : 2 ^ 64 ≤ 2 ^ (route witness.index witness.leaves.length).length :=
        Nat.pow_le_pow_right (by omega) (Nat.not_lt.mp hlong)
      omega
    · rw [route_of_le _ _ (by omega), List.length_nil]
      omega

end

/-- The first of three leaves is never promoted. -/
theorem merkleInclude_valid_iff_three :
    ∃ stmt proof, (prove Keccak.shake256
        { leaves := [ascii "a", ascii "b", ascii "c"], index := 0 }).val = .ok (stmt, proof) ∧
      ReportsValid (runProveMerkleInclude Keccak.shake256 (includeArgs stmt proof)).run.val :=
  ⟨_, _, prove_eq _ _ 0 (by decide), (merkleInclude_valid_iff Keccak.shake256
    { leaves := [ascii "a", ascii "b", ascii "c"], index := 0 } _ _
    (prove_eq _ _ 0 (by decide))).mpr ⟨by decide, by decide⟩⟩

/-- The third of three is, and its honest path has one sibling: the command
    looks for position two in a tree of two leaves. -/
theorem merkleInclude_third_of_three :
    ∃ stmt proof, (prove Keccak.shake256
        { leaves := [ascii "a", ascii "b", ascii "c"], index := 2 }).val = .ok (stmt, proof) ∧
      (verify Keccak.shake256 stmt proof).val = .ok true ∧
      ¬ ReportsValid (runProveMerkleInclude Keccak.shake256 (includeArgs stmt proof)).run.val := by
  have hprove := prove_eq Keccak.shake256 [ascii "a", ascii "b", ascii "c"] 2 (by decide)
  have hhonest := merkleVerifyPath_honest Keccak.shake256 [ascii "a", ascii "b", ascii "c"] 2
    (by decide)
  refine ⟨_, _, hprove, ?_, ?_⟩
  · rw [verify_eq, Queried.val_map]
    exact congrArg Except.ok hhonest
  · rw [reportsValid_iff]
    rintro ⟨-, -, hvalid⟩
    have hlen := ((merkleVerifyPath_iff _ _ _ _ _ _).mp hhonest).2.1
    have hidx := ((merkleVerifyPath_iff _ _ _ _ _ _).mp hvalid).1
    dsimp only at hidx
    rw [hlen] at hidx
    exact Nat.not_lt.mpr (two_pow_length_route_of_promoted 2 3 (by decide)) hidx

end Veil7
