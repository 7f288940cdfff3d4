import Veil7.Layers.Keygen
import Veil7.Library.Keccak

/-!
# Commitment

`commit` of `l3_commit.rs`: the hash that binds a claim to an ephemeral
identity. It covers a tag, the two public keys and the claim, in this order;
the keys have fixed sizes, so the claim is what is left.

`commit_multi_source` appends a context to the claim, with the same tag and
nothing in between. So the string shows only the claim and the context put
together, and not whether there was a context at all (`commit_binds_iff`).

## Main definitions

* `commit`, `commitMultiSource`: The commitment to a claim under given keys, and
  to a claim and a context.
* `commitString`: The string hashed.
* `CommitCall`: A call of one of the two functions.

## Theorems

* `val_commit`, `queries_commit`: The commitment, and what is hashed for it.
* `commitString_inj`: The string determines the public keys and the claim.
* `commit_binds_iff`: When two calls that hash one string have the same inputs.
* `commit_context_moved`: Three calls that hash one string.
-/

namespace Veil7

/-- A commitment to an ephemeral identity and a claim. -/
abbrev Commitment : Type := Block 32

def commit (X : Xof) (keys : EphemeralKeys) (claim : Bytes) : Hashing Commitment :=
  let xof := Shake256.new.update Domain.commitment
  let xof := xof.update (kemPkBytes keys.kemKp)
  let xof := xof.update (dsaVkBytes keys.dsaKp)
  let xof := xof.update claim
  xof.squeeze X 32

/-- The string hashed into a commitment. -/
def commitString (keys : EphemeralKeys) (claim : Bytes) : Bytes :=
  Domain.commitment ++ kemPkBytes keys.kemKp ++ dsaVkBytes keys.dsaKp ++ claim

theorem val_commit (X : Xof) (keys : EphemeralKeys) (claim : Bytes) :
    (commit X keys claim).val = digest X 32 (commitString keys claim) := rfl

theorem queries_commit (X : Xof) (keys : EphemeralKeys) (claim : Bytes) :
    (commit X keys claim).queries = [commitString keys claim] := rfl

/-- The string shows both public keys and the claim. -/
theorem commitString_inj (keys keys' : EphemeralKeys) (claim claim' : Bytes)
    (h : commitString keys claim = commitString keys' claim') :
    keys.kemKp.publicKey = keys'.kemKp.publicKey ∧
      keys.dsaKp.verificationKey = keys'.dsaKp.verificationKey ∧ claim = claim' := by
  unfold commitString at h
  rw [List.append_assoc, List.append_assoc, List.append_assoc, List.append_assoc] at h
  have hkem := Block.toList_append_inj 1184 _ _ _ _ (List.append_cancel_left h)
  have hdsa := Block.toList_append_inj 1952 _ _ _ _ hkem.2
  exact ⟨hkem.1, hdsa.1, hdsa.2⟩

/-! ### Both entry points -/

def commitMultiSource (X : Xof) (keys : EphemeralKeys) (claim additionalContext : Bytes) :
    Hashing Commitment :=
  let xof := Shake256.new.update Domain.commitment
  let xof := xof.update (kemPkBytes keys.kemKp)
  let xof := xof.update (dsaVkBytes keys.dsaKp)
  let xof := xof.update claim
  let xof := xof.update additionalContext
  xof.squeeze X 32

/-- A call of one of the two functions. -/
inductive CommitCall where
  | commit (keys : EphemeralKeys) (claim : Bytes)
  | commitMultiSource (keys : EphemeralKeys) (claim additionalContext : Bytes)

namespace CommitCall

def run (X : Xof) : CommitCall → Hashing Commitment
  | commit keys claim => Veil7.commit X keys claim
  | commitMultiSource keys claim additionalContext =>
    Veil7.commitMultiSource X keys claim additionalContext

def keys : CommitCall → EphemeralKeys
  | commit keys _ => keys
  | commitMultiSource keys _ _ => keys

def claim : CommitCall → Bytes
  | commit _ claim => claim
  | commitMultiSource _ claim _ => claim

/-- The context, where the function takes one. -/
def additionalContext : CommitCall → Option Bytes
  | commit _ _ => none
  | commitMultiSource _ _ additionalContext => some additionalContext

/-- What is absorbed behind the keys. -/
def absorbed (c : CommitCall) : Bytes := c.claim ++ c.additionalContext.getD []

/-- The public keys of two calls are the same. -/
def SameKeys (c c' : CommitCall) : Prop :=
  c.keys.kemKp.publicKey = c'.keys.kemKp.publicKey ∧
    c.keys.dsaKp.verificationKey = c'.keys.dsaKp.verificationKey

/-- Two calls of one function with the same public keys, claim and context. -/
def SameInputs (c c' : CommitCall) : Prop :=
  SameKeys c c' ∧ c.claim = c'.claim ∧ c.additionalContext = c'.additionalContext

theorem queries_run (X : Xof) (c : CommitCall) :
    (c.run X).queries = [commitString c.keys c.absorbed] := by
  cases c with
  | commit keys claim =>
      rw [run, queries_commit, absorbed, additionalContext, Option.getD_none, List.append_nil]
      rfl
  | commitMultiSource keys claim additionalContext =>
      rw [run, Veil7.commitMultiSource, Shake256.queries_squeeze]
      simp only [Shake256.buf_update, Shake256.buf_new, List.nil_append, commitString, absorbed,
        CommitCall.keys, CommitCall.claim, CommitCall.additionalContext, Option.getD_some,
        List.append_assoc]

/-- Two calls that absorb one string have the same inputs, exactly if their keys
    or what they absorb behind them differ anyway, or they are calls of one
    function that end the claim at the same place. -/
theorem commit_binds_iff (X : Xof) (c c' : CommitCall) :
    ((c.run X).queries = (c'.run X).queries → SameInputs c c') ↔
      ¬ SameKeys c c' ∨ c.absorbed ≠ c'.absorbed ∨
        (c.additionalContext.isSome = c'.additionalContext.isSome ∧
          c.claim.length = c'.claim.length) := by
  have hstring : (c.run X).queries = (c'.run X).queries ↔
      SameKeys c c' ∧ c.absorbed = c'.absorbed := by
    rw [queries_run, queries_run, List.singleton_inj]
    constructor
    · intro h
      have hinj := commitString_inj _ _ _ _ h
      exact ⟨⟨hinj.1, hinj.2.1⟩, hinj.2.2⟩
    · rintro ⟨⟨hkem, hdsa⟩, habsorbed⟩
      rw [commitString, commitString, kemPkBytes, kemPkBytes, dsaVkBytes, dsaVkBytes, hkem, hdsa,
        habsorbed]
  rw [hstring]
  constructor
  · intro h
    by_cases hkeys : SameKeys c c'
    · by_cases habsorbed : c.absorbed = c'.absorbed
      · have hsame := h ⟨hkeys, habsorbed⟩
        exact Or.inr (Or.inr ⟨by rw [hsame.2.2], by rw [hsame.2.1]⟩)
      · exact Or.inr (Or.inl habsorbed)
    · exact Or.inl hkeys
  · rintro h ⟨hkeys, habsorbed⟩
    rcases h with h | h | ⟨hfunction, hlen⟩
    · exact absurd hkeys h
    · exact absurd habsorbed h
    · -- One string, cut at one place.
      have hcut := List.append_inj habsorbed hlen
      refine ⟨hkeys, hcut.1, ?_⟩
      cases hc : c.additionalContext with
      | none =>
          rw [hc, Option.isSome_none] at hfunction
          exact (Option.isNone_iff_eq_none.mp (Option.isSome_eq_false_iff.mp hfunction.symm)).symm
      | some context =>
          rw [hc, Option.isSome_some] at hfunction
          rcases Option.isSome_iff_exists.mp hfunction.symm with ⟨context', hc'⟩
          rw [hc, hc', Option.getD_some, Option.getD_some] at hcut
          rw [hc', hcut.2]

/-- Key pairs of zeros. -/
def zeroKeys : EphemeralKeys :=
  {
    kemKp := { publicKey := zeros 1184, privateKey := zeros 2400 }
    dsaKp := { verificationKey := zeros 1952, signingKey := zeros 4032 } }

/-- A claim with a context, the two put together as a claim, and the same bytes
    cut elsewhere. -/
theorem commit_context_moved :
    ((commitMultiSource zeroKeys (ascii "a") (ascii "bc")).run Keccak.shake256).queries
        = ((commit zeroKeys (ascii "abc")).run Keccak.shake256).queries ∧
      ((commitMultiSource zeroKeys (ascii "a") (ascii "bc")).run Keccak.shake256).queries
        = ((commitMultiSource zeroKeys (ascii "ab") (ascii "c")).run Keccak.shake256).queries ∧
      ¬ SameInputs (commitMultiSource zeroKeys (ascii "a") (ascii "bc"))
        (commit zeroKeys (ascii "abc")) ∧
      ¬ SameInputs (commitMultiSource zeroKeys (ascii "a") (ascii "bc"))
        (commitMultiSource zeroKeys (ascii "ab") (ascii "c")) := by
  rw [queries_run, queries_run, queries_run]
  refine ⟨rfl, rfl, fun h => ?_, fun h => ?_⟩
  · cases h.2.2
  · exact absurd h.2.1 (by decide)

end CommitCall

end Veil7
