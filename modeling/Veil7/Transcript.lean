import Veil7.Core.Shake256
import Veil7.Library.HashChain
import Veil7.Library.Keccak

/-!
# The Fiat-Shamir Transcript

`common/transcript.rs`: a 64-byte state chained through SHAKE256. Each
operation hashes its own tag, the state and the framed inputs; a challenge is
squeezed from the state and folded back into it.

The strings of `new`, `absorb` and of the fold of `challenge` are those of a
hash chain (`chain`): the tags part within their first eleven bytes, the state
has a fixed length, and frames are read back. The fold hashes the emitted bytes
and not the requested length, but the frame of the bytes contains their number.
So the last state determines the whole history (`history_binds`).

## Main definitions

* `Transcript`: The state, and the operations on it.
* `Op`: One operation, as a value.
* `history`: A protocol label and operations, run from the start.
* `chain`: The strings of the transcript, as a hash chain.

## Theorems

* `val_absorb`, `val_challenge`: What the operations return.
* `val_history`: The state of a history is that of the chain.
* `asked_subset_history`: A history hashes the strings of the chain.
* `history_binds`: Equal states come from equal histories.
-/

namespace Veil7

structure Transcript where
  state : Block 64
deriving DecidableEq

namespace Transcript

/-- Absorb a length-framed byte string: `len(8 LE) ‖ bytes`. -/
def framed (xof : Shake256) (bytes : Bytes) : Shake256 :=
  (xof.update (u64Bytes bytes.length)).update bytes

section

variable (X : Xof)

/-- Start a transcript bound to a protocol label. -/
def new (protocolLabel : Bytes) : Hashing Transcript := do
  let xof := framed (Shake256.new.update Domain.fsProtocol) protocolLabel
  let state ← xof.squeeze X 64
  pure { state := state }

/-- Absorb a labelled public value. -/
def absorb (t : Transcript) (label data : Bytes) : Hashing Transcript := do
  let xof := (Shake256.new.update Domain.fsAbsorb).update t.state.toList
  let xof := framed (framed xof label) data
  let next ← xof.squeeze X 64
  pure { state := next }

/-- Derive `n` challenge bytes, then fold them back into the state. -/
def challenge (t : Transcript) (label : Bytes) (n : Nat) : Hashing (Block n × Transcript) := do
  let xof := (Shake256.new.update Domain.fsSqueeze).update t.state.toList
  let xof := (framed xof label).update (u64Bytes n)
  let out ← xof.squeeze X n
  -- A second hasher, from the old state, so a challenge moves the state on.
  let xof2 := (Shake256.new.update Domain.fsPostChallenge).update t.state.toList
  let xof2 := framed (framed xof2 label) out.toList
  let next ← xof2.squeeze X 64
  pure (out, { state := next })

end

/-- An operation on a transcript. -/
inductive Op where
  | absorb (label data : Bytes)
  | challenge (label : Bytes) (n : Nat)
deriving DecidableEq

/-- The byte lengths of an operation fit in a `u64`. -/
def Op.Fits : Op → Prop
  | .absorb label data => label.length < 2 ^ 64 ∧ data.length < 2 ^ 64
  | .challenge label n => label.length < 2 ^ 64 ∧ n < 2 ^ 64

instance (o : Op) : Decidable o.Fits :=
  match o with
  | .absorb _ _ => inferInstanceAs (Decidable (_ ∧ _))
  | .challenge _ _ => inferInstanceAs (Decidable (_ ∧ _))

section

variable (X : Xof)

/-- The transcript after an operation; the caller's copy of a challenge is not
    part of it. -/
def Op.run (t : Transcript) : Op → Hashing Transcript
  | .absorb label data => t.absorb X label data
  | .challenge label n => do
    let (_, t) ← t.challenge X label n
    pure t

/-- A protocol label and a list of operations. -/
def history (protocolLabel : Bytes) (ops : List Op) : Hashing Transcript := do
  let t ← new X protocolLabel
  ops.foldlM (Op.run X) t

/-! ### The strings hashed -/

/-- The string a transcript starts from. -/
def startString (protocolLabel : Bytes) : Bytes :=
  Domain.fsProtocol ++ Veil7.framed 8 protocolLabel

/-- The string a challenge is squeezed from. -/
def squeezeString (s : Block 64) (label : Bytes) (n : Nat) : Bytes :=
  Domain.fsSqueeze ++ (s.toList ++ (Veil7.framed 8 label ++ u64Bytes n))

/-- The string the state after an operation is the hash of. -/
def nextString (s : Block 64) : Op → Bytes
  | .absorb label data =>
    Domain.fsAbsorb ++ (s.toList ++ (Veil7.framed 8 label ++ Veil7.framed 8 data))
  | .challenge label n =>
    Domain.fsPostChallenge ++ (s.toList ++ (Veil7.framed 8 label ++
      Veil7.framed 8 (digest X n (squeezeString s label n)).toList))

@[simp] theorem buf_framed (xof : Shake256) (bytes : Bytes) :
    (framed xof bytes).buf = xof.buf ++ Veil7.framed 8 bytes := by
  rw [framed, Shake256.buf_update, Shake256.buf_update, List.append_assoc]
  rfl

theorem val_new (protocolLabel : Bytes) :
    (new X protocolLabel).val = { state := digest X 64 (startString protocolLabel) } := by
  simp only [new, Queried.val_bind, Queried.val_pure, Shake256.val_squeeze, buf_framed,
    Shake256.buf_update, Shake256.buf_new, List.nil_append, startString]

theorem queries_new (protocolLabel : Bytes) :
    (new X protocolLabel).queries = [startString protocolLabel] := by
  simp only [new, Queried.queries_bind, Queried.queries_pure, Shake256.queries_squeeze, buf_framed,
    Shake256.buf_update, Shake256.buf_new, List.nil_append, List.append_nil, startString]

theorem val_absorb (t : Transcript) (label data : Bytes) :
    (t.absorb X label data).val
      = { state := digest X 64 (nextString X t.state (.absorb label data)) } := by
  simp only [absorb, Queried.val_bind, Queried.val_pure, Shake256.val_squeeze, buf_framed,
    Shake256.buf_update, Shake256.buf_new, List.nil_append, List.append_assoc, nextString]

theorem queries_absorb (t : Transcript) (label data : Bytes) :
    (t.absorb X label data).queries = [nextString X t.state (.absorb label data)] := by
  simp only [absorb, Queried.queries_bind, Queried.queries_pure, Shake256.queries_squeeze,
    buf_framed, Shake256.buf_update, Shake256.buf_new, List.nil_append, List.append_assoc,
    List.append_nil, nextString]

theorem val_challenge (t : Transcript) (label : Bytes) (n : Nat) :
    (t.challenge X label n).val = (digest X n (squeezeString t.state label n),
      { state := digest X 64 (nextString X t.state (.challenge label n)) }) := by
  simp only [challenge, Queried.val_bind, Queried.val_pure, Shake256.val_squeeze, buf_framed,
    Shake256.buf_update, Shake256.buf_new, List.nil_append, List.append_assoc, nextString,
    squeezeString]

theorem queries_challenge (t : Transcript) (label : Bytes) (n : Nat) :
    (t.challenge X label n).queries
      = [squeezeString t.state label n, nextString X t.state (.challenge label n)] := by
  simp only [challenge, Queried.queries_bind, Queried.queries_pure, Shake256.val_squeeze,
    Shake256.queries_squeeze, buf_framed, Shake256.buf_update, Shake256.buf_new, List.nil_append,
    List.append_assoc, List.append_nil, List.cons_append, nextString, squeezeString]

theorem val_run (t : Transcript) (o : Op) :
    (o.run X t).val = { state := digest X 64 (nextString X t.state o) } := by
  cases o with
  | absorb label data => exact val_absorb X t label data
  | challenge label n => rw [Op.run, Queried.val_bind, val_challenge, Queried.val_pure]

theorem nextString_mem_run (t : Transcript) (o : Op) :
    nextString X t.state o ∈ (o.run X t).queries := by
  cases o with
  | absorb label data =>
      rw [Op.run, queries_absorb]
      exact List.mem_singleton_self _
  | challenge label n =>
      rw [Op.run, Queried.queries_bind, queries_challenge]
      exact List.mem_cons_of_mem _ List.mem_cons_self

theorem nextString_inj (s s' : Block 64) (o o' : Op) (ho : o.Fits) (ho' : o'.Fits)
    (h : nextString X s o = nextString X s' o') : s = s' ∧ o = o' := by
  cases o with
  | absorb label data =>
      cases o' with
      | absorb label' data' =>
          -- Tag, state, label, data: each is read off the front.
          have hs := Block.toList_append_inj 64 _ _ _ _ (List.append_cancel_left h)
          have hlabel := framed_append_inj 8 _ _ _ _ ho.1 ho'.1 hs.2
          have hdata := framed_inj 8 _ _ ho.2 ho'.2 hlabel.2
          exact ⟨hs.1, by rw [hlabel.1, hdata]⟩
      | challenge label' n' =>
          exact absurd h (append_ne_of_take 11 _ _ _ _ (by decide) (by decide) (by decide))
  | challenge label n =>
      cases o' with
      | absorb label' data' =>
          exact absurd h (append_ne_of_take 11 _ _ _ _ (by decide) (by decide) (by decide))
      | challenge label' n' =>
          have hs := Block.toList_append_inj 64 _ _ _ _ (List.append_cancel_left h)
          have hlabel := framed_append_inj 8 _ _ _ _ ho.1 ho'.1 hs.2
          have hout := framed_inj 8 _ _ (by rw [Block.length_toList]; exact ho.2)
            (by rw [Block.length_toList]; exact ho'.2) hlabel.2
          -- The emitted bytes have the requested length.
          have hn := congrArg List.length hout
          rw [Block.length_toList, Block.length_toList] at hn
          exact ⟨hs.1, by rw [hlabel.1, hn]⟩

/-- The transcript is a hash chain. -/
def chain : ChainScheme Bytes Bytes Op (Block 64) where
  ask := digest X 64
  start := startString
  next := nextString X
  validStart := fun label => label.length < 2 ^ 64
  valid := Op.Fits
  start_inj := fun _ _ ha ha' h => framed_inj 8 _ _ ha ha' (List.append_cancel_left h)
  next_inj := nextString_inj X
  start_ne_next := by
    -- The tags have `veil7:fs:` in common and part before the twelfth byte.
    intro a s o
    cases o with
    | absorb label data =>
        exact append_ne_of_take 11 _ _ _ _ (by decide) (by decide) (by decide)
    | challenge label n =>
        exact append_ne_of_take 11 _ _ _ _ (by decide) (by decide) (by decide)

theorem val_foldlM_run (t : Transcript) (ops : List Op) :
    (ops.foldlM (Op.run X) t).val
      = { state := ops.foldl (fun s o => digest X 64 (nextString X s o)) t.state } := by
  rw [Queried.val_foldlM]
  induction ops generalizing t with
  | nil => rfl
  | cons o ops ih => rw [List.foldl_cons, List.foldl_cons, ih, val_run]

theorem steps_subset_foldlM_run (t : Transcript) (ops : List Op) :
    (chain X).steps t.state ops ⊆ (ops.foldlM (Op.run X) t).queries := by
  induction ops generalizing t with
  | nil => exact List.nil_subset _
  | cons o ops ih =>
      rw [List.foldlM_cons, Queried.queries_bind, ChainScheme.steps, val_run]
      exact List.cons_subset.mpr
        ⟨List.mem_append_left _ (nextString_mem_run X t o), List.subset_append_of_subset_right _
          (ih { state := digest X 64 (nextString X t.state o) })⟩

/-- The state of a history is that of the chain. -/
theorem val_history (protocolLabel : Bytes) (ops : List Op) :
    (history X protocolLabel ops).val = { state := (chain X).state protocolLabel ops } := by
  rw [history, Queried.val_bind, val_new, val_foldlM_run]
  rfl

/-- A history hashes the strings of the chain, beside those of the challenges. -/
theorem asked_subset_history (protocolLabel : Bytes) (ops : List Op) :
    (chain X).asked protocolLabel ops ⊆ (history X protocolLabel ops).queries := by
  rw [history, Queried.queries_bind, val_new, queries_new]
  exact List.cons_subset_cons _ (steps_subset_foldlM_run X _ ops)

/-- Two histories with one state are one history. -/
theorem history_binds (label label' : Bytes) (ops ops' : List Op)
    (hlabel : label.length < 2 ^ 64) (hlabel' : label'.length < 2 ^ 64)
    (hops : ∀ o ∈ ops, o.Fits) (hops' : ∀ o ∈ ops', o.Fits)
    (hcf : CollisionFree (digest X 64)
      ((history X label ops).queries ++ (history X label' ops').queries))
    (h : (history X label ops).val.state = (history X label' ops').val.state) :
    label = label' ∧ ops = ops' := by
  rw [val_history, val_history] at h
  have hsub : (chain X).asked label ops ++ (chain X).asked label' ops'
      ⊆ (history X label ops).queries ++ (history X label' ops').queries :=
    List.append_subset.mpr
      ⟨List.subset_append_of_subset_left _ (asked_subset_history X label ops),
        List.subset_append_of_subset_right _ (asked_subset_history X label' ops')⟩
  exact (chain X).state_inj label label' ops ops' hlabel hlabel' hops hops' (hcf.mono _ _ _ hsub) h

end

theorem collisionFree_history_order :
    CollisionFree (digest Keccak.shake256 64)
      ((history Keccak.shake256 (ascii "p")
          [.absorb (ascii "x") [1], .challenge (ascii "c") 32]).queries
        ++ (history Keccak.shake256 (ascii "p")
          [.challenge (ascii "c") 32, .absorb (ascii "x") [1]]).queries) := by
  decide +kernel

/-- One history has its own state, and not that of the other order. -/
theorem history_binds_order :
    ((history Keccak.shake256 (ascii "p")
          [.absorb (ascii "x") [1], .challenge (ascii "c") 32]).val.state
        = (history Keccak.shake256 (ascii "p")
          [.absorb (ascii "x") [1], .challenge (ascii "c") 32]).val.state ↔
      ascii "p" = ascii "p" ∧ [Op.absorb (ascii "x") [1], .challenge (ascii "c") 32]
        = [Op.absorb (ascii "x") [1], .challenge (ascii "c") 32]) ∧
    ((history Keccak.shake256 (ascii "p")
          [.absorb (ascii "x") [1], .challenge (ascii "c") 32]).val.state
        = (history Keccak.shake256 (ascii "p")
          [.challenge (ascii "c") 32, .absorb (ascii "x") [1]]).val.state ↔
      ascii "p" = ascii "p" ∧ [Op.absorb (ascii "x") [1], .challenge (ascii "c") 32]
        = [Op.challenge (ascii "c") 32, .absorb (ascii "x") [1]]) := by
  have hcf := collisionFree_history_order
  refine ⟨⟨history_binds _ _ _ _ _ (by decide) (by decide) (by decide) (by decide)
      (hcf.mono _ _ _ ?_), fun h => by rw [h.2]⟩,
    ⟨history_binds _ _ _ _ _ (by decide) (by decide) (by decide) (by decide) hcf,
      fun h => by rw [h.2]⟩⟩
  exact List.append_subset.mpr ⟨List.subset_append_left _ _, List.subset_append_left _ _⟩

end Transcript

end Veil7
