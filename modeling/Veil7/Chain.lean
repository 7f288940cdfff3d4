import Veil7.Core.Shake256
import Veil7.Library.Keccak
import Veil7.Library.Separator

/-!
# The Event Chain

`chain.rs`: a list of events folded into one 32-byte root, in one call or
incrementally.

The fold absorbs `CHAIN_HEAD`, then `CHAIN_STEP` and the raw event for every
event. Neither a count nor a length is absorbed, so the only mark of an
event's beginning is the step tag, and an event may contain the tag's own
bytes. `chainRoot_unambiguous_iff` is the exact account of what that costs:
two lists have the same root exactly when they agree after every event is
cut at the tags inside it. Lists whose events are free of the tag are told
apart; `[a, b]` and the single event `a ‖ CHAIN_STEP ‖ b` are not.

The tag is unbordered (`chainStep_unbordered`), so its occurrences never
overlap and the cut is unique. Everything else is the separator library.

## Main definitions

* `chainRoot`: The root of a list of events, in one call.
* `chainVerify`: The comparison of a list of events with a root.
* `ChainState`: The incremental builder.

## Theorems

* `queries_chainRoot`, `val_chainRoot`: What the fold hashes, and its result.
* `finalize_foldl_absorb`: The builder computes the one-shot root.
* `chainRoot_unambiguous_iff`: When the root separates two lists.
* `chainRoot_merged_events`: Two events and their merger have one root.
-/

namespace Veil7

namespace Chain

/-- The fold of the events into the hasher. -/
def absorbEvents (xof : Shake256) (events : List Bytes) : Shake256 :=
  events.foldl (fun xof ev => (xof.update Domain.chainStep).update ev) xof

def chainRoot (X : Xof) (events : List Bytes) : Hashing (Except VeilError (Block 32)) :=
  -- An empty list has no root.
  if events.isEmpty then pure (.error .crypto)
  else do
    let xof := absorbEvents (Shake256.new.update Domain.chainHead) events
    let root ← xof.squeeze X 32
    pure (.ok root)

def chainVerify (X : Xof) (events : List Bytes) (expectedRoot : Block 32) : Hashing Choice := do
  match ← chainRoot X events with
  | .ok root => pure (decide (root = expectedRoot))
  -- An empty list is refused here and not reported.
  | .error _ => pure false

structure ChainState where
  xof : Shake256
  count : Nat

namespace ChainState

def new : ChainState := { xof := Shake256.new.update Domain.chainHead, count := 0 }

def absorb (state : ChainState) (event : Bytes) : ChainState :=
  { xof := (state.xof.update Domain.chainStep).update event, count := state.count + 1 }

def finalize (X : Xof) (state : ChainState) : Hashing (Except VeilError (Block 32)) :=
  if state.count = 0 then pure (.error .crypto)
  else do
    let root ← state.xof.squeeze X 32
    pure (.ok root)

end ChainState

/-- The byte string absorbed for a list of events. -/
def chainFrame (events : List Bytes) : Bytes :=
  Domain.chainHead ++ separated Domain.chainStep events

theorem buf_absorbEvents (xof : Shake256) (events : List Bytes) :
    (absorbEvents xof events).buf = xof.buf ++ separated Domain.chainStep events := by
  induction events generalizing xof with
  | nil => rw [absorbEvents, List.foldl_nil, separated_nil, List.append_nil]
  | cons ev events ih =>
      simp only [absorbEvents, List.foldl_cons] at ih ⊢
      rw [ih, Shake256.buf_update, Shake256.buf_update, separated_cons, List.append_assoc,
        List.append_assoc]

section

variable (X : Xof) (events : List Bytes)

/-- Of a list with events, the root is squeezed after their fold. -/
theorem chainRoot_of_ne_nil (h : events ≠ []) :
    chainRoot X events
      = (absorbEvents (Shake256.new.update Domain.chainHead) events).squeeze X 32 >>= fun root =>
        pure (.ok root) := by
  unfold chainRoot
  rw [if_neg (by rw [List.isEmpty_iff]; exact h)]

theorem buf_absorbEvents_chainHead :
    (absorbEvents (Shake256.new.update Domain.chainHead) events).buf = chainFrame events := by
  rw [buf_absorbEvents, Shake256.buf_update, Shake256.buf_new, List.nil_append, chainFrame]

theorem queries_chainRoot (h : events ≠ []) :
    (chainRoot X events).queries = [chainFrame events] := by
  rw [chainRoot_of_ne_nil X events h, Queried.queries_bind, Queried.queries_pure,
    Shake256.queries_squeeze, buf_absorbEvents_chainHead, List.append_nil]

theorem val_chainRoot (h : events ≠ []) :
    (chainRoot X events).val = .ok (digest X 32 (chainFrame events)) := by
  rw [chainRoot_of_ne_nil X events h, Queried.val_bind, Queried.val_pure, Shake256.val_squeeze,
    buf_absorbEvents_chainHead]

theorem val_chainVerify (root : Block 32) (h : events ≠ []) :
    (chainVerify X events root).val = decide (digest X 32 (chainFrame events) = root) := by
  simp only [chainVerify, Queried.val_bind, val_chainRoot X events h, Queried.val_pure]

/-- Absorbing events one at a time and finalizing computes the one-shot root. -/
theorem finalize_foldl_absorb :
    (events.foldl ChainState.absorb ChainState.new).finalize X = chainRoot X events := by
  -- The builder's two fields at once, from any state, by induction on the events.
  have hfold : ∀ (evs : List Bytes) (state : ChainState),
      evs.foldl ChainState.absorb state
        = { xof := absorbEvents state.xof evs, count := state.count + evs.length } := by
    intro evs
    induction evs with
    | nil => intro state; rfl
    | cons ev evs ih =>
        intro state
        simp only [List.foldl_cons, ih, ChainState.absorb, List.length_cons, absorbEvents,
          ChainState.mk.injEq, true_and]
        omega
  rw [hfold]
  cases events with
  | nil => rfl
  | cons ev events => rfl

end

theorem chainStep_unbordered : Unbordered Domain.chainStep := by decide

theorem chainStep_ne_nil : Domain.chainStep ≠ [] := by decide

/-- Two lists of events are absorbed alike exactly when they agree once every
    event is cut at the step tags inside it. -/
theorem chainFrame_eq_iff (es es' : List Bytes) :
    chainFrame es = chainFrame es' ↔ pieces Domain.chainStep es = pieces Domain.chainStep es' := by
  rw [chainFrame, chainFrame, List.append_cancel_left_eq]
  exact separated_eq_iff _ es es' chainStep_unbordered chainStep_ne_nil

/-- The root tells two lists of events apart exactly when they are not two
    groupings of the same pieces: both as the bytes absorbed, and, apart from
    collisions, as what `chainVerify` accepts. Events that do not contain the
    step tag are their own pieces, so lists of such events are told apart. -/
theorem chainRoot_unambiguous_iff (X : Xof) (es es' : List Bytes) (hes : es ≠ [])
    (hes' : es' ≠ []) :
    (((chainRoot X es).queries = (chainRoot X es').queries → es = es') ↔
      es = es' ∨ pieces Domain.chainStep es ≠ pieces Domain.chainStep es') ∧
    ((∀ root, CollisionFree (digest X 32) ((chainRoot X es).queries ++ (chainRoot X es').queries) →
        (chainRoot X es).val = .ok root → (chainVerify X es' root).val = true → es' = es) ↔
      es = es' ∨ pieces Domain.chainStep es ≠ pieces Domain.chainStep es') ∧
    ((∀ e ∈ es, Clean Domain.chainStep e) → (∀ e ∈ es', Clean Domain.chainStep e) →
      es = es' ∨ pieces Domain.chainStep es ≠ pieces Domain.chainStep es') := by
  have hframe := chainFrame_eq_iff es es'
  refine ⟨?_, ?_, ?_⟩
  -- As bytes absorbed: the frames agree exactly when the pieces do.
  · rw [queries_chainRoot X es hes, queries_chainRoot X es' hes', List.singleton_inj, hframe]
    tauto
  -- As what verification accepts, where collisions are excluded by assumption.
  · rw [queries_chainRoot X es hes, queries_chainRoot X es' hes', val_chainRoot X es hes]
    constructor
    · intro h
      by_cases heq : es = es'
      · exact Or.inl heq
      refine Or.inr (fun hp => heq ?_)
      -- One string was hashed twice, so nothing collided.
      have hsame := hframe.mpr hp
      refine (h _ ?_ rfl ?_).symm
      · intro s hs t ht _
        simp only [List.cons_append, List.nil_append, List.mem_cons, List.not_mem_nil,
          or_false, hsame, or_self] at hs ht
        rw [hs, ht]
      · rw [val_chainVerify X es' _ hes', hsame]
        exact decide_eq_true rfl
    · intro h root hcf hroot hver
      rw [Except.ok.injEq] at hroot
      rw [val_chainVerify X es' _ hes', ← hroot] at hver
      have hsame : chainFrame es' = chainFrame es :=
        (CollisionFree.eq_of_pair _ _ _ hcf (of_decide_eq_true hver).symm).symm
      rcases h with h | h
      · exact h.symm
      · exact absurd (hframe.mp hsame.symm) h
  · intro hc hc'
    rw [pieces_of_clean _ es chainStep_unbordered chainStep_ne_nil hc,
      pieces_of_clean _ es' chainStep_unbordered chainStep_ne_nil hc']
    exact em (es = es')

/-- The order of two events is part of what is absorbed. -/
theorem chainRoot_unambiguous_login :
    (chainRoot Keccak.shake256 [ascii "login", ascii "logout"]).queries
      ≠ (chainRoot Keccak.shake256 [ascii "logout", ascii "login"]).queries := by
  intro h
  have heq := (chainRoot_unambiguous_iff Keccak.shake256 [ascii "login", ascii "logout"]
    [ascii "logout", ascii "login"] (by decide) (by decide)).1.mpr (Or.inr ?_) h
  · exact absurd heq (by decide)
  · rw [pieces_of_clean _ _ chainStep_unbordered chainStep_ne_nil (by decide),
      pieces_of_clean _ _ chainStep_unbordered chainStep_ne_nil (by decide)]
    decide

/-- Two events and the one event that spells out the tag between them are
    different lists with the same absorbed bytes and the same root, and the
    merged list passes verification against the original root. -/
theorem chainRoot_merged_events :
    [ascii "login", ascii "logout"] ≠ [ascii "loginveil7:chain:step:v1logout"] ∧
    (chainRoot Keccak.shake256 [ascii "login", ascii "logout"]).queries
      = (chainRoot Keccak.shake256 [ascii "loginveil7:chain:step:v1logout"]).queries ∧
    (∀ root, (chainRoot Keccak.shake256 [ascii "login", ascii "logout"]).val = .ok root →
      (chainVerify Keccak.shake256 [ascii "loginveil7:chain:step:v1logout"] root).val = true) := by
  have hsame : chainFrame [ascii "login", ascii "logout"]
      = chainFrame [ascii "loginveil7:chain:step:v1logout"] := by decide
  refine ⟨by decide, ?_, ?_⟩
  · rw [queries_chainRoot _ _ (by decide), queries_chainRoot _ _ (by decide), hsame]
  · intro root hroot
    rw [val_chainRoot _ _ (by decide), Except.ok.injEq] at hroot
    rw [val_chainVerify _ _ _ (by decide), ← hroot, hsame]
    exact decide_eq_true rfl

end Chain

end Veil7
