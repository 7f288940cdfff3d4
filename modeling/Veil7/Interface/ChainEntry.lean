import Veil7.Library.LinkedLog
import Veil7.Pipeline.Iteration

/-!
# Chained Entries

`attest_chain_entry` of `interface.rs`: an event attested together with the
transcript of the entry before it. The verdict's transcript is handed to the
next call, and the calls form a log.

The claim attested is the transcript followed by the event, or the event alone
if it is the first. Nothing marks which: the first event of a log may begin with
a transcript of another, and then its claim is that log's linked claim.
`attestLog_commits_iff` says that this is the only way in which two logs with
different events come to the same last claim.

## Main definitions

* `chainData`: The bytes of an entry's claim.
* `attestChainEntry`: One entry.
* `attestLog`: A log, each entry linked to the one before.

## Theorems

* `linked_of_attestLog`: The entries of a log are linked.
* `attestLog_commits_iff`: The pairs of logs that the last claim tells apart.
* `not_spliced_of_short`: A case in which it does.
* `attestLog_spliced`: A log of two events and one of a single event.
-/

namespace Veil7

/-- The previous transcript, if there is one, followed by the event. -/
def chainData (prevTranscript : Option (Block 32)) (event : Bytes) : Bytes :=
  (match prevTranscript with
    | some prev => prev.toList
    | none => []) ++ event

/-- An event that spells out a transcript forms a linked claim. -/
theorem chainData_none_append (prev : Block 32) (event : Bytes) :
    chainData none (prev.toList ++ event) = chainData (some prev) event := rfl

theorem chainData_formed : Formed chainData := by
  constructor
  · intro e e' h
    exact h
  · intro t e t' e' h
    exact Block.toList_append_inj 32 t t' e e' h

section

variable (X : Xof) (L : Libcrux)

def attestChainEntry (harvested : Except VeilError Seed) (event : Bytes)
    (prevTranscript : Option (Block 32)) : Hashing (Except VeilError Verdict) :=
  verifyOnce X L harvested (Claim.new (chainData prevTranscript event))

/-- Events attested one after the other, each with the outcome of its harvest
    and the transcript of the verdict before it. -/
def attestLog : Option (Block 32) → List (Except VeilError Seed × Bytes) →
    Hashing (Except VeilError (List (LogEntry (Block 32) Bytes)))
  | _, [] => pure (.ok [])
  | prev, (harvested, event) :: calls => do
    match ← attestChainEntry X L harvested event prev with
    | .error e => pure (.error e)
    | .ok verdict =>
      match ← attestLog (some verdict.transcript) calls with
      | .error e => pure (.error e)
      | .ok entries =>
        pure (.ok ({ prev := prev, event := event, link := verdict.transcript } :: entries))

/-- The entries made for a list of events are linked, in the order of the
    events. -/
theorem linked_of_attestLog (prev : Option (Block 32))
    (calls : List (Except VeilError Seed × Bytes)) (l : List (LogEntry (Block 32) Bytes))
    (h : (attestLog X L prev calls).val = .ok l) :
    Linked prev l ∧ l.map LogEntry.event = calls.map Prod.snd := by
  induction calls generalizing prev l with
  | nil =>
      change Except.ok [] = Except.ok l at h
      rw [Except.ok.injEq] at h
      rw [← h]
      exact ⟨trivial, rfl⟩
  | cons call calls ih =>
      unfold attestLog at h
      rcases Queried.exists_of_val_ok _ _ _ h fun _ => rfl with ⟨verdict, -, h, -⟩
      rcases Queried.exists_of_val_ok _ _ _ h fun _ => rfl with ⟨entries, hentries, h, -⟩
      rw [Queried.val_pure, Except.ok.injEq] at h
      rcases ih (some verdict.transcript) entries hentries with ⟨hlinked, hevents⟩
      rw [← h, List.map_cons, List.map_cons, hevents]
      exact ⟨⟨rfl, hlinked⟩, rfl⟩

/-- Where transcripts of the one log and the other are equal for equal claims
    only, the last claim tells the events of the two logs apart, exactly if
    neither log makes the entries with which the other ends, but for a first
    event that spells out the transcript to which the other's is linked. -/
theorem attestLog_commits_iff (calls calls' : List (Except VeilError Seed × Bytes))
    (l l' : List (LogEntry (Block 32) Bytes)) (hl : (attestLog X L none calls).val = .ok l)
    (hl' : (attestLog X L none calls').val = .ok l') (hfaith : FaithfulLinks chainData l l') :
    (lastClaim chainData l = lastClaim chainData l' → calls.map Prod.snd = calls'.map Prod.snd) ↔
      ¬ Spliced chainData l l' ∧ ¬ Spliced chainData l' l := by
  rcases linked_of_attestLog X L none calls l hl with ⟨hlinked, hevents⟩
  rcases linked_of_attestLog X L none calls' l' hl' with ⟨hlinked', hevents'⟩
  rw [← hevents, ← hevents']
  exact commits_iff chainData chainData_formed l l' hlinked hlinked' hfaith

/-- A log is not spliced if its first event is shorter than a transcript. -/
theorem not_spliced_of_short (x : LogEntry (Block 32) Bytes)
    (short long : List (LogEntry (Block 32) Bytes)) (hx : x.event.length < 32) :
    ¬ Spliced chainData (x :: short) long := by
  rintro ⟨before, t, e, e', rest, -, hshort, hclaim⟩
  rw [List.map_cons, List.cons.injEq] at hshort
  have hevent : x.event = e' := congrArg Prod.snd hshort.1
  have hlen := congrArg List.length hclaim
  change e'.length = (t.toList ++ e).length at hlen
  rw [List.length_append, Block.length_toList, ← hevent] at hlen
  omega

/-- An entry whose commitment is signed begins the log of what follows. -/
theorem val_attestLog_cons (prev : Option (Block 32)) (seed : Seed) (event : Bytes)
    (calls : List (Except VeilError Seed × Bytes)) (l : List (LogEntry (Block 32) Bytes))
    (hsign : (iterationSignature X L seed (chainData prev event)).isSome)
    (hrest : (attestLog X L (some (iterationTranscript X L seed (chainData prev event)))
      calls).val = .ok l) :
    (attestLog X L prev ((.ok seed, event) :: calls)).val
      = .ok ({ prev := prev, event := event,
               link := iterationTranscript X L seed (chainData prev event) } :: l) := by
  rcases verifyOnce_of_signs X L seed (Claim.new (chainData prev event)) hsign with
    ⟨valid, hverdict⟩
  unfold attestLog attestChainEntry
  rw [Queried.val_bind, hverdict]
  simp only [Queried.val_bind]
  rw [Claim.new, hrest]
  rfl

end

/-! ### A log and its splice -/

/-- The transcript of `event-1` under the seed of zeros. -/
def firstTranscript : Block 32 :=
  iterationTranscript Keccak.shake256 Libcrux.transparent (zeros 64) (ascii "event-1")

/-- The transcript of `event-2` after it. -/
def secondTranscript : Block 32 :=
  iterationTranscript Keccak.shake256 Libcrux.transparent (zeros 64)
    (firstTranscript.toList ++ ascii "event-2")

def twoEvents : List (Except VeilError Seed × Bytes) :=
  [(.ok (zeros 64), ascii "event-1"), (.ok (zeros 64), ascii "event-2")]

/-- The first transcript and the second event as one event. -/
def splicedEvent : List (Except VeilError Seed × Bytes) :=
  [(.ok (zeros 64), firstTranscript.toList ++ ascii "event-2")]

theorem firstTranscript_ne : secondTranscript ≠ firstTranscript := by decide +kernel

theorem transparent_signs_iteration (X : Xof) (seed : Seed) (claim : Bytes) :
    (iterationSignature X Libcrux.transparent seed claim).isSome := by
  unfold iterationSignature
  refine Libcrux.transparent_signs _ _ _ _ ?_
  rw [Block.length_toList]
  decide

/-- A log of one event. -/
theorem val_attestLog_one (X : Xof) (seed : Seed) (event : Bytes) :
    (attestLog X Libcrux.transparent none [(.ok seed, event)]).val
      = .ok [{ prev := none, event := event,
               link := iterationTranscript X Libcrux.transparent seed event }] :=
  val_attestLog_cons X _ none seed event [] [] (transparent_signs_iteration X seed _) rfl

/-- A log of two events. -/
theorem val_attestLog_two (X : Xof) (seed : Seed) (event event' : Bytes) (t : Block 32)
    (ht : t = iterationTranscript X Libcrux.transparent seed event) :
    (attestLog X Libcrux.transparent none [(.ok seed, event), (.ok seed, event')]).val
      = .ok [{ prev := none, event := event, link := t },
          { prev := some t, event := event',
            link := iterationTranscript X Libcrux.transparent seed (t.toList ++ event') }] := by
  rw [ht]
  exact val_attestLog_cons X _ none seed event _ _ (transparent_signs_iteration X seed _)
    (val_attestLog_cons X _ _ seed event' [] [] (transparent_signs_iteration X seed _) rfl)

theorem val_attestLog_twoEvents :
    (attestLog Keccak.shake256 Libcrux.transparent none twoEvents).val
      = .ok [{ prev := none, event := ascii "event-1", link := firstTranscript },
          { prev := some firstTranscript, event := ascii "event-2", link := secondTranscript }] :=
  val_attestLog_two _ (zeros 64) (ascii "event-1") (ascii "event-2") firstTranscript rfl

theorem val_attestLog_splicedEvent :
    (attestLog Keccak.shake256 Libcrux.transparent none splicedEvent).val
      = .ok [{ prev := none, event := firstTranscript.toList ++ ascii "event-2",
               link := secondTranscript }] :=
  val_attestLog_one _ (zeros 64) _

/-- The last claim tells a log of two events from the log of its first. -/
theorem attestLog_commits_prefix :
    lastClaim chainData
        [{ prev := none, event := ascii "event-1", link := firstTranscript },
          { prev := some firstTranscript, event := ascii "event-2", link := secondTranscript }]
      ≠ lastClaim chainData
        [{ prev := none, event := ascii "event-1", link := firstTranscript }] := by
  intro hlast
  have hevents := (attestLog_commits_iff Keccak.shake256 Libcrux.transparent twoEvents
    [(.ok (zeros 64), ascii "event-1")] _ _ val_attestLog_twoEvents
    (val_attestLog_one _ (zeros 64) (ascii "event-1")) ?_).mpr ⟨?_, ?_⟩ hlast
  · have hlen := congrArg List.length hevents
    rw [List.length_map, List.length_map] at hlen
    change 2 = 1 at hlen
    omega
  -- The links of the two entries differ, so only a link and itself are equal.
  · intro x hx y hy hlink
    rw [List.mem_singleton] at hy
    rcases List.mem_cons.mp hx with hx | hx
    · rw [hx, hy]
    · rw [List.mem_singleton] at hx
      rw [hx, hy] at hlink
      exact absurd hlink firstTranscript_ne
  · exact not_spliced_of_short _ _ _ (by decide)
  · exact not_spliced_of_short _ _ _ (by decide)

/-- The first of two transcripts, put in front of the second event, makes a
    first event of its own: another log with the same last claim. -/
theorem attestLog_spliced :
    ∃ l l', (attestLog Keccak.shake256 Libcrux.transparent none twoEvents).val = .ok l ∧
      (attestLog Keccak.shake256 Libcrux.transparent none splicedEvent).val = .ok l' ∧
      FaithfulLinks chainData l l' ∧ lastClaim chainData l = lastClaim chainData l' ∧
      twoEvents.map Prod.snd ≠ splicedEvent.map Prod.snd := by
  have hclaim := chainData_none_append firstTranscript (ascii "event-2")
  refine ⟨_, _, val_attestLog_twoEvents, val_attestLog_splicedEvent, ?_,
    congrArg some hclaim.symm, ?_⟩
  · intro x hx y hy hlink
    rw [List.mem_singleton] at hy
    rcases List.mem_cons.mp hx with hx | hx
    · rw [hx, hy] at hlink
      exact absurd hlink.symm firstTranscript_ne
    · rw [List.mem_singleton] at hx
      rw [hx, hy, hclaim]
  · intro h
    have hlen := congrArg List.length h
    rw [List.length_map, List.length_map] at hlen
    change 2 = 1 at hlen
    omega

end Veil7
