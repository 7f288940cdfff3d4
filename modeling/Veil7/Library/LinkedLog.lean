import Mathlib.Data.List.Basic
import Mathlib.Data.List.Induction

/-!
# Linked Logs

Logs in which every entry names the one before it. An entry is made from an
event and the link left by its predecessor, and leaves a link of its own; what
is committed to is a claim formed from the two.

A log of this kind is meant to commit to its history: from the last claim one
reads the last event and the link before it, from the link the claim it was
left for, and so on back. The descent is sound as long as a claim tells its
link from its event. It ends where an entry without a predecessor is reached,
and there the question is whether the claim of such an entry can also be that
of a linked one. Where it can, a log may be cut off at an entry and the link
moved into the event; `Spliced` says so, and `lastClaim_eq_iff` that nothing
else can happen.

Links are assumed to be faithful, and only between the two logs compared: equal
links were left for equal claims.

## Main definitions

* `LogEntry`: A predecessor's link, an event, and the link left.
* `Linked`: Every entry names its predecessor's link.
* `Formed`: A claim shows the link and the event it is formed from.
* `FaithfulLinks`: Equal links were left for equal claims.
* `Spliced`: One log is an end of the other, its first link moved.

## Theorems

* `linked_concat`: A log grows by an entry that names the last link.
* `lastClaim_eq_iff`: The last claims agree on equal or spliced logs only.
* `commits_iff`: The pairs of logs on which the last claim is a commitment.
-/

namespace Veil7

universe u v w

/-- One entry of a log. -/
structure LogEntry (τ : Type u) (ε : Type v) where
  prev : Option τ
  event : ε
  link : τ
deriving DecidableEq

variable {τ : Type u} {ε : Type v} {γ : Type w}

/-- What an entry is made from. -/
def LogEntry.call (x : LogEntry τ ε) : Option τ × ε := (x.prev, x.event)

/-- The link that the next entry names, if the first one names `p`. -/
def lastLink : Option τ → List (LogEntry τ ε) → Option τ
  | p, [] => p
  | _, x :: l => lastLink (some x.link) l

/-- The first entry names `p`, every other one its predecessor's link. -/
def Linked : Option τ → List (LogEntry τ ε) → Prop
  | _, [] => True
  | p, x :: l => x.prev = p ∧ Linked (some x.link) l

theorem map_call_concat (l : List (LogEntry τ ε)) (x : LogEntry τ ε) :
    (l ++ [x]).map LogEntry.call = l.map LogEntry.call ++ [x.call] :=
  List.map_append

theorem lastLink_concat (p : Option τ) (l : List (LogEntry τ ε)) (x : LogEntry τ ε) :
    lastLink p (l ++ [x]) = some x.link := by
  induction l generalizing p with
  | nil => rfl
  | cons y l ih => exact ih (some y.link)

theorem linked_concat (p : Option τ) (l : List (LogEntry τ ε)) (x : LogEntry τ ε) :
    Linked p (l ++ [x]) ↔ Linked p l ∧ x.prev = lastLink p l := by
  induction l generalizing p with
  | nil =>
      constructor
      · exact fun h => ⟨trivial, h.1⟩
      · exact fun h => ⟨h.2, trivial⟩
  | cons y l ih =>
      rw [List.cons_append, Linked, Linked, lastLink, ih, and_assoc]

/-- Only the first entry of a log has no predecessor. -/
theorem eq_nil_of_prev_none (l : List (LogEntry τ ε)) (x : LogEntry τ ε)
    (h : Linked none (l ++ [x])) (hx : x.prev = none) : l = [] := by
  cases l using List.reverseRecOn with
  | nil => rfl
  | append_singleton l y =>
      have hprev := ((linked_concat none (l ++ [y]) x).mp h).2
      rw [hx, lastLink_concat] at hprev
      cases hprev

section

variable (claim : Option τ → ε → γ)

/-- The claim of the last entry. -/
def lastClaim (l : List (LogEntry τ ε)) : Option γ :=
  l.getLast?.map fun x => claim x.prev x.event

/-- A claim tells a link from the event that follows it, and is the event's own
    where no link does. -/
structure Formed : Prop where
  none_inj : ∀ e e', claim none e = claim none e' → e = e'
  some_inj : ∀ t e t' e', claim (some t) e = claim (some t') e' → t = t' ∧ e = e'

/-- A link of one log is a link of the other only if it was left for the same
    claim. -/
def FaithfulLinks (l l' : List (LogEntry τ ε)) : Prop :=
  ∀ x ∈ l, ∀ y ∈ l', x.link = y.link → claim x.prev x.event = claim y.prev y.event

/-- The short log makes the entries with which the long one ends; but its first
    entry, which names no link, forms the claim that the entry of the long log
    forms from a link. -/
def Spliced (short long : List (LogEntry τ ε)) : Prop :=
  ∃ before t e e' rest, long.map LogEntry.call = before ++ (some t, e) :: rest ∧
    short.map LogEntry.call = (none, e') :: rest ∧ claim none e' = claim (some t) e

theorem lastClaim_concat (l : List (LogEntry τ ε)) (x : LogEntry τ ε) :
    lastClaim claim (l ++ [x]) = some (claim x.prev x.event) := by
  rw [lastClaim, List.getLast?_concat, Option.map_some]

/-- The last claim is that of the last call. -/
theorem lastClaim_eq_map (l : List (LogEntry τ ε)) :
    lastClaim claim l = (l.map LogEntry.call).getLast?.map fun c => claim c.1 c.2 := by
  rw [lastClaim, List.getLast?_map, Option.map_map]
  rfl

theorem Spliced.lastClaim_eq {short long : List (LogEntry τ ε)}
    (h : Spliced claim short long) : lastClaim claim short = lastClaim claim long := by
  rcases h with ⟨before, t, e, e', rest, hlong, hshort, hclaim⟩
  rw [lastClaim_eq_map, lastClaim_eq_map, hlong, hshort]
  -- Either the entries that differ are the last ones, or the last ones are shared.
  cases rest using List.reverseRecOn with
  | nil =>
      rw [List.getLast?_concat, List.getLast?_singleton, Option.map_some, Option.map_some, hclaim]
  | append_singleton rest c =>
      rw [← List.cons_append, ← List.cons_append, ← List.append_assoc, List.getLast?_concat,
        List.getLast?_concat]

/-- A log from its beginning is longer than a log spliced from it. -/
theorem Spliced.length_lt {short long : List (LogEntry τ ε)} (hlong : Linked none long)
    (h : Spliced claim short long) : short.length < long.length := by
  rcases h with ⟨before, t, e, e', rest, hcalls, hshort, -⟩
  have hlen := congrArg List.length hcalls
  have hlen' := congrArg List.length hshort
  rw [List.length_map, List.length_append, List.length_cons] at hlen
  rw [List.length_map, List.length_cons] at hlen'
  cases before with
  | cons c before =>
      rw [List.length_cons] at hlen
      omega
  | nil =>
      -- The first call of a log names no link.
      cases long with
      | nil => cases hcalls
      | cons x long =>
          rw [List.map_cons, List.nil_append, List.cons.injEq] at hcalls
          have hprev := congrArg Prod.fst hcalls.1
          change x.prev = some t at hprev
          rw [hlong.1] at hprev
          cases hprev

theorem Spliced.concat {short long : List (LogEntry τ ε)} (h : Spliced claim short long)
    (x y : LogEntry τ ε) (hcall : x.call = y.call) :
    Spliced claim (short ++ [x]) (long ++ [y]) := by
  rcases h with ⟨before, t, e, e', rest, hlong, hshort, hclaim⟩
  refine ⟨before, t, e, e', rest ++ [y.call], ?_, ?_, hclaim⟩
  · rw [map_call_concat, hlong, List.append_assoc, List.cons_append]
  · rw [map_call_concat, hshort, List.cons_append, hcall]

/-- Two logs whose last entries form the same claim were made by the same
    calls, or one is spliced from the other. -/
theorem calls_eq_or_spliced (hform : Formed claim) (l l' : List (LogEntry τ ε))
    (x y : LogEntry τ ε) (hl : Linked none (l ++ [x]))
    (hl' : Linked none (l' ++ [y])) (hfaith : FaithfulLinks claim l l')
    (hclaim : claim x.prev x.event = claim y.prev y.event) :
    (l ++ [x]).map LogEntry.call = (l' ++ [y]).map LogEntry.call ∨
      Spliced claim (l ++ [x]) (l' ++ [y]) ∨ Spliced claim (l' ++ [y]) (l ++ [x]) := by
  -- Back through the first log, entry by entry.
  induction l using List.reverseRecOn generalizing l' x y with
  | nil =>
      have hx : x.prev = none := hl.1
      cases hy : y.prev with
      | none =>
          rw [hx, hy] at hclaim
          rw [eq_nil_of_prev_none l' y hl' hy]
          have hcall : x.call = y.call := by
            rw [LogEntry.call, LogEntry.call, hx, hy, hform.none_inj _ _ hclaim]
          refine Or.inl ?_
          rw [map_call_concat, map_call_concat, hcall]
      | some t =>
          refine Or.inr (Or.inl ⟨l'.map LogEntry.call, t, y.event, x.event, [], ?_, ?_, ?_⟩)
          · rw [map_call_concat, LogEntry.call, hy]
          · rw [List.nil_append, List.map_singleton, LogEntry.call, hx]
          · rw [← hx, ← hy, hclaim]
  | append_singleton l x₁ ih =>
      have hlink := (linked_concat none (l ++ [x₁]) x).mp hl
      rw [lastLink_concat] at hlink
      cases l' using List.reverseRecOn with
      | nil =>
          have hy : y.prev = none := hl'.1
          refine Or.inr (Or.inr
            ⟨(l ++ [x₁]).map LogEntry.call, x₁.link, x.event, y.event, [], ?_, ?_, ?_⟩)
          · rw [map_call_concat, LogEntry.call, hlink.2]
          · rw [List.nil_append, List.map_singleton, LogEntry.call, hy]
          · rw [← hlink.2, ← hy, hclaim]
      | append_singleton l' y₁ =>
          have hlink' := (linked_concat none (l' ++ [y₁]) y).mp hl'
          rw [lastLink_concat] at hlink'
          -- Both claims show their links, which lead back to the claims before.
          rw [hlink.2, hlink'.2] at hclaim
          rcases hform.some_inj _ _ _ _ hclaim with ⟨hlinks, hevents⟩
          have hcall : x.call = y.call := by
            rw [LogEntry.call, LogEntry.call, hlink.2, hlink'.2, hlinks, hevents]
          have hbefore := hfaith x₁ (List.mem_append_right l (List.mem_singleton_self x₁)) y₁
            (List.mem_append_right l' (List.mem_singleton_self y₁)) hlinks
          have hfaith' : FaithfulLinks claim l l' := fun a ha b hb =>
            hfaith a (List.mem_append_left _ ha) b (List.mem_append_left _ hb)
          rcases ih l' x₁ y₁ hlink.1 hlink'.1 hfaith' hbefore with hsame | hsplice | hsplice
          · refine Or.inl ?_
            rw [map_call_concat (l ++ [x₁]), map_call_concat (l' ++ [y₁]), hsame, hcall]
          · exact Or.inr (Or.inl (hsplice.concat claim x y hcall))
          · exact Or.inr (Or.inr (hsplice.concat claim y x hcall.symm))

/-- The last claims of two logs agree exactly if the logs were made by the same
    calls or one is spliced from the other. -/
theorem lastClaim_eq_iff (hform : Formed claim) (l l' : List (LogEntry τ ε))
    (hl : Linked none l) (hl' : Linked none l') (hfaith : FaithfulLinks claim l l') :
    lastClaim claim l = lastClaim claim l' ↔
      l.map LogEntry.call = l'.map LogEntry.call ∨ Spliced claim l l' ∨ Spliced claim l' l := by
  constructor
  · intro h
    cases l using List.reverseRecOn with
    | nil =>
        cases l' using List.reverseRecOn with
        | nil => exact Or.inl rfl
        | append_singleton l' y =>
            rw [lastClaim_concat] at h
            cases h
    | append_singleton l x =>
        cases l' using List.reverseRecOn with
        | nil =>
            rw [lastClaim_concat] at h
            cases h
        | append_singleton l' y =>
            rw [lastClaim_concat, lastClaim_concat, Option.some.injEq] at h
            refine calls_eq_or_spliced claim hform l l' x y hl hl' ?_ h
            exact fun a ha b hb =>
              hfaith a (List.mem_append_left _ ha) b (List.mem_append_left _ hb)
  · rintro (hsame | hsplice | hsplice)
    · rw [lastClaim_eq_map, lastClaim_eq_map, hsame]
    · exact hsplice.lastClaim_eq
    · exact hsplice.lastClaim_eq.symm

/-- The last claim tells the events of two logs apart unless one log is spliced
    from the other. -/
theorem commits_iff (hform : Formed claim) (l l' : List (LogEntry τ ε))
    (hl : Linked none l) (hl' : Linked none l') (hfaith : FaithfulLinks claim l l') :
    (lastClaim claim l = lastClaim claim l' →
        l.map LogEntry.event = l'.map LogEntry.event) ↔
      ¬ Spliced claim l l' ∧ ¬ Spliced claim l' l := by
  constructor
  · intro h
    refine ⟨fun hsplice => ?_, fun hsplice => ?_⟩
    · have hevents := congrArg List.length (h hsplice.lastClaim_eq)
      have hlt := hsplice.length_lt claim hl'
      rw [List.length_map, List.length_map] at hevents
      omega
    · have hevents := congrArg List.length (h hsplice.lastClaim_eq.symm)
      have hlt := hsplice.length_lt claim hl
      rw [List.length_map, List.length_map] at hevents
      omega
  · rintro ⟨hno, hno'⟩ hlast
    rcases (lastClaim_eq_iff claim hform l l' hl hl' hfaith).mp hlast with
      hsame | hsplice | hsplice
    · have hevents := congrArg (List.map Prod.snd) hsame
      rw [List.map_map, List.map_map] at hevents
      exact hevents
    · exact absurd hsplice hno
    · exact absurd hsplice hno'

end

end Veil7
