import Mathlib.Data.List.Flatten
import Mathlib.Data.List.Basic

/-!
# Interpreters of Coded Programs

A program is a string of symbols; its instructions are read off the front one
at a time. A machine that runs it can be described in two ways: decode the
whole string first and run the list of instructions, or fetch, execute and
move on. The first is the meaning one wants to state, the second is what
machines do, and the two agree (`Simulates.interpret_eq`) as soon as one
iteration of the machine does what one instruction means.

A run records what it does: for every instruction its code word and what the
instruction produced. Two runs from one state with the same record ran the
same program (`run_inj`), because their records can be read back word by
word, in step with each other.

## Main definitions

* `StreamCode`: A code whose words are read off the front of a string.
* `decodeAll`: The instructions a whole string is made of.
* `run`: The run of a list of instructions, with its record.
* `interpret`: Decode everything, then run.
* `Simulates`: One iteration of a machine does what one instruction means.

## Theorems

* `decodeAll_eq_some_iff`: Decoding inverts writing one after the other.
* `interpret_append`: Interpreting goes word by word.
* `run_inj`: The record of a run determines its program.
* `Simulates.interpret_eq`: Fetching and executing is interpreting.
-/

namespace Veil7

universe u v w

/-- A code whose words can be read off the front of a string. -/
structure StreamCode (α : Type u) (β : Type v) where
  encode : α → List β
  decode : List β → Option (α × List β)
  decode_encode : ∀ (a : α) (rest : List β), decode (encode a ++ rest) = some (a, rest)
  encode_of_decode : ∀ (l : List β) (a : α) (rest : List β),
    decode l = some (a, rest) → l = encode a ++ rest
  encode_ne_nil : ∀ a : α, encode a ≠ []

namespace StreamCode

variable {α : Type u} {β : Type v} (C : StreamCode α β)

theorem length_lt_of_decode (l : List β) (a : α) (rest : List β)
    (h : C.decode l = some (a, rest)) : rest.length < l.length := by
  have hpos := List.length_pos_iff.mpr (C.encode_ne_nil a)
  rw [C.encode_of_decode l a rest h, List.length_append]
  omega

/-- A word at the front is the word read. -/
theorem encode_append_inj (a b : α) (u v : List β) (h : C.encode a ++ u = C.encode b ++ v) :
    a = b ∧ u = v := by
  have hdecode := C.decode_encode a u
  rw [h, C.decode_encode b v, Option.some.injEq, Prod.mk.injEq] at hdecode
  exact ⟨hdecode.1.symm, hdecode.2.symm⟩

/-- Every string is empty, unreadable, or a word followed by a shorter string. -/
theorem induction (motive : List β → Prop) (nil : motive [])
    (stuck : ∀ l, l ≠ [] → C.decode l = none → motive l)
    (word : ∀ a rest, motive rest → motive (C.encode a ++ rest)) : ∀ l, motive l := by
  intro l
  induction h : l.length using Nat.strongRecOn generalizing l with
  | _ n ih =>
      by_cases hl : l = []
      · rw [hl]
        exact nil
      cases hdecode : C.decode l with
      | none => exact stuck l hl hdecode
      | some p =>
          rcases p with ⟨a, rest⟩
          have hlt := C.length_lt_of_decode l a rest hdecode
          rw [C.encode_of_decode l a rest hdecode]
          exact word a rest (ih rest.length (by omega) rest rfl)

/-- The instructions a string is made of, if it is made of whole words. -/
def decodeAll (l : List β) : Option (List α) :=
  if l.isEmpty then some []
  else
    match h : C.decode l with
    | none => none
    | some (a, rest) =>
      have := C.length_lt_of_decode l a rest h
      (decodeAll rest).map (a :: ·)
termination_by l.length

@[simp] theorem decodeAll_nil : C.decodeAll [] = some [] := by
  unfold decodeAll
  rfl

theorem decodeAll_of_stuck (l : List β) (hl : l ≠ []) (h : C.decode l = none) :
    C.decodeAll l = none := by
  unfold decodeAll
  rw [if_neg (by rw [List.isEmpty_iff]; exact hl)]
  split
  · rfl
  · next a rest hsome =>
      rw [h] at hsome
      cases hsome

theorem decodeAll_append (a : α) (rest : List β) :
    C.decodeAll (C.encode a ++ rest) = (C.decodeAll rest).map (a :: ·) := by
  have hne : ¬ (C.encode a ++ rest).isEmpty = true := by
    rw [List.isEmpty_iff, List.append_eq_nil_iff]
    exact fun h => C.encode_ne_nil a h.1
  rw [decodeAll, if_neg hne]
  split
  · next hnone =>
      rw [C.decode_encode a rest] at hnone
      cases hnone
  · next b rest' hsome =>
      have hpair := hsome
      rw [C.decode_encode a rest, Option.some.injEq, Prod.mk.injEq] at hpair
      rcases hpair with ⟨rfl, rfl⟩
      rfl

theorem decodeAll_flatMap (as : List α) : C.decodeAll (as.flatMap C.encode) = some as := by
  induction as with
  | nil => exact C.decodeAll_nil
  | cons a as ih => rw [List.flatMap_cons, decodeAll_append, ih, Option.map_some]

/-- A string decodes to the instructions it is written from, and to no others. -/
theorem decodeAll_eq_some_iff (l : List β) (as : List α) :
    C.decodeAll l = some as ↔ l = as.flatMap C.encode := by
  constructor
  · refine C.induction (fun l => ∀ as, C.decodeAll l = some as → l = as.flatMap C.encode)
      ?_ ?_ ?_ l as
    · intro as h
      rw [decodeAll_nil, Option.some.injEq] at h
      rw [← h, List.flatMap_nil]
    · intro l hl hstuck as h
      rw [C.decodeAll_of_stuck l hl hstuck] at h
      cases h
    · intro a rest ih as h
      rw [decodeAll_append, Option.map_eq_some_iff] at h
      rcases h with ⟨as', has', h⟩
      rw [← h, List.flatMap_cons, ← ih as' has']
  · intro h
    rw [h, decodeAll_flatMap]

section Run

variable {σ : Type w} (step : α → σ → Option (σ × List β))

/-- The run of a list of instructions, which fails with its first failing
    instruction. It records the word of every instruction and what the
    instruction produced. -/
def run : List α → σ → Option (σ × List β)
  | [], s => some (s, [])
  | a :: as, s =>
    (step a s).bind fun sr => (run as sr.1).map fun st => (st.1, C.encode a ++ sr.2 ++ st.2)

/-- The meaning of a program: decode all of it, then run. -/
def interpret (l : List β) (s : σ) : Option (σ × List β) :=
  (C.decodeAll l).bind fun as => C.run step as s

theorem interpret_nil (s : σ) : C.interpret step [] s = some (s, []) := by
  rw [interpret, decodeAll_nil]
  rfl

theorem interpret_of_stuck (l : List β) (s : σ) (hl : l ≠ []) (h : C.decode l = none) :
    C.interpret step l s = none := by
  rw [interpret, C.decodeAll_of_stuck l hl h]
  rfl

/-- Interpreting goes word by word. -/
theorem interpret_append (a : α) (rest : List β) (s : σ) :
    C.interpret step (C.encode a ++ rest) s
      = (step a s).bind fun sr =>
          (C.interpret step rest sr.1).map fun st => (st.1, C.encode a ++ sr.2 ++ st.2) := by
  unfold interpret
  rw [decodeAll_append]
  cases C.decodeAll rest with
  | none =>
      -- The rest is unreadable: interpreting fails whatever the first word does.
      cases step a s <;> rfl
  | some as => rfl

/-- Two runs from one state with one record, up to a tail of known length, are
    runs of one program. -/
theorem run_inj (as as' : List α) (s s₁ s₁' : σ) (t t' u u' : List β)
    (h : C.run step as s = some (s₁, t)) (h' : C.run step as' s = some (s₁', t'))
    (hlen : u.length = u'.length) (heq : t ++ u = t' ++ u') : as = as' := by
  -- A run that is over is not mistaken for one that is not, whatever the tails hold.
  have hnil : ∀ (a : α) (r x y z : List β), y.length = z.length →
      [] ++ y ≠ C.encode a ++ r ++ x ++ z := by
    intro a r x y z hyz hcontra
    have hpos := List.length_pos_iff.mpr (C.encode_ne_nil a)
    have hlength := congrArg List.length hcontra
    simp only [List.length_append, List.length_nil] at hlength
    omega
  induction as generalizing as' s s₁ s₁' t t' with
  | nil =>
      cases as' with
      | nil => rfl
      | cons b bs =>
          simp only [run, Option.some.injEq, Prod.mk.injEq, Option.bind_eq_some_iff,
            Option.map_eq_some_iff] at h h'
          rcases h' with ⟨sr, -, st, -, -, ht'⟩
          rw [← h.2, ← ht'] at heq
          exact absurd heq (hnil b _ _ u u' hlen)
  | cons a as ih =>
      cases as' with
      | nil =>
          simp only [run, Option.some.injEq, Prod.mk.injEq, Option.bind_eq_some_iff,
            Option.map_eq_some_iff] at h h'
          rcases h with ⟨sr, -, st, -, -, ht⟩
          rw [← h'.2, ← ht] at heq
          exact absurd heq.symm (hnil a _ _ u' u hlen.symm)
      | cons b bs =>
          simp only [run, Option.bind_eq_some_iff, Option.map_eq_some_iff, Prod.mk.injEq] at h h'
          rcases h with ⟨sr, hstep, st, hrun, -, ht⟩
          rcases h' with ⟨sr', hstep', st', hrun', -, ht'⟩
          -- The first words agree, so both runs take the same first step.
          have hword :
              C.encode a ++ (sr.2 ++ st.2 ++ u) = C.encode b ++ (sr'.2 ++ st'.2 ++ u') := by
            simpa only [← ht, ← ht', List.append_assoc] using heq
          rcases C.encode_append_inj a b _ _ hword with ⟨hab, hrest⟩
          rw [← hab, hstep, Option.some.injEq] at hstep'
          rw [← hstep', List.append_assoc, List.append_assoc] at hrest
          rw [hab, ih bs sr.1 st.1 st'.1 st.2 st'.2 hrun (by rw [hstep']; exact hrun')
            (List.append_cancel_left hrest)]

end Run

section Simulates

variable {σ : Type w} {γ ε : Type} (step : α → σ → Option (σ × List β))
variable (fetch : γ → List β) (next : γ → Except ε γ)

/-- One iteration of a machine does what one instruction means. The relation
    ties a state of the machine to the state of the interpreter and to the
    record so far; `failed` is what a failing iteration leaves. -/
structure Simulates (related : γ → σ → List β → Prop) (failed : ε → Prop) : Prop where
  stuck : ∀ c s t, related c s t → fetch c ≠ [] → C.decode (fetch c) = none →
    ∃ e, next c = .error e ∧ failed e
  fails : ∀ c s t a rest, related c s t → fetch c = C.encode a ++ rest → step a s = none →
    ∃ e, next c = .error e ∧ failed e
  steps : ∀ c s t a rest s' r, related c s t → fetch c = C.encode a ++ rest →
    step a s = some (s', r) →
    ∃ c', next c = .ok c' ∧ fetch c' = rest ∧ related c' s' (t ++ (C.encode a ++ r))

/-- A machine that fetches and executes until its program is used up interprets
    its program. -/
theorem Simulates.interpret_eq (related : γ → σ → List β → Prop) (failed : ε → Prop)
    (hsim : Simulates C step fetch next related failed) (loop : γ → Except ε γ)
    (hdone : ∀ c, fetch c = [] → loop c = .ok c)
    (hloop : ∀ c, fetch c ≠ [] → loop c = (next c).bind loop)
    (c : γ) (s : σ) (t : List β) (hrel : related c s t) :
    match C.interpret step (fetch c) s with
    | none => ∃ e, loop c = .error e ∧ failed e
    | some (s', t') => ∃ c', loop c = .ok c' ∧ related c' s' (t ++ t') := by
  refine C.induction (fun l => ∀ c s t, fetch c = l → related c s t →
    match C.interpret step l s with
    | none => ∃ e, loop c = .error e ∧ failed e
    | some (s', t') => ∃ c', loop c = .ok c' ∧ related c' s' (t ++ t')) ?_ ?_ ?_ _ c s t rfl hrel
  -- The program is used up.
  · intro c s t hfetch hrel
    rw [interpret_nil]
    refine ⟨c, hdone c hfetch, ?_⟩
    rw [List.append_nil]
    exact hrel
  -- What is left cannot be read.
  · intro l hl hstuck c s t hfetch hrel
    rw [interpret_of_stuck C step l s hl hstuck]
    rw [← hfetch] at hl hstuck
    rcases hsim.stuck c s t hrel hl hstuck with ⟨e, hnext, he⟩
    refine ⟨e, ?_, he⟩
    rw [hloop c hl, hnext]
    rfl
  -- An instruction: it fails, or the induction goes on behind it.
  · intro a rest ih c s t hfetch hrel
    have hne : fetch c ≠ [] := by
      rw [hfetch, Ne, List.append_eq_nil_iff]
      exact fun h => C.encode_ne_nil a h.1
    rw [interpret_append]
    cases hstep : step a s with
    | none =>
        rcases hsim.fails c s t a rest hrel hfetch hstep with ⟨e, hnext, he⟩
        refine ⟨e, ?_, he⟩
        rw [hloop c hne, hnext]
        rfl
    | some sr =>
        rcases sr with ⟨s₁, r⟩
        rcases hsim.steps c s t a rest s₁ r hrel hfetch hstep with ⟨c₁, hnext, hfetch₁, hrel₁⟩
        have hcont : loop c = loop c₁ := by
          rw [hloop c hne, hnext]
          rfl
        have htail := ih c₁ s₁ _ hfetch₁ hrel₁
        rw [Option.bind_some, hcont]
        cases hrest : C.interpret step rest s₁ with
        | none =>
            rw [hrest] at htail
            exact htail
        | some st =>
            rw [hrest] at htail
            simpa only [Option.map_some, List.append_assoc] using htail

end Simulates

end StreamCode

end Veil7
