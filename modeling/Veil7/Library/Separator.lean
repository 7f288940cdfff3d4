import Mathlib.Data.List.Infix
import Mathlib.Data.List.Flatten

/-!
# Separated Words

Lists of words written one after the other, each preceded by a fixed
separator and by nothing else. No length is written, so the only thing that
marks where a word begins is the separator, and a word that contains the
separator itself cannot be told from two words.

The module says exactly how much of the list survives. `pieces` cuts every
word at the separators inside it; two lists are written alike if and only if
their pieces agree (`separated_eq_iff`). What makes the cut unique is that
the separator is `Unbordered`: no proper beginning of it is also an end of
it, so two of its occurrences never overlap, and an occurrence that is not
inside a word can only be one that was written as a separator.

## Main definitions

* `Clean`: A word that does not contain the separator.
* `Unbordered`: A word none of whose proper beginnings is an end of it.
* `separated`: The words, each preceded by the separator.
* `cut`: A word split at the separators inside it.
* `pieces`: Every word of a list cut, in order.

## Theorems

* `separated_inj_of_clean`: Clean words are read back uniquely.
* `separated_pieces`: Cutting does not change what is written.
* `separated_eq_iff`: Two lists are written alike exactly when their pieces
  agree.
* `pieces_of_clean`: Clean words are their own pieces.
-/

namespace Veil7

universe u

variable {α : Type u}

/-- The word `w` does not contain the separator. -/
def Clean (sep w : List α) : Prop := ¬ sep <:+: w

/-- No proper non-empty beginning of the word is also an end of it. -/
def Unbordered (sep : List α) : Prop :=
  ∀ k < sep.length, 0 < k → sep.take k ≠ sep.drop (sep.length - k)

instance [DecidableEq α] (sep : List α) : Decidable (Unbordered sep) :=
  inferInstanceAs (Decidable (∀ k < sep.length, 0 < k → sep.take k ≠ sep.drop (sep.length - k)))

instance [DecidableEq α] (sep w : List α) : Decidable (Clean sep w) :=
  inferInstanceAs (Decidable (¬ sep <:+: w))

/-- The words of a list, each preceded by the separator. -/
def separated (sep : List α) (ws : List (List α)) : List α :=
  ws.flatMap fun w => sep ++ w

@[simp] theorem separated_nil (sep : List α) : separated sep [] = [] := rfl

@[simp] theorem separated_cons (sep w : List α) (ws : List (List α)) :
    separated sep (w :: ws) = sep ++ (w ++ separated sep ws) := by
  simp only [separated, List.flatMap_cons, List.append_assoc]

@[simp] theorem separated_append (sep : List α) (ws us : List (List α)) :
    separated sep (ws ++ us) = separated sep ws ++ separated sep us := by
  simp only [separated, List.flatMap_append]

/-- A beginning of the separator that is cut off by something that also
    starts with the separator would be a border of it. -/
theorem unbordered_overlap (sep u v x y : List α) (hunb : Unbordered sep)
    (hu : u ≠ []) (hv : v ≠ []) (hsep : sep = u ++ v) (h : v ++ x = sep ++ y) : False := by
  have hulen : 0 < u.length := List.length_pos_iff.mpr hu
  have hvlen : 0 < v.length := List.length_pos_iff.mpr hv
  have hlen : sep.length = u.length + v.length := by rw [hsep, List.length_append]
  refine hunb v.length (by omega) hvlen ?_
  -- `v` is the separator's beginning by `h` and its end by `hsep`.
  have hbeg : sep.take v.length = v := by
    have htake := congrArg (List.take v.length) h
    rw [List.take_left, List.take_append_of_le_length (by omega)] at htake
    exact htake.symm
  have hend : sep.drop (sep.length - v.length) = v := by
    rw [hlen, Nat.add_sub_cancel, hsep, List.drop_left]
  rw [hbeg, hend]

/-- The first word of a separated list is found in one way only: a longer
    reading of it would have to swallow a separator. -/
theorem clean_prefix_eq (sep w w' : List α) (ws ws' : List (List α)) (hunb : Unbordered sep)
    (hw' : Clean sep w') (hle : w.length ≤ w'.length)
    (h : w ++ separated sep ws = w' ++ separated sep ws') : w = w' := by
  rcases List.append_eq_append_iff.mp h with ⟨u, hu, hrest⟩ | ⟨u, hu, -⟩
  · by_cases hnil : u = []
    · rw [hu, hnil, List.append_nil]
    exfalso
    -- What follows `w` starts with a separator, and `u` is a beginning of it.
    cases ws with
    | nil =>
        rw [separated_nil] at hrest
        exact hnil (List.append_eq_nil_iff.mp hrest.symm).1
    | cons x xs =>
        rw [separated_cons] at hrest
        rcases List.append_eq_append_iff.mp hrest with ⟨v, hv, -⟩ | ⟨v, hv, hover⟩
        · -- The whole separator fits in `u`, so `w'` contains it.
          exact hw' ⟨w, v, by rw [hu, hv, List.append_assoc]⟩
        · by_cases hvnil : v = []
          · refine hw' ⟨w, [], ?_⟩
            rw [hu, hv, hvnil, List.append_nil, List.append_nil]
          -- Only a part of it fits; the next separator overlaps the rest.
          cases ws' with
          | nil =>
              rw [separated_nil] at hover
              exact hvnil (List.append_eq_nil_iff.mp hover.symm).1
          | cons x' xs' =>
              rw [separated_cons] at hover
              exact unbordered_overlap sep u v _ _ hunb hnil hvnil hv hover.symm
  · have hlen : u.length = 0 := by
      have := congrArg List.length hu
      rw [List.length_append] at this
      omega
    rw [hu, List.length_eq_zero_iff.mp hlen, List.append_nil]

/-- Words that do not contain the separator are read back uniquely. -/
theorem separated_inj_of_clean (sep : List α) (hunb : Unbordered sep) (hne : sep ≠ []) :
    ∀ (ws ws' : List (List α)), (∀ w ∈ ws, Clean sep w) → (∀ w ∈ ws', Clean sep w) →
      separated sep ws = separated sep ws' → ws = ws' := by
  intro ws
  induction ws with
  | nil =>
      intro ws' _ _ h
      cases ws' with
      | nil => rfl
      | cons w' ws' =>
          rw [separated_nil, separated_cons] at h
          exact absurd (List.append_eq_nil_iff.mp h.symm).1 hne
  | cons w ws ih =>
      intro ws' hc hc' h
      cases ws' with
      | nil =>
          rw [separated_nil, separated_cons] at h
          exact absurd (List.append_eq_nil_iff.mp h).1 hne
      | cons w' ws' =>
          rw [separated_cons, separated_cons] at h
          have hrest := List.append_cancel_left h
          have hww : w = w' := by
            rcases Nat.le_total w.length w'.length with hle | hle
            · exact clean_prefix_eq sep w w' ws ws' hunb (hc' w' List.mem_cons_self) hle hrest
            · exact (clean_prefix_eq sep w' w ws' ws hunb (hc w List.mem_cons_self) hle
                hrest.symm).symm
          subst hww
          rw [ih ws' (fun v hv => hc v (List.mem_cons_of_mem _ hv))
            (fun v hv => hc' v (List.mem_cons_of_mem _ hv)) (List.append_cancel_left hrest)]

section Cut

variable [DecidableEq α]

/-- A word split at the separators inside it, leftmost first. -/
def cut (sep : List α) : List α → List (List α)
  | [] => [[]]
  | a :: w =>
    if sep <+: a :: w then [] :: cut sep (w.drop (sep.length - 1))
    else match cut sep w with
      | [] => [[a]]
      | p :: ps => (a :: p) :: ps
termination_by w => w.length
decreasing_by
  all_goals simp only [List.length_drop, List.length_cons]
  all_goals omega

theorem cut_ne_nil (sep w : List α) : cut sep w ≠ [] := by
  cases w with
  | nil => simp only [cut, ne_eq, List.cons_ne_self, not_false_eq_true]
  | cons a w =>
      rw [cut]
      split
      · exact List.cons_ne_nil _ _
      · split <;> exact List.cons_ne_nil _ _

/-- Writing the pieces of a word with separators gives the word back, after
    the separator that introduces it. -/
theorem separated_cut (sep w : List α) (hne : sep ≠ []) : separated sep (cut sep w) = sep ++ w := by
  have hpos : 0 < sep.length := List.length_pos_iff.mpr hne
  induction w using cut.induct sep with
  | case1 => simp only [cut, separated_cons, separated_nil, List.append_nil]
  | case2 a w hpre ih =>
      rw [cut, if_pos hpre, separated_cons, ih, List.nil_append]
      rcases hpre with ⟨t, ht⟩
      have hdrop : w.drop (sep.length - 1) = t := by
        have h := congrArg (List.drop sep.length) ht
        rw [List.drop_left] at h
        rw [h, show sep.length = (sep.length - 1) + 1 by omega, List.drop_succ_cons,
          Nat.add_sub_cancel]
      rw [hdrop, ht]
  | case3 a w hpre hcut ih => exact absurd hcut (cut_ne_nil sep w)
  | case4 a w hpre p ps hcut ih =>
      rw [cut, if_neg hpre, hcut, separated_cons]
      rw [hcut, separated_cons] at ih
      rw [List.cons_append, List.append_cancel_left ih]

/-- No piece of a cut word contains the separator. -/
theorem clean_of_mem_cut (sep w : List α) (hne : sep ≠ []) : ∀ p ∈ cut sep w, Clean sep p := by
  have hnil : Clean sep [] := fun h => hne (List.infix_nil.mp h)
  -- The pieces' own heads are beginnings of the word, which the step needs.
  induction w using cut.induct sep with
  | case1 =>
      intro p hp
      simp only [cut, List.mem_singleton] at hp
      rw [hp]
      exact hnil
  | case2 a w hpre ih =>
      intro p hp
      rw [cut, if_pos hpre, List.mem_cons] at hp
      rcases hp with hp | hp
      · rw [hp]
        exact hnil
      · exact ih p hp
  | case3 a w hpre hcut ih => exact absurd hcut (cut_ne_nil sep w)
  | case4 a w hpre q qs hcut ih =>
      intro p hp
      rw [cut, if_neg hpre, hcut, List.mem_cons] at hp
      rcases hp with hp | hp
      · have hhead : q <+: w := by
          have h := separated_cut sep w hne
          rw [hcut, separated_cons] at h
          exact ⟨_, List.append_cancel_left h⟩
        rw [hp]
        intro hin
        rcases List.infix_cons_iff.mp hin with hin | hin
        · exact hpre (hin.trans ((List.prefix_cons_inj a).mpr hhead))
        · exact ih q (by rw [hcut]; exact List.mem_cons_self) hin
      · exact ih p (by rw [hcut]; exact List.mem_cons_of_mem _ hp)

/-- The words of a list, each cut at the separators inside it. -/
def pieces (sep : List α) (ws : List (List α)) : List (List α) :=
  ws.flatMap (cut sep)

theorem separated_pieces (sep : List α) (ws : List (List α)) (hne : sep ≠ []) :
    separated sep (pieces sep ws) = separated sep ws := by
  induction ws with
  | nil => rfl
  | cons w ws ih =>
      rw [pieces, List.flatMap_cons, separated_append, separated_cut sep w hne, separated_cons,
        List.append_assoc]
      rw [pieces] at ih
      rw [ih]

theorem clean_of_mem_pieces (sep : List α) (ws : List (List α)) (hne : sep ≠ []) :
    ∀ p ∈ pieces sep ws, Clean sep p := by
  intro p hp
  rcases List.mem_flatMap.mp hp with ⟨w, -, hpw⟩
  exact clean_of_mem_cut sep w hne p hpw

/-- Two lists of words are written alike exactly when they agree once every
    word is cut at the separators inside it. -/
theorem separated_eq_iff (sep : List α) (ws ws' : List (List α)) (hunb : Unbordered sep)
    (hne : sep ≠ []) : separated sep ws = separated sep ws' ↔ pieces sep ws = pieces sep ws' := by
  constructor
  · intro h
    rw [← separated_pieces sep ws hne, ← separated_pieces sep ws' hne] at h
    exact separated_inj_of_clean sep hunb hne _ _ (clean_of_mem_pieces sep ws hne)
      (clean_of_mem_pieces sep ws' hne) h
  · intro h
    rw [← separated_pieces sep ws hne, h, separated_pieces sep ws' hne]

/-- Words that do not contain the separator are their own pieces. -/
theorem pieces_of_clean (sep : List α) (ws : List (List α)) (hunb : Unbordered sep)
    (hne : sep ≠ []) (hc : ∀ w ∈ ws, Clean sep w) : pieces sep ws = ws :=
  separated_inj_of_clean sep hunb hne _ _ (clean_of_mem_pieces sep ws hne) hc
    (separated_pieces sep ws hne)

end Cut

end Veil7
