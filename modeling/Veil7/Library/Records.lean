import Mathlib.Data.List.Chain
import Veil7.Library.Separator

/-!
# Records Without Marks

Sequences of records, each a header and a body of pieces, written one after the
other with nothing that tells headers from pieces. All pieces of a body are
full, the last one apart.

Such a sequence is read back only if it can be read in one way. There are two
ways to go wrong, and `flat_determines_iff` says that there are no others: a
piece may pass for a header, and start a record of its own; and the header of a
record may pass for a piece, and be taken, with its own pieces after it, into
the body before it. The second needs room: the body before must consist of full
pieces, and the header must itself be full if pieces follow it.

A list is cut into pieces by `chunks`, all of one length but the last. Written
with a separator before each, such pieces need no care for what is inside them:
the length of what is written tells the length of the list, and with it where
every piece ends (`separated_chunks_inj`).

## Main definitions

* `Body`: A list of pieces, full up to the last.
* `flat`: Records written one after the other.
* `Joins`: A record can be taken into the body of the one before.
* `chunks`: The pieces of a list.

## Theorems

* `flat_determines_iff`: The sequences that can be read in one way only.
* `body_chunks`, `flatten_chunks`, `chunks_flatten`: Cutting and joining.
* `chunks_full_iff`: The lists all of whose pieces are full.
* `separated_chunks_inj`: Separated pieces of one length are read back.
-/

namespace Veil7

namespace Records

universe u

section

variable {α : Type u} (Header Full Piece : α → Prop)

/-- Pieces, all of them full but for the last. -/
structure Body (cs : List α) : Prop where
  piece : ∀ c ∈ cs, Piece c
  full : ∀ c ∈ cs.dropLast, Full c

/-- Headers and bodies of the right kind. -/
def Valid (rs : List (α × List α)) : Prop := ∀ r ∈ rs, Header r.1 ∧ Body Full Piece r.2

/-- The records one after the other. -/
def flat (rs : List (α × List α)) : List α := rs.flatMap fun r => r.1 :: r.2

/-- The second record's header, and its pieces with it, fit into the body of
    the first. -/
def Joins (r s : α × List α) : Prop :=
  (∀ c ∈ r.2, Full c) ∧ Piece s.1 ∧ (s.2 = [] ∨ Full s.1)

theorem flat_cons (r : α × List α) (rs : List (α × List α)) :
    flat (r :: rs) = r.1 :: (r.2 ++ flat rs) := by
  unfold flat
  rw [List.flatMap_cons, List.cons_append]

theorem flat_append (rs rs' : List (α × List α)) : flat (rs ++ rs') = flat rs ++ flat rs' := by
  unfold flat
  rw [List.flatMap_append]

variable {Header Full Piece}

theorem body_nil : Body Full Piece [] :=
  ⟨fun _ h => absurd h List.not_mem_nil, fun _ h => absurd h List.not_mem_nil⟩

theorem body_cons (c : α) (cs : List α) :
    Body Full Piece (c :: cs) ↔ Piece c ∧ (cs = [] ∨ Full c) ∧ Body Full Piece cs := by
  by_cases hcs : cs = []
  · subst hcs
    constructor
    · exact fun h => ⟨h.piece c List.mem_cons_self, Or.inl rfl, body_nil⟩
    · rintro ⟨hc, -, -⟩
      refine ⟨fun d hd => ?_, fun d hd => absurd hd List.not_mem_nil⟩
      rw [List.mem_singleton.mp hd]
      exact hc
  · have hlast : (c :: cs).dropLast = c :: cs.dropLast := List.dropLast_cons_of_ne_nil hcs
    constructor
    · intro h
      refine ⟨h.piece c List.mem_cons_self, Or.inr (h.full c ?_), ?_, ?_⟩
      · rw [hlast]
        exact List.mem_cons_self
      · exact fun d hd => h.piece d (List.mem_cons_of_mem c hd)
      · intro d hd
        refine h.full d ?_
        rw [hlast]
        exact List.mem_cons_of_mem c hd
    · rintro ⟨hc, hfull, hbody⟩
      refine ⟨?_, ?_⟩
      · intro d hd
        rcases List.mem_cons.mp hd with rfl | hd
        · exact hc
        · exact hbody.piece d hd
      · intro d hd
        rw [hlast] at hd
        rcases List.mem_cons.mp hd with rfl | hd
        · exact hfull.resolve_left hcs
        · exact hbody.full d hd

/-- What comes before a piece is full. -/
theorem body_append_cons (bs : List α) (c : α) (cs : List α) :
    Body Full Piece (bs ++ c :: cs) ↔
      (∀ b ∈ bs, Piece b ∧ Full b) ∧ Body Full Piece (c :: cs) := by
  induction bs with
  | nil =>
      constructor
      · exact fun h => ⟨fun b hb => absurd hb List.not_mem_nil, h⟩
      · exact fun h => h.2
  | cons b bs ih =>
      rw [List.cons_append, body_cons, ih]
      constructor
      · rintro ⟨hb, hfull, hbs, hcs⟩
        refine ⟨?_, hcs⟩
        intro d hd
        rcases List.mem_cons.mp hd with rfl | hd
        · have hne := List.append_ne_nil_of_right_ne_nil bs (List.cons_ne_nil c cs)
          exact ⟨hb, hfull.resolve_left hne⟩
        · exact hbs d hd
      · rintro ⟨hbs, hcs⟩
        have hb := hbs b List.mem_cons_self
        exact ⟨hb.1, Or.inr hb.2, fun d hd => hbs d (List.mem_cons_of_mem b hd), hcs⟩

/-- A body of full pieces goes on with any other. -/
theorem body_of_full (bs : List α) (hbs : Body Full Piece bs) (hfull : ∀ b ∈ bs, Full b)
    (cs : List α) (hcs : Body Full Piece cs) : Body Full Piece (bs ++ cs) := by
  cases cs with
  | nil =>
      rw [List.append_nil]
      exact hbs
  | cons c cs =>
      rw [body_append_cons]
      exact ⟨fun b hb => ⟨hbs.piece b hb, hfull b hb⟩, hcs⟩

/-- A record with a piece that may be a header reads as two records. -/
theorem exists_split (before after : List (α × List α)) (r : α × List α)
    (hvalid : Valid Header Full Piece (before ++ r :: after)) (c : α) (hc : c ∈ r.2)
    (hheader : Header c) :
    ∃ rs', Valid Header Full Piece rs' ∧ flat (before ++ r :: after) = flat rs' ∧
      before ++ r :: after ≠ rs' := by
  rcases List.append_of_mem hc with ⟨bs, cs, hr⟩
  have hrecord := hvalid r (List.mem_append_right before List.mem_cons_self)
  rw [hr, body_append_cons] at hrecord
  refine ⟨before ++ (r.1, bs) :: (c, cs) :: after, ?_, ?_, ?_⟩
  · intro s hs
    rcases List.mem_append.mp hs with hs | hs
    · exact hvalid s (List.mem_append_left _ hs)
    rcases List.mem_cons.mp hs with rfl | hs
    · refine ⟨hrecord.1, fun b hb => (hrecord.2.1 b hb).1, fun b hb => ?_⟩
      exact (hrecord.2.1 b (List.dropLast_subset bs hb)).2
    rcases List.mem_cons.mp hs with rfl | hs
    · exact ⟨hheader, ((body_cons c cs).mp hrecord.2.2).2.2⟩
    · exact hvalid s (List.mem_append_right before (List.mem_cons_of_mem r hs))
  · rw [flat_append, flat_append, flat_cons, flat_cons, flat_cons, hr, List.append_assoc,
      List.cons_append]
  · intro h
    have hlen := congrArg List.length h
    simp only [List.length_append, List.length_cons] at hlen
    omega

/-- Two records of which the second fits into the first read as one. -/
theorem exists_join (before after : List (α × List α)) (r s : α × List α)
    (hvalid : Valid Header Full Piece (before ++ r :: s :: after)) (hjoin : Joins Full Piece r s) :
    ∃ rs', Valid Header Full Piece rs' ∧ flat (before ++ r :: s :: after) = flat rs' ∧
      before ++ r :: s :: after ≠ rs' := by
  have hr := hvalid r (List.mem_append_right before List.mem_cons_self)
  have hs := hvalid s (List.mem_append_right before (List.mem_cons_of_mem r List.mem_cons_self))
  refine ⟨before ++ (r.1, r.2 ++ s.1 :: s.2) :: after, ?_, ?_, ?_⟩
  · intro x hx
    rcases List.mem_append.mp hx with hx | hx
    · exact hvalid x (List.mem_append_left _ hx)
    rcases List.mem_cons.mp hx with rfl | hx
    · refine ⟨hr.1, body_of_full r.2 hr.2 hjoin.1 _ ?_⟩
      exact (body_cons s.1 s.2).mpr ⟨hjoin.2.1, hjoin.2.2, hs.2⟩
    · exact hvalid x
        (List.mem_append_right before (List.mem_cons_of_mem r (List.mem_cons_of_mem s hx)))
  · rw [flat_append, flat_append, flat_cons, flat_cons, flat_cons, List.append_assoc,
      List.cons_append]
  · intro h
    have hlen := congrArg List.length h
    simp only [List.length_append, List.length_cons] at hlen
    omega

/-- What is read first is a header. -/
theorem exists_of_flat_eq_cons (rs : List (α × List α)) (hrs : Valid Header Full Piece rs) (c : α)
    (l : List α) (h : flat rs = c :: l) :
    ∃ cs rs', rs = (c, cs) :: rs' ∧ cs ++ flat rs' = l ∧ Header c := by
  cases rs with
  | nil => cases h
  | cons r rs =>
      rw [flat_cons, List.cons.injEq] at h
      rcases h with ⟨rfl, hl⟩
      exact ⟨r.2, rs, rfl, hl, (hrs r List.mem_cons_self).1⟩

/-- A body that goes on where the records of another reading begin takes the
    first of these in, unless one of its pieces is a header. -/
theorem joins_of_flat_eq (r : α × List α) (rs rs' : List (α × List α)) (c : α) (cs : List α)
    (hrs : Valid Header Full Piece rs) (hrs' : Valid Header Full Piece rs')
    (hpieces : ∀ s ∈ rs, ∀ d ∈ s.2, ¬ Header d) (hbody : Body Full Piece (r.2 ++ c :: cs))
    (hrest : flat rs = c :: cs ++ flat rs') :
    ∃ s after, rs = s :: after ∧ Joins Full Piece r s := by
  rw [body_append_cons, body_cons] at hbody
  rcases exists_of_flat_eq_cons rs hrs c (cs ++ flat rs') hrest with ⟨ds, after, rfl, hds, -⟩
  refine ⟨(c, ds), after, rfl, fun b hb => (hbody.1 b hb).2, hbody.2.1, ?_⟩
  rcases hbody.2.2.1 with hcs | hfull
  · -- The body ends with the header, so a piece after it starts a record there.
    cases ds with
    | nil => exact Or.inl rfl
    | cons d ds =>
        rw [hcs, List.nil_append, List.cons_append] at hds
        rcases exists_of_flat_eq_cons rs' hrs' d (ds ++ flat after) hds.symm with ⟨_, _, _, _, hd⟩
        exact absurd hd (hpieces (c, d :: ds) List.mem_cons_self d List.mem_cons_self)
  · exact Or.inr hfull

/-- Records of which no piece is a header and no two join are read back. -/
theorem eq_of_flat_eq (rs rs' : List (α × List α)) (hrs : Valid Header Full Piece rs)
    (hrs' : Valid Header Full Piece rs') (hpieces : ∀ r ∈ rs, ∀ c ∈ r.2, ¬ Header c)
    (hjoins : rs.IsChain fun r s => ¬ Joins Full Piece r s) (h : flat rs = flat rs') :
    rs = rs' := by
  induction rs generalizing rs' with
  | nil =>
      cases rs' with
      | nil => rfl
      | cons r' rs' =>
          rw [flat_cons] at h
          cases h
  | cons r rs ih =>
      cases rs' with
      | nil =>
          rw [flat_cons] at h
          cases h
      | cons r' rs' =>
          rw [flat_cons, flat_cons, List.cons.injEq] at h
          have htail : Valid Header Full Piece rs := fun s hs => hrs s (List.mem_cons_of_mem r hs)
          have htail' : Valid Header Full Piece rs' :=
            fun s hs => hrs' s (List.mem_cons_of_mem r' hs)
          have hpieces' : ∀ s ∈ rs, ∀ c ∈ s.2, ¬ Header c :=
            fun s hs => hpieces s (List.mem_cons_of_mem r hs)
          rw [List.isChain_cons] at hjoins
          -- The bodies begin alike; one of them may go on where the other ends.
          rcases List.append_eq_append_iff.mp h.2 with ⟨more, hbody, hrest⟩ | ⟨more, hbody, hrest⟩
          · cases more with
            | nil =>
                rw [List.append_nil] at hbody
                rw [List.nil_append] at hrest
                rw [ih rs' htail htail' hpieces' hjoins.2 hrest,
                  Prod.ext h.1 hbody.symm]
            | cons c cs =>
                have hvalid := (hrs' r' List.mem_cons_self).2
                rw [hbody] at hvalid
                rcases joins_of_flat_eq r rs rs' c cs htail htail' hpieces' hvalid hrest with
                  ⟨s, after, rfl, hjoin⟩
                exact absurd hjoin (hjoins.1 s rfl)
          · cases more with
            | nil =>
                rw [List.append_nil] at hbody
                rw [List.nil_append] at hrest
                rw [ih rs' htail htail' hpieces' hjoins.2 hrest.symm, Prod.ext h.1 hbody]
            | cons c cs =>
                rcases exists_of_flat_eq_cons rs' htail' c (cs ++ flat rs) hrest with
                  ⟨_, _, _, _, hheader⟩
                refine absurd hheader (hpieces r List.mem_cons_self c ?_)
                rw [hbody]
                exact List.mem_append_right r'.2 List.mem_cons_self

/-- Records can be read in one way only exactly if none of their pieces is a
    header and no record joins the one before it. -/
theorem flat_determines_iff (rs : List (α × List α)) (hrs : Valid Header Full Piece rs) :
    (∀ rs', Valid Header Full Piece rs' → flat rs = flat rs' → rs = rs') ↔
      (∀ r ∈ rs, ∀ c ∈ r.2, ¬ Header c) ∧ rs.IsChain fun r s => ¬ Joins Full Piece r s := by
  constructor
  · intro h
    refine ⟨?_, ?_⟩
    · intro r hr c hc hheader
      rcases List.append_of_mem hr with ⟨before, after, rfl⟩
      rcases exists_split before after r hrs c hc hheader with ⟨rs', hvalid, hflat, hne⟩
      exact hne (h rs' hvalid hflat)
    · rw [List.isChain_iff_forall_rel_of_append_cons_cons]
      rintro r s before after rfl hjoin
      rcases exists_join before after r s hrs hjoin with ⟨rs', hvalid, hflat, hne⟩
      exact hne (h rs' hvalid hflat)
  · rintro ⟨hpieces, hjoins⟩ rs' hrs' hflat
    exact eq_of_flat_eq rs rs' hrs hrs' hpieces hjoins hflat

end

/-! ### Cutting a list into pieces -/

section

variable {β : Type u}

/-- Pieces of `k` elements, the last one shorter where it does not come out
    even. -/
def chunks (k : Nat) (l : List β) : List (List β) :=
  if l = [] ∨ k = 0 then []
  else l.take k :: chunks k (l.drop k)
termination_by l.length
decreasing_by
  rename_i h
  rw [not_or] at h
  have hpos := List.length_pos_iff.mpr h.1
  rw [List.length_drop]
  omega

/-- A piece of full length. -/
def FullPiece (k : Nat) (c : List β) : Prop := c.length = k

/-- A piece that is not empty and not too long. -/
def SomePiece (k : Nat) (c : List β) : Prop := c ≠ [] ∧ c.length ≤ k

theorem chunks_nil (k : Nat) : chunks k ([] : List β) = [] := by
  rw [chunks, if_pos (Or.inl rfl)]

theorem chunks_of_ne_nil (k : Nat) (hk : 0 < k) (l : List β) (hl : l ≠ []) :
    chunks k l = l.take k :: chunks k (l.drop k) := by
  rw [chunks, if_neg (by rw [not_or]; exact ⟨hl, by omega⟩)]

/-- To prove something of a list and its pieces, cut off the first piece. -/
theorem chunks_induction (k : Nat) (hk : 0 < k) (P : List β → Prop) (hnil : P [])
    (hcut : ∀ l, l ≠ [] → P (l.drop k) → P l) (l : List β) : P l := by
  by_cases hl : l = []
  · rw [hl]
    exact hnil
  · exact hcut l hl (chunks_induction k hk P hnil hcut (l.drop k))
termination_by l.length
decreasing_by
  have hpos := List.length_pos_iff.mpr hl
  rw [List.length_drop]
  omega

theorem flatten_chunks (k : Nat) (hk : 0 < k) (l : List β) : (chunks k l).flatten = l := by
  induction l using chunks_induction k hk with
  | hnil => rw [chunks_nil, List.flatten_nil]
  | hcut l hl ih => rw [chunks_of_ne_nil k hk l hl, List.flatten_cons, ih, List.take_append_drop]

theorem chunks_eq_nil_iff (k : Nat) (hk : 0 < k) (l : List β) : chunks k l = [] ↔ l = [] := by
  constructor
  · intro h
    rw [← flatten_chunks k hk l, h, List.flatten_nil]
  · rintro rfl
    exact chunks_nil k

theorem body_chunks (k : Nat) (hk : 0 < k) (l : List β) :
    Body (FullPiece k) (SomePiece k) (chunks k l) := by
  induction l using chunks_induction k hk with
  | hnil =>
      rw [chunks_nil]
      exact body_nil
  | hcut l hl ih =>
      rw [chunks_of_ne_nil k hk l hl, body_cons]
      refine ⟨⟨?_, List.length_take_le k l⟩, ?_, ih⟩
      · intro hnil
        rw [List.take_eq_nil_iff] at hnil
        rcases hnil with hzero | hnil
        · omega
        · exact hl hnil
      · by_cases hlong : l.length ≤ k
        · exact Or.inl (by rw [List.drop_eq_nil_of_le hlong, chunks_nil])
        · exact Or.inr (by rw [FullPiece, List.length_take]; omega)

/-- Pieces that are full up to the last are the pieces of what they make up. -/
theorem chunks_flatten (k : Nat) (hk : 0 < k) (cs : List (List β))
    (hcs : Body (FullPiece k) (SomePiece k) cs) : chunks k cs.flatten = cs := by
  induction cs with
  | nil => exact chunks_nil k
  | cons c cs ih =>
      rw [body_cons] at hcs
      rcases hcs with ⟨⟨hne, hle⟩, hfull, hbody⟩
      rw [List.flatten_cons, chunks_of_ne_nil k hk _ (List.append_ne_nil_of_left_ne_nil hne _)]
      rcases hfull with rfl | hfull
      · rw [List.flatten_nil, List.append_nil, List.take_of_length_le hle,
          List.drop_eq_nil_of_le hle, chunks_nil]
      · rw [FullPiece] at hfull
        rw [List.take_left' hfull, List.drop_left' hfull, ih hbody]

/-- The pieces are all full where they come out even. -/
theorem chunks_full_iff (k : Nat) (hk : 0 < k) (l : List β) :
    (∀ c ∈ chunks k l, FullPiece k c) ↔ k ∣ l.length := by
  induction l using chunks_induction k hk with
  | hnil =>
      rw [chunks_nil]
      exact ⟨fun _ => Nat.dvd_zero k, fun _ c hc => absurd hc List.not_mem_nil⟩
  | hcut l hl ih =>
      rw [chunks_of_ne_nil k hk l hl, List.forall_mem_cons, ih, FullPiece, List.length_take,
        List.length_drop]
      have hpos := List.length_pos_iff.mpr hl
      constructor
      · rintro ⟨hmin, hdvd⟩
        have hle : k ≤ l.length := by omega
        exact (Nat.dvd_sub_iff_left hle (Nat.dvd_refl k)).mp hdvd
      · intro hdvd
        have hle := Nat.le_of_dvd hpos hdvd
        exact ⟨Nat.min_eq_left hle, (Nat.dvd_sub_iff_left hle (Nat.dvd_refl k)).mpr hdvd⟩

theorem length_chunks_of_ne_nil (k : Nat) (hk : 0 < k) (l : List β) (hl : l ≠ []) :
    (chunks k l).length = (chunks k (l.drop k)).length + 1 := by
  rw [chunks_of_ne_nil k hk l hl, List.length_cons]

/-- A longer list has at least as many pieces. -/
theorem length_chunks_le (k : Nat) (hk : 0 < k) (l m : List β) (h : l.length ≤ m.length) :
    (chunks k l).length ≤ (chunks k m).length := by
  induction l using chunks_induction k hk generalizing m with
  | hnil =>
      rw [chunks_nil]
      exact Nat.zero_le _
  | hcut l hl ih =>
      have hpos := List.length_pos_iff.mpr hl
      have hm : m ≠ [] := List.length_pos_iff.mp (by omega)
      rw [length_chunks_of_ne_nil k hk l hl, length_chunks_of_ne_nil k hk m hm]
      have hrest := ih (m.drop k) (by rw [List.length_drop, List.length_drop]; omega)
      omega

theorem length_separated_chunks (k : Nat) (hk : 0 < k) (sep l : List β) :
    (separated sep (chunks k l)).length = (chunks k l).length * sep.length + l.length := by
  have hflat : ∀ cs : List (List β),
      (separated sep cs).length = cs.length * sep.length + cs.flatten.length := by
    intro cs
    induction cs with
    | nil => simp only [separated_nil, List.length_nil, Nat.zero_mul, List.flatten_nil]
    | cons c cs ih =>
        rw [separated_cons, List.length_append, List.length_append, ih, List.flatten_cons,
          List.length_append, List.length_cons, Nat.succ_mul]
        omega
  rw [hflat, flatten_chunks k hk]

/-- The pieces of a list, each behind a separator, give the list back, whatever
    it contains. -/
theorem separated_chunks_inj (k : Nat) (hk : 0 < k) (sep l m : List β)
    (h : separated sep (chunks k l) = separated sep (chunks k m)) : l = m := by
  -- A longer list is written longer, so the two lengths agree.
  have hlonger : ∀ l m : List β, l.length < m.length →
      (separated sep (chunks k l)).length < (separated sep (chunks k m)).length := by
    intro l m hlt
    have hcount := Nat.mul_le_mul_right sep.length (length_chunks_le k hk l m (by omega))
    rw [length_separated_chunks k hk, length_separated_chunks k hk]
    omega
  have hlen : l.length = m.length := by
    rcases Nat.lt_trichotomy l.length m.length with hlt | heq | hgt
    · exact absurd (congrArg List.length h) (Nat.ne_of_lt (hlonger l m hlt))
    · exact heq
    · exact absurd (congrArg List.length h) (Nat.ne_of_gt (hlonger m l hgt))
  clear hlonger
  induction l using chunks_induction k hk generalizing m with
  | hnil => exact (List.eq_nil_of_length_eq_zero hlen.symm).symm
  | hcut l hl ih =>
      have hpos := List.length_pos_iff.mpr hl
      have hm : m ≠ [] := List.length_pos_iff.mp (by omega)
      rw [chunks_of_ne_nil k hk l hl, chunks_of_ne_nil k hk m hm, separated_cons, separated_cons,
        List.append_cancel_left_eq] at h
      have hpiece := List.append_inj h (by rw [List.length_take, List.length_take, hlen])
      have hrest := ih (m.drop k) hpiece.2 (by rw [List.length_drop, List.length_drop, hlen])
      rw [← List.take_append_drop k l, ← List.take_append_drop k m, hpiece.1, hrest]

end

end Records

end Veil7
