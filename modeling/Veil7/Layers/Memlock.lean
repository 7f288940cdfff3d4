import Veil7.Library.Run

/-!
# Locked Buffers

`Locked` of `l0_memlock.rs`: a buffer on the heap whose pages are pinned while
it lives. A new buffer asks the system to lock the pages its bytes are on and
remembers whether that was granted; a dropped buffer that remembers so gives
them back.

The system locks whole pages and does not count. Two buffers on one page both
lock it, and the first of them to be dropped unlocks it under the other, whose
flag still says that it is locked. `pinned_iff` is the exact condition: a run
keeps every flag true to the pages precisely if no buffer is dropped while a
locked one shares a page with it.

The addresses are the allocator's choice, the limit and the outcome of the
system call the system's; all three are part of an action. The threshold of
the budget check is a product of floating-point numbers and is left open.

## Main definitions

* `Locked`, `State`: A live buffer; the buffers, the pages and the counter.
* `new`, `drop`, `step`: `Locked::new`, the drop of a buffer, and either of them.
* `onPage`: A buffer has a byte on a page.
* `Pinned`: The pages of every buffer whose flag is set are locked.
* `Alone`: No locked buffer shares a page with the one being dropped.

## Theorems

* `pinned_step`: A step that meets the condition keeps the flags true.
* `alone_of_pinned`: A step that does not meet it makes a flag false.
* `pinned_iff`: The runs in which every flag is true throughout.
* `unpinned_neighbour`: Two buffers on one page.
-/

namespace Veil7

namespace Memlock

/-- A live buffer: its place on the heap and its `locked` flag. -/
structure Locked where
  addr : Nat
  size : Nat
  locked : Bool
deriving DecidableEq

structure State where
  live : List Locked
  /-- The pages the system holds locked. -/
  pages : Nat → Bool
  /-- `LOCKED_MEMORY_USAGE`. -/
  usage : UInt64

def init : State := { live := [], pages := fun _ => false, usage := 0 }

inductive Action where
  /-- `Locked::new` at an address; the limit that `getrlimit` reports, if it
      does, and whether `mlock` would succeed. -/
  | new (addr size : Nat) (limit : Option UInt64) (granted : Bool)
  /-- The drop of the buffer at a position. -/
  | drop (i : Nat)

/-- The buffers have no byte in common. -/
def Disjoint (addr size : Nat) (b : Locked) : Prop :=
  size = 0 ∨ b.size = 0 ∨ addr + size ≤ b.addr ∨ b.addr + b.size ≤ addr

instance (addr size : Nat) (b : Locked) : Decidable (Disjoint addr size b) :=
  inferInstanceAs (Decidable (_ ∨ _ ∨ _ ∨ _))

section

variable (pageSize : Nat) (threshold : UInt64 → UInt64)

/-- The bytes of a range reach the page. -/
def covers (addr size page : Nat) : Bool :=
  decide (0 < size ∧ page * pageSize < addr + size ∧ addr < (page + 1) * pageSize)

/-- The buffer has a byte on the page. -/
def onPage (b : Locked) (page : Nat) : Bool := covers pageSize b.addr b.size page

/-- Usage lies above the threshold; an unknown limit is no reason to skip. -/
def isApproachingMlockLimit (usage : UInt64) (limit : Option UInt64) : Bool :=
  match limit with
  | some limit => decide (threshold limit < usage)
  | none => false

/-- `Locked::new`. -/
def new (s : State) (addr size : Nat) (limit : Option UInt64) (granted : Bool) : State :=
  let locked := if isApproachingMlockLimit threshold s.usage limit then false else granted
  {
    live := { addr := addr, size := size, locked := locked } :: s.live
    pages := if locked then fun p => covers pageSize addr size p || s.pages p else s.pages
    usage := if locked then s.usage + UInt64.ofNat size else s.usage }

/-- `Drop for Locked`: the pages are given back only if they were locked. -/
def drop (s : State) (i : Nat) (b : Locked) : State :=
  {
    live := s.live.eraseIdx i
    pages := if b.locked then fun p => !onPage pageSize b p && s.pages p else s.pages
    usage := if b.locked then s.usage - UInt64.ofNat b.size else s.usage }

def step (s : State) : Action → Option State
  | .new addr size limit granted =>
    -- The allocator hands out no byte twice.
    if ∀ b ∈ s.live, Disjoint addr size b then
      some (new pageSize threshold s addr size limit granted)
    else none
  | .drop i => s.live[i]?.map (drop pageSize s i)

/-- The pages of every live buffer whose flag is set are locked. -/
def Pinned (s : State) : Prop :=
  ∀ b ∈ s.live, b.locked = true → ∀ page, onPage pageSize b page = true → s.pages page = true

/-- If a locked buffer is dropped, no other locked buffer has a byte on any of
    its pages. -/
def Alone (s : State) : Action → Prop
  | .new _ _ _ _ => True
  | .drop i => ∀ b, s.live[i]? = some b → b.locked = true →
      ∀ b' ∈ s.live.eraseIdx i, b'.locked = true →
        ∀ page, ¬ (onPage pageSize b page = true ∧ onPage pageSize b' page = true)

theorem pinned_init : Pinned pageSize init := fun _ hb => absurd hb List.not_mem_nil

/-- A new buffer takes no page away from the others. -/
theorem pinned_new (s : State) (addr size : Nat) (limit : Option UInt64) (granted : Bool)
    (hs : Pinned pageSize s) :
    Pinned pageSize (new pageSize threshold s addr size limit granted) := by
  intro b hb hlocked page hpage
  unfold new at hb ⊢
  dsimp only at hb ⊢
  generalize (if isApproachingMlockLimit threshold s.usage limit then false else granted)
    = locked at hb ⊢
  rcases List.mem_cons.mp hb with rfl | hold
  · dsimp only at hlocked
    rw [if_pos hlocked]
    exact Bool.or_eq_true_iff.mpr (Or.inl hpage)
  · have hkeep := hs b hold hlocked page hpage
    by_cases hnew : locked = true
    · rw [if_pos hnew]
      exact Bool.or_eq_true_iff.mpr (Or.inr hkeep)
    · rw [if_neg hnew]
      exact hkeep

/-- A dropped buffer takes its own pages away, on which no locked buffer has a
    byte. -/
theorem pinned_drop (s : State) (i : Nat) (b : Locked) (hget : s.live[i]? = some b)
    (hs : Pinned pageSize s) (halone : Alone pageSize s (.drop i)) :
    Pinned pageSize (drop pageSize s i b) := by
  intro b' hb' hlocked' page hpage
  unfold drop at hb' ⊢
  dsimp only at hb' ⊢
  have hkeep := hs b' (List.mem_of_mem_eraseIdx hb') hlocked' page hpage
  by_cases hlocked : b.locked = true
  · have hoff : onPage pageSize b page = false := by
      rw [← Bool.not_eq_true]
      intro hon
      exact halone b hget hlocked b' hb' hlocked' page ⟨hon, hpage⟩
    rw [if_pos hlocked, hoff, hkeep]
    rfl
  · rw [if_neg hlocked]
    exact hkeep

theorem step_drop (s : State) (i : Nat) (s' : State)
    (hstep : step pageSize threshold s (.drop i) = some s') :
    ∃ b, s.live[i]? = some b ∧ drop pageSize s i b = s' := Option.map_eq_some_iff.mp hstep

/-- A step that meets the condition keeps every flag true of the pages. -/
theorem pinned_step (s : State) (a : Action) (s' : State) (hs : Pinned pageSize s)
    (ha : Alone pageSize s a) (hstep : step pageSize threshold s a = some s') :
    Pinned pageSize s' := by
  cases a with
  | new addr size limit granted =>
      change (if _ then _ else _) = _ at hstep
      by_cases hfree : ∀ b ∈ s.live, Disjoint addr size b
      · rw [if_pos hfree, Option.some.injEq] at hstep
        rw [← hstep]
        exact pinned_new pageSize threshold s addr size limit granted hs
      · rw [if_neg hfree] at hstep
        cases hstep
  | drop i =>
      rcases step_drop pageSize threshold s i s' hstep with ⟨b, hget, rfl⟩
      exact pinned_drop pageSize s i b hget hs ha

/-- A drop that leaves every flag true met the condition: a page shared with a
    locked buffer would be unlocked now. -/
theorem alone_of_pinned (s : State) (a : Action) (s' : State)
    (hstep : step pageSize threshold s a = some s') (hs' : Pinned pageSize s') :
    Alone pageSize s a := by
  cases a with
  | new addr size limit granted => trivial
  | drop i =>
      rcases step_drop pageSize threshold s i s' hstep with ⟨b, hget, rfl⟩
      intro b₀ hget₀ hlocked b' hb' hlocked' page hpages
      rw [hget, Option.some.injEq] at hget₀
      subst hget₀
      have hpinned := hs' b' hb' hlocked' page hpages.2
      unfold drop at hpinned
      dsimp only at hpinned
      rw [if_pos hlocked, hpages.1] at hpinned
      cases hpinned

/-- Along a run from the beginning every set flag is true of the pages, exactly
    if no buffer is dropped on whose pages another locked buffer has a byte. -/
theorem pinned_iff (acts : List Action) :
    Along (step pageSize threshold) init acts (Pinned pageSize) ↔
      Taken (step pageSize threshold) init acts (Alone pageSize) := by
  constructor
  · exact taken_of_along _ _ _ _ _ fun t a t' hstep _ ht' =>
      alone_of_pinned pageSize threshold t a t' hstep ht'
  · exact along_of_taken _ _ _ _ _ (pinned_init pageSize) (pinned_step pageSize threshold)

end

/-- Two buffers of 64 bytes side by side on one page, and the drop of the
    first. -/
def neighbours : List Action :=
  [.new 4096 64 (some 8388608) true, .new 4160 64 (some 8388608) true, .drop 1]

/-- The second buffer lives on, its flag set, and its page is unlocked. -/
theorem unpinned_neighbour :
    ∃ s, run (step 4096 fun limit => limit * 4 / 5) init neighbours = some s ∧
      ∃ b ∈ s.live, b.locked = true ∧ onPage 4096 b 1 = true ∧ s.pages 1 = false :=
  ⟨_, rfl, _, List.mem_singleton_self _, by decide, by decide, by decide⟩

end Memlock

end Veil7
