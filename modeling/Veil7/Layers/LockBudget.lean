import Veil7.Layers.Memlock
import Veil7.Library.Ranges
import Mathlib.Data.List.Perm.Basic
import Mathlib.Algebra.Order.BigOperators.Group.List
import Mathlib.Algebra.Order.Ring.Nat

/-!
# The Counter of Locked Memory

`LOCKED_MEMORY_USAGE` of `l0_memlock.rs` while several threads make and drop
locked buffers. `Locked::new` looks at the budget, locks the pages and then adds
its size to the counter; a drop unlocks them and then subtracts. Each of these
is a step of its own here, and the steps of different buffers may come in any
order.

The counter is behind the pages by the buffers that are between their two steps.
What it holds at any moment is the sizes of those that have added and not yet
subtracted (`Accounted`), whatever the budget check saw and whatever `mlock`
answered. Buffers that are present together have no byte in common, so the sum
is less than the address space and neither the additions nor the subtractions
wrap.

`Memlock` has the two operations as one step each. `exists_run_step` connects
the two: an operation that nothing interrupts does what it does there.

## Main definitions

* `Phase`: Where a buffer is in its `new` or its drop.
* `State`, `step`: The buffers and the counter, and one step of some thread.
* `Accounted`: The counter holds the sizes of the buffers that have added.
* `Quiet`: No `new` and no drop is in progress.

## Theorems

* `accounted_step`: Every step keeps the account.
* `usage_exact`: The counter along any run.
* `exists_run_step`: Uninterrupted operations.
-/

namespace Veil7

namespace LockBudget

/-- Where a buffer is: in `Locked::new`, at rest, or in its drop. -/
inductive Phase where
  /-- Allocated; the budget is looked at next. -/
  | checking
  /-- `mlock` comes next. -/
  | locking
  /-- Locked; the addition to the counter comes next. -/
  | adding
  /-- At rest, with its `locked` flag. -/
  | live (locked : Bool)
  /-- Being dropped; `munlock` comes next. -/
  | unlocking
  /-- The subtraction from the counter comes next. -/
  | subtracting
deriving DecidableEq

/-- A buffer on the heap. Its bytes lie in the address space, the null pointer
    not among them. -/
structure Buffer extends Range where
  phase : Phase
  fits : 0 < addr ∧ addr + size ≤ 2 ^ 64

structure State where
  buffers : List Buffer
  /-- `LOCKED_MEMORY_USAGE`. -/
  usage : UInt64

def init : State := { buffers := [], usage := 0 }

/-- One step of the thread that works on a buffer. -/
inductive Action where
  /-- `Locked::new` begins: the allocator returns a range. -/
  | alloc (r : Range)
  /-- The budget check, with the limit that `getrlimit` reports, if it does. -/
  | check (i : Nat) (limit : Option UInt64)
  /-- `mlock`, which succeeds or does not. -/
  | mlock (i : Nat) (granted : Bool)
  /-- `fetch_add`. -/
  | add (i : Nat)
  /-- The drop begins. -/
  | drop (i : Nat)
  | munlock (i : Nat)
  /-- `fetch_sub`, after which the buffer is gone. -/
  | sub (i : Nat)

namespace State

/-- The buffer at a position, if it is in the phase. -/
def inPhase (s : State) (i : Nat) (phase : Phase) : Option Buffer :=
  s.buffers[i]?.filter fun b => b.phase = phase

/-- The buffer at a position goes on to a phase. -/
def become (s : State) (i : Nat) (b : Buffer) (phase : Phase) : State :=
  { s with buffers := s.buffers.set i { b with phase := phase } }

/-- The buffer at a position is freed. -/
def free (s : State) (i : Nat) : State := { s with buffers := s.buffers.eraseIdx i }

end State

section

variable (threshold : UInt64 → UInt64)

def step (s : State) : Action → Option State
  | .alloc r =>
    -- The allocator hands out no byte twice.
    if h : (0 < r.addr ∧ r.addr + r.size ≤ 2 ^ 64) ∧ ∀ b ∈ s.buffers, r.Apart b.toRange then
      some { s with buffers := { r with phase := .checking, fits := h.1 } :: s.buffers }
    else none
  | .check i limit => do
    let b ← s.inPhase i .checking
    some (s.become i b
      (if Memlock.isApproachingMlockLimit threshold s.usage limit then .live false else .locking))
  | .mlock i granted => do
    let b ← s.inPhase i .locking
    some (s.become i b (if granted then .adding else .live false))
  | .add i => do
    let b ← s.inPhase i .adding
    some { s.become i b (.live true) with usage := s.usage + UInt64.ofNat b.size }
  | .drop i =>
    match s.inPhase i (.live true) with
    | some b => some (s.become i b .unlocking)
    -- Nothing to undo for a buffer that is not locked.
    | none => do
      let _ ← s.inPhase i (.live false)
      some (s.free i)
  | .munlock i => do
    let b ← s.inPhase i .unlocking
    some (s.become i b .subtracting)
  | .sub i => do
    let b ← s.inPhase i .subtracting
    some { s.free i with usage := s.usage - UInt64.ofNat b.size }

end

/-- A buffer in the phase has added its size and not subtracted it yet. -/
def Phase.hasAdded : Phase → Bool
  | live locked => locked
  | unlocking => true
  | subtracting => true
  | checking => false
  | locking => false
  | adding => false

namespace Buffer

/-- What the buffer contributes to the counter. -/
def counted (b : Buffer) : Nat := if b.phase.hasAdded then b.size else 0

theorem counted_le_size (b : Buffer) : b.counted ≤ b.size := by
  rw [counted]
  split
  · exact Nat.le_refl _
  · exact Nat.zero_le _

theorem counted_of_hasAdded (b : Buffer) (h : b.phase.hasAdded = true) : b.counted = b.size :=
  if_pos h

theorem counted_of_not_hasAdded (b : Buffer) (h : b.phase.hasAdded = false) : b.counted = 0 :=
  if_neg (Bool.eq_false_iff.mp h)

/-- `is_locked` of a buffer at rest. -/
def isLocked (b : Buffer) : Bool := b.phase = .live true

end Buffer

/-- The counter holds the sizes of the buffers that have added, and the buffers
    have no byte in common. -/
structure Accounted (s : State) : Prop where
  usage : s.usage.toNat = (s.buffers.map Buffer.counted).sum
  apart : (s.buffers.map Buffer.toRange).Pairwise Range.Apart

/-- No `new` and no drop is in progress. -/
def Quiet (s : State) : Prop := ∀ b ∈ s.buffers, b.phase = .live true ∨ b.phase = .live false

theorem accounted_init : Accounted init := ⟨rfl, List.Pairwise.nil⟩

theorem inPhase_eq_some_iff (s : State) (i : Nat) (phase : Phase) (b : Buffer) :
    s.inPhase i phase = some b ↔ s.buffers[i]? = some b ∧ b.phase = phase := by
  rw [State.inPhase, Option.filter_eq_some_iff, decide_eq_true_iff]

/-- A step of a buffer that has to be in a phase was taken by one that is. -/
theorem exists_of_inPhase (s : State) (i : Nat) (phase : Phase) (next : Buffer → State)
    (s' : State) (hstep : (s.inPhase i phase >>= fun b => some (next b)) = some s') :
    ∃ b, s.buffers[i]? = some b ∧ b.phase = phase ∧ next b = s' := by
  obtain ⟨b, hb, hnext⟩ := Option.bind_eq_some_iff.mp hstep
  obtain ⟨hget, hphase⟩ := (inPhase_eq_some_iff s i phase b).mp hb
  exact ⟨b, hget, hphase, Option.some.inj hnext⟩

theorem perm_of_getElem? (s : State) (i : Nat) (b : Buffer) (hget : s.buffers[i]? = some b) :
    s.buffers.Perm (b :: s.buffers.eraseIdx i) := by
  obtain ⟨hi, hb⟩ := List.getElem?_eq_some_iff.mp hget
  rw [← hb]
  exact (List.getElem_cons_eraseIdx_perm hi).symm

theorem perm_become (s : State) (i : Nat) (b : Buffer) (phase : Phase)
    (hget : s.buffers[i]? = some b) :
    (s.become i b phase).buffers.Perm ({ b with phase := phase } :: s.buffers.eraseIdx i) :=
  List.set_perm_cons_eraseIdx (List.getElem?_eq_some_iff.mp hget).1 _

/-- A buffer's share of a sum over all of them. -/
theorem sum_map_eq (f : Buffer → Nat) (s : State) (i : Nat) (b : Buffer)
    (hget : s.buffers[i]? = some b) :
    (s.buffers.map f).sum = f b + ((s.buffers.eraseIdx i).map f).sum := by
  rw [((perm_of_getElem? s i b hget).map f).sum_nat, List.map_cons, List.sum_cons]

theorem sum_counted_become (s : State) (i : Nat) (b : Buffer) (phase : Phase)
    (hget : s.buffers[i]? = some b) :
    ((s.become i b phase).buffers.map Buffer.counted).sum
      = Buffer.counted { b with phase := phase }
        + ((s.buffers.eraseIdx i).map Buffer.counted).sum := by
  rw [((perm_become s i b phase hget).map Buffer.counted).sum_nat, List.map_cons, List.sum_cons]

/-- A buffer in another phase is where it was. -/
theorem apart_become (s : State) (i : Nat) (b : Buffer) (phase : Phase) (hs : Accounted s)
    (hget : s.buffers[i]? = some b) :
    ((s.become i b phase).buffers.map Buffer.toRange).Pairwise Range.Apart := by
  have hbefore := (perm_of_getElem? s i b hget).map Buffer.toRange
  have hafter := (perm_become s i b phase hget).map Buffer.toRange
  exact (hbefore.trans hafter.symm).pairwise hs.apart Range.Apart.symm

theorem apart_free (s : State) (i : Nat) (hs : Accounted s) :
    ((s.free i).buffers.map Buffer.toRange).Pairwise Range.Apart :=
  hs.apart.sublist ((List.eraseIdx_sublist s.buffers i).map Buffer.toRange)

/-- The buffers fit into the address space. -/
theorem sum_size_lt (s : State) (hs : Accounted s) :
    (s.buffers.map fun b => b.size).sum < 2 ^ 64 := by
  have hfit := Range.sum_size_le_of_apart (s.buffers.map Buffer.toRange) 1 (2 ^ 64)
    (fun r hr => by
      obtain ⟨b, -, rfl⟩ := List.mem_map.mp hr
      exact b.fits) hs.apart
  rw [List.map_map] at hfit
  exact Nat.lt_of_le_of_lt hfit (by decide)

/-- What has been added and what any one buffer could still add. -/
theorem size_add_sum_counted_lt (s : State) (i : Nat) (b : Buffer) (hs : Accounted s)
    (hget : s.buffers[i]? = some b) :
    b.size + ((s.buffers.eraseIdx i).map Buffer.counted).sum < 2 ^ 64 := by
  have hsize := sum_size_lt s hs
  rw [sum_map_eq _ s i b hget] at hsize
  have hrest : ((s.buffers.eraseIdx i).map Buffer.counted).sum
      ≤ ((s.buffers.eraseIdx i).map fun b => b.size).sum :=
    List.sum_le_sum fun b _ => b.counted_le_size
  omega

/-- A step that leaves the counter alone, and what its buffer counts for. -/
theorem accounted_become (s : State) (i : Nat) (b : Buffer) (phase : Phase) (hs : Accounted s)
    (hget : s.buffers[i]? = some b) (hcount : b.phase.hasAdded = phase.hasAdded) :
    Accounted (s.become i b phase) := by
  refine ⟨?_, apart_become s i b phase hs hget⟩
  have hsame : Buffer.counted { b with phase := phase } = b.counted := by
    rw [Buffer.counted, Buffer.counted, hcount]
  rw [sum_counted_become s i b phase hget, hsame, ← sum_map_eq _ s i b hget]
  exact hs.usage

/-- There is room for what a buffer is about to add. -/
theorem usage_add_size_lt (s : State) (i : Nat) (b : Buffer) (hs : Accounted s)
    (hget : s.buffers[i]? = some b) (hphase : b.phase = .adding) :
    s.usage.toNat + b.size < 2 ^ 64 := by
  rw [hs.usage, sum_map_eq _ s i b hget, b.counted_of_not_hasAdded (by rw [hphase]; rfl),
    Nat.zero_add, Nat.add_comm]
  exact size_add_sum_counted_lt s i b hs hget

/-- The addition does not wrap around. -/
theorem accounted_add (s : State) (i : Nat) (b : Buffer) (hs : Accounted s)
    (hget : s.buffers[i]? = some b) (hphase : b.phase = .adding) :
    Accounted { s.become i b (.live true) with usage := s.usage + UInt64.ofNat b.size } := by
  refine ⟨?_, apart_become s i b (.live true) hs hget⟩
  have hlt := usage_add_size_lt s i b hs hget hphase
  have hsize : (UInt64.ofNat b.size).toNat = b.size :=
    UInt64.toNat_ofNat_of_lt' (Nat.lt_of_le_of_lt (Nat.le_add_left _ _) hlt)
  have hbefore := hs.usage
  rw [sum_map_eq _ s i b hget, b.counted_of_not_hasAdded (by rw [hphase]; rfl),
    Nat.zero_add] at hbefore
  change (s.usage + UInt64.ofNat b.size).toNat
    = ((s.become i b (.live true)).buffers.map Buffer.counted).sum
  rw [sum_counted_become s i b _ hget, UInt64.toNat_add, hsize, Nat.mod_eq_of_lt hlt, hbefore]
  exact Nat.add_comm _ _

/-- A buffer that is about to subtract has added. -/
theorem size_le_usage (s : State) (i : Nat) (b : Buffer) (hs : Accounted s)
    (hget : s.buffers[i]? = some b) (hphase : b.phase = .subtracting) :
    b.size ≤ s.usage.toNat := by
  rw [hs.usage, sum_map_eq _ s i b hget, b.counted_of_hasAdded (by rw [hphase]; rfl)]
  exact Nat.le_add_right _ _

/-- The subtraction does not wrap around. -/
theorem accounted_sub (s : State) (i : Nat) (b : Buffer) (hs : Accounted s)
    (hget : s.buffers[i]? = some b) (hphase : b.phase = .subtracting) :
    Accounted { s.free i with usage := s.usage - UInt64.ofNat b.size } := by
  refine ⟨?_, apart_free s i hs⟩
  have hle := size_le_usage s i b hs hget hphase
  have hsize : (UInt64.ofNat b.size).toNat = b.size :=
    UInt64.toNat_ofNat_of_lt' (Nat.lt_of_le_of_lt hle s.usage.toNat_lt)
  have hbefore := hs.usage
  rw [sum_map_eq _ s i b hget, b.counted_of_hasAdded (by rw [hphase]; rfl)] at hbefore
  change (s.usage - UInt64.ofNat b.size).toNat = ((s.buffers.eraseIdx i).map Buffer.counted).sum
  rw [UInt64.toNat_sub_of_le _ _ (by rw [UInt64.le_iff_toNat_le, hsize]; exact hle), hsize, hbefore,
    Nat.add_sub_cancel_left]

/-- A buffer that never added is freed without a word to the counter. -/
theorem accounted_free (s : State) (i : Nat) (b : Buffer) (hs : Accounted s)
    (hget : s.buffers[i]? = some b) (hphase : b.phase = .live false) : Accounted (s.free i) := by
  refine ⟨?_, apart_free s i hs⟩
  have hbefore := hs.usage
  rwa [sum_map_eq _ s i b hget, b.counted_of_not_hasAdded (by rw [hphase]; rfl),
    Nat.zero_add] at hbefore

section

variable (threshold : UInt64 → UInt64)

theorem accounted_step (s : State) (a : Action) (s' : State) (hs : Accounted s)
    (hstep : step threshold s a = some s') : Accounted s' := by
  cases a with
  | alloc r =>
      rw [step, Option.dite_none_right_eq_some] at hstep
      obtain ⟨h, hstep⟩ := hstep
      rw [← Option.some.inj hstep]
      refine ⟨?_, List.Pairwise.cons ?_ hs.apart⟩
      · change _ = 0 + _
        rw [Nat.zero_add]
        exact hs.usage
      · intro r' hr'
        obtain ⟨b, hb, rfl⟩ := List.mem_map.mp hr'
        exact h.2 b hb
  | check i limit =>
      obtain ⟨b, hget, hphase, rfl⟩ := exists_of_inPhase s i .checking _ s' hstep
      refine accounted_become s i b _ hs hget ?_
      rw [hphase]
      split <;> rfl
  | mlock i granted =>
      obtain ⟨b, hget, hphase, rfl⟩ := exists_of_inPhase s i .locking _ s' hstep
      refine accounted_become s i b _ hs hget ?_
      rw [hphase]
      split <;> rfl
  | add i =>
      obtain ⟨b, hget, hphase, rfl⟩ := exists_of_inPhase s i .adding _ s' hstep
      exact accounted_add s i b hs hget hphase
  | drop i =>
      rw [step] at hstep
      split at hstep
      case h_1 b hb =>
        obtain ⟨hget, hphase⟩ := (inPhase_eq_some_iff s i _ b).mp hb
        rw [← Option.some.inj hstep]
        exact accounted_become s i b .unlocking hs hget (by rw [hphase]; rfl)
      case h_2 =>
        obtain ⟨b, hget, hphase, rfl⟩ := exists_of_inPhase s i (.live false) _ s' hstep
        exact accounted_free s i b hs hget hphase
  | munlock i =>
      obtain ⟨b, hget, hphase, rfl⟩ := exists_of_inPhase s i .unlocking _ s' hstep
      exact accounted_become s i b .subtracting hs hget (by rw [hphase]; rfl)
  | sub i =>
      obtain ⟨b, hget, hphase, rfl⟩ := exists_of_inPhase s i .subtracting _ s' hstep
      exact accounted_sub s i b hs hget hphase

/-- In a quiet state what counts are the buffers whose flag is set. -/
theorem sum_counted_of_quiet (s : State) (hs : Quiet s) :
    (s.buffers.map Buffer.counted).sum
      = ((s.buffers.filter Buffer.isLocked).map fun b => b.size).sum := by
  unfold Quiet at hs
  generalize s.buffers = buffers at hs
  induction buffers with
  | nil => rfl
  | cons b bs ih =>
      rw [List.forall_mem_cons] at hs
      rw [List.map_cons, List.sum_cons, ih hs.2]
      rcases hs.1 with hlocked | hunlocked
      · have hset : b.isLocked = true := decide_eq_true hlocked
        rw [List.filter_cons_of_pos hset, List.map_cons, List.sum_cons,
          b.counted_of_hasAdded (by rw [hlocked]; rfl)]
      · have hnot : ¬ b.isLocked = true := by
          rw [Buffer.isLocked, hunlocked]
          decide
        rw [List.filter_cons_of_neg hnot, b.counted_of_not_hasAdded (by rw [hunlocked]; rfl),
          Nat.zero_add]

/-- Along any run, in whatever order the threads take their steps and whatever
    the budget check and `mlock` answer: no subtraction takes the counter below
    zero and no addition wraps it, and in between the operations it is the total
    size of the live buffers whose flag is set. -/
theorem usage_exact (acts : List Action) :
    Along (step threshold) init acts fun s =>
      (∀ b ∈ s.buffers, b.phase = .subtracting → b.size ≤ s.usage.toNat) ∧
      (∀ b ∈ s.buffers, b.phase = .adding → s.usage.toNat + b.size < 2 ^ 64) ∧
      (Quiet s →
        s.usage.toNat = ((s.buffers.filter Buffer.isLocked).map fun b => b.size).sum) := by
  have haccounted : Along (step threshold) init acts Accounted :=
    along_of_taken _ _ (fun _ _ => True) _ _ accounted_init
      (fun t a t' ht _ hstep => accounted_step threshold t a t' ht hstep)
      (fun _ _ _ _ _ _ => trivial)
  intro pre hpre s hrun
  have hs := haccounted pre hpre s hrun
  refine ⟨fun b hb hphase => ?_, fun b hb hphase => ?_, fun hquiet => ?_⟩
  · obtain ⟨i, hget⟩ := List.mem_iff_getElem?.mp hb
    exact size_le_usage s i b hs hget hphase
  · obtain ⟨i, hget⟩ := List.mem_iff_getElem?.mp hb
    exact usage_add_size_lt s i b hs hget hphase
  · rw [hs.usage]
    exact sum_counted_of_quiet s hquiet

/-- Two creations that take their steps in turn; `mlock` refuses one of them. -/
def inTurn : List Action :=
  [.alloc ⟨8, 4⟩, .alloc ⟨16, 6⟩, .check 0 (some 0), .check 1 (some 0), .mlock 0 true,
    .mlock 1 false, .add 0]

/-- The counter comes to hold the size of the one that is locked. -/
theorem usage_exact_inTurn :
    ∃ s, run (step fun _ => 0) init inTurn = some s ∧ Quiet s ∧
      (s.buffers.filter Buffer.isLocked).map (fun b => b.size) = [6] ∧ s.usage.toNat = 6 := by
  refine ⟨_, rfl, by unfold Quiet; decide, by decide, ?_⟩
  exact (usage_exact (fun _ => 0) inTurn inTurn List.prefix_rfl _ rfl).2.2
    (by unfold Quiet; decide)

/-- The buffer as the operations that are not interrupted see it. -/
def Buffer.toLocked (b : Buffer) : Memlock.Locked :=
  { addr := b.addr, size := b.size, locked := b.isLocked }

/-- The two models agree, in between the operations. -/
structure Matches (t : State) (s : Memlock.State) : Prop where
  quiet : Quiet t
  live : t.buffers.map Buffer.toLocked = s.live
  usage : t.usage = s.usage

/-- The steps of a `new` that nothing interrupts. -/
def newSteps (t : State) (r : Range) (limit : Option UInt64) (granted : Bool) : List Action :=
  .alloc r :: .check 0 limit ::
    if Memlock.isApproachingMlockLimit threshold t.usage limit then []
    else .mlock 0 granted :: if granted then [.add 0] else []

/-- The steps of a drop that nothing interrupts. -/
def dropSteps (i : Nat) (b : Buffer) : List Action :=
  .drop i :: if b.isLocked then [.munlock i, .sub i] else []

theorem run_cons (t t' : State) (a : Action) (acts : List Action)
    (hstep : step threshold t a = some t') :
    run (step threshold) t (a :: acts) = run (step threshold) t' acts := by
  change (step threshold t a >>= fun u => acts.foldlM (step threshold) u) = _
  rw [hstep]
  rfl

/-- A buffer at rest in front of buffers that agree. -/
theorem matches_cons (t : State) (s : Memlock.State) (hmatch : Matches t s) (r : Range)
    (hfit : 0 < r.addr ∧ r.addr + r.size ≤ 2 ^ 64) (locked : Bool) (pages : Nat → Bool)
    (usage : UInt64) :
    Matches
      { buffers := { r with phase := .live locked, fits := hfit } :: t.buffers, usage := usage }
      { live := { addr := r.addr, size := r.size, locked := locked } :: s.live,
        pages := pages, usage := usage } := by
  refine ⟨?_, ?_, rfl⟩
  · intro b hb
    rcases List.mem_cons.mp hb with rfl | hold
    · cases locked with
      | true => exact Or.inl rfl
      | false => exact Or.inr rfl
    · exact hmatch.quiet b hold
  · rw [List.map_cons, hmatch.live]
    cases locked with
    | true => rfl
    | false => rfl

/-- An uninterrupted `new` is the one of `Memlock`. -/
theorem run_newSteps (pageSize : Nat) (t : State) (s : Memlock.State) (r : Range)
    (limit : Option UInt64) (granted : Bool) (hmatch : Matches t s)
    (hfit : 0 < r.addr ∧ r.addr + r.size ≤ 2 ^ 64)
    (hapart : ∀ b ∈ s.live, Memlock.Disjoint r.addr r.size b) :
    ∃ t', run (step threshold) t (newSteps threshold t r limit granted) = some t' ∧
      Matches t' (Memlock.new pageSize threshold s r.addr r.size limit granted) := by
  have hfree : ∀ b ∈ t.buffers, r.Apart b.toRange := fun b hb =>
    hapart b.toLocked (hmatch.live ▸ List.mem_map_of_mem hb)
  have halloc : step threshold t (.alloc r)
      = some { t with buffers := { r with phase := .checking, fits := hfit } :: t.buffers } :=
    dif_pos ⟨hfit, hfree⟩
  rw [newSteps, run_cons threshold t _ _ _ halloc, run_cons threshold _ _ _ _ rfl, Memlock.new,
    ← hmatch.usage]
  cases Memlock.isApproachingMlockLimit threshold t.usage limit with
  | true => exact ⟨_, rfl, matches_cons t s hmatch r hfit false _ _⟩
  | false =>
      cases granted with
      | true => exact ⟨_, rfl, matches_cons t s hmatch r hfit true _ _⟩
      | false => exact ⟨_, rfl, matches_cons t s hmatch r hfit false _ _⟩

/-- Buffers that agree, each without the one at a position. -/
theorem matches_eraseIdx (t : State) (s : Memlock.State) (hmatch : Matches t s) (i : Nat)
    (pages : Nat → Bool) (usage : UInt64) :
    Matches { buffers := t.buffers.eraseIdx i, usage := usage }
      { live := s.live.eraseIdx i, pages := pages, usage := usage } := by
  refine ⟨fun b hb => hmatch.quiet b (List.mem_of_mem_eraseIdx hb), ?_, rfl⟩
  rw [← hmatch.live, List.eraseIdx_eq_take_drop_succ, List.eraseIdx_eq_take_drop_succ,
    List.map_append, List.map_take, List.map_drop]

theorem inPhase_become (s : State) (i : Nat) (b : Buffer) (phase : Phase)
    (hget : s.buffers[i]? = some b) :
    (s.become i b phase).inPhase i phase = some { b with phase := phase } :=
  (inPhase_eq_some_iff _ i phase _).mpr
    ⟨List.getElem?_set_self (List.getElem?_eq_some_iff.mp hget).1, rfl⟩

theorem getElem?_become (s : State) (i : Nat) (b : Buffer) (phase : Phase)
    (hget : s.buffers[i]? = some b) :
    (s.become i b phase).buffers[i]? = some { b with phase := phase } :=
  ((inPhase_eq_some_iff _ i phase _).mp (inPhase_become s i b phase hget)).1

/-- An uninterrupted drop is the one of `Memlock`. -/
theorem run_dropSteps (pageSize : Nat) (t : State) (s : Memlock.State) (i : Nat) (b : Buffer)
    (hmatch : Matches t s) (hget : t.buffers[i]? = some b) :
    ∃ t', run (step threshold) t (dropSteps i b) = some t' ∧
      Matches t' (Memlock.drop pageSize s i b.toLocked) := by
  rcases hmatch.quiet b (List.mem_of_getElem? hget) with hlocked | hunlocked
  · have hset : b.isLocked = true := decide_eq_true hlocked
    have hdrop : step threshold t (.drop i) = some (t.become i b .unlocking) := by
      rw [step, (inPhase_eq_some_iff t i _ b).mpr ⟨hget, hlocked⟩]
    have hunlocking := inPhase_become t i b .unlocking hget
    have hmunlock : step threshold (t.become i b .unlocking) (.munlock i)
        = some ((t.become i b .unlocking).become i { b with phase := .unlocking }
            .subtracting) := by
      rw [step, hunlocking]
      rfl
    have hsubtracting := inPhase_become _ i _ .subtracting (getElem?_become t i b .unlocking hget)
    have hsub : step threshold ((t.become i b .unlocking).become i
        { b with phase := .unlocking } .subtracting) (.sub i)
        = some { buffers := t.buffers.eraseIdx i, usage := t.usage - UInt64.ofNat b.size } := by
      rw [step, hsubtracting]
      change some (State.mk (((t.buffers.set i _).set i _).eraseIdx i) _) = _
      rw [List.eraseIdx_set_eq, List.eraseIdx_set_eq]
      rfl
    have hlocked' : b.toLocked.locked = true := hset
    rw [dropSteps, hset, if_pos rfl, run_cons threshold t _ _ _ hdrop,
      run_cons threshold _ _ _ _ hmunlock, run_cons threshold _ _ _ _ hsub, Memlock.drop, hlocked',
      if_pos rfl, if_pos rfl, ← hmatch.usage]
    exact ⟨_, rfl, matches_eraseIdx t s hmatch i _ _⟩
  · have hclear : b.isLocked = false := by
      rw [Buffer.isLocked, hunlocked]
      rfl
    have hnone : t.inPhase i (.live true) = none := by
      rw [State.inPhase, hget, Option.filter_some, hunlocked]
      rfl
    have hdrop : step threshold t (.drop i) = some (t.free i) := by
      rw [step, hnone, (inPhase_eq_some_iff t i _ b).mpr ⟨hget, hunlocked⟩]
      rfl
    have hclear' : b.toLocked.locked = false := hclear
    rw [dropSteps, hclear, if_neg Bool.false_ne_true, run_cons threshold t _ _ _ hdrop,
      Memlock.drop, hclear', if_neg Bool.false_ne_true, if_neg Bool.false_ne_true, ← hmatch.usage]
    exact ⟨_, rfl, matches_eraseIdx t s hmatch i _ _⟩

/-- Every operation of `Memlock`, on addresses that exist, is a run of steps. -/
theorem exists_run_step (pageSize : Nat) (t : State) (s : Memlock.State) (a : Memlock.Action)
    (s' : Memlock.State) (hmatch : Matches t s)
    (hfit : ∀ addr size limit granted, a = .new addr size limit granted →
      0 < addr ∧ addr + size ≤ 2 ^ 64)
    (hstep : Memlock.step pageSize threshold s a = some s') :
    ∃ acts t', run (step threshold) t acts = some t' ∧ Matches t' s' := by
  cases a with
  | new addr size limit granted =>
      rw [Memlock.step, Option.ite_none_right_eq_some] at hstep
      rw [← Option.some.inj hstep.2]
      exact ⟨_, run_newSteps threshold pageSize t s { addr := addr, size := size } limit granted
        hmatch (hfit addr size limit granted rfl) hstep.1⟩
  | drop i =>
      obtain ⟨b, hget, rfl⟩ := Memlock.step_drop pageSize threshold s i s' hstep
      rw [← hmatch.live, List.getElem?_map, Option.map_eq_some_iff] at hget
      obtain ⟨b, hget, rfl⟩ := hget
      exact ⟨_, run_dropSteps threshold pageSize t s i b hmatch hget⟩

end

end LockBudget

end Veil7
