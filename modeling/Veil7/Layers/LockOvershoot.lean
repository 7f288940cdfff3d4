import Veil7.Layers.LockBudget

/-!
# How Far the Lock Budget Is Overshot

`Locked::new` of `l0_memlock.rs` compares the counter with the threshold before
it locks, and adds to the counter after. Between the two other threads may do
the same, each against the counter as it was, so the budget can be exceeded.

The excess is bounded by what can be between the two steps at once. The sizes
counted and the sizes that have passed the check and are not counted yet stay
together below the threshold and one size for every such buffer
(`usage_le_overshoot`), in whatever order the threads take their steps; with one
buffer at a time that is one size. Nothing smaller holds: two creations that
check together reach the bound (`overshoot_reached`).

## Main definitions

* `Buffer.inFlight`: The buffer has passed the check and is not counted yet.
* `Buffer.load`: What the buffer counts for, or will.
* `Modest`: A step within the sizes, the threshold and the number in flight.
* `Within`: The load is within the bound.

## Theorems

* `within_step`: Every modest step keeps the bound.
* `usage_le_overshoot`: The counter along any run of modest steps.
* `overshoot_reached`: A run that reaches the bound.
-/

namespace Veil7

namespace LockBudget

/-- Past the budget check, and not added to the counter. -/
def Phase.inFlight : Phase → Bool
  | checking => false
  | locking => true
  | adding => true
  | live _ => false
  | unlocking => false
  | subtracting => false

namespace Buffer

def inFlight (b : Buffer) : Bool := b.phase.inFlight

/-- What the buffer has added to the counter, or is on the way to add. -/
def load (b : Buffer) : Nat := if b.phase.hasAdded || b.phase.inFlight then b.size else 0

theorem load_le_size (b : Buffer) : b.load ≤ b.size := by
  rw [load]
  split
  · exact Nat.le_refl _
  · exact Nat.zero_le _

theorem load_of_idle (b : Buffer) (h : (b.phase.hasAdded || b.phase.inFlight) = false) :
    b.load = 0 :=
  if_neg (Bool.eq_false_iff.mp h)

/-- A buffer counts, or is in flight, or neither. -/
theorem load_le_counted (b : Buffer) (N : Nat) (hN : b.size ≤ N) :
    b.load ≤ b.counted + N * (if b.inFlight then 1 else 0) := by
  rw [load, counted, inFlight]
  cases b.phase with
  | live locked =>
      cases locked with
      | true => exact Nat.le_add_right _ _
      | false => exact Nat.zero_le _
  | checking => exact Nat.zero_le _
  | locking =>
      change b.size ≤ 0 + N * 1
      omega
  | adding =>
      change b.size ≤ 0 + N * 1
      omega
  | unlocking => exact Nat.le_add_right _ _
  | subtracting => exact Nat.le_add_right _ _

theorem counted_le_load (b : Buffer) : b.counted ≤ b.load := by
  rw [load, counted]
  cases b.phase.hasAdded with
  | true => exact Nat.le_refl _
  | false => exact Nat.zero_le _

end Buffer

/-- The load of all buffers. -/
def State.load (s : State) : Nat := (s.buffers.map Buffer.load).sum

theorem load_become (s : State) (i : Nat) (b : Buffer) (phase : Phase)
    (hget : s.buffers[i]? = some b) :
    (s.become i b phase).load
      = Buffer.load { b with phase := phase } + ((s.buffers.eraseIdx i).map Buffer.load).sum := by
  rw [State.load, ((perm_become s i b phase hget).map Buffer.load).sum_nat, List.map_cons,
    List.sum_cons]

/-- The load is what has been counted and one size at most for every buffer in
    flight. -/
theorem load_le_usage (s : State) (N : Nat) (hs : Accounted s)
    (hsize : ∀ b ∈ s.buffers, b.size ≤ N) :
    s.load ≤ s.usage.toNat + N * s.buffers.countP Buffer.inFlight := by
  rw [hs.usage, State.load]
  generalize s.buffers = buffers at hsize
  induction buffers with
  | nil => exact Nat.zero_le _
  | cons b bs ih =>
      rw [List.forall_mem_cons] at hsize
      have hb := b.load_le_counted N hsize.1
      have hbs := ih hsize.2
      rw [List.map_cons, List.sum_cons, List.map_cons, List.sum_cons, List.countP_cons,
        Nat.mul_add]
      omega

/-- The counter is part of the load. -/
theorem usage_le_load (s : State) (hs : Accounted s) : s.usage.toNat ≤ s.load := by
  rw [hs.usage, State.load]
  exact List.sum_le_sum fun b _ => b.counted_le_load

section

variable (threshold : UInt64 → UInt64) (N T k : Nat)

/-- A buffer is made of a modest size, and a check that passes is made with a known
    limit whose threshold is at most `T`, while fewer than `k` buffers are in
    flight. -/
def Modest (s : State) : Action → Prop
  | .alloc r => r.size ≤ N
  | .check _ limit =>
    Memlock.isApproachingMlockLimit threshold s.usage limit = false →
      (∃ l, limit = some l ∧ (threshold l).toNat ≤ T) ∧ s.buffers.countP Buffer.inFlight < k
  | _ => True

/-- The account is in order, the sizes are modest, and the load is within the
    bound. -/
structure Within (s : State) : Prop where
  accounted : Accounted s
  sizes : ∀ b ∈ s.buffers, b.size ≤ N
  load : s.load ≤ T + N * k

/-- A buffer that changes its phase keeps its size. -/
theorem sizes_become (s : State) (i : Nat) (b : Buffer) (phase : Phase)
    (hsize : ∀ b ∈ s.buffers, b.size ≤ N) (hget : s.buffers[i]? = some b) :
    ∀ c ∈ (s.become i b phase).buffers, c.size ≤ N := by
  intro c hc
  rcases List.mem_or_eq_of_mem_set hc with hold | rfl
  · exact hsize c hold
  · exact hsize b (List.mem_of_getElem? hget)

theorem sizes_free (s : State) (i : Nat) (hsize : ∀ b ∈ s.buffers, b.size ≤ N) :
    ∀ c ∈ (s.free i).buffers, c.size ≤ N :=
  fun c hc => hsize c (List.mem_of_mem_eraseIdx hc)

/-- A phase that loads no more than the one before keeps the bound. -/
theorem load_become_le (s : State) (i : Nat) (b : Buffer) (phase : Phase)
    (hget : s.buffers[i]? = some b) (hload : Buffer.load { b with phase := phase } ≤ b.load) :
    (s.become i b phase).load ≤ s.load := by
  rw [load_become s i b phase hget, State.load, sum_map_eq Buffer.load s i b hget]
  omega

theorem load_free_le (s : State) (i : Nat) (b : Buffer) (hget : s.buffers[i]? = some b) :
    (s.free i).load ≤ s.load := by
  rw [State.load, State.load, sum_map_eq Buffer.load s i b hget]
  exact Nat.le_add_left _ _

/-- The check admits a buffer only while there is room for one more size. -/
theorem load_become_of_check (s : State) (i : Nat) (b : Buffer) (limit : Option UInt64)
    (hs : Within N T k s) (hget : s.buffers[i]? = some b) (hphase : b.phase = .checking)
    (hmodest : Modest threshold N T k s (.check i limit))
    (hroom : Memlock.isApproachingMlockLimit threshold s.usage limit = false) :
    (s.become i b .locking).load ≤ T + N * k := by
  rcases hmodest hroom with ⟨⟨l, rfl, hl⟩, hcount⟩
  have husage : s.usage.toNat ≤ T := by
    have hnot := of_decide_eq_false hroom
    rw [UInt64.lt_iff_toNat_lt] at hnot
    omega
  have hload := load_le_usage s N hs.accounted hs.sizes
  rw [State.load, sum_map_eq Buffer.load s i b hget, b.load_of_idle (by rw [hphase]; rfl),
    Nat.zero_add] at hload
  have hsize := hs.sizes b (List.mem_of_getElem? hget)
  have hb : Buffer.load { b with phase := .locking } = b.size := rfl
  rw [load_become s i b _ hget, hb]
  -- One buffer more than those in flight before.
  have hmul : N * (s.buffers.countP Buffer.inFlight + 1) ≤ N * k := Nat.mul_le_mul_left N hcount
  rw [Nat.mul_succ] at hmul
  omega

theorem within_init : Within N T k init :=
  ⟨accounted_init, fun _ hb => absurd hb List.not_mem_nil, Nat.zero_le _⟩

/-- Every modest step of any thread keeps the bound. -/
theorem within_step (s : State) (a : Action) (s' : State) (hs : Within N T k s)
    (hmodest : Modest threshold N T k s a) (hstep : step threshold s a = some s') :
    Within N T k s' := by
  have haccounted := accounted_step threshold s a s' hs.accounted hstep
  cases a with
  | alloc r =>
      rw [step, Option.dite_none_right_eq_some] at hstep
      obtain ⟨h, hstep⟩ := hstep
      rw [← Option.some.inj hstep]
      rw [← Option.some.inj hstep] at haccounted
      refine ⟨haccounted, List.forall_mem_cons.mpr ⟨hmodest, hs.sizes⟩, ?_⟩
      change 0 + s.load ≤ _
      rw [Nat.zero_add]
      exact hs.load
  | check i limit =>
      obtain ⟨b, hget, hphase, rfl⟩ := exists_of_inPhase s i .checking _ s' hstep
      refine ⟨haccounted, sizes_become N s i b _ hs.sizes hget, ?_⟩
      cases hroom : Memlock.isApproachingMlockLimit threshold s.usage limit with
      | true =>
          refine Nat.le_trans (load_become_le s i b _ hget ?_) hs.load
          exact Nat.zero_le _
      | false =>
          exact load_become_of_check threshold N T k s i b limit hs hget hphase hmodest hroom
  | mlock i granted =>
      obtain ⟨b, hget, hphase, rfl⟩ := exists_of_inPhase s i .locking _ s' hstep
      refine ⟨haccounted, sizes_become N s i b _ hs.sizes hget, ?_⟩
      refine Nat.le_trans (load_become_le s i b _ hget ?_) hs.load
      have hb : b.load = b.size := by
        rw [Buffer.load, hphase]
        rfl
      rw [hb]
      exact Buffer.load_le_size _
  | add i =>
      obtain ⟨b, hget, hphase, rfl⟩ := exists_of_inPhase s i .adding _ s' hstep
      refine ⟨haccounted, sizes_become N s i b _ hs.sizes hget, ?_⟩
      refine Nat.le_trans (load_become_le s i b (.live true) hget ?_) hs.load
      have hb : b.load = b.size := by
        rw [Buffer.load, hphase]
        rfl
      rw [hb]
      exact Buffer.load_le_size _
  | drop i =>
      rw [step] at hstep
      split at hstep
      case h_1 b hb =>
        obtain ⟨hget, hphase⟩ := (inPhase_eq_some_iff s i _ b).mp hb
        rw [← Option.some.inj hstep]
        rw [← Option.some.inj hstep] at haccounted
        refine ⟨haccounted, sizes_become N s i b _ hs.sizes hget, ?_⟩
        refine Nat.le_trans (load_become_le s i b _ hget ?_) hs.load
        have hload : b.load = b.size := by
          rw [Buffer.load, hphase]
          rfl
        rw [hload]
        exact Buffer.load_le_size _
      case h_2 =>
        obtain ⟨b, hget, -, rfl⟩ := exists_of_inPhase s i (.live false) _ s' hstep
        exact ⟨haccounted, sizes_free N s i hs.sizes,
          Nat.le_trans (load_free_le s i b hget) hs.load⟩
  | munlock i =>
      obtain ⟨b, hget, hphase, rfl⟩ := exists_of_inPhase s i .unlocking _ s' hstep
      refine ⟨haccounted, sizes_become N s i b _ hs.sizes hget, ?_⟩
      refine Nat.le_trans (load_become_le s i b _ hget ?_) hs.load
      have hb : b.load = b.size := by
        rw [Buffer.load, hphase]
        rfl
      rw [hb]
      exact Buffer.load_le_size _
  | sub i =>
      obtain ⟨b, hget, -, rfl⟩ := exists_of_inPhase s i .subtracting _ s' hstep
      exact ⟨haccounted, sizes_free N s i hs.sizes,
        Nat.le_trans (load_free_le s i b hget) hs.load⟩

/-- Along any run of modest steps the counter exceeds the threshold by one size
    at most for every buffer that can be in flight at once. -/
theorem usage_le_overshoot (acts : List Action)
    (hmodest : Taken (step threshold) init acts (Modest threshold N T k)) :
    Along (step threshold) init acts fun s => s.usage.toNat ≤ T + N * k := by
  have hwithin : Along (step threshold) init acts (Within N T k) :=
    along_of_taken _ _ _ _ _ (within_init N T k)
      (fun t a t' ht hC hstep => within_step threshold N T k t a t' ht hC hstep) hmodest
  intro pre hpre s hrun
  have hs := hwithin pre hpre s hrun
  exact Nat.le_trans (usage_le_load s hs.accounted) hs.load

end

/-- Two creations that both check before either of them adds. -/
def together : List Action :=
  [.alloc ⟨8, 4⟩, .alloc ⟨16, 4⟩, .check 0 (some 0), .check 1 (some 0), .mlock 0 true,
    .mlock 1 true, .add 0, .add 1]

/-- With no room for any locked page the two come to hold two sizes, and that is
    the bound. -/
theorem overshoot_reached :
    (run (step fun _ => 0) init together).map (fun s => s.usage.toNat) = some (0 + 4 * 2) ∧
      Along (step fun _ => 0) init together fun s => s.usage.toNat ≤ 0 + 4 * 2 := by
  have hlimit : ∃ l : UInt64, some 0 = some l ∧ (0 : UInt64).toNat ≤ 0 :=
    ⟨0, rfl, Nat.le_refl 0⟩
  refine ⟨by decide, usage_le_overshoot (fun _ => 0) 4 0 2 together ?_⟩
  refine taken_cons _ _ _ _ _ _ rfl (Nat.le_refl 4) ?_
  refine taken_cons _ _ _ _ _ _ rfl (Nat.le_refl 4) ?_
  refine taken_cons _ _ _ _ _ _ rfl (fun _ => ⟨hlimit, by decide⟩) ?_
  refine taken_cons _ _ _ _ _ _ rfl (fun _ => ⟨hlimit, by decide⟩) ?_
  refine taken_cons _ _ _ _ _ _ rfl trivial ?_
  refine taken_cons _ _ _ _ _ _ rfl trivial ?_
  refine taken_cons _ _ _ _ _ _ rfl trivial ?_
  exact taken_cons _ _ _ _ _ _ rfl trivial (taken_nil _ _ _)

end LockBudget

end Veil7
