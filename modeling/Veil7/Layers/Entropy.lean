import Veil7.Core.Shake256
import Veil7.Library.Keccak

/-!
# The Entropy Harvest

`harvest` of `l1_entropy.rs`: twelve rounds, each of which reads fresh bytes from
the system, hashes them and folds the result into a pool, and a last hash of the
pool. Besides the result the model keeps what the memory holds at the return:
the pool, and the buffers of every round that ran.

The wipes stand at the end of the two functions. A round whose system call fails
returns before its own, with what the call left in the buffer, and takes
`harvest` with it before the pool is wiped, with what the rounds so far have
folded into it. `wiped_harvest_iff` is the exact condition.

## Main definitions

* `Draw`: What a round is given from outside.
* `Frame`: What a round leaves in its buffers.
* `mixRound`, `mixRounds`, `harvest`: A round, the loop, and the whole.
* `Wiped`: The pool and all the buffers are zeros.

## Theorems

* `mixRounds_append`: The rounds whose calls succeed.
* `harvest_ok_iff`: When a seed is returned.
* `wiped_harvest_iff`: When the memory is wiped.
* `harvest_leaves_pool`: A call that fails in the second round.
-/

namespace Veil7

namespace Entropy

/-- What a round is given: the array after the system call, which on failure
    holds whatever the call left in it, and the jitter. -/
structure Draw where
  osBytes : Block 48
  succeeded : Bool
  jit : Block 24

/-- The buffers of a round at its return; one that returned early has only the
    first of them. -/
inductive Frame where
  | early (osBytes : Block 48)
  | full (osBytes : Block 48) (jit : Block 24) (h1 : Block 64) (h2 : Block 32)

/-- The buffers hold only zeros. -/
def Frame.Wiped : Frame → Prop
  | early osBytes => osBytes = zeros 48
  | full osBytes jit h1 h2 =>
    osBytes = zeros 48 ∧ jit = zeros 24 ∧ h1 = zeros 64 ∧ h2 = zeros 32

/-- A return of `harvest`, or of its loop: the result, the pool, and the buffers
    of the rounds. -/
structure Return (α : Type) where
  result : Except VeilError α
  pool : Block 64
  frames : List Frame

/-- The pool and the buffers of every round hold only zeros. -/
def Wiped {α : Type} (r : Return α) : Prop := r.pool = zeros 64 ∧ ∀ f ∈ r.frames, f.Wiped

/-- `zeroize_bytes`. -/
def zeroizeBytes {n : Nat} (_ : Block n) : Block n := zeros n

/-- The rehashed first half goes into the first half of the pool, the raw second
    half into the second. -/
def foldPool (pool : Block 64) (h2 : Block 32) (half2 : Bytes) (hlen : half2.length = 32) :
    Block 64 :=
  ⟨xorBytes (pool.toList.take 32) h2.toList ++ xorBytes (pool.toList.drop 32) half2, by
    simp only [xorBytes, List.length_append, List.length_zipWith, List.length_take,
      List.length_drop, Block.length_toList, hlen]
    rfl⟩

theorem drop_foldPool (pool : Block 64) (h2 : Block 32) (half2 : Bytes)
    (hlen : half2.length = 32) :
    (foldPool pool h2 half2 hlen).toList.drop 32 = xorBytes (pool.toList.drop 32) half2 := by
  refine List.drop_left' ?_
  rw [xorBytes, List.length_zipWith, List.length_take, Block.length_toList, Block.length_toList]
  rfl

section

variable (X : Xof) (personalization : Bytes)

def mixRound (i : Nat) (draw : Draw) (pool : Block 64) : Hashing (Return Unit) := do
  if draw.succeeded then
    let counter := u64Bytes i
    let h1 ← (Shake256.absorbAll [Domain.entropyMix, counter, personalization,
      draw.osBytes.toList, draw.jit.toList]).squeeze X 64
    let half1 := h1.toList.take 32
    let half2 := h1.toList.drop 32
    let h2 ← (Shake256.absorbAll [Domain.entropyFold, counter, half1]).squeeze X 32
    let pool := foldPool pool h2 half2 (by rw [List.length_drop, Block.length_toList])
    pure {
      result := .ok ()
      pool := pool
      frames := [.full (zeroizeBytes draw.osBytes) (zeroizeBytes draw.jit) (zeroizeBytes h1)
        (zeroizeBytes h2)] }
  else
    -- The wipes come after the return.
    pure { result := .error .entropy, pool := pool, frames := [.early draw.osBytes] }

/-- The loop, from a round on. -/
def mixRounds (i : Nat) : List Draw → Block 64 → Hashing (Return Unit)
  | [], pool => pure { result := .ok (), pool := pool, frames := [] }
  | draw :: draws, pool => do
    let round ← mixRound X personalization i draw pool
    match round.result with
    | .error e => pure { round with result := .error e }
    | .ok () =>
      let rest ← mixRounds (i + 1) draws round.pool
      pure { rest with frames := round.frames ++ rest.frames }

def harvest (draws : List.Vector Draw 12) : Hashing (Return (Block 64)) := do
  let rounds ← mixRounds X personalization 0 draws.toList (zeros 64)
  match rounds.result with
  | .error e => pure { rounds with result := .error e }
  | .ok () =>
    let locked ← (Shake256.absorbAll [Domain.entropyFinalize, personalization,
      rounds.pool.toList]).squeeze X 64
    pure { rounds with result := .ok locked, pool := zeroizeBytes rounds.pool }

/-- The string that a round hashes first. -/
def mixString (i : Nat) (draw : Draw) : Bytes :=
  [Domain.entropyMix, u64Bytes i, personalization, draw.osBytes.toList,
    draw.jit.toList].flatten

/-- The strings that the rounds hash first, as far as the calls succeed. -/
def mixStrings (i : Nat) : List Draw → List Bytes
  | [] => []
  | draw :: draws =>
    if draw.succeeded then mixString personalization i draw :: mixStrings (i + 1) draws else []

/-- The last halves of the outputs for the strings, one XORed into the other. -/
def foldedHalves (half : Bytes) (strings : List Bytes) : Bytes :=
  strings.foldl (fun half s => xorBytes half ((digest X 64 s).toList.drop 32)) half

/-- The buffers of a round that came to its wipes. -/
def wipedFrame : Frame := .full (zeros 48) (zeros 24) (zeros 64) (zeros 32)

theorem wiped_wipedFrame : wipedFrame.Wiped := ⟨rfl, rfl, rfl, rfl⟩

/-- The pool after rounds whose calls succeed. -/
def poolAfter (i : Nat) : List Draw → Block 64 → Block 64
  | [], pool => pool
  | draw :: draws, pool =>
    poolAfter (i + 1) draws (mixRound X personalization i draw pool).val.pool

theorem mixRound_of_succeeded (i : Nat) (draw : Draw) (pool : Block 64)
    (h : draw.succeeded = true) :
    (mixRound X personalization i draw pool).val
      = { result := .ok (), pool := (mixRound X personalization i draw pool).val.pool,
          frames := [wipedFrame] } := by
  rw [mixRound, if_pos h]
  rfl

/-- A round leaves in the second half of the pool what it found there and the
    raw second half of its output. -/
theorem drop_mixRound (i : Nat) (draw : Draw) (pool : Block 64) (h : draw.succeeded = true) :
    (mixRound X personalization i draw pool).val.pool.toList.drop 32
      = xorBytes (pool.toList.drop 32)
          ((digest X 64 (mixString personalization i draw)).toList.drop 32) := by
  rw [mixRound, if_pos h, mixString, ← Shake256.buf_absorbAll]
  exact drop_foldPool pool _ _ (by rw [List.length_drop, Block.length_toList])

/-- The rounds whose calls succeed wipe their buffers and hand on the pool. -/
theorem mixRounds_append (i : Nat) (pre rest : List Draw) (pool : Block 64)
    (hpre : ∀ d ∈ pre, d.succeeded = true) :
    (mixRounds X personalization i (pre ++ rest) pool).val
      = { (mixRounds X personalization (i + pre.length) rest
            (poolAfter X personalization i pre pool)).val with
          frames := List.replicate pre.length wipedFrame
            ++ (mixRounds X personalization (i + pre.length) rest
                (poolAfter X personalization i pre pool)).val.frames } := by
  induction pre generalizing i pool with
  | nil => rfl
  | cons d pre ih =>
      rw [List.forall_mem_cons] at hpre
      rw [List.cons_append, mixRounds, Queried.val_bind,
        mixRound_of_succeeded X personalization i d pool hpre.1]
      change Return.mk _ _ ([wipedFrame] ++ Return.frames (Queried.val (mixRounds X personalization
        (i + 1) (pre ++ rest) (mixRound X personalization i d pool).val.pool))) = _
      rw [ih (i + 1) _ hpre.2, List.length_cons, Nat.add_right_comm i 1, ← Nat.add_assoc]
      rfl

theorem drop_poolAfter (i : Nat) (draws : List Draw) (pool : Block 64)
    (hall : ∀ d ∈ draws, d.succeeded = true) :
    (poolAfter X personalization i draws pool).toList.drop 32
      = foldedHalves X (pool.toList.drop 32) (mixStrings personalization i draws) := by
  induction draws generalizing i pool with
  | nil => rfl
  | cons d draws ih =>
      rw [List.forall_mem_cons] at hall
      rw [poolAfter, ih (i + 1) _ hall.2, drop_mixRound X personalization i d pool hall.1,
        mixStrings, if_pos hall.1]
      rfl

/-- The strings end with the first call that fails. -/
theorem mixStrings_append (i : Nat) (pre rest : List Draw) (d : Draw)
    (hpre : ∀ d ∈ pre, d.succeeded = true) (hd : d.succeeded = false) :
    mixStrings personalization i (pre ++ d :: rest) = mixStrings personalization i pre ∧
      (mixStrings personalization i pre).length = pre.length := by
  induction pre generalizing i with
  | nil =>
      have hstop : mixStrings personalization i (d :: rest) = [] := by
        rw [mixStrings, hd]
        rfl
      exact ⟨hstop, rfl⟩
  | cons c pre ih =>
      rw [List.forall_mem_cons] at hpre
      obtain ⟨hstrings, hlength⟩ := ih (i + 1) hpre.2
      rw [List.cons_append, mixStrings, mixStrings, if_pos hpre.1, if_pos hpre.1, hstrings,
        List.length_cons, List.length_cons, hlength]
      exact ⟨rfl, rfl⟩

theorem harvest_of_failed (draws : List.Vector Draw 12) (pre rest : List Draw) (d : Draw)
    (hdraws : draws.toList = pre ++ d :: rest) (hpre : ∀ d ∈ pre, d.succeeded = true)
    (hd : d.succeeded = false) :
    (harvest X personalization draws).val
      = { result := .error .entropy, pool := poolAfter X personalization 0 pre (zeros 64),
          frames := List.replicate pre.length wipedFrame ++ [.early d.osBytes] } := by
  have hround : (mixRounds X personalization (0 + pre.length) (d :: rest)
      (poolAfter X personalization 0 pre (zeros 64))).val
      = { result := .error .entropy, pool := poolAfter X personalization 0 pre (zeros 64),
          frames := [.early d.osBytes] } := by
    rw [mixRounds, mixRound, hd]
    rfl
  rw [harvest, Queried.val_bind, hdraws, mixRounds_append X personalization 0 pre _ _ hpre, hround]
  rfl

theorem harvest_of_succeeded (draws : List.Vector Draw 12)
    (hall : ∀ d ∈ draws.toList, d.succeeded = true) :
    (harvest X personalization draws).val
      = { result := .ok (digest X 64 [Domain.entropyFinalize, personalization,
            (poolAfter X personalization 0 draws.toList (zeros 64)).toList].flatten),
          pool := zeros 64, frames := List.replicate 12 wipedFrame } := by
  have hrounds := mixRounds_append X personalization 0 draws.toList [] (zeros 64) hall
  rw [List.append_nil] at hrounds
  rw [harvest, Queried.val_bind, hrounds, ← Shake256.buf_absorbAll]
  change Return.mk _ _ (List.replicate draws.toList.length wipedFrame ++ []) = _
  rw [List.append_nil, List.Vector.toList_length]
  rfl

/-- Either all calls succeed, or there is a first that does not. -/
theorem succeeded_or_first_failed (draws : List Draw) :
    (∀ d ∈ draws, d.succeeded = true) ∨
      ∃ pre d rest, draws = pre ++ d :: rest ∧ (∀ c ∈ pre, c.succeeded = true) ∧
        d.succeeded = false := by
  induction draws with
  | nil => exact Or.inl fun _ hd => absurd hd List.not_mem_nil
  | cons c draws ih =>
      cases hc : c.succeeded with
      | false =>
          exact Or.inr ⟨[], c, draws, rfl, fun _ hd => absurd hd List.not_mem_nil, hc⟩
      | true =>
          rcases ih with hall | ⟨pre, d, rest, rfl, hpre, hd⟩
          · exact Or.inl (List.forall_mem_cons.mpr ⟨hc, hall⟩)
          · exact Or.inr ⟨c :: pre, d, rest, rfl, List.forall_mem_cons.mpr ⟨hc, hpre⟩, hd⟩

theorem not_forall_of_failed (pre rest : List Draw) (d : Draw) (hd : d.succeeded = false) :
    ¬ ∀ c ∈ pre ++ d :: rest, c.succeeded = true := fun hall =>
  Bool.false_ne_true (hd.symm.trans (hall d (List.mem_append_right pre List.mem_cons_self)))

/-- A seed is returned exactly if all twelve calls succeed. -/
theorem harvest_ok_iff (draws : List.Vector Draw 12) :
    (∃ seed, (harvest X personalization draws).val.result = .ok seed) ↔
      ∀ d ∈ draws.toList, d.succeeded = true := by
  rcases succeeded_or_first_failed draws.toList with hall | ⟨pre, d, rest, hdraws, hpre, hd⟩
  · rw [harvest_of_succeeded X personalization draws hall]
    exact iff_of_true ⟨_, rfl⟩ hall
  · rw [harvest_of_failed X personalization draws pre rest d hdraws hpre hd]
    rw [hdraws]
    refine iff_of_false (fun ⟨_, h⟩ => ?_) (not_forall_of_failed pre rest d hd)
    cases h

/-- Where the first call that fails is not the very first, the pool is left with
    what the rounds before it folded in. -/
theorem wiped_of_failed_iff (draws : List.Vector Draw 12) (pre rest : List Draw) (d : Draw)
    (hdraws : draws.toList = pre ++ d :: rest) (hpre : ∀ d ∈ pre, d.succeeded = true)
    (hd : d.succeeded = false)
    (hcancel : 0 < pre.length → foldedHalves X (zeros 32).toList
      (mixStrings personalization 0 draws.toList) ≠ (zeros 32).toList) :
    Wiped (harvest X personalization draws).val ↔ pre = [] ∧ d.osBytes = zeros 48 := by
  rw [harvest_of_failed X personalization draws pre rest d hdraws hpre hd]
  rw [hdraws, (mixStrings_append personalization 0 pre rest d hpre hd).1] at hcancel
  constructor
  · rintro ⟨hpool, hframes⟩
    refine ⟨?_, hframes (.early d.osBytes) (List.mem_append_right _ (List.mem_singleton_self _))⟩
    by_contra hne
    refine hcancel (List.length_pos_of_ne_nil hne) ?_
    change poolAfter X personalization 0 pre (zeros 64) = zeros 64 at hpool
    have hhalf := drop_poolAfter X personalization 0 pre (zeros 64) hpre
    rw [hpool] at hhalf
    exact hhalf.symm
  · rintro ⟨rfl, hzero⟩
    exact ⟨rfl, fun f hf => by rw [List.mem_singleton.mp hf]; exact hzero⟩

/-- The memory is wiped if all twelve calls succeed, or if the first one fails
    and leaves only zeros; unless the outputs folded in before a failure cancel
    out, it is in no other case. -/
theorem wiped_harvest_iff (draws : List.Vector Draw 12)
    (hcancel : 0 < (mixStrings personalization 0 draws.toList).length →
      (mixStrings personalization 0 draws.toList).length < 12 →
      foldedHalves X (zeros 32).toList (mixStrings personalization 0 draws.toList)
        ≠ (zeros 32).toList) :
    Wiped (harvest X personalization draws).val ↔
      (∀ d ∈ draws.toList, d.succeeded = true) ∨
        (draws.head.succeeded = false ∧ draws.head.osBytes = zeros 48) := by
  rcases succeeded_or_first_failed draws.toList with hall | ⟨pre, d, rest, hdraws, hpre, hd⟩
  · refine iff_of_true ?_ (Or.inl hall)
    rw [harvest_of_succeeded X personalization draws hall]
    exact ⟨rfl, fun f hf => by rw [List.eq_of_mem_replicate hf]; exact wiped_wipedFrame⟩
  · have hlength : (mixStrings personalization 0 draws.toList).length = pre.length := by
      obtain ⟨hstrings, hlen⟩ := mixStrings_append personalization 0 pre rest d hpre hd
      rw [hdraws, hstrings, hlen]
    have hlt : pre.length < 12 := by
      have htotal := congrArg List.length hdraws
      rw [List.Vector.toList_length, List.length_append, List.length_cons] at htotal
      omega
    rw [hlength] at hcancel
    rw [wiped_of_failed_iff X personalization draws pre rest d hdraws hpre hd
      (fun hpos => hcancel hpos hlt)]
    have hnot : ¬ ∀ d ∈ draws.toList, d.succeeded = true := by
      rw [hdraws]
      exact not_forall_of_failed pre rest d hd
    rw [or_iff_right hnot]
    -- The first of the calls is the one that fails, or it is among those before it.
    have hhead : draws.head :: draws.tail.toList = pre ++ d :: rest := by
      rw [← hdraws, ← List.Vector.toList_cons, List.Vector.cons_head_tail]
    cases pre with
    | nil =>
        rw [(List.cons.inj hhead).1]
        exact ⟨fun h => ⟨hd, h.2⟩, fun h => ⟨rfl, h.2⟩⟩
    | cons c pre =>
        have hc := hpre c List.mem_cons_self
        rw [← (List.cons.inj hhead).1] at hc
        refine iff_of_false (fun h => List.cons_ne_nil c pre h.1) (fun h => ?_)
        exact Bool.false_ne_true (h.1.symm.trans hc)

end

/-- Calls of which the second fails. -/
def secondFails : List.Vector Draw 12 :=
  List.Vector.cons { osBytes := zeros 48, succeeded := true, jit := zeros 24 }
    (List.Vector.replicate 11 { osBytes := zeros 48, succeeded := false, jit := zeros 24 })

theorem foldedHalves_secondFails :
    foldedHalves Keccak.shake256 (zeros 32).toList (mixStrings [] 0 secondFails.toList)
      ≠ (zeros 32).toList := by
  decide +kernel

theorem wiped_harvest_iff_second :
    Wiped (harvest Keccak.shake256 [] secondFails).val ↔
      (∀ d ∈ secondFails.toList, d.succeeded = true) ∨
        (secondFails.head.succeeded = false ∧ secondFails.head.osBytes = zeros 48) :=
  wiped_harvest_iff Keccak.shake256 [] secondFails fun _ _ => foldedHalves_secondFails

/-- After the second call failed the pool holds what the first round folded in. -/
theorem harvest_leaves_pool :
    (harvest Keccak.shake256 [] secondFails).val.pool ≠ zeros 64 ∧
      ¬ Wiped (harvest Keccak.shake256 [] secondFails).val := by
  have hpre : ∀ d ∈ secondFails.toList.take 1, d.succeeded = true := by decide
  have hpool : (harvest Keccak.shake256 [] secondFails).val.pool ≠ zeros 64 := by
    rw [harvest_of_failed Keccak.shake256 [] secondFails (secondFails.toList.take 1)
      (secondFails.toList.drop 2) _ rfl hpre rfl]
    intro h
    change poolAfter Keccak.shake256 [] 0 _ (zeros 64) = zeros 64 at h
    have hhalf := drop_poolAfter Keccak.shake256 [] 0 (secondFails.toList.take 1) (zeros 64) hpre
    rw [h] at hhalf
    exact foldedHalves_secondFails hhalf.symm
  exact ⟨hpool, fun h => hpool h.1⟩

end Entropy

end Veil7
