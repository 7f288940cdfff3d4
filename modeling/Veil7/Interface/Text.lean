import Veil7.Core.Buffer

/-!
# Texts of the Command Line

Digests and positions as `main.rs` reads and prints them: a digest as 64
hexadecimal digits, a position as a decimal number.

Both are read back from what is printed for them (`parseHexRoot_hex`,
`parseUsize_decimal`). A number that does not fit `usize` is printed by nothing
here and refused when read.

There are two readers of hexadecimal text, one for digests and one for strings of
any length. Both take a text exactly if, with its letters made small, it is what
would be printed (`hexDecode_eq_some_iff`, `parseHexRoot_eq_some_iff`); so they
agree where both apply, and neither takes two texts for one value unless they
differ in the size of letters only.

## Main definitions

* `hex`, `parseHexRoot`: A digest as text, and back.
* `hexDecode`: A text of any length.
* `hexText`: The text of any bytes.
* `decimal`, `parseUsize`: A number as text, and back.

## Theorems

* `hexNibble_hexDigits`: A digit stands for its value.
* `parseHexRoot_hex`: A printed digest is read back.
* `hexDecode_eq_some_iff`, `parseHexRoot_eq_some_iff`: What else is read.
* `parseUsize_decimal`: So is a printed number, if it fits.
-/

namespace Veil7

/-! ### Hexadecimal digits -/

/-- `HEX`. -/
def hexDigits : Bytes := ascii "0123456789abcdef"

/-- The two digits of every byte. -/
def hex (b : Block 32) : Bytes :=
  b.toList.flatMap fun (byte : UInt8) =>
    [hexDigits.getD (byte >>> 4).toNat 0, hexDigits.getD (byte &&& 0x0f).toNat 0]

def hexNibble (b : UInt8) : Option UInt8 :=
  -- '0' to '9', 'a' to 'f', 'A' to 'F'.
  if 48 ≤ b ∧ b ≤ 57 then some (b - 48)
  else if 97 ≤ b ∧ b ≤ 102 then some (b - 97 + 10)
  else if 65 ≤ b ∧ b ≤ 70 then some (b - 65 + 10)
  else none

/-- The byte at position `i` of the output. -/
def hexByte (s : Bytes) (i : Nat) : Option UInt8 := do
  let hi ← hexNibble (s.getD (2 * i) 0)
  let lo ← hexNibble (s.getD (2 * i + 1) 0)
  pure ((hi <<< 4) ||| lo)

/-- A 64-digit string as a 32-byte array. -/
def parseHexRoot (s : Bytes) : Option (Block 32) :=
  if s.length ≠ 64 then none
  else (List.finRange 32).foldlM
    (fun out (i : Fin 32) => (hexByte s i).map fun b => out.set i b) (zeros 32)

/-- The two digits of a byte stand for its two halves. -/
theorem hexNibble_hexDigits (b : UInt8) :
    hexNibble (hexDigits.getD (b >>> 4).toNat 0) = some (b >>> 4) ∧
      hexNibble (hexDigits.getD (b &&& 0x0f).toNat 0) = some (b &&& 0x0f) ∧
      ((b >>> 4) <<< 4) ||| (b &&& 0x0f) = b := by
  have hbytes : ∀ n < 256,
      hexNibble (hexDigits.getD (UInt8.ofNat n >>> 4).toNat 0) = some (UInt8.ofNat n >>> 4) ∧
        hexNibble (hexDigits.getD (UInt8.ofNat n &&& 0x0f).toNat 0)
          = some (UInt8.ofNat n &&& 0x0f) ∧
        ((UInt8.ofNat n >>> 4) <<< 4) ||| (UInt8.ofNat n &&& 0x0f) = UInt8.ofNat n := by
    decide +kernel
  have h := hbytes b.toNat b.toNat_lt
  rw [UInt8.ofNat_toNat] at h
  exact h

/-- In a string of pairs, the pair of the `i`-th element. -/
theorem getD_flatMap_pair {α : Type} (f g : α → UInt8) (l : List α) (i : Nat) (a : α)
    (h : l[i]? = some a) :
    (l.flatMap fun a => [f a, g a]).getD (2 * i) 0 = f a ∧
      (l.flatMap fun a => [f a, g a]).getD (2 * i + 1) 0 = g a := by
  induction l generalizing i with
  | nil => cases h
  | cons b l ih =>
      cases i with
      | zero =>
          rw [List.getElem?_cons_zero, Option.some.injEq] at h
          rw [h]
          exact ⟨rfl, rfl⟩
      | succ i =>
          rw [List.getElem?_cons_succ] at h
          exact ih i h

theorem hexByte_hex (b : Block 32) (i : Fin 32) : hexByte (hex b) i = some (b.get i) := by
  have hget : b.toList[i.val]? = some (b.get i) := by
    rw [List.getElem?_eq_getElem (by rw [Block.length_toList]; exact i.isLt)]
    rfl
  have hpair := getD_flatMap_pair (fun (byte : UInt8) => hexDigits.getD (byte >>> 4).toNat 0)
    (fun (byte : UInt8) => hexDigits.getD (byte &&& 0x0f).toNat 0) b.toList i _ hget
  have hdigits := hexNibble_hexDigits (b.get i)
  rw [hexByte, hex, hpair.1, hpair.2, hdigits.1, hdigits.2.1]
  exact congrArg some hdigits.2.2

theorem length_hex (b : Block 32) : (hex b).length = 64 := by
  rw [hex, List.length_flatMap]
  simp only [List.length_cons, List.length_nil]
  rw [List.map_const', List.sum_replicate, Block.length_toList]
  rfl

/-- A printed digest is read back. -/
theorem parseHexRoot_hex (b : Block 32) : parseHexRoot (hex b) = some b := by
  rw [parseHexRoot, if_neg (not_not.mpr (length_hex b))]
  have hloop : ∀ (is : List (Fin 32)) (out : Block 32),
      is.foldlM (fun out (i : Fin 32) => (hexByte (hex b) i).map fun b => out.set i b) out
        = some (is.foldl (fun out i => out.set i (b.get i)) out) := by
    intro is
    induction is with
    | nil => intro out; rfl
    | cons i is ih =>
        intro out
        rw [List.foldlM_cons, hexByte_hex, List.foldl_cons]
        exact ih _
  rw [hloop, Block.foldl_set_finRange, List.Vector.ofFn_get]

/-- The two digits of every byte of a string; `hex` and `hex64` for arrays. -/
def hexText (bytes : Bytes) : Bytes :=
  bytes.flatMap fun (byte : UInt8) =>
    [hexDigits.getD (byte >>> 4).toNat 0, hexDigits.getD (byte &&& 0x0f).toNat 0]

/-- A 64-byte array as 128 digits. -/
def hex64 (b : Block 64) : Bytes := hexText b.toList

/-- A hexadecimal string of any even length. -/
def hexDecode (s : Bytes) : Option Bytes :=
  if s.length % 2 ≠ 0 then none
  else (List.range (s.length / 2)).foldlM
    (fun out i => (hexByte s i).map fun b => out ++ [b]) []

/-- `to_ascii_lowercase` of one byte. -/
def lower (c : UInt8) : UInt8 := if 65 ≤ c ∧ c ≤ 90 then c + 32 else c

/-- A digit is read exactly if it is printed for the value, up to its case. -/
theorem hexNibble_eq_some_iff (c v : UInt8) :
    hexNibble c = some v ↔ v < 16 ∧ lower c = hexDigits.getD v.toNat 0 := by
  have hread : ∀ m < 256, (hexNibble (UInt8.ofNat m)).all (fun v =>
      decide (v < 16 ∧ lower (UInt8.ofNat m) = hexDigits.getD v.toNat 0)) = true := by
    decide +kernel
  have hprinted : ∀ n < 16, ∀ m < 256, lower (UInt8.ofNat m) = hexDigits.getD n 0 →
      hexNibble (UInt8.ofNat m) = some (UInt8.ofNat n) := by
    decide +kernel
  constructor
  · intro h
    have hc := hread c.toNat c.toNat_lt
    rw [UInt8.ofNat_toNat, h] at hc
    exact of_decide_eq_true hc
  · rintro ⟨hv, hc⟩
    have h := hprinted v.toNat (UInt8.lt_iff_toNat_lt.mp hv) c.toNat c.toNat_lt
    rw [UInt8.ofNat_toNat, UInt8.ofNat_toNat] at h
    exact h hc

/-- The halves of a byte made of two digits. -/
theorem halves_of_digits (hi lo : UInt8) (hhi : hi < 16) (hlo : lo < 16) :
    ((hi <<< 4) ||| lo) >>> 4 = hi ∧ ((hi <<< 4) ||| lo) &&& 0x0f = lo := by
  have hdigits : ∀ m < 16, ∀ n < 16,
      ((UInt8.ofNat m <<< 4) ||| UInt8.ofNat n) >>> 4 = UInt8.ofNat m ∧
        ((UInt8.ofNat m <<< 4) ||| UInt8.ofNat n) &&& 0x0f = UInt8.ofNat n := by
    decide +kernel
  have h := hdigits hi.toNat (UInt8.lt_iff_toNat_lt.mp hhi) lo.toNat (UInt8.lt_iff_toNat_lt.mp hlo)
  rw [UInt8.ofNat_toNat, UInt8.ofNat_toNat] at h
  exact h

/-- A byte is read exactly from its two digits, up to their case. -/
theorem hexByte_eq_some_iff (s : Bytes) (i : Nat) (b : UInt8) :
    hexByte s i = some b ↔
      lower (s.getD (2 * i) 0) = hexDigits.getD (b >>> 4).toNat 0 ∧
        lower (s.getD (2 * i + 1) 0) = hexDigits.getD (b &&& 0x0f).toNat 0 := by
  have hdigits := hexNibble_hexDigits b
  have hhi := ((hexNibble_eq_some_iff _ _).mp hdigits.1).1
  have hlo := ((hexNibble_eq_some_iff _ _).mp hdigits.2.1).1
  unfold hexByte
  rw [Option.bind_eq_bind, Option.bind_eq_some_iff]
  constructor
  · rintro ⟨hi, hreadHi, hrest⟩
    rw [Option.bind_eq_some_iff] at hrest
    rcases hrest with ⟨lo, hreadLo, hb⟩
    rw [hexNibble_eq_some_iff] at hreadHi hreadLo
    have hhalves := halves_of_digits hi lo hreadHi.1 hreadLo.1
    rw [← Option.some.inj hb, hhalves.1, hhalves.2]
    exact ⟨hreadHi.2, hreadLo.2⟩
  · rintro ⟨hreadHi, hreadLo⟩
    refine ⟨b >>> 4, (hexNibble_eq_some_iff _ _).mpr ⟨hhi, hreadHi⟩, ?_⟩
    rw [(hexNibble_eq_some_iff _ _).mpr ⟨hlo, hreadLo⟩]
    exact congrArg some hdigits.2.2

/-- The bytes of a text, read one after the other. -/
theorem mapM_hexByte (n : Nat) (s out : Bytes) (hlen : s.length = 2 * n) :
    (List.range n).mapM (hexByte s) = some out ↔ s.map lower = hexText out := by
  induction n generalizing s out with
  | zero =>
      rw [List.eq_nil_of_length_eq_zero hlen, List.map_nil, List.range_zero, List.mapM_nil]
      constructor
      · intro h
        rw [← Option.some.inj h]
        rfl
      · intro h
        cases out with
        | nil => rfl
        | cons b out => cases h
  | succ n ih =>
      rcases s with _ | ⟨c, _ | ⟨d, s⟩⟩
      · cases hlen
      · rw [List.length_singleton] at hlen
        omega
      have hrest := fun out => ih s out (by
        rw [List.length_cons, List.length_cons] at hlen
        omega)
      -- Behind the first pair the positions are those of the rest.
      have hshift : ∀ i, hexByte (c :: d :: s) (i + 1) = hexByte s i := fun i => rfl
      rw [List.range_succ_eq_map, List.mapM_cons, List.mapM_map]
      simp only [Function.comp_def, Nat.succ_eq_add_one, hshift]
      rw [Option.bind_eq_bind, Option.bind_eq_some_iff]
      constructor
      · rintro ⟨b, hb, hout⟩
        rw [Option.bind_eq_bind, Option.bind_eq_some_iff] at hout
        rcases hout with ⟨bs, hbs, hout⟩
        rw [hexByte_eq_some_iff] at hb
        rw [← Option.some.inj hout, List.map_cons, List.map_cons, (hrest bs).mp hbs]
        exact congrArg₂ (fun x y => x :: y :: hexText bs) hb.1 hb.2
      · intro h
        cases out with
        | nil => cases h
        | cons b bs =>
            change lower c :: lower d :: s.map lower = _ :: _ :: hexText bs at h
            rw [List.cons.injEq, List.cons.injEq] at h
            refine ⟨b, (hexByte_eq_some_iff _ _ _).mpr ⟨h.1, h.2.1⟩, ?_⟩
            rw [(hrest bs).mpr h.2.2]
            rfl

theorem length_hexText (bytes : Bytes) : (hexText bytes).length = 2 * bytes.length := by
  induction bytes with
  | nil => rfl
  | cons b bytes ih =>
      change (hexText bytes).length + 1 + 1 = 2 * (bytes.length + 1)
      rw [ih]
      omega

/-- A text is read as some bytes exactly if it is what is printed for them, up to
    the case of its letters. -/
theorem hexDecode_eq_some_iff (s out : Bytes) :
    hexDecode s = some out ↔ s.map lower = hexText out := by
  have hloop : ∀ (is : List Nat) (acc : Bytes),
      is.foldlM (fun out i => (hexByte s i).map fun b => out ++ [b]) acc
        = (is.mapM (hexByte s)).map (acc ++ ·) := by
    intro is
    induction is with
    | nil =>
        intro acc
        rw [List.foldlM_nil, List.mapM_nil]
        exact congrArg some (List.append_nil acc).symm
    | cons i is ih =>
        intro acc
        rw [List.foldlM_cons, List.mapM_cons]
        cases hexByte s i with
        | none => rfl
        | some b =>
            refine (ih (acc ++ [b])).trans ?_
            cases is.mapM (hexByte s) with
            | none => rfl
            | some bs => exact congrArg some (List.append_assoc acc [b] bs)
  rw [hexDecode]
  by_cases heven : s.length % 2 = 0
  · rw [if_neg (not_not.mpr heven), hloop, ← mapM_hexByte (s.length / 2) s out (by omega)]
    rw [Option.map_eq_some_iff]
    constructor
    · rintro ⟨bs, hbs, rfl⟩
      exact hbs
    · intro h
      exact ⟨out, h, rfl⟩
  · rw [if_pos heven]
    refine iff_of_false (fun h => nomatch h) ?_
    intro h
    have hlen := congrArg List.length h
    rw [List.length_map, length_hexText] at hlen
    omega

/-- The decimal digits of a number, as it is printed. -/
def decimal (n : Nat) : Bytes :=
  if n < 10 then [48 + UInt8.ofNat n]
  else decimal (n / 10) ++ [48 + UInt8.ofNat (n % 10)]

/-- One more digit of a number that has to stay below `2 ^ 64`. -/
def parseDigit (acc : Nat) (c : UInt8) : Option Nat :=
  if 48 ≤ c ∧ c ≤ 57 then
    let n := acc * 10 + (c - 48).toNat
    if n < 2 ^ 64 then some n else none
  else none

/-- What follows a plus sign, if there is one. -/
def stripPlus : Bytes → Bytes
  | [] => []
  | c :: cs => if c = 43 then cs else c :: cs

/-- `str::parse::<usize>`: a plus sign may come first, and a digit has to
    follow. -/
def parseUsize (s : Bytes) : Option Nat :=
  if (stripPlus s).isEmpty then none else (stripPlus s).foldlM parseDigit 0

theorem digit_le (d : Nat) (h : d < 10) :
    48 ≤ 48 + UInt8.ofNat d ∧ 48 + UInt8.ofNat d ≤ 57 ∧ (48 + UInt8.ofNat d - 48).toNat = d := by
  have hdigits : ∀ d < 10, 48 ≤ 48 + UInt8.ofNat d ∧ 48 + UInt8.ofNat d ≤ 57 ∧
      (48 + UInt8.ofNat d - 48).toNat = d := by
    decide
  exact hdigits d h

theorem parseDigit_digit (acc d : Nat) (h : d < 10) :
    parseDigit acc (48 + UInt8.ofNat d)
      = if acc * 10 + d < 2 ^ 64 then some (acc * 10 + d) else none := by
  have hd := digit_le d h
  rw [parseDigit, if_pos ⟨hd.1, hd.2.1⟩]
  dsimp only
  rw [hd.2.2]

/-- The digits are read up to the size of `usize`. -/
theorem foldlM_parseDigit_decimal (n : Nat) :
    (decimal n).foldlM parseDigit 0 = if n < 2 ^ 64 then some n else none := by
  induction n using decimal.induct with
  | case1 n hlt =>
      rw [decimal, if_pos hlt, List.foldlM_cons, parseDigit_digit 0 n hlt, Nat.zero_mul,
        Nat.zero_add, if_pos (by omega)]
      rfl
  | case2 n hge ih =>
      have hmod : n % 10 < 10 := Nat.mod_lt n (by omega)
      rw [decimal, if_neg hge, List.foldlM_append, ih]
      by_cases hhead : n / 10 < 2 ^ 64
      · rw [if_pos hhead]
        change (parseDigit (n / 10) _ >>= fun t => [].foldlM parseDigit t) = _
        rw [parseDigit_digit _ _ hmod, show n / 10 * 10 + n % 10 = n by omega]
        split <;> rfl
      · rw [if_neg hhead, if_neg (by omega)]
        rfl

/-- A printed number starts with a digit. -/
theorem exists_decimal (n : Nat) : ∃ c cs, decimal n = c :: cs ∧ c ≠ 43 := by
  induction n using decimal.induct with
  | case1 n hlt =>
      refine ⟨_, [], by rw [decimal, if_pos hlt], ?_⟩
      intro h
      have hd := (digit_le n hlt).1
      rw [h] at hd
      exact absurd hd (by decide)
  | case2 n hge ih =>
      rcases ih with ⟨c, cs, hcs, hc⟩
      refine ⟨c, cs ++ [48 + UInt8.ofNat (n % 10)], ?_, hc⟩
      rw [decimal, if_neg hge, hcs, List.cons_append]

/-- A printed number is read back if it fits, and refused otherwise. -/
theorem parseUsize_decimal (n : Nat) :
    parseUsize (decimal n) = if n < 2 ^ 64 then some n else none := by
  rcases exists_decimal n with ⟨c, cs, hcs, hc⟩
  rw [← foldlM_parseDigit_decimal n, hcs, parseUsize, stripPlus, if_neg hc]
  rfl

end Veil7
