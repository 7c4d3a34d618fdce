import Node9.Lib.Rfc8259

/-!
# Lua numbers and their texts

A Lua number is a double: here its exact value, by sign and magnitude, or an infinity or not a number.
`tonumber` is that of LuaJIT on decimal numerals, rounded to the nearest double. `format0f` and `format14g` are
`string.format` with `%.0f` and `%.14g`.

What an integer below 2^53 is printed as is read back as it (`tonumber_format0f`).
-/

namespace Node9.Lua
open Buf Rfc8259 List

inductive Number
  | nan
  | inf (neg : Bool)
  | fin (neg : Bool) (abs : NNRat)
  deriving DecidableEq

def Number.ofNat (n : Nat) : Number := .fin false n

namespace Number

def signed (neg : Bool) (abs : NNRat) : Rat := if neg then -(abs : Rat) else abs

/-- `==` -/
def eq : Number → Number → Bool
  | inf a, inf b => a == b
  | fin a x, fin b y => signed a x == signed b y
  | _, _ => false

/-- `<` -/
def lt : Number → Number → Bool
  | inf a, inf b => a && !b
  | inf a, fin _ _ => a
  | fin _ _, inf b => !b
  | fin a x, fin b y => signed a x < signed b y
  | _, _ => false

/-- `n == floor(n)` -/
def whole : Number → Bool
  | nan => false
  | inf _ => true
  | fin _ x => x.den == 1

end Number

/-- To the nearest integer, a half to the even one. -/
def roundEven (q : NNRat) : Nat :=
  let r := q - ⌊q⌋₊
  if r < 1 / 2 ∨ (r = 1 / 2 ∧ ⌊q⌋₊ % 2 = 0) then ⌊q⌋₊ else ⌊q⌋₊ + 1

/-- The nearest double: 53 bits, from 2^-1074 to below 2^1024. -/
def nearest (neg : Bool) (q : NNRat) : Number :=
  if q = 0 then .fin neg 0
  else
    let e := max (Int.log 2 q - 52) (-1074)
    let q : NNRat := (roundEven (q / 2 ^ e) : NNRat) * 2 ^ e
    if 2 ^ 1024 ≤ q then .inf neg else .fin neg q

def digit (d : Nat) : UInt8 := zero + UInt8.ofNat d

def decimal (n : Nat) : Bytes := if n = 0 then [zero] else (Nat.digits 10 n).reverse.map digit

def sign (neg : Bool) : Bytes := if neg then [minus] else []

def format0f (neg : Bool) (q : NNRat) : Bytes := sign neg ++ decimal (roundEven q)

/-- A point and the digits `s` without the zeros at the end. -/
def fraction (s : Bytes) : Bytes :=
  let s := s.rdropWhile (· == zero)
  if s = [] then [] else point :: s

/-- Fourteen digits. An exponent below -4 or above 13 is written out. -/
def format14g (neg : Bool) (q : NNRat) : Bytes :=
  if q = 0 then sign neg ++ [zero]
  else
    let e := Int.log 10 q
    let m := roundEven (q / 10 ^ (e - 13))
    let e := if m = 10 ^ 14 then e + 1 else e
    let s := decimal (if m = 10 ^ 14 then 10 ^ 13 else m)
    if e < -4 ∨ 14 ≤ e then
      let x := decimal e.natAbs
      sign neg ++ s.take 1 ++ fraction (s.drop 1) ++ 0x65 :: (if e < 0 then minus else plus) ::
        (if x.length < 2 then zero :: x else x)
    else if 0 ≤ e then sign neg ++ s.take (e.toNat + 1) ++ fraction (s.drop (e.toNat + 1))
    else sign neg ++ [zero] ++ fraction (List.replicate (e.natAbs - 1) zero ++ s)

def value (s : Bytes) : Nat := s.foldl (fun n b => 10 * n + (b.toNat - 0x30)) 0

/-- What follows the digits: nothing or an exponent. -/
def exponent (s : Bytes) : Option Int :=
  match s with
  | [] => some 0
  | b :: t =>
    let ds := skipSign t
    if isE b && !ds.isEmpty && ds.all isDigit then some (if t.head? = some minus then -value ds else value ds)
    else none

/-- `tonumber` of a decimal numeral, which may have a sign, a point and an exponent. -/
def tonumber (s : Bytes) : Option Number :=
  let neg := s.head? == some minus
  let s := skipMinus s
  let int := s.takeWhile isDigit
  let s := s.dropWhile isDigit
  let s' := if s.head? = some point then s.drop 1 else s
  let frac := if s.head? = some point then s'.takeWhile isDigit else []
  let s := if s.head? = some point then s'.dropWhile isDigit else s
  if (int ++ frac).isEmpty then none
  else (exponent s).map fun x => nearest neg ((value (int ++ frac) : NNRat) * 10 ^ (x - (frac.length : Int)))

theorem roundEven_natCast (n : Nat) : roundEven n = n := by
  unfold roundEven
  dsimp only
  rw [Nat.floor_natCast, tsub_self, if_pos (.inl (by norm_num))]

theorem nearest_mul_pow (neg : Bool) {n i : Nat} (hn : n < 2 ^ 53) (hi : 53 + i ≤ 1024) :
    nearest neg ((n * 2 ^ i : Nat) : NNRat) = .fin neg ((n * 2 ^ i : Nat) : NNRat) := by
  unfold nearest
  by_cases h0 : ((n * 2 ^ i : Nat) : NNRat) = 0
  · rw [if_pos h0, h0]
  rw [if_neg h0]
  have hlt : n * 2 ^ i < 2 ^ (53 + i) := by
    rw [pow_add]
    exact Nat.mul_lt_mul_of_pos_right hn (by positivity)
  have hlog : Nat.log 2 (n * 2 ^ i) ≤ 52 + i := by
    have := Nat.log_lt_of_lt_pow (by exact_mod_cast h0) hlt
    omega
  obtain ⟨k, hk⟩ : ∃ k : Nat, max (Int.log 2 ((n * 2 ^ i : Nat) : NNRat) - 52) (-1074) = (i : Int) - k := by
    refine ⟨((i : Int) - max (Int.log 2 ((n * 2 ^ i : Nat) : NNRat) - 52) (-1074)).toNat, ?_⟩
    rw [Int.log_natCast]
    omega
  have hpow : (2 : NNRat) ^ ((i : Int) - k) = 2 ^ i / 2 ^ k := by
    rw [zpow_sub₀ two_ne_zero, zpow_natCast, zpow_natCast]
  have hdiv : ((n * 2 ^ i : Nat) : NNRat) / 2 ^ ((i : Int) - k) = ((n * 2 ^ k : Nat) : NNRat) := by
    rw [hpow]
    push_cast
    field_simp
  have hmul : ((n * 2 ^ k : Nat) : NNRat) * 2 ^ ((i : Int) - k) = ((n * 2 ^ i : Nat) : NNRat) := by
    rw [hpow]
    push_cast
    field_simp
  dsimp only
  rw [hk, hdiv, roundEven_natCast, hmul, if_neg]
  rw [not_le]
  calc ((n * 2 ^ i : Nat) : NNRat) < ((2 ^ (53 + i) : Nat) : NNRat) := Nat.cast_lt.2 hlt
    _ = 2 ^ (53 + i) := Nat.cast_pow 2 (53 + i)
    _ ≤ 2 ^ 1024 := pow_le_pow_right₀ one_le_two hi

theorem nearest_natCast (neg : Bool) {n : Nat} (hn : n < 2 ^ 53) : nearest neg n = .fin neg n := by
  have h := nearest_mul_pow (i := 0) neg hn (by norm_num)
  rwa [pow_zero, mul_one] at h

theorem isDigit_digit {d : Nat} (hd : d < 10) : isDigit (digit d) = true ∧ (digit d).toNat - 0x30 = d := by
  interval_cases d <;> decide

theorem value_append (s t : Bytes) : value (s ++ t) = value s * 10 ^ t.length + value t := by
  unfold value
  rw [foldl_append]
  generalize s.foldl (fun n b => 10 * n + (b.toNat - 0x30)) 0 = m
  induction t using List.reverseRecOn with
  | nil => simp
  | append_singleton t b ih =>
    rw [foldl_append, ih, foldl_append, length_append]
    simp only [foldl_cons, foldl_nil, length_singleton, pow_succ]
    ring

theorem decimal_spec (n : Nat) : Digits (decimal n) ∧ value (decimal n) = n := by
  unfold decimal
  split_ifs with h
  · exact ⟨⟨cons_ne_nil _ _, rfl⟩, h.symm ▸ rfl⟩
  have hlt : ∀ d ∈ Nat.digits 10 n, d < 10 := fun d hd => Nat.digits_lt_base (by norm_num) hd
  refine ⟨⟨by simpa [Nat.digits_eq_nil_iff_eq_zero] using h, ?_⟩, ?_⟩
  · rw [all_map, all_eq_true]
    exact fun d hd => (isDigit_digit (hlt d (mem_reverse.1 hd))).1
  have hval : ∀ l : List Nat, (∀ d ∈ l, d < 10) → value (l.reverse.map digit) = Nat.ofDigits 10 l := by
    intro l
    induction l with
    | nil => exact fun _ => rfl
    | cons d l ih =>
      intro hl
      rw [reverse_cons, map_append, value_append, ih fun x hx => hl x (mem_cons_of_mem _ hx),
        Nat.ofDigits_cons]
      have hd := (isDigit_digit (hl d mem_cons_self)).2
      have hone : value [digit d] = d := by
        simp only [value, foldl_cons, foldl_nil]
        omega
      simp only [map_cons, map_nil, length_singleton, pow_one, hone]
      ring
  rw [hval _ hlt, Nat.ofDigits_digits]

theorem tonumber_format0f (neg : Bool) {n : Nat} (hn : n < 2 ^ 53) :
    tonumber (format0f neg n) = some (.fin neg n) := by
  obtain ⟨⟨hne, hall⟩, hv⟩ := decimal_spec n
  have hskip : skipMinus (sign neg ++ decimal n) = decimal n ∧ ((sign neg ++ decimal n).head? == some minus) = neg := by
    cases neg with
    | true => exact ⟨rfl, rfl⟩
    | false =>
      cases hd : decimal n with
      | nil => exact absurd hd hne
      | cons b t =>
        rw [hd, all_cons, Bool.and_eq_true] at hall
        have hb : b ≠ minus := fun hb => by
          rw [hb] at hall
          cases hall.1
        exact ⟨if_neg hb, by simpa [sign] using hb⟩
  have htake : (decimal n).takeWhile isDigit = decimal n := by
    have := takeWhile_run (t := []) hall off_nil
    rwa [append_nil] at this
  have hdrop : (decimal n).dropWhile isDigit = [] := by
    have := dropWhile_run (t := []) hall off_nil
    rwa [append_nil] at this
  unfold tonumber format0f
  rw [roundEven_natCast]
  dsimp only
  rw [hskip.1, hskip.2, htake, hdrop]
  simp only [List.head?_nil, reduceCtorEq, if_false, append_nil, length_nil]
  rw [if_neg (by simpa using hne), exponent, hv]
  simp only [Option.map_some, Nat.cast_zero, sub_zero, zpow_zero, mul_one]
  rw [nearest_natCast neg hn]

end Node9.Lua
