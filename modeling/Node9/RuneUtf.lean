import Node9.Rune
import Node9.Lib.Utf8

/-!
# The coding of runes (`rune.c` of lib9)

`chartorune` takes the shortest form of a scalar, or one byte for the error rune (`chartorune_encode`,
`chartorune_cases`); `runetochar` writes the shortest form, of the error rune when the rune is no scalar
(`runetochar_eq`). `runenlen` does not know about the error rune (`utf_iff`).
-/

namespace Node9.Rune
open Buf Utf8
open List hiding tails

def UTFmax : Nat := 4
def Maskx : Nat := 0x3F

/-- The last `k` bytes of a rune. -/
def restBytes (c : Nat) : Nat → Bytes
  | 0 => []
  | k + 1 => UInt8.ofNat (Tx ||| ((c >>> (k * Bitx)) &&& Maskx)) :: restBytes c k

/-- The loop of `runetochar` for `i` from `5 - fuel` on: what it writes, and what it returns. -/
def toLoop : Nat → Nat → Bytes × Nat
  | 0, _ => ([], UTFmax)
  | fuel + 1, c =>
    let i := UTFmax - fuel
    let c :=
      if i = 3 then
        let c := if c > Runemax then Runeerror else c
        if SurrogateMin ≤ c ∧ c ≤ SurrogateMax then Runeerror else c
      else c
    if c ≤ RuneX i ∨ i = UTFmax then
      (UInt8.ofNat (T i ||| (c >>> ((i - 1) * Bitx))) :: restBytes c (i - 1), i)
    else toLoop fuel c

def runetochar (c : Nat) : Bytes × Nat :=
  if c ≤ Rune1 then ([UInt8.ofNat c], 1) else toLoop 3 c

/-- The argument is a `long`, the rune an unsigned `int`. -/
def runelen (c : Int) : Nat := (runetochar (c % 2 ^ 32).toNat).2

/-- The loop of `runenlen` for one rune. -/
def lenLoop : Nat → Nat → Nat
  | 0, _ => 0
  | fuel + 1, c => if c ≤ RuneX (UTFmax - fuel) ∨ UTFmax - fuel = UTFmax then UTFmax - fuel else lenLoop fuel c

/-- `none` where the `int` overflows. -/
def runenlenLoop : Nat → List UInt32 → Option Nat
  | nb, [] => some nb
  | nb, c :: r =>
    let nb := if c.toNat ≤ Rune1 then nb + 1 else nb + lenLoop 3 c.toNat
    if nb < 2 ^ 31 then runenlenLoop nb r else none

def runenlen (r : List UInt32) : Option Nat := runenlenLoop 0 r

/-- The loop of `fullrune` for `i` from `5 - fuel` on. -/
def fullLoop (c : Nat) (n : Int) : Nat → Bool
  | 0 => decide (n ≥ UTFmax)
  | fuel + 1 => if c < T (UTFmax - fuel) then decide (n ≥ (UTFmax - fuel : Nat) - 1) else fullLoop c n fuel

def fullrune (str : Bytes) (n : Int) : Bool :=
  if n ≤ 0 then false
  else if (str.getD 0 0).toNat < Tx then true
  else fullLoop (str.getD 0 0).toNat n 2

/-! ### The bits of a byte -/

/-- A byte that continues a sequence. -/
def Tail (b : UInt8) : Prop := 0x80 ≤ b.toNat ∧ b.toNat < 0xC0

theorem Tail.low {b : UInt8} (h : Tail b) : b.toNat - 0x80 < 64 := by
  have := h.2
  omega

theorem xor_Tx {n : Nat} (h : 0x80 ≤ n) (h' : n < 0xC0) : n ^^^ Tx = n - 0x80 := by
  have hall : ∀ n < 0xC0, 0x80 ≤ n → n ^^^ Tx = n - 0x80 := by decide +kernel
  exact hall n h' h

theorem testx_iff (b : UInt8) : (b.toNat ^^^ Tx) &&& Testx = 0 ↔ Tail b := by
  have hall : ∀ n < 256, (n ^^^ Tx) &&& Testx = 0 ↔ 0x80 ≤ n ∧ n < 0xC0 := by decide +kernel
  exact hall b.toNat b.toNat_lt

theorem shift_or {l x : Nat} (h : x < 64) : (l <<< Bitx) ||| x = 64 * l + x := by
  rw [← Nat.shiftLeft_add_eq_or_of_lt (show x < 2 ^ Bitx from h), Nat.shiftLeft_eq, Nat.mul_comm]
  rfl

theorem and_RuneX {l i : Nat} : l &&& RuneX i = l % (RuneX i + 1) := by
  unfold RuneX
  rw [Nat.and_two_pow_sub_one_eq_mod, Nat.sub_add_cancel Nat.one_le_two_pow]

/-! ### One turn of `chartorune` -/

/-- The bits of the bytes up to the `k`-th, with those of the first that stand for the length. -/
def bits (s : Bytes) : Nat → Nat
  | 0 => (s.getD 0 0).toNat
  | k + 1 => 64 * bits s k + ((s.getD (k + 1) 0).toNat - 0x80)

variable {s : Bytes} {c0 m k l : Nat}

theorem bits_succ : bits s (k + 1) = 64 * bits s k + ((s.getD (k + 1) 0).toNat - 0x80) := rfl

theorem bits_one : bits s 1 = 64 * (s.getD 0 0).toNat + ((s.getD 1 0).toNat - 0x80) := rfl

theorem bits_two : bits s 2 = 64 * bits s 1 + ((s.getD 2 0).toNat - 0x80) := rfl

theorem bits_three : bits s 3 = 64 * bits s 2 + ((s.getD 3 0).toNat - 0x80) := rfl

theorem charLoop_bad (hk : 3 - m = k + 1) (h : ¬ Tail (s.getD (k + 1) 0)) :
    charLoop s c0 (m + 1) l = (Runeerror, 1) := by
  rw [charLoop, hk]
  exact if_pos (mt (testx_iff _).1 h)

theorem charLoop_next (hk : 3 - m = k + 1) (h : Tail (s.getD (k + 1) 0)) (hc : T (k + 3) ≤ c0) :
    charLoop s c0 (m + 1) (bits s k) = charLoop s c0 m (bits s (k + 1)) := by
  rw [charLoop, hk]
  dsimp only
  rw [if_neg (not_not.2 ((testx_iff _).2 h)), if_neg (Nat.not_lt.2 hc), xor_Tx h.1 h.2,
    shift_or h.low, bits_succ]

theorem charLoop_last (hk : 3 - m = k + 1) (h : Tail (s.getD (k + 1) 0)) (hc : c0 < T (k + 3))
    (hl : bits s (k + 1) % (RuneX (k + 2) + 1) = l) :
    charLoop s c0 (m + 1) (bits s k) =
      if k + 1 = 1 ∧ (c0 < T 2 ∨ l ≤ Rune1) then (Runeerror, 1)
      else if k + 1 ≠ 1 ∧ (l ≤ RuneX (k + 1) ∨ l > Runemax) then (Runeerror, 1)
      else if k + 1 = 2 ∧ SurrogateMin ≤ l ∧ l ≤ SurrogateMax then (Runeerror, 1)
      else (l, k + 2) := by
  rw [charLoop, hk]
  dsimp only
  rw [if_neg (not_not.2 ((testx_iff _).2 h)), if_pos hc, xor_Tx h.1 h.2, shift_or h.low,
    and_RuneX, ← bits_succ, hl]

/-! ### A whole sequence -/

theorem chartorune_one (h : (s.getD 0 0).toNat < 0x80) : chartorune s = ((s.getD 0 0).toNat, 1) := if_pos h

theorem chartorune_many (h : 0x80 ≤ (s.getD 0 0).toNat) :
    chartorune s = charLoop s (s.getD 0 0).toNat (2 + 1) (bits s 0) := if_neg (Nat.not_lt.2 h)

theorem chartorune_two (h : 0x80 ≤ (s.getD 0 0).toNat) (h' : (s.getD 0 0).toNat < 0xE0) (h1 : Tail (s.getD 1 0))
    (hl : bits s 1 % 0x800 = l) :
    chartorune s = if (s.getD 0 0).toNat < 0xC0 ∨ l ≤ 0x7F then (Runeerror, 1) else (l, 2) := by
  rw [chartorune_many h, charLoop_last rfl h1 h' hl]
  by_cases hbad : (s.getD 0 0).toNat < 0xC0 ∨ l ≤ 0x7F
  · rw [if_pos ⟨rfl, hbad⟩, if_pos hbad]
  · rw [if_neg (fun h => hbad h.2), if_neg (fun h => h.1 rfl), if_neg (fun h => absurd h.1 (by decide)), if_neg hbad]

theorem chartorune_three (h : 0xE0 ≤ (s.getD 0 0).toNat) (h' : (s.getD 0 0).toNat < 0xF0) (h1 : Tail (s.getD 1 0))
    (h2 : Tail (s.getD 2 0)) (hl : bits s 2 % 0x10000 = l) :
    chartorune s = if l ≤ 0x7FF ∨ 0xD800 ≤ l ∧ l ≤ 0xDFFF then (Runeerror, 1) else (l, 3) := by
  rw [chartorune_many (by omega), charLoop_next rfl h1 h, charLoop_last (m := 1) rfl h2 h' hl,
    if_neg (fun h => absurd h.1 (by decide))]
  have hmax : l < 0x10000 := hl ▸ Nat.mod_lt _ (by decide)
  by_cases hlow : l ≤ 0x7FF
  · rw [if_pos ⟨by decide, .inl hlow⟩, if_pos (.inl hlow)]
  have hgood : ¬ (1 + 1 ≠ 1 ∧ (l ≤ RuneX (1 + 1) ∨ l > Runemax)) := by
    rintro ⟨-, hle | hgt⟩
    · exact hlow hle
    · have : l > 0x10FFFF := hgt
      omega
  rw [if_neg hgood]
  by_cases hsur : 0xD800 ≤ l ∧ l ≤ 0xDFFF
  · rw [if_pos ⟨rfl, hsur⟩, if_pos (.inr hsur)]
  · rw [if_neg (fun h => hsur h.2), if_neg (not_or.2 ⟨hlow, hsur⟩)]

theorem chartorune_four (h : 0xF0 ≤ (s.getD 0 0).toNat) (h' : (s.getD 0 0).toNat < 0xF8) (h1 : Tail (s.getD 1 0))
    (h2 : Tail (s.getD 2 0)) (h3 : Tail (s.getD 3 0)) (hl : bits s 3 % 0x200000 = l) :
    chartorune s = if l ≤ 0xFFFF ∨ l > 0x10FFFF then (Runeerror, 1) else (l, 4) := by
  rw [chartorune_many (by omega), charLoop_next rfl h1 (le_trans (by decide) h), charLoop_next (m := 1) rfl h2 h,
    charLoop_last (m := 0) rfl h3 h' hl, if_neg (fun h => absurd h.1 (by decide))]
  by_cases hbad : l ≤ 0xFFFF ∨ l > 0x10FFFF
  · rw [if_pos ⟨by decide, hbad⟩, if_pos hbad]
  · rw [if_neg (fun h => hbad h.2), if_neg (fun h => absurd h.1 (by decide)), if_neg hbad]

theorem toNat_ofNat_of_lt {n : Nat} (h : n < 256) : (UInt8.ofNat n).toNat = n :=
  (UInt8.toNat_ofNat).trans (Nat.mod_eq_of_lt h)

theorem tail_ofNat {b : UInt8} {n : Nat} (hb : b = UInt8.ofNat (0x80 + n)) (h : n < 64) :
    Tail b ∧ b.toNat = 0x80 + n := by
  have heq : b.toNat = 0x80 + n := by rw [hb, toNat_ofNat_of_lt (by omega)]
  exact ⟨⟨by rw [heq]; omega, by rw [heq]; omega⟩, heq⟩

theorem chartorune_encode {c : Nat} (hc : Scalar c) (h : ∀ k < (encode c).length, s.getD k 0 = (encode c).getD k 0) :
    chartorune s = (c, (encode c).length) := by
  obtain ⟨hmax, hsur⟩ := hc
  rcases lt_or_ge c 0x80 with h1 | h1
  · rw [encode_one h1] at h ⊢
    have h0 : (s.getD 0 0).toNat = c := by
      rw [h 0 (by simp)]
      exact toNat_ofNat_of_lt (by omega)
    rw [chartorune_one (by omega), h0]
    rfl
  rcases lt_or_ge c 0x800 with h2 | h2
  · rw [encode_two h1 h2] at h ⊢
    have hb0 : (s.getD 0 0).toNat = 0xC0 + c / 64 := by
      rw [h 0 (by simp)]
      exact toNat_ofNat_of_lt (by omega)
    obtain ⟨ht1, hb1⟩ := tail_ofNat (n := c % 64) (h 1 (by simp)) (Nat.mod_lt _ (by decide))
    have hl : bits s 1 % 0x800 = c := by
      rw [bits_one, hb1, hb0]
      omega
    rw [chartorune_two (by omega) (by omega) ht1 hl, if_neg (by omega)]
    rfl
  rcases lt_or_ge c 0x10000 with h3 | h3
  · rw [encode_three h2 h3] at h ⊢
    have hb0 : (s.getD 0 0).toNat = 0xE0 + c / 4096 := by
      rw [h 0 (by simp)]
      exact toNat_ofNat_of_lt (by omega)
    obtain ⟨ht1, hb1⟩ := tail_ofNat (n := c / 64 % 64) (h 1 (by simp)) (Nat.mod_lt _ (by decide))
    obtain ⟨ht2, hb2⟩ := tail_ofNat (n := c % 64) (h 2 (by simp)) (Nat.mod_lt _ (by decide))
    have hl : bits s 2 % 0x10000 = c := by
      rw [bits_two, hb2, bits_one, hb1, hb0]
      omega
    rw [chartorune_three (by omega) (by omega) ht1 ht2 hl, if_neg (by omega)]
    rfl
  rw [encode_four h3] at h ⊢
  have hb0 : (s.getD 0 0).toNat = 0xF0 + c / 262144 := by
    rw [h 0 (by simp)]
    exact toNat_ofNat_of_lt (by omega)
  obtain ⟨ht1, hb1⟩ := tail_ofNat (n := c / 4096 % 64) (h 1 (by simp)) (Nat.mod_lt _ (by decide))
  obtain ⟨ht2, hb2⟩ := tail_ofNat (n := c / 64 % 64) (h 2 (by simp)) (Nat.mod_lt _ (by decide))
  obtain ⟨ht3, hb3⟩ := tail_ofNat (n := c % 64) (h 3 (by simp)) (Nat.mod_lt _ (by decide))
  have hl : bits s 3 % 0x200000 = c := by
    rw [bits_three, hb3, bits_two, hb2, bits_one, hb1, hb0]
    omega
  rw [chartorune_four (by omega) (by omega) ht1 ht2 ht3 hl, if_neg (by omega)]
  rfl

theorem prefix_null {e : Bytes} (hlen : e.length ≤ s.length + 1) (h : ∀ k < e.length, s.getD k 0 = e.getD k 0) :
    e <+: s ++ [0] := by
  rw [prefix_iff_eq_take]
  refine ext_getElem (by simp [hlen]) fun k h1 h2 => ?_
  have hk := h k h1
  rw [getD_eq_getElem _ _ h1] at hk
  rw [getElem_take, ← hk]
  rcases lt_or_ge k s.length with hs | hs
  · rw [getD_eq_getElem _ _ hs, getElem_append_left hs]
  · rw [getD_eq_default _ _ hs, getElem_append_right hs]
    simp

theorem getD_prefix_eq {e : Bytes} (h : e <+: s ++ [0]) : ∀ k < e.length, s.getD k 0 = e.getD k 0 := by
  obtain ⟨t, ht⟩ := h
  intro k hk
  have hnull : s.getD k 0 = (s ++ [0]).getD k 0 := by
    rcases lt_or_ge k s.length with hs | hs
    · rw [getD_append _ _ _ _ hs]
    · rw [getD_eq_default _ _ hs, getD_append_right _ _ _ _ hs]
      cases k - s.length <;> rfl
  rw [hnull, ← ht, getD_append _ _ _ _ hk]

theorem Tail.lt (h : Tail (s.getD k 0)) : k < s.length := by
  by_contra hk
  rw [getD_eq_default _ _ (Nat.not_lt.1 hk)] at h
  exact absurd h.1 (by decide)

theorem ofNat_eq {n : Nat} {b : UInt8} (h : b.toNat = n) : b = UInt8.ofNat n := by
  rw [← h, UInt8.ofNat_toNat]

theorem chartorune_cases : chartorune s = (Runeerror, 1) ∨
    ∃ c, Scalar c ∧ encode c <+: s ++ [0] ∧ chartorune s = (c, (encode c).length) := by
  have hbyte := (s.getD 0 0).toNat_lt
  rcases lt_or_ge (s.getD 0 0).toNat 0x80 with h0 | h0
  · refine .inr ⟨(s.getD 0 0).toNat, ⟨by omega, by omega⟩, ?_, by rw [chartorune_one h0, encode_one h0]; rfl⟩
    rw [encode_one h0]
    refine prefix_null (by simp) fun k hk => ?_
    obtain rfl : k = 0 := by simpa using hk
    exact ofNat_eq rfl
  by_cases ht1 : Tail (s.getD 1 0)
  case neg => exact .inl (by rw [chartorune_many h0, charLoop_bad rfl ht1])
  have hlo1 := ht1.1
  have hhi1 := ht1.2
  rcases lt_or_ge (s.getD 0 0).toNat 0xE0 with hc0 | hc0
  · obtain ⟨l, hl⟩ : ∃ l, bits s 1 % 0x800 = l := ⟨_, rfl⟩
    rw [chartorune_two h0 hc0 ht1 hl]
    split_ifs with hbad
    · exact .inl rfl
    rw [bits_one] at hl
    have henc := encode_two (c := l) (by omega) (by omega)
    refine .inr ⟨l, ⟨by omega, by omega⟩, ?_, by rw [henc]; rfl⟩
    rw [henc]
    refine prefix_null (show 2 ≤ _ from Nat.le_succ_of_le ht1.lt) fun k hk => ?_
    have hk : k < 2 := hk
    interval_cases k
    · exact ofNat_eq (by omega)
    · exact ofNat_eq (by omega)
  by_cases ht2 : Tail (s.getD 2 0)
  case neg => exact .inl (by rw [chartorune_many h0, charLoop_next rfl ht1 hc0, charLoop_bad (m := 1) rfl ht2])
  have hlo2 := ht2.1
  have hhi2 := ht2.2
  rcases lt_or_ge (s.getD 0 0).toNat 0xF0 with hd0 | hd0
  · obtain ⟨l, hl⟩ : ∃ l, bits s 2 % 0x10000 = l := ⟨_, rfl⟩
    rw [chartorune_three hc0 hd0 ht1 ht2 hl]
    split_ifs with hbad
    · exact .inl rfl
    rw [bits_two, bits_one] at hl
    have henc := encode_three (c := l) (by omega) (by omega)
    refine .inr ⟨l, ⟨by omega, by omega⟩, ?_, by rw [henc]; rfl⟩
    rw [henc]
    refine prefix_null (show 3 ≤ _ from Nat.le_succ_of_le ht2.lt) fun k hk => ?_
    have hk : k < 3 := hk
    interval_cases k
    · exact ofNat_eq (by omega)
    · exact ofNat_eq (by omega)
    · exact ofNat_eq (by omega)
  have hcont := (chartorune_many h0).trans ((charLoop_next rfl ht1 hc0).trans (charLoop_next (m := 1) rfl ht2 hd0))
  by_cases ht3 : Tail (s.getD 3 0)
  case neg => exact .inl (by rw [hcont, charLoop_bad (m := 0) rfl ht3])
  have hlo3 := ht3.1
  have hhi3 := ht3.2
  rcases lt_or_ge (s.getD 0 0).toNat 0xF8 with he0 | he0
  · obtain ⟨l, hl⟩ : ∃ l, bits s 3 % 0x200000 = l := ⟨_, rfl⟩
    rw [chartorune_four hd0 he0 ht1 ht2 ht3 hl]
    split_ifs with hbad
    · exact .inl rfl
    rw [bits_three, bits_two, bits_one] at hl
    have henc := encode_four (c := l) (by omega)
    refine .inr ⟨l, ⟨by omega, by omega⟩, ?_, by rw [henc]; rfl⟩
    rw [henc]
    refine prefix_null (show 4 ≤ _ from Nat.le_succ_of_le ht3.lt) fun k hk => ?_
    have hk : k < 4 := hk
    interval_cases k
    · exact ofNat_eq (by omega)
    · exact ofNat_eq (by omega)
    · exact ofNat_eq (by omega)
    · exact ofNat_eq (by omega)
  · exact .inl (by rw [hcont, charLoop_next (m := 0) rfl ht3 he0, charLoop])

theorem shl_or {a b i n : Nat} (hn : a <<< i = n) (h : b < 2 ^ i) : n ||| b = n + b := by
  rw [← hn]
  exact (Nat.shiftLeft_add_eq_or_of_lt h a).symm

theorem restBytes_eq (c : Nat) : ∀ (k : Nat), restBytes c k = tails c k
  | 0 => rfl
  | k + 1 => by
    have hshift : c >>> (k * Bitx) &&& Maskx = c / 64 ^ k % 64 := by
      rw [show Maskx = 2 ^ 6 - 1 from rfl, Nat.and_two_pow_sub_one_eq_mod, Nat.shiftRight_eq_div_pow, Nat.mul_comm,
        Nat.pow_mul]
      rfl
    have hlow : c / 64 ^ k % 64 < 2 ^ 6 := Nat.mod_lt _ (by decide)
    rw [restBytes, tails, hshift, restBytes_eq c k, shl_or (a := 2) (n := Tx) rfl hlow]
    rfl

theorem wide_eq {c k n : Nat} (a i : Nat) (hn : a <<< i = n) (hT : T (k + 1) = n) (h : c / 64 ^ k < 2 ^ i) :
    UInt8.ofNat (T (k + 1) ||| (c >>> ((k + 1 - 1) * Bitx))) :: restBytes c (k + 1 - 1) =
      UInt8.ofNat (n + c / 64 ^ k) :: tails c k := by
  have hshift : c >>> (k * Bitx) = c / 64 ^ k := by
    rw [Nat.shiftRight_eq_div_pow, Nat.mul_comm, Nat.pow_mul]
    rfl
  rw [Nat.add_sub_cancel, hshift, hT, shl_or hn h, restBytes_eq]

theorem encode_wide {c k : Nat} (h : extra c = k) :
    encode c = UInt8.ofNat (lead k + c / 64 ^ k) :: tails c k ∧ (encode c).length = k + 1 := by
  rw [encode_length, encode, h]
  exact ⟨rfl, rfl⟩

/-- The rune as it is from the turn for three bytes on. -/
def fixed (c : Nat) : Nat :=
  let c := if c > Runemax then Runeerror else c
  if SurrogateMin ≤ c ∧ c ≤ SurrogateMax then Runeerror else c

theorem fixed_eq (c : Nat) : fixed c = if Scalar c then c else Runeerror := by
  have hsur : ¬ (SurrogateMin ≤ Runeerror ∧ Runeerror ≤ SurrogateMax) := by decide
  unfold fixed
  dsimp only
  by_cases hmax : c > Runemax
  · rw [if_pos hmax, if_neg hsur, if_neg (fun hsc => absurd hsc.1 (Nat.not_le.2 hmax))]
  rw [if_neg hmax]
  by_cases hs : SurrogateMin ≤ c ∧ c ≤ SurrogateMax
  · rw [if_pos hs, if_neg]
    rintro ⟨-, h | h⟩
    · exact absurd hs.1 (Nat.not_le.2 h)
    · exact absurd hs.2 (Nat.not_le.2 h)
  · have hsc : c < 0xD800 ∨ 0xDFFF < c := by
      rcases lt_or_ge c 0xD800 with h | h
      · exact .inl h
      · exact .inr (Nat.not_le.1 fun h' => hs ⟨h, h'⟩)
    rw [if_neg hs, if_pos (show Scalar c from ⟨Nat.not_lt.1 hmax, hsc⟩)]

theorem toLoop_three {c d : Nat} (hd : fixed c = d) (h : 0x800 ≤ d) (hmax : d ≤ 0x10FFFF) :
    toLoop 2 c = (encode d, (encode d).length) := by
  have hstep : toLoop 2 c = if d ≤ RuneX 3 ∨ 3 = UTFmax then
      (UInt8.ofNat (T 3 ||| (d >>> ((3 - 1) * Bitx))) :: restBytes d (3 - 1), 3) else toLoop 1 d := by
    rw [← hd]
    rfl
  rw [hstep]
  rcases lt_or_ge d 0x10000 with h3 | h3
  · obtain ⟨henc, hlen⟩ := encode_wide (extra_three h h3)
    rw [if_pos (.inl (Nat.le_of_lt_succ h3)), hlen, henc]
    exact congrArg (·, 3) (wide_eq (k := 2) 14 4 rfl rfl (show d / 4096 < 16 by omega))
  have hnot : ¬ (d ≤ RuneX 3 ∨ 3 = UTFmax) := by
    rintro (hle | hmax)
    · exact absurd (show d ≤ 0xFFFF from hle) (by omega)
    · exact absurd hmax (by decide)
  obtain ⟨henc, hlen⟩ := encode_wide (extra_four h3)
  rw [if_neg hnot, hlen, henc]
  have hlast : toLoop 1 d = (UInt8.ofNat (T 4 ||| (d >>> ((4 - 1) * Bitx))) :: restBytes d (4 - 1), 4) :=
    if_pos (.inr rfl)
  rw [hlast]
  exact congrArg (·, 4) (wide_eq (k := 3) 30 3 rfl rfl (show d / 262144 < 8 by omega))

theorem runetochar_eq (c : Nat) :
    runetochar c =
      (encode (if Scalar c then c else Runeerror), (encode (if Scalar c then c else Runeerror)).length) := by
  rcases lt_or_ge c 0x80 with h1 | h1
  · rw [if_pos ⟨by omega, by omega⟩, encode_one h1, runetochar,
      if_pos (show c ≤ Rune1 from Nat.le_of_lt_succ h1)]
    rfl
  rw [runetochar, if_neg (show ¬ c ≤ Rune1 from Nat.not_le.2 h1)]
  have hstep : toLoop 3 c = if c ≤ RuneX 2 ∨ 2 = UTFmax then
      (UInt8.ofNat (T 2 ||| (c >>> ((2 - 1) * Bitx))) :: restBytes c (2 - 1), 2) else toLoop 2 c := rfl
  rw [hstep]
  rcases lt_or_ge c 0x800 with h2 | h2
  · obtain ⟨henc, hlen⟩ := encode_wide (extra_two h1 h2)
    rw [if_pos (show Scalar c from ⟨by omega, by omega⟩), if_pos (.inl (Nat.le_of_lt_succ h2)), hlen, henc]
    exact congrArg (·, 2) (wide_eq (k := 1) 6 5 rfl rfl (show c / 64 < 32 by omega))
  have hnot : ¬ (c ≤ RuneX 2 ∨ 2 = UTFmax) := by
    rintro (hle | hmax)
    · exact absurd (show c ≤ 0x7FF from hle) (by omega)
    · exact absurd hmax (by decide)
  rw [if_neg hnot]
  refine toLoop_three (fixed_eq c) ?_ ?_
  · split_ifs
    · exact h2
    · decide
  · split_ifs with hsc
    · exact hsc.1
    · decide

theorem charLoop_congr {t : Bytes} {n : Nat} (h : ∀ k < n, s.getD k 0 = t.getD k 0) :
    ∀ (fuel l : Nat), 4 - fuel < n ∨ fuel = 0 → (c0 < T (n + 1) ∨ 4 ≤ n) →
      charLoop s c0 fuel l = charLoop t c0 fuel l
  | 0, _, _, _ => rfl
  | fuel + 1, l, hlt, hn => by
    have hi : 3 - fuel < n := by omega
    rw [charLoop, charLoop, h _ hi]
    by_cases hlast : c0 < T (3 - fuel + 2)
    · simp only [if_pos hlast]
    dsimp only
    rw [if_neg hlast, if_neg hlast, charLoop_congr h fuel _ ?_ hn]
    by_contra hge
    have hn3 : n = 3 - fuel + 1 := by omega
    rcases hn with hn | hn
    · rw [hn3] at hn
      exact hlast hn
    · omega

theorem fullrune_reads {n : Int} (h : fullrune s n = true) :
    0 < n.toNat ∧
      ((s.getD 0 0).toNat < Tx ∨ ∃ m, 2 ≤ m ∧ m ≤ n.toNat ∧ ((s.getD 0 0).toNat < T (m + 1) ∨ 4 ≤ m)) := by
  unfold fullrune at h
  split_ifs at h with hn h1
  · exact ⟨by omega, .inl h1⟩
  refine ⟨by omega, .inr ?_⟩
  rw [fullLoop] at h
  split_ifs at h with h3
  · have hm : n ≥ ((3 : Nat) : Int) - 1 := of_decide_eq_true h
    exact ⟨2, le_rfl, by omega, .inl h3⟩
  rw [fullLoop] at h
  split_ifs at h with h4
  · have hm : n ≥ ((4 : Nat) : Int) - 1 := of_decide_eq_true h
    exact ⟨3, by decide, by omega, .inl h4⟩
  · have hm : n ≥ ((4 : Nat) : Int) := of_decide_eq_true h
    exact ⟨4, by decide, by omega, .inr le_rfl⟩

theorem getD_take {t : Bytes} {n : Nat} (h : t.take n = s.take n) (hk : k < n) : t.getD k 0 = s.getD k 0 := by
  have hget := congrArg (·[k]?) h
  simp only [List.getElem?_take_of_lt hk] at hget
  rw [getD_eq_getElem?_getD, getD_eq_getElem?_getD, hget]

theorem fullrune_chartorune {n : Int} (h : fullrune s n = true) {t : Bytes}
    (ht : t.take n.toNat = s.take n.toNat) : chartorune t = chartorune s := by
  obtain ⟨hpos, hfull⟩ := fullrune_reads h
  have h0 := getD_take ht hpos
  unfold chartorune
  dsimp only
  rw [h0]
  rcases hfull with h1 | ⟨m, h2, hm, hmore⟩
  · rw [if_pos h1, if_pos h1]
  · rw [charLoop_congr (fun k hk => getD_take ht (lt_of_lt_of_le hk hm)) 3 _ (.inl h2) hmore]

theorem lenLoop_eq {c : Nat} (h : 0x80 ≤ c) : lenLoop 3 c = extra c + 1 := by
  have hstep : lenLoop 3 c = if c ≤ RuneX 2 ∨ 2 = UTFmax then 2 else
      if c ≤ RuneX 3 ∨ 3 = UTFmax then 3 else if c ≤ RuneX 4 ∨ 4 = UTFmax then 4 else 0 := rfl
  rw [hstep]
  rcases lt_or_ge c 0x800 with h2 | h2
  · rw [if_pos (.inl (Nat.le_of_lt_succ h2)), extra_two h h2]
  have hnot2 : ¬ (c ≤ RuneX 2 ∨ 2 = UTFmax) := by
    rintro (hle | hmax)
    · exact absurd (show c ≤ 0x7FF from hle) (by omega)
    · exact absurd hmax (by decide)
  rw [if_neg hnot2]
  rcases lt_or_ge c 0x10000 with h3 | h3
  · rw [if_pos (.inl (Nat.le_of_lt_succ h3)), extra_three h2 h3]
  have hnot3 : ¬ (c ≤ RuneX 3 ∨ 3 = UTFmax) := by
    rintro (hle | hmax)
    · exact absurd (show c ≤ 0xFFFF from hle) (by omega)
    · exact absurd hmax (by decide)
  rw [if_neg hnot3, if_pos (.inr rfl), extra_four h3]

theorem runenlenLoop_eq (r : List UInt32) : ∀ (nb : Nat), nb < 2 ^ 31 → runenlenLoop nb r =
    if nb + (r.map fun c => extra c.toNat + 1).sum < 2 ^ 31 then some (nb + (r.map fun c => extra c.toNat + 1).sum)
    else none := by
  induction r with
  | nil =>
    intro nb hnb
    exact (if_pos hnb).symm
  | cons c r ih =>
    intro nb hnb
    have hnext : (if c.toNat ≤ Rune1 then nb + 1 else nb + lenLoop 3 c.toNat) = nb + (extra c.toNat + 1) := by
      split_ifs with h1
      · rw [extra_one (Nat.lt_succ_of_le h1)]
      · rw [lenLoop_eq (lt_of_not_ge h1)]
    rw [runenlenLoop, hnext, map_cons, sum_cons, ← add_assoc nb (extra c.toNat + 1)]
    by_cases hlt : nb + (extra c.toNat + 1) < 2 ^ 31
    · rw [if_pos hlt, ih _ hlt]
    · rw [if_neg hlt, if_neg (by omega)]

theorem written_le (c : Nat) : (runetochar c).1.length ≤ extra c + 1 ∧
    ((runetochar c).1.length = extra c + 1 ↔ c ≤ Runemax) := by
  have herr : extra Runeerror = 2 := by decide
  rw [runetochar_eq, encode_length]
  by_cases hsc : Scalar c
  · rw [if_pos hsc]
    exact ⟨le_rfl, iff_of_true rfl hsc.1⟩
  rw [if_neg hsc, herr]
  rcases lt_or_ge Runemax c with hmax | hmax
  · have hlow : 0x10FFFF < c := hmax
    rw [extra_four (by omega)]
    exact ⟨by decide, iff_of_false (by decide) (Nat.not_le.2 hmax)⟩
  · have hsur : 0xD800 ≤ c ∧ c ≤ 0xDFFF := by
      by_contra hs
      exact hsc ⟨hmax, by omega⟩
    rw [extra_three (by omega) (by omega)]
    exact ⟨le_rfl, iff_of_true rfl hmax⟩

/-- The bytes that `runetochar` writes for the runes of an array. -/
def written (r : List UInt32) : Nat := (r.map fun c => (runetochar c.toNat).1.length).sum

theorem written_eq_iff (r : List UInt32) : written r ≤ (r.map fun c => extra c.toNat + 1).sum ∧
    (written r = (r.map fun c => extra c.toNat + 1).sum ↔ ∀ c ∈ r, c.toNat ≤ Runemax) := by
  induction r with
  | nil => exact ⟨le_rfl, iff_of_true rfl (by simp)⟩
  | cons c r ih =>
    obtain ⟨hle, hiff⟩ := ih
    obtain ⟨hle1, hiff1⟩ := written_le c.toNat
    have hcons : written (c :: r) = (runetochar c.toNat).1.length + written r := rfl
    rw [hcons, map_cons, sum_cons, forall_mem_cons, ← hiff, ← hiff1]
    exact ⟨by omega, by omega⟩

/-- `chartorune` takes a shortest form, or one byte for the error rune. -/
def Decodes (s : Bytes) : Prop :=
  (∃ c, Scalar c ∧ encode c <+: s ++ [0] ∧ chartorune s = (c, (encode c).length)) ∨
    (¬ ∃ c, Scalar c ∧ encode c <+: s ++ [0]) ∧ chartorune s = (Runeerror, 1)

theorem decodes (s : Bytes) : Decodes s := by
  rcases chartorune_cases (s := s) with hbad | hgood
  · refine .inr ⟨?_, hbad⟩
    rintro ⟨c, hsc, hpre⟩
    rw [chartorune_encode hsc (getD_prefix_eq hpre)] at hbad
    obtain ⟨rfl, hlen⟩ := Prod.mk.inj hbad
    exact absurd hlen (by decide)
  · exact .inl hgood

theorem chartorune_runetochar {c : Nat} (hc : Scalar c) (t : Bytes) :
    chartorune ((runetochar c).1 ++ t) = (c, (runetochar c).2) := by
  rw [runetochar_eq, if_pos hc]
  exact chartorune_encode hc fun k hk => getD_append _ _ _ _ hk

/-- `chartorune`, `runetochar` and `fullrune` do what they should; `runenlen` does for runes that are not out of
range, as long as their bytes fit an `int`. -/
theorem utf_iff (s : Bytes) (r : List UInt32) :
    Decodes s ∧ (∀ c, Scalar c → chartorune ((runetochar c).1 ++ s) = (c, (runetochar c).2)) ∧
      (∀ n t, fullrune s n = true → t.take n.toNat = s.take n.toNat → chartorune t = chartorune s) ∧
      (runenlen r = some (written r) ↔
        (∀ c ∈ r, c.toNat ≤ Runemax) ∧ (r.map fun c => extra c.toNat + 1).sum < 2 ^ 31) := by
  refine ⟨decodes s, fun c hc => chartorune_runetochar hc s, fun n t hn ht => fullrune_chartorune hn ht, ?_⟩
  obtain ⟨-, hiff⟩ := written_eq_iff r
  rw [runenlen, runenlenLoop_eq r 0 (by decide), Nat.zero_add, ← hiff]
  split_ifs with hfit
  · rw [Option.some_inj]
    exact ⟨fun heq => ⟨heq.symm, hfit⟩, fun h => h.1.symm⟩
  · exact iff_of_false (fun heq => heq.elim) fun h => hfit h.2

/-- A rune out of range is written in three bytes and counted as four. -/
theorem not_runenlen : ¬ ∀ r : List UInt32, runenlen r = some (written r) := by
  intro h
  exact absurd (h [0x110000]) (by decide)

end Node9.Rune
