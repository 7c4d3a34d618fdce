import Node9.Lib.Buf
import Node9.Lib.Bits

/-!
# Binary data as text (`u16.c`, `u32.c` and `u64.c` of lib9)

What a function writes is the list of the bytes from `dest` on; a destination limit is kept exactly if the list is
not longer. The base 32 functions check the room by one `int` formula before they start, the others before each
group.
-/

namespace Node9.TextEnc
open Buf Bits List

/-- What was written, and what was returned. -/
structure Coded where
  out : Bytes
  ret : Int
deriving DecidableEq

/-- `"0123456789ABCDEF"` -/
def t16e : Bytes := [48, 49, 50, 51, 52, 53, 54, 55, 56, 57, 65, 66, 67, 68, 69, 70]

def enc16Loop (lim : Nat) : Bytes → Bytes → Bytes
  | [], out => out
  | c :: s, out =>
    if out.length + 2 ≥ lim then out
    else enc16Loop lim s (out ++ [t16e.getD (c.toNat >>> 4) 0, t16e.getD (c.toNat &&& 0xf) 0])

def enc16 (lim : Nat) (src : Bytes) : Coded :=
  ⟨enc16Loop lim src [] ++ [0], (enc16Loop lim src []).length⟩

/-- The digit of a character; all the letters have one. -/
def digit16 (c : Nat) : Option Nat :=
  if 48 ≤ c ∧ c ≤ 57 then some (c - 48)
  else if 97 ≤ c ∧ c ≤ 122 then some (c - 97 + 10)
  else if 65 ≤ c ∧ c ≤ 90 then some (c - 65 + 10)
  else none

/-- The turns of `dec16`, with `w` and `i`. -/
def dec16Loop (lim : Nat) : Bytes → Nat → Nat → Bytes → Bytes
  | [], _, _, out => out
  | c :: s, w, i, out =>
    (digit16 c.toNat).elim (dec16Loop lim s w i out) fun d =>
      if i + 1 = 2 then
        if out.length + 1 > lim then out
        else dec16Loop lim s 0 0 (out ++ [UInt8.ofNat ((w <<< 4) + d)])
      else dec16Loop lim s ((w <<< 4) + d) (i + 1) out

def dec16 (lim : Nat) (src : Bytes) : Coded :=
  ⟨dec16Loop lim src 0 0 [], (dec16Loop lim src 0 0 []).length⟩

def INVAL : Nat := 255

/-- The letters, the small letters, the digits, `+` and `/`. -/
def t64e : Bytes :=
  (range' 65 26 ++ range' 97 26 ++ range' 48 10 ++ [43, 47]).map UInt8.ofNat

def t64d : List Nat :=
  replicate 43 INVAL ++ [62, INVAL, INVAL, INVAL, 63] ++ range' 52 10 ++ replicate 7 INVAL ++
    range' 0 26 ++ replicate 6 INVAL ++ range' 26 26 ++ replicate 133 INVAL

/-- The character of the last six bits. -/
def char64 (b24 : Nat) : UInt8 := t64e.getD (b24 &&& 0x3f) 0

/-- `none` for `goto exhausted`. -/
def enc64Loop (lim : Nat) : Nat → Bytes → Bytes → Bytes × Option Bytes
  | 0, s, out => (out, some s)
  | i + 1, s, out =>
    let b24 := ((s.getD 0 0).toNat <<< 16) ||| ((s.getD 1 0).toNat <<< 8) ||| (s.getD 2 0).toNat
    if out.length + 4 ≥ lim then (out, none)
    else enc64Loop lim i (s.drop 3)
      (out ++ [t64e.getD (b24 >>> 18) 0, char64 (b24 >>> 12), char64 (b24 >>> 6), char64 b24])

/-- The one or two bytes that are left. -/
def enc64Tail (lim : Nat) (r : Nat) (s out : Bytes) : Bytes :=
  if r = 2 then
    let b24 := ((s.getD 0 0).toNat <<< 16) ||| ((s.getD 1 0).toNat <<< 8)
    if out.length + 4 ≥ lim then out
    else out ++ [t64e.getD (b24 >>> 18) 0, char64 (b24 >>> 12), char64 (b24 >>> 6), 61]
  else if r = 1 then
    let b24 := (s.getD 0 0).toNat <<< 16
    if out.length + 4 ≥ lim then out else out ++ [t64e.getD (b24 >>> 18) 0, char64 (b24 >>> 12), 61, 61]
  else out

def enc64 (lim : Nat) (src : Bytes) : Coded :=
  let r := enc64Loop lim (src.length / 3) src []
  let out := r.2.elim r.1 fun s => enc64Tail lim (src.length % 3) s r.1
  ⟨out ++ [0], out.length⟩

/-- What `dec64` does at the end of the text with what is left of a group. -/
def dec64End (lim b24 i : Nat) (out : Bytes) : Bytes :=
  if i = 2 then
    if out.length + 1 > lim then out else out ++ [UInt8.ofNat (b24 >>> 16)]
  else if i = 3 then
    if out.length + 2 > lim then out else out ++ [UInt8.ofNat (b24 >>> 16), UInt8.ofNat (b24 >>> 8)]
  else out

def dec64Loop (lim : Nat) : Bytes → Nat → Nat → Bytes → Bytes
  | [], b24, i, out => dec64End lim b24 i out
  | ch :: s, b24, i, out =>
    let c := t64d.getD ch.toNat INVAL
    if c = INVAL then dec64Loop lim s b24 i out
    else if i = 0 then dec64Loop lim s (c <<< 18) 1 out
    else if i = 1 then dec64Loop lim s (b24 ||| (c <<< 12)) 2 out
    else if i = 2 then dec64Loop lim s (b24 ||| (c <<< 6)) 3 out
    else if out.length + 3 > lim then out
    else dec64Loop lim s (b24 ||| c) 0
      (out ++ [UInt8.ofNat ((b24 ||| c) >>> 16), UInt8.ofNat ((b24 ||| c) >>> 8), UInt8.ofNat (b24 ||| c)])

def dec64 (lim : Nat) (src : Bytes) : Coded :=
  ⟨dec64Loop lim src 0 0 [], (dec64Loop lim src 0 0 []).length⟩

/-- `"23456789abcdefghijkmnpqrstuvwxyz"`: without `0`, `1`, `l` and `o`. -/
def tab : Bytes :=
  (range' 50 8 ++ range' 97 11 ++ [109, 110] ++ range' 112 11).map UInt8.ofNat

/-- `strchr` finds the null that ends `tab`, too. -/
def index32 (c : UInt8) : Nat := ((tab ++ [0]).idxOf? c).getD 0

def digits32 (s : Bytes) : List Nat :=
  let src k := (s.getD k 0).toNat
  [0x1f &&& (src 0 >>> 3),
   (0x1c &&& (src 0 <<< 2)) ||| (0x03 &&& (src 1 >>> 6)),
   0x1f &&& (src 1 >>> 1),
   (0x10 &&& (src 1 <<< 4)) ||| (0x0f &&& (src 2 >>> 4)),
   (0x1e &&& (src 2 <<< 1)) ||| (0x01 &&& (src 3 >>> 7)),
   0x1f &&& (src 3 >>> 2),
   (0x18 &&& (src 3 <<< 3)) ||| (0x07 &&& (src 4 >>> 5)),
   0x1f &&& src 4]

/-- The digits of the last `r` bytes, up to `goto out`. -/
def tail32 (s : Bytes) (r : Nat) : List Nat :=
  let src k := (s.getD k 0).toNat
  if r = 1 then [0x1f &&& (src 0 >>> 3), 0x1c &&& (src 0 <<< 2)]
  else if r = 2 then
    [0x1f &&& (src 0 >>> 3), (0x1c &&& (src 0 <<< 2)) ||| (0x03 &&& (src 1 >>> 6)), 0x1f &&& (src 1 >>> 1)]
  else if r = 3 then
    [0x1f &&& (src 0 >>> 3), (0x1c &&& (src 0 <<< 2)) ||| (0x03 &&& (src 1 >>> 6)), 0x1f &&& (src 1 >>> 1),
     0x10 &&& (src 1 <<< 4)]
  else if r = 4 then
    [0x1f &&& (src 0 >>> 3), (0x1c &&& (src 0 <<< 2)) ||| (0x03 &&& (src 1 >>> 6)), 0x1f &&& (src 1 >>> 1),
     (0x10 &&& (src 1 <<< 4)) ||| (0x0f &&& (src 2 >>> 4)), 0x1e &&& (src 2 <<< 1)]
  else []

def chars32 (js : List Nat) : Bytes := js.map fun j => tab.getD j 0

def enc32Loop : Nat → Bytes → Nat → Bytes → Bytes
  | 0, s, r, out => out ++ chars32 (tail32 s r)
  | i + 1, s, r, out => enc32Loop i (s.drop 5) r (out ++ chars32 (digits32 s))

/-- `none` where the `int` of the check overflows. -/
def enc32 (ndest : Nat) (src : Bytes) : Option Coded :=
  if 8 * src.length + 4 < 2 ^ 31 then
    if ndest ≤ (8 * src.length + 4) / 5 then some ⟨[], -1⟩
    else
      let out := enc32Loop (src.length / 5) src (src.length % 5) []
      some ⟨out ++ [0], out.length⟩
  else none

def bytes32 (s : Bytes) : Bytes :=
  let u k := index32 (s.getD k 0)
  [UInt8.ofNat ((u 0 <<< 3) ||| (0x7 &&& (u 1 >>> 2))),
   UInt8.ofNat (((0x3 &&& u 1) <<< 6) ||| (u 2 <<< 1) ||| (0x1 &&& (u 3 >>> 4))),
   UInt8.ofNat (((0xf &&& u 3) <<< 4) ||| (0xf &&& (u 4 >>> 1))),
   UInt8.ofNat (((0x1 &&& u 4) <<< 7) ||| (u 5 <<< 2) ||| (0x3 &&& (u 6 >>> 3))),
   UInt8.ofNat (((0x7 &&& u 6) <<< 5) ||| u 7)]

/-- How many of the bytes the last `r` digits give. -/
def count32 (r : Nat) : Nat :=
  if r = 2 then 1 else if r = 4 then 2 else if r = 5 then 3 else if 0 < r then 4 else 0

def dec32Loop : Nat → Bytes → Nat → Bytes → Coded
  | 0, s, r, out =>
    if r = 1 ∨ r = 3 ∨ r = 6 then ⟨out, -1⟩
    else ⟨out ++ (bytes32 s).take (count32 r), (out ++ (bytes32 s).take (count32 r)).length⟩
  | i + 1, s, r, out => dec32Loop i (s.drop 8) r (out ++ bytes32 s)

/-- `none` where an `int` of the check overflows. -/
def dec32 (ndest : Nat) (src : Bytes) : Option Coded :=
  if ndest + 1 < 2 ^ 31 ∧ 5 * src.length + 7 < 2 ^ 31 then
    if ndest + 1 < (5 * src.length + 7) / 8 then some ⟨[], -1⟩
    else some (dec32Loop (src.length / 8) src (src.length % 8) [])
  else none

variable {lim : Nat} {s out : Bytes}

theorem enc16Loop_le : ∀ (s out : Bytes), out.length < lim → (enc16Loop lim s out).length < lim
  | [], _, h => h
  | c :: s, out, h => by
    rw [enc16Loop]
    split_ifs with hfull
    · exact h
    · refine enc16Loop_le s _ ?_
      rw [length_append]
      exact Nat.lt_of_not_le hfull

theorem enc16_le (h : 1 ≤ lim) (src : Bytes) : (enc16 lim src).out.length ≤ lim := by
  have := enc16Loop_le src [] h
  simpa [enc16] using this

theorem dec16Loop_le : ∀ (s : Bytes) (w i : Nat) (out : Bytes), out.length ≤ lim →
    (dec16Loop lim s w i out).length ≤ lim
  | [], _, _, _, h => h
  | c :: s, w, i, out, h => by
    rw [dec16Loop]
    cases digit16 c.toNat with
    | none => exact dec16Loop_le s w i out h
    | some d =>
      dsimp only [Option.elim]
      split_ifs with hi hfull
      · exact h
      · refine dec16Loop_le s 0 0 _ ?_
        rw [length_append]
        exact Nat.not_lt.1 hfull
      · exact dec16Loop_le s _ _ out h

theorem dec16_le (src : Bytes) : (dec16 lim src).out.length ≤ lim :=
  dec16Loop_le src 0 0 [] zero_le

theorem enc64Loop_le : ∀ (i : Nat) (s out : Bytes), out.length < lim → (enc64Loop lim i s out).1.length < lim
  | 0, _, _, h => h
  | i + 1, s, out, h => by
    rw [enc64Loop]
    split_ifs with hfull
    · exact h
    · refine enc64Loop_le i _ _ ?_
      rw [length_append]
      exact Nat.lt_of_not_le hfull

theorem enc64Tail_le (r : Nat) (h : out.length < lim) : (enc64Tail lim r s out).length < lim := by
  unfold enc64Tail
  dsimp only
  split_ifs with h2 hfull h1 hfull
  · exact h
  · rw [length_append]
    exact lt_of_not_ge hfull
  · exact h
  · rw [length_append]
    exact lt_of_not_ge hfull
  · exact h

theorem enc64_le (h : 1 ≤ lim) (src : Bytes) : (enc64 lim src).out.length ≤ lim := by
  have hloop := enc64Loop_le (src.length / 3) src [] h
  unfold enc64
  dsimp only
  rw [length_append]
  cases (enc64Loop lim (src.length / 3) src []).2 with
  | none => exact hloop
  | some s => exact enc64Tail_le _ hloop

theorem dec64Loop_le : ∀ (s : Bytes) (b24 i : Nat) (out : Bytes), out.length ≤ lim →
    (dec64Loop lim s b24 i out).length ≤ lim
  | [], b24, i, out, h => by
    rw [dec64Loop, dec64End]
    split_ifs with h2 hfull h3 hfull
    · exact h
    · rw [length_append]
      exact Nat.not_lt.1 hfull
    · exact h
    · rw [length_append]
      exact Nat.not_lt.1 hfull
    · exact h
  | ch :: s, b24, i, out, h => by
    rw [dec64Loop]
    split_ifs with hinv h0 h1 h2 hfull
    · exact dec64Loop_le s _ _ _ h
    · exact dec64Loop_le s _ _ _ h
    · exact dec64Loop_le s _ _ _ h
    · exact dec64Loop_le s _ _ _ h
    · exact h
    · refine dec64Loop_le s _ _ _ ?_
      rw [length_append]
      exact Nat.not_lt.1 hfull

theorem dec64_le (src : Bytes) : (dec64 lim src).out.length ≤ lim :=
  dec64Loop_le src 0 0 [] zero_le

theorem enc32Loop_length : ∀ (i : Nat) (s : Bytes) (r : Nat) (out : Bytes),
    (enc32Loop i s r out).length = out.length + 8 * i + (tail32 s r).length
  | 0, s, r, out => by simp [enc32Loop, chars32]
  | i + 1, s, r, out => by
    have htail : ∀ t : Bytes, (tail32 t r).length = (tail32 s r).length := by
      intro t
      unfold tail32
      dsimp only
      split_ifs <;> rfl
    rw [enc32Loop, enc32Loop_length i, htail]
    simp [chars32, digits32]
    omega

theorem tail32_length (s : Bytes) {r : Nat} (h : r < 5) :
    (tail32 s r).length = if r = 0 then 0 else r + 1 := by
  unfold tail32
  dsimp only
  interval_cases r <;> rfl

theorem dec32Loop_out : ∀ (i : Nat) (s : Bytes) (r : Nat) (out : Bytes), r < 8 →
    (dec32Loop i s r out).out.length =
      out.length + 5 * i + (if r = 1 ∨ r = 3 ∨ r = 6 then 0 else count32 r)
  | 0, s, r, out, h => by
    rw [dec32Loop]
    split_ifs with hbad
    · rfl
    · have hcount : count32 r ≤ 5 := by
        unfold count32
        split_ifs <;> omega
      simp [bytes32, hcount]
  | i + 1, s, r, out, h => by
    rw [dec32Loop, dec32Loop_out i _ r _ h]
    simp [bytes32]
    omega

/-! ### Round trips: base 16 -/

def pair16 (c : UInt8) : Bytes := [t16e.getD (c.toNat >>> 4) 0, t16e.getD (c.toNat &&& 0xf) 0]

theorem digit16_t16e {j : Nat} (h : j < 16) : digit16 (t16e.getD j 0).toNat = some j := by
  have hall : ∀ j < 16, digit16 (t16e.getD j 0).toNat = some j := by decide
  exact hall j h

theorem enc16Loop_eq : ∀ (s out : Bytes), out.length + 2 * s.length < lim →
    enc16Loop lim s out = out ++ s.flatMap pair16
  | [], out, _ => (append_nil out).symm
  | c :: s, out, h => by
    rw [length_cons] at h
    rw [enc16Loop, if_neg (by omega), enc16Loop_eq s _ (by rw [length_append]; exact Nat.lt_of_le_of_lt (by simp; omega) h),
      flatMap_cons, append_assoc]
    rfl

theorem dec16Loop_pair {c : UInt8} (h : out.length + 1 ≤ lim) :
    dec16Loop lim (pair16 c ++ s) 0 0 out = dec16Loop lim s 0 0 (out ++ [c]) := by
  have hc := c.toNat_lt
  have hhigh : c.toNat >>> 4 = c.toNat / 16 := shiftRight 4 rfl
  have hlow : c.toNat &&& 0xf = c.toNat % 16 := Nat.and_two_pow_sub_one_eq_mod c.toNat 4
  have hbyte : (((0 <<< 4 + c.toNat / 16) <<< 4) + c.toNat % 16) = c.toNat := by
    rw [Nat.shiftLeft_eq, Nat.shiftLeft_eq]
    omega
  rw [pair16, hhigh, hlow, cons_append, dec16Loop, digit16_t16e (by omega), Option.elim_some, if_neg (by decide),
    cons_append, dec16Loop, digit16_t16e (Nat.mod_lt _ (by decide)), Option.elim_some, if_pos rfl,
    if_neg (Nat.not_lt.2 h), hbyte, UInt8.ofNat_toNat]
  rfl

theorem dec16Loop_eq : ∀ (x out : Bytes), out.length + x.length ≤ lim →
    dec16Loop lim (x.flatMap pair16) 0 0 out = out ++ x
  | [], out, _ => (append_nil out).symm
  | c :: x, out, h => by
    rw [length_cons] at h
    rw [flatMap_cons, dec16Loop_pair (by omega),
      dec16Loop_eq x _ (by rw [length_append, length_singleton]; omega), append_assoc]
    rfl

/-! ### Round trips: base 64 -/

def word (a b c : UInt8) : Nat := 65536 * a.toNat + 256 * b.toNat + c.toNat

def quad (n : Nat) : Bytes := [t64e.getD (n >>> 18) 0, char64 (n >>> 12), char64 (n >>> 6), char64 n]

theorem t64d_t64e {j : Nat} (h : j < 64) : t64d.getD (t64e.getD j 0).toNat INVAL = j := by
  have hall : ∀ j < 64, t64d.getD (t64e.getD j 0).toNat INVAL = j := by decide
  exact hall j h

theorem char64_eq (n : Nat) : char64 n = t64e.getD (n % 64) 0 :=
  congrArg (t64e.getD · 0) (Nat.and_two_pow_sub_one_eq_mod n 6)

theorem dec64Loop_char {j b24 i : Nat} (h : j < 64) : dec64Loop lim (t64e.getD j 0 :: s) b24 i out =
    if i = 0 then dec64Loop lim s (j <<< 18) 1 out
    else if i = 1 then dec64Loop lim s (b24 ||| (j <<< 12)) 2 out
    else if i = 2 then dec64Loop lim s (b24 ||| (j <<< 6)) 3 out
    else if out.length + 3 > lim then out
    else dec64Loop lim s (b24 ||| j) 0
      (out ++ [UInt8.ofNat ((b24 ||| j) >>> 16), UInt8.ofNat ((b24 ||| j) >>> 8), UInt8.ofNat (b24 ||| j)]) := by
  rw [dec64Loop, t64d_t64e h]
  exact if_neg (show ¬ j = 255 by omega)

theorem dec64Loop_pad {b24 i : Nat} : dec64Loop lim (61 :: s) b24 i out = dec64Loop lim s b24 i out := by
  rw [dec64Loop]
  exact if_pos (by decide)

theorem dec64Loop_two {n b24 : Nat} (h : n < 2 ^ 24) :
    dec64Loop lim (t64e.getD (n >>> 18) 0 :: char64 (n >>> 12) :: s) b24 0 out =
      dec64Loop lim s (n / 4096 * 4096) 2 out := by
  have h1 : n >>> 18 = n / 262144 := shiftRight 18 rfl
  have h2 : n >>> 12 = n / 4096 := shiftRight 12 rfl
  have hor : (n / 262144) <<< 18 ||| (n / 4096 % 64) <<< 12 = n / 4096 * 4096 := by
    rw [Nat.shiftLeft_eq, Nat.shiftLeft_eq, or_eq_add (m := 262144) 18 rfl (Nat.mul_mod_left _ _) (by omega)]
    omega
  rw [h1, h2, char64_eq, dec64Loop_char (by omega), if_pos rfl, dec64Loop_char (Nat.mod_lt _ (by decide)),
    if_neg (by decide), if_pos rfl, hor]

theorem dec64Loop_three {n b24 : Nat} (h : n < 2 ^ 24) :
    dec64Loop lim (t64e.getD (n >>> 18) 0 :: char64 (n >>> 12) :: char64 (n >>> 6) :: s) b24 0 out =
      dec64Loop lim s (n / 64 * 64) 3 out := by
  have h3 : n >>> 6 = n / 64 := shiftRight 6 rfl
  have hor : n / 4096 * 4096 ||| (n / 64 % 64) <<< 6 = n / 64 * 64 := by
    rw [Nat.shiftLeft_eq, or_eq_add (m := 4096) 12 rfl (Nat.mul_mod_left _ _) (by omega)]
    omega
  rw [dec64Loop_two h, h3, char64_eq, dec64Loop_char (Nat.mod_lt _ (by decide)), if_neg (by decide),
    if_neg (by decide), if_pos rfl, hor]

theorem byte_eq {n : Nat} {b : UInt8} (h : n % 256 = b.toNat) : UInt8.ofNat n = b :=
  UInt8.toNat_inj.1 ((UInt8.toNat_ofNat').trans h)

theorem dec64Loop_quad {a b c : UInt8} {b24 : Nat} (h : out.length + 3 ≤ lim) :
    dec64Loop lim (quad (word a b c) ++ s) b24 0 out = dec64Loop lim s (word a b c) 0 (out ++ [a, b, c]) := by
  have ha := a.toNat_lt
  have hb := b.toNat_lt
  have hc := c.toNat_lt
  have hword : word a b c = 65536 * a.toNat + 256 * b.toNat + c.toNat := rfl
  have hor : word a b c / 64 * 64 ||| word a b c % 64 = word a b c := by
    rw [or_eq_add (m := 64) 6 rfl (Nat.mul_mod_left _ _) (Nat.mod_lt _ (by decide))]
    omega
  have h16 : word a b c >>> 16 = word a b c / 65536 := shiftRight 16 rfl
  have h8 : word a b c >>> 8 = word a b c / 256 := shiftRight 8 rfl
  rw [quad, cons_append, cons_append, cons_append, dec64Loop_three (by omega), cons_append,
    char64_eq, dec64Loop_char (Nat.mod_lt _ (by decide)), if_neg (by decide), if_neg (by decide), if_neg (by decide),
    if_neg (Nat.not_lt.2 h), hor, h16, h8, byte_eq (show _ % 256 = a.toNat by omega),
    byte_eq (show _ % 256 = b.toNat by omega), byte_eq (show _ % 256 = c.toNat by omega)]
  rfl

theorem word_eq (a b c : UInt8) : (a.toNat <<< 16) ||| (b.toNat <<< 8) ||| c.toNat = word a b c := by
  have ha := a.toNat_lt
  have hb := b.toNat_lt
  have hc := c.toNat_lt
  have hhigh : a.toNat * 2 ^ 16 ||| b.toNat * 2 ^ 8 = a.toNat * 2 ^ 16 + b.toNat * 2 ^ 8 :=
    or_eq_add (m := 65536) 16 rfl (by omega) (by omega)
  rw [Nat.shiftLeft_eq, Nat.shiftLeft_eq, hhigh, or_eq_add (m := 256) 8 rfl (by omega) hc, word]
  omega

/-- The characters of the first `k` groups. -/
def groups64 : Nat → Bytes → Bytes
  | 0, _ => []
  | k + 1, s => quad (word (s.getD 0 0) (s.getD 1 0) (s.getD 2 0)) ++ groups64 k (s.drop 3)

theorem groups64_length : ∀ (k : Nat) (s : Bytes), (groups64 k s).length = 4 * k
  | 0, _ => rfl
  | k + 1, s => by
    rw [groups64, length_append, groups64_length k]
    simp [quad]
    omega

theorem enc64Loop_eq : ∀ (k : Nat) (s out : Bytes), out.length + 4 * k < lim →
    enc64Loop lim k s out = (out ++ groups64 k s, some (s.drop (3 * k)))
  | 0, s, out, _ => by rw [enc64Loop, groups64, append_nil, Nat.mul_zero, drop_zero]
  | k + 1, s, out, h => by
    have hlen : (quad (word (s.getD 0 0) (s.getD 1 0) (s.getD 2 0))).length = 4 := rfl
    rw [enc64Loop, word_eq, if_neg (by omega)]
    refine (enc64Loop_eq k _ _ ?_).trans ?_
    · show (out ++ quad _).length + 4 * k < lim
      rw [length_append, hlen]
      omega
    · rw [groups64, ← append_assoc, drop_drop, show 3 * (k + 1) = 3 + 3 * k by omega]
      rfl

theorem take_three (h : 3 ≤ s.length) : s.take 3 = [s.getD 0 0, s.getD 1 0, s.getD 2 0] := by
  rcases s with _ | ⟨a, _ | ⟨b, _ | ⟨c, s⟩⟩⟩
  · exact absurd h (by decide)
  · exact absurd h (by decide : ¬ 3 ≤ 1)
  · exact absurd h (by decide : ¬ 3 ≤ 2)
  · rfl

theorem dec64Loop_groups {t : Bytes} : ∀ (k : Nat) (s out : Bytes) (b24 : Nat), out.length + 3 * k ≤ lim →
    3 * k ≤ s.length →
      ∃ b24', dec64Loop lim (groups64 k s ++ t) b24 0 out = dec64Loop lim t b24' 0 (out ++ s.take (3 * k))
  | 0, s, out, b24, _, _ => ⟨b24, by rw [groups64, Nat.mul_zero, take_zero, append_nil]; rfl⟩
  | k + 1, s, out, b24, h, hs => by
    obtain ⟨b24', heq⟩ := dec64Loop_groups k (s.drop 3) (out ++ s.take 3)
      (word (s.getD 0 0) (s.getD 1 0) (s.getD 2 0))
      (by rw [length_append, length_take]; omega) (by rw [length_drop]; omega)
    refine ⟨b24', ?_⟩
    rw [groups64, append_assoc, dec64Loop_quad (by omega), ← take_three (by omega), heq, append_assoc,
      ← take_add, show 3 * (k + 1) = 3 + 3 * k by omega]

/-- The characters of what is left when the groups are done. -/
def rest64 : Bytes → Bytes
  | [a] => [t64e.getD (word a 0 0 >>> 18) 0, char64 (word a 0 0 >>> 12), 61, 61]
  | [a, b] =>
    [t64e.getD (word a b 0 >>> 18) 0, char64 (word a b 0 >>> 12), char64 (word a b 0 >>> 6), 61]
  | _ => []

theorem enc64Tail_eq (hs : s.length < 3) (h : out.length + (rest64 s).length < lim) :
    enc64Tail lim s.length s out = out ++ rest64 s := by
  rcases s with _ | ⟨a, _ | ⟨b, _ | ⟨c, s⟩⟩⟩
  · exact (append_nil out).symm
  · have hw : a.toNat <<< 16 = word a 0 0 := by rw [Nat.shiftLeft_eq, word]; simp; omega
    have hroom : ¬ out.length + 4 ≥ lim := Nat.not_le.2 h
    show (if out.length + 4 ≥ lim then out else _) = _
    rw [if_neg hroom]
    show out ++ [t64e.getD ((a.toNat <<< 16) >>> 18) 0, char64 ((a.toNat <<< 16) >>> 12), 61, 61] = _
    rw [hw]
    rfl
  · have hw : (a.toNat <<< 16) ||| (b.toNat <<< 8) = word a b 0 := by
      rw [← word_eq a b 0]
      exact (Nat.or_zero _).symm
    have hroom : ¬ out.length + 4 ≥ lim := Nat.not_le.2 h
    show (if out.length + 4 ≥ lim then out else _) = _
    rw [if_neg hroom]
    show out ++ [t64e.getD (((a.toNat <<< 16) ||| (b.toNat <<< 8)) >>> 18) 0,
      char64 (((a.toNat <<< 16) ||| (b.toNat <<< 8)) >>> 12),
      char64 (((a.toNat <<< 16) ||| (b.toNat <<< 8)) >>> 6), 61] = _
    rw [hw]
    rfl
  · exact absurd hs (by simp)

theorem dec64Loop_rest {b24 : Nat} (hs : s.length < 3) (h : out.length + s.length ≤ lim) :
    dec64Loop lim (rest64 s) b24 0 out = out ++ s := by
  rcases s with _ | ⟨a, _ | ⟨b, _ | ⟨c, s⟩⟩⟩
  · exact (append_nil out).symm
  · have ha := a.toNat_lt
    have hword : word a 0 0 = 65536 * a.toNat := by simp [word]
    have h16 : (word a 0 0 / 4096 * 4096) >>> 16 = word a 0 0 / 4096 * 4096 / 65536 := shiftRight 16 rfl
    have hroom : ¬ out.length + 1 > lim := Nat.not_lt.2 h
    rw [rest64, dec64Loop_two (by omega), dec64Loop_pad, dec64Loop_pad, dec64Loop, dec64End, if_pos rfl,
      if_neg hroom, h16, byte_eq (show _ % 256 = a.toNat by omega)]
  · have ha := a.toNat_lt
    have hb := b.toNat_lt
    have hword : word a b 0 = 65536 * a.toNat + 256 * b.toNat := by simp [word]
    have h16 : (word a b 0 / 64 * 64) >>> 16 = word a b 0 / 64 * 64 / 65536 := shiftRight 16 rfl
    have h8 : (word a b 0 / 64 * 64) >>> 8 = word a b 0 / 64 * 64 / 256 := shiftRight 8 rfl
    have hroom : ¬ out.length + 2 > lim := Nat.not_lt.2 h
    rw [rest64, dec64Loop_three (by omega), dec64Loop_pad, dec64Loop, dec64End, if_neg (by decide), if_pos rfl,
      if_neg hroom, h16, h8, byte_eq (show _ % 256 = a.toNat by omega),
      byte_eq (show _ % 256 = b.toNat by omega)]
  · exact absurd hs (by simp)

/-! ### Round trips: base 32 -/

theorem index32_tab {j : Nat} (h : j < 32) : index32 (tab.getD j 0) = j := by
  have hall : ∀ j < 32, index32 (tab.getD j 0) = j := by decide
  exact hall j h

theorem digits32_eq (a b c d e : UInt8) (s : Bytes) : digits32 (a :: b :: c :: d :: e :: s) =
    [a.toNat / 8, a.toNat % 8 * 4 + b.toNat / 64, b.toNat / 2 % 32, b.toNat % 2 * 16 + c.toNat / 16,
      c.toNat % 16 * 2 + d.toNat / 128, d.toNat / 4 % 32, d.toNat % 4 * 8 + e.toNat / 32, e.toNat % 32] := by
  have ha := a.toNat_lt
  have hb := b.toNat_lt
  have hc := c.toNat_lt
  have hd := d.toNat_lt
  have he := e.toNat_lt
  have hsrc : digits32 (a :: b :: c :: d :: e :: s) =
      [0x1f &&& (a.toNat >>> 3), (0x1c &&& (a.toNat <<< 2)) ||| (0x03 &&& (b.toNat >>> 6)),
       0x1f &&& (b.toNat >>> 1), (0x10 &&& (b.toNat <<< 4)) ||| (0x0f &&& (c.toNat >>> 4)),
       (0x1e &&& (c.toNat <<< 1)) ||| (0x01 &&& (d.toNat >>> 7)), 0x1f &&& (d.toNat >>> 2),
       (0x18 &&& (d.toNat <<< 3)) ||| (0x07 &&& (e.toNat >>> 5)), 0x1f &&& e.toNat] := rfl
  have h0 : 0x1f &&& (a.toNat >>> 3) = a.toNat / 8 := by
    rw [mask (m := 31) (n := 32) 5 _ rfl rfl, shiftRight (n := 8) 3 rfl]
    omega
  have h1 : (0x1c &&& (a.toNat <<< 2)) ||| (0x03 &&& (b.toNat >>> 6)) = a.toNat % 8 * 4 + b.toNat / 64 :=
    join 3 2 6 _ rfl rfl rfl rfl rfl (by omega)
  have h2 : 0x1f &&& (b.toNat >>> 1) = b.toNat / 2 % 32 := by
    rw [mask (m := 31) (n := 32) 5 _ rfl rfl, shiftRight (n := 2) 1 rfl]
  have h3 : (0x10 &&& (b.toNat <<< 4)) ||| (0x0f &&& (c.toNat >>> 4)) = b.toNat % 2 * 16 + c.toNat / 16 :=
    join 1 4 4 _ rfl rfl rfl rfl rfl (by omega)
  have h4 : (0x1e &&& (c.toNat <<< 1)) ||| (0x01 &&& (d.toNat >>> 7)) = c.toNat % 16 * 2 + d.toNat / 128 :=
    join 4 1 7 _ rfl rfl rfl rfl rfl (by omega)
  have h5 : 0x1f &&& (d.toNat >>> 2) = d.toNat / 4 % 32 := by
    rw [mask (m := 31) (n := 32) 5 _ rfl rfl, shiftRight (n := 4) 2 rfl]
  have h6 : (0x18 &&& (d.toNat <<< 3)) ||| (0x07 &&& (e.toNat >>> 5)) = d.toNat % 4 * 8 + e.toNat / 32 :=
    join 2 3 5 _ rfl rfl rfl rfl rfl (by omega)
  have h7 : 0x1f &&& e.toNat = e.toNat % 32 := mask (m := 31) (n := 32) 5 _ rfl rfl
  rw [hsrc, h0, h1, h2, h3, h4, h5, h6, h7]

theorem bytes32_eq {u0 u1 u2 u3 u4 u5 u6 u7 : Nat} (h0 : u0 < 32) (h1 : u1 < 32) (h2 : u2 < 32) (h3 : u3 < 32)
    (h4 : u4 < 32) (h5 : u5 < 32) (h6 : u6 < 32) (h7 : u7 < 32) (t : Bytes) :
    bytes32 (chars32 [u0, u1, u2, u3, u4, u5, u6, u7] ++ t) =
      [UInt8.ofNat (u0 * 8 + u1 / 4), UInt8.ofNat (u1 % 4 * 64 + u2 * 2 + u3 / 16), UInt8.ofNat (u3 % 16 * 16 + u4 / 2),
        UInt8.ofNat (u4 % 2 * 128 + u5 * 4 + u6 / 8), UInt8.ofNat (u6 % 8 * 32 + u7)] := by
  have hu : bytes32 (chars32 [u0, u1, u2, u3, u4, u5, u6, u7] ++ t) =
      [UInt8.ofNat ((u0 <<< 3) ||| (0x7 &&& (u1 >>> 2))),
       UInt8.ofNat (((0x3 &&& u1) <<< 6) ||| (u2 <<< 1) ||| (0x1 &&& (u3 >>> 4))),
       UInt8.ofNat (((0xf &&& u3) <<< 4) ||| (0xf &&& (u4 >>> 1))),
       UInt8.ofNat (((0x1 &&& u4) <<< 7) ||| (u5 <<< 2) ||| (0x3 &&& (u6 >>> 3))),
       UInt8.ofNat (((0x7 &&& u6) <<< 5) ||| u7)] := by
    simp only [bytes32, chars32, map_cons, cons_append, getD_cons_zero, getD_cons_succ,
      index32_tab h0, index32_tab h1, index32_tab h2, index32_tab h3, index32_tab h4, index32_tab h5,
      index32_tab h6, index32_tab h7]
  have e0 : (u0 <<< 3) ||| (0x7 &&& (u1 >>> 2)) = u0 * 8 + u1 / 4 := by
    rw [mask (m := 7) (n := 8) 3 _ rfl rfl, shiftRight (n := 4) 2 rfl, Nat.shiftLeft_eq,
      or_eq_add (m := 8) 3 rfl (Nat.mul_mod_left _ _) (Nat.mod_lt _ (by decide))]
    omega
  have e1 : ((0x3 &&& u1) <<< 6) ||| (u2 <<< 1) ||| (0x1 &&& (u3 >>> 4)) = u1 % 4 * 64 + u2 * 2 + u3 / 16 := by
    have hhigh : u1 % 4 * 64 ||| u2 * 2 = u1 % 4 * 64 + u2 * 2 :=
      or_eq_add (m := 64) 6 rfl (Nat.mul_mod_left _ _) (by omega)
    rw [mask (m := 3) (n := 4) 2 _ rfl rfl, mask (m := 1) (n := 2) 1 _ rfl rfl,
      shiftRight (n := 16) 4 rfl, Nat.shiftLeft_eq, Nat.shiftLeft_eq]
    show u1 % 4 * 64 ||| u2 * 2 ||| u3 / 16 % 2 = _
    rw [hhigh, or_eq_add (m := 2) 1 rfl (by omega) (Nat.mod_lt _ (by decide))]
    omega
  have e2 : ((0xf &&& u3) <<< 4) ||| (0xf &&& (u4 >>> 1)) = u3 % 16 * 16 + u4 / 2 := by
    rw [mask (m := 15) (n := 16) 4 _ rfl rfl, mask (m := 15) (n := 16) 4 _ rfl rfl,
      shiftRight (n := 2) 1 rfl, Nat.shiftLeft_eq,
      or_eq_add (m := 16) 4 rfl (Nat.mul_mod_left _ _) (Nat.mod_lt _ (by decide))]
    omega
  have e3 : ((0x1 &&& u4) <<< 7) ||| (u5 <<< 2) ||| (0x3 &&& (u6 >>> 3)) = u4 % 2 * 128 + u5 * 4 + u6 / 8 := by
    have hhigh : u4 % 2 * 128 ||| u5 * 4 = u4 % 2 * 128 + u5 * 4 :=
      or_eq_add (m := 128) 7 rfl (Nat.mul_mod_left _ _) (by omega)
    rw [mask (m := 1) (n := 2) 1 _ rfl rfl, mask (m := 3) (n := 4) 2 _ rfl rfl,
      shiftRight (n := 8) 3 rfl, Nat.shiftLeft_eq, Nat.shiftLeft_eq]
    show u4 % 2 * 128 ||| u5 * 4 ||| u6 / 8 % 4 = _
    rw [hhigh, or_eq_add (m := 4) 2 rfl (by omega) (Nat.mod_lt _ (by decide))]
    omega
  have e4 : ((0x7 &&& u6) <<< 5) ||| u7 = u6 % 8 * 32 + u7 := by
    rw [mask (m := 7) (n := 8) 3 _ rfl rfl, Nat.shiftLeft_eq, or_eq_add (m := 32) 5 rfl
      (Nat.mul_mod_left _ _) h7]
  rw [hu, e0, e1, e2, e3, e4]

theorem bytes32_digits32 (a b c d e : UInt8) (s t : Bytes) :
    bytes32 (chars32 (digits32 (a :: b :: c :: d :: e :: s)) ++ t) = [a, b, c, d, e] := by
  have ha := a.toNat_lt
  have hb := b.toNat_lt
  have hc := c.toNat_lt
  have hd := d.toNat_lt
  have he := e.toNat_lt
  rw [digits32_eq, bytes32_eq (by omega) (by omega) (by omega) (by omega) (by omega) (by omega) (by omega) (by omega),
    byte_eq (b := a) (by omega), byte_eq (b := b) (by omega), byte_eq (b := c) (by omega), byte_eq (b := d) (by omega),
    byte_eq (b := e) (by omega)]

theorem bytes32_tail32 (a : UInt8) (s : Bytes) : (bytes32 (chars32 (tail32 (a :: s) 1))).take 1 = [a] := by
  have ha := a.toNat_lt
  have h0 : 0x1f &&& (a.toNat >>> 3) = a.toNat / 8 := by
    rw [mask (m := 31) (n := 32) 5 _ rfl rfl, shiftRight (n := 8) 3 rfl]
    omega
  have h1 : 0x1c &&& (a.toNat <<< 2) = a.toNat % 8 * 4 := mask_shiftLeft (m := 28) (n := 8)
    (q := 4) 3 2 _ rfl rfl rfl
  have hbyte : (a.toNat / 8) <<< 3 ||| (0x7 &&& ((a.toNat % 8 * 4) >>> 2)) = a.toNat := by
    rw [mask (m := 7) (n := 8) 3 _ rfl rfl, shiftRight (n := 4) 2 rfl, Nat.shiftLeft_eq,
      or_eq_add (m := 8) 3 rfl (Nat.mul_mod_left _ _) (Nat.mod_lt _ (by decide))]
    omega
  have htail : tail32 (a :: s) 1 = [a.toNat / 8, a.toNat % 8 * 4] := by
    rw [← h0, ← h1]
    rfl
  have hu : (bytes32 (chars32 [a.toNat / 8, a.toNat % 8 * 4])).take 1 =
      [UInt8.ofNat ((index32 (tab.getD (a.toNat / 8) 0) <<< 3) |||
        (0x7 &&& (index32 (tab.getD (a.toNat % 8 * 4) 0) >>> 2)))] := rfl
  rw [htail, hu, index32_tab (by omega), index32_tab (by omega), hbyte, UInt8.ofNat_toNat]

/-- The characters of the first `k` groups. -/
def groups32 : Nat → Bytes → Bytes
  | 0, _ => []
  | k + 1, s => chars32 (digits32 s) ++ groups32 k (s.drop 5)

theorem groups32_length : ∀ (k : Nat) (s : Bytes), (groups32 k s).length = 8 * k
  | 0, _ => rfl
  | k + 1, s => by
    rw [groups32, length_append, groups32_length k]
    simp [chars32, digits32]
    omega

theorem enc32Loop_eq (r : Nat) : ∀ (k : Nat) (s out : Bytes),
    enc32Loop k s r out = out ++ (groups32 k s ++ chars32 (tail32 (s.drop (5 * k)) r))
  | 0, s, out => by rw [enc32Loop, groups32, Nat.mul_zero, drop_zero, nil_append]
  | k + 1, s, out => by
    rw [enc32Loop, enc32Loop_eq r k, groups32, drop_drop, append_assoc, append_assoc,
      show 5 * (k + 1) = 5 + 5 * k by omega]

theorem exists_five (h : 5 ≤ s.length) : ∃ a b c d e t, s = a :: b :: c :: d :: e :: t := by
  rcases s with _ | ⟨a, _ | ⟨b, _ | ⟨c, _ | ⟨d, _ | ⟨e, t⟩⟩⟩⟩⟩
  case cons.cons.cons.cons.cons => exact ⟨a, b, c, d, e, t, rfl⟩
  all_goals exact absurd h (by simp)

theorem dec32Loop_groups {t : Bytes} {r : Nat} : ∀ (k : Nat) (s out : Bytes), 5 * k ≤ s.length →
    dec32Loop k (groups32 k s ++ t) r out = dec32Loop 0 t r (out ++ s.take (5 * k))
  | 0, s, out, _ => by rw [groups32, Nat.mul_zero, take_zero, append_nil, nil_append]
  | k + 1, s, out, h => by
    obtain ⟨a, b, c, d, e, s, rfl⟩ := exists_five (show 5 ≤ s.length by omega)
    have hstep : dec32Loop (k + 1) (groups32 (k + 1) (a :: b :: c :: d :: e :: s) ++ t) r out =
        dec32Loop k (groups32 k s ++ t) r
          (out ++ bytes32 (chars32 (digits32 (a :: b :: c :: d :: e :: s)) ++ (groups32 k s ++ t))) := rfl
    have hlen : 5 * k ≤ s.length := by
      simp only [length_cons] at h
      omega
    rw [hstep, dec32Loop_groups k s _ hlen, bytes32_digits32, append_assoc,
      show 5 * (k + 1) = 5 * k + 5 by omega]
    rfl

theorem dec32Loop_text {x : Bytes} (h : x.length % 5 ≤ 1) :
    let t := enc32Loop (x.length / 5) x (x.length % 5) []
    t.length = (8 * x.length + 4) / 5 ∧ dec32Loop (t.length / 8) t (t.length % 8) [] = ⟨x, x.length⟩ := by
  intro t
  have ht : t = groups32 (x.length / 5) x ++ chars32 (tail32 (x.drop (5 * (x.length / 5))) (x.length % 5)) :=
    (enc32Loop_eq _ _ _ _).trans (nil_append _)
  have htake : x.take (5 * (x.length / 5)) ++ x.drop (5 * (x.length / 5)) = x := take_append_drop _ _
  have hrest : (x.drop (5 * (x.length / 5))).length = x.length % 5 := by
    rw [length_drop]
    omega
  have hlen : t.length = 8 * (x.length / 5) + (tail32 (x.drop (5 * (x.length / 5))) (x.length % 5)).length := by
    rw [ht, length_append, groups32_length, chars32, length_map]
  rw [tail32_length _ (Nat.mod_lt _ (by decide))] at hlen
  rcases Nat.le_one_iff_eq_zero_or_eq_one.1 h with h0 | h1
  · rw [h0, if_pos rfl] at hlen
    have hnil : x.drop (5 * (x.length / 5)) = [] := eq_nil_of_length_eq_zero (hrest.trans h0)
    rw [hnil, append_nil] at htake
    refine ⟨by omega, ?_⟩
    rw [show t.length / 8 = x.length / 5 by omega, show t.length % 8 = 0 by omega, ht,
      dec32Loop_groups _ _ _ (by omega), htake, h0]
    simp [dec32Loop, count32]
  rw [h1, if_neg (by decide)] at hlen
  obtain ⟨a, ha⟩ := length_eq_one_iff.1 (hrest.trans h1)
  rw [ha] at htake
  refine ⟨by omega, ?_⟩
  rw [show t.length / 8 = x.length / 5 by omega, show t.length % 8 = 2 by omega, ht,
    dec32Loop_groups _ _ _ (by omega), h1, ha, dec32Loop, if_neg (by decide)]
  show Coded.mk (([] ++ _) ++ (bytes32 (chars32 (tail32 [a] 1))).take 1) _ = _
  rw [show count32 2 = 1 from rfl, bytes32_tail32, nil_append, htake]

variable {x : Bytes} {room room' : Nat}

theorem dec16_enc16 (h : 2 * x.length < room) (h' : x.length ≤ room') : ∃ t, t.length = 2 * x.length ∧
    enc16 room x = ⟨t ++ [0], t.length⟩ ∧ dec16 room' t = ⟨x, x.length⟩ := by
  refine ⟨x.flatMap pair16, ?_, ?_, ?_⟩
  · induction x with
    | nil => rfl
    | cons c x ih =>
      rw [length_cons] at h h' ⊢
      rw [flatMap_cons, length_append, ih (by omega) (by omega)]
      simp [pair16]
      omega
  · rw [enc16, enc16Loop_eq x [] (by rw [length_nil]; omega), nil_append]
  · rw [dec16, dec16Loop_eq x [] (by rw [length_nil]; omega), nil_append]

theorem rest64_length (h : s.length < 3) : (rest64 s).length = 4 * ((s.length + 2) / 3) := by
  rcases s with _ | ⟨a, _ | ⟨b, _ | ⟨c, s⟩⟩⟩
  · rfl
  · simp [rest64]
  · simp [rest64]
  · exact absurd h (by simp)

theorem dec64_enc64 (h : 4 * ((x.length + 2) / 3) < room) (h' : x.length ≤ room') :
    ∃ t, t.length = 4 * ((x.length + 2) / 3) ∧ enc64 room x = ⟨t ++ [0], t.length⟩ ∧
      dec64 room' t = ⟨x, x.length⟩ := by
  have hrest : (x.drop (3 * (x.length / 3))).length = x.length % 3 := by
    rw [length_drop]
    omega
  have hmod : x.length % 3 < 3 := Nat.mod_lt _ (by decide)
  have hlen := rest64_length (hrest ▸ hmod)
  rw [hrest] at hlen
  refine ⟨groups64 (x.length / 3) x ++ rest64 (x.drop (3 * (x.length / 3))), ?_, ?_, ?_⟩
  · rw [length_append, groups64_length, hlen]
    omega
  · have hroom : (groups64 (x.length / 3) x).length + (rest64 (x.drop (3 * (x.length / 3)))).length < room := by
      rw [groups64_length, hlen]
      omega
    have htail := enc64Tail_eq (hrest ▸ hmod) hroom
    rw [hrest] at htail
    rw [enc64, enc64Loop_eq _ _ _ (by rw [length_nil]; omega), nil_append]
    dsimp only [Option.elim]
    rw [htail]
  · have hroom : ([] : Bytes).length + 3 * (x.length / 3) ≤ room' := by
      rw [length_nil]
      omega
    obtain ⟨b24, heq⟩ := dec64Loop_groups (t := rest64 (x.drop (3 * (x.length / 3)))) _ x [] 0 hroom (by omega)
    rw [dec64Loop_rest (hrest ▸ hmod) (by rw [nil_append, length_take, hrest]; omega), nil_append,
      take_append_drop] at heq
    rw [dec64, heq]

/-- The base 32 text gives the bytes back exactly when at most one is left after the groups of five. -/
theorem dec32_enc32_iff (h : (8 * x.length + 4) / 5 < room) (h' : x.length ≤ room') :
    (∃ t, enc32 room x = some ⟨t ++ [0], t.length⟩ ∧ dec32 room' t = some ⟨x, x.length⟩) ↔
      x.length % 5 ≤ 1 ∧ 8 * x.length + 4 < 2 ^ 31 ∧ room' + 1 < 2 ^ 31 := by
  have hmod : x.length % 5 < 5 := Nat.mod_lt _ (by decide)
  obtain ⟨t, ht⟩ : ∃ t, enc32Loop (x.length / 5) x (x.length % 5) [] = t := ⟨_, rfl⟩
  have hlen := enc32Loop_length (x.length / 5) x (x.length % 5) []
  rw [ht, tail32_length x hmod, length_nil] at hlen
  unfold enc32
  rw [if_neg (Nat.not_le.2 h)]
  dsimp only
  rw [ht]
  constructor
  · rintro ⟨u, henc, hdec⟩
    split_ifs at henc with hint
    obtain ⟨hu, -⟩ := Coded.mk.inj (Option.some.inj henc)
    obtain rfl := append_cancel_right hu
    unfold dec32 at hdec
    split_ifs at hdec with hint' hroom
    · have hnil : ([] : Bytes) = x ∧ (-1 : Int) = x.length := Coded.mk.inj (Option.some.inj hdec)
      exact absurd hnil.2 (by omega)
    have hout := dec32Loop_out (t.length / 8) t (t.length % 8) [] (Nat.mod_lt _ (by decide))
    rw [Option.some.inj hdec, length_nil] at hout
    dsimp only at hout
    refine ⟨?_, hint, hint'.1⟩
    by_contra hgt
    have hr : x.length % 5 = 2 ∨ x.length % 5 = 3 ∨ x.length % 5 = 4 := by omega
    have hne : x.length % 5 ≠ 0 := by omega
    rw [if_neg hne] at hlen
    rcases hr with hr | hr | hr
    · rw [show t.length % 8 = 3 by omega, if_pos (by decide)] at hout
      omega
    · rw [show t.length % 8 = 4 by omega, if_neg (by decide), show count32 4 = 2 from rfl] at hout
      omega
    · rw [show t.length % 8 = 5 by omega, if_neg (by decide), show count32 5 = 3 from rfl] at hout
      omega
  · rintro ⟨hone, hint, hint'⟩
    have htext := dec32Loop_text hone
    rw [ht] at htext
    obtain ⟨hlen, hdec⟩ := htext
    refine ⟨t, by rw [if_pos hint], ?_⟩
    rw [dec32, if_pos ⟨hint', by omega⟩, if_neg (by omega), hdec]

theorem enc32_length (h : (8 * x.length + 4) / 5 < room) (hone : x.length % 5 ≤ 1) {t : Bytes}
    (ht : enc32 room x = some ⟨t ++ [0], t.length⟩) : t.length = (8 * x.length + 4) / 5 := by
  unfold enc32 at ht
  rw [if_neg (Nat.not_le.2 h)] at ht
  split_ifs at ht
  obtain ⟨hu, -⟩ := Coded.mk.inj (Option.some.inj ht)
  rw [← append_cancel_right hu]
  exact (dec32Loop_text hone).1

theorem enc32_le_iff (lim : Nat) (x : Bytes) :
    (∃ c, enc32 lim x = some c ∧ c.out.length ≤ lim) ↔ 8 * x.length + 4 < 2 ^ 31 := by
  have hmod : x.length % 5 < 5 := Nat.mod_lt _ (by decide)
  have hlen := enc32Loop_length (x.length / 5) x (x.length % 5) []
  rw [tail32_length x hmod, length_nil] at hlen
  unfold enc32
  split_ifs with hint hroom
  · exact iff_of_true ⟨_, rfl, zero_le⟩ hint
  · refine iff_of_true ⟨_, rfl, ?_⟩ hint
    dsimp only
    rw [length_append, hlen, length_singleton]
    split_ifs <;> omega
  · exact iff_of_false (by simp) hint

theorem dec32_le_iff (lim : Nat) (x : Bytes) : (∃ c, dec32 lim x = some c ∧ c.out.length ≤ lim) ↔
    lim + 1 < 2 ^ 31 ∧ 5 * x.length + 7 < 2 ^ 31 ∧
      ¬ (x.length % 8 = 0 ∧ 0 < x.length ∧ lim + 1 = 5 * (x.length / 8)) := by
  have hmod : x.length % 8 < 8 := Nat.mod_lt _ (by decide)
  have hout := dec32Loop_out (x.length / 8) x (x.length % 8) [] hmod
  unfold dec32
  split_ifs with hint hroom
  · exact iff_of_true ⟨_, rfl, zero_le⟩ ⟨hint.1, hint.2, by omega⟩
  · simp only [Option.some.injEq, exists_eq_left', hout, hint.1, hint.2, true_and, length_nil]
    unfold count32
    obtain ⟨r, hr⟩ : ∃ r, x.length % 8 = r := ⟨_, rfl⟩
    rw [hr] at hmod ⊢
    interval_cases r <;> simp <;> omega
  · exact iff_of_false (by simp) fun h => hint ⟨h.1, h.2.1⟩

/-- Base 16 and base 64 are right for every string and within every limit. Base 32 gives back the strings whose last
group of five is full or a single byte, and `dec32` keeps its limit but for full groups and one byte of room too
little; its checks are computed in `int`. -/
theorem codes_iff (x : Bytes) (lim room room' : Nat) (hlim : 1 ≤ lim) (hroom : x.length ≤ room') :
    (2 * x.length < room → ∃ t, t.length = 2 * x.length ∧ enc16 room x = ⟨t ++ [0], t.length⟩ ∧
      dec16 room' t = ⟨x, x.length⟩) ∧
    (4 * ((x.length + 2) / 3) < room → ∃ t, t.length = 4 * ((x.length + 2) / 3) ∧
      enc64 room x = ⟨t ++ [0], t.length⟩ ∧ dec64 room' t = ⟨x, x.length⟩) ∧
    ((8 * x.length + 4) / 5 < room →
      ((∃ t, enc32 room x = some ⟨t ++ [0], t.length⟩ ∧ dec32 room' t = some ⟨x, x.length⟩) ↔
        x.length % 5 ≤ 1 ∧ 8 * x.length + 4 < 2 ^ 31 ∧ room' + 1 < 2 ^ 31) ∧
      (x.length % 5 ≤ 1 → ∀ t, enc32 room x = some ⟨t ++ [0], t.length⟩ → t.length = (8 * x.length + 4) / 5)) ∧
    ((enc16 lim x).out.length ≤ lim ∧ (dec16 lim x).out.length ≤ lim ∧ (enc64 lim x).out.length ≤ lim ∧
      (dec64 lim x).out.length ≤ lim) ∧
    ((∃ c, enc32 lim x = some c ∧ c.out.length ≤ lim) ↔ 8 * x.length + 4 < 2 ^ 31) ∧
    ((∃ c, dec32 lim x = some c ∧ c.out.length ≤ lim) ↔ lim + 1 < 2 ^ 31 ∧ 5 * x.length + 7 < 2 ^ 31 ∧
      ¬ (x.length % 8 = 0 ∧ 0 < x.length ∧ lim + 1 = 5 * (x.length / 8))) := by
  refine ⟨fun h => dec16_enc16 h hroom, fun h => dec64_enc64 h hroom, fun h => ⟨dec32_enc32_iff h hroom, ?_⟩,
    ⟨enc16_le hlim x, dec16_le x, enc64_le hlim x, dec64_le x⟩, enc32_le_iff lim x, dec32_le_iff lim x⟩
  intro hone t ht
  exact enc32_length h hone ht

/-- Ten characters of base 32 in a limit of four bytes. -/
theorem codes_iff_tenChars : ∃ c, dec32 4 (replicate 10 97) = some c ∧ c.out.length ≤ 4 :=
  (codes_iff (replicate 10 97) 4 0 10 (by decide) (by decide)).2.2.2.2.2.2 (by decide)

/-- Two bytes do not come back from base 32, and eight characters overrun a limit of four bytes. -/
theorem not_codes : ¬ (∃ t, enc32 100 [1, 2] = some ⟨t ++ [0], t.length⟩ ∧ dec32 100 t = some ⟨[1, 2], 2⟩) ∧
    ∃ c, dec32 4 (replicate 8 97) = some c ∧ 4 < c.out.length := by
  refine ⟨?_, _, rfl, by decide⟩
  rintro ⟨t, henc, hdec⟩
  have htext : enc32 100 [1, 2] = some ⟨[50, 54, 51, 0], 3⟩ := by decide
  rw [htext] at henc
  obtain ⟨ht, -⟩ := Coded.mk.inj (Option.some.inj henc)
  obtain rfl : t = [50, 54, 51] := (append_cancel_right (show [50, 54, 51] ++ [0] = t ++ [0] from ht)).symm
  exact absurd hdec (by decide)

end Node9.TextEnc
