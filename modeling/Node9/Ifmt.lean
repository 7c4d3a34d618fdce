import Node9.DofmtUnits

/-!
# The text of an integer (`_ifmt`)

`numeral` is the digits with their separators, without a bound on the buffer. `itext` has room for it, the sign, the
prefix and the zeros exactly when it has room for it and the sign (`itext_iff`), since the zeros stop in time; and only
binary digits with separators can be too many (`fits_iff`). What is printed then reads as the argument: `ifmt_iff`.
-/

namespace Node9.Dofmt
open Buf Rune Numerals List
open Option hiding map_map or_assoc

/-! ### Digits and separators -/

section Digits
variable {r base : Nat} {comma : Bool}

/-- The next digit, with a separator if one is due. -/
def nextDigit (r base : Nat) (comma : Bool) (u : Nat) (t : Bytes) : Bytes :=
  conv r (u % base) :: (if comma ∧ t.length % 4 = 3 then 44 :: t else t)

def digitText (r base : Nat) (comma : Bool) : Nat → Nat → Bytes → Bytes
  | 0, _, t => t
  | fuel + 1, u, t => if u = 0 then t else digitText r base comma fuel (u / base) (nextDigit r base comma u t)

theorem nextDigit_length (r base : Nat) (comma : Bool) (u : Nat) (t : Bytes) : (nextDigit r base comma u t).length =
    t.length + if comma ∧ t.length % 4 = 3 then 2 else 1 := by
  unfold nextDigit
  split_ifs <;> rfl

theorem le_digitText (fuel u : Nat) (t : Bytes) : t.length ≤ (digitText r base comma fuel u t).length := by
  induction fuel generalizing u t with
  | zero => exact le_rfl
  | succ fuel ih =>
    rw [digitText]
    split_ifs with hu
    · exact le_rfl
    · refine le_trans ?_ (ih _ _)
      rw [nextDigit_length]
      exact Nat.le_add_right ..

theorem store_eq (c : UInt8) (t : Bytes) : store c t = if (c :: t).length ≤ 70 then some (c :: t) else none := rfl

theorem turn_eq (u : Nat) {t : Bytes} {β : Type} (k : Nat × Bytes → Option β) :
    ((if comma = true ∧ t.length % 4 = 3 then (store 44 t).map fun t' => (t.length + 1, t') else some (t.length, t)).bind
      fun x => (store (conv r (u % base)) x.2).bind fun t' => k (x.1 + 1, t')) =
      if (nextDigit r base comma u t).length ≤ 70 then
        k ((nextDigit r base comma u t).length, nextDigit r base comma u t)
      else none := by
  unfold nextDigit
  simp only [store_eq]
  by_cases hc : comma = true ∧ t.length % 4 = 3
  · simp only [if_pos hc, length_cons]
    by_cases h1 : t.length + 1 ≤ 70
    · rw [if_pos h1, map_some, bind_some]
      by_cases h2 : t.length + 1 + 1 ≤ 70
      · simp only [length_cons, if_pos h2, bind_some]
      · simp only [length_cons, if_neg h2, bind_none]
    · rw [if_neg h1, if_neg (by omega), map_none, bind_none]
  · simp only [if_neg hc, length_cons, bind_some]
    split_ifs <;> rfl

theorem digits_eq {fuel k u : Nat} (t : Bytes) (hu : u < base ^ k) (hk : k < fuel) (ht : t.length ≤ 70) :
    digits r base comma fuel u (t.length, t) =
      if (digitText r base comma fuel u t).length ≤ 70 then
        some ((digitText r base comma fuel u t).length, digitText r base comma fuel u t)
      else none := by
  induction fuel generalizing k u t with
  | zero => exact absurd hk (Nat.not_lt_zero k)
  | succ fuel ih =>
    rw [digits, digitText]
    by_cases hzero : u = 0
    · rw [if_pos hzero, if_pos hzero, if_pos ht]
    rw [if_neg hzero, if_neg hzero, turn_eq]
    obtain ⟨k, rfl⟩ : ∃ k', k = k' + 1 := by
      refine Nat.exists_eq_succ_of_ne_zero ?_
      rintro rfl
      exact hzero (Nat.lt_one_iff.1 hu)
    have hdiv : u / base < base ^ k := Nat.div_lt_of_lt_mul (by rwa [Nat.pow_succ, Nat.mul_comm] at hu)
    by_cases hnext : (nextDigit r base comma u t).length ≤ 70
    · rw [if_pos hnext, ih _ hdiv (by omega) hnext]
    · have hle : (nextDigit r base comma u t).length ≤
          (digitText r base comma fuel (u / base) (nextDigit r base comma u t)).length := le_digitText ..
      rw [if_neg hnext, if_neg (by omega)]

/-- How many characters so many digits take. -/
def separated (comma : Bool) (k : Nat) : Nat := if comma then k + (k - 1) / 3 else k

theorem digitText_length (hb : 1 < base) {fuel k u : Nat} {t : Bytes} (hu : u < base ^ fuel)
    (ht : t.length = separated comma k) :
    (digitText r base comma fuel u t).length = separated comma (k + (Nat.digits base u).length) := by
  induction fuel generalizing k u t with
  | zero =>
    obtain rfl : u = 0 := Nat.lt_one_iff.1 hu
    rw [digitText, Nat.digits_zero, ht]
    rfl
  | succ fuel ih =>
    rw [digitText]
    split_ifs with hzero
    · rw [hzero, Nat.digits_zero, ht]
      rfl
    have hdiv : u / base < base ^ fuel := Nat.div_lt_of_lt_mul (by rwa [Nat.pow_succ, Nat.mul_comm] at hu)
    have hnext : (nextDigit r base comma u t).length = separated comma (k + 1) := by
      rw [nextDigit_length, ht]
      unfold separated
      cases comma
      · rfl
      · simp only [if_true, true_and]
        split_ifs <;> omega
    rw [ih hdiv hnext, Nat.digits_def' hb (Nat.pos_of_ne_zero hzero), length_cons]
    congr 1
    omega

theorem conv_cases {d : Nat} (hd : d < 16) : digitVal (conv r d) = some d ∧ conv r d ≠ 44 ∧ conv r d < 128 := by
  have hall : ∀ d < 16, digitVal (Numerals.conv d) = some d ∧ Numerals.conv d ≠ 44 ∧ Numerals.conv d < 128 := by decide
  have hupper : ∀ d < 16, 10 ≤ d → digitVal (UInt8.ofNat (55 + d)) = some d ∧ UInt8.ofNat (55 + d) ≠ 44 ∧
      UInt8.ofNat (55 + d) < 128 := by decide
  unfold conv
  split_ifs with hx
  · exact hupper d hd hx.2
  · exact hall d hd

theorem filter_digitText (hb : 1 < base) (h16 : base ≤ 16) {fuel u : Nat} (t : Bytes) (hu : u < base ^ fuel) :
    (digitText r base comma fuel u t).filter (· ≠ 44) =
      (Nat.digits base u).reverse.map (conv r) ++ t.filter (· ≠ 44) := by
  induction fuel generalizing u t with
  | zero =>
    obtain rfl : u = 0 := Nat.lt_one_iff.1 hu
    rw [digitText, Nat.digits_zero]
    rfl
  | succ fuel ih =>
    rw [digitText]
    split_ifs with hzero
    · rw [hzero, Nat.digits_zero]
      rfl
    have hdiv : u / base < base ^ fuel := Nat.div_lt_of_lt_mul (by rwa [Nat.pow_succ, Nat.mul_comm] at hu)
    have hd : u % base < 16 := lt_of_lt_of_le (Nat.mod_lt u (by omega)) h16
    have hnext : (nextDigit r base comma u t).filter (· ≠ 44) = conv r (u % base) :: t.filter (· ≠ 44) := by
      unfold nextDigit
      rw [filter_cons_of_pos (p := fun b => decide (b ≠ 44)) (decide_eq_true (conv_cases hd).2.1)]
      split_ifs
      · rw [filter_cons_of_neg (p := fun b => decide (b ≠ 44)) (a := 44) (by decide)]
      · rfl
    rw [ih _ hdiv, hnext, Nat.digits_def' hb (Nat.pos_of_ne_zero hzero), reverse_cons, map_append,
      append_assoc]
    rfl

theorem ascii_digitText (hb : 1 < base) (h16 : base ≤ 16) {fuel u : Nat} {t : Bytes} (ht : ∀ b ∈ t, b < 128) :
    ∀ b ∈ digitText r base comma fuel u t, b < 128 := by
  induction fuel generalizing u t with
  | zero => exact ht
  | succ fuel ih =>
    rw [digitText]
    split_ifs with hzero
    · exact ht
    refine ih fun b hbm => ?_
    unfold nextDigit at hbm
    rcases mem_cons.1 hbm with rfl | hbm
    · exact (conv_cases (lt_of_lt_of_le (Nat.mod_lt u (by omega)) h16)).2.2
    · split_ifs at hbm
      · rcases mem_cons.1 hbm with rfl | hbm
        · decide
        · exact ht b hbm
      · exact ht b hbm

end Digits

/-! ### What is in the buffer -/

section Text
variable {r base u : Nat} {comma : Bool} {fl : Flags} {c : Conv} {w : BitVec 64}

def numeral (r base : Nat) (comma : Bool) (u : Nat) : Bytes := if u = 0 then [48] else digitText r base comma 65 u []

theorem numeral_length (hb : 1 < base) (hu : u < 2 ^ 64) (h0 : u ≠ 0) :
    (numeral r base comma u).length = separated comma (Nat.digits base u).length := by
  have hlt : u < base ^ 65 := by
    refine lt_of_lt_of_le hu ((Nat.pow_le_pow_left (show 2 ≤ base from hb) 64).trans ?_)
    exact Nat.pow_le_pow_right (by omega) (by omega)
  have hnil : ([] : Bytes).length = separated comma 0 := by
    unfold separated
    split_ifs <;> rfl
  rw [numeral, if_neg h0, digitText_length hb hlt hnil, zero_add]

theorem digits_numeral (hb : 1 < base) (hu : u < 2 ^ 64) {β : Type} (k : Nat × Bytes → Option β) :
    ((digits r base comma 65 u (0, [])).bind fun x =>
      (if x.1 = 0 then (store 48 x.2).map fun t => (1, t) else some x).bind k) =
      if (numeral r base comma u).length ≤ 70 then
        k ((numeral r base comma u).length, numeral r base comma u)
      else none := by
  have hlt : u < base ^ 64 := lt_of_lt_of_le hu (Nat.pow_le_pow_left (show 2 ≤ base from hb) 64)
  rw [show (0, ([] : Bytes)) = (([] : Bytes).length, []) from rfl, digits_eq [] hlt (by omega) (by decide)]
  by_cases h0 : u = 0
  · subst h0
    rfl
  have hnum : numeral r base comma u = digitText r base comma 65 u [] := if_neg h0
  have hpos : (numeral r base comma u).length ≠ 0 := by
    rw [numeral_length hb hu h0]
    have hne := length_pos_of_ne_nil ((Nat.digits_ne_nil_iff_ne_zero (b := base)).2 h0)
    unfold separated
    split_ifs <;> omega
  rw [← hnum]
  by_cases hfull : (numeral r base comma u).length ≤ 70
  · rw [if_pos hfull, if_pos hfull, bind_some, if_neg hpos, bind_some]
  · rw [if_neg hfull, if_neg hfull, bind_none]

theorem zeros_eq (w : Int) (fuel n : Nat) (t : Bytes) : ∃ j, zeros w fuel (n, t) = (n + j, replicate j 48 ++ t) ∧
    (j = 0 ∨ j + t.length ≤ 66) := by
  induction fuel generalizing n t with
  | zero => exact ⟨0, rfl, .inl rfl⟩
  | succ fuel ih =>
    rw [zeros]
    split_ifs with hmore
    · obtain ⟨j, hj, hle⟩ := ih (n + 1) (48 :: t)
      refine ⟨j + 1, ?_, .inr ?_⟩
      · rw [hj, replicate_succ', append_assoc, add_assoc, add_comm 1 j]
        rfl
      · rw [length_cons] at hle
        omega
    · exact ⟨0, rfl, .inl rfl⟩

def signText (fl : Flags) (neg : Bool) : Bytes :=
  if neg then [45] else if fl.sign then [43] else if fl.space then [32] else []

theorem signText_length (fl : Flags) (neg : Bool) :
    (signText fl neg).length = if neg || fl.sign || fl.space then 1 else 0 := by
  unfold signText
  cases neg <;> cases fl.sign <;> cases fl.space <;> rfl

theorem store_sign (fl : Flags) (neg : Bool) {t : Bytes} (ht : t.length ≤ 70) :
    (if neg then store 45 t else if fl.sign then store 43 t else if fl.space then store 32 t else some t) =
      if (signText fl neg ++ t).length ≤ 70 then some (signText fl neg ++ t) else none := by
  unfold signText
  by_cases hn : neg = true
  · simp only [if_pos hn]
    rfl
  by_cases hs : fl.sign = true
  · simp only [if_neg hn, if_pos hs]
    rfl
  by_cases hp : fl.space = true
  · simp only [if_neg hn, if_neg hs, if_pos hp]
    rfl
  · simp only [if_neg hn, if_neg hs, if_neg hp]
    exact (if_pos ht).symm

/-- `0x`, or `0` for an octal number that does not start so. -/
def prefixText (r base : Nat) (sharp : Bool) : Bytes :=
  if sharp && base = 16 then [48, UInt8.ofNat r] else if sharp && base = 8 then [48] else []

theorem prefixText_length (r base : Nat) (sharp : Bool) :
    (prefixText r base sharp).length ≤ 2 ∧ (base = 8 ∨ base = 16 ∨ prefixText r base sharp = []) := by
  unfold prefixText
  split_ifs with h16 h8
  · exact ⟨le_rfl, .inr (.inl (of_decide_eq_true (Bool.and_eq_true_iff.1 h16).2))⟩
  · exact ⟨Nat.le_succ 1, .inl (of_decide_eq_true (Bool.and_eq_true_iff.1 h8).2)⟩
  · exact ⟨zero_le, .inr (.inr rfl)⟩

theorem count_prefixText (r base n : Nat) (sharp : Bool) :
    (if sharp then if base = 16 then n + 2 else if base = 8 then n + 1 else n else n) =
      n + (prefixText r base sharp).length := by
  unfold prefixText
  cases sharp
  · rfl
  · simp only [Bool.true_and, decide_eq_true_eq, if_true]
    split_ifs <;> rfl

theorem count_sign (fl : Flags) (neg : Bool) (n : Nat) :
    (if neg || fl.sign || fl.space then n + 1 else n) = n + (signText fl neg).length := by
  rw [signText_length]
  split_ifs <;> rfl

theorem store_prefixText (r base : Nat) (sharp : Bool) {t : Bytes} (ht : base = 8 ∨ base = 16 → t.length ≤ 68) {β : Type}
    (k : Bytes → Option β) :
    ((if sharp && base = 16 then store (UInt8.ofNat r) t else some t).bind fun t =>
      (if sharp && (base = 16 || base = 8) then store 48 t else some t).bind k) =
      k (prefixText r base sharp ++ t) := by
  have hstore : ∀ {c : UInt8} {t : Bytes}, t.length < 70 → store c t = some (c :: t) := fun h => if_pos h
  unfold prefixText
  cases sharp
  · rfl
  by_cases h16 : base = 16
  · subst h16
    have hle := ht (.inr rfl)
    simp only [Bool.true_and, decide_true, Bool.true_or, if_true]
    rw [hstore (by omega), bind_some, hstore (by rw [length_cons]; omega)]
    rfl
  by_cases h8 : base = 8
  · subst h8
    have hle := ht (.inl rfl)
    simp only [Bool.true_and, decide_true, Bool.or_true, if_true, show ¬ (8 : Nat) = 16 by decide, decide_false,
      Bool.false_eq_true, if_false, bind_some]
    rw [hstore (by omega)]
    rfl
  · simp [h16, h8]

theorem pad_eq (z : Bool) (w : Int) (n : Nat) (t : Bytes) :
    ∃ j, (if z then zeros w 66 (n, t) else (n, t)) = (n + j, replicate j 48 ++ t) ∧ (j = 0 ∨ j + t.length ≤ 66) := by
  cases z
  · exact ⟨0, rfl, .inl rfl⟩
  · exact zeros_eq w 66 n t

/-- The text of a number: zeros are added only where there is room for the prefix and the sign. -/
def Shown (fl : Flags) (c : Conv) (base : Nat) (neg : Bool) (u : Nat) (t : Bytes) : Prop :=
  ∃ sharp j, t = signText fl neg ++ (prefixText c.r base sharp ++ (replicate j 48 ++ numeral c.r base fl.comma u))

theorem itext_cases (hb : 1 < base) (h8 : base = 8 ∨ base = 16 → (numeral c.r base fl.comma u).length ≤ 66)
    (hu : (if !fl.unsigned && w.msb then -w else w).toNat = u) :
    ((numeral c.r base fl.comma u).length + (signText fl (!fl.unsigned && w.msb)).length ≤ 70 ∧
      ∃ t, itext fl c base w = some (t.length, t) ∧ Shown fl c base (!fl.unsigned && w.msb) u t) ∨
    70 < (numeral c.r base fl.comma u).length + (signText fl (!fl.unsigned && w.msb)).length ∧
      itext fl c base w = none := by
  have hlt : u < 2 ^ 64 := by
    rw [← hu]
    exact BitVec.isLt _
  unfold itext
  dsimp only
  rw [hu]
  generalize (!fl.unsigned && w.msb) = neg
  rw [digits_numeral hb hlt]
  unfold Shown
  generalize numeral c.r base fl.comma u = d at h8 ⊢
  by_cases hfull : d.length ≤ 70
  · rw [if_pos hfull]
    obtain ⟨j₁, h₁, hj₁⟩ := zeros_eq c.prec 66 d.length d
    rw [h₁]
    dsimp only
    rw [count_sign]
    generalize (fl.sharp && !(decide (base = 8) && decide ((replicate j₁ (48 : UInt8) ++ d).head? = some 48))) = sharp
    rw [count_prefixText c.r]
    obtain ⟨j₂, h₂, hj₂⟩ := pad_eq (fl.zero && !fl.left) c.width
      (d.length + j₁ + (signText fl neg).length + (prefixText c.r base sharp).length) (replicate j₁ 48 ++ d)
    rw [h₂]
    dsimp only
    rw [← append_assoc, replicate_append_replicate]
    rw [length_append, length_replicate] at hj₂
    obtain ⟨hpre, hpre'⟩ := prefixText_length c.r base sharp
    have hsign : (signText fl neg).length ≤ 1 := by
      rw [signText_length]
      split_ifs <;> omega
    have htext : (replicate (j₂ + j₁) 48 ++ d).length = j₂ + j₁ + d.length := by
      rw [length_append, length_replicate]
    have hroom : d.length ≤ 66 ∨ prefixText c.r base sharp = [] := by
      rcases hpre' with h | h | h
      · exact .inl (h8 (.inl h))
      · exact .inl (h8 (.inr h))
      · exact .inr h
    have hlen : (signText fl neg ++ (prefixText c.r base sharp ++ (replicate (j₂ + j₁) 48 ++ d))).length =
        (signText fl neg).length + ((prefixText c.r base sharp).length + (j₂ + j₁ + d.length)) := by
      rw [length_append, length_append, htext]
    have hpre₀ : d.length ≤ 66 ∨ (prefixText c.r base sharp).length = 0 := hroom.imp_right fun h => by rw [h]; rfl
    rw [store_prefixText c.r base sharp (fun h => by have := h8 h; omega), store_sign fl neg
      (by rw [length_append, htext]; omega)]
    by_cases hall : (signText fl neg ++ (prefixText c.r base sharp ++ (replicate (j₂ + j₁) 48 ++ d))).length ≤ 70
    · refine .inl ⟨by omega, _, ?_, sharp, j₂ + j₁, rfl⟩
      rw [if_pos hall, map_some, hlen]
      congr 2
      omega
    · refine .inr ⟨by omega, ?_⟩
      rw [if_neg hall, map_none]
  · refine .inr ⟨by omega, ?_⟩
    rw [if_neg hfull]

end Text

def Flags.size (fl : Flags) : Nat := if fl.vlong ∨ fl.long then 64 else if fl.byte then 8 else if fl.short then 16 else 32

def Flags.argument (fl : Flags) (w : BitVec 64) : Int :=
  if fl.unsigned then (w.setWidth fl.size).toNat else (w.setWidth fl.size).toInt

/-- `_ifmt` has room for the argument. -/
def Fits (c : Conv) (w : BitVec 64) : Prop :=
  c.r = 'b'.toNat → c.flags.comma = true → (c.flags.argument w).natAbs < 2 ^ 53 ∧
    (c.flags.argument w < 0 ∨ c.flags.sign = true ∨ c.flags.space = true → (c.flags.argument w).natAbs < 2 ^ 52)

section Argument
variable {fl : Flags} {w : BitVec 64}

theorem size_le (fl : Flags) : fl.size ≤ 64 := by
  unfold Flags.size
  split_ifs <;> decide

theorem take_eq (fl : Flags) (w : BitVec 64) : fl.take w =
    if fl.unsigned then (w.setWidth fl.size).setWidth 64 else (w.setWidth fl.size).signExtend 64 := by
  have hword : w = if fl.unsigned then (w.setWidth 64).setWidth 64 else (w.setWidth 64).signExtend 64 := by
    rw [BitVec.setWidth_eq, BitVec.setWidth_eq, BitVec.signExtend_eq, ite_self]
  unfold Flags.take
  by_cases h1 : fl.vlong = true ∨ fl.long = true
  · have hsize : fl.size = 64 := if_pos h1
    rw [if_pos h1, hsize]
    exact hword
  by_cases h2 : fl.byte = true
  · have hsize : fl.size = 8 := (if_neg h1).trans (if_pos h2)
    rw [if_neg h1, if_pos h2, hsize]
  by_cases h3 : fl.short = true
  · have hsize : fl.size = 16 := (if_neg h1).trans ((if_neg h2).trans (if_pos h3))
    rw [if_neg h1, if_neg h2, if_pos h3, hsize]
  · have hsize : fl.size = 32 := (if_neg h1).trans ((if_neg h2).trans (if_neg h3))
    rw [if_neg h1, if_neg h2, if_neg h3, hsize]

theorem magnitude (x : BitVec 64) : (if x.msb then -x else x).toNat = x.toInt.natAbs ∧ (x.msb = true ↔ x.toInt < 0) := by
  have hmsb := BitVec.msb_eq_true_iff_two_mul_ge (x := x)
  have hint := BitVec.toInt_eq_msb_cond x
  have hlt := x.isLt
  split_ifs with h
  · rw [if_pos h] at hint
    have hge := hmsb.1 h
    rw [BitVec.toNat_neg, Nat.mod_eq_of_lt (by omega), hint]
    refine ⟨by omega, fun _ => by omega, fun _ => h⟩
  · rw [if_neg h] at hint
    rw [hint]
    refine ⟨rfl, fun h' => absurd h' h, fun h' => by omega⟩

theorem take_unsigned (hu : fl.unsigned = true) : ((fl.take w).toNat : Int) = fl.argument w := by
  rw [take_eq, if_pos hu, Flags.argument, if_pos hu, BitVec.toNat_setWidth_of_le (size_le fl)]

theorem take_signed (hu : ¬ fl.unsigned = true) : (fl.take w).toInt = fl.argument w := by
  rw [take_eq, if_neg hu, Flags.argument, if_neg hu, BitVec.toInt_signExtend_of_le (size_le fl)]

theorem take_spec (fl : Flags) (w : BitVec 64) :
    (if !fl.unsigned && (fl.take w).msb then -fl.take w else fl.take w).toNat = (fl.argument w).natAbs ∧
      ((!fl.unsigned && (fl.take w).msb) = true ↔ fl.argument w < 0) := by
  by_cases hu : fl.unsigned = true
  · rw [hu, ← take_unsigned hu]
    refine ⟨rfl, fun h => (Bool.false_ne_true h).elim, fun h => ?_⟩
    omega
  · rw [Bool.eq_false_iff.2 hu, ← take_signed hu]
    exact magnitude (fl.take w)

end Argument

section Fits
variable {r base u : Nat} {comma : Bool} {fl : Flags} {c : Conv} {w : BitVec 64}

theorem numeral_le (hb : 8 ≤ base) (hu : u < 2 ^ 64) : (numeral r base comma u).length ≤ 29 := by
  by_cases h0 : u = 0
  · rw [h0]
    exact Nat.le_of_ble_eq_true rfl
  have hlen : (Nat.digits base u).length ≤ 22 := by
    refine (Nat.digits_length_le_iff (by omega) u).2 (lt_of_lt_of_le hu ?_)
    exact (show 2 ^ 64 ≤ 8 ^ 22 by norm_num).trans (Nat.pow_le_pow_left hb 22)
  rw [numeral_length (by omega) hu h0]
  unfold separated
  split_ifs <;> omega

theorem room_iff {s : Nat} (hbase : base = 2 ∨ 8 ≤ base) (hu : u < 2 ^ 64) (hs : s ≤ 1) :
    (numeral r base comma u).length + s ≤ 70 ↔ (base = 2 → comma = true → u < 2 ^ 53 ∧ (s = 1 → u < 2 ^ 52)) := by
  rcases hbase with rfl | hbase
  · by_cases h0 : u = 0
    · subst h0
      have hone : (numeral r 2 comma 0).length = 1 := rfl
      rw [hone]
      exact ⟨fun _ _ _ => ⟨by norm_num, fun _ => by norm_num⟩, fun _ => by omega⟩
    have h64 := (Nat.digits_length_le_iff (show 1 < 2 by decide) u).2 hu
    have h53 := Nat.digits_length_le_iff (k := 53) (show 1 < 2 by decide) u
    have h52 := Nat.digits_length_le_iff (k := 52) (show 1 < 2 by decide) u
    rw [numeral_length (by decide) hu h0, ← h53, ← h52]
    unfold separated
    generalize (Nat.digits 2 u).length = d at h64
    cases comma
    · rw [if_neg Bool.false_ne_true]
      exact ⟨fun _ _ h => absurd h Bool.false_ne_true, fun _ => by omega⟩
    rw [if_pos rfl]
    constructor
    · intro h _ _
      omega
    · intro h
      obtain ⟨h1, h2⟩ := h rfl rfl
      omega
  · have hle : (numeral r base comma u).length ≤ 29 := numeral_le hbase hu
    exact ⟨fun _ h => by omega, fun _ => by omega⟩

theorem numUnits_cases {x : BitVec 64} {neg : Bool} (hbase : base = 2 ∨ 8 ≤ base) (hneg : (!fl.unsigned && x.msb) = neg)
    (hu : (if neg then -x else x).toNat = u) :
    ((base = 2 → fl.comma = true → u < 2 ^ 53 ∧ (neg = true ∨ fl.sign = true ∨ fl.space = true → u < 2 ^ 52)) ∧
      ∃ t, Shown fl c base neg u t ∧ numUnits fl c base x = some (fmtcpyUnits
        { c with flags := { c.flags with prec := false }, width := if fl.zero && !fl.left then 0 else c.width }
        t t.length t.length)) ∨
    ¬ (base = 2 → fl.comma = true → u < 2 ^ 53 ∧ (neg = true ∨ fl.sign = true ∨ fl.space = true → u < 2 ^ 52)) ∧
      numUnits fl c base x = none := by
  subst hneg
  have hlt : u < 2 ^ 64 := by
    rw [← hu]
    exact BitVec.isLt _
  have hb : 1 < base := by
    rcases hbase with rfl | hbase
    · decide
    · omega
  have h8 : base = 8 ∨ base = 16 → (numeral c.r base fl.comma u).length ≤ 66 := by
    intro h
    have hle : (numeral c.r base fl.comma u).length ≤ 29 := numeral_le (by omega) hlt
    omega
  have hone : (signText fl (!fl.unsigned && x.msb)).length = 1 ↔
      ((!fl.unsigned && x.msb) = true ∨ fl.sign = true ∨ fl.space = true) := by
    rw [signText_length, ← or_assoc, ← Bool.or_eq_true, ← Bool.or_eq_true]
    split_ifs with h
    · exact ⟨fun _ => h, fun _ => rfl⟩
    · exact ⟨False.elim, fun h' => absurd h' h⟩
  have hle : (signText fl (!fl.unsigned && x.msb)).length ≤ 1 := by
    rw [signText_length]
    split_ifs <;> omega
  have hroom : (numeral c.r base fl.comma u).length + _ ≤ 70 ↔ _ := room_iff hbase hlt hle
  rw [hone] at hroom
  unfold numUnits
  rcases itext_cases hb h8 hu with ⟨hfits, t, ht, hshown⟩ | ⟨hfull, ht⟩
  · refine .inl ⟨hroom.1 hfits, t, hshown, ?_⟩
    rw [ht]
    rfl
  · refine .inr ⟨fun h => ?_, ?_⟩
    · have hfits := hroom.2 h
      omega
    · rw [ht]
      rfl

theorem radix_cases (h : Integer c.r) (hp : c.r ≠ 'p'.toNat) :
    ((radix c.r).getD 10 = 2 ∨ 8 ≤ (radix c.r).getD 10) ∧ (radix c.r).getD 10 ≤ 16 ∧
      ((radix c.r).getD 10 = 2 ↔ c.r = 'b'.toNat) ∧
      ((radix c.r).getD 10 = 16 → c.r = 'x'.toNat ∨ c.r = 'X'.toNat) := by
  have hall : ∀ r ∈ ['d', 'x', 'X', 'b', 'o', 'p'].map Char.toNat, r ≠ 'p'.toNat →
      ((radix r).getD 10 = 2 ∨ 8 ≤ (radix r).getD 10) ∧ (radix r).getD 10 ≤ 16 ∧
      ((radix r).getD 10 = 2 ↔ r = 'b'.toNat) ∧ ((radix r).getD 10 = 16 → r = 'x'.toNat ∨ r = 'X'.toNat) := by
    decide
  exact hall c.r h hp

theorem fits_iff (h : Integer c.r) : (Fits c w ∧ ∃ us, intUnits c w = some us) ∨ ¬ Fits c w ∧ intUnits c w = none := by
  unfold intUnits Fits
  by_cases hp : c.r = 'p'.toNat
  · rw [if_pos hp, hp]
    have hneg : ((!({ c.flags with unsigned := true } : Flags).unsigned && w.msb)) = false := rfl
    have hbase : 16 = 2 ∨ 8 ≤ 16 := .inr (by decide)
    rcases numUnits_cases (c := { c with r := 'x'.toNat }) hbase hneg rfl with ⟨-, t, -, hus⟩ | ⟨hno, -⟩
    · exact .inl ⟨fun h' => absurd h' (by decide), _, hus⟩
    · exact absurd (fun h' => absurd h' (by decide)) hno
  obtain ⟨hmag, hneg⟩ := take_spec c.flags w
  obtain ⟨hbase, -, hb, -⟩ := radix_cases h hp
  rw [if_neg hp, ← hneg, ← hmag]
  have hcases := numUnits_cases (c := c) hbase (rfl : (!c.flags.unsigned && (c.flags.take w).msb) = _) rfl
  rw [hb] at hcases
  rcases hcases with ⟨hfits, t, -, hus⟩ | ⟨hno, hnone⟩
  · exact .inl ⟨hfits, _, hus⟩
  · exact .inr ⟨hno, hnone⟩

end Fits

/-- A text reads as an integer in the base: without the padding, the sign, the prefix and the separators its digits
have the value. -/
def Denotes (base : Nat) (v : Int) (text : Bytes) : Prop :=
  ∃ (l r : Nat) (sign pre ds : Bytes) (dig : List Nat),
    text = replicate l 32 ++ (sign ++ (pre ++ ds)) ++ replicate r 32 ∧
    (v < 0 ∧ sign = [45] ∨ 0 ≤ v ∧ sign ∈ [[], [43], [32]]) ∧
    (pre = [] ∨ base = 8 ∧ pre = [48] ∨ base = 16 ∧ pre ∈ [[48, 120], [48, 88]]) ∧
    dig ≠ [] ∧ (ds.filter (· ≠ 44)).map (digit base) = dig.map some ∧ value base dig = v.natAbs

section Print
variable {base u : Nat} {fl : Flags} {c : Conv} {w : BitVec 64} {t : Bytes} {neg : Bool}

theorem flatten_spaces (n : Int) : (spaces n).flatten = replicate n.toNat 32 := by
  unfold spaces
  induction n.toNat with
  | zero => rfl
  | succ n ih =>
    rw [replicate_succ, flatten_cons, ih]
    rfl

theorem flatten_cpyUnits (ht : ∀ b ∈ t, b < 128) (left : Nat) : (cpyUnits t.length t left).flatten = t := by
  induction t generalizing left with
  | nil => rfl
  | cons b t ih =>
    obtain ⟨hb, ht⟩ := forall_mem_cons.1 ht
    have hlow : b.toNat < Runeself := hb
    have hone : runeBytes b.toNat = [b] := by
      unfold runeBytes
      rw [if_pos hlow, UInt8.ofNat_toNat]
    rw [length_cons, cpyUnits]
    show (if b.toNat < Runeself then _ else _ : List Bytes).flatten = _
    rw [if_pos hlow, flatten_cons, getD_cons_zero, hone, tail_cons, ih ht]
    rfl

theorem digit_conv {r d : Nat} (h16 : base ≤ 16) (hd : d < base) : digit base (conv r d) = some d := by
  unfold digit
  rw [(conv_cases (lt_of_lt_of_le hd h16)).1, filter_some, if_pos (decide_eq_true hd)]

theorem value_zeros (j : Nat) (ds : List Nat) : value base (replicate j 0 ++ ds) = value base ds := by
  induction j with
  | zero => rfl
  | succ j ih => exact ih

theorem numeral_digits (hb : 1 < base) (h16 : base ≤ 16) (hu : u < 2 ^ 64) (r j : Nat) (comma : Bool) :
    ∃ dig, dig ≠ [] ∧ value base dig = u ∧
      ((replicate j 48 ++ numeral r base comma u).filter (· ≠ 44)).map (digit base) = dig.map some := by
  have hzero : ∀ j, ((replicate j (48 : UInt8)).filter (· ≠ 44)).map (digit base) = (replicate j 0).map some := by
    intro j
    rw [filter_replicate_of_pos (by decide), map_replicate, map_replicate]
    have h48 : digit base 48 = some 0 := by
      unfold digit
      rw [show digitVal 48 = some 0 from rfl, filter_some, if_pos (decide_eq_true (by omega))]
    rw [h48]
  by_cases h0 : u = 0
  · refine ⟨replicate j 0 ++ [0], by simp, ?_, ?_⟩
    · rw [value_zeros, h0]
      rfl
    · have hone := hzero 1
      rw [numeral, if_pos h0, filter_append, map_append, map_append, hzero]
      exact congrArg _ hone
  have hlt : u < base ^ 65 := by
    refine lt_of_lt_of_le hu ((Nat.pow_le_pow_left (show 2 ≤ base from hb) 64).trans ?_)
    exact Nat.pow_le_pow_right (by omega) (by omega)
  refine ⟨replicate j 0 ++ (Nat.digits base u).reverse, ?_, ?_, ?_⟩
  · have hne := (Nat.digits_ne_nil_iff_ne_zero (b := base)).2 h0
    simp [hne]
  · rw [value_zeros, value_reverse, Nat.ofDigits_digits]
  · rw [numeral, if_neg h0, filter_append, map_append, map_append, hzero, filter_digitText hb h16 [] hlt,
      filter_nil, append_nil, map_map]
    congr 1
    refine map_congr_left fun d hd => ?_
    exact digit_conv h16 (Nat.digits_lt_base hb (mem_reverse.1 hd))

theorem Shown.ascii (h : Shown fl c base neg u t) (hb : 1 < base) (h16 : base ≤ 16)
    (hr : base = 16 → c.r < 128) : ∀ b ∈ t, b < 128 := by
  obtain ⟨sharp, j, rfl⟩ := h
  intro b hbm
  rcases mem_append.1 hbm with hbm | hbm
  · unfold signText at hbm
    split_ifs at hbm
    · rw [mem_singleton.1 hbm]; decide
    · rw [mem_singleton.1 hbm]; decide
    · rw [mem_singleton.1 hbm]; decide
    · exact absurd hbm not_mem_nil
  rcases mem_append.1 hbm with hbm | hbm
  · unfold prefixText at hbm
    split_ifs at hbm with hx
    · rcases mem_cons.1 hbm with rfl | hbm
      · decide
      · have hlow := hr (of_decide_eq_true (Bool.and_eq_true_iff.1 hx).2)
        rw [mem_singleton.1 hbm]
        refine UInt8.lt_iff_toNat_lt.2 ?_
        rw [UInt8.toNat_ofNat']
        exact lt_of_le_of_lt (Nat.mod_le _ _) hlow
    · rw [mem_singleton.1 hbm]; decide
    · exact absurd hbm not_mem_nil
  rcases mem_append.1 hbm with hbm | hbm
  · rw [eq_of_mem_replicate hbm]; decide
  · unfold numeral at hbm
    split_ifs at hbm
    · rw [mem_singleton.1 hbm]; decide
    · exact ascii_digitText hb h16 (fun b hb => absurd hb not_mem_nil) b hbm

theorem Shown.denotes {c' : Conv} {v : Int} (h : Shown fl c base neg u t) (hb : 1 < base) (h16 : base ≤ 16)
    (hu : u < 2 ^ 64) (hr : base = 16 → c.r = 'x'.toNat ∨ c.r = 'X'.toNat) (hprec : c'.flags.prec = false)
    (habs : u = v.natAbs) (hneg : neg = true ↔ v < 0) :
    Denotes base v (fmtcpyUnits c' t t.length t.length).flatten := by
  have hlow : base = 16 → c.r < 128 := by
    intro hx
    rcases hr hx with h | h
    · rw [h]; decide
    · rw [h]; decide
  have hascii := h.ascii hb h16 hlow
  have hcut : c'.cut t.length = t.length := if_neg fun hboth => by
    rw [hprec] at hboth
    exact Bool.false_ne_true hboth.1
  obtain ⟨sharp, j, ht⟩ := h
  obtain ⟨dig, hne, hval, hdig⟩ := numeral_digits hb h16 hu c.r j fl.comma
  refine ⟨(c'.before t.length).toNat, (c'.after t.length).toNat, signText fl neg, prefixText c.r base sharp, _, dig, ?_,
    ?_, ?_, hne, hdig, hval.trans habs⟩
  · unfold fmtcpyUnits
    rw [hcut, flatten_append, flatten_append, flatten_spaces, flatten_spaces, Int.toNat_natCast,
      flatten_cpyUnits hascii, ht]
  · unfold signText
    by_cases hn : neg = true
    · exact .inl ⟨hneg.1 hn, if_pos hn⟩
    refine .inr ⟨Int.not_lt.1 fun hv => hn (hneg.2 hv), ?_⟩
    rw [if_neg hn]
    split_ifs
    · decide
    · decide
    · decide
  · unfold prefixText
    split_ifs with hx ho
    · have h16 := of_decide_eq_true (Bool.and_eq_true_iff.1 hx).2
      refine .inr (.inr ⟨h16, ?_⟩)
      rcases hr h16 with h | h
      · rw [h]; decide
      · rw [h]; decide
    · exact .inr (.inl ⟨of_decide_eq_true (Bool.and_eq_true_iff.1 ho).2, rfl⟩)
    · exact .inl rfl

theorem integer_of_radix {r : Nat} (h : radix r = some base) : Integer r ∧ r ≠ 'p'.toNat := by
  unfold radix at h
  split_ifs at h with h1 h2 h3 h4
  · rw [h1]
    decide
  · rcases h2 with h2 | h2
    · rw [h2]
      decide
    · rw [h2]
      decide
  · rw [h3]
    decide
  · rw [h4]
    decide

theorem emits_growing {us : List Bytes} (h : ∀ u ∈ us, Character u) :
    ∃ o, emits us fmtstrinit = .done o ∧ o.text = us.flatten := by
  rcases growing_printer.emits growing_fmtstrinit h with ⟨o, ho, hgrow⟩ | ⟨hno, -⟩
  · exact ⟨o, ho, hgrow.text⟩
  · exact hno.elim

theorem ifmt_iff (c : Conv) (w : BitVec 64) (hr : radix c.r = some base) :
    (∃ o, ifmt c w fmtstrinit = .done o ∧ Denotes base (c.flags.argument w) o.text) ↔ Fits c w := by
  obtain ⟨hint, hp⟩ := integer_of_radix hr
  obtain ⟨hbase, h16, hb, hx⟩ := radix_cases hint hp
  obtain ⟨hmag, hneg⟩ := take_spec c.flags w
  rw [hr, getD_some] at hbase h16 hb hx
  have hunits : intUnits c w = numUnits c.flags c base (c.flags.take w) := by
    unfold intUnits
    rw [if_neg hp, hr, getD_some]
  rw [ifmt_eq hint, hunits]
  unfold Fits
  have hcases := numUnits_cases (c := c) hbase (rfl : (!c.flags.unsigned && (c.flags.take w).msb) = _) hmag
  rw [hb, hneg] at hcases
  rcases hcases with ⟨hfits, t, hshown, hus⟩ | ⟨hno, hnone⟩
  · refine ⟨fun _ => hfits, fun _ => ?_⟩
    obtain ⟨o, ho, htext⟩ := emits_growing fun u hu => character_numUnits hus hu
    rw [hus]
    refine ⟨o, ho, ?_⟩
    rw [htext]
    have hlt : (c.flags.argument w).natAbs < 2 ^ 64 := by
      rw [← hmag]
      exact BitVec.isLt _
    have hone : 1 < base := by
      rcases hbase with rfl | hbase
      · decide
      · omega
    exact hshown.denotes hone h16 hlt hx rfl rfl hneg
  · refine ⟨?_, fun h => absurd h hno⟩
    rw [hnone]
    rintro ⟨o, ho, -⟩
    cases ho

/-- `%,#x` of -1, an `int`. -/
theorem ifmt_iff_sharp :
    (∃ o, ifmt { r := 'x'.toNat, flags := { comma := true, sharp := true } } (-1) fmtstrinit = .done o ∧
      Denotes 16 (Flags.argument { comma := true, sharp := true } (-1)) o.text) ↔
      Fits { r := 'x'.toNat, flags := { comma := true, sharp := true } } (-1) :=
  ifmt_iff _ _ rfl

/-- The conversion of `%,ullb`. -/
def ullb : Conv :=
  { r := 'b'.toNat, flags := { comma := true, unsigned := true, long := true, vlong := true } }

theorem not_fits_ullb : ¬ Fits ullb (-1) := fun hfits => absurd (hfits rfl rfl).1 (by decide)

/-- 2^64-1 has 64 digits and 21 separators. -/
theorem ifmt_fails : ¬ ∀ (c : Conv) (w : BitVec 64) (base : Nat), radix c.r = some base →
    ∃ o, ifmt c w fmtstrinit = .done o ∧ Denotes base (c.flags.argument w) o.text := by
  intro h
  obtain ⟨o, ho, -⟩ := h ullb (-1) 2 rfl
  have hint : Integer ullb.r := by decide
  rw [ifmt_eq hint] at ho
  rcases fits_iff hint with ⟨hfits, -⟩ | ⟨-, hnone⟩
  · exact not_fits_ullb hfits
  · rw [hnone] at ho
    cases ho

end Print

end Node9.Dofmt
