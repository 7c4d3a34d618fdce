import Node9.JsonRound

/-!
# Numbers as JSON texts

`Denotes s q`: the text `s` is a number of the grammar, and stands for the rational `q`. What is so written is read
as the double nearest to `q` (`Denoted.decodes`).

An integer up to 10^15 is written with all its digits, one above it with fourteen: `integer_iff`.
-/

namespace Node9.Json
open Buf Rfc8259 Lua List

/-! ### What a text denotes -/

/-- The part behind the integer, from its point on. -/
inductive Fraction : Bytes → NNRat → Prop
  | none : Fraction [] 0
  | digits {s : Bytes} : Digits s → Fraction (point :: s) (value s / 10 ^ s.length)

inductive Exponent : Bytes → Int → Prop
  | none : Exponent [] 0
  | plus {e : UInt8} {sgn s : Bytes} : isE e → sgn = [] ∨ sgn = [Rfc8259.plus] → Digits s →
      Exponent (e :: sgn ++ s) (value s)
  | minus {e : UInt8} {s : Bytes} : isE e → Digits s → Exponent (e :: Rfc8259.minus :: s) (-value s)

/-- A text of digits, a fraction and an exponent, and what it stands for but for its sign. -/
structure Denoted (int frac exp : Bytes) (q : NNRat) : Prop where
  intPart : IntPart false int
  rest : ∃ f x, Fraction frac f ∧ Exponent exp x ∧ q = (value int + f) * 10 ^ x

def Denotes (s : Bytes) (q : Rat) : Prop :=
  ∃ neg int frac exp p, Denoted int frac exp p ∧ s = sign neg ++ int ++ frac ++ exp ∧ q = Number.signed neg p

section Read
variable {neg : Bool} {d s exp r t : Bytes} {f : NNRat} {x : Int}

theorem sign_eq (neg : Bool) : sign neg = [] ∨ sign neg = [minus] := by
  cases neg with
  | true => exact .inr rfl
  | false => exact .inl rfl

theorem skipMinus_sign (hd : Digits d) :
    skipMinus (sign neg ++ (d ++ t)) = d ++ t ∧ ((sign neg ++ (d ++ t)).head? == some minus) = neg := by
  cases neg with
  | true => exact ⟨rfl, rfl⟩
  | false =>
    have hoff : Off (· == minus) (d ++ t) := hd.off_sign.mono fun b hb => by simp [isSign, eq_of_beq hb]
    refine ⟨skipMinus_of_off hoff, ?_⟩
    change ((d ++ t).head? == some minus) = false
    cases h : (d ++ t).head? with
    | none => rfl
    | some b => simpa using hoff b h

theorem optional_sign_digits (hd : Digits d) : optional (· == minus) (sign neg ++ (d ++ t)) = (sign neg, d ++ t) := by
  cases neg with
  | true => rfl
  | false => exact Decodes.optional_off (hd.off_sign.mono fun b hb => by simp [isSign, eq_of_beq hb])

theorem Exponent.off (h : Exponent s x) (hr : Off isNum r) :
    Off isDigit (s ++ r) ∧ Off (· == point) (s ++ r) := by
  have hletter : ∀ e, isE e → isDigit e = false ∧ (e == point) = false := fun e he => by
    simp only [isE, Bool.or_eq_true, beq_iff_eq] at he
    rcases he with rfl | rfl <;> exact ⟨rfl, rfl⟩
  cases h with
  | none => exact ⟨hr.mono fun b hb => isNum_of_isDigit hb, hr.mono fun b hb => by simp [isNum, eq_of_beq hb]⟩
  | plus he _ _ => exact ⟨off_cons (hletter _ he).1, off_cons (hletter _ he).2⟩
  | minus he _ => exact ⟨off_cons (hletter _ he).1, off_cons (hletter _ he).2⟩

theorem Fraction.off (h : Fraction s f) (ht : Off isDigit t) : Off isDigit (s ++ t) := by
  cases h with
  | none => exact ht
  | digits _ => exact off_cons rfl

theorem exponent_eq (h : Exponent s x) : exponent s = some x := by
  have hrun : ∀ {e : UInt8} {sgn u : Bytes}, isE e → Digits u → skipSign (sgn ++ u) = u →
      exponent (e :: (sgn ++ u)) = some (if (sgn ++ u).head? = some minus then -(value u : Int) else value u) := by
    intro e sgn u he hu hskip
    rw [exponent, hskip, if_pos (by rw [he, hu.2, isEmpty_eq_false_iff.2 hu.1]; rfl)]
  cases h with
  | none => rfl
  | @plus e sgn u he hs hu =>
    have hne : ¬ u.head? = some Rfc8259.minus := fun hh => by
      have := Digits.off_sign (t := []) hu
      rw [append_nil] at this
      cases this _ hh
    rcases hs with rfl | rfl
    · have hskip : skipSign ([] ++ u) = u := by
        have := Digits.off_sign (t := []) hu
        rw [append_nil] at this
        exact skipSign_of_off this
      refine (hrun he hu hskip).trans ?_
      rw [nil_append, if_neg hne]
    · exact @hrun e [Rfc8259.plus] u he hu rfl
  | @minus e u he hu => exact @hrun e [Rfc8259.minus] u he hu rfl

theorem tonumber_eq (hd : Digits d) (hf : Fraction s f) (hx : Exponent exp x) :
    tonumber (sign neg ++ (d ++ (s ++ exp))) = some (nearest neg ((value d + f) * 10 ^ x)) := by
  obtain ⟨hoff, hpt⟩ := hx.off off_nil
  rw [append_nil] at hoff hpt
  obtain ⟨hskip, hneg⟩ := @skipMinus_sign neg d (s ++ exp) hd
  have hne : ∀ y : Bytes, (d ++ y).isEmpty = false := fun y => by
    rw [isEmpty_eq_false_iff]
    exact fun h => hd.1 (append_eq_nil_iff.1 h).1
  unfold tonumber
  dsimp only
  rw [hskip, hneg, takeWhile_run hd.2 (hf.off hoff), dropWhile_run hd.2 (hf.off hoff), hne, if_neg (by decide)]
  cases hf with
  | none =>
    have hhead : ¬ ([] ++ exp).head? = some point := fun h => by cases hpt point h
    rw [if_neg hhead, if_neg hhead, nil_append, exponent_eq hx]
    simp
  | @digits u hu =>
    have hhead : (point :: u ++ exp).head? = some point := rfl
    have hdrop : (point :: u ++ exp).drop 1 = u ++ exp := rfl
    rw [if_pos hhead, if_pos hhead, if_pos hhead, hdrop, dropWhile_run hu.2 hoff, takeWhile_run hu.2 hoff,
      exponent_eq hx, Option.map_some, value_append]
    have hval : (((value d * 10 ^ u.length + value u : Nat) : NNRat) * 10 ^ (x - (u.length : Int))) =
        ((value d : NNRat) + value u / 10 ^ u.length) * 10 ^ x := by
      rw [zpow_sub₀ (by norm_num), zpow_natCast]
      push_cast
      field_simp
    rw [hval]

theorem matchNumber_eq (hd : Digits d) (hf : Fraction s f) (hx : Exponent exp x) (hr : Off isNum r) :
    matchNumber (sign neg ++ (d ++ (s ++ (exp ++ r)))) = some (sign neg ++ (d ++ (s ++ exp)), r) := by
  obtain ⟨hoff, hpt⟩ := hx.off hr
  have hdig : Off isDigit r := hr.mono fun b hb => isNum_of_isDigit hb
  have he : optional isE r = ([], r) := Decodes.optional_off (hr.mono fun b hb => by simp [isNum, hb])
  have hsg : optional isSign r = ([], r) := Decodes.optional_off (hr.mono fun b hb => by simp [isNum, hb])
  have htake : r.takeWhile isDigit = [] := takeWhile_run (s := []) rfl hdig
  have hdrop : r.dropWhile isDigit = r := dropWhile_run (s := []) rfl hdig
  -- the fraction and the exponent, whatever stands before them
  have hfrac : ∃ dot u, s = dot ++ u ∧ optional (· == point) (s ++ (exp ++ r)) = (dot, u ++ (exp ++ r)) ∧
      (u ++ (exp ++ r)).takeWhile isDigit = u ∧ (u ++ (exp ++ r)).dropWhile isDigit = exp ++ r := by
    cases hf with
    | none =>
      exact ⟨[], [], rfl, Decodes.optional_off hpt, takeWhile_run (s := []) rfl hoff, dropWhile_run (s := []) rfl hoff⟩
    | @digits u hu => exact ⟨[point], u, rfl, rfl, takeWhile_run hu.2 hoff, dropWhile_run hu.2 hoff⟩
  have hexp : ∃ e sgn u, exp = e ++ (sgn ++ u) ∧ optional isE (exp ++ r) = (e, sgn ++ (u ++ r)) ∧
      optional isSign (sgn ++ (u ++ r)) = (sgn, u ++ r) ∧ (u ++ r).takeWhile isDigit = u ∧
      (u ++ r).dropWhile isDigit = r := by
    cases hx with
    | none => exact ⟨[], [], [], rfl, he, hsg, htake, hdrop⟩
    | @plus e sgn u hE hs hu =>
      refine ⟨[e], sgn, u, rfl, ?_, ?_, takeWhile_run hu.2 hdig, dropWhile_run hu.2 hdig⟩
      · rw [append_assoc]
        exact if_pos hE
      · rcases hs with rfl | rfl
        · exact Decodes.optional_off hu.off_sign
        · rfl
    | @minus e u hE hu =>
      exact ⟨[e], [Rfc8259.minus], u, rfl, if_pos hE, rfl, takeWhile_run hu.2 hdig, dropWhile_run hu.2 hdig⟩
  obtain ⟨dot, u, rfl, hdot, htake₁, hdrop₁⟩ := hfrac
  obtain ⟨e, sgn, v, rfl, hE, hS, htake₂, hdrop₂⟩ := hexp
  unfold matchNumber
  rw [optional_sign_digits hd]
  dsimp only
  rw [takeWhile_run hd.2 (hf.off hoff), dropWhile_run hd.2 (hf.off hoff), hdot]
  dsimp only
  rw [htake₁, hdrop₁, hE]
  dsimp only
  rw [hS]
  dsimp only
  rw [htake₂, hdrop₂, isEmpty_eq_false_iff.2 hd.1, if_neg (by decide)]
  simp only [append_assoc]

theorem Denoted.decodes {int frac : Bytes} {q : NNRat} (h : Denoted int frac exp q) :
    Decodes (sign neg ++ int ++ frac ++ exp) (.num (nearest neg q)) := by
  obtain ⟨hint, f, x, hf, hx, rfl⟩ := h
  have hd : Digits int := hint.spec.1
  intro m r hr hm
  have hs : sign neg ++ int ++ frac ++ exp ++ r = sign neg ++ (int ++ (frac ++ (exp ++ r))) := by simp
  rw [hs] at hm ⊢
  cases m with
  | zero => cases hm
  | succ m =>
    have hnum : decode_number (sign neg ++ (int ++ (frac ++ (exp ++ r)))) =
        .ok (.num (nearest neg ((value int + f) * 10 ^ x)), r) := by
      unfold decode_number
      rw [matchNumber_eq hd hf hx hr]
      dsimp only
      rw [tonumber_eq hd hf hx]
    obtain ⟨b, t, hbt, hb⟩ : ∃ b t, sign neg ++ (int ++ (frac ++ (exp ++ r))) = b :: t ∧ (b = minus ∨ isDigit b) := by
      rcases sign_eq neg with h | h
      · obtain ⟨hne, hall⟩ := hd
        cases int with
        | nil => exact absurd rfl hne
        | cons b t =>
          rw [all_cons, Bool.and_eq_true] at hall
          exact ⟨b, _, by rw [h]; rfl, .inr hall.1⟩
      · exact ⟨minus, _, by rw [h]; rfl, .inl rfl⟩
    rw [hbt] at hnum ⊢
    exact (Decodes.decode_value_digit hb).trans hnum

end Read

section Integers
variable {n : Nat} {t : Bytes}

theorem length_decimal (hn : n ≠ 0) : (decimal n).length = Nat.log 10 n + 1 := by
  rw [decimal, if_neg hn, length_map, length_reverse, Nat.length_digits 10 n (by norm_num) hn]

theorem intPart_decimal (n : Nat) : IntPart false (decimal n) := by
  obtain ⟨⟨-, hall⟩, -⟩ := decimal_spec n
  by_cases hn : n = 0
  · rw [hn]
    exact .zero
  have hdec : decimal n = (Nat.digits 10 n).reverse.map digit := if_neg hn
  have hne : Nat.digits 10 n ≠ [] := Nat.digits_ne_nil_iff_ne_zero.2 hn
  have hlast := Nat.getLast_digit_ne_zero 10 hn
  obtain ⟨d, ds, hds⟩ := exists_cons_of_ne_nil (reverse_ne_nil_iff.2 hne)
  have hd : (Nat.digits 10 n).getLast hne = d := by
    have := head_reverse (l := Nat.digits 10 n) (by rw [hds]; exact cons_ne_nil _ _)
    rw [← this]
    simp [hds]
  have hlt : d < 10 := hd ▸ Nat.digits_lt_base (by norm_num) (getLast_mem hne)
  rw [hdec, hds, map_cons] at hall ⊢
  rw [all_cons, Bool.and_eq_true] at hall
  refine .digits hall.1 (fun h0 => hlast ?_) hall.2
  rw [hd]
  have := (isDigit_digit hlt).2
  rw [h0] at this
  exact this.symm

theorem value_zeros (k : Nat) : value (List.replicate k zero) = 0 := by
  induction k with
  | zero => rfl
  | succ k ih =>
    rw [replicate_succ', value_append, ih]
    rfl

theorem rdrop_zeros (t : Bytes) : ∃ k, t = t.rdropWhile (· == zero) ++ List.replicate k zero := by
  induction t using List.reverseRecOn with
  | nil => exact ⟨0, rfl⟩
  | append_singleton t b ih =>
    rw [rdropWhile_concat]
    split_ifs with hb
    · obtain ⟨k, hk⟩ := ih
      refine ⟨k + 1, ?_⟩
      rw [replicate_succ', ← append_assoc, ← hk, eq_of_beq hb]
    · exact ⟨0, (append_nil _).symm⟩

theorem fraction_spec (ht : t.all isDigit) : Fraction (fraction t) (value t / 10 ^ t.length) := by
  obtain ⟨k, hk⟩ := rdrop_zeros t
  unfold fraction
  dsimp only
  generalize t.rdropWhile (· == zero) = s at hk ⊢
  subst hk
  rw [all_append, Bool.and_eq_true] at ht
  have hval : ((value (s ++ List.replicate k zero) : Nat) : NNRat) / 10 ^ (s ++ List.replicate k zero).length =
      value s / 10 ^ s.length := by
    rw [value_append, value_zeros, length_append, length_replicate, pow_add]
    push_cast
    field_simp
    simp
  rw [hval]
  split_ifs with hs
  · subst hs
    have h0 : ((value [] : Nat) : NNRat) / 10 ^ ([] : Bytes).length = 0 := by simp [value]
    rw [h0]
    exact .none
  · exact .digits ⟨hs, ht.1⟩

theorem denoted_decimal (n : Nat) : Denoted (decimal n) [] [] (n : NNRat) := by
  refine ⟨intPart_decimal n, 0, 0, .none, .none, ?_⟩
  rw [(decimal_spec n).2]
  simp

theorem roundEven_div (n k : Nat) :
    roundEven ((n : NNRat) / k) = n / k ∨ roundEven ((n : NNRat) / k) = n / k + 1 := by
  unfold roundEven
  dsimp only
  rw [Nat.floor_div_natCast, Nat.floor_natCast]
  split_ifs
  · exact .inl rfl
  · exact .inr rfl

theorem denoted_format14g (neg : Bool) (h1 : 10 ^ 15 ≤ n) (h2 : n ≤ 2 ^ 53) :
    ∃ int frac exp, format14g neg n = sign neg ++ int ++ frac ++ exp ∧
      Denoted int frac exp ((roundEven ((n : NNRat) / (100 : Nat)) * 100 : Nat) : NNRat) := by
  have hn : (n : NNRat) ≠ 0 := by
    rw [Nat.cast_ne_zero]
    omega
  have hlog : Int.log 10 (n : NNRat) = 15 := by
    have : Nat.log 10 n = 15 := Nat.log_eq_of_pow_le_of_lt_pow h1 (by omega)
    exact (Int.log_natCast 10 n).trans (by rw [this]; rfl)
  have hdiv : (n : NNRat) / 10 ^ ((15 : Int) - 13) = (n : NNRat) / (100 : Nat) := by norm_num
  unfold format14g
  rw [if_neg hn]
  dsimp only
  rw [hlog, hdiv]
  have hm := roundEven_div n 100
  generalize roundEven ((n : NNRat) / (100 : Nat)) = m at hm ⊢
  have hne : m ≠ 10 ^ 14 := by omega
  have hlen : (decimal m).length = 14 := by
    have hlogm : Nat.log 10 m = 13 := Nat.log_eq_of_pow_le_of_lt_pow (by omega) (by omega)
    rw [length_decimal (by omega), hlogm]
  have hpart := intPart_decimal m
  obtain ⟨⟨-, hall⟩, hval⟩ := decimal_spec m
  rw [if_neg hne, if_neg hne, if_pos (.inr (by norm_num))]
  generalize decimal m = s at hlen hpart hall hval
  cases hpart with
  | zero => cases hlen
  | @digits d t hd h0 ht =>
    have hexp : (if (decimal (15 : Int).natAbs).length < 2 then zero :: decimal (15 : Int).natAbs
        else decimal (15 : Int).natAbs) = [0x31, 0x35] := by decide
    rw [hexp]
    refine ⟨[d], fraction t, [0x65, plus, 0x31, 0x35], by simp, .digits hd h0 rfl, value t / 10 ^ t.length, 15,
      fraction_spec ht, ?_, ?_⟩
    · exact .plus (e := 0x65) (s := [0x31, 0x35]) rfl (.inr rfl) ⟨cons_ne_nil _ _, rfl⟩
    have hlt : t.length = 13 := by simpa using hlen
    have hdt : value [d] * 10 ^ 13 + value t = m := by
      rw [← hval, ← hlt, ← value_append]
      rfl
    rw [← hdt, hlt]
    have h15 : (10 : NNRat) ^ (15 : Int) = 10 ^ 13 * 100 := by norm_num
    rw [h15]
    push_cast
    field_simp
    norm_num

/-- What is read of an integer up to 2^53 that was written: the integer, or the nearest with fourteen digits. -/
theorem encode_integer (h : Heap) (neg : Bool) (hn : n ≤ 2 ^ 53) :
    ∃ s k, encode h (.num (.fin neg n)) = .ok s ∧ decode s = .ok (.num (.fin neg (k : Nat))) ∧
      Denotes s (Number.signed neg (k : Nat)) ∧ (k = n ↔ n ≤ 10 ^ 15 ∨ 100 ∣ n) := by
  by_cases h15 : n ≤ 10 ^ 15
  · refine ⟨format0f neg n, n, if_pos ⟨NNRat.den_natCast n, Nat.cast_le.2 h15⟩, ?_, ?_,
      by rw [eq_self_iff_true, true_iff]; exact .inl h15⟩
    · exact decode_of_decodes (.int neg h15)
    · refine ⟨neg, decimal n, [], [], n, denoted_decimal n, ?_, rfl⟩
      rw [format0f, roundEven_natCast, append_nil, append_nil]
  obtain ⟨int, frac, exp, hs, hd⟩ := denoted_format14g neg (by omega) hn
  have hm := roundEven_div n 100
  have hdvd : 100 ∣ n → roundEven ((n : NNRat) / (100 : Nat)) = n / 100 := by
    rintro ⟨k, hk⟩
    have hcast : (n : NNRat) / (100 : Nat) = (k : Nat) := by
      rw [hk]
      push_cast
      field_simp
    rw [hcast, roundEven_natCast]
    omega
  generalize roundEven ((n : NNRat) / (100 : Nat)) = m at hm hd hdvd
  refine ⟨format14g neg n, m * 100, ?_, ?_, ⟨neg, int, frac, exp, _, hd, hs, rfl⟩, ?_⟩
  · exact if_neg fun hc => h15 (Nat.cast_le.1 hc.2)
  · have hnear : nearest neg ((m * 100 : Nat) : NNRat) = .fin neg ((m * 100 : Nat) : NNRat) := by
      have := nearest_mul_pow (n := m * 50) (i := 1) neg (by omega) (by norm_num)
      rwa [show m * 50 * 2 ^ 1 = m * 100 by omega] at this
    rw [hs, ← hnear]
    exact decode_of_decodes hd.decodes
  · constructor
    · exact fun hk => .inr ⟨m, by omega⟩
    · intro hc
      have := hdvd (hc.resolve_left h15)
      omega

/-- An integer that a number holds exactly is kept, and its text denotes it, if it is at most 10^15 or its digits
behind the fourteenth are zeros. -/
theorem integer_iff (h : Heap) (neg : Bool) (hn : n ≤ 2 ^ 53) :
    (∃ s m, encode h (.num (.fin neg n)) = .ok s ∧ decode s = .ok (.num m) ∧ m.eq (.fin neg n) = true ∧
      Denotes s (Number.signed neg n)) ↔ n ≤ 10 ^ 15 ∨ 100 ∣ n := by
  obtain ⟨s, k, hs, hd, hq, hk⟩ := encode_integer h neg hn
  constructor
  · rintro ⟨s', m, hs', hd', he, -⟩
    cases hs.symm.trans hs'
    cases hd.symm.trans hd'
    refine hk.1 (Nat.cast_injective (R := Rat) ?_)
    cases neg <;> simpa [Number.eq, Number.signed] using he
  · intro hc
    obtain rfl := hk.2 hc
    exact ⟨s, _, hs, hd, by simp [Number.eq], hq⟩

theorem integer_iff_small : (∃ s m, encode [] (.num (.fin true (7 : Nat))) = .ok s ∧ decode s = .ok (.num m) ∧
    m.eq (.fin true (7 : Nat)) = true ∧ Denotes s (Number.signed true (7 : Nat))) ↔ 7 ≤ 10 ^ 15 ∨ 100 ∣ 7 :=
  integer_iff [] true (by norm_num)

/-- 10^15 + 1 loses its last digit. -/
theorem integer_lost : ¬ ∀ (h : Heap) (neg : Bool) (n : Nat), n ≤ 2 ^ 53 → ∃ s m,
    encode h (.num (.fin neg n)) = .ok s ∧ decode s = .ok (.num m) ∧ m.eq (.fin neg n) = true ∧
      Denotes s (Number.signed neg n) := by
  intro hall
  obtain ⟨s', m, hs', hd', he, -⟩ := hall [] false (10 ^ 15 + 1) (by norm_num)
  obtain ⟨s, k, hs, hd, -, hk⟩ := encode_integer [] false (n := 10 ^ 15 + 1) (by norm_num)
  cases hs.symm.trans hs'
  cases hd.symm.trans hd'
  have : k = 10 ^ 15 + 1 := Nat.cast_injective (R := Rat) (by simpa [Number.eq, Number.signed] using he)
  rcases hk.1 this with h | h
  · omega
  · omega

end Integers

end Node9.Json
