import Node9.Lib.Buf

/-!
# Runes in C strings (`rune.c`, `utfrune.c` and `getfields.c` of lib9)

A C string is the list of its bytes before the null; what is read behind them is null. `getfields` cuts a string
in place: it puts nulls at the separators and returns where its fields start.

No separator below 0x80 is in the middle of a rune (`chartorune_spec`), so for `"@"` the fields are what lies
between the bytes `@` (`getfields_none`, `getfields_one`, `getfields_more`).
-/

namespace Node9.Rune
open Buf List

def Runesync : Nat := 0x80
def Runeself : Nat := 0x80
def Runeerror : Nat := 0xFFFD
def Runemax : Nat := 0x10FFFF
def SurrogateMin : Nat := 0xD800
def SurrogateMax : Nat := 0xDFFF
def Bitx : Nat := 6
def Tx : Nat := 0x80
def Testx : Nat := 0xC0
def Rune1 : Nat := 0x7F

/-- N 0's preceded by i 1's, `T 2` is 1100 0000 -/
def T (i : Nat) : Nat := (2 ^ (7 - i + 1) - 1) ^^^ 0xFF

def RuneX (i : Nat) : Nat := 2 ^ (7 - i + (i - 1) * Bitx) - 1

/-- The loop of `chartorune` for `i` from `4 - fuel` on: the rune and how many bytes it has. -/
def charLoop (s : Bytes) (c0 : Nat) : Nat → Nat → Nat × Nat
  | 0, _ => (Runeerror, 1)
  | fuel + 1, l =>
    let i := 3 - fuel
    let c := (s.getD i 0).toNat ^^^ Tx
    if c &&& Testx ≠ 0 then (Runeerror, 1)
    else
      let l := (l <<< Bitx) ||| c
      if c0 < T (i + 2) then
        let l := l &&& RuneX (i + 1)
        if i = 1 ∧ (c0 < T 2 ∨ l ≤ Rune1) then (Runeerror, 1)
        else if i ≠ 1 ∧ (l ≤ RuneX i ∨ l > Runemax) then (Runeerror, 1)
        else if i = 2 ∧ SurrogateMin ≤ l ∧ l ≤ SurrogateMax then (Runeerror, 1)
        else (l, i + 1)
      else charLoop s c0 fuel l

def chartorune (s : Bytes) : Nat × Nat :=
  let c0 := (s.getD 0 0).toNat
  if c0 < Tx then (c0, 1) else charLoop s c0 3 c0

/-- The loop of `utfrune`, with at least as many turns as `s` has bytes. -/
def utfLoop (c : Nat) : Nat → Bytes → Bool
  | 0, _ => false
  | _ + 1, [] => false
  | fuel + 1, b :: s =>
    if b.toNat < Runeself then if b.toNat = c then true else utfLoop c fuel s
    else if (chartorune (b :: s)).1 = c then true else utfLoop c fuel ((b :: s).drop (chartorune (b :: s)).2)

/-- Whether the rune is in the string; the null that ends it is for `strchr`. -/
def utfrune (s : Bytes) (c : Nat) : Bool :=
  if c < Runesync then c = 0 || s.any (·.toNat = c) else utfLoop c s.length s

/-- What `getfields` leaves: the string with its nulls, `args`, and the number of fields. -/
structure Split where
  str : Bytes
  args : List Nat
  narg : Nat

def getLoop (max : Nat) (mflag : Bool) (set : Bytes) : Nat → Nat → Bool → Split → Split
  | 0, _, _, f => f
  | fuel + 1, i, intok, f =>
    let r := (chartorune (f.str.drop i)).1
    let nr := (chartorune (f.str.drop i)).2
    if r = 0 then f
    else if utfrune set r then
      if f.narg ≥ max then f
      else
        getLoop max mflag set fuel (i + nr) false
          ⟨f.str.set i 0, f.args.set f.narg (i + nr), if mflag then f.narg else f.narg + 1⟩
    else
      getLoop max mflag set fuel (i + nr) true
        { f with narg := if !intok && mflag then f.narg + 1 else f.narg }

def getfields (str : Bytes) (max : Nat) (mflag : Bool) (set : Bytes) : Split :=
  if max = 0 then ⟨str, [], 0⟩
  else getLoop max mflag set (str.length + 1) 0 false
    ⟨str, List.replicate max 0, if mflag then 0 else 1⟩

/-- The string at the pointer `args[k]`. -/
def Split.field (f : Split) (k : Nat) : Bytes := (f.str.drop (f.args.getD k 0)).takeWhile (· ≠ 0)

/-! ### Runes and single bytes -/

section
variable {s : Bytes}

theorem xor_Tx_ge {c : Nat} (h : (c ^^^ Tx) &&& Testx = 0) : 128 ≤ c := by
  by_contra hlt
  have hall : ∀ c < 128, (c ^^^ Tx) &&& Testx ≠ 0 := by decide
  exact hall c (Nat.not_le.1 hlt) h

theorem charLoop_spec (c0 : Nat) :
    ∀ (fuel l : Nat), fuel ≤ 3 → (∀ k, 1 ≤ k → k < 4 - fuel → k < s.length ∧ 128 ≤ (s.getD k 0).toNat) →
      (fuel < 3 → 4 - fuel ≤ s.length) → s ≠ [] →
      128 ≤ (charLoop s c0 fuel l).1 ∧ 1 ≤ (charLoop s c0 fuel l).2 ∧ (charLoop s c0 fuel l).2 ≤ s.length ∧
        ∀ k, 1 ≤ k → k < (charLoop s c0 fuel l).2 → 128 ≤ (s.getD k 0).toNat
  | 0, l, _, _, _, hs => by
    have hpos := length_pos_iff.2 hs
    exact ⟨show 128 ≤ Runeerror by decide, le_rfl, hpos, fun k h1 h2 => absurd h2 (Nat.not_lt.2 h1)⟩
  | fuel + 1, l, hf, hk, hl, hs => by
    have hpos := length_pos_iff.2 hs
    have hbad : 128 ≤ (Runeerror, 1).1 ∧ 1 ≤ (Runeerror, 1).2 ∧ (Runeerror, 1).2 ≤ s.length ∧
        ∀ k, 1 ≤ k → k < (Runeerror, 1).2 → 128 ≤ (s.getD k 0).toNat :=
      ⟨by decide, le_rfl, hpos, fun k h1 h2 => absurd h2 (Nat.not_lt.2 h1)⟩
    unfold charLoop
    dsimp only
    by_cases hc : ((s.getD (3 - fuel) 0).toNat ^^^ Tx) &&& Testx = 0
    · have hge := xor_Tx_ge hc
      have hin : 3 - fuel < s.length := by
        by_contra hout
        rw [getD_eq_default _ _ (Nat.not_lt.1 hout)] at hge
        exact absurd hge (by decide)
      have hk' : ∀ k, 1 ≤ k → k < 4 - fuel → k < s.length ∧ 128 ≤ (s.getD k 0).toNat := by
        intro k h1 h2
        by_cases hke : k = 3 - fuel
        · subst hke; exact ⟨hin, hge⟩
        · exact hk k h1 (by omega)
      rw [if_neg (not_not.2 hc)]
      split_ifs with h1 h2 h3 h4
      · exact hbad
      · exact hbad
      · exact hbad
      · refine ⟨?_, by omega, by omega, fun k h5 h6 => (hk' k h5 (by omega)).2⟩
        have hR : ∀ i, 1 < i → i ≤ 3 → Rune1 < RuneX i := by
          intro i h5 h6
          interval_cases i <;> decide
        by_cases hi : 3 - fuel = 1
        · have := not_and.1 h2 hi
          show 128 ≤ _
          have hlt := (not_or.1 this).2
          exact lt_of_not_ge hlt
        have := not_and.1 h3 hi
        have hlt := (not_or.1 this).1
        have := hR (3 - fuel) (by omega) (by omega)
        show 128 ≤ _
        have h127 : Rune1 = 127 := rfl
        omega
      · exact charLoop_spec c0 fuel _ (by omega) hk' (fun _ => by omega) hs
    · rw [if_pos hc]
      exact hbad

theorem chartorune_spec {c : UInt8} {t : Bytes} :
    (c.toNat < 128 → chartorune (c :: t) = (c.toNat, 1)) ∧ (128 ≤ c.toNat → 128 ≤ (chartorune (c :: t)).1) ∧
      1 ≤ (chartorune (c :: t)).2 ∧ (chartorune (c :: t)).2 ≤ (c :: t).length ∧
      ∀ k, 1 ≤ k → k < (chartorune (c :: t)).2 → 128 ≤ ((c :: t).getD k 0).toNat := by
  have h0 : (c :: t).getD 0 0 = c := rfl
  unfold chartorune
  rw [h0]
  by_cases hc : c.toNat < Tx
  · rw [if_pos hc]
    refine ⟨fun _ => rfl, fun h => ?_, le_rfl, Nat.succ_le_succ zero_le, fun k h1 h2 => ?_⟩
    · exact absurd hc (Nat.not_lt.2 h)
    · exact absurd h2 (Nat.not_lt.2 h1)
  · rw [if_neg hc]
    obtain ⟨h1, h2, h3, h4⟩ := charLoop_spec (s := c :: t) c.toNat 3 c.toNat le_rfl
      (fun k h1 h2 => by omega) (fun h => absurd h (lt_irrefl 3)) (cons_ne_nil c t)
    exact ⟨fun h => absurd h hc, fun _ => h1, h2, h3, h4⟩

/-- The byte `@`. -/
def at' : UInt8 := 64

theorem utfrune_at (r : Nat) (h0 : r ≠ 0) : utfrune [at'] r = decide (r = 64) := by
  unfold utfrune
  split_ifs with h
  · simp [h0, at', eq_comm]
  have hne : r ≠ 64 := fun h64 => h (by rw [h64]; decide)
  have hf : utfLoop r 1 [at'] = false := by
    show (if at'.toNat < Runeself then if at'.toNat = r then true else utfLoop r 0 [] else _) = false
    rw [if_pos (by decide), if_neg (fun h => hne h.symm)]
    rfl
  show utfLoop r 1 [at'] = _
  rw [hf, decide_eq_false hne]

/-! ### The fields of `"@"` -/

variable {v w : Bytes} {i fuel : Nat} {intok : Bool} {f : Split} {m : Nat}

/-- What `getfields` is given: a C string. -/
def NoNull (s : Bytes) : Prop := ∀ c ∈ s, c ≠ 0

theorem rune_ne_zero {c : UInt8} {t : Bytes} (hc : c ≠ 0) : (chartorune (c :: t)).1 ≠ 0 := by
  obtain ⟨h1, h2, -⟩ := chartorune_spec (c := c) (t := t)
  by_cases hlt : c.toNat < 128
  · rw [h1 hlt]
    exact fun h => hc (UInt8.toNat_inj.1 h)
  · have := h2 (Nat.not_lt.1 hlt)
    omega

theorem rune_eq_at {c : UInt8} {t : Bytes} : (chartorune (c :: t)).1 = 64 ↔ c = at' := by
  obtain ⟨h1, h2, -⟩ := chartorune_spec (c := c) (t := t)
  by_cases hlt : c.toNat < 128
  · rw [h1 hlt]
    exact UInt8.toNat_inj (b := at')
  · have h3 := h2 (Nat.not_lt.1 hlt)
    exact ⟨fun h => by omega, fun h => by rw [h] at hlt; exact absurd (by decide) hlt⟩

theorem getLoop_skip {c : UInt8} {t : Bytes} (hs : f.str.drop i = c :: t) (h0 : c ≠ 0) (hat : c ≠ at') :
    getLoop m false [at'] (fuel + 1) i intok f =
      getLoop m false [at'] fuel (i + (chartorune (c :: t)).2) true f := by
  have hu : utfrune [at'] (chartorune (c :: t)).1 = false := by
    rw [utfrune_at _ (rune_ne_zero h0), decide_eq_false (mt rune_eq_at.1 hat)]
  rw [getLoop, hs]
  simp [rune_ne_zero h0, hu]

theorem getLoop_at {t : Bytes} (hs : f.str.drop i = at' :: t) (hn : f.narg < m) :
    getLoop m false [at'] (fuel + 1) i intok f =
      getLoop m false [at'] fuel (i + 1) false ⟨f.str.set i 0, f.args.set f.narg (i + 1), f.narg + 1⟩ := by
  have hr : chartorune (at' :: t) = (64, 1) := (chartorune_spec (c := at') (t := t)).1 (by decide)
  have hu : utfrune [at'] 64 = true := by rw [utfrune_at _ (by decide)]; rfl
  rw [getLoop, hs, hr]
  simp [hu, Nat.not_le.2 hn]

theorem getLoop_to (hs : f.str.drop i = v ++ w) (hv : NoNull v) (hat : at' ∉ v) (hw : w = [] ∨ ∃ t, w = at' :: t)
    (hfuel : v.length + w.length < fuel) (intok : Bool) :
    ∃ fuel' intok', w.length < fuel' ∧
      getLoop m false [at'] fuel i intok f = getLoop m false [at'] fuel' (i + v.length) intok' f := by
  induction hn : v.length using Nat.strong_induction_on generalizing v i fuel intok with
  | _ n ih =>
    cases v with
    | nil =>
      cases hn
      exact ⟨fuel, intok, by rw [length_nil] at hfuel; omega, rfl⟩
    | cons c t =>
      obtain ⟨-, -, h1, h2, h3⟩ := chartorune_spec (c := c) (t := t ++ w)
      obtain ⟨fuel, rfl⟩ := Nat.exists_eq_succ_of_ne_zero (Nat.ne_zero_of_lt hfuel)
      have hle : (chartorune (c :: (t ++ w))).2 ≤ (c :: t).length := by
        by_contra hlt
        rcases hw with rfl | ⟨x, rfl⟩
        · rw [append_nil] at h2 hlt
          exact hlt h2
        · have hbyte := h3 (c :: t).length (Nat.succ_le_succ zero_le) (Nat.not_le.1 hlt)
          rw [← cons_append, getD_append_right _ _ _ _ le_rfl, tsub_self] at hbyte
          exact absurd hbyte (by show ¬ 128 ≤ at'.toNat; decide)
      rw [getLoop_skip hs (hv c mem_cons_self) (fun h => hat (h ▸ mem_cons_self))]
      have hdrop : f.str.drop (i + (chartorune (c :: (t ++ w))).2) =
          (c :: t).drop (chartorune (c :: (t ++ w))).2 ++ w := by
        rw [← drop_drop, hs, drop_append_of_le_length hle]
      have hlen : ((c :: t).drop (chartorune (c :: (t ++ w))).2).length =
          (c :: t).length - (chartorune (c :: (t ++ w))).2 := length_drop
      obtain ⟨fuel', intok', hf', heq⟩ := ih _ (by omega) hdrop (fun x hx => hv x (mem_of_mem_drop hx))
        (fun hx => hat (mem_of_mem_drop hx)) (show _ < fuel by omega) true rfl
      refine ⟨fuel', intok', hf', heq.trans ?_⟩
      congr 1
      omega

theorem getLoop_end (hs : f.str.drop i = v) (hv : NoNull v) (hat : at' ∉ v) (hfuel : v.length < fuel) (intok : Bool) :
    getLoop m false [at'] fuel i intok f = f := by
  obtain ⟨fuel', intok', hf', heq⟩ := getLoop_to (w := []) (by rw [hs, append_nil]) hv hat
    (.inl rfl) hfuel intok
  obtain ⟨fuel', rfl⟩ := Nat.exists_eq_succ_of_ne_zero (Nat.ne_zero_of_lt hf')
  rw [heq, getLoop, ← drop_drop, hs, drop_length]
  have hr : chartorune [] = (0, 1) := rfl
  rw [hr]
  rfl

theorem getLoop_one (hs : f.str.drop i = v ++ at' :: w) (hv : NoNull v) (hat : at' ∉ v) (hn : f.narg < m)
    (hfuel : v.length + (at' :: w).length < fuel) (intok : Bool) :
    ∃ fuel', w.length < fuel' ∧ getLoop m false [at'] fuel i intok f =
      getLoop m false [at'] fuel' (i + v.length + 1) false
        ⟨f.str.set (i + v.length) 0, f.args.set f.narg (i + v.length + 1), f.narg + 1⟩ := by
  obtain ⟨fuel', intok', hf', heq⟩ := getLoop_to hs hv hat (.inr ⟨w, rfl⟩) hfuel intok
  obtain ⟨fuel', rfl⟩ := Nat.exists_eq_succ_of_ne_zero (Nat.ne_zero_of_lt hf')
  have hdrop : f.str.drop (i + v.length) = at' :: w := by rw [← drop_drop, hs, drop_left]
  exact ⟨fuel', by rw [length_cons] at hf'; omega, heq.trans (getLoop_at hdrop hn)⟩

theorem takeWhile_noNull (hv : NoNull v) (t : Bytes) : (v ++ 0 :: t).takeWhile (· ≠ 0) = v := by
  rw [takeWhile_append_of_pos (by simpa [NoNull] using hv)]
  simp

theorem takeWhile_of_noNull (hv : NoNull v) : v.takeWhile (· ≠ 0) = v :=
  takeWhile_eq_self_iff.2 (by simpa [NoNull] using hv)

theorem getfields_none (hv : NoNull v) (hat : at' ∉ v) :
    (getfields v 3 false [at']).narg = 1 ∧ (getfields v 3 false [at']).field 0 = v := by
  have heq : getfields v 3 false [at'] = ⟨v, [0, 0, 0], 1⟩ := by
    unfold getfields
    exact getLoop_end (i := 0) (f := ⟨v, [0, 0, 0], 1⟩) rfl hv hat (Nat.lt_succ_self _) false
  rw [heq]
  exact ⟨rfl, takeWhile_of_noNull hv⟩

theorem getfields_one (hv : NoNull v) (hw : NoNull w) (hat : at' ∉ v) (hat' : at' ∉ w) :
    (getfields (v ++ at' :: w) 3 false [at']).narg = 2 ∧ (getfields (v ++ at' :: w) 3 false [at']).field 0 = v ∧
      (getfields (v ++ at' :: w) 3 false [at']).field 1 = w := by
  have heq : getfields (v ++ at' :: w) 3 false [at'] = ⟨v ++ 0 :: w, [0, v.length + 1, 0], 2⟩ := by
    unfold getfields
    obtain ⟨fuel', hf', heq⟩ := getLoop_one (f := ⟨v ++ at' :: w, [0, 0, 0], 1⟩) (i := 0) rfl hv hat
      (show 1 < 3 by decide) (show _ < (v ++ at' :: w).length + 1 by rw [length_append]; exact Nat.lt_succ_self _) false
    refine heq.trans ?_
    rw [zero_add]
    have hset : (v ++ at' :: w).set v.length 0 = v ++ 0 :: w := by
      rw [set_append_right _ _ le_rfl, tsub_self]
      rfl
    show getLoop 3 false [at'] fuel' (v.length + 1) false ⟨(v ++ at' :: w).set v.length 0, _, 2⟩ = _
    rw [hset]
    refine getLoop_end ?_ hw hat' hf' false
    show (v ++ 0 :: w).drop (v.length + 1) = w
    rw [← drop_drop, drop_left]
    rfl
  rw [heq]
  refine ⟨rfl, takeWhile_noNull hv w, ?_⟩
  show ((v ++ 0 :: w).drop (v.length + 1)).takeWhile _ = w
  rw [← drop_drop, drop_left]
  exact takeWhile_of_noNull hw

theorem narg_le : ∀ (fuel i : Nat) (intok : Bool) (f : Split),
    f.narg ≤ (getLoop m false [at'] fuel i intok f).narg
  | 0, _, _, _ => le_rfl
  | fuel + 1, i, intok, f => by
    rw [getLoop]
    split
    · exact le_rfl
    split
    · split
      · exact le_rfl
      · refine le_trans ?_ (narg_le fuel _ _ _)
        split <;> simp
    · refine le_trans ?_ (narg_le fuel _ _ _)
      split <;> simp

theorem getfields_more {x : Bytes} (hv : NoNull v) (hw : NoNull w) (hat : at' ∉ v) (hat' : at' ∉ w) :
    3 ≤ (getfields (v ++ at' :: (w ++ at' :: x)) 3 false [at']).narg := by
  unfold getfields
  obtain ⟨fuel', hf', heq⟩ := getLoop_one (f := ⟨v ++ at' :: (w ++ at' :: x), [0, 0, 0], 1⟩) (i := 0)
    rfl hv hat (show 1 < 3 by decide)
    (show _ < (v ++ at' :: (w ++ at' :: x)).length + 1 by rw [length_append]; exact Nat.lt_succ_self _) false
  refine le_trans ?_ (congrArg Split.narg heq).ge
  rw [zero_add]
  have hset : (v ++ at' :: (w ++ at' :: x)).set v.length 0 = v ++ 0 :: (w ++ at' :: x) := by
    rw [set_append_right _ _ le_rfl, tsub_self]
    rfl
  show 3 ≤ (getLoop 3 false [at'] fuel' (v.length + 1) false
    ⟨(v ++ at' :: (w ++ at' :: x)).set v.length 0, _, 2⟩).narg
  rw [hset]
  obtain ⟨fuel'', -, heq'⟩ := getLoop_one
    (f := ⟨v ++ 0 :: (w ++ at' :: x), [0, 0, 0].set 1 (v.length + 1), 2⟩) (i := v.length + 1)
    (by
      show (v ++ 0 :: (w ++ at' :: x)).drop (v.length + 1) = _
      rw [← drop_drop, drop_left]
      rfl) hw hat' (show 2 < 3 by decide) (by rw [length_append] at hf'; exact hf') false
  rw [heq']
  refine le_trans ?_ (narg_le _ _ _ _)
  exact le_refl 3

end

end Node9.Rune
