import Node9.JsonValid

/-!
# Reading texts of a known shape

`Decodes s w`: the text `s`, before something that cannot belong to a number, is read as `w`. Here for strings with
their escapes, for integers, and for arrays and objects as `bracket` writes them with whitespace as indent.
-/

namespace Node9.Json
open Buf Rfc8259 Lua List

section Strings
variable {n : Nat} {s t parts : Bytes} {b : UInt8} {x : Bytes × Bytes}

theorem stringLoop_ordinary (hb : ordinary b) (h : stringLoop n t (parts ++ [b]) = .ok x) :
    stringLoop n (b :: t) parts = .ok x := by
  cases n with
  | zero => cases h
  | succ n =>
    unfold stringLoop at h ⊢
    rw [dropWhile_cons_of_pos hb, takeWhile_cons_of_pos hb]
    cases hd : t.dropWhile ordinary with
    | nil =>
      rw [hd] at h
      cases h
    | cons c u =>
      rw [hd] at h
      rw [append_cons]
      exact h

theorem stringLoop_escape {e : UInt8} (he : unescape e = some b) :
    stringLoop (n + 1) (backslash :: e :: t) parts = stringLoop n t (parts ++ [b]) := by
  conv_lhs => unfold stringLoop
  have hd : (backslash :: e :: t).dropWhile ordinary = backslash :: e :: t := rfl
  have ht : (backslash :: e :: t).takeWhile ordinary = [] := rfl
  rw [hd, ht]
  dsimp only
  rw [if_neg (by decide), he, append_nil]

theorem stringLoop_unicode {c d e f : UInt8} (h : [c, d, e, f].all isHex) :
    stringLoop (n + 1) (backslash :: letterU :: c :: d :: e :: f :: t) parts =
      stringLoop n t (parts ++ utf8 (tonumber16 [c, d, e, f])) := by
  conv_lhs => unfold stringLoop
  have hd : (backslash :: letterU :: c :: d :: e :: f :: t).dropWhile ordinary =
    backslash :: letterU :: c :: d :: e :: f :: t := rfl
  have ht : (backslash :: letterU :: c :: d :: e :: f :: t).takeWhile ordinary = [] := rfl
  have hu : unescape letterU = none := rfl
  rw [hd, ht]
  dsimp only
  rw [if_neg (by decide), hu]
  dsimp only
  rw [if_pos rfl, if_pos ⟨rfl, h⟩, append_nil]
  rfl

/-- A byte has an escape of two bytes, or its code. -/
def escaped (b : UInt8) : Bool :=
  match escape b with
  | [x, e] => x == backslash && unescape e == some b
  | [x, y, c, d, e, f] => x == backslash && y == letterU && [c, d, e, f].all isHex &&
    utf8 (tonumber16 [c, d, e, f]) == [b]
  | _ => false

theorem escape_cases (b : UInt8) : (escape b = [b] ∧ ordinary b) ∨ (∃ e, escape b = [backslash, e] ∧
    unescape e = some b) ∨
    ∃ c d e f, escape b = [backslash, letterU, c, d, e, f] ∧ [c, d, e, f].all isHex ∧
      utf8 (tonumber16 [c, d, e, f]) = [b] := by
  have h := forall_byte (p := fun b => (escape b == [b] && ordinary b) || escaped b) (by decide +kernel) b
  rw [Bool.or_eq_true, Bool.and_eq_true, beq_iff_eq] at h
  rcases h with h | h
  · exact .inl h
  right
  unfold escaped at h
  split at h
  · rename_i x e he
    rw [Bool.and_eq_true, beq_iff_eq, beq_iff_eq] at h
    exact .inl ⟨e, by rw [he, h.1], h.2⟩
  · rename_i x y c d e f he
    simp only [Bool.and_eq_true, beq_iff_eq] at h
    obtain ⟨⟨⟨h1, h2⟩, h3⟩, h4⟩ := h
    exact .inr ⟨c, d, e, f, by rw [he, h1, h2], h3, h4⟩
  · cases h

theorem stringLoop_escape_string (parts s : Bytes) (hn : (escape_string s ++ quote :: t).length < n) :
    stringLoop n (escape_string s ++ quote :: t) parts = .ok (parts ++ s, t) := by
  induction s generalizing n parts with
  | nil =>
    cases n with
    | zero => cases hn
    | succ n =>
      rw [append_nil]
      conv_lhs => unfold stringLoop
      change Except.ok (parts ++ [], t) = _
      rw [append_nil]
  | cons b s ih =>
    have hcons : escape_string (b :: s) = escape b ++ escape_string s := flatMap_cons
    rw [hcons, append_assoc] at hn ⊢
    have hparts : parts ++ b :: s = parts ++ [b] ++ s := append_cons _ _ _
    rcases escape_cases b with ⟨h, hb⟩ | ⟨e, h, he⟩ | ⟨c, d, e, f, h, hhex, hv⟩
    · rw [h, singleton_append, length_cons] at hn
      rw [h, singleton_append, hparts]
      exact stringLoop_ordinary hb (ih _ (by omega))
    · rw [h] at hn ⊢
      cases n with
      | zero => cases hn
      | succ n =>
        simp only [cons_append, nil_append, length_cons] at hn ⊢
        rw [stringLoop_escape he, ih _ (by omega), hparts]
    · rw [h] at hn ⊢
      cases n with
      | zero => cases hn
      | succ n =>
        simp only [cons_append, nil_append, length_cons] at hn ⊢
        rw [stringLoop_unicode hhex, hv, ih _ (by omega), hparts]

theorem decode_string_escape_string (s t : Bytes) :
    decode_string (quote :: (escape_string s ++ quote :: t)) = .ok (s, t) :=
  stringLoop_escape_string [] s (Nat.lt_succ_of_lt (Nat.lt_succ_self _))

end Strings

/-- `s` is read as `w`, whatever follows that cannot be part of a number. -/
def Decodes (s : Bytes) (w : Value) : Prop :=
  ∀ n r, Off isNum r → (s ++ r).length < n → decode_value n (s ++ r) = .ok (w, r)

namespace Decodes
variable {s p : Bytes} {w : Value} {n : Nat}

theorem decode_value_ws (hp : Ws p) : decode_value n (p ++ s) = decode_value n s := by
  cases n with
  | zero => rfl
  | succ n =>
    have hskip : skip_ws (p ++ s) = skip_ws s := skipWs_append hp
    rw [decode_value, decode_value, hskip]

theorem ws (h : Decodes s w) (hp : Ws p) : Decodes (p ++ s) w := by
  intro n r hr hn
  rw [append_assoc] at hn ⊢
  rw [decode_value_ws hp]
  exact h n r hr (by rw [length_append] at hn; omega)

theorem head (h : Decodes s w) : ∃ b t, skipWs s = b :: t ∧ b ≠ endArray := by
  have hok := h (s.length + 1) [] off_nil (by rw [append_nil]; exact Nat.lt_succ_self _)
  rw [append_nil, decode_value] at hok
  cases hs : skip_ws s with
  | nil =>
    rw [hs] at hok
    cases hok
  | cons b t =>
    refine ⟨b, t, hs, fun hb => ?_⟩
    rw [hs, hb] at hok
    cases hok

theorem bool (b : Bool) : Decodes (if b then trueLit else falseLit) (.bool b) := by
  intro n r _ hn
  cases n with
  | zero => cases hn
  | succ n => cases b <;> rfl

theorem str (s : Bytes) : Decodes (quote :: escape_string s ++ [quote]) (.str s) := by
  intro n r _ hn
  cases n with
  | zero => cases hn
  | succ n =>
    have hs : quote :: escape_string s ++ [quote] ++ r = quote :: (escape_string s ++ quote :: r) := by simp
    rw [hs]
    change (decode_string (quote :: (escape_string s ++ quote :: r))).map (fun r => (Value.str r.1, r.2)) = _
    rw [decode_string_escape_string]
    rfl

theorem optional_off {q : UInt8 → Bool} {r : Bytes} (hr : Off q r) : optional q r = ([], r) := by
  cases r with
  | nil => rfl
  | cons b r => exact if_neg (by simp [hr b rfl])

theorem matchNumber_format0f (neg : Bool) (n : Nat) {r : Bytes} (hr : Off isNum r) :
    matchNumber (format0f neg n ++ r) = some (format0f neg n, r) := by
  obtain ⟨hd, -⟩ := decimal_spec n
  have hdig : Off isDigit r := hr.mono fun b hb => isNum_of_isDigit hb
  have hneg : optional (· == minus) (format0f neg n ++ r) = (sign neg, decimal n ++ r) := by
    rw [format0f, roundEven_natCast]
    cases neg with
    | true => rfl
    | false => exact optional_off (hd.off_sign.mono fun b hb => by simp [isSign, eq_of_beq hb])
  have hpt : optional (· == point) r = ([], r) := optional_off (hr.mono fun b hb => by simp [isNum, eq_of_beq hb])
  have he : optional isE r = ([], r) := optional_off (hr.mono fun b hb => by simp [isNum, hb])
  have hsg : optional isSign r = ([], r) := optional_off (hr.mono fun b hb => by simp [isNum, hb])
  have htake : r.takeWhile isDigit = [] := takeWhile_run (s := []) rfl hdig
  have hdrop : r.dropWhile isDigit = r := dropWhile_run (s := []) rfl hdig
  unfold matchNumber
  rw [hneg]
  dsimp only
  rw [takeWhile_run hd.2 hdig, dropWhile_run hd.2 hdig, hpt]
  dsimp only
  rw [htake, hdrop, he]
  dsimp only
  rw [hsg]
  dsimp only
  rw [htake, hdrop, isEmpty_eq_false_iff.2 hd.1, if_neg (by decide), format0f, roundEven_natCast]
  simp only [append_nil]

theorem decode_value_digit {b : UInt8} (hb : b = minus ∨ isDigit b) :
    decode_value (n + 1) (b :: s) = decode_number (b :: s) := by
  rcases hb with rfl | hb
  · rfl
  have hdig : ∀ x, isDigit x = false → b ≠ x := fun x hx hbx => by
    rw [← hbx, hb] at hx
    cases hx
  have hws : skip_ws (b :: s) = b :: s := skipWs_cons (by
    simp only [isWs, Bool.or_eq_false_iff, beq_eq_false_iff_ne]
    exact ⟨⟨⟨hdig _ rfl, hdig _ rfl⟩, hdig _ rfl⟩, hdig _ rfl⟩)
  rw [decode_value, hws]
  dsimp only
  rw [if_neg (hdig _ rfl), if_neg (hdig _ rfl), if_neg (hdig _ rfl), if_neg (hdig _ rfl), if_neg (hdig _ rfl),
    if_neg (hdig _ rfl), if_pos (by rw [hb, Bool.or_true])]

theorem int (neg : Bool) {n : Nat} (hn : n ≤ 10 ^ 15) : Decodes (format0f neg n) (.num (.fin neg n)) := by
  intro m r hr hm
  cases m with
  | zero => cases hm
  | succ m =>
    have hnum : decode_number (format0f neg n ++ r) = .ok (.num (.fin neg n), r) := by
      unfold decode_number
      rw [matchNumber_format0f neg n hr]
      dsimp only
      rw [tonumber_format0f neg (lt_of_le_of_lt hn (by norm_num))]
    obtain ⟨b, t, hbt, hb⟩ : ∃ b t, format0f neg n = b :: t ∧ (b = minus ∨ isDigit b) := by
      obtain ⟨⟨hne, hall⟩, -⟩ := decimal_spec n
      rw [format0f, roundEven_natCast]
      cases neg with
      | true => exact ⟨_, _, rfl, .inl rfl⟩
      | false =>
        cases hdec : decimal n with
        | nil => exact absurd hdec hne
        | cons b t =>
          rw [hdec, all_cons, Bool.and_eq_true] at hall
          exact ⟨b, t, rfl, .inr hall.1⟩
    rw [hbt] at hnum ⊢
    exact (decode_value_digit hb).trans hnum

end Decodes

/-- The pairs of an array after index `k`. -/
def indexed {V : Type} (k : Nat) : List V → List (Key × V)
  | [] => []
  | u :: us => (.num (.ofNat (k + 1)), u) :: indexed (k + 1) us

/-- The pairs in the order of their assignment. -/
def assignAll (es fs : List (Key × Value)) : List (Key × Value) := fs.foldl (fun es f => assign es f.1 f.2) es

theorem assignAll_of_nodup {es fs : List (Key × Value)} (hnd : ((es ++ fs).map Prod.fst).Nodup)
    (hnil : ∀ f ∈ fs, f.2.isNil = false) : assignAll es fs = es ++ fs := by
  induction fs generalizing es with
  | nil => exact (append_nil es).symm
  | cons f fs ih =>
    have hassign : assign es f.1 f.2 = es ++ [f] := by
      have hfilter : es.filter (fun e => e.1 ≠ f.1) = es := by
        refine filter_eq_self.2 fun e he => ?_
        rw [map_append, nodup_append] at hnd
        have := hnd.2.2 e.1 (mem_map_of_mem he) f.1 (mem_map_of_mem mem_cons_self)
        simpa using this
      unfold assign
      dsimp only
      rw [hfilter, hnil f mem_cons_self]
      rfl
    change assignAll (assign es f.1 f.2) fs = _
    rw [hassign, ih (by rw [append_assoc]; exact hnd) fun x hx => hnil x (mem_cons_of_mem _ hx),
      append_assoc]
    rfl

section Items
variable {n m : Nat} {sw tw r s w : Bytes}

theorem arrayItems_ws (hw : Ws w) (arr : List (Key × Value)) (k : Nat) :
    arrayItems (decode_value n) m (w ++ s) arr k = arrayItems (decode_value n) m s arr k := by
  cases m with
  | zero => rfl
  | succ m => rw [arrayItems, arrayItems, Decodes.decode_value_ws hw]

theorem arrayItems_skip (arr : List (Key × Value)) (k : Nat) :
    arrayItems (decode_value n) m (skip_ws s) arr k = arrayItems (decode_value n) m s arr k := by
  obtain ⟨w, hw, hs⟩ := ws_skipWs s
  conv_rhs => rw [hs]
  exact (arrayItems_ws hw arr k).symm

theorem arrayItems_intercalate (hsw : Ws sw) (htw : Ws tw) {ps : List (Bytes × Value)} (hne : ps ≠ [])
    (hps : ∀ p ∈ ps, Decodes p.1 p.2) (arr : List (Key × Value)) (k : Nat)
    (hn : (intercalate (valueSeparator :: sw) (ps.map Prod.fst) ++ (tw ++ endArray :: r)).length < n)
    (hm : (intercalate (valueSeparator :: sw) (ps.map Prod.fst) ++ (tw ++ endArray :: r)).length < m) :
    arrayItems (decode_value n) m (intercalate (valueSeparator :: sw) (ps.map Prod.fst) ++ (tw ++ endArray :: r))
      arr k = .ok (.table (assignAll arr (indexed k (ps.map Prod.snd))), r) := by
  induction ps generalizing m arr k with
  | nil => exact absurd rfl hne
  | cons p ps ih =>
    cases m with
    | zero => cases hm
    | succ m =>
      have hp := hps p mem_cons_self
      cases ps with
      | nil =>
        rw [map_singleton, intercalate_singleton] at hn hm ⊢
        rw [arrayItems, hp n _ (ws_off htw (off_cons rfl)) hn]
        have hskip : skip_ws (tw ++ endArray :: r) = endArray :: r := skipWs_append htw
        dsimp only [bind, Except.bind]
        rw [hskip]
        rfl
      | cons q ps =>
        rw [map_cons, intercalate_cons_of_ne_nil (by simp)] at hn hm ⊢
        simp only [append_assoc, cons_append] at hn hm ⊢
        rw [arrayItems, hp n _ (off_cons rfl) hn]
        simp only [length_append, length_cons] at hn hm
        change arrayItems (decode_value n) m (skip_ws (sw ++ _)) (assign arr _ p.2) (k + 1) = _
        rw [arrayItems_skip, arrayItems_ws hsw]
        refine ih (cons_ne_nil _ _) (fun x hx => hps x (mem_cons_of_mem _ hx)) _ _ ?_ ?_
        · simp only [length_append, length_cons]
          omega
        · simp only [length_append, length_cons]
          omega

/-- A member, with whitespace before it and behind its colon. -/
def member (iw cw k s : Bytes) : Bytes := iw ++ quote :: (escape_string k ++ quote :: nameSeparator :: (cw ++ s))

theorem objectItems_member {iw cw k s : Bytes} {v : Value} (hiw : Ws iw) (hcw : Ws cw) (hs : Decodes s v)
    (obj : List (Key × Value)) (hr : Off isNum r) (hn : (member iw cw k s ++ r).length < n) :
    objectItems (decode_value n) (m + 1) (member iw cw k s ++ r) obj =
      match skip_ws r with
      | [] => decode_error [] (.comma endObject)
      | b :: t =>
        if b = endObject then .ok (.table (assign obj (.str k) v), t)
        else if b ≠ valueSeparator then decode_error (b :: t) (.comma endObject)
        else objectItems (decode_value n) m t (assign obj (.str k) v) := by
  have hmem : member iw cw k s ++ r = iw ++ quote :: (escape_string k ++ quote :: nameSeparator ::
    (cw ++ (s ++ r))) := by
    simp [member]
  rw [hmem] at hn ⊢
  simp only [length_append, length_cons] at hn
  have hval : decode_value n (skip_ws (cw ++ (s ++ r))) = .ok (v, r) := by
    obtain ⟨w, hw, hs'⟩ := ws_skipWs (cw ++ (s ++ r))
    have : decode_value n (cw ++ (s ++ r)) = decode_value n (skip_ws (cw ++ (s ++ r))) := by
      conv_lhs => rw [hs', Decodes.decode_value_ws hw]
      rfl
    rw [← this, Decodes.decode_value_ws hcw]
    exact hs n r hr (by rw [length_append]; omega)
  have hskip : skip_ws (iw ++ quote :: (escape_string k ++ quote :: nameSeparator :: (cw ++ (s ++ r)))) =
      quote :: (escape_string k ++ quote :: nameSeparator :: (cw ++ (s ++ r))) := skipWs_append hiw
  rw [objectItems, hskip]
  change (decode_string _ >>= _) = _
  rw [decode_string_escape_string]
  change (decode_value n (skip_ws (cw ++ (s ++ r))) >>= _) = _
  rw [hval]
  rfl

theorem objectItems_ws (hw : Ws w) (obj : List (Key × Value)) :
    objectItems (decode_value n) m (w ++ s) obj = objectItems (decode_value n) m s obj := by
  cases m with
  | zero => rfl
  | succ m =>
    have hskip : skip_ws (w ++ s) = skip_ws s := skipWs_append hw
    rw [objectItems, objectItems, hskip]

theorem objectItems_skip (obj : List (Key × Value)) :
    objectItems (decode_value n) m (skip_ws s) obj = objectItems (decode_value n) m s obj := by
  obtain ⟨w, hw, hs⟩ := ws_skipWs s
  conv_rhs => rw [hs]
  exact (objectItems_ws hw obj).symm

/-- A key, its value, and the text of the value. -/
structure Pair where
  key : Bytes
  value : Value
  text : Bytes

theorem objectItems_intercalate {iw cw : Bytes} (hiw : Ws iw) (hcw : Ws cw) (hsw : Ws sw) (htw : Ws tw) {ps : List Pair}
    (hne : ps ≠ []) (hps : ∀ p ∈ ps, Decodes p.text p.value) (obj : List (Key × Value))
    (hn : (intercalate (valueSeparator :: sw) (ps.map fun p => member iw cw p.key p.text) ++
      (tw ++ endObject :: r)).length < n)
    (hm : (intercalate (valueSeparator :: sw) (ps.map fun p => member iw cw p.key p.text) ++
      (tw ++ endObject :: r)).length < m) :
    objectItems (decode_value n) m (intercalate (valueSeparator :: sw) (ps.map fun p => member iw cw p.key p.text) ++
      (tw ++ endObject :: r)) obj = .ok (.table (assignAll obj (ps.map fun p => (.str p.key, p.value))), r) := by
  induction ps generalizing m obj with
  | nil => exact absurd rfl hne
  | cons p ps ih =>
    cases m with
    | zero => cases hm
    | succ m =>
      have hp := hps p mem_cons_self
      cases ps with
      | nil =>
        rw [map_singleton, intercalate_singleton] at hn hm ⊢
        rw [objectItems_member hiw hcw hp obj (ws_off htw (off_cons rfl)) hn]
        have hskip : skip_ws (tw ++ endObject :: r) = endObject :: r := skipWs_append htw
        rw [hskip]
        rfl
      | cons q ps =>
        rw [map_cons, intercalate_cons_of_ne_nil (by simp)] at hn hm ⊢
        simp only [append_assoc, cons_append] at hn hm ⊢
        rw [objectItems_member hiw hcw hp obj (off_cons rfl) hn]
        simp only [length_append, length_cons] at hn hm
        change objectItems (decode_value n) m (sw ++ _) (assign obj _ p.value) = _
        rw [objectItems_ws hsw]
        refine ih (cons_ne_nil _ _) (fun x hx => hps x (mem_cons_of_mem _ hx)) _ ?_ ?_
        · simp only [length_append, length_cons]
          omega
        · simp only [length_append, length_cons]
          omega

end Items


section Indexed
variable {V W : Type} {k i : Nat} {us : List V} {e : Key × V}

theorem eq_ofNat (a b : Nat) : (Number.ofNat a).eq (.ofNat b) = (a == b) := by
  simp [Number.eq, Number.ofNat, Number.signed]

theorem lt_ofNat (a b : Nat) : (Number.ofNat a).lt (.ofNat b) = decide (a < b) := by
  simp [Number.lt, Number.ofNat, Number.signed]

theorem whole_ofNat (a : Nat) : (Number.ofNat a).whole = true := by
  simp [Number.whole, Number.ofNat]

theorem ofNat_inj {a b : Nat} (h : Number.ofNat a = .ofNat b) : a = b := by
  have := eq_ofNat a b
  rw [h, eq_ofNat, beq_self_eq_true] at this
  exact (eq_of_beq this.symm)

theorem mem_indexed : e ∈ indexed k us ↔ ∃ i, ∃ hi : i < us.length, e = (.num (.ofNat (k + i + 1)), us[i]) := by
  induction us generalizing k with
  | nil => simp [indexed]
  | cons u us ih =>
    rw [indexed, mem_cons, ih]
    constructor
    · rintro (rfl | ⟨i, hi, rfl⟩)
      · exact ⟨0, Nat.zero_lt_succ _, rfl⟩
      · exact ⟨i + 1, Nat.succ_lt_succ hi, by rw [Nat.add_right_comm k 1 i]; rfl⟩
    · rintro ⟨i, hi, rfl⟩
      cases i with
      | zero => exact .inl rfl
      | succ i => exact .inr ⟨i, Nat.lt_of_succ_lt_succ hi, by rw [Nat.add_right_comm k 1 i]; rfl⟩

theorem nodup_indexed : ((indexed k us).map Prod.fst).Nodup := by
  induction us generalizing k with
  | nil => exact nodup_nil
  | cons u us ih =>
    refine nodup_cons.2 ⟨fun hm => ?_, ih⟩
    obtain ⟨e, he, hk⟩ := mem_map.1 hm
    obtain ⟨i, hi, rfl⟩ := mem_indexed.1 he
    have := ofNat_inj (Key.num.inj hk)
    omega

theorem length_indexed : (indexed k us).length = us.length := by
  induction us generalizing k with
  | nil => rfl
  | cons u us ih => exact congrArg (· + 1) ih

theorem map_indexed (f : V → W) : (indexed k us).map (fun p => (p.1, f p.2)) = indexed k (us.map f) := by
  induction us generalizing k with
  | nil => rfl
  | cons u us ih => exact congrArg (_ :: ·) ih

theorem snd_mem_of_mem_indexed (he : e ∈ indexed k us) : e.2 ∈ us := by
  obtain ⟨i, hi, rfl⟩ := mem_indexed.1 he
  exact getElem_mem hi

theorem arrayLoop_spec {es : List (Key × V)} (hes : ∀ e ∈ es, ∃ i < k, e.1 = .num (.ofNat (i + 1))) (m count : Nat) :
    ∃ max, m ≤ max ∧ (max ≤ m ∨ max ≤ k) ∧ (∀ i, Key.num (.ofNat i) ∈ es.map Prod.fst → i ≤ max) ∧
      arrayLoop es (.ofNat m) count = ((Number.ofNat max).eq (.ofNat (count + es.length))) := by
  induction es generalizing m count with
  | nil => exact ⟨m, le_rfl, .inl le_rfl, fun _ h => absurd h not_mem_nil, rfl⟩
  | cons e es ih =>
    obtain ⟨key, x⟩ := e
    obtain ⟨i, hi, rfl⟩ : ∃ i < k, key = .num (.ofNat (i + 1)) := hes _ mem_cons_self
    have hstep : arrayLoop ((.num (.ofNat (i + 1)), x) :: es) (.ofNat m) count =
        arrayLoop es (.ofNat (max m (i + 1))) (count + 1) := by
      rw [arrayLoop, whole_ofNat, lt_ofNat, lt_ofNat]
      by_cases hlt : m < i + 1
      · rw [max_eq_right hlt.le]
        simp [hlt]
      · rw [max_eq_left (Nat.not_lt.1 hlt)]
        simp [hlt]
    obtain ⟨M, h1, h2, h3, h4⟩ := ih (fun e he => hes e (mem_cons_of_mem _ he)) (max m (i + 1)) (count + 1)
    refine ⟨M, by omega, by omega, fun j hj => ?_, ?_⟩
    · rcases mem_cons.1 hj with hj | hj
      · have := ofNat_inj (Key.num.inj hj)
        omega
      · exact h3 j hj
    · rw [hstep, h4, length_cons, Nat.add_right_comm count 1, add_assoc]

theorem is_array_of_perm {es : List (Key × V)} (hp : es.Perm (indexed 0 us)) (hne : us ≠ []) : is_array es = true := by
  have hmem : ∀ e ∈ es, ∃ i < us.length, e.1 = .num (.ofNat (i + 1)) := fun e he => by
    obtain ⟨i, hi, rfl⟩ := mem_indexed.1 (hp.mem_iff.1 he)
    exact ⟨i, hi, by rw [zero_add]⟩
  obtain ⟨M, -, h2, h3, h4⟩ := arrayLoop_spec hmem 0 0
  have hlen : es.length = us.length := hp.length_eq.trans length_indexed
  have hpos : 0 < us.length := length_pos_iff.2 hne
  have hlast : Key.num (.ofNat us.length) ∈ es.map Prod.fst := by
    refine mem_map.2 ⟨_, hp.mem_iff.2 (mem_indexed.2 ⟨us.length - 1, by omega, rfl⟩), ?_⟩
    dsimp only
    rw [zero_add, Nat.sub_add_cancel hpos]
  have hM := h3 _ hlast
  rw [is_array, h4, eq_ofNat, beq_iff_eq, hlen]
  omega

theorem index_of_perm {es : List (Key × Val)} {us : List Val} (hp : es.Perm (indexed 0 us)) :
    index es (i + 1) = us.getD i .nil := by
  unfold index
  split
  · rename_i e he
    obtain ⟨j, hj, rfl⟩ := mem_indexed.1 (hp.mem_iff.1 (mem_of_find?_eq_some he))
    have heq := find?_some he
    dsimp only at heq
    rw [eq_ofNat, beq_iff_eq] at heq
    obtain rfl : j = i := by omega
    exact (getD_eq_getElem _ _ hj).symm
  · rename_i he
    refine (getD_eq_default _ _ (Nat.not_lt.1 fun hi => ?_)).symm
    have := find?_eq_none.1 he _ (hp.mem_iff.2 (mem_indexed.2 ⟨i, hi, rfl⟩))
    dsimp only at this
    rw [eq_ofNat, beq_iff_eq] at this
    omega

theorem border_of_perm {es : List (Key × Val)} {us : List Val} (hp : es.Perm (indexed 0 us)) (hnil : .nil ∉ us) :
    border es = us.length := by
  have hloop : ∀ n i, i ≤ us.length → us.length ≤ i + n → borderLoop es n i = us.length := by
    intro n
    induction n with
    | zero => exact fun i h1 h2 => le_antisymm h1 h2
    | succ n ih =>
      intro i h1 h2
      rw [borderLoop, index_of_perm hp]
      by_cases hi : i < us.length
      · have hne : us.getD i .nil ≠ .nil := fun h => by
          rw [getD_eq_getElem _ _ hi] at h
          exact hnil (h ▸ getElem_mem hi)
        rw [if_neg hne]
        exact ih (i + 1) hi (by omega)
      · rw [if_pos (getD_eq_default _ _ (Nat.not_lt.1 hi))]
        omega
  exact hloop es.length 0 zero_le (by rw [hp.length_eq, length_indexed]; omega)

end Indexed

/-! ### Arrays and objects -/

section Brackets
variable {indent : Option Bytes} {level : Nat}

/-- The indent, if there is one, is whitespace. -/
def Blank (indent : Option Bytes) : Prop := ∀ s, indent = some s → Ws s

theorem ws_rep {s : Bytes} (hs : Ws s) (n : Nat) : Ws (rep s n) := by
  induction n with
  | zero => exact ws_nil
  | succ n ih =>
    rw [rep, replicate_succ, flatten_cons]
    exact hs.append ih

theorem Blank.inner (h : Blank indent) : Ws (inner indent level) := by
  cases indent with
  | none => exact ws_nil
  | some s => exact ws_rep (h s rfl) _

theorem colon_eq (indent : Option Bytes) : ∃ cw, Ws cw ∧ colon indent = nameSeparator :: cw := by
  cases indent with
  | none => exact ⟨[], ws_nil, rfl⟩
  | some s => exact ⟨[space], rfl, rfl⟩

theorem Blank.bracket (h : Blank indent) (level : Nat) : ∃ pre sw tw, Ws pre ∧ Ws sw ∧ Ws tw ∧ ∀ left right items,
    items ≠ [] →
    bracket indent level left right items =
      left :: (pre ++ (intercalate (valueSeparator :: sw) items ++ (tw ++ [right]))) := by
  cases indent with
  | none => exact ⟨[], [], [], ws_nil, ws_nil, ws_nil, fun left right items _ => rfl⟩
  | some s =>
    refine ⟨[lineFeed], [lineFeed], lineFeed :: rep s level, rfl, rfl, ?_, fun left right items hne => ?_⟩
    · exact Ws.append (s := [lineFeed]) rfl (ws_rep (h s rfl) _)
    · rw [Json.bracket, isEmpty_eq_false_iff.2 hne]
      simp

theorem Decodes.array (h : Blank indent) {ps : List (Bytes × Value)} (hne : ps ≠ []) (hps : ∀ p ∈ ps, Decodes p.1 p.2)
    (hnil : ∀ p ∈ ps, p.2.isNil = false) :
    Decodes (Json.bracket indent level beginArray endArray (ps.map Prod.fst))
    (.table (indexed 0 (ps.map Prod.snd))) := by
  obtain ⟨pre, sw, tw, hpre, hsw, htw, hb⟩ := h.bracket level
  intro n r _ hn
  have hs : Json.bracket indent level beginArray endArray (ps.map Prod.fst) ++ r = beginArray ::
      (pre ++ (intercalate (valueSeparator :: sw) (ps.map Prod.fst) ++ (tw ++ endArray :: r))) := by
    rw [hb _ _ _ (by simpa using hne)]
    simp
  rw [hs] at hn ⊢
  generalize hx : intercalate (valueSeparator :: sw) (ps.map Prod.fst) ++ (tw ++ endArray :: r) = x at hn ⊢
  cases n with
  | zero => cases hn
  | succ n =>
    simp only [length_append, length_cons] at hn
    obtain ⟨b, t, hbt, hbne⟩ : ∃ b t, skip_ws (pre ++ x) = b :: t ∧ b ≠ endArray := by
      cases ps with
      | nil => exact absurd rfl hne
      | cons p ps =>
        obtain ⟨b, t, hbt, hbne⟩ := (hps p mem_cons_self).head
        obtain ⟨w, hw, hp⟩ := ws_skipWs p.1
        have hbws : isWs b = false := by
          have := head?_dropWhile_not isWs p.1
          rw [show p.1.dropWhile isWs = b :: t from hbt] at this
          simpa using this
        obtain ⟨y, hy⟩ : ∃ y, x = p.1 ++ y := by
          rw [← hx, map_cons]
          cases ps with
          | nil => exact ⟨_, by rw [map_nil, intercalate_singleton]⟩
          | cons q ps => exact ⟨_, by rw [intercalate_cons_of_ne_nil (by simp), append_assoc, append_assoc]⟩
        refine ⟨b, t ++ y, ?_, hbne⟩
        rw [hy, hp, hbt]
        change skipWs _ = _
        rw [skipWs_append hpre, append_assoc, skipWs_append hw]
        exact skipWs_cons hbws
    change decode_array (decode_value n) (beginArray :: (pre ++ x)) = _
    unfold decode_array
    change (if (skip_ws (pre ++ x)).head? = some endArray then _ else
      arrayItems (decode_value n) ((pre ++ x).length + 1) (skip_ws (pre ++ x)) [] 0) = _
    have hhead : ¬ (skip_ws (pre ++ x)).head? = some endArray := fun h => by
      rw [hbt] at h
      exact hbne (Option.some.inj h)
    rw [if_neg hhead, arrayItems_skip, arrayItems_ws hpre, ← hx]
    rw [arrayItems_intercalate hsw htw hne hps [] 0 (by rw [hx]; omega) (by rw [hx, length_append]; omega)]
    rw [assignAll_of_nodup nodup_indexed, nil_append]
    intro f hf
    obtain ⟨p, hp, hpf⟩ := mem_map.1 (snd_mem_of_mem_indexed hf)
    rw [← hpf]
    exact hnil p hp

theorem Decodes.object (h : Blank indent) {iw cw : Bytes} (hiw : Ws iw) (hcw : Ws cw) {ps : List Pair} (hne : ps ≠ [])
    (hps : ∀ p ∈ ps, Decodes p.text p.value) (hnil : ∀ p ∈ ps, p.value.isNil = false)
    (hnd : (ps.map fun p => Key.str p.key).Nodup) :
    Decodes (Json.bracket indent level beginObject endObject (ps.map fun p => member iw cw p.key p.text))
      (.table (ps.map fun p => (.str p.key, p.value))) := by
  obtain ⟨pre, sw, tw, hpre, hsw, htw, hb⟩ := h.bracket level
  intro n r _ hn
  have hs : Json.bracket indent level beginObject endObject (ps.map fun p => member iw cw p.key p.text) ++ r =
      beginObject :: (pre ++ (intercalate (valueSeparator :: sw) (ps.map fun p => member iw cw p.key p.text) ++
        (tw ++ endObject :: r))) := by
    rw [hb _ _ _ (by simpa using hne)]
    simp
  rw [hs] at hn ⊢
  generalize hx : intercalate (valueSeparator :: sw) (ps.map fun p => member iw cw p.key p.text) ++
    (tw ++ endObject :: r) = x at hn ⊢
  cases n with
  | zero => cases hn
  | succ n =>
    simp only [length_append, length_cons] at hn
    obtain ⟨t, ht⟩ : ∃ t, skip_ws (pre ++ x) = quote :: t := by
      cases ps with
      | nil => exact absurd rfl hne
      | cons p ps =>
        obtain ⟨y, hy⟩ : ∃ y, x = iw ++ quote :: y := by
          rw [← hx, map_cons]
          cases ps with
          | nil => exact ⟨_, by rw [map_nil, intercalate_singleton, member, append_assoc]; rfl⟩
          | cons q ps =>
            exact ⟨_, by
              rw [intercalate_cons_of_ne_nil (by simp), append_assoc, append_assoc, member,
                append_assoc]
              rfl⟩
        refine ⟨y, ?_⟩
        rw [hy]
        change skipWs _ = _
        rw [skipWs_append hpre, skipWs_append hiw]
        rfl
    change decode_object (decode_value n) (beginObject :: (pre ++ x)) = _
    unfold decode_object
    change (if (skip_ws (pre ++ x)).head? = some endObject then _ else
      objectItems (decode_value n) ((pre ++ x).length + 1) (skip_ws (pre ++ x)) []) = _
    have hhead : ¬ (skip_ws (pre ++ x)).head? = some endObject := fun h => by
      rw [ht] at h
      cases h
    rw [if_neg hhead, objectItems_skip, objectItems_ws hpre, ← hx]
    rw [objectItems_intercalate hiw hcw hsw htw hne hps [] (by rw [hx]; omega) (by rw [hx, length_append]; omega)]
    rw [assignAll_of_nodup, nil_append]
    · rw [nil_append, map_map]
      exact hnd
    · intro f hf
      obtain ⟨p, hp, rfl⟩ := mem_map.1 hf
      exact hnil p hp

end Brackets

end Node9.Json
