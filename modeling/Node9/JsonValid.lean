import Node9.Json

/-!
# What `is_valid` accepts

The decoder gets through where the recogniser of the grammar does, and leaves the same (`left_decode_value`). So it
accepts the texts of the RFC, and those with a number or a string that the RFC does not have: `is_valid_iff`.
-/

namespace Node9.Json
open Buf Rfc8259 Lua List

theorem skip_ws_eq (s : Bytes) : skip_ws s = skipWs s := rfl

/-- What a decoder that gets through leaves. -/
def left {α : Type} : Except DecodeError (α × Bytes) → Option Bytes
  | .ok r => some r.2
  | .error _ => none

section Left
variable {α β : Type}

theorem left_bind {d : Except DecodeError (α × Bytes)} {c : Scan} {k : α × Bytes → Except DecodeError (β × Bytes)}
    {k' : Bool × Bytes → Scan} (hd : left d = c.map Prod.snd)
    (hk : ∀ v o r, left (k (v, r)) = (k' (o, r)).map Prod.snd) : left (d >>= k) = (c >>= k').map Prod.snd := by
  cases d with
  | error e =>
    cases c with
    | none => rfl
    | some x => cases hd
  | ok v =>
    cases c with
    | none => cases hd
    | some x =>
      obtain ⟨v, r⟩ := v
      obtain ⟨o, r'⟩ := x
      cases hd
      exact hk v o r

theorem left_map {d : Except DecodeError (α × Bytes)} {f : α → β} :
    left (d.map fun r => (f r.1, r.2)) = left d := by
  cases d <;> rfl

theorem map_map_snd {c : Scan} {f : Bool → Bool} : (c.map fun r => (f r.1, r.2)).map Prod.snd = c.map Prod.snd := by
  cases c <;> rfl

end Left

theorem forall_byte {p : UInt8 → Bool} (h : (List.range 256).all fun n => p (UInt8.ofNat n)) (b : UInt8) :
    p b = true := by
  have hb := all_eq_true.1 h b.toNat (mem_range.2 b.toNat_lt)
  rwa [UInt8.ofNat_toNat] at hb

section Strings
variable {s t : Bytes} {n : Nat}

theorem isSome_unescape (e : UInt8) : (unescape e).isSome = isEscape e :=
  eq_of_beq (forall_byte (p := fun e => (unescape e).isSome == isEscape e) (by decide +kernel) e)

theorem scanChars_ordinary (hs : s.all ordinary) : (scanChars (s ++ t)).map Prod.snd = (scanChars t).map Prod.snd := by
  induction s with
  | nil => rfl
  | cons b s ih =>
    rw [all_cons, Bool.and_eq_true] at hs
    have hb := hs.1
    simp only [ordinary, Bool.and_eq_true, bne_iff_ne] at hb
    rw [cons_append, scanChars.eq_def]
    dsimp only
    rw [if_neg hb.1, if_neg hb.2, map_map_snd, ih hs.2]

theorem length_take_four : (s.take 4).length = 4 ↔ ∃ x y z w t, s = x :: y :: z :: w :: t := by
  constructor
  · intro h
    rw [length_take] at h
    match s, h with
    | [], h => simp at h
    | [_], h => simp at h
    | [_, _], h => simp at h
    | [_, _, _], h => simp at h
    | x :: y :: z :: w :: t, _ => exact ⟨x, y, z, w, t, rfl⟩
  · rintro ⟨x, y, z, w, t, rfl⟩
    rfl

theorem left_stringLoop (hn : s.length < n) (parts : Bytes) :
    left (stringLoop n s parts) = (scanChars s).map Prod.snd := by
  induction n generalizing s parts with
  | zero => cases hn
  | succ n ih =>
    have hsplit := takeWhile_append_dropWhile (p := ordinary) (l := s)
    have hlen := congrArg List.length hsplit
    rw [length_append] at hlen
    conv_rhs => rw [← hsplit, scanChars_ordinary all_takeWhile]
    unfold stringLoop
    split
    · rename_i hd
      rw [hd]
      rfl
    rename_i b t hd
    have hb : ordinary b = false := by
      have := List.head?_dropWhile_not ordinary s
      rw [hd] at this
      simpa using this
    rw [hd, length_cons] at hlen
    rw [hd, scanChars.eq_def]
    dsimp only
    split_ifs with hq hbs
    · rfl
    · cases t with
      | nil => rfl
      | cons e u =>
        rw [length_cons] at hlen
        have he := isSome_unescape e
        dsimp only
        split
        · rename_i x hx
          rw [hx] at he
          rw [if_pos (show isEscape e = true from he.symm)]
          exact ih (by omega) _
        rename_i hx
        rw [hx] at he
        rw [if_neg (show ¬ isEscape e = true by rw [← he]; decide)]
        split_ifs with hu hhex
        · obtain ⟨x, y, z, w, v, rfl⟩ := length_take_four.1 hhex.1
          have hall : isHex x && isHex y && isHex z && isHex w := by simpa [and_assoc] using hhex.2
          dsimp only
          rw [if_pos hall]
          exact ih (by simp only [length_cons] at hlen; simp only [drop_succ_cons, drop_zero]; omega) _
        · split
          · rename_i x y z w v
            have hall : ¬ (isHex x && isHex y && isHex z && isHex w) := fun h =>
              hhex ⟨rfl, by simpa [and_assoc] using h⟩
            rw [if_neg hall]
            rfl
          · rfl
        · rfl
    · simp only [ordinary, Bool.and_eq_false_iff, bne_eq_false_iff_eq] at hb
      exact absurd (hb.resolve_left hq) hbs

theorem left_decode_string (s : Bytes) : left (decode_string (quote :: s)) = (scanChars s).map Prod.snd :=
  left_stringLoop (s := s) (Nat.lt_succ_of_lt (Nat.lt_succ_self _)) []

end Strings

section Numbers
variable {s t : Bytes}

theorem optional_minus (s : Bytes) : (optional (· == minus) s).2 = skipMinus s ∧
    ((optional (· == minus) s).1 = [] ∨ (optional (· == minus) s).1 = [minus]) := by
  cases s with
  | nil => exact ⟨rfl, .inl rfl⟩
  | cons b t =>
    unfold optional skipMinus
    by_cases hb : b = minus
    · subst hb
      exact ⟨rfl, .inr rfl⟩
    · dsimp only
      rw [if_neg (by simpa using hb), if_neg hb]
      exact ⟨rfl, .inl rfl⟩

theorem optional_sign (s : Bytes) : (optional isSign s).2 = skipSign s ∧
    ((optional isSign s).1 = [] ∨ ∃ b, isSign b ∧ (optional isSign s).1 = [b]) := by
  cases s with
  | nil => exact ⟨rfl, .inl rfl⟩
  | cons b t =>
    unfold optional skipSign
    by_cases hb : isSign b
    · exact ⟨(congrArg Prod.snd (if_pos hb)).trans (if_pos hb).symm, .inr ⟨b, hb, congrArg Prod.fst (if_pos hb)⟩⟩
    · exact ⟨(congrArg Prod.snd (if_neg hb)).trans (if_neg hb).symm, .inl (congrArg Prod.fst (if_neg hb))⟩

theorem isSome_tonumber {a d p f u : Bytes} (ha : a = [] ∨ a = [minus]) (hd : Digits d)
    (hp : (p = [] ∧ f = []) ∨ (p = [point] ∧ f.all isDigit)) (hu : Off isDigit u) (hu' : Off (· == point) u) :
    (tonumber (a ++ (d ++ (p ++ (f ++ u))))).isSome = (exponent u).isSome := by
  have hskip : skipMinus (a ++ (d ++ (p ++ (f ++ u)))) = d ++ (p ++ (f ++ u)) := by
    rcases ha with rfl | rfl
    · exact skipMinus_of_off (hd.off_sign.mono fun b hb => by simp [isSign, eq_of_beq hb])
    · rfl
  have hoff : Off isDigit (p ++ (f ++ u)) := by
    rcases hp with ⟨rfl, rfl⟩ | ⟨rfl, -⟩
    · exact hu
    · exact off_cons rfl
  have hne : ∀ x : Bytes, (d ++ x).isEmpty = false := fun x => by
    rw [isEmpty_eq_false_iff]
    exact fun h => hd.1 (append_eq_nil_iff.1 h).1
  unfold tonumber
  dsimp only
  rw [hskip, takeWhile_run hd.2 hoff, dropWhile_run hd.2 hoff, hne, if_neg (by decide), Option.isSome_map]
  rcases hp with ⟨rfl, rfl⟩ | ⟨rfl, hf⟩
  · have hpt : ¬ ([] ++ ([] ++ u) : Bytes).head? = some point := fun h => by
      have := hu' point h
      cases this
    rw [if_neg hpt]
    rfl
  · have hpt : ([point] ++ (f ++ u)).head? = some point := rfl
    have hdrop : ([point] ++ (f ++ u)).drop 1 = f ++ u := rfl
    rw [if_pos hpt, if_pos hpt, hdrop, dropWhile_run hf hu]

theorem scanExp_match (hs : Off isDigit s) :
    ∃ u, u = (optional isE s).1 ++ ((optional isSign (optional isE s).2).1 ++
        (optional isSign (optional isE s).2).2.takeWhile isDigit) ∧ Off isDigit u ∧ Off (· == point) u ∧
      scanExp s = if (exponent u).isSome then some ((optional isSign (optional isE s).2).2.dropWhile isDigit)
      else none := by
  refine ⟨_, rfl, ?_⟩
  cases s with
  | nil => exact ⟨off_nil, off_nil, rfl⟩
  | cons b t =>
    by_cases he : isE b
    · have hopt : optional isE (b :: t) = ([b], t) := if_pos he
      obtain ⟨h2, h1⟩ := optional_sign t
      rw [hopt]
      refine ⟨off_cons (hs b rfl), off_cons (beq_eq_false_iff_ne.2 fun hb => ?_), ?_⟩
      · rw [hb] at he
        cases he
      dsimp only
      rw [h2]
      generalize hx : (skipSign t).takeWhile isDigit = x
      have hall : x.all isDigit := hx ▸ all_takeWhile
      have hskip : skipSign ((optional isSign t).1 ++ x) = x := by
        rcases h1 with h1 | ⟨g, hg, h1⟩
        · rw [h1, nil_append]
          by_cases hxe : x = []
          · rw [hxe]
            rfl
          · have := Digits.off_sign (t := []) ⟨hxe, hall⟩
            rw [append_nil] at this
            exact skipSign_of_off this
        · rw [h1]
          exact if_pos hg
      have hexp : (exponent ([b] ++ ((optional isSign t).1 ++ x))).isSome = !x.isEmpty := by
        change Option.isSome (if isE b && !(skipSign ((optional isSign t).1 ++ x)).isEmpty &&
          (skipSign ((optional isSign t).1 ++ x)).all isDigit then some _ else none) = _
        rw [hskip, he, hall]
        cases x <;> rfl
      rw [hexp]
      refine (if_pos he).trans ?_
      rw [hx]
      cases x <;> rfl
    · have hopt : optional isE (b :: t) = ([], b :: t) := if_neg he
      rw [hopt]
      by_cases hg : isSign b
      · have hopt' : optional isSign (b :: t) = ([b], t) := if_pos hg
        rw [hopt']
        refine ⟨off_cons (hs b rfl), off_cons (beq_eq_false_iff_ne.2 fun hb => ?_), ?_⟩
        · rw [hb] at hg
          cases hg
        have hexp : exponent ([] ++ ([b] ++ t.takeWhile isDigit)) = none := by
          change (if isE b && _ && _ then some _ else none) = none
          rw [if_neg (by simp [he])]
        rw [hexp]
        exact (if_neg he).trans (if_pos hg)
      · have hopt' : optional isSign (b :: t) = ([], b :: t) := if_neg hg
        rw [hopt']
        have htake : (b :: t).takeWhile isDigit = [] := takeWhile_run (s := []) rfl hs
        have hdrop : (b :: t).dropWhile isDigit = b :: t := dropWhile_run (s := []) rfl hs
        rw [htake, hdrop]
        exact ⟨off_nil, off_nil, (if_neg he).trans (if_neg hg)⟩

theorem scanFrac_match (hs : Off isDigit s) :
    (scanFrac s).2 = (optional (· == point) s).2.dropWhile isDigit ∧
      ((optional (· == point) s).1 = [] ∧ (optional (· == point) s).2.takeWhile isDigit = [] ∨
        (optional (· == point) s).1 = [point] ∧ ((optional (· == point) s).2.takeWhile isDigit).all isDigit) := by
  by_cases hp : s.head? = some point
  · cases s with
    | nil => cases hp
    | cons b t =>
      cases hp
      rw [scanFrac_point]
      exact ⟨rfl, .inr ⟨rfl, all_takeWhile⟩⟩
  have hopt : optional (· == point) s = ([], s) ∧ (scanFrac s).2 = s := by
    cases s with
    | nil => exact ⟨rfl, rfl⟩
    | cons b t =>
      have hb : b ≠ point := fun hb => hp (hb ▸ rfl)
      exact ⟨if_neg (by simpa using hb), congrArg Prod.snd (if_neg hb)⟩
  rw [hopt.1, hopt.2]
  exact ⟨(dropWhile_run (s := []) rfl hs).symm, .inl ⟨rfl, takeWhile_run (s := []) rfl hs⟩⟩

theorem off_dropWhile (s : Bytes) : Off isDigit (s.dropWhile isDigit) := fun b hb => by
  have := List.head?_dropWhile_not isDigit s
  rw [hb] at this
  simpa using this

theorem left_decode_number (s : Bytes) : left (decode_number s) = (scanNumber s).map Prod.snd := by
  obtain ⟨h2, h1⟩ := optional_minus s
  unfold decode_number matchNumber scanNumber
  dsimp only
  rw [h2]
  generalize hd : (skipMinus s).takeWhile isDigit = d
  by_cases hde : d = []
  · rw [hde]
    rfl
  have hdig : Digits d := ⟨hde, hd ▸ all_takeWhile⟩
  have hoff := off_dropWhile (skipMinus s)
  generalize (skipMinus s).dropWhile isDigit = s₂ at hoff ⊢
  obtain ⟨h3, hp⟩ := scanFrac_match hoff
  rw [h3, isEmpty_eq_false_iff.2 hde, if_neg (by decide), if_neg (by decide)]
  have hoff' := off_dropWhile (optional (· == point) s₂).2
  generalize (optional (· == point) s₂).2.dropWhile isDigit = s₃ at hoff' ⊢
  obtain ⟨u, hu, hu₁, hu₂, hexp⟩ := scanExp_match hoff'
  have htext := isSome_tonumber h1 hdig hp hu₁ hu₂
  rw [hexp, ← htext, hu]
  simp only [append_assoc]
  generalize tonumber _ = x
  cases x <;> rfl

end Numbers

section Values
variable {dv : Bytes → ReadValue} {sv : Bytes → Scan} {s t : Bytes} {m n : Nat}

/-- The decoder `dv` and the recogniser `sv` of what is nested. -/
structure Agree (dv : Bytes → ReadValue) (sv : Bytes → Scan) : Prop where
  left : ∀ s, left (dv s) = (sv s).map Prod.snd
  skip : ∀ s, sv (skipWs s) = sv s
  nil : sv [] = none

theorem Agree.skip_elements (h : Agree dv sv) : scanElements sv m (skipWs s) = scanElements sv m s := by
  cases m with
  | zero => rfl
  | succ m => rw [scanElements, scanElements, h.skip]

theorem left_arrayItems (h : Agree dv sv) (s : Bytes) (arr : List (Key × Value)) (n : Nat) :
    left (arrayItems dv m s arr n) = (scanElements sv m s).map Prod.snd := by
  induction m generalizing s arr n with
  | zero => rfl
  | succ m ih =>
    refine left_bind (h.left s) fun v o r => ?_
    dsimp only
    rw [show skip_ws r = skipWs r from rfl]
    cases skipWs r with
    | nil => rfl
    | cons b t =>
      dsimp only
      by_cases hb : b = endArray
      · rw [if_pos hb, if_pos hb]
        rfl
      rw [if_neg hb, if_neg hb]
      by_cases hc : b = valueSeparator
      · rw [if_neg (not_not.2 hc), if_pos hc, map_map_snd]
        exact (ih (skipWs t) _ _).trans (congrArg _ h.skip_elements)
      · rw [if_pos hc, if_neg hc]
        rfl

theorem left_decode_array (h : Agree dv sv) (s : Bytes) : left (decode_array dv (beginArray :: s)) =
    (match skipWs s with
      | [] => none
      | b :: t => if b = endArray then some (false, t) else scanElements sv (s.length + 1) s).map Prod.snd := by
  unfold decode_array
  change left (if (skipWs s).head? = some endArray then _ else arrayItems dv (s.length + 1) (skipWs s) [] 0) = _
  by_cases hb : (skipWs s).head? = some endArray
  · rw [if_pos hb]
    obtain ⟨t, ht⟩ := List.head?_eq_some_iff.1 hb
    change left (.ok (Value.table [], (skipWs s).drop 1)) = _
    rw [ht]
    rfl
  rw [if_neg hb, left_arrayItems h, h.skip_elements]
  cases hs : skipWs s with
  | nil =>
    have hsv : sv s = none := by rw [← h.skip, hs, h.nil]
    rw [scanElements, hsv]
    rfl
  | cons b t =>
    rw [hs] at hb
    dsimp only
    rw [if_neg fun h => hb (congrArg some h)]

theorem left_objectNext (v : Value) (o : Bool) (r : Bytes) (obj : List (Key × Value)) (key : Bytes)
    (ih : ∀ s obj, left (objectItems dv m s obj) = (scanMembers sv m s).map Prod.snd) :
    left (match skip_ws r with
      | [] => decode_error [] (.comma endObject)
      | b :: t =>
        if b = endObject then .ok (.table (assign obj (.str key) v), t)
        else if b ≠ valueSeparator then decode_error (b :: t) (.comma endObject)
        else objectItems dv m t (assign obj (.str key) v)) =
    (match skipWs r with
      | [] => none
      | b :: s =>
        if b = endObject then some (o, s)
        else if b = valueSeparator then (scanMembers sv m s).map fun r => (o || r.1, r.2)
        else none : Scan).map Prod.snd := by
  rw [show skip_ws r = skipWs r from rfl]
  cases skipWs r with
  | nil => rfl
  | cons b t =>
    dsimp only
    by_cases hb : b = endObject
    · rw [if_pos hb, if_pos hb]
      rfl
    rw [if_neg hb, if_neg hb]
    by_cases hc : b = valueSeparator
    · rw [if_neg (not_not.2 hc), if_pos hc, map_map_snd]
      exact ih t _
    · rw [if_pos hc, if_neg hc]
      rfl

theorem left_objectItems (h : Agree dv sv) (s : Bytes) (obj : List (Key × Value)) :
    left (objectItems dv m s obj) = (scanMembers sv m s).map Prod.snd := by
  induction m generalizing s obj with
  | zero => rfl
  | succ m ih =>
    unfold objectItems scanMembers scanName
    rw [← skip_ws_eq s]
    cases skip_ws s with
    | nil => rfl
    | cons b t =>
      by_cases hb : b = quote
      · subst hb
        rw [if_neg (fun h => h rfl)]
        dsimp only
        rw [if_pos rfl]
        change _ = Option.map Prod.snd (Option.bind (Option.bind (scanChars t) _) _)
        rw [Option.bind_assoc]
        refine left_bind (left_decode_string t) fun key o r => ?_
        dsimp only
        rw [← skip_ws_eq r]
        cases skip_ws r with
        | nil => rfl
        | cons b' u =>
          by_cases hb' : b' = nameSeparator
          · subst hb'
            rw [if_neg (fun h => h rfl)]
            dsimp only
            rw [if_pos rfl, Option.bind_some]
            exact left_bind ((h.left _).trans (congrArg _ (h.skip u)))
              fun v o' r' => left_objectNext v (o || o') r' obj key ih
          · have hne : (b' :: u).head? ≠ some nameSeparator := fun h => hb' (Option.some.inj h)
            rw [if_pos hne]
            dsimp only
            rw [if_neg hb']
            rfl
      · have hne : (b :: t).head? ≠ some quote := fun h => hb (Option.some.inj h)
        rw [if_pos hne]
        dsimp only
        rw [if_neg hb]
        rfl

theorem scanMembers_skip : scanMembers sv m (skipWs s) = scanMembers sv m s := by
  cases m with
  | zero => rfl
  | succ m =>
    have hname : scanName (skipWs s) = scanName s := by rw [scanName, scanName, skipWs_skipWs]
    rw [scanMembers, scanMembers, hname]

theorem left_decode_object (h : Agree dv sv) (s : Bytes) : left (decode_object dv (beginObject :: s)) =
    (match skipWs s with
      | [] => none
      | b :: t => if b = endObject then some (false, t) else scanMembers sv (s.length + 1) s).map Prod.snd := by
  unfold decode_object
  change left (if (skipWs s).head? = some endObject then _ else objectItems dv (s.length + 1) (skipWs s) []) = _
  by_cases hb : (skipWs s).head? = some endObject
  · rw [if_pos hb]
    obtain ⟨t, ht⟩ := List.head?_eq_some_iff.1 hb
    change left (.ok (Value.table [], (skipWs s).drop 1)) = _
    rw [ht]
    rfl
  rw [if_neg hb, left_objectItems h, scanMembers_skip]
  cases hs : skipWs s with
  | nil =>
    have hname : scanName s = none := by rw [scanName, hs]
    rw [scanMembers, hname]
    rfl
  | cons b t =>
    rw [hs] at hb
    dsimp only
    rw [if_neg fun h => hb (congrArg some h)]

theorem left_token (l : Bytes) (v : Value) (s : Bytes) : left (token l v s) = (scanLit l s).map Prod.snd := by
  unfold token scanLit
  split_ifs <;> rfl

theorem agree_decode_value (n : Nat) : Agree (decode_value n) (scanValue n) := by
  induction n with
  | zero => exact ⟨fun _ => rfl, fun _ => rfl, rfl⟩
  | succ n ih =>
    refine ⟨fun s => ?_, fun s => ?_, rfl⟩
    · unfold decode_value scanValue
      rw [← skip_ws_eq s]
      cases skip_ws s with
      | nil => rfl
      | cons b t =>
        dsimp only
        by_cases h1 : b = quote
        · rw [if_pos h1, if_pos h1, left_map, h1]
          exact left_decode_string t
        rw [if_neg h1, if_neg h1]
        by_cases h2 : b = beginArray
        · rw [if_pos h2, if_pos h2, h2]
          exact left_decode_array ih t
        rw [if_neg h2, if_neg h2]
        by_cases h3 : b = beginObject
        · rw [if_pos h3, if_pos h3, h3]
          exact left_decode_object ih t
        rw [if_neg h3, if_neg h3]
        split_ifs
        · exact left_token _ _ _
        · exact left_token _ _ _
        · exact left_token _ _ _
        · exact left_decode_number _
        · rfl
    · rw [scanValue, scanValue, skipWs_skipWs]

theorem left_decode_value (n : Nat) (s : Bytes) : left (decode_value n s) = (scanValue n s).map Prod.snd :=
  (agree_decode_value n).left s

theorem is_valid_eq (s : Bytes) : is_valid s = (scan s).isSome := by
  have h := left_decode_value (s.length + 1) s
  unfold is_valid decode scan
  generalize decode_value (s.length + 1) s = d at h
  generalize scanValue (s.length + 1) s = x at h
  cases d with
  | error e =>
    cases x with
    | none => rfl
    | some x => cases h
  | ok v =>
    cases x with
    | none => cases h
    | some x =>
      obtain ⟨v, r⟩ := v
      obtain ⟨o, r'⟩ := x
      cases h
      change Except.isOk (if skipWs r ≠ [] then _ else _) = Option.isSome (if skipWs r = [] then _ else _)
      by_cases hr : skipWs r = []
      · rw [if_neg (not_not.2 hr), if_pos hr]
        rfl
      · rw [if_pos hr, if_neg hr]
        rfl

end Values

/-! ### The texts of the RFC -/

/-- `is_valid` is right about a string if and only if this is not a text that the RFC would refuse only for leading
zeros, points without digits or raw control characters. -/
theorem is_valid_iff (s : Bytes) : (is_valid s = true ↔ Text s) ↔ ¬ Loose s := by
  rw [is_valid_eq, ← text_or_loose_iff]
  constructor
  · intro h hl
    exact hl.not_text (h.1 (.inr hl))
  · exact fun hl => ⟨fun h => h.resolve_right hl, .inl⟩

/-- `01` is accepted. -/
theorem is_valid_leading_zero : ¬ ∀ s, is_valid s = true ↔ Text s := by
  intro h
  have hl : Loose [0x30, 0x31] := phrase_iff_scan.2 (by decide)
  exact hl.not_text ((h _).1 (by decide))

end Node9.Json
