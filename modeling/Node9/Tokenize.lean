import Node9.Lib.Buf

/-!
# Commands for devices (`tokenize.c` of lib9, and `parse.c`)

`tokenize` cuts a string in place: `qtoken` writes a token over its own text, without the quotes, and puts a null
behind it. `scan` is what it reads and writes, `tokens` the tokens of a text (`tokenize_spec`). There are no more
tokens than `ncmdfield` counts fields (`tokens_length_le`).
-/

namespace Node9.Tokenize
open Buf List

def qsep : Bytes := [32, 9, 13, 10]

/-- Whether `strchr` finds the character; it finds the null, too. -/
def strchr (s : Bytes) (c : UInt8) : Bool := (s ++ [0]).contains c

/-- `utfrune(qsep, *t) != nil`: a `char` is below `Runesync`, and `utfrune` leaves it to `strchr`. -/
def isSep (c : UInt8) : Bool := strchr qsep c

def quote : UInt8 := 39

/-- The loop of `qtoken`: the string, `s` and `t`. -/
def qtokenLoop : Nat → Bytes → Nat → Nat → Bool → Bytes × Nat × Nat
  | 0, buf, s, t, _ => (buf, s, t)
  | fuel + 1, buf, s, t, quoting =>
    let c := buf.getD t 0
    if c ≠ 0 ∧ (quoting = true ∨ isSep c = false) then
      if c ≠ quote then qtokenLoop fuel (buf.set s c) (s + 1) (t + 1) quoting
      else if quoting = false then qtokenLoop fuel buf s (t + 1) true
      else if buf.getD (t + 1) 0 ≠ quote then qtokenLoop fuel buf s (t + 1) false
      else qtokenLoop fuel (buf.set s (buf.getD (t + 1) 0)) (s + 1) (t + 2) quoting
    else (buf, s, t)

/-- The string, and where the next token is looked for. -/
def qtoken (buf : Bytes) (s : Nat) : Bytes × Nat :=
  let r := qtokenLoop buf.length buf s s false
  if r.1.getD r.2.1 0 ≠ 0 then (r.1.set r.2.1 0, if r.2.2 = r.2.1 then r.2.2 + 1 else r.2.2) else (r.1, r.2.2)

/-- The separators at `s`. -/
def skipSeps (buf : Bytes) (s : Nat) : Nat := s + ((buf.drop s).takeWhile fun c => c ≠ 0 && isSep c).length

/-- The loop of `tokenize`: the string, and where the tokens are. -/
def tokenizeLoop : Nat → Bytes → Nat → Bytes × List Nat
  | 0, buf, _ => (buf, [])
  | n + 1, buf, s =>
    let s := skipSeps buf s
    if buf.getD s 0 = 0 then (buf, [])
    else
      let r := qtoken buf s
      ((tokenizeLoop n r.1 r.2).1, s :: (tokenizeLoop n r.1 r.2).2)

def tokenize (buf : Bytes) (maxargs : Nat) : Bytes × List Nat := tokenizeLoop maxargs buf 0

/-- The string at `i`. -/
def cstr (buf : Bytes) (i : Nat) : Bytes := (buf.drop i).takeWhile (· ≠ 0)

/-- How many fields begin, after white space or not. -/
def fields : Bool → Bytes → Nat
  | _, [] => 0
  | white, c :: p =>
    let nwhite := strchr qsep c
    (if white && !nwhite then 1 else 0) + fields nwhite p

def ncmdfield (p : Bytes) : Nat := fields true p + 1

/-- How many pointers there is room for, the copy of the command, and the tokens. -/
structure Cmdbuf where
  room : Nat
  buf : Bytes
  f : List Nat

/-- Without the new line at the end. -/
def chomp (p : Bytes) : Bytes := if p.getLast? = some 10 then p.dropLast else p

def parsecmd (p : Bytes) : Cmdbuf :=
  let nf := ncmdfield p
  let r := tokenize (chomp p ++ [0]) (nf - 1)
  ⟨nf, r.1, r.2⟩

/-! ### What the tokens are -/

/-- Outside of quotes, inside, and behind a quote that may end them. -/
inductive Mode
  | plain
  | quoting
  | seen

/-- The token and the rest of the text. -/
def scan : Mode → Bytes → Bytes × Bytes
  | _, [] => ([], [])
  | .quoting, c :: r => if c = quote then scan .seen r else (c :: (scan .quoting r).1, (scan .quoting r).2)
  | .plain, c :: r =>
    if isSep c = true then ([], c :: r)
    else if c = quote then scan .quoting r
    else (c :: (scan .plain r).1, (scan .plain r).2)
  | .seen, c :: r =>
    if c = quote then (c :: (scan .quoting r).1, (scan .quoting r).2)
    else if isSep c = true then ([], c :: r)
    else (c :: (scan .plain r).1, (scan .plain r).2)

/-- The first `n` tokens of a text. -/
def tokens : Nat → Bytes → List Bytes
  | 0, _ => []
  | n + 1, r =>
    let r := r.dropWhile isSep
    if r = [] then [] else (scan .plain r).1 :: tokens n (scan .plain r).2

/-! ### One token in place -/

variable {buf P M Z r : Bytes} {s t fuel n : Nat} {quoting : Bool}

theorem scan_seen (h : r.head? ≠ some quote) : scan .seen r = scan .plain r := by
  rcases r with _ | ⟨c, r⟩
  · rfl
  · have hc : c ≠ quote := fun hc => h (congrArg some hc)
    rw [scan, scan, if_neg hc, if_neg hc]

def mode (quoting : Bool) : Mode := if quoting then .quoting else .plain

variable {c : UInt8}

theorem scan_open (hq : c = quote) (h : isSep c = false) : scan (mode false) (c :: r) = scan (mode true) r := by
  rw [mode, if_neg Bool.false_ne_true, scan, if_neg (by rw [h]; exact Bool.false_ne_true), if_pos hq]
  rfl

theorem scan_close (hq : c = quote) (h : r.head? ≠ some quote) :
    scan (mode true) (c :: r) = scan (mode false) r := by
  rw [mode, if_pos rfl, scan, if_pos hq, scan_seen h]
  rfl

theorem scan_fold (hq : c = quote) :
    scan (mode true) (c :: quote :: r) = (quote :: (scan (mode true) r).1, (scan (mode true) r).2) := by
  rw [mode, if_pos rfl, scan, if_pos hq, scan, if_pos rfl]

theorem scan_char (hq : c ≠ quote) (h : quoting = true ∨ isSep c = false) :
    scan (mode quoting) (c :: r) = (c :: (scan (mode quoting) r).1, (scan (mode quoting) r).2) := by
  rcases h with rfl | h
  · rw [mode, if_pos rfl, scan, if_neg hq]
  · have hsep : ¬isSep c = true := by rw [h]; exact Bool.false_ne_true
    cases quoting with
    | false => rw [mode, if_neg Bool.false_ne_true, scan, if_neg hsep, if_neg hq]
    | true => rw [mode, if_pos rfl, scan, if_neg hq]

theorem scan_stop (h : isSep c = true) : scan (mode false) (c :: r) = ([], c :: r) := by
  rw [mode, if_neg Bool.false_ne_true, scan, if_pos h]

/-- The string while a token is read: `P` and the token so far, what is left of the text that was read, the text, and
what is behind the null. -/
def layout (P M r Z : Bytes) : Bytes := P ++ (M ++ (r ++ 0 :: Z))

theorem layout_get (P M r Z : Bytes) : (layout P M r Z).getD (P.length + M.length) 0 = (r ++ 0 :: Z).getD 0 0 := by
  rw [layout, getD_append_right _ _ _ _ (Nat.le_add_right ..), Nat.add_sub_cancel_left,
    getD_append_right _ _ _ _ le_rfl, tsub_self]

theorem layout_get_succ (P M : Bytes) (c : UInt8) (r Z : Bytes) :
    (layout P M (c :: r) Z).getD (P.length + M.length + 1) 0 = (r ++ 0 :: Z).getD 0 0 := by
  rw [layout, add_assoc, getD_append_right _ _ _ _ (Nat.le_add_right ..), Nat.add_sub_cancel_left,
    getD_append_right _ _ _ _ (Nat.le_add_right ..), Nat.add_sub_cancel_left]
  rfl

theorem layout_move (P M : Bytes) (c : UInt8) (r Z : Bytes) : layout P M (c :: r) Z = layout P (M ++ [c]) r Z := by
  simp [layout]

theorem layout_set (P : Bytes) {M : Bytes} (hM : M ≠ []) (c : UInt8) (r Z : Bytes) :
    (layout P M r Z).set P.length c = layout (P ++ [c]) M.tail r Z := by
  obtain ⟨x, N, rfl⟩ := exists_cons_of_ne_nil hM
  rw [layout, set_append_right _ _ le_rfl, tsub_self, cons_append, set_cons_zero, layout,
    tail_cons, append_assoc]
  rfl

/-- The loop has written the token behind `P`, and is at the rest. -/
def Reads (P Z : Bytes) (sc : Bytes × Bytes) (res : Bytes × Nat × Nat) : Prop := ∃ M, 0 ∉ M ∧
  res = (layout (P ++ sc.1) M sc.2 Z, P.length + sc.1.length, P.length + sc.1.length + M.length)

theorem Reads.cons {c : UInt8} {sc : Bytes × Bytes} {res : Bytes × Nat × Nat} (h : Reads (P ++ [c]) Z sc res) :
    Reads P Z (c :: sc.1, sc.2) res := by
  obtain ⟨M, hM, heq⟩ := h
  refine ⟨M, hM, ?_⟩
  rw [heq, append_assoc, length_append, add_assoc P.length, add_comm [c].length]
  rfl

theorem of_not_mem_cons {c : UInt8} (h : 0 ∉ c :: r) : c ≠ 0 ∧ 0 ∉ r :=
  ⟨fun hc => h (hc ▸ mem_cons_self), fun hr => h (mem_cons_of_mem c hr)⟩

theorem not_mem_snoc {c : UInt8} (hM : 0 ∉ M) (hc : c ≠ 0) : 0 ∉ M ++ [c] := by
  intro h
  rcases mem_append.1 h with h | h
  · exact hM h
  · exact hc (mem_singleton.1 h).symm

theorem qtokenLoop_reads : ∀ (fuel : Nat) (r P M : Bytes) (quoting : Bool), r.length < fuel → 0 ∉ r → 0 ∉ M →
    Reads P Z (scan (mode quoting) r)
      (qtokenLoop fuel (layout P M r Z) P.length (P.length + M.length) quoting)
  | 0, r, _, _, _, h, _, _ => absurd h (Nat.not_lt_zero _)
  | fuel + 1, [], P, M, quoting, _, _, hM => by
    have hget := layout_get P M [] Z
    have hstop : ¬((layout P M [] Z).getD (P.length + M.length) 0 ≠ 0 ∧
        (quoting = true ∨ isSep ((layout P M [] Z).getD (P.length + M.length) 0) = false)) :=
      fun h => h.1 hget
    refine ⟨M, hM, ?_⟩
    rw [qtokenLoop, if_neg hstop, scan, append_nil]
    rfl
  | fuel + 1, c :: r, P, M, quoting, hf, hr, hM => by
    obtain ⟨hc, hr⟩ := of_not_mem_cons hr
    have hget : (layout P M (c :: r) Z).getD (P.length + M.length) 0 = c := layout_get P M (c :: r) Z
    have hM1 : 0 ∉ M ++ [c] := not_mem_snoc hM hc
    have hlen1 : P.length + M.length + 1 = P.length + (M ++ [c]).length := by rw [length_append]; rfl
    rw [length_cons] at hf
    rw [qtokenLoop, hget]
    by_cases hgo : c ≠ 0 ∧ (quoting = true ∨ isSep c = false)
    · rw [if_pos hgo]
      by_cases hq : c = quote
      · rw [if_neg (not_not.2 hq)]
        cases quoting with
        | false =>
          -- the quote opens
          have hsep : isSep c = false := hgo.2.resolve_left Bool.false_ne_true
          rw [if_pos rfl, scan_open hq hsep, layout_move, hlen1]
          exact qtokenLoop_reads fuel r P (M ++ [c]) true (by omega) hr hM1
        | true =>
          rw [if_neg (by decide), layout_get_succ]
          by_cases hnext : r.head? = some quote
          · -- two quotes are one
            obtain ⟨r, rfl⟩ := List.head?_eq_some_iff.1 hnext
            obtain ⟨hq0, hr⟩ := of_not_mem_cons hr
            have hM2 : 0 ∉ M ++ [c] ++ [quote] := not_mem_snoc hM1 hq0
            have hne : M ++ [c] ++ [quote] ≠ [] := by simp
            have hlen2 : P.length + M.length + 2 = (P ++ [quote]).length + (M ++ [c] ++ [quote]).tail.length := by
              rw [length_tail, length_append, length_append, length_append]
              show _ = P.length + 1 + (M.length + 1 + 1 - 1)
              omega
            have hs : P.length + 1 = (P ++ [quote]).length := by rw [length_append]; rfl
            have hhead : (quote :: r ++ 0 :: Z).getD 0 0 = quote := rfl
            rw [hhead, if_neg (not_not.2 rfl), scan_fold hq, layout_move, layout_move, layout_set P hne, hlen2, hs]
            rw [length_cons] at hf
            exact (qtokenLoop_reads fuel r (P ++ [quote]) _ true (by omega) hr
              fun h => hM2 (mem_of_mem_tail h)).cons
          · -- the quote closes
            have hother : (r ++ 0 :: Z).getD 0 0 ≠ quote := by
              rcases r with _ | ⟨d, r⟩
              · exact show (0 : UInt8) ≠ quote by decide
              · exact fun h => hnext (congrArg some h)
            rw [if_pos hother, scan_close hq hnext, layout_move, hlen1]
            exact qtokenLoop_reads fuel r P (M ++ [c]) false (by omega) hr hM1
      · have hne : M ++ [c] ≠ [] := by simp
        have hlen : P.length + M.length + 1 = (P ++ [c]).length + (M ++ [c]).tail.length := by
          rw [length_tail, length_append, length_append]
          show _ = P.length + 1 + (M.length + 1 - 1)
          omega
        have hs : P.length + 1 = (P ++ [c]).length := by rw [length_append]; rfl
        rw [if_pos hq, scan_char hq hgo.2, layout_move, layout_set P hne, hlen, hs]
        exact (qtokenLoop_reads fuel r (P ++ [c]) _ quoting (by omega) hr fun h => hM1 (mem_of_mem_tail h)).cons
    · -- a separator
      have hnot : quoting = false ∧ isSep c = true := by
        simpa [hc] using hgo
      rw [if_neg hgo, hnot.1, scan_stop hnot.2]
      refine ⟨M, hM, ?_⟩
      rw [append_nil]
      rfl

/-- The token is made of the text, and the rest is its end. -/
def Splits (r : Bytes) (sc : Bytes × Bytes) : Prop := (∀ x ∈ sc.1, x ∈ r) ∧ sc.2 <:+ r

theorem Splits.skip {sc : Bytes × Bytes} (h : Splits r sc) (c : UInt8) : Splits (c :: r) sc :=
  ⟨fun x hx => mem_cons_of_mem c (h.1 x hx), h.2.trans (suffix_cons c r)⟩

theorem Splits.take {sc : Bytes × Bytes} (h : Splits r sc) (c : UInt8) : Splits (c :: r) (c :: sc.1, sc.2) := by
  refine ⟨fun x hx => ?_, h.2.trans (suffix_cons c r)⟩
  rcases mem_cons.1 hx with rfl | hx
  · exact mem_cons_self
  · exact mem_cons_of_mem c (h.1 x hx)

theorem splits_nil (r : Bytes) : Splits r ([], r) := ⟨fun _ hx => absurd hx not_mem_nil, suffix_rfl⟩

theorem scan_splits : ∀ (m : Mode) (r : Bytes), Splits r (scan m r)
  | _, [] => splits_nil []
  | .quoting, c :: r => by
    rw [scan]
    split_ifs
    · exact (scan_splits .seen r).skip c
    · exact (scan_splits .quoting r).take c
  | .plain, c :: r => by
    rw [scan]
    split_ifs
    · exact splits_nil _
    · exact (scan_splits .quoting r).skip c
    · exact (scan_splits .plain r).take c
  | .seen, c :: r => by
    rw [scan]
    split_ifs
    · exact (scan_splits .quoting r).take c
    · exact splits_nil _
    · exact (scan_splits .plain r).take c

theorem scan_rest : ∀ (m : Mode) (r : Bytes), ∀ c ∈ (scan m r).2.head?, isSep c = true
  | _, [], c, h => absurd h (by simp [scan])
  | .quoting, d :: r, c, h => by
    rw [scan] at h
    split_ifs at h
    · exact scan_rest .seen r c h
    · exact scan_rest .quoting r c h
  | .plain, d :: r, c, h => by
    rw [scan] at h
    split_ifs at h with hsep
    · cases h
      exact hsep
    · exact scan_rest .quoting r c h
    · exact scan_rest .plain r c h
  | .seen, d :: r, c, h => by
    rw [scan] at h
    split_ifs at h with hq hsep
    · exact scan_rest .quoting r c h
    · cases h
      exact hsep
    · exact scan_rest .plain r c h

theorem layout_length (P M r Z : Bytes) :
    (layout P M r Z).length = P.length + (M.length + (r.length + (Z.length + 1))) := by
  rw [layout, length_append, length_append, length_append, length_cons]

theorem qtoken_spec (h0 : 0 ∉ r) (P : Bytes) : ∃ Q r', qtoken (layout P [] r Z) P.length = (layout Q [] r' Z,
    Q.length) ∧
    0 ∉ r' ∧ r'.dropWhile isSep = (scan .plain r).2.dropWhile isSep ∧
      (P ++ (scan .plain r).1 ++ [0] <+: Q ∨ r' = [] ∧ Q = P ++ (scan .plain r).1) := by
  obtain ⟨M, hM, hloop⟩ := qtokenLoop_reads (Z := Z) (layout P [] r Z).length r P [] false
    (by rw [layout_length]; omega) h0 not_mem_nil
  have hrest : 0 ∉ (scan (mode false) r).2 := fun h => h0 ((scan_splits _ r).2.subset h)
  have hsep := scan_rest (mode false) r
  have hmode : mode false = .plain := rfl
  rw [hmode] at hloop hrest hsep
  obtain ⟨tok, htok⟩ : ∃ tok, (scan .plain r).1 = tok := ⟨_, rfl⟩
  obtain ⟨rest, hr⟩ : ∃ rest, (scan .plain r).2 = rest := ⟨_, rfl⟩
  rw [htok, hr] at hloop
  rw [hr] at hrest hsep
  have hs : P.length + tok.length = (P ++ tok).length := length_append.symm
  rw [length_nil, add_zero, hs] at hloop
  unfold qtoken
  rw [hloop, htok, hr]
  dsimp only
  have hget := layout_get (P ++ tok) [] (M ++ rest) Z
  rcases M with _ | ⟨x, N⟩
  · rw [length_nil, add_zero] at hget ⊢
    rw [nil_append] at hget
    rcases rest with _ | ⟨c, rest⟩
    · have hnull : (layout (P ++ tok) [] [] Z).getD (P ++ tok).length 0 = 0 := hget
      rw [hnull, if_neg (not_not.2 rfl)]
      exact ⟨P ++ tok, [], rfl, not_mem_nil, rfl, .inr ⟨rfl, rfl⟩⟩
    obtain ⟨hc, hrest⟩ := of_not_mem_cons hrest
    have hcget : (layout (P ++ tok) [] (c :: rest) Z).getD (P ++ tok).length 0 = c := hget
    have hQ : (P ++ tok).length + 1 = (P ++ tok ++ [0]).length := by
      simp only [length_append, length_singleton]
    refine ⟨P ++ tok ++ [0], rest, ?_, hrest, ?_, .inl prefix_rfl⟩
    · rw [hcget, if_pos hc, if_pos rfl, layout_move, layout_set (P ++ tok) (by simp), hQ]
      rfl
    · rw [dropWhile_cons_of_pos (hsep c rfl)]
  · have hx : x ≠ 0 := (of_not_mem_cons hM).1
    have hxget : (layout (P ++ tok) (x :: N) rest Z).getD (P ++ tok).length 0 = x := by
      rw [layout, getD_append_right _ _ _ _ le_rfl, tsub_self]
      rfl
    have hne : (P ++ tok).length + (x :: N).length ≠ (P ++ tok).length := by
      rw [length_cons]
      omega
    refine ⟨P ++ tok ++ [0] ++ N, rest, ?_, hrest, rfl, .inl (prefix_append _ _)⟩
    rw [hxget, if_pos hx, if_neg hne, layout_set (P ++ tok) (cons_ne_nil x N)]
    refine Prod.ext (by simp [layout]) ?_
    simp only [length_append, length_cons, length_nil]
    omega

theorem skipSeps_layout (h0 : 0 ∉ r) (P : Bytes) :
    skipSeps (layout P [] r Z) P.length = (P ++ r.takeWhile isSep).length := by
  have hdrop : (layout P [] r Z).drop P.length = r ++ 0 :: Z := drop_left
  have hstop : (0 :: Z).takeWhile (fun c => c ≠ 0 && isSep c) = [] := rfl
  have hsep : ∀ (r : Bytes), 0 ∉ r →
      (r ++ 0 :: Z).takeWhile (fun c => c ≠ 0 && isSep c) = r.takeWhile isSep := by
    intro r
    induction r with
    | nil => exact fun _ => hstop
    | cons c r ih =>
      intro h0
      obtain ⟨hc, hr⟩ := of_not_mem_cons h0
      rw [cons_append, takeWhile_cons, takeWhile_cons, decide_eq_true hc, Bool.true_and, ih hr]
  rw [skipSeps, hdrop, hsep r h0, length_append]

theorem tokens_congr {r r' : Bytes} (h : r.dropWhile isSep = r'.dropWhile isSep) (n : Nat) :
    tokens n r = tokens n r' := by
  rcases n with _ | n
  · rfl
  · rw [tokens, tokens, h]

theorem tokens_nil : tokens n [] = [] := by
  rcases n with _ | n <;> rfl

theorem cstr_at {P tok W : Bytes} (h : 0 ∉ tok) : cstr (P ++ tok ++ [0] ++ W) P.length = tok := by
  have hne : ∀ x ∈ tok, decide (x ≠ 0) = true := by
    intro x hx
    exact decide_eq_true fun hx0 => h (hx0 ▸ hx)
  rw [cstr, append_assoc, append_assoc, drop_left, takeWhile_append_of_pos hne]
  exact append_nil tok

theorem tokenizeLoop_spec : ∀ (n : Nat) (r P : Bytes), 0 ∉ r → ∃ buf args,
    tokenizeLoop n (layout P [] r Z) P.length = (buf, args) ∧ args.map (cstr buf) = tokens n r ∧ P <+: buf ∧
      (args = [] → buf = layout P [] r Z)
  | 0, r, P, _ => ⟨layout P [] r Z, [], rfl, rfl, List.prefix_append _ _, fun _ => rfl⟩
  | n + 1, r, P, h0 => by
    obtain ⟨w, hw⟩ : ∃ w, r.takeWhile isSep = w := ⟨_, rfl⟩
    obtain ⟨r1, hr1⟩ : ∃ r1, r.dropWhile isSep = r1 := ⟨_, rfl⟩
    have hr : r = w ++ r1 := by rw [← hw, ← hr1, takeWhile_append_dropWhile]
    have hr0 : 0 ∉ r1 := fun h => h0 (hr ▸ mem_append_right w h)
    have hlay : layout P [] r Z = layout (P ++ w) [] r1 Z := by simp [layout, hr]
    have hget := layout_get (P ++ w) [] r1 Z
    rw [length_nil, add_zero] at hget
    rw [tokenizeLoop, skipSeps_layout h0, hw, tokens, hr1, hlay, hget]
    dsimp only
    rcases r1 with _ | ⟨c, r1⟩
    · have hend : ([] ++ 0 :: Z).getD 0 0 = 0 := rfl
      rw [if_pos hend, if_pos rfl]
      exact ⟨_, [], rfl, rfl, by rw [layout, append_assoc]; exact prefix_append _ _, fun _ => rfl⟩
    have hc : c ≠ 0 := (of_not_mem_cons hr0).1
    obtain ⟨Q, r', hq, hq0, hdrop, hQ⟩ := qtoken_spec (Z := Z) hr0 (P ++ w)
    obtain ⟨buf, args, hloop, hmap, hpre, hsame⟩ := tokenizeLoop_spec n r' Q hq0
    obtain ⟨tok, htok⟩ : ∃ tok, (scan .plain (c :: r1)).1 = tok := ⟨_, rfl⟩
    have htok0 : 0 ∉ tok := fun h => hr0 ((scan_splits .plain (c :: r1)).1 0 (htok ▸ h))
    rw [htok] at hQ ⊢
    -- the token and its null are in front of what is left, or there is nothing left
    have hput : P ++ w ++ tok ++ [0] <+: buf := by
      rcases hQ with hQ | ⟨rfl, rfl⟩
      · exact hQ.trans hpre
      · have hnil : args = [] := by
          rw [tokens_nil] at hmap
          exact map_eq_nil_iff.1 hmap
        rw [hsame hnil, layout]
        exact ⟨Z, by simp⟩
    have hcond : ¬((c :: r1 ++ 0 :: Z).getD 0 0 = 0) := hc
    refine ⟨buf, (P ++ w).length :: args, ?_, ?_, ?_, fun h => absurd h (cons_ne_nil _ _)⟩
    · rw [if_neg hcond, hq, hloop]
    · obtain ⟨W, rfl⟩ := hput
      rw [if_neg (cons_ne_nil c r1), map_cons, cstr_at htok0, hmap, tokens_congr hdrop]
    · rw [append_assoc, append_assoc] at hput
      exact (prefix_append _ _).trans hput

theorem tokenize_spec (h0 : 0 ∉ r) (Z : Bytes) (n : Nat) :
    (tokenize (r ++ 0 :: Z) n).2.map (cstr (tokenize (r ++ 0 :: Z) n).1) = tokens n r := by
  obtain ⟨buf, args, hloop, hmap, -, -⟩ := tokenizeLoop_spec (Z := Z) n r [] h0
  have heq : tokenize (r ++ 0 :: Z) n = (buf, args) := hloop
  rw [heq, hmap]

/-! ### The fields of a command -/

variable {m : Nat}

theorem fields_le : ∀ (p : Bytes), fields false p ≤ fields true p
  | [] => le_rfl
  | c :: p => by
    rw [fields, fields]
    exact Nat.add_le_add_right (Nat.zero_le _) _

theorem fields_append (q : Bytes) : ∀ (p : Bytes) (white : Bool), fields white p ≤ fields white (p ++ q)
  | [], _ => Nat.zero_le _
  | c :: p, white => by
    rw [List.cons_append, fields, fields]
    exact Nat.add_le_add_left (fields_append q p _) _

theorem fields_mono {p q : Bytes} (h : p <+: q) (white : Bool) : fields white p ≤ fields white q := by
  obtain ⟨t, rfl⟩ := h
  exact fields_append t p white

theorem fields_dropWhile : ∀ (r : Bytes), fields true (r.dropWhile isSep) = fields true r
  | [] => rfl
  | c :: r => by
    by_cases hc : isSep c = true
    · have hone : fields true (c :: r) = fields true r := by
        rw [fields, show strchr qsep c = true from hc]
        exact zero_add _
      rw [dropWhile_cons_of_pos hc, fields_dropWhile r, hone]
    · rw [dropWhile_cons_of_neg hc]

theorem fields_suffix : ∀ (q r : Bytes), r <:+ q → (∀ c ∈ r.head?, isSep c = true) → fields true r ≤ fields false q
  | [], r, h, _ => by
    obtain rfl := suffix_nil.1 h
    exact le_rfl
  | d :: q, r, h, hr => by
    rcases suffix_cons_iff.1 h with rfl | h
    · have hd : strchr qsep d = true := hr d rfl
      rw [fields, fields, hd]
      exact Nat.add_le_add_right zero_le _
    · refine (fields_suffix q r h hr).trans ?_
      rw [fields]
      cases strchr qsep d with
      | false => exact Nat.le_add_left _ _
      | true => exact (fields_le q).trans (Nat.le_add_left _ _)

theorem tokens_length_le : ∀ (n : Nat) (r : Bytes), (tokens n r).length ≤ fields true r
  | 0, _ => Nat.zero_le _
  | n + 1, r => by
    have hfields := fields_dropWhile r
    have hhead := List.head?_dropWhile_not isSep r
    obtain ⟨r1, hr1⟩ : ∃ r1, r.dropWhile isSep = r1 := ⟨_, rfl⟩
    rw [hr1] at hfields hhead
    rw [tokens, hr1, ← hfields]
    split_ifs with hnil
    · exact zero_le
    rcases r1 with _ | ⟨c, r1⟩
    · exact absurd rfl hnil
    have hc : isSep c = false := by simpa using hhead
    have hrest : (scan .plain (c :: r1)).2 <:+ r1 := by
      rw [scan, if_neg (by rw [hc]; exact Bool.false_ne_true)]
      split_ifs
      · exact (scan_splits .quoting r1).2
      · exact (scan_splits .plain r1).2
    have hle := (tokens_length_le n (scan .plain (c :: r1)).2).trans
      (fields_suffix r1 _ hrest (scan_rest .plain (c :: r1)))
    have hone : fields true (c :: r1) = 1 + fields false r1 := by
      rw [fields, show strchr qsep c = false from hc]
      rfl
    rw [length_cons, hone]
    omega

theorem tokenizeLoop_enough : ∀ (n m : Nat) (buf : Bytes) (s : Nat), n ≤ m → (tokenizeLoop m buf s).2.length ≤ n →
    tokenizeLoop m buf s = tokenizeLoop n buf s
  | 0, 0, _, _, _, _ => rfl
  | 0, m + 1, buf, s, _, h => by
    rw [tokenizeLoop] at h ⊢
    dsimp only at h ⊢
    split_ifs at h ⊢
    · rfl
    · exact absurd h (Nat.not_succ_le_zero _)
  | n + 1, 0, _, _, hm, _ => absurd hm (Nat.not_succ_le_zero n)
  | n + 1, m + 1, buf, s, hm, h => by
    rw [tokenizeLoop] at h
    rw [tokenizeLoop, tokenizeLoop]
    dsimp only at h ⊢
    split_ifs at h ⊢
    · rfl
    · rw [tokenizeLoop_enough n m _ _ (Nat.le_of_succ_le_succ hm) (Nat.le_of_succ_le_succ h)]

theorem prefix_chomp (p : Bytes) : chomp p <+: p := by
  unfold chomp
  split_ifs
  · exact dropLast_prefix p
  · exact prefix_rfl

theorem tokenize_length_le (p : Bytes) (n : Nat) : (tokenize (chomp p ++ [0]) n).2.length ≤ ncmdfield p - 1 := by
  obtain ⟨r, Z, hr, hpre, hbuf⟩ : ∃ r Z, 0 ∉ r ∧ r <+: chomp p ∧ chomp p ++ [0] = r ++ 0 :: Z := by
    by_cases h0 : 0 ∈ chomp p
    · obtain ⟨r, Z, heq, hr⟩ := eq_append_cons_of_mem h0
      exact ⟨r, Z ++ [0], hr, ⟨_, heq.symm⟩, by rw [heq]; simp⟩
    · exact ⟨chomp p, [], h0, prefix_rfl, rfl⟩
  have hspec := congrArg List.length (tokenize_spec hr Z n)
  rw [length_map] at hspec
  rw [hbuf, hspec]
  exact (tokens_length_le n r).trans (fields_mono (hpre.trans (prefix_chomp p)) true)

theorem parsecmd_room (p : Bytes) : (parsecmd p).f.length < (parsecmd p).room ∧
    ∀ m, ncmdfield p - 1 ≤ m → tokenize (chomp p ++ [0]) m = tokenize (chomp p ++ [0]) (ncmdfield p - 1) := by
  refine ⟨Nat.lt_succ_of_le (tokenize_length_le p _), fun m hm => ?_⟩
  exact tokenizeLoop_enough _ m _ 0 hm (tokenize_length_le p m)

end Node9.Tokenize
