import Node9.Lib.Buf

/-!
# Commands of the shell (`sh.lua`)

A command line is split at its spaces; the words behind the first are put between quotes, and the call of the first
with them is compiled and run. `readString` is how Lua reads such a literal: it reads a word back if the word has no
quote, no backslash and no end of line, and never more than was there (`readArgs_length`).
-/

namespace Node9.Sh
open Buf List Option

def quote : UInt8 := 39
def backslash : UInt8 := 92
def ampersand : UInt8 := 38

/-! ### Short literals (`read_string` of LuaJIT) -/

def isspace (c : UInt8) : Bool := c = 32 || (9 ≤ c && c ≤ 13)

def isdigit (c : UInt8) : Bool := 48 ≤ c && c ≤ 57

def xdigit (c : UInt8) : Option UInt8 :=
  if isdigit c then some (c - 48)
  else if 97 ≤ c ∧ c ≤ 102 then some (c - 87)
  else if 65 ≤ c ∧ c ≤ 70 then some (c - 55)
  else none

/-- `\\xXX` -/
def hexEscape (s : Bytes) : Option (Bytes × Bytes) :=
  s.head?.bind fun c => (xdigit c).bind fun hi =>
    s.tail.head?.bind fun d => (xdigit d).map fun lo => ([hi * 16 + lo], s.drop 2)

/-- `\\ddd`, with the first digit. -/
def decEscape (c : UInt8) (s : Bytes) : Option (Bytes × Bytes) :=
  let v := (c - 48).toNat
  if s.head?.any isdigit then
    let v := v * 10 + ((s.getD 0 0) - 48).toNat
    if s.tail.head?.any isdigit then
      let v := v * 10 + ((s.getD 1 0) - 48).toNat
      if v > 255 then none else some ([UInt8.ofNat v], s.drop 2)
    else some ([UInt8.ofNat v], s.drop 1)
  else some ([UInt8.ofNat v], s)

/-- The end of a line: `\\n\\r` and `\\r\\n` are one. -/
def newline (c : UInt8) (s : Bytes) : Bytes :=
  if (s.head? = some 10 ∨ s.head? = some 13) ∧ s.head? ≠ some c then s.tail else s

/-- The letters for control characters. -/
def controls : List (UInt8 × UInt8) := [(97, 7), (98, 8), (102, 12), (110, 10), (114, 13), (116, 9), (118, 11)]

/-- What is read behind a backslash, and the rest. -/
def escape : Bytes → Option (Bytes × Bytes)
  | [] => some ([], [])
  | c :: s =>
    (controls.lookup c).elim
      (if c = 120 then hexEscape s
      else if c = 122 then some ([], s.dropWhile isspace)
      else if c = 10 ∨ c = 13 then some ([10], newline c s)
      else if c = backslash ∨ c = 34 ∨ c = quote then some ([c], s)
      else if isdigit c then decEscape c s
      else none)
      fun x => some ([x], s)

/-- The string behind the quote, and the rest behind the other quote; with a turn for each byte at least. -/
def readString : Nat → Bytes → Option (Bytes × Bytes)
  | 0, _ => none
  | _ + 1, [] => none
  | fuel + 1, c :: s =>
    if c = quote then some ([], s)
    else if c = 10 ∨ c = 13 then none
    else if c = backslash then
      (escape s).bind fun e => (readString fuel e.2).map fun r => (e.1 ++ r.1, r.2)
    else (readString fuel s).map fun r => (c :: r.1, r.2)

/-- Literals with commas between them and a bracket at the end. -/
def readArgs : Nat → Bytes → Option (List Bytes)
  | 0, _ => none
  | fuel + 1, s =>
    if s.head? = some quote then
      (readString s.length s.tail).bind fun r =>
        if r.2 = [41] then some [r.1]
        else if r.2.head? = some 44 then (readArgs fuel r.2.tail).map fun args => r.1 :: args
        else none
    else none

/-- The arguments, if the text is a call of `name` with literals only. -/
def readCall (name s : Bytes) : Option (List Bytes) :=
  if name ++ [40] <+: s then
    let rest := s.drop (name.length + 1)
    if rest = [41] then some [] else readArgs rest.length rest
  else none

/-- A compiled text: the call of the function with some strings, or other code. -/
inductive Chunk
  | call (args : List Bytes)
  | code (s : Bytes)
  deriving DecidableEq

/-- `"return "` -/
def returns : Bytes := [114, 101, 116, 117, 114, 110, 32]

variable (name : Bytes) (compiles : Bytes → Bool) (result : Chunk → Bool)

/-- What other texts compile is a parameter. -/
def loadstring (s : Bytes) : Option Chunk :=
  (readCall name (if returns <+: s then s.drop 7 else s)).elim (if compiles s then some (.code s) else none)
    fun args => some (.call args)

/-- What is run, in order, for a parameter that says whether running a chunk gives a result. -/
def evalstring (lstr : Bytes) : List Chunk :=
  let eval := loadstring name compiles (returns ++ lstr)
  if eval = none ∨ eval.any (fun c => !result c) then
    let seval := loadstring name compiles lstr
    eval.toList ++ if eval = none then seval.toList else []
  else eval.toList

def split (s : Bytes) : List Bytes := (s.splitOn 32).filter (· ≠ [])

/-- A last word `&`, or an `&` at the end of the last word, is left out. -/
def background (argv : List Bytes) : List Bytes :=
  let last := argv.getLast?.getD []
  if argv.length > 1 ∧ last = [ampersand] then argv.dropLast
  else if last.length > 1 ∧ last.getLast? = some ampersand then argv.dropLast ++ [last.dropLast]
  else argv

/-- `argv[1] .. '(' .. table.concat(args,",") .. ')'` -/
def callText (argv : List Bytes) : Bytes :=
  argv.headD [] ++ [40] ++ [44].intercalate (argv.tail.map fun w => quote :: (w ++ [quote])) ++ [41]

def command (line : Bytes) : List Chunk :=
  if line.head? ≠ some 32 then evalstring name compiles result (callText (background (split line)))
  else evalstring name compiles result line.tail

/-! ### Literals are no longer than their text -/

/-- Nothing that a literal does not take as it is. -/
def Plain (w : Bytes) : Prop := ∀ c ∈ w, c ≠ quote ∧ c ≠ backslash ∧ c ≠ 10 ∧ c ≠ 13

variable {s rest w d : Bytes} {e : Bytes × Bytes} {fuel : Nat} {ws ws' ds : List Bytes}

theorem hexEscape_length (h : hexEscape s = some e) : e.1.length + e.2.length ≤ s.length := by
  obtain ⟨c, hc, h⟩ := bind_eq_some_iff.1 h
  obtain ⟨hi, -, h⟩ := bind_eq_some_iff.1 h
  obtain ⟨d, hd, h⟩ := bind_eq_some_iff.1 h
  obtain ⟨lo, -, rfl⟩ := map_eq_some_iff.1 h
  obtain ⟨s, rfl⟩ := head?_eq_some_iff.1 hc
  obtain ⟨s, rfl⟩ := head?_eq_some_iff.1 hd
  exact Nat.le_succ_of_le (le_of_eq (add_comm _ _))

theorem decEscape_length {c : UInt8} (h : decEscape c s = some e) : e.1.length + e.2.length ≤ s.length + 1 := by
  unfold decEscape at h
  dsimp only at h
  split_ifs at h
  all_goals
    cases h
    simp only [length_singleton, length_drop]
    omega

theorem newline_length (c : UInt8) (s : Bytes) : (newline c s).length ≤ s.length := by
  unfold newline
  split_ifs
  · exact (tail_sublist s).length_le
  · exact le_rfl

theorem escape_length : ∀ {s : Bytes}, escape s = some e → e.1.length + e.2.length ≤ s.length
  | [], h => by
    cases h
    exact le_rfl
  | c :: s, h => by
    have hone : ∀ x : UInt8, [x].length + s.length ≤ (c :: s).length := fun x => le_of_eq (add_comm _ _)
    rw [escape] at h
    generalize controls.lookup c = control at h
    rcases control with _ | x
    · rw [elim_none] at h
      split_ifs at h
      · exact Nat.le_succ_of_le (hexEscape_length h)
      · cases h
        exact Nat.le_succ_of_le ((zero_add _).le.trans (dropWhile_sublist isspace).length_le)
      · cases h
        exact (Nat.add_le_add_left (newline_length c s) 1).trans (hone c)
      · cases h
        exact hone c
      · exact decEscape_length h
    · cases h
      exact hone x

theorem readString_cases : ∀ (fuel : Nat) {s d rest : Bytes}, readString fuel s = some (d, rest) →
    d.length + 1 + rest.length < s.length ∨ s = d ++ quote :: rest ∧ Plain d
  | 0, _, _, _, h => absurd h (some_ne_none _).symm
  | _ + 1, [], _, _, h => absurd h (some_ne_none _).symm
  | fuel + 1, c :: s, d, rest, h => by
    rw [readString] at h
    split_ifs at h with hq hnl hb
    · obtain ⟨rfl, rfl⟩ := Prod.mk.inj (some.inj h)
      refine .inr ⟨by rw [hq]; rfl, fun x hx => absurd hx not_mem_nil⟩
    · obtain ⟨e, he, h⟩ := bind_eq_some_iff.1 h
      obtain ⟨r, hr, h⟩ := map_eq_some_iff.1 h
      obtain ⟨rfl, rfl⟩ := Prod.mk.inj h
      have hesc := escape_length he
      have hlen : r.1.length + 1 + r.2.length ≤ e.2.length := by
        rcases readString_cases fuel hr with hlt | ⟨heq, -⟩
        · exact le_of_lt hlt
        · rw [heq, length_append, length_cons]
          omega
      refine .inl ?_
      rw [length_append, length_cons]
      omega
    · obtain ⟨r, hr, h⟩ := map_eq_some_iff.1 h
      obtain ⟨rfl, rfl⟩ := Prod.mk.inj h
      rcases readString_cases fuel hr with hlt | ⟨rfl, hplain⟩
      · refine .inl ?_
        rw [length_cons, length_cons]
        omega
      · refine .inr ⟨rfl, ?_⟩
        intro x hx
        rcases mem_cons.1 hx with rfl | hx
        · exact ⟨hq, hb, not_or.1 hnl⟩
        · exact hplain x hx

theorem readString_plain : ∀ (fuel : Nat) {w : Bytes}, Plain w → w.length < fuel →
    readString fuel (w ++ quote :: rest) = some (w, rest)
  | 0, _, _, h => absurd h (Nat.not_lt_zero _)
  | fuel + 1, [], _, _ => if_pos rfl
  | fuel + 1, c :: w, hw, h => by
    obtain ⟨hq, hb, hnl⟩ := hw c mem_cons_self
    have ih := readString_plain fuel (fun x hx => hw x (mem_cons_of_mem c hx))
      (Nat.lt_of_succ_lt_succ h)
    rw [cons_append, readString, if_neg hq, if_neg (not_or.2 hnl), if_neg hb, ih]
    rfl

def quoted (w : Bytes) : Bytes := quote :: (w ++ [quote])

/-- The arguments of a call, and its bracket. -/
def argsText (ws : List Bytes) : Bytes := [44].intercalate (ws.map quoted) ++ [41]

theorem argsText_one (w : Bytes) : argsText [w] = quote :: (w ++ quote :: [41]) := by
  rw [argsText, map_singleton, intercalate_singleton, quoted, cons_append, append_assoc]
  rfl

theorem argsText_cons (w : Bytes) (h : ws ≠ []) : argsText (w :: ws) = quote :: (w ++ quote :: 44 :: argsText ws) := by
  have hne : ws.map quoted ≠ [] := mt map_eq_nil_iff.1 h
  rw [argsText, map_cons, intercalate_cons_of_ne_nil hne, quoted]
  simp [argsText]

theorem argsText_length : ∀ {ws : List Bytes}, ws ≠ [] → (argsText ws).length = (ws.map fun w => w.length + 3).sum
  | [], h => absurd rfl h
  | [w], _ => by
    rw [argsText_one]
    simp
  | w :: w' :: ws, _ => by
    rw [argsText_cons w (cons_ne_nil w' ws), map_cons, sum_cons,
      ← argsText_length (cons_ne_nil w' ws)]
    simp only [length_cons, length_append]
    omega

theorem readArgs_cases : ∀ (fuel : Nat) {s : Bytes} {ds : List Bytes}, readArgs fuel s = some ds →
    ds ≠ [] ∧ ((argsText ds).length < s.length ∨ s = argsText ds ∧ ∀ d ∈ ds, Plain d)
  | 0, _, _, h => absurd h (some_ne_none _).symm
  | fuel + 1, s, ds, h => by
    rw [readArgs] at h
    split_ifs at h with hq
    obtain ⟨s, rfl⟩ := head?_eq_some_iff.1 hq
    obtain ⟨r, hr, h⟩ := bind_eq_some_iff.1 h
    have hone := readString_cases _ hr
    obtain ⟨d, rest⟩ := r
    rw [tail_cons] at hone
    split_ifs at h with hend hcomma
    · cases h
      obtain rfl : rest = [41] := hend
      refine ⟨cons_ne_nil _ _, ?_⟩
      rw [argsText_one]
      rcases hone with hlt | ⟨rfl, hplain⟩
      · refine .inl ?_
        simp only [length_cons, length_append, length_nil] at hlt ⊢
        omega
      · exact .inr ⟨rfl, by simpa using hplain⟩
    obtain ⟨ds, hds, rfl⟩ := map_eq_some_iff.1 h
    obtain ⟨rest, rfl⟩ := head?_eq_some_iff.1 hcomma
    obtain ⟨hne, hcases⟩ := readArgs_cases fuel hds
    refine ⟨cons_ne_nil _ _, ?_⟩
    dsimp only at hcases ⊢
    rw [tail_cons] at hcases
    rw [argsText_cons d hne]
    rcases hone with hlt | ⟨rfl, hplain⟩
    · refine .inl ?_
      have hle : (argsText ds).length ≤ rest.length := by
        rcases hcases with hlt | ⟨rfl, -⟩
        · exact le_of_lt hlt
        · exact le_rfl
      simp only [length_cons, length_append] at hlt ⊢
      omega
    · rcases hcases with hlt | ⟨rfl, hall⟩
      · refine .inl ?_
        simp only [length_cons, length_append]
        omega
      · exact .inr ⟨rfl, forall_mem_cons.2 ⟨hplain, hall⟩⟩

theorem readArgs_text : ∀ (fuel : Nat) {ws : List Bytes}, ws ≠ [] → (∀ w ∈ ws, Plain w) → ws.length ≤ fuel →
    readArgs fuel (argsText ws) = some ws
  | _, [], h, _, _ => absurd rfl h
  | 0, w :: ws, _, _, hf => absurd hf (Nat.not_succ_le_zero _)
  | fuel + 1, [w], _, hws, _ => by
    have hlit : readString (argsText [w]).length (w ++ quote :: [41]) = some (w, [41]) := by
      refine readString_plain _ (hws w (mem_singleton.2 rfl)) ?_
      rw [argsText_one, length_cons, length_append]
      omega
    rw [readArgs, if_pos (by rw [argsText_one]; rfl)]
    rw [show (argsText [w]).tail = w ++ quote :: [41] by rw [argsText_one]; rfl, hlit]
    rfl
  | fuel + 1, w :: w' :: ws, _, hws, hf => by
    have hne : w' :: ws ≠ [] := cons_ne_nil _ _
    have hlit : readString (argsText (w :: w' :: ws)).length (w ++ quote :: 44 :: argsText (w' :: ws)) =
        some (w, 44 :: argsText (w' :: ws)) := by
      refine readString_plain _ (hws w mem_cons_self) ?_
      rw [argsText_cons w hne, length_cons, length_append]
      omega
    have ih := readArgs_text fuel hne (fun x hx => hws x (mem_cons_of_mem w hx)) (Nat.le_of_succ_le_succ hf)
    rw [readArgs, if_pos (by rw [argsText_cons w hne]; rfl)]
    rw [show (argsText (w :: w' :: ws)).tail = w ++ quote :: 44 :: argsText (w' :: ws) by
      rw [argsText_cons w hne]; rfl, hlit, bind_some]
    dsimp only
    rw [if_neg (fun h => absurd (head_eq_of_cons_eq h) (by decide)), head?_cons, if_pos rfl, tail_cons, ih]
    rfl

variable {name : Bytes} {compiles : Bytes → Bool} {result : Chunk → Bool}

theorem readCall_cases (h : readCall name s = some ds) :
    name.length + 1 + (argsText ds).length < s.length ∨ s = name ++ [40] ++ argsText ds ∧ ∀ d ∈ ds, Plain d := by
  unfold readCall at h
  split_ifs at h with hpre
  obtain ⟨t, rfl⟩ := hpre
  have hdrop : (name ++ [40] ++ t).drop (name.length + 1) = t := drop_left' length_append
  have hlen : (name ++ [40] ++ t).length = name.length + 1 + t.length := by
    rw [length_append, length_append]
    rfl
  dsimp only at h
  rw [hdrop] at h
  rw [hlen]
  split_ifs at h with hend
  · cases h
    exact .inr ⟨by rw [hend]; rfl, fun d hd => absurd hd not_mem_nil⟩
  · rcases (readArgs_cases _ h).2 with hlt | ⟨rfl, hplain⟩
    · exact .inl (Nat.add_lt_add_left hlt _)
    · exact .inr ⟨rfl, hplain⟩

theorem length_le_argsText : ∀ ws : List Bytes, ws.length ≤ (argsText ws).length
  | [] => Nat.zero_le _
  | w :: ws => by
    rw [argsText_length (cons_ne_nil w ws), map_cons, sum_cons, length_cons]
    have hsum : ws.length ≤ (ws.map fun w => w.length + 3).sum := by
      induction ws with
      | nil => exact le_rfl
      | cons x ws ih =>
        rw [map_cons, sum_cons, length_cons]
        omega
    omega

theorem readCall_text (h : ∀ w ∈ ws, Plain w) : readCall name (name ++ [40] ++ argsText ws) = some ws := by
  have hpre : name ++ [40] <+: name ++ [40] ++ argsText ws := prefix_append _ _
  have hdrop : (name ++ [40] ++ argsText ws).drop (name.length + 1) = argsText ws := drop_left' length_append
  unfold readCall
  rw [if_pos hpre]
  dsimp only
  rw [hdrop]
  by_cases hnil : ws = []
  · subst hnil
    exact if_pos rfl
  have hend : argsText ws ≠ [41] := by
    obtain ⟨w, ws, rfl⟩ := exists_cons_of_ne_nil hnil
    intro heq
    have hlen := argsText_length (cons_ne_nil w ws)
    rw [heq, map_cons, sum_cons, length_singleton] at hlen
    omega
  rw [if_neg hend, readArgs_text _ hnil h (length_le_argsText ws)]

theorem loadstring_call (h : loadstring name compiles s = some (.call ds)) :
    readCall name (if returns <+: s then s.drop 7 else s) = some ds := by
  unfold loadstring at h
  generalize readCall name (if returns <+: s then s.drop 7 else s) = call at h ⊢
  rcases call with _ | args
  · rw [elim_none] at h
    split_ifs at h
    exact absurd (some.inj h) (by rintro ⟨⟩)
  · exact congrArg some (Chunk.call.inj (some.inj h))

theorem loadstring_returns (s : Bytes) : loadstring name compiles (returns ++ s) =
    (readCall name s).elim (if compiles (returns ++ s) then some (.code (returns ++ s)) else none)
      fun args => some (.call args) := by
  have hdrop : (returns ++ s).drop 7 = s := drop_left' (show returns.length = 7 from rfl)
  rw [loadstring, if_pos (prefix_append _ _), hdrop]

theorem evalstring_eq (lstr : Bytes) : evalstring name compiles result lstr =
    (loadstring name compiles (returns ++ lstr)).elim (loadstring name compiles lstr).toList fun c => [c] := by
  unfold evalstring
  dsimp only
  generalize loadstring name compiles (returns ++ lstr) = eval
  rcases eval with _ | c
  · rfl
  · rw [if_neg (some_ne_none c), append_nil, ite_self]
    rfl

theorem evalstring_call (h : ws' = ws ∨ (argsText ws').length < (argsText ws).length) :
    evalstring name compiles result (name ++ [40] ++ argsText ws') = [.call ws] ↔
      ws' = ws ∧ ∀ w ∈ ws, Plain w := by
  have hread : ∀ t, t.length ≤ (name ++ [40] ++ argsText ws').length → readCall name t = some ws →
      ws' = ws ∧ ∀ w ∈ ws, Plain w := by
    intro t ht hcall
    have hlen : (name ++ [40] ++ argsText ws').length = name.length + 1 + (argsText ws').length := by
      rw [length_append, length_append]
      rfl
    rcases readCall_cases hcall with hlt | ⟨rfl, hplain⟩
    · rcases h with rfl | h <;> omega
    · refine ⟨h.resolve_right fun h => ?_, hplain⟩
      rw [length_append, length_append, length_singleton] at ht
      omega
  rw [evalstring_eq, loadstring_returns]
  constructor
  · intro hrun
    generalize hcall : readCall name (name ++ [40] ++ argsText ws') = call at hrun
    rcases call with _ | args
    · rw [elim_none] at hrun
      split_ifs at hrun
      · exact absurd (singleton_inj.1 hrun) (by rintro ⟨⟩)
      rw [elim_none] at hrun
      have hload : loadstring name compiles (name ++ [40] ++ argsText ws') = some (.call ws) := by
        generalize loadstring name compiles (name ++ [40] ++ argsText ws') = eval at hrun
        rcases eval with _ | c
        · exact absurd hrun (by simp)
        · exact congrArg some (singleton_inj.1 hrun)
      refine hread _ ?_ (loadstring_call hload)
      split_ifs
      · rw [length_drop]
        exact Nat.sub_le _ _
      · exact le_rfl
    · rw [elim_some, elim_some] at hrun
      exact hread _ le_rfl (hcall.trans (congrArg some (Chunk.call.inj (singleton_inj.1 hrun))))
  · rintro ⟨rfl, hplain⟩
    rw [readCall_text hplain]
    rfl

/-! ### The words of a line -/

def isIdent (c : UInt8) : Bool := isdigit c || (97 ≤ c && c ≤ 122) || (65 ≤ c && c ≤ 90) || c = 95

/-- The words that LuaJIT takes for no name before a bracket. -/
def reserved : List String :=
  ["and", "break", "do", "else", "elseif", "end", "false", "for", "function", "if", "in", "local", "nil", "not", "or",
    "repeat", "return", "then", "true", "until", "while"]

/-- A line that starts with the name of a function, and does not end in `&`. -/
structure Line where
  name : Bytes
  rest : Bytes
  ident : name ≠ [] ∧ ∀ c ∈ name, isIdent c = true
  lexed : name.head?.any isdigit = false ∧ ∀ w ∈ reserved, name ≠ w.toList.map fun x => UInt8.ofNat x.toNat
  blank : ∀ c ∈ rest.head?, c = 32
  last : (name ++ rest).getLast? ≠ some ampersand

theorem split_line (l : Line) : split (l.name ++ l.rest) = l.name :: split l.rest := by
  have hno : 32 ∉ l.name := by
    intro h
    exact absurd (l.ident.2 32 h) (by decide)
  have hname : decide (l.name ≠ []) = true := decide_eq_true l.ident.1
  have hblank := l.blank
  generalize l.rest = rest at hblank ⊢
  rcases rest with _ | ⟨c, rest⟩
  · rw [append_nil, split, splitOn_eq_singleton hno]
    exact filter_cons_of_pos hname
  obtain rfl : c = 32 := hblank c rfl
  have hrest : split (32 :: rest) = (rest.splitOn 32).filter (· ≠ []) := by
    have hon : ([] ++ 32 :: rest).splitOn 32 = [] :: rest.splitOn 32 :=
      splitOn_append_cons_self_of_not_mem not_mem_nil rest
    rw [nil_append] at hon
    rw [split, hon]
    rfl
  rw [hrest, split, splitOn_append_cons_self_of_not_mem hno]
  exact filter_cons_of_pos hname

/-- Whether the last word ends in `&`. -/
def Async (ws : List Bytes) : Prop := ∃ w ∈ ws.getLast?, w.getLast? = some ampersand

theorem argsText_append (ws : List Bytes) (w : Bytes) : (argsText (ws ++ [w])).length =
    (ws.map fun w => w.length + 3).sum + (w.length + 3) := by
  rw [argsText_length (by simp), map_append, sum_append]
  simp

theorem background_cases (l : Line) (ws : List Bytes) :
    ¬ Async ws ∧ background (l.name :: ws) = l.name :: ws ∨
      Async ws ∧ ∃ ws', background (l.name :: ws) = l.name :: ws' ∧ (argsText ws').length < (argsText ws).length := by
  rcases eq_nil_or_concat ws with rfl | ⟨ws, w, rfl⟩
  · refine .inl ⟨by rintro ⟨w, ⟨⟩, -⟩, ?_⟩
    have hlast : l.name.getLast? ≠ some ampersand := by
      intro h
      exact absurd (l.ident.2 _ (mem_of_getLast? h)) (by decide)
    unfold background
    dsimp only
    rw [if_neg (fun h => absurd h.1 (by simp)), if_neg]
    rintro ⟨-, h⟩
    exact hlast h
  rw [concat_eq_append]
  have hcons : l.name :: (ws ++ [w]) = (l.name :: ws) ++ [w] := rfl
  have hlast : (l.name :: (ws ++ [w])).getLast?.getD [] = w := by
    rw [hcons, getLast?_concat]
    rfl
  have hdrop : (l.name :: (ws ++ [w])).dropLast = l.name :: ws := by rw [hcons, dropLast_concat]
  have hlen : 1 < (l.name :: (ws ++ [w])).length := by simp
  have hmem : (ws ++ [w]).getLast? = some w := getLast?_concat
  unfold background
  dsimp only
  rw [hlast, hdrop]
  by_cases hone : w = [ampersand]
  · refine .inr ⟨⟨w, hmem, by rw [hone]; rfl⟩, ws, if_pos ⟨hlen, hone⟩, ?_⟩
    rw [argsText_append]
    by_cases hnil : ws = []
    · subst hnil
      show 1 < _
      omega
    · rw [argsText_length hnil]
      omega
  rw [if_neg fun h => hone h.2]
  by_cases htwo : w.length > 1 ∧ w.getLast? = some ampersand
  · refine .inr ⟨⟨w, hmem, htwo.2⟩, ws ++ [w.dropLast], if_pos htwo, ?_⟩
    rw [argsText_append, argsText_append, length_dropLast]
    omega
  refine .inl ⟨?_, if_neg htwo⟩
  rintro ⟨x, hx, hend⟩
  obtain rfl : w = x := some.inj (hmem.symm.trans hx)
  obtain ⟨u, rfl⟩ := getLast?_eq_some_iff.1 hend
  rcases u with _ | ⟨c, u⟩
  · exact hone rfl
  · exact htwo ⟨by simp, hend⟩

/-- The function is called once with the words of the line, and nothing else of it is run, if the words are plain and
the last one does not end in `&`. -/
theorem command_iff (compiles : Bytes → Bool) (result : Chunk → Bool) (l : Line) :
    command l.name compiles result (l.name ++ l.rest) = [.call (split l.rest)] ↔
      (∀ w ∈ split l.rest, Plain w) ∧ ¬ Async (split l.rest) := by
  have hhead : (l.name ++ l.rest).head? ≠ some 32 := by
    obtain ⟨c, name, hname⟩ := exists_cons_of_ne_nil l.ident.1
    rw [hname]
    intro h
    exact absurd (l.ident.2 32 (by rw [hname, ← some.inj h]; exact mem_cons_self)) (by decide)
  have htext : ∀ ws, callText (l.name :: ws) = l.name ++ [40] ++ argsText ws := by
    intro ws
    rw [callText, append_assoc]
    rfl
  rw [command, if_pos hhead, split_line]
  rcases background_cases l (split l.rest) with ⟨hno, hback⟩ | ⟨hasync, ws', hback, hlt⟩
  · rw [hback, htext, evalstring_call (.inl rfl)]
    exact ⟨fun h => ⟨h.2, hno⟩, fun h => ⟨rfl, h.1⟩⟩
  · rw [hback, htext, evalstring_call (.inr hlt)]
    refine iff_of_false ?_ fun h => h.2 hasync
    rintro ⟨heq, -⟩
    rw [heq] at hlt
    exact Nat.lt_irrefl _ hlt

def apostrophe : Line where
  name := [108, 115]
  rest := [32, 105, 116, 39, 115]
  ident := ⟨cons_ne_nil _ _, by simp [isIdent]⟩
  lexed := by decide
  blank := by
    rintro c ⟨⟩
    rfl
  last := by decide

theorem not_command : ¬ ∀ (compiles : Bytes → Bool) (result : Chunk → Bool),
    command apostrophe.name compiles result (apostrophe.name ++ apostrophe.rest) =
      [.call (split apostrophe.rest)] := by
  intro h
  exact absurd (h (fun _ => false) fun _ => false) (by decide)

end Node9.Sh
