import Mathlib

/-!
# Options of commands (`arg.lua`)

`getopt` reads each word by itself, also one that was the value of the option before it, and `strip` leaves out the
words that start with `-` only. So a value that is the next word is a word that `strip` returns, or one that `getopt`
reads as options (`options_iff`).
-/

namespace Node9.Arg
open List Option

abbrev Word : Type := List UInt8

def dash : UInt8 := 45

/-- What an option has in the table. -/
inductive Value
  | yes
  | str (s : Word)
  deriving DecidableEq

abbrev Tab : Type := Word → Option Value

/-- A key and what is assigned to it. -/
abbrev Setting : Type := Word × Option Value

/-- `tab[key] = value` -/
def put (tab : Tab) (s : Setting) : Tab := Function.update tab s.1 s.2

/-- The letters of a cluster, with the word behind it. -/
def letters (options : Word) (next : Option Word) : Word → Tab → Tab
  | [], tab => tab
  | jopt :: v, tab =>
    if jopt ∈ options then
      if v ≠ [] then put tab ([jopt], some (.str v)) else put tab ([jopt], next.map .str)
    else letters options next v (put tab ([jopt], some .yes))

/-- `--c` and `--c=one`, without the dashes. -/
def long (v : Word) (tab : Tab) : Tab :=
  if (61 : UInt8) ∈ v then
    put tab (v.takeWhile (· ≠ 61), some (.str (v.drop ((v.takeWhile (· ≠ 61)).length + 1))))
  else put tab (v, some .yes)

/-- The loop of `getopt`. -/
def getoptLoop (options : Word) : List Word → Tab → Tab
  | [], tab => tab
  | v :: arg, tab =>
    getoptLoop options arg
      (if v.take 2 = [dash, dash] then long (v.drop 2) tab
      else if v.take 1 = [dash] then letters options arg.head? (v.drop 1) tab
      else tab)

/-- The table, and what `name` and `args` are then. -/
def getopt (arg : List Word) (options : Word) : Tab × Option Word × List Word :=
  (getoptLoop options arg.tail fun _ => none, arg.head?, arg.tail)

/-- The words of `args` that `strip` returns. -/
def strip (args : List Word) : List Word := args.filter fun v => v.take 1 ≠ [dash]

/-- Letters that take no value, and then one that may. -/
def Cluster (options xs : Word) (a : UInt8) : Prop := (xs ++ [a]).head? ≠ some dash ∧ ∀ x ∈ xs, x ∉ options

inductive Item (options : Word) : Type
  | plain (w : Word) (h : w.head? ≠ some dash)
  | flags (xs : Word) (a : UInt8) (h : Cluster options xs a) (ha : a ∉ options)
  | attached (xs : Word) (a : UInt8) (v : Word) (h : Cluster options xs a) (ha : a ∈ options) (hv : v ≠ [])
  | next (xs : Word) (a : UInt8) (w : Word) (h : Cluster options xs a) (ha : a ∈ options)
  | name (n : Word) (h : 61 ∉ n)
  | named (n v : Word) (h : 61 ∉ n)

variable {options : Word}

def Item.words : Item options → List Word
  | plain w _ => [w]
  | flags xs a _ _ => [dash :: (xs ++ [a])]
  | attached xs a v _ _ _ => [dash :: (xs ++ a :: v)]
  | next xs a w _ _ => [dash :: (xs ++ [a]), w]
  | name n _ => [dash :: dash :: n]
  | named n v _ => [dash :: dash :: (n ++ 61 :: v)]

def flag (x : UInt8) : Setting := ([x], some .yes)

def Item.settings : Item options → List Setting
  | plain _ _ => []
  | flags xs a _ _ => xs.map flag ++ [flag a]
  | attached xs a v _ _ _ => xs.map flag ++ [([a], some (.str v))]
  | next xs a w _ _ => xs.map flag ++ [([a], some (.str w))]
  | name n _ => [(n, some .yes)]
  | named n v _ => [(n, some (.str v))]

def Item.plains : Item options → List Word
  | plain w _ => [w]
  | _ => []

/-- The value that is a word of its own. -/
def Item.value? : Item options → Option Word
  | next _ _ w _ _ => some w
  | _ => none

def wordsOf (items : List (Item options)) : List Word := items.flatMap Item.words

def meant (items : List (Item options)) : Tab := (items.flatMap Item.settings).foldl put fun _ => none

/-- `getopt` returns what the options mean, and `strip` the plain words. -/
def Understood (name : Word) (items : List (Item options)) : Prop :=
  (getopt (name :: wordsOf items) options).1 = meant items ∧
    strip (getopt (name :: wordsOf items) options).2.2 = items.flatMap Item.plains

/-! ### What is assigned -/

/-- What `--c` and `--c=one` assign. -/
def longSetting (v : Word) : Setting :=
  if (61 : UInt8) ∈ v then (v.takeWhile (· ≠ 61), some (.str (v.drop ((v.takeWhile (· ≠ 61)).length + 1))))
  else (v, some .yes)

/-- What the letters of a cluster assign. -/
def letterSettings (options : Word) (next : Option Word) : Word → List Setting
  | [] => []
  | jopt :: v =>
    if jopt ∈ options then if v ≠ [] then [([jopt], some (.str v))] else [([jopt], next.map .str)]
    else flag jopt :: letterSettings options next v

def spelled (options v : Word) (next : Option Word) : List Setting :=
  if v.take 2 = [dash, dash] then [longSetting (v.drop 2)]
  else if v.take 1 = [dash] then letterSettings options next (v.drop 1)
  else []

/-- What the value of an argument assigns, as a word of its own. -/
def Item.spelled (it : Item options) (next : Option Word) : List Setting :=
  it.value?.elim [] fun w => Arg.spelled options w next

def made : List (Item options) → List Setting
  | [] => []
  | it :: items => it.settings ++ (it.spelled (wordsOf items).head? ++ made items)

variable {tab : Tab} {next : Option Word} {xs v w : Word} {a : UInt8} {key : Word} {items : List (Item options)}

theorem long_eq (v : Word) (tab : Tab) : long v tab = put tab (longSetting v) := by
  unfold long longSetting
  split_ifs <;> rfl

theorem letters_eq : ∀ (v : Word) (tab : Tab),
    letters options next v tab = (letterSettings options next v).foldl put tab
  | [], _ => rfl
  | jopt :: v, tab => by
    rw [letters, letterSettings]
    split_ifs
    · rfl
    · rfl
    · exact letters_eq v _

theorem getoptLoop_cons (v : Word) (arg : List Word) (tab : Tab) :
    getoptLoop options (v :: arg) tab = getoptLoop options arg ((spelled options v arg.head?).foldl put tab) := by
  rw [getoptLoop, spelled]
  split_ifs
  · rw [long_eq]
    rfl
  · rw [letters_eq]
  · rfl

theorem letterSettings_append : ∀ {xs : Word}, (∀ x ∈ xs, x ∉ options) → ∀ v,
    letterSettings options next (xs ++ v) = xs.map flag ++ letterSettings options next v
  | [], _, _ => rfl
  | x :: xs, h, v => by
    rw [cons_append, letterSettings, if_neg (h x mem_cons_self),
      letterSettings_append (fun y hy => h y (mem_cons_of_mem x hy))]
    rfl

theorem spelled_cluster (h : (v.head? ≠ some dash)) :
    spelled options (dash :: v) next = letterSettings options next v := by
  have hno : (dash :: v).take 2 ≠ [dash, dash] := by
    rcases v with _ | ⟨x, v⟩
    · exact fun h => absurd h (by decide)
    · intro heq
      exact h (congrArg some (head_eq_of_cons_eq (tail_eq_of_cons_eq heq)))
  rw [spelled, if_neg hno]
  exact if_pos rfl

theorem head_cluster (h : Cluster options xs a) (v : Word) : (xs ++ a :: v).head? ≠ some dash := by
  obtain ⟨hhead, -⟩ := h
  rcases xs with _ | ⟨x, xs⟩
  · exact hhead
  · exact hhead

theorem spelled_letters (h : Cluster options xs a) (v : Word) :
    spelled options (dash :: (xs ++ a :: v)) next = xs.map flag ++ letterSettings options next (a :: v) := by
  rw [spelled_cluster (head_cluster h v), letterSettings_append h.2]

theorem longSetting_name {n : Word} (h : 61 ∉ n) : longSetting n = (n, some .yes) := if_neg h

theorem longSetting_named {n : Word} (h : 61 ∉ n) (v : Word) : longSetting (n ++ 61 :: v) = (n, some (.str v)) := by
  have hne : ∀ x ∈ n, decide (x ≠ 61) = true := by
    intro x hx
    exact decide_eq_true fun heq => h (heq ▸ hx)
  have htake : (n ++ 61 :: v).takeWhile (· ≠ 61) = n := by
    rw [takeWhile_append_of_pos hne]
    exact append_nil n
  have hdrop : (n ++ 61 :: v).drop (n.length + 1) = v := by
    rw [drop_length_add_append]
    rfl
  rw [longSetting, if_pos (by simp), htake, hdrop]

theorem spelled_plain (h : w.head? ≠ some dash) : spelled options w next = [] := by
  rcases w with _ | ⟨x, w⟩
  · rfl
  · have hx : x ≠ dash := fun hx => h (congrArg some hx)
    have htwo : (x :: w).take 2 ≠ [dash, dash] := fun heq => hx (head_eq_of_cons_eq heq)
    have hone : (x :: w).take 1 ≠ [dash] := fun heq => hx (head_eq_of_cons_eq heq)
    rw [spelled, if_neg htwo, if_neg hone]

theorem spelled_long (n : Word) : spelled options (dash :: dash :: n) next = [longSetting n] := if_pos rfl

theorem getoptLoop_words : ∀ (items : List (Item options)) (tab : Tab),
    getoptLoop options (wordsOf items) tab = (made items).foldl put tab
  | [], _ => rfl
  | it :: items, tab => by
    have ih := getoptLoop_words items
    have hwords : wordsOf (it :: items) = it.words ++ wordsOf items := rfl
    rw [hwords, made, foldl_append, foldl_append, ← ih]
    cases it with
    | plain w h =>
      rw [Item.words, singleton_append, getoptLoop_cons, spelled_plain h]
      rfl
    | flags xs a h ha =>
      rw [Item.words, singleton_append, getoptLoop_cons, spelled_letters h, letterSettings, if_neg ha]
      rfl
    | attached xs a v h ha hv =>
      rw [Item.words, singleton_append, getoptLoop_cons, spelled_letters h, letterSettings, if_pos ha, if_pos hv]
      rfl
    | next xs a w h ha =>
      rw [Item.words, cons_append, singleton_append, getoptLoop_cons, spelled_letters h, letterSettings,
        if_pos ha, if_neg (not_not.2 rfl), getoptLoop_cons]
      rfl
    | name n h =>
      rw [Item.words, singleton_append, getoptLoop_cons, spelled_long, longSetting_name h]
      rfl
    | named n v h =>
      rw [Item.words, singleton_append, getoptLoop_cons, spelled_long, longSetting_named h]
      rfl

/-! ### The last assignment -/

/-- The last value that is assigned to a key. -/
def lastSet (key : Word) : List Setting → Option (Option Value)
  | [] => none
  | s :: l => (lastSet key l).or (if s.1 = key then some s.2 else none)

theorem lastSet_append (l' : List Setting) : ∀ l : List Setting,
    lastSet key (l ++ l') = (lastSet key l').or (lastSet key l)
  | [] => (Option.or_none).symm
  | s :: l => by
    rw [cons_append, lastSet, lastSet, lastSet_append l', Option.or_assoc]

theorem foldl_put (key : Word) : ∀ (l : List Setting) (tab : Tab),
    (l.foldl put tab) key = (lastSet key l).getD (tab key)
  | [], _ => rfl
  | s :: l, tab => by
    rw [foldl_cons, foldl_put key l, lastSet]
    rcases lastSet key l with _ | v
    · rw [Option.none_or, Option.getD_none, put, Function.update_apply]
      by_cases hs : s.1 = key
      · rw [if_pos hs.symm, if_pos hs, Option.getD_some]
      · rw [if_neg (Ne.symm hs), if_neg hs, Option.getD_none]
    · rfl

/-- What the values spell is assigned again, or is what the table has at `tab` and the options up to there. -/
def Harmless : Tab → List (Item options) → Prop
  | _, [] => True
  | tab, it :: items =>
    (∀ key v, lastSet key (it.spelled (wordsOf items).head?) = some v →
      lastSet key (made items) ≠ none ∨ (it.settings.foldl put tab) key = v) ∧
      Harmless (it.settings.foldl put tab) items

theorem made_eq_iff : ∀ (items : List (Item options)) (tab tab' : Tab),
    (made items).foldl put tab = (items.flatMap Item.settings).foldl put tab' ↔
      (∀ key, lastSet key (made items) = none → tab key = tab' key) ∧ Harmless tab' items
  | [], tab, tab' => ⟨fun h => ⟨fun key _ => congrFun h key, trivial⟩, fun h => funext fun key => h.1 key rfl⟩
  | it :: items, tab, tab' => by
    rw [made, foldl_append, foldl_append, flatMap_cons, foldl_append, made_eq_iff items, Harmless,
      ← and_assoc]
    refine and_congr_left fun _ => ⟨fun h => ⟨fun key hkey => ?_, fun key v hv => ?_⟩, fun h key hkey => ?_⟩
    · rw [lastSet_append, lastSet_append, Option.or_eq_none_iff, Option.or_eq_none_iff] at hkey
      obtain ⟨⟨hmade, hspelled⟩, hset⟩ := hkey
      have heq := h key hmade
      rw [foldl_put, hspelled, getD_none, foldl_put, foldl_put, hset] at heq
      exact heq
    · by_cases hmade : lastSet key (made items) = none
      · refine .inr ?_
        have heq := h key hmade
        rw [foldl_put, hv, getD_some] at heq
        exact heq.symm
      · exact .inl hmade
    obtain ⟨h1, h2⟩ := h
    rw [foldl_put]
    rcases hspelled : lastSet key (it.spelled (wordsOf items).head?) with _ | v
    · rw [getD_none, foldl_put, foldl_put]
      rcases hset : lastSet key it.settings with _ | u
      · refine h1 key ?_
        rw [lastSet_append, lastSet_append, hkey, hspelled, hset]
        rfl
      · rfl
    · rw [getD_some]
      exact ((h2 key v hspelled).resolve_left (not_not.2 hkey)).symm

def Dashed (items : List (Item options)) : Prop := ∀ it ∈ items, ∀ w ∈ it.value?, w.take 1 = [dash]

theorem take_one_ne (h : w.head? ≠ some dash) : w.take 1 ≠ [dash] := by
  rcases w with _ | ⟨x, w⟩
  · exact fun heq => absurd heq (by decide)
  · exact fun heq => h (congrArg some (head_eq_of_cons_eq heq))

theorem strip_plain (h : w.head? ≠ some dash) (ws : List Word) : strip (w :: ws) = w :: strip ws :=
  filter_cons_of_pos (decide_eq_true (take_one_ne h))

theorem strip_dash (v : Word) (ws : List Word) : strip ((dash :: v) :: ws) = strip ws :=
  filter_cons_of_neg fun h => of_decide_eq_true h rfl

theorem strip_words (it : Item options) (ws : List Word) :
    strip (it.words ++ ws) = it.plains ++ (strip it.value?.toList ++ strip ws) := by
  cases it with
  | plain w h => exact strip_plain h ws
  | flags xs a h ha => exact strip_dash _ ws
  | attached xs a v h ha hv => exact strip_dash _ ws
  | next xs a w h ha => exact (strip_dash _ _).trans (filter_append [w] ws)
  | name n h => exact strip_dash _ ws
  | named n v h => exact strip_dash _ ws

theorem strip_value (it : Item options) : strip it.value?.toList = [] ↔ ∀ w ∈ it.value?, w.take 1 = [dash] := by
  rw [strip, filter_eq_nil_iff]
  constructor
  · intro h w hw
    by_contra hne
    exact h w (mem_toList.2 hw) (decide_eq_true hne)
  · intro h w hw heq
    exact of_decide_eq_true heq (h w (mem_toList.1 hw))

theorem wordsOf_cons (it : Item options) (items : List (Item options)) :
    wordsOf (it :: items) = it.words ++ wordsOf items := rfl

theorem plains_length_le : ∀ items : List (Item options),
    (items.flatMap Item.plains).length ≤ (strip (wordsOf items)).length
  | [] => le_rfl
  | it :: items => by
    have ih := plains_length_le items
    rw [wordsOf_cons, strip_words, flatMap_cons, length_append, length_append, length_append]
    omega

theorem strip_eq_iff : ∀ items : List (Item options),
    strip (wordsOf items) = items.flatMap Item.plains ↔ Dashed items
  | [] => iff_of_true rfl fun it hit => absurd hit not_mem_nil
  | it :: items => by
    rw [wordsOf_cons, strip_words, flatMap_cons, append_cancel_left_eq, Dashed, forall_mem_cons,
      ← strip_value]
    constructor
    · intro h
      -- a value that is returned is one word more than there are plain words
      have hle := plains_length_le items
      have hlen := congrArg length h
      rw [length_append] at hlen
      have hnil : strip it.value?.toList = [] := eq_nil_of_length_eq_zero (by omega)
      rw [hnil, nil_append] at h
      exact ⟨hnil, (strip_eq_iff items).1 h⟩
    · rintro ⟨hnil, h⟩
      rw [hnil, nil_append]
      exact (strip_eq_iff items).2 h

/-- A value that is a word of its own must start with `-`, and what it spells must do no harm. -/
theorem understood_iff (options name : Word) (items : List (Item options)) :
    Understood name items ↔ Dashed items ∧ Harmless (fun _ => none) items := by
  have htab : (getopt (name :: wordsOf items) options).1 = (made items).foldl put fun _ => none :=
    getoptLoop_words items _
  have hargs : (getopt (name :: wordsOf items) options).2.2 = wordsOf items := rfl
  have hiff := made_eq_iff items (fun _ => none) fun _ => none
  rw [Understood, htab, hargs, meant, hiff, strip_eq_iff, and_comm]
  exact and_congr_right fun _ => and_iff_right fun _ _ => rfl

def keyfile : List (Item [102]) :=
  [.next [] 102 [107, 101, 121] ⟨by decide, fun x hx => absurd hx not_mem_nil⟩ (by decide),
    .plain [97, 100, 100, 114] (by decide)]

theorem not_understood : ¬ Understood [109] keyfile := by
  intro h
  exact absurd h.2 (by decide)

end Node9.Arg
