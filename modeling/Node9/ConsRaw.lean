import Node9.Lib.Buf
import Node9.Lib.Path
import Node9.Lib.Steps

/-!
# Raw mode of the console (`devcons.c`)

`consctl` is opened, written and closed by any number of processes. What is written are words, and `rawon` and `rawoff`
set the mode. The last close sets it back. `opened` keeps account of the channels that are open, `written` of the words
since the file was last closed by everyone.
-/

namespace Node9.Cons
open Buf List Option

abbrev Text := List Char

/-- `kbd`, and what is in `kbdq`. -/
structure Kbd where
  raw : Bool
  /-- the count of `ctl` -/
  ctl : Int
  /-- `line` up to `x` -/
  line : Bytes
  kbdq : Bytes

def rawon : Text := ['r', 'a', 'w', 'o', 'n']

def rawoff : Text := ['r', 'a', 'w', 'o', 'f', 'f']

/-- `strncmp(a, w, n) == 0`, where `n` is the length of `w`. -/
def begins (w a : Text) : Bool := w.isPrefixOf a

/-- `strchr(a, ' ')`, and one character on. -/
def next (a : Text) : Option Text := (a.dropWhile (· ≠ ' ')).tail?

namespace Kbd

/-- The loop of `conswrite`, from `a` on. `fails` says which `qwrite` is interrupted while it waits for room, after the
character has been queued. -/
def conswriteLoop (buf : Text) : Nat → Option Nat → Text → Kbd → Kbd
  | 0, _, _, k => k
  | n + 1, fails, a, k =>
    if begins rawon a then
      let k := { k with raw := true, kbdq := k.kbdq ++ [0] }
      if fails = some 0 then k else (next a).elim k fun a => conswriteLoop buf n (fails.map (· - 1)) a k
    else
      -- not `a` but the whole buffer is compared
      let k := if begins rawoff buf then { k with raw := false } else k
      (next a).elim k fun a => conswriteLoop buf n fails a k

/-- `conswrite` of `Qconsctl`. The copy ends at a NUL. -/
def conswrite (text : Text) (fails : Option Nat) (k : Kbd) : Kbd :=
  let buf := (text.take 127).takeWhile (· ≠ '\x00')
  conswriteLoop buf (buf.length + 1) fails buf k

/-- `consopen` of `Qconsctl` -/
def consopen (k : Kbd) : Kbd := { k with ctl := k.ctl + 1 }

/-- `consclose` of `Qconsctl` -/
def consclose (k : Kbd) : Kbd :=
  let k := { k with ctl := k.ctl - 1 }
  if k.ctl = 0 then { k with raw := false } else k

end Kbd

def words (text : Text) : List Text := text.splitOn ' '

namespace Raw

structure St where
  kbd : Kbd
  opened : List Nat
  written : List Text

inductive Act
  | consopen (c : Nat)
  | conswrite (c : Nat) (text : Text) (fails : Option Nat)
  | consclose (c : Nat)

def step (s : St) : Act → Option St
  | .consopen c => if c ∈ s.opened then none else some { s with kbd := s.kbd.consopen, opened := c :: s.opened }
  | .conswrite c text fails =>
    if c ∈ s.opened then
      some { s with kbd := s.kbd.conswrite text fails, written := s.written ++ words text }
    else none
  | .consclose c =>
    if c ∈ s.opened then
      let opened := s.opened.erase c
      some ⟨s.kbd.consclose, opened, if opened = [] then [] else s.written⟩
    else none

def St.init : St := ⟨⟨false, 0, [], []⟩, [], []⟩

/-- Raw mode is on if and only if the last of the words that set it is `rawon`. -/
def Right (s : St) : Prop :=
  s.kbd.raw = true ↔ ∃ pre post, s.written = pre ++ rawon :: post ∧ rawon ∉ post ∧ rawoff ∉ post

/-- A text that is shorter than the buffer. -/
def Act.Short : Act → Prop
  | .conswrite _ text _ => text.length < 128 ∧ '\x00' ∉ text
  | _ => True

/-- The mode that the words ask for. -/
def asked (m : Bool) (ws : List Text) : Bool :=
  ws.foldl (fun m w => if w = rawon then true else if w = rawoff then false else m) m

def looked : Option Nat → List Text → List Text
  | _, [] => []
  | fails, w :: ws =>
    w :: if begins rawon w then if fails = some 0 then [] else looked (fails.map (· - 1)) ws else looked fails ws

/-- When the words get what they ask for. If the first one begins with `rawoff`, the last that is looked at decides.
Otherwise raw mode goes on with any that begins with `rawon`, and is never turned off. -/
def Obeyed (m : Bool) (fails : Option Nat) (ws : List Text) : Prop :=
  asked m ws =
    if ws.head?.any (begins rawoff) then (looked fails ws).getLast?.any (begins rawon)
    else m || (looked fails ws).any (begins rawon)

def Act.Obeyed (s : St) : Act → Prop
  | .conswrite _ text fails => Raw.Obeyed s.kbd.raw fails (words text)
  | _ => True

end Raw

/-! ### The words of a text -/

variable {w a e t buf : Text} {ws : List Text} {k : Kbd} {m off : Bool} {fails : Option Nat} {n : Nat}

theorem begins_iff : begins w a = true ↔ w <+: a := isPrefixOf_iff_prefix

theorem begins_append (hw : ' ' ∉ w) (ht : t = [] ∨ t.head? = some ' ') : begins w (e ++ t) = begins w e := by
  rw [Bool.eq_iff_iff, begins_iff, begins_iff]
  constructor
  · intro h
    rcases ht with rfl | ht
    · rwa [append_nil] at h
    obtain ⟨t, rfl⟩ := List.head?_eq_some_iff.1 ht
    rcases lt_or_ge e.length w.length with hlt | hle
    · have hpre : e ++ [' '] <+: e ++ ' ' :: t := ⟨t, by rw [append_assoc, singleton_append]⟩
      have hin : e ++ [' '] <+: w := prefix_of_prefix_length_le hpre h
        (by rw [length_append, length_singleton]; omega)
      exact absurd (hin.subset (mem_append_right e (mem_singleton_self ' '))) hw
    · exact prefix_of_prefix_length_le h (prefix_append e _) hle
  · exact fun h => h.trans (prefix_append e t)

theorem next_nil (he : ' ' ∉ e) : next e = none := by
  rw [next, dropWhile_eq_nil_iff.2, List.tail?_nil]
  exact fun c hc => decide_eq_true fun heq => he (heq ▸ hc)

theorem next_append (he : ' ' ∉ e) : next (e ++ ' ' :: t) = some t := by
  have hall : ∀ c ∈ e, decide (c ≠ ' ') = true := fun c hc => decide_eq_true fun heq => he (heq ▸ hc)
  rw [next, dropWhile_append_of_pos hall]
  rfl

/-! ### What a write does -/

/-- What a word does, if the buffer begins with `rawoff` or not. -/
def read (off : Bool) (m : Bool) (w : Text) : Bool := if begins rawon w then true else if off then false else m

theorem words_last (he : ' ' ∉ e) : words e = [e] := splitOn_eq_singleton he

theorem words_cons (he : ' ' ∉ e) : words (e ++ ' ' :: t) = e :: words t := by
  rw [words, splitOn_append_cons_self, splitOn_eq_singleton he]
  rfl

theorem conswriteLoop_raw (hn : a.length < n) :
    (Kbd.conswriteLoop buf n fails a k).raw = (Raw.looked fails (words a)).foldl (read (begins rawoff buf)) k.raw := by
  induction n generalizing a fails k with
  | zero => omega
  | succ n ih =>
    obtain ⟨e, t, rfl, he, ht⟩ := @Lexical.exists_first Char _ ' ' a
    have hon : begins rawon (e ++ t) = begins rawon e := begins_append (by decide) ht
    rw [Kbd.conswriteLoop, hon]
    rcases ht with rfl | ht
    · rw [append_nil, next_nil he, words_last he, Raw.looked]
      by_cases h : begins rawon e = true
      · have hread : read (begins rawoff buf) k.raw e = true := if_pos h
        simp only [if_pos h, elim_none, ite_self, Raw.looked, foldl_cons, foldl_nil, hread]
      · have hread : read (begins rawoff buf) k.raw e = if begins rawoff buf then false else k.raw := if_neg h
        simp only [if_neg h, elim_none, Raw.looked, foldl_cons, foldl_nil, hread]
        split <;> rfl
    obtain ⟨t, rfl⟩ := List.head?_eq_some_iff.1 ht
    have hlen : t.length < n := by
      rw [length_append, length_cons] at hn
      omega
    rw [next_append he, words_cons he, Raw.looked, foldl_cons]
    simp only [elim_some]
    by_cases h : begins rawon e = true
    · have hread : read (begins rawoff buf) k.raw e = true := if_pos h
      rw [if_pos h, if_pos h, hread]
      by_cases hfail : fails = some 0
      · rw [if_pos hfail, if_pos hfail]
        rfl
      · rw [if_neg hfail, if_neg hfail]
        exact ih hlen
    · have hread : read (begins rawoff buf) k.raw e = if begins rawoff buf then false else k.raw := if_neg h
      rw [if_neg h, if_neg h, hread, ih hlen]
      split <;> rfl

theorem foldl_read_on : ws.foldl (read false) m = (m || ws.any (begins rawon)) := by
  induction ws generalizing m with
  | nil => rw [foldl_nil, any_nil, Bool.or_false]
  | cons w ws ih =>
    have hread : read false m w = (m || begins rawon w) := by
      rw [read]
      cases begins rawon w
      · exact (Bool.or_false m).symm
      · exact (Bool.or_true m).symm
    rw [foldl_cons, ih, any_cons, hread, Bool.or_assoc]

theorem foldl_read_off (hws : ws ≠ []) : ws.foldl (read true) m = ws.getLast?.any (begins rawon) := by
  obtain ⟨ws, w, rfl⟩ := (eq_nil_or_concat' ws).resolve_left hws
  rw [foldl_append, List.getLast?_concat, foldl_cons, foldl_nil, any_some, read]
  cases begins rawon w <;> rfl

namespace Raw

theorem looked_ne_nil (hws : ws ≠ []) : looked fails ws ≠ [] := by
  cases ws with
  | nil => exact absurd rfl hws
  | cons w ws => exact cons_ne_nil _ _

theorem conswrite_raw (ht : t.length < 128) (hz : '\x00' ∉ t) : (k.conswrite t fails).raw =
    if (words t).head?.any (begins rawoff) then (looked fails (words t)).getLast?.any (begins rawon)
    else k.raw || (looked fails (words t)).any (begins rawon) := by
  have hbuf : (t.take 127).takeWhile (· ≠ '\x00') = t := by
    rw [take_of_length_le (by omega), takeWhile_eq_self_iff]
    exact fun c hc => decide_eq_true fun heq => hz (heq ▸ hc)
  have hoff : begins rawoff t = (words t).head?.any (begins rawoff) := by
    obtain ⟨e, u, rfl, he, hu⟩ := @Lexical.exists_first Char _ ' ' t
    obtain ⟨ws, hwords⟩ := Lexical.splitOn_append he hu
    rw [words, hwords, begins_append (by decide) hu]
    rfl
  rw [Kbd.conswrite, hbuf, conswriteLoop_raw (Nat.lt_succ_self _), ← hoff]
  cases begins rawoff t
  · exact foldl_read_on
  · exact foldl_read_off (looked_ne_nil (splitOn_ne_nil ' ' t))

theorem conswriteLoop_ctl : (Kbd.conswriteLoop buf n fails a k).ctl = k.ctl := by
  induction n generalizing a fails k with
  | zero => rfl
  | succ n ih =>
    rw [Kbd.conswriteLoop]
    cases next a with
    | none =>
      simp only [elim_none, ite_self]
      split
      · rfl
      · split <;> rfl
    | some a =>
      simp only [elim_some]
      split
      · split
        · rfl
        · exact ih
      · refine ih.trans ?_
        split <;> rfl

theorem asked_append (ws' : List Text) : asked m (ws ++ ws') = asked (asked m ws) ws' := foldl_append

theorem asked_iff : asked false ws = true ↔ ∃ pre post, ws = pre ++ rawon :: post ∧ rawon ∉ post ∧ rawoff ∉ post := by
  induction ws using List.reverseRecOn with
  | nil =>
    refine iff_of_false Bool.false_ne_true ?_
    rintro ⟨pre, post, h, -⟩
    exact append_ne_nil_of_right_ne_nil pre (cons_ne_nil _ _) h.symm
  | append_singleton ws w ih =>
    have hlast : asked false (ws ++ [w]) = if w = rawon then true else if w = rawoff then false else asked false ws :=
      asked_append [w]
    rw [hlast]
    by_cases hon : w = rawon
    · rw [if_pos hon, hon]
      exact iff_of_true rfl ⟨ws, [], rfl, not_mem_nil, not_mem_nil⟩
    rw [if_neg hon]
    have hconcat : ∀ pre post, ws ++ [w] = pre ++ rawon :: post → ∃ rest, post = rest ++ [w] ∧
      ws = pre ++ rawon :: rest := by
      intro pre post h
      rcases eq_nil_or_concat' post with rfl | ⟨rest, v, rfl⟩
      · exact absurd (append_singleton_inj.1 h).2 hon
      · rw [← cons_append, ← append_assoc, append_singleton_inj] at h
        exact ⟨rest, by rw [h.2], h.1⟩
    by_cases hoff : w = rawoff
    · rw [if_pos hoff]
      refine iff_of_false Bool.false_ne_true ?_
      rintro ⟨pre, post, h, -, hnot⟩
      obtain ⟨rest, rfl, -⟩ := hconcat pre post h
      exact hnot (hoff ▸ mem_append_right rest (mem_singleton_self w))
    rw [if_neg hoff, ih]
    constructor
    · rintro ⟨pre, post, rfl, h₁, h₂⟩
      refine ⟨pre, post ++ [w], by rw [append_assoc, cons_append], ?_, ?_⟩
      · exact fun h => (mem_append.1 h).elim h₁ fun h => hon (mem_singleton.1 h).symm
      · exact fun h => (mem_append.1 h).elim h₂ fun h => hoff (mem_singleton.1 h).symm
    · rintro ⟨pre, post, h, h₁, h₂⟩
      obtain ⟨rest, rfl, hws⟩ := hconcat pre post h
      exact ⟨pre, rest, hws, fun h => h₁ (mem_append_left _ h), fun h => h₂ (mem_append_left _ h)⟩

structure Inv (s : St) : Prop where
  ctl : s.kbd.ctl = s.opened.length
  raw : s.kbd.raw = asked false s.written

theorem Inv.right {s : St} (h : Inv s) : Right s := by
  rw [Right, h.raw]
  exact asked_iff

theorem conswrite_right {s : St} (h : Inv s) (ht : t.length < 128) (hz : '\x00' ∉ t) :
    (s.kbd.conswrite t fails).raw = asked false (s.written ++ words t) ↔ Obeyed s.kbd.raw fails (words t) := by
  rw [asked_append, ← h.raw, conswrite_raw ht hz]
  exact eq_comm

theorem step_inv {s s' : St} {a : Act} (h : Inv s) (hG : a.Short ∧ a.Obeyed s) (hs : step s a = some s') : Inv s' := by
  cases a with
  | consopen c =>
    rw [step] at hs
    split at hs <;> cases hs
    exact ⟨by rw [length_cons, Nat.cast_succ, ← h.ctl]; rfl, h.raw⟩
  | conswrite c text fails =>
    rw [step] at hs
    split at hs <;> cases hs
    exact ⟨conswriteLoop_ctl.trans h.ctl, (conswrite_right h hG.1.1 hG.1.2).2 hG.2⟩
  | consclose c =>
    rw [step] at hs
    split at hs <;> cases hs
    rename_i hc
    have hpos : 0 < s.opened.length := length_pos_of_mem hc
    have hctl : s.kbd.ctl - 1 = ((s.opened.erase c).length : Int) := by
      rw [h.ctl, length_erase_of_mem hc]
      omega
    have hzero : s.kbd.ctl - 1 = 0 ↔ s.opened.erase c = [] := by
      rw [hctl, Int.natCast_eq_zero, length_eq_zero_iff]
    rw [Kbd.consclose]
    by_cases hnil : s.opened.erase c = []
    · simp only [if_pos (hzero.2 hnil), if_pos hnil]
      exact ⟨hctl, rfl⟩
    · simp only [if_neg (mt hzero.1 hnil), if_neg hnil]
      exact ⟨hctl, h.raw⟩

/-- The mode is right in every run in which the words of each write get what they ask for. -/
theorem always_right (acts : List Act) (hG : Steps.Along step (fun s a => a.Short ∧ a.Obeyed s) St.init acts) :
    Steps.Always step Right St.init acts :=
  (hG.always (I := Inv) (fun _ _ _ hI hG hs => step_inv hI hG hs) ⟨rfl, rfl⟩).mono fun _ h => h.right

theorem always_right_words : Steps.Always step Right St.init
    [.consopen 0, .conswrite 0 (rawoff ++ ' ' :: rawon) none, .consclose 0] := by
  refine always_right _ fun s₁ h₁ => ?_
  cases h₁
  refine ⟨⟨trivial, trivial⟩, fun s₂ h₂ => ?_⟩
  cases h₂
  refine ⟨⟨⟨by decide, by decide⟩, ?_⟩, fun s₃ h₃ => ?_⟩
  · have hwords : words (rawoff ++ ' ' :: rawon) = [rawoff, rawon] := rfl
    rw [Act.Obeyed, hwords, Obeyed]
    decide
  cases h₃
  exact ⟨⟨trivial, trivial⟩, trivial⟩

/-- `rawoff` is passed over where it is not the first word. -/
theorem not_right : ¬ ∀ acts : List Act, (∀ a ∈ acts, a.Short) → Steps.Always step Right St.init acts := by
  intro h
  have hshort : (rawon ++ ' ' :: rawoff).length < 128 ∧ '\x00' ∉ rawon ++ ' ' :: rawoff := by decide
  have hright := (h [.consopen 0, .conswrite 0 (rawon ++ ' ' :: rawoff) none]
    (by simpa [Act.Short] using hshort)).last rfl
  obtain ⟨pre, post, hwritten, hon, hoff⟩ := hright.1 (by decide)
  have hasked := asked_iff.2 ⟨pre, post, hwritten, hon, hoff⟩
  have hwords : words (rawon ++ ' ' :: rawoff) = [rawon, rawoff] := rfl
  rw [hwords] at hasked
  exact absurd hasked (by decide)

end Raw
end Node9.Cons
