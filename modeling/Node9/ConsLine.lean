import Node9.ConsRaw

/-!
# Keyboard input (`devcons.c`)

`readkbd` puts what is typed into `kbdq`, a character at a time, and notifies the event loop. A notification that has
not been taken up takes in the later ones. For each that is taken up, `readline` reads one character from `kbdq` and
edits the line with it. `Discipline` is what the editing is meant to be.
-/

namespace Node9.Cons
open Buf List

namespace Discipline

def erase : UInt8 := 8
def kill : UInt8 := 0x15
def eot : UInt8 := 4
def newline : UInt8 := 10

/-- The line that is begun, and the lines that were sent. -/
structure Lines where
  line : Bytes
  sent : List Bytes

def Lines.send (l : Lines) (line : Bytes) : Lines := ⟨[], l.sent ++ [line]⟩

def Lines.type (l : Lines) (ch : UInt8) : Lines :=
  if ch = erase then { l with line := l.line.dropLast }
  else if ch = kill then { l with line := [] }
  else if ch = eot then l.send l.line
  else if ch = newline ∨ l.line.length + 1 = 1024 then l.send (l.line ++ [ch])
  else { l with line := l.line ++ [ch] }

def typed (chs : Bytes) : Lines := chs.foldl Lines.type ⟨[], []⟩

end Discipline

namespace Kbd

/-- What `readline` does with a character: `lsend`, and the line. A NUL flushes the output when raw mode is turned
on. -/
def edit (ch : UInt8) (k : Kbd) : Bool × Kbd :=
  if ch = 0 then (if 0 < k.line.length then k.kbdq.isEmpty else false, k)
  else if k.raw then (k.kbdq.isEmpty, { k with line := k.line ++ [ch] })
  else if ch = 8 then (false, { k with line := k.line.dropLast })
  else if ch = 0x15 then (false, { k with line := [] })
  else if ch = 4 then (true, k)
  else (ch == 10, { k with line := k.line ++ [ch] })

end Kbd

/-- Where the event loop is: not in `readline`, at its `qread`, or at its `qwrite`. -/
inductive Call
  | idle
  | qread
  | qwrite
deriving DecidableEq

namespace Line

/-- `lineq` lists all blocks that `readline` has written, `typed` the characters as `readkbd` delivers them. -/
structure St where
  kbd : Kbd
  /-- a notification has been sent and not taken up -/
  pending : Bool
  call : Call
  lineq : List Bytes
  typed : Bytes

inductive Act
  | readkbd (ch : UInt8)
  | notify
  | qread
  | qwrite

/-- `'\r'` and `DELETE` are replaced. -/
def received (ch : UInt8) : UInt8 := if ch = 13 then 10 else if ch = 0x7f then 8 else ch

/-- With 512 bytes `kbdq` takes no more. -/
def qproduce (ch : UInt8) (k : Kbd) : Kbd :=
  if 512 ≤ k.kbdq.length then k else { k with kbdq := k.kbdq ++ [ch] }

def readkbd (ch : UInt8) (s : St) : St :=
  { s with kbd := qproduce (received ch) s.kbd, pending := true, typed := s.typed ++ [received ch] }

/-- `readline` up to its `qwrite`, or to its end. -/
def readline (ch : UInt8) (rest : Bytes) (s : St) : St :=
  let r := { s.kbd with kbdq := rest }.edit ch
  if r.1 ∨ r.2.line.length = 1024 then { s with kbd := r.2, call := .qwrite, lineq := s.lineq ++ [r.2.line] }
  else { s with kbd := r.2, call := .idle }

def step (s : St) : Act → Option St
  | .readkbd ch => some (readkbd ch s)
  | .notify => if s.pending ∧ s.call = .idle then some { s with pending := false, call := .qread } else none
  | .qread =>
    if s.call = .qread then
      match s.kbd.kbdq with
      | [] => none
      | ch :: rest => some (readline ch rest s)
    else none
  | .qwrite => if s.call = .qwrite then some { s with kbd := { s.kbd with line := [] }, call := .idle } else none

def St.init : St := ⟨⟨false, 0, [], []⟩, false, .idle, [], []⟩

/-- Nothing that was typed waits for a later key. -/
def Prompt (s : St) : Prop := s.pending = false → s.call = .idle → s.kbd.kbdq = []

/-- The lines are those of the characters that have been read. -/
def Disciplined (s : St) : Prop :=
  ∃ chs, s.typed = chs ++ s.kbd.kbdq ∧ s.lineq = (Discipline.typed chs).sent

/-- There is room for what is typed. -/
def Act.Fits (s : St) : Act → Prop
  | .readkbd _ => s.kbd.kbdq.length < 512
  | _ => True

/-- The notification is not taken in by an earlier one, and the character is none of the console's own. -/
def Act.Apart (s : St) : Act → Prop
  | .readkbd ch => s.pending = false ∧ ch ≠ 0
  | _ => True

end Line

variable {k : Kbd} {ch : UInt8} {l : Discipline.Lines} {rest chs : Bytes}

/-- In cooked mode a character does to the line what the discipline says, and a line that is sent goes to `qwrite`. -/
theorem edit_spec (hraw : k.raw = false) (hch : ch ≠ 0) (hlen : k.line.length < 1024) (hl : l.line = k.line) :
    ∃ line, (k.edit ch).2 = { k with line := line } ∧
      if (k.edit ch).1 ∨ line.length = 1024 then l.type ch = l.send line
      else l.type ch = { l with line := line } ∧ line.length < 1024 := by
  have hcooked : ¬ k.raw = true := hraw ▸ Bool.false_ne_true
  rw [Kbd.edit, if_neg hch, if_neg hcooked, Discipline.Lines.type, hl, Discipline.erase,
    Discipline.kill, Discipline.eot]
  by_cases herase : ch = 8
  · have hdrop : k.line.dropLast.length = k.line.length - 1 := length_dropLast
    have hnot : ¬ (false = true ∨ k.line.dropLast.length = 1024) := by
      rintro (h | h)
      · exact Bool.false_ne_true h
      · omega
    rw [if_pos herase, if_pos herase]
    refine ⟨_, rfl, ?_⟩
    rw [if_neg hnot]
    exact ⟨rfl, by omega⟩
  rw [if_neg herase, if_neg herase]
  by_cases hkill : ch = 0x15
  · rw [if_pos hkill, if_pos hkill]
    exact ⟨[], rfl, rfl, by decide⟩
  rw [if_neg hkill, if_neg hkill]
  by_cases heot : ch = 4
  · rw [if_pos heot, if_pos heot]
    refine ⟨k.line, rfl, ?_⟩
    rw [if_pos (Or.inl rfl)]
  rw [if_neg heot, if_neg heot]
  refine ⟨k.line ++ [ch], rfl, ?_⟩
  have hcond : ((ch == 10) = true ∨ (k.line ++ [ch]).length = 1024) ↔ (ch = Discipline.newline ∨
    k.line.length + 1 = 1024) := by
    rw [length_append, length_singleton, beq_iff_eq]
    exact Iff.rfl
  by_cases hsend : ch = Discipline.newline ∨ k.line.length + 1 = 1024
  · rw [if_pos hsend, if_pos (hcond.2 hsend)]
  · rw [if_neg hsend, if_neg (mt hcond.1 hsend), length_append, length_singleton]
    exact ⟨rfl, by omega⟩

namespace Line

theorem received_ne_zero (h : ch ≠ 0) : received ch ≠ 0 := by
  rw [received]
  split
  · decide
  · split
    · decide
    · exact h

/-- Each character in `kbdq` has a call of `readline` of its own. -/
structure Inv (s : St) : Prop where
  raw : s.kbd.raw = false
  nul : 0 ∉ s.kbd.kbdq
  waits : s.kbd.kbdq.length = (if s.pending then 1 else 0) + (if s.call = .qread then 1 else 0)
  short : s.call ≠ .qwrite → s.kbd.line.length < 1024
  lines : ∃ chs, s.typed = chs ++ s.kbd.kbdq ∧
    Discipline.typed chs = ⟨if s.call = .qwrite then [] else s.kbd.line, s.lineq⟩

theorem Inv.prompt {s : St} (h : Inv s) : Prompt s := by
  intro hpending hcall
  have hwaits := h.waits
  rw [hpending, hcall] at hwaits
  exact length_eq_zero_iff.1 hwaits

theorem Inv.disciplined {s : St} (h : Inv s) : Disciplined s := by
  obtain ⟨chs, htyped, hlines⟩ := h.lines
  exact ⟨chs, htyped, by rw [hlines]⟩

theorem readkbd_inv {s : St} (h : Inv s) (hpending : s.pending = false) (hch : ch ≠ 0) : Inv (readkbd ch s) := by
  have hwaits := h.waits
  rw [hpending, if_neg Bool.false_ne_true] at hwaits
  have hroom : ¬ 512 ≤ s.kbd.kbdq.length := by
    rw [hwaits]
    split <;> decide
  rw [readkbd, qproduce, if_neg hroom]
  refine ⟨h.raw, fun hmem => ?_, ?_, h.short, ?_⟩
  · rcases mem_append.1 hmem with hmem | hmem
    · exact h.nul hmem
    · exact received_ne_zero hch (mem_singleton.1 hmem).symm
  · show (s.kbd.kbdq ++ [received ch]).length = 1 + if s.call = .qread then 1 else 0
    rw [length_append, hwaits, length_singleton]
    omega
  · obtain ⟨chs, htyped, hlines⟩ := h.lines
    exact ⟨chs, by rw [htyped, append_assoc], hlines⟩

theorem readline_inv {s : St} (h : Inv s) (hcall : s.call = .qread) (hkbdq : s.kbd.kbdq = ch :: rest) :
    Inv (readline ch rest s) := by
  have hnul := h.nul
  rw [hkbdq] at hnul
  have hshort := h.short (by rw [hcall]; decide)
  have hwaits := h.waits
  rw [hkbdq, hcall, if_pos rfl, length_cons] at hwaits
  obtain ⟨chs, htyped, hlines⟩ := h.lines
  rw [if_neg (by rw [hcall]; decide)] at hlines
  have hline : (Discipline.typed chs).line = { s.kbd with kbdq := rest }.line := by rw [hlines]
  have htyped' : s.typed = (chs ++ [ch]) ++ rest := by
    rw [htyped, hkbdq, append_assoc, singleton_append]
  have hconcat : Discipline.typed (chs ++ [ch]) = (Discipline.typed chs).type ch := by
    rw [Discipline.typed, foldl_append]
    rfl
  obtain ⟨line, hedit, hspec⟩ := edit_spec (k := { s.kbd with kbdq := rest }) h.raw
    (fun h0 => hnul (h0 ▸ mem_cons_self)) hshort hline
  have hlength : rest.length = (if s.pending = true then 1 else 0) + 0 := by omega
  rw [readline]
  simp only [hedit]
  split at hspec
  next hsend =>
    rw [if_pos hsend]
    refine ⟨h.raw, fun hmem => hnul (mem_cons_of_mem ch hmem), hlength, fun hne => absurd rfl hne, chs ++ [ch],
      htyped', ?_⟩
    rw [hconcat, hspec, hlines]
    rfl
  next hkeep =>
    rw [if_neg hkeep]
    refine ⟨h.raw, fun hmem => hnul (mem_cons_of_mem ch hmem), hlength, fun _ => hspec.2, chs ++ [ch], htyped', ?_⟩
    rw [hconcat, hspec.1, hlines]
    rfl

theorem step_inv {s s' : St} {a : Act} (h : Inv s) (hG : a.Apart s) (hs : step s a = some s') : Inv s' := by
  cases a with
  | readkbd ch =>
    cases hs
    exact readkbd_inv h hG.1 hG.2
  | notify =>
    rw [step] at hs
    split at hs <;> cases hs
    rename_i hguard
    have hwaits := h.waits
    have hshort := h.short
    have hlines := h.lines
    rw [hguard.2] at hshort hlines
    rw [hguard.1, hguard.2] at hwaits
    exact ⟨h.raw, h.nul, hwaits, fun _ => hshort (by decide), hlines⟩
  | qread =>
    rw [step] at hs
    split at hs
    next hcall =>
      split at hs <;> cases hs
      next hkbdq => exact readline_inv h hcall hkbdq
    next => cases hs
  | qwrite =>
    rw [step] at hs
    split at hs <;> cases hs
    rename_i hcall
    have hwaits := h.waits
    have hlines := h.lines
    rw [hcall] at hwaits hlines
    exact ⟨h.raw, h.nul, hwaits, fun _ => by show 0 < 1024; decide, hlines⟩

/-- Everything that is typed is processed at once, and as the discipline says, in every run in which no notification is
taken in by an earlier one and no NUL is typed. -/
theorem always_prompt (acts : List Act) (hG : Steps.Along step (fun s a => a.Apart s) St.init acts) :
    Steps.Always step (fun s => Prompt s ∧ Disciplined s) St.init acts :=
  (hG.always (I := Inv) (fun _ _ _ hI hG hs => step_inv hI hG hs)
    ⟨rfl, List.not_mem_nil, rfl, fun _ => by decide, [], rfl, rfl⟩).mono fun _ h => ⟨h.prompt, h.disciplined⟩

theorem always_prompt_two : Steps.Always step (fun s => Prompt s ∧ Disciplined s) St.init
    [.readkbd 97, .notify, .readkbd 13, .qread, .notify, .qread, .qwrite] := by
  refine always_prompt _ fun s₁ h₁ => ?_
  cases h₁
  refine ⟨⟨rfl, by decide⟩, fun s₂ h₂ => ⟨trivial, fun s₃ h₃ => ?_⟩⟩
  cases h₂
  cases h₃
  refine ⟨⟨rfl, by decide⟩, fun s₄ h₄ => ⟨trivial, fun s₅ h₅ => ⟨trivial, fun s₆ h₆ => ⟨trivial, fun s₇ h₇ => ?_⟩⟩⟩⟩
  exact ⟨trivial, trivial⟩

/-- Of two characters with one notification, the second waits. -/
theorem not_prompt : ¬ ∀ acts : List Act, Steps.Along step (fun s a => a.Fits s) St.init acts →
    Steps.Always step (fun s => Prompt s ∧ Disciplined s) St.init acts := by
  intro h
  have hfits : Steps.Along step (fun s a => a.Fits s) St.init [.readkbd 97, .readkbd 98, .notify, .qread] := by
    intro s₁ h₁
    cases h₁
    refine ⟨by show 0 < 512; decide, fun s₂ h₂ => ?_⟩
    cases h₂
    exact ⟨by show 1 < 512; decide, fun _ _ => ⟨trivial, fun _ _ => ⟨trivial, trivial⟩⟩⟩
  have hprompt := ((h _ hfits).last rfl).1 rfl rfl
  cases hprompt

end Line
end Node9.Cons
