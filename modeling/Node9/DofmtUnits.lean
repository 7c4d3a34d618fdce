import Node9.Dofmt

/-!
# What a format prints

Whatever `dofmt` does with the buffer is to put one character after the other in it (`emit`): a format is a list of
characters of its own and conversions (`parse`), and each conversion has its characters (`verbUnits`), which do not
depend on the buffer. `Printer` says what is enough to be known of the buffer.
-/

namespace Node9.Dofmt
open Buf Rune Fmt Utf8
open List hiding tails

namespace Res

@[simp] theorem done_andThen (o : Out) (k : Out → Res) : (done o).andThen k = k o := rfl

@[simp] theorem fail_andThen (o : Out) (k : Out → Res) : (fail o).andThen k = fail o := rfl

@[simp] theorem stray_andThen (k : Out → Res) : stray.andThen k = stray := rfl

theorem andThen_assoc (x : Res) (f g : Out → Res) : (x.andThen f).andThen g = x.andThen fun o => (f o).andThen g := by
  cases x <;> rfl

end Res

def Character (u : Bytes) : Prop := u.length = 1 ∨ ∃ c, Scalar c ∧ u = encode c

theorem Character.pos {u : Bytes} (h : Character u) : 0 < u.length := by
  rcases h with h | ⟨c, -, rfl⟩
  · omega
  · rw [encode_length]
    exact Nat.succ_pos _

theorem Character.le {u : Bytes} (h : Character u) : u.length ≤ 4 := by
  rcases h with h | ⟨c, -, rfl⟩
  · omega
  · rw [encode_length]
    exact Nat.succ_le_succ extra_le

theorem character_byte (b : UInt8) : Character [b] := .inl rfl

theorem runelen_eq {r : Nat} (h : r < 2 ^ 32) : runelen r = (runeBytes r).length := by
  have hmod : ((r : Int) % 2 ^ 32).toNat = r := by omega
  unfold runelen runeBytes
  rw [hmod]
  split_ifs with hr
  · have hone : r ≤ Rune1 := Nat.le_of_lt_succ hr
    rw [runetochar, if_pos hone]
    rfl
  · rw [runetochar_eq]

theorem character_rune (r : Nat) : Character (runeBytes r) := by
  unfold runeBytes
  split_ifs with hr
  · exact character_byte _
  · rw [runetochar_eq]
    refine .inr ⟨_, ?_, rfl⟩
    split_ifs with hs
    · exact hs
    · decide

/-- A character is put in the buffer. -/
def emit (u : Bytes) (o : Out) : Res :=
  (if o.text.length + u.length > o.stop then fmtflush o u.length else .done o).andThen fun o => put o u

def emits : List Bytes → Out → Res
  | [], o => .done o
  | u :: us, o => (emit u o).andThen (emits us)

theorem emits_append (us vs : List Bytes) (o : Out) : emits (us ++ vs) o = (emits us o).andThen (emits vs) := by
  induction us generalizing o with
  | nil => rfl
  | cons u us ih =>
    rw [cons_append, emits, emits, Res.andThen_assoc]
    exact congrArg _ (funext ih)

theorem fmtchar_eq (c : UInt8) (o : Out) : fmtchar c o = emit [c] o := rfl

theorem fmtrune_eq {r : Nat} (h : r < 2 ^ 32) (o : Out) : fmtrune r o = emit (runeBytes r) o := by
  have hle : (runeBytes r).length ≤ UTFmax := (character_rune r).le
  unfold fmtrune emit
  rw [runelen_eq h]
  by_cases hfull : o.text.length + (runeBytes r).length > o.stop
  · rw [if_pos hfull, if_pos ⟨by omega, hfull⟩]
  · rw [if_neg hfull, if_neg (fun hboth => hfull hboth.2)]

def spaces (n : Int) : List Bytes := replicate n.toNat [32]

theorem fmtpad_eq (n : Int) (o : Out) : fmtpad n o = emits (spaces n) o := by
  unfold fmtpad spaces
  induction n.toNat generalizing o with
  | zero => rfl
  | succ n ih =>
    rw [padLoop, replicate_succ, emits, fmtchar_eq]
    exact congrArg _ (funext ih)

/-- What the loop of `_fmtcpy` prints. -/
def cpyUnits : Nat → Bytes → Nat → List Bytes
  | 0, _, _ => []
  | nc + 1, m, left =>
    let r := (m.getD 0 0).toNat
    if r < Runeself then runeBytes r :: cpyUnits nc m.tail (left - 1)
    else if left ≥ UTFmax ∨ fullrune m left then
      runeBytes (chartorune m).1 :: cpyUnits nc (m.drop (chartorune m).2) (left - (chartorune m).2)
    else []

theorem chartorune_lt (m : Bytes) : (chartorune m).1 < 2 ^ 32 := by
  rcases chartorune_cases (s := m) with h | ⟨c, ⟨hmax, -⟩, -, h⟩
  · rw [h]
    decide
  · rw [h]
    dsimp only
    omega

theorem cpyLoop_eq (nc : Nat) (m : Bytes) (left : Nat) (o : Out) : cpyLoop nc m left o = emits (cpyUnits nc m left) o := by
  induction nc generalizing m left o with
  | zero => rfl
  | succ nc ih =>
    have hbyte := (m.getD 0 0).toNat_lt
    rw [cpyLoop, cpyUnits]
    split_ifs with h1 h2
    · rw [fmtrune_eq (by omega), emits]
      exact congrArg _ (funext (ih _ _))
    · rw [fmtrune_eq (chartorune_lt m), emits]
      exact congrArg _ (funext (ih _ _))
    · rfl

def fmtcpyUnits (c : Conv) (m : Bytes) (n : Int) (sz : Nat) : List Bytes :=
  spaces (c.before (c.cut n)) ++ cpyUnits (c.cut n).toNat m sz ++ spaces (c.after (c.cut n))

theorem fmtcpy_eq (c : Conv) (m : Bytes) (n : Int) (sz : Nat) (o : Out) :
    fmtcpy c m n sz o = emits (fmtcpyUnits c m n sz) o := by
  unfold fmtcpy fmtcpyUnits
  rw [emits_append, emits_append, Res.andThen_assoc, fmtpad_eq]
  refine congrArg _ (funext fun o => ?_)
  rw [cpyLoop_eq]
  exact congrArg _ (funext (fmtpad_eq _))

def fmtrcpyUnits (c : Conv) (m : List UInt32) (n : Int) : List Bytes :=
  spaces (c.before (c.cut n)) ++ (m.take (c.cut n).toNat).map (fun r => runeBytes r.toNat) ++ spaces (c.after (c.cut n))

theorem rcpyLoop_eq (m : List UInt32) (o : Out) : rcpyLoop m o = emits (m.map fun r => runeBytes r.toNat) o := by
  induction m generalizing o with
  | nil => rfl
  | cons r m ih =>
    rw [rcpyLoop, map_cons, emits, fmtrune_eq r.toNat_lt]
    exact congrArg _ (funext ih)

theorem fmtrcpy_eq (c : Conv) (m : List UInt32) (n : Int) (o : Out) :
    fmtrcpy c m n o = emits (fmtrcpyUnits c m n) o := by
  unfold fmtrcpy fmtrcpyUnits
  rw [emits_append, emits_append, Res.andThen_assoc, fmtpad_eq]
  refine congrArg _ (funext fun o => ?_)
  rw [rcpyLoop_eq]
  exact congrArg _ (funext (fmtpad_eq _))

/-! ### The characters of a conversion -/

/-- Without a result where `_ifmt` stores outside its buffer. -/
def numUnits (fl : Flags) (c : Conv) (base : Nat) (u : BitVec 64) : Option (List Bytes) :=
  (itext fl c base u).map fun x =>
    fmtcpyUnits { c with flags := { c.flags with prec := false }, width := if fl.zero && !fl.left then 0 else c.width }
      x.2 x.1 x.1

theorem fmtnum_eq {fl : Flags} {c : Conv} {base : Nat} (hbase : radix c.r = some base) (u : BitVec 64) (o : Out) :
    fmtnum fl c u o = (numUnits fl c base u).elim .stray fun us => emits us o := by
  unfold fmtnum numUnits
  rw [hbase]
  dsimp only
  rcases itext fl c base u with _ | ⟨n, t⟩
  · rfl
  · exact fmtcpy_eq _ t n n o

/-- An integer verb: `%p` is `%ux` for a word. -/
def intUnits (c : Conv) (w : BitVec 64) : Option (List Bytes) :=
  if c.r = 'p'.toNat then numUnits { c.flags with unsigned := true } { c with r := 'x'.toNat } 16 w
  else numUnits c.flags c ((radix c.r).getD 10) (c.flags.take w)

def Integer (r : Nat) : Prop := r ∈ ['d', 'x', 'X', 'b', 'o', 'p'].map Char.toNat

instance (r : Nat) : Decidable (Integer r) := inferInstanceAs (Decidable (_ ∈ _))

theorem radix_integer {r : Nat} (h : Integer r) (hp : r ≠ 'p'.toNat) : radix r = some ((radix r).getD 10) := by
  have hall : ∀ r ∈ ['d', 'x', 'X', 'b', 'o', 'p'].map Char.toNat, r ≠ 'p'.toNat → radix r = some ((radix r).getD 10) := by
    decide
  exact hall r h hp

theorem ifmt_eq {c : Conv} (h : Integer c.r) (w : BitVec 64) (o : Out) :
    ifmt c w o = (intUnits c w).elim .stray fun us => emits us o := by
  unfold ifmt intUnits
  split_ifs with hp
  · exact fmtnum_eq rfl w o
  · exact fmtnum_eq (radix_integer h hp) _ o

def strUnits (c : Conv) (s : Option CString) : List Bytes :=
  match s with
  | none => fmtcpyUnits c nilText 5 5
  | some s =>
    if c.flags.prec then
      let i := min c.prec.toNat s.1.length
      fmtcpyUnits c s.1 (utfnlen s.1 i) i
    else fmtcpyUnits c s.1 (utflen s.1) s.1.length

theorem fmtstrcpy_eq (c : Conv) (s : Option CString) (o : Out) : fmtstrcpy c s o = emits (strUnits c s) o := by
  unfold fmtstrcpy strUnits
  rcases s with _ | s
  · exact fmtcpy_eq ..
  · dsimp only
    split_ifs
    · exact fmtcpy_eq ..
    · exact fmtcpy_eq ..

def runestrUnits (c : Conv) (s : Option RuneString) : List Bytes :=
  match s with
  | none => fmtcpyUnits c nilText 5 5
  | some s => fmtrcpyUnits c s.1 (if c.flags.prec then min c.prec.toNat s.1.length else s.1.length : Nat)

theorem fmtrunestrcpy_eq (c : Conv) (s : Option RuneString) (o : Out) :
    fmtrunestrcpy c s o = emits (runestrUnits c s) o := by
  unfold fmtrunestrcpy runestrUnits
  rcases s with _ | s
  · exact fmtcpy_eq ..
  · exact fmtrcpy_eq ..

def verbUnits (err : CString) (c : Conv) (a : Arg) : Option (List Bytes) :=
  if Integer c.r then intUnits c a.word
  else if c.r = 'c'.toNat then some (fmtcpyUnits { c with prec := 1 } [UInt8.ofNat a.word.toNat] 1 1)
  else if c.r = 'C'.toNat then some (fmtrcpyUnits c [UInt32.ofNat a.word.toNat] 1)
  else if c.r = 's'.toNat then some (strUnits c a.str)
  else if c.r = 'S'.toNat then some (runestrUnits c a.runes)
  else if c.r = '%'.toNat then some (fmtrcpyUnits { c with prec := 1 } [UInt32.ofNat c.r] 1)
  else if c.r = 'n'.toNat then some []
  else if c.r = 'r'.toNat then some (fmtcpyUnits c err.1 (utflen err.1) err.1.length)
  else some (fmtcpyUnits { c with prec := 3 } [37, UInt8.ofNat c.r, 37] 3 3)

/-- A verb prints its characters; after an unknown one it does not matter whether there was room. -/
theorem verb_eq (err : CString) (c : Conv) (a : Arg) :
    (verbUnits err c a = none ∧ ∀ o, verb err c a o = .stray) ∨ ∃ us, verbUnits err c a = some us ∧
      ((∀ o, verb err c a o = emits us o) ∨ ∀ o, verb err c a o = (emits us o).ignore) := by
  by_cases hint : Integer c.r
  · have hverb : ∀ o, verb err c a o = (intUnits c a.word).elim .stray fun us => emits us o := fun o =>
      (if_pos hint).trans (ifmt_eq hint a.word o)
    have hunits : verbUnits err c a = intUnits c a.word := if_pos hint
    rw [hunits]
    rcases hus : intUnits c a.word with _ | us
    · refine .inl ⟨rfl, fun o => ?_⟩
      rw [hverb, hus]
      rfl
    · refine .inr ⟨us, rfl, .inl fun o => ?_⟩
      rw [hverb, hus]
      rfl
  refine .inr ?_
  have hverb : ∀ o, verb err c a o = _ := fun o => if_neg hint
  have hunits : verbUnits err c a = _ := if_neg hint
  rw [hunits]
  simp only [hverb]
  split_ifs
  · exact ⟨_, rfl, .inl fun o => fmtcpy_eq ..⟩
  · exact ⟨_, rfl, .inl fun o => fmtrcpy_eq ..⟩
  · exact ⟨_, rfl, .inl fun o => fmtstrcpy_eq ..⟩
  · exact ⟨_, rfl, .inl fun o => fmtrunestrcpy_eq ..⟩
  · exact ⟨_, rfl, .inl fun o => fmtrcpy_eq ..⟩
  · exact ⟨_, rfl, .inl fun o => rfl⟩
  · exact ⟨_, rfl, .inl fun o => fmtcpy_eq ..⟩
  · exact ⟨_, rfl, .inr fun o => congrArg Res.ignore (fmtcpy_eq ..)⟩

section Characters
variable {c : Conv} {u : Bytes}

theorem character_spaces {n : Int} (h : u ∈ spaces n) : Character u := by
  rw [eq_of_mem_replicate h]
  exact character_byte 32

theorem character_cpyUnits {nc : Nat} {m : Bytes} {left : Nat} (h : u ∈ cpyUnits nc m left) : Character u := by
  induction nc generalizing m left with
  | zero => exact absurd h not_mem_nil
  | succ nc ih =>
    rw [cpyUnits] at h
    split_ifs at h
    · rcases mem_cons.1 h with rfl | h
      · exact character_rune _
      · exact ih h
    · rcases mem_cons.1 h with rfl | h
      · exact character_rune _
      · exact ih h
    · exact absurd h not_mem_nil

theorem character_fmtcpy {m : Bytes} {n : Int} {sz : Nat} (h : u ∈ fmtcpyUnits c m n sz) : Character u := by
  rcases mem_append.1 h with h | h
  · rcases mem_append.1 h with h | h
    · exact character_spaces h
    · exact character_cpyUnits h
  · exact character_spaces h

theorem character_fmtrcpy {m : List UInt32} {n : Int} (h : u ∈ fmtrcpyUnits c m n) : Character u := by
  rcases mem_append.1 h with h | h
  · rcases mem_append.1 h with h | h
    · exact character_spaces h
    · obtain ⟨r, -, rfl⟩ := mem_map.1 h
      exact character_rune _
  · exact character_spaces h

theorem character_numUnits {fl : Flags} {base : Nat} {w : BitVec 64} {us : List Bytes}
    (h : numUnits fl c base w = some us) (hu : u ∈ us) : Character u := by
  obtain ⟨x, -, rfl⟩ := Option.map_eq_some_iff.1 h
  exact character_fmtcpy hu

theorem character_verbUnits {err : CString} {a : Arg} {us : List Bytes} (h : verbUnits err c a = some us) (hu : u ∈ us) :
    Character u := by
  unfold verbUnits intUnits at h
  split_ifs at h
  · exact character_numUnits h hu
  · exact character_numUnits h hu
  all_goals
    cases h
  · exact character_fmtcpy hu
  · exact character_fmtrcpy hu
  · unfold strUnits at hu
    split at hu
    · exact character_fmtcpy hu
    · dsimp only at hu
      split_ifs at hu
      · exact character_fmtcpy hu
      · exact character_fmtcpy hu
  · unfold runestrUnits at hu
    split at hu
    · exact character_fmtcpy hu
    · exact character_fmtrcpy hu
  · exact character_fmtrcpy hu
  · exact absurd hu not_mem_nil
  · exact character_fmtcpy hu
  · exact character_fmtcpy hu

end Characters

/-- `P us o` is to say that `us` was printed to the buffer `o`, as far as there was room. After a failure it does not
matter what else is printed. -/
structure Printer (P : List Bytes → Out → Prop) (fails : Prop) : Prop where
  emit : ∀ {us u o}, P us o → Character u → (∃ o', emit u o = .done o' ∧ P (us ++ [u]) o') ∨
    fails ∧ ∃ o', emit u o = .fail o' ∧ ∀ vs, P (us ++ u :: vs) o'

/-- What is known of a step that prints `vs`. -/
def Printed (P : List Bytes → Out → Prop) (fails : Prop) (us vs : List Bytes) (x : Res) : Prop :=
  (∃ o, x = .done o ∧ P (us ++ vs) o) ∨ fails ∧ ∃ o, x = .fail o ∧ ∀ ws, P (us ++ vs ++ ws) o

section Printers
variable {P : List Bytes → Out → Prop} {fails : Prop} {us vs ws : List Bytes} {o : Out} {x : Res}

theorem Printed.ignore (h : Printed P fails us vs x) : ∃ o, x.ignore = .done o ∧ P (us ++ vs) o := by
  rcases h with ⟨o, rfl, h⟩ | ⟨-, o, rfl, h⟩
  · exact ⟨o, rfl, h⟩
  · refine ⟨o, rfl, ?_⟩
    have hnil := h []
    rwa [append_nil] at hnil

theorem Printed.andThen {k : Out → Res} (h : Printed P fails us vs x)
    (hk : ∀ o, P (us ++ vs) o → Printed P fails (us ++ vs) ws (k o)) : Printed P fails us (vs ++ ws) (x.andThen k) := by
  rcases h with ⟨o, rfl, h⟩ | ⟨hf, o, rfl, h⟩
  · have hko := hk o h
    unfold Printed at hko
    rwa [append_assoc us vs ws] at hko
  · refine .inr ⟨hf, o, rfl, fun xs => ?_⟩
    have hxs := h (ws ++ xs)
    rwa [← append_assoc, append_assoc us vs ws] at hxs

theorem Printer.emits (hP : Printer P fails) (h : P us o) (hvs : ∀ v ∈ vs, Character v) :
    Printed P fails us vs (Dofmt.emits vs o) := by
  induction vs generalizing us o with
  | nil => exact .inl ⟨o, rfl, (append_nil us).symm ▸ h⟩
  | cons v vs ih =>
    obtain ⟨hv, hvs⟩ := forall_mem_cons.1 hvs
    have hfirst : Printed P fails us [v] (Dofmt.emit v o) := by
      rcases hP.emit h hv with hdone | ⟨hf, o', ho', hall⟩
      · exact .inl hdone
      · refine .inr ⟨hf, o', ho', fun xs => ?_⟩
        rw [append_assoc]
        exact hall xs
    have hrest : ∀ o', P (us ++ [v]) o' → Printed P fails (us ++ [v]) vs (Dofmt.emits vs o') := fun o' ho' => ih ho' hvs
    exact hfirst.andThen hrest

end Printers

/-- The buffer of `vsmprint`. -/
structure Growing (us : List Bytes) (o : Out) : Prop where
  grows : o.grows = true
  text : o.text = us.flatten
  stop : o.stop + 1 = o.size
  room : o.text.length ≤ o.stop

theorem growing_fmtstrinit : Growing [] fmtstrinit := ⟨rfl, rfl, rfl, zero_le⟩

theorem growing_printer : Printer Growing False where
  emit {us u o} h hu := by
    have hle := hu.le
    obtain ⟨hgrows, htext, hstop, hroom⟩ := h
    have hflat : (us ++ [u]).flatten = o.text ++ u := by
      rw [flatten_append, htext, flatten_singleton]
    refine .inl ?_
    unfold emit
    by_cases hfull : o.text.length + u.length > o.stop
    · have hflush : fmtflush o u.length = .done (fmtStrFlush o) := by
        unfold fmtflush
        rw [if_neg (by rw [hgrows]; exact Bool.noConfusion)]
        exact if_neg (show ¬ o.text.length + u.length > o.size + 256 - 1 by omega)
      rw [if_pos hfull, hflush, Res.done_andThen]
      refine ⟨{ fmtStrFlush o with text := o.text ++ u }, ?_, hgrows, hflat.symm, ?_, ?_⟩
      · exact if_pos (show o.text.length + u.length ≤ o.size + 256 by omega)
      · show o.size + 256 - 1 + 1 = o.size + 256
        omega
      · show (o.text ++ u).length ≤ o.size + 256 - 1
        rw [length_append]
        omega
    · rw [if_neg hfull, Res.done_andThen]
      refine ⟨{ o with text := o.text ++ u }, if_pos (by omega), hgrows, hflat.symm, hstop, ?_⟩
      show (o.text ++ u).length ≤ o.stop
      rw [length_append]
      omega

/-- The buffer of `vsnprint` and `vseprint`. After a failure nothing fits. -/
structure Bounded (room : Nat) (us : List Bytes) (o : Out) : Prop where
  grows : o.grows = false
  size : o.size = room + 1
  text : o.text = place room us []
  stop : us.flatten.length ≤ room ∧ o.stop = room ∨ room < us.flatten.length ∧ o.stop = o.text.length

section Room
variable {room : Nat} {us vs : List Bytes} {u out : Bytes}

theorem place_append : ∀ (us : List Bytes) (out : Bytes), out.length ≤ room → place room (us ++ vs) out =
    if out.length + us.flatten.length ≤ room then place room vs (out ++ us.flatten) else place room us out
  | [], out, h => by
    rw [nil_append, flatten_nil, append_nil]
    exact (if_pos h).symm
  | u :: us, out, h => by
    rw [cons_append, place, place, flatten_cons, length_append]
    by_cases hfull : out.length + u.length > room
    · rw [if_pos hfull, if_neg (by omega), if_pos hfull]
    · have hnext : (out ++ u).length ≤ room := by
        rw [length_append]
        omega
      rw [if_neg hfull, if_neg hfull, place_append us (out ++ u) hnext, length_append, append_assoc,
        add_assoc]

theorem place_take : ∀ (us : List Bytes) (out : Bytes),
    ∃ k ≤ us.length, place room us out = out ++ (us.take k).flatten ∧
      (out.length + us.flatten.length ≤ room → k = us.length)
  | [], out => ⟨0, le_rfl, (append_nil out).symm, fun _ => rfl⟩
  | u :: us, out => by
    rw [place, flatten_cons, length_append]
    split_ifs with hfull
    · exact ⟨0, Nat.zero_le _, (append_nil out).symm, fun h => by omega⟩
    · obtain ⟨k, hk, hplace, hall⟩ := place_take us (out ++ u)
      refine ⟨k + 1, Nat.succ_le_succ hk, ?_, fun h => congrArg Nat.succ (hall ?_)⟩
      · rw [hplace, take_succ_cons, flatten_cons, append_assoc]
      · rw [length_append]
        omega

theorem bounded_start (room : Nat) : Bounded room [] ⟨[], room, room + 1, false⟩ :=
  ⟨rfl, rfl, rfl, .inl ⟨zero_le, rfl⟩⟩

theorem Bounded.le {o : Out} (h : Bounded room us o) : o.text.length ≤ room := by
  rw [h.text]
  exact place_le us [] zero_le

theorem bounded_printer : Printer (Bounded room) True where
  emit {us u o} h hu := by
    have hpos := hu.pos
    have hle := h.le
    obtain ⟨hgrows, hsize, htext, hstop⟩ := h
    have hflat : (us ++ [u]).flatten.length = us.flatten.length + u.length := by
      rw [flatten_append, flatten_singleton, length_append]
    have hsplit : ∀ vs, place room (us ++ vs) [] = if us.flatten.length ≤ room then place room vs us.flatten else o.text := by
      intro vs
      rw [place_append us [] zero_le, htext, length_nil, zero_add, nil_append]
    have hfail : o.text.length + u.length > o.stop → emit u o = .fail { o with stop := o.text.length } := by
      intro hfull
      unfold emit
      rw [if_pos hfull]
      have hflush : fmtflush o u.length = .fail { o with stop := o.text.length } := if_pos hgrows
      rw [hflush, Res.fail_andThen]
    rcases hstop with ⟨hfits, hstop⟩ | ⟨hover, hstop⟩
    · have hall : o.text = us.flatten := by
        rw [htext, place_eq us [] (by rw [length_nil]; omega), nil_append]
      by_cases hfull : o.text.length + u.length > o.stop
      · refine .inr ⟨trivial, _, hfail hfull, fun vs => ⟨hgrows, hsize, ?_, .inr ⟨?_, rfl⟩⟩⟩
        · rw [hsplit, if_pos hfits, place, if_pos (by rw [← hall]; omega)]
          exact hall
        · rw [flatten_append, flatten_cons, length_append, length_append, ← hall]
          omega
      refine .inl ⟨{ o with text := o.text ++ u }, ?_, hgrows, hsize, ?_, .inl ⟨?_, hstop⟩⟩
      · unfold emit
        rw [if_neg hfull, Res.done_andThen]
        exact if_pos (by omega)
      · rw [hsplit, if_pos hfits, place, if_neg (by rw [← hall]; omega), place, hall]
      · rw [hflat, ← hall]
        omega
    · refine .inr ⟨trivial, _, hfail (by omega), fun vs => ⟨hgrows, hsize, ?_, .inr ⟨?_, rfl⟩⟩⟩
      · rw [hsplit, if_neg (by omega)]
      · rw [flatten_append, length_append]
        omega

end Room

end Node9.Dofmt
