import Node9.Ip
import Node9.IpForms
import Node9.Tokenize

/-!
# Control messages of a conversation (`devip.c`)

`connect`, `announce` and `bind` with the text of the addresses and ports. The state is advanced before the text is
looked at, and the fields are written one by one while the rest of the text can still be refused. What the host makes
of `so_bind`, `so_connect` and the like is open (`Host`); the calls that carry an address are recorded. A result is
`none` if `parseip` writes behind the array.

A message is well formed if it is a request (`Denotes`): its addresses are addresses, or `*` where that is allowed, and
its ports are numbers up to 65535 with nothing behind them but `!r`. `announce` allows `*` for the port as well.
-/

namespace Node9.IpCtl
open Buf Numerals IpText IpForms Ip List Option

def IPnoaddr : Bytes := List.replicate 16 0

/-- The fields that the messages read or write, and the protocol. -/
structure Conv where
  stype : Proto
  state : State
  laddr : Bytes
  raddr : Bytes
  restricted : Bool
  lport : Nat
  rport : Nat
  cerr : Bytes

inductive Call
  | bind (su : Bool) (addr : Bytes) (port : Nat)
  | connect (addr : Bytes) (port : Nat)

inductive Err
  | text (s : String)
  /-- `oserror` -/
  | os

/-- What the host calls give, and whether the user is `eve`. -/
structure Host where
  bind : Bool
  connect : Bool
  listen : Bool
  /-- `so_getsockname` in `setlport` -/
  bound : Option (Bytes × Nat)
  /-- `so_getsockname` in `setladdr` -/
  joined : Option (Bytes × Nat)
  iseve : Bool

/-- The conversation after a call, what it asked of the host, and its error. -/
structure Out where
  conv : Conv
  calls : List Call
  err : Option Err

namespace Out

def andThen (o : Out) (f : Conv → Out) : Out :=
  match o.err with
  | some _ => o
  | none => let r := f o.conv; ⟨r.conv, o.calls ++ r.calls, r.err⟩

end Out

def bang : UInt8 := 33

/-- Before and behind the first `!`. -/
def strchrBang (s : Bytes) : Option (Bytes × Bytes) :=
  match s.dropWhile (· ≠ bang) with
  | [] => none
  | _ :: p => some (s.takeWhile (· ≠ bang), p)

def ushort (n : Int) : Nat := (n % 65536).toNat

/-- An `int`; `none` is the error. -/
def portno (p : Bytes) : Option Int :=
  let r := strtoul 0 p
  if r.2 = p then none else some (BitVec.ofNat 32 r.1).toInt

def setlport (h : Host) (c : Conv) : Out :=
  let call := Call.bind c.restricted c.laddr c.lport
  if h.bind = false then ⟨c, [call], some .os⟩
  else if c.lport = 0 ∨ c.laddr = IPnoaddr then
    match h.bound with
    | none => ⟨c, [call], some .os⟩
    | some (laddr, p) =>
      ⟨{ c with
        lport := if c.lport = 0 then p else c.lport, laddr := if c.laddr = IPnoaddr then laddr else c.laddr }, [call],
        none⟩
  else ⟨c, [call], none⟩

def setladdr (h : Host) (c : Conv) : Out :=
  match h.joined with
  | none => ⟨c, [], some .os⟩
  | some (laddr, p) => ⟨{ c with laddr := laddr, lport := p }, [], none⟩

/-- The address, if there is one, and the rest: `!r` alone is not a port. -/
def parts (str : Bytes) : Option Bytes × Bytes :=
  match strchrBang str with
  | none => (none, str)
  | some (a, p) => if p = [114] then (none, a) else (some a, p)

/-- `setladdrport` from the port on. -/
def setladdrportPort (h : Host) (announcing : Bool) (p : Bytes) (c : Conv) : Out :=
  if announcing ∧ p = [42] then
    if h.iseve then setlport h { c with lport := 0 } else ⟨c, [], some (.text "permission denied")⟩
  else
    match portno p with
    | none => ⟨c, [], some (.text "non-numeric port number")⟩
    | some lport => setlport h { c with lport := if lport ≤ 0 then 0 else ushort lport }

def setladdrport (h : Host) (c : Conv) (str : Bytes) (announcing : Bool) : Option Out :=
  let r := parts str
  let c := { c with lport := 0 }
  match r.1 with
  | none => some (setladdrportPort h announcing r.2 (if announcing then { c with laddr := IPnoaddr } else c))
  | some a =>
    if a = [42] then some (setladdrportPort h announcing r.2 { c with laddr := IPnoaddr })
    else (parseip a).map fun t =>
      let c := { c with laddr := t.1 }
      if t.2 = 0 then ⟨c, [], some (.text "invalid IP address")⟩ else setladdrportPort h announcing r.2 c

/-- `setraddrport` from the port on. -/
def setraddrportPort (p : Bytes) (c : Conv) : Out :=
  match portno p with
  | none => ⟨c, [], some (.text "non-numeric port number")⟩
  | some n =>
    let c := { c with rport := ushort n }
    ⟨if [bang, 114] <:+: p then { c with restricted := true } else c, [], none⟩

def setraddrport (c : Conv) (str : Bytes) : Option Out :=
  match strchrBang str with
  | none => some ⟨c, [], some (.text "malformed address")⟩
  | some (a, p) =>
    (parseip a).map fun t =>
      let c := { c with raddr := t.1 }
      if t.2 = 0 then ⟨c, [], some (.text "invalid IP address")⟩ else setraddrportPort p c

inductive Verb
  | connect
  | announce
  | bind
deriving DecidableEq

def inUse (c : Conv) : Out := ⟨c, [], some (.text "connection in use")⟩

/-- From `so_connect` on. -/
def soConnect (h : Host) (c : Conv) : Out :=
  let call := Call.connect c.raddr c.rport
  if h.connect then (Out.mk c [call] none).andThen fun c => (setladdr h c).andThen fun c =>
    ⟨{ c with state := .connected }, [], none⟩
  else ⟨{ c with state := .connected }, [call], some .os⟩

def connectctlmsg (h : Host) (c : Conv) (args : List Bytes) : Option Out :=
  if c.state ≠ .idle then some (inUse c)
  else
    let c := { c with state := .connecting, cerr := [] }
    match args with
    | [t] => (setraddrport c t).map fun o => o.andThen (soConnect h)
    | [t, l] =>
      (setraddrport c t).map fun o => o.andThen fun c =>
        match portno l with
        | none => ⟨c, [], some (.text "non-numeric port number")⟩
        | some n => (setlport h { c with lport := ushort n }).andThen (soConnect h)
    | _ => some ⟨c, [], some (.text "bad args to connect")⟩

/-- `so_listen`, but not for UDP. -/
def soListen (h : Host) (c : Conv) : Out :=
  if c.stype = .udp ∨ h.listen then ⟨{ c with state := .announced }, [], none⟩
  else ⟨{ c with state := .announced }, [], some .os⟩

def announcectlmsg (h : Host) (c : Conv) (args : List Bytes) : Option Out :=
  if c.state ≠ .idle then some (inUse c)
  else
    let c := { c with state := .announcing, cerr := [], raddr := IPnoaddr, rport := 0 }
    match args with
    | [t] => (setladdrport h c t true).map fun o => o.andThen (soListen h)
    | _ => some ⟨c, [], some (.text "bad args to announce")⟩

def bindctlmsg (h : Host) (c : Conv) (args : List Bytes) : Option Out :=
  match args with
  | [t] => setladdrport h c t false
  | _ => some ⟨c, [], some (.text "bad args to bind")⟩

def ctlmsg (h : Host) (c : Conv) : Verb → List Bytes → Option Out
  | .connect => connectctlmsg h c
  | .announce => announcectlmsg h c
  | .bind => bindctlmsg h c

/-- `connect`, `announce` and `bind` -/
def verb (f : Bytes) : Option Verb :=
  if f = [99, 111, 110, 110, 101, 99, 116] then some .connect
  else if f = [97, 110, 110, 111, 117, 110, 99, 101] then some .announce
  else if f = [98, 105, 110, 100] then some .bind
  else none

/-- The message that is written, if it is one of the three. -/
def message (p : Bytes) : Option (Verb × List Bytes) :=
  match (Tokenize.parsecmd p).f.map (Tokenize.cstr (Tokenize.parsecmd p).buf) with
  | [] => none
  | f :: args => (verb f).map fun v => (v, args)

/-! ### What is asked for -/

def Port (t : Bytes) (n : Nat) : Prop := Number t n ∧ n ≤ 65535

/-- Nothing, or `!r`. -/
def Restriction (r : Bytes) : Prop := r = [] ∨ r = [bang, 114]

def Remote (t a : Bytes) (n : Nat) (restricted : Bool) : Prop :=
  ∃ at' p, Address at' a ∧ Port p n ∧ t = at' ++ bang :: (p ++ if restricted then [bang, 114] else [])

/-- A local address and port. The address may be left out, or be any, and the port of `announce` may be any. -/
def Local (announcing : Bool) (t : Bytes) (la : Option Bytes) (n : Nat) : Prop :=
  ∃ p r, (Port p n ∨ announcing = true ∧ p = [42] ∧ n = 0) ∧ Restriction r ∧
    (la = none ∧ t = p ++ r ∨ la = some IPnoaddr ∧ t = [42] ++ bang :: (p ++ r) ∨
      ∃ at' a, la = some a ∧ Address at' a ∧ t = at' ++ bang :: (p ++ r))

/-- The remote address and port, and the local ones. -/
structure Request where
  remote : Option (Bytes × Nat)
  restricted : Bool
  loc : Option (Option Bytes × Nat)

def Call.Carries (c : Conv) (r : Request) : Call → Prop
  | .connect a p => r.remote = some (a, p)
  | .bind su a p => su = (c.restricted || r.restricted) ∧ ∃ la, r.loc = some (la, p) ∧ ∀ x ∈ la, a = x

inductive Denotes : Verb → List Bytes → Request → Prop
  | connect {t a : Bytes} {n : Nat} {res : Bool} : Remote t a n res → Denotes .connect [t] ⟨some (a, n), res, none⟩
  | connectFrom {t a l : Bytes} {n m : Nat} {res : Bool} : Remote t a n res → Port l m →
    Denotes .connect [t, l] ⟨some (a, n), res, some (none, m)⟩
  | announce {t : Bytes} {la : Option Bytes} {n : Nat} : Local true t la n →
    Denotes .announce [t] ⟨none, false, some (some (la.getD IPnoaddr), n)⟩
  | bind {t : Bytes} {la : Option Bytes} {n : Nat} : Local false t la n →
    Denotes .bind [t] ⟨none, false, some (la, n)⟩

/-- Nothing but the error text is another. -/
structure Same (c c' : Conv) : Prop where
  state : c'.state = c.state
  laddr : c'.laddr = c.laddr
  raddr : c'.raddr = c.raddr
  lport : c'.lport = c.lport
  rport : c'.rport = c.rport
  restricted : c'.restricted = c.restricted

/-- Whatever the host does, a well-formed message has it do what was written, and any other is an error that changes
nothing. -/
def Obeyed (c : Conv) (v : Verb) (args : List Bytes) : Prop :=
  (∀ r, Denotes v args r → ∀ h, ∃ o, ctlmsg h c v args = some o ∧ ∀ call ∈ o.calls, call.Carries c r) ∧
    ((∀ r, ¬ Denotes v args r) → ∀ h, ∃ o, ctlmsg h c v args = some o ∧ o.err ≠ none ∧ Same c o.conv)

/-- `portno` finds no digits. -/
def NoPort (p : Bytes) : Prop := (strtoul 0 p).2 = p

/-- A `bind` is refused before the host is asked, and has written what was there: no port, and an address. -/
def Refused (c : Conv) (t : Bytes) : Prop :=
  c.lport = 0 ∧
    match (parts t).1 with
    | none => NoPort (parts t).2
    | some a =>
      if a = [42] then c.laddr = IPnoaddr ∧ NoPort (parts t).2
      else ∃ x, parseip a = some (c.laddr, x) ∧ (x = 0 ∨ NoPort (parts t).2)

/-- When a message that is not well formed does no harm. -/
def Harmless (c : Conv) : Verb → List Bytes → Prop
  | .bind, args => ∀ t, args = [t] → Refused c t
  | _, _ => c.state ≠ .idle

variable {h : Host} {c : Conv} {f : Conv → Out} {call : Call}

section Text
variable {a p r s t la : Bytes} {n : Nat}

theorem strchrBang_append (ha : bang ∉ a) (p : Bytes) : strchrBang (a ++ bang :: p) = some (a, p) := by
  have hne : ∀ x ∈ a, decide (x ≠ bang) = true := by
    intro x hx
    refine decide_eq_true ?_
    rintro rfl
    exact ha hx
  rw [strchrBang, dropWhile_append_of_pos hne, takeWhile_append_of_pos hne]
  exact congrArg (fun x => some (x, p)) (append_nil a)

theorem strchrBang_none (hs : bang ∉ s) : strchrBang s = none := by
  have hne : ∀ x ∈ s, decide (x ≠ bang) = true := by
    intro x hx
    refine decide_eq_true ?_
    rintro rfl
    exact hs hx
  rw [strchrBang, dropWhile_eq_nil_iff.2 hne]

theorem not_plain_bang : ¬ Plain bang := by
  rintro (hd | hdot | hcolon)
  · exact absurd hd (by decide)
  · exact absurd hdot (by decide)
  · exact absurd hcolon (by decide)

theorem bang_not_mem_address (ht : Address t a) : bang ∉ t := fun hc => not_plain_bang (ht.plain bang hc)

theorem Port.bang_not_mem (hp : Port p n) : bang ∉ p := fun hc => not_plain_bang (hp.1.plain bang hc)

theorem Restriction.stops (hr : Restriction r) : Stops r := by
  rcases hr with rfl | rfl
  · exact stops_nil
  · exact stops_cons (by decide) _

theorem strtoul_port (hp : Port p n) (hr : Restriction r) : strtoul 0 (p ++ r) = (n, r) := hp.1.read hr.stops

theorem portno_port (hp : Port p n) (hr : Restriction r) : portno (p ++ r) = some (n : Int) := by
  have hrest : r ≠ p ++ r := by
    intro he
    exact hp.1.ne_nil (append_left_eq_self.1 he.symm)
  have hle := hp.2
  have hint : (BitVec.ofNat 32 n).toInt = n := by
    rw [BitVec.toInt_ofNat']
    exact Int.bmod_eq_of_le (by omega) (by omega)
  rw [portno, strtoul_port hp hr]
  dsimp only
  rw [if_neg hrest, hint]

theorem ushort_port (hp : Port p n) : ushort n = n := by
  have hle := hp.2
  rw [ushort]
  omega

theorem port_head (hp : Port p n) {x : UInt8} (hx : ¬ (digitVal x).isSome = true) (r s : Bytes) : p ++ r ≠ x :: s := by
  obtain ⟨d, p, rfl⟩ := exists_cons_of_ne_nil hp.1.ne_nil
  intro he
  have hd := hp.1.chars d mem_cons_self
  rw [head_eq_of_cons_eq he] at hd
  exact hx hd

end Text

/-! ### A request has the host do what is written -/

theorem mem_andThen {o : Out} (hc : call ∈ (o.andThen f).calls) :
    call ∈ o.calls ∨ o.err = none ∧ call ∈ (f o.conv).calls := by
  unfold Out.andThen at hc
  rcases he : o.err with _ | e
  · rw [he] at hc
    exact (mem_append.1 hc).imp_right fun hc => ⟨rfl, hc⟩
  · rw [he] at hc
    exact .inl hc

theorem setlport_spec (h : Host) (c : Conv) :
    (setlport h c).calls = [.bind c.restricted c.laddr c.lport] ∧ (setlport h c).conv.raddr = c.raddr ∧
      (setlport h c).conv.rport = c.rport ∧ (setlport h c).conv.state = c.state := by
  unfold setlport
  by_cases hb : h.bind = false
  · rw [if_pos hb]
    exact ⟨rfl, rfl, rfl, rfl⟩
  rw [if_neg hb]
  by_cases hl : c.lport = 0 ∨ c.laddr = IPnoaddr
  · rw [if_pos hl]
    rcases h.bound with _ | ⟨laddr, p⟩
    · exact ⟨rfl, rfl, rfl, rfl⟩
    · exact ⟨rfl, rfl, rfl, rfl⟩
  · rw [if_neg hl]
    exact ⟨rfl, rfl, rfl, rfl⟩

theorem setlport_calls (h : Host) (c : Conv) : (setlport h c).calls = [.bind c.restricted c.laddr c.lport] :=
  (setlport_spec h c).1

theorem setladdr_calls (h : Host) (c : Conv) : (setladdr h c).calls = [] := by
  unfold setladdr
  rcases h.joined with _ | ⟨laddr, p⟩
  · rfl
  · rfl

theorem soConnect_calls (hc : call ∈ (soConnect h c).calls) : call = .connect c.raddr c.rport := by
  unfold soConnect at hc
  dsimp only at hc
  split_ifs at hc
  · rcases mem_andThen hc with hc | ⟨-, hc⟩
    · exact mem_singleton.1 hc
    · rcases mem_andThen hc with hc | ⟨-, hc⟩
      · rw [setladdr_calls] at hc
        exact absurd hc not_mem_nil
      · exact absurd hc not_mem_nil
  · exact mem_singleton.1 hc

theorem soListen_calls (h : Host) (c : Conv) : (soListen h c).calls = [] := by
  unfold soListen
  split_ifs
  · rfl
  · rfl

section Written
variable {announcing res : Bool} {a l p r t : Bytes} {la : Option Bytes} {n m : Nat}

theorem setladdrportPort_calls (hp : Port p n ∨ announcing = true ∧ p = [42] ∧ n = 0) (hr : Restriction r)
    (hc : call ∈ (setladdrportPort h announcing (p ++ r) c).calls) : call = .bind c.restricted c.laddr n := by
  unfold setladdrportPort at hc
  rcases hp with hp | ⟨hann, rfl, rfl⟩
  · have hstar : p ++ r ≠ [42] := port_head hp (by decide) r []
    rw [if_neg fun hs => hstar hs.2, portno_port hp hr] at hc
    have hn : (if (n : Int) ≤ 0 then 0 else ushort n) = n := by
      rw [ushort_port hp]
      split_ifs <;> omega
    dsimp only at hc
    rw [hn, setlport_calls] at hc
    exact mem_singleton.1 hc
  rcases hr with rfl | rfl
  · rw [append_nil, if_pos ⟨hann, rfl⟩] at hc
    split_ifs at hc
    · rw [setlport_calls] at hc
      exact mem_singleton.1 hc
    · exact absurd hc not_mem_nil
  · have hnone : portno ([42] ++ [bang, 114]) = none := by decide
    rw [if_neg fun hs => absurd hs.2 (by decide), hnone] at hc
    exact absurd hc not_mem_nil

theorem bang_not_mem_port (hp : Port p n ∨ announcing = true ∧ p = [42] ∧ n = 0) : bang ∉ p := by
  rcases hp with hp | ⟨-, rfl, -⟩
  · exact hp.bang_not_mem
  · decide

theorem parts_port (hp : bang ∉ p) (hr : Restriction r) : parts (p ++ r) = (none, p) := by
  unfold parts
  rcases hr with rfl | rfl
  · rw [append_nil, strchrBang_none hp]
  · rw [strchrBang_append hp]
    rfl

theorem parts_address (ha : bang ∉ a) (hp : p ≠ [114]) : parts (a ++ bang :: p) = (some a, p) := by
  unfold parts
  rw [strchrBang_append ha]
  dsimp only
  rw [if_neg hp]

theorem port_ne_r (hp : Port p n ∨ announcing = true ∧ p = [42] ∧ n = 0) (r : Bytes) (hr : Restriction r) :
    p ++ r ≠ [114] := by
  rcases hp with hp | ⟨-, rfl, -⟩
  · intro he
    have hvalue := strtoul_port hp hr
    rw [he] at hvalue
    have hr114 : strtoul 0 [114] = (0, [114]) := by decide
    rw [hr114] at hvalue
    rcases hr with rfl | rfl
    · cases hvalue
    · cases hvalue
  · rintro ⟨⟩

theorem setladdrport_calls (hl : Local announcing t la n) (h : Host) (c : Conv) : ∃ o,
    setladdrport h c t announcing = some o ∧ ∀ call ∈ o.calls, ∃ a, call = .bind c.restricted a n ∧
      (∀ x ∈ la, a = x) ∧ (announcing = true → la = none → a = IPnoaddr) := by
  obtain ⟨p, r, hp, hr, ⟨rfl, rfl⟩ | ⟨rfl, rfl⟩ | ⟨t, a, rfl, ha, rfl⟩⟩ := hl
  · have hp0 : p ++ [] = p := append_nil p
    unfold setladdrport
    rw [parts_port (bang_not_mem_port hp) hr]
    refine ⟨_, rfl, ?_⟩
    intro call hc
    rw [← hp0] at hc
    have hcall := setladdrportPort_calls hp (.inl rfl) hc
    cases announcing
    · exact ⟨_, hcall, by rintro x ⟨⟩, nofun⟩
    · exact ⟨_, hcall, by rintro x ⟨⟩, fun _ _ => rfl⟩
  · unfold setladdrport
    rw [parts_address (by decide) (port_ne_r hp r hr)]
    dsimp only
    rw [if_pos rfl]
    refine ⟨_, rfl, ?_⟩
    intro call hc
    cases setladdrportPort_calls hp hr hc
    exact ⟨_, rfl, by rintro x ⟨⟩; rfl, by rintro _ ⟨⟩⟩
  have hstar : t ≠ [42] := by
    rintro rfl
    rcases ha.plain 42 mem_cons_self with hd | hd | hd
    · exact absurd hd (by decide)
    · exact absurd hd (by decide)
    · exact absurd hd (by decide)
  obtain ⟨u, hu, rfl⟩ := map_eq_some_iff.1 (parseip_address ha)
  unfold setladdrport
  rw [parts_address (bang_not_mem_address ha) (port_ne_r hp r hr)]
  dsimp only
  rw [if_neg hstar, hu]
  refine ⟨_, rfl, ?_⟩
  intro call hc
  dsimp only at hc
  split_ifs at hc
  · exact absurd hc not_mem_nil
  · cases setladdrportPort_calls hp hr hc
    exact ⟨_, rfl, by rintro x ⟨⟩; rfl, by rintro _ ⟨⟩⟩

theorem setraddrport_remote (hr : Remote t a n res) (c : Conv) : ∃ o, setraddrport c t = some o ∧ o.calls = [] ∧
    (o.err = none → o.conv.raddr = a ∧ o.conv.rport = n ∧ o.conv.restricted = (c.restricted || res)) := by
  obtain ⟨t, p, ha, hp, rfl⟩ := hr
  have hr : Restriction (if res then [bang, 114] else []) := by
    cases res
    · exact .inl rfl
    · exact .inr rfl
  obtain ⟨u, hu, rfl⟩ := map_eq_some_iff.1 (parseip_address ha)
  unfold setraddrport
  rw [strchrBang_append (bang_not_mem_address ha)]
  dsimp only
  rw [hu]
  refine ⟨_, rfl, ?_⟩
  dsimp only
  by_cases hz : u.2 = 0
  · rw [if_pos hz]
    exact ⟨rfl, by rintro ⟨⟩⟩
  unfold setraddrportPort
  rw [if_neg hz, portno_port hp hr]
  dsimp only
  rw [ushort_port hp]
  refine ⟨rfl, fun _ => ?_⟩
  cases res with
  | false =>
    rw [if_neg fun hin => hp.bang_not_mem (by simpa using hin.subset mem_cons_self)]
    exact ⟨rfl, rfl, (Bool.or_false _).symm⟩
  | true =>
    rw [if_pos rfl, if_pos (suffix_append p _).isInfix]
    exact ⟨rfl, rfl, (Bool.or_true _).symm⟩

theorem connect_carries {o : Out} {loc : Option (Option Bytes × Nat)} (ho : o.calls = [])
    (hrem : o.err = none → o.conv.raddr = a ∧ o.conv.rport = n ∧ o.conv.restricted = (c.restricted || res))
    (hc : call ∈ (o.andThen (soConnect h)).calls) : call.Carries c ⟨some (a, n), res, loc⟩ := by
  rcases mem_andThen hc with hc | ⟨he, hc⟩
  · rw [ho] at hc
    exact absurd hc not_mem_nil
  · rw [soConnect_calls hc, (hrem he).1, (hrem he).2.1]
    rfl

theorem connectFrom_carries {o : Out} (ho : o.calls = [])
    (hrem : o.err = none → o.conv.raddr = a ∧ o.conv.rport = n ∧ o.conv.restricted = (c.restricted || res))
    (hl : Port l m)
    (hc : call ∈ (o.andThen fun c =>
      match portno l with
      | none => ⟨c, [], some (.text "non-numeric port number")⟩
      | some n => (setlport h { c with lport := ushort n }).andThen (soConnect h)).calls) :
    call.Carries c ⟨some (a, n), res, some (none, m)⟩ := by
  have hport : portno l = some (m : Int) := by
    have happ := portno_port hl (.inl rfl)
    rwa [append_nil] at happ
  rcases mem_andThen hc with hc | ⟨he, hc⟩
  · rw [ho] at hc
    exact absurd hc not_mem_nil
  rw [hport] at hc
  dsimp only at hc
  rw [ushort_port hl] at hc
  have hspec := setlport_spec h { o.conv with lport := m }
  rcases mem_andThen hc with hc | ⟨-, hc⟩
  · rw [hspec.1] at hc
    rw [mem_singleton.1 hc]
    exact ⟨(hrem he).2.2, none, rfl, by rintro x ⟨⟩⟩
  · rw [soConnect_calls hc, hspec.2.1, hspec.2.2.1]
    exact congrArg some (Prod.ext (hrem he).1.symm (hrem he).2.1.symm)

theorem carries {v : Verb} {args : List Bytes} {q : Request} (hd : Denotes v args q) (h : Host) (c : Conv) :
    ∃ o, ctlmsg h c v args = some o ∧ ∀ call ∈ o.calls, call.Carries c q := by
  have hbusy : ∀ call ∈ (inUse c).calls, call.Carries c q := fun _ hc => absurd hc not_mem_nil
  cases hd with
  | @connect t a n res hr =>
    show ∃ o, connectctlmsg h c [t] = some o ∧ _
    unfold connectctlmsg
    split
    case isTrue => exact ⟨_, rfl, hbusy⟩
    case isFalse =>
      obtain ⟨o, ho, hcalls, hrem⟩ := setraddrport_remote hr { c with state := .connecting, cerr := [] }
      dsimp only
      rw [ho]
      exact ⟨_, rfl, fun _ hc => connect_carries hcalls hrem hc⟩
  | @connectFrom t a l n m res hr hl =>
    show ∃ o, connectctlmsg h c [t, l] = some o ∧ _
    unfold connectctlmsg
    split
    case isTrue => exact ⟨_, rfl, hbusy⟩
    case isFalse =>
      obtain ⟨o, ho, hcalls, hrem⟩ := setraddrport_remote hr { c with state := .connecting, cerr := [] }
      dsimp only
      rw [ho]
      exact ⟨_, rfl, fun _ hc => connectFrom_carries hcalls hrem hl hc⟩
  | @announce t la n hl =>
    show ∃ o, announcectlmsg h c [t] = some o ∧ _
    unfold announcectlmsg
    split
    case isTrue => exact ⟨_, rfl, hbusy⟩
    case isFalse =>
      obtain ⟨o, ho, hcalls⟩ :=
        setladdrport_calls hl h { c with state := .announcing, cerr := [], raddr := IPnoaddr, rport := 0 }
      dsimp only
      rw [ho]
      refine ⟨_, rfl, ?_⟩
      intro call hc
      rcases mem_andThen hc with hc | ⟨-, hc⟩
      · obtain ⟨a, rfl, ha, hany⟩ := hcalls call hc
        refine ⟨(Bool.or_false _).symm, some (la.getD IPnoaddr), rfl, ?_⟩
        rintro x ⟨⟩
        rcases la with _ | x
        · exact hany rfl rfl
        · exact ha x rfl
      · rw [soListen_calls] at hc
        exact absurd hc not_mem_nil
  | @bind t la n hl =>
    obtain ⟨o, ho, hcalls⟩ := setladdrport_calls hl h c
    refine ⟨o, ho, ?_⟩
    intro call hc
    obtain ⟨a, rfl, ha, -⟩ := hcalls call hc
    exact ⟨(Bool.or_false _).symm, la, rfl, ha⟩

end Written

/-! ### What is left behind

Once a `connect` or `announce` has started, no error brings the conversation back to `idle`. -/

section Left
variable {p t : Bytes} {args : List Bytes}

theorem andThen_state {o : Out} (ho : o.conv.state ≠ .idle) (hf : ∀ c, c.state ≠ .idle → (f c).conv.state ≠ .idle) :
    (o.andThen f).conv.state ≠ .idle := by
  unfold Out.andThen
  rcases o.err with _ | e
  · exact hf _ ho
  · exact ho

theorem setlport_state (hc : c.state ≠ .idle) : (setlport h c).conv.state ≠ .idle := by
  rwa [(setlport_spec h c).2.2.2]

theorem soConnect_state (hc : c.state ≠ .idle) : (soConnect h c).conv.state ≠ .idle := by
  unfold soConnect
  dsimp only
  split_ifs
  · refine andThen_state hc fun c hc => andThen_state ?_ fun c _ => by rintro ⟨⟩
    unfold setladdr
    rcases h.joined with _ | ⟨laddr, p⟩
    · exact hc
    · exact hc
  · rintro ⟨⟩

theorem soListen_state : (soListen h c).conv.state ≠ .idle := by
  unfold soListen
  split_ifs
  · rintro ⟨⟩
  · rintro ⟨⟩

theorem setraddrport_state (hc : c.state ≠ .idle) {o : Out} (ho : setraddrport c t = some o) :
    o.conv.state ≠ .idle := by
  unfold setraddrport at ho
  rcases hs : strchrBang t with _ | ⟨a, p⟩
  · rw [hs] at ho
    cases ho
    exact hc
  rw [hs] at ho
  obtain ⟨u, -, rfl⟩ := map_eq_some_iff.1 ho
  dsimp only
  split_ifs
  · exact hc
  unfold setraddrportPort
  rcases portno p with _ | n
  · exact hc
  · dsimp only
    split_ifs
    · exact hc
    · exact hc

theorem setladdrportPort_state {announcing : Bool} (hc : c.state ≠ .idle) :
    (setladdrportPort h announcing p c).conv.state ≠ .idle := by
  unfold setladdrportPort
  split_ifs
  · exact setlport_state hc
  · exact hc
  · rcases portno p with _ | n
    · exact hc
    · exact setlport_state hc

theorem setladdrport_state {announcing : Bool} (hc : c.state ≠ .idle) {o : Out}
    (ho : setladdrport h c t announcing = some o) : o.conv.state ≠ .idle := by
  unfold setladdrport at ho
  dsimp only at ho
  rcases hp : (parts t).1 with _ | a
  · rw [hp] at ho
    cases ho
    refine setladdrportPort_state ?_
    split_ifs
    · exact hc
    · exact hc
  rw [hp] at ho
  change (if a = [42] then _ else _) = some o at ho
  split_ifs at ho
  · cases ho
    exact setladdrportPort_state hc
  · obtain ⟨u, -, rfl⟩ := map_eq_some_iff.1 ho
    split_ifs
    · exact hc
    · exact setladdrportPort_state hc

theorem connectctlmsg_state {o : Out} (ho : connectctlmsg h c args = some o) : o.conv.state ≠ .idle := by
  have hgo : ({ c with state := .connecting, cerr := [] } : Conv).state ≠ .idle := by rintro ⟨⟩
  unfold connectctlmsg at ho
  split at ho
  case isTrue hbusy =>
    cases ho
    exact hbusy
  case isFalse =>
    rcases args with _ | ⟨t, _ | ⟨l, _ | ⟨x, args⟩⟩⟩
    · cases ho
      exact hgo
    · obtain ⟨u, hu, rfl⟩ := map_eq_some_iff.1 ho
      exact andThen_state (setraddrport_state hgo hu) fun c hc => soConnect_state hc
    · obtain ⟨u, hu, rfl⟩ := map_eq_some_iff.1 ho
      refine andThen_state (setraddrport_state hgo hu) fun c hc => ?_
      rcases portno l with _ | n
      · exact hc
      · exact andThen_state (setlport_state hc) fun c hc => soConnect_state hc
    · cases ho
      exact hgo

theorem announcectlmsg_state {o : Out} (ho : announcectlmsg h c args = some o) : o.conv.state ≠ .idle := by
  have hgo : ({ c with state := .announcing, cerr := [], raddr := IPnoaddr, rport := 0 } : Conv).state ≠ .idle := by
    rintro ⟨⟩
  unfold announcectlmsg at ho
  split at ho
  case isTrue hbusy =>
    cases ho
    exact hbusy
  case isFalse =>
    rcases args with _ | ⟨t, _ | ⟨l, args⟩⟩
    · cases ho
      exact hgo
    · obtain ⟨u, hu, rfl⟩ := map_eq_some_iff.1 ho
      exact andThen_state (setladdrport_state hgo hu) fun c _ => soListen_state
    · cases ho
      exact hgo

def willing : Host := ⟨true, true, true, some (IPnoaddr, 0), some (IPnoaddr, 0), true⟩

theorem portno_eq_none : portno p = none ↔ NoPort p := by
  unfold portno NoPort
  dsimp only
  split_ifs with hp
  · exact ⟨fun _ => hp, fun _ => rfl⟩
  · exact ⟨by rintro ⟨⟩, fun h => absurd h hp⟩

theorem setlport_willing : (setlport willing c).err = none := by
  unfold setlport
  rw [if_neg (by rintro ⟨⟩)]
  by_cases hl : c.lport = 0 ∨ c.laddr = IPnoaddr
  · rw [if_pos hl]
    rfl
  · rw [if_neg hl]

theorem bindPort_refused (hp : NoPort p) :
    setladdrportPort h false p c = ⟨c, [], some (.text "non-numeric port number")⟩ := by
  unfold setladdrportPort
  rw [if_neg fun hs => absurd hs.1 Bool.false_ne_true, portno_eq_none.2 hp]

theorem bindPort_willing (hp : ¬ NoPort p) : (setladdrportPort willing false p c).err = none := by
  unfold setladdrportPort
  rw [if_neg fun hs => absurd hs.1 Bool.false_ne_true]
  rcases hn : portno p with _ | n
  · exact absurd (portno_eq_none.1 hn) hp
  · exact setlport_willing

theorem bindPort_iff {x : Bytes} : (∀ h, (setladdrportPort h false p { c with lport := 0, laddr := x }).err ≠ none ∧
    Same c (setladdrportPort h false p { c with lport := 0, laddr := x }).conv) ↔
      c.lport = 0 ∧ c.laddr = x ∧ NoPort p := by
  constructor
  · intro hall
    by_cases hp : NoPort p
    · have hs := (hall willing).2
      rw [bindPort_refused hp] at hs
      exact ⟨hs.lport.symm, hs.laddr.symm, hp⟩
    · exact absurd (bindPort_willing hp) (hall willing).1
  · rintro ⟨hl, hx, hp⟩ h
    rw [bindPort_refused hp]
    exact ⟨by rintro ⟨⟩, rfl, hx.symm, rfl, hl.symm, rfl, rfl⟩

theorem some_iff {P : Host → Out → Prop} (f : Host → Out) :
    (∀ h, ∃ o, some (f h) = some o ∧ P h o) ↔ ∀ h, P h (f h) := by
  constructor
  · intro hall h
    obtain ⟨o, ho, hP⟩ := hall h
    rwa [Option.some.inj ho]
  · exact fun hall h => ⟨_, rfl, hall h⟩

theorem refused_iff : (∀ h, ∃ o, setladdrport h c t false = some o ∧ o.err ≠ none ∧ Same c o.conv) ↔ Refused c t := by
  unfold setladdrport Refused
  dsimp only
  rcases (parts t).1 with _ | a
  · refine (some_iff _).trans (bindPort_iff.trans ?_)
    exact and_congr_right fun _ => ⟨fun hp => hp.2, fun hp => ⟨rfl, hp⟩⟩
  dsimp only
  by_cases ha : a = [42]
  · simp only [if_pos ha]
    exact (some_iff _).trans bindPort_iff
  simp only [if_neg ha]
  rcases hu : parseip a with _ | ⟨x, v⟩
  · constructor
    · intro hall
      obtain ⟨o, ho, -⟩ := hall willing
      cases ho
    · rintro ⟨-, y, hy, -⟩
      cases hy
  refine (some_iff _).trans ?_
  dsimp only
  by_cases hv : v = 0
  · simp only [if_pos hv]
    constructor
    · intro hall
      have hs := (hall willing).2
      exact ⟨hs.lport.symm, v, congrArg some (Prod.ext hs.laddr rfl), .inl hv⟩
    · rintro ⟨hl, y, hy, -⟩ h
      exact ⟨by rintro ⟨⟩, rfl, congrArg Prod.fst (Option.some.inj hy), rfl, hl.symm, rfl, rfl⟩
  simp only [if_neg hv]
  refine bindPort_iff.trans (and_congr_right fun _ => ?_)
  constructor
  · rintro ⟨hx, hp⟩
    exact ⟨v, congrArg some (Prod.ext hx.symm rfl), .inr hp⟩
  · rintro ⟨y, hy, hp⟩
    obtain ⟨hx, hyv⟩ := Prod.ext_iff.1 (Option.some.inj hy)
    exact ⟨hx.symm, hp.resolve_left fun hz => hv (hyv.trans hz)⟩

end Left

theorem same_refl (c : Conv) : Same c c := ⟨rfl, rfl, rfl, rfl, rfl, rfl⟩

theorem harmless_iff {v : Verb} {args : List Bytes} :
    (∀ h, ∃ o, ctlmsg h c v args = some o ∧ o.err ≠ none ∧ Same c o.conv) ↔ Harmless c v args := by
  cases v with
  | connect =>
    constructor
    · intro hall hidle
      obtain ⟨o, ho, -, hs⟩ := hall willing
      exact connectctlmsg_state ho (hs.state.trans hidle)
    · intro hbusy h
      exact ⟨inUse c, if_pos hbusy, by rintro ⟨⟩, same_refl c⟩
  | announce =>
    constructor
    · intro hall hidle
      obtain ⟨o, ho, -, hs⟩ := hall willing
      exact announcectlmsg_state ho (hs.state.trans hidle)
    · intro hbusy h
      exact ⟨inUse c, if_pos hbusy, by rintro ⟨⟩, same_refl c⟩
  | bind =>
    constructor
    · rintro hall t rfl
      exact refused_iff.1 hall
    · intro hr
      rcases args with _ | ⟨t, _ | ⟨l, args⟩⟩
      · exact fun h => ⟨_, rfl, by rintro ⟨⟩, same_refl c⟩
      · exact refused_iff.2 (hr t rfl)
      · exact fun h => ⟨_, rfl, by rintro ⟨⟩, same_refl c⟩

theorem obeyed_iff {v : Verb} {args : List Bytes} : Obeyed c v args ↔ (∃ r, Denotes v args r) ∨ Harmless c v args := by
  constructor
  · rintro ⟨-, hbad⟩
    by_cases hd : ∃ r, Denotes v args r
    · exact .inl hd
    · exact .inr (harmless_iff.1 (hbad fun r hr => hd ⟨r, hr⟩))
  · intro hok
    refine ⟨fun r hr h => carries hr h c, fun hbad => ?_⟩
    rcases hok with ⟨r, hr⟩ | hh
    · exact absurd hr (hbad r)
    · exact harmless_iff.2 hh

/-- Every message that is written to `ctl`. -/
theorem control_iff (c : Conv) (p : Bytes) : (∀ v args, message p = some (v, args) → Obeyed c v args) ↔
    ∀ v args, message p = some (v, args) → (∃ r, Denotes v args r) ∨ Harmless c v args :=
  forall₃_congr fun _ _ _ => obeyed_iff

/-- `connect x` -/
theorem control_fails : ¬ ∀ (c : Conv) (p : Bytes) (v : Verb) (args : List Bytes),
    message p = some (v, args) → Obeyed c v args := by
  intro hall
  let c : Conv := ⟨.tcp, .idle, IPnoaddr, IPnoaddr, false, 0, 0, []⟩
  have hmsg : message [99, 111, 110, 110, 101, 99, 116, 32, 120] = some (.connect, [[120]]) := by decide
  have hbad : ∀ r, ¬ Denotes .connect [[120]] r := by
    rintro r (⟨t, p, -, -, he⟩ | _)
    have hbang : bang ∈ ([120] : Bytes) := he ▸ mem_append_right t mem_cons_self
    exact absurd hbang (by decide)
  obtain ⟨o, ho, -, hs⟩ := (hall c _ _ _ hmsg).2 hbad willing
  have hleft : o.conv.state ≠ .idle := connectctlmsg_state (show connectctlmsg willing c [[120]] = some o from ho)
  exact hleft hs.state

end Node9.IpCtl
