import Node9.Lib.LockCalls

/-!
# The locks of the console (`devcons.c`)

Every call of the device as what it does to `kbd.q`, `kbd.gq`, `kprintq.l` and `line_lock`. A queue may raise an error
wherever it is read or written, and so may `devopen`; the handlers of `waserror` are written out where they run. A call
that raises ends with the text of its error.
-/

namespace Node9.Cons.Locks
open LockCalls

/-- `kprintq.l` is two locks: as writer and as reader. -/
inductive Lk
  | q
  | gq
  | kprintqW
  | kprintqR
  | line
deriving DecidableEq

def free (taken : Lk → Nat) : Lk → Bool
  | .kprintqR => taken .kprintqW = 0
  | .kprintqW => taken .kprintqW = 0 && taken .kprintqR = 0
  | l => taken l = 0

inductive File
  | cons
  | consctl
  | scancode
  | kprint
  | other
deriving DecidableEq

/-- The operations, with the answer `true` unless something else is said. -/
inductive Op
  /-- no if it raises -/
  | devopen (c : Nat)
  /-- `c->flag & COPEN` -/
  | isopen (c : Nat)
  /-- `c->flag &= ~COPEN` -/
  | unopen (c : Nat)
  | incref
  | decref
  /-- `gkscanq != nil || gkscanid == nil` -/
  | refused
  /-- `gkscanq != nil` -/
  | gkscanq
  /-- `gkscanq = qopen(...)`, no if that is nil -/
  | scanopen
  | scanfree
  /-- `kprintq.q != nil` -/
  | kprintq
  /-- `kprintq.q = qopen(...)`, no if that is nil -/
  | kprintopen
  | kprintfree
  | dflag
  /-- `uv_cond_wait`, between its unlock and its lock -/
  | wait
  /-- no if it raises -/
  | read (f : File)
  /-- no if it raises -/
  | write (f : File)
deriving DecidableEq

structure Dev where
  copen : Nat → Bool
  ctl : Int
  raw : Bool
  gkscanq : Bool
  gkscanid : Bool
  kprintq : Bool
  dflag : Bool

/-- A test has the answer that the device gives. -/
def test (b is : Bool) (d : Dev) : Option Dev := if b = is then some d else none

def exec : Op → Bool → Dev → Option Dev
  | .devopen c, b, d => some (if b then { d with copen := Function.update d.copen c true } else d)
  | .isopen c, b, d => test b (d.copen c) d
  | .unopen c, _, d => some { d with copen := Function.update d.copen c false }
  | .incref, _, d => some { d with ctl := d.ctl + 1 }
  | .decref, _, d => some { d with ctl := d.ctl - 1, raw := d.raw && d.ctl ≠ 1 }
  | .refused, b, d => test b (d.gkscanq || !d.gkscanid) d
  | .gkscanq, b, d => test b d.gkscanq d
  | .scanopen, b, d => some { d with gkscanq := b }
  | .scanfree, _, d => some { d with gkscanq := false }
  | .kprintq, b, d => test b d.kprintq d
  | .kprintopen, b, d => some { d with kprintq := b }
  | .kprintfree, _, d => some { d with kprintq := false }
  | .dflag, b, d => test b d.dflag d
  | .wait, _, d => some d
  | .read _, _, d => some d
  | .write _, _, d => some d

/-- A call returns, or raises the error with this text; `some ""` is that of another function. -/
abbrev Ends := Option String

abbrev Code := Prog Lk Op Ends

def Einuse : String := "device or object already in use"
def Enonexist : String := "file does not exist"
def Enomem : String := "out of memory: kernel"
def other : String := ""

def returns : Code := .ret none

def error (e : String) : Code := .ret (some e)

/-- What may raise, and what is done in either case. -/
def orRaise (o : Op) (k handler : Code) : Code := .op o fun ok => if ok then k else handler

/-- What is done regardless of the answer. -/
def andThen (o : Op) (k : Code) : Code := .op o fun _ => k

/-- The lock that is released when an open of `scancode` is refused is not the one that was taken. -/
def scanopen (c : Nat) : Code :=
  .lock .gq (.op .refused fun b =>
    if b then
      .unlock .q (andThen (.unopen c) (.op .gkscanq fun b => if b then error Einuse else error "not supported"))
    else andThen .scanopen (.unlock .gq returns))

def kprintopen (c : Nat) : Code :=
  let raised (e : String) : Code := .unlock .kprintqW (andThen (.unopen c) (error e))
  .lock .kprintqW (.op .kprintq fun b =>
    if b then raised Einuse else orRaise .kprintopen (.unlock .kprintqW returns) (raised Enomem))

def consopen (c : Nat) (f : File) : Code :=
  orRaise (.devopen c)
    (match f with
    | .consctl => andThen .incref returns
    | .scancode => scanopen c
    | .kprint => kprintopen c
    | _ => returns)
    (error other)

def consclose (c : Nat) (f : File) : Code :=
  .op (.isopen c) fun b =>
    if b then
      match f with
      | .consctl => andThen .decref returns
      | .scancode => .lock .gq (andThen .scanfree (.unlock .gq returns))
      | .kprint => .lock .kprintqW (andThen .kprintfree (.unlock .kprintqW returns))
      | _ => returns
    else returns

/-- The handler knows of `kbd.q` only. -/
def consread : File → Code
  | .cons =>
    .lock .q (.op .dflag fun b =>
      if b then .unlock .q (error Enonexist)
      else
        .lock .line (.unlock .line (andThen .wait (.lock .line (orRaise (.read .cons)
          (.unlock .line (.unlock .q returns))
          (.unlock .q (error other)))))))
  | .kprint => .lock .kprintqR (orRaise (.read .kprint) (.unlock .kprintqR returns) (.unlock .kprintqR (error other)))
  | f => orRaise (.read f) returns (error other)

def conswrite : File → Code
  | .cons =>
    .trylock .kprintqR fun got =>
      if got then
        .op .kprintq fun b =>
          if b then orRaise (.write .kprint) (.unlock .kprintqR returns) (.unlock .kprintqR (error other))
          else .unlock .kprintqR (andThen (.write .cons) returns)
      else andThen (.write .cons) returns
  | f => orRaise (.write f) returns (error other)

def readline : Code := .lock .line (andThen (.write .cons) (.unlock .line returns))

inductive Call
  | consopen (c : Nat) (f : File)
  | consclose (c : Nat) (f : File)
  | consread (f : File)
  | conswrite (f : File)
  | readline

def prog : Call → Code
  | .consopen c f => consopen c f
  | .consclose c f => consclose c f
  | .consread f => consread f
  | .conswrite f => conswrite f
  | .readline => readline

def device : Sem Lk Op Ends Dev Call := ⟨free, exec, prog⟩

/-- No thread is in a call, and no lock is taken. -/
def idle (d : Dev) : St Nat Lk Op Ends Dev := ⟨d, fun _ => 0, fun _ => returns, fun _ => [], []⟩

/-- No open of `scancode` is refused, and no `qread` of `lineq` raises. -/
def Allowed (o : Op) (b : Bool) : Prop := ¬ (o = .refused ∧ b = true) ∧ ¬ (o = .read .cons ∧ b = false)

/-! ### Each call by itself -/

variable {c : Nat} {f : File} {held : List Lk} {o : Op} {k handler : Code}

theorem balanced_orRaise (hk : Balanced Allowed held k) (hh : Allowed o false → Balanced Allowed held handler) :
    Balanced Allowed held (orRaise o k handler) := by
  intro b hb
  cases b with
  | true => exact hk
  | false => exact hh hb

theorem balanced_andThen (hk : Balanced Allowed held k) : Balanced Allowed held (andThen o k) := fun _ _ => hk

theorem balanced_error (e : String) : Balanced Allowed [] (error e) := rfl

theorem balanced_returns : Balanced Allowed [] returns := rfl

theorem balanced_unlock {l : Lk} (hk : Balanced Allowed [] k) : Balanced Allowed [l] (.unlock l k) := by
  refine ⟨List.mem_singleton_self l, ?_⟩
  rw [List.erase_cons_head]
  exact hk

theorem balanced_scanopen (c : Nat) : Balanced Allowed [] (scanopen c) := by
  intro b hb
  cases b with
  | true => exact absurd ⟨rfl, rfl⟩ hb.1
  | false => exact balanced_andThen (balanced_unlock balanced_returns)

theorem balanced_kprintopen (c : Nat) : Balanced Allowed [] (kprintopen c) := by
  have hraised : ∀ e, Balanced Allowed [.kprintqW] (.unlock .kprintqW (andThen (.unopen c) (error e))) := fun e =>
    balanced_unlock (balanced_andThen (balanced_error e))
  intro b _
  cases b with
  | true => exact hraised Einuse
  | false => exact balanced_orRaise (balanced_unlock balanced_returns) fun _ => hraised Enomem

theorem balanced_consopen (c : Nat) (f : File) : Balanced Allowed [] (consopen c f) := by
  refine balanced_orRaise ?_ fun _ => balanced_error other
  cases f with
  | cons | other => exact balanced_returns
  | consctl => exact balanced_andThen balanced_returns
  | scancode => exact balanced_scanopen c
  | kprint => exact balanced_kprintopen c

theorem balanced_consclose (c : Nat) (f : File) : Balanced Allowed [] (consclose c f) := by
  intro b _
  cases b with
  | false => exact balanced_returns
  | true =>
    cases f with
    | cons | other => exact balanced_returns
    | consctl => exact balanced_andThen balanced_returns
    | scancode | kprint => exact balanced_andThen (balanced_unlock balanced_returns)

theorem balanced_consread (f : File) : Balanced Allowed [] (consread f) := by
  cases f with
  | cons =>
    intro b _
    cases b with
    | true => exact balanced_unlock (balanced_error Enonexist)
    | false =>
      refine ⟨List.mem_cons_self, balanced_andThen (balanced_orRaise ?_ fun hraise => absurd ⟨rfl, rfl⟩ hraise.2)⟩
      exact ⟨List.mem_cons_self, balanced_unlock balanced_returns⟩
  | kprint => exact balanced_orRaise (balanced_unlock balanced_returns) fun _ => balanced_unlock (balanced_error other)
  | consctl | scancode | other => exact balanced_orRaise balanced_returns fun _ => balanced_error other

theorem balanced_conswrite (f : File) : Balanced Allowed [] (conswrite f) := by
  cases f with
  | cons =>
    refine ⟨fun b _ => ?_, balanced_andThen balanced_returns⟩
    cases b with
    | true => exact balanced_orRaise (balanced_unlock balanced_returns) fun _ => balanced_unlock (balanced_error other)
    | false => exact balanced_unlock (balanced_andThen balanced_returns)
  | consctl | scancode | kprint | other => exact balanced_orRaise balanced_returns fun _ => balanced_error other

theorem balanced_prog (c : Call) : Balanced Allowed [] (prog c) := by
  cases c with
  | consopen c f => exact balanced_consopen c f
  | consclose c f => exact balanced_consclose c f
  | consread f => exact balanced_consread f
  | conswrite f => exact balanced_conswrite f
  | readline => exact balanced_andThen (balanced_unlock balanced_returns)

/-- Every call leaves the locks as they were, and releases none that it does not hold, in every run in which no open of
`scancode` is refused and no `qread` of `lineq` raises. -/
theorem always_released (d : Dev) (acts : List (Act Nat Call))
    (hG : Steps.Along (step device) (fun s a => a.Allowed Allowed s) (idle d) acts) :
    Steps.Always (step device) Clean (idle d) acts :=
  always_clean balanced_prog hG ⟨fun _ => rfl, rfl⟩

/-- As on Linux, where nothing sets `gkscanid`. -/
def start : Dev := ⟨fun _ => false, 0, false, false, false, false, false⟩

theorem always_released_kprint : Steps.Always (step device) Clean (idle start) [.call 1 (.consopen 0 .kprint),
    .go 1 false] := by
  refine always_released start _ fun s₁ h₁ => ⟨trivial, fun s₂ _ => ⟨?_, trivial⟩⟩
  cases h₁
  intro o k hop
  cases hop
  exact ⟨fun h => absurd h.1 nofun, fun h => absurd h.1 nofun⟩

/-- An open of `scancode` that is refused releases `kbd.q`. -/
theorem not_released : ¬ ∀ (d : Dev) (acts : List (Act Nat Call)), Steps.Always (step device) Clean (idle d) acts := by
  intro h
  have hclean := (h start [.call 1 (.consopen 0 .scancode), .go 1 true, .go 1 true, .go 1 true, .go 1 true]).last rfl
  cases hclean.strays

end Node9.Cons.Locks
