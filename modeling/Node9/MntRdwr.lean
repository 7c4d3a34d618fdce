import Node9.MntRead
import Node9.BufferSpec

/-!
# Reading and writing a file over a connection (`mntrdwr` in `devmnt.c`)

`buf` is the memory of the caller, of as many bytes as it wants to read or write, and a write anywhere else is a
fault. A step is one turn of the loop, with what its `mountrpc` brings back: the reply to the request, or an error.
The reply has a `count` and, to a `Tread`, the blocks that `mntrpcread` hangs off the request; nothing is known of
them but what a theorem says.

`n` is not negative: whoever calls a read or a write of a device has seen to it.
-/

namespace Node9.MntRdwr
open Buf Blocks Steps List
open Buffers (overwrite length_overwrite take_overwrite_end)

/-- `memmove` to `buf + p`. -/
def put (buf : Bytes) (p : Nat) (xs : Bytes) : Option Bytes :=
  if p + xs.length ≤ buf.length then some (overwrite buf p xs) else none

/-- The memory, and the blocks that were not emptied. -/
def bl2mem (buf : Bytes) (p : Nat) : List Block → Nat → Option (Bytes × List Block)
  | [], _ => some (buf, [])
  | b :: next, n =>
    if b.len > n then (put buf p (b.data.take n)).map fun buf => (buf, ⟨b.data.drop n, b.room⟩ :: next)
    else (put buf p b.data).bind fun buf => bl2mem buf (p + b.len) next (n - b.len)

/-- What a connection can have after `mntversion`. -/
structure Msize where
  val : Nat
  low : 256 ≤ val
  high : val ≤ 1024 * 1024

inductive Op
  | Tread
  | Twrite
deriving DecidableEq

inductive Answer
  | reply (count : UInt32) (b : List Block) (killed : Bool)
  | error

/-- The variables of `mntrdwr`; `uba` is where it is in `buf`. -/
structure Vars where
  off : UInt64
  uba : Nat
  cnt : Nat
  n : Nat
  buf : Bytes
  /-- What the server says that it accepted, each with its offset in the file. -/
  accepted : List (UInt64 × Bytes)

inductive Rdwr
  | loop (v : Vars)
  | returned (v : Vars)
  | raised
  | faulted

/-- `r->request.count` -/
def Vars.request (m : Msize) (v : Vars) : Nat := if v.n > m.val - IOHDRSZ then m.val - IOHDRSZ else v.n

/-- `r->reply.count`, but no more than `r->request.count`. -/
def Vars.given (m : Msize) (v : Vars) (count : UInt32) : Nat := if count.toNat > v.request m then v.request m
    else count.toNat

def Vars.data (m : Msize) (v : Vars) (count : UInt32) (b : List Block) : Op → Option Bytes
  | .Tread => (bl2mem v.buf v.uba b (v.given m count)).map Prod.fst
  | .Twrite => some v.buf

/-- What a server accepts of the data of a `Twrite`. -/
def Vars.takes (m : Msize) (v : Vars) (count : UInt32) : Op → List (UInt64 × Bytes)
  | .Tread => v.accepted
  | .Twrite => v.accepted ++ [(v.off, ((v.buf.drop v.uba).take (v.request m)).take count.toNat)]

def Vars.next (m : Msize) (v : Vars) (count : UInt32) (buf : Bytes) (type : Op) : Vars where
  off := v.off + UInt64.ofNat (v.given m count)
  uba := v.uba + v.given m count
  cnt := v.cnt + v.given m count
  n := v.n - v.given m count
  buf := buf
  accepted := v.takes m count type

def mntrdwr (type : Op) (m : Msize) : Rdwr → Answer → Option Rdwr
  | .loop v, .reply count b killed =>
    match v.data m count b type with
    | none => some .faulted
    | some buf =>
      let v' := v.next m count buf type
      if v.given m count ≠ v.request m ∨ v'.n = 0 ∨ killed then some (.returned v') else some (.loop v')
  | .loop _, .error => some .raised
  | .returned _, _ => none
  | .raised, _ => none
  | .faulted, _ => none

def start (buf : Bytes) (off : UInt64) : Rdwr := .loop ⟨off, 0, 0, buf.length, buf, []⟩

/-! ### Writing to the memory -/

section Memory
variable {buf xs ys : Bytes} {p : Nat}

theorem drop_overwrite {k : Nat} (h : p + xs.length ≤ buf.length) (hk : p + xs.length ≤ k) :
    (overwrite buf p xs).drop k = buf.drop k := by
  have hlen : (buf.take p ++ xs).length = p + xs.length := by
    rw [length_append, length_take]
    omega
  rw [overwrite, drop_append, drop_eq_nil_of_le (by omega), nil_append, hlen, drop_drop]
  congr 1
  omega

theorem overwrite_overwrite (h : p + xs.length ≤ buf.length) :
    overwrite (overwrite buf p xs) (p + xs.length) ys = overwrite buf p (xs ++ ys) := by
  have hdrop := @drop_overwrite buf xs p (p + xs.length + ys.length) h (by omega)
  rw [overwrite, take_overwrite_end h, hdrop, overwrite, length_append, ← append_assoc, ← add_assoc]

theorem bl2mem_spec (b : List Block) {n : Nat} (h : p + n ≤ buf.length) :
    ∃ rest, bl2mem buf p b n = some (overwrite buf p ((bytes b).take n), rest) := by
  induction b generalizing buf p n with
  | nil => exact ⟨[], by simp [bl2mem, Buffers.overwrite_nil]⟩
  | cons b next ih =>
    unfold bl2mem
    by_cases hgt : b.len > n
    · have hput : put buf p (b.data.take n) = some (overwrite buf p (b.data.take n)) :=
        if_pos (by rw [length_take]; omega)
      rw [if_pos hgt, hput, bytes_cons, take_append_of_le_length (le_of_lt hgt)]
      exact ⟨_, rfl⟩
    have hle : p + b.data.length ≤ buf.length := by simp only [Block.len] at hgt; omega
    have hput : put buf p b.data = some (overwrite buf p b.data) := if_pos hle
    obtain ⟨rest, hrest⟩ := @ih (overwrite buf p b.data) (p + b.len) (n - b.len)
      (by rw [length_overwrite hle]; simp only [Block.len] at hgt ⊢; omega)
    rw [if_neg hgt, hput, Option.bind_some, hrest, Block.len, overwrite_overwrite hle, bytes_cons, take_append,
      take_of_length_le (Nat.not_lt.1 hgt)]
    exact ⟨rest, rfl⟩

end Memory

/-- Where the variables are in a call for `len` bytes. -/
structure Vars.At (off : UInt64) (len : Nat) (v : Vars) : Prop where
  uba : v.uba = v.cnt
  left : v.cnt + v.n = len
  off : v.off = off + UInt64.ofNat v.cnt
  length : v.buf.length = len

def Rdwr.Holds (P : Vars → Prop) : Rdwr → Prop
  | .loop v | .returned v => P v
  | .raised => True
  | .faulted => False

section Turn
variable {m : Msize} {v : Vars} {off : UInt64} {len : Nat} {type : Op} {count : UInt32} {b : List Block} {killed : Bool}
  {s' : Rdwr}

theorem request_le : v.request m ≤ v.n := by unfold Vars.request; split <;> omega

theorem request_pos (h : 0 < v.n) : 0 < v.request m := by
  have := m.low
  unfold Vars.request
  split
  · simp only [IOHDRSZ]
    omega
  · exact h

theorem given_eq : v.given m count = min count.toNat (v.request m) := by unfold Vars.given; split <;> omega

theorem given_le : v.given m count ≤ v.request m := by
  rw [given_eq]
  exact Nat.min_le_right _ _

theorem data_read (h : v.At off len) :
    v.data m count b .Tread = some (overwrite v.buf v.cnt ((bytes b).take (v.given m count))) := by
  have hle := @given_le m v count
  have hreq := @request_le m v
  have hlen := h.length
  have hleft := h.left
  obtain ⟨rest, hrun⟩ := @bl2mem_spec v.buf v.uba b (v.given m count) (by rw [h.uba]; omega)
  rw [Vars.data, hrun, h.uba]
  rfl

theorem data_ok (h : v.At off len) : ∃ buf, v.data m count b type = some buf ∧ buf.length = len := by
  cases type with
  | Twrite => exact ⟨v.buf, rfl, h.length⟩
  | Tread =>
    have hle := @given_le m v count
    have hreq := @request_le m v
    have hlen := h.length
    have hleft := h.left
    refine ⟨_, data_read h, ?_⟩
    rw [length_overwrite (by rw [length_take]; omega)]
    exact hlen

theorem Vars.At.next (h : v.At off len) (buf : Bytes) (hbuf : buf.length = len) :
    (v.next m count buf type).At off len := by
  have hle := @given_le m v count
  have hreq := @request_le m v
  have hleft := h.left
  refine ⟨?_, ?_, ?_, hbuf⟩
  · show v.uba + _ = v.cnt + _
    rw [h.uba]
  · show v.cnt + v.given m count + (v.n - v.given m count) = len
    omega
  · show v.off + _ = off + UInt64.ofNat (v.cnt + v.given m count)
    rw [h.off, UInt64.ofNat_add, UInt64.add_assoc]

theorem mntrdwr_reply (h : v.At off len) (hs : mntrdwr type m (.loop v) (.reply count b killed) = some s') :
    ∃ buf, v.data m count b type = some buf ∧ (v.next m count buf type).At off len ∧
      ((s' = .returned (v.next m count buf type)) ∨
        (s' = .loop (v.next m count buf type) ∧ v.given m count = v.request m ∧ (v.next m count buf type).n ≠ 0)) := by
  obtain ⟨buf, hdata, hlen⟩ := @data_ok m v off len type count b h
  refine ⟨buf, hdata, h.next buf hlen, ?_⟩
  unfold mntrdwr at hs
  dsimp only at hs
  rw [hdata] at hs
  dsimp only at hs
  split at hs
  · cases hs
    exact .inl rfl
  · rename_i hmore
    cases hs
    obtain ⟨hfull, hn, -⟩ := not_or.1 hmore |>.imp id not_or.1
    exact .inr ⟨rfl, not_not.1 hfull, hn⟩

end Turn

/-- A server of the file `F`: the blocks have a prefix of its bytes from the offset on, as many as `count` says. -/
def Serves (F : Bytes) : Rdwr → Answer → Prop
  | .loop v, .reply count b _ => bytes b <+: F.drop v.off.toNat ∧ count.toNat = (bytes b).length
  | _, _ => True

/-- A server that accepts a prefix of the data. -/
def Accepts (m : Msize) : Rdwr → Answer → Prop
  | .loop v, .reply count _ _ => count.toNat ≤ v.request m
  | _, _ => True

/-- Each piece starts where the one before it ends. -/
def Contiguous : UInt64 → List (UInt64 × Bytes) → Prop
  | _, [] => True
  | off, p :: ps => p.1 = off ∧ Contiguous (off + UInt64.ofNat p.2.length) ps

def contents (ps : List (UInt64 × Bytes)) : Bytes := ps.flatMap Prod.snd

theorem contiguous_append {off : UInt64} {ps : List (UInt64 × Bytes)} {xs : Bytes} (h : Contiguous off ps) :
    Contiguous off (ps ++ [(off + UInt64.ofNat (contents ps).length, xs)]) := by
  induction ps generalizing off with
  | nil => exact ⟨UInt64.add_zero off, trivial⟩
  | cons p ps ih =>
    refine ⟨h.1, ?_⟩
    have hlen : UInt64.ofNat (contents (p :: ps)).length =
        UInt64.ofNat p.2.length + UInt64.ofNat (contents ps).length := by
      rw [← UInt64.ofNat_add, contents, flatMap_cons, length_append]
      rfl
    rw [hlen, ← UInt64.add_assoc]
    exact ih h.2

/-- What was read is in the memory, and behind it is what was there. -/
structure Vars.Delivered (F : Bytes) (off : UInt64) (buf : Bytes) (v : Vars) : Prop where
  place : v.At off buf.length
  within : v.cnt ≤ (F.drop off.toNat).length
  memory : v.buf = overwrite buf 0 ((F.drop off.toNat).take v.cnt)

/-- What was written was accepted where it belongs. -/
structure Vars.Accepted (off : UInt64) (buf : Bytes) (v : Vars) : Prop where
  place : v.At off buf.length
  memory : v.buf = buf
  contiguous : Contiguous off v.accepted
  data : contents v.accepted = buf.take v.cnt

section Kept
variable {m : Msize} {v : Vars} {off : UInt64} {F buf : Bytes} {len : Nat} {type : Op} {count : UInt32} {b : List Block}
  {killed : Bool} {s s' : Rdwr} {a : Answer}

theorem Vars.Delivered.offset (h : v.Delivered F off buf) (hF : F.length < 2 ^ 63) :
    F.drop v.off.toNat = (F.drop off.toNat).drop v.cnt := by
  have hcnt := h.within
  rw [length_drop] at hcnt
  rw [h.place.off, drop_drop]
  rcases Nat.eq_zero_or_pos v.cnt with hz | hpos
  · rw [hz]
    congr 1
    exact congrArg UInt64.toNat (UInt64.add_zero off)
  · congr 1
    rw [UInt64.toNat_add, UInt64.toNat_ofNat_of_lt' (by show _ < 2 ^ 64; omega), Nat.mod_eq_of_lt (by omega)]

theorem Vars.Delivered.next (hF : F.length < 2 ^ 63) (h : v.Delivered F off buf) (hb : bytes b <+: F.drop v.off.toNat)
    (hc : count.toNat = (bytes b).length) {buf' : Bytes} (hdata : v.data m count b .Tread = some buf')
    (hat : (v.next m count buf' .Tread).At off buf.length) : (v.next m count buf' .Tread).Delivered F off buf := by
  have hle : v.given m count ≤ (bytes b).length := by rw [given_eq, hc]; exact Nat.min_le_left _ _
  rw [h.offset hF] at hb
  have hdrop : v.given m count ≤ ((F.drop off.toNat).drop v.cnt).length := hle.trans hb.length_le
  have htake : (bytes b).take (v.given m count) = ((F.drop off.toNat).drop v.cnt).take (v.given m count) := by
    obtain ⟨rest, hrest⟩ := hb
    rw [← hrest, take_append_of_le_length hle]
  have hcnt := h.within
  rw [length_drop] at hdrop
  refine ⟨hat, ?_, ?_⟩
  · show v.cnt + v.given m count ≤ _
    omega
  rw [data_read h.place] at hdata
  cases hdata
  have hx : ((F.drop off.toNat).take v.cnt).length = v.cnt := by
    rw [length_take]
    omega
  have hfit : 0 + ((F.drop off.toNat).take v.cnt).length ≤ buf.length := by
    have := h.place.left
    omega
  have hover := @overwrite_overwrite buf ((F.drop off.toNat).take v.cnt) ((bytes b).take (v.given m count)) 0 hfit
  rw [zero_add, hx] at hover
  show overwrite v.buf v.cnt _ = overwrite buf 0 ((F.drop off.toNat).take (v.cnt + v.given m count))
  rw [h.memory, hover, htake, ← take_add]

theorem Vars.Accepted.next (h : v.Accepted off buf) (hc : count.toNat ≤ v.request m)
    (hat : (v.next m count v.buf .Twrite).At off buf.length) : (v.next m count v.buf .Twrite).Accepted off buf := by
  have hgiven : v.given m count = count.toNat := by rw [given_eq]; exact min_eq_left hc
  have hlen : (contents v.accepted).length = v.cnt := by
    have := h.place.left
    rw [h.data, length_take]
    omega
  have hpiece : ((v.buf.drop v.uba).take (v.request m)).take count.toNat = (buf.drop v.cnt).take count.toNat := by
    rw [take_take, min_eq_left hc, h.memory, h.place.uba]
  refine ⟨hat, h.memory, ?_, ?_⟩
  · show Contiguous off (v.accepted ++ [(v.off, _)])
    rw [h.place.off, ← hlen]
    exact contiguous_append h.contiguous
  · show contents (v.accepted ++ [(v.off, _)]) = buf.take (v.cnt + v.given m count)
    rw [contents, flatMap_append, hgiven, take_add, hpiece, ← h.data]
    simp [contents]

theorem holds_step {P : Vars → Prop} (hP : ∀ v, P v → v.At off len)
    (hnext : ∀ v count b killed buf, P v → v.data m count b type = some buf → (v.next m count buf type).At off len →
      s = .loop v → a = .reply count b killed → P (v.next m count buf type))
    (h : s.Holds P) (hs : mntrdwr type m s a = some s') : s'.Holds P := by
  cases s with
  | returned | raised | faulted => cases hs
  | loop v =>
    cases a with
    | error => cases hs; trivial
    | reply count b killed =>
      obtain ⟨buf, hdata, hat, hor⟩ := mntrdwr_reply (hP v h) hs
      have hv := hnext v count b killed buf h hdata hat rfl rfl
      rcases hor with rfl | ⟨rfl, -⟩ <;> exact hv

end Kept

def Ended : Rdwr → Prop
  | .loop _ => False
  | _ => True

/-! ### Which replies a call takes, and how much they give -/

/-- What is asked for when `left` bytes are left. -/
def asked (m : Msize) (left : Nat) : Nat := min left (m.val - IOHDRSZ)

def gives (m : Msize) (left : Nat) (count : UInt32) : Nat := min count.toNat (asked m left)

/-- A reply of less than was asked for, or of all that is left; or the process was killed. -/
def Last (m : Msize) (left : Nat) (count : UInt32) (killed : Bool) : Prop :=
  count.toNat < asked m left ∨ left = gives m left count ∨ killed = true

/-- The answers are replies, and just the last of them ends the call. -/
def Stops (m : Msize) : Nat → List Answer → Prop
  | _, [] | _, .error :: _ => False
  | left, .reply count _ killed :: ts =>
    (Last m left count killed ∧ ts = []) ∨ (¬ Last m left count killed ∧ Stops m (left - gives m left count) ts)

def total (m : Msize) : Nat → List Answer → Nat
  | _, [] | _, .error :: _ => 0
  | left, .reply count _ _ :: ts => gives m left count + total m (left - gives m left count) ts

section Calls
variable {m : Msize} {off : UInt64} {F buf : Bytes} {len : Nat} {type : Op} {ts : List Answer} {v : Vars} {s s' : Rdwr}

theorem at_start (buf : Bytes) (off : UInt64) : (start buf off).Holds (Vars.At off buf.length) :=
  ⟨rfl, zero_add _, (UInt64.add_zero off).symm, rfl⟩

theorem at_step {a : Answer} (h : s.Holds (Vars.At off len)) (hs : mntrdwr type m s a = some s') :
    s'.Holds (Vars.At off len) :=
  holds_step (fun _ hv => hv) (fun _ _ _ _ _ _ _ hat _ _ => hat) h hs

theorem at_run (h : run (mntrdwr type m) (start buf off) ts = some s) : s.Holds (Vars.At off buf.length) :=
  (always_of_step (fun _ _ _ => at_step) (at_start buf off)).last h

theorem delivered_run (hF : F.length < 2 ^ 63) (hG : Along (mntrdwr .Tread m) (Serves F) (start buf off) ts)
    (h : run (mntrdwr .Tread m) (start buf off) ts = some s) : s.Holds (Vars.Delivered F off buf) := by
  have hstart : (start buf off).Holds (Vars.Delivered F off buf) :=
    ⟨at_start buf off, zero_le, (Buffers.overwrite_nil buf 0).symm⟩
  refine (hG.always (fun s a s' hI hserves hs => ?_) hstart).last h
  refine holds_step (fun _ hv => hv.place) (fun v count b killed buf' hv hdata hat hsv ha => ?_) hI hs
  subst hsv ha
  exact hv.next hF hserves.1 hserves.2 hdata hat

theorem accepted_run (hG : Along (mntrdwr .Twrite m) (Accepts m) (start buf off) ts)
    (h : run (mntrdwr .Twrite m) (start buf off) ts = some s) : s.Holds (Vars.Accepted off buf) := by
  have hstart : (start buf off).Holds (Vars.Accepted off buf) := ⟨at_start buf off, rfl, trivial, rfl⟩
  refine (hG.always (fun s a s' hI haccepts hs => ?_) hstart).last h
  refine holds_step (fun _ hv => hv.place) (fun v count b killed buf' hv hdata hat hsv ha => ?_) hI hs
  subst hsv ha
  cases hdata
  exact hv.next haccepts hat

theorem request_asked (v : Vars) : v.request m = asked m v.n := by unfold Vars.request asked; split <;> omega

theorem turn (h : v.At off len) (count : UInt32) (b : List Block) (killed : Bool) :
    ∃ v' : Vars, v'.At off len ∧ v'.cnt = v.cnt + gives m v.n count ∧ v'.n = v.n - gives m v.n count ∧
      (Last m v.n count killed → mntrdwr type m (.loop v) (.reply count b killed) = some (.returned v')) ∧
      (¬ Last m v.n count killed → mntrdwr type m (.loop v) (.reply count b killed) = some (.loop v')) := by
  obtain ⟨buf, hdata, hlen⟩ := @data_ok m v off len type count b h
  have hgives : v.given m count = gives m v.n count := by rw [given_eq, request_asked, gives]
  have hle : gives m v.n count ≤ asked m v.n := Nat.min_le_right _ _
  have hasked : asked m v.n ≤ v.n := Nat.min_le_left _ _
  have hlast : (v.given m count ≠ v.request m ∨ (v.next m count buf type).n = 0 ∨ killed = true) ↔
      Last m v.n count killed := by
    show (v.given m count ≠ v.request m ∨ v.n - v.given m count = 0 ∨ killed = true) ↔ _
    rw [hgives, request_asked, Last]
    have hshort : gives m v.n count ≠ asked m v.n ↔ count.toNat < asked m v.n := by unfold gives; omega
    rw [hshort, show v.n - gives m v.n count = 0 ↔ v.n = gives m v.n count by omega]
  have hturn : mntrdwr type m (.loop v) (.reply count b killed) =
      if v.given m count ≠ v.request m ∨ (v.next m count buf type).n = 0 ∨ killed = true
      then some (.returned (v.next m count buf type)) else some (.loop (v.next m count buf type)) := by
    unfold mntrdwr
    dsimp only
    rw [hdata]
  refine ⟨v.next m count buf type, h.next buf hlen, ?_, ?_, fun hl => ?_, fun hl => ?_⟩
  · exact congrArg (v.cnt + ·) hgives
  · exact congrArg (v.n - ·) hgives
  · rw [hturn, if_pos (hlast.2 hl)]
  · rw [hturn, if_neg (mt hlast.1 hl)]

theorem run_returned (a : Answer) (ts : List Answer) : run (mntrdwr type m) (.returned v) (a :: ts) = none := rfl

theorem run_raised : run (mntrdwr type m) .raised ts ≠ some (.returned v) := by
  cases ts <;> nofun

theorem stops_loop (h : v.At off len) : ((∃ v', run (mntrdwr type m) (.loop v) ts = some (.returned v')) ↔
      Stops m v.n ts) ∧
    ∀ v', run (mntrdwr type m) (.loop v) ts = some (.returned v') → v'.cnt = v.cnt + total m v.n ts := by
  induction ts generalizing v with
  | nil =>
    refine ⟨⟨?_, False.elim⟩, ?_⟩
    · rintro ⟨v', hv'⟩
      cases hv'
    · intro v' hv'
      cases hv'
  | cons a ts ih =>
    rcases a with ⟨count, b, killed⟩ | _
    · obtain ⟨v₁, hat, hcnt, hn, hend, hgo⟩ := @turn m off len type v h count b killed
      rw [Stops, total]
      by_cases hl : Last m v.n count killed
      · have hrun : run (mntrdwr type m) (.loop v) (.reply count b killed :: ts) =
            run (mntrdwr type m) (.returned v₁) ts := by rw [run, hend hl, Option.bind_some]
        rw [hrun]
        cases ts with
        | nil =>
          refine ⟨⟨fun _ => .inl ⟨hl, rfl⟩, fun _ => ⟨v₁, rfl⟩⟩, fun v' hv' => ?_⟩
          cases hv'
          exact hcnt
        | cons a ts =>
          rw [run_returned]
          refine ⟨⟨?_, ?_⟩, nofun⟩
          · rintro ⟨v', hv'⟩
            cases hv'
          · rintro (⟨-, hnil⟩ | ⟨hno, -⟩)
            · cases hnil
            · exact absurd hl hno
      · have hrun : run (mntrdwr type m) (.loop v) (.reply count b killed :: ts) =
            run (mntrdwr type m) (.loop v₁) ts := by rw [run, hgo hl, Option.bind_some]
        obtain ⟨hiff, htotal⟩ := ih hat
        rw [hn] at hiff htotal
        rw [hrun, hiff]
        refine ⟨⟨fun hs => .inr ⟨hl, hs⟩, ?_⟩, fun v' hv' => ?_⟩
        · rintro (⟨hyes, -⟩ | ⟨-, hs⟩)
          · exact absurd hyes hl
          · exact hs
        · rw [htotal v' hv', hcnt, Nat.add_assoc]
    · refine ⟨⟨?_, False.elim⟩, fun v' hv' => absurd hv' run_raised⟩
      rintro ⟨v', hv'⟩
      exact absurd hv' run_raised

theorem ends_at (answers : Nat → Answer) (h : v.At off len) :
    ∃ k s, run (mntrdwr type m) (.loop v) ((List.range k).map answers) = some s ∧ Ended s := by
  induction hn : v.n using Nat.strong_induction_on generalizing v answers with
  | _ n ih =>
    cases ha : answers 0 with
    | error => exact ⟨1, .raised, by simp [run, mntrdwr, ha], trivial⟩
    | reply count b killed =>
      obtain ⟨buf, hdata, -⟩ := @data_ok m v off len type count b h
      obtain ⟨s₁, hs₁⟩ : ∃ s₁, mntrdwr type m (.loop v) (.reply count b killed) = some s₁ := by
        unfold mntrdwr
        dsimp only
        rw [hdata]
        dsimp only
        split <;> exact ⟨_, rfl⟩
      obtain ⟨buf', -, hat, hor⟩ := mntrdwr_reply h hs₁
      rcases hor with rfl | ⟨rfl, hfull, hmore⟩
      · exact ⟨1, _, run_cons.2 ⟨_, (congrArg _ ha).trans hs₁, rfl⟩, trivial⟩
      have hmore' : v.n - v.given m count ≠ 0 := hmore
      have hpos := @request_pos m v (by omega)
      have hless : (v.next m count buf' type).n < n := by
        show v.n - v.given m count < n
        omega
      obtain ⟨k, s, hrun, hend⟩ := ih _ hless (fun i => answers (i + 1)) hat rfl
      refine ⟨k + 1, s, ?_, hend⟩
      rw [range_succ_eq_map, map_cons, map_map]
      exact run_cons.2 ⟨_, (congrArg _ ha).trans hs₁, hrun⟩

end Calls

/-- For every message size, every number of bytes and every offset. -/
theorem mntrdwr_spec (m : Msize) (buf : Bytes) (off : UInt64) :
    (∀ F ts v, F.length < 2 ^ 63 → Along (mntrdwr .Tread m) (Serves F) (start buf off) ts →
      run (mntrdwr .Tread m) (start buf off) ts = some (.returned v) →
        v.cnt ≤ (F.drop off.toNat).length ∧ v.buf = (F.drop off.toNat).take v.cnt ++ buf.drop v.cnt) ∧
    (∀ ts v, Along (mntrdwr .Twrite m) (Accepts m) (start buf off) ts →
      run (mntrdwr .Twrite m) (start buf off) ts = some (.returned v) →
        Contiguous off v.accepted ∧ contents v.accepted = buf.take v.cnt) ∧
    ∀ type, (∀ answers : Nat → Answer, ∃ k s,
        run (mntrdwr type m) (start buf off) ((List.range k).map answers) = some s ∧ Ended s) ∧
      ∀ ts, run (mntrdwr type m) (start buf off) ts ≠ some .faulted ∧
        ((∃ v, run (mntrdwr type m) (start buf off) ts = some (.returned v)) ↔ Stops m buf.length ts) ∧
        ∀ v, run (mntrdwr type m) (start buf off) ts = some (.returned v) →
          v.cnt = total m buf.length ts ∧ v.cnt ≤ buf.length := by
  refine ⟨fun F ts v hF hG hrun => ?_, fun ts v hG hrun => ?_, fun type => ⟨fun answers => ?_, fun ts => ⟨?_, ?_,
    fun v hrun => ⟨?_, ?_⟩⟩⟩⟩
  · have hd : v.Delivered F off buf := delivered_run hF hG hrun
    have hlen : ((F.drop off.toNat).take v.cnt).length = v.cnt := by
      have := hd.within
      rw [List.length_take]
      omega
    refine ⟨hd.within, ?_⟩
    rw [hd.memory, overwrite, hlen, Nat.zero_add, List.take_zero, List.nil_append]
  · have hacc : v.Accepted off buf := accepted_run hG hrun
    exact ⟨hacc.contiguous, hacc.data⟩
  · exact ends_at answers (at_start buf off)
  · intro hrun
    exact at_run hrun
  · exact (stops_loop (at_start buf off)).1
  · exact ((stops_loop (at_start buf off)).2 v hrun).trans (Nat.zero_add _)
  · have hat : v.At off buf.length := at_run hrun
    have := hat.left
    omega

def msize256 : Msize := ⟨256, by decide, by decide⟩

/-- Two bytes read of a file that ends, and one of two bytes accepted. -/
theorem mntrdwr_spec_two : (∃ v,
    run (mntrdwr .Tread msize256) (start [0, 0, 0] 1) [.reply 2 [⟨[2], 0⟩, ⟨[3], 0⟩] false] =
      some (.returned v) ∧ v.buf = ([1, 2, 3].drop 1).take v.cnt ++ [0, 0, 0].drop v.cnt) ∧
    ∃ v, run (mntrdwr .Twrite msize256) (start [5, 6] 0) [.reply 1 [] false] = some (.returned v) ∧
      Contiguous 0 v.accepted ∧ contents v.accepted = [5, 6].take v.cnt := by
  have hread : run (mntrdwr .Tread msize256) (start [0, 0, 0] 1) [.reply 2 [⟨[2], 0⟩, ⟨[3], 0⟩] false] = some
    (.returned _) := rfl
  have hwrite : run (mntrdwr .Twrite msize256) (start [5, 6] 0) [.reply 1 [] false] = some (.returned _) := rfl
  have hserves : Along (mntrdwr .Tread msize256) (Serves [1, 2, 3]) (start [0, 0, 0] 1)
      [.reply 2 [⟨[2], 0⟩, ⟨[3], 0⟩] false] :=
    fun s' _ => ⟨⟨⟨[], rfl⟩, rfl⟩, trivial⟩
  have haccepts : Along (mntrdwr .Twrite msize256) (Accepts msize256) (start [5, 6] 0) [.reply 1 [] false] :=
    fun s' _ => ⟨show 1 ≤ 2 by decide, trivial⟩
  refine ⟨⟨_, hread, ?_⟩, ⟨_, hwrite, ?_⟩⟩
  · exact ((mntrdwr_spec msize256 [0, 0, 0] 1).1 [1, 2, 3] _ _ (by decide) hserves hread).2
  · exact (mntrdwr_spec msize256 [5, 6] 0).2.1 _ _ haccepts hwrite

end Node9.MntRdwr
