import Node9.Lib.Buf

/-!
# Byte buffers (`node9.c`, "Buffer Management Functions")

A buffer's `content` is a block of memory with the address it came from; `next` is an address that no block
has had, and `freed` lists the blocks that were given to `free`. An operation faults when it touches memory
outside `content`, at or beyond `alloc`, or through a pointer to a block that was freed. `bbFail` exits
(`bbdebug` is 1), so the result of an operation, always `TRUE`, is left out. A loop gets the number of turns
it may take, and is still `running` when they are used up.
-/

namespace Node9.Buffers
open Buf

def DEFAULTALLOC : UInt32 := 1024

structure Block where
  addr : Nat
  bytes : Bytes
  deriving DecidableEq

structure Bytebuffer where
  /-- fail if an attempt is made to extend this buffer -/
  nonextendible : Bool
  alloc : UInt32
  length : UInt32
  content : Option Block
  deriving DecidableEq

namespace Bytebuffer

def cells (b : Bytebuffer) : Bytes :=
  match b.content with
  | some k => k.bytes
  | none => []

def contents (b : Bytebuffer) : Bytes := b.cells.take b.length.toNat

def setCells (b : Bytebuffer) (bytes : Bytes) : Bytebuffer :=
  { b with content := b.content.map fun k => { k with bytes } }

/-- The `n` cells from `i` on are within `content` and below `alloc`. -/
def Within (b : Bytebuffer) (i : Int) (n : Nat) : Prop :=
  0 ≤ i ∧ i + n ≤ b.alloc.toNat ∧ i + n ≤ b.cells.length

instance (b : Bytebuffer) (i : Int) (n : Nat) : Decidable (b.Within i n) := by unfold Within; infer_instance

end Bytebuffer

structure State where
  bb : Bytebuffer
  next : Nat
  freed : List Nat
  deriving DecidableEq

inductive Out (α : Type)
  | ok (a : α) (s : State)
  | exit
  | fault
  | running

def BB (α : Type) : Type := State → Out α

instance : Monad BB where
  pure a := fun s => .ok a s
  bind m k := fun s =>
    match m s with
    | .ok a s => k a s
    | .exit => .exit
    | .fault => .fault
    | .running => .running

def buffer : BB Bytebuffer := fun s => .ok s.bb s

def modify (f : Bytebuffer → Bytebuffer) : BB Unit := fun s => .ok () { s with bb := f s.bb }

def bbFail : BB Unit := fun _ => .exit

def stillRunning : BB Unit := fun _ => .running

/-- `n` bytes of the memory behind a pointer. -/
def fetch (bytes : Bytes) (n : Nat) : BB Bytes := fun s => if n ≤ bytes.length then .ok (bytes.take n) s else .fault

/-- The `n` bytes of `content` from `i` on. -/
def load (i : Int) (n : Nat) : BB Bytes := fun s =>
  if n = 0 ∨ s.bb.Within i n then .ok ((s.bb.cells.drop i.toNat).take n) s else .fault

def overwrite (bytes : Bytes) (i : Nat) (xs : Bytes) : Bytes := bytes.take i ++ xs ++ bytes.drop (i + xs.length)

/-- `memcpy` to `content + i`. -/
def store (i : Int) (xs : Bytes) : BB Unit := fun s =>
  if xs = [] then .ok () s
  else if s.bb.Within i xs.length then
    .ok () { s with bb := s.bb.setCells (overwrite s.bb.cells i.toNat xs) }
  else .fault

/-- What becomes of the new block: the old contents are copied if there are any. -/
def Bytebuffer.copied (b : Bytebuffer) (sz : UInt32) : Option Bytes :=
  let newcontent := List.replicate sz.toNat (0 : UInt8)
  if b.alloc > 0 ∧ b.length > 0 ∧ b.content.isSome then
    if b.Within 0 b.length.toNat ∧ b.length ≤ sz then some (overwrite newcontent 0 b.contents) else none
  else some newcontent

/-- `chkfree` of the old block. -/
def State.freeContent (s : State) : State :=
  match s.bb.content with
  | some k => { s with freed := k.addr :: s.freed }
  | none => s

/-- From `newcontent=(char*)chkcalloc(sz,sizeof(char))` on. -/
def realloc (sz : UInt32) : BB Unit := fun s =>
  match s.bb.copied sz with
  | none => .fault
  | some bytes =>
    .ok () { s.freeContent with
      bb := { s.bb with content := some ⟨s.next, bytes⟩, alloc := sz }, next := s.next + 1 }

def bbNew : Bytebuffer := ⟨false, 0, 0, none⟩

/-- `sz` when `bbSetalloc` is asked for 0. -/
def doubled (alloc : UInt32) : UInt32 := if alloc ≠ 0 then 2 * alloc else DEFAULTALLOC

def bbSetalloc (sz0 : UInt32) : BB Unit := do
  let bb ← buffer
  if sz0 = 0 then realloc (doubled bb.alloc)
  else if bb.alloc ≥ sz0 then pure ()
  else if bb.nonextendible then bbFail
  else realloc sz0

def bbFree : BB Unit := fun s => .ok () s.freeContent

def bbSetlength (sz : UInt32) : BB Unit := do
  let bb ← buffer
  if bb.length < sz then bbSetalloc sz
  modify fun bb => { bb with length := sz }

def bbFill (fill : UInt8) : BB Unit := do
  let bb ← buffer
  store 0 (List.replicate bb.length.toNat fill)

/-- `while(full) bbSetalloc(bb,0)` -/
def grow (full : Bytebuffer → Bool) : Nat → BB Unit
  | 0 => do
    let bb ← buffer
    if full bb then stillRunning
  | turns + 1 => do
    let bb ← buffer
    if full bb then
      bbSetalloc 0
      grow full turns

def noSpace (bb : Bytebuffer) : Bool := bb.length + 1 ≥ bb.alloc

def bbAppend (turns : Nat) (elem : UInt8) : BB Unit := do
  grow noSpace turns
  let bb ← buffer
  store bb.length.toNat [elem]
  modify fun bb => { bb with length := bb.length + 1 }
  store (bb.length + 1).toNat [0]

def bbNull (turns : Nat) : BB Unit := do
  bbAppend turns 0
  modify fun bb => { bb with length := bb.length - 1 }

/-- Where the bytes to append are: in memory of the caller, or in the block with this address. -/
inductive Elem
  | mem (bytes : Bytes)
  | block (addr : Nat)

/-- The memory behind the pointer; nothing when its block is not the content any more. -/
def Elem.bytes (bb : Bytebuffer) : Elem → Bytes
  | .mem bytes => bytes
  | .block addr =>
    match bb.content with
    | some k => if k.addr = addr then k.bytes else []
    | none => []

def strlen (s : Bytes) : Nat := (s.takeWhile (· ≠ 0)).length

def bbNeed (bb : Bytebuffer) (n : UInt32) : Bool := bb.alloc - bb.length > n

def bbAppendn (turns : Nat) (elem : Elem) (n0 : UInt32) : BB Unit := do
  let bb ← buffer
  let n := if n0 = 0 then UInt32.ofNat (strlen (elem.bytes bb)) else n0
  grow (fun bb => !bbNeed bb (n + 1)) turns
  let bb ← buffer
  let e ← fetch (elem.bytes bb) n.toNat
  store bb.length.toNat e
  modify fun bb => { bb with length := bb.length + n }
  store (bb.length + n).toNat [0]

/-- `s` is the memory with a string and its null. -/
def bbCat (turns : Nat) (s : Bytes) : BB Unit := do
  bbAppendn turns (.mem s) (UInt32.ofNat (strlen s + 1))
  let bb ← buffer
  if bb.length = 0 then bbFail
  else modify fun bb => { bb with length := bb.length - 1 }

/-- The buffer whose contents are appended: another one, or the buffer itself. -/
inductive Source
  | other (s : Bytebuffer)
  | self

def Source.get (bb : Bytebuffer) : Source → Bytebuffer
  | .other s => s
  | .self => bb

def bbContents (bb : Bytebuffer) : Source → Elem
  | .other s => .mem (if s.content.isSome then s.cells else [0])
  | .self =>
    match bb.content with
    | some k => .block k.addr
    | none => .mem [0]

def bbCatbuf (turns : Nat) (s : Source) : BB Unit := do
  let bb ← buffer
  if (s.get bb).length > 0 then bbAppendn turns (bbContents bb s) (s.get bb).length
  bbNull turns

/-- The loop of `bbInsertn`, in which `j` stays what it is. -/
def shift (j : Int) (n : UInt32) : Nat → BB Unit
  | 0 => pure ()
  | count + 1 => do
    let x ← load (UInt32.ofInt j - n).toNat 1
    store j x
    shift j n count

def bbInsertn (index : UInt32) (elem : Bytes) (n : UInt32) : BB Unit := do
  let bb ← buffer
  let newlen := bb.length + n
  if newlen ≥ bb.alloc then bbSetalloc (n + bb.alloc)
  shift (newlen - 1).toInt32.toInt n (bb.length.toNat - index.toNat)
  let e ← fetch elem n.toNat
  store index.toNat e
  modify fun bb => { bb with length := bb.length + n }

/-- `junk` is what is in `tmp[1]`. -/
def bbInsert (index : UInt32) (elem junk : UInt8) : BB Unit := bbInsertn index [elem, junk] 1

def bbHeadpop : BB Bytes := do
  let bb ← buffer
  if bb.length = 0 then bbFail
  let pelem ← load 0 1
  let tail ← load 1 (bb.length.toNat - 1)
  store 0 tail
  modify fun bb => { bb with length := bb.length - 1 }
  pure pelem

def bbTailpop : BB Bytes := do
  let bb ← buffer
  if bb.length = 0 then bbFail
  let pelem ← load (bb.length - 1).toNat 1
  modify fun bb => { bb with length := bb.length - 1 }
  pure pelem

def bbSetcontents (contents : Block) (alloc : UInt32) : BB Unit := fun s =>
  let s := if s.bb.nonextendible then s else s.freeContent
  .ok () { s with bb := ⟨true, alloc, 0, some contents⟩, next := max s.next (contents.addr + 1) }

/-! ### The system calls that fill a buffer

`req` is the request union: `read`, `readn`, `pread` and `pwrite` have their `ret`, `buf` and `n` at the same
places, so a field set through the wrong member is the right one. -/

/-- What the kernel returns for a read: -1, or bytes, of which it gives as many as were asked for. -/
def kread (r : Option Bytes) (off : Nat) (n : Int) : BB Int := do
  if n < 0 then pure (-1)
  else
    match r with
    | none => pure (-1)
    | some data =>
      store off (data.take n.toNat)
      pure (data.take n.toNat).length

def kwrite (r : Option Nat) (n : Int) : BB Int := do
  if n < 0 then pure (-1)
  else
    let _ ← load 0 n.toNat
    match r with
    | none => pure (-1)
    | some m => pure (min m n.toNat)

/-- `if(n > alloc) n = alloc`, where `n` is not negative. -/
def clip (bb : Bytebuffer) (n : Int) : Int := if n > bb.alloc.toNat then bb.alloc.toInt32.toInt else n

def setLength (ret : Int) : BB Unit := modify fun bb => { bb with length := UInt32.ofInt ret }

def Sys_read (nbytes : Int32) (r : Option Bytes) : BB Int := do
  let n := nbytes.toInt
  if n < 0 then pure 0
  else
    let bb ← buffer
    let ret ← kread r 0 (clip bb n)
    setLength ret
    pure ret

/-- `for (t = 0; t < n; t += m)` from `t` on, where `fuel` is at least `n - t`. -/
def readnLoop (r : Nat → Option Bytes) (n : Int) : Nat → Nat → BB Int
  | 0, t => pure t
  | fuel + 1, t => do
    if (t : Int) < n then
      let m ← kread (r t) t (n - t)
      if m ≤ 0 then pure (if t = 0 then m else t) else readnLoop r n fuel (t + m.toNat)
    else pure t

/-- `r t` is the kernel's answer to the read at `t`. -/
def Sys_readn (nbytes : Int32) (r : Nat → Option Bytes) : BB Int := do
  let n := nbytes.toInt
  if n < 0 then pure 0
  else
    let bb ← buffer
    let ret ← readnLoop r (clip bb n) (clip bb n).toNat 0
    setLength ret
    pure ret

/-- At an offset in the file that only the kernel looks at. -/
def Sys_pread (nbytes : Int32) (r : Option Bytes) : BB Int := Sys_read nbytes r

def Sys_pwrite (nbytes : Int32) (r : Option Nat) : BB Int := do
  let n := nbytes.toInt
  if n < 0 then pure 0
  else
    let bb ← buffer
    let ret ← kwrite r (clip bb n)
    setLength ret
    pure ret

end Node9.Buffers
