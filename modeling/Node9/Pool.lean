import Node9.Lib.PtrTree
import Node9.Lib.Ring
import Node9.Lib.Steps

/-!
# The pool allocator (`alloc.c`, `pool.h`)

A pool has arenas, and an arena is cut into blocks. A block begins with a header (`Bhdr`) and ends with a pointer back
to it (`Btail`). Free blocks are in a search tree on their sizes, and those of one size in a ring, of which one is in
the tree. Here every field of the headers is a map from the addresses of the blocks, and `tail` one from the address
at which a block ends. `fwd` and `prev` are the links of `ring`. A block is its own address, from which the pointer
that the caller has is 16 bytes away (`B2D`).

The pools have `quanta` MQUANTA. Sizes stay below 2^31, so that `int` and `ulong` hold them alike: `dopoolalloc`
refuses from 2^30 on, and an arena is no larger than `maxsize`. `got` keeps account of what `sbrk` has given. The
monitor and the pointer of the garbage collector are left out.
-/

namespace Node9.Pool
open PtrTree Intrusive Function

def MQUANTA : Nat := 63

/-- `ldr = p->quanta+1`, the size of a leader, and of the end mark. -/
def ldr : Nat := MQUANTA + 1

def BHDRSIZE : Nat := 24

/-- `~p->quanta` masks the rest. -/
def quantize (n : Nat) : Nat := n / ldr * ldr

inductive Magic
  | A
  | F
  | E
  | I
  | zero
deriving DecidableEq

structure St where
  tree : Ptrs Nat
  ring : Links Nat
  magic : Nat → Magic
  size : Nat → Nat
  tail : Nat → Nat
  data : Nat → List UInt8
  clink : Nat → Option Nat
  csize : Nat → Nat
  chain : Option Nat
  maxsize : Nat
  ressize : Nat
  chunk : Nat
  cursize : Nat
  arenasize : Nat
  hw : Nat
  nalloc : Nat
  nfree : Nat
  nbrk : Nat
  lastfree : Nat
  /-- there is a hook `move` -/
  move : Bool
  /-- the calls of `move` -/
  moved : List (Nat × Nat)
  got : List (Nat × Nat)

def St.setMagic (s : St) (b : Nat) (v : Magic) : St := { s with magic := update s.magic b v }

def St.setSize (s : St) (b v : Nat) : St := { s with size := update s.size b v }

/-- `B2T(b)->hdr = b` -/
def St.setTail (s : St) (b : Nat) : St := { s with tail := update s.tail (b + s.size b) b }

/-- `B2NB(b)` -/
def St.nb (s : St) (b : Nat) : Nat := b + s.size b

/-- `B2LIMIT(b)` -/
def St.limit (s : St) (b : Nat) : Nat := b + s.csize b

def St.fuel (s : St) : Nat := s.arenasize

/-- What `pooldel` does with a node that no other block can stand in for. -/
def unlink (n t : Nat) (m : Ptrs Nat) : Ptrs Nat :=
  let q := m.parent t
  match m.left t, m.right t with
  | none, rp => (m.relink q t rp).adopt rp q
  | some l, none => (m.relink q t (some l)).adopt (some l) q
  | some l, some r =>
    let (f, rp) := leftmost m n t r
    let m :=
      if f = t then m
      else
        let s := m.right rp
        let m := (m.setLeft f s).adopt s (some f)
        let s := m.right t
        (m.setRight rp s).adopt s (some rp)
    let m := (m.setLeft rp (some l)).setParent l (some rp)
    (m.relink q t (some rp)).setParent rp q

def pooldel (t : Nat) (s : St) : St :=
  let m := s.tree
  if m.parent t = none ∧ m.root ≠ some t then { s with ring := remove s.ring t }
  else
    let f := s.ring.next t
    if f ≠ t then
      let m := (m.setParent f (m.parent t)).relink (m.parent t) t (some f)
      let m := (m.setLeft f (m.left t)).adopt (m.left t) (some f)
      let m := (m.setRight f (m.right t)).adopt (m.right t) (some f)
      { s with tree := m, ring := remove s.ring t }
    else { s with tree := unlink s.fuel t m }

/-- The loop of `pooladd`: the block of this size in the tree, or the one to hang it on. -/
def place (s : St) (size : Nat) : Nat → Nat → Nat
  | 0, t => t
  | n + 1, t =>
    if size = s.size t then t
    else
      match if size < s.size t then s.tree.left t else s.tree.right t with
      | none => t
      | some t => place s size n t

/-- `pooladd` after the first stores. -/
def hang (q : Nat) (s : St) : St :=
  match s.tree.root with
  | none => { s with tree := { s.tree with root := some q } }
  | some r =>
    let t := place s (s.size q) s.fuel r
    if s.size q = s.size t then { s with ring := insertTail s.ring t q }
    else
      let m := s.tree.setParent q (some t)
      { s with tree := if s.size q < s.size t then m.setLeft t (some q) else m.setRight t (some q) }

def pooladd (q : Nat) (s : St) : St :=
  let s := s.setMagic q .F
  hang q { s with tree := ((s.tree.setLeft q none).setRight q none).setParent q none, ring := init s.ring q }

/-- The loop of `dopoolalloc`: a block of this size, or the smallest that is larger. -/
def search (s : St) (size : Nat) : Nat → Option Nat → Option Nat → Option Nat
  | 0, _, q => q
  | _ + 1, none, q => q
  | n + 1, some t, q =>
    if s.size t = size then some t
    else if size < s.size t then search s size n (s.tree.left t) (some t)
    else search s size n (s.tree.right t) q

def joinNext (b : Nat) (s : St) : St :=
  let c := s.nb b
  if s.magic c = .F then
    let s := (pooldel c s).setMagic c .zero
    (s.setSize b (s.size b + s.size c)).setTail b
  else s

def joinPrev (b : Nat) (s : St) : Nat × St :=
  let c := s.tail b
  if s.magic c = .F then
    let s := (pooldel c s).setMagic b .zero
    (c, (s.setSize c (s.size c + s.size b)).setTail c)
  else (b, s)

def poolfree (b : Nat) (s : St) : St :=
  let s := { s with nfree := s.nfree + 1, cursize := s.cursize - s.size b }
  let (b, s) := joinPrev b (joinNext b s)
  pooladd b s

/-- `memmove(end, ptr, ptr->size)`, and the hook. -/
def moveBlock (ptr fin : Nat) (s : St) : St :=
  { s with
    magic := update s.magic fin (s.magic ptr)
    size := update s.size fin (s.size ptr)
    tail := update s.tail (fin + s.size ptr) (s.tail (ptr + s.size ptr))
    data := update s.data fin (s.data ptr)
    moved := (ptr, fin) :: s.moved }

/-- The leftover of an arena. It is never too small, as all sizes are multiples of `ldr`. -/
def leftover (limit fin : Nat) (s : St) : St :=
  if 0 < limit - fin then pooladd fin ((s.setSize fin (limit - fin)).setTail fin) else s

/-- The loop of `poolcompact`. `fin` is `end`. -/
def compact : Nat → Nat → Nat → Nat → Nat → Bool → St → Bool × St
  | 0, _, _, _, _, compacted, s => (compacted, s)
  | n + 1, base, limit, ptr, fin, compacted, s =>
    let next := s.nb ptr
    let live := s.magic ptr = .A ∨ s.magic ptr = .I
    let compacted := if live ∧ ptr ≠ fin then true else compacted
    let s := if live ∧ ptr ≠ fin then moveBlock ptr fin s else s
    let fin := if live then s.nb fin else fin
    if limit ≤ next then
      let s := leftover limit fin s
      match s.clink base with
      | none => (compacted, s)
      | some base => compact n base (s.limit base) (s.nb base) (s.nb base) compacted s
    else compact n base limit next fin compacted s

def poolcompact (s : St) : Bool × St :=
  if s.move = false ∨ s.lastfree = s.nfree then (false, s)
  else
    let s := { s with lastfree := s.nfree }
    match s.chain with
    | none => (false, s)
    | some base =>
      compact s.fuel base (s.limit base) (s.nb base) (s.nb base) false { s with tree := { s.tree with root := none } }

def take (b : Nat) (s : St) : St :=
  let s := { s with cursize := s.cursize + s.size b }
  { s with hw := max s.hw s.cursize }

/-- `dopoolalloc` when the tree has a block that is large enough. -/
def fromTree (size : Nat) (s : St) : Option (Nat × St) :=
  match search s size s.fuel s.tree.root none with
  | none => none
  | some t =>
    if s.size t = size then
      let t := s.ring.next t
      some (t, take t ((pooldel t s).setMagic t .A))
    else
      let s := (pooldel t s).setMagic t .A
      let frag := s.size t - size
      if frag < size / 4 ∧ frag < 0x8000 then some (t, take t s)
      else
        let s := (s.setSize t size).setTail t
        let r := s.nb t
        let s := (s.setSize r frag).setTail r
        some (t, take t (pooladd r s))

inductive Growth
  | failed
  | merged (q : Nat)
  | arena (t : Nat)

/-- `(t + 7) & ~7` -/
def align (t : Nat) : Nat := (t + 7) / 8 * 8

/-- The leader of a new arena, and the block that is asked for. -/
def lead (t size ns : Nat) (s : St) : St :=
  let s := (s.setMagic t .E).setSize t ldr
  let s := { s with
    csize := update s.csize t (ns + ldr)
    clink := update s.clink t s.chain
    chain := some t }
  let s := s.setTail t
  let b := s.nb t
  ((s.setMagic b .A).setSize b size).setTail b

/-- A new arena at `t`. The rest of it is freed, and its end marked. -/
def newArena (t size ns : Nat) (s : St) : Nat × St :=
  let s := lead t size ns s
  let b := s.nb t
  let (q, s) :=
    if 0 < ns - size then
      let q := s.nb b
      (q, pooladd q ((s.setSize q (ns - size)).setTail q))
    else (b, s)
  (b, take b (s.setMagic (s.nb q) .E))

/-- The old end mark of the arena at `c` becomes a block that reaches to the new one. -/
def merge (c alloc : Nat) (s : St) : Nat × St :=
  let q := s.limit c
  let s := ((s.setMagic q .A).setSize q alloc).setTail q
  let s := s.setMagic (s.nb q) .E
  (q, { s with csize := update s.csize c (s.csize c + alloc), cursize := s.cursize + alloc })

/-- `sbrk k n` is the result of the call number `k` for `n` bytes. -/
def grow (sbrk : Nat → Nat → Option Nat) (size ns : Nat) (s : St) : Growth × St :=
  let alloc := ns + ldr + ldr
  let s := { s with arenasize := s.arenasize + alloc, nbrk := s.nbrk + 1 }
  match sbrk s.nbrk alloc with
  | none => (.failed, { s with nbrk := s.nbrk - 1 })
  | some t =>
    let s := { s with got := (t, alloc) :: s.got }
    let t := align t
    match s.chain with
    | none => let (b, s) := newArena t size ns s; (.arena b, s)
    | some c =>
      if t = s.limit c + ldr then let (q, s) := merge c alloc s; (.merged q, s)
      else let (b, s) := newArena t size ns s; (.arena b, s)

/-- What is left for an arena below `maxsize`. -/
def room (s : St) : Nat := quantize (s.maxsize - s.arenasize - ldr - ldr)

/-- Without enough fuel for its calls of `poolalloc` there is no result. `restricted` says that the process may not
go beyond `ressize`. -/
def dopoolalloc (sbrk : Nat → Nat → Option Nat) (restricted : Bool) : Nat → Nat → St → Option (Option Nat × St)
  | 0, _, _ => none
  | n + 1, asize, s =>
    if 2 ^ 30 ≤ asize then some (none, s)
    else
      let size := quantize (asize + BHDRSIZE + MQUANTA)
      let s := { s with nalloc := s.nalloc + 1 }
      match fromTree size s with
      | some (q, s) => some (some q, s)
      | none =>
        let ns := max s.chunk size
        let full := s.maxsize < s.arenasize + (ns + ldr + ldr)
        if full ∧ room s < size then
          match poolcompact s with
          | (false, s) => some (none, s)
          | (true, s) =>
            if s.ressize < s.cursize ∧ restricted then some (none, s) else dopoolalloc sbrk restricted n asize s
        else
          match grow sbrk size (if full then room s else ns) s with
          | (.failed, s) => some (none, s)
          | (.arena b, s) => some (some b, s)
          | (.merged q, s) =>
            let s := poolfree q s
            if s.ressize < s.cursize ∧ restricted then some (none, s) else dopoolalloc sbrk restricted n asize s

def poolalloc (sbrk : Nat → Nat → Option Nat) (restricted : Bool) (n asize : Nat) (s : St) :
    Option (Option Nat × St) :=
  if s.ressize < s.cursize ∧ restricted then some (none, s) else dopoolalloc sbrk restricted n asize s

/-- A null pointer cannot be freed. -/
def poolrealloc (sbrk : Nat → Nat → Option Nat) (restricted : Bool) (n : Nat) (v : Option Nat) (size : Nat) (s : St) :
    Option (Option Nat × St) :=
  if 2 ^ 30 ≤ size then some (none, s)
  else if size = 0 then v.map fun b => (none, poolfree b s)
  else
    match v with
    | none => poolalloc sbrk restricted n size s
    | some b =>
      let osize := s.size b - BHDRSIZE
      if size ≤ osize then some (some b, s)
      else
        match poolalloc sbrk restricted n size s with
        | none => none
        | some (none, s) => some (none, s)
        | some (some c, s) =>
          let s := { s with data := update s.data c ((s.data b).take osize ++ (s.data c).drop osize) }
          some (some c, poolfree b s)

end Node9.Pool
