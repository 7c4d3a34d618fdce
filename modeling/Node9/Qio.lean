import Node9.Lib.Buf

/-!
# Block lists (`qio.c`)

A list of blocks is the blocks from its first one on, and nil is the empty list. `allocb` gives a block with an
address that no block has had, and is taken to succeed unless the size is negative; `freed` lists the blocks that
were given to `freeb`. An operation faults when it follows a nil pointer or writes behind `lim`.

A block holds less than 2^31 bytes, as the size of `allocb` is an `int`.
-/

namespace Node9.Qio
open Buf List

structure Block where
  addr : Nat
  /-- `rp - base` -/
  front : Nat
  /-- From `rp` to `wp`. -/
  data : Bytes
  /-- `lim - wp` -/
  room : Nat
deriving DecidableEq

namespace Block

def BLEN (b : Block) : Nat := b.data.length

def BALLOC (b : Block) : Nat := b.front + b.data.length + b.room

/-- `b->rp += n` -/
def skip (b : Block) (n : Nat) : Block := { b with front := b.front + n, data := b.data.drop n }

end Block

def bytes (bp : List Block) : Bytes := bp.flatMap Block.data

/-- The bytes in all blocks together. -/
def total (bp : List Block) : Nat := (bytes bp).length

structure Heap where
  next : Nat
  freed : List Nat
deriving DecidableEq

/-- `none` is a fault. -/
def QM (α : Type) : Type := Heap → Option (α × Heap)

instance : Monad QM where
  pure a := fun h => some (a, h)
  bind m k := fun h => (m h).bind fun r => k r.1 r.2

def fault {α : Type} : QM α := fun _ => none

/-- With a negative size the header is cleared behind the end of what was allocated. -/
def allocb (size : Int) : QM Block := fun h =>
  if size < 0 then none else some (⟨h.next, 0, [], size.toNat⟩, { h with next := h.next + 1 })

def freeb (b : Block) : QM Unit := fun h => some ((), { h with freed := b.addr :: h.freed })

def freeblist : List Block → QM Unit
  | [] => pure ()
  | b :: bs => do
    freeb b
    freeblist bs

/-- `memmove` to `b->wp`, and `b->wp += n`. -/
def Block.put (b : Block) (xs : Bytes) : QM Block := fun h =>
  if xs.length ≤ b.room then some ({ b with data := b.data ++ xs, room := b.room - xs.length }, h) else none

/-- Copy bytes from the trailing blocks into the first. -/
def pullupLoop (bp : Block) (n : Int) : List Block → QM (List Block)
  | [] => do
    freeblist [bp]
    pure []
  | nbp :: rest => do
    let i : Int := nbp.BLEN
    if i > n then
      let bp ← bp.put (nbp.data.take n.toNat)
      pure (bp :: nbp.skip n.toNat :: rest)
    else
      let bp ← bp.put nbp.data
      freeb nbp
      if n - i = 0 then pure (bp :: rest) else pullupLoop bp (n - i) rest

def pullupblock (bp : List Block) (n : Int) : QM (List Block) :=
  match bp with
  | [] => fault
  | bp :: rest =>
    if (bp.BLEN : Int) ≥ n then pure (bp :: rest)
    -- not enough room in the first block: another one is added to the front
    else if ((bp.BLEN + bp.room : Nat) : Int) < n then do
      let nbp ← allocb n
      pullupLoop nbp (n - nbp.BLEN) (bp :: rest)
    else pullupLoop bp (n - bp.BLEN) rest

/-- The list of a queue, and the address of the last block. -/
structure Ends where
  bfirst : List Block
  blast : Option Nat

def last (bp : List Block) : Option Nat := bp.getLast?.map Block.addr

def pullupqueue (q : Ends) (n : Int) : QM (List Block × Ends) :=
  match q.bfirst with
  | [] => fault
  | b :: _ =>
    if (b.BLEN : Int) ≥ n then pure (q.bfirst, q)
    else do
      let bfirst ← pullupblock q.bfirst n
      pure (bfirst, ⟨bfirst, last bfirst⟩)

/-! ### What the pieces do -/

section Monad
variable {α β : Type} {h h' : Heap}

theorem bind_some {m : QM α} {a : α} (hm : m h = some (a, h')) (k : α → QM β) : (m >>= k) h = k a h' := by
  dsimp only [bind]
  rw [hm]
  rfl

theorem bind_none {m : QM α} (hm : m h = none) (k : α → QM β) : (m >>= k) h = none := by
  dsimp only [bind]
  rw [hm]
  rfl

@[simp] theorem pure_apply (a : α) : (pure a : QM α) h = some (a, h) := rfl

theorem put_ok {b : Block} {xs : Bytes} (hxs : xs.length ≤ b.room) :
    b.put xs h = some ({ b with data := b.data ++ xs, room := b.room - xs.length }, h) := if_pos hxs

theorem allocb_ok {size : Int} (hs : 0 ≤ size) :
    allocb size h = some (⟨h.next, 0, [], size.toNat⟩, { h with next := h.next + 1 }) := if_neg (by omega)

end Monad

section Bytes
variable {b : Block} {bp bs : List Block}

@[simp] theorem bytes_nil : bytes [] = [] := rfl

@[simp] theorem bytes_cons : bytes (b :: bp) = b.data ++ bytes bp := rfl

@[simp] theorem total_nil : total [] = 0 := rfl

@[simp] theorem total_cons : total (b :: bp) = b.BLEN + total bp := length_append

theorem bytes_skip (n : Nat) : b.data.take n ++ (b.skip n).data = b.data := take_append_drop n b.data

end Bytes

/-! ### The blocks that were freed -/

def addrs (bp : List Block) : List Nat := bp.map Block.addr

/-- The blocks that are left and those that were freed are the blocks there were and those that are new, each once. -/
def Accounts (bp : List Block) (h : Heap) (r : List Block) (h' : Heap) : Prop :=
  h.next ≤ h'.next ∧
    (addrs r ++ h'.freed).Perm (addrs bp ++ List.range' h.next (h'.next - h.next) ++ h.freed)

namespace Accounts
variable {b c : Block} {bp bp' r : List Block} {h h' h'' : Heap}

theorem refl (h : Heap) (hr : addrs r = addrs bp) : Accounts bp h r h := by
  refine ⟨le_rfl, ?_⟩
  rw [hr, tsub_self, range'_zero, append_nil]

theorem drain (hc : c.addr = b.addr) (d : Block) (h' : Accounts (c :: bp) { h with freed := d.addr :: h.freed } r h'') :
    Accounts (b :: d :: bp) h r h'' := by
  refine ⟨h'.1, h'.2.trans ?_⟩
  simp only [addrs, map_cons, hc, cons_append, append_assoc]
  refine .cons _ ?_
  rw [← append_assoc, ← append_assoc]
  exact perm_middle

theorem front (hc : c.addr = h.next) (h' : Accounts (c :: bp) { h with next := h.next + 1 } r h'') :
    Accounts bp h r h'' := by
  obtain ⟨hle, hp⟩ := h'
  have hle' : h.next + 1 ≤ h''.next := hle
  refine ⟨by omega, hp.trans ?_⟩
  have hsub : h''.next - h.next = (h''.next - (h.next + 1)) + 1 := by omega
  rw [hsub, range'_succ]
  simp only [addrs, map_cons, hc, cons_append, append_assoc]
  exact perm_middle.symm

end Accounts

/-! ### `pullupblock` keeps the bytes -/

/-- What there is to show of `r`, made of `bp` for `n` bytes, of which the first block had less. -/
structure PulledUp (bp : List Block) (n : Int) (h : Heap) (r : List Block) (h' : Heap) : Prop where
  accounts : Accounts bp h r h'
  short : (total bp : Int) < n → r = []
  enough : n ≤ total bp → ∃ c cs, r = c :: cs ∧ bytes r = bytes bp ∧ (c.BLEN : Int) = n

theorem pullupLoop_spec {b : Block} {n : Int} (hn : 0 < n) (hroom : n ≤ b.room) (rest : List Block) (h : Heap) :
    ∃ r h', pullupLoop b n rest h = some (r, h') ∧ PulledUp (b :: rest) (b.BLEN + n) h r h' := by
  induction rest generalizing b n h with
  | nil =>
    refine ⟨[], { h with freed := b.addr :: h.freed }, rfl, ⟨le_rfl, ?_⟩, fun _ => rfl, fun hle => ?_⟩
    · simp [addrs]
    · simp only [total_cons, total_nil, add_zero] at hle
      omega
  | cons c rest ih =>
    unfold pullupLoop
    by_cases hgt : (c.BLEN : Int) > n
    · have htake : (c.data.take n.toNat).length = n.toNat := by
        simp only [Block.BLEN] at hgt
        rw [length_take]
        omega
      simp only [if_pos hgt]
      rw [bind_some (put_ok (by omega))]
      refine ⟨_, _, rfl, .refl h rfl, fun hlt => ?_, fun _ => ⟨_, _, rfl, ?_, ?_⟩⟩
      · simp only [total_cons] at hlt
        omega
      · simp only [bytes_cons, append_assoc]
        rw [← append_assoc (c.data.take n.toNat), bytes_skip]
      · simp only [Block.BLEN, length_append, htake]
        omega
    simp only [if_neg hgt]
    have hle : (c.data.length : Int) ≤ n := Int.not_lt.1 hgt
    rw [bind_some (put_ok (by omega)), bind_some rfl]
    by_cases hz : n - (c.BLEN : Int) = 0
    · simp only [if_pos hz]
      refine ⟨_, _, rfl, .drain rfl c (.refl _ rfl), fun hlt => ?_, fun _ => ⟨_, _, rfl, ?_, ?_⟩⟩
      · simp only [total_cons] at hlt
        omega
      · simp only [bytes_cons, append_assoc]
      · simp only [Block.BLEN, length_append] at hz ⊢
        omega
    simp only [if_neg hz]
    obtain ⟨r, h', hrun, hp⟩ := ih (b := { b with data := b.data ++ c.data, room := b.room - c.data.length })
      (n := n - c.BLEN) (by simp only [Block.BLEN] at hz ⊢; omega) (by simp only [Block.BLEN]; omega)
      { h with freed := c.addr :: h.freed }
    refine ⟨r, h', hrun, .drain rfl c hp.accounts, fun hlt => hp.short ?_, fun hle' => ?_⟩
    · simp only [total_cons, Block.BLEN, length_append] at hlt ⊢
      omega
    obtain ⟨d, ds, hr, hb, hl⟩ := hp.enough (by
      simp only [total_cons, Block.BLEN, length_append] at hle' ⊢
      omega)
    refine ⟨d, ds, hr, ?_, ?_⟩
    · rw [hb]
      simp only [bytes_cons, append_assoc]
    · rw [hl]
      simp only [Block.BLEN, length_append]
      omega

/-- A list `r` of the same bytes whose first block has `n` of them, and exactly `n` if it was made to. -/
structure Pulled (bp : List Block) (n : Int) (h : Heap) (r : List Block) (h' : Heap) : Prop where
  accounts : Accounts bp h r h'
  nil_iff : r = [] ↔ (total bp : Int) < n
  bytes : r ≠ [] → bytes r = bytes bp
  first : ∀ c ∈ r.head?, n ≤ c.BLEN ∧ ∀ b ∈ bp.head?, b.BLEN < n → (c.BLEN : Int) = n

namespace Pulled
variable {b : Block} {bp r : List Block} {n : Int} {h h' : Heap}

theorem same (hn : n ≤ b.BLEN) : Pulled (b :: bp) n h (b :: bp) h := by
  refine ⟨.refl h rfl, ?_, fun _ => rfl, ?_⟩
  · simp only [reduceCtorEq, total_cons, false_iff]
    omega
  · rintro c ⟨⟩
    refine ⟨hn, ?_⟩
    rintro d ⟨⟩ hlt
    omega

theorem of_pulledUp (hp : PulledUp bp n h r h') : Pulled bp n h r h' := by
  by_cases hlt : (total bp : Int) < n
  · have hr := hp.short hlt
    subst hr
    exact ⟨hp.accounts, ⟨fun _ => hlt, fun _ => rfl⟩, fun hne => absurd rfl hne, fun c hc => (by cases hc)⟩
  · obtain ⟨c, cs, rfl, hb, hl⟩ := hp.enough (Int.not_lt.1 hlt)
    refine ⟨hp.accounts, ⟨fun hnil => (by cases hnil), fun h => absurd h hlt⟩, fun _ => hb, ?_⟩
    rintro d ⟨⟩
    exact ⟨hl.ge, fun _ _ _ => hl⟩

theorem all_freed (hp : Pulled bp n h [] h') : ∀ b ∈ bp, b.addr ∈ h'.freed := by
  intro b hb
  have hmem : b.addr ∈ addrs bp := mem_map_of_mem hb
  have := hp.accounts.2.mem_iff (a := b.addr)
  simp only [addrs, map_nil, nil_append, append_assoc, mem_append] at this hmem
  exact this.2 (.inl hmem)

end Pulled

theorem pullupblock_spec {bp : List Block} (hne : bp ≠ []) (n : Int) (h : Heap) :
    ∃ r h', pullupblock bp n h = some (r, h') ∧ Pulled bp n h r h' := by
  cases bp with
  | nil => exact absurd rfl hne
  | cons b rest =>
    unfold pullupblock
    by_cases hge : (b.BLEN : Int) ≥ n
    · simp only [if_pos hge]
      exact ⟨_, _, rfl, .same hge⟩
    simp only [if_neg hge]
    have hlt := Int.not_le.1 hge
    by_cases hroom : ((b.BLEN + b.room : Nat) : Int) < n
    · simp only [if_pos hroom]
      rw [bind_some (allocb_ok (by omega))]
      obtain ⟨r, h', hrun, hp⟩ := pullupLoop_spec (b := ⟨h.next, 0, [], n.toNat⟩) (n := n) (by omega)
        (by show n ≤ (n.toNat : Int); omega) (b :: rest) { h with next := h.next + 1 }
      have h0 : (((⟨h.next, 0, [], n.toNat⟩ : Block).BLEN : Nat) : Int) = 0 := rfl
      rw [h0, Int.zero_add] at hp
      refine ⟨r, h', ?_, .of_pulledUp ⟨.front rfl hp.accounts, fun hs => hp.short ?_, fun hs => hp.enough ?_⟩⟩
      · rw [h0, Int.sub_zero]
        exact hrun
      · rw [total_cons, Block.BLEN, length_nil, zero_add]
        exact hs
      · rw [total_cons, Block.BLEN, length_nil, zero_add]
        exact hs
    · simp only [if_neg hroom]
      obtain ⟨r, h', hrun, hp⟩ := pullupLoop_spec (b := b) (n := n - b.BLEN) (by omega) (by omega) rest h
      rw [show (b.BLEN : Int) + (n - b.BLEN) = n by omega] at hp
      exact ⟨r, h', hrun, .of_pulledUp hp⟩

theorem pullupqueue_eq {b : Block} {bp r : List Block} {n : Int} {h h' : Heap}
    (hr : pullupblock (b :: bp) n h = some (r, h')) :
    pullupqueue ⟨b :: bp, last (b :: bp)⟩ n h = some ((r, ⟨r, last r⟩), h') := by
  unfold pullupqueue
  by_cases hge : (b.BLEN : Int) ≥ n
  · have hsame : pullupblock (b :: bp) n h = some (b :: bp, h) := by
      simp only [pullupblock, if_pos hge, pure_apply]
    cases hsame.symm.trans hr
    simp only [if_pos hge, pure_apply]
  · simp only [if_neg hge]
    rw [bind_some hr, pure_apply]

/-- For every list and every `n`; a queue gets the list, and its last block. -/
theorem pullup_spec {bp : List Block} (hne : bp ≠ []) (n : Int) (h : Heap) :
    ∃ r h', pullupblock bp n h = some (r, h') ∧ Pulled bp n h r h' ∧ (r = [] → ∀ b ∈ bp, b.addr ∈ h'.freed) ∧
      pullupqueue ⟨bp, last bp⟩ n h = some ((r, ⟨r, last r⟩), h') := by
  obtain ⟨r, h', hrun, hp⟩ := pullupblock_spec hne n h
  refine ⟨r, h', hrun, hp, ?_, ?_⟩
  · rintro rfl
    exact hp.all_freed
  · cases bp with
    | nil => exact absurd rfl hne
    | cons b bp => exact pullupqueue_eq hrun

/-- Two bytes in two blocks, of which the first has no room: three blocks, and one is left. -/
theorem pullup_spec_two : ∃ r h', pullupblock [⟨0, 0, [1], 0⟩, ⟨1, 0, [2], 0⟩] 2 ⟨2, []⟩ = some (r, h') ∧
    Pulled [⟨0, 0, [1], 0⟩, ⟨1, 0, [2], 0⟩] 2 ⟨2, []⟩ r h' ∧
      (r = [] → ∀ b ∈ [(⟨0, 0, [1], 0⟩ : Block), ⟨1, 0, [2], 0⟩], b.addr ∈ h'.freed) ∧
        pullupqueue ⟨[⟨0, 0, [1], 0⟩, ⟨1, 0, [2], 0⟩], last [⟨0, 0, [1], 0⟩, ⟨1, 0, [2], 0⟩]⟩ 2 ⟨2, []⟩ =
          some ((r, ⟨r, last r⟩), h') :=
  pullup_spec (List.cons_ne_nil _ _) 2 ⟨2, []⟩

end Node9.Qio
