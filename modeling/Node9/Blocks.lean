import Node9.Lib.Buf

/-!
# Queues of blocks (`qio.c`)

A block has the bytes between `rp` and `wp`, and room for more up to `lim`. A queue is the list of its blocks,
and `qlen` the bytes in them. `allocb` is taken to succeed. `none` stands for a nil pointer: the first block of
an empty queue, and what `pullupblock` returns when the blocks do not have enough bytes.
-/

namespace Node9.Blocks
open Buf List

structure Block where
  data : Bytes
  /-- `lim - wp` -/
  room : Nat

def Block.len (b : Block) : Nat := b.data.length

def bytes (q : List Block) : Bytes := q.flatMap Block.data

def qlen (q : List Block) : Nat := (q.map Block.len).sum

/-- The loop of `pullupblock`: `n` bytes from the blocks that follow go to the first one, `b`. -/
def pullup (b : Block) (n : Nat) : List Block → Option (List Block)
  | [] => none
  | c :: cs =>
    if c.len > n then
      some (⟨b.data ++ c.data.take n, b.room - n⟩ :: ⟨c.data.drop n, c.room⟩ :: cs)
    else
      let b := ⟨b.data ++ c.data, b.room - c.len⟩
      if n - c.len = 0 then some (b :: cs) else pullup b (n - c.len) cs

def pullupblock (q : List Block) (n : Int) : Option (List Block) :=
  match q with
  | [] => none
  | b :: bs =>
    if n ≤ b.len then some (b :: bs)
    -- if there is not enough room in the first block, another is added to the front
    else if b.len + b.room < n then pullup ⟨[], n.toNat⟩ n.toNat (b :: bs)
    else pullup b (n - b.len).toNat bs

def pullupqueue (q : List Block) (n : Int) : Option (List Block) :=
  match q with
  | [] => none
  | b :: bs => if n ≤ b.len then some (b :: bs) else pullupblock (b :: bs) n

/-- `qdiscard`, for a length that is not negative. -/
def qdiscard : List Block → Nat → List Block
  | [], _ => []
  | b :: bs, n =>
    if n = 0 then b :: bs
    else if b.len ≤ n then qdiscard bs (n - b.len)
    else ⟨b.data.drop n, b.room⟩ :: bs

@[simp] theorem bytes_nil : bytes [] = [] := rfl

@[simp] theorem bytes_cons (b : Block) (bs : List Block) : bytes (b :: bs) = b.data ++ bytes bs := rfl

@[simp] theorem bytes_append (q q' : List Block) : bytes (q ++ q') = bytes q ++ bytes q' := flatMap_append

@[simp] theorem qlen_nil : qlen [] = 0 := rfl

@[simp] theorem qlen_cons (b : Block) (bs : List Block) : qlen (b :: bs) = b.len + qlen bs := rfl

theorem length_bytes (q : List Block) : (bytes q).length = qlen q := by
  induction q with
  | nil => rfl
  | cons b bs ih => simp [ih, Block.len]

theorem qlen_append (q q' : List Block) : qlen (q ++ q') = qlen q + qlen q' := by
  rw [← length_bytes, ← length_bytes, ← length_bytes, bytes_append, length_append]

theorem pullup_some (b : Block) (n : Nat) (cs : List Block) (h : n ≤ qlen cs) (hn : 0 < n) :
    ∃ c cs', pullup b n cs = some (c :: cs') ∧ bytes (c :: cs') = bytes (b :: cs) ∧ c.len = b.len + n := by
  induction cs generalizing b n with
  | nil =>
    simp only [qlen_nil] at h
    omega
  | cons c cs ih =>
    rw [qlen_cons] at h
    simp only [pullup]
    split
    · next hlt =>
      refine ⟨_, _, rfl, ?_, ?_⟩
      · simp only [bytes_cons, append_assoc]
        rw [← append_assoc (c.data.take n), take_append_drop]
      · simp only [Block.len] at hlt ⊢
        rw [length_append, length_take]
        omega
    next hge =>
    split
    · next hz =>
      refine ⟨_, _, rfl, by simp, ?_⟩
      simp only [Block.len] at hge hz ⊢
      rw [length_append]
      omega
    next hnz =>
    obtain ⟨d, ds, hrun, hbytes, hlen⟩ := ih ⟨b.data ++ c.data, b.room - c.len⟩ (n - c.len) (by omega) (by omega)
    refine ⟨d, ds, hrun, by simpa using hbytes, ?_⟩
    simp only [Block.len] at hge hlen ⊢
    rw [hlen, length_append]
    omega

theorem pullup_none {b : Block} {n : Nat} {cs : List Block} (h : qlen cs < n) : pullup b n cs = none := by
  induction cs generalizing b n with
  | nil => rfl
  | cons c cs ih =>
    rw [qlen_cons] at h
    simp only [pullup]
    rw [if_neg (by omega), if_neg (by omega)]
    exact ih (by omega)

theorem pullupqueue_some {q : List Block} {n : Int} (hq : q ≠ []) (h : n ≤ qlen q) :
    ∃ b bs, pullupqueue q n = some (b :: bs) ∧ bytes (b :: bs) = bytes q ∧ n ≤ b.len := by
  cases q with
  | nil => exact absurd rfl hq
  | cons b bs =>
    rw [qlen_cons] at h
    simp only [pullupqueue]
    split
    · next hle => exact ⟨b, bs, rfl, rfl, hle⟩
    next hlt =>
    simp only [pullupblock, if_neg hlt]
    split
    · obtain ⟨c, cs, hrun, hbytes, hlen⟩ := pullup_some ⟨[], n.toNat⟩ n.toNat (b :: bs)
        (by rw [qlen_cons]; omega) (by omega)
      refine ⟨c, cs, hrun, by simpa using hbytes, ?_⟩
      simp only [Block.len, length_nil] at hlen ⊢
      omega
    · obtain ⟨c, cs, hrun, hbytes, hlen⟩ := pullup_some b (n - b.len).toNat bs (by omega) (by omega)
      exact ⟨c, cs, hrun, hbytes, by omega⟩

theorem pullupqueue_none {q : List Block} {n : Int} (h : qlen q < n) : pullupqueue q n = none := by
  cases q with
  | nil => rfl
  | cons b bs =>
    rw [qlen_cons] at h
    simp only [pullupqueue, pullupblock]
    rw [if_neg (by omega), if_neg (by omega)]
    split
    · exact pullup_none (by rw [qlen_cons]; omega)
    · exact pullup_none (by omega)

theorem ne_nil_of_qlen {q : List Block} (h : 0 < qlen q) : q ≠ [] := by
  rintro rfl
  exact lt_irrefl _ h

theorem bytes_qdiscard (q : List Block) (n : Nat) : bytes (qdiscard q n) = (bytes q).drop n := by
  induction q generalizing n with
  | nil => simp [qdiscard]
  | cons b bs ih =>
    simp only [qdiscard]
    split
    · next hz => simp [hz]
    split
    · next hle =>
      simp only [Block.len] at hle ⊢
      rw [ih, bytes_cons, drop_append, drop_eq_nil_of_le hle, nil_append]
    · next hlt =>
      simp only [Block.len] at hlt
      simp only [bytes_cons]
      rw [drop_append_of_le_length (by omega)]

end Node9.Blocks
