import Node9.Lib.Linked

/-!
# Requests to a server and their tags (`alloctag`, `freetag`, `mntralloc`, `mntfree` in `devmnt.c`)

A word of `tagmask` is an `ulong` of 64 bits, and `1<<j` an `int` that is extended to it with its sign: the bit
of the 32nd tag of a word is the upper half with it. Requests that are not in use wait with their tags in the
list `rpcfree`. It goes through the same field `list` as the queue of a mount, so that both are lists in one
memory.

`Msg` is a request as it goes to the server. `ident` tells the requests apart when their tags are the same, and
`over` says which ones are settled by the answer to a `Tflush`: neither is in the code.
-/

namespace Node9.MntMux
open Linked Function
open List hiding Chain

def TAGSHIFT : Nat := 5

def TAGMASK : Nat := 2 ^ TAGSHIFT - 1

def NMASK : Nat := (64 * 1024) >>> TAGSHIFT

def NOTAG : Nat := 0xFFFF

/-- `1<<j` as an `ulong` -/
def bit (j : Nat) : BitVec 64 := (1#32 <<< j).signExtend 64

/-- The loop over the bits of a word, `n` of them from `j` on. -/
def findBit (v : BitVec 64) : Nat → Nat → Option Nat
  | 0, _ => none
  | n + 1, j => if v &&& bit j = 0 then some j else findBit v n (j + 1)

def findTag (tagmask : Nat → BitVec 64) : Nat → Nat → Option (Nat × Nat)
  | 0, _ => none
  | n + 1, i =>
    if tagmask i = ~~~0 then findTag tagmask n (i + 1)
    else
      match findBit (tagmask i) (2 ^ TAGSHIFT) 0 with
      | some j => some (i, j)
      | none => findTag tagmask n (i + 1)

def alloctag (tagmask : Nat → BitVec 64) : Nat × (Nat → BitVec 64) :=
  match findTag tagmask NMASK 0 with
  | some (i, j) => ((i <<< TAGSHIFT) + j, update tagmask i (tagmask i ||| bit j))
  | none => (NOTAG, tagmask)

def freetag (tagmask : Nat → BitVec 64) (t : Nat) : Nat → BitVec 64 :=
  update tagmask (t >>> TAGSHIFT) (tagmask (t >>> TAGSHIFT) &&& ~~~ bit (t &&& TAGMASK))

def Used (tagmask : Nat → BitVec 64) (t : Nat) : Prop := tagmask (t / 32) &&& bit (t % 32) ≠ 0

section
variable {tagmask : Nat → BitVec 64} {v : BitVec 64} {i j n t t' : Nat}

theorem bit_ne_zero : ∀ j < 32, bit j ≠ 0 := by decide +kernel

theorem bit_and_bit : ∀ i < 32, ∀ j < 32, i ≠ j → bit i &&& bit j = 0 := by decide +kernel

theorem findBit_spec (h : findBit v n i = some j) : i ≤ j ∧ j < i + n ∧ v &&& bit j = 0 := by
  induction n generalizing i with
  | zero => cases h
  | succ n ih =>
    simp only [findBit] at h
    split at h
    · next hz =>
      cases h
      exact ⟨le_refl _, by omega, hz⟩
    · obtain ⟨hle, hlt, hz⟩ := ih h
      exact ⟨by omega, by omega, hz⟩

theorem findBit_ne_none (hi : i ≤ j) (hj : j < i + n) (hz : v &&& bit j = 0) : findBit v n i ≠ none := by
  induction n generalizing i with
  | zero => omega
  | succ n ih =>
    simp only [findBit]
    split
    · nofun
    · next hnz =>
      have hne : i ≠ j := fun h => hnz (h ▸ hz)
      exact ih (by omega) (by omega)

theorem findTag_spec {p : Nat × Nat} (h : findTag tagmask n i = some p) :
    p.1 < i + n ∧ p.2 < 32 ∧ tagmask p.1 &&& bit p.2 = 0 := by
  induction n generalizing i with
  | zero => cases h
  | succ n ih =>
    simp only [findTag] at h
    split at h
    · have := ih h
      exact ⟨by omega, this.2⟩
    split at h
    · next hb =>
      cases h
      obtain ⟨-, hlt, hz⟩ := findBit_spec hb
      exact ⟨by omega, by simpa [TAGSHIFT] using hlt, hz⟩
    · have := ih h
      exact ⟨by omega, this.2⟩

theorem findTag_ne_none {k : Nat} (hi : i ≤ k) (hk : k < i + n) (hj : j < 32) (hz : tagmask k &&& bit j = 0) :
    findTag tagmask n i ≠ none := by
  induction n generalizing i with
  | zero => omega
  | succ n ih =>
    simp only [findTag]
    by_cases hik : i = k
    · subst hik
      have hnot : tagmask i ≠ ~~~0 := by
        intro hall
        rw [hall] at hz
        simp only [BitVec.ofNat_eq_ofNat, BitVec.not_zero, BitVec.allOnes_and] at hz
        exact bit_ne_zero j hj hz
      rw [if_neg hnot]
      split
      · nofun
      · next hnone => exact absurd hnone (findBit_ne_none zero_le (by simpa [TAGSHIFT] using hj) hz)
    · split
      · exact ih (by omega) (by omega)
      · split
        · nofun
        · exact ih (by omega) (by omega)

theorem alloctag_spec (h : (alloctag tagmask).1 ≠ NOTAG) :
    ¬ Used tagmask (alloctag tagmask).1 ∧
      ∀ t, Used (alloctag tagmask).2 t ↔ Used tagmask t ∨ t = (alloctag tagmask).1 := by
  unfold alloctag at h ⊢
  split
  · next i j hfind =>
    obtain ⟨-, hj, hz⟩ := findTag_spec hfind
    have hdiv : ((i <<< TAGSHIFT) + j) / 32 = i := by simp only [TAGSHIFT, Nat.shiftLeft_eq]; omega
    have hmod : ((i <<< TAGSHIFT) + j) % 32 = j := by simp only [TAGSHIFT, Nat.shiftLeft_eq]; omega
    refine ⟨?_, fun t => ?_⟩
    · unfold Used
      rw [hdiv, hmod]
      exact not_not.2 hz
    unfold Used
    dsimp only
    by_cases hw : t / 32 = i
    · subst hw
      rw [update_self, BitVec.and_or_distrib_right]
      by_cases hb : t % 32 = j
      · have ht : t = ((t / 32) <<< TAGSHIFT) + j := by simp only [TAGSHIFT, Nat.shiftLeft_eq]; omega
        subst hb
        rw [hz, BitVec.and_self]
        exact ⟨fun _ => .inr ht, fun _ => by simpa using bit_ne_zero _ hj⟩
      · have ht : t ≠ ((t / 32) <<< TAGSHIFT) + j := fun h => hb (by rw [h, hmod])
        rw [bit_and_bit j hj (t % 32) (Nat.mod_lt _ (by decide)) (Ne.symm hb)]
        simp [ht]
    · have ht : t ≠ (i <<< TAGSHIFT) + j := fun h => hw (by rw [h, hdiv])
      rw [update_of_ne hw]
      simp [ht]
  · next hnone =>
    rw [hnone] at h
    exact absurd rfl h

theorem alloctag_ne_NOTAG (hn : Used tagmask NOTAG) (ht : t < 64 * 1024) (hfree : ¬ Used tagmask t) :
    (alloctag tagmask).1 ≠ NOTAG := by
  have hne : findTag tagmask NMASK 0 ≠ none := by
    refine findTag_ne_none (k := t / 32) (j := t % 32) zero_le ?_ (Nat.mod_lt _ (by decide)) (not_not.1 hfree)
    simp only [NMASK, TAGSHIFT, Nat.shiftRight_eq_div_pow]
    omega
  unfold alloctag
  split
  · next i j hfind =>
    obtain ⟨-, hj, hz⟩ := findTag_spec hfind
    intro heq
    have hdiv : ((i <<< TAGSHIFT) + j) / 32 = i := by simp only [TAGSHIFT, Nat.shiftLeft_eq]; omega
    have hmod : ((i <<< TAGSHIFT) + j) % 32 = j := by simp only [TAGSHIFT, Nat.shiftLeft_eq]; omega
    refine hn ?_
    rw [← heq]
    dsimp only
    rw [hdiv, hmod]
    exact hz
  · next hnone => exact absurd hnone hne

theorem alloctag_lt : (alloctag tagmask).1 < 64 * 1024 := by
  unfold alloctag
  split
  · next i j hfind =>
    obtain ⟨hi, hj, -⟩ := findTag_spec hfind
    simp only [NMASK, TAGSHIFT, Nat.shiftRight_eq_div_pow, Nat.shiftLeft_eq] at hi ⊢
    omega
  · exact show NOTAG < 64 * 1024 by decide

theorem used_freetag : Used (freetag tagmask t) t' ↔ Used tagmask t' ∧ t' ≠ t := by
  have hmask : t &&& TAGMASK = t % 32 := Nat.and_two_pow_sub_one_eq_mod t 5
  have hshift : t >>> TAGSHIFT = t / 32 := Nat.shiftRight_eq_div_pow t 5
  unfold Used freetag
  rw [hmask, hshift]
  by_cases hw : t' / 32 = t / 32
  · rw [hw, update_self]
    by_cases hb : t' % 32 = t % 32
    · have heq : t' = t := by omega
      rw [hb, BitVec.and_assoc]
      simp [heq]
    have hne : t' ≠ t := fun h => hb (by rw [h])
    have hsub : ~~~ bit (t % 32) &&& bit (t' % 32) = bit (t' % 32) := by
      have hdisj := bit_and_bit (t % 32) (Nat.mod_lt _ (by decide)) (t' % 32) (Nat.mod_lt _ (by decide)) (Ne.symm hb)
      revert hdisj
      generalize bit (t % 32) = x
      generalize bit (t' % 32) = y
      intro hdisj
      ext k hk
      have hk' := congrArg (fun w => w.getLsbD k) hdisj
      simp at hk' ⊢
      grind -linarith
    rw [BitVec.and_assoc, hsub]
    simp [hne]
  · have hne : t' ≠ t := fun h => hw (by rw [h])
    rw [update_of_ne hw]
    simp [hne]

end

abbrev Rpc := Nat

structure Msg where
  ident : Nat
  tag : Nat
  /-- of a `Tflush` -/
  oldtag : Option Nat
  covers : List Nat
deriving DecidableEq

inductive Reply
  | none
  /-- set by `mntflushfree` -/
  | Rflush
  /-- what the server answers to `t`, with its tag -/
  | answer (t : Msg)

structure Mntrpc where
  request : Msg
  reply : Reply
  rpclen : Nat
  done : Bool
  flushed : Option Rpc

inductive Cell
  | queue
  | rpcfree
  | list (r : Rpc)
deriving DecidableEq

/-- `Mntalloc` with the memory it has given out. `queue` is that of one `Mnt`. -/
structure Mntalloc where
  tagmask : Nat → BitVec 64
  next : Cell → Option Rpc
  nrpcfree : Nat
  rpc : Rpc → Mntrpc
  allocated : Rpc → Bool
  /-- the next `ident` -/
  fresh : Nat

/-- `mem` is what `malloc` returns for the header, `buf` whether there is memory for the buffer. -/
def mntralloc (a : Mntalloc) (msize : Nat) (mem : Option Rpc) (buf : Bool) : Mntalloc × Option Rpc :=
  match a.next .rpcfree with
  | none =>
    match mem with
    | none => (a, none)
    | some new =>
      if buf = false then (a, none)
      else if (alloctag a.tagmask).1 = NOTAG then (a, none)
      else
        ({ a with
            tagmask := (alloctag a.tagmask).2
            allocated := update a.allocated new true
            rpc := update a.rpc new ⟨⟨a.fresh, (alloctag a.tagmask).1, none, []⟩, .none, msize, false, none⟩
            fresh := a.fresh + 1 }, some new)
  | some new =>
    let a := { a with next := update a.next .rpcfree (a.next (.list new)), nrpcfree := a.nrpcfree - 1 }
    let q := a.rpc new
    -- its tag stays used
    if q.rpclen < msize ∧ buf = false then ({ a with allocated := update a.allocated new false }, none)
    else
      let q := { q with
        request := ⟨a.fresh, q.request.tag, none, []⟩
        rpclen := if q.rpclen < msize then msize else q.rpclen
        done := false
        flushed := none }
      ({ a with rpc := update a.rpc new q, fresh := a.fresh + 1 }, some new)

def mntfree (a : Mntalloc) (r : Rpc) : Mntalloc :=
  if a.nrpcfree ≥ 10 then
    { a with tagmask := freetag a.tagmask (a.rpc r).request.tag, allocated := update a.allocated r false }
  else
    { a with
      next := update (update a.next (.list r) (a.next .rpcfree)) .rpcfree (some r)
      nrpcfree := a.nrpcfree + 1 }

/-- There is what `mntralloc` needs. -/
def Enough (a : Mntalloc) (msize : Nat) (mem : Option Rpc) (buf : Bool) : Prop :=
  match a.next .rpcfree with
  | none => mem.isSome ∧ buf = true ∧ ∃ t < 64 * 1024, ¬ Used a.tagmask t
  | some new => msize ≤ (a.rpc new).rpclen ∨ buf = true

/-- The queue has the requests `Q`, the free list `F`, and `C p` are those that the process `p` has. -/
structure Mem (a : Mntalloc) (Q F : List Rpc) (C : Nat → List Rpc) : Prop where
  queue : Chain a.next .list .queue Q
  free : Chain a.next .list .rpcfree F
  queued : ∀ r ∈ Q, ∃ p, r ∈ C p
  own : ∀ p, ∀ r ∈ C p, a.allocated r = true ∧ r ∉ F
  freed : ∀ r ∈ F, a.allocated r = true
  one : ∀ p p' r, r ∈ C p → r ∈ C p' → p = p'
  nodup : ∀ p, (C p).Nodup
  zero : Used a.tagmask 0
  notag : Used a.tagmask NOTAG
  used : ∀ r, a.allocated r = true → Used a.tagmask (a.rpc r).request.tag
  range : ∀ r, a.allocated r = true → (a.rpc r).request.tag ≠ 0 ∧ (a.rpc r).request.tag < NOTAG
  tags : ∀ r r', a.allocated r = true → a.allocated r' = true → (a.rpc r).request.tag = (a.rpc r').request.tag → r = r'

section
variable {a a' : Mntalloc} {Q F : List Rpc} {C : Nat → List Rpc} {msize p : Nat} {mem : Option Rpc} {buf : Bool}
    {r : Rpc}

theorem list_injective : Injective Cell.list := fun _ _ h => Cell.list.inj h

theorem mntralloc_ne_none (hm : Mem a Q F C) (he : Enough a msize mem buf) : (mntralloc a msize mem buf).2 ≠ none := by
  unfold Enough at he
  unfold mntralloc
  split at he
  · next hnil =>
    obtain ⟨hmem, hbuf, t, ht, hfree⟩ := he
    obtain ⟨new, rfl⟩ := Option.isSome_iff_exists.1 hmem
    dsimp only
    rw [if_neg (by simp [hbuf]), if_neg (alloctag_ne_NOTAG hm.notag ht hfree)]
    nofun
  next new hnew =>
  dsimp only
  rw [if_neg]
  · nofun
  · rintro ⟨hlt, hbuf⟩
    rcases he with hle | hbuf'
    · omega
    · simp [hbuf] at hbuf'

theorem mem_update_cons {p' : Nat} {q : Rpc} : q ∈ update C p (r :: C p) p' ↔ q ∈ C p' ∨ p' = p ∧ q = r := by
  by_cases hp : p' = p
  · subst hp
    rw [update_self, mem_cons]
    exact ⟨fun h => h.elim (fun h => .inr ⟨rfl, h⟩) .inl, fun h => h.elim .inr fun h => .inl h.2⟩
  · rw [update_of_ne hp]
    simp [hp]

theorem Mem.mem_update_tail {tl : List Rpc} {p' : Nat} {q : Rpc} (hm : Mem a Q F C) (hC : C p = r :: tl) :
    q ∈ update C p tl p' ↔ q ∈ C p' ∧ q ≠ r := by
  by_cases hp : p' = p
  · subst hp
    have hnd := hm.nodup p'
    rw [hC] at hnd ⊢
    rw [update_self, mem_cons]
    constructor
    · intro hq
      exact ⟨.inr hq, fun h => (nodup_cons.1 hnd).1 (h ▸ hq)⟩
    · rintro ⟨h | h, hne⟩
      · exact absurd h hne
      · exact h
  · rw [update_of_ne hp]
    refine ⟨fun hq => ⟨hq, ?_⟩, And.left⟩
    rintro rfl
    exact hp (hm.one p' p q hq (by rw [hC]; exact mem_cons_self ..))

theorem Mem.not_own (hm : Mem a Q F C) (hr : r ∈ F ∨ a.allocated r = false) (p : Nat) : r ∉ C p := by
  intro h
  obtain ⟨halloc, hF⟩ := hm.own p r h
  rcases hr with hr | hr
  · exact hF hr
  · simp [hr] at halloc

theorem Mem.give (hm : Mem a Q F C) (hr : ∀ p, r ∉ C p) (halloc : a.allocated r = true) (hF : r ∉ F) :
    Mem a Q F (update C p (r :: C p)) where
  queue := hm.queue
  free := hm.free
  queued := fun q hq => by
    obtain ⟨p', hp'⟩ := hm.queued q hq
    exact ⟨p', mem_update_cons.2 (.inl hp')⟩
  own := fun p' q hq => by
    rcases mem_update_cons.1 hq with hq | ⟨-, rfl⟩
    · exact hm.own p' q hq
    · exact ⟨halloc, hF⟩
  freed := hm.freed
  one := fun p₁ p₂ q h₁ h₂ => by
    rcases mem_update_cons.1 h₁ with hq₁ | ⟨rfl, rfl⟩ <;> rcases mem_update_cons.1 h₂ with hq₂ | ⟨hp, hq₂⟩
    · exact hm.one p₁ p₂ q hq₁ hq₂
    · exact absurd (hq₂ ▸ hq₁) (hr p₁)
    · exact absurd hq₂ (hr p₂)
    · exact hp.symm
  nodup := fun p' => by
    by_cases hp : p' = p
    · subst hp
      rw [update_self]
      exact nodup_cons.2 ⟨hr p', hm.nodup p'⟩
    · rw [update_of_ne hp]
      exact hm.nodup p'
  zero := hm.zero
  notag := hm.notag
  used := hm.used
  range := hm.range
  tags := hm.tags

theorem Mem.congr (hm : Mem a Q F C) (hn : a'.next = a.next) (ha : a'.allocated = a.allocated)
    (ht : a'.tagmask = a.tagmask)
    (hr : ∀ r, (a'.rpc r).request.tag = (a.rpc r).request.tag) : Mem a' Q F C where
  queue := hn ▸ hm.queue
  free := hn ▸ hm.free
  queued := hm.queued
  own := ha ▸ hm.own
  freed := ha ▸ hm.freed
  one := hm.one
  nodup := hm.nodup
  zero := ht ▸ hm.zero
  notag := ht ▸ hm.notag
  used := fun r h => by rw [ht, hr]; exact hm.used r (ha ▸ h)
  range := fun r h => by rw [hr]; exact hm.range r (ha ▸ h)
  tags := fun r r' h h' heq => by
    rw [hr, hr] at heq
    exact hm.tags r r' (ha ▸ h) (ha ▸ h') heq

theorem Mem.take {new : Rpc} (hm : Mem a Q (new :: F) C) (b : Bool) :
    Mem { a with next := update a.next .rpcfree (a.next (.list new)), nrpcfree := a.nrpcfree - 1,
                 allocated := update a.allocated new b } Q F C := by
  have hnew : a.allocated new = true := hm.freed new (mem_cons_self ..)
  have hF : new ∉ F := (nodup_cons.1 hm.free.nodup).1
  have hkeep : ∀ q, update a.allocated new b q = true → a.allocated q = true := by
    intro q hq
    by_cases heq : q = new
    · rw [heq]
      exact hnew
    · rwa [update_of_ne heq] at hq
  constructor
  case queue => exact hm.queue.congr (by simp) fun _ _ => by simp
  case free => exact hm.free.pop nofun
  case queued => exact hm.queued
  case own =>
    intro p q hq
    obtain ⟨halloc, hqF⟩ := hm.own p q hq
    have hne : q ≠ new := fun h => hqF (h ▸ mem_cons_self ..)
    exact ⟨by dsimp only; rw [update_of_ne hne]; exact halloc, fun h => hqF (mem_cons_of_mem _ h)⟩
  case freed =>
    intro q hq
    have hne : q ≠ new := fun h => hF (h ▸ hq)
    dsimp only
    rw [update_of_ne hne]
    exact hm.freed q (mem_cons_of_mem _ hq)
  case one => exact hm.one
  case nodup => exact hm.nodup
  case zero => exact hm.zero
  case notag => exact hm.notag
  case used => exact fun q hq => hm.used q (hkeep q hq)
  case range => exact fun q hq => hm.range q (hkeep q hq)
  case tags => exact fun q q' hq hq' => hm.tags q q' (hkeep q hq) (hkeep q' hq')

theorem Mem.malloc {new : Rpc} {q : Mntrpc} (hm : Mem a Q F C) (hnew : a.allocated new = false)
    (htag : (alloctag a.tagmask).1 ≠ NOTAG) (hq : q.request.tag = (alloctag a.tagmask).1) (n : Nat) :
    Mem { a with tagmask := (alloctag a.tagmask).2, allocated := update a.allocated new true,
                 rpc := update a.rpc new q, fresh := n } Q F C := by
  obtain ⟨hfree, hused⟩ := alloctag_spec htag
  have hlt : (alloctag a.tagmask).1 < 64 * 1024 := alloctag_lt
  have hold : ∀ r, update a.allocated new true r = true → r = new ∨ r ≠ new ∧ a.allocated r = true := by
    intro r hr
    by_cases heq : r = new
    · exact .inl heq
    · exact .inr ⟨heq, by rwa [update_of_ne heq] at hr⟩
  have htagne : ∀ r, a.allocated r = true → (a.rpc r).request.tag ≠ q.request.tag := by
    intro r hr heq
    exact hfree (hq ▸ heq ▸ hm.used r hr)
  constructor
  case queue => exact hm.queue
  case free => exact hm.free
  case queued => exact hm.queued
  case own =>
    intro p r hr
    refine ⟨?_, (hm.own p r hr).2⟩
    have hne : r ≠ new := fun h => hm.not_own (.inr hnew) p (h ▸ hr)
    dsimp only
    rw [update_of_ne hne]
    exact (hm.own p r hr).1
  case freed =>
    intro r hr
    by_cases heq : r = new
    · simp [heq]
    · dsimp only
      rw [update_of_ne heq]
      exact hm.freed r hr
  case one => exact hm.one
  case nodup => exact hm.nodup
  case zero => exact (hused 0).2 (.inl hm.zero)
  case notag => exact (hused _).2 (.inl hm.notag)
  case used =>
    intro r hr
    dsimp only
    rcases hold r hr with rfl | ⟨hne, hr⟩
    · rw [update_self]
      exact (hused _).2 (.inr hq)
    · rw [update_of_ne hne]
      exact (hused _).2 (.inl (hm.used r hr))
  case range =>
    intro r hr
    dsimp only
    rcases hold r hr with rfl | ⟨hne, hr⟩
    · rw [update_self, hq]
      refine ⟨fun h => hfree (h ▸ hm.zero), ?_⟩
      unfold NOTAG at htag ⊢
      omega
    · rw [update_of_ne hne]
      exact hm.range r hr
  case tags =>
    intro r r' hr hr' heq
    dsimp only at heq
    rcases hold r hr with h | ⟨hne, halloc⟩ <;> rcases hold r' hr' with h' | ⟨hne', halloc'⟩
    · rw [h, h']
    · rw [h, update_self, update_of_ne hne'] at heq
      exact absurd heq.symm (htagne r' halloc')
    · rw [h', update_self, update_of_ne hne] at heq
      exact absurd heq (htagne r halloc)
    · rw [update_of_ne hne, update_of_ne hne'] at heq
      exact hm.tags r r' halloc halloc' heq

theorem Mem.mntralloc (p : Nat) (hm : Mem a Q F C) (hmem : ∀ new, mem = some new → a.allocated new = false)
    (h : mntralloc a msize mem buf = (a', some r)) :
    (∃ F', Mem a' Q F' (update C p (r :: C p))) ∧ (∀ p, r ∉ C p) ∧ a'.fresh = a.fresh + 1 ∧
      (∀ q, q ≠ r → a'.rpc q = a.rpc q) ∧ (∀ q, a'.allocated q = true → q ≠ r → a.allocated q = true) ∧
      (a'.rpc r).request = ⟨a.fresh, (a'.rpc r).request.tag, none, []⟩ ∧ (a'.rpc r).done = false ∧
      (a'.rpc r).flushed = none := by
  unfold MntMux.mntralloc at h
  split at h
  · next hnil =>
    have hF : F = [] := by
      cases F with
      | nil => rfl
      | cons x F => exact absurd (hnil.symm.trans hm.free.1) nofun
    subst hF
    split at h
    · cases h
    next new =>
    split at h
    · cases h
    split at h
    · cases h
    next htag =>
    cases h
    have hnew := hmem r rfl
    have hown : ∀ p, r ∉ C p := hm.not_own (.inr hnew)
    refine ⟨⟨[], (hm.malloc hnew htag rfl _).give hown (by simp) (by simp)⟩, hown, rfl, ?_, ?_, ?_⟩
    · exact fun q hq => update_of_ne hq _ _
    · intro q hq hne
      dsimp only at hq
      rwa [update_of_ne hne] at hq
    · simp
  · next new hnew =>
    cases F with
    | nil => exact absurd (hm.free.symm.trans hnew) nofun
    | cons x F =>
      obtain rfl : x = new := Option.some.inj (hm.free.1.symm.trans hnew)
      dsimp only at h
      split at h
      · cases h
      cases h
      have hown : ∀ p, r ∉ C p := hm.not_own (.inl (mem_cons_self ..))
      have halloc : a.allocated r = true := hm.freed r (mem_cons_self ..)
      have htake := hm.take true
      rw [show update a.allocated r true = a.allocated by rw [← halloc, update_eq_self]] at htake
      refine ⟨⟨F, ?_⟩, hown, rfl, ?_, ?_, ?_⟩
      · refine Mem.give (htake.congr rfl rfl rfl fun q => ?_) hown halloc (nodup_cons.1 hm.free.nodup).1
        by_cases hq : q = r
        · subst hq
          simp
        · simp [hq]
      · exact fun q hq => update_of_ne hq _ _
      · exact fun q hq _ => hq
      · simp

section
variable (hm : Mem a Q F C)
include hm

theorem Mem.mntralloc_none (h : MntMux.mntralloc a msize mem buf = (a', none)) :
    (∃ F', Mem a' Q F' C) ∧ a'.fresh = a.fresh ∧ a'.rpc = a.rpc ∧ ∀ q, a'.allocated q = true →
    a.allocated q = true := by
  unfold MntMux.mntralloc at h
  split at h
  · next hnil =>
    have hsame : a = a' := by
      split at h
      · cases h
        rfl
      · split at h
        · cases h
          rfl
        · split at h <;> cases h
          rfl
    subst hsame
    exact ⟨⟨F, hm⟩, rfl, rfl, fun _ h => h⟩
  next new hnew =>
  cases F with
  | nil => exact absurd (hm.free.symm.trans hnew) nofun
  | cons x F =>
    obtain rfl : x = new := Option.some.inj (hm.free.1.symm.trans hnew)
    dsimp only at h
    split at h
    · cases h
      refine ⟨⟨F, hm.take false⟩, rfl, rfl, fun q hq => ?_⟩
      by_cases hqx : q = x
      · simp [hqx] at hq
      · simpa [hqx] using hq
    · cases h

theorem Mem.mntfree {tl : List Rpc} (hC : C p = r :: tl) (hQ : r ∉ Q) :
    (∃ F', Mem (mntfree a r) Q F' (update C p tl)) ∧ (mntfree a r).fresh = a.fresh ∧ (mntfree a r).rpc =
    a.rpc ∧
      ∀ q, (mntfree a r).allocated q = true → a.allocated q = true := by
  obtain ⟨halloc, hF⟩ := hm.own p r (by rw [hC]; exact mem_cons_self ..)
  have hqueued : ∀ q ∈ Q, ∃ p', q ∈ update C p tl p' := by
    intro q hq
    obtain ⟨p', hp'⟩ := hm.queued q hq
    exact ⟨p', (hm.mem_update_tail hC).2 ⟨hp', fun h => hQ (h ▸ hq)⟩⟩
  have hone : ∀ p₁ p₂ q, q ∈ update C p tl p₁ → q ∈ update C p tl p₂ → p₁ = p₂ := fun p₁ p₂ q h₁ h₂ =>
    hm.one p₁ p₂ q ((hm.mem_update_tail hC).1 h₁).1 ((hm.mem_update_tail hC).1 h₂).1
  have hnodup : ∀ p', (update C p tl p').Nodup := by
    intro p'
    by_cases hp : p' = p
    · subst hp
      have hnd := hm.nodup p'
      rw [hC] at hnd
      rw [update_self]
      exact (nodup_cons.1 hnd).2
    · rw [update_of_ne hp]
      exact hm.nodup p'
  unfold MntMux.mntfree
  split
  · have hkeep : ∀ q, update a.allocated r false q = true → q ≠ r ∧ a.allocated q = true := by
      intro q hq
      by_cases heq : q = r
      · simp [heq] at hq
      · exact ⟨heq, by rwa [update_of_ne heq] at hq⟩
    refine ⟨⟨F, ?_⟩, rfl, rfl, fun q hq => (hkeep q hq).2⟩
    have hother : ∀ q, q ≠ r → a.allocated q = true → (a.rpc q).request.tag ≠ (a.rpc r).request.tag :=
      fun q hne hq heq =>
      hne (hm.tags q r hq halloc heq)
    obtain ⟨hnz, hlt⟩ := hm.range r halloc
    constructor
    case queue => exact hm.queue
    case free => exact hm.free
    case queued => exact hqueued
    case own =>
      intro p' q hq
      obtain ⟨hq, hne⟩ := (hm.mem_update_tail hC).1 hq
      dsimp only
      rw [update_of_ne hne]
      exact hm.own p' q hq
    case freed =>
      intro q hq
      have hne : q ≠ r := fun h => hF (h ▸ hq)
      dsimp only
      rw [update_of_ne hne]
      exact hm.freed q hq
    case one => exact hone
    case nodup => exact hnodup
    case zero => exact used_freetag.2 ⟨hm.zero, hnz.symm⟩
    case notag => exact used_freetag.2 ⟨hm.notag, (ne_of_lt hlt).symm⟩
    case used =>
      intro q hq
      obtain ⟨hne, hq⟩ := hkeep q hq
      exact used_freetag.2 ⟨hm.used q hq, hother q hne hq⟩
    case range => exact fun q hq => hm.range q (hkeep q hq).2
    case tags => exact fun q q' hq hq' => hm.tags q q' (hkeep q hq).2 (hkeep q' hq').2
  · refine ⟨⟨r :: F, ?_⟩, rfl, rfl, fun q hq => hq⟩
    constructor
    case queue =>
      refine hm.queue.congr ?_ fun q hq => ?_
      · simp
      · have hne : q ≠ r := fun h => hQ (h ▸ hq)
        simp [hne]
    case free => exact hm.free.push hF list_injective nofun
    case queued => exact hqueued
    case own =>
      intro p' q hq
      obtain ⟨hq, hne⟩ := (hm.mem_update_tail hC).1 hq
      refine ⟨(hm.own p' q hq).1, fun h => ?_⟩
      rcases mem_cons.1 h with h | h
      · exact hne h
      · exact (hm.own p' q hq).2 h
    case freed =>
      intro q hq
      rcases mem_cons.1 hq with rfl | hq
      · exact halloc
      · exact hm.freed q hq
    case one => exact hone
    case nodup => exact hnodup
    case zero => exact hm.zero
    case notag => exact hm.notag
    case used => exact hm.used
    case range => exact hm.range
    case tags => exact hm.tags

theorem Mem.setQueue {next : Cell → Option Rpc} {Q' : List Rpc} (hqueue : Chain next .list .queue Q')
    (hsub : ∀ r ∈ Q', ∃ p, r ∈ C p) (hfree : next .rpcfree = a.next .rpcfree)
    (hlist : ∀ r ∈ F, next (.list r) = a.next (.list r)) : Mem { a with next } Q' F C :=
  ⟨hqueue, hm.free.congr hfree hlist, hsub, hm.own, hm.freed, hm.one, hm.nodup, hm.zero, hm.notag, hm.used,
    hm.range, hm.tags⟩

theorem Mem.enqueue (hr : r ∈ C p) (hQ : r ∉ Q) :
    Mem { a with next := update (update a.next (.list r) (a.next .queue)) .queue (some r) }
    (r :: Q) F C := by
  refine hm.setQueue (hm.queue.push hQ list_injective nofun) ?_ ?_ fun q hq => ?_
  · intro q hq
    rcases mem_cons.1 hq with rfl | hq
    · exact ⟨p, hr⟩
    · exact hm.queued q hq
  · simp
  · have hne : q ≠ r := fun h => (hm.own p r hr).2 (h ▸ hq)
    simp [hne]

theorem Mem.length_queue : Q.length < 64 * 1024 := by
  have hown : ∀ r ∈ Q, a.allocated r = true := fun r hr => by
    obtain ⟨p, hp⟩ := hm.queued r hr
    exact (hm.own p r hp).1
  have hnd : (Q.map fun r => (a.rpc r).request.tag).Nodup :=
    hm.queue.nodup.map_on fun r hr r' hr' heq => hm.tags r r' (hown r hr) (hown r' hr') heq
  have hsub : (Q.map fun r => (a.rpc r).request.tag) ⊆ List.range NOTAG := by
    intro t ht
    obtain ⟨r, hr, rfl⟩ := mem_map.1 ht
    exact mem_range.2 (hm.range r (hown r hr)).2
  have hle := (subperm_of_subset hnd hsub).length_le
  rw [length_map, length_range] at hle
  exact lt_of_le_of_lt hle (by decide)

theorem Mem.unlink (f : Rpc → Bool) :
    Mem { a with next := (unlinkFirst .list f (64 * 1024) .queue a.next).1 } (Q.eraseP f) F C ∧
      (unlinkFirst .list f (64 * 1024) .queue a.next).2 = Q.find? f := by
  obtain ⟨hch, hfind, hother⟩ := unlinkFirst_spec (p := f) list_injective hm.queue hm.length_queue nofun
  have hF : ∀ r ∈ F, ∀ q ∈ Q, Cell.list r ≠ Cell.list q := by
    intro r hr q hq h
    cases h
    obtain ⟨p, hp⟩ := hm.queued r hq
    exact (hm.own p r hp).2 hr
  refine ⟨hm.setQueue hch (fun r hr => hm.queued r (mem_of_mem_eraseP hr)) ?_ fun r hr => ?_, hfind⟩
  · exact hother _ nofun fun _ _ => nofun
  · exact hother _ nofun (hF r hr)

end

end

end Node9.MntMux
