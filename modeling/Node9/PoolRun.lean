import Node9.PoolGrow

/-!
# Runs of a pool

Any sequence of `dopoolalloc`, `poolfree` and `poolrealloc`. `live` keeps account of what has been handed out, with
the number of bytes that was asked for. A call of `dopoolalloc` has an `sbrk` of its own, which may fail as it
likes. The pool starts empty, in a memory of which nothing is known.
-/

namespace Node9.Pool
open List

structure Run where
  s : St
  live : List (Nat × Nat)

inductive Act
  | alloc (sbrk : Nat → Nat → Option Nat) (restricted : Bool) (asize : Nat)
  | free (x : Nat × Nat)
  | realloc (sbrk : Nat → Nat → Option Nat) (restricted : Bool) (v : Option (Nat × Nat)) (size : Nat)

/-- The blocks that are out after a call of `poolrealloc`. -/
def reallocated (v : Option (Nat × Nat)) (size : Nat) (r : Option Nat) (live : List (Nat × Nat)) : List (Nat × Nat) :=
  if 2 ^ 30 ≤ size then live
  else if size = 0 then v.elim live live.erase
  else r.elim live fun b => (b, size) :: v.elim live live.erase

/-- Two rounds of `dopoolalloc` are enough. -/
def step (r : Run) : Act → Option Run
  | .alloc sbrk restricted asize =>
    (dopoolalloc sbrk restricted 2 asize r.s).map fun o => ⟨o.2, o.1.elim r.live fun b => (b, asize) :: r.live⟩
  | .free x => if r.live.contains x then some ⟨poolfree x.1 r.s, r.live.erase x⟩ else none
  | .realloc sbrk restricted v size =>
    if v.all r.live.contains then
      (poolrealloc sbrk restricted 2 (v.map Prod.fst) size r.s).map fun o => ⟨o.2, reallocated v size o.1 r.live⟩
    else none

def Act.Fair (r : Run) : Act → Prop
  | .alloc sbrk _ _ => Sbrk r.s sbrk
  | .free _ => True
  | .realloc sbrk _ _ _ => Sbrk r.s sbrk

/-- A pool at the start, as those of the table: the chunk is a multiple of the size of a leader. -/
structure Empty (s : St) : Prop where
  root : s.tree.root = none
  chain : s.chain = none
  cursize : s.cursize = 0
  arenasize : s.arenasize = 0
  got : s.got = []
  move : s.move = false
  chunk : ldr ∣ s.chunk

/-- What has been handed out are the live blocks. -/
structure Held (bs : List Block) (live : List (Nat × Nat)) : Prop where
  perm : (live.map Prod.fst).Perm ((lives bs).map Block.addr)
  payload : ∀ x ∈ live, ∃ b ∈ lives bs, b.addr = x.1 ∧ x.2 + BHDRSIZE ≤ b.size

variable {s s' : St} {as : List Arena} {b : Block} {bs bs' : List Block} {live : List (Nat × Nat)} {n asize : Nat}
    {r : Run}

namespace Held

theorem congr (h : Held bs live) (hp : (lives bs').Perm (lives bs)) : Held bs' live :=
  ⟨h.perm.trans (hp.map Block.addr).symm, fun x hx => by
    obtain ⟨b, hb, hbx⟩ := h.payload x hx
    exact ⟨b, hp.mem_iff.2 hb, hbx⟩⟩

theorem alloc (h : Held bs live) (hp : (lives bs').Perm (b :: lives bs)) (hn : n + BHDRSIZE ≤ b.size) :
    Held bs' ((b.addr, n) :: live) := by
  refine ⟨?_, fun x hx => ?_⟩
  · rw [map_cons]
    exact (h.perm.cons b.addr).trans (hp.map Block.addr).symm
  · rcases mem_cons.1 hx with rfl | hx
    · exact ⟨b, hp.mem_iff.2 (mem_cons_self ..), rfl, hn⟩
    · obtain ⟨c, hc, hcx⟩ := h.payload x hx
      exact ⟨c, hp.mem_iff.2 (mem_cons_of_mem b hc), hcx⟩

theorem free (h : Held bs live) (hnd : ((lives bs).map Block.addr).Nodup) (hp : (lives bs).Perm (b :: lives bs'))
    (hx : (b.addr, n) ∈ live) : Held bs' (live.erase (b.addr, n)) := by
  have hlive : live.Perm ((b.addr, n) :: live.erase (b.addr, n)) := perm_cons_erase hx
  have hperm : ((live.erase (b.addr, n)).map Prod.fst).Perm ((lives bs').map Block.addr) := by
    have hcons := ((hlive.map Prod.fst).symm.trans h.perm).trans (hp.map Block.addr)
    exact hcons.cons_inv
  have hnd' : (live.map Prod.fst).Nodup := h.perm.nodup_iff.2 hnd
  refine ⟨hperm, fun y hy => ?_⟩
  obtain ⟨c, hc, hca, hcz⟩ := h.payload y (mem_of_mem_erase hy)
  rcases mem_cons.1 (hp.mem_iff.1 hc) with rfl | hc
  · -- another block at the same address
    have hnd'' := (hlive.map Prod.fst).nodup_iff.1 hnd'
    rw [map_cons] at hnd''
    exact absurd (mem_map.2 ⟨y, hy, hca.symm⟩) (nodup_cons.1 hnd'').1
  · exact ⟨c, hc, hca, hcz⟩

end Held

theorem Layout.nodup (h : Layout s as) : ((blocks as).map Block.addr).Nodup := by
  refine pairwise_map.2 (h.pairwise.imp_of_mem fun {b c} hb hc hbc heq => ?_)
  have hbp := (h.sized hb).1.pos
  have hcp := (h.sized hc).1.pos
  unfold Block.fin at hbc
  omega

theorem Layout.nodup_lives (h : Layout s as) : ((lives (blocks as)).map Block.addr).Nodup :=
  h.nodup.sublist (filter_sublist.map Block.addr)

structure Good (r : Run) (as : List Arena) : Prop where
  heap : Heap r.s as
  move : r.s.move = false
  held : Held (blocks as) r.live

theorem Good.free {x : Nat × Nat} (h : Good r as) (hx : x ∈ r.live) :
    ∃ as', Good ⟨poolfree x.1 r.s, r.live.erase x⟩ as' := by
  obtain ⟨b, hb, hbx, -⟩ := h.held.payload x hx
  obtain ⟨as', hheap, hperm, -, hmove⟩ := h.heap.poolfree hb
  obtain ⟨a, n⟩ := x
  cases hbx
  exact ⟨as', hheap, hmove.trans h.move, h.held.free h.heap.layout.nodup_lives hperm hx⟩

theorem Good.alloc {sbrk : Nat → Nat → Option Nat} {restricted : Bool} {b : Option Nat} (h : Good r as)
    (hs : Sbrk r.s sbrk) (ha : dopoolalloc sbrk restricted n asize r.s = some (b, s')) :
    ∃ as', Good ⟨s', b.elim r.live fun b => (b, asize) :: r.live⟩ as' := by
  obtain ⟨as', hheap, hm, hcase⟩ := (dopoolalloc_spec h.heap h.move hs).1 n b s' ha
  cases b with
  | none => exact ⟨as', hheap, hm, h.held.congr hcase⟩
  | some t =>
    obtain ⟨b, rfl, -, hle, hperm⟩ := hcase
    exact ⟨as', hheap, hm, h.held.alloc hperm hle⟩

theorem Held.resize {x : Nat × Nat} (h : Held bs live) (hx : x ∈ live) (hb : b ∈ lives bs) (hbx : b.addr = x.1)
    (hn : n + BHDRSIZE ≤ b.size) : Held bs ((x.1, n) :: live.erase x) := by
  refine ⟨?_, fun y hy => ?_⟩
  · have hperm := (perm_cons_erase hx).map Prod.fst
    rw [map_cons] at hperm ⊢
    exact hperm.symm.trans h.perm
  · rcases mem_cons.1 hy with rfl | hy
    · exact ⟨b, hb, hbx, hn⟩
    · exact h.payload y (mem_of_mem_erase hy)

theorem Good.same (h : Good r as) {s' : St} (htree : s'.tree = r.s.tree) (hring : s'.ring = r.s.ring)
    (hsize : s'.size = r.s.size) (hf : Frame r.s s' 0 0) (hcur : s'.cursize = r.s.cursize) : Good ⟨s', r.live⟩ as :=
  ⟨⟨h.heap.layout.same hf, h.heap.free.congr htree hring fun x _ => by rw [hsize], hcur.trans h.heap.cursize⟩,
    hf.move.trans h.move, h.held⟩

theorem Good.realloc {sbrk : Nat → Nat → Option Nat} {restricted : Bool} {v : Option (Nat × Nat)} {size : Nat}
    {b : Option Nat} (h : Good r as) (hs : Sbrk r.s sbrk) (hv : ∀ x ∈ v, x ∈ r.live)
    (ha : poolrealloc sbrk restricted n (v.map Prod.fst) size r.s = some (b, s')) :
    ∃ as', Good ⟨s', reallocated v size b r.live⟩ as' := by
  unfold poolrealloc at ha
  unfold reallocated
  by_cases hbig : 2 ^ 30 ≤ size
  · rw [if_pos hbig] at ha ⊢
    cases ha
    exact ⟨as, h⟩
  rw [if_neg hbig] at ha ⊢
  by_cases hzero : size = 0
  · rw [if_pos hzero] at ha ⊢
    cases v with
    | none => cases ha
    | some x =>
      cases ha
      exact h.free (hv x rfl)
  rw [if_neg hzero] at ha ⊢
  have halloc : ∀ b s', poolalloc sbrk restricted n size r.s = some (b, s') →
      ∃ as', Good ⟨s', b.elim r.live fun b => (b, size) :: r.live⟩ as' := by
    intro b s' hb
    unfold poolalloc at hb
    split at hb
    · cases hb
      exact ⟨as, h⟩
    · exact h.alloc hs hb
  cases v with
  | none => exact halloc b s' ha
  | some x =>
    have hx := hv x rfl
    obtain ⟨c, hc, hcx, -⟩ := h.held.payload x hx
    have hcz : r.s.size x.1 = c.size := hcx ▸ (h.heap.layout.sized (mem_lives.1 hc).1).1.size
    dsimp only [Option.map_some] at ha
    by_cases hfits : size ≤ r.s.size x.1 - BHDRSIZE
    · rw [if_pos hfits] at ha
      cases ha
      exact ⟨as, h.heap, h.move, h.held.resize hx hc hcx (by omega)⟩
    rw [if_neg hfits] at ha
    cases hpa : poolalloc sbrk restricted n size r.s with
    | none =>
      rw [hpa] at ha
      cases ha
    | some p =>
      obtain ⟨b₁, s₁⟩ := p
      rw [hpa] at ha
      obtain ⟨as', hgood⟩ := halloc b₁ s₁ hpa
      cases b₁ with
      | none =>
        cases ha
        exact ⟨as', hgood⟩
      | some d =>
        cases ha
        -- the old block is still there, and goes
        have hcopy : ∀ w, Good ⟨{ s₁ with data := Function.update s₁.data d w }, (d, size) :: r.live⟩ as' := fun w =>
          hgood.same rfl rfl rfl { (Frame.refl : Frame s₁ s₁ 0 0) with } rfl
        obtain ⟨as'', hfin⟩ := (hcopy _).free (x := x) (mem_cons_of_mem _ hx)
        have hne : (d, size) ≠ x := by
          rintro rfl
          have hnd := hgood.held.perm.nodup_iff.2 hgood.heap.layout.nodup_lives
          exact (nodup_cons.1 hnd).1 (mem_map.2 ⟨_, hx, rfl⟩)
        dsimp only at hfin
        rw [erase_cons_tail (by simpa using hne)] at hfin
        exact ⟨as'', hfin⟩

theorem Empty.good (h : Empty s) : Good ⟨s, []⟩ [] := by
  refine ⟨⟨⟨h.chain, fun a ha => ?_, List.Pairwise.nil, fun x hx => ?_, zero_le, ?_, h.chunk⟩, ?_, ?_⟩, h.move,
    List.Perm.refl _, fun x hx => ?_⟩
  · cases ha
  · cases hx
  · rw [h.arenasize]
    exact zero_le
  · refine ⟨.nil, fun _ => [], ⟨h.root, List.Pairwise.nil, fun x hx => ?_, fun x hx => ?_, nodup_nil⟩,
      List.Perm.refl _⟩
    · cases hx
    · cases hx
  · rw [h.cursize]
    rfl
  · cases hx

theorem step_good {a : Act} {r' : Run} (h : ∃ as, Good r as) (hf : a.Fair r) (hs : step r a = some r') :
    ∃ as, Good r' as := by
  obtain ⟨as, h⟩ := h
  cases a with
  | alloc sbrk restricted asize =>
    obtain ⟨⟨b, s'⟩, ha, rfl⟩ := Option.map_eq_some_iff.1 hs
    exact h.alloc hf ha
  | free x =>
    dsimp only [step] at hs
    split at hs
    case isTrue hx =>
      cases hs
      exact h.free (contains_iff_mem.1 hx)
    case isFalse => cases hs
  | realloc sbrk restricted v size =>
    dsimp only [step] at hs
    split at hs
    case isTrue hv =>
      obtain ⟨⟨b, s'⟩, ha, rfl⟩ := Option.map_eq_some_iff.1 hs
      exact h.realloc hf (fun x hx => contains_iff_mem.1 ((Option.all_eq_true _ v).1 hv x hx)) ha
    case isFalse => cases hs

theorem Good.live_apart (h : Good r as) : r.live.Pairwise fun x y =>
    x.1 + r.s.size x.1 ≤ y.1 ∨ y.1 + r.s.size y.1 ≤ x.1 := by
  have hnd : (r.live.map Prod.fst).Nodup := h.held.perm.nodup_iff.2 h.heap.layout.nodup_lives
  refine (pairwise_map.1 hnd).imp_of_mem fun {x y} hx hy hne => ?_
  obtain ⟨b, hb, hbx, -⟩ := h.held.payload x hx
  obtain ⟨c, hc, hcy, -⟩ := h.held.payload y hy
  have hbs := (h.heap.layout.sized (mem_lives.1 hb).1).1.size
  have hcs := (h.heap.layout.sized (mem_lives.1 hc).1).1.size
  rw [← hbx, ← hcy, hbs, hcs]
  exact h.heap.layout.disjoint (mem_lives.1 hb).1 (mem_lives.1 hc).1 fun heq => hne (by rw [← hbx, ← hcy, heq])

theorem Good.cursize (h : Good r as) : r.s.cursize = (r.live.map fun x => r.s.size x.1).sum := by
  have hsizes : (lives (blocks as)).map Block.size = (lives (blocks as)).map (r.s.size ∘ Block.addr) :=
    map_congr_left fun b hb => (h.heap.layout.sized (mem_lives.1 hb).1).1.size.symm
  have hperm := h.held.perm.map r.s.size
  rw [map_map, map_map] at hperm
  rw [h.heap.cursize, hsizes, ← hperm.sum_eq]
  rfl

/-- The picture of memory on which everything agrees. -/
def Sound (r : Run) : Prop :=
  (∃ as, Heap r.s as ∧ (r.live.map Prod.fst).Perm ((lives (blocks as)).map Block.addr)) ∧
    (r.live.Pairwise fun x y => x.1 + r.s.size x.1 ≤ y.1 ∨ y.1 + r.s.size y.1 ≤ x.1) ∧
    (∀ x ∈ r.live, x.2 + BHDRSIZE ≤ r.s.size x.1) ∧
    r.s.cursize = (r.live.map fun x => r.s.size x.1).sum ∧
    ∀ sbrk restricted asize, Sbrk r.s sbrk → ∃ b s', dopoolalloc sbrk restricted 2 asize r.s = some (b, s')

theorem Good.sound (h : Good r as) : Sound r := by
  refine ⟨⟨as, h.heap, h.held.perm⟩, h.live_apart, fun x hx => ?_, h.cursize, fun sbrk restricted asize hs => ?_⟩
  · obtain ⟨b, hb, hbx, hle⟩ := h.held.payload x hx
    rw [← hbx, (h.heap.layout.sized (mem_lives.1 hb).1).1.size]
    exact hle
  · exact (dopoolalloc_spec h.heap h.move hs).2

theorem always_sound (h : Empty s) (acts : List Act) (hf : Steps.Along step (fun r a => a.Fair r) ⟨s, []⟩ acts) :
    Steps.Always step Sound ⟨s, []⟩ acts :=
  (hf.always (I := fun r => ∃ as, Good r as) (fun _ _ _ hI hG hs => step_good hI hG hs) ⟨[], h.good⟩).mono
    fun _ ⟨_, hgood⟩ => hgood.sound

/-- A pool of the table, with an `sbrk` that gives 4096 once. -/
def start : St where
  tree := ⟨none, fun _ => none, fun _ => none, fun _ => none⟩
  ring := ⟨id, id⟩
  magic _ := .zero
  size _ := 0
  tail _ := 0
  data _ := []
  clink _ := none
  csize _ := 0
  chain := none
  maxsize := 32 * 1024 * 1024
  ressize := 31 * 1024 * 1024
  chunk := 512 * 1024
  cursize := 0
  arenasize := 0
  hw := 0
  nalloc := 0
  nfree := 0
  nbrk := 0
  lastfree := 0
  move := false
  moved := []
  got := []

theorem always_sound_start : Steps.Always step Sound ⟨start, []⟩ [.alloc (fun _ _ => some 4096) false 100,
    .free (4160, 100)] := by
  refine always_sound ⟨rfl, rfl, rfl, rfl, rfl, rfl,
    by decide⟩ _ fun r₁ _ => ⟨fun k n t ht => ?_, fun r₂ _ => ⟨trivial, trivial⟩⟩
  cases ht
  exact ⟨by decide, fun g hg => by cases hg⟩

end Node9.Pool
