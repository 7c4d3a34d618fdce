import Node9.PoolFit

/-!
# Compaction

`poolcompact` slides the live blocks of each arena down to its start, and makes the tree anew of what is left at the
ends of the arenas. A block is copied as it is, with its tail: at its new end is still the address that it had.
-/

namespace Node9.Pool
open PtrTree Intrusive Function
open List hiding after

/-- The blocks that `poolimmutable` has hidden are as live as the others. -/
def St.mutable (s : St) : St := { s with magic := fun b => if s.magic b = .I then .A else s.magic b }

/-- A live block, and what it is after `poolcompact`. The hook has been told if it is somewhere else. -/
structure Slid (s s' : St) (b c : Block) : Prop where
  size : c.size = b.size
  magic : s'.magic c.addr = s.magic b.addr
  data : s'.data c.addr = s.data b.addr
  told : c.addr = b.addr ∨ (b.addr, c.addr) ∈ s'.moved

/-- Each arena has the live blocks that it had, in their order. -/
def Keeps (s s' : St) (as as' : List Arena) : Prop :=
  List.Forall₂ (fun a a' => a'.base = a.base ∧ List.Forall₂ (Slid s s') (lives a.blocks) (lives a'.blocks)) as as'

/-- No live block comes after a free one. -/
def Settled (bs : List Block) : Prop := bs.Pairwise fun b c => ¬ (b.free = true ∧ c.free = false)

variable {s s' : St} {as as' as₁ as₂ : List Arena} {a d : Arena} {b c : Block} {bs bs' : List Block} {l : List Nat}
  {lo hi ptr fin limit base n x z : Nat} {k : Bool}

theorem Frame.mutable (h : Frame s s' lo hi) : Frame s.mutable s'.mutable lo hi := by
  refine { h with magic := fun x hx => ?_ }
  show (if s'.magic x = .I then Magic.A else s'.magic x) = if s.magic x = .I then .A else s.magic x
  rw [h.magic x hx]

theorem live_iff (hm : s.mutable.magic x = b.magic) : s.magic x = .A ∨ s.magic x = .I ↔ ¬ b.free = true := by
  have hm : (if s.magic x = .I then Magic.A else s.magic x) = if b.free = true then .F else .A := hm
  by_cases hb : b.free = true
  · rw [if_pos hb] at hm
    refine iff_of_false ?_ (not_not.2 hb)
    rintro (hx | hx) <;> simp [hx] at hm
  rw [if_neg hb] at hm
  refine iff_of_true ?_ hb
  by_cases hx : s.magic x = .I
  · exact .inr hx
  · rw [if_neg hx] at hm
    exact .inl hm

theorem magic_of_free (hm : s.mutable.magic x = b.magic) (hb : b.free = true) : s.magic x = .F := by
  have hm : (if s.magic x = .I then Magic.A else s.magic x) = if b.free = true then .F else .A := hm
  rw [if_pos hb] at hm
  split at hm
  · cases hm
  · exact hm

theorem magic_of_mark (hm : s.mutable.magic x = .E) : s.magic x = .E := by
  have hm : (if s.magic x = .I then Magic.A else s.magic x) = .E := hm
  split at hm
  · cases hm
  · exact hm

/-- What the loop makes of the blocks of an arena, from `ptr` on. -/
def squeeze (limit : Nat) : List Block → Nat → Nat → St → St
  | [], _, fin, s => leftover limit fin s
  | b :: bs, ptr, fin, s =>
    if b.free then squeeze limit bs (ptr + b.size) fin s
    else squeeze limit bs (ptr + b.size) (fin + b.size) (if ptr = fin then s else moveBlock ptr fin s)

theorem frame_moveBlock (hz : s.size ptr = z) (hpos : 0 < z) : Frame s (moveBlock ptr fin s) fin (fin + z) := by
  subst hz
  refine ⟨⟨fun x hx => ?_, fun x hx => ?_, fun x hx => ?_⟩, rfl, rfl, rfl, rfl, rfl, rfl, rfl, rfl⟩
  · exact update_of_ne (by omega) ..
  · exact update_of_ne (by omega) ..
  · exact update_of_ne (by omega) ..

theorem frame_leftover (hle : fin ≤ limit) : Frame s (leftover limit fin s) fin limit := by
  unfold leftover
  split
  next hlt =>
    have hsize : (s.setSize fin (limit - fin)).size fin = limit - fin := update_self ..
    refine ((Frame.refl.setSize le_rfl (by omega)).setTail ?_ ?_).pooladd le_rfl (by omega)
    · omega
    · omega
  next => exact .refl

theorem Seg.moved (h : Seg s.mutable (ptr + z) bs limit) (hz : s.size ptr = z) (hpos : 0 < z) (hlt : fin < ptr) :
    Seg (moveBlock ptr fin s).mutable (ptr + z) bs limit :=
  h.frame (frame_moveBlock hz hpos).mutable.toOutside (.inr (by omega))

theorem squeeze_frame (h : Seg s.mutable ptr bs limit) (hle : fin ≤ ptr) :
    Frame s (squeeze limit bs ptr fin s) fin limit := by
  induction bs generalizing ptr fin s with
  | nil => exact frame_leftover (hle.trans (le_of_eq h))
  | cons b bs ih =>
    obtain ⟨-, hs, -, hrest⟩ := h
    have hpos := hs.pos
    have hlim := hrest.le
    rw [squeeze]
    split
    next => exact ih hrest (by omega)
    next =>
      have hlater : ∀ {t : St}, Seg t.mutable (ptr + b.size) bs limit →
          Frame t (squeeze limit bs (ptr + b.size) (fin + b.size) t) fin limit :=
        fun h => (ih h (Nat.add_le_add_right hle b.size)).mono (Nat.le_add_right fin b.size) le_rfl
      split
      next => exact hlater hrest
      next hne =>
        have hmove : Frame s (moveBlock ptr fin s) fin (fin + b.size) := frame_moveBlock hs.size hpos
        exact (hmove.mono le_rfl (by omega)).trans (hlater (hrest.moved hs.size hpos (by omega)))

theorem Seg.eq_nil (h : Seg s lo bs hi) (hle : hi ≤ lo) : bs = [] := by
  cases bs with
  | nil => rfl
  | cons b bs =>
    obtain ⟨-, hs, -, hrest⟩ := h
    have hpos := hs.pos
    have hlim := hrest.le
    omega

/-- The loop goes on with the next arena. -/
def after (n base : Nat) (k : Bool) (s : St) : Bool × St :=
  (s.clink base).elim (k, s) fun base => compact n base (s.limit base) (s.nb base) (s.nb base) k s

theorem compact_free (hlive : ¬ (s.magic ptr = .A ∨ s.magic ptr = .I)) : compact (n + 1) base limit ptr fin k s =
    if limit ≤ s.nb ptr then after n base k (leftover limit fin s) else compact n base limit (s.nb ptr) fin k s := by
  rw [compact]
  dsimp only
  have hstay : ¬ ((s.magic ptr = .A ∨ s.magic ptr = .I) ∧ ptr ≠ fin) := fun h => hlive h.1
  simp only [if_neg hstay, if_neg hlive, after]
  cases (leftover limit fin s).clink base with
  | none => rfl
  | some base => rfl

theorem compact_live (hlive : s.magic ptr = .A ∨ s.magic ptr = .I) :
    ∃ k', compact (n + 1) base limit ptr fin k s =
      let t := if ptr = fin then s else moveBlock ptr fin s
      if limit ≤ s.nb ptr then after n base k' (leftover limit (t.nb fin) t) else compact n base limit (s.nb ptr)
        (t.nb fin) k' t := by
  refine ⟨if ptr = fin then k else true, ?_⟩
  rw [compact]
  dsimp only
  by_cases hmove : ptr = fin
  · have hstay : ¬ ((s.magic ptr = .A ∨ s.magic ptr = .I) ∧ ptr ≠ fin) := fun h => h.2 hmove
    simp only [if_neg hstay, if_pos hlive, if_pos hmove, after]
    cases (leftover limit (s.nb fin) s).clink base with
    | none => rfl
    | some base => rfl
  · have hslide : (s.magic ptr = .A ∨ s.magic ptr = .I) ∧ ptr ≠ fin := ⟨hlive, hmove⟩
    simp only [if_pos hslide, if_pos hlive, if_neg hmove, after]
    cases (leftover limit ((moveBlock ptr fin s).nb fin) (moveBlock ptr fin s)).clink base with
    | none => rfl
    | some base => rfl

theorem compact_squeeze (h : Seg s.mutable ptr bs limit) (hle : fin ≤ ptr) (hmark : s.magic limit = .E)
    (hn : bs.length < n) :
    ∃ k' m, n ≤ m + (bs.length + 1) ∧ compact n base limit ptr fin k s = after m base k'
    (squeeze limit bs ptr fin s) := by
  induction bs generalizing ptr fin s n k with
  | nil =>
    obtain ⟨n, rfl⟩ := Nat.exists_eq_add_one_of_ne_zero (Nat.ne_of_gt hn)
    obtain rfl : ptr = limit := h
    have hdead : ¬ (s.magic ptr = .A ∨ s.magic ptr = .I) := by
      rw [hmark]
      simp
    exact ⟨k, n, le_rfl, (compact_free hdead).trans (if_pos (Nat.le_add_right ptr _))⟩
  | cons b bs ih =>
    obtain ⟨n, rfl⟩ := Nat.exists_eq_add_one_of_ne_zero (Nat.ne_of_gt (Nat.zero_lt_of_lt hn))
    obtain ⟨-, hs, hm, hrest⟩ := h
    have hpos := hs.pos
    have hlim := hrest.le
    have hnext : s.nb ptr = ptr + b.size := congrArg (ptr + ·) hs.size
    rw [squeeze]
    by_cases hb : b.free = true
    · rw [if_pos hb, compact_free ((live_iff hm).not.2 (not_not.2 hb)), hnext]
      by_cases hlast : limit ≤ ptr + b.size
      · obtain rfl := hrest.eq_nil hlast
        rw [if_pos hlast]
        exact ⟨k, n, Nat.add_le_add_left (by simp) n, rfl⟩
      · rw [if_neg hlast]
        obtain ⟨k', m, hm, heq⟩ := ih hrest (hle.trans (Nat.le_add_right ptr b.size)) hmark (Nat.lt_of_succ_lt_succ hn)
        exact ⟨k', m, by rw [length_cons]; omega, heq⟩
    obtain ⟨k₁, heq⟩ : ∃ k', compact (n + 1) base limit ptr fin k s = _ := compact_live ((live_iff hm).2 hb)
    dsimp only at heq
    rw [if_neg hb, heq, hnext]
    generalize ht : (if ptr = fin then s else moveBlock ptr fin s) = t
    obtain ⟨hrest, hmark, hsize⟩ : Seg t.mutable (ptr + b.size) bs limit ∧ t.magic limit = .E ∧
      t.size fin = b.size := by
      split at ht
      next hfin =>
        subst ht hfin
        exact ⟨hrest, hmark, hs.size⟩
      next hfin =>
        subst ht
        have hmove : Frame s (moveBlock ptr fin s) fin (fin + b.size) := frame_moveBlock hs.size hpos
        refine ⟨hrest.moved hs.size hpos (by omega), ?_, (update_self ..).trans hs.size⟩
        exact (hmove.magic limit (.inr (by omega))).trans hmark
    have hend : t.nb fin = fin + b.size := congrArg (fin + ·) hsize
    rw [hend]
    by_cases hlast : limit ≤ ptr + b.size
    · obtain rfl := hrest.eq_nil hlast
      rw [if_pos hlast]
      exact ⟨k₁, n, Nat.add_le_add_left (by simp) n, rfl⟩
    · rw [if_neg hlast]
      obtain ⟨k', m, hm, heq⟩ := ih hrest (Nat.add_le_add_right hle b.size) hmark (Nat.lt_of_succ_lt_succ hn)
      exact ⟨k', m, by rw [length_cons]; omega, heq⟩

theorem settled_of_lives (h : lives bs = []) : Settled (b :: bs) := by
  have hfree : ∀ c ∈ bs, c.free ≠ false := by
    intro c hc hfree
    rw [eq_nil_iff_forall_not_mem] at h
    exact h c (mem_lives.2 ⟨hc, hfree⟩)
  exact pairwise_cons.2 ⟨fun c hc hbc => hfree c hc hbc.2,
    pairwise_of_forall_mem_list fun c _ d hd hcd => hfree d hd hcd.2⟩

theorem not_seg_of_hole (h : Seg s.mutable ptr bs limit) (hlt : fin < ptr) (hl : lives bs ≠ []) :
    ¬ Seg (squeeze limit bs ptr fin s).mutable fin bs' limit := by
  induction bs generalizing ptr s with
  | nil => exact absurd rfl hl
  | cons b bs ih =>
    obtain ⟨-, hs, -, hrest⟩ := h
    have hpos := hs.pos
    have hlim := hrest.le
    rw [squeeze]
    by_cases hb : b.free = true
    · rw [lives_cons_of_free hb] at hl
      rw [if_pos hb]
      exact ih hrest (by omega) hl
    rw [if_neg hb, if_neg (Nat.ne_of_gt hlt)]
    have hlater := squeeze_frame (hrest.moved hs.size hpos hlt) (Nat.add_le_add_right hlt.le b.size)
    intro hseg
    cases bs' with
    | nil =>
      obtain rfl : fin = limit := hseg
      omega
    | cons c bs' =>
      obtain ⟨-, ⟨hsize, htail, -, -⟩, -, -⟩ := hseg
      have hc : c.size = b.size := by
        rw [← hsize]
        exact (hlater.size fin (.inl (by omega))).trans ((update_self ..).trans hs.size)
      have hold : s.tail (ptr + s.size ptr) = ptr := by
        rw [show s.size ptr = b.size from hs.size]
        exact hs.tail
      have hnew : (moveBlock ptr fin s).tail (fin + b.size) = ptr := by
        rw [← show s.size ptr = b.size from hs.size]
        exact (update_self ..).trans hold
      rw [hc] at htail
      have hfin : fin = ptr := htail.symm.trans ((hlater.tail _ (.inl le_rfl)).trans hnew)
      exact hlt.ne hfin

theorem not_seg_of_unsettled (h : Seg s.mutable ptr bs limit) (hset : ¬ Settled bs) :
    ¬ Seg (squeeze limit bs ptr ptr s).mutable ptr bs' limit := by
  induction bs generalizing ptr s bs' with
  | nil => exact absurd List.Pairwise.nil hset
  | cons b bs ih =>
    obtain ⟨-, hs, -, hrest⟩ := h
    have hpos := hs.pos
    have hlim := hrest.le
    rw [squeeze]
    by_cases hb : b.free = true
    · rw [if_pos hb]
      exact not_seg_of_hole hrest (by omega) fun hnil => hset (settled_of_lives hnil)
    rw [if_neg hb, if_pos rfl]
    have hlater := squeeze_frame hrest le_rfl
    intro hseg
    cases bs' with
    | nil =>
      obtain rfl : ptr = limit := hseg
      omega
    | cons c bs' =>
      obtain ⟨-, ⟨hsize, -, -, -⟩, -, hseg⟩ := hseg
      have hc : c.size = b.size := by
        rw [← hsize]
        exact (hlater.size ptr (.inl (by omega))).trans hs.size
      rw [hc] at hseg
      refine ih hrest (fun hrest => hset (pairwise_cons.2 ⟨fun d _ hbd => hb hbd.1, hrest⟩)) hseg


/-! ### What has not moved -/

theorem setMagic_self {v : Magic} (h : s.magic x = v) : s.setMagic x v = s := by
  subst h
  rw [St.setMagic, update_eq_self]

theorem setSize_self (h : s.size x = z) : s.setSize x z = s := by
  subst h
  rw [St.setSize, update_eq_self]

theorem setTail_self (h : s.tail (x + s.size x) = x) : s.setTail x = s := by
  have htail : update s.tail (x + s.size x) x = s.tail := by
    funext y
    by_cases hy : y = x + s.size x
    · rw [hy, update_self, h]
    · rw [update_of_ne hy]
  rw [St.setTail, htail]

def Replanted (s s' : St) : Prop := ∃ m k, s' = { s with tree := m, ring := k }

theorem squeeze_settled (h : Seg s.mutable ptr bs limit) (hj : Joined bs) (hset : Settled bs) :
    (frees bs = [] ∧ squeeze limit bs ptr ptr s = s) ∨
      ∃ q, frees bs = [q] ∧ squeeze limit bs ptr ptr s = pooladd q.addr s ∧ s.magic q.addr = .F := by
  induction bs generalizing ptr with
  | nil =>
    obtain rfl : ptr = limit := h
    refine .inl ⟨rfl, ?_⟩
    rw [squeeze, leftover, tsub_self, if_neg (lt_irrefl 0)]
  | cons b bs ih =>
    obtain ⟨hba, hs, hm, hrest⟩ := h
    obtain ⟨hafter, hset⟩ := pairwise_cons.1 hset
    have hpos := hs.pos
    rw [squeeze]
    by_cases hb : b.free = true
    · have hnil : bs = [] := by
        cases bs with
        | nil => rfl
        | cons c bs =>
          have hfree := hafter c mem_cons_self
          have hboth := (isChain_cons_cons.1 hj).1
          cases hc : c.free with
          | true => exact absurd ⟨hb, hc⟩ hboth
          | false => exact absurd ⟨hb, hc⟩ hfree
      subst hnil
      obtain rfl : ptr + b.size = limit := hrest
      have hsize : s.size ptr = b.size := hs.size
      have htail : s.tail (ptr + s.size ptr) = ptr := by
        rw [hsize]
        exact hs.tail
      refine .inr ⟨b, by simp [frees, hb], ?_, hba ▸ magic_of_free hm hb⟩
      rw [if_pos hb, squeeze, leftover, Nat.add_sub_cancel_left, if_pos hpos, setSize_self hsize,
        setTail_self htail, hba]
    · rw [if_neg hb, if_pos rfl]
      have hfrees : frees (b :: bs) = frees bs := filter_cons_of_neg hb
      rw [hfrees]
      exact ih hrest hj.tail hset

theorem replanted_pooladd (h : s.magic x = .F) : Replanted s (pooladd x s) := by
  have heq := pooladd_eq x s
  rw [setMagic_self h] at heq
  exact ⟨_, _, heq⟩

theorem Replanted.trans {t : St} (h : Replanted s t) (h' : Replanted t s') : Replanted s s' := by
  obtain ⟨m, k, rfl⟩ := h
  obtain ⟨m', k', rfl⟩ := h'
  exact ⟨m', k', rfl⟩

def sweep : List Arena → St → St
  | [], s => s
  | a :: as, s => sweep as (squeeze (s.limit a.base) a.blocks a.lo a.lo s)

/-- The arenas that are still to come are as they were. -/
structure Ahead (s : St) (as : List Arena) : Prop where
  arena : ∀ a ∈ as, a.Ok s.mutable
  apart : (bases as).Pairwise (Apart s)

namespace Ahead

section
variable (h : Ahead s (a :: as))
include h

theorem seg : Seg s.mutable a.lo a.blocks (s.limit a.base) := (h.arena a mem_cons_self).seg

theorem frame : Frame s (squeeze (s.limit a.base) a.blocks a.lo a.lo s) a.lo (s.limit a.base) :=
  squeeze_frame h.seg le_rfl

theorem limit_eq : (squeeze (s.limit a.base) a.blocks a.lo a.lo s).limit = s.limit := by
  funext x
  exact congrArg (x + ·) (congrFun h.frame.csize x)

theorem apart_eq : Apart (squeeze (s.limit a.base) a.blocks a.lo a.lo s) = Apart s := by
  funext x y
  unfold Apart
  rw [h.limit_eq]

theorem next : Ahead (squeeze (s.limit a.base) a.blocks a.lo a.lo s) as := by
  have hf := h.frame
  obtain ⟨hap, hapart⟩ := pairwise_cons.1 h.apart
  refine ⟨fun d hd => ?_, ?_⟩
  · have hap : Apart s a.base d.base := hap d.base (mem_map_of_mem hd)
    refine (h.arena d (mem_cons_of_mem a hd)).frame hf.mutable.toOutside (congrFun hf.csize d.base) ?_
    have hlo : a.lo = a.base + ldr := rfl
    have hldr : 0 < ldr := by decide
    have hsame : s.mutable.limit d.base = s.limit d.base := rfl
    unfold Apart at hap
    omega
  · rw [h.apart_eq]
    exact hapart

end

end Ahead

theorem compact_arena (h : Ahead s (a :: as)) (hn : a.blocks.length < n) :
    ∃ k' m, n ≤ m + (a.blocks.length + 1) ∧ compact n a.base (s.limit a.base) (s.nb a.base) (s.nb a.base) k s =
      after m a.base k' (squeeze (s.limit a.base) a.blocks a.lo a.lo s) := by
  have hok := h.arena a mem_cons_self
  have hnb : s.nb a.base = a.lo := congrArg (a.base + ·) hok.size
  rw [hnb]
  exact compact_squeeze h.seg le_rfl (magic_of_mark hok.mark) hn

theorem compact_sweep (h : Ahead s (a :: as)) (hch : Chained s.clink (s.clink a.base) (bases as))
    (hn : ((a :: as).map fun a => a.blocks.length + 1).sum ≤ n) :
    ∃ k', compact n a.base (s.limit a.base) (s.nb a.base) (s.nb a.base) k s = (k', sweep (a :: as) s) := by
  induction as generalizing a s n k with
  | nil =>
    obtain ⟨k', m, -, heq⟩ := compact_arena (k := k) h (by simpa using hn)
    refine ⟨k', heq.trans ?_⟩
    rw [after, h.frame.clink, show s.clink a.base = none from hch]
    rfl
  | cons d as ih =>
    rw [map_cons, sum_cons] at hn
    obtain ⟨k₁, m, hm, heq⟩ : ∃ k' m, n ≤ m + (a.blocks.length + 1) ∧ _ = _ := compact_arena (k := k) h (by omega)
    obtain ⟨hd, hch⟩ := hch
    rw [heq, after, h.frame.clink, hd]
    exact ih h.next (h.frame.clink ▸ hch) (by omega)

theorem sweep_arenas (h : Ahead s as) : (sweep as s).chain = s.chain ∧ (sweep as s).clink = s.clink ∧
    (sweep as s).csize = s.csize := by
  induction as generalizing s with
  | nil => exact ⟨rfl, rfl, rfl⟩
  | cons a as ih =>
    have hf := h.frame
    obtain ⟨hchain, hclink, hcsize⟩ := ih h.next
    exact ⟨hchain.trans hf.chain, hclink.trans hf.clink, hcsize.trans hf.csize⟩

theorem Outside.symm (h : Outside s s' lo hi) : Outside s' s lo hi :=
  ⟨fun x hx => (h.magic x hx).symm, fun x hx => (h.size x hx).symm, fun x hx => (h.tail x hx).symm⟩

theorem seg_of_sweep (h : Ahead s as) (hout : ∀ d ∈ as, hi ≤ d.lo ∨ s.limit d.base ≤ lo)
    (hseg : Seg (sweep as s).mutable lo bs hi) : Seg s.mutable lo bs hi := by
  induction as generalizing s with
  | nil => exact hseg
  | cons d as ih =>
    have hnext := ih h.next
    rw [h.limit_eq] at hnext
    have hseg := hnext (fun e he => hout e (mem_cons_of_mem d he)) hseg
    exact hseg.frame h.frame.mutable.toOutside.symm (hout d mem_cons_self)

theorem not_seg_of_sweep (h : Ahead s as) (ha : a ∈ as) (hset : ¬ Settled a.blocks) :
    ¬ Seg (sweep as s).mutable a.lo bs (s.limit a.base) := by
  induction as generalizing s with
  | nil => cases ha
  | cons d as ih =>
    intro hseg
    rcases mem_cons.1 ha with rfl | ha
    · refine not_seg_of_unsettled h.seg hset (seg_of_sweep h.next (fun d hd => ?_) hseg)
      have hap : Apart s a.base d.base := (pairwise_cons.1 h.apart).1 d.base (mem_map_of_mem hd)
      have hlo : a.lo = a.base + ldr := rfl
      have hlo' : d.lo = d.base + ldr := rfl
      rw [h.limit_eq]
      unfold Apart at hap
      omega
    · have hnot := ih h.next ha
      rw [h.limit_eq] at hnot
      exact hnot hseg

theorem sweep_settled (h : Ahead s as) (hset : ∀ a ∈ as, Settled a.blocks) (hfree : Frees s l)
    (hnd : ((frees (blocks as)).map Block.addr ++ l).Nodup)
    (hn : ((frees (blocks as)).map Block.addr ++ l).length ≤ s.fuel) :
    Replanted s (sweep as s) ∧ Frees (sweep as s) ((frees (blocks as)).map Block.addr ++ l) := by
  induction as generalizing s l with
  | nil => exact ⟨⟨s.tree, s.ring, rfl⟩, hfree⟩
  | cons a as ih =>
    have hnext := h.next
    have hrest : ∀ d ∈ as, Settled d.blocks := fun d hd => hset d (mem_cons_of_mem a hd)
    rw [sweep]
    rw [blocks_cons, frees_append] at hnd hn ⊢
    rcases squeeze_settled h.seg (h.arena a mem_cons_self).joined (hset a mem_cons_self) with
      ⟨hnone, heq⟩ | ⟨q, hq, heq, hmagic⟩
    · rw [heq] at hnext ⊢
      rw [hnone, nil_append] at hnd hn ⊢
      exact ih hnext hrest hfree hnd hn
    rw [heq] at hnext ⊢
    rw [hq, singleton_append, map_cons, cons_append] at hnd hn ⊢
    obtain ⟨hout, -⟩ := nodup_cons.1 hnd
    have hql : q.addr ∉ l := fun hmem => hout (mem_append_right _ hmem)
    have hperm : ((frees (blocks as)).map Block.addr ++ q.addr :: l).Perm
        (q.addr :: ((frees (blocks as)).map Block.addr ++ l)) := perm_middle
    have hlen : l.length ≤ s.fuel := by
      rw [length_cons, length_append] at hn
      omega
    have hplant := replanted_pooladd hmagic
    have hfuel : (pooladd q.addr s).fuel = s.fuel := by
      obtain ⟨m, k, heq⟩ := hplant
      rw [heq]
      rfl
    obtain ⟨hreplanted, hfrees⟩ := ih hnext hrest (hfree.pooladd hql hlen) (hperm.nodup_iff.2 hnd)
      (by rw [hperm.length_eq, hfuel]; exact hn)
    exact ⟨hplant.trans hreplanted, hfrees.perm hperm⟩

theorem rounds_le (h : Layout s as) : (as.map fun a => a.blocks.length + 1).sum ≤ s.fuel := by
  refine le_trans ?_ h.bytes
  rw [bases, map_map]
  refine sum_le_sum fun a ha => ?_
  have hle := (h.arena a ha).seg.length_le
  have hlo : a.lo = a.base + ldr := rfl
  have hldr : 0 < ldr := by decide
  have hlim : s.limit a.base = a.base + s.csize a.base := rfl
  show a.blocks.length + 1 ≤ s.csize a.base + ldr
  omega

/-- The state in which the loop begins. -/
def uprooted (s : St) : St := { s with lastfree := s.nfree, tree := { s.tree with root := none } }

theorem layout_uprooted (h : Layout s.mutable as) : Layout (uprooted s).mutable as :=
  h.same { (Frame.refl : Frame s.mutable s.mutable 0 0) with }

theorem ahead_uprooted (h : Layout s.mutable as) : Ahead (uprooted s) as :=
  ⟨(layout_uprooted h).arena, (layout_uprooted h).apart⟩

theorem poolcompact_eq (h : Layout s.mutable as) (hrun : ¬ (s.move = false ∨ s.lastfree = s.nfree)) (has : as ≠ []) :
    (poolcompact s).2 = sweep as (uprooted s) := by
  obtain ⟨a, as, rfl⟩ := exists_cons_of_ne_nil has
  obtain ⟨hchain, hch⟩ := h.chain
  obtain ⟨k', heq⟩ := compact_sweep (k := false) (ahead_uprooted h) hch (rounds_le (layout_uprooted h))
  unfold poolcompact
  rw [if_neg hrun]
  dsimp only
  split
  next hnone => exact absurd (hchain.symm.trans hnone) (Option.some_ne_none _)
  next base hbase =>
    obtain rfl := Option.some.inj (hchain.symm.trans hbase)
    exact congrArg Prod.snd heq

theorem frees_uprooted : Frees (uprooted s) [] := by
  refine ⟨.nil, fun _ => [], ⟨rfl, List.Pairwise.nil, ?_, ?_, nodup_nil⟩, List.Perm.refl _⟩
  · intro h hh
    cases hh
  · intro h hh
    cases hh

theorem Chained.unique {clink : Nat → Option Nat} {v : Option Nat} {xs ys : List Nat} (h : Chained clink v xs)
    (h' : Chained clink v ys) : xs = ys := by
  induction xs generalizing v ys with
  | nil =>
    obtain rfl : v = none := h
    cases ys with
    | nil => rfl
    | cons y ys => cases h'.1
  | cons x xs ih =>
    obtain ⟨rfl, h⟩ := h
    cases ys with
    | nil => cases h'
    | cons y ys =>
      obtain ⟨hy, h'⟩ := h'
      cases hy
      rw [ih h h']

theorem keeps_refl {t : St} (hmagic : t.magic = s.magic) (hdata : t.data = s.data) : Keeps s t as as := by
  have hslid : ∀ b, Slid s t b b := fun b => ⟨rfl, congrFun hmagic _, congrFun hdata _, .inl rfl⟩
  exact List.forall₂_same.2 fun a _ => ⟨rfl, List.forall₂_same.2 fun b _ => hslid b⟩

theorem heap_of_settled (h : Heap s.mutable as) (hset : ∀ a ∈ as, Settled a.blocks) :
    Heap (sweep as (uprooted s)).mutable as ∧ Keeps s (sweep as (uprooted s)) as as := by
  obtain ⟨⟨m, k, heq⟩, hfrees⟩ := sweep_settled (ahead_uprooted h.layout) hset frees_uprooted
    (by rw [append_nil]; exact h.free.nodup) (by rw [append_nil]; exact h.length_frees)
  rw [append_nil] at hfrees
  rw [heq] at hfrees ⊢
  exact ⟨⟨h.layout.same { (Frame.refl : Frame s.mutable s.mutable 0 0) with }, hfrees, h.cursize⟩, keeps_refl rfl rfl⟩

theorem not_heap_of_unsettled (h : Layout s.mutable as) (hrun : ¬ (s.move = false ∨ s.lastfree = s.nfree)) (ha : a ∈ as)
    (hset : ¬ Settled a.blocks) : ¬ Heap (poolcompact s).2.mutable as' := by
  intro h'
  rw [poolcompact_eq h hrun (ne_nil_of_mem ha)] at h'
  have hahead := ahead_uprooted h
  obtain ⟨hchain, hclink, hcsize⟩ := sweep_arenas hahead
  have hbases : bases as' = bases as := by
    have hch : Chained (sweep as (uprooted s)).clink (sweep as (uprooted s)).chain (bases as') := h'.layout.chain
    rw [hchain, hclink] at hch
    exact hch.unique h.chain
  have hmem : a.base ∈ bases as' := hbases ▸ mem_map_of_mem ha
  obtain ⟨a', ha', hbase⟩ := mem_map.1 hmem
  have hlo : a'.lo = a.lo := congrArg (· + ldr) hbase
  have hlim : (sweep as (uprooted s)).mutable.limit a'.base = (uprooted s).limit a.base := by
    rw [hbase]
    exact congrArg (a.base + ·) (congrFun hcsize a.base)
  have hseg := (h'.layout.arena a' ha').seg
  rw [hlo, hlim] at hseg
  exact not_seg_of_sweep hahead ha hset hseg

/-- What `poolcompact` leaves is a heap again, with the same live blocks, just when it does not run or no live block
comes after a free one. -/
theorem poolcompact_iff (h : Heap s.mutable as) :
    (∃ as', Heap (poolcompact s).2.mutable as' ∧ Keeps s (poolcompact s).2 as as') ↔
      s.move = false ∨ s.lastfree = s.nfree ∨ ∀ a ∈ as, Settled a.blocks := by
  rw [← or_assoc]
  by_cases hrun : s.move = false ∨ s.lastfree = s.nfree
  · refine iff_of_true ⟨as, ?_⟩ (.inl hrun)
    have hs : poolcompact s = (false, s) := if_pos hrun
    rw [hs]
    exact ⟨h, keeps_refl rfl rfl⟩
  rw [or_iff_right hrun]
  constructor
  · rintro ⟨as', h', -⟩ a ha
    by_contra hset
    exact not_heap_of_unsettled h.layout hrun ha hset h'
  · intro hset
    refine ⟨as, ?_⟩
    by_cases has : as = []
    · subst has
      have hchain : s.chain = none := h.layout.chain
      have hs : (poolcompact s).2 = { s with lastfree := s.nfree } := by
        unfold poolcompact
        rw [if_neg hrun]
        dsimp only
        rw [hchain]
      rw [hs]
      exact ⟨⟨h.layout.same { (Frame.refl : Frame s.mutable s.mutable 0 0) with }, h.free, h.cursize⟩,
        keeps_refl rfl rfl⟩
    · rw [poolcompact_eq h.layout hrun has]
      exact heap_of_settled h hset

def holed : Arena := ⟨64, [⟨128, 64, true⟩, ⟨192, 64, false⟩]⟩

def holedArena : St :=
  { start with
    tree := ⟨some 128, fun _ => none, fun _ => none, fun _ => none⟩
    magic := fun b => if b = 64 ∨ b = 256 then .E else if b = 128 then .F else if b = 192 then .A else .zero
    size := fun b => if b = 64 ∨ b = 128 ∨ b = 192 then 64 else 0
    tail := fun b => if b = 128 then 64 else if b = 192 then 128 else if b = 256 then 192 else 0
    csize := fun _ => 192
    chain := some 64
    cursize := 64
    arenasize := 256
    nfree := 1
    move := true
    got := [(64, 256)] }

theorem heap_holedArena : Heap holedArena.mutable [holed] where
  layout :=
    { chain := ⟨rfl, rfl⟩
      arena := by
        intro a ha
        obtain rfl := mem_singleton.1 ha
        have hfree : Sized holedArena.mutable 128 64 := ⟨rfl, rfl, by decide, by decide⟩
        have hlive : Sized holedArena.mutable 192 64 := ⟨rfl, rfl, by decide, by decide⟩
        refine ⟨rfl, rfl, rfl, ⟨rfl, hfree, rfl, rfl, hlive, rfl, rfl⟩, rfl, ?_⟩
        exact isChain_cons_cons.2 ⟨by decide, isChain_singleton _⟩
      apart := pairwise_singleton _ _
      cover := by
        intro x hx y hxy hyx
        obtain rfl := mem_singleton.1 hx
        have hlimit : holedArena.limit 64 + ldr = 320 := rfl
        exact ⟨(64, 256), mem_singleton_self _, hxy, hyx.trans_eq hlimit⟩
      bytes := by decide
      bound := by decide
      chunk := by decide }
  free := by
    refine ⟨.node .nil 128 .nil, fun _ => [], ⟨⟨rfl, rfl, rfl, rfl⟩, pairwise_singleton _ _, ?_, ?_, ?_⟩,
      List.Perm.refl _⟩
    · exact fun h _ => ⟨⟨rfl, rfl⟩, nodup_singleton h⟩
    · exact fun _ _ _ hx => absurd hx not_mem_nil
    · exact nodup_singleton 128
  cursize := rfl

theorem poolcompact_iff_holed :
    (∃ as', Heap (poolcompact holedArena).2.mutable as' ∧ Keeps holedArena (poolcompact holedArena).2 [holed] as') ↔
      holedArena.move = false ∨ holedArena.lastfree = holedArena.nfree ∨ ∀ a ∈ [holed], Settled a.blocks :=
  poolcompact_iff heap_holedArena

/-- The block at 192 goes to 128, and the tail at its end says that it is at 192. -/
theorem not_poolcompact : ¬ ∀ (s : St) (as : List Arena), Heap s.mutable as → s.move = true →
    ∃ as', Heap (poolcompact s).2.mutable as' ∧ Keeps s (poolcompact s).2 as as' := by
  intro h
  obtain ⟨as', h', -⟩ := h holedArena [holed] heap_holedArena rfl
  have hrun : ¬ (holedArena.move = false ∨ holedArena.lastfree = holedArena.nfree) := by decide
  refine not_heap_of_unsettled heap_holedArena.layout hrun (List.mem_singleton_self holed) (fun hset => ?_) h'
  exact (List.pairwise_cons.1 hset).1 ⟨192, 64, false⟩ (List.mem_singleton_self _) ⟨rfl, rfl⟩

end Node9.Pool
