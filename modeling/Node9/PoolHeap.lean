import Node9.PoolTree

/-!
# The heap of a pool

The blocks of an arena, from its leader to its end mark, and the steps of `dopoolalloc` and `poolfree` on them. `Seg`
says that some blocks fill the memory between two addresses, with headers and tails as they should be. What an
operation does in `[lo, hi)` leaves every segment outside alone (`Frame`); a tail belongs to the address at which its
block ends, so those in `(lo, hi]` may change.
-/

namespace Node9.Pool
open PtrTree Intrusive Function
open List hiding after

structure Block where
  addr : Nat
  size : Nat
  free : Bool
deriving DecidableEq

def Block.fin (b : Block) : Nat := b.addr + b.size

def Block.magic (b : Block) : Magic := if b.free then .F else .A

def lives (bs : List Block) : List Block := bs.filter fun b => !b.free

def frees (bs : List Block) : List Block := bs.filter fun b => b.free

/-- A block with its header and tail, whatever the magic. -/
structure Sized (s : St) (b z : Nat) : Prop where
  size : s.size b = z
  tail : s.tail (b + z) = b
  pos : 0 < z
  dvd : ldr ∣ z

/-- The blocks fill `[lo, hi)`. -/
def Seg (s : St) : Nat → List Block → Nat → Prop
  | lo, [], hi => lo = hi
  | lo, b :: bs, hi => b.addr = lo ∧ Sized s lo b.size ∧ s.magic lo = b.magic ∧ Seg s (lo + b.size) bs hi

/-- What is outside of `[lo, hi)` stays. -/
structure Outside (s s' : St) (lo hi : Nat) : Prop where
  magic : ∀ x, x < lo ∨ hi ≤ x → s'.magic x = s.magic x
  size : ∀ x, x < lo ∨ hi ≤ x → s'.size x = s.size x
  tail : ∀ x, x ≤ lo ∨ hi < x → s'.tail x = s.tail x

structure Frame (s s' : St) (lo hi : Nat) : Prop extends Outside s s' lo hi where
  csize : s'.csize = s.csize
  clink : s'.clink = s.clink
  chain : s'.chain = s.chain
  got : s'.got = s.got
  arenasize : s'.arenasize = s.arenasize
  maxsize : s'.maxsize = s.maxsize
  chunk : s'.chunk = s.chunk
  move : s'.move = s.move

variable {s s' s'' : St} {lo hi lo' hi' mid b q x z : Nat} {v : Magic} {us vs bs : List Block} {c : Block}
    {l l' : List Nat}

namespace Outside

theorem refl : Outside s s lo hi := ⟨fun _ _ => rfl, fun _ _ => rfl, fun _ _ => rfl⟩

theorem trans (h : Outside s s' lo hi) (h' : Outside s' s'' lo hi) : Outside s s'' lo hi where
  magic x hx := (h'.magic x hx).trans (h.magic x hx)
  size x hx := (h'.size x hx).trans (h.size x hx)
  tail x hx := (h'.tail x hx).trans (h.tail x hx)

theorem mono (h : Outside s s' lo hi) (hlo : lo' ≤ lo) (hhi : hi ≤ hi') : Outside s s' lo' hi' where
  magic x hx := h.magic x (by omega)
  size x hx := h.size x (by omega)
  tail x hx := h.tail x (by omega)

end Outside

namespace Frame

theorem refl : Frame s s lo hi := ⟨.refl, rfl, rfl, rfl, rfl, rfl, rfl, rfl, rfl⟩

section
variable (h : Frame s s' lo hi)
include h

theorem trans (h' : Frame s' s'' lo hi) : Frame s s'' lo hi where
  toOutside := h.toOutside.trans h'.toOutside
  csize := h'.csize.trans h.csize
  clink := h'.clink.trans h.clink
  chain := h'.chain.trans h.chain
  got := h'.got.trans h.got
  arenasize := h'.arenasize.trans h.arenasize
  maxsize := h'.maxsize.trans h.maxsize
  chunk := h'.chunk.trans h.chunk
  move := h'.move.trans h.move

theorem mono (hlo : lo' ≤ lo) (hhi : hi ≤ hi') : Frame s s' lo' hi' :=
  { h with toOutside := h.toOutside.mono hlo hhi }

theorem setMagic (hlo : lo ≤ x) (hhi : x < hi) : Frame s (s'.setMagic x v) lo hi := by
  refine { h with magic := fun y hy => ?_ }
  have hyx : y ≠ x := by omega
  exact (update_of_ne hyx ..).trans (h.magic y hy)

theorem setSize (hlo : lo ≤ x) (hhi : x < hi) : Frame s (s'.setSize x z) lo hi := by
  refine { h with size := fun y hy => ?_ }
  have hyx : y ≠ x := by omega
  exact (update_of_ne hyx ..).trans (h.size y hy)

theorem setTail (hlo : lo < x + s'.size x) (hhi : x + s'.size x ≤ hi) :
    Frame s (s'.setTail x) lo hi := by
  refine { h with tail := fun y hy => ?_ }
  have hyx : y ≠ x + s'.size x := by omega
  exact (update_of_ne hyx ..).trans (h.tail y hy)

theorem pooldel : Frame s (pooldel x s') lo hi := by
  rw [pooldel_eq]
  exact { h with }

theorem pooladd (hlo : lo ≤ x) (hhi : x < hi) : Frame s (pooladd x s') lo hi := by
  rw [pooladd_eq]
  exact { h.setMagic hlo hhi with }

end

end Frame

namespace Seg

theorem append_iff : Seg s lo (us ++ vs) hi ↔ ∃ mid, Seg s lo us mid ∧ Seg s mid vs hi := by
  induction us generalizing lo with
  | nil => exact ⟨fun h => ⟨lo, rfl, h⟩, fun ⟨_, h, h'⟩ => h ▸ h'⟩
  | cons b us ih =>
    simp only [cons_append, Seg, ih]
    exact ⟨fun ⟨ha, hs, hm, mid, h, h'⟩ => ⟨mid, ⟨ha, hs, hm, h⟩, h'⟩,
      fun ⟨mid, ⟨ha, hs, hm, h⟩, h'⟩ => ⟨ha, hs, hm, mid, h, h'⟩⟩

theorem le (h : Seg s lo bs hi) : lo ≤ hi := by
  induction bs generalizing lo with
  | nil => exact h.le
  | cons b bs ih => exact (Nat.le_add_right lo b.size).trans (ih h.2.2.2)

theorem frame (h : Seg s lo' bs hi') (hf : Outside s s' lo hi) (hout : hi' ≤ lo ∨ hi ≤ lo') : Seg s' lo' bs hi' := by
  induction bs generalizing lo' with
  | nil => exact h
  | cons b bs ih =>
    obtain ⟨ha, ⟨hsize, htail, hpos, hdvd⟩, hm, hrest⟩ := h
    have hle := hrest.le
    refine ⟨ha, ⟨?_, ?_, hpos, hdvd⟩, ?_, ih hrest (by omega)⟩
    · rw [hf.size lo' (by omega), hsize]
    · rw [hf.tail _ (by omega), htail]
    · rw [hf.magic lo' (by omega), hm]

theorem bounds (h : Seg s lo bs hi) (hc : c ∈ bs) : lo ≤ c.addr ∧ c.fin ≤ hi ∧ 0 < c.size := by
  induction bs generalizing lo with
  | nil => cases hc
  | cons b bs ih =>
    obtain ⟨rfl, hs, -, hrest⟩ := h
    rcases mem_cons.1 hc with rfl | hc
    · exact ⟨le_rfl, hrest.le, hs.pos⟩
    · obtain ⟨hlo, hhi, hpos⟩ := ih hrest hc
      exact ⟨by omega, hhi, hpos⟩

theorem sized (h : Seg s lo bs hi) (hc : c ∈ bs) : Sized s c.addr c.size ∧ s.magic c.addr = c.magic := by
  induction bs generalizing lo with
  | nil => cases hc
  | cons b bs ih =>
    obtain ⟨rfl, hs, hm, hrest⟩ := h
    rcases mem_cons.1 hc with rfl | hc
    · exact ⟨hs, hm⟩
    · exact ih hrest hc

theorem pairwise (h : Seg s lo bs hi) : bs.Pairwise fun b c => b.fin ≤ c.addr := by
  induction bs generalizing lo with
  | nil => exact List.Pairwise.nil
  | cons b bs ih =>
    obtain ⟨rfl, -, -, hrest⟩ := h
    exact pairwise_cons.2 ⟨fun c hc => (hrest.bounds hc).1, ih hrest⟩

theorem tail_last (h : Seg s lo (bs ++ [c]) hi) : Seg s lo bs c.addr ∧ c.fin = hi ∧ Sized s c.addr c.size ∧
    s.magic c.addr = c.magic ∧ s.tail hi = c.addr := by
  obtain ⟨mid, hbs, rfl, hs, hm, rfl⟩ := append_iff.1 h
  exact ⟨hbs, rfl, hs, hm, hs.tail⟩

end Seg

/-- The tree and the rings have just these blocks. -/
def Frees (s : St) (l : List Nat) : Prop :=
  ∃ t rs, Tidy s.tree s.ring s.size t rs ∧ (members t rs).Perm l

namespace Frees

section
variable (h : Frees s l)
include h

theorem perm (hp : l.Perm l') : Frees s l' := by
  obtain ⟨t, rs, ht, hl⟩ := h
  exact ⟨t, rs, ht, hl.trans hp⟩

theorem nodup : l.Nodup := by
  obtain ⟨t, rs, ht, hl⟩ := h
  exact hl.nodup_iff.1 ht.nodup

theorem congr (htree : s'.tree = s.tree) (hring : s'.ring = s.ring)
    (hsize : ∀ x ∈ l, s'.size x = s.size x) : Frees s' l := by
  obtain ⟨t, rs, ht, hl⟩ := h
  have hmem : ∀ x ∈ members t rs, s'.size x = s.size x := fun x hx => hsize x (hl.mem_iff.1 hx)
  refine ⟨t, rs, ⟨htree ▸ ht.rep, ?_, fun h hh => hring ▸ ht.ring h hh, fun h hh x hx => ?_, ht.nodup⟩, hl⟩
  · rw [map_congr_left fun x hx => hmem x (mem_members_of_mem hx)]
    exact ht.sorted
  · obtain ⟨hp, hs⟩ := ht.member h hh x hx
    refine ⟨htree ▸ hp, ?_⟩
    rw [hmem x (mem_members.2 ⟨h, hh, .inr hx⟩), hmem h (mem_members_of_mem hh), hs]

theorem setMagic : Frees (s.setMagic x v) l := h

theorem setTail : Frees (s.setTail x) l := h

theorem setSize (hx : x ∉ l) : Frees (s.setSize x z) l := by
  refine h.congr rfl rfl fun y hy => update_of_ne ?_ ..
  exact fun heq => hx (heq ▸ hy)

theorem length_toList (hn : l.length ≤ s.fuel) :
    ∃ t rs, Tidy s.tree s.ring s.size t rs ∧ (members t rs).Perm l ∧ t.toList.length ≤ s.fuel := by
  obtain ⟨t, rs, ht, hl⟩ := h
  refine ⟨t, rs, ht, hl, le_trans ?_ hn⟩
  rw [← hl.length_eq]
  have hsub : t.toList.Subperm (members t rs) :=
    subperm_of_subset ht.nodup_toList fun x hx => mem_members_of_mem hx
  exact hsub.length_le

theorem pooldel (hb : b ∈ l) (hn : l.length ≤ s.fuel) : Frees (pooldel b s) (l.erase b) := by
  obtain ⟨t, rs, ht, hl, ht'⟩ := h.length_toList hn
  obtain ⟨t', rs', htidy, hperm⟩ := pooldel_spec ht (hl.mem_iff.2 hb) ht'
  refine ⟨t', rs', ?_, ?_⟩
  · have hsize : (Pool.pooldel b s).size = s.size := by rw [pooldel_eq]
    rw [hsize]
    exact htidy
  · have herase := (hperm.symm.trans hl).erase b
    rwa [erase_cons_head] at herase

theorem pooladd (hq : q ∉ l) (hn : l.length ≤ s.fuel) : Frees (pooladd q s) (q :: l) := by
  obtain ⟨t, rs, ht, hl, ht'⟩ := h.length_toList hn
  obtain ⟨t', rs', htidy, hperm⟩ := pooladd_spec ht (fun hmem => hq (hl.mem_iff.1 hmem)) ht'
  refine ⟨t', rs', ?_, hperm.trans (hl.cons q)⟩
  have hsize : (Pool.pooladd q s).size = s.size := by
    rw [pooladd_eq]
    rfl
  rw [hsize]
  exact htidy

end

theorem search (sz : Nat) (h : Frees s l) (hn : l.length ≤ s.fuel) :
    (∀ t, Pool.search s sz s.fuel s.tree.root none = some t →
        t ∈ l ∧ sz ≤ s.size t ∧ s.ring.next t ∈ l ∧ s.size (s.ring.next t) = s.size t) ∧
      (Pool.search s sz s.fuel s.tree.root none = none → ∀ x ∈ l, s.size x < sz) := by
  obtain ⟨t, rs, ht, hl, ht'⟩ := h.length_toList hn
  obtain ⟨hsome, hnone⟩ := search_spec (q := none) sz ht.rep ht.sorted ht'
  refine ⟨fun x hx => ?_, fun hx y hy => ?_⟩
  · rcases hsome x hx with hx | ⟨hxt, hle⟩
    · cases hx
    have hring := ht.ring x hxt
    refine ⟨hl.mem_iff.1 (mem_members_of_mem hxt), hle, ?_⟩
    cases hrs : rs x with
    | nil =>
      rw [hrs] at hring
      rw [hring.next_nil]
      exact ⟨hl.mem_iff.1 (mem_members_of_mem hxt), rfl⟩
    | cons y ys =>
      have hy : y ∈ rs x := by simp [hrs]
      rw [hrs] at hring
      rw [hring.next_cons]
      exact ⟨hl.mem_iff.1 (mem_members.2 ⟨x, hxt, .inr hy⟩), (ht.member x hxt y hy).2⟩
  · obtain ⟨h, hh, hy⟩ := mem_members.1 (hl.mem_iff.2 hy)
    have hlt := (hnone hx).2 h hh
    rcases hy with rfl | hy
    · exact hlt
    · rw [(ht.member h hh y hy).2]
      exact hlt

end Frees

def Joined (bs : List Block) : Prop := bs.IsChain fun b c => ¬ (b.free = true ∧ c.free = true)

/-- A block between others, that is in no list. -/
structure Focus (s : St) (lo : Nat) (us : List Block) (b z : Nat) (vs : List Block) (hi : Nat) : Prop where
  before : Seg s lo us b
  block : Sized s b z
  after : Seg s (b + z) vs hi

/-- The blocks that are free besides those of `us` and `vs` are in other arenas. -/
def addrs (us vs : List Block) (rest : List Nat) : List Nat :=
  (frees us).map Block.addr ++ ((frees vs).map Block.addr ++ rest)

variable {rest : List Nat}

theorem frees_cons_of_free (hc : c.free = true) : frees (c :: vs) = c :: frees vs := by simp [frees, hc]

theorem lives_cons_of_free (hc : c.free = true) : lives (c :: vs) = lives vs := by simp [lives, hc]

theorem Focus.bounds (h : Focus s lo us b z vs hi) : lo ≤ b ∧ b + z ≤ hi ∧ 0 < z :=
  ⟨h.before.le, h.after.le, h.block.pos⟩

theorem Block.magic_of_free (hc : c.free = true) : c.magic = .F := by simp [Block.magic, hc]

theorem Block.magic_of_live (hc : ¬ c.free = true) : c.magic ≠ .F := by simp [Block.magic, hc]

theorem joinNext_spec (h : Focus s lo us b z vs hi) (hhi : s.magic hi ≠ .F) (hj : Joined vs)
    (hf : Frees s (addrs us vs rest)) (hb : b ∉ addrs us vs rest) (hn : (addrs us vs rest).length ≤ s.fuel) :
    ∃ z' vs', Focus (joinNext b s) lo us b z' vs' hi ∧ lives vs' = lives vs ∧ Joined vs' ∧
      (∀ c ∈ vs'.head?, ¬ c.free = true) ∧ Frees (joinNext b s) (addrs us vs' rest) ∧ b ∉ addrs us vs' rest ∧
      (addrs us vs' rest).length ≤ s.fuel ∧ Frame s (joinNext b s) lo hi ∧ z ≤ z' := by
  have hnb : s.nb b = b + z := congrArg (b + ·) h.block.size
  unfold joinNext
  dsimp only
  rw [hnb]
  cases vs with
  | nil =>
    have hend : b + z = hi := h.after
    rw [hend, if_neg hhi]
    refine ⟨z, [], h, rfl, hj, fun c hc => ?_, hf, hb, hn, .refl, le_rfl⟩
    cases hc
  | cons c vs =>
    obtain ⟨hca, hcs, hcm, hvs⟩ := h.after
    rw [hcm]
    by_cases hc : c.free = true
    · rw [if_pos (Block.magic_of_free hc)]
      have hbz := h.bounds
      have hle := hvs.le
      have hcpos := hcs.pos
      have hjv := isChain_cons.1 hj
      have herase : ((addrs us (c :: vs) rest).erase (b + z)).Perm (addrs us vs rest) := by
        have hperm : (addrs us (c :: vs) rest).Perm ((b + z) :: addrs us vs rest) := by
          unfold addrs
          rw [frees_cons_of_free hc, map_cons, hca]
          exact perm_middle
        have hperm' := hperm.erase (b + z)
        rwa [erase_cons_head] at hperm'
      have hmem : b + z ∈ addrs us (c :: vs) rest := by simp [addrs, frees_cons_of_free hc, hca]
      have hdel := (hf.pooldel hmem hn).perm herase
      have hsize : (pooldel (b + z) s).size = s.size := by rw [pooldel_eq]
      have hb' : b ∉ addrs us vs rest := fun hmem' => hb (mem_of_mem_erase (herase.mem_iff.2 hmem'))
      set s₁ := (pooldel (b + z) s).setMagic (b + z) .zero with hs₁
      have hs₁size : s₁.size = s.size := hsize
      have hnew : s₁.size b + s₁.size (b + z) = z + c.size := by rw [hs₁size, h.block.size, hcs.size]
      rw [hnew]
      have hval : (s₁.setSize b (z + c.size)).size b = z + c.size := update_self ..
      have hframe : Frame s ((s₁.setSize b (z + c.size)).setTail b) b (b + z + c.size) := by
        refine Frame.setTail (Frame.setSize (Frame.setMagic (Frame.pooldel .refl) ?_ ?_) ?_ ?_) ?_ ?_ <;>
          first | (rw [hval]; omega) | omega
      refine ⟨z + c.size, vs, ⟨h.before.frame hframe.toOutside (.inl le_rfl), ⟨hval, ?_, ?_, ?_⟩, ?_⟩, ?_, hjv.2,
        ?_, ?_, hb', ?_, ?_,
        Nat.le_add_right ..⟩
      · show update s₁.tail (b + (s₁.setSize b (z + c.size)).size b) b (b + (z + c.size)) = b
        rw [hval, update_self]
      · omega
      · exact (Nat.dvd_add_right h.block.dvd).2 hcs.dvd
      · rw [← add_assoc]
        exact hvs.frame hframe.toOutside (.inr le_rfl)
      · rw [lives_cons_of_free hc]
      · exact fun d hd hdf => hjv.1 d hd ⟨hc, hdf⟩
      · exact (hdel.setMagic.setSize hb').setTail
      · rw [← herase.length_eq]
        exact length_erase_le.trans hn
      · exact hframe.mono hbz.1 hle
    · rw [if_neg (Block.magic_of_live hc)]
      refine ⟨z, c :: vs, h, rfl, hj, fun d hd => ?_, hf, hb, hn, .refl, le_rfl⟩
      cases hd
      exact hc

theorem joinNext_cursize : (joinNext b s).cursize = s.cursize := by
  unfold joinNext
  dsimp only
  split
  · rw [pooldel_eq]
    rfl
  · rfl

theorem joinPrev_cursize : (joinPrev b s).2.cursize = s.cursize := by
  unfold joinPrev
  dsimp only
  split
  · rw [pooldel_eq]
    rfl
  · rfl

theorem joinPrev_spec (h : Focus s lo us b z vs hi) (hlo : s.magic (s.tail lo) ≠ .F) (hj : Joined us)
    (hf : Frees s (addrs us vs rest)) (hb : b ∉ addrs us vs rest) (hn : (addrs us vs rest).length ≤ s.fuel) :
    ∃ z' us', Focus (joinPrev b s).2 lo us' (joinPrev b s).1 z' vs hi ∧ lives us' = lives us ∧ Joined us' ∧
      (∀ c ∈ us'.getLast?, ¬ c.free = true) ∧ Frees (joinPrev b s).2 (addrs us' vs rest) ∧
      (joinPrev b s).1 ∉ addrs us' vs rest ∧ (addrs us' vs rest).length ≤ s.fuel ∧
      Frame s (joinPrev b s).2 lo hi ∧ z ≤ z' := by
  unfold joinPrev
  dsimp only
  cases us using List.reverseRecOn with
  | nil =>
    have hlb : lo = b := h.before
    rw [← hlb, if_neg hlo]
    refine ⟨z, [], hlb ▸ h, rfl, hj, fun c hc => ?_, hf, hlb ▸ hb, hn, .refl, le_rfl⟩
    cases hc
  | append_singleton us p =>
    obtain ⟨hus, hfin, hps, hpm, htail⟩ := h.before.tail_last
    obtain ⟨hju, -, hlast⟩ := isChain_append.1 hj
    rw [htail, hpm]
    by_cases hp : p.free = true
    · rw [if_pos (Block.magic_of_free hp)]
      have hbz := h.bounds
      have hle := hus.le
      have hppos := hps.pos
      have hpb : p.addr + p.size = b := hfin
      have hfrees : frees (us ++ [p]) = frees us ++ [p] := by simp [frees, hp]
      have hlives : lives (us ++ [p]) = lives us := by simp [lives, hp]
      have hperm : (addrs (us ++ [p]) vs rest).Perm (p.addr :: addrs us vs rest) := by
        unfold addrs
        rw [hfrees, map_append, append_assoc]
        exact perm_middle
      have herase : ((addrs (us ++ [p]) vs rest).erase p.addr).Perm (addrs us vs rest) := by
        have hperm' := hperm.erase p.addr
        rwa [erase_cons_head] at hperm'
      have hmem : p.addr ∈ addrs (us ++ [p]) vs rest := hperm.mem_iff.2 (mem_cons_self ..)
      have hp' : p.addr ∉ addrs us vs rest := (nodup_cons.1 (hperm.nodup_iff.1 hf.nodup)).1
      have hdel := (hf.pooldel hmem hn).perm herase
      have hsize : (pooldel p.addr s).size = s.size := by rw [pooldel_eq]
      set s₁ := (pooldel p.addr s).setMagic b .zero with hs₁
      have hs₁size : s₁.size = s.size := hsize
      have hnew : s₁.size p.addr + s₁.size b = p.size + z := by rw [hs₁size, h.block.size, hps.size]
      rw [hnew]
      have hval : (s₁.setSize p.addr (p.size + z)).size p.addr = p.size + z := update_self ..
      have hframe : Frame s ((s₁.setSize p.addr (p.size + z)).setTail p.addr) p.addr (b + z) := by
        refine Frame.setTail (Frame.setSize (Frame.setMagic (Frame.pooldel .refl) ?_ ?_) ?_ ?_) ?_ ?_ <;>
          first | (rw [hval]; omega) | omega
      have hend : p.addr + (p.size + z) = b + z := by omega
      refine ⟨p.size + z, us, ⟨hus.frame hframe.toOutside (.inl le_rfl), ⟨hval, ?_, ?_, ?_⟩, ?_⟩, ?_, hju, ?_, ?_,
        hp', ?_, ?_,
        Nat.le_add_left ..⟩
      · show update s₁.tail (p.addr + (s₁.setSize p.addr (p.size + z)).size p.addr) p.addr _ = _
        rw [hval, update_self]
      · omega
      · exact (Nat.dvd_add_right hps.dvd).2 h.block.dvd
      · dsimp only
        rw [hend]
        exact h.after.frame hframe.toOutside (.inr le_rfl)
      · exact hlives.symm
      · exact fun d hd hdf => hlast d hd p (by simp) ⟨hdf, hp⟩
      · exact (hdel.setMagic.setSize hp').setTail
      · rw [← herase.length_eq]
        exact length_erase_le.trans hn
      · exact hframe.mono hle hbz.2.1
    · rw [if_neg (Block.magic_of_live hp)]
      refine ⟨z, us ++ [p], h, rfl, hj, fun d hd => ?_, hf, hb, hn, .refl, le_rfl⟩
      rw [List.getLast?_concat] at hd
      cases hd
      exact hp

variable (rest) in
theorem poolfree_seg (h : Focus s lo us b z vs hi) (hhi : s.magic hi ≠ .F) (hlo : s.magic (s.tail lo) ≠ .F)
    (hlt : s.tail lo < lo) (hju : Joined us) (hjv : Joined vs) (hf : Frees s (addrs us vs rest))
    (hb : b ∉ addrs us vs rest) (hn : (addrs us vs rest).length ≤ s.fuel) :
    ∃ bs, Seg (poolfree b s) lo bs hi ∧ Joined bs ∧ lives bs = lives us ++ lives vs ∧
      Frees (poolfree b s) ((frees bs).map Block.addr ++ rest) ∧ Frame s (poolfree b s) lo hi ∧
      (poolfree b s).cursize = s.cursize - z ∧ ∃ d ∈ frees bs, z ≤ d.size := by
  generalize hs₀ : ({ s with nfree := s.nfree + 1, cursize := s.cursize - s.size b } : St) = s₀
  have heq : poolfree b s = pooladd (joinPrev b (joinNext b s₀)).1 (joinPrev b (joinNext b s₀)).2 := by
    rw [← hs₀]
    rfl
  rw [heq]
  have hsame : ∀ lo hi, Frame s s₀ lo hi := by
    intro lo hi
    rw [← hs₀]
    exact { (Frame.refl : Frame s s lo hi) with }
  have hsize₀ : s₀.size = s.size := by rw [← hs₀]
  have htail₀ : s₀.tail = s.tail := by rw [← hs₀]
  have hmagic₀ : s₀.magic = s.magic := by rw [← hs₀]
  have hfuel₀ : s₀.fuel = s.fuel := by rw [← hs₀]; rfl
  have hcur₀ : s₀.cursize = s.cursize - z := by rw [← hs₀, ← h.block.size]
  have h₀ : Focus s₀ lo us b z vs hi :=
    ⟨h.before.frame (hsame b b).toOutside (.inl le_rfl), ⟨hsize₀ ▸ h.block.size, htail₀ ▸ h.block.tail, h.block.pos,
      h.block.dvd⟩,
      h.after.frame (hsame b b).toOutside (.inr (Nat.le_add_right b z))⟩
  have hf₀ : Frees s₀ (addrs us vs rest) := hf.congr (by rw [← hs₀]) (by rw [← hs₀]) fun x _ => by rw [hsize₀]
  obtain ⟨z₁, vs₁, h₁, hlives₁, hjv₁, hhead, hf₁, hb₁, hn₁, hframe₁, hz₁⟩ :=
    joinNext_spec h₀ (hmagic₀ ▸ hhi) hjv hf₀ hb (hfuel₀ ▸ hn)
  have hcur₁ : (joinNext b s₀).cursize = s₀.cursize := joinNext_cursize
  generalize joinNext b s₀ = s₁ at *
  have htail₁ : s₁.tail lo = s.tail lo := by rw [hframe₁.tail lo (.inl le_rfl), htail₀]
  have hlo₁ : s₁.magic (s₁.tail lo) ≠ .F := by
    rw [htail₁, hframe₁.magic _ (.inl hlt), hmagic₀]
    exact hlo
  have hfuel₁ : s₁.fuel = s₀.fuel := hframe₁.arenasize
  obtain ⟨z₂, us₂, h₂, hlives₂, hju₂, hlast, hf₂, hb₂, hn₂, hframe₂, hz₂⟩ := joinPrev_spec h₁ hlo₁ hju hf₁ hb₁
    (hfuel₁ ▸ hn₁)
  have hcur₂ : (joinPrev b s₁).2.cursize = s₁.cursize := joinPrev_cursize
  generalize joinPrev b s₁ = r at *
  obtain ⟨b₂, s₂⟩ := r
  dsimp only at *
  have hfuel₂ : s₂.fuel = s₁.fuel := hframe₂.arenasize
  have hbounds := h₂.bounds
  have hframe₃ : Frame s₂ (pooladd b₂ s₂) b₂ (b₂ + z₂) := Frame.pooladd .refl le_rfl (by have := h₂.bounds; omega)
  refine ⟨us₂ ++ ⟨b₂, z₂, true⟩ :: vs₁, ?_, ?_, ?_, ?_, ?_, ?_, ⟨b₂, z₂, true⟩, ?_, hz₁.trans hz₂⟩
  · refine Seg.append_iff.2 ⟨b₂, h₂.before.frame hframe₃.toOutside (.inl le_rfl), rfl, ⟨?_, ?_, h₂.block.pos,
      h₂.block.dvd⟩, ?_,
      h₂.after.frame hframe₃.toOutside (.inr le_rfl)⟩
    · rw [pooladd_eq]
      exact h₂.block.size
    · rw [pooladd_eq]
      exact h₂.block.tail
    · rw [pooladd_eq]
      exact update_self ..
  · refine isChain_append.2 ⟨hju₂, isChain_cons.2 ⟨fun c hc hboth => hhead c hc hboth.2, hjv₁⟩, ?_⟩
    intro c hc d _ hboth
    exact hlast c hc hboth.1
  · simp [lives] at hlives₁ hlives₂ ⊢
    rw [hlives₁, hlives₂]
  · refine (hf₂.pooladd hb₂ (hfuel₂ ▸ hn₂)).perm ?_
    have hfrees : frees (us₂ ++ ⟨b₂, z₂, true⟩ :: vs₁) = frees us₂ ++ ⟨b₂, z₂, true⟩ :: frees vs₁ := by simp [frees]
    rw [hfrees, map_append, append_assoc]
    exact perm_middle.symm
  · exact ((hsame lo hi).trans hframe₁).trans (hframe₂.trans (hframe₃.mono hbounds.1 hbounds.2.1))
  · rw [pooladd_eq]
    exact (hcur₂.trans hcur₁).trans hcur₀
  · simp [frees]

theorem Seg.length_le (h : Seg s lo bs hi) : lo + bs.length ≤ hi := by
  induction bs generalizing lo with
  | nil => exact h.le
  | cons b bs ih =>
    have hpos := h.2.1.pos
    have hle := ih h.2.2.2
    rw [length_cons]
    omega

theorem Joined.of_live (h : Joined (us ++ c :: vs)) (b : Block) (hb : ¬ b.free = true) : Joined (us ++ b :: vs) := by
  obtain ⟨hus, hcs, -⟩ := isChain_append.1 h
  refine isChain_append.2 ⟨hus, isChain_cons.2 ⟨fun d _ hboth => hb hboth.1, (isChain_cons.1 hcs).2⟩, ?_⟩
  intro d _ e he hboth
  cases he
  exact hb hboth.2

theorem takeOut_seg (h : Seg s lo (us ++ c :: vs) hi) (hc : c.free = true) (hj : Joined (us ++ c :: vs))
    (hf : Frees s (addrs us (c :: vs) rest)) (hn : (addrs us (c :: vs) rest).length ≤ s.fuel) :
    let s₁ := (pooldel c.addr s).setMagic c.addr .A
    Seg s₁ lo (us ++ ⟨c.addr, c.size, false⟩ :: vs) hi ∧ Joined (us ++ ⟨c.addr, c.size, false⟩ :: vs) ∧
      Frees s₁ (addrs us vs rest) ∧ c.addr ∉ addrs us vs rest ∧ (addrs us vs rest).length ≤ s.fuel ∧
        Frame s s₁ lo hi := by
  intro s₁
  obtain ⟨mid, hus, rfl, hcs, hcm, hvs⟩ := Seg.append_iff.1 h
  have hperm : (addrs us (c :: vs) rest).Perm (c.addr :: addrs us vs rest) := by
    unfold addrs
    rw [frees_cons_of_free hc]
    exact perm_middle
  have hmem := hperm.mem_iff.2 (mem_cons_self ..)
  have hc' := (nodup_cons.1 (hperm.nodup_iff.1 hf.nodup)).1
  have herase := hperm.erase c.addr
  rw [erase_cons_head] at herase
  have hpos := hcs.pos
  have hframe : Frame s s₁ c.addr (c.addr + c.size) := Frame.setMagic (Frame.pooldel .refl) le_rfl (by omega)
  refine ⟨?_, hj.of_live _ Bool.false_ne_true, ((hf.pooldel hmem hn).perm herase).setMagic, hc', ?_,
    hframe.mono hus.le hvs.le⟩
  · refine Seg.append_iff.2 ⟨c.addr, hus.frame hframe.toOutside (.inl le_rfl), rfl, ⟨?_, ?_, hcs.pos, hcs.dvd⟩, ?_,
      hvs.frame hframe.toOutside (.inr le_rfl)⟩
    · show (pooldel c.addr s).size c.addr = c.size
      rw [pooldel_eq]
      exact hcs.size
    · show (pooldel c.addr s).tail (c.addr + c.size) = c.addr
      rw [pooldel_eq]
      exact hcs.tail
    · exact update_self ..
  · rw [← herase.length_eq]
    exact length_erase_le.trans hn

theorem split_seg {frag : Nat} (h : Seg s lo (us ++ ⟨b, z + frag, false⟩ :: vs) hi) (hz : 0 < z) (hzd : ldr ∣ z)
    (hfrag : 0 < frag) (hfd : ldr ∣ frag) (hju : Joined us) (hjv : Joined vs) (hv : ∀ c ∈ vs.head?, ¬ c.free = true)
    (hf : Frees s (addrs us vs rest)) (hb : b ∉ addrs us vs rest) (hr : b + z ∉ addrs us vs rest)
    (hn : (addrs us vs rest).length ≤ s.fuel) :
    let s₁ := (s.setSize b z).setTail b
    let s₂ := pooladd (s₁.nb b) ((s₁.setSize (s₁.nb b) frag).setTail (s₁.nb b))
    let bs := us ++ ⟨b, z, false⟩ :: ⟨b + z, frag, true⟩ :: vs
    Seg s₂ lo bs hi ∧ Joined bs ∧ Frees s₂ ((frees bs).map Block.addr ++ rest) ∧ Frame s s₂ lo hi ∧
      s₂.cursize = s.cursize := by
  intro s₁ s₂ bs
  obtain ⟨mid, hus, hbm, hbs, hmag, hvs⟩ := Seg.append_iff.1 h
  cases hbm
  have hval : (s.setSize b z).size b = z := update_self ..
  have hnb : s₁.nb b = b + z := congrArg (b + ·) hval
  have hs₂ : s₂ = pooladd (b + z) ((s₁.setSize (b + z) frag).setTail (b + z)) := by
    show pooladd (s₁.nb b) ((s₁.setSize (s₁.nb b) frag).setTail (s₁.nb b)) = _
    rw [hnb]
  have hval' : (s₁.setSize (b + z) frag).size (b + z) = frag := update_self ..
  have hle := hvs.le
  have hle' : b + z + frag ≤ hi := by
    dsimp only at hle
    omega
  have hframe : Frame s s₂ b (b + z + frag) := by
    rw [hs₂]
    refine Frame.pooladd (Frame.setTail
      (Frame.setSize (Frame.setTail (Frame.setSize .refl ?_ ?_) ?_ ?_) ?_ ?_) ?_ ?_) ?_ ?_ <;>
      first | (rw [hval]; omega) | (rw [hval']; omega) | omega
  have hsize : s₂.size = update (update s.size b z) (b + z) frag := by
    rw [hs₂, pooladd_eq]
    rfl
  have htail : s₂.tail = update (update s.tail (b + z) b) (b + z + frag) (b + z) := by
    rw [hs₂, pooladd_eq]
    show update (update s.tail (b + (s.setSize b z).size b) b)
      (b + z + (s₁.setSize (b + z) frag).size (b + z)) (b + z) = _
    rw [hval, hval']
  have hmagic : s₂.magic = update s.magic (b + z) .F := by
    rw [hs₂, pooladd_eq]
    rfl
  have hne : b ≠ b + z := by omega
  have hne' : b + z ≠ b + z + frag := by omega
  refine ⟨Seg.append_iff.2 ⟨b, hus.frame hframe.toOutside (.inl le_rfl), rfl, ⟨?_, ?_, hz, hzd⟩, ?_, rfl,
    ⟨?_, ?_, hfrag, hfd⟩,
    ?_, ?_⟩, ?_, ?_, hframe.mono hus.le hle', ?_⟩
  · rw [hsize, update_of_ne hne, update_self]
  · rw [htail, update_of_ne hne', update_self]
  · rw [hmagic, update_of_ne hne]
    exact hmag
  · rw [hsize, update_self]
  · rw [htail, update_self]
  · rw [hmagic, update_self]
    rfl
  · have hvs' : Seg s (b + z + frag) vs hi := by
      rw [add_assoc]
      exact hvs
    exact hvs'.frame hframe.toOutside (.inr le_rfl)
  · refine isChain_append.2 ⟨hju, isChain_cons.2 ⟨fun d _ hboth => Bool.false_ne_true hboth.1,
      isChain_cons.2 ⟨fun d hd hboth => hv d hd hboth.2, hjv⟩⟩, ?_⟩
    intro d _ e he hboth
    cases he
    exact Bool.false_ne_true hboth.2
  · have hfrees : frees bs = frees us ++ ⟨b + z, frag, true⟩ :: frees vs := by simp [bs, frees]
    have hadd := (((hf.setSize (z := z) hb).setTail (x := b)).setSize (z := frag) hr).setTail (x := b + z)
    rw [hs₂, hfrees, map_append, append_assoc]
    exact (hadd.pooladd hr hn).perm perm_middle.symm
  · rw [hs₂, pooladd_eq]
    rfl

end Node9.Pool
