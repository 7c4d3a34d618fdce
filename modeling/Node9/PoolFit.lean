import Node9.PoolFail

/-!
# Best fit (`alloc.c`)

`dopoolalloc` takes the smallest free block that is large enough, and leaves what is over as a free block if it is worth
it.
-/

namespace Node9.Pool
open PtrTree Intrusive
open List hiding after

/-- `sizeof(Bhdr)`: magic, size and the five links of a free block. -/
def sizeofBhdr : Nat := 56

def sizeofBtail : Nat := 8

/-- The block is handed out as it is: it has just the size, or what would be over is too small. -/
def Whole (size : Nat) (c : Block) : Prop := c.size = size ∨ c.size - size < size / 4 ∧ c.size - size < 0x8000

/-- `c` is handed out for `size` bytes. -/
structure Fit (s s' : St) (as as' : List Arena) (size : Nat) (c : Block) : Prop where
  mem : c ∈ frees (blocks as)
  enough : size ≤ c.size
  least : ∀ d ∈ frees (blocks as), size ≤ d.size → c.size ≤ d.size
  heap : Heap s' as'
  whole : Whole size c → Replaced as as' c [⟨c.addr, c.size, false⟩]
  split : ¬ Whole size c → Replaced as as' c [⟨c.addr, size, false⟩, ⟨c.addr + size, c.size - size, true⟩] ∧
    sizeofBhdr + sizeofBtail ≤ c.size - size
  /-- no memory is asked for -/
  got : s'.got = s.got ∧ s'.nbrk = s.nbrk ∧ s'.arenasize = s.arenasize

variable {s s' : St} {as : List Arena} {size n x : Nat} {t : Shape Nat} {l : List Nat}

theorem search_least {p v q : Option Nat} (sz : Nat) (h : Rep s.tree p v t)
    (hsorted : (t.toList.map s.size).Pairwise (· < ·))
    (hn : t.toList.length ≤ n) (hq : ∀ a, q = some a → ∀ y ∈ t.toList, s.size y < s.size a)
    (hx : search s sz n v q = some x) : ∀ y ∈ t.toList, sz ≤ s.size y → s.size x ≤ s.size y := by
  induction n generalizing p v q t with
  | zero =>
    intro y hy
    rw [length_eq_zero_iff.1 (Nat.le_zero.1 hn)] at hy
    cases hy
  | succ n ih =>
    cases t with
    | nil => intro y hy; cases hy
    | node l a r =>
      obtain ⟨rfl, -, hl, hr⟩ := h
      obtain ⟨hbef, haft⟩ := pairwise_map_plug (c := []) hsorted
      simp only [Shape.toList, map_append, map_cons, length_append, length_cons] at hsorted hn
      obtain ⟨hsl, hsr, -⟩ := pairwise_append.1 hsorted
      have hsr := (pairwise_cons.1 hsr).2
      have hbef : ∀ y ∈ l.toList, s.size y < s.size a := fun y hy => hbef y (by simp [hy])
      have haft : ∀ y ∈ r.toList, s.size a < s.size y := fun y hy => haft y (by simp [hy])
      unfold search at hx
      intro y hy hle
      have hy : y ∈ l.toList ∨ y = a ∨ y ∈ r.toList := by simpa [Shape.toList] using hy
      by_cases heq : s.size a = sz
      · rw [if_pos heq] at hx
        cases hx
        exact heq ▸ hle
      rw [if_neg heq] at hx
      by_cases hlt : sz < s.size a
      · rw [if_pos hlt] at hx
        have hleft := ih hl hsl (by omega) (fun b hb y hy => by cases hb; exact hbef y hy) hx
        have hxa : s.size x ≤ s.size a := by
          rcases (search_spec sz hl hsl (n := n) (q := some a) (by omega)).1 x hx with hxa | ⟨hxl, -⟩
          · cases hxa
            exact le_rfl
          · exact (hbef x hxl).le
        rcases hy with hy | rfl | hy
        · exact hleft y hy hle
        · exact hxa
        · exact hxa.trans (haft y hy).le
      · rw [if_neg hlt] at hx
        have hright := ih hr hsr (by omega) (fun b hb y hy => hq b hb y (by simp [Shape.toList, hy])) hx
        rcases hy with hy | rfl | hy
        · have hya := hbef y hy
          omega
        · omega
        · exact hright y hy hle

theorem Frees.search_least (h : Frees s l) (hn : l.length ≤ s.fuel)
    (hx : Pool.search s size s.fuel s.tree.root none = some x) :
    ∀ y ∈ l, size ≤ s.size y → s.size x ≤ s.size y := by
  obtain ⟨t, rs, ht, hl, ht'⟩ := h.length_toList hn
  intro y hy hle
  obtain ⟨b, hb, hyb⟩ := mem_members.1 (hl.mem_iff.2 hy)
  have hsize : s.size y = s.size b := by
    rcases hyb with rfl | hyb
    · rfl
    · exact (ht.member b hb y hyb).2
  rw [hsize] at hle ⊢
  exact Pool.search_least size ht.rep ht.sorted ht' (fun _ hq => by cases hq) hx b hb hle

theorem fromTree_got {b : Nat} (hr : fromTree size s = some (b, s')) :
    s'.got = s.got ∧ s'.nbrk = s.nbrk ∧ s'.arenasize = s.arenasize := by
  unfold fromTree at hr
  split at hr
  · cases hr
  split at hr
  · cases hr
    rw [pooldel_eq]
    exact ⟨rfl, rfl, rfl⟩
  dsimp only at hr
  split at hr
  · cases hr
    rw [pooldel_eq]
    exact ⟨rfl, rfl, rfl⟩
  · cases hr
    rw [pooladd_eq, pooldel_eq]
    exact ⟨rfl, rfl, rfl⟩

namespace Heap

theorem exists_free (h : Heap s as) (hx : x ∈ (frees (blocks as)).map Block.addr) :
    ∃ c ∈ frees (blocks as), c.addr = x ∧ s.size x = c.size := by
  obtain ⟨c, hc, rfl⟩ := mem_map.1 hx
  exact ⟨c, hc, rfl, (h.layout.sized (mem_frees.1 hc).1).1.size⟩

theorem room_left {c : Block} (h : Heap s as) (hc : c ∈ frees (blocks as)) (hle : size ≤ c.size) (hzd : ldr ∣ size)
    (hne : c.size ≠ size) : sizeofBhdr + sizeofBtail ≤ c.size - size := by
  have hdvd : ldr ∣ c.size - size := Nat.dvd_sub (h.layout.sized (mem_frees.1 hc).1).1.dvd hzd
  exact Nat.le_of_dvd (by omega) hdvd

theorem fit (h : Heap s as) (hz : 0 < size) (hzd : ldr ∣ size) (hb : ∃ b ∈ frees (blocks as), size ≤ b.size) :
    ∃ c s' as', Pool.fromTree size s = some (c.addr, s') ∧ Fit s s' as as' size c := by
  obtain ⟨hsome, hnone⟩ := h.free.search size h.length_frees
  cases hx : Pool.search s size s.fuel s.tree.root none with
  | none =>
    obtain ⟨b, hb, hle⟩ := hb
    have hlt := hnone hx b.addr (mem_map_of_mem hb)
    rw [(h.layout.sized (mem_frees.1 hb).1).1.size] at hlt
    omega
  | some x =>
    obtain ⟨hxm, hle, hnm, hns⟩ := hsome x hx
    have hleast : ∀ d ∈ frees (blocks as), size ≤ d.size → s.size x ≤ d.size := by
      intro d hd hled
      have hds := (h.layout.sized (mem_frees.1 hd).1).1.size
      rw [← hds] at hled ⊢
      exact h.free.search_least h.length_frees hx d.addr (mem_map_of_mem hd) hled
    by_cases heq : s.size x = size
    · -- the next one of the ring, which has the size too
      obtain ⟨c, hc, hca, hcs⟩ := h.exists_free hnm
      rw [hns, heq] at hcs
      obtain ⟨as', hheap, hrep⟩ := h.whole hc
      have hr : Pool.fromTree size s = some (c.addr, take c.addr ((pooldel c.addr s).setMagic c.addr .A)) := by
        rw [Pool.fromTree, hx, hca]
        exact if_pos heq
      exact ⟨c, _, as', hr, hc, hcs.le, fun d hd hled => hcs ▸ heq ▸ hleast d hd hled, hheap, fun _ => hrep,
        fun hnot => absurd (.inl hcs.symm) hnot, fromTree_got hr⟩
    obtain ⟨c, hc, rfl, hcs⟩ := h.exists_free hxm
    have hsx : ((pooldel c.addr s).setMagic c.addr .A).size c.addr = c.size := by
      rw [pooldel_eq]
      exact hcs
    have hne : c.size ≠ size := fun hcz => heq (hcs.trans hcz)
    have hpos : size < c.size := by omega
    have hleast' : ∀ d ∈ frees (blocks as), size ≤ d.size → c.size ≤ d.size := fun d hd hled => hcs ▸ hleast d hd hled
    by_cases hfrag : c.size - size < size / 4 ∧ c.size - size < 0x8000
    · obtain ⟨as', hheap, hrep⟩ := h.whole hc
      have hr : Pool.fromTree size s = some (c.addr, take c.addr ((pooldel c.addr s).setMagic c.addr .A)) := by
        rw [Pool.fromTree, hx]
        simp only [if_neg heq, hsx, if_pos hfrag]
      exact ⟨c, _, as', hr, hc, hpos.le, hleast', hheap, fun _ => hrep, fun hnot => absurd (.inr hfrag) hnot,
        fromTree_got hr⟩
    obtain ⟨as', hheap, hrep⟩ := h.part (z := size) (c.size - size) hc (by omega) hz hzd (by omega)
    obtain ⟨s', hr, hs'⟩ : ∃ s', Pool.fromTree size s = some (c.addr, s') ∧ Heap s' as' := by
      refine ⟨_, ?_, hheap⟩
      rw [Pool.fromTree, hx]
      simp only [if_neg heq, hsx, if_neg hfrag]
    have hnot : ¬ Whole size c := fun hw => hw.elim hne hfrag
    exact ⟨c, s', as', hr, hc, hpos.le, hleast', hs', fun hw => absurd hw hnot,
      fun _ => ⟨hrep, h.room_left hc hpos.le hzd hne⟩, fromTree_got hr⟩

end Heap

/-- The smallest free block that is large enough is taken, whatever `sbrk` would give. -/
theorem dopoolalloc_fit (h : Heap s as) (asize : Nat) (ha : asize < 2 ^ 30)
    (hb : ∃ b ∈ frees (blocks as), need asize ≤ b.size) :
    ∃ c s' as', (∀ sbrk restricted n, dopoolalloc sbrk restricted (n + 1) asize s = some (some c.addr, s')) ∧
      Fit s s' as as' (need asize) c := by
  have hcount : Heap { s with nalloc := s.nalloc + 1 } as :=
    h.more rfl rfl rfl rfl rfl rfl rfl rfl rfl (fun _ hg => hg) le_rfl h.layout.bound rfl
  obtain ⟨c, s', as', hr, hfit⟩ := hcount.fit quantize_pos ldr_dvd_quantize hb
  refine ⟨c, s', as', fun sbrk restricted n => ?_, { hfit with }⟩
  rw [dopoolalloc, if_neg (not_le.2 ha)]
  dsimp only
  rw [hr]

def oneFree : Arena := ⟨64, [⟨128, 512, true⟩]⟩

def oneArena : St :=
  { start with
    tree := ⟨some 128, fun _ => none, fun _ => none, fun _ => none⟩
    magic := fun b => if b = 64 ∨ b = 640 then .E else if b = 128 then .F else .zero
    size := fun b => if b = 64 then 64 else if b = 128 then 512 else 0
    tail := fun b => if b = 128 then 64 else if b = 640 then 128 else 0
    csize := fun _ => 576
    chain := some 64
    arenasize := 640
    got := [(64, 640)] }

theorem heap_oneArena : Heap oneArena [oneFree] where
  layout :=
    { chain := ⟨rfl, rfl⟩
      arena := by
        intro a ha
        obtain rfl := mem_singleton.1 ha
        exact ⟨rfl, rfl, rfl, ⟨rfl, ⟨rfl, by decide, by decide, by decide⟩, rfl, rfl⟩, by decide, isChain_singleton _⟩
      apart := pairwise_singleton _ _
      cover := by
        intro x hx y hxy hyx
        obtain rfl := mem_singleton.1 hx
        have hlimit : oneArena.limit 64 + ldr = 704 := rfl
        exact ⟨(64, 640), mem_singleton_self _, hxy, hyx.trans_eq hlimit⟩
      bytes := by decide
      bound := by decide
      chunk := by decide }
  free := by
    refine ⟨.node .nil 128 .nil, fun _ => [], ⟨⟨rfl, rfl, rfl, rfl⟩, pairwise_singleton _ _, ?_, ?_, ?_⟩,
      List.Perm.refl _⟩
    · exact fun h _ => ⟨⟨rfl, rfl⟩, nodup_singleton h⟩
    · exact fun _ _ _ hx => absurd hx not_mem_nil
    · exact nodup_singleton 128
  cursize := rfl

theorem dopoolalloc_fit_one : ∃ c s' as',
    (∀ sbrk restricted n, dopoolalloc sbrk restricted (n + 1) 100 oneArena = some (some c.addr, s')) ∧
      Fit oneArena s' [oneFree] as' (need 100) c :=
  dopoolalloc_fit heap_oneArena 100 (by decide) ⟨⟨128, 512, true⟩, List.mem_singleton_self _, by decide⟩

/-! ### The tree as a whole -/

/-- A block is added to the tree or taken from it; the free blocks are no more than there are bytes in the arenas. -/
theorem free_tree (h : Frees s l) (hn : l.length ≤ s.arenasize) :
    (∀ q ∉ l, Frees (pooladd q s) (q :: l)) ∧ ∀ t ∈ l, Frees (pooldel t s) (l.erase t) := by
  constructor
  · intro q hq
    exact h.pooladd hq hn
  · intro t ht
    exact h.pooldel ht hn

/-- A tree of two blocks. -/
theorem free_tree_two :
    (∀ q ∉ [1000, 128], Frees (pooladd q (pooladd 1000 oneArena)) (q :: [1000, 128])) ∧
      ∀ t ∈ [1000, 128], Frees (pooldel t (pooladd 1000 oneArena)) ([1000, 128].erase t) := by
  have hone : Frees oneArena [128] := heap_oneArena.free
  exact free_tree (hone.pooladd (by decide) (by decide)) (by decide)

end Node9.Pool
