import Node9.PoolHeap

/-!
# The arenas of a pool

`Heap`: the arenas are on the chain, each is cut into blocks from its leader to its end mark, and the tree has the
free ones. Here is what `poolfree` and the ways of `dopoolalloc` to a block do to it.
-/

namespace Node9.Pool
open PtrTree Intrusive
open List hiding after

structure Arena where
  base : Nat
  blocks : List Block

/-- The first block comes after the leader. -/
def Arena.lo (a : Arena) : Nat := a.base + ldr

structure Arena.Ok (s : St) (a : Arena) : Prop where
  leader : s.magic a.base = .E
  size : s.size a.base = ldr
  tail : s.tail a.lo = a.base
  seg : Seg s a.lo a.blocks (s.limit a.base)
  mark : s.magic (s.limit a.base) = .E
  joined : Joined a.blocks

def blocks (as : List Arena) : List Block := as.flatMap Arena.blocks

def bases (as : List Arena) : List Nat := as.map Arena.base

def Chained (clink : Nat → Option Nat) : Option Nat → List Nat → Prop
  | v, [] => v = none
  | v, x :: xs => v = some x ∧ Chained clink (clink x) xs

/-- Two arenas, up to their end marks. -/
def Apart (s : St) (x y : Nat) : Prop := s.limit x + ldr ≤ y ∨ s.limit y + ldr ≤ x

structure Layout (s : St) (as : List Arena) : Prop where
  chain : Chained s.clink s.chain (bases as)
  arena : ∀ a ∈ as, a.Ok s
  apart : (bases as).Pairwise (Apart s)
  cover : ∀ x ∈ bases as, ∀ y, x ≤ y → y < s.limit x + ldr → ∃ g ∈ s.got, g.1 ≤ y ∧ y < g.1 + g.2
  bytes : ((bases as).map fun x => s.csize x + ldr).sum ≤ s.arenasize
  bound : s.arenasize ≤ s.maxsize
  chunk : ldr ∣ s.chunk

structure Heap (s : St) (as : List Arena) : Prop where
  layout : Layout s as
  free : Frees s ((frees (blocks as)).map Block.addr)
  cursize : s.cursize = ((lives (blocks as)).map Block.size).sum

variable {s s' s₁ : St} {as as₁ as₂ : List Arena} {a d : Arena} {b c : Block} {bs us vs : List Block}
    {lo hi size x t : Nat}

@[simp] theorem lives_append : lives (us ++ vs) = lives us ++ lives vs := filter_append ..

@[simp] theorem frees_append : frees (us ++ vs) = frees us ++ frees vs := filter_append ..

@[simp] theorem blocks_append : blocks (as₁ ++ as₂) = blocks as₁ ++ blocks as₂ := flatMap_append ..

@[simp] theorem blocks_cons : blocks (a :: as) = a.blocks ++ blocks as := flatMap_cons ..

theorem mem_lives : b ∈ lives bs ↔ b ∈ bs ∧ b.free = false := by simp [lives]

theorem mem_frees : b ∈ frees bs ↔ b ∈ bs ∧ b.free = true := by simp [frees]

theorem Arena.Ok.frame (h : a.Ok s) (hf : Outside s s' lo hi) (hc : s'.csize a.base = s.csize a.base)
    (hout : s.limit a.base < lo ∨ hi ≤ a.base) : a.Ok s' := by
  have hlim : s'.limit a.base = s.limit a.base := congrArg (a.base + ·) hc
  have hle := h.seg.le
  have hlo : a.lo = a.base + ldr := rfl
  have hldr : 0 < ldr := by decide
  refine ⟨?_, ?_, ?_, ?_, ?_, h.joined⟩
  · rw [hf.magic _ (by omega), h.leader]
  · rw [hf.size _ (by omega), h.size]
  · rw [hf.tail _ (by omega), h.tail]
  · rw [hlim]
    exact h.seg.frame hf (by omega)
  · rw [hlim, hf.magic _ (by omega), h.mark]

theorem exists_split (hb : b ∈ blocks as) : ∃ as₁ a as₂ us vs, as = as₁ ++ a :: as₂ ∧ a.blocks = us ++ b :: vs := by
  obtain ⟨a, ha, hba⟩ := mem_flatMap.1 hb
  obtain ⟨as₁, as₂, rfl⟩ := append_of_mem ha
  obtain ⟨us, vs, hsplit⟩ := append_of_mem hba
  exact ⟨as₁, a, as₂, us, vs, rfl, hsplit⟩

namespace Layout

section
variable (h : Layout s (as₁ ++ a :: as₂))
include h

theorem apart_of_split (hd : d ∈ as₁ ++ as₂) : Apart s d.base a.base := by
  have hap := h.apart
  rw [bases, map_append, map_cons] at hap
  obtain ⟨-, hap, hcross⟩ := pairwise_append.1 hap
  rcases mem_append.1 hd with hd | hd
  · exact hcross d.base (mem_map_of_mem hd) a.base (mem_cons_self ..)
  · exact ((pairwise_cons.1 hap).1 d.base (mem_map_of_mem hd)).symm

theorem arena_of_split : a.Ok s := h.arena a (by simp)

theorem replace (hf : Frame s s' a.lo (s.limit a.base))
    (hseg : Seg s' a.lo bs (s.limit a.base)) (hj : Joined bs) : Layout s' (as₁ ++ ⟨a.base, bs⟩ :: as₂) := by
  have hbases : bases (as₁ ++ ⟨a.base, bs⟩ :: as₂) = bases (as₁ ++ a :: as₂) := by simp [bases]
  have hlim : s'.limit = s.limit := by
    funext x
    exact congrArg (x + ·) (congrFun hf.csize x)
  have hok := h.arena_of_split
  have hlo : a.lo = a.base + ldr := rfl
  have hldr : 0 < ldr := by decide
  refine ⟨?_, fun d hd => ?_, ?_, ?_, ?_, ?_, ?_⟩
  · rw [hbases, hf.clink, hf.chain]
    exact h.chain
  · have hd' : d ∈ as₁ ++ as₂ ∨ d = ⟨a.base, bs⟩ := by
      simp only [mem_append, mem_cons] at hd ⊢
      tauto
    rcases hd' with hd | rfl
    · have hap := h.apart_of_split hd
      have hmem : d ∈ as₁ ++ a :: as₂ := by
        simp only [mem_append, mem_cons] at hd ⊢
        tauto
      refine (h.arena d hmem).frame hf.toOutside (congrFun hf.csize d.base) ?_
      unfold Apart at hap
      omega
    refine ⟨?_, ?_, ?_, ?_, ?_, hj⟩
    · exact (hf.magic a.base (.inl (by omega))).trans hok.leader
    · exact (hf.size a.base (.inl (by omega))).trans hok.size
    · exact (hf.tail _ (.inl le_rfl)).trans hok.tail
    · rw [hlim]
      exact hseg
    · rw [hlim, hf.magic _ (.inr le_rfl), hok.mark]
  · rw [hbases]
    unfold Apart
    rw [hlim]
    exact h.apart
  · rw [hbases, hlim, hf.got]
    exact h.cover
  · rw [hbases, hf.csize, hf.arenasize]
    exact h.bytes
  · rw [hf.arenasize, hf.maxsize]
    exact h.bound
  · rw [hf.chunk]
    exact h.chunk

end

section
variable (h : Layout s as)
include h

theorem length_le : (blocks as).length ≤ s.fuel := by
  refine le_trans ?_ h.bytes
  have harena := h.arena
  clear h
  induction as with
  | nil => exact le_rfl
  | cons a as ih =>
    have hle := (harena a (by simp)).seg.length_le
    have hlo : a.lo = a.base + ldr := rfl
    have hlim : s.limit a.base = a.base + s.csize a.base := rfl
    have hrest := ih fun d hd => harena d (by simp [hd])
    simp only [blocks_cons, length_append, bases, map_cons, sum_cons] at hrest ⊢
    omega

theorem sized (hb : b ∈ blocks as) : Sized s b.addr b.size ∧ s.magic b.addr = b.magic := by
  obtain ⟨a, ha, hb⟩ := mem_flatMap.1 hb
  exact (h.arena a ha).seg.sized hb

theorem pairwise : (blocks as).Pairwise fun b c => b.fin ≤ c.addr ∨ c.fin ≤ b.addr := by
  refine pairwise_flatMap.2 ⟨fun a ha => (h.arena a ha).seg.pairwise.imp .inl, ?_⟩
  have hap := pairwise_map.1 h.apart
  refine hap.imp_of_mem fun {a d} ha hd hap b hb c hc => ?_
  have hb := (h.arena a ha).seg.bounds hb
  have hc := (h.arena d hd).seg.bounds hc
  have hlo : a.lo = a.base + ldr := rfl
  have hlo' : d.lo = d.base + ldr := rfl
  unfold Apart at hap
  omega

theorem disjoint (hb : b ∈ blocks as) (hc : c ∈ blocks as) (hne : b ≠ c) :
    b.fin ≤ c.addr ∨ c.fin ≤ b.addr := by
  have hsymm : Std.Symm fun b c : Block => b.fin ≤ c.addr ∨ c.fin ≤ b.addr := ⟨fun _ _ h => h.symm⟩
  exact h.pairwise.forall hb hc hne

theorem same (hf : Frame s s' 0 0) : Layout s' as := by
  have hlim : s'.limit = s.limit := by
    funext x
    exact congrArg (x + ·) (congrFun hf.csize x)
  refine ⟨?_, fun a ha => (h.arena a ha).frame hf.toOutside (congrFun hf.csize a.base) (.inr zero_le), ?_,
    ?_, ?_,
    ?_, ?_⟩
  · rw [hf.clink, hf.chain]
    exact h.chain
  · unfold Apart
    rw [hlim]
    exact h.apart
  · rw [hlim, hf.got]
    exact h.cover
  · rw [hf.csize, hf.arenasize]
    exact h.bytes
  · rw [hf.arenasize, hf.maxsize]
    exact h.bound
  · rw [hf.chunk]
    exact h.chunk

end

end Layout

/-- The free blocks outside of an arena. -/
def elsewhere (as₁ as₂ : List Arena) : List Nat := (frees (blocks as₁) ++ frees (blocks as₂)).map Block.addr

theorem perm_elsewhere : ((frees (blocks (as₁ ++ a :: as₂))).map Block.addr).Perm
    ((frees a.blocks).map Block.addr ++ elsewhere as₁ as₂) := by
  simp only [elsewhere, blocks_append, blocks_cons, frees_append, map_append]
  refine perm_iff_count.2 fun x => ?_
  simp only [count_append]
  omega

/-- The block `c` has become the blocks `ds`. -/
def Replaced (as as' : List Arena) (c : Block) (ds : List Block) : Prop :=
  ∃ us vs, blocks as = us ++ c :: vs ∧ blocks as' = us ++ (ds ++ vs)

theorem Replaced.of_split {ds : List Block} (as₁ as₂ : List Arena) (hbs : a.blocks = us ++ c :: vs) :
    Replaced (as₁ ++ a :: as₂) (as₁ ++ ⟨a.base, us ++ (ds ++ vs)⟩ :: as₂) c ds := by
  refine ⟨blocks as₁ ++ us, vs ++ blocks as₂, ?_, ?_⟩
  · rw [blocks_append, blocks_cons, hbs]
    simp only [append_assoc, cons_append]
  · rw [blocks_append, blocks_cons]
    simp only [append_assoc]

theorem Replaced.perm_lives {as' : List Arena} {ds : List Block} (h : Replaced as as' c ds) (hc : c.free = true)
    (hds : lives ds = [b]) : (lives (blocks as')).Perm (b :: lives (blocks as)) := by
  obtain ⟨us, vs, has, has'⟩ := h
  have hcons : lives (c :: vs) = lives vs := by simp [lives, hc]
  rw [has, has', lives_append, lives_append, lives_append, hds, hcons]
  refine perm_iff_count.2 fun x => ?_
  simp only [count_append, List.count_cons, count_nil]
  omega

namespace Heap

theorem length_frees (h : Heap s as) : ((frees (blocks as)).map Block.addr).length ≤ s.fuel := by
  rw [length_map]
  exact (length_filter_le ..).trans h.layout.length_le

theorem not_free (h : Heap s as) (hb : b ∈ lives (blocks as)) : b.addr ∉ (frees (blocks as)).map Block.addr := by
  intro hmem
  obtain ⟨c, hc, hcb⟩ := mem_map.1 hmem
  obtain ⟨hc, hcf⟩ := mem_frees.1 hc
  obtain ⟨hb, hbf⟩ := mem_lives.1 hb
  have hmc := (h.layout.sized hc).2
  have hmb := (h.layout.sized hb).2
  rw [hcb, hmb] at hmc
  simp [Block.magic, hcf, hbf] at hmc

theorem poolfree (h : Heap s as) (hb : b ∈ lives (blocks as)) :
    ∃ as', Heap (poolfree b.addr s) as' ∧ (lives (blocks as)).Perm (b :: lives (blocks as')) ∧
      (∃ d ∈ frees (blocks as'), b.size ≤ d.size) ∧ (poolfree b.addr s).move = s.move := by
  have hnot := h.not_free hb
  obtain ⟨hbm, hbf⟩ := mem_lives.1 hb
  obtain ⟨as₁, a, as₂, us, vs, rfl, hbs⟩ := exists_split hbm
  have hok := h.layout.arena_of_split
  have hseg := hok.seg
  have hj := hok.joined
  rw [hbs] at hseg hj
  obtain ⟨mid, hus, rfl, hsize, -, hvs⟩ := Seg.append_iff.1 hseg
  obtain ⟨hju, hjv, -⟩ := isChain_append.1 hj
  have hperm : ((frees (blocks (as₁ ++ a :: as₂))).map Block.addr).Perm (addrs us vs (elsewhere as₁ as₂)) := by
    refine perm_elsewhere.trans ?_
    rw [hbs, frees_append]
    have hcons : frees (b :: vs) = frees vs := by simp [frees, hbf]
    rw [hcons, addrs, map_append, append_assoc]
  have hlo : a.lo = a.base + ldr := rfl
  have hldr : 0 < ldr := by decide
  obtain ⟨bs, hbs', hjbs, hlives, hfree, hframe, hcur, d, hd, hdz⟩ := poolfree_seg (elsewhere as₁ as₂) ⟨hus, hsize, hvs⟩
    (by rw [hok.mark]; decide) (by rw [hok.tail, hok.leader]; decide) (by rw [hok.tail]; omega) hju
    (isChain_cons.1 hjv).2 (h.free.perm hperm) (fun hmem => hnot (hperm.mem_iff.2 hmem))
    (hperm.length_eq ▸ h.length_frees)
  have hl : (lives (blocks (as₁ ++ a :: as₂))).Perm (b :: lives (blocks (as₁ ++ ⟨a.base, bs⟩ :: as₂))) := by
    have hcons : lives (b :: vs) = b :: lives vs := by simp [lives, hbf]
    simp only [blocks_append, blocks_cons, lives_append, hbs, hcons, hlives]
    refine perm_iff_count.2 fun x => ?_
    simp only [count_append, List.count_cons]
    omega
  refine ⟨as₁ ++ ⟨a.base, bs⟩ :: as₂, ⟨h.layout.replace hframe hbs' hjbs,
    hfree.perm (perm_elsewhere (a := ⟨a.base, bs⟩)).symm, ?_⟩, hl,
    ⟨d, ?_, hdz⟩, hframe.move⟩
  · have hsum := (hl.map Block.size).sum_eq
    rw [hcur, h.cursize, hsum, map_cons, sum_cons, Nat.add_sub_cancel_left]
  · simp only [blocks_append, blocks_cons, frees_append, mem_append]
    exact .inr (.inl hd)

/-! ### A block from the tree -/

theorem takeOut (h : Heap s as) (hc : c ∈ frees (blocks as)) :
    ∃ as₁ a as₂ us vs, as = as₁ ++ a :: as₂ ∧ a.blocks = us ++ c :: vs ∧
      let s₁ := (pooldel c.addr s).setMagic c.addr .A
      let as' := as₁ ++ ⟨a.base, us ++ ⟨c.addr, c.size, false⟩ :: vs⟩ :: as₂
      Layout s₁ as' ∧ Joined us ∧ Joined vs ∧ (∀ d ∈ vs.head?, ¬ d.free = true) ∧
        Frees s₁ (addrs us vs (elsewhere as₁ as₂)) ∧ c.addr ∉ addrs us vs (elsewhere as₁ as₂) ∧
        (addrs us vs (elsewhere as₁ as₂)).length ≤ s₁.fuel ∧ Frame s s₁ a.lo (s.limit a.base) := by
  obtain ⟨hcm, hcf⟩ := mem_frees.1 hc
  obtain ⟨as₁, a, as₂, us, vs, rfl, hbs⟩ := exists_split hcm
  refine ⟨as₁, a, as₂, us, vs, rfl, hbs, ?_⟩
  intro s₁ as'
  have hok := h.layout.arena_of_split
  have hseg := hok.seg
  have hj := hok.joined
  rw [hbs] at hseg hj
  obtain ⟨hju, hjv, -⟩ := isChain_append.1 hj
  obtain ⟨hhead, hjv⟩ := isChain_cons.1 hjv
  have hperm : ((frees (blocks (as₁ ++ a :: as₂))).map Block.addr).Perm (addrs us (c :: vs) (elsewhere as₁ as₂)) := by
    refine perm_elsewhere.trans ?_
    rw [hbs, frees_append, addrs, map_append, append_assoc]
  obtain ⟨hseg', hj', hfree, hnot, hlen, hframe⟩ := takeOut_seg hseg hcf hj (h.free.perm hperm)
    (hperm.length_eq ▸ h.length_frees)
  have hfuel : s₁.fuel = s.fuel := hframe.arenasize
  exact ⟨h.layout.replace hframe hseg' hj', hju, hjv, fun d hd hdf => hhead d hd ⟨hcf, hdf⟩, hfree, hnot, hfuel ▸ hlen,
    hframe⟩

theorem take_frame : Frame s (take t s) 0 0 := { (Frame.refl : Frame s s 0 0) with }

theorem whole (h : Heap s as) (hc : c ∈ frees (blocks as)) :
    ∃ as', Heap (take c.addr ((pooldel c.addr s).setMagic c.addr .A)) as' ∧
      Replaced as as' c [⟨c.addr, c.size, false⟩] := by
  obtain ⟨as₁, a, as₂, us, vs, rfl, hbs, hlay, -, -, -, hfree, -, -, -⟩ := h.takeOut hc
  have hcf := (mem_frees.1 hc).2
  have hsize := (h.layout.sized (mem_frees.1 hc).1).1.size
  have hrep : Replaced _ _ c [⟨c.addr, c.size, false⟩] := .of_split as₁ as₂ hbs
  have hl := hrep.perm_lives hcf rfl
  refine ⟨_, ⟨hlay.same take_frame, (hfree.perm ?_).congr rfl rfl fun _ _ => rfl, ?_⟩, hrep⟩
  · refine List.Perm.trans ?_ perm_elsewhere.symm
    have hcons : frees (⟨c.addr, c.size, false⟩ :: vs) = frees vs := by simp [frees]
    dsimp only
    rw [frees_append, hcons, map_append, addrs, append_assoc]
  · have hcur : (take c.addr ((pooldel c.addr s).setMagic c.addr .A)).cursize = s.cursize + s.size c.addr := by
      rw [pooldel_eq]
      rfl
    rw [hcur, h.cursize, hsize, add_comm]
    exact ((hl.map Block.size).sum_eq.trans sum_cons).symm

theorem part {z : Nat} (frag : Nat) (h : Heap s as) (hc : c ∈ frees (blocks as)) (hsum : c.size = z + frag) (hz : 0 < z)
    (hzd : ldr ∣ z) (hfrag : 0 < frag) :
    let s₁ := ((((pooldel c.addr s).setMagic c.addr .A).setSize c.addr z)).setTail c.addr
    let s₂ := pooladd (s₁.nb c.addr) ((s₁.setSize (s₁.nb c.addr) frag).setTail (s₁.nb c.addr))
    ∃ as', Heap (take c.addr s₂) as' ∧ Replaced as as' c [⟨c.addr, z, false⟩, ⟨c.addr + z, frag, true⟩] := by
  intro s₁ s₂
  obtain ⟨as₁, a, as₂, us, vs, rfl, hbs, hlay, hju, hjv, hhead, hfree, hnot, hlen, hframe⟩ := h.takeOut hc
  have hcf := (mem_frees.1 hc).2
  have hcs := (h.layout.sized (mem_frees.1 hc).1).1
  have hfd : ldr ∣ frag := (Nat.dvd_add_right hzd).1 (hsum ▸ hcs.dvd)
  have hlim : ((pooldel c.addr s).setMagic c.addr .A).limit a.base = s.limit a.base :=
    congrArg (a.base + ·) (congrFun hframe.csize a.base)
  have hseg := hlay.arena_of_split.seg
  dsimp only at hseg
  rw [hlim, hsum] at hseg
  have hpermf : ((frees (blocks (as₁ ++ ⟨a.base, us ++ ⟨c.addr, c.size, false⟩ :: vs⟩ :: as₂))).map Block.addr).Perm
      (addrs us vs (elsewhere as₁ as₂)) := by
    refine perm_elsewhere.trans ?_
    have hcons : frees (⟨c.addr, c.size, false⟩ :: vs) = frees vs := by simp [frees]
    dsimp only
    rw [frees_append, hcons, map_append, addrs, append_assoc]
  -- no block begins inside of this one
  have hr : c.addr + z ∉ addrs us vs (elsewhere as₁ as₂) := by
    intro hmem
    obtain ⟨d, hd, hda⟩ := mem_map.1 (hpermf.mem_iff.2 hmem)
    obtain ⟨hd, hdf⟩ := mem_frees.1 hd
    have hmem' : (⟨c.addr, c.size, false⟩ : Block) ∈ blocks
      (as₁ ++ ⟨a.base, us ++ ⟨c.addr, c.size, false⟩ :: vs⟩ :: as₂) := by
      simp
    have hdis := hlay.disjoint hd hmem' (fun heq => by rw [heq] at hdf; exact Bool.false_ne_true hdf)
    have hpos := (hlay.sized hd).1.pos
    unfold Block.fin at hdis
    dsimp only at hdis
    omega
  obtain ⟨hseg', hj', hfree', hframe', hcur⟩ := split_seg hseg hz hzd hfrag hfd hju hjv hhead hfree hnot hr hlen
  have hlay' := (hlay.replace (hlim ▸ hframe') (hlim ▸ hseg') hj').same (take_frame (t := c.addr))
  have hrep : Replaced _ _ c [⟨c.addr, z, false⟩, ⟨c.addr + z, frag, true⟩] := .of_split as₁ as₂ hbs
  have hl := hrep.perm_lives hcf rfl
  refine ⟨_, ⟨hlay', ?_, ?_⟩, hrep⟩
  · exact (hfree'.perm (perm_elsewhere (a := ⟨a.base, us ++ ⟨c.addr, z, false⟩ :: ⟨c.addr + z, frag, true⟩ :: vs⟩)).symm).congr
      rfl rfl fun _ _ => rfl
  have hsize : s₂.size c.addr = z := by
    have hmem : (⟨c.addr, z, false⟩ : Block) ∈
        us ++ ⟨c.addr, z, false⟩ :: ⟨c.addr + z, frag, true⟩ :: vs := by simp
    exact (hseg'.sized hmem).1.size
  have hcur' : (take c.addr s₂).cursize = s₂.cursize + s₂.size c.addr := rfl
  have hcur₁ : ((pooldel c.addr s).setMagic c.addr .A).cursize = s.cursize := by
    rw [pooldel_eq]
    rfl
  rw [hcur', hsize, hcur, hcur₁, h.cursize, add_comm]
  exact ((hl.map Block.size).sum_eq.trans sum_cons).symm

theorem fromTree (h : Heap s as) (hz : 0 < size) (hzd : ldr ∣ size) (hr : fromTree size s = some (t, s')) :
    ∃ as' b, Heap s' as' ∧ b.addr = t ∧ b.free = false ∧ size ≤ b.size ∧
      (lives (blocks as')).Perm (b :: lives (blocks as)) := by
  obtain ⟨hsome, -⟩ := h.free.search size h.length_frees
  unfold Pool.fromTree at hr
  split at hr
  · cases hr
  rename_i x hx
  obtain ⟨hxm, hle, hnm, hns⟩ := hsome x hx
  split at hr
  case isTrue heq =>
    cases hr
    obtain ⟨c, hc, hca⟩ := mem_map.1 hnm
    obtain ⟨as', hheap, hrep⟩ := h.whole hc
    rw [hca] at hheap
    have hcs := (h.layout.sized (mem_frees.1 hc).1).1.size
    exact ⟨as', ⟨c.addr, c.size, false⟩, hheap, hca, rfl, by rw [← hcs, hca, hns, heq],
      hrep.perm_lives (mem_frees.1 hc).2 rfl⟩
  case isFalse hne =>
    obtain ⟨c, hc, hca⟩ := mem_map.1 hxm
    have hcs := (h.layout.sized (mem_frees.1 hc).1).1.size
    rw [hca] at hcs
    have hsx : ((pooldel x s).setMagic x .A).size x = c.size := by
      rw [pooldel_eq]
      exact hcs
    dsimp only at hr
    split at hr
    case isTrue =>
      cases hr
      obtain ⟨as', hheap, hrep⟩ := h.whole hc
      rw [hca] at hheap
      exact ⟨as', ⟨c.addr, c.size, false⟩, hheap, hca, rfl, hcs ▸ hle, hrep.perm_lives (mem_frees.1 hc).2 rfl⟩
    case isFalse =>
      cases hr
      rw [hsx]
      obtain ⟨as', hheap, hrep⟩ := h.part (z := size) (c.size - size) hc (by omega) hz hzd (by omega)
      rw [hca] at hheap
      exact ⟨as', ⟨c.addr, size, false⟩, hheap, hca, rfl, le_rfl, hrep.perm_lives (mem_frees.1 hc).2 rfl⟩

end Heap

end Node9.Pool
