import Node9.PoolArena

/-!
# The growth of a pool

Memory from `sbrk` becomes a new arena, or goes to the end of the last one. Then `dopoolalloc` as a whole.
-/

namespace Node9.Pool
open PtrTree Intrusive Function
open List hiding after

variable {s s' : St} {as : List Arena} {size ns t x : Nat}

/-- The memory from `lo` to `hi` was in no arena, and `sbrk` gave it in one piece. -/
structure Fresh (s : St) (as : List Arena) (lo hi : Nat) : Prop where
  apart : ∀ y ∈ bases as, s.limit y + ldr ≤ lo ∨ hi ≤ y
  got : ∃ g ∈ s.got, g.1 ≤ lo ∧ hi ≤ g.1 + g.2

theorem Fresh.not_block {lo hi : Nat} {b : Block} (h : Fresh s as lo hi) (hl : Layout s as) (hb : b ∈ blocks as) :
    b.addr < lo ∨ hi ≤ b.addr := by
  obtain ⟨a, ha, hb⟩ := mem_flatMap.1 hb
  have hap := h.apart a.base (mem_map_of_mem ha)
  have hbounds := (hl.arena a ha).seg.bounds hb
  have hlo : a.lo = a.base + ldr := rfl
  unfold Block.fin at hbounds
  omega

theorem Fresh.not_free {lo hi : Nat} (h : Fresh s as lo hi) (hl : Layout s as) (hlo : lo ≤ x) (hhi : x < hi) :
    x ∉ (frees (blocks as)).map Block.addr := by
  intro hmem
  obtain ⟨b, hb, rfl⟩ := mem_map.1 hmem
  have hout := h.not_block hl (mem_frees.1 hb).1
  omega

variable (ns) in
theorem lead_size : (lead t size ns s).size = update (update s.size t ldr) (t + ldr) size := by
  have hval : update s.size t ldr t = ldr := update_self ..
  show update (update s.size t ldr) (t + update s.size t ldr t) size = _
  rw [hval]

variable (size ns) in
theorem lead_magic : (lead t size ns s).magic = update (update s.magic t .E) (t + ldr) .A := by
  have hval : update s.size t ldr t = ldr := update_self ..
  show update (update s.magic t .E) (t + update s.size t ldr t) .A = _
  rw [hval]

variable (ns) in
theorem lead_tail : (lead t size ns s).tail =
    update (update s.tail (t + ldr) t) (t + ldr + size) (t + ldr) := by
  have hval : update s.size t ldr t = ldr := update_self ..
  show update (update s.tail (t + update s.size t ldr t) t)
    (t + update s.size t ldr t + (lead t size ns s).size (t + update s.size t ldr t))
    (t + update s.size t ldr t) = _
  rw [hval, lead_size _, update_self]

theorem lead_nb : (lead t size ns s).nb t = t + ldr := by
  have hne : t ≠ t + ldr := by
    have hldr : 0 < ldr := by decide
    omega
  show t + (lead t size ns s).size t = _
  rw [lead_size _, update_of_ne hne, update_self]

theorem lead_nb_block : (lead t size ns s).nb (t + ldr) = t + ldr + size := by
  show t + ldr + (lead t size ns s).size (t + ldr) = _
  rw [lead_size _, update_self]

/-- The new arena is the first of the chain, and nothing else is new besides its blocks. -/
structure Led (s s' : St) (t ns : Nat) : Prop where
  csize : s'.csize = Function.update s.csize t (ns + ldr)
  clink : s'.clink = Function.update s.clink t s.chain
  chain : s'.chain = some t
  got : s'.got = s.got
  arenasize : s'.arenasize = s.arenasize
  maxsize : s'.maxsize = s.maxsize
  chunk : s'.chunk = s.chunk
  move : s'.move = s.move

theorem lead_led : Led s (lead t size ns s) t ns := ⟨rfl, rfl, rfl, rfl, rfl, rfl, rfl, rfl⟩

theorem Led.frame {s'' : St} {lo hi : Nat} (h : Led s s' t ns) (hf : Frame s' s'' lo hi) : Led s s'' t ns where
  csize := hf.csize.trans h.csize
  clink := hf.clink.trans h.clink
  chain := hf.chain.trans h.chain
  got := hf.got.trans h.got
  arenasize := hf.arenasize.trans h.arenasize
  maxsize := hf.maxsize.trans h.maxsize
  chunk := hf.chunk.trans h.chunk
  move := hf.move.trans h.move

theorem Led.limit (h : Led s s' t ns) : s'.limit t = t + ldr + ns := by
  show t + s'.csize t = _
  rw [h.csize, update_self]
  omega

variable (s') in
theorem Arena.ok_of_rest {z r : Nat} (hz : 0 < z) (hzd : ldr ∣ z) (hr : 0 < r) (hrd : ldr ∣ r)
    (hmagic : s'.magic = update (update (update (update s.magic t .E) (t + ldr) .A)
      (t + ldr + z) .F) (t + ldr + z + r) .E)
    (hsize : s'.size = update (update (update s.size t ldr) (t + ldr) z) (t + ldr + z) r)
    (htail : s'.tail = update (update (update s.tail (t + ldr) t) (t + ldr + z) (t + ldr))
      (t + ldr + z + r) (t + ldr + z))
    (hlim : s'.limit t = t + ldr + z + r) :
    Arena.Ok s' ⟨t, [⟨t + ldr, z, false⟩, ⟨t + ldr + z, r, true⟩]⟩ ∧ Outside s s' t (t + ldr + z + r + ldr) := by
  have hldr : 0 < ldr := by decide
  have hm : ∀ x, s'.magic x = if x = t + ldr + z + r then .E else if x = t + ldr + z then .F
    else if x = t + ldr then .A else
      if x = t then .E else s.magic x := fun x => by simp only [hmagic, update_apply]
  have hs : ∀ x, s'.size x = if x = t + ldr + z then r else if x = t + ldr then z else if x = t then ldr
    else s.size x :=
    fun x => by simp only [hsize, update_apply]
  have ht : ∀ x, s'.tail x = if x = t + ldr + z + r then t + ldr + z else if x = t + ldr + z then t + ldr else
      if x = t + ldr then t else s.tail x := fun x => by simp only [htail, update_apply]
  clear hmagic hsize htail
  have hleader : s'.magic t = .E := by rw [hm, if_neg (by omega), if_neg (by omega), if_neg (by omega), if_pos rfl]
  have hleader' : s'.size t = ldr := by rw [hs, if_neg (by omega), if_neg (by omega), if_pos rfl]
  have hleader'' : s'.tail (t + ldr) = t := by rw [ht, if_neg (by omega), if_neg (by omega), if_pos rfl]
  have hblock : s'.magic (t + ldr) = .A := by rw [hm, if_neg (by omega), if_neg (by omega), if_pos rfl]
  have hsized : Sized s' (t + ldr) z := by
    refine ⟨?_, ?_, hz, hzd⟩
    · rw [hs, if_neg (by omega), if_pos rfl]
    · rw [ht, if_neg (by omega), if_pos rfl]
  have hrest : s'.magic (t + ldr + z) = .F := by rw [hm, if_neg (by omega), if_pos rfl]
  have hsized' : Sized s' (t + ldr + z) r := by
    refine ⟨?_, ?_, hr, hrd⟩
    · rw [hs, if_pos rfl]
    · rw [ht, if_pos rfl]
  have hmark : s'.magic (t + ldr + z + r) = .E := by rw [hm, if_pos rfl]
  refine ⟨⟨hleader, hleader', hleader'', ⟨rfl, hsized, hblock, rfl, hsized', hrest, hlim.symm⟩, ?_, ?_⟩, ?_⟩
  · rw [← hlim] at hmark
    exact hmark
  · simp [Joined]
  · refine ⟨fun x hx => ?_, fun x hx => ?_, fun x hx => ?_⟩
    · rw [hm, if_neg (by omega), if_neg (by omega), if_neg (by omega), if_neg (by omega)]
    · rw [hs, if_neg (by omega), if_neg (by omega), if_neg (by omega)]
    · rw [ht, if_neg (by omega), if_neg (by omega), if_neg (by omega)]

variable (s') in
theorem Arena.ok_of_full {z : Nat} (hz : 0 < z) (hzd : ldr ∣ z)
    (hmagic : s'.magic = update (update (update s.magic t .E) (t + ldr) .A) (t + ldr + z) .E)
    (hsize : s'.size = update (update s.size t ldr) (t + ldr) z)
    (htail : s'.tail = update (update s.tail (t + ldr) t) (t + ldr + z) (t + ldr))
    (hlim : s'.limit t = t + ldr + z) :
    Arena.Ok s' ⟨t, [⟨t + ldr, z, false⟩]⟩ ∧ Outside s s' t (t + ldr + z + ldr) := by
  have hldr : 0 < ldr := by decide
  have hm : ∀ x, s'.magic x = if x = t + ldr + z then .E else if x = t + ldr then .A else
      if x = t then .E else s.magic x := fun x => by simp only [hmagic, update_apply]
  have hs : ∀ x, s'.size x = if x = t + ldr then z else if x = t then ldr else s.size x :=
    fun x => by simp only [hsize, update_apply]
  have ht : ∀ x, s'.tail x = if x = t + ldr + z then t + ldr else if x = t + ldr then t else s.tail x :=
    fun x => by simp only [htail, update_apply]
  clear hmagic hsize htail
  have hleader : s'.magic t = .E := by rw [hm, if_neg (by omega), if_neg (by omega), if_pos rfl]
  have hleader' : s'.size t = ldr := by rw [hs, if_neg (by omega), if_pos rfl]
  have hleader'' : s'.tail (t + ldr) = t := by rw [ht, if_neg (by omega), if_pos rfl]
  have hblock : s'.magic (t + ldr) = .A := by rw [hm, if_neg (by omega), if_pos rfl]
  have hsized : Sized s' (t + ldr) z := by
    refine ⟨?_, ?_, hz, hzd⟩
    · rw [hs, if_pos rfl]
    · rw [ht, if_pos rfl]
  have hmark : s'.magic (t + ldr + z) = .E := by rw [hm, if_pos rfl]
  refine ⟨⟨hleader, hleader', hleader'', ⟨rfl, hsized, hblock, hlim.symm⟩, ?_, ?_⟩, ?_⟩
  · rw [← hlim] at hmark
    exact hmark
  · simp [Joined]
  · refine ⟨fun x hx => ?_, fun x hx => ?_, fun x hx => ?_⟩
    · rw [hm, if_neg (by omega), if_neg (by omega), if_neg (by omega)]
    · rw [hs, if_neg (by omega), if_neg (by omega)]
    · rw [ht, if_neg (by omega), if_neg (by omega)]

theorem Layout.cons {bs : List Block} (h : Layout s as) (hf : Fresh s as t (t + ns + ldr + ldr))
    (ho : Outside s s' t (t + ns + ldr + ldr)) (hled : Led s s' t ns)
    (hroom : ((bases as).map fun x => s.csize x + ldr).sum + (ns + ldr + ldr) ≤ s.arenasize)
    (hbound : s.arenasize ≤ s.maxsize) (hok : Arena.Ok s' ⟨t, bs⟩) :
    Layout s' (⟨t, bs⟩ :: as) := by
  have hldr : 0 < ldr := by decide
  have hne : ∀ y ∈ bases as, y ≠ t := by
    rintro y hy rfl
    have hap := hf.apart y hy
    have hle : y ≤ s.limit y := Nat.le_add_right _ _
    omega
  have hcs : ∀ y ∈ bases as, s'.csize y = s.csize y := fun y hy => by rw [hled.csize, update_of_ne (hne y hy)]
  have hlim : ∀ y ∈ bases as, s'.limit y = s.limit y := fun y hy => congrArg (y + ·) (hcs y hy)
  have hlimt := hled.limit
  have hchain : ∀ (v : Option Nat) (xs : List Nat), (∀ y ∈ xs, y ≠ t) → Chained s.clink v xs →
    Chained s'.clink v xs := by
    intro v xs
    induction xs generalizing v with
    | nil => exact fun _ h => h
    | cons y ys ih =>
      rintro hys ⟨rfl, hch⟩
      refine ⟨rfl, ?_⟩
      rw [hled.clink, update_of_ne (hys y (by simp)), ← hled.clink]
      exact ih _ (fun z hz => hys z (by simp [hz])) hch
  refine ⟨⟨hled.chain, ?_⟩, fun a ha => ?_, ?_, fun y hy z hyz hzy => ?_, ?_, ?_, ?_⟩
  · show Chained s'.clink (s'.clink t) (bases as)
    rw [hled.clink, update_self, ← hled.clink]
    exact hchain _ _ hne h.chain
  · rcases mem_cons.1 ha with rfl | ha
    · exact hok
    · have hmem : a.base ∈ bases as := mem_map_of_mem ha
      have hap := hf.apart a.base hmem
      exact (h.arena a ha).frame ho (hcs a.base hmem) (by omega)
  · refine pairwise_cons.2 ⟨fun y hy => ?_, ?_⟩
    · have hap := hf.apart y hy
      show s'.limit t + ldr ≤ y ∨ s'.limit y + ldr ≤ t
      rw [hlimt, hlim y hy]
      omega
    · refine h.apart.imp_of_mem fun {y z} hy hz hap => ?_
      unfold Apart
      rw [hlim y hy, hlim z hz]
      exact hap
  · rw [hled.got]
    rcases mem_cons.1 hy with rfl | hy
    · obtain ⟨g, hgm, hlo, hhi⟩ := hf.got
      rw [hlimt] at hzy
      exact ⟨g, hgm, by omega, by omega⟩
    · rw [hlim y hy] at hzy
      exact h.cover y hy z hyz hzy
  · have hsum : (bases as).map (fun x => s'.csize x + ldr) = (bases as).map fun x => s.csize x + ldr :=
      map_congr_left fun y hy => by rw [hcs y hy]
    show (((bases (⟨t, bs⟩ :: as)).map fun x => s'.csize x + ldr)).sum ≤ _
    have hcons : bases (⟨t, bs⟩ :: as) = t :: bases as := rfl
    rw [hcons, map_cons, sum_cons, hsum, hled.csize, update_self, hled.arenasize]
    omega
  · rw [hled.arenasize, hled.maxsize]
    exact hbound
  · rw [hled.chunk]
    exact h.chunk

theorem newArena_rest {r : Nat} (h : Heap s as) (hf : Fresh s as t (t + (size + r) + ldr + ldr))
    (hroom : ((bases as).map fun x => s.csize x + ldr).sum + (size + r + ldr + ldr) ≤ s.arenasize)
    (hbound : s.arenasize ≤ s.maxsize) (hz : 0 < size) (hzd : ldr ∣ size) (hr : 0 < r) (hrd : ldr ∣ r)
    (hfrees : Frees (lead t size (size + r) s) ((frees (blocks as)).map Block.addr)) :
    let q := t + ldr + size
    let s₂ := pooladd q (((lead t size (size + r) s).setSize q r).setTail q)
    ∃ as', Heap (take (t + ldr) (s₂.setMagic (s₂.nb q) .E)) as' ∧
      (lives (blocks as')).Perm (⟨t + ldr, size, false⟩ :: lives (blocks as)) ∧
      (take (t + ldr) (s₂.setMagic (s₂.nb q) .E)).move = s.move := by
  intro q
  have hldr : 0 < ldr := by decide
  generalize hs₁ : ((lead t size (size + r) s).setSize q r).setTail q = s₁
  intro s₂
  have hval : ((lead t size (size + r) s).setSize q r).size q = r := update_self ..
  have hsize₁ : s₁.size = update (update (update s.size t ldr) (t + ldr) size) q r := by
    rw [← hs₁, ← lead_size (size + r)]
    rfl
  have htail₁ : s₁.tail = update (update (update s.tail (t + ldr) t) (t + ldr + size)
    (t + ldr))
      (q + r) q := by
    rw [← hs₁, ← lead_tail (size + r)]
    show update (lead t size (size + r) s).tail (q + ((lead t size (size + r) s).setSize q r).size q) q = _
    rw [hval]
  have hmagic₁ : s₁.magic = update (update s.magic t .E) (t + ldr) .A := by
    rw [← hs₁, ← lead_magic size (size + r)]
    rfl
  have hs₂ : s₂ = pooladd q s₁ := rfl
  have hsize : s₂.size = s₁.size := by
    rw [hs₂, pooladd_eq]
    rfl
  have htail : s₂.tail = s₁.tail := by
    rw [hs₂, pooladd_eq]
    rfl
  have hmagic : s₂.magic = update s₁.magic q .F := by
    rw [hs₂, pooladd_eq]
    rfl
  have hcur : s₂.cursize = s.cursize := by
    rw [hs₂, pooladd_eq, ← hs₁]
    rfl
  have hframe : Frame s₁ s₂ q (q + 1) := Frame.pooladd .refl le_rfl (Nat.lt_succ_self q)
  have hnb : s₂.nb q = q + r := by
    show q + s₂.size q = _
    rw [hsize, hsize₁, update_self]
  rw [hnb]
  generalize hs' : take (t + ldr) (s₂.setMagic (q + r) .E) = s'
  have hled : Led s s' t (size + r) := by
    have hframe₁ : Frame (lead t size (size + r) s) s₁ q (q + r) := by
      rw [← hs₁]
      exact Frame.setTail (Frame.setSize .refl le_rfl (by omega)) (by rw [hval]; omega) (by rw [hval])
    have hfields : Frame s₂ s' (q + r) (q + r + 1) := by
      rw [← hs']
      exact { Frame.setMagic (v := .E) (Frame.refl (s := s₂)) (le_refl (q + r)) (Nat.lt_succ_self _) with }
    exact ((lead_led.frame hframe₁).frame hframe).frame hfields
  have hlim : s'.limit t = t + ldr + size + r := by rw [hled.limit, add_assoc (t + ldr)]
  obtain ⟨hok, hout⟩ := Arena.ok_of_rest (s := s) s' hz hzd hr hrd
    (by rw [← hmagic₁, ← hmagic, ← hs']; rfl) (by rw [← hsize₁, ← hsize, ← hs']; rfl)
    (by rw [← htail₁, ← htail, ← hs']; rfl) hlim
  have hend : t + (size + r) + ldr + ldr = t + ldr + size + r + ldr := by omega
  have hlay : Layout s' (⟨t, [⟨t + ldr, size, false⟩, ⟨t + ldr + size, r, true⟩]⟩ :: as) := by
    exact h.layout.cons hf (hend ▸ hout) hled hroom hbound hok
  have hnq : q ∉ (frees (blocks as)).map Block.addr := hf.not_free h.layout (by omega) (by omega)
  have hfrees₁ : Frees s₁ ((frees (blocks as)).map Block.addr) := hs₁ ▸ (hfrees.setSize hnq).setTail
  have hlen : ((frees (blocks as)).map Block.addr).length ≤ s₁.fuel := by
    rw [← hs₁]
    exact h.length_frees
  refine ⟨_, ⟨hlay, ?_, ?_⟩, List.Perm.refl _, ?_⟩
  · exact (hfrees₁.pooladd hnq hlen).congr (by rw [← hs']; rfl) (by rw [← hs']; rfl) fun x _ => by rw [← hs']; rfl
  · have hsz : s₂.size (t + ldr) = size := by
      rw [hsize, hsize₁, update_of_ne (by omega), update_self]
    have hcur' : s'.cursize = s₂.cursize + s₂.size (t + ldr) := by
      rw [← hs']
      rfl
    rw [hcur', hcur, hsz, h.cursize, add_comm]
    rfl
  · exact hled.move

theorem newArena_full (h : Heap s as) (hf : Fresh s as t (t + size + ldr + ldr))
    (hroom : ((bases as).map fun x => s.csize x + ldr).sum + (size + ldr + ldr) ≤ s.arenasize)
    (hbound : s.arenasize ≤ s.maxsize) (hz : 0 < size) (hzd : ldr ∣ size)
    (hfrees : Frees (lead t size size s) ((frees (blocks as)).map Block.addr)) :
    ∃ as', Heap (take (t + ldr) ((lead t size size s).setMagic (t + ldr + size) .E)) as' ∧
      (lives (blocks as')).Perm (⟨t + ldr, size, false⟩ :: lives (blocks as)) := by
  have hldr : 0 < ldr := by decide
  generalize hs' : take (t + ldr) ((lead t size size s).setMagic (t + ldr + size) .E) = s'
  have hled : Led s s' t size := by
    have hframe : Frame (lead t size size s) s' (t + ldr + size) (t + ldr + size + 1) := by
      rw [← hs']
      exact { Frame.setMagic (v := .E) (Frame.refl (s := lead t size size s)) (le_refl (t + ldr + size))
        (Nat.lt_succ_self _) with }
    exact lead_led.frame hframe
  obtain ⟨hok, hout⟩ := Arena.ok_of_full (s := s) s' hz hzd (by rw [← lead_magic size size, ← hs']; rfl)
    (by rw [← lead_size size, ← hs']; rfl) (by rw [← lead_tail size, ← hs']; rfl) hled.limit
  have hend : t + size + ldr + ldr = t + ldr + size + ldr := by omega
  have hlay : Layout s' (⟨t, [⟨t + ldr, size, false⟩]⟩ :: as) := by
    exact h.layout.cons hf (hend ▸ hout) hled hroom hbound hok
  refine ⟨_, ⟨hlay, ?_, ?_⟩, List.Perm.refl _⟩
  · exact hfrees.congr (by rw [← hs']; rfl) (by rw [← hs']; rfl) fun x _ => by rw [← hs']; rfl
  have hsz : (lead t size size s).size (t + ldr) = size := by rw [lead_size _, update_self]
  have hcur : s'.cursize = s.cursize + (lead t size size s).size (t + ldr) := by
    rw [← hs']
    rfl
  rw [hcur, hsz, h.cursize, add_comm]
  rfl

theorem newArena_spec (h : Heap s as) (hf : Fresh s as t (t + ns + ldr + ldr))
    (hroom : ((bases as).map fun x => s.csize x + ldr).sum + (ns + ldr + ldr) ≤ s.arenasize)
    (hbound : s.arenasize ≤ s.maxsize) (hz : 0 < size) (hzd : ldr ∣ size) (hnd : ldr ∣ ns) (hle : size ≤ ns) :
    ∃ as', Heap (newArena t size ns s).2 as' ∧ (newArena t size ns s).1 = t + ldr ∧
      (lives (blocks as')).Perm (⟨t + ldr, size, false⟩ :: lives (blocks as)) ∧
      (newArena t size ns s).2.move = s.move := by
  have hldr : 0 < ldr := by decide
  have hfree : ∀ x, t ≤ x → x < t + ns + ldr + ldr → x ∉ (frees (blocks as)).map Block.addr :=
    fun x hlo hhi => hf.not_free h.layout hlo hhi
  have hfrees : Frees (lead t size ns s) ((frees (blocks as)).map Block.addr) := by
    refine h.free.congr rfl rfl fun x hx => ?_
    have hxt : x ≠ t := by
      rintro rfl
      exact hfree x le_rfl (by omega) hx
    have hxb : x ≠ t + ldr := by
      rintro rfl
      exact hfree _ (by omega) (by omega) hx
    rw [lead_size _, update_of_ne hxb, update_of_ne hxt]
  unfold newArena
  dsimp only
  rw [lead_nb]
  by_cases hrest : 0 < ns - size
  · rw [if_pos hrest, lead_nb_block]
    obtain ⟨r, rfl⟩ := Nat.exists_eq_add_of_le hle
    rw [Nat.add_sub_cancel_left] at hrest ⊢
    obtain ⟨as', hheap, hl, hmove⟩ := newArena_rest h hf hroom hbound hz hzd hrest
      ((Nat.dvd_add_right hzd).1 hnd) hfrees
    exact ⟨as', hheap, rfl, hl, hmove⟩
  rw [if_neg hrest]
  dsimp only
  rw [lead_nb_block]
  obtain rfl : size = ns := by omega
  obtain ⟨as', hheap, hl⟩ := newArena_full h hf hroom hbound hz hzd hfrees
  exact ⟨as', hheap, rfl, hl, rfl⟩

theorem merge_spec {c alloc : Nat} {bs : List Block} (h : Heap s (⟨c, bs⟩ :: as))
    (hf : Fresh s (⟨c, bs⟩ :: as) (s.limit c + ldr) (s.limit c + ldr + alloc))
    (hroom : ((bases (⟨c, bs⟩ :: as)).map fun x => s.csize x + ldr).sum + alloc ≤ s.arenasize)
    (hbound : s.arenasize ≤ s.maxsize) (ha : 0 < alloc) (had : ldr ∣ alloc) :
    ∃ as', Heap (merge c alloc s).2 as' ∧ (merge c alloc s).1 = s.limit c ∧
      (lives (blocks as')).Perm (⟨s.limit c, alloc, false⟩ :: lives (blocks (⟨c, bs⟩ :: as))) ∧
      (merge c alloc s).2.move = s.move := by
  have hldr : 0 < ldr := by decide
  set q := s.limit c with hq
  have hcq : c ≤ q := Nat.le_add_right _ _
  have hval : (s.setSize q alloc).size q = alloc := update_self ..
  generalize hs' : (merge c alloc s).2 = s'
  have hmagic : s'.magic = update (update s.magic q .A) (q + alloc) .E := by
    rw [← hs']
    show update (update s.magic q .A) (q + (s.setSize q alloc).size q) .E = _
    rw [hval]
  have hsize : s'.size = update s.size q alloc := by
    rw [← hs']
    rfl
  have htail : s'.tail = update s.tail (q + alloc) q := by
    rw [← hs']
    show update s.tail (q + (s.setSize q alloc).size q) q = _
    rw [hval]
  have hcsize : s'.csize = update s.csize c (s.csize c + alloc) := by
    rw [← hs']
    rfl
  have hlim : s'.limit c = q + alloc := by
    show c + s'.csize c = c + s.csize c + alloc
    rw [hcsize, update_self, add_assoc]
  have hout : Outside s s' q (q + alloc + 1) := by
    refine ⟨fun x hx => ?_, fun x hx => ?_, fun x hx => ?_⟩
    · rw [hmagic, update_of_ne (by omega), update_of_ne (by omega)]
    · rw [hsize, update_of_ne (by omega)]
    · rw [htail, update_of_ne (by omega)]
  have hok := h.layout.arena ⟨c, bs⟩ (by simp)
  have hseg : Seg s (c + ldr) bs q := hok.seg
  have hlecq := hseg.le
  have hapart := pairwise_cons.1 h.layout.apart
  have hother : ∀ y ∈ bases as, y ≠ c ∧ (s.limit y + ldr ≤ c ∨ q + ldr + alloc ≤ y) := by
    intro y hy
    have hap : s.limit c + ldr ≤ y ∨ s.limit y + ldr ≤ c := hapart.1 y hy
    have hfr := hf.apart y (mem_cons_of_mem _ hy)
    have hly : y ≤ s.limit y := Nat.le_add_right _ _
    refine ⟨?_, by omega⟩
    rintro rfl
    omega
  have hcs : ∀ y ∈ bases as, s'.csize y = s.csize y := fun y hy => by rw [hcsize, update_of_ne (hother y hy).1]
  have hlims : ∀ y ∈ bases as, s'.limit y = s.limit y := fun y hy => congrArg (y + ·) (hcs y hy)
  have hcl : s'.clink = s.clink := by
    rw [← hs']
    rfl
  have hlay : Layout s' (⟨c, bs ++ [⟨q, alloc, false⟩]⟩ :: as) := by
    refine ⟨?_, fun a ham => ?_, ?_, fun y hy z hyz hzy => ?_, ?_, ?_, ?_⟩
    · rw [hcl, ← hs']
      exact h.layout.chain
    · rcases mem_cons.1 ham with rfl | ham
      · have hend : s'.magic (q + alloc) = .E := by rw [hmagic, update_self]
        refine ⟨?_, ?_, ?_, ?_, ?_, ?_⟩
        · exact (hout.magic c (.inl (by omega))).trans hok.leader
        · exact (hout.size c (.inl (by omega))).trans hok.size
        · exact (hout.tail _ (.inl (by exact hlecq))).trans hok.tail
        · refine Seg.append_iff.2 ⟨q, hseg.frame hout (.inl le_rfl), rfl, ⟨?_, ?_, ha, had⟩, ?_, hlim.symm⟩
          · rw [hsize, update_self]
          · rw [htail, update_self]
          · rw [hmagic, update_of_ne (by omega), update_self]
            rfl
        · rw [← hlim] at hend
          exact hend
        · exact isChain_append.2 ⟨hok.joined, isChain_singleton _, fun d _ e he hboth => by
            cases he
            exact Bool.false_ne_true hboth.2⟩
      · have hmem : a.base ∈ bases as := mem_map_of_mem ham
        have hap := (hother a.base hmem).2
        have hle : a.base ≤ s.limit a.base := Nat.le_add_right _ _
        exact (h.layout.arena a (mem_cons_of_mem _ ham)).frame hout (hcs a.base hmem) (by omega)
    · refine pairwise_cons.2 ⟨fun y hy => ?_, ?_⟩
      · show s'.limit c + ldr ≤ y ∨ s'.limit y + ldr ≤ c
        have hap := (hother y hy).2
        rw [hlim, hlims y hy]
        omega
      · refine hapart.2.imp_of_mem fun {y z} hy hz hap => ?_
        unfold Apart
        rw [hlims y hy, hlims z hz]
        exact hap
    · have hgot : s'.got = s.got := by
        rw [← hs']
        rfl
      rw [hgot]
      rcases mem_cons.1 hy with rfl | hy
      · by_cases hzq : z < q + ldr
        · exact h.layout.cover y (mem_cons_self ..) z hyz hzq
        · obtain ⟨g, hg, hlo, hhi⟩ := hf.got
          have hz' : z < q + alloc + ldr := hlim ▸ hzy
          exact ⟨g, hg, by omega, by omega⟩
      · rw [hlims y hy] at hzy
        exact h.layout.cover y (mem_cons_of_mem _ hy) z hyz hzy
    · have hsum : (bases as).map (fun x => s'.csize x + ldr) = (bases as).map fun x => s.csize x + ldr :=
        map_congr_left fun y hy => by rw [hcs y hy]
      have hcons : bases (⟨c, bs ++ [⟨q, alloc, false⟩]⟩ :: as) = c :: bases as := rfl
      have hcons' : bases (⟨c, bs⟩ :: as) = c :: bases as := rfl
      have har : s'.arenasize = s.arenasize := by
        rw [← hs']
        rfl
      rw [hcons'] at hroom
      rw [hcons, map_cons, sum_cons, hsum, hcsize, update_self, har]
      rw [map_cons, sum_cons] at hroom
      omega
    · rw [← hs']
      exact hbound
    · rw [← hs']
      exact h.layout.chunk
  have hl : (lives (blocks (⟨c, bs ++ [⟨q, alloc, false⟩]⟩ :: as))).Perm
      (⟨q, alloc, false⟩ :: lives (blocks (⟨c, bs⟩ :: as))) := by
    have hone : lives [⟨q, alloc, false⟩] = [⟨q, alloc, false⟩] := by simp [lives]
    simp only [blocks_cons, lives_append, hone, append_assoc]
    exact perm_middle
  refine ⟨_, ⟨hlay, ?_, ?_⟩, rfl, hl, ?_⟩
  · have hfr : frees (blocks (⟨c, bs ++ [⟨q, alloc, false⟩]⟩ :: as)) = frees (blocks (⟨c, bs⟩ :: as)) := by
      have hone : frees [⟨q, alloc, false⟩] = [] := by simp [frees]
      simp only [blocks_cons, frees_append, hone, append_nil]
    rw [hfr]
    refine h.free.congr (by rw [← hs']; rfl) (by rw [← hs']; rfl) fun x hx => ?_
    have hxq : x ≠ q := by
      rintro rfl
      obtain ⟨b, hb, hbq⟩ := mem_map.1 hx
      obtain ⟨a, ham, hba⟩ := mem_flatMap.1 (mem_frees.1 hb).1
      have hbounds := (h.layout.arena a ham).seg.bounds hba
      have hlo : a.lo = a.base + ldr := rfl
      unfold Block.fin at hbounds
      rcases mem_cons.1 ham with rfl | ham
      · have hlq : b.addr + b.size ≤ q := hbounds.2.1
        omega
      · have hap := (hother a.base (mem_map_of_mem ham)).2
        omega
    rw [hsize, update_of_ne hxq]
  · have hcur : s'.cursize = s.cursize + alloc := by
      rw [← hs']
      rfl
    rw [hcur, h.cursize, (hl.map Block.size).sum_eq, map_cons, sum_cons, add_comm]
  · rw [← hs']
    rfl

/-- `sbrk` gives aligned memory that it has not given before. -/
def Sbrk (s : St) (sbrk : Nat → Nat → Option Nat) : Prop :=
  ∀ k n t, sbrk k n = some t → 8 ∣ t ∧ ∀ g ∈ s.got, g.1 + g.2 ≤ t ∨ t + n ≤ g.1

/-- The heap after an allocation of `asize` bytes, with the block that comes back. -/
def Allocated (s' : St) (as : List Arena) (asize : Nat) (r : Option Nat) : Prop :=
  ∃ as', Heap s' as' ∧ s'.move = false ∧
    r.elim ((lives (blocks as')).Perm (lives (blocks as))) fun t =>
      ∃ b, b.addr = t ∧ b.free = false ∧ asize + BHDRSIZE ≤ b.size ∧ (lives (blocks as')).Perm (b :: lives (blocks as))

variable {sbrk : Nat → Nat → Option Nat} {restricted : Bool} {n asize : Nat} {r : Option Nat}

theorem ldr_dvd_quantize : ldr ∣ quantize n := Nat.dvd_mul_left ..

theorem quantize_le : quantize n ≤ n := Nat.div_mul_le_self ..

theorem le_quantize : asize + BHDRSIZE ≤ quantize (asize + BHDRSIZE + MQUANTA) := by
  unfold quantize MQUANTA BHDRSIZE ldr MQUANTA
  omega

theorem quantize_pos : 0 < quantize (asize + BHDRSIZE + MQUANTA) := by
  refine lt_of_lt_of_le ?_ le_quantize
  unfold BHDRSIZE
  omega

theorem align_eq (h : 8 ∣ t) : align t = t := by
  obtain ⟨k, rfl⟩ := h
  unfold align
  omega

theorem Heap.more (h : Heap s as) (htree : s'.tree = s.tree) (hring : s'.ring = s.ring) (hmagic : s'.magic = s.magic)
    (hsize : s'.size = s.size) (htail : s'.tail = s.tail) (hcs : s'.csize = s.csize) (hcl : s'.clink = s.clink)
    (hch : s'.chain = s.chain) (hcur : s'.cursize = s.cursize) (hgot : ∀ g ∈ s.got, g ∈ s'.got)
    (har : s.arenasize ≤ s'.arenasize) (hmax : s'.arenasize ≤ s'.maxsize) (hchunk : s'.chunk = s.chunk) :
    Heap s' as := by
  have hlim : s'.limit = s.limit := by
    funext x
    exact congrArg (x + ·) (congrFun hcs x)
  have hout : Outside s s' 0 0 := ⟨fun _ _ => by rw [hmagic], fun _ _ => by rw [hsize], fun _ _ => by rw [htail]⟩
  refine ⟨⟨?_, fun a ha => ?_, ?_, fun x hx y hxy hyx => ?_, ?_, hmax, ?_⟩, ?_, ?_⟩
  · rw [hcl, hch]
    exact h.layout.chain
  · exact (h.layout.arena a ha).frame hout (congrFun hcs a.base) (.inr zero_le)
  · unfold Apart
    rw [hlim]
    exact h.layout.apart
  · rw [hlim] at hyx
    obtain ⟨g, hg, hb⟩ := h.layout.cover x hx y hxy hyx
    exact ⟨g, hgot g hg, hb⟩
  · rw [hcs]
    exact h.layout.bytes.trans har
  · rw [hchunk]
    exact h.layout.chunk
  · exact h.free.congr htree hring fun x _ => by rw [hsize]
  · rw [hcur]
    exact h.cursize

theorem fromTree_move (hr : fromTree size s = some (t, s')) : s'.move = s.move := by
  unfold fromTree at hr
  split at hr
  · cases hr
  split at hr
  · cases hr
    rw [pooldel_eq]
    rfl
  dsimp only at hr
  split at hr
  · cases hr
    rw [pooldel_eq]
    rfl
  · cases hr
    rw [pooladd_eq, pooldel_eq]
    rfl

theorem Heap.fromTree_none (h : Heap s as) (hr : Pool.fromTree size s = none) : ∀ b ∈ frees (blocks as),
    b.size < size := by
  obtain ⟨-, hnone⟩ := h.free.search size h.length_frees
  intro b hb
  unfold Pool.fromTree at hr
  split at hr
  case h_1 hs =>
    have hlt := hnone hs b.addr (mem_map_of_mem hb)
    rwa [(h.layout.sized (mem_frees.1 hb).1).1.size] at hlt
  case h_2 =>
    split at hr
    · cases hr
    · dsimp only at hr
      split at hr <;> cases hr

variable (sbrk restricted n) in
theorem dopoolalloc_of_free (h : Heap s as) (hm : s.move = false) (ha : ¬ 2 ^ 30 ≤ asize)
    (hb : ∃ b ∈ frees (blocks as), quantize (asize + BHDRSIZE + MQUANTA) ≤ b.size) :
    ∃ r s', dopoolalloc sbrk restricted (n + 1) asize s = some (r, s') ∧ Allocated s' as asize r := by
  have hcount : Heap { s with nalloc := s.nalloc + 1 } as :=
    h.more rfl rfl rfl rfl rfl rfl rfl rfl rfl (fun _ hg => hg) le_rfl h.layout.bound rfl
  have hz : asize + BHDRSIZE ≤ quantize (asize + BHDRSIZE + MQUANTA) := le_quantize
  have hpos : 0 < quantize (asize + BHDRSIZE + MQUANTA) := quantize_pos
  unfold dopoolalloc
  rw [if_neg ha]
  dsimp only
  cases hr : fromTree (quantize (asize + BHDRSIZE + MQUANTA)) { s with nalloc := s.nalloc + 1 } with
  | none =>
    obtain ⟨b, hb, hle⟩ := hb
    have hlt := hcount.fromTree_none hr b hb
    omega
  | some p =>
    obtain ⟨t, s'⟩ := p
    obtain ⟨as', b, hheap, hbt, hbf, hle, hperm⟩ := hcount.fromTree hpos ldr_dvd_quantize hr
    exact ⟨some t, s', rfl, as', hheap, (fromTree_move hr).trans hm, b, hbt, hbf, hz.trans hle, hperm⟩

variable (sbrk) in
/-- What `grow` comes to: nothing, a new arena with the block, or a live block at the end of an arena. -/
theorem grow_spec (h : Heap s as) (hs : Sbrk s sbrk) (hz : 0 < size) (hzd : ldr ∣ size) (hnd : ldr ∣ ns)
    (hle : size ≤ ns)
    (hroom : s.arenasize + (ns + ldr + ldr) ≤ s.maxsize) :
    ∃ as', Heap (grow sbrk size ns s).2 as' ∧ (grow sbrk size ns s).2.move = s.move ∧
      (((grow sbrk size ns s).1 = .failed ∧ as' = as) ∨
        (∃ t, (grow sbrk size ns s).1 = .arena t ∧ (lives (blocks as')).Perm (⟨t, size, false⟩ :: lives (blocks as))) ∨
        ∃ q, (grow sbrk size ns s).1 = .merged q ∧
          (lives (blocks as')).Perm (⟨q, ns + ldr + ldr, false⟩ :: lives (blocks as))) := by
  have hldr : 0 < ldr := by decide
  unfold grow
  dsimp only
  cases hcall : sbrk (s.nbrk + 1) (ns + ldr + ldr) with
  | none =>
    refine ⟨as, ?_, rfl, .inl ⟨rfl, rfl⟩⟩
    exact h.more rfl rfl rfl rfl rfl rfl rfl rfl rfl (fun _ hg => hg) (Nat.le_add_right ..) hroom rfl
  | some t =>
    obtain ⟨ht, hgot⟩ := hs _ _ _ hcall
    dsimp only
    rw [align_eq ht]
    generalize hs₁ : ({ s with
      arenasize := s.arenasize + (ns + ldr + ldr), nbrk := s.nbrk + 1, got := (t, ns + ldr + ldr) :: s.got } : St) = s₁
    have h₁ : Heap s₁ as := by
      rw [← hs₁]
      exact h.more rfl rfl rfl rfl rfl rfl rfl rfl rfl (fun _ hg => mem_cons_of_mem _ hg)
        (Nat.le_add_right ..) hroom rfl
    have hmove₁ : s₁.move = s.move := by rw [← hs₁]
    have hlim₁ : s₁.limit = s.limit := by rw [← hs₁]; rfl
    have hcs₁ : s₁.csize = s.csize := by rw [← hs₁]
    have hbytes : ((bases as).map fun x => s₁.csize x + ldr).sum + (ns + ldr + ldr) ≤ s₁.arenasize := by
      rw [hcs₁, ← hs₁]
      exact Nat.add_le_add_right h.layout.bytes _
    have hbound : s₁.arenasize ≤ s₁.maxsize := by
      rw [← hs₁]
      exact hroom
    -- the memory is in no arena, as the arenas are in what came before
    have hfresh : Fresh s₁ as t (t + (ns + ldr + ldr)) := by
      refine ⟨fun y hy => ?_, (t, ns + ldr + ldr), by simp [← hs₁], le_rfl, le_rfl⟩
      rw [hlim₁]
      by_contra hnot
      have hyl : y ≤ s.limit y := Nat.le_add_right _ _
      obtain ⟨g, hg, hlo, hhi⟩ := h.layout.cover y hy (max y t) (le_max_left _ _) (by omega)
      have hap := hgot g hg
      omega
    have hnew : ∃ as', Heap (newArena t size ns s₁).2 as' ∧ (newArena t size ns s₁).2.move = s.move ∧
        (lives (blocks as')).Perm (⟨(newArena t size ns s₁).1, size, false⟩ :: lives (blocks as)) := by
      have hsum : t + (ns + ldr + ldr) = t + ns + ldr + ldr := by omega
      obtain ⟨as', hheap, hb, hperm, hmove⟩ := newArena_spec h₁ (hsum ▸ hfresh) hbytes hbound hz hzd hnd hle
      exact ⟨as', hheap, hmove.trans hmove₁, hb ▸ hperm⟩
    have hchain₁ : s₁.chain = s.chain := by rw [← hs₁]
    cases hch : s.chain with
    | none =>
      obtain ⟨as', hheap, hmove, hperm⟩ := hnew
      exact ⟨as', hheap, hmove, .inr (.inl ⟨_, rfl, hperm⟩)⟩
    | some c =>
      dsimp only
      by_cases hmerge : t = s₁.limit c + ldr
      · rw [if_pos hmerge]
        subst hmerge
        have hchain := h₁.layout.chain
        rw [hchain₁, hch] at hchain
        cases as with
        | nil => cases hchain
        | cons a as =>
          obtain ⟨c', bs⟩ := a
          obtain rfl : c = c' := Option.some.inj hchain.1
          have had : ldr ∣ ns + ldr + ldr := by
            rw [add_assoc]
            exact (Nat.dvd_add_right hnd).2 ⟨2, by omega⟩
          obtain ⟨as', hheap, hq, hperm, hmove⟩ := merge_spec h₁ hfresh hbytes hbound (by omega) had
          exact ⟨as', hheap, hmove.trans hmove₁, .inr (.inr ⟨_, rfl, hq ▸ hperm⟩)⟩
      · rw [if_neg hmerge]
        obtain ⟨as', hheap, hmove, hperm⟩ := hnew
        exact ⟨as', hheap, hmove, .inr (.inl ⟨_, rfl, hperm⟩)⟩

theorem poolcompact_of_not_move (h : s.move = false) : poolcompact s = (false, s) := if_pos (.inl h)

variable (restricted asize) in
theorem dopoolalloc_round (h : Heap s as) (hm : s.move = false) (hs : Sbrk s sbrk) :
    (∃ r s', (∀ n, dopoolalloc sbrk restricted (n + 1) asize s = some (r, s')) ∧ Allocated s' as asize r) ∨
      ∃ s₂ as₂, (∀ n, dopoolalloc sbrk restricted (n + 1) asize s = dopoolalloc sbrk restricted n asize s₂) ∧
        Heap s₂ as₂ ∧ s₂.move = false ∧ ¬ 2 ^ 30 ≤ asize ∧ (lives (blocks as₂)).Perm (lives (blocks as)) ∧
        ∃ b ∈ frees (blocks as₂), quantize (asize + BHDRSIZE + MQUANTA) ≤ b.size := by
  by_cases ha : 2 ^ 30 ≤ asize
  · exact .inl ⟨none, s, fun n => if_pos ha, as, h, hm, List.Perm.refl _⟩
  have hz : asize + BHDRSIZE ≤ quantize (asize + BHDRSIZE + MQUANTA) := le_quantize
  have hpos : 0 < quantize (asize + BHDRSIZE + MQUANTA) := quantize_pos
  have hzd : ldr ∣ quantize (asize + BHDRSIZE + MQUANTA) := ldr_dvd_quantize
  simp only [dopoolalloc, if_neg ha]
  generalize quantize (asize + BHDRSIZE + MQUANTA) = size at *
  generalize hs₀ : ({ s with nalloc := s.nalloc + 1 } : St) = s₀
  have h₀ : Heap s₀ as := by
    rw [← hs₀]
    exact h.more rfl rfl rfl rfl rfl rfl rfl rfl rfl (fun _ hg => hg) le_rfl h.layout.bound rfl
  have hm₀ : s₀.move = false := by
    rw [← hs₀]
    exact hm
  have hsb₀ : Sbrk s₀ sbrk := by
    rw [← hs₀]
    exact hs
  cases hr : fromTree size s₀ with
  | some p =>
    obtain ⟨t, s'⟩ := p
    obtain ⟨as', b, hheap, hbt, hbf, hle, hperm⟩ := h₀.fromTree hpos hzd hr
    exact .inl ⟨some t, s', fun _ => rfl, as', hheap, (fromTree_move hr).trans hm₀, b, hbt, hbf, hz.trans hle, hperm⟩
  | none =>
    dsimp only
    by_cases hfull : s.maxsize < s.arenasize + (max s.chunk size + ldr + ldr) ∧ room s₀ < size
    · simp only [if_pos hfull, poolcompact_of_not_move hm₀]
      exact .inl ⟨none, s₀, fun _ => rfl, as, h₀, hm₀, List.Perm.refl _⟩
    simp only [if_neg hfull]
    -- the size of the arena, one way or the other
    generalize hns : (if s.maxsize < s.arenasize + (max s.chunk size + ldr + ldr) then room s₀
      else max s.chunk size) = ns
    obtain ⟨hnd, hle, hroom⟩ : ldr ∣ ns ∧ size ≤ ns ∧ s.arenasize + (ns + ldr + ldr) ≤ s.maxsize := by
      have hroom : room s₀ ≤ s.maxsize - s.arenasize - ldr - ldr := by
        rw [← hs₀]
        exact quantize_le
      rw [← hns]
      split
      · exact ⟨ldr_dvd_quantize, by omega, by omega⟩
      refine ⟨?_, le_max_right _ _, by omega⟩
      rcases max_choice s.chunk size with hmax | hmax
      · rw [hmax]
        exact h.layout.chunk
      · rw [hmax]
        exact hzd
    obtain ⟨as', hheap, hmove, hcase⟩ := grow_spec _ h₀ hsb₀ hpos hzd hnd hle (by rw [← hs₀]; exact hroom)
    generalize grow sbrk size ns s₀ = g at hheap hmove hcase
    obtain ⟨g, s₁⟩ := g
    dsimp only at hheap hmove hcase ⊢
    rcases hcase with ⟨rfl, rfl⟩ | ⟨t, rfl, hperm⟩ | ⟨q, rfl, hperm⟩
    · exact .inl ⟨none, s₁, fun _ => rfl, as', hheap, hmove.trans hm₀, List.Perm.refl _⟩
    · exact .inl ⟨some t, s₁, fun _ => rfl, as', hheap, hmove.trans hm₀, ⟨t, size, false⟩, rfl, rfl, hz, hperm⟩
    have hq : (⟨q, ns + ldr + ldr, false⟩ : Block) ∈ lives (blocks as') := hperm.mem_iff.2 (mem_cons_self ..)
    obtain ⟨as₂, hheap₂, hperm₂, ⟨d, hd, hdz⟩, hmove₂⟩ := hheap.poolfree hq
    have hl : (lives (blocks as₂)).Perm (lives (blocks as)) := (hperm₂.symm.trans hperm).cons_inv
    have hm₂ : (poolfree q s₁).move = false := (hmove₂.trans hmove).trans hm₀
    by_cases hres : (poolfree q s₁).ressize < (poolfree q s₁).cursize ∧ restricted = true
    · exact .inl ⟨none, poolfree q s₁, fun _ => if_pos hres, as₂, hheap₂, hm₂, hl⟩
    · refine .inr ⟨poolfree q s₁, as₂, fun _ => if_neg hres, hheap₂, hm₂, ha, hl, d, hd, ?_⟩
      dsimp only at hdz
      omega

theorem dopoolalloc_spec (h : Heap s as) (hm : s.move = false) (hs : Sbrk s sbrk) :
    (∀ n r s', dopoolalloc sbrk restricted n asize s = some (r, s') → Allocated s' as asize r) ∧
      ∃ r s', dopoolalloc sbrk restricted 2 asize s = some (r, s') := by
  rcases dopoolalloc_round restricted asize h hm hs with
    ⟨r, s', hr, hal⟩ | ⟨s₂, as₂, hr, h₂, hm₂, ha, hl, hb⟩
  · refine ⟨fun n r' s'' hr' => ?_, r, s', hr 1⟩
    cases n with
    | zero => cases hr'
    | succ n =>
      rw [hr n] at hr'
      cases hr'
      exact hal
  refine ⟨fun n r' s'' hr' => ?_, ?_⟩
  · cases n with
    | zero => cases hr'
    | succ n =>
      rw [hr n] at hr'
      cases n with
      | zero => cases hr'
      | succ n =>
        obtain ⟨r, s', hrs, as', hheap, hm', hcase⟩ :=
          dopoolalloc_of_free sbrk restricted n h₂ hm₂ ha hb
        rw [hrs] at hr'
        cases hr'
        refine ⟨as', hheap, hm', ?_⟩
        cases r' with
        | none => exact hcase.trans hl
        | some t =>
          obtain ⟨b, hbt, hbf, hle, hperm⟩ := hcase
          exact ⟨b, hbt, hbf, hle, hperm.trans (hl.cons b)⟩
  · obtain ⟨r, s', hrs, -⟩ := dopoolalloc_of_free sbrk restricted 0 h₂ hm₂ ha hb
    exact ⟨r, s', (hr 1).trans hrs⟩

end Node9.Pool
