import Node9.MntMux

/-!
# Every reply meets its request

`Base` is what holds of the requests and the messages wherever the processes are, and `PcOk` what holds of one
process where it is. `Q` is the queue, `F` the free list, and `C p` the requests of the process `p`: its last
flush first, its caller's request last.

The messages under way (`onWire`) come with the oldest answers first. No message is behind a flush of it in this
order, so that what a flush settles is not under way any more when its answer is at the head.
-/

namespace Node9.MntMux
open Linked Steps Function
open List hiding Chain

/-! ### The requests of one process -/

/-- Each request but the last flushes the one after it. -/
def Stack (rpc : Rpc → Mntrpc) : List Rpc → Prop
  | [] => True
  | [r] => (rpc r).flushed = none ∧ (rpc r).request.oldtag = none ∧ (rpc r).request.covers = []
  | r :: q :: c => (rpc r).flushed = some q ∧ (rpc r).request.oldtag = some (rpc q).request.root ∧
      (rpc r).request.covers = (rpc q).request.ident :: (rpc q).request.covers ∧ Stack rpc (q :: c)

section
variable {rpc rpc' : Rpc → Mntrpc} {c c' : List Rpc} {r q : Rpc} {i : Nat}

theorem Stack.tail (h : Stack rpc (r :: c)) : Stack rpc c := by
  cases c with
  | nil => trivial
  | cons q c => exact h.2.2.2

theorem Stack.suffix (h : Stack rpc (c' ++ c)) : Stack rpc c := by
  induction c' with
  | nil => exact h
  | cons r c' ih => exact ih h.tail

theorem Stack.congr (h : Stack rpc c) (hc : ∀ r ∈ c, (rpc' r).request = (rpc r).request ∧
    (rpc' r).flushed = (rpc r).flushed) :
    Stack rpc' c := by
  induction c with
  | nil => trivial
  | cons r c ih =>
    obtain ⟨hr, hf⟩ := hc r (mem_cons_self ..)
    have ih := ih h.tail fun q hq => hc q (mem_cons_of_mem _ hq)
    cases c with
    | nil =>
      simp only [Stack] at h ⊢
      rwa [hr, hf]
    | cons q c =>
      obtain ⟨hq, -⟩ := hc q (by simp)
      simp only [Stack] at h ⊢
      rw [hr, hf, hq]
      exact ⟨h.1, h.2.1, h.2.2.1, ih⟩

theorem Stack.covers (h : Stack rpc (r :: c)) : (rpc r).request.covers = c.map fun q => (rpc q).request.ident := by
  induction c generalizing r with
  | nil => exact h.2.2
  | cons q c ih =>
    rw [h.2.2.1, ih h.tail]
    rfl

theorem Stack.idents (h : Stack rpc (r :: c)) :
    (rpc r).request.ident :: (rpc r).request.covers = (r :: c).map fun q => (rpc q).request.ident := by
  rw [h.covers]
  rfl

theorem Stack.root (h : Stack rpc (r :: c)) :
    ∀ q ∈ r :: c, (rpc q).request.tag = (rpc r).request.root ∨ (rpc q).request.oldtag = some (rpc r).request.root := by
  induction c generalizing r with
  | nil =>
    intro q hq
    obtain rfl := mem_singleton.1 hq
    left
    simp [Msg.root, h.2.1]
  | cons x c ih =>
    have hroot : (rpc r).request.root = (rpc x).request.root := by
      rw [Msg.root, h.2.1]
      rfl
    intro q hq
    rw [hroot]
    rcases mem_cons.1 hq with rfl | hq
    · exact .inr h.2.1
    · exact ih h.tail q hq

theorem Stack.below (h : Stack rpc c) (hr : r ∈ c) (hi : i ∈ (rpc r).request.covers) :
    ∃ o, (rpc r).request.oldtag = some o ∧
      ∃ q ∈ c.tail, (rpc q).request.ident = i ∧ ((rpc q).request.tag = o ∨ (rpc q).request.oldtag = some o) := by
  obtain ⟨c₁, c₂, rfl⟩ := append_of_mem hr
  have h₂ := h.suffix
  rw [h₂.covers] at hi
  obtain ⟨q, hq, rfl⟩ := mem_map.1 hi
  cases c₂ with
  | nil => cases hq
  | cons x c₂ =>
    refine ⟨_, h₂.2.1, q, ?_, rfl, h₂.tail.root q hq⟩
    cases c₁ with
    | nil => exact hq
    | cons y c₁ => exact mem_append_right _ (mem_cons_of_mem _ hq)

end

/-! ### The messages under way -/

def onWire (s : St) : List Msg := s.held.toList ++ s.s2c ++ s.pending ++ s.c2s

def Unsent (s : St) (i : Nat) : Prop := (∀ t ∈ onWire s, t.ident ≠ i) ∧ ∀ t ∈ s.sent, t.ident ≠ i

def Over (s : St) (i : Nat) : Prop := (∀ t ∈ onWire s, t.ident ≠ i) ∧ ∀ t ∈ s.sent, t.ident = i → Settled s i

/-- No messages are added but `new`. -/
structure Grow (s s' : St) (new : List Msg) : Prop where
  wire : ∀ t ∈ onWire s', t ∈ onWire s ∨ t ∈ new
  sent : ∀ t ∈ s'.sent, t ∈ s.sent ∨ t ∈ new
  received : ∀ t ∈ s.received, t ∈ s'.received
  failed : s'.failed = false → s.failed = false

/-- The reply of `r` is to its request. -/
def Proper (s : St) (r : Rpc) : Prop :=
  ∀ t, (s.a.rpc r).reply = .answer t → t.tag = (s.a.rpc r).request.tag ∧ (s.failed = false → t = (s.a.rpc r).request)

abbrev ident (s : St) (r : Rpc) : Nat := (s.a.rpc r).request.ident

def AllOver (s : St) (c : List Rpc) : Prop := s.failed = false → ∀ r ∈ c, Over s (ident s r)

def PcOk (s : St) (Q c : List Rpc) (p : Pid) : Pc → Prop
  | .idle => c = []
  | .got r => c = [r] ∧ r ∉ Q ∧ (s.a.rpc r).done = false ∧ (s.failed = false → Unsent s (ident s r))
  | .start r => c.head? = some r ∧ r ∉ Q ∧ (s.a.rpc r).done = false ∧ (s.failed = false → Unsent s (ident s r))
  | .write r => c.head? = some r ∧ (s.failed = false → r ∈ Q ∧ Unsent s (ident s r))
  | .gate r | .sleep r | .flush r => c.head? = some r
  | .caught r eintr => c.head? = some r ∧ (eintr = false → s.failed = true)
  | .read r => c.head? = some r ∧ s.rip = some p ∧ s.held = none
  | .mux r => c.head? = some r ∧ s.rip = some p ∧ (s.a.rpc r).done = false ∧ ∃ t, (s.a.rpc r).reply = .answer t ∧
  s.held = some t
  | .flushfree r => c.head? = some r ∧ AllOver s c
  | .qrm r => c.head? = some r ∧ Proper s r ∧ AllOver s c
  | .release r => c.head? = some r ∧ r ∉ Q ∧ AllOver s c
  | .back => c = [s.arg p] ∧ s.arg p ∉ Q ∧ AllOver s c

structure Wire (s : St) (Q : List Rpc) (C : Pid → List Rpc) : Prop where
  alive : ∀ t ∈ onWire s, ∃ r ∈ Q, (s.a.rpc r).request = t
  order : (onWire s).Pairwise fun x y => x.ident ≠ y.ident ∧ y.ident ∉ x.covers
  covers : ∀ p, ∀ r ∈ C p, (s.a.rpc r).done = true → ∀ i ∈ ident s r :: (s.a.rpc r).request.covers, Over s i
  sent : ∀ t ∈ s.sent, t.ident < s.a.fresh ∧ ((∃ p, ∃ r ∈ C p, (s.a.rpc r).request = t) ∨ Settled s t.ident)

structure Base (s : St) (Q F : List Rpc) (C : Pid → List Rpc) : Prop where
  mem : Mem s.a Q F C
  stack : ∀ p, Stack s.a.rpc (C p)
  last : ∀ p, ∀ r ∈ (C p).getLast?, r = s.arg p
  fresh : ∀ p, ∀ r ∈ C p, ident s r < s.a.fresh
  idents : ∀ p p' r r', r ∈ C p → r' ∈ C p' → ident s r = ident s r' → r = r'
  waiting : ∀ r ∈ Q, (s.a.rpc r).done = false
  replies : ∀ r, s.a.allocated r = true → (s.a.rpc r).done = true → Proper s r
  wire : s.failed = false → Wire s Q C

structure Inv (s : St) (Q F : List Rpc) (C : Pid → List Rpc) : Prop where
  base : Base s Q F C
  pcs : ∀ p, PcOk s Q (C p) p (s.pc p)
  held : s.held ≠ none → ∃ p r, s.pc p = .mux r

section
variable {s s' s₁ : St} {Q Q' F F' c : List Rpc} {C C' : Pid → List Rpc} {p p' : Pid} {r q : Rpc} {i : Nat} {x : Pc}
  {new : List Msg}

theorem Settled.mono (h : Settled s i) (hr : ∀ t ∈ s.received, t ∈ s'.received) : Settled s' i := by
  obtain ⟨t, ht, hi⟩ := h
  exact ⟨t, hr t ht, hi⟩

theorem Unsent.covers (h : Unsent s i) : Over s i := ⟨h.1, fun t ht hi => absurd hi (h.2 t ht)⟩

theorem Unsent.grow (h : Unsent s i) (hg : Grow s s' new) (hnew : ∀ t ∈ new, t.ident ≠ i) : Unsent s' i :=
  ⟨fun t ht => (hg.wire t ht).elim (h.1 t) (hnew t), fun t ht => (hg.sent t ht).elim (h.2 t) (hnew t)⟩

theorem Over.grow (h : Over s i) (hg : Grow s s' new) (hnew : ∀ t ∈ new, t.ident ≠ i) : Over s' i := by
  refine ⟨fun t ht => (hg.wire t ht).elim (h.1 t) (hnew t), fun t ht hi => ?_⟩
  rcases hg.sent t ht with ht | ht
  · exact (h.2 t ht hi).mono hg.received
  · exact absurd hi (hnew t ht)

theorem Grow.refl : Grow s s [] := ⟨fun _ => .inl, fun _ => .inl, fun _ => id, id⟩

theorem PcOk.frame (h : PcOk s Q c p x) (hg : Grow s s' new) (hrpc : ∀ r ∈ c, s'.a.rpc r = s.a.rpc r)
    (hQ : ∀ r ∈ c, r ∈ Q' ↔ r ∈ Q) (hrip : s.rip = some p → s'.rip = some p ∧ s'.held = s.held)
    (harg : s'.arg p = s.arg p)
    (hnew : ∀ r ∈ c, ∀ t ∈ new, t.ident ≠ ident s r) : PcOk s' Q' c p x := by
  have hover : AllOver s c → AllOver s' c := by
    intro h hf r hr
    unfold ident
    rw [hrpc r hr]
    exact (h (hg.failed hf) r hr).grow hg (hnew r hr)
  have hhead : ∀ {r}, c.head? = some r → r ∈ c := fun h => mem_of_head? h
  cases x with
  | idle => exact h
  | got r =>
    obtain ⟨rfl, hrQ, hd, hu⟩ := h
    have hmem := mem_singleton_self r
    refine ⟨rfl, fun h => hrQ ((hQ r hmem).1 h), by rw [hrpc r hmem]; exact hd, fun hf => ?_⟩
    unfold ident
    rw [hrpc r hmem]
    exact (hu (hg.failed hf)).grow hg (hnew r hmem)
  | start r =>
    obtain ⟨hr, hrQ, hd, hu⟩ := h
    have hmem := hhead hr
    refine ⟨hr, fun h => hrQ ((hQ r hmem).1 h), by rw [hrpc r hmem]; exact hd, fun hf => ?_⟩
    unfold ident
    rw [hrpc r hmem]
    exact (hu (hg.failed hf)).grow hg (hnew r hmem)
  | write r =>
    obtain ⟨hr, hu⟩ := h
    have hmem := hhead hr
    refine ⟨hr, fun hf => ⟨(hQ r hmem).2 (hu (hg.failed hf)).1, ?_⟩⟩
    unfold ident
    rw [hrpc r hmem]
    exact (hu (hg.failed hf)).2.grow hg (hnew r hmem)
  | gate r | sleep r | flush r => exact h
  | caught r _ =>
    refine ⟨h.1, fun he => ?_⟩
    by_contra hf
    exact absurd ((hg.failed (by simpa using hf)).symm.trans (h.2 he)) nofun
  | read r =>
    obtain ⟨hr, hp, hh⟩ := h
    exact ⟨hr, (hrip hp).1, (hrip hp).2.trans hh⟩
  | mux r =>
    obtain ⟨hr, hp, hd, t, ht, hh⟩ := h
    have hmem := hhead hr
    exact ⟨hr, (hrip hp).1, by rw [hrpc r hmem]; exact hd, t, by rw [hrpc r hmem]; exact ht, (hrip hp).2.trans hh⟩
  | flushfree r => exact ⟨h.1, hover h.2⟩
  | qrm r =>
    obtain ⟨hr, hprop, hall⟩ := h
    refine ⟨hr, fun t ht => ?_, hover hall⟩
    rw [hrpc r (hhead hr)] at ht ⊢
    exact ⟨(hprop t ht).1, fun hf => (hprop t ht).2 (hg.failed hf)⟩
  | release r =>
    obtain ⟨hr, hrQ, hall⟩ := h
    exact ⟨hr, fun h => hrQ ((hQ r (hhead hr)).1 h), hover hall⟩
  | back =>
    obtain ⟨hc, hrQ, hall⟩ := h
    refine ⟨by rw [harg]; exact hc, ?_, hover hall⟩
    rw [harg]
    exact fun h => hrQ ((hQ _ (by rw [hc]; exact mem_singleton_self _)).1 h)

theorem pcOk_goto {y : Pc} {p₁ : Pid} : PcOk (s.goto p y) Q c p₁ x ↔ PcOk s Q c p₁ x := by
  cases x <;> exact Iff.rfl

theorem Inv.goto (hb : Base s₁ Q F C) (hother : ∀ p' ≠ p, PcOk s₁ Q (C p') p' (s₁.pc p')) (hp : PcOk s₁ Q (C p) p x)
    (hheld : s₁.held ≠ none → (∃ r, x = .mux r) ∨ ∃ p' r, p' ≠ p ∧ s₁.pc p' = .mux r) : Inv (s₁.goto p x) Q F C where
  base := ⟨hb.mem, hb.stack, hb.last, hb.fresh, hb.idents, hb.waiting, hb.replies, fun hf =>
    ⟨(hb.wire hf).alive, (hb.wire hf).order, (hb.wire hf).covers, (hb.wire hf).sent⟩⟩
  pcs := fun p' => by
    by_cases hp' : p' = p
    · subst hp'
      simp only [St.goto, update_self]
      exact pcOk_goto.2 hp
    · simp only [St.goto, update_of_ne hp']
      exact pcOk_goto.2 (hother p' hp')
  held := fun hh => by
    rcases hheld hh with ⟨r, rfl⟩ | ⟨p', r, hne, hr⟩
    · exact ⟨p, r, by simp [St.goto]⟩
    · exact ⟨p', r, by simp [St.goto, hne, hr]⟩

theorem Inv.others (h : Inv s Q F C) (hp : ∀ r, s.pc p ≠ .mux r) (hh : s.held ≠ none) :
    ∃ p' r, p' ≠ p ∧ s.pc p' = .mux r := by
  obtain ⟨p', r, hr⟩ := h.held hh
  exact ⟨p', r, fun h => hp r (h ▸ hr), hr⟩

theorem Base.congr (hb : Base s Q F C) (hmem : Mem s'.a Q F C)
    (hreq : ∀ r, (s'.a.rpc r).request = (s.a.rpc r).request ∧ (s'.a.rpc r).flushed = (s.a.rpc r).flushed)
    (hdone : ∀ r, (s'.a.rpc r).done = true → (s.a.rpc r).done = true ∧ (s'.a.rpc r).reply = (s.a.rpc r).reply)
    (halloc : s'.a.allocated = s.a.allocated) (harg : s'.arg = s.arg) (hfresh : s'.a.fresh = s.a.fresh)
    (hg : Grow s s' [])
    (hord : s'.failed = false → (onWire s').Pairwise fun x y => x.ident ≠ y.ident ∧ y.ident ∉ x.covers) :
    Base s' Q F C where
  mem := hmem
  stack := fun p => (hb.stack p).congr fun r _ => hreq r
  last := fun p r hr => harg ▸ hb.last p r hr
  fresh := fun p r hr => by
    rw [ident, (hreq r).1, hfresh]
    exact hb.fresh p r hr
  idents := fun p p' r r' hr hr' heq => by
    rw [ident, ident, (hreq r).1, (hreq r').1] at heq
    exact hb.idents p p' r r' hr hr' heq
  waiting := fun r hr => by
    cases hd : (s'.a.rpc r).done with
    | false => rfl
    | true =>
      have hd := (hdone r hd).1
      rw [hb.waiting r hr] at hd
      cases hd
  replies := fun r hr hd t ht => by
    obtain ⟨hd, hreply⟩ := hdone r hd
    rw [hreply] at ht
    rw [(hreq r).1]
    exact ⟨(hb.replies r (halloc ▸ hr) hd t ht).1, fun hf => (hb.replies r (halloc ▸ hr) hd t ht).2 (hg.failed hf)⟩
  wire := fun hf => by
    have hw := hb.wire (hg.failed hf)
    refine ⟨fun t ht => ?_, hord hf, fun p r hr hd i hi => ?_, fun t ht => ?_⟩
    · obtain ⟨r, hr, h⟩ := hw.alive t ((hg.wire t ht).resolve_right (not_mem_nil))
      exact ⟨r, hr, by rw [(hreq r).1]; exact h⟩
    · rw [ident, (hreq r).1] at hi
      exact (hw.covers p r hr (hdone r hd).1 i hi).grow hg nofun
    · obtain ⟨hlt, h⟩ := hw.sent t ((hg.sent t ht).resolve_right (not_mem_nil))
      refine ⟨hfresh ▸ hlt, h.imp ?_ fun hs => hs.mono hg.received⟩
      rintro ⟨p, r, hr, heq⟩
      exact ⟨p, r, hr, by rw [(hreq r).1]; exact heq⟩

theorem not_mux (hp : s.pc p = x) (hx : ∀ r, x ≠ .mux r) : ∀ r, s.pc p ≠ .mux r :=
  fun r hr => hx r (hp.symm.trans hr)

theorem Base.ne_other (hb : Base s Q F C) (hr : r ∈ C p) (hp : p' ≠ p) (hq : q ∈ C p') : q ≠ r := by
  rintro rfl
  exact hp (hb.mem.one p' p q hq hr)

/-! ### Steps that change a reply, the reader or the messages -/

theorem setReply_of_ne {y : Reply} (h : q ≠ r) : (s.setReply r y).a.rpc q = s.a.rpc q := update_of_ne h _ _

theorem setReply_self {y : Reply} : (s.setReply r y).a.rpc r = { s.a.rpc r with reply := y } :=
  update_self _ _ _

theorem setReply_same {y : Reply} (q : Rpc) :
    ((s.setReply r y).a.rpc q).request = (s.a.rpc q).request ∧ ((s.setReply r y).a.rpc q).flushed =
    (s.a.rpc q).flushed ∧
      ((s.setReply r y).a.rpc q).done = (s.a.rpc q).done := by
  by_cases h : q = r
  · subst h
    rw [setReply_self]
    exact ⟨rfl, rfl, rfl⟩
  · rw [setReply_of_ne h]
    exact ⟨rfl, rfl, rfl⟩

theorem Base.setReply {y : Reply} (hb : Base s Q F C) (hd : (s.a.rpc r).done = false) (ha : s'.a = (s.setReply r y).a)
    (harg : s'.arg = s.arg) (hg : Grow s s' [])
    (hord : s'.failed = false → (onWire s').Pairwise fun x y => x.ident ≠ y.ident ∧ y.ident ∉ x.covers) :
    Base s' Q F C := by
  refine hb.congr ?_ (fun q => ?_) (fun q hq => ?_) ?_ harg ?_ hg hord
  · rw [ha]
    exact hb.mem.congr rfl rfl rfl fun q => by rw [(setReply_same q).1]
  · rw [ha]
    exact ⟨(setReply_same q).1, (setReply_same q).2.1⟩
  · rw [ha] at hq ⊢
    rw [(setReply_same q).2.2] at hq
    have hne : q ≠ r := by
      rintro rfl
      simp [hd] at hq
    exact ⟨hq, by rw [setReply_of_ne hne]⟩
  · rw [ha]
    rfl
  · rw [ha]
    rfl

theorem rip_other {A : Prop} (h : s.rip = some p) (hp : p' ≠ p) : s.rip = some p' → A := by
  intro h'
  exact absurd (Option.some.inj (h'.symm.trans h)) hp

section
variable (h : Inv s Q F C)
include h

theorem inv_call (hpc : s.pc p = .got r) : Inv ((s.setReply r .none).goto p (.start r)) Q F C := by
  obtain ⟨hC, hrQ, hd, hu⟩ : PcOk s Q (C p) p (.got r) := hpc ▸ h.pcs p
  have hr : (C p).head? = some r := by rw [hC]; rfl
  have hb := h.base
  have hg : Grow s (s.setReply r .none) [] := ⟨fun _ => .inl, fun _ => .inl, fun _ => id, id⟩
  refine Inv.goto (hb.setReply hd rfl rfl hg fun hf => (hb.wire hf).order) (fun p' hp' => ?_) ?_ ?_
  · exact (h.pcs p').frame hg (fun q hq => setReply_of_ne (hb.ne_other (mem_of_head? hr) hp' hq))
      (fun _ _ => Iff.rfl)
      (fun h => ⟨h, rfl⟩) rfl nofun
  · refine ⟨hr, hrQ, by rw [(setReply_same r).2.2, hd], fun hf => ?_⟩
    rw [ident, (setReply_same r).1]
    exact hu hf
  · intro hh
    exact .inr (h.others (not_mux hpc nofun) hh)

theorem inv_flushfree (hpc : s.pc p = .flushfree r) (hd : (s.a.rpc r).done = false) :
    Inv ((s.setReply r .Rflush).goto p (.qrm r)) Q F C := by
  obtain ⟨hr, hall⟩ : PcOk s Q (C p) p (.flushfree r) := hpc ▸ h.pcs p
  have hb := h.base
  have hg : Grow s (s.setReply r .Rflush) [] := ⟨fun _ => .inl, fun _ => .inl, fun _ => id, id⟩
  refine Inv.goto (hb.setReply hd rfl rfl hg fun hf => (hb.wire hf).order) (fun p' hp' => ?_) ?_ ?_
  · exact (h.pcs p').frame hg (fun q hq => setReply_of_ne (hb.ne_other (mem_of_head? hr) hp' hq))
      (fun _ _ => Iff.rfl)
      (fun h => ⟨h, rfl⟩) rfl nofun
  · refine ⟨hr, fun t ht => ?_, fun hf q hq => ?_⟩
    · rw [setReply_self] at ht
      cases ht
    · rw [ident, (setReply_same q).1]
      exact hall hf q hq
  · intro hh
    exact .inr (h.others (not_mux hpc nofun) hh)

theorem inv_caught {b : Bool} (hpc : s.pc p = .read r) (hd : (s.a.rpc r).done = false)
    (ha : s₁.a = (s.setReply r .none).a) (harg : s₁.arg = s.arg) (hrip : s₁.rip = s.rip) (hheld : s₁.held = s.held)
    (hpcs : s₁.pc = s.pc) (hg : Grow s s₁ []) (hw : onWire s₁ = onWire s) (hf : b = false → s₁.failed = true) :
    Inv (s₁.goto p (.caught r b)) Q F C := by
  obtain ⟨hr, hp, hh⟩ : PcOk s Q (C p) p (.read r) := hpc ▸ h.pcs p
  have hb := h.base
  refine Inv.goto (hb.setReply hd ha harg hg fun hf => hw ▸ (hb.wire (hg.failed hf)).order) (fun p' hp' => ?_) ⟨hr,
    hf⟩ ?_
  · rw [hpcs]
    refine (h.pcs p').frame hg (fun q hq => ?_) (fun _ _ => Iff.rfl) (fun h => ⟨hrip ▸ h, hheld⟩) (by rw [harg]) nofun
    rw [ha]
    exact setReply_of_ne (hb.ne_other (mem_of_head? hr) hp' hq)
  · intro h
    exact absurd (hheld.trans hh) h

theorem inv_recv {t : Msg} {s2c : List Msg} (hpc : s.pc p = .read r) (hd : (s.a.rpc r).done = false)
    (hs2c : s.s2c = t :: s2c) : Inv ({ s.setReply r (.answer t) with s2c, held := some t }.goto p (.mux r)) Q F C := by
  obtain ⟨hr, hp, hh⟩ : PcOk s Q (C p) p (.read r) := hpc ▸ h.pcs p
  have hb := h.base
  have hw : onWire { s.setReply r (.answer t) with s2c, held := some t } = onWire s := by
    simp [onWire, hh, hs2c, St.setReply, St.setRpc]
  have hg : Grow s { s.setReply r (.answer t) with s2c, held := some t } [] :=
    ⟨fun _ hx => .inl (hw ▸ hx), fun _ => .inl, fun _ => id, id⟩
  refine Inv.goto (hb.setReply hd rfl rfl hg fun hf => hw ▸ (hb.wire hf).order) (fun p' hp' => ?_) ?_ ?_
  · exact (h.pcs p').frame hg (fun q hq => setReply_of_ne (hb.ne_other (mem_of_head? hr) hp' hq))
      (fun _ _ => Iff.rfl)
      (rip_other hp hp') rfl nofun
  · exact ⟨hr, hp, ((setReply_same r).2.2).trans hd, t, by simp only; rw [setReply_self], rfl⟩
  · exact fun _ => .inl ⟨r, rfl⟩

theorem inv_rip {rip : Option Pid} (hrip : ∀ p' ≠ p, s.rip = some p' → rip = some p')
    (hp : PcOk { s with rip } Q (C p) p x) (hmux : ∀ r, s.pc p ≠ .mux r) : Inv ({ s with rip }.goto p x) Q F C := by
  have hb := h.base
  have hg : Grow s { s with rip } [] := ⟨fun _ => .inl, fun _ => .inl, fun _ => id, id⟩
  refine Inv.goto (hb.congr hb.mem (fun _ => ⟨rfl, rfl⟩) (fun _ hd => ⟨hd, rfl⟩) rfl rfl rfl hg fun hf =>
    (hb.wire hf).order)
    (fun p' hp' => ?_) hp fun hh => .inr (h.others hmux hh)
  exact (h.pcs p').frame hg (fun _ _ => rfl) (fun _ _ => Iff.rfl) (fun h => ⟨hrip p' hp' h, rfl⟩) rfl nofun

theorem inv_goto (hp : PcOk s Q (C p) p x) (hmux : ∀ r, s.pc p ≠ .mux r) : Inv (s.goto p x) Q F C :=
  Inv.goto h.base (fun p' _ => h.pcs p') hp fun hh => .inr (h.others hmux hh)

theorem inv_enqueue (hpc : s.pc p = .start r) :
    Inv ({ s with a := enqueue s.a r }.goto p (.write r)) (r :: Q) F C := by
  obtain ⟨hr, hrQ, hd, hu⟩ : PcOk s Q (C p) p (.start r) := hpc ▸ h.pcs p
  have hb := h.base
  have hrC := mem_of_head? hr
  refine Inv.goto ⟨hb.mem.enqueue hrC hrQ, hb.stack, hb.last, hb.fresh, hb.idents, ?_, hb.replies, fun hf =>
    ⟨?_, (hb.wire hf).order, (hb.wire hf).covers, (hb.wire hf).sent⟩⟩ (fun p' hp' => ?_) ?_ ?_
  · intro q hq
    rcases mem_cons.1 hq with rfl | hq
    · exact hd
    · exact hb.waiting q hq
  · intro t ht
    obtain ⟨q, hq, heq⟩ := (hb.wire hf).alive t ht
    exact ⟨q, mem_cons_of_mem _ hq, heq⟩
  · have hg : Grow s { s with a := enqueue s.a r } [] := ⟨fun _ => .inl, fun _ => .inl, fun _ => id, id⟩
    refine (h.pcs p').frame hg (fun _ _ => rfl) (fun q hq => ?_) (fun h => ⟨h, rfl⟩) rfl nofun
    exact mem_cons.trans (or_iff_right (hb.ne_other hrC hp' hq))
  · exact ⟨hr, fun hf => ⟨mem_cons_self .., hu hf⟩⟩
  · exact fun hh => .inr (h.others (not_mux hpc nofun) hh)

end

theorem Base.head_unsettled (hb : Base s Q F C) (hr : (C p).head? = some r) (hq : q ∈ C p') :
    ident s r ∉ (s.a.rpc q).request.covers := by
  intro hi
  obtain ⟨-, -, y, hy, heq, -⟩ := (hb.stack p').below hq hi
  have hyC : y ∈ C p' := mem_of_mem_tail hy
  obtain rfl : y = r := hb.idents p' p y r hyC (mem_of_head? hr) heq
  obtain rfl := hb.mem.one p' p y hyC (mem_of_head? hr)
  obtain ⟨c, hc⟩ := List.head?_eq_some_iff.1 hr
  have hnd := hb.mem.nodup p'
  rw [hc] at hnd hy
  exact (nodup_cons.1 hnd).1 hy

theorem onWire_send {t : Msg} : onWire (s.send t) = onWire s ++ [t] := by
  simp [onWire, St.send]

theorem Base.send (hb : Base s Q F C) (hr : (C p).head? = some r) (hu : s.failed = false → r ∈ Q ∧
    Unsent s (ident s r)) :
    Base (s.send (s.a.rpc r).request) Q F C := by
  have hrC := mem_of_head? hr
  have hg : Grow s (s.send (s.a.rpc r).request) [(s.a.rpc r).request] := by
    refine ⟨fun t ht => ?_, fun t ht => mem_append.1 ht, fun _ => id, id⟩
    rw [onWire_send] at ht
    exact mem_append.1 ht
  refine ⟨hb.mem, hb.stack, hb.last, hb.fresh, hb.idents, hb.waiting, hb.replies, fun hf => ?_⟩
  obtain ⟨hrQ, hu⟩ := hu hf
  have hw := hb.wire hf
  have hd := hb.waiting r hrQ
  refine ⟨fun t ht => ?_, ?_, fun p' q hq hdq i hi => ?_, fun t ht => ?_⟩
  · rcases hg.wire t ht with ht | ht
    · exact hw.alive t ht
    · exact ⟨r, hrQ, (mem_singleton.1 ht).symm⟩
  · rw [onWire_send]
    refine pairwise_append.2 ⟨hw.order, pairwise_singleton _ _, fun t ht t' ht' => ?_⟩
    obtain rfl := mem_singleton.1 ht'
    obtain ⟨q, hqQ, rfl⟩ := hw.alive t ht
    obtain ⟨p', hq⟩ := hb.mem.queued q hqQ
    exact ⟨hu.1 _ ht, hb.head_unsettled hr hq⟩
  · refine (hw.covers p' q hq hdq i hi).grow hg fun t ht => ?_
    obtain rfl := mem_singleton.1 ht
    intro heq
    rcases mem_cons.1 hi with hi | hi
    · obtain rfl := hb.idents p p' r q hrC hq (heq.trans hi)
      have hdq : (s.a.rpc r).done = true := hdq
      simp [hd] at hdq
    · exact hb.head_unsettled hr hq (by rw [ident, heq]; exact hi)
  · rcases hg.sent t ht with ht | ht
    · exact ⟨(hw.sent t ht).1, (hw.sent t ht).2⟩
    · obtain rfl := mem_singleton.1 ht
      exact ⟨hb.fresh p r hrC, .inl ⟨p, r, hrC, rfl⟩⟩

theorem inv_write (b fail : Bool) (h : Inv s Q F C) (hpc : s.pc p = .write r)
    (hx : ∀ s' : St, (fail = true → s'.failed = true) → (C p).head? = some r → PcOk s' Q (C p) p x) :
    Inv ({ (if b then s.send (s.a.rpc r).request else s) with failed := s.failed || fail }.goto p x) Q F C := by
  obtain ⟨hr, hu⟩ : PcOk s Q (C p) p (.write r) := hpc ▸ h.pcs p
  have hb := h.base
  have hrC := mem_of_head? hr
  have hfail : ∀ {s' : St} {new : List Msg}, Grow s s' new → s'.failed = s.failed →
      Grow s { s' with failed := s.failed || fail } new := by
    intro s' new hg _
    refine ⟨hg.wire, hg.sent, hg.received, fun hf => ?_⟩
    simp only [Bool.or_eq_false_iff] at hf
    exact hf.1
  have hbase : ∀ {s' : St}, Base s' Q F C → s'.failed = s.failed →
    Base { s' with failed := s.failed || fail } Q F C := by
    intro s' hb' hsame
    have hf' : (s.failed || fail) = false → s'.failed = false := by
      rw [hsame]
      simp only [Bool.or_eq_false_iff]
      exact And.left
    refine ⟨hb'.mem, hb'.stack, hb'.last, hb'.fresh, hb'.idents, hb'.waiting, fun q hq hdq t ht => ?_, fun hf => ?_⟩
    · exact ⟨(hb'.replies q hq hdq t ht).1, fun hf => (hb'.replies q hq hdq t ht).2 (hf' hf)⟩
    · have hw := hb'.wire (hf' hf)
      exact ⟨hw.alive, hw.order, hw.covers, hw.sent⟩
  cases b with
  | false =>
    refine Inv.goto (hbase hb rfl) (fun p' _ => ?_)
      (hx _ (fun hfail => by simp [hfail]) hr) fun hh => .inr (h.others (not_mux hpc nofun) hh)
    exact (h.pcs p').frame (hfail Grow.refl rfl) (fun _ _ => rfl) (fun _ _ => Iff.rfl) (fun h => ⟨h, rfl⟩) rfl nofun
  | true =>
    have hg : Grow s (s.send (s.a.rpc r).request) [(s.a.rpc r).request] := by
      refine ⟨fun t ht => ?_, fun t ht => mem_append.1 ht, fun _ => id, id⟩
      rw [onWire_send] at ht
      exact mem_append.1 ht
    refine Inv.goto (hbase (hb.send hr hu) rfl) (fun p' hp' => ?_)
      (hx _ (fun hfail => by simp [hfail]) hr) fun hh => .inr (h.others (not_mux hpc nofun) hh)
    refine (h.pcs p').frame (hfail hg rfl) (fun _ _ => rfl) (fun _ _ => Iff.rfl) (fun h => ⟨h, rfl⟩) rfl
      fun q hq t ht => ?_
    obtain rfl := mem_singleton.1 ht
    exact fun heq => hb.ne_other hrC hp' hq (hb.idents p p' r q hrC hq heq).symm

/-! ### Steps of the server -/

theorem inv_server (h : Inv s Q F C) (ha : s₁.a = s.a) (harg : s₁.arg = s.arg) (hrip : s₁.rip = s.rip)
    (hheld : s₁.held = s.held)
    (hpcs : s₁.pc = s.pc) (hg : Grow s s₁ [])
    (hord : s.failed = false → (onWire s₁).Pairwise fun x y => x.ident ≠ y.ident ∧ y.ident ∉ x.covers) :
    Inv s₁ Q F C := by
  have hb := h.base
  refine ⟨hb.congr (ha ▸ hb.mem) (fun r => by rw [ha]; exact ⟨rfl, rfl⟩) (fun r hd => by rw [ha] at hd ⊢; exact ⟨hd, rfl⟩) (by rw [ha])
    harg (by rw [ha]) hg fun hf => hord (hg.failed hf), fun p => ?_, ?_⟩
  · rw [hpcs]
    exact (h.pcs p).frame hg (fun _ _ =>
      by rw [ha]) (fun _ _ => Iff.rfl) (fun h => ⟨hrip ▸ h, hheld⟩) (by rw [harg]) nofun
  · rw [hheld, hpcs]
    exact h.held

theorem inv_accept {t : Msg} {c2s : List Msg} (h : Inv s Q F C) (hc2s : s.c2s = t :: c2s) :
    Inv { s with c2s, pending := s.pending ++ [t] } Q F C := by
  have hw : onWire { s with c2s, pending := s.pending ++ [t] } = onWire s := by
    simp [onWire, hc2s]
  exact inv_server h rfl rfl rfl rfl rfl ⟨fun _ hx => .inl (hw ▸ hx), fun _ => .inl, fun _ => id, id⟩ fun hf =>
    hw ▸ (h.base.wire hf).order

theorem unflushed_sublist (t : Msg) (ts : List Msg) : (unflushed t ts).Sublist ts := by
  unfold unflushed
  split
  · exact .refl _
  · exact filter_sublist

theorem inv_answer {t : Msg} {k : Nat} (h : Inv s Q F C) (hk : s.pending[k]? = some t) :
    Inv { s with pending := unflushed t (s.pending.take k) ++ s.pending.drop (k + 1), s2c := s.s2c ++ [t] } Q F C := by
  have hlt : k < s.pending.length := (List.getElem?_eq_some_iff.1 hk).1
  have hget : s.pending[k] = t := (List.getElem?_eq_some_iff.1 hk).2
  have hpend : s.pending = s.pending.take k ++ t :: s.pending.drop (k + 1) := by
    rw [← hget, cons_getElem_drop_succ, take_append_drop]
  generalize s.pending.take k = ts at *
  generalize s.pending.drop (k + 1) = us at *
  have hold : onWire s = (s.held.toList ++ s.s2c) ++ (ts ++ (t :: (us ++ s.c2s))) := by
    simp [onWire, hpend]
  have hnew : onWire { s with pending := unflushed t ts ++ us, s2c := s.s2c ++ [t] } =
      (s.held.toList ++ s.s2c) ++ (t :: (unflushed t ts ++ (us ++ s.c2s))) := by
    simp [onWire]
  have hsub := unflushed_sublist t ts
  refine inv_server h rfl rfl rfl rfl rfl ⟨fun y hy => ?_, fun _ => .inl, fun _ => id, id⟩ fun hf => ?_
  · rw [hnew] at hy
    rw [hold]
    simp only [mem_append, mem_cons] at hy ⊢
    rcases hy with hy | rfl | hy | hy
    · exact .inl (.inl hy)
    · exact .inl (.inr (.inr (.inl rfl)))
    · exact .inl (.inr (.inl (hsub.subset hy)))
    · exact .inl (.inr (.inr (.inr hy)))
  have hw := h.base.wire hf
  have hord := hw.order
  rw [hold] at hord
  rw [hnew]
  obtain ⟨h₁, h₂, h₁₂⟩ := pairwise_append.1 hord
  obtain ⟨hts, htus, hcross⟩ := pairwise_append.1 h₂
  obtain ⟨ht, hus⟩ := pairwise_cons.1 htus
  refine pairwise_append.2 ⟨h₁, pairwise_cons.2 ⟨fun y hy => ?_, ?_⟩, fun x hx y hy => ?_⟩
  · rcases mem_append.1 hy with hy | hy
    · have hyts := hsub.subset hy
      refine ⟨(hcross y hyts t (mem_cons_self ..)).1.symm, fun hi => ?_⟩
      -- the request of `y` is flushed by `t`, so that the server has dropped it
      obtain ⟨r, hr, rfl⟩ := hw.alive t (by rw [hold]; simp)
      obtain ⟨q, hq, rfl⟩ := hw.alive y (by rw [hold]; simp [hyts])
      obtain ⟨p, hrp⟩ := h.base.mem.queued r hr
      obtain ⟨p', hqp⟩ := h.base.mem.queued q hq
      obtain ⟨o, ho, q', hq', heq, hflush⟩ := (h.base.stack p).below hrp hi
      obtain rfl := h.base.idents p p' q' q (mem_of_mem_tail hq') hqp heq
      unfold unflushed at hy
      rw [ho] at hy
      simp only [mem_filter, Bool.and_eq_true, bne_iff_ne] at hy
      rcases hflush with hflush | hflush
      · exact hy.2.1 hflush
      · exact hy.2.2 hflush
    · exact ht y hy
  · refine pairwise_append.2 ⟨hts.sublist hsub, hus, fun x hx y hy => ?_⟩
    exact hcross x (hsub.subset hx) y (mem_cons_of_mem _ hy)
  · refine h₁₂ x hx y ?_
    simp only [mem_append, mem_cons] at hy ⊢
    rcases hy with rfl | hy | hy
    · exact .inr (.inl rfl)
    · exact .inl (hsub.subset hy)
    · exact .inr (.inr hy)

/-! ### Steps that take or give back a request -/

section
variable (h : Inv s Q F C)
include h

theorem inv_alloc {a a' : Mntalloc} {arg : Pid → Rpc} {m : Nat} {mem : Option Rpc} {buf : Bool}
    (hmux : ∀ r, s.pc p ≠ .mux r) (hmem : isFresh s.a mem = true) (hal : mntralloc s.a m mem buf = (a', some r))
    (ha : a = { a' with rpc := a.rpc }) (hne : ∀ q, q ≠ r → a.rpc q = a'.rpc q)
    (htag : (a.rpc r).request.tag = (a'.rpc r).request.tag) (hid : (a.rpc r).request.ident = s.a.fresh)
    (hd : (a.rpc r).done = false) (hst : Stack a.rpc (r :: C p)) (hlast : ∀ q ∈ (r :: C p).getLast?, q = arg p)
    (harg : ∀ p' ≠ p, arg p' = s.arg p') (hx : x = .got r ∧ C p = [] ∨ x = .start r) :
    ∃ F', Inv ({ s with a, arg }.goto p x) Q F' (update C p (r :: C p)) := by
  have hb := h.base
  have hfresh : ∀ new, mem = some new → s.a.allocated new = false := by
    rintro new rfl
    simpa [isFresh] using hmem
  obtain ⟨⟨F', hm⟩, hown, hf', hrpc', halloc, -, -, -⟩ := hb.mem.mntralloc p hfresh hal
  have hrpc : ∀ q, q ≠ r → a.rpc q = s.a.rpc q := fun q hq => (hne q hq).trans (hrpc' q hq)
  have hfr : a.fresh = s.a.fresh + 1 := by rw [ha]; exact hf'
  have hall : a.allocated = a'.allocated := by rw [ha]
  have hm : Mem a Q F' (update C p (r :: C p)) := by
    rw [ha]
    refine hm.congr rfl rfl rfl fun q => ?_
    by_cases hq : q = r
    · rw [hq]
      exact htag
    · exact congrArg (fun q => q.request.tag) (hne q hq)
  have hQ : ∀ q ∈ Q, q ≠ r := by
    rintro q hq rfl
    obtain ⟨p', hp'⟩ := hb.mem.queued q hq
    exact hown p' hp'
  have hC : ∀ p' q, q ∈ C p' → q ≠ r := by
    rintro p' q hq rfl
    exact hown p' hq
  have hother : ∀ p' ≠ p, update C p (r :: C p) p' = C p' := fun p' hp' => update_of_ne hp' _ _
  have hlt : ∀ p' q, q ∈ C p' → (a.rpc q).request.ident < s.a.fresh := by
    intro p' q hq
    rw [hrpc q (hC p' q hq)]
    exact hb.fresh p' q hq
  have hg : Grow s { s with a, arg } [] := ⟨fun _ => .inl, fun _ => .inl, fun _ => id, id⟩
  have hunsent : s.failed = false → Unsent { s with a, arg } (a.rpc r).request.ident := by
    intro hf
    rw [hid]
    refine ⟨fun t ht => ?_, fun t ht => ne_of_lt ((hb.wire hf).sent t ht).1⟩
    obtain ⟨q, hq, rfl⟩ := (hb.wire hf).alive t ht
    obtain ⟨p', hp'⟩ := hb.mem.queued q hq
    exact ne_of_lt (hb.fresh p' q hp')
  refine ⟨F', Inv.goto ⟨hm, fun p' => ?_, fun p' q hq => ?_, fun p' q hq => ?_, fun p₁ p₂ q₁ q₂ h₁ h₂ heq => ?_,
    fun q hq => ?_, fun q hq hdq t ht => ?_, fun hf => ?_⟩ (fun p' hp' => ?_) ?_ fun hh => .inr (h.others hmux hh)⟩
  · by_cases hp' : p' = p
    · subst hp'
      rw [update_self]
      exact hst
    · rw [hother p' hp']
      exact (hb.stack p').congr fun q hq => by
        show (a.rpc q).request = _ ∧ (a.rpc q).flushed = _
        rw [hrpc q (hC p' q hq)]
        exact ⟨rfl, rfl⟩
  · by_cases hp' : p' = p
    · subst hp'
      rw [update_self] at hq
      exact hlast q hq
    · rw [hother p' hp'] at hq
      exact (hb.last p' q hq).trans (harg p' hp').symm
  · show (a.rpc q).request.ident < a.fresh
    rw [hfr]
    rcases mem_update_cons.1 hq with hq | ⟨-, rfl⟩
    · exact Nat.lt_succ_of_lt (hlt p' q hq)
    · rw [hid]
      exact Nat.lt_succ_self _
  · have heq : (a.rpc q₁).request.ident = (a.rpc q₂).request.ident := heq
    rcases mem_update_cons.1 h₁ with hq₁ | ⟨-, rfl⟩ <;> rcases mem_update_cons.1 h₂ with hq₂ | ⟨-, rfl⟩
    · rw [hrpc q₁ (hC p₁ q₁ hq₁), hrpc q₂ (hC p₂ q₂ hq₂)] at heq
      exact hb.idents p₁ p₂ q₁ q₂ hq₁ hq₂ heq
    · exact absurd (heq.trans hid) (ne_of_lt (hlt p₁ q₁ hq₁))
    · exact absurd (heq.symm.trans hid) (ne_of_lt (hlt p₂ q₂ hq₂))
    · rfl
  · show (a.rpc q).done = false
    rw [hrpc q (hQ q hq)]
    exact hb.waiting q hq
  · have hq : a.allocated q = true := hq
    have hdq : (a.rpc q).done = true := hdq
    have ht : (a.rpc q).reply = .answer t := ht
    have hqr : q ≠ r := by
      rintro rfl
      simp [hd] at hdq
    show t.tag = (a.rpc q).request.tag ∧ (s.failed = false → t = (a.rpc q).request)
    rw [hrpc q hqr] at hdq ht ⊢
    exact hb.replies q (halloc q (hall ▸ hq) hqr) hdq t ht
  · have hw := hb.wire hf
    refine ⟨fun t ht => ?_, hw.order, fun p' q hq hdq i hi => ?_, fun t ht => ?_⟩
    · obtain ⟨q, hq, heq⟩ := hw.alive t ht
      exact ⟨q, hq, by show (a.rpc q).request = t; rw [hrpc q (hQ q hq)]; exact heq⟩
    · have hdq : (a.rpc q).done = true := hdq
      rcases mem_update_cons.1 hq with hq | ⟨-, rfl⟩
      · have hi : i ∈ (a.rpc q).request.ident :: (a.rpc q).request.covers := hi
        rw [hrpc q (hC p' q hq)] at hdq hi
        exact hw.covers p' q hq hdq i hi
      · simp [hd] at hdq
    · refine ⟨by show _ < a.fresh; rw [hfr]; exact Nat.lt_succ_of_lt (hw.sent t ht).1, (hw.sent t ht).2.imp ?_ id⟩
      rintro ⟨p', q, hq, heq⟩
      exact ⟨p', q, mem_update_cons.2 (.inl hq), by show (a.rpc q).request = t; rw [hrpc q (hC p' q hq)]; exact heq⟩
  · rw [hother p' hp']
    exact (h.pcs p').frame hg (fun q hq => hrpc q (hC p' q hq)) (fun _ _ => Iff.rfl) (fun h => ⟨h, rfl⟩)
      (harg p' hp') nofun
  · rw [update_self]
    rcases hx with ⟨rfl, hnil⟩ | rfl
    · exact ⟨by rw [hnil], fun hq => hQ r hq rfl, hd, hunsent⟩
    · exact ⟨rfl, fun hq => hQ r hq rfl, hd, hunsent⟩

theorem inv_got {a : Mntalloc} {m : Nat} {mem : Option Rpc} {buf : Bool} (hpc : s.pc p = .idle)
    (hmem : isFresh s.a mem = true) (hal : mntralloc s.a m mem buf = (a, some r)) :
    ∃ F', Inv ({ s with a, arg := update s.arg p r }.goto p (.got r)) Q F'
    (update C p (r :: C p)) := by
  have hfresh : ∀ new, mem = some new → s.a.allocated new = false := by
    rintro new rfl
    simpa [isFresh] using hmem
  obtain ⟨-, -, -, -, -, hreq, hd, hf⟩ := h.base.mem.mntralloc p hfresh hal
  have hnil : C p = [] := by
    have hok := h.pcs p
    rw [hpc] at hok
    exact hok
  refine inv_alloc h (not_mux hpc nofun) hmem hal rfl (fun _ _ => rfl) rfl (by rw [hreq]) hd ?_ ?_ ?_ (.inl ⟨rfl, hnil⟩)
  · rw [hnil]
    exact ⟨hf, by rw [hreq], by rw [hreq]⟩
  · intro q hq
    rw [hnil] at hq
    rw [update_self]
    exact (Option.some.inj hq).symm
  · exact fun p' hp' => update_of_ne hp' _ _

theorem inv_flushalloc {a : Mntalloc} {m : Nat} {mem : Option Rpc} {buf : Bool} {fr : Rpc}
    (hpc : s.pc p = .flush r) (hmem : isFresh s.a mem = true) (hal : mntralloc s.a m mem buf = (a, some fr)) :
    ∃ F', Inv ({ s with a := mntflushalloc a r fr }.goto p (.start fr)) Q F' (update C p (fr :: C p)) := by
  have hfresh : ∀ new, mem = some new → s.a.allocated new = false := by
    rintro new rfl
    simpa [isFresh] using hmem
  obtain ⟨-, hown, -, hrpc, -, hreq, hd, -⟩ := h.base.mem.mntralloc p hfresh hal
  have hr : (C p).head? = some r := by
    have hok := h.pcs p
    rw [hpc] at hok
    exact hok
  obtain ⟨c, hc⟩ := List.head?_eq_some_iff.1 hr
  have hne : ∀ q, q ≠ fr → (mntflushalloc a r fr).rpc q = a.rpc q := fun q hq => update_of_ne hq _ _
  have hself : (mntflushalloc a r fr).rpc fr = { a.rpc fr with
      request := { (a.rpc fr).request with
        oldtag := some (a.rpc r).request.root
        covers := (a.rpc r).request.ident :: (a.rpc r).request.covers }
      flushed := some r } := update_self _ _ _
  have hrC : ∀ q ∈ C p, q ≠ fr := by
    rintro q hq rfl
    exact hown p hq
  have hrfr : r ≠ fr := hrC r (mem_of_head? hr)
  refine inv_alloc h (not_mux hpc nofun) hmem hal rfl hne (by rw [hself]) (by rw [hself]; exact congrArg Msg.ident hreq)
    (by rw [hself]; exact hd) ?_ ?_ (fun _ _ => rfl) (.inr rfl)
  · have hst : Stack (mntflushalloc a r fr).rpc (C p) := (h.base.stack p).congr fun q hq => by
      rw [hne q (hrC q hq), hrpc q (hrC q hq)]
      exact ⟨rfl, rfl⟩
    rw [hc] at hst ⊢
    refine ⟨by rw [hself], ?_, ?_, hst⟩
    · rw [hself, hne r hrfr]
    · rw [hself, hne r hrfr]
  · intro q hq
    rw [hc, List.getLast?_cons_cons] at hq
    exact h.base.last p q (by rw [hc]; exact hq)

theorem inv_got_none {a : Mntalloc} {m : Nat} {mem : Option Rpc} {buf : Bool}
    (hal : mntralloc s.a m mem buf = (a, none)) : ∃ F', Inv { s with a } Q F' C := by
  obtain ⟨⟨F', hm⟩, hf, hrpc, halloc⟩ := h.base.mem.mntralloc_none hal
  have hb := h.base
  have hg : Grow s { s with a } [] := ⟨fun _ => .inl, fun _ => .inl, fun _ => id, id⟩
  refine ⟨F', ⟨hm, fun p => ?_, hb.last, fun p r hr => ?_, fun p p' r r' hr hr' heq => ?_, fun r hr => ?_,
    fun r hr hd t ht => ?_, fun hf' => ?_⟩, fun p => ?_, h.held⟩
  · exact (hb.stack p).congr fun r _ => by
      show (a.rpc r).request = _ ∧ (a.rpc r).flushed = _
      rw [hrpc]
      exact ⟨rfl, rfl⟩
  · show (a.rpc r).request.ident < a.fresh
    rw [hrpc, hf]
    exact hb.fresh p r hr
  · have heq : (a.rpc r).request.ident = (a.rpc r').request.ident := heq
    rw [hrpc] at heq
    exact hb.idents p p' r r' hr hr' heq
  · show (a.rpc r).done = false
    rw [hrpc]
    exact hb.waiting r hr
  · have hd : (a.rpc r).done = true := hd
    have ht : (a.rpc r).reply = .answer t := ht
    show t.tag = (a.rpc r).request.tag ∧ (s.failed = false → t = (a.rpc r).request)
    rw [hrpc] at hd ht ⊢
    exact hb.replies r (halloc r hr) hd t ht
  · have hw := hb.wire hf'
    refine ⟨?_, hw.order, ?_, ?_⟩
    · show ∀ t ∈ onWire s, ∃ r ∈ Q, (a.rpc r).request = t
      rw [hrpc]
      exact hw.alive
    · show ∀ p, ∀ r ∈ C p, (a.rpc r).done = true → ∀ i ∈ (a.rpc r).request.ident :: (a.rpc r).request.covers, Over s i
      rw [hrpc]
      exact hw.covers
    · show ∀ t ∈ s.sent, t.ident < a.fresh ∧ ((∃ p, ∃ r ∈ C p, (a.rpc r).request = t) ∨ Settled s t.ident)
      rw [hrpc, hf]
      exact hw.sent
  · exact (h.pcs p).frame hg (fun r _ =>
      by show a.rpc r = _; rw [hrpc]) (fun _ _ => Iff.rfl) (fun h => ⟨h, rfl⟩) rfl nofun

theorem inv_free (hmux : ∀ r, s.pc p ≠ .mux r) (hC : C p = r :: c) (hQ : r ∉ Q)
    (hall : AllOver s (C p))
    (hx : ∀ s, AllOver s c → PcOk s Q c p x) : ∃ F', Inv ({ s with a := mntfree s.a r }.goto p x) Q F'
    (update C p c) := by
  obtain ⟨⟨F', hm⟩, hf, hrpc, halloc⟩ := h.base.mem.mntfree hC hQ
  have hb := h.base
  have hg : Grow s { s with a := mntfree s.a r } [] := ⟨fun _ => .inl, fun _ => .inl, fun _ => id, id⟩
  have hmem : ∀ {p' q}, q ∈ update C p c p' → q ∈ C p' := fun hq => ((hb.mem.mem_update_tail hC).1 hq).1
  have hother : ∀ p' ≠ p, update C p c p' = C p' := fun p' hp' => update_of_ne hp' _ _
  refine ⟨F', Inv.goto ⟨hm, fun p' => ?_, fun p' q hq => ?_, fun p' q hq => ?_, fun p₁ p₂ q₁ q₂ h₁ h₂ heq => ?_,
    fun q hq => ?_, fun q hq hd t ht => ?_, fun hf' => ?_⟩ (fun p' hp' => ?_) ?_ fun hh => .inr (h.others hmux hh)⟩
  · show Stack (mntfree s.a r).rpc _
    rw [hrpc]
    by_cases hp' : p' = p
    · subst hp'
      have hst := hb.stack p'
      rw [hC] at hst
      rw [update_self]
      exact hst.tail
    · rw [hother p' hp']
      exact hb.stack p'
  · by_cases hp' : p' = p
    · subst hp'
      rw [update_self] at hq
      refine hb.last p' q ?_
      rw [hC]
      cases c with
      | nil => cases hq
      | cons y c => rwa [List.getLast?_cons_cons]
    · rw [hother p' hp'] at hq
      exact hb.last p' q hq
  · show ((mntfree s.a r).rpc q).request.ident < (mntfree s.a r).fresh
    rw [hrpc, hf]
    exact hb.fresh p' q (hmem hq)
  · have heq : ((mntfree s.a r).rpc q₁).request.ident = ((mntfree s.a r).rpc q₂).request.ident := heq
    rw [hrpc] at heq
    exact hb.idents p₁ p₂ q₁ q₂ (hmem h₁) (hmem h₂) heq
  · show ((mntfree s.a r).rpc q).done = false
    rw [hrpc]
    exact hb.waiting q hq
  · have hd : ((mntfree s.a r).rpc q).done = true := hd
    have ht : ((mntfree s.a r).rpc q).reply = .answer t := ht
    show t.tag = ((mntfree s.a r).rpc q).request.tag ∧ (s.failed = false → t = ((mntfree s.a r).rpc q).request)
    rw [hrpc] at hd ht ⊢
    exact hb.replies q (halloc q hq) hd t ht
  · have hw := hb.wire hf'
    refine ⟨?_, hw.order, ?_, ?_⟩
    · show ∀ t ∈ onWire s, ∃ q ∈ Q, ((mntfree s.a r).rpc q).request = t
      rw [hrpc]
      exact hw.alive
    · show ∀ p', ∀ q ∈ update C p c p', ((mntfree s.a r).rpc q).done = true →
        ∀ i ∈ ((mntfree s.a r).rpc q).request.ident :: ((mntfree s.a r).rpc q).request.covers, Over s i
      rw [hrpc]
      exact fun p' q hq => hw.covers p' q (hmem hq)
    show ∀ t ∈ s.sent, t.ident < (mntfree s.a r).fresh ∧
      ((∃ p', ∃ q ∈ update C p c p', ((mntfree s.a r).rpc q).request = t) ∨ Settled s t.ident)
    rw [hrpc, hf]
    intro t ht
    refine ⟨(hw.sent t ht).1, ?_⟩
    rcases (hw.sent t ht).2 with ⟨p', q, hq, heq⟩ | hs
    · by_cases hqr : q = r
      · subst hqr
        have hov := hall hf' q (by rw [hC]; exact mem_cons_self ..)
        exact .inr (by rw [← heq]; exact hov.2 t ht (by rw [ident, heq]))
      · exact .inl ⟨p', q, (hb.mem.mem_update_tail hC).2 ⟨hq, hqr⟩, heq⟩
    · exact .inr hs
  · rw [hother p' hp']
    exact (h.pcs p').frame hg (fun q _ =>
      by show (mntfree s.a r).rpc q = _; rw [hrpc]) (fun _ _ => Iff.rfl) (fun h => ⟨h, rfl⟩)
      rfl nofun
  · rw [update_self]
    refine hx _ fun hf' q hq => ?_
    show Over s ((mntfree s.a r).rpc q).request.ident
    rw [hrpc]
    exact hall hf' q (by rw [hC]; exact mem_cons_of_mem _ hq)

end

/-! ### Steps that take a request out of the queue -/

theorem mem_eraseP_iff {f : Rpc → Bool} {y : Rpc} (hnd : Q.Nodup) (hq : q ∈ Q) (hf : f q = true)
    (hone : ∀ y ∈ Q, f y = true → y = q) :
    y ∈ Q.eraseP f ↔ y ∈ Q ∧ y ≠ q := by
  obtain ⟨z, us, vs, -, hz, rfl, her⟩ := exists_of_eraseP hq hf
  obtain rfl := hone z (by simp) hz
  rw [her]
  obtain ⟨-, hzvs, hdisj⟩ := nodup_append.1 hnd
  have hzu : z ∉ us := fun h => hdisj z h z (by simp) rfl
  have hzv : z ∉ vs := (nodup_cons.1 hzvs).1
  constructor
  · intro hy
    refine ⟨?_, ?_⟩
    · rcases mem_append.1 hy with hy | hy <;> simp [hy]
    · rintro rfl
      exact (mem_append.1 hy).elim hzu hzv
  · rintro ⟨hy, hne⟩
    simpa [hne] using hy

theorem inv_deliver {t : Msg} {a : Mntalloc} (h : Inv s Q F C) (hpc : s.pc p = .mux r)
    (ht : (s.a.rpc r).reply = .answer t)
    (hq : q ∈ Q) (htag : (s.a.rpc q).request.tag = t.tag) (hm : Mem a Q' F C) (hQ' : ∀ y, y ∈ Q' ↔ y ∈ Q ∧ y ≠ q)
    (hrpc : a.rpc = update s.a.rpc q { s.a.rpc q with reply := .answer t, done := true })
    (halloc : a.allocated = s.a.allocated) (hfr : a.fresh = s.a.fresh) :
    Inv ({ s with a, held := none, received := s.received ++ [t] }.goto p (.read r)) Q' F C := by
  obtain ⟨hr, hrip, -, t', ht', hheld⟩ : PcOk s Q (C p) p (.mux r) := hpc ▸ h.pcs p
  obtain rfl : t = t' := Reply.answer.inj (ht.symm.trans ht')
  have hb := h.base
  have hwire : onWire s = t :: (s.s2c ++ s.pending ++ s.c2s) := by simp [onWire, hheld]
  have hwire' : onWire { s with a, held := none, received := s.received ++ [t] } = s.s2c ++ s.pending ++
    s.c2s := by simp [onWire]
  have halive : s.failed = false → (s.a.rpc q).request = t := by
    intro hf
    obtain ⟨y, hy, heq⟩ := (hb.wire hf).alive t (by rw [hwire]; exact mem_cons_self ..)
    obtain ⟨p₁, hp₁⟩ := hb.mem.queued y hy
    obtain ⟨p₂, hp₂⟩ := hb.mem.queued q hq
    have hyq : y = q := hb.mem.tags y q (hb.mem.own p₁ y hp₁).1 (hb.mem.own p₂ q hp₂).1 (by rw [heq, htag])
    rw [← hyq, heq]
  have hne : ∀ y, y ≠ q → a.rpc y = s.a.rpc y := fun y hy => by rw [hrpc, update_of_ne hy]
  have hself : a.rpc q = { s.a.rpc q with reply := .answer t, done := true } := by rw [hrpc, update_self]
  have hreq : ∀ y, (a.rpc y).request = (s.a.rpc y).request ∧ (a.rpc y).flushed = (s.a.rpc y).flushed := by
    intro y
    by_cases hy : y = q
    · rw [hy, hself]
      exact ⟨rfl, rfl⟩
    · rw [hne y hy]
      exact ⟨rfl, rfl⟩
  have hreply : ∀ y t', (y ≠ q → (s.a.rpc y).reply = .answer t' → t'.tag = (s.a.rpc y).request.tag ∧
      (s.failed = false → t' = (s.a.rpc y).request)) → (a.rpc y).reply = .answer t' →
      t'.tag = (a.rpc y).request.tag ∧ (s.failed = false → t' = (a.rpc y).request) := by
    intro y t' hold ht'
    by_cases hyq : y = q
    · rw [hyq, hself] at ht'
      cases ht'
      rw [hyq, (hreq q).1]
      exact ⟨htag.symm, fun hf => (halive hf).symm⟩
    · rw [hne y hyq] at ht' ⊢
      exact hold hyq ht'
  have hg : Grow s { s with a, held := none, received := s.received ++ [t] } [] := by
    refine ⟨fun y hy => .inl ?_, fun _ => .inl, fun y hy => mem_append_left _ hy, id⟩
    rw [hwire'] at hy
    rw [hwire]
    exact mem_cons_of_mem _ hy
  have hover : ∀ {c}, AllOver s c → AllOver { s with a, held := none, received := s.received ++ [t] } c := by
    intro c hc hf y hy
    show Over _ (a.rpc y).request.ident
    rw [(hreq y).1]
    exact (hc hf y hy).grow hg nofun
  refine Inv.goto ⟨hm, fun p' => (hb.stack p').congr fun y _ => hreq y, hb.last, fun p' y hy => ?_,
    fun p₁ p₂ y₁ y₂ h₁ h₂ heq => ?_, fun y hy => ?_, fun y hy hd t' ht' => ?_, fun hf => ?_⟩ (fun p' hp' => ?_) ?_ ?_
  · show (a.rpc y).request.ident < a.fresh
    rw [(hreq y).1, hfr]
    exact hb.fresh p' y hy
  · have heq : (a.rpc y₁).request.ident = (a.rpc y₂).request.ident := heq
    rw [(hreq y₁).1, (hreq y₂).1] at heq
    exact hb.idents p₁ p₂ y₁ y₂ h₁ h₂ heq
  · show (a.rpc y).done = false
    obtain ⟨hyQ, hyq⟩ := (hQ' y).1 hy
    rw [hne y hyq]
    exact hb.waiting y hyQ
  · have hy : a.allocated y = true := hy
    refine hreply y t' (fun hyq => hb.replies y (halloc ▸ hy) ?_ t') ht'
    rw [← hne y hyq]
    exact hd
  · have hw := hb.wire hf
    have hord := hw.order
    rw [hwire] at hord
    obtain ⟨hhead, htail⟩ := pairwise_cons.1 hord
    refine ⟨fun y hy => ?_, by rw [hwire']; exact htail, fun p' y hy hd i hi => ?_, fun y hy => ?_⟩
    · rw [hwire'] at hy
      obtain ⟨z, hz, heq⟩ := hw.alive y (by rw [hwire]; exact mem_cons_of_mem _ hy)
      have hzq : z ≠ q := by
        rintro rfl
        exact (hhead y hy).1 (by rw [← heq, halive hf])
      exact ⟨z, (hQ' z).2 ⟨hz, hzq⟩, by show (a.rpc z).request = y; rw [(hreq z).1]; exact heq⟩
    · have hd : (a.rpc y).done = true := hd
      have hi : i ∈ (a.rpc y).request.ident :: (a.rpc y).request.covers := hi
      rw [(hreq y).1] at hi
      by_cases hyq : y = q
      · -- no message is behind a flush of it
        rw [hyq, halive hf] at hi
        refine ⟨fun z hz heq => ?_, fun z hz heq => ⟨t, mem_append_right _ (mem_singleton_self _), ?_⟩⟩
        · rw [hwire'] at hz
          rcases mem_cons.1 hi with hi | hi
          · exact (hhead z hz).1 (by rw [heq, hi])
          · exact (hhead z hz).2 (heq ▸ hi)
        · rcases mem_cons.1 hi with hi | hi
          · exact .inl hi.symm
          · exact .inr hi
      · rw [hne y hyq] at hd
        exact (hw.covers p' y hy hd i hi).grow hg nofun
    · refine ⟨hfr ▸ (hw.sent y hy).1, (hw.sent y hy).2.imp ?_ fun hs => hs.mono hg.received⟩
      rintro ⟨p', z, hz, heq⟩
      exact ⟨p', z, hz, by show (a.rpc z).request = y; rw [(hreq z).1]; exact heq⟩
  · have hok := h.pcs p'
    show PcOk _ Q' (C p') p' (s.pc p')
    cases hpc' : s.pc p' with
    | idle => rwa [hpc'] at hok
    | got y | start y =>
      rw [hpc'] at hok
      obtain ⟨hy, hyQ, hd, hu⟩ := hok
      have hyq : y ≠ q := fun heq => hyQ (heq ▸ hq)
      refine ⟨hy, fun hyQ' => hyQ ((hQ' y).1 hyQ').1,
        by show (a.rpc y).done = false; rw [hne y hyq]; exact hd, fun hf => ?_⟩
      show Unsent _ (a.rpc y).request.ident
      rw [(hreq y).1]
      exact (hu hf).grow hg nofun
    | write y =>
      rw [hpc'] at hok
      refine ⟨hok.1, fun hf => ?_⟩
      obtain ⟨hyQ, hu⟩ := hok.2 hf
      have hyq : y ≠ q := by
        rintro rfl
        exact hu.1 t (by rw [hwire]; exact mem_cons_self ..) (by rw [← halive hf])
      refine ⟨(hQ' y).2 ⟨hyQ, hyq⟩, ?_⟩
      show Unsent _ (a.rpc y).request.ident
      rw [(hreq y).1]
      exact hu.grow hg nofun
    | gate y | sleep y | caught y _ | flush y => rwa [hpc'] at hok
    | read y =>
      rw [hpc'] at hok
      exact rip_other hrip hp' hok.2.1
    | mux y =>
      rw [hpc'] at hok
      exact rip_other hrip hp' hok.2.1
    | flushfree y =>
      rw [hpc'] at hok
      exact ⟨hok.1, hover hok.2⟩
    | qrm y =>
      rw [hpc'] at hok
      exact ⟨hok.1, fun t' => hreply y t' fun _ => hok.2.1 t', hover hok.2.2⟩
    | release y =>
      rw [hpc'] at hok
      exact ⟨hok.1, fun hyQ' => hok.2.1 ((hQ' y).1 hyQ').1, hover hok.2.2⟩
    | back =>
      rw [hpc'] at hok
      exact ⟨hok.1, fun hyQ' => hok.2.1 ((hQ' _).1 hyQ').1, hover hok.2.2⟩
  · exact ⟨hr, hrip, rfl⟩
  · exact fun hh => absurd rfl hh

theorem inv_mountmux {t : Msg} (h : Inv s Q F C) (hpc : s.pc p = .mux r) (ht : (s.a.rpc r).reply = .answer t) :
    ∃ Q', Inv ({ mountmux s t with held := none, received := s.received ++ [t] }.goto p (.read r)) Q' F C := by
  have hb := h.base
  obtain ⟨hm, hfind⟩ := hb.mem.unlink fun q => (s.a.rpc q).request.tag == t.tag
  unfold mountmux
  cases hrun : unlinkFirst Cell.list (fun q => (s.a.rpc q).request.tag == t.tag) (64 * 1024) Cell.queue s.a.next with
  | mk next found =>
    rw [hrun] at hm hfind
    have hown : ∀ y ∈ Q, s.a.allocated y = true := fun y hy => by
      obtain ⟨p', hp'⟩ := hb.mem.queued y hy
      exact (hb.mem.own p' y hp').1
    cases found with
    | some q =>
      have hq : q ∈ Q := mem_of_find?_eq_some hfind.symm
      have htag : (s.a.rpc q).request.tag = t.tag := by simpa using List.find?_some hfind.symm
      have hm : Mem
          { s.a with next, rpc := update s.a.rpc q { s.a.rpc q with reply := .answer t, done := true } }
          (Q.eraseP fun q => (s.a.rpc q).request.tag == t.tag) F C := by
        refine hm.congr rfl rfl rfl fun y => ?_
        by_cases hy : y = q
        · subst hy
          simp
        · simp [hy]
      have hrest := inv_deliver h hpc ht hq htag hm (fun y => mem_eraseP_iff hb.mem.queue.nodup hq (by simpa using htag)
        fun y hy hty => hb.mem.tags y q (hown y hy) (hown q hq) (by rw [htag]; simpa using hty)) rfl rfl rfl
      exact ⟨_, hrest⟩
    | none =>
      obtain ⟨hr, hrip, -, t', ht', hheld⟩ : PcOk s Q (C p) p (.mux r) := hpc ▸ h.pcs p
      obtain rfl : t = t' := Reply.answer.inj (ht.symm.trans ht')
      have hwire : onWire s = t :: (s.s2c ++ s.pending ++ s.c2s) := by simp [onWire, hheld]
      have hf : s.failed = true := by
        cases hf : s.failed with
        | true => rfl
        | false =>
          obtain ⟨y, hy, heq⟩ := (hb.wire hf).alive t (by rw [hwire]; exact mem_cons_self ..)
          have := List.find?_eq_none.1 hfind.symm y hy
          simp [heq] at this
      have hg : Grow s { s with held := none, received := s.received ++ [t] } [] := by
        refine ⟨fun y hy => .inl ?_, fun _ => .inl, fun y hy => mem_append_left _ hy, id⟩
        rw [hwire]
        exact mem_cons_of_mem _ (by simpa [onWire] using hy)
      refine ⟨Q, Inv.goto (hb.congr hb.mem (fun _ => ⟨rfl, rfl⟩) (fun _ hd => ⟨hd, rfl⟩) rfl rfl rfl hg fun hf' => ?_)
        (fun p' hp' => ?_) ⟨hr, hrip, rfl⟩ fun hh => absurd rfl hh⟩
      · have hf' : s.failed = false := hf'
        simp [hf] at hf'
      · exact (h.pcs p').frame hg (fun _ _ => rfl) (fun _ _ => Iff.rfl) (rip_other hrip hp') rfl nofun

theorem inv_qrm (h : Inv s Q F C) (hpc : s.pc p = .qrm r) :
    ∃ Q', Inv ({ s with a := mntqrm s.a r }.goto p (.release r)) Q' F C := by
  obtain ⟨hr, hprop, hall⟩ : PcOk s Q (C p) p (.qrm r) := hpc ▸ h.pcs p
  have hb := h.base
  have hrC := mem_of_head? hr
  obtain ⟨hm, -⟩ := hb.mem.unlink fun q => q == r
  have hQ' : ∀ y, y ∈ Q.eraseP (fun q => q == r) ↔ y ∈ Q ∧ y ≠ r := by
    intro y
    by_cases hrQ : r ∈ Q
    · exact mem_eraseP_iff hb.mem.queue.nodup hrQ (by simp) fun y _ hy => by simpa using hy
    · rw [eraseP_of_forall_not fun y hy => by simpa using fun h : y = r => hrQ (h ▸ hy)]
      exact ⟨fun hy => ⟨hy, fun h => hrQ (h ▸ hy)⟩, And.left⟩
  have hne : ∀ y, y ≠ r → (mntqrm s.a r).rpc y = s.a.rpc y := fun y hy => update_of_ne hy _ _
  have hself : (mntqrm s.a r).rpc r = { s.a.rpc r with done := true } := update_self _ _ _
  have hreq : ∀ y, ((mntqrm s.a r).rpc y).request = (s.a.rpc y).request ∧
      ((mntqrm s.a r).rpc y).flushed = (s.a.rpc y).flushed ∧ ((mntqrm s.a r).rpc y).reply = (s.a.rpc y).reply := by
    intro y
    by_cases hy : y = r
    · rw [hy, hself]
      exact ⟨rfl, rfl, rfl⟩
    · rw [hne y hy]
      exact ⟨rfl, rfl, rfl⟩
  have hg : Grow s { s with a := mntqrm s.a r } [] := ⟨fun _ => .inl, fun _ => .inl, fun _ => id, id⟩
  refine ⟨_, Inv.goto ⟨hm.congr rfl rfl rfl fun y => by rw [(hreq y).1], fun p' => (hb.stack p').congr fun y _ =>
    ⟨(hreq y).1, (hreq y).2.1⟩, hb.last, fun p' y hy => ?_, fun p₁ p₂ y₁ y₂ h₁ h₂ heq => ?_, fun y hy => ?_,
    fun y hy hd t ht => ?_, fun hf => ?_⟩ (fun p' hp' => ?_) ?_ fun hh => .inr (h.others (not_mux hpc nofun) hh)⟩
  · show ((mntqrm s.a r).rpc y).request.ident < s.a.fresh
    rw [(hreq y).1]
    exact hb.fresh p' y hy
  · have heq : ((mntqrm s.a r).rpc y₁).request.ident = ((mntqrm s.a r).rpc y₂).request.ident := heq
    rw [(hreq y₁).1, (hreq y₂).1] at heq
    exact hb.idents p₁ p₂ y₁ y₂ h₁ h₂ heq
  · show ((mntqrm s.a r).rpc y).done = false
    obtain ⟨hyQ, hyr⟩ := (hQ' y).1 hy
    rw [hne y hyr]
    exact hb.waiting y hyQ
  · have hy : s.a.allocated y = true := hy
    have hd : ((mntqrm s.a r).rpc y).done = true := hd
    have ht : ((mntqrm s.a r).rpc y).reply = .answer t := ht
    show t.tag = ((mntqrm s.a r).rpc y).request.tag ∧ (s.failed = false → t = ((mntqrm s.a r).rpc y).request)
    rw [(hreq y).2.2] at ht
    rw [(hreq y).1]
    by_cases hyr : y = r
    · exact hprop t (hyr ▸ ht) |>.imp (fun h => hyr ▸ h) fun h hf => hyr ▸ h hf
    · rw [hne y hyr] at hd
      exact hb.replies y hy hd t ht
  · have hw := hb.wire hf
    refine ⟨fun t ht => ?_, hw.order, fun p' y hy hd i hi => ?_, fun t ht => ?_⟩
    · obtain ⟨z, hz, heq⟩ := hw.alive t ht
      have hzr : z ≠ r := by
        rintro rfl
        exact (hall hf z hrC).1 t ht (by rw [ident, heq])
      exact ⟨z, (hQ' z).2 ⟨hz, hzr⟩, by show ((mntqrm s.a r).rpc z).request = t; rw [(hreq z).1]; exact heq⟩
    · have hd : ((mntqrm s.a r).rpc y).done = true := hd
      have hi' : i ∈ ((mntqrm s.a r).rpc y).request.ident :: ((mntqrm s.a r).rpc y).request.covers := hi
      rw [(hreq y).1] at hi'
      by_cases hyr : y = r
      · subst hyr
        obtain ⟨c, hc⟩ := List.head?_eq_some_iff.1 hr
        have hst := hb.stack p
        rw [hc] at hst
        rw [hst.idents] at hi'
        obtain ⟨z, hz, rfl⟩ := mem_map.1 hi'
        exact hall hf z (hc ▸ hz)
      · rw [hne y hyr] at hd
        exact hw.covers p' y hy hd i hi'
    · refine ⟨(hw.sent t ht).1, (hw.sent t ht).2.imp ?_ id⟩
      rintro ⟨p', z, hz, heq⟩
      exact ⟨p', z, hz, by show ((mntqrm s.a r).rpc z).request = t; rw [(hreq z).1]; exact heq⟩
  · refine (h.pcs p').frame hg (fun y hy => hne y (hb.ne_other hrC hp' hy)) (fun y hy => ?_)
      (fun h => ⟨h, rfl⟩) rfl nofun
    exact (hQ' y).trans (and_iff_left (hb.ne_other hrC hp' hy))
  · refine ⟨hr, fun hrQ => ((hQ' r).1 hrQ).2 rfl, fun hf y hy => ?_⟩
    show Over _ ((mntqrm s.a r).rpc y).request.ident
    rw [(hreq y).1]
    exact hall hf y hy

theorem Base.allOver (hb : Base s Q F C) (hr : (C p).head? = some r) (hd : (s.a.rpc r).done = true) :
    AllOver s (C p) := by
  obtain ⟨c, hc⟩ := List.head?_eq_some_iff.1 hr
  intro hf q hq
  refine (hb.wire hf).covers p r (mem_of_head? hr) hd _ ?_
  have hst := hb.stack p
  rw [hc] at hst hq
  rw [hst.idents]
  exact mem_map.2 ⟨q, hq, rfl⟩

section
variable (h : Inv s Q F C)
include h

theorem inv_drop (hpc : s.pc p = .got r) : Inv (s.goto p .back) Q F C := by
  obtain ⟨hC, hrQ, -, hu⟩ : PcOk s Q (C p) p (.got r) := hpc ▸ h.pcs p
  have harg : r = s.arg p := h.base.last p r (by rw [hC]; rfl)
  refine inv_goto h ⟨by rw [hC, harg], harg ▸ hrQ, fun hf q hq => ?_⟩ (not_mux hpc nofun)
  rw [hC] at hq
  rw [mem_singleton.1 hq]
  exact (hu hf).covers

theorem inv_gate (hpc : s.pc p = .gate r) (hrip : s.rip = none) :
    Inv ({ s with rip := some p }.goto p (.read r)) Q F C := by
  have hr : PcOk s Q (C p) p (.gate r) := hpc ▸ h.pcs p
  refine inv_rip h (fun p' _ hp' => ?_) ⟨hr, rfl, ?_⟩ (not_mux hpc nofun)
  · simp [hrip] at hp'
  · by_contra hh
    obtain ⟨p', y, hy⟩ := h.held hh
    have hok := h.pcs p'
    rw [hy] at hok
    exact absurd (hrip.symm.trans hok.2.1) nofun

theorem inv_catch {b : Bool} (hpc : s.pc p = .caught r b) :
    Inv ((if s.rip = some p then { s with rip := none } else s).goto p (if b then .flush r else .flushfree r)) Q F C := by
  obtain ⟨hr, hf⟩ : PcOk s Q (C p) p (.caught r b) := hpc ▸ h.pcs p
  have hok : ∀ s' : St, s'.failed = s.failed → PcOk s' Q (C p) p (if b then .flush r else .flushfree r) := by
    intro s' hs'
    cases b with
    | true => exact hr
    | false => exact ⟨hr, fun hf' => absurd ((hs'.symm.trans hf').symm.trans (hf rfl)) nofun⟩
  split
  · next hrip => exact inv_rip h (fun p' hp' => rip_other hrip hp') (hok _ rfl) (not_mux hpc nofun)
  · exact inv_goto h (hok _ rfl) (not_mux hpc nofun)

theorem inv_release {fr : Rpc} (hpc : s.pc p = .release r) (hfl : (s.a.rpc r).flushed = some fr) :
    ∃ F' C', Inv ({ s with a := mntfree s.a r }.goto p (.flushfree fr)) Q F' C' := by
  obtain ⟨hr, hrQ, hall⟩ : PcOk s Q (C p) p (.release r) := hpc ▸ h.pcs p
  obtain ⟨c, hc⟩ := List.head?_eq_some_iff.1 hr
  have hst := h.base.stack p
  rw [hc] at hst
  cases c with
  | nil => exact absurd (hfl.symm.trans hst.1) nofun
  | cons q c =>
    obtain rfl : fr = q := Option.some.inj (hfl.symm.trans hst.1)
    obtain ⟨F', h'⟩ := inv_free (x := .flushfree fr) h (not_mux hpc nofun) hc hrQ hall fun _ hall' => ⟨rfl, hall'⟩
    exact ⟨F', _, h'⟩

theorem inv_return (hpc : s.pc p = .release r) (hfl : (s.a.rpc r).flushed = none) :
    Inv (s.goto p .back) Q F C := by
  obtain ⟨hr, hrQ, hall⟩ : PcOk s Q (C p) p (.release r) := hpc ▸ h.pcs p
  obtain ⟨c, hc⟩ := List.head?_eq_some_iff.1 hr
  have hst := h.base.stack p
  rw [hc] at hst
  cases c with
  | nil =>
    have harg : r = s.arg p := h.base.last p r (by rw [hc]; rfl)
    exact inv_goto h ⟨by rw [hc, harg], harg ▸ hrQ, hall⟩ (not_mux hpc nofun)
  | cons q c => exact absurd (hfl.symm.trans hst.1) nofun

theorem inv_back (hpc : s.pc p = .back) :
    ∃ F' C', Inv ({ s with a := mntfree s.a (s.arg p) }.goto p .idle) Q F' C' := by
  obtain ⟨hC, hrQ, hall⟩ : PcOk s Q (C p) p .back := hpc ▸ h.pcs p
  obtain ⟨F', h'⟩ := inv_free (x := .idle) h (not_mux hpc nofun) hC hrQ hall fun _ _ => rfl
  exact ⟨F', _, h'⟩

theorem inv_step {msize : Nat} {act : Act} (hact : Flushable msize s act)
    (hs : step msize s act = some s') :
    ∃ Q F C, Inv s' Q F C := by
  cases act with
  | alloc p m mem buf =>
    simp only [step] at hs
    split at hs
    · next hpc =>
      split at hs
      · next hmem =>
        split at hs
        · next hal =>
          cases hs
          obtain ⟨F', h'⟩ := inv_got h hpc hmem hal
          exact ⟨_, _, _, h'⟩
        · next hal =>
          cases hs
          obtain ⟨F', h'⟩ := inv_got_none h hal
          exact ⟨_, _, _, h'⟩
      · cases hs
    · cases hs
  | call p =>
    simp only [step] at hs
    split at hs
    · next hpc => cases hs; exact ⟨_, _, _, inv_call h hpc⟩
    · cases hs
  | drop p =>
    simp only [step] at hs
    split at hs
    · next hpc => cases hs; exact ⟨_, _, _, inv_drop h hpc⟩
    · cases hs
  | enqueue p =>
    simp only [step] at hs
    split at hs
    · next hpc => cases hs; exact ⟨_, _, _, inv_enqueue h hpc⟩
    · cases hs
  | write p w =>
    simp only [step] at hs
    split at hs
    · next r hpc =>
      cases w with
      | ok =>
        cases hs
        have h' := inv_write (x := .gate r) true false h hpc fun _ _ hr => hr
        simp only [Bool.or_false, ↓reduceIte] at h'
        exact ⟨_, _, _, h'⟩
      | fail sent =>
        cases hs
        have h' := inv_write (x := .caught r false) sent true h hpc fun _ hf hr => ⟨hr, fun _ => hf rfl⟩
        simp only [Bool.or_true] at h'
        exact ⟨_, _, _, h'⟩
      | eintr sent =>
        cases hs
        have h' := inv_write (x := .caught r true) sent false h hpc fun _ _ hr => ⟨hr, nofun⟩
        simp only [Bool.or_false] at h'
        cases sent <;> exact ⟨_, _, _, h'⟩
    · cases hs
  | gate p =>
    simp only [step] at hs
    split at hs
    · next r hpc =>
      split at hs
      · next hrip => cases hs; exact ⟨_, _, _, inv_gate h hpc hrip⟩
      · have hr : PcOk s Q (C p) p (.gate r) := hpc ▸ h.pcs p
        cases hs
        exact ⟨_, _, _, inv_goto h hr (not_mux hpc nofun)⟩
    · cases hs
  | wake p =>
    simp only [step] at hs
    split at hs
    · next r hpc =>
      have hr : PcOk s Q (C p) p (.sleep r) := hpc ▸ h.pcs p
      split at hs
      · next hd =>
        cases hs
        exact ⟨_, _, _, inv_goto h ⟨hr, h.base.allOver hr hd⟩ (not_mux hpc nofun)⟩
      · split at hs
        · cases hs
          exact ⟨_, _, _, inv_goto h hr (not_mux hpc nofun)⟩
        · cases hs
    · cases hs
  | interrupt p =>
    simp only [step] at hs
    split at hs
    · next r hpc =>
      have hr : PcOk s Q (C p) p (.sleep r) := hpc ▸ h.pcs p
      cases hs
      exact ⟨_, _, _, inv_goto h ⟨hr, nofun⟩ (not_mux hpc nofun)⟩
    · next r hpc =>
      split at hs
      · cases hs
      · next hd =>
        have hg : Grow s (s.setReply r .none) [] := ⟨fun _ => .inl, fun _ => .inl, fun _ => id, id⟩
        cases hs
        exact ⟨_, _, _, inv_caught h hpc (by simpa using hd) rfl rfl rfl rfl rfl hg rfl nofun⟩
    · cases hs
  | recv p =>
    simp only [step] at hs
    split at hs
    · next r hpc =>
      split at hs
      · cases hs
      · next hd =>
        split at hs
        · cases hs
        · next hs2c => cases hs; exact ⟨_, _, _, inv_recv h hpc (by simpa using hd) hs2c⟩
    · cases hs
  | readfail p =>
    simp only [step] at hs
    split at hs
    · next r hpc =>
      split at hs
      · cases hs
      · next hd =>
        have hg : Grow s { s.setReply r .none with failed := true } [] := ⟨fun _ => .inl, fun _ => .inl,
          fun _ => id, nofun⟩
        cases hs
        exact ⟨_, _, _, inv_caught h hpc (by simpa using hd) rfl rfl rfl rfl rfl hg rfl fun _ => rfl⟩
    · cases hs
  | mountmux p =>
    simp only [step] at hs
    split at hs
    · next r hpc =>
      split at hs
      · next ht =>
        cases hs
        obtain ⟨Q', h'⟩ := inv_mountmux h hpc ht
        exact ⟨_, _, _, h'⟩
      · cases hs
    · cases hs
  | leave p =>
    simp only [step] at hs
    split at hs
    · next r hpc =>
      split at hs
      · next hd =>
        obtain ⟨hr, hrip, -⟩ : PcOk s Q (C p) p (.read r) := hpc ▸ h.pcs p
        cases hs
        exact ⟨_, _, _, inv_rip h (fun p' hp' => rip_other hrip hp') ⟨hr, h.base.allOver hr hd⟩ (not_mux hpc nofun)⟩
      · cases hs
    · cases hs
  | «catch» p =>
    simp only [step] at hs
    split at hs
    · next hpc => cases hs; exact ⟨_, _, _, inv_catch h hpc⟩
    · cases hs
  | flushalloc p mem buf =>
    simp only [step] at hs
    split at hs
    · next hpc =>
      split at hs
      · next hmem =>
        split at hs
        · next hal =>
          cases hs
          obtain ⟨F', h'⟩ := inv_flushalloc h hpc hmem hal
          exact ⟨_, _, _, h'⟩
        · next hal => exact absurd (congrArg Prod.snd hal) (mntralloc_ne_none h.base.mem hact)
      · cases hs
    · cases hs
  | flushfree p =>
    simp only [step] at hs
    split at hs
    · next r hpc =>
      split at hs
      · next hd =>
        obtain ⟨hr, hall⟩ : PcOk s Q (C p) p (.flushfree r) := hpc ▸ h.pcs p
        cases hs
        refine ⟨_, _, _, inv_goto h ⟨hr, fun hrQ => ?_, hall⟩ (not_mux hpc nofun)⟩
        simp [h.base.waiting r hrQ] at hd
      · next hd => cases hs; exact ⟨_, _, _, inv_flushfree h hpc (by simpa using hd)⟩
    · cases hs
  | qrm p =>
    simp only [step] at hs
    split at hs
    · next hpc =>
      cases hs
      obtain ⟨Q', h'⟩ := inv_qrm h hpc
      exact ⟨_, _, _, h'⟩
    · cases hs
  | release p =>
    simp only [step] at hs
    split at hs
    · next r hpc =>
      split at hs
      · next hfl =>
        cases hs
        obtain ⟨F', C', h'⟩ := inv_release h hpc hfl
        exact ⟨_, _, _, h'⟩
      · next hfl => cases hs; exact ⟨_, _, _, inv_return h hpc hfl⟩
    · cases hs
  | free p =>
    simp only [step] at hs
    split at hs
    · next hpc =>
      cases hs
      obtain ⟨F', C', h'⟩ := inv_back h hpc
      exact ⟨_, _, _, h'⟩
    · cases hs
  | accept =>
    simp only [step] at hs
    split at hs
    · cases hs
    · next hc2s => cases hs; exact ⟨_, _, _, inv_accept h hc2s⟩
  | answer k =>
    simp only [step] at hs
    split at hs
    · next hk => cases hs; exact ⟨_, _, _, inv_answer h hk⟩
    · cases hs

theorem Inv.safe (hf : s.failed = false) : Safe s := by
  have hb := h.base
  refine ⟨fun r hr => ?_, hb.mem.tags, fun t ht t' ht' heq => ?_, fun r hr hd t ht => ?_, fun _ t ht r hr heq hne => ?_⟩
  · exact ⟨(hb.mem.range r hr).1, ne_of_lt (hb.mem.range r hr).2⟩
  · have hmem : ∀ t, t ∈ s.s2c ++ s.pending ++ s.c2s → t ∈ onWire s := by
      intro t ht
      simp only [onWire, mem_append] at ht ⊢
      rcases ht with (ht | ht) | ht <;> simp [ht]
    have hown : ∀ r ∈ Q, s.a.allocated r = true := fun r hr => by
      obtain ⟨p, hp⟩ := hb.mem.queued r hr
      exact (hb.mem.own p r hp).1
    obtain ⟨r, hr, rfl⟩ := (hb.wire hf).alive t (hmem t ht)
    obtain ⟨r', hr', rfl⟩ := (hb.wire hf).alive t' (hmem t' ht')
    rw [hb.mem.tags r r' (hown r hr) (hown r' hr') heq]
  · exact ⟨(hb.replies r hr hd t ht).1, (hb.replies r hr hd t ht).2 hf⟩
  · rcases ((hb.wire hf).sent t ht).2 with ⟨p, r', hr', rfl⟩ | hs
    · rw [hb.mem.tags r r' hr (hb.mem.own p r' hr').1 heq] at hne
      exact absurd rfl hne
    · exact hs

end

theorem failed_mountmux (s : St) (t : Msg) : (MntMux.mountmux s t).failed = s.failed := by
  unfold MntMux.mountmux
  split <;> rfl

theorem failed_step {msize : Nat} {act : Act} (hact : Flushable msize s act) (hs : step msize s act = some s')
    (hf : s.failed = false) : s'.failed = false := by
  cases act with
  | write p w =>
    simp only [step] at hs
    split at hs
    · rcases w with _ | sent | sent
      · cases hs
        exact hf
      · exact hact.elim
      · cases hs
        cases sent <;> exact hf
    · cases hs
  | readfail p => exact hact.elim
  | mountmux p =>
    simp only [step] at hs
    split at hs
    · split at hs
      · next t _ =>
        cases hs
        exact (failed_mountmux s t).trans hf
      · cases hs
    · cases hs
  | «catch» p =>
    simp only [step] at hs
    split at hs
    · cases hs
      show (if s.rip = some p then { s with rip := none } else s).failed = false
      split <;> exact hf
    · cases hs
  | _ =>
    simp only [step] at hs
    repeat' split at hs
    all_goals cases hs
    all_goals exact hf

theorem inv_init : Inv init [] [] fun _ => [] := by
  refine ⟨⟨⟨rfl, rfl, nofun, nofun, nofun, nofun, fun _ => nodup_nil, ?_, ?_, nofun, nofun, nofun⟩,
    fun _ => trivial, nofun,
    nofun, nofun, nofun, nofun, fun _ => ⟨nofun, List.Pairwise.nil, nofun, nofun⟩⟩, fun _ => rfl, fun h => absurd rfl h⟩
  · show (1 : BitVec 64) &&& bit (0 % 32) ≠ 0
    decide
  · show (0x80000000 : BitVec 64) &&& bit (NOTAG % 32) ≠ 0
    decide

end

/-- As long as there is memory for every flush, and the connection works, all replies meet their requests. -/
theorem always_safe {msize : Nat} {acts : List Act} (h : Along (step msize) (Flushable msize) init acts) :
    Always (step msize) Safe init acts := by
  have hinv := h.always (I := fun s => (∃ Q F C, Inv s Q F C) ∧ s.failed = false) (fun s act s' hs hact hstep => by
    obtain ⟨⟨Q, F, C, hinv⟩, hf⟩ := hs
    exact ⟨inv_step hinv hact hstep, failed_step hact hstep hf⟩) ⟨⟨_, _, _, inv_init⟩, rfl⟩
  exact hinv.mono fun s hs => by
    obtain ⟨⟨Q, F, C, hinv⟩, hf⟩ := hs
    exact hinv.safe hf

def flushedRead : List Act :=
  [.alloc 0 8192 (some 0) true, .call 0, .enqueue 0, .write 0 .ok, .gate 0, .interrupt 0, .catch 0,
    .flushalloc 0 (some 1) true,
    .enqueue 0, .write 0 .ok, .accept, .accept, .answer 1, .gate 0, .recv 0, .mountmux 0, .leave 0, .flushfree 0,
      .release 0,
    .flushfree 0, .qrm 0, .release 0, .free 0]

theorem always_safe_flushedRead :
    ∃ s, run (step 8192) init flushedRead = some s ∧ Along (step 8192) (Flushable 8192) init flushedRead ∧
      Always (step 8192) Safe init flushedRead := by
  have hflush : ∀ s : St, s.a.next .rpcfree = none → s.a.tagmask 0 = 3 →
    Flushable 8192 s (.flushalloc 0 (some 1) true) := by
    intro s hs hmask
    show Enough s.a 8192 (some 1) true
    unfold Enough
    rw [hs]
    refine ⟨rfl, rfl, 2, by decide, ?_⟩
    unfold Used
    rw [hmask]
    decide
  have h : Along (step 8192) (Flushable 8192) init flushedRead := by
    refine .cons trivial rfl (.cons trivial rfl
      (.cons trivial rfl (.cons trivial rfl (.cons trivial rfl (.cons trivial rfl
      (.cons trivial rfl (.cons ?_ rfl ?_)))))))
    · exact hflush _ rfl rfl
    refine .cons trivial rfl (.cons trivial rfl
      (.cons trivial rfl (.cons trivial rfl (.cons trivial rfl (.cons trivial rfl
      (.cons trivial rfl (.cons trivial rfl (.cons trivial rfl ?_))))))))
    exact .cons trivial rfl (.cons trivial rfl
      (.cons trivial rfl (.cons trivial rfl (.cons trivial rfl (.cons trivial rfl
      trivial)))))
  exact ⟨_, rfl, h, always_safe h⟩

/-- There is no memory for the flush of an interrupted read. Its request is free with its tag, which another
process gets, and then the reply to the first. -/
def lostFlush : List Act :=
  [.alloc 0 8192 (some 0) true, .call 0, .enqueue 0, .write 0 .ok, .gate 0, .interrupt 0, .catch 0,
    .flushalloc 0 none true,
    .free 0, .alloc 1 8192 none true, .call 1, .enqueue 1, .write 1 .ok, .accept, .answer 0, .gate 1, .recv 1,
      .mountmux 1]

theorem not_safe_lostFlush : ∃ s, run (step 8192) init lostFlush = some s ∧ ¬ Safe s := by
  refine ⟨_, rfl, fun h => ?_⟩
  have hsame := (h.delivered 0 rfl rfl ⟨0, 1, none, []⟩ rfl).2
  cases hsame

end Node9.MntMux
