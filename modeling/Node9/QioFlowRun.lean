import Node9.QioFlow

/-!
# Wake-ups in every run (`qio.c`)

A writer that sleeps has `Qflow` set, and a reader that sleeps has `Qstarve`, as long as the `Wakeup` that ends its
sleep is not to come yet; and so does one that is about to sleep and will not see a reason not to. What breaks this is
that the list is emptied before a reader sleeps, that what a `qread` puts back fills the queue before a writer does, and
that blocks go away without a look at `Qflow`.
-/

namespace Node9.Qio.Flow
open Buf Steps List
open Option hiding mem_map mem_map_of_mem

structure Inv (s : St) : Prop where
  sound : Sound s.q
  limit : 2 ≤ s.q.limit
  fits : alloc s.q.bfirst + alloc s.reader.left < 2 ^ 31
  apart : ∀ a ∈ addrs s.reader.left, a ∉ addrs s.q.bfirst
  wdrowsy : s.writer = .drowsy → s.q.flow = true ∨ s.q.closed = true ∨ s.q.len < s.q.limit
  wasleep : s.writer = .asleep → 0 < s.wr ∨
    (s.q.flow = true ∧ s.q.closed = false ∧ (s.q.half ≤ s.q.len ∨ ∃ bs, s.reader = .copying bs))
  rdrowsy : s.reader = .drowsy → s.q.starve = true ∨ s.q.closed = true ∨ s.q.bfirst ≠ []
  rasleep : s.reader = .asleep → 0 < s.rr ∨ (s.q.starve = true ∧ s.q.closed = false ∧ s.q.bfirst = [])

@[simp] theorem cleared_self (b : Bool) : cleared b b = 0 := by cases b <;> rfl

theorem half_eq {q : Fifo} (hl : 2 ≤ q.limit) : q.half = q.limit / 2 := Int.tdiv_eq_ediv_of_nonneg (by omega)

theorem len_eq {q : Fifo} (h : Sound q) (hf : alloc q.bfirst < 2 ^ 31) : q.len = alloc q.bfirst := by
  rw [h.len]
  exact int_of_lt (by omega) (by omega)

namespace Inv
variable {s : St} {q₁ q' : Fifo} {reader : Reader} (h : Inv s)
include h

theorem noneLost : NoneLost s := by
  refine ⟨fun hw hor => ?_, fun hr hor => ?_⟩
  · rcases h.wasleep hw with hwr | ⟨-, hc, hlen | hcopy⟩
    · exact .inl hwr
    · rcases hor with hlt | hcl
      · omega
      · rw [hc] at hcl
        cases hcl
    · exact .inr hcopy
  · rcases h.rasleep hr with hrr | ⟨-, hc, hnil⟩
    · exact hrr
    · rcases hor with hne | hcl
      · exact absurd hnil hne
      · rw [hc] at hcl
        cases hcl

theorem len : s.q.len = alloc s.q.bfirst := len_eq h.sound (by have := h.fits; omega)

theorem restart {bound : Int} (hf : Frame s.q q₁) (hlo : q₁.half ≤ bound) (hhi : bound ≤ q₁.limit)
    (hfit : alloc q₁.bfirst + alloc reader.left < 2 ^ 31) (hapart : ∀ a ∈ addrs reader.left, a ∉ addrs q₁.bfirst)
    (hlow : s.writer = .drowsy → s.q.flow = true ∨ s.q.closed = true ∨ q₁.len < q₁.limit)
    (hr : reader = .drowsy → q₁.starve = true ∨ q₁.closed = true ∨ q₁.bfirst ≠ [])
    (hr' : reader = .asleep → 0 < s.rr ∨ (q₁.starve = true ∧ q₁.closed = false ∧ q₁.bfirst = [])) :
    Inv { s.set (q₁.restart bound) with reader := reader } := by
  have hlimit : 2 ≤ q₁.limit := by rw [hf.limit]; exact h.limit
  by_cases hre : q₁.flow = true ∧ q₁.len < bound
  · have heq : q₁.restart bound = { q₁ with flow := false } := if_pos hre
    have hwr : cleared s.q.flow false = 1 := by rw [← hf.flow, hre.1]; rfl
    rw [heq]
    refine ⟨hf.sound.congr rfl rfl rfl rfl, hlimit, hfit, hapart, fun _ => .inr (.inr ?_), fun _ => .inl ?_, hr,
      fun ha => (hr' ha).imp_left fun hrr => ?_⟩
    · exact lt_of_lt_of_le hre.2 hhi
    · show 0 < s.wr + cleared s.q.flow false
      omega
    · exact lt_of_lt_of_le hrr (Nat.le_add_right _ _)
  have heq : q₁.restart bound = q₁ := if_neg hre
  rw [heq]
  refine ⟨hf.sound, hlimit, hfit, hapart, fun hw => ?_, fun hw => ?_, hr,
    fun ha => (hr' ha).imp_left fun hrr => lt_of_lt_of_le hrr (Nat.le_add_right _ _)⟩
  · have hw' := hlow hw
    rw [← hf.flow, ← hf.closed] at hw'
    exact hw'
  · rcases h.wasleep hw with hwr | ⟨hfl, hc, -⟩
    · exact .inl (lt_of_lt_of_le hwr (Nat.le_add_right _ _))
    · have hfl' : q₁.flow = true := hf.flow.trans hfl
      have hlen : ¬ q₁.len < bound := fun hlt => hre ⟨hfl', hlt⟩
      exact .inr ⟨hfl', hf.closed.trans hc, .inl (by show q₁.half ≤ q₁.len; omega)⟩

theorem drained {bound : Int} (hd : Drains s.q q₁ []) (hlo : q₁.half ≤ bound) (hhi : bound ≤ q₁.limit)
    (hleft : reader.left = [] ∨ reader = s.reader)
    (hr : reader = .drowsy → q₁.starve = true ∨ q₁.closed = true ∨ q₁.bfirst ≠ [])
    (hr' : reader = .asleep → 0 < s.rr ∨ (q₁.starve = true ∧ q₁.closed = false ∧ q₁.bfirst = [])) :
    Inv { s.set (q₁.restart bound) with reader := reader } := by
  have hle := hd.le
  have hfits := h.fits
  rw [alloc_nil] at hle
  refine h.restart hd.toFrame hlo hhi ?_ ?_ (fun hw => ?_) hr hr'
  · rcases hleft with hnil | rfl
    · rw [hnil, alloc_nil]
      omega
    · omega
  · rcases hleft with hnil | rfl
    · rw [hnil]
      exact fun a ha => absurd ha not_mem_nil
    · exact fun a ha hmem => h.apart a ha (hd.addrs hmem)
  · refine (h.wdrowsy hw).imp_right (Or.imp_right fun hlt => ?_)
    rw [h.len] at hlt
    rw [len_eq hd.sound (by omega), hd.limit]
    omega

theorem emptied (hd : Drains s.q q₁ []) (hsound : Sound q') (hclosed : q'.closed = q₁.closed)
    (hlimit : q'.limit = q₁.limit) (hflow : q'.flow = q₁.flow) (hnil : q'.bfirst = []) (hstarve : q'.starve = true ∨
    q'.closed = true)
    (hkeeps : s.q.starve = true → q'.starve = true) (hb : bytes s.q.bfirst = []) (hh : ¬ s.Hollow)
    (hreader : reader = s.reader ∨ (s.reader = .busy ∧ reader ≠ .asleep ∧ reader.left = [])) :
    Inv { s.set q' with reader := reader } := by
  have hlimit' : q'.limit = s.q.limit := hlimit.trans hd.limit
  have hclosed' : q'.closed = s.q.closed := hclosed.trans hd.closed
  have hflow' : q'.flow = s.q.flow := hflow.trans hd.flow
  have hlen : q'.len = 0 := by
    rw [len_eq hsound (by rw [hnil, alloc_nil]; decide), hnil, alloc_nil]
    rfl
  have hlim := h.limit
  have hfits := h.fits
  refine ⟨hsound, by show 2 ≤ q'.limit; omega, ?_, ?_, fun _ => .inr (.inr ?_), fun hw => ?_, fun _ => ?_, fun ha => ?_⟩
  · show alloc q'.bfirst + alloc reader.left < 2 ^ 31
    rw [hnil, alloc_nil]
    rcases hreader with rfl | ⟨-, -, hleft⟩
    · omega
    · rw [hleft, alloc_nil]
      decide
  · show ∀ a ∈ addrs reader.left, a ∉ addrs q'.bfirst
    rw [hnil]
    exact fun a _ => not_mem_nil
  · show q'.len < q'.limit
    omega
  · rcases h.wasleep hw with hwr | ⟨hfl, hc, hhalf | hcopy⟩
    · exact .inl (lt_of_lt_of_le hwr (Nat.le_add_right _ _))
    · -- a writer that sleeps at a list with blocks, of which none has bytes
      have hne : s.q.bfirst ≠ [] := fun hnil' => by
        rw [h.len, hnil', alloc_nil, half_eq hlim, Nat.cast_zero] at hhalf
        omega
      by_cases hwr : s.wr = 0
      · exact absurd ⟨hw, hwr, hne, hb⟩ hh
      · exact .inl (lt_of_lt_of_le (Nat.pos_of_ne_zero hwr) (Nat.le_add_right _ _))
    · refine .inr ⟨hflow'.trans hfl, hclosed'.trans hc, .inr ?_⟩
      rcases hreader with rfl | ⟨hbusy, -⟩
      · exact hcopy
      · obtain ⟨bs, hbs⟩ := hcopy
        cases hbusy.symm.trans hbs
  · exact hstarve.imp_right .inl
  · rcases hreader with rfl | ⟨-, hne, -⟩
    · rcases h.rasleep ha with hrr | ⟨hst, hc, -⟩
      · exact .inl (lt_of_lt_of_le hrr (Nat.le_add_right _ _))
      · exact .inr ⟨hkeeps hst, hclosed'.trans hc, hnil⟩
    · exact absurd ha hne

theorem grown {writer : Writer} (hsound : Sound q') (hclosed : q'.closed = s.q.closed) (hlimit : q'.limit = s.q.limit)
    (hfit : alloc q'.bfirst + alloc s.reader.left < 2 ^ 31) (hle : alloc s.q.bfirst ≤ alloc q'.bfirst)
    (hapart : ∀ a ∈ addrs s.reader.left, a ∉ addrs q'.bfirst) (hne : q'.bfirst ≠ []) (hfed : q'.starve = false)
    (hflow : s.q.flow = true → q'.flow = true)
    (hlow : writer = .drowsy → s.writer = .drowsy ∧ (q'.limit ≤ q'.len → q'.flow = true))
    (hasleep : writer = .asleep → s.writer = .asleep) : Inv { s.set q' with writer := writer } := by
  have hlen : q'.len = alloc q'.bfirst := len_eq hsound (by omega)
  refine ⟨hsound, hlimit ▸ h.limit, hfit, hapart, fun hw => ?_, fun hw => ?_, fun _ => .inr (.inr hne), fun ha => ?_⟩
  · by_cases hlt : q'.len < q'.limit
    · exact .inr (.inr hlt)
    · exact .inl ((hlow hw).2 (Int.not_lt.1 hlt))
  · rcases h.wasleep (hasleep hw) with hwr | ⟨hfl, hc, hor⟩
    · exact .inl (lt_of_lt_of_le hwr (Nat.le_add_right _ _))
    refine .inr ⟨hflow hfl, hclosed.trans hc, hor.imp_left fun hhalf => ?_⟩
    rw [h.len] at hhalf
    have hsame : q'.half = s.q.half := by rw [Fifo.half, Fifo.half, hlimit]
    show q'.half ≤ q'.len
    rw [hsame, hlen]
    omega
  · left
    rcases h.rasleep ha with hrr | ⟨hst, -, -⟩
    · exact lt_of_lt_of_le hrr (Nat.le_add_right _ _)
    · show 0 < s.rr + cleared s.q.starve q'.starve
      rw [hst, hfed]
      exact Nat.succ_pos _

end Inv

section Flows
variable (q : Fifo) (bound : Int)

theorem flows_limit : (q.flows bound).limit = q.limit := by
  unfold Fifo.flows
  split <;> rfl

theorem flows_starve : (q.flows bound).starve = q.starve := by
  unfold Fifo.flows
  split <;> rfl

theorem flows_flow (h : q.flow = true) : (q.flows bound).flow = true := by
  unfold Fifo.flows
  split
  · rfl
  · exact h

variable {bound} in
theorem flows_full (hb : bound ≤ q.limit) (hle : (q.flows bound).limit ≤ (q.flows bound).len) :
    (q.flows bound).flow = true := by
  unfold Fifo.flows at hle ⊢
  by_cases hc : bound ≤ q.len
  · rw [if_pos hc]
  · rw [if_neg hc] at hle
    omega

end Flows

theorem half_le {q : Fifo} (hl : 2 ≤ q.limit) : q.half ≤ q.limit := by
  rw [half_eq hl]
  omega

@[simp] theorem St.set_self (s : St) : s.set s.q = s := by
  simp [St.set]

theorem qwait_cases {α : Type} (q : Fifo) :
    (q.closed = true ∧ ((q.qwait : Got α × Fifo).1 = .eof ∨ (q.qwait : Got α × Fifo).1 = .error) ∧
      (q.qwait : Got α × Fifo).2 = { q with eof := q.eof + 1 }) ∨
    (q.closed = false ∧ (q.qwait : Got α × Fifo) = (.asleep, q.starved)) := by
  unfold Fifo.qwait
  by_cases hc : q.closed = true
  · rw [if_pos hc]
    refine .inl ⟨hc, ?_, rfl⟩
    dsimp only
    split
    · exact .inr rfl
    · exact .inl rfl
  · rw [if_neg hc]
    exact .inr ⟨Bool.eq_false_iff.2 hc, rfl⟩

theorem taken_drains {q : Fifo} (h : Sound q) (m : Mode) (len : Nat) :
    (∃ q₁, Drains q q₁ [] ∧ q₁.bfirst = [] ∧ bytes q.bfirst = [] ∧ (m.coalesce = false → q.bfirst = []) ∧
      q.taken m len = q₁.qwait) ∨
      ∃ out bs, (q.taken m len).1 = .data (out, bs) ∧ Drains q (q.taken m len).2 bs ∧
        ∀ a ∈ addrs bs, a ∉ addrs (q.taken m len).2.bfirst := by
  have hgo : Drains q (if m.coalesce then q.goAway q.bfirst else q) [] ∧
      Reads q (if m.coalesce then q.goAway q.bfirst else q) [] ∧
      (m.coalesce = false → (if m.coalesce then q.goAway q.bfirst else q) = q) := by
    split
    case isTrue hco => exact ⟨.goAway h rfl, .goAway h rfl, fun hf => by cases hco.symm.trans hf⟩
    case isFalse => exact ⟨.refl h, .refl h, fun _ => rfl⟩
  have hleft := (h.taken m len).2
  unfold Fifo.taken at hleft ⊢
  dsimp only at hleft ⊢
  generalize (if m.coalesce then q.goAway q.bfirst else q) = q₁ at hgo hleft
  obtain ⟨hd, hr, hsame⟩ := hgo
  split at hleft
  case h_1 hq =>
    have hb := hr.bytes
    rw [hq] at hb
    exact .inl ⟨q₁, hd, hq, hb.symm, fun hco => hsame hco ▸ hq, rfl⟩
  case h_2 b rest hq =>
    right
    refine ⟨_, _, rfl, ?_, fun a ha => ?_⟩
    · have hf := Drains.first hd.sound hq m len
      have hle := hf.le
      have hle' := alloc_bl2mem (q₁.first m len b rest).1 len
      have hall := hd.trans hf
      refine ⟨hall.toFrame, ?_, hall.addrs⟩
      show alloc (q₁.first m len b rest).2.bfirst + alloc (bl2mem (q₁.first m len b rest).1 len).2 ≤ alloc q.bfirst
      have hle₂ := hall.le
      rw [nil_append] at hle₂
      omega
    · obtain ⟨c, hc, rfl⟩ := mem_map.1 ha
      exact hleft _ rfl c hc

namespace Inv
variable {m : Mode} {s : St} {q₁ : Fifo} (h : Inv s)
include h

theorem taking {bound : Int} (hd : Drains s.q q₁ []) (hlo : q₁.half ≤ bound) (hhi : bound ≤ q₁.limit)
    (hmiss : s.Missing → q₁.bfirst ≠ []) : Inv (s.set (q₁.restart bound)) := by
  refine h.drained hd hlo hhi (.inr rfl) (fun hr => ?_) (fun hr => ?_)
  · by_cases hst : s.q.starve = true
    · exact .inl (hd.starve.trans hst)
    · by_cases hc : s.q.closed = true
      · exact .inr (.inl (hd.closed.trans hc))
      · exact .inr (.inr (hmiss ⟨hr, Bool.eq_false_iff.2 hst, Bool.eq_false_iff.2 hc⟩))
  · refine (h.rasleep hr).imp_right fun hrest => ⟨hd.starve.trans hrest.1, hd.closed.trans hrest.2.1, ?_⟩
    have hsub := hd.addrs
    rw [hrest.2.2] at hsub
    exact map_eq_nil_iff.1 (subset_nil.1 hsub)

omit h in
theorem not_hollow (hq : s.q.bfirst = []) : ¬ s.Hollow := fun hh => hh.2.2.1 hq

theorem qget (hc : Act.qget.Careful m s) : Inv (s.set s.q.qget.2) := by
  unfold Fifo.qget
  split
  case h_1 hq =>
    exact h.emptied (.refl h.sound) h.sound.starved rfl rfl rfl hq (.inl rfl) (fun _ => rfl) (by rw [hq]; rfl)
      (not_hollow hq) (.inl rfl)
  case h_2 b rest hq =>
    have hd := (Drains.pop h.sound hq).none
    refine h.taking hd le_rfl (half_le (by rw [hd.limit]; exact h.limit)) fun hm hnil => hc hm ?_
    rw [hq, show rest = [] from hnil]
    rfl

theorem qdiscard {len : Int} (hc : (Act.qdiscard len).Careful m s) : Inv (s.set (s.q.qdiscard len).2) := by
  have hd := Drains.discardLoop h.sound rfl len 0
  refine h.taking hd (half_le (by rw [hd.limit]; exact h.limit)) le_rfl fun hm hnil => hc hm ?_
  have hemp := empties_of_discarded rfl hnil
  rwa [Int.sub_zero] at hemp

theorem qconsume {len : Nat} (hc : (Act.qconsume len).Careful m s) : Inv (s.set (s.q.qconsume m.toKind len).2) := by
  have hskip := Drains.skipEmpty h.sound rfl
  have hread := Reads.skipEmpty h.sound rfl
  have hlist := skipEmpty_bfirst (q := s.q) rfl
  unfold Fifo.qconsume
  dsimp only
  generalize Fifo.skipEmpty s.q s.q.bfirst = q₁ at hskip hread hlist
  split
  case h_1 hq =>
    have hb := hread.bytes
    rw [hq] at hb
    exact h.emptied hskip hskip.sound.starved rfl rfl rfl hq (.inl rfl) (fun _ => rfl) hb.symm hc.1 (.inl rfl)
  case h_2 b rest hq =>
    have hle : (if b.BLEN < len then b.BLEN else len) ≤ b.BLEN := by
      split <;> omega
    have hall : (if b.BLEN < len then b.BLEN else len) = b.BLEN → b.BLEN ≤ len := by
      split <;> omega
    generalize (if b.BLEN < len then b.BLEN else len) = n at hle hall
    have hfront : Sound { q₁ with bfirst := b.skip n :: rest, dlen := int (q₁.dlen - n) } :=
      hskip.sound.front hq hle rfl rfl rfl rfl
    have hd : Drains s.q { q₁ with bfirst := b.skip n :: rest, dlen := int (q₁.dlen - n) } [] :=
      hskip.trans (.front hq hle ⟨hfront, rfl, rfl, rfl, rfl⟩ rfl)
    split
    case isTrue htake =>
      have hpop := (hd.trans (.pop hfront rfl)).none
      refine h.taking hpop le_rfl (half_le (h.limit.trans_eq hpop.limit.symm)) fun hm hnil => hc.2 hm ?_
      unfold Consumes
      rw [← hlist, hq]
      refine ⟨hnil, ?_⟩
      rcases Bool.or_eq_true_iff.1 htake with hmsg | hn
      · exact .inl hmsg
      · exact .inr (hall (of_decide_eq_true hn))
    case isFalse =>
      exact h.taking hd le_rfl (half_le (by rw [hd.limit]; exact h.limit)) fun _ => cons_ne_nil _ _

theorem waits {α : Type} {reader : Reader} (hd : Drains s.q q₁ []) (hq : q₁.bfirst = []) (hb : bytes s.q.bfirst = [])
    (hh : ¬ s.Hollow) (hbusy : s.reader = .busy) (hne : reader ≠ .asleep) (hleft : reader.left = []) :
    Inv { s.set (q₁.qwait : Got α × Fifo).2 with reader := reader } := by
  rcases qwait_cases (α := α) q₁ with ⟨hcl, -, hq'⟩ | ⟨hcl, hq'⟩
  · rw [hq']
    exact h.emptied hd (hd.sound.congr rfl rfl rfl rfl) rfl rfl rfl hq (.inr hcl) (fun hs => hd.starve.trans hs) hb hh
      (.inr ⟨hbusy, hne, hleft⟩)
  · rw [hq']
    exact h.emptied hd hd.sound.starved rfl rfl rfl hq (.inl rfl) (fun _ => rfl) hb hh (.inr ⟨hbusy, hne, hleft⟩)

theorem qread {len : Nat} (hbusy : s.reader = .busy) (hc : (Act.qread len).Careful m s) :
    Inv { s.set (s.q.taken m len).2 with reader := .read (s.q.taken m len).1 } := by
  rcases taken_drains h.sound m len with ⟨q₁, hd, hq, hb, hsame, heq⟩ | ⟨out, bs, hdata, hd, hapart⟩
  · have hh : ¬ s.Hollow := by
      cases hco : m.coalesce with
      | false => exact not_hollow (hsame hco)
      | true => exact hc hco
    rw [heq]
    refine h.waits hd hq hb hh hbusy ?_ ?_
    · rcases qwait_cases (α := Bytes × List Block) q₁ with ⟨-, hor, -⟩ | ⟨-, hor⟩
      · rcases hor with hor | hor <;> rw [hor] <;> exact Reader.noConfusion
      · rw [hor]
        exact Reader.noConfusion
    · rcases qwait_cases (α := Bytes × List Block) q₁ with ⟨-, hor, -⟩ | ⟨-, hor⟩
      · rcases hor with hor | hor <;> rw [hor] <;> rfl
      · rw [hor]
        rfl
  rw [hdata]
  have hle := hd.le
  have hfits := h.fits
  have hlim := h.limit
  refine ⟨hd.sound, by show 2 ≤ (s.q.taken m len).2.limit; rw [hd.limit]; exact hlim,
    by show alloc (s.q.taken m len).2.bfirst + alloc bs < 2 ^ 31; omega, hapart, fun hw => ?_, fun hw => ?_,
    Reader.noConfusion, Reader.noConfusion⟩
  · rcases h.wdrowsy hw with hfl | hcl | hlt
    · exact .inl (hd.flow.trans hfl)
    · exact .inr (.inl (hd.closed.trans hcl))
    · refine .inr (.inr ?_)
      show (s.q.taken m len).2.len < (s.q.taken m len).2.limit
      rw [h.len] at hlt
      rw [len_eq hd.sound (by omega), hd.limit]
      omega
  · rcases h.wasleep hw with hwr | ⟨hfl, hcl, -⟩
    · exact .inl (lt_of_lt_of_le hwr (Nat.le_add_right _ _))
    · exact .inr ⟨hd.flow.trans hfl, hd.closed.trans hcl, .inr ⟨bs, rfl⟩⟩

theorem putback {bs : List Block} (hr : s.reader = .copying bs) (hc : Act.putback.Careful m s) :
    Inv { s.set (s.q.putback m.toKind bs) with reader := .free } := by
  have hleft : s.reader.left = bs := by rw [hr]; rfl
  have hfits := h.fits
  have hapart := h.apart
  rw [hleft] at hfits hapart
  have hsound : Sound (s.q.leftover m.toKind bs) :=
    h.sound.leftover m.toKind fun c hc => hapart _ (mem_map_of_mem hc)
  have hres : Frame s.q (s.q.leftover m.toKind bs) ∧
      alloc (s.q.leftover m.toKind bs).bfirst ≤ alloc s.q.bfirst + alloc bs ∧
      (m.msg = true → s.q.leftover m.toKind bs = s.q) := by
    cases bs with
    | nil => exact ⟨⟨hsound, rfl, rfl, rfl, rfl⟩, Nat.le_add_right _ _, fun _ => rfl⟩
    | cons b bs =>
      dsimp only [Fifo.leftover] at hsound ⊢
      by_cases hm : m.msg = true
      · rw [if_pos hm]
        exact ⟨⟨h.sound, rfl, rfl, rfl, rfl⟩, Nat.le_add_right _ _, fun _ => rfl⟩
      · rw [if_neg hm] at hsound ⊢
        refine ⟨⟨hsound, rfl, rfl, rfl, rfl⟩, ?_, fun hm' => absurd hm' hm⟩
        show alloc (b :: s.q.bfirst) ≤ _
        rw [alloc_cons, alloc_cons]
        omega
  obtain ⟨hf, hle, hmsg⟩ := hres
  refine h.restart hf le_rfl (half_le (by rw [hf.limit]; exact h.limit)) ?_ ?_ (fun hw => ?_) Reader.noConfusion
    Reader.noConfusion
  · show alloc (s.q.leftover m.toKind bs).bfirst + 0 < 2 ^ 31
    omega
  · exact fun a ha => absurd ha not_mem_nil
  have hlen : (s.q.leftover m.toKind bs).len = alloc (s.q.leftover m.toKind bs).bfirst := len_eq hsound (by omega)
  rcases hc hw with hfl | hcl | hm | hlt
  · exact .inl hfl
  · exact .inr (.inl hcl)
  · rw [hmsg hm]
    exact h.wdrowsy hw
  · rw [hleft, h.len] at hlt
    refine .inr (.inr ?_)
    rw [hlen, hf.limit]
    omega

theorem qbread {len : Nat} {block : Option Nat} (hbusy : s.reader = .busy) (hd : ∀ a ∈ block.toList,
    a ∉ addrs s.q.bfirst)
    (hc : (Act.qbread len block).Careful m s) :
    Inv { s.set (s.q.qbread m.toKind len block).2 with reader := .bread s.q (s.q.qbread m.toKind len block).1 } := by
  have hfits := h.fits
  have hlim := h.limit
  unfold Fifo.qbread
  split
  case h_1 hq =>
    refine h.waits (.refl h.sound) hq (by rw [hq]; rfl) (not_hollow hq) hbusy ?_ ?_
    · rcases qwait_cases (α := Block) s.q with ⟨-, hor, -⟩ | ⟨-, hor⟩
      · rcases hor with hor | hor <;> rw [hor] <;> simp [Reader.bread, hq]
      · rw [hor]
        exact Reader.noConfusion
    · rcases qwait_cases (α := Block) s.q with ⟨-, hor, -⟩ | ⟨-, hor⟩
      · rcases hor with hor | hor <;> rw [hor] <;> simp [Reader.bread, Reader.left, hq]
      · rw [hor]
        rfl
  case h_2 b rest hq =>
    have hpop := (Drains.pop h.sound hq).none
    have hfree : Inv { s.set ((s.q.pop b rest).restart (s.q.pop b rest).half) with reader := .free } :=
      h.drained hpop le_rfl (half_le (by rw [hpop.limit]; exact hlim)) (.inl rfl) Reader.noConfusion Reader.noConfusion
    by_cases hlt : len < b.BLEN
    · simp only [if_pos hlt]
      split
      · exact hfree
      case isFalse hmsg =>
        cases block with
        | none =>
          rcases hc with hc | hc | hc
          · exact absurd hc hmsg
          · exact absurd rfl hc
          · have := hc b (by rw [hq]; rfl)
            omega
        | some addr =>
          have hnot := hd addr (mem_singleton_self addr)
          rw [hq, addrs_cons, mem_cons, not_or] at hnot
          have hsound : Sound ((s.q.pop b rest).qputback ⟨addr, 0, b.data.drop len, 0⟩) := hpop.sound.qputback hnot.2
          have hsize : alloc (⟨addr, 0, b.data.drop len, 0⟩ :: rest) ≤ alloc s.q.bfirst := by
            rw [hq, alloc_cons, alloc_cons]
            simp only [Block.BALLOC, length_drop]
            omega
          refine h.restart ⟨hsound, rfl, rfl, rfl, rfl⟩ le_rfl (half_le hlim) ?_
            (fun a ha => absurd ha not_mem_nil)
            (fun hw => ?_) Reader.noConfusion Reader.noConfusion
          · show alloc (⟨addr, 0, b.data.drop len, 0⟩ :: rest) + 0 < 2 ^ 31
            omega
          · refine (h.wdrowsy hw).imp_right (Or.imp_right fun hlow => ?_)
            rw [h.len] at hlow
            rw [len_eq hsound (by show alloc (⟨addr, 0, b.data.drop len, 0⟩ :: rest) < 2 ^ 31; omega)]
            show ((alloc (⟨addr, 0, b.data.drop len, 0⟩ :: rest) : Nat) : Int) < s.q.limit
            omega
    · simp only [if_neg hlt]
      exact hfree

theorem added {writer : Writer} {bs : List Block} {q' : Fifo} (hbs : bs ≠ []) (hn : (addrs bs).Nodup)
    (hd : ∀ a ∈ addrs bs, a ∉ addrs s.q.bfirst ∧ a ∉ addrs s.reader.left) (hroom : s.Room bs)
    (hq : s.q.append bs = some q₁) (hsound : Sound q') (hb : q'.bfirst = q₁.bfirst) (hclosed : q'.closed = q₁.closed)
    (hlimit : q'.limit = q₁.limit) (hfed : q'.starve = false) (hflow : q₁.flow = true → q'.flow = true)
    (hlow : writer = .drowsy → s.writer = .drowsy ∧ (q'.limit ≤ q'.len → q'.flow = true))
    (hasleep : writer = .asleep → s.writer = .asleep) : Inv { s.set q' with writer := writer } := by
  obtain ⟨q₂, happ, -, heq⟩ := h.sound.append hbs hn fun a ha => (hd a ha).1
  cases hq.symm.trans happ
  have hlist : q'.bfirst = s.q.bfirst ++ bs := by rw [hb, heq]
  unfold St.Room at hroom
  refine h.grown hsound (hclosed.trans (by rw [heq])) (hlimit.trans (by rw [heq])) ?_ ?_ ?_ ?_ hfed (fun hfl => ?_) hlow
    hasleep
  · rw [hlist, alloc_append]
    omega
  · rw [hlist, alloc_append]
    omega
  · rw [hlist, addrs_append]
    intro a ha hmem
    rcases mem_append.1 hmem with hmem | hmem
    · exact h.apart a ha hmem
    · exact (hd a hmem).2 ha
  · rw [hlist]
    exact fun hnil => hbs (append_eq_nil_iff.1 hnil).2
  · exact hflow (by rw [heq]; exact hfl)

theorem letGo : Inv { s with writer := .free } :=
  ⟨h.sound, h.limit, h.fits, h.apart, Writer.noConfusion, Writer.noConfusion, h.rdrowsy, h.rasleep⟩

theorem queue {b : Block} {s' : St} (hd : b.addr ∉ addrs s.q.bfirst ∧ b.addr ∉ addrs s.reader.left) (hroom : s.Room [b])
    (hs : s.queue m b = some s') : Inv s' := by
  unfold St.queue at hs
  split at hs
  case isFalse => cases hs
  case isTrue hfree =>
    obtain ⟨r, hr, rfl⟩ := map_eq_some_iff.1 hs
    have hsame : Inv { s.set s.q with writer := .free } := by
      rw [St.set_self]
      exact h.letGo
    unfold Flow.queue at hr
    split at hr
    · cases hr
      exact hsame
    split at hr
    · cases hr
      exact hsame
    split at hr
    · cases hr
      exact hsame
    obtain ⟨q₁, happ, rfl⟩ := map_eq_some_iff.1 hr
    have hdb : ∀ a ∈ addrs [b], a ∉ addrs s.q.bfirst ∧ a ∉ addrs s.reader.left := fun a ha => by
      obtain rfl := mem_singleton.1 ha
      exact hd
    obtain ⟨q₂, happ', hs₂, -⟩ :=
      h.sound.append (cons_ne_nil b []) (nodup_singleton _) fun a ha => (hdb a ha).1
    cases happ.symm.trans happ'
    exact h.added (cons_ne_nil b []) (nodup_singleton _) hdb hroom happ hs₂.fed rfl rfl rfl rfl id
      Writer.noConfusion Writer.noConfusion

theorem qproduce {block : Option Nat} {p : Bytes} {r : Int × Fifo}
    (hd : ∀ a ∈ block.toList, a ∉ addrs s.q.bfirst ∧ a ∉ addrs s.reader.left) (hroom : s.Room [⟨0, 0, p, 0⟩])
    (hr : s.q.qproduce block p = some r) : Inv (s.set r.2) := by
  have hsame : Inv (s.set s.q) := by rwa [St.set_self]
  unfold Fifo.qproduce at hr
  split at hr
  · cases hr
    exact hsame
  split at hr
  · cases hr
    have hwr : s.wr + cleared s.q.flow true = s.wr := by cases s.q.flow <;> rfl
    refine ⟨h.sound.congr rfl rfl rfl rfl, h.limit, h.fits, h.apart, fun _ => .inl rfl, fun hw => ?_, h.rdrowsy,
      fun ha => ?_⟩
    · refine (h.wasleep hw).imp (fun hwr' => ?_) fun hrest => ⟨rfl, hrest.2⟩
      exact lt_of_lt_of_le hwr' (Nat.le_add_right _ _)
    · exact (h.rasleep ha).imp_left fun hrr => lt_of_lt_of_le hrr (Nat.le_add_right _ _)
  cases block with
  | none =>
    cases hr
    exact hsame
  | some addr =>
    obtain ⟨q₁, happ, rfl⟩ := map_eq_some_iff.1 hr
    have hn : (addrs [⟨addr, 0, p, 0⟩]).Nodup := nodup_singleton addr
    obtain ⟨q₂, happ', hs₂, -⟩ := h.sound.append (cons_ne_nil _ _) hn fun a ha => (hd a ha).1
    cases happ.symm.trans happ'
    refine h.added (cons_ne_nil _ _) hn hd hroom happ (hs₂.fed.flows _) (Fifo.flows_bfirst _ _)
      (Fifo.flows_closed _ _) ?_ ?_ (fun hfl => ?_) (fun hw => ⟨hw, ?_⟩) id
    · exact flows_limit _ _
    · exact flows_starve _ _
    · exact flows_flow _ _ hfl
    · exact flows_full _ le_rfl

theorem qpass {bs : List Block} {r : Int × Fifo} (hn : (addrs bs).Nodup)
    (hd : ∀ a ∈ addrs bs, a ∉ addrs s.q.bfirst ∧ a ∉ addrs s.reader.left) (hroom : s.Room bs)
    (hr : s.q.qpass bs = some r) : Inv (s.set r.2) := by
  have hsame : Inv (s.set s.q) := by rwa [St.set_self]
  unfold Fifo.qpass at hr
  split at hr
  · cases hr
    exact hsame
  split at hr
  · cases hr
    exact hsame
  cases bs with
  | nil => cases hr
  | cons b bs =>
    obtain ⟨q₁, happ, rfl⟩ := map_eq_some_iff.1 hr
    obtain ⟨q₂, happ', hs₂, heq⟩ := h.sound.append (cons_ne_nil b bs) hn fun a ha => (hd a ha).1
    cases happ.symm.trans happ'
    have hlim : 2 ≤ q₁.limit := by rw [heq]; exact h.limit
    refine h.added (cons_ne_nil _ _) hn hd hroom happ (hs₂.flows _).fed (Fifo.flows_bfirst _ _)
      (Fifo.flows_closed _ _) (flows_limit _ _) rfl (flows_flow _ _) (fun hw => ⟨hw, ?_⟩) id
    exact flows_full _ (half_le hlim)

theorem readerTo {reader : Reader} (hcopy : ∀ bs, s.reader ≠ .copying bs) (hleft : reader.left = [])
    (hr : reader = .drowsy → s.q.starve = true ∨ s.q.closed = true ∨ s.q.bfirst ≠ [])
    (hr' : reader = .asleep → 0 < s.rr ∨ (s.q.starve = true ∧ s.q.closed = false ∧ s.q.bfirst = [])) :
    Inv { s with reader := reader } := by
  have hfits := h.fits
  refine ⟨h.sound, h.limit, ?_, ?_, h.wdrowsy, fun hw => ?_, hr, hr'⟩
  · show alloc s.q.bfirst + alloc reader.left < 2 ^ 31
    rw [hleft, alloc_nil]
    omega
  · show ∀ a ∈ addrs reader.left, a ∉ addrs s.q.bfirst
    rw [hleft]
    exact fun a ha => absurd ha not_mem_nil
  · refine (h.wasleep hw).imp_right fun hrest => ⟨hrest.1, hrest.2.1, ?_⟩
    rcases hrest.2.2 with hhalf | ⟨bs, hbs⟩
    · exact .inl hhalf
    · exact absurd hbs (hcopy bs)

theorem writerTo {writer : Writer} (hd : writer ≠ .drowsy) (ha : writer ≠ .asleep) : Inv { s with writer := writer } :=
  ⟨h.sound, h.limit, h.fits, h.apart, fun hw => absurd hw hd, fun hw => absurd hw ha, h.rdrowsy, h.rasleep⟩

theorem rsleep (hr : s.reader = .drowsy) : Inv { s with reader := if notempty s.q then .busy else .asleep } := by
  have hcopy : ∀ bs, s.reader ≠ .copying bs := fun bs hbs => by cases hr.symm.trans hbs
  by_cases hn : notempty s.q = true
  · rw [if_pos hn]
    exact h.readerTo hcopy rfl Reader.noConfusion Reader.noConfusion
  rw [if_neg hn]
  refine h.readerTo hcopy rfl Reader.noConfusion fun _ => .inr ?_
  have hc : s.q.closed = false := by
    by_contra hc
    exact hn (by rw [notempty, Bool.of_not_eq_false hc, Bool.true_or])
  have hnil : s.q.bfirst = [] := by
    by_contra hne
    exact hn (by rw [notempty, isEmpty_eq_false_iff.2 hne, Bool.not_false, Bool.or_true])
  refine ⟨?_, hc, hnil⟩
  rcases h.rdrowsy hr with hst | hcl | hne
  · exact hst
  · cases hc.symm.trans hcl
  · exact absurd hnil hne

theorem wflag : Inv { s with q := { s.q with flow := true }, writer := .drowsy } :=
  ⟨h.sound.congr rfl rfl rfl rfl, h.limit, h.fits, h.apart, fun _ => .inl rfl, Writer.noConfusion, h.rdrowsy, h.rasleep⟩

theorem wsleep (hw : s.writer = .drowsy) :
    Inv { s with writer := if qnotfull s.q.toQueue then .checking else .asleep } := by
  by_cases hn : qnotfull s.q.toQueue = true
  · rw [if_pos hn]
    exact h.writerTo Writer.noConfusion Writer.noConfusion
  rw [if_neg hn]
  unfold qnotfull at hn
  rw [Bool.or_eq_true, not_or, decide_eq_true_iff] at hn
  have hcl : s.q.closed = false := Bool.eq_false_iff.2 hn.2
  have hhalf := half_le h.limit
  refine ⟨h.sound, h.limit, h.fits, h.apart, Writer.noConfusion, fun _ => .inr ⟨?_, hcl, .inl ?_⟩, h.rdrowsy,
    h.rasleep⟩
  · rcases h.wdrowsy hw with hfl | hc | hlt
    · exact hfl
    · exact absurd hc hn.2
    · exact absurd hlt hn.1
  · exact hhalf.trans (Int.not_lt.1 hn.1)

theorem qhangup (msg : Bytes) : Inv { s with q := Flow.qhangup msg s.q, rr := s.rr + 1, wr := s.wr + 1 } :=
  ⟨h.sound.congr rfl rfl rfl rfl, h.limit, h.fits, h.apart, fun _ => .inr (.inl rfl), fun _ => .inl (Nat.succ_pos _),
    fun _ => .inr (.inl rfl), fun _ => .inl (Nat.succ_pos _)⟩

theorem qclose : Inv { s with q := s.q.qclose, rr := s.rr + 1, wr := s.wr + 1 } := by
  have hfits := h.fits
  refine ⟨.empty rfl rfl rfl, h.limit, ?_, fun _ _ => not_mem_nil, fun _ => .inr (.inl rfl),
    fun _ => .inl (Nat.succ_pos _), fun _ => .inr (.inl rfl), fun _ => .inl (Nat.succ_pos _)⟩
  show 0 + alloc s.reader.left < 2 ^ 31
  omega

theorem wakeRr : Inv { s with rr := s.rr - 1, reader := if s.reader = .asleep then .busy else s.reader } := by
  by_cases ha : s.reader = .asleep
  · rw [if_pos ha]
    have hinv : Inv { s with reader := .busy } :=
      h.readerTo (fun bs hbs => by cases ha.symm.trans hbs) rfl Reader.noConfusion Reader.noConfusion
    exact ⟨hinv.sound, hinv.limit, hinv.fits, hinv.apart, hinv.wdrowsy, hinv.wasleep, Reader.noConfusion,
      Reader.noConfusion⟩
  · rw [if_neg ha]
    exact ⟨h.sound, h.limit, h.fits, h.apart, h.wdrowsy, h.wasleep, h.rdrowsy, fun ha' => absurd ha' ha⟩

theorem wakeWr : Inv { s with wr := s.wr - 1, writer := if s.writer = .asleep then .checking else s.writer } := by
  by_cases ha : s.writer = .asleep
  · rw [if_pos ha]
    have hinv : Inv { s with writer := .checking } := h.writerTo Writer.noConfusion Writer.noConfusion
    exact ⟨hinv.sound, hinv.limit, hinv.fits, hinv.apart, Writer.noConfusion, Writer.noConfusion, hinv.rdrowsy,
      hinv.rasleep⟩
  · rw [if_neg ha]
    exact ⟨h.sound, h.limit, h.fits, h.apart, h.wdrowsy, fun ha' => absurd ha' ha, h.rdrowsy, h.rasleep⟩

end Inv

theorem step_inv {m : Mode} {s s' : St} {a : Act} (h : Inv s) (hc : a.Careful m s) (hs : step m s a = some s') :
    Inv s' := by
  unfold step at hs
  split at hs
  case isFalse => cases hs
  case isTrue hown =>
    obtain ⟨⟨hn, hd⟩, -⟩ := hown
    cases a with
    | rlock =>
      dsimp only [Act.exec] at hs
      split at hs
      · rename_i hr
        cases hs
        exact h.readerTo (fun bs hbs => by cases hr.symm.trans hbs) rfl Reader.noConfusion Reader.noConfusion
      · cases hs
    | qread len =>
      dsimp only [Act.exec] at hs
      split at hs
      · rename_i hr
        cases hs
        exact h.qread hr hc
      · cases hs
    | putback =>
      dsimp only [Act.exec] at hs
      split at hs
      · rename_i bs hr
        cases hs
        exact h.putback hr hc
      · cases hs
    | qbread len block =>
      dsimp only [Act.exec] at hs
      split at hs
      · rename_i hr
        cases hs
        exact h.qbread hr (fun x hx => (hd x hx).1) hc
      · cases hs
    | rsleep =>
      dsimp only [Act.exec] at hs
      split at hs
      · rename_i hr
        cases hs
        exact h.rsleep hr
      · cases hs
    | rinterrupt =>
      dsimp only [Act.exec] at hs
      split at hs
      · rename_i hr
        cases hs
        refine h.readerTo (fun bs hbs => ?_) rfl Reader.noConfusion Reader.noConfusion
        rcases hr with hr | hr <;> cases hr.symm.trans hbs
      · cases hs
    | qget =>
      cases hs
      exact h.qget hc
    | qconsume len =>
      cases hs
      exact h.qconsume hc
    | qdiscard len =>
      cases hs
      exact h.qdiscard (m := m) hc
    | qbwrite b => exact h.queue (hd b.addr (mem_singleton_self _)) hc hs
    | qwrite p len sofar block =>
      dsimp only [Act.exec] at hs
      cases block with
      | none =>
        dsimp only at hs
        split at hs
        · cases hs
          exact h
        · cases hs
      | some addr =>
        dsimp only at hs
        split at hs
        · cases hs
        · exact h.queue (b := piece Maxatomic p len sofar addr) (hd addr (mem_singleton_self addr)) hc hs
    | wcheck =>
      dsimp only [Act.exec] at hs
      split at hs
      · cases hs
        refine h.writerTo ?_ ?_
        · split <;> exact Writer.noConfusion
        · split <;> exact Writer.noConfusion
      · cases hs
    | wflag =>
      dsimp only [Act.exec] at hs
      split at hs
      · cases hs
        exact h.wflag
      · cases hs
    | wsleep =>
      dsimp only [Act.exec] at hs
      split at hs
      · rename_i hw
        cases hs
        exact h.wsleep hw
      · cases hs
    | winterrupt =>
      dsimp only [Act.exec] at hs
      split at hs
      · cases hs
        exact h.letGo
      · cases hs
    | qproduce block p =>
      obtain ⟨r, hr, rfl⟩ := map_eq_some_iff.1 hs
      exact h.qproduce hd hc hr
    | qpass bs =>
      obtain ⟨r, hr, rfl⟩ := map_eq_some_iff.1 hs
      exact h.qpass hn hd hc hr
    | qhangup msg =>
      cases hs
      exact h.qhangup msg
    | qclose =>
      cases hs
      exact h.qclose
    | wakeRr =>
      dsimp only [Act.exec] at hs
      split at hs
      · cases hs
        exact h.wakeRr
      · cases hs
    | wakeWr =>
      dsimp only [Act.exec] at hs
      split at hs
      · cases hs
        exact h.wakeWr
      · cases hs

def St.init (q : Fifo) : St := ⟨q, .free, .free, 0, 0⟩

theorem noneLost_always {m : Mode} {q : Fifo} (hs : Sound q) (hl : 2 ≤ q.limit) (hf : alloc q.bfirst < 2 ^ 31)
    {acts : List Act} (hc : Along (step m) (Act.Careful m) (.init q) acts) :
    Always (step m) NoneLost (.init q) acts := by
  have hinv : Inv (.init q) :=
    ⟨hs, hl, hf, fun _ ha => absurd ha List.not_mem_nil, Writer.noConfusion, Writer.noConfusion, Reader.noConfusion,
      Reader.noConfusion⟩
  exact (hc.always (I := Inv) (fun s a s' hI hG ht => step_inv hI hG ht) hinv).mono fun s hs => hs.noneLost

/-- A `qread` waits for the block that comes. -/
theorem noneLost_always_read :
    Always (step coalescing) NoneLost (.init (.qopen 8)) [.rlock, .qread 1, .rsleep, .qpass [⟨0, 0, [1], 0⟩],
    .wakeRr] :=
  noneLost_always (.qopen 8) (by decide) (by decide) <|
    (along_cons rfl).2 ⟨trivial, (along_cons rfl).2 ⟨fun _ hh => Writer.noConfusion hh.1, (along_cons rfl).2 ⟨trivial,
      (along_cons rfl).2 ⟨(by exact show 0 + 0 + 1 < 2 ^ 31 by decide), (along_cons rfl).2 ⟨trivial, trivial⟩⟩⟩⟩⟩

/-- The first block is for the reader that has set `Qstarve`, and a `qget` has it before the reader sleeps. -/
theorem lost : ¬ ∀ (m : Mode) (q : Fifo) (acts : List Act), Sound q → 2 ≤ q.limit → alloc q.bfirst < 2 ^ 31 →
    Always (step m) NoneLost (.init q) acts := by
  intro hall
  have hlast := (hall coalescing (.qopen 8)
    [.rlock, .qread 1, .qpass [⟨0, 0, [1], 0⟩], .qget, .wakeRr, .rsleep, .qpass [⟨1, 0, [2], 0⟩]] (.qopen 8) (by decide)
    (by decide)).last rfl
  have hrr := hlast.reader (by decide) (.inl (by decide))
  revert hrr
  decide

end Node9.Qio.Flow
