import Node9.Ssl

/-!
# Runs of the readers of an SSL connection

As long as nobody takes `in.q` while an interrupted reader still has header bytes to put back, the records are those of
the stream, each of them once and in order, however it comes in and whoever reads.
-/

namespace Node9.Ssl
open Buf List Option

/-- The bytes of a record on the wire. -/
def Record.wire (r : Record) : Bytes := r.count ++ r.body

/-- The header says how long the body is, and whether there is a pad. -/
def Record.Framed (r : Record) : Prop :=
  ∃ a b, r.body.length = msgLen a b ∧
    (a &&& 0x80 ≠ 0 ∧ r.count = [a, b] ∨ a &&& 0x80 = 0 ∧ ∃ pad, r.count = [a, b, pad])

/-- The payload is what the connection makes of the body as the message `mid`, without the pad. -/
def Record.Opened (secure : Secure) (mid : Nat) (r : Record) : Prop :=
  ∃ blocks bs len, blocks.flatten = r.body ∧ secure mid r.body.length blocks = some (bs, len) ∧
    let pad := r.count.getD 2 0
    r.payload = if pad = 0 then bs.flatten else bs.flatten.take (len - pad.toNat).toNat

def wires (rs : List Record) : Bytes := (rs.map Record.wire).flatten

def payloads (rs : List Record) : Bytes := (rs.map Record.payload).flatten

/-- The stream is the records, the header bytes that a reader has, and what is not processed; the readers have been
given what was in the records, up to what is still there. -/
structure Intact (secure : Secure) (s : St) : Prop where
  received : ∃ p, (∀ u, u ≠ p → (s.reader u).count = []) ∧
    s.received = wires s.records ++ ((s.reader p).count ++ s.unprocessed.flatten)
  framed : ∀ r ∈ s.records, r.Framed
  opened : ∀ (i : Nat) (r : Record), s.records[i]? = some r → r.Opened secure i
  delivered : s.delivered ++ s.processed.flatten = payloads s.records

/-- Nobody takes `in.q` while an interrupted reader has header bytes to put back. -/
def Act.PutBack (s : St) : Act → Prop
  | .lock _ => ∀ u count, s.reader u = .raised count true → count = []
  | _ => True

/-- `consume` and `qtake` split a list at the byte that is asked for. -/
def SplitsExactly : Prop :=
  (∀ l n, (consume l n).1 = l.flatten.take n ∧ (consume l n).2.flatten = l.flatten.drop n) ∧
    ∀ (discard : Bool) (l : List Bytes) (n : Nat), ∃ r, qtake discard l n = some r ∧
      r.1.flatten = l.flatten.take n ∧ r.2.flatten = if discard then [] else l.flatten.drop n

def Reader.busy : Reader → Bool
  | .header _ => true
  | .body _ _ _ => true
  | _ => false

structure Good (secure : Secure) (s : St) : Prop extends Intact secure s where
  owner : ∀ p, (s.reader p).holds = true ↔ s.q = some p
  raised : ∀ p count, s.reader p ≠ .raised count false
  /-- what carries: who has `in.q` is the only one with header bytes -/
  alone : ∀ p, s.q = some p → ∀ u, u ≠ p → (s.reader u).count = []
  busy : ∀ p, (s.reader p).busy = true → s.processed = []

/-- The reader `p` has `in.q`, and `hand` is in its hands. -/
structure Held (secure : Secure) (s : St) (p : Nat) (hand : Bytes) : Prop where
  holds : ∀ u, u ≠ p → (s.reader u).holds = false
  count : ∀ u, u ≠ p → (s.reader u).count = []
  raised : ∀ u count, u ≠ p → s.reader u ≠ .raised count false
  received : s.received = wires s.records ++ (hand ++ s.unprocessed.flatten)
  framed : ∀ r ∈ s.records, r.Framed
  opened : ∀ (i : Nat) (r : Record), s.records[i]? = some r → r.Opened secure i
  delivered : s.delivered ++ s.processed.flatten = payloads s.records

variable {secure : Secure} {s s' : St} {act : Act} {p u n : Nat} {a b : UInt8} {hand count : Bytes} {r : Reader}
  {rec : Record}

theorem wires_concat (rs : List Record) (rec : Record) : wires (rs ++ [rec]) = wires rs ++ rec.wire := by
  simp [wires]

theorem payloads_concat (rs : List Record) (rec : Record) : payloads (rs ++ [rec]) = payloads rs ++ rec.payload := by
  simp [payloads]

theorem go_self : (s.go p r).reader p = r := Function.update_self ..

theorem go_of_ne (h : u ≠ p) : (s.go p r).reader u = s.reader u := Function.update_of_ne h ..

theorem busy_holds (h : r.busy = true) : r.holds = true := by
  cases r <;> first | rfl | cases h

theorem waits_holds {l : List Bytes} (h : r.waits l = true) : r.holds = true := by
  cases r <;> first | rfl | cases h

namespace Good

theorem held (h : Good secure s) (hq : s.q = some p) : Held secure s p (s.reader p).count := by
  obtain ⟨p₀, hothers, hreceived⟩ := h.received
  refine ⟨fun u hu => ?_, h.alone p hq, fun u count _ => h.raised u count, ?_, h.framed, h.opened, h.delivered⟩
  · rw [Bool.eq_false_iff]
    intro hhold
    rw [(h.owner u).1 hhold] at hq
    exact hu (Option.some.inj hq)
  · by_cases hp : p₀ = p
    · exact hp ▸ hreceived
    · rw [hreceived, h.alone p hq p₀ hp, hothers p fun hpp => hp hpp.symm]

/-- A reader goes on with the same bytes in its hands, and with the lock or without it as before. -/
theorem go {r₀ : Reader} (h : Good secure s) (hr : s.reader p = r₀) (hcount : r.count = r₀.count)
    (hholds : r.holds = r₀.holds)
    (hbusy : r.busy = true → s.processed = []) (hraised : ∀ count, r ≠ .raised count false) :
    Good secure (s.go p r) := by
  subst hr
  have hcounts : ∀ u, ((s.go p r).reader u).count = (s.reader u).count := by
    intro u
    by_cases hu : u = p
    · rw [hu, go_self, hcount]
    · rw [go_of_ne hu]
  obtain ⟨p₀, hothers, hreceived⟩ := h.received
  refine ⟨⟨⟨p₀, fun u hu => (hcounts u).trans (hothers u hu), ?_⟩, h.framed, h.opened, h.delivered⟩, fun u => ?_,
    fun u count => ?_, fun q hq u hu => (hcounts u).trans (h.alone q hq u hu), fun u hu => ?_⟩
  · rw [hcounts]
    exact hreceived
  · by_cases hu : u = p
    · rw [hu, go_self, hholds]
      exact h.owner p
    · rw [go_of_ne hu]
      exact h.owner u
  · by_cases hu : u = p
    · rw [hu, go_self]
      exact hraised count
    · rw [go_of_ne hu]
      exact h.raised u count
  · by_cases hup : u = p
    · rw [hup, go_self] at hu
      exact hbusy hu
    · rw [go_of_ne hup] at hu
      exact h.busy u hu

end Good

namespace Held

theorem keep (h : Held secure s p hand) (hq : s.q = some p) (hcount : r.count = hand) (hholds : r.holds = true)
    (hbusy : r.busy = true → s.processed = []) (hraised : ∀ count, r ≠ .raised count false) :
    Good secure (s.go p r) := by
  refine ⟨⟨⟨p, fun u hu => ?_, ?_⟩, h.framed, h.opened, h.delivered⟩, fun u => ?_, fun u count => ?_,
    fun q hq' u hu => ?_, fun u hu => ?_⟩
  · rw [go_of_ne hu]
    exact h.count u hu
  · rw [go_self, hcount]
    exact h.received
  · by_cases hu : u = p
    · rw [hu, go_self]
      exact iff_of_true hholds hq
    · rw [go_of_ne hu, h.holds u hu]
      exact iff_of_false Bool.false_ne_true fun hqu => hu (Option.some.inj (hqu.symm.trans hq))
  · by_cases hu : u = p
    · rw [hu, go_self]
      exact hraised count
    · rw [go_of_ne hu]
      exact h.raised u count hu
  · have hqp : q = p := Option.some.inj (hq'.symm.trans hq)
    rw [hqp] at hu
    rw [go_of_ne hu]
    exact h.count u hu
  · by_cases hup : u = p
    · rw [hup, go_self] at hu
      exact hbusy hu
    · rw [go_of_ne hup] at hu
      exact absurd (busy_holds hu) (by rw [h.holds u hup]; exact Bool.false_ne_true)

theorem leave (h : Held secure s p hand) (hcount : r.count = hand) (hholds : r.holds = false)
    (hraised : ∀ count, r ≠ .raised count false) : Good secure { s.go p r with q := none } := by
  have hnobody : ∀ u, ((s.go p r).reader u).holds = false := by
    intro u
    by_cases hu : u = p
    · rw [hu, go_self, hholds]
    · rw [go_of_ne hu, h.holds u hu]
  refine ⟨⟨⟨p, fun u hu => ?_, ?_⟩, h.framed, h.opened, h.delivered⟩, fun u => ?_, fun u count => ?_, nofun,
    fun u hu => ?_⟩
  · show ((s.go p r).reader u).count = []
    rw [go_of_ne hu]
    exact h.count u hu
  · show s.received = wires s.records ++ (((s.go p r).reader p).count ++ s.unprocessed.flatten)
    rw [go_self, hcount]
    exact h.received
  · exact iff_of_false (fun hu => Bool.false_ne_true ((hnobody u).symm.trans hu)) nofun
  · show (s.go p r).reader u ≠ .raised count false
    by_cases hu : u = p
    · rw [hu, go_self]
      exact hraised count
    · rw [go_of_ne hu]
      exact h.raised u count hu
  · exact absurd ((hnobody u).symm.trans (busy_holds hu)) Bool.false_ne_true

theorem deliver (h : Held secure s p []) (hs : s.deliver p n = some s') : Good secure s' := by
  obtain ⟨r, hr, hout, hrest⟩ := qtake_spec false s.processed n
  rw [St.deliver, hr] at hs
  cases hs
  have hheld : Held secure { s with processed := r.2, delivered := s.delivered ++ r.1.flatten } p [] := by
    refine ⟨h.holds, h.count, h.raised, h.received, h.framed, h.opened, ?_⟩
    show s.delivered ++ r.1.flatten ++ r.2.flatten = payloads s.records
    rw [hout, hrest, append_assoc, ← h.delivered]
    exact congrArg (s.delivered ++ ·) (take_append_drop n s.processed.flatten)
  exact hheld.leave (r := .free) rfl rfl nofun

end Held

theorem qtake_discard {l : List Bytes} {m : Int} {t : List Bytes × List Bytes} (h : qtake true l m = some t) :
    t.1.flatten = l.flatten.take m.toNat := by
  rcases le_or_gt 0 m with hm | hm
  · obtain ⟨t', ht', hout, -⟩ := qtake_spec true l m.toNat
    rw [Int.toNat_of_nonneg hm, h] at ht'
    cases ht'
    exact hout
  cases l with
  | nil =>
    cases h
    exact take_nil.symm
  | cons b l =>
    rw [qtake, if_neg (by omega), if_pos (by omega), if_pos hm] at h
    cases h

theorem pad_spec {l : List Bytes} (hlen : need a b ≤ l.flatten.length) {r : Bytes × List Bytes}
    (hr : (if a &&& 0x80 ≠ 0 then ([], l) else consume l 1) = r) :
    r.1 ++ r.2.flatten = l.flatten ∧ msgLen a b ≤ r.2.flatten.length ∧
      (a &&& 0x80 ≠ 0 ∧ r.1 = [] ∨ a &&& 0x80 = 0 ∧ ∃ pad, r.1 = [pad]) := by
  rw [need] at hlen
  split at hr
  next ha =>
    rw [if_pos ha] at hlen
    cases hr
    exact ⟨rfl, hlen, .inl ⟨ha, rfl⟩⟩
  next ha =>
    rw [if_neg ha] at hlen
    obtain ⟨hout, hrest⟩ := consume_spec l 1
    rw [hr] at hout hrest
    obtain ⟨pad, rest, hl⟩ : ∃ pad rest, l.flatten = pad :: rest :=
      exists_cons_of_length_pos (by omega)
    rw [hl] at hlen hout hrest
    refine ⟨?_, ?_, .inr ⟨not_not.1 ha, pad, hout⟩⟩
    · rw [hout, hrest, hl]
      rfl
    · rw [hrest]
      exact Nat.le_of_succ_le_succ hlen

namespace Held

/-- A whole record is taken from what is unprocessed, and its payload is what the readers will be given. -/
theorem append (h : Held secure s p hand) (hprocessed : s.processed = []) {rest out : List Bytes}
    (hwire : rec.wire ++ rest.flatten = hand ++ s.unprocessed.flatten) (hframed : rec.Framed)
    (hopened : rec.Opened secure s.records.length) (hpayload : rec.payload = out.flatten) :
    Held secure { s with unprocessed := rest, processed := out, records := s.records ++ [rec] } p [] := by
  have hnow : s.delivered = payloads s.records := by
    rw [← h.delivered, hprocessed, flatten_nil, append_nil]
  refine ⟨h.holds, h.count, h.raised, ?_, ?_, ?_, ?_⟩
  · show s.received = wires (s.records ++ [rec]) ++ ([] ++ rest.flatten)
    rw [wires_concat, nil_append, append_assoc, hwire]
    exact h.received
  · exact forall_mem_append.2 ⟨h.framed, forall_mem_singleton.2 hframed⟩
  · intro i r hi
    rw [List.getElem?_append] at hi
    split at hi
    next => exact h.opened i r hi
    next hle =>
      rw [List.getElem?_singleton] at hi
      split at hi
      next h0 =>
        cases hi
        have hi : i = s.records.length := by omega
        rw [hi]
        exact hopened
      next => cases hi
  · show s.delivered ++ out.flatten = payloads (s.records ++ [rec])
    rw [payloads_concat, hpayload, hnow]

theorem takeRecord (h : Held secure s p [a, b]) (hprocessed : s.processed = [])
    (hlen : need a b ≤ s.unprocessed.flatten.length)
    (hs : Ssl.takeRecord secure s p n a b = some s') (hf : s'.failed = false) : Good secure s' := by
  unfold Ssl.takeRecord at hs
  dsimp only at hs
  generalize hr : (if a &&& 0x80 ≠ 0 then ([], s.unprocessed) else consume s.unprocessed 1) = r at hs
  obtain ⟨hsplit, hbody, hcount⟩ := pad_spec hlen hr
  split at hs
  next =>
    cases hs
    exact absurd hf (by simp [St.raise])
  next =>
    obtain ⟨body, hqtake, htaken, hrest⟩ := qtake_spec false r.2 (msgLen a b)
    rw [hqtake, bind_some] at hs
    split at hs
    next =>
      cases hs
      exact absurd hf (by simp [St.raise])
    next bs len hsecure =>
      obtain ⟨out, hout, hs⟩ := bind_eq_some_iff.1 hs
      have hlength : body.1.flatten.length = msgLen a b := by
        rw [htaken, length_take, min_eq_left hbody]
      refine Held.deliver (h.append hprocessed ?_ ?_ ?_ rfl) hs
      · have hbytes : body.1.flatten ++ body.2.flatten = r.2.flatten := by
          rw [htaken, hrest]
          exact take_append_drop (msgLen a b) r.2.flatten
        show [a, b] ++ r.1 ++ body.1.flatten ++ body.2.flatten = [a, b] ++ s.unprocessed.flatten
        rw [append_assoc, hbytes, append_assoc, hsplit]
      · refine ⟨a, b, hlength, hcount.imp ?_ ?_⟩
        · rintro ⟨ha, hr₁⟩
          exact ⟨ha, congrArg ([a, b] ++ ·) hr₁⟩
        · rintro ⟨ha, pad, hr₁⟩
          exact ⟨ha, pad, congrArg ([a, b] ++ ·) hr₁⟩
      have hpad : ([a, b] ++ r.1).getD 2 0 = r.1.headD 0 := by
        cases r.1 <;> rfl
      refine ⟨body.1, bs, len, rfl, ?_, ?_⟩
      · show secure _ body.1.flatten.length _ = _
        rw [hlength]
        exact hsecure
      show out.flatten = if ([a, b] ++ r.1).getD 2 0 = 0 then _ else _
      rw [hpad]
      split at hout
      next h0 =>
        cases hout
        rw [if_pos h0]
      next h0 =>
        obtain ⟨t, ht, rfl⟩ := map_eq_some_iff.1 hout
        rw [if_neg h0]
        exact qtake_discard ht

end Held

/-- Unless the connection has been hung up. -/
def Inv (secure : Secure) (s : St) : Prop := s.failed = false → Good secure s

theorem init_inv : Inv secure .init :=
  fun _ => ⟨⟨⟨0, fun _ _ => rfl, rfl⟩, nofun, nofun, rfl⟩, fun _ => ⟨nofun, nofun⟩, fun _ _ => nofun, nofun, nofun⟩

namespace Good

section
variable (h : Good secure s)
include h

theorem read (hs : step secure s (.read p n) = some s') : Good secure s' := by
  rw [step] at hs
  split at hs
  next hr =>
    cases hs
    exact h.go hr rfl rfl nofun nofun
  next => cases hs

theorem lock (hback : Act.PutBack s (.lock p)) (hs : step secure s (.lock p) = some s') :
    Good secure s' := by
  rw [step] at hs
  split at hs
  next n hr =>
    split at hs
    next hq =>
      cases hs
      have hfree : ∀ u, (s.reader u).holds = false := by
        intro u
        rw [Bool.eq_false_iff]
        intro hu
        exact absurd (hq.symm.trans ((h.owner u).1 hu)) nofun
      have hcounts : ∀ u, (s.reader u).count = [] := by
        intro u
        cases hu : s.reader u with
        | raised count interrupted =>
          cases interrupted with
          | false => exact absurd hu (h.raised u count)
          | true => exact hback u count hu
        | body n a b => exact absurd (hfree u) (by rw [hu]; nofun)
        | _ => rfl
      obtain ⟨p₀, -, hreceived⟩ := h.received
      have hheld : Held secure { s with q := some p } p [] := by
        refine ⟨fun u _ => hfree u, fun u _ => hcounts u, fun u count _ => h.raised u count, ?_, h.framed, h.opened,
          h.delivered⟩
        rw [hcounts] at hreceived
        exact hreceived
      exact hheld.keep (r := .start n) rfl rfl rfl nofun nofun
    next => cases hs
  next => cases hs

theorem look (hs : step secure s (.look p) = some s') : Good secure s' := by
  rw [step] at hs
  split at hs
  next n hr =>
    split at hs
    next hprocessed =>
      cases hs
      exact h.go hr rfl rfl (fun _ => hprocessed) nofun
    next =>
      have hheld := h.held ((h.owner p).1 (congrArg Reader.holds hr))
      rw [hr] at hheld
      exact hheld.deliver hs
  next => cases hs

theorem recv {bl : List Bytes} (hs : step secure s (.recv p bl) = some s') : Good secure s' := by
  rw [step] at hs
  split at hs
  next =>
    cases hs
    obtain ⟨p₀, hothers, hreceived⟩ := h.received
    refine ⟨⟨⟨p₀, hothers, ?_⟩, h.framed, h.opened, h.delivered⟩, h.owner, h.raised, h.alone, h.busy⟩
    show s.received ++ bl.flatten = wires s.records ++ ((s.reader p₀).count ++ (s.unprocessed ++ bl).flatten)
    rw [hreceived, flatten_append]
    simp only [append_assoc]
  next => cases hs

theorem interrupt (hs : step secure s (.interrupt p) = some s') : Good secure s' := by
  rw [step] at hs
  split at hs
  next hwaits =>
    cases hs
    have hheld := h.held ((h.owner p).1 (waits_holds hwaits))
    have hheld : Held secure { s with failed := s.failed || !true } p (s.reader p).count :=
      ⟨hheld.holds, hheld.count, hheld.raised, hheld.received, hheld.framed, hheld.opened, hheld.delivered⟩
    exact hheld.leave rfl rfl nofun
  next => cases hs

theorem header (hs : step secure s (.header p) = some s') : Good secure s' := by
  rw [step] at hs
  split at hs
  next n hr =>
    dsimp only at hs
    split at hs
    next a b hab =>
      cases hs
      have hq : s.q = some p := (h.owner p).1 (congrArg Reader.holds hr)
      have hheld := h.held hq
      rw [hr] at hheld
      obtain ⟨hout, hrest⟩ := consume_spec s.unprocessed 2
      have hheld : Held secure { s with unprocessed := (consume s.unprocessed 2).2 } p [a, b] := by
        refine ⟨hheld.holds, hheld.count, hheld.raised, hheld.received.trans ?_, hheld.framed, hheld.opened,
          hheld.delivered⟩
        show wires s.records ++ ([] ++ s.unprocessed.flatten) = wires s.records ++
          ([a, b] ++ (consume s.unprocessed 2).2.flatten)
        rw [← hab, hout, hrest, take_append_drop, nil_append]
      exact hheld.keep hq rfl rfl (fun _ => h.busy p (congrArg Reader.busy hr)) nofun
    next => cases hs
  next => cases hs

theorem record (hs : step secure s (.record p) = some s') (hf : s'.failed = false) :
    Good secure s' := by
  rw [step] at hs
  split at hs
  next n a b hr =>
    split at hs
    next => cases hs
    next hwaits =>
      have hheld := h.held ((h.owner p).1 (congrArg Reader.holds hr))
      rw [hr] at hheld hwaits
      have hlen : need a b ≤ s.unprocessed.flatten.length := by
        simpa [Reader.waits] using hwaits
      exact hheld.takeRecord (h.busy p (congrArg Reader.busy hr)) hlen hs hf
  next => cases hs

theorem handle (hs : step secure s (.handle p) = some s') : Good secure s' := by
  rw [step] at hs
  split at hs
  next count hr =>
    dsimp only at hs
    by_cases hcount : count = []
    · rw [if_pos hcount] at hs
      cases hs
      exact h.go hr hcount.symm rfl nofun nofun
    rw [if_neg hcount] at hs
    cases hs
    have hown : (s.reader p).count = count := congrArg Reader.count hr
    have hq : s.q = none := by
      rw [eq_none_iff_forall_ne_some]
      intro q hq
      by_cases hpq : p = q
      · have hhold := (h.owner q).2 hq
        rw [← hpq, hr] at hhold
        cases hhold
      · exact hcount (hown.symm.trans (h.alone q hq p hpq))
    have hheld : Held secure { s with unprocessed := count :: s.unprocessed } p [] := by
      obtain ⟨p₀, hothers, hreceived⟩ := h.received
      have hp : p₀ = p := by
        by_contra hp
        exact hcount (hown.symm.trans (hothers p fun hpp => hp hpp.symm))
      rw [hp] at hothers hreceived
      refine ⟨fun u _ => ?_, hothers, fun u count _ => h.raised u count, ?_, h.framed, h.opened, h.delivered⟩
      · rw [Bool.eq_false_iff]
        intro hu
        cases hq.symm.trans ((h.owner u).1 hu)
      · rw [hown] at hreceived
        exact hreceived
    have hleft := hheld.leave (r := .free) rfl rfl nofun
    have hstate : { ({ s with unprocessed := count :: s.unprocessed } : St).go p .free with q := none } =
        { s.go p .free with unprocessed := count :: s.unprocessed } := by
      rw [← hq]
      rfl
    rw [hstate] at hleft
    exact hleft
  next count hr => exact absurd hr (h.raised p count)
  next => cases hs

end

end Good

theorem deliver_failed (hs : s.deliver p n = some s') : s'.failed = s.failed := by
  obtain ⟨r, -, rfl⟩ := map_eq_some_iff.1 hs
  rfl

theorem takeRecord_failed (hs : takeRecord secure s p n a b = some s') (hf : s.failed = true) : s'.failed = true := by
  unfold takeRecord at hs
  dsimp only at hs
  generalize (if a &&& 0x80 ≠ 0 then ([], s.unprocessed) else consume s.unprocessed 1) = r at hs
  split at hs
  next =>
    cases hs
    exact Bool.or_true _
  next =>
    obtain ⟨body, -, hs⟩ := bind_eq_some_iff.1 hs
    split at hs
    next =>
      cases hs
      exact Bool.or_true _
    next =>
      obtain ⟨out, -, hs⟩ := bind_eq_some_iff.1 hs
      exact (deliver_failed hs).trans hf

theorem step_failed (hs : step secure s act = some s') (hf : s.failed = true) : s'.failed = true := by
  cases act with
  | look p => grind -linarith [step, St.go, deliver_failed]
  | record p => grind -linarith [step, takeRecord_failed]
  | interrupt p => grind -linarith [step, St.go, St.raise]
  | hungup p => grind -linarith [step, St.go, St.raise]
  | _ => grind -linarith [step, St.go]

theorem step_inv (h : Inv secure s) (hback : act.PutBack s) (hs : step secure s act = some s') : Inv secure s' := by
  intro hf
  have hgood : Good secure s := h (Bool.eq_false_of_not_eq_true fun ht => by rw [step_failed hs ht] at hf; cases hf)
  cases act with
  | read p n => exact hgood.read hs
  | lock p => exact hgood.lock hback hs
  | look p => exact hgood.look hs
  | recv p bl => exact hgood.recv hs
  | interrupt p => exact hgood.interrupt hs
  | hungup p =>
    rw [step] at hs
    split at hs
    next =>
      cases hs
      exact absurd hf (by simp [St.raise])
    next => cases hs
  | header p => exact hgood.header hs
  | record p => exact hgood.record hs hf
  | handle p => exact hgood.handle hs

/-- In every run in which the header bytes of an interrupted reader are put back before another takes `in.q`, each
record is there once and in order, until an error hangs the connection up. -/
theorem always_intact (secure : Secure) (acts : List Act)
    (hback : Steps.Along (step secure) (fun s act => act.PutBack s) .init acts) :
    SplitsExactly ∧ Steps.Always (step secure) (fun s => s.failed = false → Intact secure s) .init acts := by
  refine ⟨⟨consume_spec, qtake_spec⟩, ?_⟩
  exact (hback.always (I := Inv secure) (fun _ _ _ h hback hs => step_inv h hback hs) init_inv).mono fun _ h hf =>
    (h hf).toIntact

/-- A connection that is not encrypted. -/
def clear : Secure := fun _ len bs => some (bs, len)

theorem always_intact_handle : SplitsExactly ∧ Steps.Always (step clear) (fun s => s.failed = false →
    Intact clear s) .init
    [.read 1 8, .lock 1, .look 1, .recv 1 [[0x80, 2]], .header 1, .interrupt 1, .handle 1, .read 2 8] := by
  refine always_intact clear _ fun s₁ h₁ => ⟨trivial, fun s₂ h₂ => ⟨?_, ?_⟩⟩
  · cases h₁
    intro u count hu
    by_cases hu₁ : u = 1
    · rw [hu₁, go_self] at hu
      cases hu
    · rw [go_of_ne hu₁] at hu
      cases hu
  · exact fun _ _ => ⟨trivial, fun _ _ => ⟨trivial,
      fun _ _ => ⟨trivial, fun _ _ => ⟨trivial, fun _ _ => ⟨trivial, fun _ _ =>
      ⟨trivial, trivial⟩⟩⟩⟩⟩⟩

/-- The second reader takes `in.q` before the first has put its two bytes back, and what comes next for a header: two
records are read that are not in the stream. -/
theorem not_always_intact : ¬ ∀ (secure : Secure) (acts : List Act), SplitsExactly ∧
    Steps.Always (step secure) (fun s => s.failed = false → Intact secure s) .init acts := by
  intro h
  obtain ⟨p, -, hreceived⟩ := ((h clear [.read 1 8, .lock 1, .look 1, .recv 1 [[0x80, 2]], .header 1, .read 2 8, .interrupt 1, .lock 2,
    .look 2, .recv 2 [[0x80, 1, 7]], .header 2, .record 2, .handle 1]).2.last rfl rfl).received
  have hsecond : some (2 : UInt8) = some 1 := congrArg (fun bytes => bytes[1]?) hreceived
  exact absurd hsecond (by decide)

end Node9.Ssl
