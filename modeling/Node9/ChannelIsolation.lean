import Node9.Channel

/-!
# Two channels in one pair of closures

The lists of the last channel serve whatever channel waits. As long as they hold tasks and values of one
channel only, whenever another operation gets to them, values and wake-ups stay with their channel.
-/

namespace Node9.Channel
open Steps List Function

variable {V : Type}

/-- A value is returned only by a `recv` of the channel it was passed to, and a task blocked in `send` or
`recv` of a channel is made ready only by an operation on it. -/
def Isolated (s : St V) : Prop :=
  (∀ r ∈ s.got, ∀ m ∈ r.2, m.chan = r.1) ∧ ∀ w ∈ s.woken, ∃ w', w.1 = some w' ∧ w'.on = w.2

/-- Whoever waits over the lists of `g` does so for the channel `c`, and so do the pending values. -/
def St.OwnedBy (s : St V) (g c : Nat) : Prop :=
  (∀ t w, s.wait t = some w → w.via = g → w.on = c) ∧ ∀ m ∈ (s.chans g).pending, m.chan = c

/-- An operation that gets past its own buffer finds nothing of another channel in the lists of the last
channel. -/
def Unshared (s : St V) : Op V → Prop
  | .send _ c _ => s.HasRoom c ∨ s.OwnedBy s.latest c
  | .recv _ c => s.HasData c ∨ s.OwnedBy s.latest c
  | _ => True

structure IsoInv (s : St V) : Prop where
  ok : s.Ok
  buff : ∀ c, ∀ m ∈ (s.chans c).buff, m.chan = c
  owned : ∀ g, ∃ c, s.OwnedBy g c
  isolated : Isolated s

theorem isoInv_init : IsoInv (init : St V) where
  ok := ok_init
  buff _ _ h := absurd h not_mem_nil
  owned _ := ⟨0, fun _ _ h => (nomatch h), fun _ h => absurd h not_mem_nil⟩
  isolated := ⟨fun _ h => absurd h not_mem_nil, fun _ h => absurd h not_mem_nil⟩

theorem mem_of_pop {α : Type} {l : List α} {a : α} (h : a ∈ (pop l).1) : a ∈ l := by
  cases l with
  | nil => exact (nomatch h)
  | cons b l => exact Option.some.inj h ▸ mem_cons_self

theorem pop_subset {α : Type} (l : List α) : (pop l).2 ⊆ l := by
  cases l with
  | nil => exact fun _ h => h
  | cons b l => exact subset_cons_self b l

namespace Isolated
variable {s : St V}

theorem got {c : Nat} {o : Option (Msg V)} (h : Isolated s) (ho : ∀ m ∈ o, m.chan = c) :
    ∀ r ∈ s.got ++ [(c, o)], ∀ m ∈ r.2, m.chan = r.1 := by
  intro r hr
  rcases mem_append.1 hr with hr | hr
  · exact h.1 r hr
  · obtain rfl := mem_singleton.1 hr
    exact ho

theorem woken {c : Nat} {o : Option Wait} (h : Isolated s) (ho : ∃ w, o = some w ∧ w.on = c) :
    ∀ w ∈ s.woken ++ [(o, c)], ∃ w', w.1 = some w' ∧ w'.on = w.2 := by
  intro w hw
  rcases mem_append.1 hw with hw | hw
  · exact h.2 w hw
  · obtain rfl := mem_singleton.1 hw
    exact ho

end Isolated

namespace IsoInv
variable {s s' : St V} {op : Op V} {g c : Nat}

theorem wait_on (h : IsoInv s) (ho : s.OwnedBy g c) {k : Kind} {t : Nat} (ht : t ∈ s.queue g k) :
    ∃ w, s.wait t = some w ∧ w.on = c := by
  obtain ⟨c', hw⟩ := h.ok.queued g k t ht
  exact ⟨_, hw, ho.1 t _ hw rfl⟩

theorem buff_update (h : IsoInv s) {ch : Chan V} (hch : ∀ m ∈ ch.buff, m.chan = g) :
    ∀ c, ∀ m ∈ (update s.chans g ch c).buff, m.chan = c := by
  intro c
  by_cases hc : c = g
  · subst hc
    rw [update_self]
    exact hch
  · rw [update_of_ne hc]
    exact h.buff c

theorem owned_update (h : IsoInv s) {ch : Chan V} (hs' : s'.chans = update s.chans g ch)
    (hw : ∀ t w, s'.wait t = some w → s.wait t = some w)
    (hch : ∃ c, s.OwnedBy g c ∧ ∀ m ∈ ch.pending, m.chan = c) : ∀ g', ∃ c, s'.OwnedBy g' c := by
  intro g'
  by_cases hg : g' = g
  · subst hg
    obtain ⟨c, ho, hp⟩ := hch
    refine ⟨c, fun t w ht => ho.1 t w (hw t w ht), ?_⟩
    rw [hs', update_self]
    exact hp
  · obtain ⟨c, ho⟩ := h.owned g'
    refine ⟨c, fun t w ht => ho.1 t w (hw t w ht), ?_⟩
    rw [hs', update_of_ne hg]
    exact ho.2

theorem owned_block (h : IsoInv s) {ch : Chan V} {t : Nat} {k : Kind} (ho : s.OwnedBy g c)
    (hs' : s'.chans = update s.chans g ch) (hw : s'.wait = update s.wait t (some ⟨k, c, g⟩))
    (hch : ∀ m ∈ ch.pending, m.chan = c) : ∀ g', ∃ c, s'.OwnedBy g' c := by
  have hold : ∀ t' w, s'.wait t' = some w → w = ⟨k, c, g⟩ ∨ s.wait t' = some w := by
    intro t' w ht'
    rw [hw] at ht'
    by_cases heq : t' = t
    · rw [heq, update_self] at ht'
      exact .inl (Option.some.inj ht').symm
    · rw [update_of_ne heq] at ht'
      exact .inr ht'
  intro g'
  by_cases hg : g' = g
  · subst hg
    refine ⟨c, fun t' w ht' hvia => ?_, ?_⟩
    · rcases hold t' w ht' with rfl | ht'
      · rfl
      · exact ho.1 t' w ht' hvia
    · rw [hs', update_self]
      exact hch
  obtain ⟨c', ho'⟩ := h.owned g'
  refine ⟨c', fun t' w ht' hvia => ?_, ?_⟩
  · rcases hold t' w ht' with rfl | ht'
    · exact absurd hvia.symm hg
    · exact ho'.1 t' w ht' hvia
  · rw [hs', update_of_ne hg]
    exact ho'.2

theorem sent_on {ms : List (Msg V)} {v : V} (h : ∀ m ∈ ms, m.chan = c) : ∀ m ∈ ms ++ [⟨v, c⟩], m.chan = c := by
  intro m hm
  rcases mem_append.1 hm with hm | hm
  · exact h m hm
  · obtain rfl := mem_singleton.1 hm
    rfl

theorem step (h : IsoInv s) (hu : Unshared s op) (hgo : Goes s op s') : IsoInv s' := by
  have hok := hgo.ok h.ok
  cases hgo with
  | create size =>
    obtain ⟨c, ho⟩ := h.owned s.nchan
    exact ⟨hok, h.buff_update (fun m hm => absurd hm not_mem_nil),
      h.owned_update rfl (fun _ _ ht => ht) ⟨c, ho, fun m hm => absurd hm not_mem_nil⟩, h.isolated⟩
  | @sendBuff _ c v hc hroom =>
    obtain ⟨c', ho⟩ := h.owned c
    exact ⟨hok, h.buff_update (sent_on (h.buff c)), h.owned_update rfl (fun _ _ ht => ht) ⟨c', ho, ho.2⟩, h.isolated⟩
  | @sendWake _ c r v rs hc hroom hr =>
    have ho := hu.resolve_left hroom
    have hp := sent_on (v := v) ho.2
    have hmem : r ∈ s.queue s.latest .recv := by
      show r ∈ (s.chans s.latest).receivers
      simp [hr]
    exact ⟨hok, h.buff_update (h.buff s.latest), h.owned_update rfl (fun _ _ ht => ht) ⟨c, ho, hp⟩,
      h.isolated.1, h.isolated.woken (h.wait_on ho hmem)⟩
  | @sendBlock t c v ht hc hroom hr =>
    have ho := hu.resolve_left hroom
    have hp := sent_on (v := v) ho.2
    exact ⟨hok, h.buff_update (h.buff s.latest), h.owned_block ho rfl rfl hp, h.isolated⟩
  | @recvBuff _ c m ms hc hdata hm =>
    obtain ⟨c', ho⟩ := h.owned c
    have hbuff : ∀ m' ∈ m :: ms, m'.chan = c := hm ▸ h.buff c
    refine ⟨hok, h.buff_update fun m' hm' => hbuff m' (mem_cons_of_mem m hm'),
      h.owned_update rfl (fun _ _ ht => ht) ⟨c', ho, ho.2⟩, h.isolated.got ?_, h.isolated.2⟩
    rintro m' ⟨⟩
    exact hbuff m mem_cons_self
  | @recvWake _ c r rs hc hdata hr =>
    have ho := hu.resolve_left hdata
    have hmem : r ∈ s.queue s.latest .send := by
      show r ∈ (s.chans s.latest).senders
      simp [hr]
    exact ⟨hok, h.buff_update (h.buff s.latest),
      h.owned_update rfl (fun _ _ ht => ht) ⟨c, ho, fun m hm => ho.2 m (pop_subset _ hm)⟩,
      h.isolated.got fun m hm => ho.2 m (mem_of_pop hm), h.isolated.woken (h.wait_on ho hmem)⟩
  | @recvBlock t c ht hc hdata hr =>
    have ho := hu.resolve_left hdata
    exact ⟨hok, h.buff_update (h.buff s.latest), h.owned_block ho rfl rfl ho.2, h.isolated⟩
  | @resumeSend t ht hw =>
    refine ⟨hok, h.buff, fun g => ?_, h.isolated⟩
    obtain ⟨c, ho⟩ := h.owned g
    exact ⟨c, fun t' w ht' => ho.1 t' w (wait_of_update ht'), ho.2⟩
  | @resumeRecv t c g ht hw =>
    obtain ⟨c', ho⟩ := h.owned g
    obtain rfl : c = c' := ho.1 t _ hw rfl
    exact ⟨hok, h.buff_update (h.buff g),
      h.owned_update rfl (fun _ _ ht' => wait_of_update ht') ⟨c, ho, fun m hm => ho.2 m (pop_subset _ hm)⟩,
      h.isolated.got fun m hm => ho.2 m (mem_of_pop hm), h.isolated.2⟩
where
  wait_of_update {t t' : Nat} {w : Wait} (h : update s.wait t none t' = some w) : s.wait t' = some w := by
    by_cases heq : t' = t
    · rw [heq, update_self] at h
      cases h
    · rwa [update_of_ne heq] at h

end IsoInv

/-- In every run whose operations find nothing of another channel in the lists that they wait on, channels
are isolated in every state. -/
theorem isolated_of_unshared (ops : List (Op V)) (h : Along step Unshared init ops) :
    Always step Isolated init ops :=
  (h.always (fun _ _ _ hi hu hs => IsoInv.step hi hu (step_goes hs)) isoInv_init).mono fun _ h => h.isolated

/-- Two channels, and a task waits in `recv` of the second until another sends on it. -/
theorem isolated_second_channel :
    Always step Isolated (init : St Nat) [.create 0, .create 0, .recv 1 1, .send 2 1 7, .resume 1] := by
  refine isolated_of_unshared _ (.cons trivial rfl (.cons trivial rfl (.cons (.inr ?_) rfl (.cons (.inr ?_) rfl
    (.cons trivial rfl trivial)))))
  · exact ⟨fun t w ht => (nomatch ht), fun m hm => absurd hm not_mem_nil⟩
  · refine ⟨fun t w ht _ => ?_, fun m hm => absurd hm not_mem_nil⟩
    have ht : update (fun _ => none) 1 (some ⟨.recv, 1, 1⟩) t = some w := ht
    by_cases h1 : t = 1
    · rw [h1, update_self] at ht
      exact Option.some.inj ht ▸ rfl
    · rw [update_of_ne h1] at ht
      cases ht

/-- A task waits in `recv` of the first channel; a send on the second wakes it and it returns that value. -/
theorem recv_of_first_returns_value_of_second : ¬ ∀ ops, Always step Isolated (init : St Nat) ops := by
  intro h
  have hiso := (h [.create 0, .create 0, .recv 1 0, .send 2 1 7, .resume 1]).last rfl
  have hgot := hiso.1 (0, some ⟨7, 1⟩) (mem_singleton.2 rfl) ⟨7, 1⟩ rfl
  exact absurd hgot (by decide)

end Node9.Channel
