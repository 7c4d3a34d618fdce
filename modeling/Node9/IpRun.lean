import Node9.Ip

/-!
# Runs of calls on conversations

`Inv s L`: with the calls `L` in progress, every lock that is held and every use that is counted is that of a call or
an open channel. A step keeps it if it meets `Fits`: `conversations_always`.
-/

namespace Node9.Ip
open Steps List
open Function (update update_self update_of_ne)
open Option hiding any_eq_true

def Sound (s : St) : Prop :=
  (s.calls = [] → (∀ p, s.plock p = false) ∧ ∀ k c, s.conv k = some c → c.l = false ∧ c.listenq = false ∧
    c.inuse = s.chans.countP (fun x => x.2 = k) ∧ (c.inuse = 0 → c.state = .idle ∧ c.sfd = none)) ∧
  ∀ g ∈ s.given, g.2 = 0

/-- The loop of `protoclone` ends at `k` with a conversation. -/
def St.Takes (s : St) (h : Host) (k : Key) : Prop :=
  if k.2 < s.nc k.1 then
    match s.conv k with
    | none => h.malloc
    | some c => c.l = false ∧ c.inuse = 0
  else s.nc k.1 < MAXCONV ∧ h.realloc ∧ h.malloc

/-- The socket can be made, and the address found, of a conversation that has been taken, and the mode is one that
`openmode` accepts. -/
def Fits (s : St) : Act → Prop
  | .go i h => ∀ c, s.calls[i]? = some c →
    match c with
    | .scanning k (.clone _) => s.Takes h k → h.socket.isSome
    | .unlocking _ (.clone omode) => (openmode omode).isSome
    | .checking k _ => h.permitted → (s.at_ k).inuse = 0 → h.socket.isSome
    | .leaving _ omode true => (openmode omode).isSome
    | .accepted _ _ omode => h.ok ∧ (openmode omode).isSome
    | _ => True
  | _ => True

/-- The conversation that a call has to do with. -/
def Call.on : Call → Option Key
  | .cloned k _ | .unlocking k _ | .accepted k _ _ | .listening k _ | .opening k _ | .checking k _ | .opened k _ _
  | .leaving k _ _ | .closing k | .closed k => some k
  | .ctl x _ | .pausing x _ | .outside x _ | .returning x _ _ | .written x => some x.2
  | _ => none

structure Inv (s : St) (L : List Call) : Prop where
  plock : ∀ p, (s.plock p).toNat = L.countP fun c => c.p = some p
  l : ∀ k, (s.at_ k).l.toNat = L.countP fun c => c.l = some k
  listenq : ∀ k, (s.at_ k).listenq.toNat = L.countP fun c => c.listenq = some k
  inuse : ∀ k, (s.at_ k).inuse = s.chans.countP (fun x => x.2 = k) + L.countP fun c => c.user = some k
  quiet : ∀ k, (s.at_ k).inuse = 0 → (s.at_ k).state = .idle ∧ (s.at_ k).sfd = none
  chan : ∀ c ∈ L, ∀ x, c.chan = some x → x ∈ s.chans
  slots : ∀ p, 0 < s.nc p
  room : ∀ k, (s.conv k).isSome → k.2 < s.nc k.1
  on : ∀ c ∈ L, ∀ k, c.on = some k → k.2 < s.nc k.1
  given : ∀ g ∈ s.given, g.2 = 0

def one {α : Type} [DecidableEq α] (o : Option α) (a : α) : Nat := if o = some a then 1 else 0

section One
variable {α : Type} [DecidableEq α] {a b : α}

@[simp] theorem one_none : one none a = 0 := rfl

@[simp] theorem one_self : one (some a) a = 1 := if_pos rfl

theorem one_of_ne (h : a ≠ b) : one (some b) a = 0 := if_neg fun he => h (some.inj he).symm

end One

section Count
variable {α : Type} [DecidableEq α] {f : Call → Option α} {a : α} {c : Call} {L : List Call}

theorem countP_cons_eq : (c :: L).countP (fun c => f c = some a) = L.countP (fun c => f c = some a) + one (f c) a := by
  rw [countP_cons]
  simp only [decide_eq_true_eq]
  rfl

theorem countP_new {n : Option Call} : (n.toList ++ L).countP (fun c => f c = some a) =
    L.countP (fun c => f c = some a) + one (n.bind f) a := by
  cases n with
  | none => simp [one]
  | some c => exact countP_cons_eq

end Count

@[simp] theorem at_setConv {s : St} {k k' : Key} {c : Conv} : (s.setConv k c).at_ k' = if k' = k then c
    else s.at_ k' := by
  unfold St.at_ St.setConv
  dsimp only
  by_cases hk : k' = k
  · rw [if_pos hk, hk, update_self]
    rfl
  · rw [if_neg hk, update_of_ne hk]

/-- How the part of a call in a count of `k` and the count go together: from `o` and `x` to `o'` and `x'`. -/
inductive Moves (k : Key) (o o' : Option Key) (x x' : Nat) : Prop
  | same (ho : o' = o) (hx : x' = x)
  | take (ho : o = none) (ho' : o' = some k) (hx : x' = x + 1)
  | give (ho : o = some k) (ho' : o' = none) (hx : x' + 1 = x)

theorem Moves.balance {k : Key} {o o' : Option Key} {x x' : Nat} (h : Moves k o o' x x') (k' : Key) (y : Nat) :
    (if k' = k then x' else y) + one o k' = (if k' = k then x else y) + one o' k' := by
  by_cases hk : k' = k
  · rw [if_pos hk, if_pos hk, hk]
    cases h with
    | same ho hx => rw [ho, hx]
    | take ho ho' hx => rw [ho, ho', hx, one_none, one_self]
    | give ho ho' hx => rw [ho, ho', ← hx, one_none, one_self]
  · rw [if_neg hk, if_neg hk]
    cases h with
    | same ho hx => rw [ho]
    | take ho ho' hx => rw [ho, ho', one_none, one_of_ne hk]
    | give ho ho' hx => rw [ho, ho', one_none, one_of_ne hk]

namespace Inv
variable {s s' : St} {c : Call} {L L' : List Call} {n : Option Call} {k : Key} {cv : Conv}

theorem perm (h : Inv s L) (hp : L.Perm L') : Inv s L' where
  plock p := (h.plock p).trans (hp.countP_eq _)
  l k := (h.l k).trans (hp.countP_eq _)
  listenq k := (h.listenq k).trans (hp.countP_eq _)
  inuse k := (h.inuse k).trans (congrArg _ (hp.countP_eq _))
  quiet := h.quiet
  chan c hc := h.chan c (hp.mem_iff.2 hc)
  slots := h.slots
  room := h.room
  on c hc := h.on c (hp.mem_iff.2 hc)
  given := h.given

theorem change (h : Inv s (c :: L)) (n : Option Call)
    (hp : ∀ p, (s'.plock p).toNat + one c.p p = (s.plock p).toNat + one (n.bind Call.p) p)
    (hl : ∀ k, (s'.at_ k).l.toNat + one c.l k = (s.at_ k).l.toNat + one (n.bind Call.l) k)
    (hq : ∀ k, (s'.at_ k).listenq.toNat + one c.listenq k = (s.at_ k).listenq.toNat + one (n.bind Call.listenq) k)
    (hu : ∀ k, (s'.at_ k).inuse + one c.user k + s.chans.countP (fun x => x.2 = k) =
      (s.at_ k).inuse + one (n.bind Call.user) k + s'.chans.countP (fun x => x.2 = k))
    (hquiet : ∀ k, (s'.at_ k).inuse = 0 → (s'.at_ k).state = .idle ∧ (s'.at_ k).sfd = none)
    (hchan : ∀ x, n.bind Call.chan = some x → x ∈ s'.chans) (hsub : s.chans ⊆ s'.chans)
    (hroom : ∀ k, (s'.conv k).isSome → k.2 < s'.nc k.1) (hnc : ∀ p, s.nc p ≤ s'.nc p)
    (hon : ∀ k, n.bind Call.on = some k → k.2 < s'.nc k.1) (hgiven : ∀ g ∈ s'.given, g.2 = 0) :
    Inv s' (n.toList ++ L) where
  plock p := by
    have h1 := h.plock p
    rw [countP_cons_eq] at h1
    rw [countP_new]
    have := hp p
    omega
  l k := by
    have h1 := h.l k
    rw [countP_cons_eq] at h1
    rw [countP_new]
    have := hl k
    omega
  listenq k := by
    have h1 := h.listenq k
    rw [countP_cons_eq] at h1
    rw [countP_new]
    have := hq k
    omega
  inuse k := by
    have h1 := h.inuse k
    rw [countP_cons_eq] at h1
    rw [countP_new]
    have := hu k
    omega
  quiet := hquiet
  chan d hd x hx := by
    rcases mem_append.1 hd with hd | hd
    · rw [mem_toList] at hd
      exact hchan x (by rw [hd]; exact hx)
    · exact hsub (h.chan d (mem_cons_of_mem _ hd) x hx)
  slots p := (h.slots p).trans_le (hnc p)
  room := hroom
  on d hd k hk := by
    rcases mem_append.1 hd with hd | hd
    · rw [mem_toList] at hd
      exact hon k (by rw [hd]; exact hk)
    · exact (h.on d (mem_cons_of_mem _ hd) k hk).trans_le (hnc k.1)
  given := hgiven

theorem room_setConv (h : Inv s L) (hk : k.2 < s.nc k.1) : ∀ k', ((s.setConv k cv).conv k').isSome →
    k'.2 < s.nc k'.1 := by
  intro k' hk'
  by_cases heq : k' = k
  · rwa [heq]
  · dsimp only [St.setConv] at hk'
    rw [update_of_ne heq] at hk'
    exact h.room k' hk'

theorem conv (h : Inv s (c :: L)) (n : Option Call) (hk : k.2 < s.nc k.1) (hp : n.bind Call.p = c.p)
    (hl : Moves k c.l (n.bind Call.l) (s.at_ k).l.toNat cv.l.toNat)
    (hq : Moves k c.listenq (n.bind Call.listenq) (s.at_ k).listenq.toNat cv.listenq.toNat)
    (hu : Moves k c.user (n.bind Call.user) (s.at_ k).inuse cv.inuse)
    (hquiet : cv.inuse = 0 → cv.state = .idle ∧ cv.sfd = none) (hchan : ∀ x, n.bind Call.chan = some x →
    c.chan = some x)
    (hon : ∀ k', n.bind Call.on = some k' → k' = k ∨ c.on = some k') : Inv (s.setConv k cv) (n.toList ++ L) := by
  refine h.change n (fun p => by rw [hp]; rfl) (fun k' => ?_) (fun k' => ?_) (fun k' => ?_) (fun k' h0 => ?_)
    (fun x hx => h.chan c mem_cons_self x (hchan x hx)) (List.Subset.refl _) (h.room_setConv hk) (fun _ => le_rfl)
    (fun k' hk' => (hon k' hk').elim (fun he => by rw [he]; exact hk) fun hc => h.on c mem_cons_self k' hc) h.given
  · have := hl.balance k' (s.at_ k').l.toNat
    rw [at_setConv]
    split_ifs at this ⊢ with heq
    · rwa [heq] at this ⊢
    · exact this
  · have := hq.balance k' (s.at_ k').listenq.toNat
    rw [at_setConv]
    split_ifs at this ⊢ with heq
    · rwa [heq] at this ⊢
    · exact this
  · have := hu.balance k' (s.at_ k').inuse
    rw [at_setConv]
    change _ + s.chans.countP _ = _ + s.chans.countP _
    split_ifs at this ⊢ with heq
    · rw [heq] at this ⊢
      rw [this]
    · rw [this]
  · rw [at_setConv] at h0 ⊢
    split_ifs at h0 ⊢ with heq
    · exact hquiet h0
    · exact h.quiet k' h0

theorem setLock (h : Inv s (c :: L)) (n : Option Call) {p : Proto} {b : Bool}
    (hp : (c.p = none ∧ n.bind Call.p = some p ∧ s.plock p = false ∧ b = true) ∨
      (c.p = some p ∧ n.bind Call.p = none ∧ b = false))
    (hl : n.bind Call.l = c.l) (hq : n.bind Call.listenq = c.listenq) (hu : n.bind Call.user = c.user)
    (hchan : n.bind Call.chan = none) (hon : ∀ k, n.bind Call.on = some k → c.on = some k) :
    Inv (s.setLock p b) (n.toList ++ L) := by
  refine h.change n (fun p' => ?_) (fun k => by rw [hl]; rfl) (fun k => by rw [hq]; rfl) (fun k => by rw [hu]; rfl)
    h.quiet (fun x hx => by rw [hchan] at hx; cases hx) (List.Subset.refl _) h.room (fun _ => le_rfl)
    (fun k hk => h.on c mem_cons_self k (hon k hk)) h.given
  dsimp only [St.setLock]
  obtain ⟨hc, hn, hs, rfl⟩ | ⟨hc, hn, rfl⟩ := hp
  · rw [hc, hn]
    by_cases hpp : p' = p
    · rw [hpp, update_self, hs, one_none, one_self]
      rfl
    · rw [update_of_ne hpp, one_none, one_of_ne hpp]
  have hcount := h.plock p
  rw [countP_cons_eq, hc] at hcount
  rw [hc, hn]
  by_cases hpp : p' = p
  · have htrue : s.plock p = true := by
      cases hs : s.plock p with
      | true => rfl
      | false =>
        rw [hs, one_self] at hcount
        cases hcount
    rw [hpp, update_self, htrue, one_none, one_self]
    rfl
  · rw [update_of_ne hpp, one_none, one_of_ne hpp]

theorem openChan (h : Inv s (c :: L)) {omode : Nat} (hmode : (openmode omode).isSome) (hp : c.p = none)
    (hl : c.l = none)
    (hq : c.listenq = none) (hu : c.user = some k) : Inv (s.openChan k omode) L := by
  have heq : s.openChan k omode = { s with chans := (s.nchan, k) :: s.chans, nchan := s.nchan + 1 } := if_pos hmode
  rw [heq]
  refine h.change none (fun p => by rw [hp]; rfl) (fun k => by rw [hl]; rfl) (fun k => by rw [hq]; rfl) (fun k' => ?_)
    h.quiet (fun x hx => by cases hx) (subset_cons_self _ _) h.room (fun _ => le_rfl) (fun k hk => by cases hk) h.given
  rw [hu, countP_cons]
  simp only [decide_eq_true_eq, one, bind_none, some.injEq, reduceCtorEq, if_false]
  change (s.at_ k').inuse + _ + _ = (s.at_ k').inuse + _ + _
  omega

theorem add (h : Inv s L) (hp : c.p = none) (hl : c.l = none) (hq : c.listenq = none) (hu : c.user = none)
    (hchan : ∀ x, c.chan = some x → x ∈ s.chans) (hon : ∀ k, c.on = some k → k.2 < s.nc k.1) : Inv s (c :: L) where
  plock p := by rw [countP_cons_eq, hp]; exact h.plock p
  l k := by rw [countP_cons_eq, hl]; exact h.l k
  listenq k := by rw [countP_cons_eq, hq]; exact h.listenq k
  inuse k := by rw [countP_cons_eq, hu]; exact h.inuse k
  quiet := h.quiet
  chan d hd x hx := by
    rcases mem_cons.1 hd with rfl | hd
    · exact hchan x hx
    · exact h.chan d hd x hx
  slots := h.slots
  room := h.room
  on d hd k hk := by
    rcases mem_cons.1 hd with rfl | hd
    · exact hon k hk
    · exact h.on d hd k hk
  given := h.given

theorem same (h : Inv s (c :: L)) (n : Option Call) (hp : n.bind Call.p = c.p) (hl : n.bind Call.l = c.l)
    (hq : n.bind Call.listenq = c.listenq) (hu : n.bind Call.user = c.user)
    (hchan : ∀ x, n.bind Call.chan = some x → c.chan = some x)
    (hon : ∀ k, n.bind Call.on = some k → c.on = some k) : Inv s (n.toList ++ L) :=
  h.change n (fun p => by rw [hp]) (fun k => by rw [hl]) (fun k => by rw [hq]) (fun k => by rw [hu]) h.quiet
    (fun x hx => h.chan c mem_cons_self x (hchan x hx)) (List.Subset.refl _) h.room (fun _ => le_rfl)
    (fun k hk => h.on c mem_cons_self k (hon k hk)) h.given

/-! ### What a call holds -/

theorem held (h : Inv s (c :: L)) (hc : c.l = some k) : (s.at_ k).l = true := by
  have hcount := h.l k
  rw [countP_cons_eq, hc, one_self] at hcount
  cases hl : (s.at_ k).l with
  | true => rfl
  | false =>
    rw [hl] at hcount
    cases hcount

theorem queued (h : Inv s (c :: L)) (hc : c.listenq = some k) : (s.at_ k).listenq = true := by
  have hcount := h.listenq k
  rw [countP_cons_eq, hc, one_self] at hcount
  cases hl : (s.at_ k).listenq with
  | true => rfl
  | false =>
    rw [hl] at hcount
    cases hcount

theorem used (h : Inv s (c :: L)) (hc : c.user = some k) : 0 < (s.at_ k).inuse := by
  rw [h.inuse k, countP_cons_eq, hc, one_self]
  omega

theorem used_chan (h : Inv s L) {x : Nat × Key} (hx : x ∈ s.chans) : 0 < (s.at_ x.2).inuse := by
  have hpos : 0 < s.chans.countP fun y => y.2 = x.2 := countP_pos_iff.2 ⟨x, hx, by simp⟩
  rw [h.inuse x.2]
  omega

theorem room_of_ne (h : Inv s L) (hk : s.at_ k ≠ .zero) : k.2 < s.nc k.1 := by
  refine h.room k ?_
  cases hc : s.conv k with
  | some cv => rfl
  | none =>
    unfold St.at_ at hk
    rw [hc] at hk
    exact absurd rfl hk

theorem unlock (h : Inv s (c :: L)) (n : Option Call) (hc : c.l = some k) (hn : n.bind Call.l = none)
    (hp : n.bind Call.p = c.p) (hq : n.bind Call.listenq = c.listenq) (hu : n.bind Call.user = c.user)
    (hchan : ∀ x, n.bind Call.chan = some x → c.chan = some x) (hon : ∀ k', n.bind Call.on = some k' → k' = k)
    (hck : c.on = some k) : Inv (s.setConv k { s.at_ k with l := false }) (n.toList ++ L) := by
  refine h.conv n (h.on c mem_cons_self k hck) hp (.give hc hn ?_) (.same hq rfl) (.same hu rfl)
    (h.quiet k) hchan fun k' hk' => .inl (hon k' hk')
  rw [h.held hc]
  rfl

theorem queue (h : Inv s (c :: L)) (n : Option Call) {b : Bool} (hk : k.2 < s.nc k.1)
    (hq : Moves k c.listenq (n.bind Call.listenq) (s.at_ k).listenq.toNat b.toNat) (hp : n.bind Call.p = c.p)
    (hl : n.bind Call.l = c.l) (hu : n.bind Call.user = c.user) (hchan : n.bind Call.chan = none)
    (hon : ∀ k', n.bind Call.on = some k' → c.on = some k') :
    Inv (s.setConv k { s.at_ k with listenq := b }) (n.toList ++ L) :=
  h.conv n hk hp (.same hl rfl) hq (.same hu rfl) (h.quiet k) (fun x hx => by rw [hchan] at hx; cases hx)
    fun k' hk' => .inr (hon k' hk')

theorem room_listen (h : Inv s (c :: L)) (hc : c.listenq = some k) : k.2 < s.nc k.1 :=
  h.room_of_ne fun hz => by
    have := h.queued hc
    rw [hz] at this
    cases this

theorem claim {f : Caller} {hst : Host} (h : Inv s (c :: L)) (hcalls : (c :: L).Perm s.calls) (hk : k.2 < s.nc k.1)
    (hl : (s.at_ k).l = false) (hu : (s.at_ k).inuse = 0) (hp : c.p = some k.1) (hcl : c.l = none)
    (hcq : c.listenq = (Call.cloned k f).listenq) (hcu : c.user = none)
    (hfit : ∀ omode, f = .clone omode → hst.socket.isSome) :
    Inv (s.claim hst k f).1 ((s.claim hst k f).2.toList ++ L) := by
  have hcloned : ∀ fd, Inv { s.setConv k { s.at_ k with l := true, inuse := 1, state := .idle, sfd := some fd } with
      given := (k, s.users k) :: s.given } (.cloned k f :: L) := by
    intro fd
    have h' : Inv (s.setConv k { s.at_ k with l := true, inuse := 1, state := .idle, sfd := some fd })
      (.cloned k f :: L) := by
      refine h.conv (some (.cloned k f)) hk hp.symm (.take hcl rfl ?_) (.same hcq.symm rfl) (.take hcu rfl ?_)
        (by intro h0; cases h0) (by intro x hx; cases hx) (fun k' hk' => .inl (some.inj hk').symm)
      · rw [hl]
        rfl
      · rw [hu]
    have husers : s.users k = 0 := by
      unfold St.users
      rw [← hcalls.countP_eq, ← h.inuse k, hu]
    refine ⟨h'.plock, h'.l, h'.listenq, h'.inuse, h'.quiet, h'.chan, h'.slots, h'.room, h'.on, fun g hg => ?_⟩
    rcases mem_cons.1 hg with rfl | hg
    · exact husers
    · exact h.given g hg
  unfold St.claim
  cases f with
  | listen k' sfd omode => exact hcloned sfd
  | clone omode =>
    obtain ⟨fd, hfd⟩ := isSome_iff_exists.1 (hfit omode rfl)
    dsimp only
    rw [hfd]
    exact hcloned fd

theorem grow (h : Inv s L) {p : Proto} {m : Nat} (hm : s.nc p ≤ m) :
    Inv { s with nc := update s.nc p m } L := by
  have hle : ∀ p', s.nc p' ≤ update s.nc p m p' := by
    intro p'
    by_cases hp : p' = p
    · rwa [hp, update_self]
    · rw [update_of_ne hp]
  exact ⟨h.plock, h.l, h.listenq, h.inuse, h.quiet, h.chan,
    fun p' => (h.slots p').trans_le (hle p'), fun k hk => (h.room k hk).trans_le (hle k.1),
    fun c hc k hk => (h.on c hc k hk).trans_le (hle k.1), h.given⟩

theorem scan {f : Caller} {hst : Host} (h : Inv s (.scanning k f :: L)) (hcalls : (Call.scanning k f :: L).Perm s.calls)
    (hfit : ∀ omode, f = .clone omode → s.Takes hst k → hst.socket.isSome) :
    Inv (s.scan hst k f).1 ((s.scan hst k f).2.toList ++ L) := by
  have hq : ∀ k', (Call.scanning k f).listenq = (Call.cloned k' f).listenq := fun k' => by cases f <;> rfl
  have hfailing : Inv s ((some (Call.failing k.1 f)).toList ++ L) :=
    h.same (some (.failing k.1 f)) rfl rfl (by cases f <;> rfl) rfl (by intro x hx; cases hx) (by intro x hx; cases hx)
  unfold St.scan
  by_cases hlt : k.2 < s.nc k.1
  · rw [if_pos hlt]
    cases hc : s.conv k with
    | none =>
      have hat : s.at_ k = .zero := by
        unfold St.at_
        rw [hc]
        rfl
      dsimp only
      split_ifs with hmal
      · have htakes : s.Takes hst k := by
          unfold St.Takes
          rw [if_pos hlt, hc]
          exact hmal
        exact h.claim hcalls hlt (by rw [hat]; rfl) (by rw [hat]; rfl) rfl rfl (hq k) rfl fun omode hf => hfit omode hf htakes
      · exact hfailing
    | some cv =>
      have hat : s.at_ k = cv := by
        unfold St.at_
        rw [hc]
        rfl
      dsimp only
      split_ifs with hfree
      · rw [Bool.and_eq_true, Bool.not_eq_true', beq_iff_eq] at hfree
        have htakes : s.Takes hst k := by
          unfold St.Takes
          rw [if_pos hlt, hc]
          exact hfree
        exact h.claim hcalls hlt (by rw [hat]; exact hfree.1) (by rw [hat]; exact hfree.2) rfl rfl (hq k) rfl
          fun omode hf => hfit omode hf htakes
      · exact h.same (some (.scanning (k.1, k.2 + 1) f)) rfl rfl (by cases f <;> rfl) rfl (by intro x hx; cases hx)
          (by intro x hx; cases hx)
  · rw [if_neg hlt]
    split_ifs with hmax hre hmal
    · exact hfailing
    · exact hfailing
    · have hgrow := h.grow (p := k.1) (m := min (2 * s.nc k.1) MAXCONV) (by omega)
      have hnone : ¬ (s.conv (k.1, s.nc k.1)).isSome := fun hs => (h.room _ hs).false
      have hat : s.at_ (k.1, s.nc k.1) = .zero := by
        unfold St.at_
        rw [not_isSome_iff_eq_none.1 hnone]
        rfl
      have hroom : s.nc k.1 < update s.nc k.1 (min (2 * s.nc k.1) MAXCONV) k.1 := by
        have hpos := h.slots k.1
        rw [update_self]
        omega
      have htakes : s.Takes hst k := by
        unfold St.Takes
        rw [if_neg hlt]
        exact ⟨by omega, by simpa using hre, hmal⟩
      exact hgrow.claim hcalls hroom (congrArg Conv.l hat) (congrArg Conv.inuse hat) rfl rfl (hq _) rfl
        fun omode hf => hfit omode hf htakes
    · have hgrow := h.grow (p := k.1) (m := min (2 * s.nc k.1) MAXCONV) (by omega)
      exact hgrow.same (some (.failing k.1 f)) rfl rfl (by cases f <;> rfl) rfl (by intro x hx; cases hx)
        (by intro x hx; cases hx)

theorem check {omode : Nat} {hst : Host} (h : Inv s (.checking k omode :: L)) (hl : (s.at_ k).l = false)
    (hfit : hst.permitted → (s.at_ k).inuse = 0 → hst.socket.isSome) :
    Inv (s.check hst k omode).1 ((s.check hst k omode).2.toList ++ L) := by
  have hk : k.2 < s.nc k.1 := h.on _ mem_cons_self k rfl
  have htrue : true.toNat = (s.at_ k).l.toNat + 1 := by rw [hl]; rfl
  unfold St.check
  dsimp only
  split_ifs with hperm hnew
  · exact h.conv (some (.opened k omode false)) hk rfl (.take rfl rfl htrue) (.same rfl rfl) (.same rfl rfl) (h.quiet k)
      (by intro x hx; cases hx) fun k' hk' => .inl (some.inj hk').symm
  · obtain ⟨fd, hfd⟩ := isSome_iff_exists.1 (hfit (by simpa using hperm) hnew.1)
    rw [hfd]
    refine h.conv (some (.opened k omode true)) hk rfl (.take rfl rfl htrue) (.same rfl rfl) (.take rfl rfl ?_)
      (by intro h0; cases h0) (by intro x hx; cases hx) fun k' hk' => .inl (some.inj hk').symm
    rw [hnew.1]
  · exact h.conv (some (.opened k omode true)) hk rfl (.take rfl rfl htrue) (.same rfl rfl) (.take rfl rfl rfl)
      (fun h0 => absurd h0 (Nat.succ_ne_zero _)) (by intro x hx; cases hx) fun k' hk' => .inl (some.inj hk').symm

theorem close (h : Inv s (.closing k :: L)) (hl : (s.at_ k).l = false) : Inv (s.close k) (.closed k :: L) := by
  have hk : k.2 < s.nc k.1 := h.on _ mem_cons_self k rfl
  have htrue : true.toNat = (s.at_ k).l.toNat + 1 := by rw [hl]; rfl
  have hpos := h.used rfl
  unfold St.close
  dsimp only
  split_ifs with hmore
  · exact h.conv (some (.closed k)) hk rfl (.take rfl rfl htrue) (.same rfl rfl)
      (.give rfl rfl (Nat.sub_add_cancel hpos))
      (fun h0 => absurd h0 hmore.ne') (by intro x hx; cases hx) fun k' hk' => .inl (some.inj hk').symm
  · exact h.conv (some (.closed k)) hk rfl (.take rfl rfl htrue) (.same rfl rfl)
      (.give rfl rfl (Nat.sub_add_cancel hpos))
      (fun _ => ⟨rfl, rfl⟩) (by intro x hx; cases hx) fun k' hk' => .inl (some.inj hk').symm

theorem write {x : Nat × Key} (h : Inv s (c :: L)) (n : Call) (hc : c.chan = some x) (hn : n.chan = some x)
    (hon : c.on = some x.2) (hon' : n.on = some x.2) (hp : n.p = c.p) (hq : n.listenq = c.listenq)
    (hu : n.user = c.user)
    (hl : Moves x.2 c.l n.l (s.at_ x.2).l.toNat cv.l.toNat) (hcq : cv.listenq = (s.at_ x.2).listenq)
    (hcu : cv.inuse = (s.at_ x.2).inuse) : Inv (s.setConv x.2 cv) (n :: L) := by
  have hpos := h.used_chan (h.chan c mem_cons_self x hc)
  refine h.conv (some n) (h.on c mem_cons_self _ hon) hp hl (.same hq (by rw [hcq])) (.same hu hcu)
    (fun h0 => absurd (hcu.symm.trans h0) hpos.ne') (fun y hy => ?_) fun k' hk' => ?_
  · exact hc.trans (hn.symm.trans hy)
  · exact .inl (some.inj (hon'.symm.trans hk')).symm

theorem command {x : Nat × Key} {cmd : Cmd} (hst : Host) (h : Inv s (.ctl x cmd :: L)) (hl : (s.at_ x.2).l = false) :
    Inv (s.command hst x cmd).1 ((s.command hst x cmd).2.toList ++ L) := by
  have htrue : true.toNat = (s.at_ x.2).l.toNat + 1 := by rw [hl]; rfl
  have hto : ∀ (n : Call) (cv : Conv), n.chan = some x → n.on = some x.2 → n.p = none → n.listenq = none →
    n.user = none →
      n.l = some x.2 → cv.l = true → cv.listenq = (s.at_ x.2).listenq → cv.inuse = (s.at_ x.2).inuse →
      Inv (s.setConv x.2 cv) (n :: L) := fun n cv hchan hon hp hq hu hnl hcl hcq hcu =>
    h.write n rfl hchan rfl hon hp hq hu (.take rfl hnl (by rw [hcl]; exact htrue)) hcq hcu
  unfold St.command
  cases cmd with
  | connect =>
    dsimp only
    split_ifs <;> exact hto _ _ rfl rfl rfl rfl rfl rfl rfl rfl rfl
  | announce =>
    dsimp only
    split_ifs <;> exact hto _ _ rfl rfl rfl rfl rfl rfl rfl rfl rfl
  | hangup =>
    dsimp only
    split_ifs <;> exact hto _ _ rfl rfl rfl rfl rfl rfl rfl rfl rfl
  | other => exact hto _ _ rfl rfl rfl rfl rfl rfl rfl rfl rfl

theorem resume {x : Nat × Key} {cmd : Cmd} {ok : Bool} (hst : Host) (h : Inv s (.returning x cmd ok :: L))
    (hl : (s.at_ x.2).l = false) : Inv (s.resume hst x cmd ok) (.written x :: L) := by
  have htrue : true.toNat = (s.at_ x.2).l.toNat + 1 := by rw [hl]; rfl
  have hto : ∀ cv : Conv, cv.l = true → cv.listenq = (s.at_ x.2).listenq → cv.inuse = (s.at_ x.2).inuse →
      Inv (s.setConv x.2 cv) (.written x :: L) := fun cv hcl hcq hcu =>
    h.write (.written x) rfl rfl rfl rfl rfl rfl rfl (.take rfl rfl (by rw [hcl]; exact htrue)) hcq hcu
  unfold St.resume
  cases cmd with
  | connect =>
    dsimp only
    split_ifs <;> exact hto _ rfl rfl rfl
  | announce =>
    dsimp only
    split_ifs <;> exact hto _ rfl rfl rfl
  | hangup =>
    dsimp only
    split_ifs <;> exact hto _ rfl rfl rfl
  | other => exact hto _ rfl rfl rfl

theorem advance {hst : Host} {r : St × Option Call} (h : Inv s (c :: L)) (hcalls : (c :: L).Perm s.calls)
    (hfit : ∀ i, s.calls[i]? = some c → Fits s (.go i hst)) (hr : Ip.advance s hst c = some r) :
    Inv r.1 (r.2.toList ++ L) := by
  obtain ⟨i, hi⟩ := mem_iff_getElem?.1 (hcalls.mem_iff.1 mem_cons_self)
  replace hfit := hfit i hi c hi
  cases c with
  | cloning p f =>
    dsimp only [Ip.advance] at hr
    split_ifs at hr with hp
    cases hr
    exact h.setLock (some (.scanning (p, 0) f))
      (.inl ⟨rfl, rfl, by simpa using hp, rfl⟩) rfl (by cases f <;> rfl) rfl rfl
      (by intro k hk; cases hk)
  | scanning k f =>
    cases hr
    exact h.scan hcalls fun omode hf => by subst hf; exact hfit
  | cloned k f =>
    cases hr
    exact h.unlock (some (.unlocking k f)) rfl rfl rfl (by cases f <;> rfl) rfl (by intro x hx; cases hx)
      (fun k' hk' => (some.inj hk').symm) rfl
  | unlocking k f =>
    cases f with
    | clone omode =>
      cases hr
      have h' := h.setLock (some (.closing k)) (p := k.1) (b := false) (.inr ⟨rfl, rfl, rfl⟩) rfl rfl rfl rfl
        fun k' hk' => hk'
      exact h'.openChan hfit rfl rfl rfl rfl
    | listen k' fd omode =>
      cases hr
      exact h.setLock (some (.accepted k k' omode)) (.inr ⟨rfl, rfl, rfl⟩) rfl rfl rfl rfl fun k' hk' => hk'
  | failing p f =>
    cases f with
    | clone omode =>
      cases hr
      exact h.setLock none (.inr ⟨rfl, rfl, rfl⟩) rfl rfl rfl rfl (by intro k hk; cases hk)
    | listen k fd omode =>
      cases hr
      exact h.setLock (some (.refusing k)) (.inr ⟨rfl, rfl, rfl⟩) rfl rfl rfl rfl (by intro k hk; cases hk)
  | listening k omode =>
    dsimp only [Ip.advance] at hr
    split_ifs at hr with hq
    cases hr
    have hfalse : (s.at_ k).listenq = false := by simpa using hq
    refine h.queue (some (.accepting k omode)) (h.on _ mem_cons_self k rfl) (.take rfl rfl ?_) rfl rfl rfl rfl
      (by intro k' hk'; cases hk')
    rw [hfalse]
    rfl
  | accepting k omode =>
    unfold Ip.advance at hr
    cases hsock : hst.socket with
    | some fd =>
      rw [hsock] at hr
      cases hr
      exact h.same (some (.cloning k.1 (.listen k fd omode))) rfl rfl rfl rfl (by intro x hx; cases hx)
        (by intro k' hk'; cases hk')
    | none =>
      rw [hsock] at hr
      cases hr
      exact h.same (some (.refusing k)) rfl rfl rfl rfl (by intro x hx; cases hx) (by intro k' hk'; cases hk')
  | accepted nc k omode =>
    dsimp only [Ip.advance] at hr
    rw [if_pos hfit.1] at hr
    cases hr
    have h₁ : Inv (s.setConv nc { s.at_ nc with state := .connected }) (.accepted nc k omode :: L) :=
      h.conv (some (.accepted nc k omode)) (h.on _ mem_cons_self nc rfl) rfl (.same rfl rfl) (.same rfl rfl)
        (.same rfl rfl)
        (fun h0 => absurd h0 (h.used rfl).ne') (by intro x hx; cases hx) fun k' hk' => .inr hk'
    have hq := h₁.queued rfl
    refine (h₁.queue (some (.closing nc)) (h₁.room_listen rfl) (.give rfl rfl ?_) rfl rfl rfl rfl fun k' hk' =>
      hk').openChan
      hfit.2 rfl rfl rfl rfl
    rw [hq]
    rfl
  | refusing k =>
    cases hr
    have hq := h.queued rfl
    refine h.queue none (h.room_listen rfl) (.give rfl rfl ?_) rfl rfl rfl rfl (by intro k' hk'; cases hk')
    rw [hq]
    rfl
  | opening k omode =>
    dsimp only [Ip.advance] at hr
    split_ifs at hr with hp
    cases hr
    exact h.setLock (some (.checking k omode))
      (.inl ⟨rfl, rfl, by simpa using hp, rfl⟩) rfl rfl rfl rfl fun k' hk' => hk'
  | checking k omode =>
    dsimp only [Ip.advance] at hr
    split_ifs at hr with hl
    cases hr
    exact h.check (by simpa using hl) hfit
  | opened k omode ok =>
    cases hr
    exact h.unlock (some (.leaving k omode ok)) rfl rfl rfl rfl (by cases ok <;> rfl) (by intro x hx; cases hx)
      (fun k' hk' => (some.inj hk').symm) rfl
  | leaving k omode ok =>
    cases hr
    cases ok with
    | true =>
      have h' := h.setLock (some (.closing k)) (p := k.1) (b := false) (.inr ⟨rfl, rfl, rfl⟩) rfl rfl rfl rfl
        fun k' hk' => hk'
      exact h'.openChan hfit rfl rfl rfl rfl
    | false => exact h.setLock none (.inr ⟨rfl, rfl, rfl⟩) rfl rfl rfl rfl (by intro k hk; cases hk)
  | closing k =>
    dsimp only [Ip.advance] at hr
    split_ifs at hr with hl
    cases hr
    exact h.close (by simpa using hl)
  | closed k =>
    cases hr
    exact h.unlock none rfl rfl rfl rfl rfl (by intro x hx; cases hx) (by intro k' hk'; cases hk') rfl
  | ctl x cmd =>
    dsimp only [Ip.advance] at hr
    split_ifs at hr with hl
    cases hr
    exact h.command hst (by simpa using hl)
  | pausing x cmd =>
    cases hr
    exact h.unlock (some (.outside x cmd)) rfl rfl rfl rfl rfl (fun y hy => hy)
      (fun k' hk' => (some.inj hk').symm) rfl
  | outside x cmd =>
    dsimp only [Ip.advance] at hr
    split_ifs at hr
    · cases hr
      exact h.write (.returning x cmd false) rfl rfl rfl rfl rfl rfl rfl (.same rfl rfl) rfl rfl
    · cases hr
      exact h.same (some (.returning x cmd hst.ok)) rfl rfl rfl rfl (fun y hy => hy) fun k hk => hk
  | returning x cmd ok =>
    dsimp only [Ip.advance] at hr
    split_ifs at hr with hl
    cases hr
    exact h.resume hst (by simpa using hl)
  | written x =>
    cases hr
    exact h.unlock none rfl rfl rfl rfl rfl (by intro y hy; cases hy) (by intro k' hk'; cases hk') rfl

theorem closeChan (h : Inv s L) {i : Nat} {x : Nat × Key} (hx : s.chans[i]? = some x)
    (hany : ∀ c ∈ L, c.chan ≠ some x) :
    Inv { s with chans := s.chans.eraseIdx i } (.closing x.2 :: L) := by
  have hperm : (x :: s.chans.eraseIdx i).Perm s.chans := by
    obtain ⟨hlt, rfl⟩ := List.getElem?_eq_some_iff.1 hx
    exact getElem_cons_eraseIdx_perm hlt
  have hroom : x.2.2 < s.nc x.2.1 := h.room_of_ne fun hz => by
    have hpos := h.used_chan (mem_of_getElem? hx)
    rw [hz] at hpos
    exact hpos.false
  refine ⟨fun p => by rw [countP_cons_eq]; exact h.plock p, fun k => by rw [countP_cons_eq]; exact h.l k,
    fun k => by rw [countP_cons_eq]; exact h.listenq k, fun k => ?_, h.quiet, fun c hc y hy => ?_, h.slots, h.room,
    fun c hc k hk => ?_, h.given⟩
  · have hcount := h.inuse k
    rw [← hperm.countP_eq, countP_cons] at hcount
    rw [countP_cons_eq]
    change (s.at_ k).inuse = _ + (_ + one (some x.2) k)
    simp only [decide_eq_true_eq] at hcount
    unfold one
    simp only [some.injEq]
    omega
  · rcases mem_cons.1 hc with rfl | hc'
    · cases hy
    · rcases mem_cons.1 (hperm.mem_iff.2 (h.chan c hc' y hy)) with heq | hmem
      · rw [heq] at hy
        exact absurd hy (hany c hc')
      · exact hmem
  · rcases mem_cons.1 hc with rfl | hc
    · cases hk
      exact hroom
    · exact h.on c hc k hk

theorem setCalls (h : Inv s L) (L' : List Call) : Inv { s with calls := L' } L :=
  ⟨h.plock, h.l, h.listenq, h.inuse, h.quiet, h.chan, h.slots, h.room, h.on, h.given⟩

theorem step {a : Act} (h : Inv s s.calls) (hfit : Fits s a) (hs : Ip.step s a = some s') : Inv s' s'.calls := by
  cases a with
  | clone p omode =>
    cases hs
    exact (h.add (c := .cloning p (.clone omode)) rfl rfl rfl rfl
      (by intro x hx; cases hx) (by intro k hk; cases hk)).setCalls _
  | openctl k omode =>
    dsimp only [Ip.step] at hs
    split_ifs at hs with hk
    cases hs
    refine (h.add (c := .opening k omode) rfl rfl rfl rfl (by intro x hx; cases hx) fun k' hk' => ?_).setCalls _
    cases hk'
    exact h.room k hk
  | listen k omode permitted =>
    dsimp only [Ip.step] at hs
    split_ifs at hs with hk hann
    · cases hs
      refine (h.add (c := .listening k omode) rfl rfl rfl rfl (by intro x hx; cases hx) fun k' hk' => ?_).setCalls _
      cases hk'
      exact h.room k hk
    · cases hs
      exact h
  | close i =>
    obtain ⟨x, hx, hs'⟩ := bind_eq_some_iff.1 hs
    split_ifs at hs' with hany
    cases hs'
    refine (h.closeChan hx fun c hc heq => hany ?_).setCalls _
    exact any_eq_true.2 ⟨c, hc, by simpa using heq⟩
  | ctl i cmd =>
    obtain ⟨x, hx, hs'⟩ := map_eq_some_iff.1 hs
    cases hs'
    refine (h.add (c := .ctl x cmd) rfl rfl rfl rfl (fun y hy => ?_) fun k hk => ?_).setCalls _
    · cases hy
      exact mem_of_getElem? hx
    · cases hk
      exact h.room_of_ne fun hz => by
        have hpos := h.used_chan (mem_of_getElem? hx)
        rw [hz] at hpos
        exact hpos.false
  | go i hst =>
    obtain ⟨c, hc, hs'⟩ := bind_eq_some_iff.1 hs
    obtain ⟨r, hr, hs'⟩ := map_eq_some_iff.1 hs'
    cases hs'
    obtain ⟨hlt, rfl⟩ := List.getElem?_eq_some_iff.1 hc
    have hperm : (s.calls[i] :: s.calls.eraseIdx i).Perm s.calls := getElem_cons_eraseIdx_perm hlt
    refine ((h.perm hperm.symm).advance hperm (fun j hj => ?_) hr).setCalls _
    intro d hd
    cases hj.symm.trans hd
    exact hfit _ hc

theorem init : Inv St.init [] where
  plock _ := rfl
  l _ := rfl
  listenq _ := rfl
  inuse _ := rfl
  quiet _ _ := ⟨rfl, rfl⟩
  chan c hc := absurd hc not_mem_nil
  slots p := by cases p <;> decide
  room k hk := by cases hk
  on c hc := absurd hc not_mem_nil
  given g hg := absurd hg not_mem_nil

theorem sound (h : Inv s s.calls) : Sound s := by
  refine ⟨fun hcalls => ?_, h.given⟩
  rw [hcalls] at h
  refine ⟨fun p => ?_, fun k c hc => ?_⟩
  · have := h.plock p
    cases hp : s.plock p with
    | false => rfl
    | true =>
      rw [hp] at this
      cases this
  have hat : s.at_ k = c := by
    unfold St.at_
    rw [hc]
    rfl
  rw [← hat]
  refine ⟨?_, ?_, h.inuse k, h.quiet k⟩
  · have := h.l k
    cases hl : (s.at_ k).l with
    | false => rfl
    | true =>
      rw [hl] at this
      cases this
  have := h.listenq k
  cases hl : (s.at_ k).listenq with
  | false => rfl
  | true =>
    rw [hl] at this
    cases this

end Inv

/-- Along every run in which the sockets that `protoclone` and the opens need are made. -/
theorem conversations_always {acts : List Act} (h : Along step Fits St.init acts) : Always step Sound St.init acts := by
  refine (h.always (fun _ _ _ hI hfit hs => ?_) Inv.init).mono fun s hI => Inv.sound hI
  exact Inv.step hI hfit hs

def Host.good : Host := ⟨true, true, true, some 3, true⟩

/-- A conversation is made, connected and closed. -/
def session : List Act :=
  [.clone .tcp 2, .go 0 .good, .go 0 .good, .go 0 .good, .go 0 .good, .ctl 0 .connect, .go 0 .good, .go 0 .good,
    .go 0 .good,
    .go 0 .good, .go 0 .good, .close 0, .go 0 .good, .go 0 .good]

theorem conversations_session : Always step Sound St.init session ∧
    (run step St.init session).map (fun s => (s.calls.length, (s.at_ (.tcp, 0)).inuse, (s.at_ (.tcp, 0)).sfd)) =
      some (0, 0, none) := by
  refine ⟨conversations_always ?_, rfl⟩
  refine Along.cons trivial rfl <| Along.cons ?_ rfl <| Along.cons ?_ rfl <| Along.cons ?_ rfl <| Along.cons ?_ rfl <|
    Along.cons trivial rfl <| Along.cons ?_ rfl <| Along.cons ?_ rfl <| Along.cons ?_ rfl <| Along.cons ?_ rfl <|
    Along.cons ?_ rfl <| Along.cons trivial rfl <| Along.cons ?_ rfl <| Along.cons ?_ rfl trivial
  all_goals
    intro c hc
    cases hc
    first
      | exact trivial
      | rfl
      | exact fun _ => rfl

def unmade : List Act := [.clone .udp 2, .go 0 .good, .go 0 { Host.good with socket := none }, .go 0 .good]

theorem unmade_locked : ¬ ∀ acts, Always step Sound St.init acts := by
  intro h
  have hrun : ∃ s c, run step St.init unmade = some s ∧ s.calls = [] ∧ s.conv (.udp, 0) = some c ∧ c.l = true :=
    ⟨_, _, rfl, rfl, rfl, rfl⟩
  obtain ⟨s, c, hs, hcalls, hc, hl⟩ := hrun
  have hfree := (((h unmade).last hs).1 hcalls).2 _ c hc
  rw [hl] at hfree
  cases hfree.1

end Node9.Ip
