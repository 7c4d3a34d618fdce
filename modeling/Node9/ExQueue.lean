import Node9.Lib.Linked
import Node9.Lib.Steps

/-!
# The export work queue (`exportfs.c`)

`exq` is a singly linked list with a tail pointer, edited in four places, each under `exq.l`: `exportproc`
appends, `exslave` takes the head (and reuses `q->next` for the list `fs->work`), `exflushed` and
`exshutdown` unlink through `last`. A node is the number of its allocation. `deq` and `gone` record what
the slaves took and what a flush or a shutdown unlinked.

The queue of flushes that wait for a request in progress (`q->flush`) has nodes of its own, which never
get into `exq`; it is left out.
-/

namespace Node9.ExQueue
open Linked Steps Function
open List hiding Chain

/-- Where a pointer to a request is stored: `exq.head`, `exq.tail`, `fs->work`, `q->next`. -/
inductive Cell
  | head
  | tail
  | work (fs : Nat)
  | next (q : Nat)
deriving DecidableEq

abbrev Mem := Cell → Option Nat

structure St where
  mem : Mem
  /-- `q->export` -/
  fs : Nat → Nat
  /-- `q->in.tag` -/
  tag : Nat → UInt16
  /-- requests allocated so far -/
  fresh : Nat
  deq : List Nat
  gone : List Nat

def init : St := ⟨fun _ => none, fun _ => 0, fun _ => 0, 0, [], []⟩

/-! ### The four editors and the work list -/

/-- `exportproc`: place a request of the connection `fs` on the queue. -/
def enqueue (fs : Nat) (tag : UInt16) (s : St) : St :=
  let q := s.fresh
  let mem : Mem :=
    match s.mem .head with
    | none => update s.mem .head (some q)
    | some _ =>
      match s.mem .tail with
      | some t => update s.mem (.next t) (some q)
      | none => s.mem
  let mem : Mem := update mem (.next q) none
  let mem : Mem := update mem .tail (some q)
  { s with mem, fs := update s.fs q fs, tag := update s.tag q tag, fresh := q + 1 }

/-- `exslave`: take the head of the queue, and put it on the work list of its connection. -/
def dequeue (s : St) : St :=
  match s.mem .head with
  | none => s
  | some q =>
    let mem : Mem := update s.mem .head (s.mem (.next q))
    let mem : Mem := update mem (.next q) (mem (.work (s.fs q)))
    let mem : Mem := update mem (.work (s.fs q)) (some q)
    { s with mem, deq := s.deq ++ [q] }

/-- `q->export == fs && q->in.tag == fq->in.oldtag`. -/
def isOld (s : St) (fs : Nat) (oldtag : UInt16) (q : Nat) : Bool := s.fs q == fs && s.tag q == oldtag

/-- The first loop of `exflushed`. -/
def flush (fs : Nat) (oldtag : UInt16) (s : St) : St :=
  let r := unlinkFirst .next (isOld s fs oldtag) (s.fresh + 1) .head s.mem
  { s with mem := r.1, gone := s.gone ++ r.2.toList }

/-- The first loop of `exshutdown`. -/
def shutdown (fs : Nat) (s : St) : St :=
  let r := unlinkAll .next (fun q => s.fs q == fs) (s.fresh + 1) .head s.mem
  { s with mem := r.1, gone := s.gone ++ r.2 }

/-- The second loop of `exshutdown`: `while((q = fs->work) != nil) fs->work = q->next`. -/
def abandon (fs : Nat) (s : St) : St :=
  { s with mem := (unlinkAll .next (fun _ => true) (s.fresh + 1) (.work fs) s.mem).1 }

/-- The end of `exslave`: take `q` off the work list of its connection. -/
def finish (q : Nat) (s : St) : St :=
  { s with mem := (unlinkFirst .next (· == q) (s.fresh + 1) (.work (s.fs q)) s.mem).1 }

inductive Op
  | enqueue (fs : Nat) (tag : UInt16)
  | dequeue
  | flush (fs : Nat) (oldtag : UInt16)
  | shutdown (fs : Nat)
  | abandon (fs : Nat)
  | finish (q : Nat)

def step (s : St) : Op → Option St
  | .enqueue fs tag => some (enqueue fs tag s)
  | .dequeue => some (dequeue s)
  | .flush fs oldtag => some (flush fs oldtag s)
  | .shutdown fs => some (shutdown fs s)
  | .abandon fs => some (abandon fs s)
  | .finish q => some (finish q s)

/-! ### What the queue promises, and when a step keeps it -/

/-- The requests that the queue holds. -/
def St.items (s : St) : List Nat := collect s.mem .next s.fresh .head

/-- `exq.tail` is the last element of a non-empty queue. Every request enqueued was, once and only once,
dequeued, unlinked or is still in the queue, and the next dequeues take those that are, in order. -/
def Sound (s : St) : Prop :=
  ∃ xs, Chain s.mem .next .head xs ∧ (xs ≠ [] → s.mem .tail = xs.getLast?) ∧
    (s.deq ++ s.gone ++ xs).Perm (range s.fresh) ∧
    ∃ s', run step s (replicate xs.length .dequeue) = some s' ∧ s'.deq = s.deq ++ xs

/-- A flush does not unlink the last element of the queue and a shutdown does not take it away either,
unless nothing is left. -/
def KeepsLast (s : St) : Op → Prop
  | .flush fs oldtag => s.items.find? (isOld s fs oldtag) = s.items.getLast? → s.items.length ≤ 1
  | .shutdown fs => (∀ q ∈ s.items.getLast?, s.fs q = fs) → ∀ q ∈ s.items, s.fs q = fs
  | _ => True

/-- The queue `xs` and the work lists `ws` that the pointers spell out. -/
structure Inv (s : St) (xs : List Nat) (ws : Nat → List Nat) : Prop where
  queue : Chain s.mem .next .head xs
  work : ∀ fs, Chain s.mem .next (.work fs) (ws fs)
  tail : xs ≠ [] → s.mem .tail = xs.getLast?
  perm : (s.deq ++ s.gone ++ xs).Perm (range s.fresh)
  work_deq : ∀ fs, ∀ q ∈ ws fs, q ∈ s.deq
  work_fs : ∀ fs, ∀ q ∈ ws fs, s.fs q = fs

theorem inv_init : Inv init [] fun _ => [] where
  queue := rfl
  work _ := rfl
  tail h := absurd rfl h
  perm := .refl _
  work_deq _ _ h := absurd h (not_mem_nil)
  work_fs _ _ h := absurd h (not_mem_nil)

theorem next_injective : Injective Cell.next := fun _ _ h => Cell.next.inj h

namespace Inv
variable {s : St} {xs : List Nat} {ws : Nat → List Nat} {fs : Nat} {q : Nat}

section
variable (h : Inv s xs ws)
include h

theorem nodup : (s.deq ++ s.gone ++ xs).Nodup := h.perm.nodup_iff.2 nodup_range

theorem lt_fresh (hq : q ∈ xs) : q < s.fresh :=
  mem_range.1 (h.perm.mem_iff.1 (mem_append_right _ hq))

theorem lt_fresh_of_work (hq : q ∈ ws fs) : q < s.fresh :=
  mem_range.1 (h.perm.mem_iff.1 (by simp [h.work_deq fs q hq]))

theorem not_work (hq : q ∈ xs) : q ∉ ws fs := by
  intro hw
  have hd := h.work_deq fs q hw
  exact (nodup_append.1 h.nodup).2.2 q (by simp [hd]) q hq rfl

theorem length_le : xs.length ≤ s.fresh := by
  have := h.perm.length_eq
  simp only [length_append, length_range] at this
  omega

theorem length_work_le : (ws fs).length ≤ s.fresh := by
  have hsub : ws fs ⊆ range s.fresh := fun q hq => mem_range.2 (h.lt_fresh_of_work hq)
  simpa using (subperm_of_subset (h.work fs).nodup hsub).length_le

theorem items_eq : s.items = xs := h.queue.collect_eq h.length_le

theorem mem_enqueue (fs : Nat) (tag : UInt16) :
    (enqueue fs tag s).mem = update (update
      (update s.mem (endCell .next .head xs) (some s.fresh)) (.next s.fresh) none) .tail (some s.fresh) := by
  cases xs using reverseRecOn with
  | nil =>
    have hhead : s.mem .head = none := h.queue
    simp only [enqueue, hhead, endCell_nil]
  | append_singleton ys t =>
    obtain ⟨q, hhead⟩ : ∃ q, s.mem .head = some q := by
      cases hys : ys ++ [t] with
      | nil => simp at hys
      | cons q zs =>
        have hq := h.queue
        rw [hys] at hq
        exact ⟨q, hq.1⟩
    have htail : s.mem .tail = some t := by
      rw [h.tail (by simp)]
      exact getLast?_concat
    simp only [enqueue, hhead, htail, endCell_concat]

theorem enqueue (fs : Nat) (tag : UInt16) :
    Inv (ExQueue.enqueue fs tag s) (xs ++ [s.fresh]) ws := by
  have hfresh : s.fresh ∉ xs := fun hq => lt_irrefl _ (h.lt_fresh hq)
  have hend : ∀ fs, ∀ q ∈ ws fs, Cell.next q ≠ endCell .next .head xs := by
    intro fs q hq
    unfold endCell
    cases hl : xs.getLast? with
    | none => simp
    | some t =>
      have ht : t ∈ xs := mem_of_getLast? hl
      simp only [Option.map_some, Option.getD_some, ne_eq, Cell.next.injEq]
      rintro rfl
      exact h.not_work ht hq
  have hwend : ∀ fs, Cell.work fs ≠ endCell .next .head xs := by
    intro fs
    unfold endCell
    cases xs.getLast? <;> simp
  refine ⟨?_, ?_, ?_, ?_, h.work_deq, ?_⟩
  · rw [h.mem_enqueue]
    refine Chain.congr (h.queue.snoc (by simp) hfresh next_injective (by simp)) ?_ fun q _ => ?_
    · exact update_of_ne (by simp) _ _
    · exact update_of_ne (by simp) _ _
  · intro fs'
    rw [h.mem_enqueue]
    refine (h.work fs').congr ?_ fun q hq => ?_
    · rw [update_of_ne (by simp), update_of_ne (by simp), update_of_ne (hwend fs')]
    · have hne : Cell.next q ≠ .next s.fresh := fun heq =>
        lt_irrefl _ (Cell.next.inj heq ▸ h.lt_fresh_of_work hq)
      rw [update_of_ne (by simp), update_of_ne hne, update_of_ne (hend fs' q hq)]
  · intro _
    rw [h.mem_enqueue, update_self]
    exact getLast?_concat.symm
  · show (s.deq ++ s.gone ++ (xs ++ [s.fresh])).Perm (range (s.fresh + 1))
    rw [range_succ, ← append_assoc]
    exact h.perm.append_right _
  · intro fs' q hq
    have hne : q ≠ s.fresh := fun heq => lt_irrefl _ (heq ▸ h.lt_fresh_of_work hq)
    show update s.fs s.fresh fs q = fs'
    rw [update_of_ne hne]
    exact h.work_fs fs' q hq

end

theorem mem_dequeue (h : Inv s (q :: xs) ws) (d : Cell) :
    (ExQueue.dequeue s).mem d =
      if d = .work (s.fs q) then some q else if d = .next q then s.mem (.work (s.fs q))
      else if d = .head then s.mem (.next q) else s.mem d := by
  simp only [ExQueue.dequeue, h.queue.1, update_apply, reduceCtorEq, ↓reduceIte]

theorem dequeue_rest (h : Inv s (q :: xs) ws) :
    ExQueue.dequeue s = { s with mem := (ExQueue.dequeue s).mem, deq := s.deq ++ [q] } := by
  simp only [ExQueue.dequeue, h.queue.1]

theorem dequeue (h : Inv s (q :: xs) ws) :
    Inv (ExQueue.dequeue s) xs (update ws (s.fs q) (q :: ws (s.fs q))) := by
  have hq : q ∉ xs := (nodup_cons.1 h.queue.nodup).1
  have hnext : ∀ n, n ≠ q → (ExQueue.dequeue s).mem (.next n) = s.mem (.next n) := by
    intro n hn
    simp [h.mem_dequeue, hn]
  have hws : ∀ fs, ∀ n ∈ ws fs, (ExQueue.dequeue s).mem (.next n) = s.mem (.next n) := fun fs n hn =>
    hnext n fun heq => h.not_work (by simp) (heq ▸ hn)
  -- a node of the new work lists is `q`, on its own list, or was on that list before
  have hold : ∀ fs n, n ∈ update ws (s.fs q) (q :: ws (s.fs q)) fs →
      n = q ∧ fs = s.fs q ∨ n ∈ ws fs := by
    intro fs n hn
    by_cases hf : fs = s.fs q
    · rw [hf, update_self] at hn
      rcases mem_cons.1 hn with rfl | hn
      · exact .inl ⟨rfl, hf⟩
      · exact .inr (hf ▸ hn)
    · rw [update_of_ne hf] at hn
      exact .inr hn
  have hqueue : Chain (ExQueue.dequeue s).mem .next .head xs :=
    h.queue.2.congr (by simp [h.mem_dequeue]) fun n hn => hnext n fun heq => hq (heq ▸ hn)
  have hwork : ∀ fs, Chain (ExQueue.dequeue s).mem .next (.work fs)
      (update ws (s.fs q) (q :: ws (s.fs q)) fs) := by
    intro fs
    by_cases hf : fs = s.fs q
    · subst hf
      rw [update_self]
      exact ⟨by simp [h.mem_dequeue], (h.work (s.fs q)).congr (by simp [h.mem_dequeue]) (hws _)⟩
    · rw [update_of_ne hf]
      exact (h.work fs).congr (by simp [h.mem_dequeue, hf]) (hws fs)
  have htail : xs ≠ [] → (ExQueue.dequeue s).mem .tail = xs.getLast? := by
    intro hne
    obtain ⟨x, xs', rfl⟩ := exists_cons_of_ne_nil hne
    rw [← getLast?_cons_cons, ← h.tail (by simp)]
    simp [h.mem_dequeue]
  rw [h.dequeue_rest]
  refine ⟨hqueue, hwork, htail, ?_, fun fs n hn => ?_, fun fs n hn => ?_⟩
  · refine List.Perm.trans ?_ h.perm
    simp only [append_assoc, cons_append, nil_append]
    exact (perm_middle.symm).append_left _
  · rcases hold fs n hn with ⟨rfl, -⟩ | hn
    · simp
    · exact mem_append_left _ (h.work_deq fs n hn)
  · rcases hold fs n hn with ⟨rfl, hf⟩ | hn
    · exact hf.symm
    · exact h.work_fs fs n hn

theorem unlinked {s' : St} {ys rs : List Nat} (h : Inv s xs ws) (hys : Chain s'.mem .next .head ys)
    (hframe : ∀ d, d ≠ .head → (∀ a ∈ xs, d ≠ .next a) → s'.mem d = s.mem d)
    (hs' : s' = { s with mem := s'.mem, gone := s.gone ++ rs }) (hperm : (rs ++ ys).Perm xs)
    (hlast : ys ≠ [] → ys.getLast? = xs.getLast?) : Inv s' ys ws := by
  have hwork : ∀ fs, Chain s'.mem .next (.work fs) (ws fs) := fun fs =>
    (h.work fs).congr (hframe _ (by simp) (by simp)) fun q hq =>
      hframe _ (by simp) fun a ha heq => h.not_work ha (Cell.next.inj heq ▸ hq)
  have htail : ys ≠ [] → s'.mem .tail = ys.getLast? := by
    intro hne
    have hxs : xs ≠ [] := by
      rintro rfl
      exact hne (append_eq_nil_iff.1 (List.Perm.eq_nil hperm)).2
    rw [hframe _ (by simp) (by simp), h.tail hxs, hlast hne]
  rw [hs'] at hys hwork htail ⊢
  refine ⟨hys, hwork, htail, ?_, h.work_deq, h.work_fs⟩
  refine List.Perm.trans ?_ h.perm
  show (s.deq ++ (s.gone ++ rs) ++ ys).Perm _
  simp only [append_assoc]
  exact (hperm.append_left s.gone).append_left s.deq

variable {oldtag : UInt16}

section
variable (h : Inv s xs ws)
include h

theorem flush_spec (fs : Nat) (oldtag : UInt16) :
    Chain (flush fs oldtag s).mem .next .head (xs.eraseP (isOld s fs oldtag)) ∧
      (unlinkFirst .next (isOld s fs oldtag) (s.fresh + 1) .head s.mem).2 = xs.find? (isOld s fs oldtag) ∧
      ∀ d, d ≠ .head → (∀ a ∈ xs, d ≠ .next a) → (flush fs oldtag s).mem d = s.mem d :=
  unlinkFirst_spec next_injective h.queue (Nat.lt_succ_of_le h.length_le) (by simp)

theorem shutdown_spec (fs : Nat) :
    Chain (shutdown fs s).mem .next .head (xs.filter fun q => !(s.fs q == fs)) ∧
      (unlinkAll .next (fun q => s.fs q == fs) (s.fresh + 1) .head s.mem).2 = xs.filter (fun q => s.fs q == fs) ∧
      ∀ d, d ≠ .head → (∀ a ∈ xs, d ≠ .next a) → (shutdown fs s).mem d = s.mem d :=
  unlinkAll_spec next_injective h.queue (Nat.lt_succ_of_le h.length_le) (by simp)

theorem keepsLast_flush :
    KeepsLast s (.flush fs oldtag) ↔
      (xs.eraseP (isOld s fs oldtag) ≠ [] → (xs.eraseP (isOld s fs oldtag)).getLast? = xs.getLast?) := by
  rw [getLast?_eraseP_iff h.queue.nodup, KeepsLast, h.items_eq]

theorem keepsLast_shutdown :
    KeepsLast s (.shutdown fs) ↔
      (xs.filter (fun q => !(s.fs q == fs)) ≠ [] →
        (xs.filter fun q => !(s.fs q == fs)).getLast? = xs.getLast?) := by
  rw [getLast?_filter_iff (p := fun q => s.fs q == fs), KeepsLast, h.items_eq]
  simp only [beq_iff_eq]

theorem flush (hk : KeepsLast s (.flush fs oldtag)) :
    Inv (ExQueue.flush fs oldtag s) (xs.eraseP (isOld s fs oldtag)) ws := by
  obtain ⟨hch, hrem, hframe⟩ := h.flush_spec fs oldtag
  refine h.unlinked hch hframe ?_ (find?_append_eraseP_perm _ xs) (h.keepsLast_flush.1 hk)
  rw [ExQueue.flush, hrem]

theorem shutdown (hk : KeepsLast s (.shutdown fs)) :
    Inv (ExQueue.shutdown fs s) (xs.filter fun q => !(s.fs q == fs)) ws := by
  obtain ⟨hch, hrem, hframe⟩ := h.shutdown_spec fs
  refine h.unlinked hch hframe ?_ (filter_append_perm _ xs) (h.keepsLast_shutdown.1 hk)
  rw [ExQueue.shutdown, hrem]

theorem work_unlinked {mem : Mem} {ys : List Nat} (hys : Chain mem .next (.work fs) ys)
    (hsub : ∀ q ∈ ys, q ∈ ws fs)
    (hframe : ∀ d, d ≠ .work fs → (∀ a ∈ ws fs, d ≠ .next a) → mem d = s.mem d) :
    Inv { s with mem } xs (update ws fs ys) := by
  have hold : ∀ fs', ∀ q ∈ update ws fs ys fs', q ∈ ws fs' := by
    intro fs' q hq
    by_cases hf : fs' = fs
    · subst hf
      rw [update_self] at hq
      exact hsub q hq
    · rwa [update_of_ne hf] at hq
  refine ⟨?_, fun fs' => ?_, fun hne => ?_, h.perm, fun fs' q hq => h.work_deq fs' q (hold fs' q hq),
    fun fs' q hq => h.work_fs fs' q (hold fs' q hq)⟩
  · refine h.queue.congr (hframe _ (by simp) (by simp)) fun q hq => hframe _ (by simp) fun a ha heq => ?_
    exact h.not_work hq (Cell.next.inj heq ▸ ha)
  · by_cases hf : fs' = fs
    · subst hf
      rw [update_self]
      exact hys
    · rw [update_of_ne hf]
      refine (h.work fs').congr (hframe _ (by simpa using hf) (by simp)) fun q hq =>
        hframe _ (by simp) fun a ha heq => hf ?_
      obtain rfl := Cell.next.inj heq
      rw [← h.work_fs fs' q hq, ← h.work_fs fs q ha]
  · rw [← h.tail hne]
    exact hframe _ (by simp) (by simp)

theorem abandon (fs : Nat) : ∃ ws', Inv (ExQueue.abandon fs s) xs ws' := by
  obtain ⟨hch, -, hframe⟩ := unlinkAll_spec (p := fun _ => true) next_injective (h.work fs)
    (Nat.lt_succ_of_le h.length_work_le) (by simp)
  exact ⟨_, h.work_unlinked hch (by simp) hframe⟩

theorem finish (q : Nat) : ∃ ws', Inv (ExQueue.finish q s) xs ws' := by
  obtain ⟨hch, -, hframe⟩ := unlinkFirst_spec (p := (· == q)) next_injective (h.work (s.fs q))
    (Nat.lt_succ_of_le h.length_work_le) (by simp)
  exact ⟨_, h.work_unlinked hch (fun n hn => mem_of_mem_eraseP hn) hframe⟩

theorem drain :
    ∃ s', run step s (replicate xs.length .dequeue) = some s' ∧ s'.deq = s.deq ++ xs := by
  induction xs generalizing s ws with
  | nil => exact ⟨s, rfl, (append_nil _).symm⟩
  | cons q xs ih =>
    obtain ⟨s', hrun, hdeq⟩ := ih h.dequeue
    refine ⟨s', run_cons.2 ⟨_, rfl, hrun⟩, ?_⟩
    rw [hdeq, h.dequeue_rest]
    simp

theorem sound : Sound s := ⟨xs, h.queue, h.tail, h.perm, h.drain⟩

end

end Inv

theorem step_inv {s s' : St} {op : Op} (h : ∃ xs ws, Inv s xs ws) (hk : KeepsLast s op)
    (hs' : step s op = some s') : ∃ xs ws, Inv s' xs ws := by
  obtain ⟨xs, ws, h⟩ := h
  cases op <;> cases hs'
  case enqueue fs tag => exact ⟨_, _, h.enqueue fs tag⟩
  case dequeue =>
    cases xs with
    | nil =>
      have hnil : s.mem .head = none := h.queue
      exact ⟨[], ws, by rw [dequeue, hnil]; exact h⟩
    | cons q xs => exact ⟨_, _, h.dequeue⟩
  case flush fs oldtag => exact ⟨_, _, h.flush hk⟩
  case shutdown fs => exact ⟨_, _, h.shutdown hk⟩
  case abandon fs => exact ⟨xs, h.abandon fs⟩
  case finish q => exact ⟨xs, h.finish q⟩

theorem step_breaks {s s' : St} {op : Op} (h : ∃ xs ws, Inv s xs ws) (hk : ¬ KeepsLast s op)
    (hs' : step s op = some s') : ¬ Sound s' := by
  obtain ⟨xs, ws, h⟩ := h
  rintro ⟨zs, hzs, htail, -⟩
  -- the tail is still the last element of the old queue
  have hxs : ∀ ys : List Nat, ys ⊆ xs → ys ≠ [] → xs ≠ [] := by
    rintro ys hsub hne rfl
    exact hne (subset_nil.1 hsub)
  cases op <;> cases hs'
  case flush fs oldtag =>
    obtain ⟨hch, -, hframe⟩ := h.flush_spec fs oldtag
    obtain rfl := hzs.unique hch
    refine hk (h.keepsLast_flush.2 fun hne => ?_)
    rw [← htail hne, hframe _ (by simp) (by simp), h.tail (hxs _ (eraseP_subset) hne)]
  case shutdown fs =>
    obtain ⟨hch, -, hframe⟩ := h.shutdown_spec fs
    obtain rfl := hzs.unique hch
    refine hk (h.keepsLast_shutdown.2 fun hne => ?_)
    rw [← htail hne, hframe _ (by simp) (by simp), h.tail (hxs _ filter_sublist.subset hne)]
  all_goals exact hk trivial

/-- The work queue keeps its promise in every state of a run exactly if no flush and no shutdown of the
run unlinks the last element of the queue and leaves others in it. -/
theorem sound_iff_keepsLast (ops : List Op) :
    Always step Sound init ops ↔ Along step KeepsLast init ops :=
  always_iff_along (I := fun s => ∃ xs ws, Inv s xs ws) (fun _ ⟨_, _, h⟩ => h.sound)
    (fun _ _ _ h hk hs' => step_inv h hk hs') (fun _ _ _ h hk hs' => step_breaks h hk hs')
    ⟨[], _, inv_init⟩

/-- Two requests, a flush of the second, and a third: it is stored behind the one that was freed. -/
theorem flushed_last_loses_request :
    ¬ ∀ ops, Always step Sound init ops := by
  intro h
  obtain ⟨xs, hch, -, hperm, -⟩ :=
    (h [.enqueue 0 1, .enqueue 0 2, .flush 0 2, .enqueue 0 3]).last rfl
  obtain rfl : xs = [0] := hch.unique ⟨rfl, rfl⟩
  exact absurd hperm.length_eq (by decide)

end Node9.ExQueue
