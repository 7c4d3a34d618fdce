import Node9.QioQueue

/-!
# The counters in every run (`qio.c`)

`pullupqueue` adds and frees blocks as `pullupblock` does, and leaves `len` and `dlen` as they were. So they stay right
only if the blocks that it empties are as large together as the one that it adds: `Level`.

A run is one operation after the other, those that others call with the queue locked among them. Between two turns of
a `qwrite` or a `qiwrite` there can be others.
-/

namespace Node9.Qio
open Buf Steps List Option

inductive Op
  | qget
  | qdiscard (len : Int)
  | qconsume (len : Nat)
  | qpass (bs : List Block)
  | qpassnolim (bs : List Block)
  | qproduce (block : Option Nat) (p : Bytes)
  | qaddlist (bs : List Block)
  | qremove
  | qputback (b : Block)
  | pullupqueue (n : Int) (addr : Nat)
  | qbread (len : Nat) (block : Option Nat)
  | qread (len : Nat)
  | qbwrite (b : Block)
  | qwrite (p : Bytes) (len sofar : Int) (block : Option Nat)
  | qiwrite (p : Bytes) (len sofar : Int) (block : Option Nat)
  | qclose
  | qflush

/-- The blocks that an operation is given or makes. -/
def Op.gives : Op → List Nat
  | .qpass bs => addrs bs
  | .qpassnolim bs => addrs bs
  | .qaddlist bs => addrs bs
  | .qputback b => [b.addr]
  | .qbwrite b => [b.addr]
  | .qproduce block _ => block.toList
  | .pullupqueue _ addr => [addr]
  | .qbread _ block => block.toList
  | .qwrite _ _ _ block => block.toList
  | .qiwrite _ _ _ block => block.toList
  | _ => []

def Op.exec (m : Mode) (q : Fifo) : Op → Option Fifo
  | .qget => some q.qget.2
  | .qdiscard len => some (q.qdiscard len).2
  | .qconsume len => some (q.qconsume m.toKind len).2
  | .qpass bs => (q.qpass bs).map Prod.snd
  | .qpassnolim bs => (q.qpassnolim bs).map Prod.snd
  | .qproduce block p => (q.qproduce block p).map Prod.snd
  | .qaddlist bs => q.qaddlist bs
  | .qremove => some q.qremove.2
  | .qputback b => some (q.qputback b)
  | .pullupqueue n addr => (q.pullupqueue n ⟨addr, []⟩).map fun r => r.2.1
  | .qbread len block => some (q.qbread m.toKind len block).2
  | .qread len => some (q.qread m len).2
  | .qbwrite b => (q.qbwrite m.toKind b).map Prod.snd
  | .qwrite p len sofar block => (q.qwrite m.toKind p len sofar block).map Prod.snd
  | .qiwrite p len sofar block => q.qiwrite p len sofar block
  | .qclose => some q.qclose
  | .qflush => some q.qflush

/-- Who gives a block to the queue has it, so that it is not on the list. -/
def Op.Owns (q : Fifo) (o : Op) : Prop := o.gives.Nodup ∧ ∀ a ∈ o.gives, a ∉ addrs q.bfirst

instance Op.decidableOwns (q : Fifo) (o : Op) : Decidable (o.Owns q) := inferInstanceAs (Decidable (_ ∧ _))

def step (m : Mode) (q : Fifo) (o : Op) : Option Fifo := if o.Owns q then o.exec m q else none

/-- The blocks that are emptied when `n` bytes are taken from the front. -/
def drained (n : Int) : List Block → List Block
  | [] => []
  | b :: bs => if (b.BLEN : Int) > n then [] else if n - b.BLEN = 0 then [b] else b :: drained (n - b.BLEN) bs

/-- What is pulled up is there already, or as much of the size goes as comes. -/
def Level (bp : List Block) (n : Int) : Prop :=
  match bp with
  | [] => True
  | b :: rest =>
    if n ≤ b.BLEN then True
    else if n ≤ total bp then
      if ((b.BLEN + b.room : Nat) : Int) < n then int (alloc (drained n bp)) = int n
      else int (alloc (drained (n - b.BLEN) rest)) = 0
    else int (alloc bp) = 0 ∧ int (total bp) = 0

def Op.Levels (q : Fifo) : Op → Prop
  | .pullupqueue n _ => Level q.bfirst n
  | _ => True

theorem pullupLoop_size {b : Block} {n : Int} {rest r : List Block} {h h' : Heap} (hn : 0 < n)
    (hr : pullupLoop b n rest h = some (r, h')) :
    (addrs r).Sublist (addrs (b :: rest)) ∧
    (n ≤ total rest → alloc r + alloc (drained n rest) = alloc (b :: rest)) := by
  induction rest generalizing b n h with
  | nil =>
    cases hr
    refine ⟨nil_sublist _, fun hle => ?_⟩
    rw [total_nil] at hle
    omega
  | cons c rest ih =>
    unfold pullupLoop at hr
    unfold drained
    by_cases hgt : (c.BLEN : Int) > n
    · simp only [if_pos hgt] at hr ⊢
      obtain ⟨⟨d, h₁⟩, hput, hr⟩ := bind_eq_some_iff.1 hr
      cases hr
      unfold Block.put at hput
      split at hput
      case isFalse => cases hput
      case isTrue hroom =>
        cases hput
        refine ⟨.refl _, fun _ => ?_⟩
        have hskip : (c.skip n.toNat).BALLOC = c.BALLOC := BALLOC_skip (by omega)
        simp only [alloc_cons, alloc_nil, hskip]
        simp only [Block.BALLOC, length_append]
        omega
    simp only [if_neg hgt] at hr ⊢
    obtain ⟨⟨d, h₁⟩, hput, hr⟩ := bind_eq_some_iff.1 hr
    unfold Block.put at hput
    split at hput
    case isFalse => cases hput
    case isTrue hroom =>
      cases hput
      dsimp only at hr
      rw [bind_some rfl] at hr
      by_cases hz : n - (c.BLEN : Int) = 0
      · simp only [if_pos hz] at hr ⊢
        cases hr
        refine ⟨(sublist_cons_self _ _).cons_cons _, fun _ => ?_⟩
        simp only [alloc_cons, alloc_nil, Block.BALLOC, length_append]
        omega
      simp only [if_neg hz] at hr ⊢
      obtain ⟨hsub, halloc⟩ := ih (by omega) hr
      refine ⟨hsub.trans ((sublist_cons_self _ _).cons_cons _), fun hle => ?_⟩
      have hsum := halloc (by
        rw [total_cons] at hle
        omega)
      simp only [alloc_cons, Block.BALLOC, length_append] at hsum ⊢
      omega

theorem int_eq_iff {a r d x : Nat} (h : r + d = x + a) : int a = int r ↔ int d = int x := by
  have hsum : ((r : Int) + d) = (a : Int) + x := by omega
  rw [← int_add_left_inj (x := (d : Int)), Int.add_comm (d : Int) r, hsum, Int.add_comm (d : Int) a, int_add_left_inj]

theorem Sound.pullupqueue {q q' : Fifo} {n : Int} {addr : Nat} {l : List Block} {h' : Heap} (h : Sound q)
    (ha : addr ∉ addrs q.bfirst) (hr : q.pullupqueue n ⟨addr, []⟩ = some (l, q', h')) :
    (Accounted q' ↔ Level q.bfirst n) ∧ (addrs q'.bfirst).Nodup := by
  unfold Fifo.pullupqueue at hr
  obtain ⟨⟨⟨r, e⟩, h₁⟩, hpull, hr⟩ := map_eq_some_iff.1 hr
  cases hr
  cases hq : q.bfirst with
  | nil =>
    rw [hq] at hpull
    cases hpull
  | cons b rest =>
    have hne : b :: rest ≠ [] := cons_ne_nil _ _
    rw [h.blast (by rw [hq]; exact hne), hq] at hpull
    obtain ⟨r', h₂, hrun, hp, -, hspec⟩ := pullup_spec hne n ⟨addr, []⟩
    cases hspec.symm.trans hpull
    have hnd := h.nodup
    rw [hq] at hnd ha
    have hlen := h.len
    have hdlen := h.dlen
    rw [hq] at hlen hdlen
    have hacc : ∀ l, Accounted { q with bfirst := l, blast := last l } ↔
        int (alloc (b :: rest)) = int (alloc l) ∧ int (total (b :: rest)) = int (total l) := fun l =>
      ⟨fun ha => ⟨hlen.symm.trans ha.len, hdlen.symm.trans ha.dlen⟩,
        fun he => ⟨hlen.trans he.1, hdlen.trans he.2, fun _ => rfl⟩⟩
    rw [hacc]
    unfold Level
    dsimp only
    unfold pullupblock at hrun
    by_cases hle : n ≤ b.BLEN
    · simp only [if_pos hle] at hrun ⊢
      cases hrun
      exact ⟨⟨fun _ => trivial, fun _ => ⟨rfl, rfl⟩⟩, hnd⟩
    rw [if_neg hle]
    simp only [if_neg (show ¬ (b.BLEN : Int) ≥ n from hle)] at hrun
    have htotal : n ≤ total (b :: rest) → total r = total (b :: rest) := fun hle => by
      have hne : r ≠ [] := fun hnil => by
        have := hp.nil_iff.1 hnil
        omega
      rw [total, hp.bytes hne, total]
    by_cases hroom : ((b.BLEN + b.room : Nat) : Int) < n
    · simp only [if_pos hroom] at hrun ⊢
      rw [bind_some (allocb_ok (by omega))] at hrun
      obtain ⟨hsub, halloc⟩ := pullupLoop_size (by show 0 < n - ((0 : Nat) : Int); omega) hrun
      have h0 : n - (((⟨addr, 0, [], n.toNat⟩ : Block).BLEN : Nat) : Int) = n := Int.sub_zero n
      rw [h0] at halloc
      refine ⟨?_, hsub.nodup (nodup_cons.2 ⟨ha, hnd⟩)⟩
      by_cases hlt : n ≤ total (b :: rest)
      · rw [if_pos hlt, htotal hlt]
        have hn : ((n.toNat : Nat) : Int) = n := Int.toNat_of_nonneg (by omega)
        have hsum := halloc hlt
        rw [alloc_cons, show (⟨addr, 0, [], n.toNat⟩ : Block).BALLOC = n.toNat from by
          simp [Block.BALLOC]] at hsum
        rw [int_eq_iff hsum, hn]
        exact ⟨fun he => he.1, fun he => ⟨he, rfl⟩⟩
      · rw [if_neg hlt, hp.nil_iff.2 (by omega)]
        exact Iff.rfl
    · simp only [if_neg hroom] at hrun ⊢
      obtain ⟨hsub, halloc⟩ := pullupLoop_size (by omega) hrun
      refine ⟨?_, hsub.nodup hnd⟩
      by_cases hlt : n ≤ total (b :: rest)
      · rw [if_pos hlt, htotal hlt]
        have hsum := halloc (by
          rw [total_cons] at hlt
          omega)
        rw [int_eq_iff (x := 0) (hsum.trans (zero_add _).symm)]
        exact ⟨fun he => he.1, fun he => ⟨he, rfl⟩⟩
      · rw [if_neg hlt, hp.nil_iff.2 (by omega)]
        exact Iff.rfl

theorem step_sound {m : Mode} {q q' : Fifo} {o : Op} (h : Sound q) (hs : step m q o = some q') :
    (Accounted q' ↔ o.Levels q) ∧ (addrs q'.bfirst).Nodup := by
  unfold step at hs
  split at hs
  case isFalse => cases hs
  case isTrue hown =>
    obtain ⟨hn, hd⟩ := hown
    have hkeeps : Sound q' → (Accounted q' ↔ True) ∧ (addrs q'.bfirst).Nodup := fun hq =>
      ⟨⟨fun _ => trivial, fun _ => hq.toAccounted⟩, hq.nodup⟩
    cases o with
    | qget =>
      cases hs
      exact hkeeps h.qget
    | qdiscard len =>
      cases hs
      exact hkeeps (h.qdiscard len)
    | qconsume len =>
      cases hs
      exact hkeeps (h.qconsume _ len)
    | qpass bs =>
      obtain ⟨r, hr, rfl⟩ := map_eq_some_iff.1 hs
      exact hkeeps (h.qpass hn hd hr)
    | qpassnolim bs =>
      obtain ⟨r, hr, rfl⟩ := map_eq_some_iff.1 hs
      exact hkeeps (h.qpassnolim hn hd hr)
    | qproduce block p =>
      obtain ⟨r, hr, rfl⟩ := map_eq_some_iff.1 hs
      exact hkeeps (h.qproduce hd hr)
    | qaddlist bs => exact hkeeps (h.qaddlist hn hd hs)
    | qremove =>
      cases hs
      exact hkeeps h.qremove
    | qputback b =>
      cases hs
      exact hkeeps (h.qputback (hd b.addr (mem_singleton_self _)))
    | pullupqueue n addr =>
      obtain ⟨⟨l, q₁, h₁⟩, hr, rfl⟩ := map_eq_some_iff.1 hs
      exact h.pullupqueue (hd addr (mem_singleton_self _)) hr
    | qbread len block =>
      cases hs
      exact hkeeps (h.qbread _ len hd)
    | qread len =>
      cases hs
      exact hkeeps (h.qread m len)
    | qbwrite b =>
      obtain ⟨r, hr, rfl⟩ := map_eq_some_iff.1 hs
      exact hkeeps (h.qbwrite (hd b.addr (mem_singleton_self _)) hr)
    | qwrite p len sofar block =>
      obtain ⟨r, hr, rfl⟩ := map_eq_some_iff.1 hs
      exact hkeeps (h.qwrite hd hr)
    | qiwrite p len sofar block => exact hkeeps (h.qiwrite hd hs)
    | qclose =>
      cases hs
      exact hkeeps (.empty rfl rfl rfl)
    | qflush =>
      cases hs
      exact hkeeps (.empty rfl rfl rfl)

/-- The counters are right all along a run if and only if `pullupqueue` is not called when it changes the size of the
list; and they are the sums themselves as long as those are no larger than an `int`. -/
theorem accounted_iff {q : Fifo} (m : Mode) (h : Sound q) (ops : List Op) :
    (Always (step m) Accounted q ops ↔ Along (step m) (fun q o => o.Levels q) q ops) ∧
      ∀ q, Accounted q → alloc q.bfirst < 2 ^ 31 → q.len = alloc q.bfirst ∧ q.dlen = total q.bfirst := by
  refine ⟨always_iff_along (fun q hq => Sound.toAccounted hq) ?_ ?_ h, fun q hq hlt => ?_⟩
  · intro q o q' hq hl hs
    obtain ⟨hiff, hn⟩ := step_sound hq hs
    exact ⟨hiff.2 hl, hn⟩
  · intro q o q' hq hl hs
    exact fun ha => hl ((step_sound hq hs).1.1 ha)
  · have hle : total q.bfirst ≤ alloc q.bfirst := total_le_alloc
    rw [hq.len, hq.dlen]
    exact ⟨int_of_lt (by omega) (by omega), int_of_lt (by omega) (by omega)⟩

def twoBlocks : List Block := [⟨0, 0, [1], 1⟩, ⟨1, 0, [2], 0⟩]

theorem accounted_iff_twoBlocks :
    (Always (step ⟨⟨false, false⟩, true⟩) Accounted (Fifo.qopen 8) [.qpass twoBlocks, .qread 1] ↔
      Along (step ⟨⟨false, false⟩, true⟩) (fun q o => o.Levels q) (Fifo.qopen 8) [.qpass twoBlocks, .qread 1]) ∧
      ∀ q, Accounted q → alloc q.bfirst < 2 ^ 31 → q.len = alloc q.bfirst ∧ q.dlen = total q.bfirst :=
  accounted_iff ⟨⟨false, false⟩, true⟩ (.qopen 8) _

/-- `pullupqueue` frees the second block, and `len` stays 3. -/
theorem not_accounted : ¬ ∀ (m : Mode) (q : Fifo) (ops : List Op), Sound q → Always (step m) Accounted q ops := by
  intro hall
  have hlast := (hall ⟨⟨false, false⟩, true⟩ (.qopen 8) [.qpass twoBlocks, .pullupqueue 2 2] (.qopen 8)).last rfl
  have hlen := hlast.len
  revert hlen
  decide

end Node9.Qio
