import Node9.Lib.Linked

/-!
# Doubly linked lists through cells

As in `Linked`, a memory `h` maps cells to pointers. Each node `a` also knows the cell `last a` that points to
it, so that it can be taken out of its list without going through it:

    nf->next = head; if(nf->next) nf->next->last = &nf->next; nf->last = &head; head = nf;
    *f->last = f->next; if(f->next) f->next->last = f->last;
-/

namespace Linked
open Function

variable {α κ : Type}

def DChain (h : κ → Option α) (nx last : α → κ) : κ → List α → Prop
  | c, [] => h c = none
  | c, a :: xs => h c = some a ∧ last a = c ∧ DChain h nx last (nx a) xs

section
variable [DecidableEq κ] [DecidableEq α]

/-- `if(p != nil) p->last = c`. -/
def setLast (p : Option α) (c : κ) (last : α → κ) : α → κ :=
  match p with
  | some b => Function.update last b c
  | none => last

def pushFront (nx : α → κ) (c : κ) (a : α) (h : κ → Option α) (last : α → κ) : (κ → Option α) × (α → κ) :=
  (Function.update (Function.update h (nx a) (h c)) c (some a), Function.update (setLast (h c) (nx a) last) a c)

def unlink (nx : α → κ) (a : α) (h : κ → Option α) (last : α → κ) : (κ → Option α) × (α → κ) :=
  (Function.update h (last a) (h (nx a)), setLast (h (nx a)) (last a) last)

omit [DecidableEq κ] in
theorem setLast_of_ne {p : Option α} {c : κ} {last : α → κ} {d : α} (h : ∀ b, p = some b → d ≠ b) :
    setLast p c last d = last d := by
  cases p with
  | none => rfl
  | some b => exact update_of_ne (h b rfl) _ _

end

namespace DChain
variable {h h' : κ → Option α} {nx last last' : α → κ} {c c' : κ} {xs ys : List α} {a : α}

section
variable (hch : DChain h nx last c xs)
include hch

theorem chain : Chain h nx c xs := by
  induction xs generalizing c with
  | nil => exact hch
  | cons a xs ih => exact ⟨hch.1, ih hch.2.2⟩

theorem congr (hc : h' c = h c)
    (hxs : ∀ a ∈ xs, h' (nx a) = h (nx a) ∧ last' a = last a) : DChain h' nx last' c xs := by
  induction xs generalizing c with
  | nil => exact hc.trans hch
  | cons a xs ih =>
    obtain ⟨ha, hl, hch⟩ := hch
    obtain ⟨hna, hla⟩ := hxs a (by simp)
    exact ⟨hc.trans ha, hla.trans hl, ih hch hna fun b hb => hxs b (by simp [hb])⟩

theorem last_mem (ha : a ∈ xs) : last a = c ∨ ∃ b ∈ xs, last a = nx b := by
  induction xs generalizing c with
  | nil => cases ha
  | cons x xs ih =>
    obtain ⟨-, hl, hch⟩ := hch
    rcases List.mem_cons.1 ha with rfl | ha
    · exact .inl hl
    · rcases ih hch ha with h | ⟨b, hb, h⟩
      · exact .inr ⟨x, by simp, h⟩
      · exact .inr ⟨b, by simp [hb], h⟩

theorem next_mem (ha : a ∈ xs) {b : α} (hb : h (nx a) = some b) : b ∈ xs := by
  obtain ⟨us, vs, rfl⟩ := List.append_of_mem ha
  have hvs := Chain.of_append hch.chain
  cases vs with
  | nil => exact absurd (hb.symm.trans hvs) (by simp)
  | cons d vs =>
    obtain rfl := Option.some.inj (hb.symm.trans hvs.1)
    simp

end

variable [DecidableEq κ] [DecidableEq α]

theorem push (hinj : Injective nx) (hch : DChain h nx last c xs) (hc : ∀ b ∈ xs, c ≠ nx b) (ha : a ∉ xs)
    (hca : c ≠ nx a) : DChain (pushFront nx c a h last).1 nx (pushFront nx c a h last).2 c (a :: xs) := by
  refine ⟨update_self _ _ _, update_self _ _ _, ?_⟩
  have hnx : (pushFront nx c a h last).1 (nx a) = h c := by
    simp [pushFront, update_of_ne hca.symm]
  cases xs with
  | nil => exact hnx.trans hch
  | cons b xs =>
    obtain ⟨hb, -, hch⟩ := hch
    have hnd : b ∉ xs := (List.nodup_cons.1 (Chain.nodup (c := c) ⟨hb, hch.chain⟩)).1
    have hab : b ≠ a := fun heq => ha (by simp [heq])
    have hlast : (pushFront nx c a h last).2 = update (update last b (nx a)) a c := by
      simp [pushFront, setLast, hb]
    refine ⟨hnx.trans hb, ?_, hch.congr ?_ fun d hd => ⟨?_, ?_⟩⟩
    · rw [hlast, update_of_ne hab, update_self]
    · have hbc := hc b (by simp)
      simp [pushFront, update_of_ne hbc.symm, update_of_ne fun heq => hab (hinj heq)]
    · have hdc := hc d (by simp [hd])
      have hda : d ≠ a := fun heq => ha (by simp [← heq, hd])
      simp [pushFront, update_of_ne hdc.symm, update_of_ne fun heq => hda (hinj heq)]
    · have hda : d ≠ a := fun heq => ha (by simp [← heq, hd])
      have hdb : d ≠ b := fun heq => hnd (heq ▸ hd)
      rw [hlast, update_of_ne hda, update_of_ne hdb]

theorem push_other (hinj : Injective nx) (hch : DChain h nx last c xs) (hch' : DChain h nx last c' ys)
    (hcc : c' ≠ c) (hca : c' ≠ nx a) (hc : ∀ b ∈ ys, c ≠ nx b) (ha : a ∉ ys) (hdis : ∀ b ∈ xs, b ∉ ys) :
    DChain (pushFront nx c a h last).1 nx (pushFront nx c a h last).2 c' ys := by
  refine hch'.congr ?_ fun d hd => ⟨?_, ?_⟩
  · simp [pushFront, update_of_ne hcc, update_of_ne hca]
  · have hda : d ≠ a := fun heq => ha (heq ▸ hd)
    simp [pushFront, update_of_ne (hc d hd).symm, update_of_ne fun heq => hda (hinj heq)]
  have hda : d ≠ a := fun heq => ha (heq ▸ hd)
  refine (update_of_ne hda _ _).trans (setLast_of_ne fun b hb heq => ?_)
  have hmem : b ∈ xs := by
    cases xs with
    | nil => exact absurd (hb.symm.trans hch) (by simp)
    | cons e xs => simp [Option.some.inj (hb.symm.trans hch.1)]
  exact hdis b hmem (heq ▸ hd)

theorem unlink_mem (hinj : Injective nx) (hch : DChain h nx last c (xs ++ a :: ys))
    (hc : ∀ b ∈ xs ++ a :: ys, c ≠ nx b) :
    DChain (unlink nx a h last).1 nx (unlink nx a h last).2 c (xs ++ ys) := by
  induction xs generalizing c with
  | nil =>
    obtain ⟨-, hl, hch⟩ := hch
    have hhead : (unlink nx a h last).1 c = h (nx a) := by simp [unlink, hl]
    cases ys with
    | nil => exact hhead.trans hch
    | cons b ys =>
      obtain ⟨hb, -, hch⟩ := hch
      have hnd : b ∉ ys := (List.nodup_cons.1 (Chain.nodup (c := nx a) ⟨hb, hch.chain⟩)).1
      have hlast : (unlink nx a h last).2 = update last b c := by simp [unlink, setLast, hb, hl]
      refine ⟨hhead.trans hb, by rw [hlast, update_self], hch.congr ?_ fun d hd => ⟨?_, ?_⟩⟩
      · simp [unlink, hl, update_of_ne (hc b (by simp)).symm]
      · simp [unlink, hl, update_of_ne (hc d (by simp [hd])).symm]
      · have hdb : d ≠ b := fun heq => hnd (heq ▸ hd)
        rw [hlast, update_of_ne hdb]
  | cons x xs ih =>
    have hnd := (List.nodup_cons.1 hch.chain.nodup).1
    obtain ⟨hx, hlx, hch⟩ := hch
    refine ⟨?_, ?_, ih hch fun b hb heq => hnd (hinj heq ▸ hb)⟩
    · -- the cell before `a` is not the head
      have hne : c ≠ last a := by
        rcases hch.last_mem (a := a) (by simp) with hl | ⟨b, hb, hl⟩
        · exact hl ▸ hc x (by simp)
        · exact hl ▸ hc b (List.mem_cons_of_mem _ hb)
      simp [unlink, update_of_ne hne, hx]
    · have hset : (unlink nx a h last).2 x = last x := setLast_of_ne fun b hb heq => by
        have hmem : b ∈ xs ++ a :: ys := hch.next_mem (by simp) hb
        exact hnd (heq ▸ hmem)
      exact hset.trans hlx

theorem unlink_other (hch : DChain h nx last c xs) (ha : a ∈ xs) (hch' : DChain h nx last c' ys)
    (hcc : c' ≠ c) (hc : ∀ b ∈ ys, c ≠ nx b) (hc' : ∀ b ∈ xs, c' ≠ nx b) (hinj : Injective nx)
    (hdis : ∀ b ∈ xs, b ∉ ys) : DChain (unlink nx a h last).1 nx (unlink nx a h last).2 c' ys := by
  have hl := hch.last_mem ha
  refine hch'.congr ?_ fun d hd => ⟨?_, ?_⟩
  · have hne : c' ≠ last a := by
      rcases hl with hl | ⟨b, hb, hl⟩
      · exact hl ▸ hcc
      · exact hl ▸ hc' b hb
    simp [unlink, update_of_ne hne]
  · have hne : nx d ≠ last a := by
      rcases hl with hl | ⟨b, hb, hl⟩
      · exact hl ▸ (hc d hd).symm
      · exact hl ▸ fun heq => hdis b hb (hinj heq ▸ hd)
    simp [unlink, update_of_ne hne]
  · exact setLast_of_ne fun b hb heq => hdis b (hch.next_mem ha hb) (heq ▸ hd)

end DChain

end Linked
