import Mathlib

/-!
# Singly linked lists through cells

A memory `h` maps cells to pointers: a head, or the `next` field `nx a` of a node `a`. `Chain h nx c xs`:
following the pointers from the cell `c` meets the nodes `xs` and then nil. `unlinkFirst` and `unlinkAll`
are the two loops that remove nodes through a pointer `last` to the cell that points to the node:

    for(last = &head; (q = *last) != nil; last = &q->next) if(p(q)){ *last = q->next; return q; }
    for(last = &head; (q = *last) != nil;) if(p(q)) *last = q->next; else last = &q->next;
-/

namespace Linked
open Function List

variable {α κ : Type}

def Chain (h : κ → Option α) (nx : α → κ) : κ → List α → Prop
  | c, [] => h c = none
  | c, a :: xs => h c = some a ∧ Chain h nx (nx a) xs

/-- The cell that holds the nil at the end. -/
def endCell (nx : α → κ) (c : κ) (xs : List α) : κ := (xs.getLast?.map nx).getD c

/-- The nodes met from `c` on, at most `n` of them. -/
def collect (h : κ → Option α) (nx : α → κ) : Nat → κ → List α
  | 0, _ => []
  | n + 1, c =>
    match h c with
    | none => []
    | some a => a :: collect h nx n (nx a)

def From (h : κ → Option α) (nx : α → κ) : Option α → List α → Prop
  | v, [] => v = none
  | v, a :: xs => v = some a ∧ From h nx (h (nx a)) xs

/-- `for(m = *last; m; m = m->next){ if(p(m)) break; last = &m->next; }` -/
def seek (nx : α → κ) (p : α → Bool) : Nat → κ → (κ → Option α) → κ × Option α
  | 0, last, _ => (last, none)
  | n + 1, last, h =>
    match h last with
    | none => (last, none)
    | some m => if p m then (last, some m) else seek nx p n (nx m) h

/-- `for(; f->next; f = f->next);` -/
def lastNode (nx : α → κ) : Nat → α → (κ → Option α) → α
  | 0, f, _ => f
  | n + 1, f, h =>
    match h (nx f) with
    | none => f
    | some g => lastNode nx n g h

variable {h h' : κ → Option α} {nx : α → κ} {c : κ} {xs ys : List α} {a : α} {p : α → Bool} {n : Nat}
  {v : Option α}

theorem chain_iff_from : Chain h nx c xs ↔ From h nx (h c) xs := by
  induction xs generalizing c with
  | nil => exact Iff.rfl
  | cons a xs ih => exact and_congr_right fun _ => ih

theorem From.congr (hv : From h nx v xs) (hxs : ∀ a ∈ xs, h' (nx a) = h (nx a)) : From h' nx v xs := by
  induction xs generalizing v with
  | nil => exact hv
  | cons a xs ih =>
    refine ⟨hv.1, ?_⟩
    rw [hxs a (by simp)]
    exact ih hv.2 fun b hb => hxs b (by simp [hb])

theorem lastNode_eq (hch : Chain h nx (nx a) xs) (hn : xs.length ≤ n) :
    nx (lastNode nx n a h) = endCell nx (nx a) xs := by
  induction xs generalizing a n with
  | nil =>
    have ha : h (nx a) = none := hch
    cases n <;> simp [lastNode, ha, endCell]
  | cons b xs ih =>
    cases n with
    | zero => simp at hn
    | succ n =>
      simp only [lastNode, hch.1]
      rw [ih hch.2 (by simpa using hn)]
      cases xs <;> simp [endCell, getLast?_cons]

theorem endCell_nil : endCell nx c [] = c := rfl

theorem endCell_concat : endCell nx c (xs ++ [a]) = nx a := by simp [endCell]

theorem endCell_cons : endCell nx c (a :: xs) = endCell nx (nx a) xs := by
  cases xs <;> simp [endCell, getLast?_cons]

theorem endCell_eq_or (nx : α → κ) (c : κ) (xs : List α) :
    endCell nx c xs = c ∧ xs = [] ∨ ∃ a ∈ xs, endCell nx c xs = nx a := by
  cases xs using reverseRecOn with
  | nil => exact .inl ⟨rfl, rfl⟩
  | append_singleton xs a => exact .inr ⟨a, by simp, endCell_concat⟩

namespace Chain

theorem congr {c' : κ} (hch : Chain h nx c xs) (hc : h' c' = h c) (hxs : ∀ a ∈ xs, h' (nx a) = h (nx a)) :
    Chain h' nx c' xs := by
  induction xs generalizing c c' with
  | nil => exact hc.trans hch
  | cons a xs ih =>
    obtain ⟨ha, hch⟩ := hch
    exact ⟨hc.trans ha, ih hch (hxs a (by simp)) fun b hb => hxs b (by simp [hb])⟩

theorem unique (hxs : Chain h nx c xs) (hys : Chain h nx c ys) : xs = ys := by
  induction xs generalizing c ys with
  | nil =>
    cases ys with
    | nil => rfl
    | cons b ys => exact absurd (hxs.symm.trans hys.1) (by simp)
  | cons a xs ih =>
    cases ys with
    | nil => exact absurd (hys.symm.trans hxs.1) (by simp)
    | cons b ys =>
      obtain rfl : a = b := Option.some.inj (hxs.1.symm.trans hys.1)
      rw [ih hxs.2 hys.2]

theorem of_append (hch : Chain h nx c (xs ++ a :: ys)) : Chain h nx (nx a) ys := by
  induction xs generalizing c with
  | nil => exact hch.2
  | cons b xs ih => exact ih hch.2

theorem nodup (hch : Chain h nx c xs) : xs.Nodup := by
  induction xs generalizing c with
  | nil => exact nodup_nil
  | cons a xs ih =>
    refine nodup_cons.2 ⟨fun ha => ?_, ih hch.2⟩
    obtain ⟨us, vs, rfl⟩ := append_of_mem ha
    have := hch.2.unique (of_append hch.2)
    have := congrArg length this
    simp only [length_append, length_cons] at this
    omega

theorem collect_eq (hch : Chain h nx c xs) (hn : xs.length ≤ n) : collect h nx n c = xs := by
  induction xs generalizing c n with
  | nil =>
    have hc : h c = none := hch
    cases n <;> simp [collect, hc]
  | cons a xs ih =>
    cases n with
    | zero => simp at hn
    | succ n =>
      rw [collect, hch.1]
      exact congrArg (a :: ·) (ih hch.2 (by simpa using hn))

theorem snoc [DecidableEq κ] (hch : Chain h nx c xs) (hc : c ≠ nx a) (ha : a ∉ xs) (hinj : Injective nx)
    (hc' : ∀ b ∈ xs, c ≠ nx b) :
    Chain (update (update h (endCell nx c xs) (some a)) (nx a) none) nx c (xs ++ [a]) := by
  induction xs generalizing c with
  | nil =>
    refine ⟨?_, update_self _ _ _⟩
    rw [update_of_ne hc, endCell_nil, update_self]
  | cons b xs ih =>
    obtain ⟨hb, hxs⟩ := nodup_cons.1 hch.nodup
    have hab : a ≠ b := fun h => ha (by simp [h])
    have hcend : c ≠ endCell nx c (b :: xs) := by
      unfold endCell
      rw [getLast?_eq_some_getLast (cons_ne_nil b xs)]
      exact hc' _ (getLast_mem _)
    refine ⟨?_, ?_⟩
    · rw [update_of_ne hc, update_of_ne hcend]
      exact hch.1
    · rw [endCell_cons]
      exact ih hch.2 (fun h => hab (hinj h).symm) (fun h => ha (by simp [h]))
        fun d hd h => hb (hinj h ▸ hd)

theorem link [DecidableEq κ] (ys : List α) (hch : Chain h nx c xs) (hv : From h nx v ys) (hinj : Injective nx)
    (hc : ∀ a ∈ xs, c ≠ nx a) (hys : ∀ b ∈ ys, nx b ≠ endCell nx c xs) :
    Chain (update h (endCell nx c xs) v) nx c (xs ++ ys) := by
  induction xs generalizing c with
  | nil =>
    rw [nil_append, chain_iff_from, endCell_nil, update_self]
    exact hv.congr fun b hb => update_of_ne (hys b hb) _ _
  | cons a xs ih =>
    obtain ⟨ha, -⟩ := nodup_cons.1 hch.nodup
    have hcend : c ≠ endCell nx c (a :: xs) := by
      unfold endCell
      rw [getLast?_eq_some_getLast (cons_ne_nil a xs)]
      exact hc _ (getLast_mem _)
    refine ⟨?_, ?_⟩
    · rw [update_of_ne hcend]
      exact hch.1
    · rw [endCell_cons] at hys ⊢
      exact ih hch.2 (fun b hb h => ha (hinj h ▸ hb)) hys

theorem seek_eq (hch : Chain h nx c xs) (hn : xs.length < n) :
    seek nx p n c h = (endCell nx c (xs.takeWhile fun a => !p a), xs.find? p) := by
  induction xs generalizing c n with
  | nil =>
    have hc : h c = none := hch
    cases n with
    | zero => simp at hn
    | succ n => simp [seek, hc, endCell]
  | cons a xs ih =>
    cases n with
    | zero => simp at hn
    | succ n =>
      simp only [seek, hch.1]
      by_cases hp : p a = true
      · simp [hp, endCell]
      · rw [if_neg hp, ih hch.2 (by simpa using hn), find?_cons_of_neg hp, takeWhile_cons_of_pos (by simp [hp]),
          endCell_cons]

theorem update_ne [DecidableEq κ] {d : κ} (hch : Chain h nx c xs) (hc : c ≠ d) (hxs : ∀ b ∈ xs, nx b ≠ d) :
    Chain (update h d v) nx c xs :=
  hch.congr (update_of_ne hc _ _) fun b hb => update_of_ne (hxs b hb) _ _

/-- `r->next = *c; *c = r` -/
theorem push [DecidableEq κ] (hch : Chain h nx c xs) (ha : a ∉ xs) (hinj : Injective nx) (hc : ∀ b, c ≠ nx b) :
    Chain (update (update h (nx a) (h c)) c (some a)) nx c (a :: xs) := by
  refine ⟨update_self _ _ _, hch.congr ?_ fun b hb => ?_⟩
  · rw [update_of_ne (hc a).symm, update_self]
  · have hba : nx b ≠ nx a := fun h => ha (hinj h ▸ hb)
    rw [update_of_ne (hc b).symm, update_of_ne hba]

/-- `*c = r->next` for the first node `r`. -/
theorem pop [DecidableEq κ] (hch : Chain h nx c (a :: xs)) (hc : ∀ b, c ≠ nx b) :
    Chain (update h c (h (nx a))) nx c xs :=
  hch.2.congr (update_self _ _ _) fun b _ => update_of_ne (hc b).symm _ _

end Chain

section
variable [DecidableEq κ]

def unlinkFirst (nx : α → κ) (p : α → Bool) : Nat → κ → (κ → Option α) → (κ → Option α) × Option α
  | 0, _, h => (h, none)
  | n + 1, last, h =>
    match h last with
    | none => (h, none)
    | some q =>
      if p q then (update h last (h (nx q)), some q)
      else unlinkFirst nx p n (nx q) h

def unlinkAll (nx : α → κ) (p : α → Bool) : Nat → κ → (κ → Option α) → (κ → Option α) × List α
  | 0, _, h => (h, [])
  | n + 1, last, h =>
    match h last with
    | none => (h, [])
    | some q =>
      if p q then
        let r := unlinkAll nx p n last (update h last (h (nx q)))
        (r.1, q :: r.2)
      else unlinkAll nx p n (nx q) h

theorem unlinkFirst_spec (hinj : Injective nx) (hch : Chain h nx c xs) (hn : xs.length < n)
    (hc : ∀ a ∈ xs, c ≠ nx a) :
    Chain (unlinkFirst nx p n c h).1 nx c (xs.eraseP p) ∧ (unlinkFirst nx p n c h).2 = xs.find? p ∧
      ∀ d, d ≠ c → (∀ a ∈ xs, d ≠ nx a) → (unlinkFirst nx p n c h).1 d = h d := by
  induction xs generalizing c n with
  | nil =>
    cases n with
    | zero => simp at hn
    | succ n =>
      have hnil : h c = none := hch
      simp only [unlinkFirst, hnil]
      exact ⟨hch, rfl, fun _ _ _ => trivial⟩
  | cons q xs ih =>
    cases n with
    | zero => simp at hn
    | succ n =>
      have hnd := nodup_cons.1 hch.nodup
      obtain ⟨hq, hch⟩ := hch
      by_cases hp : p q = true
      · simp only [unlinkFirst, hq, hp, ↓reduceIte, eraseP_cons_of_pos, find?_cons_of_pos]
        refine ⟨hch.congr (update_self _ _ _) fun a ha => ?_, trivial, fun d hd _ => ?_⟩
        · exact update_of_ne (hc a (by simp [ha])).symm _ _
        · exact update_of_ne hd _ _
      have hqs : ∀ a ∈ xs, nx q ≠ nx a := fun a ha h => hnd.1 (hinj h ▸ ha)
      obtain ⟨h₁, h₂, h₃⟩ := ih (n := n) hch (by simpa using hn) hqs
      simp only [unlinkFirst, hq, hp, Bool.false_eq_true, ↓reduceIte]
      rw [eraseP_cons_of_neg hp, find?_cons_of_neg hp]
      refine ⟨⟨?_, h₁⟩, h₂, fun d hd hds => h₃ d (hds q (by simp)) fun a ha => hds a (by simp [ha])⟩
      rw [h₃ c (hc q (by simp)) fun a ha => hc a (by simp [ha])]
      exact hq

/-- `seek`, and `*last = m->next` for the node that it finds. -/
theorem unlinkFirst_eq_seek : unlinkFirst nx p n c h =
    (match (seek nx p n c h).2 with
      | some q => update h (seek nx p n c h).1 (h (nx q))
      | none => h, (seek nx p n c h).2) := by
  induction n generalizing c with
  | zero => rfl
  | succ n ih =>
    unfold unlinkFirst seek
    cases h c with
    | none => rfl
    | some q =>
      by_cases hp : p q = true
      · simp [hp]
      · simp only [hp, Bool.false_eq_true, ↓reduceIte]
        exact ih

theorem unlinkAll_spec (hinj : Injective nx) (hch : Chain h nx c xs) (hn : xs.length < n)
    (hc : ∀ a ∈ xs, c ≠ nx a) :
    Chain (unlinkAll nx p n c h).1 nx c (xs.filter fun a => !p a) ∧ (unlinkAll nx p n c h).2 = xs.filter p ∧
      ∀ d, d ≠ c → (∀ a ∈ xs, d ≠ nx a) → (unlinkAll nx p n c h).1 d = h d := by
  induction xs generalizing c n h with
  | nil =>
    cases n with
    | zero => simp at hn
    | succ n =>
      have hnil : h c = none := hch
      simp only [unlinkAll, hnil]
      exact ⟨hch, rfl, fun _ _ _ => trivial⟩
  | cons q xs ih =>
    cases n with
    | zero => simp at hn
    | succ n =>
      have hnd := nodup_cons.1 hch.nodup
      obtain ⟨hq, hch⟩ := hch
      have hn' : xs.length < n := by simpa using hn
      by_cases hp : p q = true
      · have hch' : Chain (update h c (h (nx q))) nx c xs :=
          hch.congr (update_self _ _ _) fun a ha =>
            update_of_ne (hc a (by simp [ha])).symm _ _
        obtain ⟨h₁, h₂, h₃⟩ := ih hch' hn' fun a ha => hc a (by simp [ha])
        simp only [unlinkAll, hq, hp, ↓reduceIte, h₂]
        rw [filter_cons_of_neg (by simp [hp]), filter_cons_of_pos hp]
        refine ⟨h₁, rfl, fun d hd hds => ?_⟩
        rw [h₃ d hd fun a ha => hds a (by simp [ha])]
        exact update_of_ne hd _ _
      · have hqs : ∀ a ∈ xs, nx q ≠ nx a := fun a ha h => hnd.1 (hinj h ▸ ha)
        obtain ⟨h₁, h₂, h₃⟩ := ih hch hn' hqs
        simp only [unlinkAll, hq, hp, Bool.false_eq_true, ↓reduceIte]
        rw [filter_cons_of_pos (by simp [hp]), filter_cons_of_neg hp]
        refine ⟨⟨?_, h₁⟩, h₂, fun d hd hds => h₃ d (hds q (by simp)) fun a ha => hds a (by simp [ha])⟩
        rw [h₃ c (hc q (by simp)) fun a ha => hc a (by simp [ha])]
        exact hq

end

/-! ### When the last node stays -/

theorem find?_append_eraseP_perm (p : α → Bool) (xs : List α) :
    ((xs.find? p).toList ++ xs.eraseP p).Perm xs := by
  induction xs with
  | nil => exact .refl _
  | cons a xs ih =>
    by_cases ha : p a = true
    · rw [find?_cons_of_pos ha, eraseP_cons_of_pos ha]
      exact .refl _
    · rw [find?_cons_of_neg ha, eraseP_cons_of_neg ha]
      exact perm_middle.trans (ih.cons a)

theorem getLast?_eraseP_iff (hxs : xs.Nodup) :
    (xs.eraseP p ≠ [] → (xs.eraseP p).getLast? = xs.getLast?) ↔ (xs.find? p = xs.getLast? → xs.length ≤ 1) := by
  by_cases hex : ∃ a ∈ xs, p a = true
  · obtain ⟨a, ha, hpa⟩ := hex
    obtain ⟨b, us, vs, hus, hpb, rfl, her⟩ := exists_of_eraseP ha hpa
    have hfind : (us ++ b :: vs).find? p = some b := by
      rw [find?_append, find?_eq_none.2 fun x hx => by simpa using hus x hx, Option.none_or,
        find?_cons_of_pos hpb]
    rw [her, hfind]
    obtain ⟨-, hbvs, hdisj⟩ := nodup_append.1 hxs
    cases vs using reverseRecOn with
    | nil =>
      rw [append_nil, getLast?_concat]
      constructor
      · intro h _
        cases us with
        | nil => simp
        | cons u us =>
          have hb := mem_of_getLast? (h (cons_ne_nil u us))
          exact absurd rfl (hdisj b hb b (by simp))
      · intro h hne
        have := h rfl
        cases us with
        | nil => exact absurd rfl hne
        | cons u us => simp at this
    | append_singleton vs z =>
      have hlast : (us ++ b :: (vs ++ [z])).getLast? = some z := by
        rw [← cons_append, ← append_assoc, getLast?_concat]
      refine ⟨fun _ h => ?_, fun _ _ => by rw [hlast, ← append_assoc, getLast?_concat]⟩
      rw [hlast] at h
      cases h
      exact absurd (by simp) (nodup_cons.1 hbvs).1
  · have hnone : ∀ a ∈ xs, ¬ p a = true := fun a ha hpa => hex ⟨a, ha, hpa⟩
    rw [eraseP_of_forall_not hnone, find?_eq_none.2 hnone]
    refine ⟨fun _ h => ?_, fun _ _ => rfl⟩
    rw [getLast?_eq_none_iff.1 h.symm]
    exact zero_le

theorem getLast?_filter_iff :
    (xs.filter (fun a => !p a) ≠ [] → (xs.filter fun a => !p a).getLast? = xs.getLast?) ↔
      ((∀ a ∈ xs.getLast?, p a = true) → ∀ a ∈ xs, p a = true) := by
  cases xs using reverseRecOn with
  | nil => simp
  | append_singleton xs z =>
    rw [filter_append, getLast?_concat]
    by_cases hz : p z = true
    · have hnil : xs.filter (fun a => !p a) = [] ↔ ∀ a ∈ xs, p a = true := by simp
      rw [filter_cons_of_neg (by simp [hz]), filter_nil, append_nil]
      constructor
      · intro h _
        have hxs : xs.filter (fun a => !p a) = [] := by
          by_contra hne
          have := mem_of_getLast? (h hne)
          simp [hz] at this
        intro a ha
        rcases mem_append.1 ha with ha | ha
        · exact hnil.1 hxs a ha
        · rw [mem_singleton.1 ha]
          exact hz
      · intro h hne
        refine absurd (hnil.2 fun a ha => h (by simpa using hz) a (by simp [ha])) hne
    · rw [filter_cons_of_pos (by simp [hz]), filter_nil, getLast?_concat]
      exact ⟨fun _ h => absurd (h z rfl) hz, fun _ _ => rfl⟩

end Linked
