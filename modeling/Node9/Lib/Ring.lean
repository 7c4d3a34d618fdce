import Mathlib

/-!
# Circular lists whose nodes carry their own links

A memory gives every node a `next` and a `prev`. `Ring m h xs`: from the head `h` the links go through the
nodes `xs`, in this order, and back to `h`. The operations are the macros of an intrusive queue: `init`,
`insertTail`, `remove`, with the head at `m.next h`. None of them touches a ring that its node is not in.
-/

namespace Intrusive
open List Function

variable {α : Type}

structure Links (α : Type) where
  next : α → α
  prev : α → α

section
variable [DecidableEq α]

def init (m : Links α) (q : α) : Links α :=
  let m := { m with next := update m.next q q }
  { m with prev := update m.prev q q }

def insertTail (m : Links α) (h q : α) : Links α :=
  let m := { m with next := update m.next q h }
  let m := { m with prev := update m.prev q (m.prev h) }
  let m := { m with next := update m.next (m.prev q) q }
  { m with prev := update m.prev h q }

def remove (m : Links α) (q : α) : Links α :=
  let m := { m with next := update m.next (m.prev q) (m.next q) }
  { m with prev := update m.prev (m.next q) (m.prev q) }

end

/-- The links lead from `a` through `xs` to `b`, and back. -/
def Path (m : Links α) : α → List α → α → Prop
  | a, [], b => m.next a = b ∧ m.prev b = a
  | a, x :: xs, b => m.next a = x ∧ m.prev x = a ∧ Path m x xs b

structure Ring (m : Links α) (h : α) (xs : List α) : Prop where
  path : Path m h xs h
  nodup : (h :: xs).Nodup

namespace Path
variable {m m' : Links α} {a b c : α} {xs : List α}

theorem congr (hp : Path m a xs b) (hnext : ∀ x ∈ a :: xs, m'.next x = m.next x)
    (hprev : ∀ x ∈ xs ++ [b], m'.prev x = m.prev x) : Path m' a xs b := by
  induction xs generalizing a with
  | nil => exact ⟨(hnext a (by simp)).trans hp.1, (hprev b (by simp)).trans hp.2⟩
  | cons x xs ih =>
    obtain ⟨h₁, h₂, hp⟩ := hp
    refine ⟨(hnext a (by simp)).trans h₁, (hprev x (by simp)).trans h₂, ih hp ?_ ?_⟩
    · exact fun y hy => hnext y (mem_cons_of_mem a hy)
    · exact fun y hy => hprev y (mem_cons_of_mem x hy)

theorem append_iff {ys : List α} : Path m a (xs ++ c :: ys) b ↔ Path m a xs c ∧ Path m c ys b := by
  induction xs generalizing a with
  | nil => simp [Path, and_assoc]
  | cons x xs ih =>
    simp only [cons_append, Path, ih]
    exact ⟨fun ⟨h₁, h₂, h₃, h₄⟩ => ⟨⟨h₁, h₂, h₃⟩, h₄⟩, fun ⟨⟨h₁, h₂, h₃⟩, h₄⟩ => ⟨h₁, h₂, h₃, h₄⟩⟩

theorem concat_iff : Path m a (xs ++ [c]) b ↔ Path m a xs c ∧ m.next c = b ∧ m.prev b = c := append_iff

end Path

namespace Ring
variable {m m' : Links α} {h q : α} {xs : List α}

theorem congr (hr : Ring m h xs) (hnext : ∀ x ∈ h :: xs, m'.next x = m.next x)
    (hprev : ∀ x ∈ h :: xs, m'.prev x = m.prev x) : Ring m' h xs := by
  refine ⟨hr.path.congr hnext fun x hx => hprev x ?_, hr.nodup⟩
  rcases mem_append.1 hx with hx | hx
  · exact mem_cons_of_mem h hx
  · exact mem_singleton.1 hx ▸ mem_cons_self

theorem rotate {ys : List α} (hr : Ring m h (xs ++ q :: ys)) : Ring m q (ys ++ h :: xs) := by
  obtain ⟨hxs, hys⟩ := Path.append_iff.1 hr.path
  refine ⟨Path.append_iff.2 ⟨hys, hxs⟩, ?_⟩
  have hperm : (q :: (ys ++ h :: xs)).Perm (h :: (xs ++ q :: ys)) :=
    (perm_append_comm : ((q :: ys) ++ (h :: xs)).Perm ((h :: xs) ++ (q :: ys)))
  exact hperm.nodup_iff.2 hr.nodup

theorem next_nil (hr : Ring m h []) : m.next h = h := hr.path.1

theorem next_cons (hr : Ring m h (q :: xs)) : m.next h = q := hr.path.1

theorem prev_mem (hr : Ring m h xs) : m.prev h ∈ h :: xs := by
  cases xs using reverseRecOn with
  | nil => rw [hr.path.2]; exact mem_cons_self
  | append_singleton xs c =>
    rw [(Path.concat_iff.1 hr.path).2.2]
    simp

variable [DecidableEq α]

theorem insertTail_next (m : Links α) {h q : α} (x : α) : (insertTail m h q).next x =
    if x = m.prev h then q else if x = q then h else m.next x := by
  simp [insertTail, update_apply]

theorem insertTail_prev (m : Links α) {h q : α} (x : α) : (insertTail m h q).prev x =
    if x = h then q else if x = q then m.prev h else m.prev x := by
  simp [insertTail, update_apply]

theorem insertTail (hr : Ring m h xs) (hq : q ∉ h :: xs) : Ring (insertTail m h q) h (xs ++ [q]) := by
  have hqh : q ≠ h := fun heq => hq (heq ▸ mem_cons_self)
  have hql : q ≠ m.prev h := fun heq => hq (heq ▸ hr.prev_mem)
  refine ⟨Path.concat_iff.2 ⟨?_, ?_, ?_⟩, ?_⟩
  · cases xs using reverseRecOn with
    | nil =>
      refine ⟨?_, ?_⟩
      · rw [insertTail_next, if_pos hr.path.2.symm]
      · rw [insertTail_prev, if_neg hqh, if_pos rfl, hr.path.2]
    | append_singleton xs c =>
      obtain ⟨hp, hcn, hcp⟩ := Path.concat_iff.1 hr.path
      obtain ⟨hh, hnd⟩ := nodup_cons.1 hr.nodup
      obtain ⟨-, -, hdisj⟩ := nodup_append.1 hnd
      refine Path.concat_iff.2 ⟨hp.congr (fun x hx => ?_) (fun x hx => ?_), ?_, ?_⟩
      · -- a node before the last one
        have hxc : x ≠ m.prev h := by
          rw [hcp]
          rcases mem_cons.1 hx with rfl | hx
          · exact fun heq => hh (by simp [heq])
          · exact fun heq => hdisj x hx c (by simp) heq
        have hxq : x ≠ q := fun heq =>
          hq (heq ▸ cons_subset_cons h (subset_append_left xs [c]) hx)
        rw [insertTail_next, if_neg hxc, if_neg hxq]
      · have hxh : x ≠ h := fun heq => hh (heq ▸ hx)
        have hxq : x ≠ q := fun heq => hq (heq ▸ mem_cons_of_mem h hx)
        rw [insertTail_prev, if_neg hxh, if_neg hxq]
      · rw [insertTail_next, if_pos hcp.symm]
      · rw [insertTail_prev, if_neg hqh, if_pos rfl, hcp]
  · rw [insertTail_next, if_neg hql, if_pos rfl]
  · rw [insertTail_prev, if_pos rfl]
  · rw [← cons_append]
    refine nodup_append.2 ⟨hr.nodup, nodup_singleton q, ?_⟩
    rintro x hx y hy rfl
    exact hq (mem_singleton.1 hy ▸ hx)

theorem insertTail_frame {h' : α} {ys : List α} (hr : Ring m h xs) (hr' : Ring m h' ys)
    (hq : q ∉ h' :: ys) (hdisj : ∀ x ∈ h :: xs, x ∉ h' :: ys) : Ring (Intrusive.insertTail m h q) h' ys := by
  refine hr'.congr (fun x hx => ?_) (fun x hx => ?_)
  · have hxq : x ≠ q := fun heq => hq (heq ▸ hx)
    have hxl : x ≠ m.prev h := fun heq => hdisj _ hr.prev_mem (heq ▸ hx)
    rw [insertTail_next, if_neg hxl, if_neg hxq]
  · have hxq : x ≠ q := fun heq => hq (heq ▸ hx)
    have hxh : x ≠ h := fun heq => hdisj h mem_cons_self (heq ▸ hx)
    rw [insertTail_prev, if_neg hxh, if_neg hxq]

theorem init_frame (hr : Ring m h xs) (hq : q ∉ h :: xs) : Ring (init m q) h xs := by
  refine hr.congr (fun x hx => ?_) (fun x hx => ?_)
  · have hxq : x ≠ q := fun heq => hq (heq ▸ hx)
    exact update_of_ne hxq _ _
  · have hxq : x ≠ q := fun heq => hq (heq ▸ hx)
    exact update_of_ne hxq _ _

theorem remove_head (hr : Ring m h (q :: xs)) : Ring (remove m q) h xs := by
  obtain ⟨hn, hp, hpath⟩ := hr.path
  obtain ⟨hh, hnd⟩ := nodup_cons.1 hr.nodup
  obtain ⟨hq, hnd'⟩ := nodup_cons.1 hnd
  have hqh : q ≠ h := fun heq => hh (heq ▸ mem_cons_self)
  have hnext : ∀ x, (remove m q).next x = if x = h then m.next q else m.next x := by
    intro x
    simp [remove, hp, update_apply]
  have hprev : ∀ x, (remove m q).prev x = if x = m.next q then h else m.prev x := by
    intro x
    simp [remove, hp, update_apply, hqh]
  refine ⟨?_, nodup_cons.2 ⟨fun hx => hh (mem_cons_of_mem q hx), hnd'⟩⟩
  cases xs with
  | nil => exact ⟨by rw [hnext, if_pos rfl, hpath.1], by rw [hprev, if_pos hpath.1.symm]⟩
  | cons x xs =>
    obtain ⟨hqn, -, hpath⟩ := hpath
    refine ⟨by rw [hnext, if_pos rfl, hqn], by rw [hprev, if_pos hqn.symm], hpath.congr (fun y hy => ?_)
      (fun y hy => ?_)⟩
    · have hyh : y ≠ h := fun heq => hh (heq ▸ mem_cons_of_mem q hy)
      rw [hnext, if_neg hyh]
    · rw [hprev, if_neg]
      rw [hqn]
      rcases mem_append.1 hy with hy | hy
      · exact fun heq => (nodup_cons.1 hnd').1 (heq ▸ hy)
      · exact fun heq => hh (by simp [← mem_singleton.1 hy, heq])

theorem remove_frame {h' : α} {ys : List α} (hr : Ring m h (q :: xs)) (hr' : Ring m h' ys)
    (hdisj : ∀ x ∈ h :: q :: xs, x ∉ h' :: ys) : Ring (remove m q) h' ys := by
  obtain ⟨-, hp, hpath⟩ := hr.path
  have hqh : q ≠ h := fun heq => (nodup_cons.1 hr.nodup).1 (heq ▸ mem_cons_self)
  have hnq : m.next q ∈ h :: q :: xs := by
    cases xs with
    | nil => rw [hpath.1]; exact mem_cons_self
    | cons x xs => rw [hpath.1]; simp
  refine hr'.congr (fun x hx => ?_) (fun x hx => ?_)
  · have hxh : x ≠ h := fun heq => hdisj h mem_cons_self (heq ▸ hx)
    simp [remove, hp, update_apply, hxh]
  · have hxn : x ≠ m.next q := fun heq => hdisj _ hnq (heq ▸ hx)
    simp [remove, hp, hqh, hxn]

theorem remove {ys : List α} (hr : Ring m h (xs ++ q :: ys)) : Ring (remove m q) h (xs ++ ys) := by
  cases xs using reverseRecOn with
  | nil => exact remove_head hr
  | append_singleton xs p =>
    rw [append_assoc] at hr ⊢
    exact rotate (remove_head (rotate hr))

theorem remove_self (hr : Ring m h (q :: xs)) : Ring (Intrusive.remove m h) q xs := by
  have hrot : Ring m q (xs ++ h :: []) := rotate (show Ring m h ([] ++ q :: xs) from hr)
  have hrem := remove hrot
  rwa [append_nil] at hrem

theorem remove_other {h' : α} {ys zs : List α} (hr : Ring m h (xs ++ q :: zs)) (hr' : Ring m h' ys)
    (hdisj : ∀ x ∈ h :: (xs ++ q :: zs), x ∉ h' :: ys) : Ring (Intrusive.remove m q) h' ys := by
  cases xs using reverseRecOn with
  | nil => exact remove_frame hr hr' hdisj
  | append_singleton xs p =>
    rw [append_assoc] at hr hdisj
    have hrot : Ring m p (q :: (zs ++ h :: xs)) := rotate hr
    refine remove_frame hrot hr' fun x hx => hdisj x ?_
    simp only [mem_cons, mem_append, cons_append, nil_append] at hx ⊢
    tauto

end Ring

end Intrusive
