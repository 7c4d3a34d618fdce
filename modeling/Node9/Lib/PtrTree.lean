import Mathlib

/-!
# Binary trees of linked nodes

The nodes of the tree are in a memory, with pointers to both children and to the parent. `Rep m p v t`: the pointer
`v` leads to the tree `t`, whose root has the parent `p`. A path leads from a place in the tree up to the root, and
`plug` puts a subtree there; so a change at one place is a change of `hole`, the pointer that leads there, and of the
subtree (`rep_plug`).
-/

namespace PtrTree
open List Function

variable {α : Type}

structure Ptrs (α : Type) where
  root : Option α
  left : α → Option α
  right : α → Option α
  parent : α → Option α

inductive Shape (α : Type)
  | nil
  | node (l : Shape α) (a : α) (r : Shape α)

def Shape.toList : Shape α → List α
  | .nil => []
  | .node l a r => l.toList ++ a :: r.toList

def Rep (m : Ptrs α) : Option α → Option α → Shape α → Prop
  | _, v, .nil => v = none
  | p, v, .node l a r => v = some a ∧ m.parent a = p ∧ Rep m (some a) (m.left a) l ∧ Rep m (some a) (m.right a) r

/-- A step up: from the left, or from the right subtree. -/
inductive Frame (α : Type)
  | left (a : α) (r : Shape α)
  | right (l : Shape α) (a : α)

def plug : List (Frame α) → Shape α → Shape α
  | [], t => t
  | .left a r :: p, t => plug p (.node t a r)
  | .right l a :: p, t => plug p (.node l a t)

def parentOf : List (Frame α) → Option α
  | [] => none
  | .left a _ :: _ => some a
  | .right _ a :: _ => some a

def hole (m : Ptrs α) : List (Frame α) → Option α
  | [] => m.root
  | .left a _ :: _ => m.left a
  | .right _ a :: _ => m.right a

/-- What comes before the subtree, in order. -/
def before : List (Frame α) → List α
  | [] => []
  | .left _ _ :: p => before p
  | .right l a :: p => before p ++ (l.toList ++ [a])

def after : List (Frame α) → List α
  | [] => []
  | .left a r :: p => a :: r.toList ++ after p
  | .right _ _ :: p => after p

def RepPath (m : Ptrs α) : List (Frame α) → Prop
  | [] => True
  | .left a r :: p => hole m p = some a ∧ m.parent a = parentOf p ∧ Rep m (some a) (m.right a) r ∧ RepPath m p
  | .right l a :: p => hole m p = some a ∧ m.parent a = parentOf p ∧ Rep m (some a) (m.left a) l ∧ RepPath m p

variable {m m' : Ptrs α} {p v : Option α} {t l r : Shape α} {a x : α} {c d : List (Frame α)}

theorem toList_plug : (plug c t).toList = before c ++ t.toList ++ after c := by
  induction c generalizing t with
  | nil => simp [plug, before, after]
  | cons f c ih =>
    cases f with
    | left a r => rw [plug, ih]; simp [before, after, Shape.toList]
    | right l a => rw [plug, ih]; simp [before, after, Shape.toList]

theorem plug_append : plug (d ++ c) t = plug c (plug d t) := by
  induction d generalizing t with
  | nil => rfl
  | cons f d ih =>
    cases f with
    | left a r => exact ih
    | right l a => exact ih

structure Apart (c : List (Frame α)) (l : Shape α) (a : α) (r : Shape α) : Prop where
  path : (before c ++ after c).Nodup
  left : l.toList.Nodup
  right : r.toList.Nodup
  root : a ∉ before c ++ after c ∧ a ∉ l.toList ∧ a ∉ r.toList
  outside : ∀ b ∈ l.toList ++ r.toList, b ∉ before c ++ after c
  disjoint : ∀ b ∈ l.toList, b ∉ r.toList

theorem apart_of_nodup (h : (plug c (.node l a r)).toList.Nodup) : Apart c l a r := by
  rw [toList_plug] at h
  have hsub : (before c ++ after c).Sublist (before c ++ (Shape.node l a r).toList ++ after c) := by
    rw [append_assoc]
    exact (sublist_append_right _ _).append_left _
  have hpath := h.sublist hsub
  simp only [Shape.toList, nodup_append, nodup_cons, mem_append, mem_cons] at h
  obtain ⟨⟨hb, ⟨hl, ⟨har, hr⟩, hlr⟩, hblr⟩, ha, hall⟩ := h
  refine ⟨hpath, hl, hr, ⟨?_, ?_, har⟩, ?_, ?_⟩
  · intro hmem
    rcases mem_append.1 hmem with hmem | hmem
    · exact hblr a hmem a (by tauto) rfl
    · exact hall a (by tauto) a hmem rfl
  · exact fun hmem => hlr a hmem a (by tauto) rfl
  · intro b hmem hmem'
    rw [mem_append] at hmem
    rcases mem_append.1 hmem' with hmem' | hmem'
    · exact hblr b hmem' b (by tauto) rfl
    · exact hall b (by tauto) b hmem' rfl
  · exact fun b hbl hbr => hlr b hbl b (by tauto) rfl

theorem exists_plug (ha : a ∈ t.toList) : ∃ c l r, t = plug c (.node l a r) := by
  induction t with
  | nil => cases ha
  | node l b r ihl ihr =>
    rcases mem_append.1 ha with ha | ha
    · obtain ⟨c, l', r', rfl⟩ := ihl ha
      exact ⟨c ++ [.left b r], l', r', by rw [plug_append]; rfl⟩
    · rcases mem_cons.1 ha with rfl | ha
      · exact ⟨[], l, r, rfl⟩
      · obtain ⟨c, l', r', rfl⟩ := ihr ha
        exact ⟨c ++ [.right l b], l', r', by rw [plug_append]; rfl⟩

theorem rep_plug : Rep m none m.root (plug c t) ↔ RepPath m c ∧ Rep m (parentOf c) (hole m c) t := by
  induction c generalizing t with
  | nil => exact ⟨fun h => ⟨trivial, h⟩, fun h => h.2⟩
  | cons f c ih =>
    cases f with
    | left a r =>
      rw [plug, ih]
      constructor
      · rintro ⟨hc, hv, hp, hl, hr⟩
        exact ⟨⟨hv, hp, hr, hc⟩, hl⟩
      · rintro ⟨⟨hv, hp, hr, hc⟩, hl⟩
        exact ⟨hc, hv, hp, hl, hr⟩
    | right l a =>
      rw [plug, ih]
      constructor
      · rintro ⟨hc, hv, hp, hl, hr⟩
        exact ⟨⟨hv, hp, hl, hc⟩, hr⟩
      · rintro ⟨⟨hv, hp, hl, hc⟩, hr⟩
        exact ⟨hc, hv, hp, hl, hr⟩

/-! ### What a tree depends on -/

namespace Rep

theorem congr (h : Rep m p v t) (hleft : ∀ a ∈ t.toList, m'.left a = m.left a)
    (hright : ∀ a ∈ t.toList, m'.right a = m.right a) (hparent : ∀ a ∈ t.toList, m'.parent a = m.parent a) :
    Rep m' p v t := by
  induction t generalizing p v with
  | nil => exact h
  | node l a r ihl ihr =>
    obtain ⟨hv, hp, hl, hr⟩ := h
    simp only [Shape.toList, mem_append, mem_cons] at hleft hright hparent
    refine ⟨hv, (hparent a (.inr (.inl rfl))).trans hp, ?_, ?_⟩
    · rw [hleft a (.inr (.inl rfl))]
      exact ihl hl (fun b hb => hleft b (.inl hb)) (fun b hb => hright b (.inl hb)) fun b hb => hparent b (.inl hb)
    · rw [hright a (.inr (.inl rfl))]
      exact ihr hr (fun b hb => hleft b (.inr (.inr hb))) (fun b hb => hright b (.inr (.inr hb)))
        fun b hb => hparent b (.inr (.inr hb))

theorem mem_of_eq (h : Rep m p v t) (hv : v = some a) : a ∈ t.toList := by
  cases t with
  | nil =>
    rw [hv] at h
    cases h
  | node l b r =>
    obtain ⟨hb, -⟩ := h
    cases hv.symm.trans hb
    simp [Shape.toList]

theorem ne_nil_iff (h : Rep m p v t) : v = none ↔ t = .nil := by
  cases t with
  | nil => exact ⟨fun _ => rfl, fun _ => h⟩
  | node l a r =>
    obtain ⟨rfl, -⟩ := h
    constructor
    · intro hv
      cases hv
    · intro ht
      cases ht

theorem exists_node (h : Rep m p (some a) t) : ∃ l r, t = .node l a r := by
  cases t with
  | nil => cases h
  | node l b r =>
    obtain ⟨hb, -⟩ := h
    cases hb
    exact ⟨l, r, rfl⟩

theorem reparent {q : Option α} (h : Rep m p v t) (hnd : t.toList.Nodup) (hleft : ∀ a ∈ t.toList, m'.left a = m.left a)
    (hright : ∀ a ∈ t.toList, m'.right a = m.right a)
    (hparent : ∀ a ∈ t.toList, (v = some a → m'.parent a = q) ∧ (v ≠ some a → m'.parent a = m.parent a)) :
    Rep m' q v t := by
  cases t with
  | nil => exact h
  | node l a r =>
    obtain ⟨rfl, hp, hl, hr⟩ := h
    simp only [Shape.toList] at hleft hright hparent hnd
    obtain ⟨-, hr', hdisj⟩ := nodup_append.1 hnd
    have ha : a ∈ l.toList ++ a :: r.toList := by simp
    refine ⟨rfl, (hparent a ha).1 rfl, ?_, ?_⟩
    · rw [hleft a ha]
      refine hl.congr (fun b hb => hleft b (by simp [hb])) (fun b hb => hright b (by simp [hb])) fun b hb => ?_
      refine (hparent b (by simp [hb])).2 fun heq => ?_
      exact hdisj b hb a (by simp) (Option.some.inj heq).symm
    · rw [hright a ha]
      refine hr.congr (fun b hb => hleft b (by simp [hb])) (fun b hb => hright b (by simp [hb])) fun b hb => ?_
      refine (hparent b (by simp [hb])).2 fun heq => ?_
      exact (nodup_cons.1 hr').1 (Option.some.inj heq ▸ hb)

end Rep

namespace RepPath

theorem congr {n : Ptrs α} (h : RepPath m c) (hroot : n.root = m.root) (hleft : ∀ a ∈ before c ++ after c,
    n.left a = m.left a)
    (hright : ∀ a ∈ before c ++ after c, n.right a = m.right a)
    (hparent : ∀ a ∈ before c ++ after c, n.parent a = m.parent a) : RepPath n c ∧ hole n c = hole m c := by
  induction c with
  | nil => exact ⟨trivial, hroot⟩
  | cons f c ih =>
    have hsub : ∀ b ∈ before c ++ after c, b ∈ before (f :: c) ++ after (f :: c) := by
      intro b hb
      cases f <;> simp [before, after] at hb ⊢ <;> tauto
    have hc : RepPath m c := by cases f <;> exact h.2.2.2
    obtain ⟨hc', hh⟩ := ih hc (fun b hb => hleft b (hsub b hb)) (fun b hb => hright b (hsub b hb))
      fun b hb => hparent b (hsub b hb)
    cases f with
    | left a r =>
      obtain ⟨hv, hp, hr, -⟩ := h
      simp only [before, after, mem_append, mem_cons] at hleft hright hparent
      refine ⟨⟨hh.trans hv, (hparent a (by tauto)).trans hp, ?_, hc'⟩, hleft a (by tauto)⟩
      rw [hright a (by tauto)]
      exact hr.congr (fun b hb => hleft b (by tauto)) (fun b hb => hright b (by tauto)) fun b hb => hparent b (by tauto)
    | right l a =>
      obtain ⟨hv, hp, hl, -⟩ := h
      simp only [before, after, mem_append, mem_cons] at hleft hright hparent
      refine ⟨⟨hh.trans hv, (hparent a (by tauto)).trans hp, ?_, hc'⟩, hright a (by tauto)⟩
      rw [hleft a (by tauto)]
      exact hl.congr (fun b hb => hleft b (by tauto)) (fun b hb => hright b (by tauto)) fun b hb => hparent b (by tauto)

end RepPath

section
variable [DecidableEq α]

namespace Ptrs

def setLeft (m : Ptrs α) (a : α) (v : Option α) : Ptrs α := { m with left := update m.left a v }

def setRight (m : Ptrs α) (a : α) (v : Option α) : Ptrs α := { m with right := update m.right a v }

def setParent (m : Ptrs α) (a : α) (v : Option α) : Ptrs α := { m with parent := update m.parent a v }

/-- `if(x != nil) x->parent = p` -/
def adopt (m : Ptrs α) (x : Option α) (p : Option α) : Ptrs α := x.elim m fun x => m.setParent x p

/-- The pointer to `t` in its parent `q` is set to `v`; without a parent, it is the root. -/
def relink (m : Ptrs α) (q : Option α) (t : α) (v : Option α) : Ptrs α :=
  match q with
  | none => { m with root := v }
  | some q => if m.left q = some t then m.setLeft q v else m.setRight q v

@[simp] theorem setLeft_right (b : α) : (m.setLeft a v).right b = m.right b := rfl

@[simp] theorem setLeft_parent (b : α) : (m.setLeft a v).parent b = m.parent b := rfl

@[simp] theorem setLeft_root : (m.setLeft a v).root = m.root := rfl

@[simp] theorem setRight_left (b : α) : (m.setRight a v).left b = m.left b := rfl

@[simp] theorem setRight_parent (b : α) : (m.setRight a v).parent b = m.parent b := rfl

@[simp] theorem setRight_root : (m.setRight a v).root = m.root := rfl

@[simp] theorem setParent_left (b : α) : (m.setParent a v).left b = m.left b := rfl

@[simp] theorem setParent_right (b : α) : (m.setParent a v).right b = m.right b := rfl

@[simp] theorem setParent_root : (m.setParent a v).root = m.root := rfl

@[simp] theorem setLeft_left (b : α) : (m.setLeft a v).left b = if b = a then v else m.left b :=
  update_apply ..

@[simp] theorem setRight_right (b : α) : (m.setRight a v).right b = if b = a then v else m.right b :=
  update_apply ..

@[simp] theorem setParent_parent (b : α) : (m.setParent a v).parent b = if b = a then v else m.parent b :=
  update_apply ..

@[simp] theorem adopt_left (b : α) : (m.adopt v p).left b = m.left b := by cases v <;> rfl

@[simp] theorem adopt_right (b : α) : (m.adopt v p).right b = m.right b := by cases v <;> rfl

@[simp] theorem adopt_root : (m.adopt v p).root = m.root := by cases v <;> rfl

@[simp] theorem adopt_parent (b : α) : (m.adopt v p).parent b = if v = some b then p else m.parent b := by
  cases v with
  | none => simp [adopt]
  | some y =>
    show (m.setParent y p).parent b = _
    simp [eq_comm]

@[simp] theorem relink_parent {q : Option α} (b : α) : (m.relink q a v).parent b = m.parent b := by
  cases q with
  | none => rfl
  | some q =>
    unfold relink
    dsimp only
    split <;> rfl

end Ptrs

def setHole (m : Ptrs α) (v : Option α) : List (Frame α) → Ptrs α
  | [] => { m with root := v }
  | .left a _ :: _ => m.setLeft a v
  | .right _ a :: _ => m.setRight a v

@[simp] theorem hole_setHole : hole (setHole m v c) c = v := by
  cases c with
  | nil => rfl
  | cons f c => cases f <;> simp [hole, setHole]

@[simp] theorem setHole_parent (b : α) : (setHole m v c).parent b = m.parent b := by
  cases c with
  | nil => rfl
  | cons f c => cases f <;> rfl

theorem setHole_left (hx : x ∉ before c ++ after c) : (setHole m v c).left x = m.left x := by
  cases c with
  | nil => rfl
  | cons f c =>
    cases f with
    | left a r =>
      have hxa : x ≠ a := by
        rintro rfl
        simp [before, after] at hx
      simp [setHole, hxa]
    | right l a => rfl

theorem setHole_right (hx : x ∉ before c ++ after c) : (setHole m v c).right x = m.right x := by
  cases c with
  | nil => rfl
  | cons f c =>
    cases f with
    | left a r => rfl
    | right l a =>
      have hxa : x ≠ a := by
        rintro rfl
        simp [before, after] at hx
      simp [setHole, hxa]

theorem RepPath.setHole (h : RepPath m c) (hnd : (before c ++ after c).Nodup) : RepPath (setHole m v c) c := by
  cases c with
  | nil => exact trivial
  | cons f c =>
    cases f with
    | left a r =>
      obtain ⟨hv, hp, hr, hc⟩ := h
      have hna : ∀ b ∈ before c ++ after c, b ≠ a := by
        rintro b hb rfl
        simp only [before, after, nodup_append, nodup_cons, mem_append, mem_cons] at hnd hb
        grind -linarith
      have hnr : a ∉ r.toList := by
        intro ha
        simp only [before, after, nodup_append, nodup_cons, mem_append, mem_cons] at hnd
        grind -linarith
      obtain ⟨hc', hh⟩ := hc.congr (n := m.setLeft a v) rfl
        (fun b hb => by simp [hna b hb]) (fun _ _ => rfl) fun _ _ => rfl
      refine ⟨hh.trans hv, hp, hr.congr (fun b hb => ?_) (fun _ _ => rfl) fun _ _ => rfl, hc'⟩
      have hba : b ≠ a := fun heq => hnr (heq ▸ hb)
      simp [PtrTree.setHole, hba]
    | right l a =>
      obtain ⟨hv, hp, hl, hc⟩ := h
      have hna : ∀ b ∈ before c ++ after c, b ≠ a := by
        rintro b hb rfl
        simp only [before, after, nodup_append, nodup_cons, mem_append, mem_cons] at hnd hb
        grind -linarith
      have hnl : a ∉ l.toList := by
        intro ha
        simp only [before, after, nodup_append, nodup_cons, mem_append, mem_cons] at hnd
        grind -linarith
      obtain ⟨hc', hh⟩ := hc.congr (n := m.setRight a v) rfl (fun _ _ => rfl)
        (fun b hb => by simp [hna b hb]) fun _ _ => rfl
      refine ⟨hh.trans hv, hp, hl.congr (fun _ _ => rfl) (fun b hb => ?_) fun _ _ => rfl, hc'⟩
      have hba : b ≠ a := fun heq => hnl (heq ▸ hb)
      simp [PtrTree.setHole, hba]

theorem relink_eq (h : RepPath m c) (hh : hole m c = some a) (ha : a ∉ before c ++ after c) :
    m.relink (parentOf c) a v = setHole m v c := by
  cases c with
  | nil => rfl
  | cons f c =>
    cases f with
    | left b r => exact if_pos hh
    | right l b =>
      obtain ⟨-, -, hl, -⟩ := h
      refine if_neg fun heq => ha ?_
      simp [before, hl.mem_of_eq heq]

/-! ### Changes of a tree -/

theorem rep_replace (h : Rep m none m.root (plug c (.node l a r))) (hnd : (plug c (.node l a r)).toList.Nodup)
    (hc : RepPath m' c) (hh : hole m' c = some x) (hp : m'.parent x = parentOf c) (hl : m'.left x = m.left a)
    (hr : m'.right x = m.right a) (hleft : ∀ b ∈ l.toList ++ r.toList, m'.left b = m.left b)
    (hright : ∀ b ∈ l.toList ++ r.toList, m'.right b = m.right b)
    (hparent : ∀ b ∈ l.toList ++ r.toList,
      m'.parent b = if m.left a = some b ∨ m.right a = some b then some x else m.parent b) :
    Rep m' none m'.root (plug c (.node l x r)) := by
  obtain ⟨-, -, -, hrl, hrr⟩ := rep_plug.1 h
  have hnd : (l.toList ++ a :: r.toList).Nodup := by
    rw [toList_plug] at hnd
    exact (nodup_append.1 (nodup_append.1 hnd).1).2.1
  obtain ⟨hndl, hndr, hdisj⟩ := nodup_append.1 hnd
  refine rep_plug.2 ⟨hc, hh, hp, ?_, ?_⟩
  · rw [hl]
    refine hrl.reparent hndl (fun b hb => hleft b (by simp [hb])) (fun b hb => hright b (by simp [hb])) fun b hb => ?_
    rw [hparent b (by simp [hb])]
    refine ⟨fun heq => if_pos (.inl heq), fun hne => if_neg ?_⟩
    rintro (heq | heq)
    · exact hne heq
    · exact hdisj b hb b (mem_cons_of_mem a (hrr.mem_of_eq heq)) rfl
  rw [hr]
  refine hrr.reparent (nodup_cons.1 hndr).2
    (fun b hb => hleft b (by simp [hb])) (fun b hb => hright b (by simp [hb]))
    fun b hb => ?_
  rw [hparent b (by simp [hb])]
  refine ⟨fun heq => if_pos (.inr heq), fun hne => if_neg ?_⟩
  rintro (heq | heq)
  · exact hdisj b (hrl.mem_of_eq heq) b (mem_cons_of_mem a hb) rfl
  · exact hne heq

theorem rep_graft (hc : RepPath m c) (hh : hole m c = some a) (ha : a ∉ before c ++ after c)
    (hnd : (before c ++ after c).Nodup) (ht : Rep m p v t) (htnd : t.toList.Nodup)
    (hd : ∀ b ∈ t.toList, b ∉ before c ++ after c) :
    let m' := (m.relink (parentOf c) a v).adopt v (parentOf c)
    Rep m' none m'.root (plug c t) := by
  intro m'
  have hm : m.relink (parentOf c) a v = setHole m v c := relink_eq hc hh ha
  have hset : RepPath (setHole m v c) c := hc.setHole hnd
  obtain ⟨hc', hh'⟩ := hset.congr (n := m')
    (by simp [m', hm]) (fun b _ => by simp [m', hm]) (fun b _ => by simp [m', hm])
    fun b hb => by
      have hvb : v ≠ some b := fun heq => hd b (ht.mem_of_eq heq) hb
      simp [m', hm, hvb]
  refine rep_plug.2 ⟨hc', ?_⟩
  rw [hh', hole_setHole]
  refine ht.reparent htnd (fun b hb => ?_) (fun b hb => ?_) fun b hb => ⟨fun heq => ?_, fun hne => ?_⟩
  · simp [m', hm, setHole_left (hd b hb)]
  · simp [m', hm, setHole_right (hd b hb)]
  · simp [m', heq]
  · simp [m', hne]

theorem rep_promote (h : Rep m none m.root (plug c (.node l a r))) (hnd : (plug c (.node l a r)).toList.Nodup)
    (hx : x ∉ (plug c (.node l a r)).toList) (hroot : m'.root = m.root)
    (hleft : ∀ b, b ≠ a → m'.left b = if b = x then m.left a else m.left b)
    (hright : ∀ b, b ≠ a → m'.right b = if b = x then m.right a else m.right b)
    (hparent : ∀ b, b ≠ a → b ≠ x →
      m'.parent b = if m.left a = some b ∨ m.right a = some b then some x else m.parent b) :
    let m'' := (m'.relink (parentOf c) a (some x)).setParent x (parentOf c)
    Rep m'' none m''.root (plug c (.node l x r)) := by
  intro m''
  have hap := apart_of_nodup hnd
  obtain ⟨hpath, hhole, hpar, hrl, hrr⟩ := rep_plug.1 h
  rw [toList_plug] at hx
  simp only [Shape.toList, mem_append, mem_cons, not_or] at hx
  have hxc : x ∉ before c ++ after c := by
    rw [mem_append]
    tauto
  have hxa : x ≠ a := hx.1.2.2.1
  have hca : ∀ b ∈ before c ++ after c, b ≠ a ∧ b ≠ x := by
    refine fun b hb => ⟨?_, ?_⟩
    · rintro rfl
      exact hap.root.1 hb
    · rintro rfl
      exact hxc hb
  have hchild : ∀ b ∈ before c ++ after c, ¬ (m.left a = some b ∨ m.right a = some b) := by
    rintro b hb (heq | heq)
    · exact hap.outside b (mem_append_left _ (hrl.mem_of_eq heq)) hb
    · exact hap.outside b (mem_append_right _ (hrr.mem_of_eq heq)) hb
  obtain ⟨hc', hh'⟩ := hpath.congr (n := m') hroot (fun b hb => by rw [hleft b (hca b hb).1, if_neg (hca b hb).2])
    (fun b hb => by rw [hright b (hca b hb).1, if_neg (hca b hb).2])
    fun b hb => by rw [hparent b (hca b hb).1 (hca b hb).2, if_neg (hchild b hb)]
  have hm : m'.relink (parentOf c) a (some x) = setHole m' (some x) c := relink_eq hc' (hh'.trans hhole) hap.root.1
  obtain ⟨hc'', hh''⟩ := (hc'.setHole hap.path (v := some x)).congr (n := m'') (by simp [m'', hm])
    (fun b _ => by simp [m'', hm]) (fun b _ => by simp [m'', hm]) fun b hb => by simp [m'', (hca b hb).2]
  have hin : ∀ b ∈ l.toList ++ r.toList, b ≠ a ∧ b ≠ x := by
    intro b hb
    have ha := hap.root.2
    rw [mem_append] at hb
    refine ⟨?_, ?_⟩
    · rintro rfl
      tauto
    · rintro rfl
      tauto
  refine rep_replace h hnd hc'' (hh''.trans hole_setHole) (by simp [m'']) ?_ ?_ (fun b hb => ?_) (fun b hb => ?_)
    fun b hb => ?_
  · simp [m'', hm, setHole_left hxc, hleft x hxa]
  · simp [m'', hm, setHole_right hxc, hright x hxa]
  · simp [m'', hm, setHole_left (hap.outside b hb), hleft b (hin b hb).1, (hin b hb).2]
  · simp [m'', hm, setHole_right (hap.outside b hb), hright b (hin b hb).1, (hin b hb).2]
  · simp [m'', (hin b hb).2, hparent b (hin b hb).1 (hin b hb).2]

/-- The loop from `f` and its child `x` to the first node of the subtree, which comes back with its parent. -/
def leftmost (m : Ptrs α) : Nat → α → α → α × α
  | 0, f, x => (f, x)
  | n + 1, f, x =>
    match m.left x with
    | none => (f, x)
    | some s => leftmost m n x s

/-- A path that only goes to the left. -/
def Lefts : List (Frame α) → Prop
  | [] => True
  | .left _ _ :: c => Lefts c
  | .right _ _ :: _ => False

omit [DecidableEq α] in
theorem leftmost_spec {n : Nat} {f : α} (h : RepPath m c) (hf : parentOf c = some f) (ht : Rep m (some f) (some x) t)
    (hh : hole m c = some x) (hn : t.toList.length ≤ n) :
    ∃ d y r, Lefts d ∧ t = plug d (.node .nil y r) ∧ parentOf (d ++ c) = some (leftmost m n f x).1 ∧
      y = (leftmost m n f x).2 := by
  induction n generalizing f x t c with
  | zero =>
    have hmem := ht.mem_of_eq rfl
    rw [length_eq_zero_iff.1 (Nat.le_zero.1 hn)] at hmem
    cases hmem
  | succ n ih =>
    obtain ⟨l, r, rfl⟩ := ht.exists_node
    obtain ⟨-, hp, hl, hr⟩ := ht
    unfold leftmost
    cases hs : m.left x with
    | none =>
      rw [hs] at hl
      cases hl.ne_nil_iff.1 rfl
      exact ⟨[], x, r, trivial, rfl, hf, rfl⟩
    | some s =>
      rw [hs] at hl
      have hc : RepPath m (.left x r :: c) := ⟨hh, hp.trans hf.symm, hr, h⟩
      obtain ⟨d, y, r', hd, rfl, hpd, hy⟩ := ih (c := .left x r :: c) hc rfl hl hs (by
        simp only [Shape.toList, length_append, length_cons] at hn
        omega)
      refine ⟨d ++ [.left x r], y, r', ?_, ?_, ?_, hy⟩
      · clear ih hpd hn hl
        induction d with
        | nil => exact trivial
        | cons g d ihd =>
          cases g with
          | left b r => exact ihd hd
          | right l b => exact hd.elim
      · rw [plug_append]
        rfl
      · rw [append_assoc]
        exact hpd

end

end PtrTree
