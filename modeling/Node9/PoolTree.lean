import Node9.Pool

/-!
# The free blocks of a pool

What is in the tree and in the rings after `pooldel` and `pooladd`, and what the loops of `pooladd` and `dopoolalloc`
find there.
-/

namespace Node9.Pool
open PtrTree Intrusive Function
open List hiding after

/-- The nodes of the tree, each with the others of its ring. -/
def members (t : Shape Nat) (rs : Nat → List Nat) : List Nat := t.toList.flatMap fun h => h :: rs h

structure Tidy (m : Ptrs Nat) (k : Links Nat) (size : Nat → Nat) (t : Shape Nat) (rs : Nat → List Nat) : Prop where
  rep : Rep m none m.root t
  sorted : (t.toList.map size).Pairwise (· < ·)
  ring : ∀ h ∈ t.toList, Ring k h (rs h)
  member : ∀ h ∈ t.toList, ∀ x ∈ rs h, m.parent x = none ∧ size x = size h
  nodup : (members t rs).Nodup

variable {s : St} {m : Ptrs Nat} {k : Links Nat} {size : Nat → Nat} {t : Shape Nat} {rs : Nat → List Nat} {b n : Nat}

theorem mem_members : b ∈ members t rs ↔ ∃ h ∈ t.toList, b = h ∨ b ∈ rs h := by
  simp [members]

theorem mem_members_of_mem (hb : b ∈ t.toList) : b ∈ members t rs := mem_members.2 ⟨b, hb, .inl rfl⟩

variable (rs) in
theorem members_update {h : Nat} (xs : List Nat) (hnd : t.toList.Nodup) (hh : h ∈ t.toList) :
    (members t (update rs h xs)).Perm (xs ++ members t (update rs h [])) := by
  obtain ⟨us, vs, hsplit⟩ := append_of_mem hh
  unfold members
  rw [hsplit] at hnd ⊢
  obtain ⟨-, hnd', hdisj⟩ := nodup_append.1 hnd
  have hflat : ∀ (ys : List Nat) (l : List Nat), (∀ c ∈ l, c ≠ h) →
      (l.flatMap fun a => a :: update rs h ys a) = l.flatMap fun a => a :: rs a := by
    intro ys l hl
    refine flatMap_congr fun c hc => ?_
    rw [update_of_ne (hl c hc)]
  have hus : ∀ c ∈ us, c ≠ h := fun c hc => hdisj c hc h (mem_cons_self ..)
  have hvs : ∀ c ∈ vs, c ≠ h := fun c hc heq => (nodup_cons.1 hnd').1 (heq ▸ hc)
  simp only [flatMap_append, flatMap_cons, hflat _ us hus, hflat _ vs hvs, update_self]
  refine perm_iff_count.2 fun a => ?_
  simp only [count_append, count_cons, count_nil]
  omega

namespace Tidy

theorem nodup_toList (h : Tidy m k size t rs) : t.toList.Nodup := by
  have hnd := h.nodup
  unfold members at hnd
  generalize t.toList = l at hnd
  induction l with
  | nil => exact nodup_nil
  | cons a l ih =>
    rw [flatMap_cons] at hnd
    obtain ⟨-, hnd', hdisj⟩ := nodup_append.1 hnd
    refine nodup_cons.2 ⟨fun ha => ?_, ih hnd'⟩
    exact hdisj a (by simp) a (mem_flatMap.2 ⟨a, ha, by simp⟩) rfl

theorem ring_disjoint (h : Tidy m k size t rs) {a c x : Nat} (ha : a ∈ t.toList) (hc : c ∈ t.toList) (hac : a ≠ c)
    (hx : x ∈ a :: rs a) : x ∉ c :: rs c := by
  have hnd := nodup_flatMap.1 h.nodup
  have hpw := hnd.2
  intro hx'
  have hsymm : Std.Symm (onFun List.Disjoint fun h => h :: rs h) := ⟨fun _ _ hd => hd.symm⟩
  have hdisj := hpw.forall ha hc hac
  exact hdisj hx hx'

theorem not_mem_toList (h : Tidy m k size t rs) {x : Nat} (hb : b ∈ t.toList) (hx : x ∈ rs b) : x ∉ t.toList := by
  intro hxt
  have hxb : x ≠ b := by
    rintro rfl
    exact (nodup_cons.1 (h.ring x hb).nodup).1 hx
  exact h.ring_disjoint hb hxt hxb.symm (mem_cons_of_mem b hx) (mem_cons_self ..)

end Tidy

theorem Tidy.del_member {h : Nat} (ht : Tidy m k size t rs) (hh : h ∈ t.toList) (hb : b ∈ rs h) :
    ∃ rs', Tidy m (remove k b) size t rs' ∧ (members t rs).Perm (b :: members t rs') := by
  obtain ⟨xs, ys, hrs⟩ := append_of_mem hb
  have hr := ht.ring h hh
  rw [hrs] at hr
  have hperm : (members t rs).Perm (b :: members t (update rs h (xs ++ ys))) := by
    have hold := members_update rs (rs h) ht.nodup_toList hh
    have hnew := members_update rs (xs ++ ys) ht.nodup_toList hh
    rw [update_eq_self, hrs] at hold
    refine perm_iff_count.2 fun a => ?_
    rw [count_cons, hold.count_eq, hnew.count_eq]
    simp only [count_append, count_cons]
    omega
  refine ⟨update rs h (xs ++ ys), ⟨ht.rep, ht.sorted, fun c hc => ?_, fun c hc x hx => ?_, ?_⟩, hperm⟩
  · by_cases hch : c = h
    · subst hch
      rw [update_self]
      exact hr.remove
    · rw [update_of_ne hch]
      refine Ring.remove_other hr (ht.ring c hc) fun x hx => ht.ring_disjoint hh hc (Ne.symm hch) ?_
      rw [hrs]
      exact hx
  · by_cases hch : c = h
    · subst hch
      rw [update_self] at hx
      refine ht.member c hc x ?_
      rw [hrs]
      simp only [mem_append, mem_cons] at hx ⊢
      tauto
    · rw [update_of_ne hch] at hx
      exact ht.member c hc x hx
  · exact (nodup_cons.1 (hperm.nodup_iff.1 ht.nodup)).2

theorem before_lefts {d : List (Frame Nat)} (h : Lefts d) : before d = [] := by
  induction d with
  | nil => rfl
  | cons f d ih =>
    cases f with
    | left a r => exact ih h
    | right l a => exact h.elim

attribute [local simp] Shape.toList

theorem unlink_spec {c : List (Frame Nat)} {l r : Shape Nat} (h : Rep m none m.root (plug c (.node l b r)))
    (hnd : (plug c (.node l b r)).toList.Nodup) (hn : r.toList.length ≤ n) :
    ∃ t', Rep (unlink n b m) none (unlink n b m).root t' ∧ t'.toList = before c ++ (l.toList ++ r.toList) ++ after c ∧
      ∀ x ∉ (plug c (.node l b r)).toList, (unlink n b m).parent x = m.parent x := by
  have hap := apart_of_nodup hnd
  obtain ⟨hpath, hhole, hpar, hl, hr⟩ := rep_plug.1 h
  have hmem : ∀ x ∉ (plug c (.node l b r)).toList, x ∉ l.toList ∧ x ∉ r.toList := by
    intro x hx
    rw [toList_plug] at hx
    simp only [Shape.toList, mem_append, mem_cons] at hx
    tauto
  cases hlb : m.left b with
  | none =>
    rw [hlb] at hl
    cases hl.ne_nil_iff.1 rfl
    have hun : unlink n b m = (m.relink (parentOf c) b (m.right b)).adopt (m.right b) (parentOf c) := by
      unfold unlink
      rw [hlb, hpar]
    rw [hun]
    refine ⟨plug c r, rep_graft hpath hhole hap.root.1 hap.path hr hap.right fun x hx => hap.outside x
      (by simp [hx]), ?_,
      fun x hx => ?_⟩
    · rw [toList_plug]
      rfl
    · have hrx : m.right b ≠ some x := fun heq => (hmem x hx).2 (hr.mem_of_eq heq)
      simp [hrx]
  | some lp =>
    cases hrb : m.right b with
    | none =>
      rw [hrb] at hr
      cases hr.ne_nil_iff.1 rfl
      have hun : unlink n b m = (m.relink (parentOf c) b (m.left b)).adopt (m.left b) (parentOf c) := by
        unfold unlink
        rw [hlb, hrb, hpar]
      rw [hun]
      refine ⟨plug c l, rep_graft hpath hhole hap.root.1 hap.path hl hap.left fun x hx => hap.outside x
        (by simp [hx]), ?_,
        fun x hx => ?_⟩
      · rw [toList_plug]
        simp
      · have hlx : m.left b ≠ some x := fun heq => (hmem x hx).1 (hl.mem_of_eq heq)
        simp [hlx]
    | some rp =>
      have hr' : Rep m (some b) (some rp) r := hrb ▸ hr
      obtain ⟨d, y, r', hd, rfl, hf, hy⟩ := leftmost_spec (c := .right l b :: c) ⟨hhole, hpar, hl, hpath⟩ rfl hr' hrb hn
      generalize hfy : leftmost m n b rp = fy at hf hy
      obtain ⟨f, y'⟩ := fy
      obtain rfl : y = y' := hy
      -- `y` leaves its place first
      have hcat : ∀ t : Shape Nat, plug (d ++ .right l b :: c) t = plug c (.node l b (plug d t)) := fun t => plug_append
      rw [← hcat] at h hnd
      have hapy := apart_of_nodup hnd
      obtain ⟨hpathy, hholey, hpary, -, hry⟩ := rep_plug.1 h
      have hgraft := rep_graft hpathy hholey hapy.root.1 hapy.path hry hapy.right fun x hx => hapy.outside x
        (by simp [hx])
      rw [hcat, hf] at hgraft
      have hlist : (plug d (.node .nil y r')).toList = y :: (plug d r').toList := by
        simp [toList_plug, before_lefts hd]
      have hperm : (plug c (.node l b (plug d (.node .nil y r')))).toList.Perm
          (y :: (plug c (.node l b (plug d r'))).toList) := by
        simp only [toList_plug (c := c), Shape.toList, hlist]
        refine perm_iff_count.2 fun a => ?_
        simp only [count_append, count_cons]
        omega
      rw [hcat] at hnd
      have hnd' := nodup_cons.1 (hperm.nodup_iff.1 hnd)
      have hlpy : lp ≠ y := by
        have hlp := hl.mem_of_eq hlb
        rintro rfl
        exact hap.disjoint lp hlp (by simp [hlist])
      have hby : y ≠ b := by
        rintro rfl
        exact hap.root.2.2 (by simp [hlist])
      have hychild : ∀ a, m.right y = some a → m.parent a = some y ∧ a ∈ r'.toList := by
        intro a ha
        have hmem := hry.mem_of_eq ha
        obtain ⟨l', r'', rfl⟩ := (ha ▸ hry).exists_node
        exact ⟨(ha ▸ hry).2.1, hmem⟩
      have hun : unlink n b m =
          ((((if f = b then m else
              (((((m.setLeft f (m.right y)).adopt (m.right y) (some f)).setRight y
                (((m.setLeft f (m.right y)).adopt (m.right y) (some f)).right b)).adopt
                (((m.setLeft f (m.right y)).adopt (m.right y) (some f)).right b) (some y)))).setLeft y
                  (some lp)).setParent lp
            (some y)).relink (parentOf c) b (some y)).setParent y (parentOf c) := by
        unfold unlink
        rw [hlb, hrb, hpar]
        dsimp only
        rw [hfy]
      have hin : ∀ x ∉ (plug c (.node l b (plug d (.node .nil y r')))).toList, x ≠ y ∧ lp ≠ x ∧ m.right y ≠ some x ∧
        x ≠ rp := by
        intro x hx
        have hx' := hmem x hx
        refine ⟨?_, ?_, fun heq => ?_, ?_⟩
        · rintro rfl
          exact hx'.2 (by simp [hlist])
        · rintro rfl
          exact hx'.1 (hl.mem_of_eq hlb)
        · exact hx'.2 (by simp [hlist, toList_plug, before_lefts hd, (hychild x heq).2])
        · rintro rfl
          exact hx'.2 (hr.mem_of_eq hrb)
      have hlist' : (plug c (.node l y (plug d r'))).toList =
          before c ++ (l.toList ++ (plug d (.node .nil y r')).toList) ++ after c := by
        rw [toList_plug, hlist]
        rfl
      cases d with
      | nil =>
        obtain rfl : b = f := Option.some.inj hf
        have hrel : m.relink (some b) y (m.right y) = m.setRight b (m.right y) := by
          refine if_neg fun heq => hlpy ?_
          exact Option.some.inj (hlb.symm.trans heq)
        rw [hrel] at hgraft
        rw [if_pos rfl] at hun
        refine ⟨plug c (.node l y r'), ?_, hlist', fun x hx => ?_⟩
        · rw [hun]
          refine rep_promote hgraft hnd'.2 hnd'.1 (by simp) (fun x hx => ?_) (fun x hx => ?_) fun x hx hxy => ?_
          · simp [hlb]
          · simp +contextual [hx]
          · by_cases hrx : m.right y = some x
            · simp [hlb, hrx, (hychild x hrx).1]
            · simp [hlb, hrx, eq_comm]
        · obtain ⟨hxy, hlx, -⟩ := hin x hx
          simp [hun, hxy, hlx.symm]
      | cons g d =>
        cases g with
        | right l' a => exact hd.elim
        | left a r'' =>
          obtain rfl : a = f := Option.some.inj hf
          have hfb : a ≠ b := by
            rintro rfl
            exact hap.root.2.2 (by simp [plug, toList_plug])
          have hrel : m.relink (some a) y (m.right y) = m.setLeft a (m.right y) := if_pos hholey
          rw [hrel] at hgraft
          rw [if_neg hfb] at hun
          refine ⟨plug c (.node l y (plug (.left a r'' :: d) r')), ?_, hlist', fun x hx => ?_⟩
          · rw [hun]
            refine rep_promote hgraft hnd'.2 hnd'.1 (by simp) (fun x hx => ?_) (fun x hx => ?_) fun x hx hxy => ?_
            · simp [hfb.symm, hlb]
            · simp
            simp only [Ptrs.setParent_parent, Ptrs.setLeft_parent, Ptrs.adopt_parent, Ptrs.setRight_parent,
              Ptrs.adopt_left,
              Ptrs.setLeft_left, if_neg hfb.symm, hlb, Option.some.injEq]
            by_cases hlx : lp = x
            · simp [hlx]
            · simp [hlx, Ne.symm hlx]
          · obtain ⟨hxy, hlx, hrx, hxr⟩ := hin x hx
            simp [hun, hxy, hlx.symm, hrx, hrb, hxr.symm]

theorem Tidy.del_head {f : Nat} {fs : List Nat} (ht : Tidy m k size t rs) (hb : b ∈ t.toList) (hrs : rs b = f :: fs) :
    let m₁ := (m.setParent f (m.parent b)).relink (m.parent b) b (some f)
    let m₂ := (m₁.setLeft f (m₁.left b)).adopt (m₁.left b) (some f)
    let m₃ := (m₂.setRight f (m₂.right b)).adopt (m₂.right b) (some f)
    ∃ t' rs', Tidy m₃ (remove k b) size t' rs' ∧ (members t rs).Perm (b :: members t' rs') := by
  intro m₁ m₂ m₃
  obtain ⟨c, l, r, rfl⟩ := exists_plug hb
  have hnd := ht.nodup_toList
  have hf : f ∉ (plug c (.node l b r)).toList := ht.not_mem_toList hb (by rw [hrs]; exact mem_cons_self ..)
  have hap := apart_of_nodup hnd
  rw [toList_plug] at hf
  simp only [Shape.toList, mem_append, mem_cons, not_or] at hf
  obtain ⟨⟨hfc, hfl, hfb, hfr⟩, hfa⟩ := hf
  obtain ⟨hpath, hhole, hpar, hl, hr⟩ := rep_plug.1 ht.rep
  have hne : ∀ a ∈ before c ++ after c, a ≠ f := by
    rintro a ha rfl
    rcases mem_append.1 ha with ha | ha
    · exact hfc ha
    · exact hfa ha
  have hpath' := hpath.congr (n := m.setParent f (m.parent b)) rfl (fun _ _ => rfl) (fun _ _ => rfl) fun a ha => by
    simp [hne a ha]
  have hm₁ : m₁ = setHole (m.setParent f (m.parent b)) (some f) c := by
    show (m.setParent f (m.parent b)).relink (m.parent b) b (some f) = _
    rw [hpar]
    exact relink_eq (hpar ▸ hpath'.1) ((hpar ▸ hpath'.2).trans hhole) hap.root.1
  have hset : RepPath m₁ c ∧ hole m₁ c = some f := by
    rw [hm₁]
    exact ⟨hpath'.1.setHole hap.path, hole_setHole⟩
  have hleft₁ : ∀ a, a ∉ before c ++ after c → m₁.left a = m.left a := fun a ha => by rw [hm₁, setHole_left ha]; rfl
  have hright₁ : ∀ a, a ∉ before c ++ after c → m₁.right a = m.right a := fun a ha => by rw [hm₁, setHole_right ha]; rfl
  have hparent₁ : ∀ a, m₁.parent a = if a = f then m.parent b else m.parent a := fun a => by rw [hm₁]; simp
  have hlb : m₁.left b = m.left b := hleft₁ b hap.root.1
  have hright₂ : ∀ a, m₂.right a = m₁.right a := fun a => by simp [m₂]
  have hrb : m₂.right b = m.right b := (hright₂ b).trans (hright₁ b hap.root.1)
  have hleft₂ : ∀ a, m₂.left a = if a = f then m.left b else m₁.left a := fun a => by simp [m₂, hlb]
  have hparent₂ : ∀ a, m₂.parent a = if m.left b = some a then some f else m₁.parent a := fun a => by simp [m₂, hlb]
  have hleft : ∀ a, m₃.left a = if a = f then m.left b else m₁.left a := fun a => by
    rw [← hleft₂]
    simp [m₃]
  have hright : ∀ a, m₃.right a = if a = f then m.right b else m₁.right a := fun a => by
    rw [← hrb, ← hright₂]
    simp [m₃]
  have hparent : ∀ a, m₃.parent a = if m.left b = some a ∨ m.right b = some a then some f else m₁.parent a :=
    fun a => by
    have hval : m₃.parent a = if m₂.right b = some a then some f else m₂.parent a := by simp [m₃]
    rw [hval, hrb, hparent₂]
    by_cases hl : m.left b = some a <;> by_cases hr : m.right b = some a <;> simp [hl, hr]
  -- the children of `b` are elsewhere
  have hchild : ∀ a, a ∉ l.toList ++ r.toList → ¬ (m.left b = some a ∨ m.right b = some a) := by
    intro a ha hor
    rcases hor with heq | heq
    · exact ha (mem_append_left _ (hl.mem_of_eq heq))
    · exact ha (mem_append_right _ (hr.mem_of_eq heq))
  have hout : ∀ a ∈ before c ++ after c, a ∉ l.toList ++ r.toList := fun a ha ha' => hap.outside a ha' ha
  obtain ⟨hc₃, hh₃⟩ := hset.1.congr (n := m₃) (by simp [m₃, m₂]) (fun a ha => by rw [hleft, if_neg (hne a ha)])
    (fun a ha => by rw [hright, if_neg (hne a ha)]) fun a ha => by rw [hparent, if_neg (hchild a (hout a ha))]
  have hnf : ∀ a ∈ l.toList ++ r.toList, a ≠ f := by
    rintro a ha rfl
    rcases mem_append.1 ha with ha | ha
    · exact hfl ha
    · exact hfr ha
  have hflr : f ∉ l.toList ++ r.toList := fun hmem => hnf f hmem rfl
  have hrep : Rep m₃ none m₃.root (plug c (.node l f r)) := by
    refine rep_replace ht.rep hnd hc₃ (hh₃.trans hset.2) ?_ ?_ ?_ (fun a ha => ?_) (fun a ha => ?_) fun a ha => ?_
    · rw [hparent, if_neg (hchild f hflr), hparent₁, if_pos rfl, hpar]
    · rw [hleft, if_pos rfl]
    · rw [hright, if_pos rfl]
    · rw [hleft, if_neg (hnf a ha), hleft₁ a (hap.outside a ha)]
    · rw [hright, if_neg (hnf a ha), hright₁ a (hap.outside a ha)]
    · rw [hparent, hparent₁, if_neg (hnf a ha)]
  have hringb := ht.ring b hb
  rw [hrs] at hringb
  -- the rings of the others
  have hrs' : ∀ l' : List Nat, (∀ a ∈ l', a ≠ f) →
      (l'.flatMap fun a => a :: update rs f fs a) = l'.flatMap fun a => a :: rs a := by
    intro l' hl'
    refine flatMap_congr fun a ha => ?_
    rw [update_of_ne (hl' a ha)]
  have hperm : (members (plug c (.node l b r)) rs).Perm (b :: members (plug c (.node l f r))
    (update rs f fs)) := by
    unfold members
    simp only [toList_plug, Shape.toList, flatMap_append, flatMap_cons]
    rw [hrs' _ fun a ha => hne a (by simp [ha]), hrs' _ fun a ha => hnf a (by simp [ha]),
      hrs' _ fun a ha => hnf a (by simp [ha]), hrs' _ fun a ha => hne a (by simp [ha]), hrs, update_self]
    refine perm_iff_count.2 fun a => ?_
    simp only [count_append, count_cons]
    omega
  have hsize : size f = size b := (ht.member b hb f (by rw [hrs]; exact mem_cons_self ..)).2
  have hmem : ∀ a ∈ (plug c (.node l f r)).toList, a = f ∨ a ≠ f ∧ a ≠ b ∧ a ∈ (plug c (.node l b r)).toList := by
    intro a ha
    rw [toList_plug] at ha ⊢
    simp only [Shape.toList, mem_append, mem_cons] at ha ⊢
    by_cases haf : a = f
    · exact .inl haf
    have hab : a ≠ b := by
      rintro rfl
      have h₁ := hap.root.1
      have h₂ := hap.root.2
      rw [mem_append] at h₁
      tauto
    exact .inr ⟨haf, hab, by tauto⟩
  refine ⟨_, update rs f fs, ⟨hrep, ?_, fun a ha => ?_, fun a ha x hx => ?_, ?_⟩, hperm⟩
  · have hsorted := ht.sorted
    simp only [toList_plug, Shape.toList, map_append, map_cons] at hsorted ⊢
    rwa [hsize]
  · rcases hmem a ha with rfl | ⟨haf, hab, ha⟩
    · rw [update_self]
      exact hringb.remove_self
    rw [update_of_ne haf]
    -- seen from `f`, it is a node behind the head that goes
    have hringf : Ring k f (fs ++ b :: []) := Ring.rotate (show Ring k b ([] ++ f :: fs) from hringb)
    refine Ring.remove_other hringf (ht.ring a ha) fun x hx => ht.ring_disjoint hb ha (Ne.symm hab) ?_
    rw [hrs]
    simp only [mem_cons, mem_append, not_mem_nil, or_false] at hx ⊢
    tauto
  · obtain ⟨a₀, ha₀, hx₀, hsize₀, hxf⟩ : ∃ a₀ ∈ (plug c (.node l b r)).toList, x ∈ rs a₀ ∧ size a₀ = size a ∧
      x ≠ f := by
      rcases hmem a ha with rfl | ⟨haf, hab, ha'⟩
      · rw [update_self] at hx
        refine ⟨b, hb, by simp [hrs, hx], hsize.symm, ?_⟩
        rintro rfl
        exact (nodup_cons.1 (nodup_cons.1 hringb.nodup).2).1 hx
      · rw [update_of_ne haf] at hx
        refine ⟨a, ha', hx, rfl, ?_⟩
        rintro rfl
        exact ht.ring_disjoint ha' hb hab (mem_cons_of_mem a hx) (by simp [hrs])
    obtain ⟨hpx, hsx⟩ := ht.member a₀ ha₀ x hx₀
    refine ⟨?_, hsx.trans hsize₀⟩
    have hxt := ht.not_mem_toList ha₀ hx₀
    rw [hparent, if_neg (hchild x fun hmem => hxt ?_), hparent₁, if_neg hxf, hpx]
    rw [toList_plug]
    simp only [Shape.toList, mem_append, mem_cons] at hmem ⊢
    tauto
  · exact (nodup_cons.1 (hperm.nodup_iff.1 ht.nodup)).2

theorem Tidy.del_alone (ht : Tidy m k size t rs) (hb : b ∈ t.toList) (hrs : rs b = []) (hn : t.toList.length ≤ n) :
    ∃ t', Tidy (unlink n b m) k size t' rs ∧ (members t rs).Perm (b :: members t' rs) := by
  obtain ⟨c, l, r, rfl⟩ := exists_plug hb
  have hnr : r.toList.length ≤ n := by
    rw [toList_plug] at hn
    simp only [Shape.toList, length_append, length_cons] at hn
    omega
  obtain ⟨t', hrep, hlist, hparent⟩ := unlink_spec ht.rep ht.nodup_toList hnr
  have hsub : t'.toList.Sublist (plug c (.node l b r)).toList := by
    rw [hlist, toList_plug]
    refine ((List.Sublist.append_left ?_ _).append_right _)
    exact (sublist_cons_self ..).append_left _
  have hperm : (members (plug c (.node l b r)) rs).Perm (b :: members t' rs) := by
    unfold members
    rw [hlist, toList_plug]
    simp only [Shape.toList, flatMap_append, flatMap_cons, hrs]
    refine perm_iff_count.2 fun a => ?_
    simp only [count_append, count_cons, count_nil]
    omega
  refine ⟨t', ⟨hrep, ?_, fun h hh => ht.ring h (hsub.subset hh), fun h hh x hx => ?_, ?_⟩, hperm⟩
  · exact ht.sorted.sublist (hsub.map size)
  · obtain ⟨hpx, hsx⟩ := ht.member h (hsub.subset hh) x hx
    exact ⟨(hparent x (ht.not_mem_toList (hsub.subset hh) hx)).trans hpx, hsx⟩
  · exact (nodup_cons.1 (hperm.nodup_iff.1 ht.nodup)).2

theorem Tidy.mem_toList_iff (ht : Tidy m k size t rs) (hb : b ∈ members t rs) :
    b ∈ t.toList ↔ ¬ (m.parent b = none ∧ m.root ≠ some b) := by
  constructor
  · rintro hmem ⟨hpar, hroot⟩
    obtain ⟨c, l, r, rfl⟩ := exists_plug hmem
    obtain ⟨-, hhole, hp, -⟩ := rep_plug.1 ht.rep
    cases c with
    | nil => exact hroot hhole
    | cons f c => cases f <;> exact Option.some_ne_none _ (hp.symm.trans hpar)
  · intro hnot
    by_contra hmem
    obtain ⟨h, hh, rfl | hb⟩ := mem_members.1 hb
    · exact hmem hh
    · exact hnot ⟨(ht.member h hh b hb).1, fun heq => hmem (ht.rep.mem_of_eq heq)⟩

theorem pooldel_eq (b : Nat) (s : St) :
    pooldel b s = { s with tree := (pooldel b s).tree, ring := (pooldel b s).ring } := by
  unfold pooldel
  dsimp only
  split
  · rfl
  · split <;> rfl

theorem pooldel_spec (ht : Tidy s.tree s.ring s.size t rs) (hb : b ∈ members t rs) (hn : t.toList.length ≤ s.fuel) :
    ∃ t' rs', Tidy (pooldel b s).tree (pooldel b s).ring s.size t' rs' ∧ (members t rs).Perm (b :: members t' rs') := by
  have hiff := ht.mem_toList_iff hb
  unfold pooldel
  dsimp only
  split
  case isTrue hcond =>
    obtain ⟨h, hh, rfl | hb⟩ := mem_members.1 hb
    · exact absurd hcond (hiff.1 hh)
    · obtain ⟨rs', ht', hperm⟩ := ht.del_member hh hb
      exact ⟨t, rs', ht', hperm⟩
  case isFalse hcond =>
    have hmem := hiff.2 hcond
    have hring := ht.ring b hmem
    cases hrs : rs b with
    | nil =>
      rw [hrs] at hring
      rw [if_neg (not_not_intro hring.next_nil)]
      obtain ⟨t', ht', hperm⟩ := ht.del_alone hmem hrs hn
      exact ⟨t', rs, ht', hperm⟩
    | cons f fs =>
      rw [hrs] at hring
      have hfb : s.ring.next b ≠ b := by
        rw [hring.next_cons]
        rintro rfl
        exact (nodup_cons.1 hring.nodup).1 (mem_cons_self ..)
      rw [if_pos hfb, hring.next_cons]
      exact ht.del_head hmem hrs

theorem pairwise_map_plug {c : List (Frame Nat)} {l r : Shape Nat} {a : Nat}
    (h : ((plug c (.node l a r)).toList.map size).Pairwise (· < ·)) :
    (∀ x ∈ before c ++ l.toList, size x < size a) ∧ ∀ x ∈ r.toList ++ after c, size a < size x := by
  rw [toList_plug] at h
  simp only [Shape.toList, map_append, map_cons, pairwise_append, pairwise_cons, mem_append,
    mem_cons, mem_map] at h
  obtain ⟨⟨-, ⟨-, ⟨hr, -⟩, hl⟩, hbef⟩, -, haft⟩ := h
  simp only [mem_append]
  refine ⟨?_, ?_⟩
  · rintro x (hx | hx)
    · exact hbef _ ⟨x, hx, rfl⟩ _ (.inr (.inl rfl))
    · exact hl _ ⟨x, hx, rfl⟩ _ (.inl rfl)
  · rintro x (hx | hx)
    · exact hr _ ⟨x, hx, rfl⟩
    · exact haft _ (.inr (.inr (.inl rfl))) _ ⟨x, hx, rfl⟩

theorem place_spec {c : List (Frame Nat)} {l r : Shape Nat} {a : Nat} (sz : Nat)
    (h : Rep s.tree none s.tree.root (plug c (.node l a r)))
    (hsorted : ((plug c (.node l a r)).toList.map s.size).Pairwise (· < ·)) (hn : (Shape.node l a r).toList.length ≤ n)
    (hbef : ∀ x ∈ before c, s.size x < sz) (haft : ∀ x ∈ after c, sz < s.size x) :
    (s.size (place s sz n a) = sz ∧ place s sz n a ∈ (plug c (.node l a r)).toList) ∨
      ∃ c', plug c' .nil = plug c (.node l a r) ∧ (∀ x ∈ before c', s.size x < sz) ∧ (∀ x ∈ after c', sz < s.size x) ∧
        ((sz < s.size (place s sz n a) ∧ ∃ r d, c' = .left (place s sz n a) r :: d) ∨
          (s.size (place s sz n a) < sz ∧ ∃ l d, c' = .right l (place s sz n a) :: d)) := by
  induction n generalizing c l a r with
  | zero =>
    simp at hn
  | succ n ih =>
    obtain ⟨hb, hr⟩ := pairwise_map_plug hsorted
    obtain ⟨hpath, hhole, hpar, hrl, hrr⟩ := rep_plug.1 h
    simp only [Shape.toList, length_append, length_cons] at hn
    unfold place
    by_cases heq : sz = s.size a
    · rw [if_pos heq]
      refine .inl ⟨heq.symm, ?_⟩
      simp [toList_plug]
    rw [if_neg heq]
    by_cases hlt : sz < s.size a
    · rw [if_pos hlt]
      have haft' : ∀ x ∈ after (.left a r :: c), sz < s.size x := by
        intro x hx
        simp only [after, cons_append, mem_cons] at hx
        rcases hx with rfl | hx
        · exact hlt
        · exact hlt.trans (hr x hx)
      cases hla : s.tree.left a with
      | none =>
        rw [hla] at hrl
        cases hrl.ne_nil_iff.1 rfl
        exact .inr ⟨.left a r :: c, rfl, hbef, haft', .inl ⟨hlt, r, c, rfl⟩⟩
      | some v =>
        rw [hla] at hrl
        obtain ⟨l', r', rfl⟩ := hrl.exists_node
        exact ih (c := .left a r :: c) h hsorted (by omega) hbef haft'
    rw [if_neg hlt]
    have hbef' : ∀ x ∈ before (.right l a :: c), s.size x < sz := by
      intro x hx
      simp only [before, mem_append, mem_singleton] at hx
      rcases hx with hx | hx | rfl
      · exact hbef x hx
      · exact (hb x (by simp [hx])).trans (by omega)
      · omega
    cases hra : s.tree.right a with
    | none =>
      rw [hra] at hrr
      cases hrr.ne_nil_iff.1 rfl
      exact .inr ⟨.right l a :: c, rfl, hbef', haft, .inr ⟨by dsimp only; omega, l, c, rfl⟩⟩
    | some v =>
      rw [hra] at hrr
      obtain ⟨l', r', rfl⟩ := hrr.exists_node
      exact ih (c := .right l a :: c) h hsorted (by omega) hbef' haft

theorem Tidy.fresh {q : Nat} (ht : Tidy m k size t rs) (hq : q ∉ members t rs) :
    Tidy (((m.setLeft q none).setRight q none).setParent q none) (init k q) size t rs := by
  have hne : ∀ a ∈ members t rs, a ≠ q := fun a ha heq => hq (heq ▸ ha)
  have hne' : ∀ a ∈ t.toList, a ≠ q := fun a ha => hne a (mem_members_of_mem ha)
  refine ⟨ht.rep.congr (fun a ha => ?_) (fun a ha => ?_) (fun a ha => ?_), ht.sorted, fun h hh => ?_,
    fun h hh x hx => ?_,
    ht.nodup⟩
  · simp [hne' a ha]
  · simp [hne' a ha]
  · simp [hne' a ha]
  · refine (ht.ring h hh).init_frame fun hmem => hq (mem_members.2 ⟨h, hh, ?_⟩)
    exact mem_cons.1 hmem
  · have hxq : x ≠ q := hne x (mem_members.2 ⟨h, hh, .inr hx⟩)
    simp [hxq, ht.member h hh x hx]

theorem Tidy.insert_member {h q : Nat} (ht : Tidy m k size t rs) (hh : h ∈ t.toList) (hq : q ∉ members t rs)
    (hpar : m.parent q = none) (hsize : size q = size h) :
    Tidy m (insertTail k h q) size t (update rs h (rs h ++ [q])) ∧
      (members t (update rs h (rs h ++ [q]))).Perm (q :: members t rs) := by
  have hperm : (members t (update rs h (rs h ++ [q]))).Perm (q :: members t rs) := by
    refine (members_update _ _ ht.nodup_toList hh).trans ?_
    have hold := members_update rs (rs h) ht.nodup_toList hh
    rw [update_eq_self] at hold
    refine perm_iff_count.2 fun a => ?_
    rw [count_cons, hold.count_eq]
    simp only [count_append, count_cons, count_nil]
    omega
  have hqh : q ∉ h :: rs h := fun hmem => hq (mem_members.2 ⟨h, hh, mem_cons.1 hmem⟩)
  refine ⟨⟨ht.rep, ht.sorted, fun a ha => ?_, fun a ha x hx => ?_, ?_⟩, hperm⟩
  · by_cases hah : a = h
    · subst hah
      rw [update_self]
      exact (ht.ring a ha).insertTail hqh
    · rw [update_of_ne hah]
      refine Ring.insertTail_frame (ht.ring h hh) (ht.ring a ha) ?_ fun x hx => ht.ring_disjoint hh ha (Ne.symm hah) hx
      exact fun hmem => hq (mem_members.2 ⟨a, ha, mem_cons.1 hmem⟩)
  · by_cases hah : a = h
    · subst hah
      rw [update_self] at hx
      rcases mem_append.1 hx with hx | hx
      · exact ht.member a ha x hx
      · rw [mem_singleton.1 hx]
        exact ⟨hpar, hsize⟩
    · rw [update_of_ne hah] at hx
      exact ht.member a ha x hx
  · exact hperm.nodup_iff.2 (nodup_cons.2 ⟨hq, ht.nodup⟩)

theorem Tidy.insert_leaf {q : Nat} {c : List (Frame Nat)} (ht : Tidy m k size (plug c .nil) rs)
    (hq : q ∉ members (plug c .nil) rs) (hleft : m.left q = none) (hright : m.right q = none) (hring : Ring k q [])
    (hbef : ∀ x ∈ before c, size x < size q) (haft : ∀ x ∈ after c, size q < size x) :
    Tidy (setHole (m.setParent q (parentOf c)) (some q) c) k size (plug c (.node .nil q .nil))
    (update rs q []) ∧
      (members (plug c (.node .nil q .nil)) (update rs q [])).Perm (q :: members (plug c .nil) rs) := by
  have hqt : q ∉ (plug c .nil).toList := fun hmem => hq (mem_members_of_mem hmem)
  have hnd := ht.nodup_toList
  have hsorted := ht.sorted
  have hlist : (plug c (.nil : Shape Nat)).toList = before c ++ after c := by simp [toList_plug]
  have hlist' : (plug c (.node .nil q .nil)).toList = before c ++ q :: after c := by simp [toList_plug]
  rw [hlist] at hqt hnd hsorted
  obtain ⟨hpath, -⟩ := rep_plug.1 ht.rep
  have hne : ∀ a ∈ before c ++ after c, a ≠ q := fun a ha heq => hqt (heq ▸ ha)
  obtain ⟨hpath', -⟩ := hpath.congr (n := m.setParent q (parentOf c)) rfl (fun _ _ => rfl) (fun _ _ => rfl)
    fun a ha => by simp [hne a ha]
  have hupd : ∀ l : List Nat, (∀ a ∈ l, a ≠ q) →
      (l.flatMap fun a => a :: update rs q [] a) = l.flatMap fun a => a :: rs a := by
    intro l hl
    refine flatMap_congr fun a ha => ?_
    rw [update_of_ne (hl a ha)]
  have hperm : (members (plug c (.node .nil q .nil)) (update rs q [])).Perm
    (q :: members (plug c .nil) rs) := by
    unfold members
    rw [hlist, hlist', flatMap_append, flatMap_append, flatMap_cons, update_self,
      hupd _ fun a ha => hne a (mem_append_left _ ha), hupd _ fun a ha => hne a (mem_append_right _ ha)]
    refine perm_iff_count.2 fun a => ?_
    simp only [count_append, count_cons, count_nil]
    omega
  have hmem : ∀ a ∈ (plug c (.node .nil q .nil)).toList, a = q ∨ a ≠ q ∧ a ∈ (plug c .nil).toList := by
    intro a ha
    rw [hlist'] at ha
    rw [hlist]
    rcases mem_append.1 ha with ha | ha
    · exact .inr ⟨hne a (mem_append_left _ ha), mem_append_left _ ha⟩
    · rcases mem_cons.1 ha with rfl | ha
      · exact .inl rfl
      · exact .inr ⟨hne a (mem_append_right _ ha), mem_append_right _ ha⟩
  refine ⟨⟨?_, ?_, fun a ha => ?_, fun a ha x hx => ?_, ?_⟩, hperm⟩
  · refine rep_plug.2 ⟨hpath'.setHole hnd, by simp [PtrTree.Rep, setHole_left hqt, setHole_right hqt, hleft, hright]⟩
  · rw [hlist', map_append, map_cons]
    rw [map_append] at hsorted
    simp only [pairwise_append, pairwise_cons, mem_cons, mem_map] at hsorted ⊢
    refine ⟨hsorted.1, ⟨?_, hsorted.2.1⟩, ?_⟩
    · rintro _ ⟨x, hx, rfl⟩
      exact haft x hx
    · rintro _ ⟨x, hx, rfl⟩ _ (rfl | ⟨y, hy, rfl⟩)
      · exact hbef x hx
      · exact hsorted.2.2 _ ⟨x, hx, rfl⟩ _ ⟨y, hy, rfl⟩
  · rcases hmem a ha with rfl | ⟨haq, ha⟩
    · rw [update_self]
      exact hring
    · rw [update_of_ne haq]
      exact ht.ring a ha
  · rcases hmem a ha with rfl | ⟨haq, ha⟩
    · rw [update_self] at hx
      cases hx
    · rw [update_of_ne haq] at hx
      have hxq : x ≠ q := fun heq => hq (heq ▸ mem_members.2 ⟨a, ha, .inr hx⟩)
      simp [hxq, ht.member a ha x hx]
  · exact hperm.nodup_iff.2 (nodup_cons.2 ⟨hq, ht.nodup⟩)

theorem hang_eq (q : Nat) (s : St) : hang q s = { s with tree := (hang q s).tree, ring := (hang q s).ring } := by
  unfold hang
  split
  · rfl
  · dsimp only
    split <;> rfl

theorem pooladd_eq (q : Nat) (s : St) :
    pooladd q s = { s.setMagic q .F with tree := (pooladd q s).tree, ring := (pooladd q s).ring } :=
  hang_eq q _

theorem hang_spec {q : Nat} (ht : Tidy s.tree s.ring s.size t rs) (hq : q ∉ members t rs)
    (hn : t.toList.length ≤ s.fuel) (hleft : s.tree.left q = none) (hright : s.tree.right q = none)
    (hpar : s.tree.parent q = none) (hring : Ring s.ring q []) :
    ∃ t' rs', Tidy (hang q s).tree (hang q s).ring s.size t' rs' ∧ (members t' rs').Perm (q :: members t rs) := by
  unfold hang
  cases hroot : s.tree.root with
  | none =>
    obtain rfl : t = .nil := (hroot ▸ ht.rep).ne_nil_iff.1 rfl
    obtain ⟨ht', hperm⟩ := ht.insert_leaf (c := []) hq hleft hright hring
      (fun x hx => by cases hx) fun x hx => by cases hx
    refine ⟨_, _, ?_, hperm⟩
    have hm : setHole (s.tree.setParent q (parentOf [])) (some q) [] = { s.tree with root := some q } := by
      show ({ s.tree with root := some q, parent := update s.tree.parent q none } : Ptrs Nat) = _
      rw [← hpar, update_eq_self]
    exact hm ▸ ht'
  | some r =>
    obtain ⟨l, r', rfl⟩ := (hroot ▸ ht.rep).exists_node
    dsimp only
    have hplace := place_spec (c := []) (s.size q) ht.rep ht.sorted hn (fun x hx => by cases hx) fun x hx => by cases hx
    generalize place s (s.size q) s.fuel r = x at hplace
    rcases hplace with ⟨heq, hmem⟩ | ⟨c, hc, hbef, haft, hside⟩
    · rw [if_pos heq.symm]
      obtain ⟨ht', hperm⟩ := ht.insert_member hmem hq hpar heq.symm
      exact ⟨_, _, ht', hperm⟩
    rw [← show plug c .nil = .node l r r' from hc] at ht hq ⊢
    obtain ⟨ht', hperm⟩ := ht.insert_leaf hq hleft hright hring hbef haft
    refine ⟨_, _, ?_, hperm⟩
    rcases hside with ⟨hlt, r', d, rfl⟩ | ⟨hlt, l', d, rfl⟩
    · rw [if_neg (by omega), if_pos hlt]
      exact ht'
    · rw [if_neg (by omega), if_neg (by omega)]
      exact ht'

theorem pooladd_spec {q : Nat} (ht : Tidy s.tree s.ring s.size t rs) (hq : q ∉ members t rs)
    (hn : t.toList.length ≤ s.fuel) :
    ∃ t' rs', Tidy (pooladd q s).tree (pooladd q s).ring s.size t' rs' ∧ (members t' rs').Perm (q :: members t rs) := by
  unfold pooladd
  refine hang_spec (ht.fresh hq) hq hn ?_ ?_ ?_ ⟨⟨?_, ?_⟩, nodup_singleton q⟩
  · simp
  · simp
  · simp
  · simp [init]
  · simp [init]

/-! ### The search of `dopoolalloc` -/

theorem search_spec {p v q : Option Nat} (sz : Nat) (h : Rep s.tree p v t)
    (hsorted : (t.toList.map s.size).Pairwise (· < ·))
    (hn : t.toList.length ≤ n) :
    (∀ x, search s sz n v q = some x → q = some x ∨ x ∈ t.toList ∧ sz ≤ s.size x) ∧
      (search s sz n v q = none → q = none ∧ ∀ x ∈ t.toList, s.size x < sz) := by
  induction n generalizing p v q t with
  | zero =>
    have ht : t.toList = [] := length_eq_zero_iff.1 (Nat.le_zero.1 hn)
    unfold search
    exact ⟨fun x hx => .inl hx, fun hq => ⟨hq, fun x hx => by rw [ht] at hx; cases hx⟩⟩
  | succ n ih =>
    cases t with
    | nil =>
      cases h
      unfold search
      exact ⟨fun x hx => .inl hx, fun hq => ⟨hq, fun x hx => by cases hx⟩⟩
    | node l a r =>
      obtain ⟨rfl, -, hl, hr⟩ := h
      obtain ⟨hbef, haft⟩ := pairwise_map_plug (c := []) hsorted
      simp only [Shape.toList, map_append, map_cons, length_append, length_cons] at hsorted hn
      obtain ⟨hsl, hsr, -⟩ := pairwise_append.1 hsorted
      have hsr := (pairwise_cons.1 hsr).2
      unfold search
      by_cases heq : s.size a = sz
      · rw [if_pos heq]
        refine ⟨fun x hx => .inr ?_, fun hx => absurd hx (Option.some_ne_none a)⟩
        cases hx
        exact ⟨by simp, heq.ge⟩
      rw [if_neg heq]
      by_cases hlt : sz < s.size a
      · rw [if_pos hlt]
        obtain ⟨hsome, hnone⟩ := ih (q := some a) hl hsl (by omega)
        refine ⟨fun x hx => .inr ?_, fun hx => absurd (hnone hx).1 (Option.some_ne_none a)⟩
        rcases hsome x hx with heq | ⟨hmem, hle⟩
        · cases heq
          exact ⟨by simp, hlt.le⟩
        · exact ⟨by simp [hmem], hle⟩
      rw [if_neg hlt]
      obtain ⟨hsome, hnone⟩ := ih (q := q) hr hsr (by omega)
      refine ⟨fun x hx => (hsome x hx).imp id fun hin => ⟨by simp [hin.1], hin.2⟩, fun hx => ?_⟩
      refine ⟨(hnone hx).1, fun x hmem => ?_⟩
      simp only [Shape.toList, mem_append, mem_cons] at hmem
      rcases hmem with hmem | rfl | hmem
      · exact (hbef x (by simp [hmem])).trans (by omega)
      · omega
      · exact (hnone hx).2 x hmem

end Node9.Pool
