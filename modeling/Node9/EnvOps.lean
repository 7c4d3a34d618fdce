import Node9.EnvMap

/-!
# What the operations on variables do to the maps

An operation finds an entry by its path, and changes nothing but this entry and its strings. `smalloc` and `free` are
for a string of one variable (`Frame`); a copy of a group leaves all of the strings as they are (`Grown`).
-/

namespace Node9.Env
open Buf Keyed Function List
open Option hiding any_eq_true map_map mem_map mem_map_of_mem
open Buffers (overwrite length_overwrite)

variable {l : List Var} {s s' : St} {m m' : Mem} {own own' : Nat → Nat × UInt64 × Bool} {e e' : Evalue} {g g' : Nat}
  {k p : UInt64} {n v : Bytes} {es₁ es₂ : List Evalue} {v' : Nat}

theorem of_dropWhile_cons {α : Type} {q : α → Bool} {l as : List α} {a : α} (h : l.dropWhile q = a :: as) :
    l = l.takeWhile q ++ a :: as ∧ q a = false := by
  refine ⟨?_, ?_⟩
  · rw [← h, takeWhile_append_dropWhile]
  · have hhead := head_dropWhile_not q (l := l) (by rw [h]; exact cons_ne_nil _ _)
    simpa only [h, head_cons] using hhead

theorem find_some (hs : Inv s own) (h : s.find g p = some (es₁, e, es₂)) :
    (s.grp g).entries = es₁ ++ [e] ++ es₂ ∧ e.qid.path = p ∧ ∀ x ∈ es₁ ++ es₂, x.qid.path ≠ p := by
  unfold St.find at h
  split at h
  · cases h
  rename_i e' es hdrop
  cases h
  obtain ⟨hsplit, hp⟩ := of_dropWhile_cons hdrop
  have hp : e.qid.path = p := by simpa using hp
  refine ⟨by simpa using hsplit, hp, fun x hx => ?_⟩
  have hpath := hs.unique.path g
  rw [St.view, hsplit, map_append, map_cons] at hpath
  have := ne_of_nodup hpath (s.mem.var x) (by rw [← map_append]; exact mem_map_of_mem hx)
  exact hp ▸ this

theorem find_none (h : s.find g p = none) : ∀ e ∈ (s.grp g).entries, e.qid.path ≠ p := by
  unfold St.find at h
  split at h
  · rename_i hdrop
    intro e he
    simpa using dropWhile_eq_nil_iff.1 hdrop e he
  · cases h

theorem map_of_mem (hs : Inv s own) (he : e ∈ (s.grp g).entries) :
    s.map.name g e.qid.path = some (s.mem.var e).name ∧ s.map.val g (s.mem.var e).name = some (s.mem.var e).value :=
  ⟨names_of_mem (hs.unique.path g) (mem_map_of_mem he), vals_of_mem (hs.unique.name g) (mem_map_of_mem he)⟩

theorem lt_ngrp (hs : Inv s own) (he : e ∈ (s.grp g).entries) : g < s.ngrp := by
  by_contra hge
  rw [hs.unused g (le_of_not_gt hge)] at he
  cases he

theorem frame_free {b : Bool} (hp : own v' = (g, k, b)) : Frame m (m.free v') own own g k where
  le := le_rfl
  own_eq _ _ := rfl
  blk q _ hq := by
    have hne : q ≠ v' := by
      rintro rfl
      exact hq b hp
    simp [Mem.free, hne]

theorem Frame.trans {m'' : Mem} {own'' : Nat → Nat × UInt64 × Bool} (h : Frame m m' own own' g k)
    (h' : Frame m' m'' own' own'' g k) : Frame m m'' own own'' g k where
  le := h.le.trans h'.le
  own_eq p hp := (h'.own_eq p (lt_of_lt_of_le hp h.le)).trans (h.own_eq p hp)
  blk p hp hne := by
    rw [h'.blk p (lt_of_lt_of_le hp h.le), h.blk p hp hne]
    rw [h.own_eq p hp]
    exact hne

theorem frame_smalloc (b : Bool) (str : Bytes) :
    Frame m (m.smalloc str).1 own (update own m.fresh (g, k, b)) g k where
  le := Nat.le_succ _
  own_eq _ hp := update_of_ne (ne_of_lt hp) ..
  blk _ hp _ := update_of_ne (ne_of_lt hp) ..

theorem frame_poke {b : Bool} {a : Bytes} {offset : Nat} (hp : own v' = (g, k, b)) :
    Frame m (m.poke v' offset a) own own g k where
  le := le_rfl
  own_eq _ _ := rfl
  blk q _ hq := by
    have hne : q ≠ v' := by
      rintro rfl
      exact hq b hp
    simp [Mem.poke, hne]

theorem Inv.out (hs : Inv s own) (out : Out) : Inv { s with out := out } own :=
  ⟨hs.entry, hs.path_le, hs.unused, ⟨hs.unique.name, hs.unique.path⟩⟩

theorem put_self (h : s.map.val g n = some v) : s.map.put g n v = s.map := by
  rw [Map.put, Map.mk.injEq]
  refine ⟨?_, rfl, rfl⟩
  rw [← h, update_eq_self, update_eq_self]

theorem change_of_find {mem : Mem} {eg : Egrp} (hs : Inv s own) (h : s.find g p = some (es₁, e, es₂))
    (hf : Frame s.mem mem own own' g p) {new : List Evalue} (heg : eg.path = (s.grp g).path)
    (hes : eg.entries = es₁ ++ new ++ es₂) (hnew : ∀ x ∈ new, Entry mem own' g x ∧ x.qid.path = p) :
    Change s own own' g mem eg p es₁ [e] new es₂ := by
  obtain ⟨hold, hp, hother⟩ := find_some hs h
  have he : e ∈ (s.grp g).entries := by
    rw [hold]
    simp
  refine ⟨hf, hold, ?_, hother, hes, hnew, ⟨heg ▸ UInt64.le_refl _, fun _ => ?_⟩, lt_ngrp hs he⟩
  · intro x hx
    rw [mem_singleton.1 hx, hp]
  · rw [heg, ← hp]
    exact hs.path_le g e he

theorem mem_of_find (hs : Inv s own) (h : s.find g p = some (es₁, e, es₂)) : e ∈ (s.grp g).entries := by
  rw [(find_some hs h).1]
  simp

theorem Entry.var_ne (he : Entry m own g e) (hv : e.val = some v') : e.var ≠ v' := by
  intro heq
  have h := he.own_var.symm.trans (congrArg own heq)
  rw [(he.val v' hv).2] at h
  simp at h

theorem find_of_mem (hs : Inv s own) (he : e ∈ (s.grp g).entries) :
    ∃ es₁ es₂, s.find g e.qid.path = some (es₁, e, es₂) := by
  cases h : s.find g e.qid.path with
  | none => exact absurd rfl (find_none h e he)
  | some x =>
    obtain ⟨es₁, e', es₂⟩ := x
    have hpath := hs.unique.path g
    rw [St.view, map_map] at hpath
    obtain rfl : e' = e := inj_on_of_nodup_map hpath (mem_of_find hs h) he (find_some hs h).2.1
    exact ⟨es₁, es₂, rfl⟩

theorem replace_of_find {mem : Mem} {x : Evalue} (out : Out) (hs : Inv s own) (h : s.find g p = some (es₁, e, es₂))
    (hf : Frame s.mem mem own own' g p) (hx : Entry mem own' g x) (hp : x.qid.path = p)
    (hn : (mem.var x).name = (s.mem.var e).name) :
    Inv (s.set g mem { s.grp g with entries := es₁ ++ x :: es₂ } out) own' ∧
      (s.set g mem { s.grp g with entries := es₁ ++ x :: es₂ } out).map =
        s.map.put g (s.mem.var e).name (mem.var x).value := by
  have hc : Change s own own' g mem { s.grp g with entries := es₁ ++ x :: es₂ } p es₁ [e] [x] es₂ :=
    change_of_find hs h hf rfl (by simp) (by simpa using ⟨hx, hp⟩)
  exact hc.replace hs hn

theorem envopen_spec {mode : UInt32} {trunc : Bool} (hs : Inv s own) (he : e ∈ (s.grp g).entries)
    (ht : mode = OWRITE ||| OTRUNC → trunc = true)
    (hfit : trunc = true → mode = OWRITE ||| OTRUNC ∨ (s.mem.var e).value = []) :
    Inv (s.envopen g e.qid.path mode) own ∧ (s.envopen g e.qid.path mode).out = .chan e.qid.path ∧
      (s.envopen g e.qid.path mode).map = if trunc then s.map.put g (s.mem.var e).name [] else s.map := by
  obtain ⟨es₁, es₂, hfind⟩ := find_of_mem hs he
  have hE := hs.entry g e he
  rw [St.envopen, hfind]
  dsimp only
  cases hv : if mode = OWRITE ||| OTRUNC then e.val else none with
  | some v =>
    obtain ⟨hmode, hv⟩ : mode = OWRITE ||| OTRUNC ∧ e.val = some v := by
      split at hv
      · exact ⟨‹_›, hv⟩
      · cases hv
    have hnew : Entry (s.mem.free v) own g
        { e with val := none, len := 0, qid := { e.qid with vers := e.qid.vers + 1 } } :=
      ⟨hE.var_lt, hE.own_var, by rintro w ⟨⟩, rfl⟩
    have hname : ((s.mem.free v).var
        { e with val := none, len := 0, qid := { e.qid with vers := e.qid.vers + 1 } }).name =
        (s.mem.var e).name := by
      simp [Mem.var, Mem.str, Mem.free, hE.var_ne hv]
    obtain ⟨hinv, hmap⟩ := replace_of_find (.chan e.qid.path) hs hfind (frame_free (hE.val v hv).2) hnew rfl hname
    refine ⟨hinv, rfl, ?_⟩
    rw [ht hmode, if_pos rfl]
    exact hmap
  | none =>
    refine ⟨hs.out _, rfl, ?_⟩
    cases htrunc : trunc with
    | false => rfl
    | true =>
      have hval : (s.mem.var e).value = [] := by
        rcases hfit htrunc with hmode | hval
        · rw [if_pos hmode] at hv
          rw [Mem.var, hv]
          rfl
        · exact hval
      exact (put_self (hval ▸ (map_of_mem hs he).2)).symm

theorem envcreate_spec (hs : Inv s own) (hg : g < s.ngrp) (hn : s.map.val g n = none)
    (hpath : (s.grp g).path + 1 ≠ 0) (hlen : n.length < genbuf) :
    ∃ own' p, Inv (s.envcreate g n) own' ∧ (s.envcreate g n).out = .chan p ∧ s.map.name g p = none ∧
      (s.envcreate g n).map = (s.map.put g n []).bind g p n := by
  have hnone : ∀ e ∈ (s.grp g).entries, (s.mem.var e).name ≠ n := fun e he =>
    vals_eq_none_iff.1 hn _ (mem_map_of_mem he)
  have hany : ¬ ((s.grp g).entries.any fun e => s.mem.str e.var = n) = true := by
    rw [any_eq_true]
    rintro ⟨e, he, heq⟩
    have heq : s.mem.str e.var = n := by simpa using heq
    exact hnone e he heq
  have hlt : (s.grp g).path < (s.grp g).path + 1 := by
    rw [UInt64.lt_iff_toNat_lt, UInt64.toNat_add]
    rw [ne_eq, ← UInt64.toNat_inj, UInt64.toNat_add] at hpath
    have := (s.grp g).path.toNat_lt
    simp only [UInt64.reduceToNat] at hpath ⊢
    omega
  have hother : ∀ e ∈ (s.grp g).entries, e.qid.path ≠ (s.grp g).path + 1 := by
    rintro e he heq
    have := (hs.path_le g e he).2
    rw [heq] at this
    exact absurd hlt (UInt64.not_lt.2 this)
  have hmem : (s.mem.smalloc n).1.str s.mem.fresh = n := by
    simp [Mem.smalloc, Mem.str]
  have hnew : Entry (s.mem.smalloc n).1 (update own s.mem.fresh (g, (s.grp g).path + 1, false)) g
      ⟨s.mem.fresh, none, 0, ⟨(s.grp g).path + 1, 0, 0⟩⟩ :=
    ⟨Nat.lt_succ_self _, update_self .., by rintro w ⟨⟩, rfl⟩
  have hc : Change s own (update own s.mem.fresh (g, (s.grp g).path + 1, false)) g (s.mem.smalloc n).1
      ⟨(s.grp g).path + 1, (s.grp g).vers + 1,
        (s.grp g).entries ++ [⟨s.mem.fresh, none, 0, ⟨(s.grp g).path + 1, 0, 0⟩⟩]⟩
      ((s.grp g).path + 1) (s.grp g).entries [] [⟨s.mem.fresh, none, 0, ⟨(s.grp g).path + 1, 0, 0⟩⟩] [] := by
    refine ⟨frame_smalloc false n, by simp, by simp, by simpa using hother, by simp, ?_, ?_, hg⟩
    · intro x hx
      rw [mem_singleton.1 hx]
      exact ⟨hnew, rfl⟩
    · exact ⟨UInt64.le_of_lt hlt, fun _ => ⟨UInt64.pos_iff_ne_zero.2 hpath, UInt64.le_refl _⟩⟩
  obtain ⟨hinv, hmap⟩ := @Change.insert _ _ _ _ _ _ _ _ _ _ (.chan ((s.grp g).path + 1)) hs hc rfl (by
    intro e he
    have hvar := hnone e he
    rwa [← hmem] at hvar)
  have heq : s.envcreate g n = s.set g (s.mem.smalloc n).1 ⟨(s.grp g).path + 1, (s.grp g).vers + 1,
        (s.grp g).entries ++ [⟨s.mem.fresh, none, 0, ⟨(s.grp g).path + 1, 0, 0⟩⟩]⟩ (.chan ((s.grp g).path + 1)) := by
    rw [St.envcreate]
    simp only [ge_iff_le, Nat.not_le_of_lt hlen, if_false, hany]
    rfl
  rw [heq]
  refine ⟨_, _, hinv, rfl, ?_, ?_⟩
  · refine names_eq_none_iff.2 fun a ha => ?_
    obtain ⟨e, he, rfl⟩ := mem_map.1 ha
    exact hother e he
  · rw [hmap]
    simp only [Mem.var, hmem]

theorem envread_spec (hs : Inv s own) (he : e ∈ (s.grp g).entries) (k offset : Nat) :
    s.envread g e.qid.path k offset = { s with out := .data (((s.mem.var e).value.drop offset).take k) } := by
  obtain ⟨es₁, es₂, hfind⟩ := find_of_mem hs he
  have hlen := (hs.entry g e he).len
  rw [St.envread, hfind]
  simp only [Mem.var, hlen]
  split_ifs with h h'
  · rw [take_zero, drop_eq_nil_of_le (le_of_lt h), take_nil]
  · rw [take_of_length_le (by rw [length_drop]), take_of_length_le (by rw [length_drop]; omega)]
  · rfl

theorem length_overlay (v : Bytes) (offset : Nat) (a : Bytes) :
    (overlay v offset a).length = max v.length (offset + a.length) := by
  rw [overlay, length_overwrite]
  all_goals
    rw [length_append, length_replicate]
    omega

theorem str_poke (m : Mem) (p offset : Nat) (a : Bytes) (q : Nat) :
    (m.poke p offset a).str q = if q = p then overwrite (m.str p) offset a else m.str q := by
  by_cases hq : q = p
  · simp [Mem.poke, Mem.str, hq]
  · simp [Mem.poke, Mem.str, hq]

theorem frame_elim (hm : ∀ v, e.val = some v → own v = (g, k, true)) : Frame m (e.val.elim m m.free) own own g k := by
  cases hv : e.val with
  | none => exact ⟨le_rfl, fun _ _ => rfl, fun _ _ _ => rfl⟩
  | some v => exact frame_free (hm v hv)

theorem str_elim {q : Nat} (hq : ∀ v, e.val = some v → q ≠ v) : (e.val.elim m m.free).str q = m.str q := by
  cases hv : e.val with
  | none => rfl
  | some v => simp [Mem.free, Mem.str, hq v hv]

theorem envwrite_spec {a : Bytes} {offset : Nat} (hs : Inv s own) (he : e ∈ (s.grp g).entries) (ha : a ≠ [])
    (hmax : offset + a.length ≤ Maxenvlen) :
    ∃ own' s', s.envwrite g e.qid.path a offset = some s' ∧ Inv s' own' ∧ s'.out = .count a.length ∧
      s'.map = s.map.put g (s.mem.var e).name (overlay (s.mem.var e).value offset a) := by
  obtain ⟨es₁, es₂, hfind⟩ := find_of_mem hs he
  have hE := hs.entry g e he
  have hlen := hE.len
  have hpos : a.length ≠ 0 := fun h => ha (length_eq_zero_iff.1 h)
  have hmax' : ¬ offset + a.length > Maxenvlen := Nat.not_lt_of_le hmax
  rw [St.envwrite, if_neg hpos]
  simp only [if_neg hmax', hfind]
  by_cases hgrow : offset + a.length > e.len
  · -- a longer string takes the place of the old one
    have hold : (e.val.elim [] s.mem.str).take e.len = (s.mem.var e).value := by
      rw [hlen, List.take_length, Mem.var]
    simp only [if_pos hgrow, hold, map_some]
    generalize hb : (s.mem.var e).value ++ List.replicate (offset + a.length - (s.mem.var e).value.length)
      (0 : UInt8) = b
    have hover : overwrite b offset a = overlay (s.mem.var e).value offset a := by
      rw [← hb]
      rfl
    have hblen : (overwrite b offset a).length = offset + a.length := by
      rw [hover, length_overlay, Mem.var, ← hlen]
      exact Nat.max_eq_right (le_of_lt hgrow)
    have hfresh : ∀ v, e.val = some v → s.mem.fresh ≠ v := fun v hv => Nat.ne_of_gt (hE.val v hv).1
    have hown : ∀ v, e.val = some v → update own s.mem.fresh (g, e.qid.path, true) v = (g, e.qid.path,
      true) := by
      intro v hv
      rw [update_of_ne (Ne.symm (hfresh v hv)), (hE.val v hv).2]
    have hvar : e.var ≠ s.mem.fresh := ne_of_lt hE.var_lt
    have hframe := ((@frame_smalloc _ own g e.qid.path true b).trans (frame_elim hown)).trans
      (@frame_poke _ _ _ _ s.mem.fresh _ a offset (update_self ..))
    have hstr : ((e.val.elim (s.mem.smalloc b).1 (s.mem.smalloc b).1.free).poke s.mem.fresh offset a).str s.mem.fresh =
        overwrite b offset a := by
      rw [str_poke, if_pos rfl, str_elim hfresh]
      simp [Mem.smalloc, Mem.str]
    have hname : ((e.val.elim (s.mem.smalloc b).1 (s.mem.smalloc b).1.free).poke s.mem.fresh offset a).str e.var =
        s.mem.str e.var := by
      rw [str_poke, if_neg hvar, str_elim fun v hv => hE.var_ne hv]
      simp [Mem.smalloc, Mem.str, hvar]
    have hnew : Entry ((e.val.elim (s.mem.smalloc b).1 (s.mem.smalloc b).1.free).poke s.mem.fresh offset a)
        (update own s.mem.fresh (g, e.qid.path, true)) g
        ⟨e.var, some s.mem.fresh, offset + a.length, { e.qid with vers := e.qid.vers + 1 }⟩ := by
      refine ⟨lt_of_lt_of_le hE.var_lt hframe.le, ?_, ?_, ?_⟩
      · rw [update_of_ne hvar]
        exact hE.own_var
      · rintro v ⟨⟩
        exact ⟨lt_of_lt_of_le (Nat.lt_succ_self _) ((frame_elim (m := (s.mem.smalloc b).1) hown).le),
          update_self ..⟩
      · rw [elim_some, hstr, hblen]
    obtain ⟨hinv, hmap⟩ := replace_of_find (.count a.length) hs hfind hframe hnew rfl hname
    refine ⟨_, _, rfl, hinv, rfl, ?_⟩
    rw [← hover, ← hstr]
    exact hmap
  · simp only [if_neg hgrow]
    cases hv : e.val with
    | none =>
      rw [hv] at hlen
      simp only [elim_none, length_nil] at hlen
      omega
    | some v =>
      obtain ⟨hlt, hown⟩ := hE.val v hv
      have hval : (s.mem.var e).value = s.mem.str v := by
        rw [Mem.var, hv]
        rfl
      rw [hv, elim_some] at hlen
      have hover : overwrite (s.mem.str v) offset a = overlay (s.mem.var e).value offset a := by
        rw [overlay, hval, Nat.sub_eq_zero_of_le (by omega), replicate_zero, append_nil]
      have hstr : (s.mem.poke v offset a).str v = overwrite (s.mem.str v) offset a := by
        rw [str_poke, if_pos rfl]
      have hname : (s.mem.poke v offset a).str e.var = s.mem.str e.var := by
        rw [str_poke, if_neg (hE.var_ne hv)]
      have hnew : Entry (s.mem.poke v offset a) own g
          ⟨e.var, e.val, e.len, { e.qid with vers := e.qid.vers + 1 }⟩ := by
        refine ⟨hE.var_lt, hE.own_var, hE.val, ?_⟩
        rw [hv, elim_some, hstr, length_overwrite (by omega), hlen]
      obtain ⟨hinv, hmap⟩ := replace_of_find (.count a.length) hs hfind (frame_poke hown) hnew rfl hname
      have hvalue : ((s.mem.poke v offset a).var ⟨e.var, e.val, e.len, { e.qid with vers := e.qid.vers + 1 }⟩).value =
          overlay (s.mem.var e).value offset a := by
        rw [← hover, ← hstr, Mem.var, hv]
        rfl
      rw [hvalue] at hmap
      refine ⟨own, _, rfl, ?_, rfl, ?_⟩
      · rw [hv] at hinv
        exact hinv
      · rw [hv] at hmap
        exact hmap

theorem envremove_spec (hs : Inv s own) (he : e ∈ (s.grp g).entries) :
    Inv (s.envremove g e.qid.path) own ∧ (s.envremove g e.qid.path).out = .done ∧
      (s.envremove g e.qid.path).map = s.map.del g e.qid.path (s.mem.var e).name := by
  obtain ⟨es₁, es₂, hfind⟩ := find_of_mem hs he
  have hE := hs.entry g e he
  have hframe : Frame s.mem (e.val.elim (s.mem.free e.var) (s.mem.free e.var).free) own own g e.qid.path := by
    have hvar := frame_free (m := s.mem) hE.own_var
    cases hv : e.val with
    | none => exact hvar
    | some v => exact hvar.trans (frame_free (hE.val v hv).2)
  have hc : Change s own own g _ { s.grp g with vers := (s.grp g).vers + 1, entries := es₁ ++ es₂ }
      e.qid.path es₁ [e] [] es₂ := change_of_find hs hfind hframe rfl (by simp) (by simp)
  obtain ⟨hinv, hmap⟩ := @Change.remove _ _ _ _ _ _ _ _ _ _ .done hs hc
  rw [St.envremove, hfind]
  exact ⟨hinv, rfl, hmap⟩

/-- All that was allocated stays as it is. -/
structure Grown (m m' : Mem) (own own' : Nat → Nat × UInt64 × Bool) : Prop where
  le : m.fresh ≤ m'.fresh
  own_eq : ∀ p < m.fresh, own' p = own p
  blk : ∀ p < m.fresh, m'.blk p = m.blk p

theorem Grown.entry (h : Grown m m' own own') (he : Entry m own g e) : Entry m' own' g e ∧ m'.var e = m.var e :=
  Frame.entry (g := g + 1) (k := 0) ⟨h.le, h.own_eq, fun p hp _ => h.blk p hp⟩ he
    (.inl (ne_of_lt (Nat.lt_succ_self g)))

theorem Grown.trans {m'' : Mem} {own'' : Nat → Nat × UInt64 × Bool} (h : Grown m m' own own')
    (h' : Grown m' m'' own' own'') :
    Grown m m'' own own'' where
  le := h.le.trans h'.le
  own_eq p hp := (h'.own_eq p (lt_of_lt_of_le hp h.le)).trans (h.own_eq p hp)
  blk p hp := (h'.blk p (lt_of_lt_of_le hp h.le)).trans (h.blk p hp)

theorem grown_smalloc (str : Bytes) (x : Nat × UInt64 × Bool) :
    Grown m (m.smalloc str).1 own (update own m.fresh x) where
  le := Nat.le_succ _
  own_eq _ hp := update_of_ne (ne_of_lt hp) ..
  blk _ hp := update_of_ne (ne_of_lt hp) ..

theorem str_smalloc (str : Bytes) : (m.smalloc str).1.str m.fresh = str := by
  simp [Mem.smalloc, Mem.str]

theorem copyEntries_cons (he : Entry m own g e) (path : UInt64) (g' : Nat) (es : List Evalue) :
    ∃ m' own' x, copyEntries m path (e :: es) =
        ((copyEntries m' (path + 1) es).1, (copyEntries m' (path + 1) es).2.1,
        x :: (copyEntries m' (path + 1) es).2.2) ∧
      Grown m m' own own' ∧ Entry m' own' g' x ∧ x.qid.path = path + 1 ∧ (m'.var x).name = (m.var e).name ∧
      (m'.var x).value = (m.var e).value := by
  have hgrown := @grown_smalloc m own (m.str e.var) (g', path + 1, false)
  cases hv : e.val with
  | none =>
    refine ⟨_, _, ⟨m.fresh, none, 0, ⟨path + 1, 0, 0⟩⟩, ?_, hgrown, ?_, rfl, str_smalloc _, ?_⟩
    · rw [copyEntries, hv]
      rfl
    · exact ⟨Nat.lt_succ_self _, update_self .., by rintro w ⟨⟩, rfl⟩
    · rw [Mem.var, Mem.var, hv]
      rfl
  | some v =>
    have hlen := he.len
    rw [hv, elim_some] at hlen
    have hstr : ((m.smalloc (m.str e.var)).1.str v).take e.len = m.str v := by
      rw [Mem.str, hgrown.blk v (he.val v hv).1, ← Mem.str, hlen, List.take_length]
    have hgrown' := @grown_smalloc (m.smalloc (m.str e.var)).1
      (update own m.fresh (g', path + 1, false)) (m.str v) (g', path + 1, true)
    have hvar : ((m.smalloc (m.str e.var)).1.smalloc (m.str v)).1.str m.fresh = m.str e.var := by
      rw [Mem.str, hgrown'.blk m.fresh (Nat.lt_succ_self _), ← Mem.str, str_smalloc]
    have hval : ((m.smalloc (m.str e.var)).1.smalloc (m.str v)).1.str (m.smalloc (m.str e.var)).1.fresh = m.str v :=
      str_smalloc _
    refine ⟨_, _, ⟨m.fresh, some (m.smalloc (m.str e.var)).1.fresh, e.len, ⟨path + 1, 0, 0⟩⟩, ?_,
      hgrown.trans hgrown', ?_,
      rfl, hvar, ?_⟩
    · rw [copyEntries, hv]
      simp only [hstr]
      rfl
    · refine ⟨Nat.lt_succ_of_lt (Nat.lt_succ_self _), ?_, ?_, ?_⟩
      · rw [hgrown'.own_eq _ (Nat.lt_succ_self _), update_self]
      · rintro w ⟨⟩
        exact ⟨Nat.lt_succ_self _, update_self ..⟩
      · rw [elim_some, hval, hlen]
    · rw [Mem.var, Mem.var, hv, elim_some, elim_some, hval]

theorem copyEntries_spec (g' : Nat) (es : List Evalue) (m : Mem) (own : Nat → Nat × UInt64 × Bool) (path : UInt64)
    (hes : ∀ e ∈ es, Entry m own g e) (hfit : path.toNat + es.length < 2 ^ 64) :
    ∃ own', Grown m (copyEntries m path es).1 own own' ∧
      (∀ x ∈ (copyEntries m path es).2.2, Entry (copyEntries m path es).1 own' g' x) ∧
      ((copyEntries m path es).2.2.map (copyEntries m path es).1.var).map (fun a => (a.name, a.value)) =
        (es.map m.var).map (fun a => (a.name, a.value)) ∧
      (copyEntries m path es).2.2.map (fun x => x.qid.path.toNat) = List.range' (path.toNat + 1) es.length ∧
      (copyEntries m path es).2.1.toNat = path.toNat + es.length := by
  induction es generalizing m own path with
  | nil => exact ⟨own, ⟨le_rfl, fun _ _ => rfl, fun _ _ => rfl⟩, by rintro x ⟨⟩, rfl, rfl, rfl⟩
  | cons e es ih =>
    obtain ⟨m₁, own₁, x, heq, hgrown, hx, hpath, hname, hvalue⟩ :=
      copyEntries_cons (hes e mem_cons_self) path g' es
    rw [length_cons] at hfit
    have hnext : (path + 1).toNat = path.toNat + 1 := by
      rw [UInt64.toNat_add]
      exact Nat.mod_eq_of_lt (by simp only [UInt64.reduceToNat]; omega)
    obtain ⟨own', hgrown', hentry, hvars, hpaths, hlast⟩ := ih m₁ own₁ (path + 1)
      (fun e he => (hgrown.entry (hes e (mem_cons_of_mem _ he))).1) (by omega)
    rw [heq]
    refine ⟨own', hgrown.trans hgrown', ?_, ?_, ?_, ?_⟩
    · intro y hy
      rcases mem_cons.mp hy with rfl | hy
      · exact (hgrown'.entry hx).1
      · exact hentry y hy
    · have htail : (es.map m₁.var) = es.map m.var :=
        map_congr_left fun e he => (hgrown.entry (hes e (mem_cons_of_mem _ he))).2
      rw [htail] at hvars
      simp only [map_cons, hvars, (hgrown'.entry hx).2, hname, hvalue]
    · simp only [map_cons, hpath, hpaths, hnext, length_cons, range'_succ]
    · simp only [hlast, hnext, length_cons]
      omega

theorem vals_eq : vals l n = ((l.map fun a => (a.name, a.value)).find? fun x => x.1 = n).map Prod.snd := by
  rw [vals, Keyed.get, List.find?_map, Option.map_map]
  rfl

theorem length_le_path (hs : Inv s own) : (s.grp g).entries.length ≤ (s.grp g).path.toNat := by
  have hnd : ((s.grp g).entries.map fun e => e.qid.path.toNat).Nodup := by
    have hpath := hs.unique.path g
    rw [St.view, map_map] at hpath
    have := hpath.map fun a b h => UInt64.toNat_inj.1 h
    rwa [map_map] at this
  have hsub : ((s.grp g).entries.map fun e => e.qid.path.toNat) ⊆ List.range' 1 (s.grp g).path.toNat := by
    intro x hx
    obtain ⟨e, he, rfl⟩ := mem_map.1 hx
    obtain ⟨hpos, hle⟩ := hs.path_le g e he
    rw [UInt64.lt_iff_toNat_lt] at hpos
    rw [UInt64.le_iff_toNat_le] at hle
    rw [mem_range'_1]
    exact ⟨hpos, by omega⟩
  have := (hnd.subperm hsub).length_le
  rwa [length_map, length_range'] at this

theorem exists_names_iff (hnd : (l.map Var.path).Nodup) : (∃ p, names l p = some n) ↔ vals l n ≠ none := by
  constructor
  · rintro ⟨p, hp⟩ hnone
    obtain ⟨a, ha, rfl⟩ := map_eq_some_iff.1 hp
    exact vals_eq_none_iff.1 hnone a (mem_of_get ha) rfl
  · intro h
    rw [ne_eq, vals_eq_none_iff] at h
    push Not at h
    obtain ⟨a, ha, rfl⟩ := h
    exact ⟨a.path, names_of_mem hnd ha⟩

theorem egrpcpy_spec (g : Nat) (hs : Inv s own) :
    ∃ own' nm, Inv (s.egrpcpy g) own' ∧ (s.egrpcpy g).out = .group s.ngrp ∧
      (∀ n, (∃ p, nm p = some n) ↔ s.map.val g n ≠ none) ∧ (s.egrpcpy g).map = s.map.new (s.map.val g) nm := by
  have hfit : (0 : UInt64).toNat + (s.grp g).entries.length < 2 ^ 64 := by
    have hle := length_le_path (g := g) hs
    have hlt := (s.grp g).path.toNat_lt
    simp only [UInt64.toNat_zero]
    omega
  obtain ⟨own', hgrown, hentry, hvars, hpaths, hlast⟩ :=
    copyEntries_spec s.ngrp (s.grp g).entries s.mem own 0 (hs.entry g) hfit
  generalize hr : copyEntries s.mem 0 (s.grp g).entries = r at hgrown hentry hvars hpaths hlast
  have heq : s.egrpcpy g =
      ⟨r.1, update s.grp s.ngrp ⟨r.2.1, 0, r.2.2⟩, s.ngrp + 1, .group s.ngrp⟩ := by
    rw [St.egrpcpy, hr]
  have hself : (s.egrpcpy g).view s.ngrp = r.2.2.map r.1.var := by
    rw [heq, St.view]
    simp
  have hview {g' : Nat} (hg : g' ≠ s.ngrp) : (s.egrpcpy g).view g' = s.view g' := by
    rw [heq, St.view, St.view]
    simp only [update_of_ne hg]
    exact map_congr_left fun e he => (hgrown.entry (hs.entry g' e he)).2
  have hname : ((r.2.2.map r.1.var).map Var.name).Nodup := by
    have hnames := congrArg (List.map Prod.fst) hvars
    simp only [map_map] at hnames
    have hold := hs.unique.name g
    rw [St.view, map_map] at hold
    rw [map_map]
    exact hnames ▸ hold
  have hpath : ((r.2.2.map r.1.var).map Var.path).Nodup := by
    rw [map_map]
    refine List.Nodup.of_map UInt64.toNat ?_
    rw [map_map]
    exact hpaths ▸ nodup_range'
  have hvals : vals (r.2.2.map r.1.var) = vals (s.view g) := by
    funext n
    rw [vals_eq, vals_eq, hvars]
    rfl
  refine ⟨own', names (r.2.2.map r.1.var), ⟨fun g' e he => ?_, fun g' e he => ?_, fun g' hg' => ?_, ?_⟩, by rw [heq],
    fun n => ?_, ?_⟩
  · rw [heq] at he ⊢
    by_cases hg : g' = s.ngrp
    · subst hg
      simp only [update_self] at he
      exact hentry e he
    · simp only [update_of_ne hg] at he
      exact (hgrown.entry (hs.entry g' e he)).1
  · rw [heq] at he ⊢
    by_cases hg : g' = s.ngrp
    · subst hg
      simp only [update_self] at he ⊢
      have hmem := mem_map_of_mem (f := fun x : Evalue => x.qid.path.toNat) he
      rw [hpaths, mem_range'_1] at hmem
      rw [UInt64.lt_iff_toNat_lt, UInt64.le_iff_toNat_le, hlast]
      simp only [UInt64.toNat_zero] at hmem ⊢
      omega
    · simp only [update_of_ne hg] at he ⊢
      exact hs.path_le g' e he
  · rw [heq] at hg' ⊢
    dsimp only at hg' ⊢
    rw [update_of_ne (by omega)]
    exact hs.unused g' (by omega)
  · refine ⟨fun g' => ?_, fun g' => ?_⟩
    all_goals by_cases hg : g' = s.ngrp
    · rw [hg, hself]
      exact hname
    · rw [hview hg]
      exact hs.unique.name g'
    · rw [hg, hself]
      exact hpath
    · rw [hview hg]
      exact hs.unique.path g'
  · rw [exists_names_iff hpath, hvals]
    rfl
  · rw [St.map, Map.new, Map.mk.injEq]
    refine ⟨?_, ?_, by rw [heq]; rfl⟩
    all_goals
      funext g'
      by_cases hg : g' = s.ngrp
      · subst hg
        rw [hself]
        simp [hvals, St.map]
      · rw [hview hg]
        simp [hg, St.map]

end Node9.Env
