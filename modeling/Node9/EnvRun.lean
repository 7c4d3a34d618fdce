import Node9.EnvOps

/-!
# Runs of the environment device
-/

namespace Node9.Env
open Buf Keyed Steps Option

variable {s s' : St} {own : Nat → Nat × UInt64 × Bool} {g : Nat} {p : UInt64} {n : Bytes}

/-- `envopen` knows this mode as one that truncates, or there is nothing to truncate. -/
def Exact (mode : UInt32) (v : Option Bytes) : Prop :=
  truncates mode = true → mode &&& ~~~OCEXEC = OWRITE ||| OTRUNC ∨ ∀ x ∈ v, x = []

/-- A mode that truncates is exact, and `path` of the group does not begin again. -/
def Fits (s : St) : Action → Prop
  | .open g n mode => Exact mode (s.map.val g n)
  | .create g n mode => Exact (mode ||| OTRUNC) (s.map.val g n) ∧ (s.map.val g n = none → (s.grp g).path + 1 ≠ 0)
  | _ => True

/-- What is returned, and what becomes of the maps, is as it should be. -/
def Refines (s : St) (a : Action) (s' : St) : Prop := Allowed s.map a s'.out s'.map

/-- The names and the qids are unique, and every operation on a group returns. -/
structure Good (s : St) : Prop where
  unique : Unique s
  returns : ∀ a : Action, (∀ g ∈ a.group, g < s.ngrp) → (step s a).isSome = true

theorem truncates_of_eq {mode : UInt32} (h : mode &&& ~~~OCEXEC = OWRITE ||| OTRUNC) : truncates mode = true := by
  have h16 : mode &&& OTRUNC = mode &&& ~~~OCEXEC &&& OTRUNC := by
    rw [UInt32.and_assoc]
    rfl
  have h3 : mode &&& 3 = mode &&& ~~~OCEXEC &&& 3 := by
    rw [UInt32.and_assoc]
    rfl
  rw [truncates, h16, h3, h]
  decide

theorem envwalk_some (h : s.envwalk g n = some p) : ∃ e ∈ (s.grp g).entries, e.qid.path = p ∧ (s.mem.var e).name =
    n := by
  obtain ⟨e, he, rfl⟩ := map_eq_some_iff.1 h
  have hname : s.mem.str e.var = n := by simpa using List.find?_some he
  exact ⟨e, List.mem_of_find?_eq_some he, rfl, hname⟩

theorem envwalk_none (h : s.envwalk g n = none) : s.map.val g n = none := by
  rw [St.envwalk, map_eq_none_iff, List.find?_eq_none] at h
  refine vals_eq_none_iff.2 fun a ha heq => ?_
  obtain ⟨e, he, rfl⟩ := List.mem_map.1 ha
  have hname : s.mem.str e.var = n := heq
  exact h e he (by simp [hname])

theorem mem_of_name (h : s.map.name g p = some n) : ∃ e ∈ (s.grp g).entries, e.qid.path = p ∧ (s.mem.var e).name =
    n := by
  obtain ⟨a, ha, hn⟩ := map_eq_some_iff.1 h
  have hp := key_of_get ha
  obtain ⟨e, he, rfl⟩ := List.mem_map.1 (mem_of_get ha)
  exact ⟨e, he, hp, hn⟩

theorem find_none_of_name (h : s.map.name g p = none) : s.find g p = none := by
  unfold St.find
  split
  · rfl
  rename_i e es hdrop
  obtain ⟨hsplit, hp⟩ := of_dropWhile_cons hdrop
  have hp : e.qid.path = p := by simpa using hp
  have he : e ∈ (s.grp g).entries := by
    rw [hsplit]
    simp
  exact absurd hp (names_eq_none_iff.1 h _ (List.mem_map_of_mem he))

section
variable (hs : Inv s own)
include hs

theorem kopen_spec {mode : UInt32} (hfit : Exact mode (s.map.val g n)) :
    Inv (s.kopen g n mode) own ∧ Refines s (.open g n mode) (s.kopen g n mode) := by
  rw [St.kopen]
  cases hm : openmode mode with
  | false => exact ⟨hs.out _, .notOpened (.inr hm)⟩
  | true =>
    cases hw : s.envwalk g n with
    | none => exact ⟨hs.out _, .notOpened (.inl (envwalk_none hw))⟩
    | some p =>
      obtain ⟨e, he, rfl, rfl⟩ := envwalk_some hw
      obtain ⟨hname, hval⟩ := map_of_mem hs he
      obtain ⟨hinv, hout, hmap⟩ := envopen_spec hs he truncates_of_eq fun ht =>
        (hfit ht).imp_right fun h => h _ hval
      refine ⟨hinv, ?_⟩
      rw [Refines]
      simp only [Bool.not_true, Bool.false_eq_true, if_false, hout, hmap]
      exact .opened hval hname

theorem kcreate_spec {mode : UInt32} (hg : g < s.ngrp) (hfit : Fits s (.create g n mode)) :
    ∃ own', Inv (s.kcreate g n mode) own' ∧ Refines s (.create g n mode) (s.kcreate g n mode) := by
  rw [St.kcreate]
  cases hm : openmode (mode &&& ~~~OEXCL) with
  | false => exact ⟨own, hs.out _, .notCreated (.inl hm)⟩
  | true =>
    cases hw : s.envwalk g n with
    | some p =>
      obtain ⟨e, he, rfl, rfl⟩ := envwalk_some hw
      obtain ⟨hname, hval⟩ := map_of_mem hs he
      by_cases hexcl : mode &&& OEXCL = 0
      · obtain ⟨hinv, hout, hmap⟩ := envopen_spec hs he truncates_of_eq fun ht =>
          (hfit.1 ht).imp_right fun h => h _ hval
        refine ⟨own, ?_⟩
        simp only [Bool.not_true, Bool.false_eq_true, if_false, ne_eq, hexcl, not_true]
        refine ⟨hinv, ?_⟩
        rw [Refines, hout, hmap]
        exact .reopened hval hname hexcl
      · simp only [Bool.not_true, Bool.false_eq_true, if_false, ne_eq, hexcl, not_false_eq_true, if_true]
        exact ⟨own, hs.out _, .notCreated (.inr (.inr ⟨by rw [hval]; exact some_ne_none _, hexcl⟩))⟩
    | none =>
      have hnone := envwalk_none hw
      by_cases hlen : n.length < genbuf
      · obtain ⟨own', p, hinv, hout, hp, hmap⟩ := envcreate_spec hs hg hnone (hfit.2 hnone) hlen
        refine ⟨own', hinv, ?_⟩
        rw [Refines]
        simp only [Bool.not_true, Bool.false_eq_true, if_false, hout, hmap]
        exact .created hnone hp
      · refine ⟨own, ?_⟩
        simp only [Bool.not_true, Bool.false_eq_true, if_false, St.envcreate, ge_iff_le, le_of_not_gt hlen, if_true]
        exact ⟨hs.out _, .notCreated (.inr (.inl ⟨hnone, le_of_not_gt hlen⟩))⟩

theorem envwrite_step {a : Bytes} {offset : Nat} :
    ∃ own' s', s.envwrite g p a offset = some s' ∧ Inv s' own' ∧ Refines s (.write g p a offset) s' := by
  by_cases ha : a = []
  · subst ha
    exact ⟨own, _, rfl, hs.out _, .nothing⟩
  have hpos : a.length ≠ 0 := fun h => ha (List.length_eq_zero_iff.1 h)
  by_cases hmax : offset + a.length ≤ Maxenvlen
  · cases hname : s.map.name g p with
    | none =>
      refine ⟨own, s.fail Enonexist, ?_, hs.out _, .notWritten (.inl hname)⟩
      rw [St.envwrite, if_neg hpos]
      simp only [if_neg (Nat.not_lt_of_le hmax), gt_iff_lt, find_none_of_name hname]
    | some n =>
      obtain ⟨e, he, rfl, rfl⟩ := mem_of_name hname
      obtain ⟨own', s', hrun, hinv, hout, hmap⟩ := envwrite_spec hs he ha hmax
      refine ⟨own', s', hrun, hinv, ?_⟩
      rw [Refines, hout, hmap]
      exact .written hname (map_of_mem hs he).2
  · refine ⟨own, s.fail Etoobig, ?_, hs.out _, .notWritten (.inr (lt_of_not_ge hmax))⟩
    rw [St.envwrite, if_neg hpos]
    simp only [gt_iff_lt, lt_of_not_ge hmax, if_true]

theorem newegrp_spec : Inv s.newegrp own ∧ Refines s .newegrp s.newegrp := by
  have hview {g : Nat} : s.newegrp.view g = s.view g := by
    rw [St.view, St.view, St.newegrp]
    by_cases hg : g = s.ngrp
    · subst hg
      rw [hs.unused _ le_rfl]
      simp
    · simp [hg]
  have hentries {g : Nat} : (s.newegrp.grp g).entries = (s.grp g).entries := by
    rw [St.newegrp]
    by_cases hg : g = s.ngrp
    · subst hg
      rw [hs.unused _ le_rfl]
      simp
    · simp [hg]
  refine ⟨⟨fun g e he => ?_, fun g e he => ?_, fun g hg => ?_, ⟨fun g => ?_, fun g => ?_⟩⟩, ?_⟩
  · rw [hentries] at he
    exact hs.entry g e he
  · rw [hentries] at he
    have hg : g ≠ s.ngrp := ne_of_lt (lt_ngrp hs he)
    simp only [St.newegrp, Function.update_of_ne hg]
    exact hs.path_le g e he
  · rw [hentries]
    exact hs.unused g (Nat.le_of_succ_le hg)
  · rw [hview]
    exact hs.unique.name g
  · rw [hview]
    exact hs.unique.path g
  · have hmap : s.newegrp.map = s.map.new (fun _ => none) fun _ => none := by
      rw [St.map, Map.new, Map.mk.injEq]
      refine ⟨?_, ?_, rfl⟩
      all_goals
        funext g
        rw [hview]
        by_cases hg : g = s.ngrp
        · subst hg
          simp only [St.map, Function.update_self, St.view, hs.unused _ le_rfl]
          rfl
        · simp only [St.map, Function.update_of_ne hg]
    rw [Refines, hmap]
    exact .newegrp

theorem Inv.step {a : Action} (hfit : Fits s a) (h : step s a = some s') :
    ∃ own', Inv s' own' ∧ Refines s a s' := by
  unfold Env.step at h
  split at h
  case isFalse => cases h
  case isTrue hg =>
    cases a with
    | newegrp =>
      cases h
      exact ⟨own, newegrp_spec hs⟩
    | «open» g n mode =>
      cases h
      exact ⟨own, kopen_spec hs hfit⟩
    | create g n mode =>
      cases h
      exact kcreate_spec hs (by simpa [Action.group] using hg) hfit
    | read g p k offset =>
      cases h
      refine ⟨own, ?_⟩
      cases hname : s.map.name g p with
      | none =>
        rw [St.envread, find_none_of_name hname]
        exact ⟨hs.out _, .notRead hname⟩
      | some n =>
        obtain ⟨e, he, rfl, rfl⟩ := mem_of_name hname
        rw [envread_spec hs he]
        exact ⟨hs.out _, .read hname (map_of_mem hs he).2⟩
    | write g p b offset =>
      obtain ⟨own', s'', hrun, hinv, href⟩ := @envwrite_step _ _ g p hs b offset
      cases hrun.symm.trans h
      exact ⟨own', hinv, href⟩
    | remove g p =>
      cases h
      refine ⟨own, ?_⟩
      cases hname : s.map.name g p with
      | none =>
        rw [St.envremove, find_none_of_name hname]
        exact ⟨hs.out _, .notRemoved hname⟩
      | some n =>
        obtain ⟨e, he, rfl, rfl⟩ := mem_of_name hname
        obtain ⟨hinv, hout, hmap⟩ := envremove_spec hs he
        refine ⟨hinv, ?_⟩
        rw [Refines, hout, hmap]
        exact .removed hname
    | copy g =>
      cases h
      obtain ⟨own', nm, hinv, hout, hnm, hmap⟩ := egrpcpy_spec g hs
      refine ⟨own', hinv, ?_⟩
      rw [Refines, hout, hmap]
      exact .copied hnm

theorem Inv.good : Good s where
  unique := hs.unique
  returns a ha := by
    unfold Env.step
    rw [if_pos (by simpa [Option.all_eq_true] using ha)]
    cases a with
    | write g p b offset =>
      obtain ⟨_, s', hrun, -⟩ := @envwrite_step _ _ g p hs b offset
      change (s.envwrite g p b offset).isSome = true
      rw [hrun]
      rfl
    | _ => rfl

end

theorem inv_init : Inv .init fun _ => (0, 0, false) := by
  refine ⟨?_, ?_, fun _ _ => rfl, ⟨fun _ => List.nodup_nil, fun _ => List.nodup_nil⟩⟩
  · rintro g e ⟨⟩
  · rintro g e ⟨⟩

/-- As long as no open truncates that `envopen` does not know as one, the groups are maps. -/
theorem env_refines (as : List Action) (h : Along step Fits .init as) :
    Always step Good .init as ∧ Each step Refines .init as := by
  have hI : ∃ own, Inv .init own := ⟨_, inv_init⟩
  refine ⟨(h.always (I := fun s => ∃ own, Inv s own) ?_ hI).mono ?_, h.each (I := fun s => ∃ own, Inv s own) ?_ hI⟩
  · rintro s a s' ⟨own, hs⟩ hfit hstep
    obtain ⟨own', hs', -⟩ := hs.step hfit hstep
    exact ⟨own', hs'⟩
  · rintro s ⟨own, hs⟩
    exact hs.good
  · rintro s a s' ⟨own, hs⟩ hfit hstep
    obtain ⟨own', hs', href⟩ := hs.step hfit hstep
    exact ⟨⟨own', hs'⟩, href⟩

def writeX : List Action := [.newegrp, .create 0 [120] OWRITE, .write 0 1 [7, 8] 1]

theorem env_refines_writeX : Always step Good .init writeX ∧ Each step Refines .init writeX := by
  refine env_refines writeX (.cons trivial rfl (.cons ⟨?_, ?_⟩ rfl (.cons trivial rfl trivial)))
  · rintro -
    exact .inl (by decide)
  · rintro -
    decide

/-- It is opened for reading and writing, with `OTRUNC`, and still has what was written. -/
theorem not_env_refines : ∃ s s', run step .init writeX = some s ∧ step s (.open 0 [120] (ORDWR ||| OTRUNC)) = some s' ∧
    s'.out = .chan 1 ∧ s'.map.val 0 [120] = some [0, 7, 8] := ⟨_, _, rfl, rfl, rfl, rfl⟩

end Node9.Env
