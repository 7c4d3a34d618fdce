import Node9.Share

/-!
# Runs of imports and assignments

`Good`: the tables of the modules that were passed to `share` have a guard. Every import and every assignment that
meets `Fits` keeps it, and such an assignment raises an error or changes nothing: `shared_readonly`.
-/

namespace Node9.Share
open Buf Lua Steps Function

/-- Of a module to be shared: its metatable, if it has one, can be replaced and takes `__newindex` itself. -/
def Guardable (h : Heap Fn) : Value → Prop
  | .table r => ∀ m, (h.tables r).metatable = some m → h.rawget m (event "__metatable") = .nil ∧
    (h.rawget m (event "__newindex") ≠ .nil ∨ h.metamethod (.table m) "__newindex" = .nil)
  | _ => True

/-- The key is not in the table, or has the value that is assigned. -/
def Fits (s : St) : Act → Prop
  | .assign _ (.table r) k v => s.heap.rawget r k = .nil ∨ s.heap.rawget r k = v
  | .loaded t tables newmod _ => ∀ i m, s.importing.find? (fun i => i.1 = t) = some i → i.2.2 = .none →
  newmod = some m →
    Guardable (s.extend tables).heap m
  | _ => True

/-- An assignment raises an error, or everybody reads from the module what they read before. -/
def Kept (s : St) (a : Act) (s' : St) : Prop :=
  match a with
  | .assign _ mod _ _ => s'.out = .raised ∨ ∀ k, gettable s'.heap mod k = gettable s.heap mod k
  | _ => True

def IsGuard (v : Value) : Prop := ∃ n, v = .fn (.guard n)

/-- Of a heap with tables up to `n` and the modules `L`. -/
structure Good (h : Heap Fn) (n : Ref) (L : List Value) : Prop where
  bound : ∀ r m, r < n → (h.tables r).metatable = some m → m < n
  guarded : ∀ r, .table r ∈ L → r < n ∧ ∃ m, (h.tables r).metatable = some m ∧ IsGuard (h.rawget m (event "__newindex"))
  strings : ∀ m, h.strings = some m →
    m < n ∧ (h.rawget m (event "__newindex") = .nil ∨ IsGuard (h.rawget m (event "__newindex")))

section Assign
variable {h : Heap Fn} {r : Ref} {k v : Value}

theorem assign_present (hk : h.rawget r k ≠ .nil) : assign h (.table r) k v = (h.rawset r k v, false) := by
  unfold assign
  rw [settable_present hk]

theorem assign_guard (hk : h.rawget r k = .nil) (hg : IsGuard (h.metamethod (.table r) "__newindex")) :
    assign h (.table r) k v = (h, true) := by
  obtain ⟨n, hn⟩ := hg
  unfold assign
  rw [settable_fn hk hn]

theorem assign_eq (h : Heap Fn) (t k v : Value) : (assign h t k v).1 = h ∨ ∃ r, (assign h t k v).1 =
    h.rawset r k v := by
  unfold assign
  cases hs : settable h t k v with
  | done h' => exact .inr (settable_done hs)
  | raised => exact .inl rfl
  | called f t k v => cases f <;> exact .inl rfl

theorem assign_newindex (hm : h.rawget r (event "__newindex") ≠ .nil ∨ h.metamethod (.table r) "__newindex" = .nil) :
    assign h (.table r) (event "__newindex") v = (h.rawset r (event "__newindex") v, false) := by
  by_cases hk : h.rawget r (event "__newindex") = .nil
  · unfold assign
    rw [settable_plain hk (hm.resolve_left (not_not.2 hk)) (by simp)]
  · exact assign_present hk

end Assign

namespace Good
variable {h : Heap Fn} {n r : Ref} {L : List Value} {mod k v : Value}

section
variable (hG : Good h n L)
include hG

theorem rawset_guard (hv : IsGuard v) : Good (h.rawset r (event "__newindex") v) n L := by
  have hkeeps : ∀ m, IsGuard (h.rawget m (event "__newindex")) →
      IsGuard ((h.rawset r (event "__newindex") v).rawget m (event "__newindex")) := by
    intro m hm
    by_cases hmr : m = r
    · rw [hmr, rawget_rawset_self (by simp)]
      exact hv
    · rwa [rawget_rawset_of_ne (.inl hmr)]
  refine ⟨fun r' m hr' hm => hG.bound r' m hr' (by rwa [metatable_rawset] at hm), fun r' hr' => ?_, fun m hm => ?_⟩
  · obtain ⟨hlt, m, hm, hg⟩ := hG.guarded r' hr'
    exact ⟨hlt, m, by rwa [metatable_rawset], hkeeps m hg⟩
  rw [strings_rawset] at hm
  obtain ⟨hlt, hm⟩ := hG.strings m hm
  refine ⟨hlt, ?_⟩
  by_cases hmr : m = r
  · rw [hmr, rawget_rawset_self (by simp)]
    exact .inr hv
  · rwa [rawget_rawset_of_ne (.inl hmr)]

theorem assign_guard (t : Value) (hv : IsGuard v) :
    Good (assign h t (event "__newindex") v).1 n L := by
  obtain heq | ⟨r, heq⟩ := assign_eq h t (event "__newindex") v
  · rwa [heq]
  · rw [heq]
    exact hG.rawset_guard hv

theorem extend {h' : Heap Fn} {n' : Ref} (hn : n ≤ n') (hold : ∀ r < n, h'.tables r = h.tables r)
    (hnew : ∀ r m, n ≤ r → r < n' → (h'.tables r).metatable = some m → m < n') (hstr : h'.strings = h.strings) :
    Good h' n' L := by
  have hget : ∀ m < n, ∀ k, h'.rawget m k = h.rawget m k := by
    intro m hm k
    unfold Heap.rawget
    rw [hold m hm]
  refine ⟨fun r m hr hm => ?_, fun r hr => ?_, fun m hm => ?_⟩
  · by_cases hlt : r < n
    · rw [hold r hlt] at hm
      exact (hG.bound r m hlt hm).trans_le hn
    · exact hnew r m (not_lt.1 hlt) hr hm
  · obtain ⟨hlt, m, hm, hg⟩ := hG.guarded r hr
    exact ⟨hlt.trans_le hn, m, by rwa [hold r hlt], by rwa [hget m (hG.bound r m hlt hm)]⟩
  · rw [hstr] at hm
    obtain ⟨hlt, hm⟩ := hG.strings m hm
    exact ⟨hlt.trans_le hn, by rwa [hget m hlt]⟩

theorem alloc : Good { h with tables := update h.tables n .empty } (n + 1) L := by
  refine hG.extend (Nat.le_succ n) (fun r hr => update_of_ne hr.ne _ _) (fun r m hr hr' hm => ?_) rfl
  obtain rfl : r = n := Nat.le_antisymm (Nat.lt_succ_iff.1 hr') hr
  dsimp only at hm
  rw [update_self] at hm
  cases hm

theorem protect {m : Ref} (hr : r < n) (hm : m < n) (hg : IsGuard (h.rawget m (event "__newindex"))) :
    Good (h.setmeta r (some m)) n (.table r :: L) := by
  refine ⟨fun r' m' hr' hm' => ?_, fun r' hr' => ?_, fun m' hm' => by simpa using hG.strings m' hm'⟩
  · by_cases heq : r' = r
    · rw [heq, metatable_setmeta_self] at hm'
      cases hm'
      exact hm
    · rw [metatable_setmeta_of_ne heq] at hm'
      exact hG.bound r' m' hr' hm'
  by_cases heq : r' = r
  · rw [heq]
    exact ⟨hr, m, metatable_setmeta_self, by rwa [rawget_setmeta]⟩
  have hmem : .table r' ∈ L := by
    rcases List.mem_cons.1 hr' with h | h
    · exact absurd (Val.table.inj h) heq
    · exact h
  obtain ⟨hlt, m', hm', hg'⟩ := hG.guarded r' hmem
  exact ⟨hlt, m', by rwa [metatable_setmeta_of_ne heq], by rwa [rawget_setmeta]⟩

theorem cons (hmod : ∀ r, mod ≠ .table r) : Good h n (mod :: L) := by
  refine ⟨hG.bound, fun r hr => ?_, hG.strings⟩
  rcases List.mem_cons.1 hr with heq | hmem
  · exact absurd heq.symm (hmod r)
  · exact hG.guarded r hmem

end

end Good

namespace St
variable {s : St} {modname : Bytes} {mod : Value} {c : Option Nat}

def Good (s : St) : Prop := Share.Good s.heap s.next s.shared

@[simp] theorem store_heap : (s.store modname mod c).heap = s.heap := by cases c <;> rfl

@[simp] theorem store_next : (s.store modname mod c).next = s.next := by cases c <;> rfl

@[simp] theorem store_shared : (s.store modname mod c).shared = mod :: s.shared := by cases c <;> rfl

/-- A module that is not a table: the metatable of the strings can get a guard, or some table gets one. -/
theorem good_newmt {L : List Value} (hG : Share.Good s.heap s.next L) (mod : Value) :
    Share.Good (s.newmt mod).1.heap (s.newmt mod).1.next L := by
  unfold newmt
  dsimp only
  split_ifs
  · exact hG
  · exact hG.alloc

theorem newmt_none (hm : s.heap.getmetatable mod = .nil) : s.newmt mod =
    ({ s with
        heap := { s.heap with tables := update s.heap.tables s.next .empty }
        next := s.next + 1 }, .table s.next) := by
  unfold newmt
  rw [hm]
  rfl

theorem newmt_some {m : Ref} (hm : s.heap.getmetatable mod = .table m) : s.newmt mod = (s, .table m) := by
  unfold newmt
  rw [hm]
  rfl

theorem shared_newmt : (s.newmt mod).1.shared = s.shared := by
  unfold newmt
  dsimp only
  split_ifs <;> rfl

theorem good_protect {L : List Value} (hG : Share.Good s.heap s.next L) (hmod : ∀ r, mod ≠ .table r) (m : Value) :
    Share.Good (s.protect modname mod m).1.heap (s.protect modname mod m).1.next L := by
  have ha := hG.assign_guard m (v := .fn (.guard modname)) ⟨modname, rfl⟩
  unfold protect
  dsimp only
  split_ifs
  · exact ha
  have hnone : ∀ h : Heap Fn, h.setmetatable mod m = none := by
    intro h
    unfold Heap.setmetatable
    split_ifs
    · split
      · exact absurd rfl (hmod _)
      · exact absurd rfl (hmod _)
      · rfl
    · rfl
  rw [hnone]
  exact ha

theorem shared_protect {m : Value} : (s.protect modname mod m).1.shared = s.shared := by
  unfold protect
  dsimp only
  split_ifs
  · rfl
  · split <;> rfl

theorem protect_table {r m : Ref} {L : List Value} (hG : Share.Good s.heap s.next L) (hr : r < s.next) (hm : m < s.next)
    (hmt : (s.heap.tables r).metatable = some m ∨ (s.heap.tables r).metatable = none)
    (hp : s.heap.rawget m (event "__metatable") = .nil)
    (hi : s.heap.rawget m (event "__newindex") ≠ .nil ∨ s.heap.metamethod (.table m) "__newindex" = .nil) :
    Share.Good (s.protect modname (.table r) (.table m)).1.heap (s.protect modname (.table r) (.table m)).1.next
      (.table r :: L) := by
  let h := s.heap.rawset m (event "__newindex") (.fn (.guard modname))
  have hget : h.rawget m (event "__newindex") = .fn (.guard modname) := rawget_rawset_self (by simp)
  have hmeta : h.metamethod (.table r) "__metatable" = .nil := by
    unfold Heap.metamethod Heap.metatable
    dsimp only
    rw [metatable_rawset]
    obtain hmt | hmt := hmt
    · rw [hmt]
      refine (rawget_rawset_of_ne (.inr ?_)).trans hp
      rw [key_event, key_event]
      decide
    · rw [hmt]
  have hset : h.setmetatable (.table r) (.table m) = some (h.setmeta r (some m)) := if_pos hmeta
  have heq : s.protect modname (.table r) (.table m) = ({ s with heap := h.setmeta r (some m) }, false) := by
    unfold protect
    rw [assign_newindex hi]
    dsimp only
    rw [if_neg (by decide), hset]
  rw [heq]
  exact (hG.rawset_guard ⟨modname, rfl⟩).protect hr hm ⟨modname, hget⟩

theorem good_share (modname : Bytes) (c : Option Nat) (hG : s.Good) (hk : known s.next mod)
    (hmod : Guardable s.heap mod) : (s.share modname mod c).1.Good := by
  have hG₀ : Share.Good (s.store modname mod c).heap (s.store modname mod c).next s.shared := by
    rw [store_heap, store_next]
    exact hG
  unfold Good share
  dsimp only
  rw [shared_protect, shared_newmt, store_shared]
  cases mod with
  | table r =>
    have hr : r < s.next := by simpa [known] using hk
    cases hmt : (s.heap.tables r).metatable with
    | none =>
      rw [newmt_none (by rw [store_heap]; exact getmetatable_none hmt), store_heap, store_next]
      refine protect_table hG.alloc (hr.trans (Nat.lt_succ_self _)) (Nat.lt_succ_self _) ?_ ?_ ?_
      · exact .inr ((congrArg Table.metatable (update_of_ne hr.ne _ _)).trans hmt)
      · simp [Heap.rawget, Table.empty]
      · exact .inr (by simp [Heap.metamethod, Heap.metatable, Table.empty])
    | some m =>
      obtain ⟨hp, hi⟩ := hmod m hmt
      rw [newmt_some (by rw [store_heap]; exact getmetatable_some hmt hp)]
      have hm : m < (s.store modname (.table r) c).next := by
        rw [store_next]
        exact hG.bound r m hr hmt
      exact protect_table hG₀ (by rwa [store_next]) hm (.inl (by rwa [store_heap])) (by rwa [store_heap])
        (by rwa [store_heap])
  | _ => exact (good_protect (good_newmt hG₀ _) (by intro r h; cases h) _).cons (by intro r h; cases h)

@[simp] theorem finish_kept (t : Nat) (renv : Renv) (newmod : Option Value) (init : Value) :
    (s.finish t renv newmod init).heap = s.heap ∧ (s.finish t renv newmod init).next = s.next ∧
      (s.finish t renv newmod init).shared = s.shared := by
  unfold finish
  split_ifs
  · cases newmod with
    | none => exact ⟨rfl, rfl, rfl⟩
    | some m =>
      dsimp only
      split
      · exact ⟨rfl, rfl, rfl⟩
      · exact ⟨rfl, rfl, rfl⟩
      · exact ⟨rfl, rfl, rfl⟩
      · split <;> exact ⟨rfl, rfl, rfl⟩
  · exact ⟨rfl, rfl, rfl⟩

theorem good_finish (hG : s.Good) (t : Nat) (renv : Renv) (newmod : Option Value) (init : Value) :
    (s.finish t renv newmod init).Good := by
  obtain ⟨hh, hn, hL⟩ := s.finish_kept t renv newmod init
  unfold Good
  rw [hh, hn, hL]
  exact hG

theorem good_extend (hG : s.Good) {tables : List (Table Fn)}
    (ht : ∀ x ∈ tables, ∀ m, x.metatable = some m → m < s.next + tables.length) : (s.extend tables).Good := by
  refine Share.Good.extend hG (Nat.le_add_right _ _) (fun r hr => if_pos hr) (fun r m hr _ hm => ?_) rfl
  dsimp only [extend] at hm
  rw [if_neg (not_lt.2 hr)] at hm
  by_cases hlt : r - s.next < tables.length
  · rw [List.getD_eq_getElem _ _ hlt] at hm
    exact ht _ (List.getElem_mem hlt) m hm
  · rw [List.getD_eq_default _ _ (not_lt.1 hlt)] at hm
    cases hm

theorem good_cached (hG : s.Good) (t : Nat) (modname : Bytes) (renv : Renv) (newmod : Option Value) (init : Value)
    (hmod : ∀ m, newmod = some m → renv = .none → known s.next m ∧ Guardable s.heap m) :
    (s.cached t modname renv newmod init).Good := by
  unfold cached
  cases newmod with
  | none => exact good_finish hG t renv none init
  | some m =>
    dsimp only
    by_cases hrenv : renv = .none
    · have hshare := good_share modname (some (s.ctxt t)) hG (hmod m rfl hrenv).1 (hmod m rfl hrenv).2
      rw [if_pos hrenv]
      split_ifs
      · exact hshare
      · exact good_finish hshare t renv (some m) init
    · rw [if_neg hrenv]
      exact good_finish hG t renv (some m) init

theorem assign_kept (hG : s.Good) {k v : Value} (hmod : mod ∈ s.shared)
    (hfit : ∀ r, mod = .table r → s.heap.rawget r k = .nil ∨ s.heap.rawget r k = v) :
    (assign s.heap mod k v).1 = s.heap := by
  cases mod with
  | table r =>
    obtain ⟨-, m, hm, hg⟩ := hG.guarded r hmod
    have hmeta : s.heap.metamethod (.table r) "__newindex" = s.heap.rawget m (event "__newindex") := by
      unfold Heap.metamethod Heap.metatable
      dsimp only
      rw [hm]
    by_cases hnil : s.heap.rawget r k = .nil
    · rw [assign_guard hnil (hmeta ▸ hg)]
    · rw [assign_present hnil]
      exact rawset_rawget ((hfit r rfl).resolve_left hnil)
  | str x =>
    unfold assign
    cases hstr : s.heap.strings with
    | none =>
      have hmeta : s.heap.metamethod (.str x) "__newindex" = .nil := by
        unfold Heap.metamethod Heap.metatable
        dsimp only
        rw [hstr]
      rw [settable_str hmeta]
    | some m =>
      have hmeta : s.heap.metamethod (.str x) "__newindex" = s.heap.rawget m (event "__newindex") := by
        unfold Heap.metamethod Heap.metatable
        dsimp only
        rw [hstr]
      obtain hnil | ⟨n, hn⟩ := (hG.strings m hstr).2
      · rw [settable_str (hmeta.trans hnil)]
      · rw [settable_str_fn (hmeta.trans hn)]
  | _ => rfl

end St

theorem step_good {s s' : St} (hG : s.Good) {a : Act} (hfit : Fits s a) (hs : step s a = some s') :
    s'.Good ∧ Kept s a s' := by
  cases a with
  | spawn t child =>
    cases hs
    exact ⟨hG, trivial⟩
  | «import» t modname renv init =>
    refine ⟨?_, trivial⟩
    unfold step at hs
    dsimp only at hs
    split at hs
    · cases hs
      exact St.good_finish hG t renv _ init
    · cases hs
      exact hG
  | loaded t tables newmod init =>
    refine ⟨?_, trivial⟩
    obtain ⟨i, hi, h'⟩ := Option.bind_eq_some_iff.1 hs
    dsimp only at h'
    split_ifs at h' with hok
    cases h'
    rw [Bool.and_eq_true] at hok
    have hbound : ∀ x ∈ tables, ∀ m, x.metatable = some m → m < s.next + tables.length := by
      intro x hx m hm
      have hall := List.all_eq_true.1 hok.1 x hx
      rw [hm] at hall
      exact of_decide_eq_true hall
    have hG₁ : St.Good { s.extend tables with importing := s.importing.eraseP fun i => i.1 = t } :=
      St.good_extend hG hbound
    refine St.good_cached hG₁ t _ _ _ init fun m hm hrenv => ⟨?_, hfit i m hi hrenv hm⟩
    have hall := hok.2
    rw [hm, Option.all_some, Bool.and_eq_true] at hall
    exact hall.2
  | assign t mod k v =>
    unfold step at hs
    dsimp only at hs
    by_cases hmem : s.shared.contains mod
    swap
    · rw [if_neg hmem] at hs
      cases hs
    rw [if_pos hmem] at hs
    cases hs
    have hkept : (assign s.heap mod k v).1 = s.heap := St.assign_kept hG (by simpa using hmem) fun r hr => by
      subst hr
      exact hfit
    dsimp only [St.Good, Kept]
    rw [hkept]
    exact ⟨hG, .inr fun _ => rfl⟩

theorem kept_iff_fits {s s' : St} (hG : s.Good) {t : Nat} {r : Ref} {k v : Value} (hv : v ≠ .nil)
    (hs : step s (.assign t (.table r) k v) = some s') :
    Kept s (.assign t (.table r) k v) s' ↔ Fits s (.assign t (.table r) k v) := by
  refine ⟨fun hkept => ?_, fun hfit => (step_good hG hfit hs).2⟩
  by_contra hfit
  obtain ⟨hnil, hne⟩ := not_or.1 hfit
  have hkey : k.key ≠ none := by
    intro hkey
    unfold Heap.rawget at hnil
    rw [hkey] at hnil
    exact hnil rfl
  unfold step at hs
  dsimp only at hs
  rw [assign_present hnil] at hs
  by_cases hmem : s.shared.contains (.table r)
  swap
  · rw [if_neg hmem] at hs
    cases hs
  rw [if_pos hmem] at hs
  cases hs
  rcases hkept with hraised | hread
  · cases hraised
  · have hself : (s.heap.rawset r k v).rawget r k = v := rawget_rawset_self hkey
    have hk := hread k
    dsimp only at hk
    rw [gettable_present (by rwa [hself]), hself, gettable_present hnil] at hk
    exact hne (Got.value.inj hk).symm

/-! ### The kernel's modules -/

section Boot
variable {sys sysconst buffers mod strings : Value → Value}

theorem boot_good : (boot sys sysconst buffers mod strings).Good := by
  unfold boot
  dsimp only
  refine St.good_share _ _ (St.good_share _ _
    (St.good_share _ _ ⟨fun r m hr hm => ?_, ?_, fun m hm => ?_⟩ rfl ?_) rfl ?_) rfl ?_
  · have hsys : r = 2 ∧ m = 1 := by
      interval_cases r <;> cases hm
      exact ⟨rfl, rfl⟩
    rw [hsys.2]
    exact (by decide : 1 < 7)
  · exact fun r hr => absurd hr List.not_mem_nil
  · cases hm
    exact ⟨(by decide : 5 < 7), .inl rfl⟩
  · intro m hm
    cases hm
    exact ⟨rfl, .inr rfl⟩
  · intro m hm
    cases hm
  · intro m hm
    cases hm

/-- Along every run of imports and assignments in which the modules that are shared can get a guard and no key that is
in a module is given another value. -/
theorem shared_readonly {acts : List Act} (h : Along step Fits (boot sys sysconst buffers mod strings) acts) :
    Each step Kept (boot sys sysconst buffers mod strings) acts :=
  h.each (fun _ _ _ hG hfit hs => step_good hG hfit hs) boot_good

/-- An application imports `sys`, and a module of its own. It assigns to a new key of each. -/
def careful : List Act :=
  [.import 1 (lit "sys") .none .nil, .assign 1 (.table 2) (.str [0x78]) (.bool true),
    .import 1 (lit "m") .none .nil, .loaded 1 [.empty] (some (.table 9)) .nil, .assign 1 (.table 9) (.str [0x78])
      (.bool true)]

theorem readonly_careful : Each step Kept
    (boot (fun _ => .nil) (fun _ => .nil) (fun _ => .nil) (fun _ => .nil) fun _ => .nil)
    careful := by
  refine shared_readonly ?_
  refine Along.cons trivial rfl <| Along.cons (.inl rfl) rfl <| Along.cons trivial rfl <| Along.cons ?_ rfl <|
    Along.cons (.inl rfl) rfl trivial
  intro i m _ _ hm
  cases hm
  intro m hm
  cases hm

def modFields : Value → Value := Function.update (fun _ => .nil) (event "import") (.fn (.other 1))

/-- `mod.import` is replaced, in the table that the kernel and every application have. -/
def replaced : List Act := [.import 1 (lit "mod") .none .nil, .assign 1 (.table 4) (event "import") (.fn (.other 2))]

theorem replaced_import : ¬ ∀ (sys sysconst buffers mod strings : Value → Value) (acts : List Act),
    Each step Kept (boot sys sysconst buffers mod strings) acts := by
  intro h
  have hrun := h (fun _ => .nil) (fun _ => .nil) (fun _ => .nil) modFields (fun _ => .nil) replaced
  have himport := (hrun _ rfl).2
  have hkept := (himport _ rfl).1
  dsimp only [Kept] at hkept
  rcases hkept with hraised | hread
  · cases hraised
  · cases hread (event "import")

end Boot

end Node9.Share
