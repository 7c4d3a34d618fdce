import Node9.LuaNumber

/-!
# Lua tables and metatables

Reading and assigning as LuaJIT does them: through `__index` and `__newindex`, at most 100 times in a row. What a
function does that is called for one of these is left open: `called`. `F` are the functions.
-/

namespace Node9.Lua
open Buf Function

abbrev Ref := Nat

inductive Val (F : Type)
  | nil
  | bool (b : Bool)
  | num (x : Number)
  | str (s : Bytes)
  | table (r : Ref)
  | fn (f : F)
  deriving DecidableEq

structure Table (F : Type) where
  fields : Val F → Val F
  metatable : Option Ref

structure Heap (F : Type) where
  tables : Ref → Table F
  /-- the metatable of the strings -/
  strings : Option Ref

variable {F : Type}

def Table.empty : Table F := ⟨fun _ => .nil, none⟩

/-- Nothing is stored under nil and NaN, and -0 is 0. -/
def Val.key : Val F → Option (Val F)
  | nil => none
  | num .nan => none
  | num (.fin neg x) => some (num (.fin (if x = 0 then false else neg) x))
  | v => some v

def Val.truthy : Val F → Bool
  | nil => false
  | bool b => b
  | _ => true

/-- The name of an event, which is a key of the metatable. -/
def event (s : String) : Val F := .str (s.toList.map fun x => UInt8.ofNat x.toNat)

namespace Heap
variable [DecidableEq F] (h : Heap F)

def rawget (r : Ref) (k : Val F) : Val F :=
  match k.key with
  | some k => (h.tables r).fields k
  | none => .nil

def rawset (r : Ref) (k v : Val F) : Heap F :=
  match k.key with
  | some k => { h with tables := Function.update h.tables r { h.tables r with fields := Function.update (h.tables r).fields k v } }
  | none => h

def setmeta (r : Ref) (m : Option Ref) : Heap F :=
  { h with tables := Function.update h.tables r { h.tables r with metatable := m } }

def metatable : Val F → Option Ref
  | .table r => (h.tables r).metatable
  | .str _ => h.strings
  | _ => none

/-- The metamethod of `v` for an event. -/
def metamethod (v : Val F) (e : String) : Val F :=
  match h.metatable v with
  | some m => h.rawget m (event e)
  | none => .nil

/-- `getmetatable` -/
def getmetatable (v : Val F) : Val F :=
  match h.metatable v with
  | none => .nil
  | some m => if h.rawget m (event "__metatable") = .nil then .table m else h.rawget m (event "__metatable")

/-- `setmetatable`; it raises an error for a value that is no table, and for a protected metatable. -/
def setmetatable (v m : Val F) : Option (Heap F) :=
  if h.metamethod v "__metatable" = .nil then
    match v, m with
    | .table r, .table m => some (h.setmeta r (some m))
    | .table r, .nil => some (h.setmeta r none)
    | _, _ => none
  else none

end Heap

inductive Got (F : Type)
  | value (v : Val F)
  | raised
  | called (f : F) (t k : Val F)

inductive Put (F : Type)
  | done (h : Heap F)
  | raised
  | called (f : F) (t k v : Val F)

section Events
variable [DecidableEq F]

/-- `t[k]`, in at most so many turns. -/
def gettableIn (h : Heap F) : Nat → Val F → Val F → Got F
  | 0, _, _ => .raised
  | n + 1, t, k =>
    let raw := match t with
      | .table r => h.rawget r k
      | _ => .nil
    if raw ≠ .nil then .value raw
    else
      match h.metamethod t "__index", t with
      | .nil, .table _ => .value .nil
      | .nil, _ => .raised
      | .fn f, t => .called f t k
      | u, _ => gettableIn h n u k

/-- `t[k] = v` -/
def settableIn (h : Heap F) : Nat → Val F → Val F → Val F → Put F
  | 0, _, _, _ => .raised
  | n + 1, t, k, v =>
    match t with
    | .table r =>
      if h.rawget r k ≠ .nil then .done (h.rawset r k v)
      else
        match h.metamethod t "__newindex" with
        | .nil => if k.key = none then .raised else .done (h.rawset r k v)
        | .fn f => .called f t k v
        | u => settableIn h n u k v
    | t =>
      match h.metamethod t "__newindex" with
      | .nil => .raised
      | .fn f => .called f t k v
      | u => settableIn h n u k v

def gettable (h : Heap F) (t k : Val F) : Got F := gettableIn h 100 t k

def settable (h : Heap F) (t k v : Val F) : Put F := settableIn h 100 t k v

end Events

/-! ### What a change leaves alone -/

section Frames
variable {h : Heap F} {r r' : Ref} {k k' v : Val F} {m : Option Ref}

@[simp] theorem key_event (e : String) : (event e : Val F).key = some (event e) := rfl

@[simp] theorem strings_setmeta : (h.setmeta r m).strings = h.strings := rfl

@[simp] theorem rawget_setmeta : (h.setmeta r m).rawget r' k = h.rawget r' k := by
  unfold Heap.setmeta Heap.rawget
  by_cases hr : r' = r
  · rw [hr]
    simp only [update_self]
  · simp only [update_of_ne hr]

theorem metatable_setmeta_self : ((h.setmeta r m).tables r).metatable = m := by
  simp only [Heap.setmeta, update_self]

theorem metatable_setmeta_of_ne (hr : r' ≠ r) :
    ((h.setmeta r m).tables r').metatable = (h.tables r').metatable := by
  simp only [Heap.setmeta, update_of_ne hr]

variable [DecidableEq F]

theorem getmetatable_none {t : Val F} (hm : h.metatable t = none) : h.getmetatable t = .nil := by
  unfold Heap.getmetatable
  rw [hm]

theorem getmetatable_some {t : Val F} {m : Ref} (hm : h.metatable t = some m)
    (hp : h.rawget m (event "__metatable") = .nil) : h.getmetatable t = .table m := by
  unfold Heap.getmetatable
  rw [hm]
  exact if_pos hp

@[simp] theorem strings_rawset : (h.rawset r k v).strings = h.strings := by
  unfold Heap.rawset
  split <;> rfl

@[simp] theorem metatable_rawset : ((h.rawset r k v).tables r').metatable = (h.tables r').metatable := by
  unfold Heap.rawset
  split
  · by_cases hr : r' = r
    · rw [hr]
      simp only [update_self]
    · simp only [update_of_ne hr]
  · rfl

theorem rawget_rawset_self (hk : k.key ≠ none) : (h.rawset r k v).rawget r k = v := by
  unfold Heap.rawset Heap.rawget
  cases hkey : k.key with
  | none => exact absurd hkey hk
  | some k => simp only [update_self]

theorem rawget_rawset_of_ne (hr : r' ≠ r ∨ k'.key ≠ k.key) : (h.rawset r k v).rawget r' k' = h.rawget r' k' := by
  unfold Heap.rawset Heap.rawget
  cases hkey : k.key with
  | none => rfl
  | some k₁ =>
    cases hkey' : k'.key with
    | none => rfl
    | some k₂ =>
      dsimp only
      by_cases heq : r' = r
      · rw [hkey, hkey'] at hr
        have hne : k₂ ≠ k₁ := fun h => (hr.resolve_left (not_not.2 heq)) (congrArg some h)
        simp only [heq, update_self, update_of_ne hne]
      · rw [update_of_ne heq]

theorem rawset_rawget (hv : h.rawget r k = v) : h.rawset r k v = h := by
  unfold Heap.rawget at hv
  unfold Heap.rawset
  cases hkey : k.key with
  | none => rfl
  | some k₁ =>
    rw [hkey] at hv
    dsimp only at hv ⊢
    rw [← hv, update_eq_self, update_eq_self]

end Frames

section Assign
variable [DecidableEq F] {h : Heap F} {r : Ref} {k v : Val F}

theorem gettable_present (hk : h.rawget r k ≠ .nil) : gettable h (.table r) k = .value (h.rawget r k) := by
  unfold gettable gettableIn
  exact if_pos hk

theorem settable_present (hk : h.rawget r k ≠ .nil) : settable h (.table r) k v = .done (h.rawset r k v) := by
  unfold settable settableIn
  exact if_pos hk

theorem settable_fn {f : F} (hk : h.rawget r k = .nil) (hf : h.metamethod (.table r) "__newindex" = .fn f) :
    settable h (.table r) k v = .called f (.table r) k v := by
  unfold settable settableIn
  refine (if_neg (not_not.2 hk)).trans ?_
  rw [hf]

theorem settable_plain (hk : h.rawget r k = .nil) (hf : h.metamethod (.table r) "__newindex" = .nil)
    (hkey : k.key ≠ none) :
    settable h (.table r) k v = .done (h.rawset r k v) := by
  unfold settable settableIn
  refine (if_neg (not_not.2 hk)).trans ?_
  rw [hf]
  exact if_neg hkey

theorem settable_str {x : Bytes} (hf : h.metamethod (.str x) "__newindex" = .nil) :
    settable h (.str x) k v = .raised := by
  unfold settable settableIn
  dsimp only
  rw [hf]

theorem settable_str_fn {x : Bytes} {f : F} (hf : h.metamethod (.str x) "__newindex" = .fn f) :
    settable h (.str x) k v = .called f (.str x) k v := by
  unfold settable settableIn
  dsimp only
  rw [hf]

/-- Whatever is assigned to goes on through `__newindex`; a change is made in one table, where the key is set. -/
theorem settable_done {t : Val F} {h' : Heap F} (hs : settable h t k v = .done h') : ∃ r, h' = h.rawset r k v := by
  have hgo : ∀ n t, settableIn h n t k v = .done h' → ∃ r, h' = h.rawset r k v := by
    intro n
    induction n with
    | zero => exact fun t ht => by cases ht
    | succ n ih =>
      intro t ht
      unfold settableIn at ht
      split at ht
      · rename_i r
        by_cases hk : h.rawget r k ≠ .nil
        · rw [if_pos hk] at ht
          cases ht
          exact ⟨r, rfl⟩
        rw [if_neg hk] at ht
        split at ht
        · split_ifs at ht
          cases ht
          exact ⟨r, rfl⟩
        · cases ht
        · exact ih _ ht
      · split at ht
        · cases ht
        · cases ht
        · exact ih _ ht
  exact hgo 100 t hs

end Assign

section Turns
variable [DecidableEq F] {h : Heap F} {r q : Ref} {k v : Val F} {n : Nat}

theorem gettableIn_present (hk : h.rawget r k ≠ .nil) : gettableIn h (n + 1) (.table r) k = .value (h.rawget r k) :=
  if_pos hk

theorem gettableIn_none (hk : h.rawget r k = .nil) (hi : h.metamethod (.table r) "__index" = .nil) :
    gettableIn h (n + 1) (.table r) k = .value .nil := by
  refine (if_neg (not_not.2 hk)).trans ?_
  rw [hi]

theorem gettableIn_table (hk : h.rawget r k = .nil) (hi : h.metamethod (.table r) "__index" = .table q) :
    gettableIn h (n + 1) (.table r) k = gettableIn h n (.table q) k := by
  refine (if_neg (not_not.2 hk)).trans ?_
  rw [hi]

theorem settableIn_present (hk : h.rawget r k ≠ .nil) :
    settableIn h (n + 1) (.table r) k v = .done (h.rawset r k v) :=
  if_pos hk

theorem settableIn_plain (hk : h.rawget r k = .nil) (hf : h.metamethod (.table r) "__newindex" = .nil)
    (hkey : k.key ≠ none) : settableIn h (n + 1) (.table r) k v = .done (h.rawset r k v) := by
  refine (if_neg (not_not.2 hk)).trans ?_
  rw [hf]
  exact if_neg hkey

theorem settableIn_table (hk : h.rawget r k = .nil) (hf : h.metamethod (.table r) "__newindex" = .table q) :
    settableIn h (n + 1) (.table r) k v = settableIn h n (.table q) k v := by
  refine (if_neg (not_not.2 hk)).trans ?_
  rw [hf]

end Turns

end Node9.Lua
