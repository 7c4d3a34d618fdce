import Node9.LuaTable
import Node9.Lib.Steps

/-!
# Modules shared between applications (`share` and `import` in `kernel.lua`)

A module is what a chunk returns, or its environment: any value, whose tables the chunk has made or found. `share`
puts it in a cache, and a function that raises an error in its metatable, as `__newindex`. The kernel has one cache,
every application context one more; the tasks of an application have one context.

An import whose module is in no cache runs the chunk in between, and other actions can happen before it ends.
-/

namespace Node9.Share
open Buf Lua Function

inductive Fn
  /-- `error("attempt to modify shared module '" .. modname .. "'", 2)` -/
  | guard (modname : Bytes)
  | other (i : Nat)
  deriving DecidableEq

abbrev Value := Val Fn

def lit (s : String) : Bytes := s.toList.map fun x => UInt8.ofNat x.toNat

abbrev Cache := Bytes → Option Value

/-- The second argument of `import`: none, an empty table, or something else. -/
inductive Renv
  | none
  | app
  | other
  deriving DecidableEq

inductive Out
  | nothing
  | raised
  /-- what `import` returns, and if it complains that there is no `init` -/
  | module (newmod : Option Value) (noInit : Bool)

structure St where
  heap : Heap Fn
  /-- the tables from here on do not exist yet -/
  next : Ref
  loaded : Cache
  /-- the context of a task -/
  ctxt : Nat → Nat
  cache : Nat → Cache
  nctxt : Nat
  /-- the imports whose chunks are running, by task -/
  importing : List (Nat × Bytes × Renv)
  /-- the modules that `share` was called for -/
  shared : List Value
  /-- the outcome of the last action -/
  out : Out

/-- `t[k] = v`, and if it raises an error. A function that is called for it and is not a guard goes on by itself. -/
def assign (h : Heap Fn) (t k v : Value) : Heap Fn × Bool :=
  match settable h t k v with
  | .done h' => (h', false)
  | .raised => (h, true)
  | .called (.guard _) _ _ _ => (h, true)
  | .called (.other _) _ _ _ => (h, false)

namespace St

/-- `cache[modname] = mod`, in the cache of the kernel or of a context. -/
def store (s : St) (modname : Bytes) (mod : Value) : Option Nat → St
  | none => { s with loaded := update s.loaded modname (some mod), shared := mod :: s.shared }
  | some i => { s with
      cache := update s.cache i (update (s.cache i) modname (some mod))
      shared := mod :: s.shared }

/-- `getmetatable(mod) or {}` -/
def newmt (s : St) (mod : Value) : St × Value :=
  let m := s.heap.getmetatable mod
  if m.truthy then (s, m)
  else
    ({ s with
        heap := { s.heap with tables := update s.heap.tables s.next .empty }
        next := s.next + 1 }, .table s.next)

/-- The last part of `share`. -/
def protect (s : St) (modname : Bytes) (mod new_mt : Value) : St × Bool :=
  let a := assign s.heap new_mt (event "__newindex") (.fn (.guard modname))
  if a.2 then ({ s with heap := a.1 }, true)
  else
    match a.1.setmetatable mod new_mt with
    | none => ({ s with heap := a.1 }, true)
    | some h => ({ s with heap := h }, false)

/-- `share`, and if it raises an error. -/
def share (s : St) (modname : Bytes) (mod : Value) (c : Option Nat) : St × Bool :=
  let p := (s.store modname mod c).newmt mod
  p.1.protect modname mod p.2

/-- The end of `import`. For `newmod.init` a function may be called: `init` is what it gives. -/
def finish (s : St) (t : Nat) (renv : Renv) (newmod : Option Value) (init : Value) : St :=
  if renv = .app then
    let s := { s with
      ctxt := update s.ctxt t s.nctxt
      cache := update s.cache s.nctxt fun _ => none
      nctxt := s.nctxt + 1 }
    match newmod with
    | none => { s with out := .module none false }
    | some m =>
      match gettable s.heap m (event "init") with
      | .raised => { s with out := .raised }
      | .value (.fn _) => { s with out := .module newmod false }
      | .value _ => { s with out := .module none true }
      | .called _ _ _ =>
        match init with
        | .fn _ => { s with out := .module newmod false }
        | _ => { s with out := .module none true }
  else { s with out := .module newmod false }

/-- `import` after `mload`: a module without an environment of its own is shared. -/
def cached (s : St) (t : Nat) (modname : Bytes) (renv : Renv) (newmod : Option Value) (init : Value) : St :=
  match newmod with
  | none => s.finish t renv none init
  | some m =>
    if renv = .none then
      let p := s.share modname m (some (s.ctxt t))
      if p.2 then { p.1 with out := .raised } else p.1.finish t renv newmod init
    else s.finish t renv newmod init

end St

inductive Act
  | spawn (t child : Nat)
  | import (t : Nat) (modname : Bytes) (renv : Renv) (init : Value)
  /-- a chunk ends: the tables that it has made, and the module, if there is one -/
  | loaded (t : Nat) (tables : List (Table Fn)) (newmod : Option Value) (init : Value)
  | assign (t : Nat) (mod k v : Value)

/-- The tables of a chunk behind those that there are. -/
def St.extend (s : St) (tables : List (Table Fn)) : St :=
  { s with
    heap := { s.heap with
      tables := fun r => if r < s.next then s.heap.tables r else tables.getD (r - s.next) .empty }
    next := s.next + tables.length }

def known (next : Ref) : Value → Bool
  | .table r => r < next
  | _ => true

def step (s : St) : Act → Option St
  | .spawn t child => some { s with ctxt := update s.ctxt child (s.ctxt t), out := .nothing }
  | .import t modname renv init =>
    match (s.loaded modname).or (s.cache (s.ctxt t) modname) with
    | some m => some (s.finish t renv (some m) init)
    | none => some { s with importing := (t, modname, renv) :: s.importing, out := .nothing }
  | .loaded t tables newmod init =>
    (s.importing.find? fun i => i.1 = t).bind fun i =>
      let s := { s.extend tables with importing := s.importing.eraseP fun i => i.1 = t }
      -- only tables that exist are referred to
      if tables.all (fun x => x.metatable.all (· < s.next)) && newmod.all (fun m => m.truthy && known s.next m) then
        some (s.cached t i.2.1 i.2.2 newmod init)
      else none
  | .assign _ mod k v =>
    if s.shared.contains mod then
      let a := assign s.heap mod k v
      some { s with heap := a.1, out := if a.2 then .raised else .nothing }
    else none

/-- The kernel's modules, when no task runs yet: `sys` has the constants as `__index`. -/
def boot (sys sysconst buffers mod strings : Value → Value) : St :=
  let table (fields : Value → Value) : Table Fn := ⟨fields, none⟩
  let s : St :=
    { heap := {
        tables := fun r => [table sysconst, table (update (fun _ => .nil) (event "__index") (.table 0)),
          ⟨sys, some 1⟩, table buffers, table mod,
          table (update (fun _ => .nil) (event "__index") (.table 6)), table strings].getD r .empty
        strings := some 5 }
      next := 7
      loaded := fun _ => none
      ctxt := fun _ => 0
      cache := fun _ _ => none
      nctxt := 1
      importing := []
      shared := []
      out := .nothing }
  let s := (s.share (lit "sys") (.table 2) none).1
  let s := (s.share (lit "buffers") (.table 3) none).1
  (s.share (lit "mod") (.table 4) none).1

end Node9.Share
