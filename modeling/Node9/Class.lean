import Node9.LuaTable
import Node9.Lib.Steps

/-!
# Classes (`torch/class.lua`)

A class is a table that is the metatable of its instances and its own `__index`, and has its parent as its metatable.
What `class.new` returns is a table in front of it, through which methods are stored. `isofclass` has for each class the
names of the classes below it. It and `classes` are local to the module and have string keys only, so that they are maps
here.

`made` and `ctors` are the instances and the tables that were returned, each with the name of the class; `parent` and
`methods` are what was asked for, by the definitions that returned and by the assignments to methods. What a method does
that is called, `__init` among them, are further actions.
-/

namespace Node9.Class
open Buf Lua Function

inductive Fn
  /-- `newclass.__factory` -/
  | factory (newclass : Nat)
  /-- the default `__init` -/
  | init
  /-- `newclass.new` -/
  | new (newclass : Nat)
  /-- `__call` of the table that is returned -/
  | call
  | other (i : Nat)
  deriving DecidableEq

abbrev Value := Val Fn

abbrev Name := Bytes

def lit (s : String) : Bytes := s.toList.map fun x => UInt8.ofNat x.toNat

/-- The argument `parentname`: nil or false, a string, or something else. -/
inductive Parent
  | absent
  | name (p : Name)
  | other

inductive Out
  | nothing
  | returned (v : Value)
  /-- with the text, unless it has a value in it that is no string -/
  | raised (msg : Option Bytes)

structure St where
  heap : Heap Fn
  /-- the tables from here on do not exist yet -/
  next : Nat
  classes : Name → Option Nat
  isofclass : Name → Option (Name → Bool)
  ctors : List (Nat × Name)
  made : List (Nat × Name)
  parent : Name → Option (Option Name)
  methods : Name → Name → Value
  /-- the outcome of the last action -/
  out : Out

def init : St := ⟨⟨fun _ => .empty, none⟩, 0, fun _ => none, fun _ => none, [], [], fun _ => none, fun _ _ => .nil, .nothing⟩

def fields (l : List (String × Value)) (k : Value) : Value := ((l.map fun x => (event x.1, x.2)).lookup k).getD .nil

/-- The metatable of a table that is returned, and that table. -/
def behind (metatable : Nat) : Table Fn :=
  ⟨fields [("__index", .table metatable), ("__newindex", .table metatable), ("__metatable", .table metatable),
    ("__call", .fn .call)], none⟩

def front (mt : Nat) : Table Fn := ⟨fun _ => .nil, some mt⟩

/-- `newclass`, before its metatable. -/
def newclass (name : Name) (r : Nat) : Table Fn :=
  ⟨fields [("__typename", .str name), ("__index", .table r), ("__factory", .fn (.factory r)), ("__init", .fn .init),
    ("new", .fn (.new r))], none⟩

namespace St

def raise (s : St) (msg : Bytes) : St := { s with out := .raised (some msg) }

def alloc (s : St) (t : Table Fn) : St :=
  { s with heap := { s.heap with tables := update s.heap.tables s.next t }, next := s.next + 1 }

def constructortbl (s : St) (metatable : Nat) : St := (s.alloc (behind metatable)).alloc (front s.next)

/-- `class.new` up to the parent: the table of the class, and its entries. -/
def register (s : St) (name : Name) : St :=
  { s.alloc (newclass name s.next) with
    classes := update s.classes name (some s.next)
    isofclass := update s.isofclass name (some fun n => n = name) }

def defined (s : St) (newclass : Nat) (name : Name) (parent : Option Name) : St :=
  let ct := s.next + 1
  { s.constructortbl newclass with
    ctors := (ct, name) :: s.ctors
    parent := update s.parent name (some parent)
    methods := update s.methods name fun m => if m = lit "__init" then .fn .init else .nil
    out := .returned (.table ct) }

end St

/-- The loop `while p do isofclass[p.__typename][name] = true; p = getmetatable(p) end`, and if it raises an error. It
goes on for ever if it takes more turns than there are tables. -/
def mark (h : Heap Fn) (name : Name) :
    Nat → (Name → Option (Name → Bool)) → Value → Option ((Name → Option (Name → Bool)) × Bool)
  | 0, _, _ => none
  | n + 1, iso, p =>
    if p.truthy then
      match gettable h p (event "__typename") with
      | .value (.str t) =>
        match iso t with
        | some names => mark h name n (update iso t (some (update names name true))) (h.getmetatable p)
        | none => some (iso, true)
      | _ => some (iso, true)
    else some (iso, false)

/-- `class.new` -/
def new (s : St) (name : Option Name) (parentname : Parent) : Option St :=
  match name with
  | none => some (s.raise (lit "class name must be a string"))
  | some name =>
    if (s.classes name).isSome then some (s.raise (lit "class <" ++ name ++ lit "> already exists"))
    else
      let r := s.next
      let s := s.register name
      match parentname with
      | .absent => some (s.defined r name none)
      | .other => some { s with out := .raised none }
      | .name p =>
        match s.classes p with
        | none => some (s.raise (lit "parent class <" ++ p ++ lit "> does not exist"))
        | some parent =>
          match s.heap.setmetatable (.table r) (.table parent) with
          | none => some { s with out := .raised none }
          | some h =>
            (mark h name (s.next + 1) s.isofclass (.table parent)).map fun m =>
              let s := { s with heap := h, isofclass := m.1 }
              if m.2 then { s with out := .raised none } else s.defined r name (some p)

/-- `newclass.__factory`, called through the field; `c` is the class that it is called for. -/
def instantiate (s : St) (cls : Value) (c : Name) : St :=
  match gettable s.heap cls (event "__factory") with
  | .value (.fn (.factory r)) =>
    let i := s.next
    let s := s.alloc ⟨fun _ => .nil, some r⟩
    { s with made := (i, c) :: s.made, out := .returned (.table i) }
  | _ => { s with out := .raised none }

/-- `class.factory` -/
def factory (s : St) (name : Option Name) : St :=
  match name with
  | none => s.raise (lit "class name must be a string")
  | some name =>
    match s.classes name with
    | none => s.raise (lit "unknown class <" ++ name ++ lit ">")
    | some r => instantiate s (.table r) name

/-- A call of a table that `class.new` has returned, up to `__init`. -/
def construct (s : St) (ct : Nat) (c : Name) : St :=
  match gettable s.heap (.table ct) (event "new") with
  | .value (.fn (.new r)) => instantiate s (.table r) c
  | _ => { s with out := .raised none }

def luatype : Value → Name
  | .nil => lit "nil"
  | .bool _ => lit "boolean"
  | .num _ => lit "number"
  | .str _ => lit "string"
  | .table _ => lit "table"
  | .fn _ => lit "function"

/-- `class.istype`; `none` is an error. -/
def istype (s : St) (obj : Value) (typename : Name) : Option Bool :=
  match obj, s.heap.getmetatable obj with
  | .table _, .table mt =>
    let objname := s.heap.rawget mt (event "__typename")
    if objname.truthy then
      match s.isofclass typename with
      | some valid =>
        match objname with
        | .str n => some (valid n)
        | _ => some false
      | none => some (objname = .str typename)
    else some (luatype obj = typename)
  | .table _, mt => if mt.truthy then none else some (luatype obj = typename)
  | _, _ => some (luatype obj = typename)

/-- The fields that `class.new` itself gives a class, and those by which Lua gets, sets and finds a metatable. -/
def own : List Name :=
  [lit "__typename", lit "__factory", lit "new", lit "__index", lit "__newindex", lit "__metatable"]

abbrev Method := {m : Name // m ∉ own}

inductive Act
  | new (name : Option Name) (parentname : Parent)
  /-- `C.m = v`, for a `C` that was returned -/
  | assign (ct : Nat) (m : Method) (v : Value)
  | construct (ct : Nat)
  | factory (name : Option Name)
  /-- `self[k] = v` -/
  | store (i : Nat) (k v : Value)

/-- An assignment; a function that is called for it goes on by itself. -/
def put (s : St) (t k v : Value) : St :=
  match settable s.heap t k v with
  | .done h => { s with heap := h, out := .nothing }
  | .raised => { s with out := .raised none }
  | .called _ _ _ _ => { s with out := .nothing }

def step (s : St) : Act → Option St
  | .new name parentname => new s name parentname
  | .assign ct m v =>
    (s.ctors.lookup ct).map fun c =>
      let s := put s (.table ct) (.str m) v
      { s with methods := update s.methods c (update (s.methods c) m v) }
  | .construct ct => (s.ctors.lookup ct).map (construct s ct)
  | .factory name => some (factory s name)
  | .store i k v => if (s.made.lookup i).isSome then some (put s (.table i) k v) else none

/-! ### What the classes are -/

/-- The classes from one to its root. -/
inductive Path (parent : Name → Option (Option Name)) : Name → List Name → Prop
  | root {c : Name} : parent c = some none → Path parent c [c]
  | cons {c p : Name} {l : List Name} : parent c = some (some p) → Path parent p l → Path parent c (c :: l)

/-- What the nearest class has that has the method. -/
def nearest (methods : Name → Name → Value) (m : Name) : List Name → Value
  | [] => .nil
  | c :: l => if methods c m = .nil then nearest methods m l else methods c m

/-- An instance of `c`. -/
structure Instance (s : St) (i : Nat) (c : Name) (l : List Name) : Prop where
  path : Path s.parent c l
  istype : ∀ t, (s.parent t).isSome → istype s (.table i) t = some (decide (t ∈ l))
  method : ∀ m : Method, s.heap.rawget i (.str m) = .nil →
    gettable s.heap (.table i) (.str m) = .value (nearest s.methods m l)

structure Right (s : St) : Prop where
  classes : ∀ c, (s.classes c).isSome ↔ (s.parent c).isSome
  made : ∀ x ∈ s.made, ∃ l, Instance s x.1 x.2 l

/-- A definition that fails leaves everything as it was. -/
def Kept (s : St) (a : Act) (s' : St) : Prop :=
  match a, s'.out with
  | .new _ _, .raised _ => s'.classes = s.classes ∧ s'.isofclass = s.isofclass ∧ s'.heap = s.heap
  | _, _ => True

/-- If the name is free, the parent is a class, with fewer than 99 classes on its path. -/
def Meets (s : St) : Act → Prop
  | .new (some name) (.name p) => s.parent name = none → ∃ l, Path s.parent p l ∧ l.length < 99
  | .new (some name) .other => s.parent name ≠ none
  | _ => True

end Node9.Class
