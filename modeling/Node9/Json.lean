import Node9.LuaNumber

/-!
# JSON (`fs/os/lib/json.lua`)

`encode` works on a heap: a table is a reference to its pairs, in the order in which `pairs` yields them, so what
is proved for every heap is proved for every order. What `decode` makes is new and reached once, so its tables
are their pairs (`Value`).

Strings are bytes. A position in the text is what is left from there on; `DecodeError.message` counts it back.
Recursion is bounded by an argument: the decoder by the length of the text, the encoder by the number of tables,
or by the calls that the Lua stack has room for.
-/

namespace Node9.Json
open Buf Rfc8259 Lua

def lit (s : String) : Bytes := s.toList.map fun x => UInt8.ofNat x.toNat

abbrev Ref := Nat

inductive Opaque
  | function
  | userdata
  | thread
  /-- A null pointer is equal to `nil`. -/
  | cdata (null : Bool)
  deriving DecidableEq

inductive Key
  | num (n : Number)
  | str (s : Bytes)
  | bool (b : Bool)
  | table (r : Ref)
  | opaque_ (t : Opaque)
  deriving DecidableEq

/-- A value that `encode` is given. -/
inductive Val
  | nil
  | bool (b : Bool)
  | num (n : Number)
  | str (s : Bytes)
  | table (r : Ref)
  | opaque_ (t : Opaque)
  deriving DecidableEq

abbrev Heap := List (List (Key × Val))

/-- A value that `decode` makes. -/
inductive Value
  | nil
  | bool (b : Bool)
  | num (n : Number)
  | str (s : Bytes)
  | table (es : List (Key × Value))

def Opaque.name : Opaque → Bytes
  | function => lit "function"
  | userdata => lit "userdata"
  | thread => lit "thread"
  | cdata _ => lit "cdata"

def Key.type : Key → Bytes
  | num _ => lit "number"
  | str _ => lit "string"
  | bool _ => lit "boolean"
  | table _ => lit "table"
  | opaque_ t => t.name

inductive EncodeError
  | nan
  | infinity
  | circular
  | key (type : Bytes)
  | type (type : Bytes)
  /-- the argument that bounds the recursion is used up: `stack overflow`, if it is the room on the stack -/
  | fuel
  deriving DecidableEq

def EncodeError.message : EncodeError → Bytes
  | nan => lit "cannot encode NaN as JSON"
  | infinity => lit "cannot encode Infinity as JSON"
  | circular => lit "cannot encode circular table reference"
  | key t => lit "JSON object keys must be strings, got " ++ t
  | type t => lit "cannot encode value of type '" ++ t ++ lit "'"
  | fuel => []

def escapes : List (UInt8 × UInt8) :=
  [(quote, quote), (backslash, backslash), (0x08, 0x62), (0x0c, 0x66), (lineFeed, 0x6e), (carriageReturn, 0x72),
    (tab, 0x74)]

/-- A lower case digit of `%x`. -/
def hexDigit (d : Nat) : UInt8 := if d < 10 then zero + UInt8.ofNat d else 0x61 + UInt8.ofNat (d - 10)

/-- `%c`, of a byte -/
def isCntrl (b : UInt8) : Bool := isControl b || b == 0x7f

def escape (b : UInt8) : Bytes :=
  if isCntrl b || b == quote || b == backslash then
    match escapes.lookup b with
    | some e => [backslash, e]
    | none => [backslash, letterU, zero, zero, hexDigit (b.toNat / 16), hexDigit (b.toNat % 16)]
  else [b]

def escape_string (s : Bytes) : Bytes := s.flatMap escape

def arrayLoop {α : Type} : List (Key × α) → Number → Nat → Bool
  | [], max, count => max.eq (.ofNat count)
  | (.num k, _) :: es, max, count =>
    if !k.whole || k.lt (.ofNat 1) then false else arrayLoop es (if max.lt k then k else max) (count + 1)
  | _ :: _, _, _ => false

def is_array {α : Type} (es : List (Key × α)) : Bool := arrayLoop es (.ofNat 0) 0

/-- `t[i]` -/
def index (es : List (Key × Val)) (i : Nat) : Val :=
  match es.find? (fun e => match e.1 with
    | .num k => k.eq (.ofNat i)
    | _ => false) with
  | some e => e.2
  | none => .nil

def borderLoop (es : List (Key × Val)) : Nat → Nat → Nat
  | 0, i => i
  | n + 1, i => if index es (i + 1) = .nil then i else borderLoop es n (i + 1)

/-- `#t`: the first index with nothing behind it. -/
def border (es : List (Key × Val)) : Nat := borderLoop es es.length 0

def rep (s : Bytes) (n : Nat) : Bytes := (List.replicate n s).flatten

/-- The items of an array or an object between its brackets. -/
def bracket (indent : Option Bytes) (level : Nat) (left right : UInt8) (items : List Bytes) : Bytes :=
  match indent with
  | none => left :: List.intercalate [valueSeparator] items ++ [right]
  | some indent =>
    if items.isEmpty then [left, right]
    else left :: lineFeed :: List.intercalate [valueSeparator, lineFeed] items ++ lineFeed :: rep indent level ++
      [right]

def inner (indent : Option Bytes) (level : Nat) : Bytes :=
  match indent with
  | none => []
  | some indent => rep indent (level + 1)

def colon (indent : Option Bytes) : Bytes := if indent.isSome then [nameSeparator, space] else [nameSeparator]

/-- `table.sort` of strings. -/
def sort (items : List Bytes) : List Bytes := items.mergeSort fun a b => !b.lex a

def encode_number (val : Number) : Except EncodeError Bytes :=
  match val with
  | .nan => .error .nan
  | .inf _ => .error .infinity
  | .fin neg x => if x.den = 1 ∧ x ≤ (10 ^ 15 : Nat) then .ok (format0f neg x) else .ok (format14g neg x)

def encode_value (h : Heap) (indent : Option Bytes) : Nat → Val → Nat → List Ref → Except EncodeError Bytes
  | 0, _, _, _ => .error .fuel
  | _ + 1, .nil, _, _ => .ok nullLit
  | _ + 1, .bool b, _, _ => .ok (if b then trueLit else falseLit)
  | _ + 1, .num n, _, _ => encode_number n
  | _ + 1, .str s, _, _ => .ok (quote :: escape_string s ++ [quote])
  | _ + 1, .opaque_ t, _, _ => if t = .cdata true then .ok nullLit else .error (.type t.name)
  | n + 1, .table r, level, seen =>
    if seen.contains r then .error .circular
    else
      let es := h.getD r []
      if is_array es then do
        let items ← (List.range (border es)).mapM fun i => do
          let s ← encode_value h indent n (index es (i + 1)) (level + 1) (r :: seen)
          pure (inner indent level ++ s)
        pure (bracket indent level beginArray endArray items)
      else do
        let items ← es.mapM fun e =>
          match e.1 with
          | .str k => do
            let s ← encode_value h indent n e.2 (level + 1) (r :: seen)
            pure (inner indent level ++ quote :: escape_string k ++ quote :: colon indent ++ s)
          | k => throw (.key k.type)
        pure (bracket indent level beginObject endObject (if indent.isSome then sort items else items))

def encode (h : Heap) (value : Val) : Except EncodeError Bytes := encode_value h none (h.length + 1) value 0 []

def encode_pretty (h : Heap) (value : Val) (indent : Option Bytes) : Except EncodeError Bytes :=
  encode_value h (some (indent.getD [space, space])) (h.length + 1) value 0 []

inductive Trouble
  | unterminated
  | hex (s : Bytes)
  | escape (s : Bytes)
  | comma (right : UInt8)
  | name
  | colon
  | number
  | ended
  | token
  | unexpected (b : UInt8)
  | trailing

def Trouble.text : Trouble → Bytes
  | unterminated => lit "unterminated string"
  | hex s => lit "invalid \\u escape: " ++ s
  | escape s => lit "invalid escape '\\" ++ s ++ lit "'"
  | comma right => lit "expected ',' or '" ++ right :: lit "'"
  | name => lit "expected string key"
  | colon => lit "expected ':' after key"
  | number => lit "invalid number"
  | ended => lit "unexpected end of input"
  | token => lit "invalid token"
  | unexpected b => lit "unexpected character '" ++ b :: lit "'"
  | trailing => lit "trailing garbage"

inductive DecodeError
  /-- at `rest` -/
  | at_ (rest : Bytes) (trouble : Trouble)
  /-- not an error of the program: the argument that bounds the recursion is used up -/
  | fuel

def DecodeError.message (str : Bytes) : DecodeError → Bytes
  | at_ rest t =>
    let read := str.take (str.length - rest.length)
    lit "JSON decode error at line " ++ decimal (read.count lineFeed + 1) ++ lit ", position " ++
      decimal (read.length + 1) ++ lit ": " ++ t.text
  | fuel => []

abbrev ReadValue := Except DecodeError (Value × Bytes)

def decode_error {α : Type} (s : Bytes) (t : Trouble) : Except DecodeError (α × Bytes) := .error (.at_ s t)

def Value.isNil : Value → Bool
  | nil => true
  | _ => false

/-- `t[k] = v` -/
def assign (es : List (Key × Value)) (k : Key) (v : Value) : List (Key × Value) :=
  let es := es.filter fun e => e.1 ≠ k
  if v.isNil then es else es ++ [(k, v)]

def skip_ws (s : Bytes) : Bytes := s.dropWhile isWs

def unescape (e : UInt8) : Option UInt8 :=
  [(quote, quote), (backslash, backslash), (0x2f, 0x2f), (0x62, 0x08), (0x66, 0x0c), (0x6e, lineFeed),
    (0x72, carriageReturn), (0x74, tab)].lookup e

def hexValue (b : UInt8) : Nat :=
  if isDigit b then b.toNat - 0x30 else if b < 0x61 then b.toNat - 0x41 + 10 else b.toNat - 0x61 + 10

/-- `tonumber(hex, 16)` -/
def tonumber16 (s : Bytes) : Nat := s.foldl (fun n b => 16 * n + hexValue b) 0

/-- A code point from four digits, as UTF-8. -/
def utf8 (cp : Nat) : Bytes :=
  if cp < 0x80 then [UInt8.ofNat cp]
  else if cp < 0x800 then [UInt8.ofNat (0xC0 + cp / 64), UInt8.ofNat (0x80 + cp % 64)]
  else [UInt8.ofNat (0xE0 + cp / 4096), UInt8.ofNat (0x80 + cp / 64 % 64), UInt8.ofNat (0x80 + cp % 64)]

def ordinary (b : UInt8) : Bool := b != quote && b != backslash

def stringLoop : Nat → Bytes → Bytes → Except DecodeError (Bytes × Bytes)
  | 0, _, _ => .error .fuel
  | n + 1, s, parts =>
    match s.dropWhile ordinary with
    | [] => decode_error s .unterminated
    | b :: t =>
      let parts := parts ++ s.takeWhile ordinary
      if b = quote then .ok (parts, t)
      else
        match t with
        | [] => decode_error (b :: t) (.escape [])
        | e :: u =>
          match unescape e with
          | some x => stringLoop n u (parts ++ [x])
          | none =>
            if e = letterU then
              if (u.take 4).length = 4 ∧ (u.take 4).all isHex then
                stringLoop n (u.drop 4) (parts ++ utf8 (tonumber16 (u.take 4)))
              else decode_error (b :: t) (.hex (u.take 4))
            else decode_error (b :: t) (.escape [e])

def decode_string (s : Bytes) : Except DecodeError (Bytes × Bytes) := stringLoop (s.length + 1) (s.drop 1) []

section Nested
variable (decode_value : Bytes → ReadValue)

def arrayItems : Nat → Bytes → List (Key × Value) → Nat → ReadValue
  | 0, _, _, _ => .error .fuel
  | m + 1, s, arr, n => do
    let (val, s) ← decode_value s
    let arr := assign arr (.num (.ofNat (n + 1))) val
    match skip_ws s with
    | [] => decode_error [] (.comma endArray)
    | b :: t =>
      if b = endArray then .ok (.table arr, t)
      else if b ≠ valueSeparator then decode_error (b :: t) (.comma endArray)
      else arrayItems m (skip_ws t) arr (n + 1)

def decode_array (s : Bytes) : ReadValue :=
  let t := skip_ws (s.drop 1)
  if t.head? = some endArray then .ok (.table [], t.drop 1) else arrayItems decode_value s.length t [] 0

def objectItems : Nat → Bytes → List (Key × Value) → ReadValue
  | 0, _, _ => .error .fuel
  | m + 1, s, obj => do
    let s := skip_ws s
    if s.head? ≠ some quote then decode_error s .name
    else
      let (key, s) ← decode_string s
      let s := skip_ws s
      if s.head? ≠ some nameSeparator then decode_error s .colon
      else
        let (val, s) ← decode_value (skip_ws (s.drop 1))
        let obj := assign obj (.str key) val
        match skip_ws s with
        | [] => decode_error [] (.comma endObject)
        | b :: t =>
          if b = endObject then .ok (.table obj, t)
          else if b ≠ valueSeparator then decode_error (b :: t) (.comma endObject)
          else objectItems m t obj

def decode_object (s : Bytes) : ReadValue :=
  let t := skip_ws (s.drop 1)
  if t.head? = some endObject then .ok (.table [], t.drop 1) else objectItems decode_value s.length t []

end Nested

/-- An optional byte of a pattern, and what is left. -/
def optional (p : UInt8 → Bool) (s : Bytes) : Bytes × Bytes :=
  match s with
  | [] => ([], [])
  | b :: t => if p b then ([b], t) else ([], s)

/-- What `^-?%d+%.?%d*[eE]?[+-]?%d*` matches, and what is left. -/
def matchNumber (s : Bytes) : Option (Bytes × Bytes) :=
  let (neg, s) := optional (· == minus) s
  let int := s.takeWhile isDigit
  let (dot, s) := optional (· == point) (s.dropWhile isDigit)
  let frac := s.takeWhile isDigit
  let (e, s) := optional isE (s.dropWhile isDigit)
  let (sgn, s) := optional isSign s
  let exp := s.takeWhile isDigit
  if int.isEmpty then none else some (neg ++ int ++ dot ++ frac ++ e ++ sgn ++ exp, s.dropWhile isDigit)

def decode_number (s : Bytes) : ReadValue :=
  match matchNumber s with
  | none => decode_error s .number
  | some (text, t) =>
    match tonumber text with
    | none => decode_error s .number
    | some n => .ok (.num n, t)

def token (lit : Bytes) (v : Value) (s : Bytes) : ReadValue :=
  if s.take lit.length = lit then .ok (v, s.drop lit.length) else decode_error s .token

def decode_value : Nat → Bytes → ReadValue
  | 0, _ => .error .fuel
  | n + 1, s =>
    match skip_ws s with
    | [] => decode_error [] .ended
    | b :: t =>
      if b = quote then (decode_string (b :: t)).map fun r => (.str r.1, r.2)
      else if b = beginArray then decode_array (decode_value n) (b :: t)
      else if b = beginObject then decode_object (decode_value n) (b :: t)
      else if b = 0x74 then token trueLit (.bool true) (b :: t)
      else if b = 0x66 then token falseLit (.bool false) (b :: t)
      else if b = 0x6e then token nullLit .nil (b :: t)
      else if b = minus || isDigit b then decode_number (b :: t)
      else decode_error (b :: t) (.unexpected b)

def decode (str : Bytes) : Except DecodeError Value := do
  let (val, s) ← decode_value (str.length + 1) str
  let s := skip_ws s
  if s ≠ [] then .error (.at_ s .trailing) else pure val

def is_valid (str : Bytes) : Bool := (decode str).isOk

end Node9.Json
