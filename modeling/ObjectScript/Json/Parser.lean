import ObjectScript.Json.Tables
import Mathlib.Logic.Function.Basic
/-!
# The json parser

`parseJSON` reads the text one UTF-16 unit at a time.  A step looks up the table and either changes the state, collecting a
scalar in a buffer, or performs an action on the stack of modes and on the stack of containers.  Where an index runs out of
one of the stacks a step has no result.

The containers live in the core: here it counts them, keeps the retain pool and records the calls that fill them.
-/
namespace ObjectScript
namespace Json

/-- `id` of a value of the core; equal strings are one value. -/
inductive Ref where
  | zero
  | container (n : Nat)
  | string (bytes : List Nat)
deriving DecidableEq, Repr

/-- What the parser pushes; a number is given by the text that `strToFloat` gets. -/
inductive Value where
  | null
  | bool (b : Bool)
  | number (text : List Nat)
  | string (bytes : List Nat)
  | ref (r : Ref)
deriving DecidableEq, Repr

inductive Key where
  | number (text : List Nat)
  | name (bytes : List Nat)
deriving DecidableEq, Repr

/-- What the parser calls to make and fill a container. -/
inductive Call where
  | newObject (n : Nat)
  | newArray (n : Nat)
  | addProperty (root : Ref) (value : Value)
  | setProperty (root : Ref) (key : Key) (value : Value)
deriving DecidableEq, Repr

/-- The part of the core that the parser uses, and what its two buffers find in memory that nothing was written to. -/
structure Core where
  created : Nat
  retainPool : Ref → Nat
  calls : List Call
  memory : Nat → Nat → Nat

namespace Core

variable (core : Core)

def new : Core := { created := 0, retainPool := fun _ => 0, calls := [], memory := fun _ _ => 0 }

def retainValueById (r : Ref) : Core :=
  if r = .zero then core else { core with retainPool := Function.update core.retainPool r (core.retainPool r + 1) }

def releaseValueById (r : Ref) : Core :=
  if r = .zero then core else { core with retainPool := Function.update core.retainPool r (core.retainPool r - 1) }

def call (c : Call) : Core := { core with calls := c :: core.calls }

def newObject : Core × Ref :=
  ({ core with created := core.created + 1, calls := .newObject core.created :: core.calls }, .container core.created)

def newArray : Core × Ref :=
  ({ core with created := core.created + 1, calls := .newArray core.created :: core.calls }, .container core.created)

end Core

/-- `OS_JSON_ERROR_*` -/
inductive ErrorCode where
  | none | depth | stateMismatch | ctrlChar | syntax'
deriving DecidableEq, Repr

/-- The type of the scalar in the buffer, in the order of the source; -1 is `unset`. -/
inductive ScalarType where
  | unset | null | bool | number | string
deriving DecidableEq, Repr

def ScalarType.rank : ScalarType → Nat
  | unset => 0 | null => 1 | bool => 2 | number => 3 | string => 4

instance : LT ScalarType := ⟨fun a b => a.rank < b.rank⟩
instance (a b : ScalarType) : Decidable (a < b) := inferInstanceAs (Decidable (a.rank < b.rank))

/-- `Core::Buffer`; `fresh` is what it finds in new memory. -/
structure Buffer where
  bytes : List Nat
  capacity : Nat
  fresh : Nat → Nat

namespace Buffer

def new (fresh : Nat → Nat) : Buffer := { bytes := [], capacity := 0, fresh := fresh }

def clear (buf : Buffer) : Buffer := { buf with bytes := [], capacity := 0 }

def reserveCapacity (buf : Buffer) (newCapacity : Nat) : Nat :=
  if buf.capacity < newCapacity then max (if 0 < buf.capacity then buf.capacity * 2 else 4) newCapacity else buf.capacity

def append (buf : Buffer) (c : Nat) : Buffer :=
  { buf with bytes := buf.bytes ++ [c], capacity := buf.reserveCapacity (buf.bytes.length + 1) }

/-- `count` goes back by three and `pos` does not, so the next byte is put behind the three.  They are lost where it takes a
new block of memory, to which only `count` bytes are copied. -/
def lowerCount (buf : Buffer) : Buffer :=
  if buf.capacity < buf.bytes.length + 1 then
    { buf with bytes := buf.bytes.take (buf.bytes.length - 3) ++ [buf.fresh 0, buf.fresh 1, buf.fresh 2],
               fresh := fun i => buf.fresh (i + 3) }
  else buf

end Buffer

/-- `JSON_parser_struct` with the variables of `parseJSON`. -/
structure JsonParser where
  state : State
  depth : Nat
  top : Int
  errorCode : ErrorCode
  stack : List Mode
  zstack : List Ref
  buf : Buffer
  key : Buffer
  utf16 : Nat
  type : ScalarType
  keyType : ScalarType
  z : Ref
  core : Core

/-- Reading and writing an array; nothing comes back outside of it. -/
def read {α : Type} (xs : List α) (i : Int) : Option α := if 0 ≤ i then xs[i.toNat]? else none

def write {α : Type} (xs : List α) (i : Int) (x : α) : Option (List α) :=
  if 0 ≤ i ∧ i.toNat < xs.length then some (xs.set i.toNat x) else none

/-- A text as far as its first zero (`toChar`). -/
def cstr (bytes : List Nat) : List Nat := bytes.takeWhile (· ≠ 0)

def propertyKey (assoc : Bool) (keyType : ScalarType) (key : List Nat) : Key :=
  if keyType = .number then .number (cstr key)
  else if assoc = false then .name (if key = [] then [95, 101, 109, 112, 116, 121, 95] else cstr key)
  else .name (cstr key)

def utf16ToUtf8 (buf : Buffer) (utf16 : Nat) : Buffer :=
  let bytes := buf.bytes
  if utf16 < 0x80 then buf.append utf16
  else if utf16 < 0x800 then (buf.append (0xc0 ||| (utf16 >>> 6))).append (0x80 ||| (utf16 &&& 0x3f))
  else if utf16 &&& 0xfc00 = 0xdc00 ∧ 3 ≤ bytes.length ∧ bytes.getD (bytes.length - 3) 0 = 0xed ∧
      bytes.getD (bytes.length - 2) 0 &&& 0xf0 = 0xa0 ∧ bytes.getD (bytes.length - 1) 0 &&& 0xc0 = 0x80 then
    -- the second half of a surrogate pair
    let utf32 := (((bytes.getD (bytes.length - 2) 0 &&& 0xf) <<< 16) ||| ((bytes.getD (bytes.length - 1) 0 &&& 0x3f) <<< 10) |||
      (utf16 &&& 0x3ff)) + 0x10000
    (((buf.lowerCount.append (0xf0 ||| (utf32 >>> 18))).append (0x80 ||| ((utf32 >>> 12) &&& 0x3f))).append
      (0x80 ||| ((utf32 >>> 6) &&& 0x3f))).append (0x80 ||| (utf32 &&& 0x3f))
  else ((buf.append (0xe0 ||| (utf16 >>> 12))).append (0x80 ||| ((utf16 >>> 6) &&& 0x3f))).append (0x80 ||| (utf16 &&& 0x3f))

/-- `dehexChar`; only digits are asked for. -/
def dehexChar (c : Nat) : Nat :=
  if 48 ≤ c ∧ c ≤ 57 then c - 48
  else if 65 ≤ c ∧ c ≤ 70 then c - 55
  else if 97 ≤ c ∧ c ≤ 102 then c - 87
  else 0

def unescape (buf : Buffer) (c : Nat) : Buffer :=
  match c with
  | 98 => buf.append 8
  | 116 => buf.append 9
  | 110 => buf.append 10
  | 102 => buf.append 12
  | 114 => buf.append 13
  | c => utf16ToUtf8 buf c

def pushValue (buf : Buffer) : ScalarType → Value
  | .number => .number (cstr buf.bytes)
  | .string => .string buf.bytes
  | .bool => .bool (buf.bytes.head? = some 116)
  | _ => .null

namespace JsonParser

variable (p : JsonParser)

/-- `JSON_RESET_TYPE` -/
def resetType : JsonParser := { p with type := .unset, keyType := .string }

def topMode : Option Mode := read p.stack p.top
def topRef : Option Ref := read p.zstack p.top

/-- `push`: false when the stack is full, with `top` behind it. -/
def push (mode : Mode) : Option (Bool × JsonParser) :=
  let p := { p with top := p.top + 1 }
  if (p.depth : Int) ≤ p.top then some (false, { p with errorCode := .depth })
  else
    match write p.stack p.top mode with
    | none => none
    | some stack => some (true, { p with stack := stack })

def pop (mode : Mode) (release : Bool) : Option (Bool × JsonParser) :=
  if p.top < 0 then some (false, { p with errorCode := .stateMismatch })
  else
    match p.topMode with
    | none => none
    | some m =>
      if m ≠ mode then some (false, { p with errorCode := .stateMismatch })
      else if release then
        match p.topRef, write p.zstack p.top .zero with
        | some r, some zstack =>
          some (true, { p with core := p.core.releaseValueById r, zstack := zstack, top := p.top - 1 })
        | _, _ => none
      else some (true, { p with top := p.top - 1 })

/-- What a step comes to: the parse goes on, or fails. -/
inductive Outcome where
  | next (p : JsonParser)
  | fail (p : JsonParser)

/-- A `pop` that must succeed, and the state after it. -/
def popTo (mode : Mode) (state : State) : Option Outcome :=
  match p.pop mode true with
  | none => none
  | some (false, p) => some (.fail p)
  | some (true, p) => some (.next { p with state := state })

/-- `attachValue`: a container becomes part of the one below it. -/
def attachValue (assoc : Bool) (up cur : Int) : Option JsonParser :=
  match read p.zstack up, read p.zstack cur, read p.stack up with
  | some root, some child, some upMode =>
    some (match upMode with
      | .array => { p with core := p.core.call (.addProperty root (.ref child)) }
      | .object =>
        { p with core := p.core.call (.setProperty root (propertyKey assoc p.keyType p.key.bytes) (.ref child)),
                 key := p.key.clear }
      | _ => p)
  | _, _, _ => none

/-- The scalar in the buffer becomes a property of the object on top. -/
def setScalar (assoc : Bool) : Option JsonParser :=
  match p.topRef with
  | none => none
  | some root =>
    some { p with core := p.core.call (.setProperty root (propertyKey assoc p.keyType p.key.bytes) (pushValue p.buf p.type)),
                  key := p.key.clear }

/-- The scalar in the buffer becomes an element of the array on top. -/
def addScalar : Option JsonParser :=
  match p.topRef with
  | none => none
  | some root => some { p with core := p.core.call (.addProperty root (pushValue p.buf p.type)) }

/-- A new container takes the place on top of the stack, and becomes part of the one below. -/
def placeContainer (assoc : Bool) (r : Ref) : Option Outcome :=
  match p.topRef, write p.zstack p.top r with
  | some old, some zstack =>
    let q : JsonParser := { p with core := p.core.releaseValueById old, zstack := zstack }
    if 1 < q.top then (q.attachValue assoc (q.top - 1) q.top).map fun q => .next q.resetType else some (.next q.resetType)
  | _, _ => none

def openObject (assoc : Bool) : Option Outcome :=
  match p.push .key with
  | none => none
  | some (false, p) => some (.fail p)
  | some (true, p) =>
    let q : JsonParser := { p with state := .ob }
    if 0 < q.top then
      let made := if assoc = false then q.core.newObject else q.core.newArray
      let core := made.1.retainValueById made.2
      if q.top = 1 then { q with core := core.retainValueById made.2, z := made.2 }.placeContainer assoc made.2
      else { q with core := core }.placeContainer assoc made.2
    else some (.next q)

def openArray (assoc : Bool) : Option Outcome :=
  match p.push .array with
  | none => none
  | some (false, p) => some (.fail p)
  | some (true, p) =>
    let q : JsonParser := { p with state := .ar }
    if 0 < q.top then
      let made := q.core.newArray
      let core := made.1.retainValueById made.2
      if q.top = 1 then { q with core := core.releaseValueById made.2, z := made.2 }.placeContainer assoc made.2
      else { q with core := core }.placeContainer assoc made.2
    else some (.next q)

def closeObject (assoc : Bool) : Option Outcome :=
  if p.type = .unset then p.popTo .object .ok
  else
    match p.topMode with
    | none => none
    | some .object =>
      match p.setScalar assoc with
      | none => none
      | some p => { p with buf := p.buf.clear }.resetType.popTo .object .ok
    | some _ => p.popTo .object .ok

def closeArray : Option Outcome :=
  if p.type = .unset then p.popTo .array .ok
  else
    match p.topMode with
    | none => none
    | some .array =>
      match p.addScalar with
      | none => none
      | some p => { p with buf := p.buf.clear }.resetType.popTo .array .ok
    | some _ => p.popTo .array .ok

def quote : Option Outcome :=
  match p.topMode with
  | none => none
  | some .key => some (.next { p with state := .co, buf := p.key, key := p.buf }.resetType)
  | some .done =>
    if p.type = .string then
      some (.next { p with z := .string p.buf.bytes, core := p.core.retainValueById (.string p.buf.bytes), state := .ok })
    else some (.fail { p with errorCode := .syntax' })
  | some _ => some (.next { p with state := .ok })

def comma (assoc : Bool) : Option Outcome :=
  match p.topMode with
  | none => none
  | some .object =>
    match p.pop .object false with
    | some (true, q) =>
      match q.push .key with
      | some (true, q) =>
        let r := if p.type = .unset then some q else q.setScalar assoc
        r.map fun r => .next { r with state := .ke, buf := r.buf.clear }.resetType
      | some (false, q) => some (.next { q with buf := q.buf.clear }.resetType)
      | none => none
    | some (false, q) => some (.next { q with buf := q.buf.clear }.resetType)
    | none => none
  | some .array =>
    let r := if p.type = .unset then some p else p.addScalar
    r.map fun r => .next { r with state := .va, buf := r.buf.clear }.resetType
  | some _ => some (.fail { p with errorCode := .syntax' })

def colon : Option Outcome :=
  match p.pop .key false with
  | none => none
  | some (false, p) => some (.fail { p with errorCode := .syntax' })
  | some (true, p) =>
    match p.push .object with
    | none => none
    | some (false, p) => some (.fail { p with errorCode := .syntax' })
    | some (true, p) => some (.next { p with state := .va })

def numericColon : Option Outcome :=
  match p.topMode with
  | none => none
  | some .key => { { p with buf := p.key, key := p.buf }.resetType with keyType := .number }.colon
  | some _ => some (.fail { p with errorCode := .syntax' })

def act (assoc : Bool) : Action → Option Outcome
  | .emptyObject => p.popTo .key .ok
  | .closeObject => p.closeObject assoc
  | .closeArray => p.closeArray
  | .openObject => p.openObject assoc
  | .openArray => p.openArray assoc
  | .quote => p.quote
  | .comma => p.comma assoc
  | .colon => p.colon
  | .numericColon => p.numericColon

/-- What a change of state does to the scalar that is collected. -/
def collect (c : Nat) (cls : CharClass) (next : State) : JsonParser :=
  if p.type = .string then
    if next = .st ∧ p.state ≠ .u4 then
      if p.state ≠ .es then { p with buf := utf16ToUtf8 p.buf c } else { p with buf := unescape p.buf c }
    else if next = .u2 then { p with utf16 := dehexChar c <<< 12 }
    else if next = .u3 then { p with utf16 := p.utf16 + (dehexChar c <<< 8) }
    else if next = .u4 then { p with utf16 := p.utf16 + (dehexChar c <<< 4) }
    else if next = .st ∧ p.state = .u4 then
      { p with utf16 := p.utf16 + dehexChar c, buf := utf16ToUtf8 p.buf (p.utf16 + dehexChar c) }
    else p
  else if p.type < .number ∧ (cls = .digit ∨ cls = .zero) then { p with type := .number, buf := p.buf.append c }
  else if p.type = .number ∧ next = .e1 then { p with type := .number, buf := p.buf.append c }
  else if p.type < .number ∧ cls = .point then { p with type := .number, buf := p.buf.append c }
  else if p.type < .string ∧ cls = .quote then { p with type := .string }
  else if p.type < .bool ∧ ((p.state = .t3 ∧ next = .ok) ∨ (p.state = .f4 ∧ next = .ok)) then { p with type := .bool }
  else if p.type < .null ∧ p.state = .n3 ∧ next = .ok then { p with type := .null }
  else if p.type ≠ .string ∧ CharClass.column .white < cls.column then { p with buf := utf16ToUtf8 p.buf c }
  else p

/-- One turn of the loop of `parseJSON`. -/
def step (assoc : Bool) (c : Nat) : Option Outcome :=
  match charClass c with
  | none => some (.fail { p with errorCode := .ctrlChar })
  | some cls =>
    match nextState p.state cls with
    | .error => some (.fail { p with errorCode := .syntax' })
    | .state next => some (.next { p.collect c cls next with state := next })
    | .action a => p.act assoc a

/-- The loop of `parseJSON`. -/
def loop (assoc : Bool) : JsonParser → List Nat → Option Outcome
  | p, [] => some (.next p)
  | p, c :: cs =>
    match p.step assoc c with
    | some (.next p) => loop assoc p cs
    | r => r

/-- `parseJSON`; whether the text was accepted, and the parser after it. -/
def parseJSON (assoc : Bool) (text : List Nat) : Option (Bool × JsonParser) :=
  match p.loop assoc text with
  | none => none
  | some (.fail p) => some (false, p)
  | some (.next p) =>
    if p.state = .ok then
      match p.pop .done true with
      | none => none
      | some (true, p) => some (true, p)
      | some (false, p) => some (false, { p with errorCode := .syntax' })
    else some (false, { p with errorCode := .syntax' })

def newJSONparser (core : Core) (depth : Nat) : Option JsonParser :=
  let p : JsonParser := { state := .go, depth := depth, top := -1, errorCode := .none, stack := List.replicate depth .array,
                          zstack := List.replicate depth .zero, buf := .new (core.memory 0), key := .new (core.memory 1),
                          utf16 := 0, type := .unset, keyType := .string, z := .zero, core := core }
  (p.push .done).map Prod.snd

/-- The loop of `freeJSONparser`, from `top` down. -/
def freeFrom (zstack : List Ref) (core : Core) : Nat → Option Core
  | 0 => some core
  | n + 1 =>
    match zstack[n]? with
    | none => none
    | some r => freeFrom zstack (core.releaseValueById r) n

def freeJSONparser : Option Core := freeFrom p.zstack p.core (p.top + 1).toNat

/-- The text is parsed, the value is pushed and released, and the parser is freed. -/
def decode (assoc : Bool) (text : List Nat) : Option (Option Ref × Core) :=
  match p.parseJSON assoc text with
  | none => none
  | some (true, p) => ({ p with core := p.core.releaseValueById p.z }.freeJSONparser).map fun core => (some p.z, core)
  | some (false, p) => p.freeJSONparser.map fun core => (none, core)

end JsonParser

/-- `jsonDecode` as far as the parser goes: the value that is pushed, none where the text is rejected, and the core. -/
def jsonDecode (core : Core) (depth : Nat) (assoc : Bool) (text : List Nat) : Option (Option Ref × Core) :=
  if depth = 0 then some (none, core)
  else
    match JsonParser.newJSONparser core depth with
    | none => none
    | some p => p.decode assoc text

end Json
end ObjectScript
