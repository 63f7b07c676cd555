/-
  Fabrika.Db.JsonColumn — JSON columns at the data layer's boundary (db/json.ts, and `parseList`
  of db/builtins.ts).

  A write takes any JavaScript value. Objects live in a heap and may contain themselves; an
  object is seen through its own property descriptors only, so no getter, `toJSON` or method of
  it runs. A proxy, whose traps would run, is no object of this heap. Strings are their code
  units; a number is finite, `-0`, infinite or NaN.

  Every refusal here is a `QueryRefusedError` whose reason is `invalid_value`.
-/

import Fabrika.Lib.JsonParse
import Fabrika.Lib.Utf16

namespace Fabrika.Db.JsonColumn

open Fabrika.Lib
open Fabrika.Lib.Double (Number)

/-! ## Values and objects -/

/-- A JavaScript string. -/
abbrev JsString := { s : Units // ∀ u ∈ s, u < 0x10000 }

inductive Value (Ref : Type)
  | undefined
  | null
  | bool (value : Bool)
  | num (value : Number)
  | str (value : JsString)
  | symbol
  | bigint
  | function
  | object (ref : Ref)

/-- An own property, as `Object.getOwnPropertyDescriptor` shows it. -/
inductive Descriptor (Ref : Type)
  | value (value : Value Ref)
  | accessor

inductive Prototype
  | objectPrototype
  | arrayPrototype
  | null
  | other
  deriving DecidableEq

/-- An array: a descriptor or a hole for each index, and the names of the own properties
    besides the indexes and `length`. -/
structure ArrayObject (Ref : Type) where
  prototype : Prototype
  symbols : Nat
  elements : List (Option (Descriptor Ref))
  others : List Units

/-- Any other object, its own properties in the order objects list them. -/
structure PlainObject (Ref : Type) where
  prototype : Prototype
  symbols : Nat
  properties : List (Units × Descriptor Ref)
  nodup : (properties.map Prod.fst).Nodup
  ordered : Json.ownOrder properties = properties
  keys : ∀ p ∈ properties, ∀ u ∈ p.1, u < 0x10000

inductive Obj (Ref : Type)
  | array (array : ArrayObject Ref)
  | other (object : PlainObject Ref)

abbrev Heap (Ref : Type) := Ref → Obj Ref

/-! ## Refusals -/

structure QueryRefusedError where
  message : Units
  deriving DecidableEq

abbrev Checked := Except QueryRefusedError

def refusal (where_ detail : Units) : QueryRefusedError :=
  ⟨where_ ++ codeUnits " takes a JSON value (" ++ detail ++ codeUnits ")"⟩

def maxJsonDepth : Nat := 64

/-! ## Strings -/

/-- `LONE_SURROGATE`, from a unit on; `afterHigh` says whether a high surrogate precedes it. -/
def loneSurrogateFrom (afterHigh : Bool) : Units → Bool
  | [] => false
  | u :: rest =>
    (Json.isHighSurrogate u && !rest.head?.any Json.isLowSurrogate) || (Json.isLowSurrogate u && !afterHigh) ||
      loneSurrogateFrom (Json.isHighSurrogate u) rest

def loneSurrogate (value : Units) : Bool := loneSurrogateFrom false value

def text (value where_ : Units) : Checked Units :=
  if value.contains 0 || loneSurrogate value then
    throw (refusal where_ (codeUnits "a string or key holds no NUL character and no lone surrogate"))
  else pure (Json.quote value)

/-! ## Lists -/

variable {Ref : Type} {α : Type}

/-- How many names `Object.getOwnPropertyNames` lists of an array. -/
def ArrayObject.ownNames (array : ArrayObject Ref) : Nat := (array.elements.filter Option.isSome).length + 1 + array.others.length

def parseElements (parse : Value Ref → Checked α) : List (Option (Descriptor Ref)) → Checked (Option (List α))
  | [] => pure (some [])
  | some (.value value) :: rest => do
    let item ← parse value
    let items ← parseElements parse rest
    pure (items.map (item :: ·))
  | some .accessor :: _ => pure none
  | none :: _ => pure none

def parseList (array : ArrayObject Ref) (parse : Value Ref → Checked α) : Checked (Option (List α)) :=
  if array.prototype ≠ .arrayPrototype ∨ array.symbols ≠ 0 then pure none
  else if array.ownNames ≠ array.elements.length + 1 then pure none
  else parseElements parse array.elements

/-! ## Writing -/

/-- A number's text; `-0` is written `0`. -/
def numberText (where_ : Units) : Number → Checked Units
  | .nan => throw (refusal where_ (codeUnits "a number is finite"))
  | .infinite _ => throw (refusal where_ (codeUnits "a number is finite"))
  | .negZero => pure [0x30]
  | .finite x => pure x.text

def notJson (where_ : Units) (typeof : String) : QueryRefusedError :=
  refusal where_ (codeUnits typeof ++ codeUnits " is not JSON")

def itemOf (write : Value Ref → Checked Units) (where_ : Units) : Value Ref → Checked Units
  | .undefined => throw (refusal where_ (codeUnits "an array holds no undefined"))
  | item => write item

def writtenArray (write : Value Ref → Checked Units) (where_ : Units) (array : ArrayObject Ref) : Checked Units := do
  match ← parseList array (itemOf write where_) with
  | none => throw (refusal where_ (codeUnits "an array is a plain array without holes or accessors"))
  | some items => pure (0x5b :: ([0x2c].intercalate items ++ [0x5d]))

/-- The members from one on; `first` says whether none has been written yet. -/
def writtenMembers (write : Value Ref → Checked Units) (where_ : Units) : Bool → List (Units × Descriptor Ref) → Checked Units
  | _, [] => pure []
  | _, (key, .accessor) :: _ => throw (refusal where_ (key ++ codeUnits " is an accessor"))
  | first, (_, .value .undefined) :: rest => writtenMembers write where_ first rest
  | first, (key, .value member) :: rest => do
    let name ← text key where_
    let value ← write member
    let more ← writtenMembers write where_ false rest
    pure ((if first then [] else [0x2c]) ++ (name ++ 0x3a :: (value ++ more)))

def writtenObject (write : Value Ref → Checked Units) (where_ : Units) (object : PlainObject Ref) : Checked Units :=
  if object.prototype ≠ .objectPrototype ∧ object.prototype ≠ .null then
    throw (refusal where_ (codeUnits "an object is a plain object, not an instance of a class such as a Date or a Map"))
  else if 0 < object.symbols then throw (refusal where_ (codeUnits "an object has string keys only"))
  else do
    let members ← writtenMembers write where_ true object.properties
    pure (0x7b :: (members ++ [0x7d]))

/-- `written`; `left` is how much deeper than this value one may be, `MAX_JSON_DEPTH - depth`. -/
def written (heap : Heap Ref) (where_ : Units) : Nat → Value Ref → Checked Units
  | _, .str value => text value.1 where_
  | _, .null => pure (codeUnits "null")
  | _, .bool value => pure (codeUnits (if value then "true" else "false"))
  | _, .num value => numberText where_ value
  | _, .undefined => throw (notJson where_ "undefined")
  | _, .symbol => throw (notJson where_ "symbol")
  | _, .bigint => throw (notJson where_ "bigint")
  | _, .function => throw (notJson where_ "function")
  | 0, .object _ => throw (refusal where_ (codeUnits "nested at most 64 deep, and never containing itself"))
  | left + 1, .object ref =>
    match heap ref with
    | .array array => writtenArray (written heap where_ left) where_ array
    | .other object => writtenObject (written heap where_ left) where_ object

def jsonInput (heap : Heap Ref) (value : Value Ref) (where_ : Units) : Checked Units := written heap where_ maxJsonDepth value

/-! ## Reading on SQLite -/

/-- What a stored JSON column holds on SQLite. -/
inductive Stored
  | num (value : Number)
  | str (value : Units)
  | other

def sqliteJson (value : Stored) (where_ : Units) : Except Units (Json Number) :=
  let refused := where_ ++ codeUnits " came back as something other than JSON text, the form a JSON column is stored in on SQLite"
  match value with
  | .num value => pure (.num value)
  | .str value =>
    match Json.parse value with
    | some found => pure found
    | none => throw refused
  | .other => throw refused

end Fabrika.Db.JsonColumn
