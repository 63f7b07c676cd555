/-
  Fabrika.App.SchemaValues — the JSON values a schema shape admits, as `schemaFromShape`
  (contract/schema-from-shape.ts) builds its schema, and the texts shapes are compared by
  (`canonicalShape` and `canonicalJson` of auth-core/contract-canonical.ts).

  An object's field is read as `value[name]`, so where the object has no such field zod asks its
  schema about what `Object.prototype` has there. String formats, patterns and steps are zod's
  and a parameter, `Checks`. `z.url` rewrites what it admits; no other check
  stands beside it in a shape that was described.
-/

import Fabrika.App.Params

namespace Fabrika.App.SchemaValues

open Fabrika.Lib
open Fabrika.App.Params (SchemaShape StringShape NumberShape StringFormat Scalar Fields SIGNED_TOKEN_MAX_LENGTH isInherited)

/-! ## What a shape admits -/

structure Checks where
  format : StringFormat → Units → Bool
  pattern : Units → Units → Bool
  multipleOf : Double → Double → Bool

/-- What a schema is asked about: a JSON value, `undefined` where a field is absent, or what every
    object inherits under the field's name. -/
inductive Wire
  | absent
  | json (value : Json Double)
  | inherited (name : Units)

def Wire.isAbsent : Wire → Bool
  | .absent => true
  | _ => false

/-- `value[name]` where the object has no such name. -/
def Wire.missing (name : Units) : Wire := if isInherited name then .inherited name else .absent

/-- `value[name]`. -/
def Wire.field (fields : List (Units × Json Double)) (name : Units) : Wire :=
  ((fields.lookup name).map .json).getD (.missing name)

/-- `Object.prototype[name]`; its own prototype is `null`. -/
def Wire.ofPrototype (name : Units) : Wire := if name = codeUnits "__proto__" then .json .null else .missing name

def onText (test : Units → Bool) : Wire → Bool
  | .json (.str text) => test text
  | _ => false

def onNumber (test : Double → Bool) : Wire → Bool
  | .json (.num x) => test x
  | _ => false

def onArray (test : List (Json Double) → Bool) : Wire → Bool
  | .json (.arr xs) => test xs
  | _ => false

def onEntries (test : List (Units × Json Double) → Bool) : Wire → Bool
  | .json (.obj fields) => test fields
  | _ => false

/-- An object by the names it lists and what it answers for a name. `__proto__` is itself an object
    and lists none; the other members of `Object.prototype` are functions. -/
def objectOf : Wire → Option (List Units × (Units → Wire))
  | .json (.obj fields) => some (fields.map Prod.fst, .field fields)
  | .inherited name => if name = codeUnits "__proto__" then some ([], .ofPrototype) else none
  | _ => none

def onObject (test : List Units → (Units → Wire) → Bool) (value : Wire) : Bool :=
  (objectOf value).any fun object => test object.1 object.2

def isNull : Wire → Bool
  | .json .null => true
  | _ => false

def isBoolean : Wire → Bool
  | .json (.bool _) => true
  | _ => false

def isScalar : Scalar → Wire → Bool
  | .text text, .json (.str other) => text = other
  | .number x, .json (.num y) => x.value = y.value
  | .boolean b, .json (.bool c) => b = c
  | .null, .json .null => true
  | _, _ => false

def admitsString (checks : Checks) (shape : StringShape) (text : Units) : Bool :=
  shape.format.all (checks.format · text) && shape.minLength.all (· ≤ text.length) && shape.maxLength.all (text.length ≤ ·)
    && shape.pattern.all (checks.pattern · text) && shape.startsWith.all (·.isPrefixOf text) &&
      shape.endsWith.all (·.isSuffixOf text)
    && shape.includes.all fun part => text.tails.any part.isPrefixOf

def isSafeInt (x : Double) : Bool := x.value.den = 1 && x.value.num.natAbs < 2 ^ 53

/-- `low < x`, or `low ≤ x` for a bound that is itself admitted. -/
def above (exclusive : Bool) (low x : Double) : Bool := if exclusive then low.value < x.value else low.value ≤ x.value

def admitsNumber (checks : Checks) (shape : NumberShape) (x : Double) : Bool :=
  (!shape.int || isSafeInt x) && shape.min.all (above shape.exclusiveMin · x) && shape.max.all (above shape.exclusiveMax x ·)
    && shape.multipleOf.all (checks.multipleOf · x)

mutual
/-- The keys a record must have, where its key schema lists them: zod asks for each of them and
    refuses every other. -/
def keyValues : SchemaShape → Option (List Units)
  | .enum values => if values = [] then none else some values
  | .literal (.text text) => some [text]
  | .union options => keyValuesOfAll options
  | _ => none
def keyValuesOfAll : List SchemaShape → Option (List Units)
  | [] => some []
  | option :: rest => (keyValues option).bind fun values => (keyValuesOfAll rest).map fun others => values ++ others
end

mutual
/-- Whether `recordKey(shape)` admits a key. -/
def admitsKey (checks : Checks) : SchemaShape → Units → Bool
  | .string shape, key => admitsString checks shape key
  | .enum values, key => values.contains key
  | .literal (.text text), key => text = key
  | .union options, key => someAdmitsKey checks options key
  | _, _ => false
def someAdmitsKey (checks : Checks) : List SchemaShape → Units → Bool
  | [], _ => false
  | option :: rest, key => admitsKey checks option key || someAdmitsKey checks rest key
end

mutual
/-- Whether `schemaFromShape(shape)` admits a value. -/
def admits (checks : Checks) : SchemaShape → Wire → Bool
  | .string shape, value => onText (admitsString checks shape) value
  | .number shape, value => onNumber (admitsNumber checks shape) value
  | .boolean, value => isBoolean value
  | .null, value => isNull value
  | .literal literal, value => isScalar literal value
  | .enum values, value => onText values.contains value
  | .array items minItems maxItems, value =>
    onArray (fun xs => minItems.all (· ≤ xs.length) && maxItems.all (xs.length ≤ ·) &&
      xs.all fun x => admits checks items (.json x)) value
  | .tuple items rest, value =>
    onArray (fun xs => admitsItems checks items xs && admitsRest checks rest (xs.drop items.length)) value
  | .record key shape, value =>
    match keyValues key with
    | some names =>
    onObject (fun listed get => names.all (fun name => admits checks shape (get name)) && listed.all names.contains) value
    -- A key of `Object.prototype` has a function, which is no value of any schema.
    | none =>
    onEntries (fun fields => fields.all fun field => admitsKey checks key field.1 && admits checks shape (.json field.2)) value
  | .object shapes, value =>
    onObject (fun listed get => listed.all (shapes.map Prod.fst).contains && admitsFields checks shapes get) value
  | .optional inner, value => value.isAbsent || admits checks inner value
  | .nullable inner, value => isNull value || admits checks inner value
  | .union options, value => someAdmits checks options value
  | .token _, value => onText (fun text => 1 ≤ text.length && text.length ≤ SIGNED_TOKEN_MAX_LENGTH) value
  | .file _, _ => false
/-- The fixed items of a tuple: one that is missing is absent. -/
def admitsItems (checks : Checks) : List SchemaShape → List (Json Double) → Bool
  | [], _ => true
  | item :: items, xs => admits checks item ((xs.head?.map .json).getD .absent) && admitsItems checks items xs.tail
/-- The values after them. -/
def admitsRest (checks : Checks) : Option SchemaShape → List (Json Double) → Bool
  | none, xs => xs.isEmpty
  | some rest, xs => xs.all fun x => admits checks rest (.json x)
/-- What the object answers for each declared field. -/
def admitsFields (checks : Checks) : List (Units × SchemaShape) → (Units → Wire) → Bool
  | [], _ => true
  | (name, shape) :: rest, get => admits checks shape (get name) && admitsFields checks rest get
def someAdmits (checks : Checks) : List SchemaShape → Wire → Bool
  | [], _ => false
  | option :: rest, value => admits checks option value || someAdmits checks rest value
end

/-! ## The text of a shape -/

/-- A number of a shape, by its text: a length or a bound. -/
structure NumberText where
  text : Units
  ne_nil : text ≠ []
  units : ∀ u ∈ text, isNumeralUnit u = true

instance : Numeral NumberText where
  text n := n.text
  text_ne_nil n := n.ne_nil
  isNumeralUnit_of_mem n := n.units
  text_inj m n h := by
    cases m
    cases n
    cases h
    rfl

def numberText {N : Type} [Numeral N] (n : N) : NumberText :=
  ⟨Numeral.text n, Numeral.text_ne_nil n, Numeral.isNumeralUnit_of_mem n⟩

def StringFormat.text : StringFormat → String
  | .uuid => "uuid"
  | .email => "email"
  | .url => "url"
  | .datetime => "datetime"
  | .date => "date"
  | .time => "time"
  | .duration => "duration"

def orNull {α : Type} (json : α → Json NumberText) : Option α → Json NumberText
  | none => .null
  | some value => json value

def numberJson {N : Type} [Numeral N] (n : N) : Json NumberText := .num (numberText n)

def scalarJson : Scalar → Json NumberText
  | .text text => .str text
  | .number x => numberJson x
  | .boolean b => .bool b
  | .null => .null

def stringJson (shape : StringShape) : Json NumberText :=
  Json.object
    [ ("type", Json.text "string"), ("format", orNull (fun format => Json.text (StringFormat.text format)) shape.format),
      ("minLength", orNull numberJson shape.minLength), ("maxLength", orNull numberJson shape.maxLength),
      ("pattern", orNull .str shape.pattern), ("startsWith", orNull .str shape.startsWith),
      ("endsWith", orNull .str shape.endsWith), ("includes", orNull .str shape.includes) ]

def numberShapeJson (shape : NumberShape) : Json NumberText :=
  Json.object
    [ ("type", Json.text "number"), ("int", .bool shape.int), ("min", orNull numberJson shape.min),
      ("exclusiveMin", .bool shape.exclusiveMin),
      ("max", orNull numberJson shape.max), ("exclusiveMax", .bool shape.exclusiveMax),
      ("multipleOf", orNull numberJson shape.multipleOf) ]

mutual
/-- The value `JSON.stringify` writes for a shape. -/
def shapeJson : SchemaShape → Json NumberText
  | .string shape => stringJson shape
  | .number shape => numberShapeJson shape
  | .boolean => Json.object [("type", Json.text "boolean")]
  | .null => Json.object [("type", Json.text "null")]
  | .literal value => Json.object [("type", Json.text "literal"), ("value", scalarJson value)]
  | .enum values => Json.object [("type", Json.text "enum"), ("values", .arr (values.map .str))]
  | .array items minItems maxItems =>
    Json.object
      [ ("type", Json.text "array"), ("items", shapeJson items), ("minItems", orNull numberJson minItems),
        ("maxItems", orNull numberJson maxItems) ]
  | .tuple items rest => Json.object [("type", Json.text "tuple"), ("items", .arr (shapeJsons items)), ("rest", restJson rest)]
  | .record key value => Json.object [("type", Json.text "record"), ("key", shapeJson key), ("value", shapeJson value)]
  | .object fields => Json.object [("type", Json.text "object"), ("fields", .obj (fieldJsons fields))]
  | .optional inner => Json.object [("type", Json.text "optional"), ("inner", shapeJson inner)]
  | .nullable inner => Json.object [("type", Json.text "nullable"), ("inner", shapeJson inner)]
  | .union options => Json.object [("type", Json.text "union"), ("options", .arr (shapeJsons options))]
  | .token purpose => Json.object [("type", Json.text "token"), ("purpose", .str purpose)]
  | .file kind => Json.object [("type", Json.text "file"), ("kind", .str kind)]
def shapeJsons : List SchemaShape → List (Json NumberText)
  | [] => []
  | shape :: rest => shapeJson shape :: shapeJsons rest
def restJson : Option SchemaShape → Json NumberText
  | none => .null
  | some rest => shapeJson rest
def fieldJsons : List (Units × SchemaShape) → List (Units × Json NumberText)
  | [] => []
  | (name, shape) :: rest => (name, shapeJson shape) :: fieldJsons rest
end

/-- `canonicalJson(shape)`. -/
def canonicalJson (shape : SchemaShape) : Units := Json.canonicalText (shapeJson shape)

mutual
/-- A shape with its enum values sorted; tuple items and union options keep their order. -/
def canonicalShape : SchemaShape → SchemaShape
  | .enum values => .enum (sortOn id values)
  | .array items minItems maxItems => .array (canonicalShape items) minItems maxItems
  | .tuple items rest => .tuple (canonicalShapes items) (canonicalRest rest)
  | .record key value => .record (canonicalShape key) (canonicalShape value)
  | .object fields => .object (canonicalFields fields)
  | .optional inner => .optional (canonicalShape inner)
  | .nullable inner => .nullable (canonicalShape inner)
  | .union options => .union (canonicalShapes options)
  | shape => shape
def canonicalShapes : List SchemaShape → List SchemaShape
  | [] => []
  | shape :: rest => canonicalShape shape :: canonicalShapes rest
def canonicalRest : Option SchemaShape → Option SchemaShape
  | none => none
  | some rest => some (canonicalShape rest)
def canonicalFields : List (Units × SchemaShape) → List (Units × SchemaShape)
  | [] => []
  | (name, shape) :: rest => (name, canonicalShape shape) :: canonicalFields rest
end

/-! ## Shapes as plain objects -/

mutual
/-- No object in the shape names a field twice. -/
def distinct : SchemaShape → Bool
  | .array items _ _ => distinct items
  | .tuple items rest => allDistinct items && restDistinct rest
  | .record key value => distinct key && distinct value
  | .object fields => decide (fields.map Prod.fst).Nodup && fieldsDistinct fields
  | .optional inner => distinct inner
  | .nullable inner => distinct inner
  | .union options => allDistinct options
  | _ => true
def allDistinct : List SchemaShape → Bool
  | [] => true
  | shape :: rest => distinct shape && allDistinct rest
def restDistinct : Option SchemaShape → Bool
  | none => true
  | some rest => distinct rest
def fieldsDistinct : List (Units × SchemaShape) → Bool
  | [] => true
  | (_, shape) :: rest => distinct shape && fieldsDistinct rest
end

/-- A shape whose fields are plain objects. -/
structure Shape where
  shape : SchemaShape
  distinct : distinct shape = true

end Fabrika.App.SchemaValues
