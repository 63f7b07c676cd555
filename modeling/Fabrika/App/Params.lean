/-
  Fabrika.App.Params — flat scalar parameters in a URL: what the typed client
  (client/contract.ts `withParams`) and `ctx.url` (implement/urls.ts) write, and what
  implement/params.ts reads, by the field shapes contract/build.ts admits.

  A text is its code units; a number a finite one, `0` and `-0` being one. A value's checks
  (formats, patterns, bounds) are zod's and a parameter, `Zod`.
-/

import Fabrika.Lib.Double
import Fabrika.Lib.Record
import Fabrika.Lib.Urlencoded
import Fabrika.Lib.Utf16

namespace Fabrika.App.Params

open Fabrika.Lib

/-! ## Values and shapes -/

inductive Scalar
  | text (value : Units)
  | number (value : Double)
  | boolean (value : Bool)
  | null

/-- A property's value; `String(value)` of one that is no scalar is kept for the client, which
    writes it. -/
inductive Value
  | undefined
  | scalar (value : Scalar)
  | other (text : Units)

/-- An object's own entries, each name once. -/
abbrev Object := List (Units × Value)

inductive StringFormat
  | uuid
  | email
  | url
  | datetime
  | date
  | time
  | duration
  deriving DecidableEq

structure StringShape where
  format : Option StringFormat
  minLength : Option Nat
  maxLength : Option Nat
  pattern : Option Units
  startsWith : Option Units
  endsWith : Option Units
  includes : Option Units

structure NumberShape where
  int : Bool
  min : Option Double
  exclusiveMin : Bool
  max : Option Double
  exclusiveMax : Bool
  multipleOf : Option Double

inductive SchemaShape
  | string (checks : StringShape)
  | number (checks : NumberShape)
  | boolean
  | null
  | literal (value : Scalar)
  | enum (values : List Units)
  | array (items : SchemaShape) (minItems maxItems : Option Nat)
  | tuple (items : List SchemaShape) (rest : Option SchemaShape)
  | record (key value : SchemaShape)
  | object (fields : List (Units × SchemaShape))
  | optional (inner : SchemaShape)
  | nullable (inner : SchemaShape)
  | union (options : List SchemaShape)
  | token (purpose : Units)
  | file (kind : Units)

abbrev Fields := List (Units × SchemaShape)

/-! ## What a build admits -/

mutual
/-- A value one CSV field holds: a scalar, possibly absent. -/
def isCell : SchemaShape → Bool
  | .string _ => true
  | .number _ => true
  | .boolean => true
  | .null => true
  | .literal _ => true
  | .enum _ => true
  | .optional inner => isCell inner
  | .nullable inner => isCell inner
  | .union options => everyCell options
  | _ => false
def everyCell : List SchemaShape → Bool
  | [] => true
  | option :: rest => isCell option && everyCell rest
end

def isToken : SchemaShape → Bool
  | .token _ => true
  | _ => false

def isOptionalToken : SchemaShape → Bool
  | .optional inner => isToken inner
  | _ => false

/-- A value one URL or urlencoded parameter carries: a scalar, or a signed token, possibly
    absent. -/
def isParameter (shape : SchemaShape) : Bool := isCell shape || isToken shape || isOptionalToken shape

/-- `flat` of the HTTP shape's check, for an object of these fields. -/
def flat (fields : Fields) : Bool := fields.all fun field => isParameter field.2

/-! ## What a shape accepts -/

/-- Whether every object inherits a member of the name from `Object.prototype`. -/
def isInherited (name : Units) : Bool := (prototypeProperties.map codeUnits).contains name

/-- What zod answers for a text, a number, a value that is no scalar, and the member of that name
    every object inherits. -/
structure Zod where
  string : StringShape → Units → Bool
  number : NumberShape → Double → Bool
  other : SchemaShape → Units → Bool
  inherited : SchemaShape → Units → Bool

def SIGNED_TOKEN_MAX_LENGTH : Nat := 4096

section
variable (zod : Zod)

mutual
/-- Whether `schemaFromShape(shape)` admits the value. -/
def accepts : SchemaShape → Value → Prop
  | .string checks, .scalar (.text value) => zod.string checks value = true
  | .number checks, .scalar (.number value) => zod.number checks value = true
  | .boolean, .scalar (.boolean _) => True
  | .null, .scalar .null => True
  | .literal literal, .scalar value => value = literal
  | .enum values, .scalar (.text value) => value ∈ values
  | .optional inner, value => value = .undefined ∨ accepts inner value
  | .nullable inner, value => value = .scalar .null ∨ accepts inner value
  | .union options, value => acceptsSome options value
  | .token _, .scalar (.text value) => 1 ≤ value.length ∧ value.length ≤ SIGNED_TOKEN_MAX_LENGTH
  | .array items minItems maxItems, .other text => zod.other (.array items minItems maxItems) text = true
  | .tuple items rest, .other text => zod.other (.tuple items rest) text = true
  | .record key value, .other text => zod.other (.record key value) text = true
  | .object fields, .other text => zod.other (.object fields) text = true
  | _, _ => False
def acceptsSome : List SchemaShape → Value → Prop
  | [], _ => False
  | option :: rest, value => accepts option value ∨ acceptsSome rest value
end

/-- `object[name]`; `none` is the member inherited under the name. -/
def valueAt (object : Object) (name : Units) : Option Value :=
  (object.lookup name).or (if isInherited name then none else some .undefined)

/-- Whether a field's schema admits what is read under its name. -/
def acceptsField (field : Units × SchemaShape) (read : Option Value) : Prop :=
  read.elim (zod.inherited field.2 field.1 = true) (accepts zod field.2)

/-- Whether `z.strictObject` of the fields admits the object: each field's schema runs on
    `object[name]`. -/
def acceptsObject (fields : Fields) (object : Object) : Prop :=
  (∀ entry ∈ object, entry.1 ∈ fields.map Prod.fst) ∧ ∀ field ∈ fields, acceptsField zod field (valueAt object field.1)

end

/-! ## Writing -/

/-- `value === null ? 'null' : String(value)`. -/
def spell : Scalar → Units
  | .null => codeUnits "null"
  | .text value => value
  | .number value => value.text
  | .boolean true => codeUnits "true"
  | .boolean false => codeUnits "false"

def clientParam (params : Urlencoded.Params) (entry : Units × Value) : Urlencoded.Params :=
  match entry.2 with
  | .undefined => params
  | .scalar value => Urlencoded.set (usvString entry.1) (usvString (spell value)) params
  | .other text => Urlencoded.set (usvString entry.1) (usvString text) params

def clientParams (input : Object) : Urlencoded.Params := input.foldl clientParam []

def queryText (input : Object) : Urlencoded.Bytes := Urlencoded.serialize (clientParams input)

/-- A GET's input as the URL's parameters, `url` and the answer as their bytes. -/
def withParams (url : Urlencoded.Bytes) (input : Object) : Urlencoded.Bytes :=
  if queryText input = [] then url else url ++ 0x3f :: queryText input

inductive Method
  | get
  | post
  | other
  deriving DecidableEq

/-- What `ctx.url` reads of an endpoint row. -/
structure EndpointRow where
  id : String
  kind : String
  source : String
  method : Method
  path : Urlencoded.Bytes

structure Artifact where
  endpoints : List EndpointRow
  /-- The procedures that declare an `http.query`. -/
  queries : List String

structure UrlParameters where
  input : Option Object
  query : Option Object

inductive UrlUnbuildable
  | noProcedure (endpoint : String)
  | noOrigin
  | notRead (endpoint : String) (reads : String)
  | notScalar (endpoint : String) (name : Units)

def UrlUnbuildable.message : UrlUnbuildable → String
  | .noProcedure endpoint => s!"ctx.url names '{endpoint}', which is no procedure of the contract"
  | .noOrigin => "ctx.url needs FABRIKA_APP_ORIGIN, and the environment has no public origin"
  | .notRead endpoint reads =>
    s!"ctx.url('{endpoint}') passes parameters its HTTP shape does not read from the URL (allowed: {reads})"
  | .notScalar endpoint name => s!"ctx.url('{endpoint}') parameter '{usvString name}' is no scalar"

/-- A row a procedure of an RPC or link mount answers. -/
def isProcedureRow (row : EndpointRow) : Bool :=
  (row.kind == "query" || row.kind == "mutation" || row.kind == "public") && row.source == "mount"

/-- The row a `Map` built from the rows in order answers: the last of the id. -/
def procedureRow (artifact : Artifact) (endpoint : String) : Option EndpointRow :=
  (artifact.endpoints.filter isProcedureRow).reverse.find? fun row => row.id = endpoint

def urlParam (endpoint : String) (search : Urlencoded.Params) (entry : Units × Value) : Except UrlUnbuildable Urlencoded.Params :=
  match entry.2 with
  | .undefined => .ok search
  | .scalar value => .ok (Urlencoded.set (usvString entry.1) (usvString (spell value)) search)
  | .other _ => .error (.notScalar endpoint entry.1)

def urlParams (endpoint : String) (parameters : Object) : Except UrlUnbuildable Urlencoded.Params :=
  parameters.foldlM (urlParam endpoint) []

def appUrl (artifact : Artifact) (origin : Option Urlencoded.Bytes) (endpoint : String) (parameters : UrlParameters) :
    Except UrlUnbuildable Urlencoded.Bytes := do
  let some row := procedureRow artifact endpoint | .error (.noProcedure endpoint)
  let some origin := origin | .error .noOrigin
  let readsInput := row.method = .get
  let other := if readsInput then parameters.query else parameters.input
  if other.isSome || (!readsInput && parameters.query.isSome && !artifact.queries.contains endpoint) then
    .error (.notRead endpoint (if readsInput then "input of a GET" else "query of a POST that declares http.query"))
  else
    let search ← urlParams endpoint (((if readsInput then parameters.input else parameters.query)).getD [])
    let text := Urlencoded.serialize search
    return origin ++ row.path ++ (if text = [] then [] else 0x3f :: text)

/-! ## Reading -/

def finite? : Double.Number → Option Double
  | .finite x => some x
  | .negZero => some Double.zero
  | _ => none

/-- `value` as a number when it is that number's canonical spelling. -/
def canonicalNumber (value : Units) : Option Double :=
  match finite? (Double.read value) with
  | some number => if value ≠ [] ∧ number.text = value then some number else none
  | none => none

mutual
/-- Whether the shape reads text as itself. -/
def readsText : SchemaShape → Bool
  | .string _ => true
  | .enum _ => true
  | .literal (.text _) => true
  | .optional inner => readsText inner
  | .nullable inner => readsText inner
  | .union options => someReadsText options
  | _ => false
def someReadsText : List SchemaShape → Bool
  | [] => false
  | option :: rest => readsText option || someReadsText rest
end

def numberOf (value : Units) : Scalar := ((canonicalNumber value).map Scalar.number).getD (.text value)

def booleanOf (value : Units) : Scalar :=
  if value = codeUnits "true" then .boolean true else if value = codeUnits "false" then .boolean false else .text value

def nullOf (value : Units) : Scalar := if value = codeUnits "null" then .null else .text value

/-- `read !== value`, for the text `value`. -/
def differs (read : Scalar) (value : Units) : Bool :=
  match read with
  | .text other => other != value
  | _ => true

mutual
/-- A parameter's value as the shape reads it; a value no alternative spells stays text. -/
def scalarOf : SchemaShape → Units → Scalar
  | .optional inner, value => scalarOf inner value
  | .nullable inner, value => if value = codeUnits "null" ∧ readsText inner = false then .null else scalarOf inner value
  | .number _, value => numberOf value
  | .boolean, value => booleanOf value
  | .null, value => nullOf value
  -- `scalarOf(literalShape(shape.value), value)` for a literal that is no text.
  | .literal (.text _), value => .text value
  | .literal (.number _), value => numberOf value
  | .literal (.boolean _), value => booleanOf value
  | .literal .null, value => nullOf value
  | .union options, value => scalarOfOptions options value
  | _, value => .text value
def scalarOfOptions : List SchemaShape → Units → Scalar
  | [], value => .text value
  | option :: rest, value =>
    if differs (scalarOf option value) value || readsText option then scalarOf option value else scalarOfOptions rest value
end

/-- `read[name] = value` on a plain object, where `__proto__` is no own property. -/
def assign (read : Object) (name : Units) (value : Scalar) : Object :=
  if name = codeUnits "__proto__" then read else read ++ [(name, .scalar value)]

def fieldsOf : Option SchemaShape → Fields
  | some (.object fields) => fields
  | _ => []

/-- A parameter by its field's shape; a name without a field stays text, for the strict input
    to refuse. -/
def readField (shape : Option SchemaShape) (name value : Units) : Scalar :=
  match (fieldsOf shape).lookup name with
  | some field => scalarOf field value
  | none => .text value

def readParam (shape : Option SchemaShape) (read : Object) (pair : String × String) : Except String Object :=
  let name := codeUnits pair.1
  if (read.lookup name).isSome then .error s!"the parameter '{pair.1}' is sent twice"
  else .ok (assign read name (readField shape name (codeUnits pair.2)))

/-- The parameters as the object `shape`'s fields read them; it throws on a name sent twice. -/
def paramsObject (params : Urlencoded.Params) (shape : Option SchemaShape) : Except String Object :=
  params.foldlM (readParam shape) []

end Fabrika.App.Params
