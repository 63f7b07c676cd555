/-
  Fabrika.Control.SchemaDiff — the schema part of an access classification (diff.ts): the lines a
  change of an endpoint's input or output gives.

  A change that can only admit fewer values narrows, any other change widens. The number bounds'
  subtraction is exact in its sign, as that of doubles is.
-/

import Fabrika.App.SchemaValues
import Fabrika.Control.Lines

namespace Fabrika.Control

open Fabrika.Lib
open Fabrika.App.Params (SchemaShape StringShape NumberShape Fields)
open Fabrika.App.SchemaValues (canonicalJson scalarJson)

/-! ## Limits, bounds and constraints -/

/-- A higher minimum narrows; a lower or removed one widens. `none` is no limit. -/
def lowerLimitChange (before after : Option Nat) : List AccessEffect :=
  if before = after then []
  else
    match before, after with
    | _, none => [.widens]
    | none, some _ => [.narrows]
    | some b, some a => if b < a then [.narrows] else [.widens]

/-- A constraint added where there was none narrows; any other change of it widens. -/
def constraintChange {α : Type} [DecidableEq α] (before after : Option α) : List AccessEffect :=
  if before = after then [] else if before = none then [.narrows] else [.widens]

structure Bound where
  value : Option ℚ
  exclusive : Bool
  deriving DecidableEq

/-- Whether `after` is the tighter bound: `direction` is 1 for a minimum and -1 for a maximum. At
    the same value an exclusive bound is the tighter one. -/
def tighter (before after : Bound) (direction : ℚ) : Bool :=
  match before.value, after.value with
  | _, none => false
  | none, some _ => true
  | some b, some a => 0 < (a - b) * direction || (a = b && after.exclusive)

def boundChange (before after : Bound) (direction : ℚ) : List AccessEffect :=
  if before = after then [] else if tighter before after direction then [.narrows] else [.widens]

def stringChanges (before after : StringShape) : List AccessEffect :=
  constraintChange before.format after.format
    ++ lowerLimitChange before.minLength after.minLength
    ++ limitChange before.maxLength after.maxLength
    ++ constraintChange before.pattern after.pattern
    ++ constraintChange before.startsWith after.startsWith
    ++ constraintChange before.endsWith after.endsWith
    ++ constraintChange before.includes after.includes

def minimum (shape : NumberShape) : Bound := ⟨shape.min.map Double.value, shape.exclusiveMin⟩

def maximum (shape : NumberShape) : Bound := ⟨shape.max.map Double.value, shape.exclusiveMax⟩

def numberChanges (before after : NumberShape) : List AccessEffect :=
  flagChange before.int after.int .narrows .widens
    ++ boundChange (minimum before) (minimum after) 1
    ++ boundChange (maximum before) (maximum after) (-1)
    ++ constraintChange (before.multipleOf.map Double.value) (after.multipleOf.map Double.value)

/-! ## Listed values -/

/-- The values of a literal or an enum, as canonical JSON; `none` for a schema that admits more
    than a listed set. -/
def finiteValues : SchemaShape → Option (List Units)
  | .literal value => some [Json.canonicalText (scalarJson value)]
  | .enum values => some (values.map fun value => Json.canonicalText (scalarJson (.text value)))
  | _ => none

/-- `union` of two lists of texts. -/
def unionTexts (a b : List Units) : List Units := sortOn id (a ++ b).eraseDups

def valueSetChanges (before after : List Units) : List AccessEffect :=
  (unionTexts before after).flatMap fun value =>
    if !before.contains value then [.widens]
    else if !after.contains value then [.narrows]
    else []

/-! ## Shapes -/

/-- Where a schema change lies. The two sides differ only for a removed required field: an input
    without it was refused before, an output without it tells less. -/
inductive SchemaSide
  | input
  | output
  deriving DecidableEq

structure Unwrapped where
  optional : Bool
  nullable : Bool
  core : SchemaShape

def unwrapped : SchemaShape → Unwrapped
  | .optional inner => { unwrapped inner with optional := true }
  | .nullable inner => { unwrapped inner with nullable := true }
  | core => ⟨false, false, core⟩

def wrapperChanges (before after : Unwrapped) : List AccessEffect :=
  flagChange before.optional after.optional .widens .narrows ++ flagChange before.nullable after.nullable .widens .narrows

/-- `schemaChanges` of two shapes, given the lines of their cores. -/
def withWrappers (before after : SchemaShape) (coreLines : Answer (List AccessEffect)) : Answer (List AccessEffect) :=
  if canonicalJson before = canonicalJson after then pure []
  else do
    let changes ← coreLines
    return wrapperChanges (unwrapped before) (unwrapped after) ++ changes

/-- `coreChanges` where neither shape is an object or an array of the other's kind. -/
def flatChanges (before after : SchemaShape) : List AccessEffect :=
  match finiteValues before, finiteValues after with
  | some old, some new => valueSetChanges old new
  | _, _ =>
    match before, after with
    | .string old, .string new => stringChanges old new
    | .number old, .number new => numberChanges old new
    | _, _ => valueChange (canonicalJson before) (canonicalJson after)

/-- What `fields[name]` answers. -/
def propertyOf (fields : Fields) (name : Units) : Property SchemaShape :=
  match fields.lookup name with
  | some shape => .own shape
  | none => if (prototypeProperties.map codeUnits).contains name then .inherited else .missing

/-- `schemaChanges` where one side is a property of `Object.prototype`: a function has no JSON
    text, so `shown` reads the length of `undefined`; `__proto__` prints as `{}`. -/
def inheritedChange (name : Units) (wrappers : List AccessEffect) : Answer (List AccessEffect) :=
  if name = codeUnits "__proto__" then pure (wrappers ++ [.widens]) else throw .typeError

/-- A field's lines where the old object has no field of the name. -/
def gainedField (name : Units) (others : Fields) : Answer (List AccessEffect) :=
  match propertyOf [] name, others.lookup name with
  | _, none => pure []
  | .missing, some _ => pure [.widens]
  | _, some after => inheritedChange name (wrapperChanges ⟨false, false, after⟩ (unwrapped after))

/-- The lines of a field that only the old object has. -/
def lostField (side : SchemaSide) (before : SchemaShape) : List AccessEffect :=
  if side = .input && !(unwrapped before).optional then [.widens] else [.narrows]

/-- The lines of a field of the old object. -/
def fieldLines (side : SchemaSide) (name : Units) (before : SchemaShape) (others : Fields)
    (coreLines : SchemaShape → Answer (List AccessEffect)) : Answer (List AccessEffect) :=
  match propertyOf others name with
  | .missing => pure (lostField side before)
  | .inherited => inheritedChange name (wrapperChanges (unwrapped before) ⟨false, false, before⟩)
  | .own after => withWrappers before after (coreLines (unwrapped after).core)

/-- The lines of an object: each name's, where `compared` has them for the old object's. -/
def fieldChanges (fields others : Fields) (compared : List (Units × Answer (List AccessEffect))) :
    Answer (List AccessEffect) := do
  let changes ← (unionTexts (fields.map Prod.fst) (others.map Prod.fst)).mapM fun name =>
    (compared.lookup name).getD (gainedField name others)
  return changes.flatten

mutual
/-- The lines of two cores; `after` is unwrapped, `before` here. -/
def coreChanges (side : SchemaSide) : SchemaShape → SchemaShape → Answer (List AccessEffect)
  | .optional inner, after => coreChanges side inner after
  | .nullable inner, after => coreChanges side inner after
  | .object fields, .object others =>
    if canonicalJson (.object fields) = canonicalJson (.object others) then pure []
    else fieldChanges fields others (comparedFields side fields others)
  | .array items minItems maxItems, .array others minOthers maxOthers =>
    if canonicalJson (.array items minItems maxItems) = canonicalJson (.array others minOthers maxOthers) then pure []
    else do
      let changes ← withWrappers items others (coreChanges side items (unwrapped others).core)
      return lowerLimitChange minItems minOthers ++ limitChange maxItems maxOthers ++ changes
  | before, after => if canonicalJson before = canonicalJson after then pure [] else pure (flatChanges before after)
/-- The lines of each field of the old object. -/
def comparedFields (side : SchemaSide) : Fields → Fields → List (Units × Answer (List AccessEffect))
  | [], _ => []
  | (name, before) :: rest, others =>
    (name, fieldLines side name before others fun after => coreChanges side before after) :: comparedFields side rest others
end

/-- The lines of two shapes. -/
def shapeChanges (side : SchemaSide) (before after : SchemaShape) : Answer (List AccessEffect) :=
  withWrappers before after (coreChanges side before (unwrapped after).core)

/-- `schemaChanges`: `none` is no schema at all. -/
def schemaChanges (side : SchemaSide) : Option SchemaShape → Option SchemaShape → Answer (List AccessEffect)
  | some before, some after => shapeChanges side before after
  | none, none => pure []
  | _, _ => pure [.widens]

end Fabrika.Control
