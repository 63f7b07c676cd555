/-
  Fabrika.AuthCore.Canonical — contract-canonical.ts on the JSON values it runs on: the
  canonical form of a contract artifact and the text its digest is taken over.

  `{ ...value, name: … }` is `update`, an object written anew `rebuild`; a field the value does
  not have is not written. `contractLayout` says, place by place, which lists of an artifact
  are unordered, and `admits` what its type (contract.ts) asks of each object: the keys it
  must have and, where the code writes the object anew, the keys it may have.
-/

import Fabrika.Lib.Reorder

namespace Fabrika.AuthCore.Canonical

open Fabrika.Lib Fabrika.Lib.Json

section
variable {N : Type}

/-! ## Lists and records -/

def sorted : Json N → Json N
  | .arr values => .arr (sortOn sortText values)
  | value => value

/-- `[first = head, ...rest] = sorted(values)`, for a list that is not empty. -/
def sortedTuple (values : Json N) : Json N := sorted values

def sortedSources : Json N → Json N
  | .arr sources => .arr (sortOn (fieldText (codeUnits "origin")) sources)
  | value => value

def mapValues (map : Json N → Json N) : Json N → Json N
  | .obj fields => .obj (fields.map fun field => (field.1, map field.2))
  | value => value

def nullOr (map : Json N → Json N) : Json N → Json N
  | .null => .null
  | value => map value

/-- `value[key] === text`. -/
def reads (value : Json N) (key text : String) : Bool :=
  match value with
  | .obj fields => textAt fields (codeUnits key) == some (codeUnits text)
  | _ => false

/-- A field written whenever the value has it. -/
def written (map : Json N → Json N) (value : Json N) : Option (Json N) := some (map value)

/-- `...(value === true ? { name: true } : {})`. -/
def writtenIfTrue : Json N → Option (Json N)
  | .bool true => some (.bool true)
  | _ => none

/-! ## Schema shapes -/

inductive ShapeType
  | enum
  | array
  | tuple
  | record
  | object
  | wrapper
  | union
  | other
  deriving DecidableEq

/-- The `switch` on `shape.type`; `optional` and `nullable` are one case. -/
def shapeType (type : Option Units) : ShapeType :=
  if type = some (codeUnits "enum") then .enum
  else if type = some (codeUnits "array") then .array
  else if type = some (codeUnits "tuple") then .tuple
  else if type = some (codeUnits "record") then .record
  else if type = some (codeUnits "object") then .object
  else if type = some (codeUnits "optional") ∨ type = some (codeUnits "nullable") then .wrapper
  else if type = some (codeUnits "union") then .union
  else .other

def entry (fields : List (Units × Json N)) (name : String) : List (Units × Json N) :=
  (fields.lookup (codeUnits name)).toList.map fun value => (codeUnits name, value)

mutual
def canonicalShape : Json N → Json N
  | .obj fields =>
    .obj <| match shapeType (textAt fields (codeUnits "type")) with
    | .enum => entry fields "type" ++ entry (fields.map fun field => (field.1, sorted field.2)) "values"
    | .array => shapeOfItems fields
    | .tuple => entry fields "type" ++ entry (listFields fields) "items" ++ entry (shapeFields fields) "rest"
    | .record => entry fields "type" ++ entry (shapeFields fields) "key" ++ entry (shapeFields fields) "value"
    | .object => entry fields "type" ++ entry (recordFields fields) "fields"
    | .wrapper => entry fields "type" ++ entry (shapeFields fields) "inner"
    | .union => entry fields "type" ++ entry (listFields fields) "options"
    | .other => fields
  | value => value
/-- `shapes.map(canonicalShape)`. -/
def canonicalShapes : Json N → Json N
  | .arr shapes => .arr (shapeItems shapes)
  | value => value
/-- `mapValues(shapes, canonicalShape)`. -/
def canonicalShapeRecord : Json N → Json N
  | .obj shapes => .obj (shapeFields shapes)
  | value => value
def shapeItems : List (Json N) → List (Json N)
  | [] => []
  | shape :: rest => canonicalShape shape :: shapeItems rest
/-- Each field's value as a shape. -/
def shapeFields : List (Units × Json N) → List (Units × Json N)
  | [] => []
  | (name, shape) :: rest => (name, canonicalShape shape) :: shapeFields rest
/-- Each field's value as a list of shapes. -/
def listFields : List (Units × Json N) → List (Units × Json N)
  | [] => []
  | (name, shapes) :: rest => (name, canonicalShapes shapes) :: listFields rest
/-- Each field's value as a record of shapes. -/
def recordFields : List (Units × Json N) → List (Units × Json N)
  | [] => []
  | (name, shapes) :: rest => (name, canonicalShapeRecord shapes) :: recordFields rest
/-- The fields with `items` as a shape. -/
def shapeOfItems : List (Units × Json N) → List (Units × Json N)
  | [] => []
  | (name, value) :: rest => (name, if name = codeUnits "items" then canonicalShape value else value) :: shapeOfItems rest
end

def canonicalColumns : Json N → Json N
  | .arr columns => .arr (columns.map (rebuild [("name", some), ("shape", written canonicalShape)]))
  | value => value

def canonicalOutput (shape : Json N) : Json N :=
  if reads shape "type" "redirect" then rebuild [("type", some), ("origins", written sorted)] shape
  else if reads shape "type" "attachment" then update [("columns", canonicalColumns)] shape
  else canonicalShape shape

/-! ## Endpoints, roles, mounts and tables -/

def canonicalAdmission (admission : Json N) : Json N :=
  rebuild [("contentTypes", written sortedTuple), ("maxBytes", some)] admission

def canonicalizeEndpoint (row : Json N) : Json N :=
  let shared : List (String × (Json N → Json N)) :=
    [("admission", nullOr canonicalAdmission), ("input", nullOr canonicalShape), ("output", nullOr canonicalOutput)]
  match row with
  | .obj fields =>
    match fields.lookup (codeUnits "requirement") with
    | some .null => update shared row
    | _ => update (shared ++ [("callers", sortedTuple)]) row
  | _ => row

def canonicalizeEndpoints : Json N → Json N
  | .arr rows => .arr (sortOn (fieldText (codeUnits "id")) (rows.map canonicalizeEndpoint))
  | value => value

def canonicalMembership (member : Json N) : Json N := rebuild [("scope", some), ("assignableBy", written sorted)] member

def canonicalRole (role : Json N) : Json N :=
  rebuild [("grants", written sorted), ("member", written (nullOr canonicalMembership)), ("external", writtenIfTrue)] role

def canonicalMount (mount : Json N) : Json N :=
  if reads mount "kind" "rpc" then update [("callers", sorted)] mount
  else if reads mount "kind" "link" then update [("grants", sorted)] mount
  else if reads mount "kind" "webhook" then update [("actions", sorted)] mount
  else if reads mount "kind" "spa" then update [("public", sorted)] mount
  else mount

/-- A list of actions sorted; one action as it is. -/
def canonicalActions : Json N → Json N
  | .str action => .str action
  | actions => sorted actions

def canonicalOptionalActions (actions : Json N) : Json N := nullOr canonicalActions actions

def canonicalTableActions (actions : Json N) : Json N :=
  rebuild
    [ ("read", written canonicalActions), ("insert", written canonicalOptionalActions),
      ("update", written canonicalOptionalActions),
      ("delete", written canonicalOptionalActions), ("appRead", written sorted), ("appCount", written sorted) ] actions

def canonicalTableScope (scope : Json N) : Json N :=
  if reads scope "mode" "child" then update [("inherit", sorted)] scope else scope

def canonicalTable (table : Json N) : Json N :=
  update [("actions", canonicalTableActions), ("scope", canonicalTableScope), ("insert", sorted), ("update", sorted)] table

/-! ## The artifact -/

def canonicalLink : Json N → Json N
  | .bool link => .bool link
  | mounts => sorted mounts

def canonicalCsp (csp : Json N) : Json N :=
  rebuild
    [ ("connectSrc", written sortedSources), ("imgSrc", written sortedSources), ("frameAncestors", written sortedSources),
      ("scriptSrc", written sortedSources), ("frameSrc", written sortedSources), ("styleSrc", written sortedSources),
      ("fontSrc", written sortedSources), ("workerSrc", written sortedSources) ] csp

def canonicalReach (reach : Json N) : Json N :=
  update [("connect", sorted), ("actions", sorted), ("kicks", sorted), ("signs", sorted), ("egress", sorted)] reach

/-- The artifact with every list whose order carries no meaning sorted. -/
def canonicalizeArtifact (artifact : Json N) : Json N :=
  rebuild
    [ ("format", some), ("app", some), ("dimensions", some), ("actions", some),
      ("roles", written (mapValues canonicalRole)),
      ("mounts", written (mapValues canonicalMount)),
      ("files", written (mapValues (update [("types", sorted), ("link", canonicalLink)]))),
      ("fileKinds", written (mapValues (update [("types", sorted)]))),
      ("jobs", written (mapValues (update [("actions", sorted)]))),
      ("exports", written (mapValues (update [("consumers", sorted)]))),
      ("imports", written (mapValues (update [("procedures", sorted), ("usedBy", sorted)]))),
      ("csp", written canonicalCsp),
      ("tables", written (mapValues canonicalTable)),
      ("endpoints", written canonicalizeEndpoints),
      ("reservedPrefixes", written sorted),
      ("declared", written (mapValues canonicalReach)),
      ("directories", some), ("locale", some), ("displayName", some), ("mail", some), ("members", some), ("directory", some),
      ("terminal", written (rebuild [("identify", some)])),
      ("procedures", written (mapValues (update [("query", canonicalShape)]))),
      ("tokens", written (mapValues (rebuild [("claims", written canonicalShape), ("maxDays", some)]))) ] artifact

/-- The bytes a digest of the artifact is taken over. -/
def canonicalArtifactJson [Numeral N] (artifact : Json N) : Units := canonicalText (canonicalizeArtifact artifact)

end

/-! ## Which lists are unordered -/

/-- Where a part of an artifact lies; `plain` is a part without unordered lists. -/
inductive Place
  | plain
  | names
  | artifact
  | roles
  | role
  | membership
  | mounts
  | mount
  | collections
  | collection
  | fileKinds
  | fileKind
  | jobs
  | job
  | exports
  | exported
  | imports
  | imported
  | csp
  | sources
  | tables
  | table
  | tableActions
  | tableScope
  | endpoints
  | endpoint
  | admission
  | output
  | columns
  | column
  | reaches
  | reach
  | terminal
  | procedures
  | procedure
  | tokens
  | token
  | shape
  | shapes
  | shapeRecord
  deriving DecidableEq

namespace Place

def order : Place → Order
  | names => .byText
  | sources => .byField (codeUnits "origin")
  | endpoints => .byField (codeUnits "id")
  | _ => .fixed

def item : Place → Place
  | endpoints => endpoint
  | columns => column
  | shapes => shape
  | _ => plain

def tag : Place → Option Units
  | mount => some (codeUnits "kind")
  | tableScope => some (codeUnits "mode")
  | output => some (codeUnits "type")
  | shape => some (codeUnits "type")
  | _ => none

/-- The place of every value of a record. -/
def value : Place → Option Place
  | roles => some role
  | mounts => some mount
  | collections => some collection
  | fileKinds => some fileKind
  | jobs => some job
  | exports => some exported
  | imports => some imported
  | tables => some table
  | reaches => some reach
  | procedures => some procedure
  | tokens => some token
  | shapeRecord => some shape
  | _ => none

def mountFields (kind : Option Units) : List (String × Place) :=
  if kind = some (codeUnits "rpc") then [("callers", names)]
  else if kind = some (codeUnits "link") then [("grants", names)]
  else if kind = some (codeUnits "webhook") then [("actions", names)]
  else if kind = some (codeUnits "spa") then [("public", names)]
  else []

def shapeFields (type : Option Units) : List (String × Place) :=
  match shapeType type with
  | .enum => [("values", names)]
  | .array => [("items", shape)]
  | .tuple => [("items", shapes), ("rest", shape)]
  | .record => [("key", shape), ("value", shape)]
  | .object => [("fields", shapeRecord)]
  | .wrapper => [("inner", shape)]
  | .union => [("options", shapes)]
  | .other => []

def outputFields (type : Option Units) : List (String × Place) :=
  if type = some (codeUnits "redirect") then [("origins", names)]
  else if type = some (codeUnits "attachment") then [("columns", columns)]
  else shapeFields type

/-- The fields of an object that hold unordered lists or shapes. -/
def fields : Place → Option Units → List (String × Place)
  | artifact, _ =>
    [ ("roles", roles), ("mounts", mounts), ("files", collections), ("fileKinds", fileKinds), ("jobs", jobs),
      ("exports", exports),
      ("imports", imports), ("csp", csp), ("tables", tables), ("endpoints", endpoints), ("reservedPrefixes", names),
      ("declared", reaches), ("terminal", terminal), ("procedures", procedures), ("tokens", tokens) ]
  | role, _ => [("grants", names), ("member", membership)]
  | membership, _ => [("assignableBy", names)]
  | mount, kind => mountFields kind
  | collection, _ => [("types", names), ("link", names)]
  | fileKind, _ => [("types", names)]
  | job, _ => [("actions", names)]
  | exported, _ => [("consumers", names)]
  | imported, _ => [("procedures", names), ("usedBy", names)]
  | csp, _ =>
    [ ("connectSrc", sources), ("imgSrc", sources), ("frameAncestors", sources), ("scriptSrc", sources), ("frameSrc", sources),
      ("styleSrc", sources), ("fontSrc", sources), ("workerSrc", sources) ]
  | table, _ => [("actions", tableActions), ("scope", tableScope), ("insert", names), ("update", names)]
  | tableActions, _ =>
    [("read", names), ("insert", names), ("update", names), ("delete", names), ("appRead", names), ("appCount", names)]
  | tableScope, mode => if mode = some (codeUnits "child") then [("inherit", names)] else []
  | endpoint, _ => [("admission", admission), ("input", shape), ("output", output), ("callers", names)]
  | admission, _ => [("contentTypes", names)]
  | output, type => outputFields type
  | column, _ => [("shape", shape)]
  | reach, _ => [("connect", names), ("actions", names), ("kicks", names), ("signs", names), ("egress", names)]
  | procedure, _ => [("query", shape)]
  | token, _ => [("claims", shape)]
  | shape, type => shapeFields type
  | _, _ => []

def field (place : Place) (tag : Option Units) (key : Units) : Place :=
  match place.value with
  | some value => value
  | none => ((Json.names (place.fields tag)).lookup key).getD plain

/-! ## What the type of an artifact asks -/

def isList : Place → Bool
  | names => true
  | sources => true
  | endpoints => true
  | columns => true
  | shapes => true
  | _ => false

/-- The places whose value may be `null`. -/
def isNullable : Place → Bool
  | plain => true
  | names => true
  | membership => true
  | admission => true
  | output => true
  | shape => true
  | _ => false

def requiredOfShape (type : Option Units) : List String := "type" :: (shapeFields type).map Prod.fst

/-- The fields the code reads of an object that its type always has. -/
def required : Place → Option Units → List String
  | artifact, _ =>
    [ "format", "app", "dimensions", "actions", "roles", "mounts", "files", "jobs", "exports", "imports", "csp", "tables",
      "endpoints", "reservedPrefixes" ]
  | role, _ => ["grants", "member"]
  | membership, _ => ["scope", "assignableBy"]
  | mount, kind =>
    "kind" :: if kind = some (codeUnits "spa") then [] else (mountFields kind).map Prod.fst
  | collection, _ => ["types", "link"]
  | fileKind, _ => ["types"]
  | job, _ => ["actions"]
  | exported, _ => ["consumers"]
  | imported, _ => ["procedures", "usedBy"]
  | csp, _ => ["connectSrc", "imgSrc", "frameAncestors"]
  | table, _ => ["scope", "actions", "insert", "update"]
  | tableActions, _ => ["read", "insert", "update", "delete"]
  | tableScope, mode => "mode" :: if mode = some (codeUnits "child") then ["inherit"] else []
  | endpoint, _ => ["id", "requirement", "admission", "input", "output", "callers"]
  | admission, _ => ["contentTypes", "maxBytes"]
  | output, type => "type" :: (outputFields type).map Prod.fst
  | column, _ => ["name", "shape"]
  | reach, _ => ["connect"]
  | terminal, _ => ["identify"]
  | token, _ => ["claims", "maxDays"]
  | shape, type => requiredOfShape type
  | _, _ => []

/-- The optional fields of an object that the code writes anew; `none` where it keeps every
    field it finds. -/
def optional : Place → Option Units → Option (List String)
  | artifact, _ =>
    some
      [ "fileKinds", "declared", "directories", "locale", "displayName", "mail", "members", "directory", "terminal", "procedures",
        "tokens" ]
  | role, _ => some ["external"]
  | membership, _ => some []
  | csp, _ => some ["scriptSrc", "frameSrc", "styleSrc", "fontSrc", "workerSrc"]
  | tableActions, _ => some ["appRead", "appCount"]
  | admission, _ => some []
  | output, type =>
    if type = some (codeUnits "attachment") then none
    else if shapeType type = .array ∨ (shapeType type = .other ∧ type ≠ some (codeUnits "redirect")) then none
    else some []
  | column, _ => some []
  | terminal, _ => some []
  | token, _ => some []
  | shape, type => if shapeType type = .array ∨ shapeType type = .other then none else some []
  | _, _ => none

end Place

def contractLayout : Layout Place where
  order := Place.order
  item := Place.item
  tag := Place.tag
  field := Place.field

/-- What contract.ts asks of the value at a place, its own parts apart. -/
def admits {N : Type} (place : Place) : Json N → Prop
  | .obj fields =>
    place.isList = false ∧
    (∀ name ∈ place.required (contractLayout.tagOf place fields), codeUnits name ∈ fields.map Prod.fst) ∧
    (∀ optional, place.optional (contractLayout.tagOf place fields) = some optional →
      ∀ key ∈ fields.map Prod.fst, ∃ name ∈ place.required (contractLayout.tagOf place fields) ++ optional,
      codeUnits name = key) ∧
    (place = .role → ∀ value, fields.lookup (codeUnits "external") = some value → value = .bool true) ∧
    (place = .endpoint → fields.lookup (codeUnits "requirement") = some .null →
      fields.lookup (codeUnits "callers") = some (.arr []))
  | .arr _ => place.isList = true ∨ place = .plain
  | .null => place.isNullable = true
  | _ => place = .plain ∨ place = .names

/-- A `ContractArtifact`: each endpoint has an id of its own, and each list of sources names an
    origin once. -/
def IsContract {N : Type} (artifact : Json N) : Prop :=
  contractLayout.Everywhere (fun place value => contractLayout.Apart place value ∧ admits place value) .artifact artifact

/-- Equal up to the order of object keys, of endpoints and of the unordered lists. -/
def SameContract {N : Type} (a b : Json N) : Prop := contractLayout.Same .artifact a b

/-! ## Deciding what a contract is -/

section
variable {N : Type}

instance (value : Json N) (b : Bool) : Decidable (value = .bool b) :=
  match value with
  | .bool c => decidable_of_iff (c = b) (by simp)
  | .null | .num _ | .str _ | .arr _ | .obj _ => isFalse (by simp)

instance (value : Json N) : Decidable (value = .null) :=
  match value with
  | .null => isTrue rfl
  | .bool _ | .num _ | .str _ | .arr _ | .obj _ => isFalse (by simp)

instance (value : Json N) : Decidable (value = .arr []) :=
  match value with
  | .arr [] => isTrue rfl
  | .arr (_ :: _) | .null | .bool _ | .num _ | .str _ | .obj _ => isFalse (by simp)

instance (value : Json N) : Decidable (∃ s, value = .str s) :=
  match value with
  | .str s => isTrue ⟨s, rfl⟩
  | .null | .bool _ | .num _ | .arr _ | .obj _ => isFalse (by simp)

/-- A field that is there and equal to `value`, where equality with `value` is decided. -/
instance (found : Option (Json N)) (value : Json N) [DecidablePred (· = value)] : Decidable (found = some value) :=
  match found with
  | none => isFalse (by simp)
  | some other => decidable_of_iff (other = value) (by simp)

instance (place : Place) (value : Json N) : Decidable (admits place value) :=
  match value with
  | .obj fields =>
    have : Decidable (∀ optional, place.optional (contractLayout.tagOf place fields) = some optional →
        ∀ key ∈ fields.map Prod.fst, ∃ name ∈ place.required (contractLayout.tagOf place fields) ++ optional,
        codeUnits name = key) :=
      inferInstanceAs (Decidable (∀ optional ∈ place.optional (contractLayout.tagOf place fields), _))
    have : Decidable (∀ value, fields.lookup (codeUnits "external") = some value → value = .bool true) :=
      inferInstanceAs (Decidable (∀ value ∈ fields.lookup (codeUnits "external"), value = .bool true))
    inferInstanceAs (Decidable (_ ∧ _))
  | .arr _ => inferInstanceAs (Decidable (_ ∨ _))
  | .null => inferInstanceAs (Decidable (_ = _))
  | .bool _ | .num _ | .str _ => inferInstanceAs (Decidable (_ ∨ _))

instance (order : Order) (items : List (Json N)) : Decidable (Layout.Arranged order items) :=
  match order with
  | .fixed => isTrue trivial
  | .byText => inferInstanceAs (Decidable (∀ item ∈ items, ∃ s, item = .str s))
  | .byField key => inferInstanceAs (Decidable (items.map (fieldText key)).Nodup)

instance (place : Place) (value : Json N) : Decidable (contractLayout.Apart place value) :=
  match value with
  | .arr xs => inferInstanceAs (Decidable (Layout.Arranged (contractLayout.order place) xs))
  | .obj fields => inferInstanceAs (Decidable (fields.map Prod.fst).Nodup)
  | .null | .bool _ | .num _ | .str _ => isTrue trivial

end

end Fabrika.AuthCore.Canonical
