/-
  Fabrika.App.Connect — contract/connect.ts: what a change of an export or of a mount that
  promises backward compatibility breaks for those who call it.

  An input may gain optional fields and nothing else; every other change of a shape is seen by
  comparing two texts.
-/

import Fabrika.App.SchemaValues
import Fabrika.Proxy.EndpointDigest

namespace Fabrika.App.Connect

open Fabrika.Lib Fabrika.AuthCore
open Fabrika.App.Params (SchemaShape Fields)
open Fabrika.App.SchemaValues
open Fabrika.Proxy (RowKind rowKind tokenCaller callerText crossOriginText requirementJson namesJson)

/-! ## Outputs -/

inductive AttachmentFormat
  | csv
  | xlsx
  deriving DecidableEq

def AttachmentFormat.text : AttachmentFormat → String
  | .csv => "csv"
  | .xlsx => "xlsx"

structure AttachmentColumn where
  name : String
  shape : SchemaShape

structure AttachmentShape where
  format : AttachmentFormat
  filename : String
  maxBytes : Nat
  maxRows : Nat
  columns : List AttachmentColumn

/-- The output of a procedure; a file of a kind is a schema's shape. -/
inductive OutputShape
  | schema (shape : SchemaShape)
  | attachment (shape : AttachmentShape)
  | redirect (origins : List String)

/-- An output's enum values and a redirect's origins sorted; an attachment keeps its columns'
    order, which is the file's. -/
def canonicalOutput : OutputShape → OutputShape
  | .schema shape => .schema (canonicalShape shape)
  | .attachment shape =>
    .attachment { shape with columns := shape.columns.map fun column => { column with shape := canonicalShape column.shape } }
  | .redirect origins => .redirect (sorted origins)

def columnJson (column : AttachmentColumn) : Json NumberText :=
  Json.object [("name", Json.text column.name), ("shape", shapeJson column.shape)]

def outputJson : OutputShape → Json NumberText
  | .schema shape => shapeJson shape
  | .attachment shape =>
    Json.object
      [ ("type", Json.text "attachment"), ("format", Json.text shape.format.text), ("filename", Json.text shape.filename),
        ("maxBytes", numberJson shape.maxBytes), ("maxRows", numberJson shape.maxRows),
        ("columns", .arr (shape.columns.map columnJson)) ]
  | .redirect origins => Json.object [("type", Json.text "redirect"), ("origins", .arr (origins.map Json.text))]

/-- `canonicalJson(output === null ? null : canonicalOutput(output))`. -/
def outputText (output : Option OutputShape) : Units :=
  Json.canonicalText (orNull (fun output => outputJson (canonicalOutput output)) output)

/-! ## Inputs -/

def isOptional : SchemaShape → Bool
  | .optional _ => true
  | _ => false

mutual
/-- Whether `after` accepts every value `before` does, by the one widening allowed: an object
    field that is new and optional. -/
def widens : SchemaShape → SchemaShape → Bool
  | .object fields, .object others =>
    widensFields fields others && others.all fun field => (fields.lookup field.1).isSome || isOptional field.2
  | .optional before, .optional after => widens before after
  | .nullable before, .nullable after => widens before after
  | before, after => canonicalJson before == canonicalJson after
/-- Each field is kept by the other object. -/
def widensFields : Fields → Fields → Bool
  | [], _ => true
  | (name, field) :: rest, others =>
    (match others.lookup name with
      | some next => widens field next
      | none => false) && widensFields rest others
end

example :
    let note : Units := codeUnits "note"
    widens (.object []) (.object [(note, .optional .boolean)]) = true ∧ widens (.object []) (.object [(note, .boolean)]) =
      false := by decide

def acceptsEveryInput : Option Shape → Option Shape → Bool
  | some before, some after => widens (canonicalShape before.shape) (canonicalShape after.shape)
  | none, none => true
  | _, _ => false

/-! ## A mount's procedures -/

structure ProcedureRow extends EndpointRow where
  input : Option Shape := none
  output : Option OutputShape := none

structure ProcedureRules where
  query : Option Shape

/-- What of a contract's artifact a mount's promise reads. -/
structure ContractArtifact where
  mounts : Record MountArtifact
  endpoints : List ProcedureRow
  procedures : Record ProcedureRules := ∅

/-- `artifact.procedures?.[id]?.query`. -/
def ContractArtifact.query (artifact : ContractArtifact) (id : String) : Option Shape :=
  (artifact.procedures.lookup id).bind ProcedureRules.query

def isMountProcedure (row : ProcedureRow) (mount : String) : Bool :=
  row.source.kind == .mount && row.source.name == mount
    && (row.kind == .credentialed .query || row.kind == .credentialed .mutation || row.kind == .anonymous .public)

/-- A mount's procedures and the endpoints that issue their challenges. -/
def mountEndpoints (artifact : ContractArtifact) (mount : String) : List ProcedureRow :=
  let procedures := (artifact.endpoints.filter (isMountProcedure · mount)).map fun row => row.id
  artifact.endpoints.filter fun row =>
    procedures.contains row.id || (row.source.kind == .challenge && procedures.contains row.source.name)

/-- `canonicalJson` of the content types a body may have. -/
def contentTypesText (row : ProcedureRow) : Units :=
  Json.canonicalText (Proxy.orNull (fun admission => namesJson (sorted admission.contentTypes)) row.admission)

/-- `access(row)`. -/
def accessText (row : ProcedureRow) : Units :=
  Json.canonicalText
    (Json.object
      [ ("kind", Json.text (rowKind row.kind).text), ("callers", namesJson (sorted (row.callers.map Caller.text))),
        ("requirement", Proxy.orNull requirementJson row.requirement),
        ("crossOrigin", Proxy.orNull (fun form => Json.text (crossOriginText form)) row.crossOrigin) ])

/-- A problem told where something does not hold. -/
def problemUnless (holds : Bool) (problem : String) : List String := if holds then [] else [problem]

def procedureBreaks (before after : ProcedureRow) (queryBefore queryAfter : Option Shape) : List String :=
  problemUnless (acceptsEveryInput before.input after.input && acceptsEveryInput queryBefore queryAfter)
      ("'" ++ before.id ++ "' accepts less input than before")
    ++ problemUnless (outputText before.output == outputText after.output) ("'" ++ before.id ++
      "' answers another output than before")
    ++ problemUnless (before.method == after.method && before.path == after.path &&
      contentTypesText before == contentTypesText after)
      ("'" ++ before.id ++ "' changes its HTTP shape")
    ++ problemUnless (before.response == after.response) ("'" ++ before.id ++ "' changes its file answer")
    ++ problemUnless (accessText before == accessText after) ("'" ++ before.id ++ "' changes its access")

def rowBreaks (before after : ContractArtifact) (mount : String) (row : ProcedureRow) : List String :=
  match (mountEndpoints after mount).find? fun candidate => candidate.id == row.id with
  | none => ["removes '" ++ row.id ++ "'"]
  | some next => procedureBreaks row next (before.query row.id) (after.query row.id)

/-- `after.mounts[name]`, where it is an RPC mount at the prefix. -/
def staysAt (after : ContractArtifact) (name path : String) : Bool :=
  match after.mounts.lookup name with
  | some (.rpc now) => now.path == path
  | _ => false

def mountBreaks (before after : ContractArtifact) (name : String) : MountArtifact → List String
  | .rpc mount =>
    if !mount.backward then []
    else if !staysAt after name mount.path then
      ["mount '" ++ name ++ "' promises backward compatibility, and this deploy removes or moves it"]
    else (mountEndpoints before name).flatMap (rowBreaks before after name)
  | _ => []

/-- What `after` breaks for the callers of each mount `before` promises backward compatibility. -/
def incompatibleMountChanges (before after : ContractArtifact) : List String :=
  before.mounts.pairs.flatMap fun mount => mountBreaks before after mount.1 mount.2

/-! ## An export's procedures -/

structure ExportProcedureDescription where
  input : Option Shape
  output : SchemaShape

structure ExportDescription where
  audience : String
  procedures : Record ExportProcedureDescription

/-- A procedure the export never had is the consumer's mistake. -/
def pathBreaks (before after : ExportDescription) (path : String) : List String :=
  match before.procedures.lookup path, after.procedures.lookup path with
  | none, _ => []
  | some _, none => ["removes '" ++ path ++ "'"]
  | some old, some now =>
    problemUnless (acceptsEveryInput old.input now.input) ("'" ++ path ++ "' accepts less input than before")
      ++ problemUnless (canonicalJson (canonicalShape old.output) == canonicalJson (canonicalShape now.output))
        ("'" ++ path ++ "' answers another output than before")

/-- What a change of one export version breaks for a consumer that imports `procedures` of it. -/
def incompatibleChanges (before after : ExportDescription) (procedures : List String) : List String :=
  problemUnless (before.audience == after.audience) "changes its audience" ++ procedures.flatMap (pathBreaks before after)

end Fabrika.App.Connect
