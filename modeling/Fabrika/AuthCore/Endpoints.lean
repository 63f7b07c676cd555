/-
  Fabrika.AuthCore.Endpoints — endpoints.ts: the endpoint matcher of every endpoint table.

  A table is analysed once (`analyse`): every path parses, ids and reserved prefixes are
  declared once, and no two rows of overlapping methods have paths of one shape. A
  compiled table then selects (`select`): refuse a non-canonical path, and of the rows
  that serve the method, match the path and, under a reserved prefix, lie under the
  longest one, take the most specific. The loop keeps the best row so far and whether
  another row ties with it; a surviving tie selects nothing.
-/

import Fabrika.AuthCore.Paths
import Fabrika.Lib.Select

namespace Fabrika.AuthCore.Endpoints

open Fabrika.Lib Fabrika.AuthCore.Paths

/-! ## Rows and tables -/

/-- `InstallationEndpointMethod`; `any` is `*`, which only an installation row may have. -/
inductive EndpointMethod
  | get
  | post
  | any
  deriving DecidableEq

def EndpointMethod.text : EndpointMethod → String
  | .get => "GET"
  | .post => "POST"
  | .any => "*"

/-- What selection reads of a row. -/
class EndpointPattern (Row : Type) where
  id : Row → String
  method : Row → EndpointMethod
  path : Row → String

export EndpointPattern (id method path)

structure EndpointPatternTable (Row : Type) where
  endpoints : List Row
  reservedPrefixes : List String

inductive Segment
  | literal (value : String)
  | param (name : String)
  | wildcard
  deriving DecidableEq

structure CompiledEndpoint (Row : Type) where
  row : Row
  segments : List Segment
  deriving DecidableEq

structure CompiledEndpointTable (Row : Type) where
  endpoints : List (CompiledEndpoint Row)
  reservedPrefixes : List String
  deriving DecidableEq

/-- The `:name` segments of the selected path, raw and still percent-encoded. The names of
    a pattern are distinct, so the entries are the object `Object.fromEntries` makes. -/
abbrev Params := List (String × String)

inductive EndpointPlan (Row : Type)
  | nonCanonical
  | noEndpoint
  | endpoint (endpoint : Row) (params : Params)
  deriving DecidableEq

/-! ## Patterns -/

/-- Split literally: a trailing `/` stays an empty last segment. -/
def splitPath (path : String) : List String := if path = "/" then [] else segmentsOf path

def prototypeNames : List String := ["__proto__", "constructor", "prototype"]

/-- The loop of `parsePattern`: `names` are the parameters declared so far. -/
def parseSegments (names : List String) : List String → Except String (List Segment)
  | [] => .ok []
  | segment :: rest =>
    if segment = "*" then
      if rest ≠ [] then .error "'*' must be the last segment"
      else .ok [.wildcard]
    else if Text.includesChar segment '*' then .error "'*' must be a whole segment"
    else if Text.startsWith segment ":" then
      match parameterName segment with
      | none => .error "':' must start a parameter name of letters, digits and '_'"
      | some name =>
        if name ∈ prototypeNames then .error ("'" ++ name ++ "' is not allowed as a parameter name")
        else if name ∈ names then .error ("parameter '" ++ name ++ "' is declared twice")
        else (parseSegments (name :: names) rest).map (.param name :: ·)
    else (parseSegments names rest).map (.literal segment :: ·)

def parsePattern (path : String) : Except String (List Segment) :=
  if !isCanonicalPath path then .error "not a canonical path"
  else parseSegments [] (splitPath path)

def Segment.isLiteral : Segment → Bool
  | .literal _ => true
  | _ => false

def isReservedPrefix (path : String) : Bool :=
  match parsePattern path with
  | .ok segments => !segments.isEmpty && !Text.endsWith path "/" && segments.all Segment.isLiteral
  | .error _ => false

def isUnder (path start : String) : Bool := Text.startsWith path (start ++ "/")

/-- One turn of the loop of `longestPrefixOf`. -/
def longerPrefix (path : String) (longest : Option String) (start : String) : Option String :=
  if !isUnder path start then longest
  else match longest with
    | none => some start
    | some l => if start.length > l.length then some start else longest

def longestPrefixOf (path : String) (starts : List String) : Option String := starts.foldl (longerPrefix path) none

def shapeOf : Segment → String
  | .literal value => "=" ++ value
  | .param _ => "param"
  | .wildcard => "wildcard"

/-- `JSON.stringify` of these strings is injective, so the list stands for its text. -/
def shape (segments : List Segment) : List String := segments.map shapeOf

def methodsOverlap (declared other : EndpointMethod) : Bool :=
  declared == other || declared == .any || other == .any

/-- A request's method is never a pattern: one sent as `*` selects only a `*` endpoint. -/
def servesMethod (declared : EndpointMethod) (requested : String) : Bool :=
  declared == .any || declared.text == requested

/-- The loop of `matchSegments` from `index` on, `path` being what is left of the path. -/
def matchFrom (index : Nat) : List Segment → List String → Option Params
  | [], path => if path = [] then some [] else none
  -- A non-root wildcard needs the `/` before it: `/x/` matches, `/x` does not.
  | .wildcard :: _, path => if index = 0 ∨ path ≠ [] then some [] else none
  | _ :: _, [] => none
  | .param name :: segments, value :: path =>
    if value = "" then none else (matchFrom (index + 1) segments path).map ((name, value) :: ·)
  | .literal expected :: segments, value :: path =>
    if expected ≠ value then none else matchFrom (index + 1) segments path

def matchSegments (segments : List Segment) (path : List String) : Option Params := matchFrom 0 segments path

def rank : Segment → Nat
  | .literal _ => 0
  | .param _ => 1
  | .wildcard => 2

/-- Negative when `a` is more specific: the first segment whose kind differs decides, and a
    pattern that ends where the other continues is the more specific one. -/
def compareSpecificity : List Segment → List Segment → Int
  | left :: a, right :: b =>
    let order : Int := rank left - rank right
    if order ≠ 0 then order else compareSpecificity a b
  | a, b => a.length - b.length

/-! ## The analysis of a table -/

section
variable {Row : Type} [EndpointPattern Row]

/-- The locals of the first loop of `analyse`; `shapes` holds the map's entries in order. -/
structure Analysis (Row : Type) where
  problems : List String := []
  endpoints : List (CompiledEndpoint Row) := []
  ids : List String := []
  shapes : List (List String × Row) := []

def analyseRow (s : Analysis Row) (row : Row) : Analysis Row :=
  let problems := if id row ∈ s.ids then s.problems ++ ["endpoint id '" ++ id row ++ "' is declared twice"] else s.problems
  let ids := id row :: s.ids
  match parsePattern (path row) with
  | .error problem =>
    { s with ids, problems := problems ++ ["endpoint '" ++ id row ++ "' has path '" ++ path row ++ "': " ++ problem] }
  | .ok segments =>
    let previous := s.shapes.find? fun other => other.1 == shape segments && methodsOverlap (method other.2) (method row)
    { ids
      problems := match previous with
        | some other =>
        problems ++ ["'" ++ id row ++ "' and '" ++ id other.2 ++ "' both serve " ++ (method row).text ++ " " ++ path row]
        | none => problems
      shapes := s.shapes ++ [(shape segments, row)]
      endpoints := s.endpoints ++ [⟨row, segments⟩] }

/-- The second loop of `analyse`: the problems so far and the prefixes seen. -/
def analysePrefix (s : List String × List String) (start : String) : List String × List String :=
  let problems :=
    if !isReservedPrefix start then
      s.1 ++ ["reserved prefix '" ++ start ++ "' must be a literal path below the root, without a trailing '/'"]
    else if start ∈ s.2 then s.1 ++ ["reserved prefix '" ++ start ++ "' is declared twice"]
    else s.1
  (problems, start :: s.2)

/-- An error is an `EndpointTableError` with its problems. -/
def analyse (table : EndpointPatternTable Row) : Except (List String) (List (CompiledEndpoint Row)) :=
  let rows := table.endpoints.foldl analyseRow {}
  let problems := (table.reservedPrefixes.foldl analysePrefix (rows.problems, [])).1
  if problems.length > 0 then .error problems else .ok rows.endpoints

def compileEndpointTable (table : EndpointPatternTable Row) : Except (List String) (CompiledEndpointTable Row) :=
  (analyse table).map fun endpoints => ⟨endpoints, table.reservedPrefixes⟩

/-! ## Selection -/

/-- What one endpoint comes to before it competes: skipped, or its parameters. -/
def candidate (reserved : Option String) (requested : String) (path' : List String) (endpoint : CompiledEndpoint Row) :
    Option (CompiledEndpoint Row × Params) :=
  if !servesMethod (method endpoint.row) requested ||
      (match reserved with | some start => !isUnder (path endpoint.row) start | none => false) then none
  else (matchSegments endpoint.segments path').map (endpoint, ·)

/-- One turn of the loop of `select`, over the best endpoint so far and the tie flag. -/
def consider (reserved : Option String) (requested : String) (path' : List String)
    (s : Select.Scan (CompiledEndpoint Row × Params)) (endpoint : CompiledEndpoint Row) :
    Select.Scan (CompiledEndpoint Row × Params) :=
  match candidate reserved requested path' endpoint with
  | none => s
  | some c => s.step (fun a b => compareSpecificity a.1.segments b.1.segments) c

/-- The loop of `select`. -/
def competition (table : CompiledEndpointTable Row) (requested rawPath : String) :
    Select.Scan (CompiledEndpoint Row × Params) :=
  table.endpoints.foldl (consider (longestPrefixOf rawPath table.reservedPrefixes) requested (splitPath rawPath))
    Select.Scan.start

def planEndpoint (table : CompiledEndpointTable Row) (requested rawPath : String) : EndpointPlan Row :=
  if !isCanonicalPath rawPath then .nonCanonical
  else
    let s := competition table requested rawPath
    match s.best with
    | none => .noEndpoint
    | some best => if s.tied then .noEndpoint else .endpoint best.1.row best.2

end

end Fabrika.AuthCore.Endpoints
