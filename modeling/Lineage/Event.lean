import Lineage.Json.Record

/-!
# Instance events

What an event source tells about metadata instances: an entity that is new or has changed, a
relationship between two entities, or the full context of a process with its column mappings. An
event is an object with its kind in the member `eventType`, or an array that begins with its kind;
the whole of it is read before it is judged, so nesting, numbers and strings are checked in its
unknown members too (`Event.ofJson?`).
-/

namespace Lineage

structure Entity where
  guid : String
  type : String
  properties : Properties := ∅
deriving DecidableEq

structure Relationship where
  guid : String
  type : String
  endOne : String
  endTwo : String
  properties : Properties := ∅
deriving DecidableEq

/-- One column feeds another. -/
structure ColumnMapping where
  input : String
  output : String
deriving DecidableEq, Repr

inductive Event where
  | newEntity (entity : Entity)
  | updatedEntity (entity : Entity)
  | newRelationship (relationship : Relationship)
  | processContext (process : Entity) (mappings : List ColumnMapping)
deriving DecidableEq

namespace Event

def kind : Event → String
  | newEntity _ => "NewEntity"
  | updatedEntity _ => "UpdatedEntity"
  | newRelationship _ => "NewRelationship"
  | processContext _ _ => "ProcessContext"

/-! ## Text -/

def entityToJson (e : Entity) : Json :=
  .obj [("guid", .str e.guid), ("typeName", .str e.type),
    ("properties", .ofProperties e.properties)]

def relationshipToJson (r : Relationship) : Json :=
  .obj [("guid", .str r.guid), ("typeName", .str r.type), ("endOneGuid", .str r.endOne),
    ("endTwoGuid", .str r.endTwo), ("properties", .ofProperties r.properties)]

def mappingToJson (m : ColumnMapping) : Json :=
  .obj [("inputColumn", .str m.input), ("outputColumn", .str m.output)]

def toJson (e : Event) : Json :=
  .obj (("eventType", .str e.kind) :: match e with
    | newEntity entity | updatedEntity entity => [("entity", entityToJson entity)]
    | newRelationship relationship => [("relationship", relationshipToJson relationship)]
    | processContext process mappings =>
      [("process", entityToJson process), ("mappings", .arr (mappings.map mappingToJson))])

def entityOfJson? (j : Json) : Option Entity := do
  let ms ← j.fields? ["guid", "typeName"] ["properties"]
  return {
    guid := ← Json.string? "guid" ms
    type := ← Json.string? "typeName" ms
    properties := ← Json.properties? "properties" ms }

def relationshipOfJson? (j : Json) : Option Relationship := do
  let ms ← j.fields? ["guid", "typeName", "endOneGuid", "endTwoGuid"] ["properties"]
  return {
    guid := ← Json.string? "guid" ms
    type := ← Json.string? "typeName" ms
    endOne := ← Json.string? "endOneGuid" ms
    endTwo := ← Json.string? "endTwoGuid" ms
    properties := ← Json.properties? "properties" ms }

def mappingOfJson? (j : Json) : Option ColumnMapping := do
  let ms ← j.fields? ["inputColumn", "outputColumn"] []
  return {
    input := ← Json.string? "inputColumn" ms
    output := ← Json.string? "outputColumn" ms }

/-- The kind of an event, and the record that tells the rest. -/
def kindAndContent? : Json → Option (String × Json)
  | .obj ms => (Json.string? "eventType" ms).map (·, .obj ms)
  | .arr (kind :: rest) => kind.asString?.map (·, .arr rest)
  | _ => none

def ofContent? (kind : String) (content : Json) : Option Event := do
  match kind with
  | "NewEntity" =>
    let ms ← content.fields? ["entity"] []
    return newEntity (← Json.record? entityOfJson? "entity" ms)
  | "UpdatedEntity" =>
    let ms ← content.fields? ["entity"] []
    return updatedEntity (← Json.record? entityOfJson? "entity" ms)
  | "NewRelationship" =>
    let ms ← content.fields? ["relationship"] []
    return newRelationship (← Json.record? relationshipOfJson? "relationship" ms)
  | "ProcessContext" =>
    let ms ← content.fields? ["process"] ["mappings"]
    return processContext (← Json.record? entityOfJson? "process" ms)
      (← Json.listOrNil? mappingOfJson? "mappings" ms)
  | _ => none

/-- The nesting of arrays and objects that is let through, counted from the outermost. -/
def nestingLimit : Nat := 127

/-- Whether the text about events can be held as a whole: its nesting, its numbers, its strings. -/
def withinBounds (j : Json) : Bool := j.depth ≤ nestingLimit && j.isReadable

def ofJson? (j : Json) : Option Event := do
  if withinBounds j then
    let (kind, content) ← kindAndContent? j
    ofContent? kind content
  else none

def listOfJson? (j : Json) : Option (List Event) := do
  if withinBounds j then (← j.asArray?).mapM ofJson? else none

def read? (text : String) : Option Event := (Json.parse text).bind ofJson?

def readList? (text : String) : Option (List Event) := (Json.parse text).bind listOfJson?

end Event

end Lineage
