import Lineage.Json.Record
import Lineage.Whitelist

/-!
# Responses

The answer to a lineage request as it goes over the wire: vertices by id and edges by label, source
and destination (`Response.ofParts`). Reading a response takes it as it comes, in any order.
-/

namespace Lineage

open Std

structure ResponseVertex where
  id : String
  type : String
  guid : Option String := none
  displayName : Option String := none
  /-- Whitelisted properties only. -/
  attributes : Properties := ∅
deriving DecidableEq

structure ResponseEdge where
  label : String
  source : String
  destination : String
deriving DecidableEq, Repr

namespace ResponseEdge

/-- Edges are listed by label, then source, then destination. -/
def order : ResponseEdge → ResponseEdge → Ordering :=
  compareLex (compareOn label) (compareLex (compareOn source) (compareOn destination))

instance : Ord ResponseEdge := ⟨order⟩

instance : TransOrd ResponseEdge := inferInstanceAs (TransCmp
  (compareLex (compareOn label) (compareLex (compareOn source) (compareOn destination))))

instance : LawfulEqOrd ResponseEdge where
  eq_of_compare {a b} h := by
    obtain ⟨hl, h⟩ := Ordering.then_eq_eq.1 h
    obtain ⟨hs, hd⟩ := Ordering.then_eq_eq.1 h
    cases a; cases b
    simp only [ResponseEdge.mk.injEq]
    exact ⟨LawfulEqOrd.eq_of_compare hl, LawfulEqOrd.eq_of_compare hs,
      LawfulEqOrd.eq_of_compare hd⟩

end ResponseEdge

structure Response where
  vertices : List ResponseVertex
  edges : List ResponseEdge
deriving DecidableEq

namespace Response

/-- The response made of vertices filed under their ids and a set of edges. -/
def ofParts (vertices : ExtTreeMap String ResponseVertex) (edges : ExtTreeSet ResponseEdge) :
    Response where
  vertices := vertices.values
  edges := edges.toList

def vertex? (r : Response) (id : String) : Option ResponseVertex :=
  r.vertices.find? fun v => v.id == id

def containsVertex (r : Response) (id : String) : Bool := (r.vertex? id).isSome

def containsEdge (r : Response) (e : ResponseEdge) : Bool := r.edges.contains e

def vertexIds (r : Response) : List String := (ExtTreeSet.ofList (r.vertices.map (·.id))).toList

def verticesOfType (r : Response) (type : String) : List ResponseVertex :=
  r.vertices.filter fun v => v.type == type

/-- The response filed afresh; of vertices under one id the last counts. -/
def rebuild (r : Response) : Response :=
  ofParts (ExtTreeMap.ofList (r.vertices.map fun v => (v.id, v))) (ExtTreeSet.ofList r.edges)

/-! ## Text -/

def optionalMember (name : String) : Option String → List (String × Json)
  | none => []
  | some s => [(name, .str s)]

def vertexToJson (v : ResponseVertex) : Json :=
  .obj (("id", .str v.id) :: ("type", .str v.type) :: optionalMember "guid" v.guid ++
    optionalMember "displayName" v.displayName ++ [("attributes", .ofProperties v.attributes)])

def edgeToJson (e : ResponseEdge) : Json :=
  .obj [("label", .str e.label), ("sourceId", .str e.source), ("destinationId", .str e.destination)]

def toJson (r : Response) : Json :=
  .obj [("vertices", .arr (r.vertices.map vertexToJson)), ("edges", .arr (r.edges.map edgeToJson))]

def write (r : Response) : String := r.toJson.pretty

/-- An array has to give the guid and the display name too, as `null` if there is none. -/
def vertexOfJson? (j : Json) : Option ResponseVertex := do
  let ms ← j.fields? ["id", "type", "guid", "displayName"] ["attributes"]
  return {
    id := ← Json.string? "id" ms
    type := ← Json.string? "type" ms
    guid := ← Json.stringOrNull? "guid" ms
    displayName := ← Json.stringOrNull? "displayName" ms
    attributes := ← Json.properties? "attributes" ms }

def edgeOfJson? (j : Json) : Option ResponseEdge := do
  let ms ← j.fields? ["label", "sourceId", "destinationId"] []
  return {
    label := ← Json.string? "label" ms
    source := ← Json.string? "sourceId" ms
    destination := ← Json.string? "destinationId" ms }

def ofJson? (j : Json) : Option Response := do
  let ms ← j.fields? ["vertices", "edges"] []
  return {
    vertices := ← Json.list? vertexOfJson? "vertices" ms
    edges := ← Json.list? edgeOfJson? "edges" ms }

def read? (text : String) : Option Response := (Json.parse text).bind ofJson?

end Response

end Lineage
