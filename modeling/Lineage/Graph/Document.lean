import Lineage.Graph.Transaction
import Lineage.Json.Record

/-!
# Graph documents

The portable form of a graph: a version, a name, and the records of its vertices and edges. Reading
accepts records in any order and ids of any size up to 64 bits; the version is judged only after the
whole document has been read. A graph is captured with its records by id (`Graph.capture`) and
rebuilt under the same ids (`Document.toGraph`).
-/

namespace Lineage

structure Document where
  version : Nat
  graph : String
  vertices : List Vertex
  edges : List Edge
deriving DecidableEq

namespace Document

/-! ## Text -/

def vertexToJson (v : Vertex) : Json :=
  .obj [("id", .ofNat v.id), ("label", .str v.label), ("properties", .ofProperties v.properties)]

def edgeToJson (e : Edge) : Json :=
  .obj [("id", .ofNat e.id), ("label", .str e.label), ("outV", .ofNat e.source),
    ("inV", .ofNat e.target), ("properties", .ofProperties e.properties)]

def toJson (d : Document) : Json :=
  .obj [("version", .ofNat d.version), ("graph", .str d.graph),
    ("vertices", .arr (d.vertices.map vertexToJson)), ("edges", .arr (d.edges.map edgeToJson))]

def write (d : Document) : String := d.toJson.pretty

def idLimit : Nat := Nat.pow 2 64

def versionLimit : Nat := Nat.pow 2 32

def vertexOfJson? (j : Json) : Option Vertex := do
  let ms ← j.fields? ["id", "label"] ["properties"]
  return {
    id := ← Json.nat? idLimit "id" ms
    label := ← Json.string? "label" ms
    properties := ← Json.properties? "properties" ms }

def edgeOfJson? (j : Json) : Option Edge := do
  let ms ← j.fields? ["id", "label", "outV", "inV"] ["properties"]
  return {
    id := ← Json.nat? idLimit "id" ms
    label := ← Json.string? "label" ms
    source := ← Json.nat? idLimit "outV" ms
    target := ← Json.nat? idLimit "inV" ms
    properties := ← Json.properties? "properties" ms }

def ofJson? (j : Json) : Option Document := do
  let ms ← j.fields? ["version", "graph", "vertices", "edges"] []
  return {
    version := ← Json.nat? versionLimit "version" ms
    graph := ← Json.string? "graph" ms
    vertices := ← Json.list? vertexOfJson? "vertices" ms
    edges := ← Json.list? edgeOfJson? "edges" ms }

def read (text : String) : Except StoreError Document :=
  match (Json.parse text).bind ofJson? with
  | none => .error .malformed
  | some d => if d.version = documentVersion then .ok d else .error (.unsupportedVersion d.version)

/-! ## Graphs -/

/-- Adds the edges in order; an end that is not in the graph stops it. -/
def attachAll : Graph → List Edge → Except StoreError Graph
  | g, [] => .ok g
  | g, e :: es =>
    if !g.vertices.contains e.source then .error (.danglingEdge e.id e.source)
    else if !g.vertices.contains e.target then .error (.danglingEdge e.id e.target)
    else attachAll (g.attach e) es

/-- The graph of a document, under a name of the caller's. -/
def toGraph (d : Document) (name : String) : Except StoreError Graph :=
  attachAll (d.vertices.foldl Graph.insertVertex (.empty name)) d.edges

end Document

namespace Graph

def capture (g : Graph) : Document where
  version := documentVersion
  graph := g.name
  vertices := allVertices g
  edges := allEdges g

def exportText (g : Graph) : String := g.capture.write

/-- The graph that a document's text describes. -/
def load (name text : String) : Except StoreError Graph := do
  let d ← Document.read text
  d.toGraph name

end Graph

end Lineage
