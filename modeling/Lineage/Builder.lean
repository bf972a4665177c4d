import Lineage.Graph.Read
import Lineage.Response

/-!
# Building a response

A response is built up from stored vertices and edges. Its vertices are filed under their response
ids: of two stored vertices with one response id the first counts, and an edge brings its ends with
it. Several terminals are condensed into one synthetic vertex, filed under a reserved id
(`Side.sentinel`) in place of whatever was there.
-/

namespace Lineage

open Std

/-- The side of the queried vertex that a frontier lies on: where its data comes from, or where it
goes. -/
inductive Side where
  | source
  | destination
deriving DecidableEq, Repr

namespace Side

/-- The id of the vertex that condenses a frontier. -/
def sentinel : Side → String
  | source => "condensedSource"
  | destination => "condensedDestination"

def direction : Side → Direction
  | source => .inward
  | destination => .outward

/-- An edge of the flow of data, from the nearer end to the farther one as seen from the queried
vertex. -/
def edge (s : Side) (label nearer farther : String) : ResponseEdge :=
  match s with
  | source => ⟨label, farther, nearer⟩
  | destination => ⟨label, nearer, farther⟩

end Side

/-- The identity of a stored vertex in a response. -/
def Vertex.responseId (v : Vertex) : String := (v.nodeId?.or v.guid?).getD (Vertex.writeId v.id)

/-- A stored vertex as a response shows it. -/
def Vertex.abstract (w : Whitelist) (v : Vertex) : ResponseVertex where
  id := v.responseId
  type := v.label
  guid := v.guid?
  displayName := v.displayName?
  attributes := v.properties.filter fun key _ => w.allows key

structure Builder where
  whitelist : Whitelist
  /-- The response ids of the stored vertices added so far. -/
  ids : ExtTreeMap VertexId String := ∅
  vertices : ExtTreeMap String ResponseVertex := ∅
  edges : ExtTreeSet ResponseEdge := ∅

namespace Builder

def empty (w : Whitelist) : Builder := { whitelist := w }

/-- Adds a stored vertex, and yields its response id. -/
def addVertex (b : Builder) (v : Vertex) : String × Builder :=
  match b.ids[v.id]? with
  | some id => (id, b)
  | none =>
    let shown := v.abstract b.whitelist
    (shown.id, { b with
      ids := b.ids.insert v.id shown.id
      vertices := b.vertices.insertIfNew shown.id shown })

def addVertices (b : Builder) (vs : List Vertex) : Builder :=
  vs.foldl (fun b v => (b.addVertex v).2) b

section Graphs

variable {γ : Type} [Readable γ] (g : γ)

/-- Adds the end of an edge, and yields its response id. -/
def addEnd (b : Builder) (id : VertexId) : Except StoreError (String × Builder) :=
  match b.ids[id]? with
  | some shown => .ok (shown, b)
  | none => (requireVertex g id).map b.addVertex

def addEdge (b : Builder) (e : Edge) : Except StoreError Builder := do
  let (source, b) ← b.addEnd g e.source
  let (target, b) ← b.addEnd g e.target
  return { b with edges := b.edges.insert ⟨e.label, source, target⟩ }

def addEdges (b : Builder) (es : List Edge) : Except StoreError Builder :=
  es.foldlM (fun b e => b.addEdge g e) b

end Graphs

/-- The vertex that stands for a whole frontier. -/
def condensedVertex (side : Side) : ResponseVertex where
  id := side.sentinel
  type := NodeLabel.condensed.name
  displayName := some side.sentinel

/-- Puts one synthetic vertex between the queried vertex and a frontier. -/
def condense (b : Builder) (side : Side) (queried : Vertex) (frontier : List Vertex) : Builder :=
  let label := EdgeLabel.condensed.name
  let (queriedId, b) := b.addVertex queried
  let b := { b with
    vertices := b.vertices.insert side.sentinel (condensedVertex side)
    edges := b.edges.insert (side.edge label queriedId side.sentinel) }
  frontier.foldl (fun b v =>
    let (id, b) := b.addVertex v
    { b with edges := b.edges.insert (side.edge label side.sentinel id) }) b

def finish (b : Builder) : Response := .ofParts b.vertices b.edges

end Builder

end Lineage
