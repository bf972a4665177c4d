import Lineage.Graph.Basic

/-!
# Reading a graph

What a committed graph and an open transaction have in common: six look-ups, from which the other
reads are made. A committed graph answers from its indexes.
-/

namespace Lineage

class Readable (γ : Type) where
  graphName : γ → String
  vertex? : γ → VertexId → Option Vertex
  /-- The vertices that hold a property, by id. -/
  verticesWith : γ → String → String → List Vertex
  /-- The edges at a vertex, in the order they are to be followed. -/
  incident : γ → VertexId → Direction → List Edge
  /-- Whether an edge of a label runs from one vertex to another. -/
  hasEdge : γ → VertexId → String → VertexId → Bool
  /-- All vertices, by id. -/
  allVertices : γ → List Vertex
  /-- All edges, by id. -/
  allEdges : γ → List Edge

export Readable (graphName vertex? verticesWith incident hasEdge allVertices allEdges)

instance : Readable Graph where
  graphName g := g.name
  vertex? g id := g.vertices[id]?
  verticesWith := Graph.verticesWith
  incident := Graph.incident
  hasEdge := Graph.hasLink
  allVertices g := g.vertices.values
  allEdges g := g.edges.values

variable {γ : Type} [Readable γ]

/-- The first vertex that holds a property. -/
def vertexWith? (g : γ) (key value : String) : Option Vertex := (verticesWith g key value).head?

/-- A vertex that has to be there. -/
def requireVertex (g : γ) (id : VertexId) : Except StoreError Vertex :=
  match vertex? g id with
  | some v => .ok v
  | none => .error (.vertexNotFound (graphName g) id)

/-- Whether an edge is of a label, where no label admits all. -/
def Edge.matches (label : Option String) (e : Edge) : Bool := label.all (· == e.label)

def edgesAt (g : γ) (v : VertexId) (direction : Direction) (label : Option String) : List Edge :=
  (incident g v direction).filter (Edge.matches label)

/-- The edges at a vertex, each with the vertex at its other end. -/
def neighbors (g : γ) (v : VertexId) (direction : Direction) (label : Option String) :
    Except StoreError (List (Edge × Vertex)) :=
  (edgesAt g v direction label).mapM fun e => (requireVertex g (e.other v)).map (e, ·)

end Lineage
