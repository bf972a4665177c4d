import Lineage.Graph.Read

/-!
# Transactions

A transaction leaves the graph it began on alone and keeps its writes in an overlay: new vertices
and edges, and copies of vertices whose properties it changed. Reads look at the overlay first. Ids
go on from those of the graph. Committing folds the overlay into the graph; rolling back just drops
it.
-/

namespace Lineage

open Std

structure Transaction where
  base : Graph
  overlay : Graph
deriving DecidableEq

namespace Graph

def begin (g : Graph) : Transaction where
  base := g
  overlay := { name := g.name, nextVertex := g.nextVertex, nextEdge := g.nextEdge }

end Graph

namespace Transaction

variable (t : Transaction)

/-! ## Reads -/

def vertex? (id : VertexId) : Option Vertex :=
  (t.overlay.vertices[id]?).or t.base.vertices[id]?

/-- A vertex that the overlay holds is found by its overlaid properties alone. -/
def verticesWith (key value : String) : List Vertex :=
  let kept := (t.base.verticesWith key value).filter fun v => !t.overlay.vertices.contains v.id
  let found := kept ++ t.overlay.verticesWith key value
  (ExtTreeMap.ofList (found.map fun v => (v.id, v))).values

def incident (v : VertexId) (direction : Direction) : List Edge :=
  t.base.incident v direction ++ t.overlay.incident v direction

def hasEdge (source : VertexId) (label : String) (target : VertexId) : Bool :=
  t.base.hasLink source label target || t.overlay.hasLink source label target

instance : Readable Transaction where
  graphName t := t.base.name
  vertex? := vertex?
  verticesWith := verticesWith
  incident := incident
  hasEdge := hasEdge
  allVertices t := (t.base.vertices ∪ t.overlay.vertices).values
  allEdges t := t.base.edges.values ++ t.overlay.edges.values

/-! ## Writes -/

def addVertex (label : String) (properties : Properties) : VertexId × Transaction :=
  let id := t.overlay.nextVertex
  (id, { t with overlay := t.overlay.insertVertex ⟨id, label, properties⟩ })

def setProperty (id : VertexId) (key value : String) : Except StoreError Transaction := do
  let v ← requireVertex t id
  return { t with overlay := t.overlay.insertVertex { v with
    properties := v.properties.insert key value } }

def addEdge (label : String) (source target : VertexId) (properties : Properties) :
    Except StoreError (EdgeId × Transaction) := do
  let _ ← requireVertex t source
  let _ ← requireVertex t target
  let id := t.overlay.nextEdge
  return (id, { t with overlay := t.overlay.attach ⟨id, label, source, target, properties⟩ })

/-! ## Ends -/

def commit : Graph :=
  let g := t.overlay.vertices.values.foldl Graph.insertVertex t.base
  let g := t.overlay.edges.values.foldl Graph.attach g
  { g with
    nextVertex := max g.nextVertex t.overlay.nextVertex
    nextEdge := max g.nextEdge t.overlay.nextEdge }

def rollback : Graph := t.base

end Transaction

end Lineage
