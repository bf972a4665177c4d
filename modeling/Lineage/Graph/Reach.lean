import Lineage.Graph.Read

/-!
# Reach

All that can be reached from a vertex over the edges of one label in one direction. Only the list
of vertices is searched for, breadth first (`closure`); the edges passed and the terminals, the
vertices where no edge goes on, are read off that list.
-/

namespace Lineage

structure Reach where
  /-- In the order of discovery, the start first. -/
  vertices : List Vertex
  /-- Each once, in the order in which they are met. -/
  edges : List Edge
  /-- The vertices with no edge to follow, in the order of discovery. -/
  terminals : List Vertex
deriving DecidableEq

namespace Reach

/-- Whether the start is its own only terminal. -/
def isTrivial (r : Reach) (start : VertexId) : Bool :=
  match r.terminals with
  | [v] => v.id == start
  | _ => false

variable {γ : Type} [Readable γ] (g : γ) (direction : Direction) (label : String)

def onward (v : Vertex) : List Edge := edgesAt g v.id direction (some label)

/-- Puts the other ends of edges behind the vertices found, as far as they are new. -/
def discover (v : Vertex) : List Edge → List Vertex → Except StoreError (List Vertex)
  | [], found => .ok found
  | e :: es, found =>
    if found.any fun u => u.id == e.other v.id then discover v es found
    else do
      let u ← requireVertex g (e.other v.id)
      discover v es (found ++ [u])

/-- Follows the edges of the vertices found, from the given position on. Every round moves on by one
vertex, and no vertex is found twice, so as many rounds as the graph has vertices are enough. -/
def closureFrom : Nat → Nat → List Vertex → Except StoreError (List Vertex)
  | 0, _, found => .ok found
  | rounds + 1, position, found =>
    match found[position]? with
    | none => .ok found
    | some v => do
      let found ← discover g v (onward g direction label v) found
      closureFrom rounds (position + 1) found

def closure (start : Vertex) : Except StoreError (List Vertex) :=
  closureFrom g direction label ((allVertices g).length + 1) 0 [start]

/-- Keeps the first edge of each id. -/
def distinctEdges (es : List Edge) : List Edge := es.eraseDupsBy fun e f => e.id == f.id

end Reach

variable {γ : Type} [Readable γ]

def reach (g : γ) (start : Vertex) (direction : Direction) (label : String) :
    Except StoreError Reach := do
  let vertices ← Reach.closure g direction label start
  return {
    vertices
    edges := Reach.distinctEdges (vertices.flatMap (Reach.onward g direction label))
    terminals := vertices.filter fun v => (Reach.onward g direction label v).isEmpty }

end Lineage
