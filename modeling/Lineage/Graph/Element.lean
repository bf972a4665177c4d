import Lineage.Properties
import Lineage.Vocabulary

/-!
# Vertices and edges

Elements of a labelled, directed multigraph. An id means something inside one graph only; what a
vertex stands for is in its properties (`Vertex.nodeId?`, `Vertex.guid?`).
-/

namespace Lineage

abbrev VertexId := Nat

abbrev EdgeId := Nat

structure Vertex where
  id : VertexId
  label : String
  properties : Properties
deriving DecidableEq

structure Edge where
  id : EdgeId
  label : String
  source : VertexId
  target : VertexId
  properties : Properties
deriving DecidableEq

namespace Vertex

def property? (v : Vertex) (key : String) : Option String := v.properties[key]?

def guid? (v : Vertex) : Option String := v.property? Key.guid

def nodeId? (v : Vertex) : Option String := v.property? Key.nodeId

/-- The display name, or else the one the instance carried. -/
def displayName? (v : Vertex) : Option String :=
  (v.property? Key.displayName).or (v.property? Key.entityDisplayName)

/-- How an id is written where a vertex has no other identity. -/
def writeId (id : VertexId) : String := "v" ++ toString id

end Vertex

namespace Edge

def writeId (id : EdgeId) : String := "e" ++ toString id

/-- The end opposite to a vertex. -/
def other (e : Edge) (v : VertexId) : VertexId := if e.source = v then e.target else e.source

@[simp]
theorem other_source (e : Edge) : e.other e.source = e.target := if_pos rfl

@[simp]
theorem other_target (e : Edge) : e.other e.target = e.source := by
  unfold other
  split
  · next h => exact h.symm
  · rfl

end Edge

/-- Which edges to follow, seen from a vertex. -/
inductive Direction where
  /-- Those that leave it. -/
  | outward
  /-- Those that enter it. -/
  | inward
  /-- All; first those that leave. -/
  | both
deriving DecidableEq, Repr

def Direction.reverse : Direction → Direction
  | outward => inward
  | inward => outward
  | both => both

end Lineage
