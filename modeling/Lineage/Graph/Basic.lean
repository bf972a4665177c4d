import Lineage.Graph.Element
import Lineage.Files
import Std.Data.ExtTreeSet

/-!
# The indexed graph

The contents of a graph beside four indexes: the edges leaving and entering each vertex in the
order they were attached, the links (which labels join which vertices), and the vertices that hold
each pair of key and value. `insertVertex` and `attach` are the only ways in; they keep the
counters above every id.

Attaching an edge under an id that is taken replaces the edge, and leaves the entries of the old one
in adjacency and links.
-/

namespace Lineage

open Std

/-- Why a graph could not be read, written or loaded. -/
inductive StoreError where
  | vertexNotFound (graph : String) (id : VertexId)
  | unsupportedVersion (found : Nat)
  /-- An edge of a document has an end that is no vertex of it. -/
  | danglingEdge (edge : EdgeId) (vertex : VertexId)
  /-- Text that is not a document. -/
  | malformed
  | file (cause : FileError)
deriving DecidableEq, Repr

/-- The version of graph documents. -/
def documentVersion : Nat := 1

def StoreError.message : StoreError → String
  | vertexNotFound graph id => s!"Vertex {Vertex.writeId id} not found in graph '{graph}'"
  | unsupportedVersion found =>
    s!"Invalid graph document: unsupported document version {found} (expected {documentVersion})"
  | danglingEdge edge vertex =>
    "Invalid graph document: edge " ++ Edge.writeId edge ++ " references unknown vertex " ++
      Vertex.writeId vertex
  | malformed => "Serialization error"
  | file cause => "IO error: " ++ cause.message

/-! ## Keys of the indexes -/

/-- That some edge of a label runs from one vertex to another. -/
structure Link where
  source : VertexId
  target : VertexId
  label : String
deriving DecidableEq, Repr

namespace Link

def order : Link → Link → Ordering :=
  compareLex (compareOn Link.source) (compareLex (compareOn Link.target) (compareOn Link.label))

instance : Ord Link := ⟨order⟩

instance : TransOrd Link := inferInstanceAs (TransCmp (compareLex (compareOn Link.source)
  (compareLex (compareOn Link.target) (compareOn Link.label))))

instance : LawfulEqOrd Link where
  eq_of_compare {a b} h := by
    obtain ⟨hs, h⟩ := Ordering.then_eq_eq.1 h
    obtain ⟨ht, hl⟩ := Ordering.then_eq_eq.1 h
    cases a; cases b
    simp only [Link.mk.injEq]
    exact ⟨LawfulEqOrd.eq_of_compare hs, LawfulEqOrd.eq_of_compare ht,
      LawfulEqOrd.eq_of_compare hl⟩

end Link

/-- A property as the index files it. -/
structure PropertyPair where
  key : String
  value : String
deriving DecidableEq, Repr

namespace PropertyPair

def order : PropertyPair → PropertyPair → Ordering :=
  compareLex (compareOn PropertyPair.key) (compareOn PropertyPair.value)

instance : Ord PropertyPair := ⟨order⟩

instance : TransOrd PropertyPair := inferInstanceAs (TransCmp
  (compareLex (compareOn PropertyPair.key) (compareOn PropertyPair.value)))

instance : LawfulEqOrd PropertyPair where
  eq_of_compare {a b} h := by
    obtain ⟨hk, hv⟩ := Ordering.then_eq_eq.1 h
    cases a; cases b
    simp only [PropertyPair.mk.injEq]
    exact ⟨LawfulEqOrd.eq_of_compare hk, LawfulEqOrd.eq_of_compare hv⟩

end PropertyPair

/-! ## The property index -/

/-- The vertices that hold each pair of key and value. -/
abbrev PropertyIndex := ExtTreeMap PropertyPair (ExtTreeSet VertexId)

namespace PropertyIndex

def holders (ix : PropertyIndex) (key value : String) : ExtTreeSet VertexId :=
  ix[PropertyPair.mk key value]?.getD ∅

/-- Files a vertex under each of its properties. -/
def add (ix : PropertyIndex) (v : Vertex) : PropertyIndex :=
  v.properties.toList.foldl
    (fun ix p => ix.alter ⟨p.1, p.2⟩ fun ids => some ((ids.getD ∅).insert v.id)) ix

/-- Takes a vertex out of the places where its properties put it; a place left empty goes too. -/
def remove (ix : PropertyIndex) (v : Vertex) : PropertyIndex :=
  v.properties.toList.foldl
    (fun ix p => ix.alter ⟨p.1, p.2⟩ fun ids => (ids.map (·.erase v.id)).filter (!·.isEmpty)) ix

end PropertyIndex

/-! ## The graph -/

structure Graph where
  name : String
  nextVertex : VertexId := 0
  nextEdge : EdgeId := 0
  vertices : ExtTreeMap VertexId Vertex := ∅
  edges : ExtTreeMap EdgeId Edge := ∅
  leaving : ExtTreeMap VertexId (List EdgeId) := ∅
  entering : ExtTreeMap VertexId (List EdgeId) := ∅
  links : ExtTreeSet Link := ∅
  index : PropertyIndex := ∅
deriving DecidableEq

namespace Graph

def empty (name : String) : Graph := { name }

/-- Puts in a vertex under its own id, in place of the one that had the id. -/
def insertVertex (g : Graph) (v : Vertex) : Graph :=
  let index := match g.vertices[v.id]? with
    | some old => g.index.remove old
    | none => g.index
  { g with
    vertices := g.vertices.insert v.id v
    index := index.add v
    nextVertex := max g.nextVertex (v.id + 1) }

/-- Adds an edge under its own id. -/
def attach (g : Graph) (e : Edge) : Graph :=
  { g with
    edges := g.edges.insert e.id e
    leaving := g.leaving.alter e.source fun ids => some (ids.getD [] ++ [e.id])
    entering := g.entering.alter e.target fun ids => some (ids.getD [] ++ [e.id])
    links := g.links.insert ⟨e.source, e.target, e.label⟩
    nextEdge := max g.nextEdge (e.id + 1) }

/-! ## Look-ups -/

def verticesWith (g : Graph) (key value : String) : List Vertex :=
  (g.index.holders key value).toList.filterMap fun id => g.vertices[id]?

/-- The edges at a vertex, through the adjacency index. -/
def incident (g : Graph) (v : VertexId) (direction : Direction) : List Edge :=
  let leaving := g.leaving[v]?.getD []
  let entering := g.entering[v]?.getD []
  let ids := match direction with
    | .outward => leaving
    | .inward => entering
    | .both => leaving ++ entering
  ids.filterMap fun id => g.edges[id]?

def hasLink (g : Graph) (source : VertexId) (label : String) (target : VertexId) : Bool :=
  g.links.contains ⟨source, target, label⟩

end Graph

end Lineage
