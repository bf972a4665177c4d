import Lineage.Consolidation
import Mathlib.Data.Sym.Sym2

/-!
# What a graph says

The content of a graph leaves out the ids of the store, the node ids made for sub-processes and the
direction of synonym edges. Sub-processes are named by what they connect under which guid, and two
graphs have the same content where they say the same of their vertices and edges, each as often
(`Graph.SameContent`).
-/

namespace Lineage

open Std Consolidation

/-- What a vertex is called: its node id, or for a sub-process what it connects under which guid. -/
inductive VertexName where
  | plain (nodeId : Option String)
  | step (inputs outputs : List (Option String)) (guid : Option String)
deriving DecidableEq, Repr

inductive VertexContent where
  | plain (nodeId : Option String) (label : String) (properties : Properties)
  | step (inputs outputs : List (Option String)) (guid displayName : Option String)
    (owners : List (Option String))
deriving DecidableEq

def VertexContent.name : VertexContent → VertexName
  | plain nodeId _ _ => .plain nodeId
  | step inputs outputs guid _ _ => .step inputs outputs guid

inductive EdgeContent where
  | directed (label : String) (source target : Option VertexName)
  | undirected (label : String) (ends : Sym2 (Option VertexName))

/-- The content of an edge between vertices of some names: synonyms have no direction. -/
def EdgeContent.between (label : String) (source target : Option VertexName) : EdgeContent :=
  if label = EdgeLabel.synonym.name then .undirected label s(source, target)
  else .directed label source target

theorem EdgeContent.between_inj {label label' : String} {s t s' t' : Option VertexName}
    (h : between label s t = between label' s' t') :
    label = label' ∧ (s = s' ∧ t = t' ∨ label = EdgeLabel.synonym.name ∧ s = t' ∧ t = s') := by
  unfold between at h
  split_ifs at h with hl hl'
  · obtain ⟨rfl, hends⟩ := EdgeContent.undirected.inj h
    rcases Sym2.eq_iff.1 hends with hends | hends
    · exact ⟨rfl, .inl hends⟩
    · exact ⟨rfl, .inr ⟨hl, hends⟩⟩
  · obtain ⟨rfl, hs, ht⟩ := EdgeContent.directed.inj h
    exact ⟨rfl, .inl ⟨hs, ht⟩⟩

/-- Synonyms have no direction. -/
theorem EdgeContent.between_synonym (s t : Option VertexName) :
    between EdgeLabel.synonym.name s t = between EdgeLabel.synonym.name t s := by
  unfold between
  rw [if_pos rfl, if_pos rfl, Sym2.eq_swap]

namespace Graph

def nodeIdOf (g : Graph) (i : VertexId) : Option String :=
  (Readable.vertex? g i).bind Vertex.nodeId?

/-- The node ids at the far ends of edges of a label. -/
def idsOver (g : Graph) (v : Vertex) (d : Direction) (label : EdgeLabel) (far : Edge → VertexId) :
    List (Option String) :=
  (edgesAt g v.id d (some label.name)).map fun e => g.nodeIdOf (far e)

def contentOf (g : Graph) (v : Vertex) : VertexContent :=
  if v.label = NodeLabel.subProcess.name then
    .step (g.idsOver v .inward .columnAndProcess Edge.source)
      (g.idsOver v .outward .columnAndProcess Edge.target) v.guid? (v.property? Key.displayName)
      (g.idsOver v .outward .subprocessToProcess Edge.target)
  else .plain v.nodeId? v.label v.properties

def nameAt (g : Graph) (i : VertexId) : Option VertexName :=
  (Readable.vertex? g i).map fun v => (g.contentOf v).name

def edgeContentOf (g : Graph) (e : Edge) : EdgeContent :=
  .between e.label (g.nameAt e.source) (g.nameAt e.target)

/-- Two graphs say the same of their vertices and of their edges, each as often. -/
structure SameContent (g g' : Graph) : Prop where
  vertices : ((allVertices g).map g.contentOf).Perm ((allVertices g').map g'.contentOf)
  edges : ((allEdges g).map g.edgeContentOf).Perm ((allEdges g').map g'.edgeContentOf)

end Graph

end Lineage
