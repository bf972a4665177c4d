import Lineage.Graph.Element

/-!
# Lineage fragments

A fragment says that a process takes data from one column to another. It is what a process context
carries, and the unit in which lineage is consolidated.
-/

namespace Lineage

/-- A process, as a fragment refers to it. -/
structure ProcessRef where
  guid : String
  displayName : Option String
deriving DecidableEq, Repr

/-- The process that a vertex is; it has to carry a guid. -/
def ProcessRef.ofVertex? (v : Vertex) : Option ProcessRef :=
  v.guid?.map fun guid => ⟨guid, v.displayName?⟩

structure Fragment where
  columnIn : String
  columnOut : String
  process : ProcessRef
deriving DecidableEq, Repr

end Lineage
