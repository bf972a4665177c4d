import Lineage.Buffer
import Lineage.Graph.Expansion
import Std.Data.String.ToNat

/-!
# Consolidation

Folds a fragment of the buffer graph into a consolidated graph. Columns, tables, terms and the
process are looked up by node id and created where they are missing; then the columns are linked
through a new sub-process, unless that very fragment is there already (`isPresent`). The node ids of
sub-processes are generated, and where they come from is left open (`StepIds`). All writes of a
fragment are in one transaction, so a fragment that fails leaves no trace (`consolidate`).

A vertex of the buffer that is looked for by structure (the enclosing table or schema) is the
nearest one; relationships that carry meaning or data flow do not lead to it (`nearestContainer`).
-/

namespace Lineage

/-- How many hops the searches in the buffer graph may take. -/
structure SearchDepths where
  table : Nat := 2
  schema : Nat := 3
deriving DecidableEq, Repr

/-- Where sub-processes get their node ids from: every vertex id of a graph has one of its own. -/
class StepIds where
  nodeId : VertexId → String
  injective {i j : VertexId} (h : nodeId i = nodeId j) : i = j

/-- Sub-processes are numbered by their vertices. -/
instance StepIds.numbered : StepIds where
  nodeId id := "sub#" ++ toString id
  injective h := by
    rw [String.append_right_inj] at h
    exact Nat.repr_injective h

inductive Outcome where
  /-- The fragment is in the graph now, as the sub-process with this node id. -/
  | applied (subProcess : String)
  | alreadyPresent
deriving DecidableEq, Repr

namespace Consolidation

/-! ## Searches in the buffer -/

def bufferVertex (buffer : Graph) (guid : String) : Except LineageError Vertex :=
  match vertexWith? buffer Key.guid guid with
  | some v => .ok v
  | none => .error (.notFound .consolidate guid)

def structuralRule : ExpansionRule where
  direction := .both
  accepts e := TypeName.isStructural e.label
  simplePaths := true

/-- The nearest vertex but the start itself whose label is wanted. -/
def nearestContainer (buffer : Graph) (start : VertexId) (wanted : String → Bool) (maxHops : Nat) :
    Except StoreError (Option Vertex) := do
  let reached ← expandBy buffer structuralRule start maxHops
  return (reached.find? fun r => 0 < r.depth && wanted r.vertex.label).map (·.vertex)

def nearestTable (depths : SearchDepths) (buffer : Graph) (start : VertexId) :
    Except StoreError (Option Vertex) :=
  nearestContainer buffer start TypeName.isTableLike depths.table

def nearestSchema (depths : SearchDepths) (buffer : Graph) (start : VertexId) :
    Except StoreError (Option Vertex) :=
  nearestContainer buffer start TypeName.isSchemaLike depths.schema

/-- Sets a name where the container it comes from has one. -/
def nameAfter (key : String) (container : Option Vertex) (ps : Properties) : Properties :=
  match container.bind Vertex.displayName? with
  | some name => ps.insert key name
  | none => ps

/-! ## Edges and terms -/

def ensureEdge (label : EdgeLabel) (source target : VertexId) (t : Transaction) :
    Except StoreError Transaction := do
  if hasEdge t source label.name target then return t
  let (_, t) ← t.addEdge label.name source target ∅
  return t

/-- The term that an instance in the buffer stands for. -/
def ensureTerm (term : Vertex) (t : Transaction) : VertexId × Transaction :=
  let guid := term.guid?.getD ""
  match vertexWith? t Key.nodeId guid with
  | some v => (v.id, t)
  | none => t.addVertex NodeLabel.glossaryTerm.name (term.properties.insert Key.nodeId guid)

/-- Links two terms, unless they are linked one way or the other. -/
def ensureSynonym (term synonym : VertexId) (t : Transaction) : Except StoreError Transaction := do
  let label := EdgeLabel.synonym.name
  if hasEdge t term label synonym || hasEdge t synonym label term then return t
  let (_, t) ← t.addEdge label term synonym ∅
  return t

/-- The vertices next to one over a relationship of a type, as far as they carry a guid. -/
def relatedInstances (buffer : Graph) (v : VertexId) (type : String) :
    Except StoreError (List Vertex) := do
  let found ← neighbors buffer v .both (some type)
  return (found.map Prod.snd).filter fun u => u.guid?.isSome

/-- The term with its synonyms in the buffer. -/
def ensureTermAndSynonyms (buffer : Graph) (term : Vertex) (t : Transaction) :
    Except StoreError (VertexId × Transaction) := do
  let (id, t) := ensureTerm term t
  let synonyms ← relatedInstances buffer term.id TypeName.synonym
  let t ← synonyms.foldlM (fun t s => let (other, t) := ensureTerm s t; ensureSynonym id other t) t
  return (id, t)

/-- Links an asset to every term that its instance is assigned to. -/
def attachTerms (buffer : Graph) (inst : VertexId) (asset : VertexId) (t : Transaction) :
    Except StoreError Transaction := do
  let terms ← relatedInstances buffer inst TypeName.semanticAssignment
  terms.foldlM (fun t term => do
    let (id, t) ← ensureTermAndSynonyms buffer term t
    ensureEdge .semantic asset id t) t

/-! ## Assets, processes and tables -/

def assetLabel (inst : Vertex) : NodeLabel :=
  if TypeName.isTableLike inst.label then .table else .column

/-- The properties of an asset made from an instance: its own, its identity, and the names of the
table and the schema around it. -/
def assetProperties (depths : SearchDepths) (buffer : Graph) (inst : Vertex) (guid : String) :
    Except StoreError Properties := do
  let table ← nearestTable depths buffer inst.id
  let schema ← nearestSchema depths buffer inst.id
  return inst.properties.insert Key.nodeId guid
    |> nameAfter Key.tableDisplayName table
    |> nameAfter Key.schemaDisplayName schema

def ensureAsset (depths : SearchDepths) (buffer : Graph) (inst : Vertex) (guid : String)
    (t : Transaction) : Except StoreError (VertexId × Transaction) := do
  match vertexWith? t Key.nodeId guid with
  | some v => return (v.id, t)
  | none =>
    let properties ← assetProperties depths buffer inst guid
    let (id, t) := t.addVertex (assetLabel inst).name properties
    let t ← attachTerms buffer inst.id id t
    return (id, t)

/-- Whether two columns are linked already through a sub-process of the process. -/
def isPresent (t : Transaction) (columnIn columnOut : VertexId) (processGuid : String) :
    Except StoreError Bool := do
  let label := EdgeLabel.columnAndProcess.name
  let found ← neighbors t columnIn .outward (some label)
  return found.any fun (_, s) =>
    s.label == NodeLabel.subProcess.name && s.guid? == some processGuid &&
      hasEdge t s.id label columnOut

def processProperties (nodeId : String) (p : ProcessRef) : Properties :=
  let ps : Properties := (∅ : Properties).insert Key.nodeId nodeId |>.insert Key.guid p.guid
  match p.displayName with
  | some name => ps.insert Key.displayName name
  | none => ps

def ensureProcess (p : ProcessRef) (t : Transaction) : VertexId × Transaction :=
  let found := (verticesWith t Key.nodeId p.guid).find? fun v => v.label == NodeLabel.process.name
  match found with
  | some v => (v.id, t)
  | none => t.addVertex NodeLabel.process.name (processProperties p.guid p)

def ensureTable (depths : SearchDepths) (buffer : Graph) (column : Vertex) (columnGuid : String)
    (t : Transaction) : Except LineageError (VertexId × Transaction) := do
  let some table ← nearestTable depths buffer column.id | throw (.missingTable columnGuid)
  let some guid := table.guid? | throw (.missingTable columnGuid)
  match vertexWith? t Key.nodeId guid with
  | some v => return (v.id, t)
  | none =>
    let schema ← nearestSchema depths buffer table.id
    return t.addVertex NodeLabel.table.name
      (nameAfter Key.schemaDisplayName schema (table.properties.insert Key.nodeId guid))

/-- The side of the process that a table is on. -/
inductive TableRole where
  | input
  | output
deriving DecidableEq, Repr

def linkTable (buffer : Graph) (role : TableRole) (table process column : VertexId)
    (t : Transaction) : Except StoreError Transaction := do
  let (source, target) := match role with
    | .input => (table, process)
    | .output => (process, table)
  let t ← ensureEdge .tableAndProcess source target t
  let t ← ensureEdge .includedIn column table t
  let v ← requireVertex t table
  match v.guid?.bind fun guid => vertexWith? buffer Key.guid guid with
  | some inst => attachTerms buffer inst.id table t
  | none => return t

/-! ## Fragments -/

variable [StepIds]

/-- Adds the sub-process of a fragment and the edges through it. -/
def addSubProcess (p : ProcessRef) (columnIn columnOut : VertexId) (t : Transaction) :
    Except StoreError (VertexId × Transaction) := do
  let label := EdgeLabel.columnAndProcess.name
  let nodeId := StepIds.nodeId t.overlay.nextVertex
  let (id, t) := t.addVertex NodeLabel.subProcess.name (processProperties nodeId p)
  let (_, t) ← t.addEdge label columnIn id ∅
  let (_, t) ← t.addEdge label id columnOut ∅
  return (id, t)

/-- Folds a fragment into an open transaction; yields the new sub-process, or nothing if the
fragment is there already. -/
def fold (depths : SearchDepths) (buffer : Graph) (f : Fragment) (t : Transaction) :
    Except LineageError (Option VertexId × Transaction) := do
  let instIn ← bufferVertex buffer f.columnIn
  let instOut ← bufferVertex buffer f.columnOut
  let (columnIn, t) ← ensureAsset depths buffer instIn f.columnIn t
  let (columnOut, t) ← ensureAsset depths buffer instOut f.columnOut t
  if ← isPresent t columnIn columnOut f.process.guid then return (none, t)
  let (sub, t) ← addSubProcess f.process columnIn columnOut t
  let (process, t) := ensureProcess f.process t
  let (_, t) ← t.addEdge EdgeLabel.subprocessToProcess.name sub process ∅
  let (tableIn, t) ← ensureTable depths buffer instIn f.columnIn t
  let (tableOut, t) ← ensureTable depths buffer instOut f.columnOut t
  let t ← linkTable buffer .input tableIn process columnIn t
  let t ← linkTable buffer .output tableOut process columnOut t
  return (some sub, t)

/-- Consolidates a fragment. A graph comes back only where the fragment was applied: in every other
case the one that was given stands. -/
def consolidate (depths : SearchDepths) (buffer main : Graph) (f : Fragment) :
    Except LineageError (Outcome × Graph) := do
  match ← fold depths buffer f main.begin with
  | (none, t) => return (.alreadyPresent, t.rollback)
  | (some sub, t) => return (.applied (StepIds.nodeId sub), t.commit)

/-- The process of the buffer graph that has a guid. -/
def processRef (buffer : Graph) (guid : String) : Except LineageError ProcessRef := do
  let v ← bufferVertex buffer guid
  match ProcessRef.ofVertex? v with
  | some ref => return ref
  | none => throw (.notFound .consolidate guid)

/-- Consolidates a fragment whose process is looked up in the buffer graph. -/
def consolidateByGuid (depths : SearchDepths) (buffer main : Graph)
    (columnIn columnOut processGuid : String) : Except LineageError (Outcome × Graph) := do
  let process ← processRef buffer processGuid
  consolidate depths buffer main ⟨columnIn, columnOut, process⟩

end Consolidation

end Lineage
