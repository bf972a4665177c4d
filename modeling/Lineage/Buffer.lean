import Lineage.Error
import Lineage.Event
import Lineage.Fragment
import Lineage.Graph.Transaction

/-!
# The buffer graph

Events are written into a buffer graph, each in a transaction of its own: an entity is a vertex
under its guid, a relationship an edge. Events may come repeated. The first event for a guid fixes
its label, later ones overwrite its properties one by one, and a relationship is added once for
each type and pair of ends. Only a relationship to an unknown entity is refused (`Buffer.apply`).
-/

namespace Lineage.Buffer

/-- The properties of an instance under the keys they are stored under. -/
def storedProperties (ps : Properties) : Properties :=
  ps.toList.foldl (fun stored p => stored.insert (Key.ofEntity p.1) p.2) ∅

def overwrite (id : VertexId) (ps : Properties) (t : Transaction) : Except StoreError Transaction :=
  (storedProperties ps).toList.foldlM (fun t p => t.setProperty id p.1 p.2) t

def upsert (e : Entity) (t : Transaction) : Except LineageError (VertexId × Transaction) := do
  match vertexWith? t Key.guid e.guid with
  | some v =>
    let t ← overwrite v.id e.properties t
    return (v.id, t)
  | none => return t.addVertex e.type ((storedProperties e.properties).insert Key.guid e.guid)

/-- The vertex at an end of a relationship. -/
def endVertex (t : Transaction) (guid : String) : Except LineageError Vertex :=
  match vertexWith? t Key.guid guid with
  | some v => .ok v
  | none => .error (.notFound .applyRelationship guid)

def relate (r : Relationship) (t : Transaction) : Except LineageError Transaction := do
  let one ← endVertex t r.endOne
  let two ← endVertex t r.endTwo
  if hasEdge t one.id r.type two.id then return t
  let (_, t) ← t.addEdge r.type one.id two.id
    ((storedProperties r.properties).insert Key.guid r.guid)
  return t

/-- Upserts the process and yields one fragment for each mapping, in order. -/
def applyContext (process : Entity) (mappings : List ColumnMapping) (t : Transaction) :
    Except LineageError (List Fragment × Transaction) := do
  let (id, t) ← upsert process t
  let v ← requireVertex t id
  match ProcessRef.ofVertex? v with
  | none => throw (.notFound .applyProcessContext process.guid)
  | some ref => return (mappings.map fun m => ⟨m.input, m.output, ref⟩, t)

def applyTo (t : Transaction) : Event → Except LineageError (List Fragment × Transaction)
  | .newEntity e | .updatedEntity e => do
    let (_, t) ← upsert e t
    return ([], t)
  | .newRelationship r => do
    let t ← relate r t
    return ([], t)
  | .processContext process mappings => applyContext process mappings t

/-- Writes an event, and yields the fragments it carries. -/
def apply (buffer : Graph) (e : Event) : Except LineageError (List Fragment × Graph) := do
  let (fragments, t) ← applyTo buffer.begin e
  return (fragments, t.commit)

end Lineage.Buffer
