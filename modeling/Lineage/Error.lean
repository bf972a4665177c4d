import Lineage.Graph.Basic
import Lineage.Request

/-!
# Errors of the lineage operations

Each names the operation that failed and the guid it failed on, so that the message can be acted
upon without a look into a graph.
-/

namespace Lineage

/-- What was being done with the buffer graph. -/
inductive BufferUse where
  | consolidate
  | applyRelationship
  | applyProcessContext
deriving DecidableEq, Repr

def BufferUse.name : BufferUse → String
  | consolidate => "consolidate"
  | applyRelationship => "apply_relationship"
  | applyProcessContext => "apply_process_context"

inductive LineageError where
  /-- An instance that is needed is not in the buffer graph. -/
  | notFound (use : BufferUse) (guid : String)
  /-- The vertex asked about is not in the graph asked. -/
  | nodeNotFound (scope : Scope) (graph : GraphName) (guid : String)
  /-- A column has no enclosing table within the search depth. -/
  | missingTable (guid : String)
  /-- Following the lineage never comes to an end. -/
  | cycle (scope : Scope) (guid : String)
  | request (cause : RequestError)
  | store (cause : StoreError)
deriving DecidableEq, Repr

namespace LineageError

def message : LineageError → String
  | notFound use guid =>
    s!"{use.name}: no vertex with guid '{guid}' in the {GraphName.buffer.name} graph"
  | nodeNotFound scope graph guid =>
    s!"{scope.name}: node '{guid}' not found in the {graph.name} graph"
  | missingTable guid =>
    s!"{BufferUse.consolidate.name}: no enclosing table found for column '{guid}'"
  | cycle scope guid => s!"{scope.name}: lineage cycle detected starting from '{guid}'"
  | request cause => cause.message
  | store cause => "Graph store error: " ++ cause.message

/-- Whether the caller is to blame, and not the state of a graph. -/
def isRequestError : LineageError → Bool
  | request _ => true
  | _ => false

end LineageError

instance : MonadLift (Except StoreError) (Except LineageError) := ⟨fun x => x.mapError .store⟩

instance : MonadLift (Except RequestError) (Except LineageError) := ⟨fun x => x.mapError .request⟩

end Lineage
