import Lineage.Consolidation
import Lineage.GraphSet

/-!
# Ingestion

An event is written to the buffer graph and the fragments it carries are consolidated one by one; a
fragment that cannot be consolidated does not hold up the others. In a batch a refused event is
noted and passed over. The summary accounts for every event and every fragment (`Summary`).
-/

namespace Lineage

/-- A fragment left out, and why. -/
structure FragmentFailure where
  fragment : Fragment
  error : LineageError
deriving DecidableEq, Repr

/-- An event refused by the buffer graph, with its place in the batch. -/
structure EventFailure where
  index : Nat
  kind : String
  error : LineageError
deriving DecidableEq, Repr

structure Summary where
  /-- Events written to the buffer graph. -/
  events : Nat := 0
  /-- Fragments they carried. -/
  fragments : Nat := 0
  applied : Nat := 0
  alreadyPresent : Nat := 0
  failed : List FragmentFailure := []
  rejected : List EventFailure := []
deriving DecidableEq, Repr

namespace Summary

def isClean (s : Summary) : Bool := s.failed.isEmpty && s.rejected.isEmpty

def add (s s' : Summary) : Summary where
  events := s.events + s'.events
  fragments := s.fragments + s'.fragments
  applied := s.applied + s'.applied
  alreadyPresent := s.alreadyPresent + s'.alreadyPresent
  failed := s.failed ++ s'.failed
  rejected := s.rejected ++ s'.rejected

def reject (s : Summary) (index : Nat) (e : Event) (error : LineageError) : Summary :=
  { s with rejected := s.rejected ++ [⟨index, e.kind, error⟩] }

end Summary

/-- A buffer graph and the graph its lineage is consolidated into. -/
structure Workspace where
  buffer : Graph
  main : Graph
deriving DecidableEq

namespace Workspace

variable [StepIds]

/-- Consolidates a fragment and notes how it went. -/
def consolidateNoting (depths : SearchDepths) (w : Workspace) (s : Summary) (f : Fragment) :
    Summary × Workspace :=
  match Consolidation.consolidate depths w.buffer w.main f with
  | .ok (.applied _, main) => ({ s with applied := s.applied + 1 }, { w with main })
  | .ok (.alreadyPresent, main) =>
    ({ s with alreadyPresent := s.alreadyPresent + 1 }, { w with main })
  | .error e => ({ s with failed := s.failed ++ [⟨f, e⟩] }, w)

def consolidateAll (depths : SearchDepths) :
    List Fragment → Summary → Workspace → Summary × Workspace
  | [], s, w => (s, w)
  | f :: fs, s, w =>
    let (s, w) := consolidateNoting depths w s f
    consolidateAll depths fs s w

/-- Ingests an event; it fails only where the buffer graph refuses the event. -/
def ingest (depths : SearchDepths) (w : Workspace) (e : Event) :
    Except LineageError (Summary × Workspace) := do
  let (fragments, buffer) ← Buffer.apply w.buffer e
  return consolidateAll depths fragments { events := 1, fragments := fragments.length }
    { w with buffer }

/-- Ingests events in order, the first of which has the given place in the batch. -/
def ingestFrom (depths : SearchDepths) :
    Nat → List Event → Summary → Workspace → Summary × Workspace
  | _, [], s, w => (s, w)
  | index, e :: es, s, w =>
    match ingest depths w e with
    | .ok (s', w) => ingestFrom depths (index + 1) es (s.add s') w
    | .error error => ingestFrom depths (index + 1) es (s.reject index e error) w

def ingestAll (depths : SearchDepths) (w : Workspace) (es : List Event) : Summary × Workspace :=
  ingestFrom depths 0 es {} w

end Workspace

end Lineage
