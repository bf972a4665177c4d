import Lineage.Query
import Lineage.Settings
import Lineage.Synthetic

/-!
# The lineage service

A set of graphs with the settings to use them by. Events go through the buffer graph into the main
graph; queries and exports read any graph of the set.
-/

namespace Lineage

structure Service where
  graphs : GraphSet
  settings : Settings
deriving DecidableEq

namespace Service

def workspace (s : Service) : Workspace := ⟨s.graphs.buffer, s.graphs.main⟩

def withWorkspace (s : Service) (w : Workspace) : Service :=
  { s with graphs := { s.graphs with buffer := w.buffer, main := w.main } }

def withMain (s : Service) (main : Graph) : Service :=
  { s with graphs := { s.graphs with main } }

section Writing

variable [StepIds]

def ingest (s : Service) (e : Event) : Except LineageError (Summary × Service) := do
  let (summary, w) ← s.workspace.ingest s.settings.depths e
  return (summary, s.withWorkspace w)

def ingestAll (s : Service) (es : List Event) : Summary × Service :=
  let (summary, w) := s.workspace.ingestAll s.settings.depths es
  (summary, s.withWorkspace w)

def consolidate (s : Service) (f : Fragment) : Except LineageError (Outcome × Service) := do
  let (outcome, main) ← Consolidation.consolidate s.settings.depths s.graphs.buffer s.graphs.main f
  return (outcome, s.withMain main)

def consolidateByGuid (s : Service) (columnIn columnOut process : String) :
    Except LineageError (Outcome × Service) := do
  let (outcome, main) ← Consolidation.consolidateByGuid s.settings.depths s.graphs.buffer
    s.graphs.main columnIn columnOut process
  return (outcome, s.withMain main)

/-- Consolidates a synthetic chain into the mock graph. -/
def populateMock (s : Service) (c : SyntheticChain) : Summary × Service :=
  let (summary, mock) := c.populate s.settings.depths s.graphs.mock
  (summary, { s with graphs := { s.graphs with mock } })

end Writing

def query (s : Service) (name : GraphName) (scope : Scope) (view : View) (text : String) :
    Except LineageError Response :=
  s.graphs.query s.settings.whitelist name scope view text

def queryText (s : Service) (graph scope view text : String) : Except LineageError Response :=
  s.graphs.queryText s.settings.whitelist graph scope view text

def exportText (s : Service) (name : GraphName) : String := (s.graphs.get name).exportText

end Service

end Lineage
