import Lineage.Ingestion
import Lineage.Response

/-!
# Reports

What a command prints, line by line, about an ingestion and about a response. What has been printed
before a failure stays printed (`Report`).
-/

namespace Lineage.CommandLine

/-- The lines a command printed, and how it failed if it did. -/
structure Report where
  output : List String := []
  failure : Option String := none
deriving DecidableEq, Repr

namespace Report

def failed (reason : String) : Report := { failure := some reason }

def ofLines (output : List String) : Report := { output }

def exitCode (r : Report) : UInt32 := if r.failure.isNone then 0 else 1

end Report

def rule : String := "".pushn '=' 60

/-- A title between two rules. -/
def heading (title : String) : List String := ["", rule, title, rule]

def failureLine (f : FragmentFailure) : String :=
  let process := f.fragment.process.guid
  s!"    {f.fragment.columnIn} -> {f.fragment.columnOut} ({process}): {f.error.message}"

def rejectionLine (f : EventFailure) : String := s!"  #{f.index} {f.kind}: {f.error.message}"

/-- A count and the lines about what it counts, unless there is nothing to count. -/
def detail (title : String) (lines : List String) : List String :=
  if lines.isEmpty then [] else s!"{title}: {lines.length}" :: lines

def summaryLines (time : String) (s : Summary) : List String :=
  heading "Ingestion Summary" ++
    [s!"Timestamp: {time}",
      s!"Events applied: {s.events}",
      s!"Lineage fragments: {s.fragments}",
      s!"  Consolidated: {s.applied}",
      s!"  Already present: {s.alreadyPresent}"] ++
    detail "  Failed" (s.failed.map failureLine) ++
    detail "Events rejected" (s.rejected.map rejectionLine) ++ [""]

def vertexLines (v : ResponseVertex) : List String :=
  let name := v.displayName.getD "-"
  s!"  [{v.type}] {v.id} {name}" ::
    v.attributes.toList.map fun (key, value) => s!"      {key}: {value}"

def edgeLine (e : ResponseEdge) : String := s!"  {e.source} -[{e.label}]-> {e.destination}"

def responseLines (guid : String) (r : Response) : List String :=
  heading s!"Lineage for {guid}" ++
    s!"Vertices ({r.vertices.length}):" :: r.vertices.flatMap vertexLines ++
    ["", s!"Edges ({r.edges.length}):"] ++ r.edges.map edgeLine ++ [""]

end Lineage.CommandLine
