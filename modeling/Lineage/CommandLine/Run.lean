import Lineage.CommandLine.Arguments
import Lineage.CommandLine.Report
import Lineage.Service
import Lineage.Storage

/-!
# Running commands

A command loads the settings and the graphs, does its work, saves the graphs if it changed them, and
reports.
-/

namespace Lineage.CommandLine

/-- A program that may fail with a message. -/
abbrev Program (m : Type → Type) := ExceptT String m

variable {m : Type → Type} [Monad m]

/-- Lets a computation fail with a message of its own. -/
def orFail {ε α : Type} (message : ε → String) (x : Except ε α) : Program m α :=
  ExceptT.mk (return x.mapError message)

def orFailIn {ε α : Type} (message : ε → String) (x : m (Except ε α)) : Program m α :=
  ExceptT.mk (return (← x).mapError message)

variable [Files m]

def settingsFile : String := "lineafold.toml"

/-- The settings of a run: from the file named, or else from the usual one if it is there. -/
def loadSettings (config : Option String) : Program m Settings := do
  match config with
  | some path => orFailIn SettingsError.message (Settings.load path)
  | none =>
    if ← (Files.isPresent settingsFile : m Bool) then
      orFailIn SettingsError.message (Settings.load settingsFile)
    else return { projectRoot := ← (Files.workingDirectory : m String) }

/-- The message about graphs in a file that cannot be used. -/
def loadFailure (directory : String) (_ : StoreError) : String :=
  s!"loading graphs from {directory}"

def saveGraphs (s : Service) (directory : String) : Program m Unit :=
  orFailIn StoreError.message (s.graphs.save directory).run

def readEvents (path : String) : Program m (List Event) := do
  let text ← orFailIn (fun _ => s!"reading events from {path}") (Files.read path)
  match Event.readList? text with
  | some es => return es
  | none => throw s!"parsing events from {path}"

def ingest [StepIds] (s : Service) (time directory path : String) : Program m Report := do
  let es ← readEvents path
  let (summary, s) := s.ingestAll es
  saveGraphs s directory
  let output := summaryLines time summary
  if summary.isClean then return .ofLines output
  else
    let failed := summary.failed.length
    let rejected := summary.rejected.length
    return ⟨output, some s!"{failed} fragment(s) not consolidated, {rejected} event(s) rejected"⟩

def consolidate [StepIds] (s : Service) (directory columnIn columnOut process : String) :
    Program m Report := do
  let (outcome, s) ← orFail LineageError.message (s.consolidateByGuid columnIn columnOut process)
  match outcome with
  | .applied subProcess =>
    saveGraphs s directory
    return .ofLines [s!"Consolidated {columnIn} -> {columnOut} (sub-process {subProcess})"]
  | .alreadyPresent => return .ofLines [s!"Already present: {columnIn} -> {columnOut}"]

def query (s : Service) (guid graph scope view : String) (json : Bool) : Program m Report := do
  let r ← orFail LineageError.message (s.queryText graph scope view guid)
  return .ofLines (if json then [r.write] else responseLines guid r)

def mock [StepIds] (s : Service) (time directory : String) (tables columns : Nat) :
    Program m Report := do
  let (summary, s) := s.populateMock ⟨tables, columns⟩
  saveGraphs s directory
  let output := summaryLines time summary
  if summary.isClean then return .ofLines output
  else
    let failed := summary.failed.length
    return ⟨output, some s!"mock generation left {failed} fragment(s) unconsolidated"⟩

def dump (s : Service) (directory graph : String) : Program m Report := do
  let name ← orFail RequestError.message (GraphName.parse graph)
  let path ← orFailIn (fun e => LineageError.message (.store e))
    ((s.graphs.get name).dump directory).run
  return .ofLines [s!"Dumped {name.name} graph to {path}"]

def exportGraph (s : Service) (graph : String) : Program m Report := do
  let name ← orFail RequestError.message (GraphName.parse graph)
  return .ofLines [s.exportText name]

def execute [StepIds] (s : Service) (time directory : String) : Command → Program m Report
  | .ingest events => ingest s time directory events
  | .consolidate columnIn columnOut process => consolidate s directory columnIn columnOut process
  | .query guid graph scope view json => query s guid graph scope view json
  | .mock tables columns => mock s time directory tables columns
  | .dump graph output => dump s (output.getD directory) graph
  | .export graph => exportGraph s graph

/-- Runs an invocation; `time` is what the reports are stamped with. -/
def Invocation.run [StepIds] (i : Invocation) (time : String) : m Report := do
  let program : Program m Report := do
    let settings ← loadSettings i.config
    let directory := i.stateDirectory.getD settings.resolvedStateDirectory
    let graphs ← orFailIn (loadFailure directory) (GraphSet.restore directory).run
    execute ⟨graphs, settings⟩ time directory i.command
  match ← program.run with
  | .ok report => return report
  | .error reason => return .failed reason

end Lineage.CommandLine
