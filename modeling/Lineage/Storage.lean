import Lineage.GraphSet
import Lineage.Path

/-!
# Graphs in files

A graph is kept as a document in a file of its name, the graphs of a set side by side in one
directory. Loading takes an empty graph where there is no file; saving makes the directory.
-/

namespace Lineage

variable {m : Type → Type} [Monad m] [Files m]

def fileOperation {α : Type} (x : m (Except FileError α)) : ExceptT StoreError m α :=
  ExceptT.mk (return (← x).mapError .file)

namespace Graph

/-- Where a graph of a name is kept. -/
def filePath (directory name : String) : String := Path.join directory (name ++ ".json")

/-- Writes a graph into a directory, and yields the path of the file. -/
def dump (g : Graph) (directory : String) : ExceptT StoreError m String := do
  fileOperation (Files.createDirectories directory)
  let path := filePath directory g.name
  fileOperation (Files.write path g.exportText)
  return path

def loadFile (name path : String) : ExceptT StoreError m Graph := do
  let text ← fileOperation (Files.read path)
  ExceptT.mk (return Graph.load name text)

/-- The graph of a name in a directory, empty if no file is there. -/
def restore (directory : String) (name : GraphName) : ExceptT StoreError m Graph := do
  let path := filePath directory name.name
  if ← (Files.isPresent path : m Bool) then loadFile name.name path else return .empty name.name

end Graph

namespace GraphSet

def restore (directory : String) : ExceptT StoreError m GraphSet := do
  return {
    main := ← Graph.restore directory .main
    buffer := ← Graph.restore directory .buffer
    mock := ← Graph.restore directory .mock
    history := ← Graph.restore directory .history }

def save (s : GraphSet) (directory : String) : ExceptT StoreError m Unit :=
  GraphName.all.forM fun name => do
    let _ ← (s.get name).dump directory

end GraphSet

end Lineage
